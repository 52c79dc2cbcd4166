import MbKeeper.Isolation
import MbKeeper.RunTrace

/-!
# The generations over a whole run

`Layout` says how the paths of a configuration lie: every local destination has
a directory of its own. Under it a run, wherever it ends, keeps what `Kept` says
of every local destination at once: its stores add a generation to one directory
after the other, its purges remove what is outside the newest, and everything
else that it does happens elsewhere. A destination that a run reports as stored
has the generation of the run.
-/
namespace MbKeeper

/-- The prefix of the ids is no path, and no configured path of this node goes up. On the way of one
that does, the operating system wants the directories there that the lexical reading passes over. -/
structure Config.Straight (config : Config) : Prop where
  slash : '/' ∉ config.backup.name_prefix.toList
  work_parts : ".." ∉ config.backup.work_dir.parts
  lock_parts : ".." ∉ config.lock.file.parts
  log_parts : ∀ text, config.logging.file = .str text → ".." ∉ (PurePath.parse text).parts
  local_parts : ∀ dest ∈ config.destinations, dest.type = .local →
    ".." ∉ (PurePath.parse dest.path).parts

section

variable (cwd : Loc) (nodes : String → RemoteNode) (config : Config)

/-- Every local destination has a directory of its own, apart from those of the others and from
what else an invocation writes to on this node. -/
structure Layout : Prop extends config.Straight where
  path : ∀ dest ∈ config.destinations, dest.type = .local →
    ∀ s ∈ (PurePath.parse dest.path).parts, hasNul s = false
  each : ∀ dest ∈ config.destinations, ∀ other ∈ config.destinations, dest.type = .local →
    other.type = .local → dest ≠ other → ¬ localRoot cwd dest <+: localRoot cwd other
  work : ∀ dest ∈ config.destinations, dest.type = .local →
    Elsewhere.Apart (work_dir (site cwd nodes) config) (localRoot cwd dest)
  lock : ∀ dest ∈ config.destinations, dest.type = .local →
    Elsewhere.Apart (Path.configured cwd config.lock.file) (localRoot cwd dest)
  lock_dir : ∀ dest ∈ config.destinations, dest.type = .local →
    (Path.configured cwd config.lock.file.parent).nul = false →
      ¬ localRoot cwd dest <+: (Path.configured cwd config.lock.file.parent).loc
  log : ∀ dest ∈ config.destinations, dest.type = .local → ∀ text, config.logging.file = .str text →
    text ≠ "" → Elsewhere.Apart (Path.configured cwd (PurePath.parse text)) (localRoot cwd dest)

end

variable {cwd : Loc} {nodes : String → RemoteNode} {config : Config} {dest : DestinationConfig}
  {P : Loc}

namespace Elsewhere

theorem configured_at {p : PurePath} (h : (Path.configured cwd p).nul = false) :
    (Path.configured cwd p).At (Path.configured cwd p).loc :=
  Path.configured_at (by simpa [Path.configured] using h)

/-- What lies apart from an entry of a directory and is no part of the way to it. -/
theorem Apart.child {p : Path} (h : Apart p P) (hat : p.nul = false → p.At p.loc) (x : Name) :
    Apart (p.child x) P := by
  intro hnul
  obtain ⟨hl, hP⟩ := h hnul
  rw [((hat hnul).child x).loc_eq]
  refine ⟨fun hq => hl ((List.prefix_append _ _).trans hq), fun hq => ?_⟩
  rcases List.prefix_concat_iff.mp hq with he | hq
  · exact hl (he ▸ List.prefix_append _ _)
  · exact hP hq

theorem acquire_lock {p : PurePath} (h : Apart (Path.configured cwd p) P)
    (hdir : (Path.configured cwd p.parent).nul = false →
      ¬ P <+: (Path.configured cwd p.parent).loc) :
    Moves (Elsewhere P) (acquire_lock cwd p) := by
  refine Moves.bind (mkdir hdir configured_at) (fun _ =>
    Moves.bind (write_text h _ _) (fun _ => ?_))
  refine Moves.tryCatch (ask _) (fun e => ?_)
  split <;> exact Moves.throw _

theorem cleanup {work : Path} (h : Apart work P) (hat : work.nul = false → work.At work.loc)
    (keep_id : String) : Moves (Elsewhere P) (cleanup_stale_work_dir work keep_id) := by
  have hentry (x : Name) : Moves (Elsewhere P) (cleanup_entry work keep_id x) :=
    Moves.bind (ask _) (fun _ => Moves.ite (rmtree (h.child hat x) true) (Moves.pure _))
  have hentries (xs : List Name) : Moves (Elsewhere P) (cleanup_entries work keep_id xs) := by
    induction xs with
    | nil => exact Moves.pure _
    | cons x xs ih => exact Moves.bind (hentry x) (fun _ => ih)
  exact Moves.bind (ask _) (fun _ => Moves.ite (Moves.bind (ask _) (fun xs => hentries xs))
    (Moves.pure _))

theorem same {α : Type} {m : Io α} (h : Moves Same m) : Moves (Elsewhere P) m :=
  h.mono (fun _ _ hs => of_same hs)

theorem untouched {α : Type} {m : Io α} (h : Moves (Confined ∅) m) : Moves (Elsewhere P) m :=
  h.mono (fun _ _ hc => of_confined hc (fun _ _ => Set.notMem_empty _))

theorem communicate {target : Path} (h : Apart target P) (timeout_seconds : ℕ) :
    Moves (Elsewhere P) (communicate target timeout_seconds) := by
  refine moves_below h (fun hnul w => ?_) (communicate_moves target timeout_seconds)
  rw [MbKeeper.communicate, exec_primitive, Path.find_nul hnul]
  cases (w.tape 0).fault <;> exact same_next w

theorem execute {target : Path} (h : Apart target P)
    (hat : target.nul = false → target.At target.loc)
    (runner : MariabackupRunner) (argv : List Toml) (p : Phase) :
    Moves (OnWorld (Elsewhere P)) (runner.execute argv target p) :=
  Moves.bind (untouched (MariabackupRunner.launch_moves ∅ argv p)).lift (fun _ =>
    Moves.bind (communicate h _).lift (fun _ => Moves.bind (Moves.note _) (fun _ =>
      Moves.bind (write_text (h.child hat _) _ _).lift (fun _ =>
        (untouched (MariabackupRunner.verdict_moves runner ∅ _ _ _)).lift))))

theorem phases {target : Path} (h : Apart target P)
    (hat : target.nul = false → target.At target.loc) :
    Moves (OnWorld (Elsewhere P)) (phases config target) := by
  refine Moves.tryCatch (Moves.bind ((execute h hat _ _ _).noted _) (fun _ => Moves.bind ?_
    (fun _ => Moves.pure _))) (fun e => ?_)
  · exact Moves.ite ((execute h hat _ _ _).noted _) (Moves.pure _)
  · split
    · exact Moves.pure _
    · exact Moves.throw _

theorem record_meta {target : Path} (h : Apart target P)
    (hat : target.nul = false → target.At target.loc) (backup_id server_version : String)
    (started_at finished_at : Datetime) : Moves (Elsewhere P)
      (record_meta config target backup_id server_version started_at finished_at) :=
  Moves.bind (ask _) (fun _ => Moves.bind (same (MariabackupRunner.get_version_moves _)) (fun _ =>
    Moves.bind (ask _) (fun _ => write_text (h.child hat _) _ _)))

end Elsewhere

section

variable (cwd : Loc) (config : Config)

/-- Every local destination has kept its newest; `last` is the second of the last run. -/
def KeptEach (last : Option ℤ) (w : World) : Prop :=
  ∀ dest ∈ config.destinations, dest.type = .local →
    Kept config.backup.name_prefix dest.keep (localRoot cwd dest) last w

/-- What happened, happened elsewhere than at the local destinations. -/
def Undisturbed (w w' : World) : Prop :=
  ∀ dest ∈ config.destinations, dest.type = .local → Elsewhere (localRoot cwd dest) w w'

end

instance : Std.Refl (Undisturbed cwd config) := ⟨fun w _ _ _ => refl_of (Elsewhere _) w⟩

instance : IsTrans World (Undisturbed cwd config) :=
  ⟨fun _ _ _ h h' dest hd hl => trans_of (Elsewhere _) (h dest hd hl) (h' dest hd hl)⟩

section

variable {pre : String} {keep : ℕ} {last last' : Option ℤ} {w w' : World}

theorem Kept.later (h : Kept pre keep P last w)
    (hl : ∀ l, last = some l → ∃ l', last' = some l' ∧ l ≤ l') : Kept pre keep P last' w :=
  h.unchanged (fun _ _ => rfl) rfl (List.Subset.refl _) hl

theorem Kept.elsewhere (h : Kept pre keep P last w) (he : Elsewhere P w w') :
    Kept pre keep P last w' :=
  h.unchanged (fun y r => he.kind _ ⟨[y] ++ r, by simp⟩) he.committed he.commits
    (fun l hl => ⟨l, hl, le_rfl⟩)

theorem KeptEach.later (h : KeptEach cwd config last w)
    (hl : ∀ l, last = some l → ∃ l', last' = some l' ∧ l ≤ l') : KeptEach cwd config last' w :=
  fun dest hd hlocal => (h dest hd hlocal).later hl

theorem KeptEach.undisturbed (h : KeptEach cwd config last w) (hu : Undisturbed cwd config w w') :
    KeptEach cwd config last w' :=
  fun dest hd hlocal => (h dest hd hlocal).elsewhere (hu dest hd hlocal)

theorem Layout.isLocal (h : Layout cwd nodes config) (hd : dest ∈ config.destinations)
    (hl : dest.type = .local) : dest.IsLocal := ⟨hl, h.path dest hd hl⟩

theorem build_ssh (htype : dest.type = .ssh) (transfer : TransferConfig) :
    (site cwd nodes).build_destination dest transfer =
      (SSHDestination.from_config nodes dest transfer).toDestination := by
  simp [site, build_destination, htype]

end

/-- The generation to be stored: where it is, and that it has its manifest. -/
structure Prepared (target : Path) (w : World) : Prop where
  leads : target.At target.loc
  manifest : ∃ data, w.fs.kind (target.loc ++ [META_FILENAME]) = some (.file data)

theorem Prepared.elsewhere {target : Path} {w w' : World} (h : Prepared target w)
    (he : Elsewhere target.loc w w') : Prepared target w' := by
  obtain ⟨data, hdata⟩ := h.manifest
  refine ⟨h.leads, data, ?_⟩
  rw [he.kind _ (List.prefix_append _ _), hdata]

/-- What the loop over the stores carries: those of `dests` are still to come. -/
structure Storing (cwd : Loc) (config : Config) (target : Path) (last : Option ℤ) (sec : ℤ)
    (dests : List DestinationConfig) (w : World) : Prop where
  nodup : dests.Nodup
  subset : dests ⊆ config.destinations
  prepared : Prepared target w
  waiting : ∀ dest ∈ dests, dest.type = .local →
    Kept config.backup.name_prefix dest.keep (localRoot cwd dest) last w
  kept : KeptEach cwd config (some sec) w

/-- A store that returned has committed the generation. -/
theorem LocalDestination.store_delivers {d : LocalDestination} (hp : d.path.At P) {pre : String}
    {keep : ℕ} {last : Option ℤ} {w w' : World} (h : Kept pre keep P last w) {x : Name}
    {last' : Option ℤ} (hmade : Made pre last' x) {src : Path} {res : Except Exn Unit}
    (hrun : exec (d.store src x.val) w = (res, w')) (hres : res = .ok ()) :
    x ∈ committed none P w' := by
  rcases LocalDestination.store_cases hp hrun with ⟨hsame, hok⟩ | ⟨-, ⟨-, hne⟩ | ⟨u, hc, -⟩⟩
  · -- what is there under the name of the id was committed
    obtain ⟨data, hdata⟩ := (FileTree.isFile_iff _ _).mp (hok hres)
    have hkind : w.fs.kind (P ++ [x] ++ [META_FILENAME]) ≠ none := by rw [hdata]; exact nofun
    rw [committed_congr hsame.commits]
    refine (h.entries x _ hkind).resolve_right ?_
    rintro (⟨y, -, -, hy⟩ | ⟨hy, -⟩)
    · exact plain_ne_partialName hmade.plain hy
    · exact hmade.ne_probe hy
  · exact absurd hres hne
  · rw [committed_append hc.commits]
    exact List.mem_append_right _ List.mem_cons_self

/-- What is stored is the generation `x` of a run at `t`, later than the last, and it lies apart
from the local destinations. -/
structure Stores (cwd : Loc) (config : Config) (target : Path) (last : Option ℤ)
    (now : Datetime) (t : Instant) (x : Name) : Prop where
  apart : ∀ dest ∈ config.destinations, dest.type = .local →
    Elsewhere.Apart target (localRoot cwd dest)
  instant : now.instant = some t
  year : FourDigitYear t
  later : ∀ l, last = some l → l < second t
  id : generate_backup_id config.backup.name_prefix now = .ok x.val

section

variable {target : Path} {last : Option ℤ} {now : Datetime} {t : Instant} {x : Name}
  {dests : List DestinationConfig} {w w' : World}

theorem Stores.made (h : Stores cwd config target last now t x) :
    Made config.backup.name_prefix (some (second t)) x :=
  ⟨now, t, _, h.id, h.instant, h.year, rfl, le_rfl⟩

/-- A store at one destination happens elsewhere than at the others and at the generation. -/
theorem Storing.store_elsewhere (hlayout : Layout cwd nodes config)
    (hs : Stores cwd config target last now t x) (hd : dest ∈ config.destinations)
    (hleads : target.At target.loc) :
    (∀ other ∈ config.destinations, other.type = .local → other ≠ dest →
        Moves (Elsewhere (localRoot cwd other))
          (((site cwd nodes).build_destination dest config.transfer).store target x.val)) ∧
      Moves (Elsewhere target.loc)
        (((site cwd nodes).build_destination dest config.transfer).store target x.val) := by
  cases htype : dest.type with
  | ssh =>
    rw [build_ssh htype]
    have honly := ((SSHDestination.from_config nodes dest config.transfer).operations_only target
      x.val).1
    exact ⟨fun _ _ _ _ w => Elsewhere.of_only (honly w), fun w => Elsewhere.of_only (honly w)⟩
  | «local» =>
    have hlocal := hlayout.isLocal hd htype
    rw [hlocal.build]
    have haway (P : Loc) (hl : ¬ localRoot cwd dest <+: P) (hP : ¬ P <+: localRoot cwd dest) :
        Moves (Elsewhere P) ((LocalDestination.from_config cwd dest).store target x.val) :=
      Elsewhere.local_store (hlocal.at cwd) hl hP (.inl x.property) target
    obtain ⟨htl, htP⟩ := hs.apart dest hd htype hleads.nul
    refine ⟨fun other ho hl hne => haway _ ?_ ?_, haway _ htP htl⟩
    · exact hlayout.each dest hd other ho htype hl (Ne.symm hne)
    · exact hlayout.each other ho dest hd hl htype hne

/-- One store: what the loop carries is carried on, nothing committed is forgotten, and a local
destination whose store returned has the generation. -/
theorem Storing.store (hlayout : Layout cwd nodes config)
    (hs : Stores cwd config target last now t x)
    (h : Storing cwd config target last (second t) (dest :: dests) w) {res : Except Exn Unit}
    (hrun : exec (((site cwd nodes).build_destination dest config.transfer).store target x.val) w =
      (res, w')) :
    Storing cwd config target last (second t) dests w' ∧ w.commits ⊆ w'.commits ∧
      (res = .ok () → dest.type = .local →
        x.val ∈ committedIds none (localRoot cwd dest) w') := by
  have hd : dest ∈ config.destinations := h.subset List.mem_cons_self
  obtain ⟨hnotMem, hnodup⟩ := List.nodup_cons.mp h.nodup
  obtain ⟨hothers, htarget⟩ := Storing.store_elsewhere hlayout hs hd h.prepared.leads
  have hprepared := h.prepared.elsewhere (htarget.of_exec hrun)
  have hsubset := (List.cons_subset.mp h.subset).2
  -- the destination itself is no longer waiting
  have hwaiting : ∀ other ∈ dests, other.type = .local →
      Kept config.backup.name_prefix other.keep (localRoot cwd other) last w' := by
    intro other ho hl
    have hne : other ≠ dest := fun he => hnotMem (he ▸ ho)
    exact (h.waiting other (List.mem_cons_of_mem _ ho) hl).elsewhere
      ((hothers other (hsubset ho) hl hne).of_exec hrun)
  have hcommits := (htarget.of_exec hrun).commits
  cases htype : dest.type with
  | ssh =>
    refine ⟨⟨hnodup, hsubset, hprepared, hwaiting, fun other ho hl => ?_⟩, hcommits, ?_⟩
    · have hne : other ≠ dest := by
        rintro rfl
        rw [htype] at hl
        cases hl
      exact (h.kept other ho hl).elsewhere ((hothers other ho hl hne).of_exec hrun)
    · intro _ hl
      cases hl
  | «local» =>
    have hlocal := hlayout.isLocal hd htype
    have hstore : exec ((LocalDestination.from_config cwd dest).store target x.val) w =
        (res, w') := by
      rw [hlocal.build] at hrun
      exact hrun
    have hbefore := h.waiting dest List.mem_cons_self htype
    have hdelivered := LocalDestination.store_delivers (hlocal.at cwd) hbefore hs.made hstore
    refine ⟨⟨hnodup, hsubset, hprepared, hwaiting, fun other ho hl => ?_⟩, hcommits,
      fun hres _ => mem_committedIds.mpr (hdelivered hres)⟩
    by_cases hsame : other = dest
    · subst hsame
      obtain ⟨data, hdata⟩ := h.prepared.manifest
      obtain ⟨htl, htP⟩ := hs.apart other hd htype h.prepared.leads.nul
      have hsource : Source (localRoot cwd other) w target :=
        ⟨target.loc, h.prepared.leads, htP, htl, data, hdata⟩
      have hkept := hbefore.store (hlocal.at cwd) hlayout.slash hs.instant hs.year hs.later hs.id
        hsource
      rw [hstore] at hkept
      exact hkept
    · exact (h.kept other ho hl).elsewhere ((hothers other ho hl hsame).of_exec hrun)

theorem committedIds_subset {h : Option String} (hc : w.commits ⊆ w'.commits) :
    committedIds h P w ⊆ committedIds h P w' := by
  intro i hi
  obtain ⟨y, hy, rfl⟩ := List.mem_map.mp (List.mem_toFinset.mp hi)
  obtain ⟨c, hmem, hname⟩ := List.mem_filterMap.mp hy
  exact mem_committedIds.mpr (List.mem_filterMap.mpr ⟨c, hc hmem, hname⟩)

/-- What the caught store of a destination did. -/
theorem attempt_perform_cases {α : Type} {c : Call} {m : Io α} {s s' : Pipe}
    {res : Except Exn (Except String α)} (h : exec (attempt (perform c m)) s = (res, s')) :
    ∃ r, exec m s.world = (r, s'.world) ∧ ∀ a, res = .ok (.ok a) → r = .ok a := by
  rcases attempt_cases h with ⟨a, ha, rfl⟩ | ⟨message, ha, rfl⟩ | ⟨e, ha, -, rfl⟩
  · exact ⟨_, (exec_perform_ok ha).1, fun b hb => by rw [Except.ok.inj (Except.ok.inj hb)]⟩
  · exact ⟨_, (exec_perform_error ha).1, fun b hb => nomatch Except.ok.inj hb⟩
  · exact ⟨_, (exec_perform_error ha).1, fun b hb => nomatch hb⟩

/-- Every local destination reported as stored has the generation. -/
def Delivered (cwd : Loc) (dests : List DestinationConfig) (backup_id : String)
    (outcomes : List DestinationOutcome) (w : World) : Prop :=
  ∀ o ∈ outcomes, ∃ dest ∈ dests, o.name = dest.name ∧ (o.stored = true → dest.type = .local →
    backup_id ∈ committedIds none (localRoot cwd dest) w)

/-- The loop over the stores, wherever it ends. -/
theorem stores_keep (hlayout : Layout cwd nodes config)
    (hs : Stores cwd config target last now t x) {s s' : Pipe}
    (h : Storing cwd config target last (second t) dests s.world)
    {res : Except Exn (List DestinationOutcome)}
    (hrun : exec (store_to_destinations (site cwd nodes) config target x.val dests) s = (res, s')) :
    KeptEach cwd config (some (second t)) s'.world ∧ s.world.commits ⊆ s'.world.commits ∧
      ∀ outcomes, res = .ok outcomes → Delivered cwd dests x.val outcomes s'.world := by
  induction dests generalizing s res s' with
  | nil =>
    obtain ⟨rfl, rfl⟩ := Prod.mk.inj hrun
    refine ⟨h.kept, List.Subset.refl _, fun outcomes ho o hmem => ?_⟩
    rw [← Except.ok.inj ho] at hmem
    cases hmem
  | cons dest dests ih =>
    rcases exec_bind_cases hrun with ⟨e, he, rfl⟩ | ⟨stored, u, hu, hrun⟩
    · obtain ⟨r, hr, -⟩ := attempt_perform_cases he
      obtain ⟨hnext, hcommits, -⟩ := h.store hlayout hs hr
      exact ⟨hnext.kept, hcommits, fun outcomes ho => nomatch ho⟩
    obtain ⟨r, hr, hok⟩ := attempt_perform_cases hu
    obtain ⟨hnext, hcommits, hdelivered⟩ := h.store hlayout hs hr
    -- the outcome of this store beside those of the rest
    have hcons {o : DestinationOutcome} {rest : List DestinationOutcome} {v : World}
        (hname : o.name = dest.name) (hstored : o.stored = true → r = .ok ())
        (hgrows : u.world.commits ⊆ v.commits) (hrest : Delivered cwd dests x.val rest v) :
        Delivered cwd (dest :: dests) x.val (o :: rest) v := by
      intro o' ho'
      rcases List.mem_cons.mp ho' with rfl | ho'
      · exact ⟨dest, List.mem_cons_self, hname, fun hst hl =>
          committedIds_subset hgrows (hdelivered (hstored hst) hl)⟩
      · obtain ⟨d, hd, hdelivers⟩ := hrest o' ho'
        exact ⟨d, List.mem_cons_of_mem _ hd, hdelivers⟩
    have hfollow {o : DestinationOutcome} (hname : o.name = dest.name)
        (hstored : o.stored = true → r = .ok ())
        (hrest : exec (do
            let rest ← store_to_destinations (site cwd nodes) config target x.val dests
            pure (o :: rest)) u = (res, s')) :
        KeptEach cwd config (some (second t)) s'.world ∧ s.world.commits ⊆ s'.world.commits ∧
          ∀ outcomes, res = .ok outcomes →
            Delivered cwd (dest :: dests) x.val outcomes s'.world := by
      rcases exec_bind_cases hrest with ⟨e, he, rfl⟩ | ⟨rest, v, hv, hpure⟩
      · obtain ⟨hkept, hgrows, -⟩ := ih hnext he
        exact ⟨hkept, List.Subset.trans hcommits hgrows, fun outcomes ho => nomatch ho⟩
      · obtain ⟨hkept, hgrows, hothers⟩ := ih hnext hv
        obtain ⟨rfl, rfl⟩ := Prod.mk.inj hpure
        refine ⟨hkept, List.Subset.trans hcommits hgrows, fun outcomes ho => ?_⟩
        rw [← Except.ok.inj ho]
        exact hcons hname hstored hgrows (hothers rest rfl)
    cases stored with
    | ok a => exact hfollow rfl (fun _ => hok a rfl) hrun
    | error message =>
      dsimp only at hrun
      split_ifs at hrun
      · obtain ⟨rfl, rfl⟩ := Prod.mk.inj hrun
        refine ⟨hnext.kept, hcommits, fun outcomes ho => ?_⟩
        rw [← Except.ok.inj ho]
        exact hcons rfl (fun hst => nomatch hst) (List.Subset.refl _)
          (fun o ho => absurd ho List.not_mem_nil)
      · exact hfollow rfl (by simp) hrun

end

section

variable {R : World → World → Prop} [Std.Refl R] [IsTrans World R] {D : Destination}

/-- What the listing and the deletes keep, a purge keeps; a dry run deletes nothing. -/
theorem purge_one_moves {site : Site} (hbuild : site.build_destination dest config.transfer = D)
    (now : Datetime) (dry_run : Bool) (in_progress_id : Option String)
    (hlist : Moves R D.list_backups) (hdelete : dry_run = false → ∀ i, Moves R (D.delete i)) :
    Moves (OnWorld R) (purge_one_destination site config dest now dry_run in_progress_id) := by
  have hdeletes (ids : List String) : Moves (OnWorld R) (delete_planned dest D dry_run ids) := by
    cases dry_run with
    | false => exact delete_planned_moves (fun i _ => hdelete rfl i) false
    | true =>
      induction ids with
      | nil => exact Moves.pure _
      | cons i ids ih =>
        refine Moves.bind (Moves.pure _) (fun outcome => Moves.bind ih (fun rest => ?_))
        cases outcome <;> exact Moves.pure _
  intro s
  rcases purge_one_cases (Prod.eta (exec (purge_one_destination site config dest now dry_run
    in_progress_id) s)).symm with ⟨r, hr, -⟩ | ⟨stored, plan, u, r, hr, -, hdel, -⟩
  · rw [hbuild] at hr
    exact hlist.of_exec hr
  · rw [hbuild] at hr hdel
    exact trans_of R (hlist.of_exec hr) ((hdeletes plan.delete).of_exec hdel)

end

section

variable {last : Option ℤ} {w w' : World}

theorem condemned_notMem {P' : Loc} (hl : ¬ P' <+: P) (hP : ¬ P <+: P') {keep : ℕ} {q : Loc}
    (hq : P <+: q) : (none, q) ∉ Kept.Condemned keep P' w := by
  rintro ⟨z, -, ⟨-, hpre⟩ | ⟨-, hpre⟩⟩
  · exact notMem_below hl hP hq ⟨rfl, (List.prefix_append _ _).trans hpre⟩
  · exact notMem_below hl hP hq ⟨rfl, (List.prefix_append _ _).trans hpre⟩

/-- Each local destination goes on keeping its newest, and nothing committed there is forgotten. -/
def Retains (cwd : Loc) (config : Config) (last : Option ℤ) (w w' : World) : Prop :=
  KeptEach cwd config last w → KeptEach cwd config last w' ∧
    ∀ dest ∈ config.destinations, dest.type = .local →
      committedIds none (localRoot cwd dest) w ⊆ committedIds none (localRoot cwd dest) w'

instance : Std.Refl (Retains cwd config last) := ⟨fun _ h => ⟨h, fun _ _ _ _ hi => hi⟩⟩

instance : IsTrans World (Retains cwd config last) := ⟨fun _ _ _ h h' hw =>
  ⟨(h' (h hw).1).1, fun dest hd hl _ hi => (h' (h hw).1).2 dest hd hl ((h hw).2 dest hd hl hi)⟩⟩

theorem Undisturbed.retains (h : Undisturbed cwd config w w') : Retains cwd config last w w' :=
  fun hw => ⟨hw.undisturbed h, fun dest hd hl => committedIds_subset (h dest hd hl).commits⟩

theorem purge_retains (hlayout : Layout cwd nodes config) (hd : dest ∈ config.destinations)
    (now : Datetime) (dry_run : Bool) (in_progress_id : Option String) :
    Moves (OnWorld (Retains cwd config last))
      (purge_one_destination (site cwd nodes) config dest now dry_run in_progress_id) := by
  intro s
  cases htype : dest.type with
  | ssh =>
    have hops := (SSHDestination.from_config nodes dest config.transfer).operations_only
      (work_dir (site cwd nodes) config)
    have hbuild : (site cwd nodes).build_destination dest config.transfer =
        (SSHDestination.from_config nodes dest config.transfer).toDestination := build_ssh htype _
    have honly := purge_one_moves hbuild now dry_run in_progress_id (hops "").2.1
      (fun _ i => (hops i).2.2.1) s
    exact Undisturbed.retains (fun _ _ _ => Elsewhere.of_only honly)
  | «local» =>
    have hlocal := hlayout.isLocal hd htype
    have hat := hlocal.at cwd
    have hbuild : (site cwd nodes).build_destination dest config.transfer =
        (LocalDestination.from_config cwd dest).toDestination := hlocal.build _
    cases dry_run with
    | true =>
      have hsame := purge_one_moves hbuild now true in_progress_id
        (LocalDestination.list_backups_reads hat).moves (fun h => nomatch h) s
      exact Undisturbed.retains (fun _ _ _ => Elsewhere.of_same hsame)
    | false =>
      intro h
      have hremoves := ((h dest hd htype).purge_removes hat hbuild (Prod.eta (exec
        (purge_one_destination (site cwd nodes) config dest now false in_progress_id) s)).symm).1
      refine ⟨fun other ho hl => ?_, fun other _ _ =>
        committedIds_subset (by rw [hremoves.commits]; exact List.Subset.refl _)⟩
      by_cases hsame : other = dest
      · subst hsame
        exact (h other hd htype).removes hremoves
      · refine (h other ho hl).elsewhere
          (Elsewhere.of_confined hremoves.toConfined (fun q hq => ?_))
        exact condemned_notMem (hlayout.each dest hd other ho htype hl (Ne.symm hsame))
          (hlayout.each other ho dest hd hl htype hsame) hq

end

section

variable {now : Datetime} {backup_id : String} {α : Type}

theorem target_at (hlayout : Layout cwd nodes config)
    (hid : generate_backup_id config.backup.name_prefix now = .ok backup_id)
    (hnul : (target_dir (site cwd nodes) config backup_id).nul = false) :
    ∃ x : Name, x.val = backup_id ∧ (work_dir (site cwd nodes) config).nul = false ∧
      target_dir (site cwd nodes) config backup_id =
        (work_dir (site cwd nodes) config).child x := by
  rcases generate_backup_id_legal_or hlayout.slash hid with hlegal | hbad
  · have htarget : target_dir (site cwd nodes) config backup_id =
        (work_dir (site cwd nodes) config).child ⟨backup_id, hlegal⟩ :=
      Path.join_name _ ⟨backup_id, hlegal⟩
    rw [htarget] at hnul
    exact ⟨⟨backup_id, hlegal⟩, rfl, hnul, htarget⟩
  · have hnul' : (target_dir (site cwd nodes) config backup_id).nul = true := Path.join_nul _ hbad
    rw [hnul] at hnul'
    cases hnul'

/-- The directory of a run is apart from the local destinations. -/
theorem Layout.target (h : Layout cwd nodes config)
    (hid : generate_backup_id config.backup.name_prefix now = .ok backup_id)
    (hd : dest ∈ config.destinations) (hl : dest.type = .local) :
    Elsewhere.Apart (target_dir (site cwd nodes) config backup_id) (localRoot cwd dest) := by
  intro hnul
  obtain ⟨x, -, -, htarget⟩ := target_at h hid hnul
  rw [htarget] at hnul ⊢
  exact (h.work dest hd hl).child work_dir_at x hnul

theorem target_leads (h : Layout cwd nodes config)
    (hid : generate_backup_id config.backup.name_prefix now = .ok backup_id)
    (hnul : (target_dir (site cwd nodes) config backup_id).nul = false) :
    (target_dir (site cwd nodes) config backup_id).At
      (target_dir (site cwd nodes) config backup_id).loc := by
  obtain ⟨x, -, hwork, htarget⟩ := target_at h hid hnul
  have hat := (work_dir_at hwork).child x
  rw [htarget, hat.loc_eq]
  exact hat

theorem undisturbed_of {m : Io α} (h : ∀ dest ∈ config.destinations, dest.type = .local →
    Moves (Elsewhere (localRoot cwd dest)) m) : Moves (Undisturbed cwd config) m :=
  fun w dest hd hl => h dest hd hl w

theorem same_undisturbed {m : Io α} (h : Moves Same m) : Moves (Undisturbed cwd config) m :=
  undisturbed_of (fun _ _ _ => Elsewhere.same h)

theorem now_utc_same : Moves Same now_utc := fun w => same_next w

theorem hook_undisturbed (command : String) (fail_fast : Bool) :
    Moves (Undisturbed cwd config) (run_hook command fail_fast) :=
  same_undisturbed (run_hook_moves command fail_fast)

theorem lock_undisturbed (h : Layout cwd nodes config) :
    Moves (Undisturbed cwd config) (acquire_lock cwd config.lock.file) :=
  undisturbed_of (fun dest hd hl => Elsewhere.acquire_lock (h.lock dest hd hl)
    (h.lock_dir dest hd hl))

theorem prepare_run_undisturbed (h : Layout cwd nodes config)
    (hid : generate_backup_id config.backup.name_prefix now = .ok backup_id) :
    Moves (OnWorld (Undisturbed cwd config)) (prepare_run (site cwd nodes) config backup_id) := by
  have hreplication : Moves Same (check_replication_if_configured config) :=
    Moves.ite (Moves.pure _) (check_replication_moves _ _)
  have hcleanup : Moves (Undisturbed cwd config)
      (cleanup_stale_work_dir (work_dir (site cwd nodes) config) backup_id) :=
    undisturbed_of (fun dest hd hl => Elsewhere.cleanup (h.work dest hd hl) work_dir_at backup_id)
  have hmkdir : Moves (Undisturbed cwd config)
      (mkdir (target_dir (site cwd nodes) config backup_id)) :=
    undisturbed_of (fun dest hd hl => Elsewhere.mkdir (fun hnul => (h.target hid hd hl hnul).2)
      (target_leads h hid))
  exact Moves.bind ((same_undisturbed hreplication).perform _) (fun _ =>
    Moves.bind ((hook_undisturbed _ _).perform _) (fun _ => Moves.bind (hcleanup.perform _)
      (fun _ => Moves.bind (hmkdir.perform _) (fun _ => Moves.pure _))))

theorem finish_undisturbed (summary : RunSummary) :
    Moves (OnWorld (Undisturbed cwd config)) (finish config summary) :=
  Moves.bind ((hook_undisturbed _ _).perform _) (fun _ => Moves.pure _)

theorem phases_undisturbed (h : Layout cwd nodes config)
    (hid : generate_backup_id config.backup.name_prefix now = .ok backup_id) :
    Moves (OnWorld (Undisturbed cwd config))
      (phases config (target_dir (site cwd nodes) config backup_id)) :=
  fun s _ hd hl => Elsewhere.phases (h.target hid hd hl) (target_leads h hid) s

theorem mem_of_destination_named {name : String} (h : destination_named config name = .ok dest) :
    dest ∈ config.destinations := by
  rw [destination_named] at h
  cases hfind : config.destinations.reverse.find? (fun d => d.name = name) with
  | none =>
    rw [hfind] at h
    cases h
  | some d =>
    rw [hfind] at h
    obtain rfl := Except.ok.inj h
    exact List.mem_reverse.mp (List.mem_of_find?_eq_some hfind)

theorem purge_stored_retains (h : Layout cwd nodes config) (last : Option ℤ)
    (outcomes : List DestinationOutcome) :
    Moves (OnWorld (Retains cwd config last))
      (purge_stored_destinations (site cwd nodes) config backup_id now outcomes) := by
  induction outcomes with
  | nil => exact Moves.pure _
  | cons outcome outcomes ih =>
    intro s
    cases hnamed : destination_named config outcome.name with
    | error e =>
      have hraise : exec (lift (liftExcept (destination_named config outcome.name))) s =
          (.error e, s) := by rw [hnamed]; rfl
      rw [purge_stored_destinations, exec_bind_error hraise]
      exact refl_of (OnWorld _) s
    | ok dest =>
      have hfound : exec (lift (liftExcept (destination_named config outcome.name))) s =
          (.ok dest, s) := by rw [hnamed]; rfl
      rw [purge_stored_destinations, exec_bind_ok hfound]
      have hpurge : Moves (OnWorld (Retains cwd config last)) _ :=
        purge_retains h (mem_of_destination_named hnamed) now false (some backup_id)
      exact Moves.bind hpurge (fun _ => Moves.bind ih (fun _ => Moves.pure _)) s

theorem settle_retains (h : Layout cwd nodes config) (last : Option ℤ)
    (hid : generate_backup_id config.backup.name_prefix now = .ok backup_id)
    (outcomes : List DestinationOutcome) :
    Moves (OnWorld (Retains cwd config last))
      (settle (site cwd nodes) config (target_dir (site cwd nodes) config backup_id) backup_id now
        outcomes) := by
  have hretains {β : Type} {m : Pipeline β} (hm : Moves (OnWorld (Undisturbed cwd config)) m) :
      Moves (OnWorld (Retains cwd config last)) m := hm.mono (fun _ _ hu => Undisturbed.retains hu)
  have hremove : Moves (Undisturbed cwd config)
      (rmtree (target_dir (site cwd nodes) config backup_id) true) :=
    undisturbed_of (fun dest hd hl => Elsewhere.rmtree (h.target hid hd hl) true)
  exact Moves.bind (hretains (hremove.perform _)) (fun _ =>
    Moves.bind (hretains ((hook_undisturbed _ _).perform _)) (fun _ =>
      Moves.bind (purge_stored_retains h last _) (fun _ => hretains (finish_undisturbed _))))

/-- What a run that placed its generation tells of the destinations. -/
theorem settle_summary {target : Path} {outcomes : List DestinationOutcome} {summary : RunSummary}
    {s s' : Pipe}
    (h : exec (settle (site cwd nodes) config target backup_id now outcomes) s =
      (.ok summary, s')) :
    ∃ had_error, summary =
      ⟨backup_id, exitCode (outcomes.filter (!·.stored)) had_error, outcomes, ""⟩ := by
  obtain ⟨_, s₁, -, h⟩ := exec_bind_eq_ok h
  obtain ⟨_, s₂, -, h⟩ := exec_bind_eq_ok h
  obtain ⟨had_error, s₃, -, h⟩ := exec_bind_eq_ok h
  exact ⟨had_error, (finish_ok h).1⟩

theorem record_meta_prepares (h : Layout cwd nodes config)
    (hid : generate_backup_id config.backup.name_prefix now = .ok backup_id)
    {server_version : String} {started_at finished_at : Datetime} {w w' : World}
    (hrun : exec (record_meta config (target_dir (site cwd nodes) config backup_id) backup_id
      server_version started_at finished_at) w = (.ok (), w')) :
    Prepared (target_dir (site cwd nodes) config backup_id) w' := by
  obtain ⟨hostname, w₁, -, hrun⟩ := exec_bind_eq_ok hrun
  obtain ⟨version, w₂, -, hrun⟩ := exec_bind_eq_ok hrun
  obtain ⟨size_bytes, w₃, -, hrun⟩ := exec_bind_eq_ok hrun
  have hnul : (target_dir (site cwd nodes) config backup_id).nul = false := by
    apply Bool.eq_false_iff.mpr
    intro htrue
    have hlost : ((target_dir (site cwd nodes) config backup_id).child META_FILENAME).nul = true :=
      htrue
    rw [write_meta, write_text, exec_primitive, Path.find_nul hlost] at hrun
    cases hrun
  have hat := target_leads h hid hnul
  have hwritten := write_text_ok hrun
  rw [(hat.child META_FILENAME).loc_eq] at hwritten
  exact ⟨hat, _, hwritten⟩

section

variable {t : Instant} {last : Option ℤ} {s s' : Pipe} {res : Except Exn RunSummary}

/-- What a run at `t` leaves behind: the newest are kept, and what it reports as stored is there
under the id of its time. -/
def Leaves (cwd : Loc) (config : Config) (t : Instant) (res : Except Exn RunSummary) (w : World) :
    Prop :=
  KeptEach cwd config (some (second t)) w ∧ ∀ summary, res = .ok summary →
    (∃ now : Datetime, now.instant = some t ∧
      generate_backup_id config.backup.name_prefix now = .ok summary.backup_id) ∧
    Delivered cwd config.destinations summary.backup_id summary.destination_outcomes w

/-- A stage of a run that happens elsewhere, and what comes after it. -/
theorem Leaves.bind {m : Pipeline α} {f : α → Pipeline RunSummary}
    (hm : Moves (OnWorld (Undisturbed cwd config)) m)
    (hlast : ∀ l, last = some l → ∃ l', some (second t) = some l' ∧ l ≤ l')
    (hs : KeptEach cwd config last s.world)
    (hf : ∀ a u, exec m s = (.ok a, u) → KeptEach cwd config last u.world →
      exec (f a) u = (res, s') → Leaves cwd config t res s'.world)
    (hrun : exec (m >>= f) s = (res, s')) : Leaves cwd config t res s'.world := by
  rcases exec_bind_cases hrun with ⟨e, he, rfl⟩ | ⟨a, u, hu, hrest⟩
  · exact ⟨(hs.undisturbed (hm.of_exec he)).later hlast, fun _ hok => nomatch hok⟩
  · exact hf a u hu (hs.undisturbed (hm.of_exec hu)) hrest

theorem Delivered.mono {dests : List DestinationConfig} {outcomes : List DestinationOutcome}
    {w w' : World} (h : Delivered cwd dests backup_id outcomes w)
    (hsub : ∀ dest ∈ dests, dest.type = .local →
      committedIds none (localRoot cwd dest) w ⊆ committedIds none (localRoot cwd dest) w') :
    Delivered cwd dests backup_id outcomes w' := by
  intro o ho
  obtain ⟨dest, hd, hname, hdelivers⟩ := h o ho
  exact ⟨dest, hd, hname, fun hst hl => hsub dest hd hl (hdelivers hst hl)⟩

theorem place_leaves (haccepted : config.Accepted) (hlayout : Layout cwd nodes config)
    (ht : now.instant = some t) (hyear : FourDigitYear t)
    (hlater : ∀ l, last = some l → l < second t)
    (hid : generate_backup_id config.backup.name_prefix now = .ok backup_id)
    {server_version : String} {started_at : Datetime} (hs : KeptEach cwd config last s.world)
    (hrun : exec (place (site cwd nodes) config (target_dir (site cwd nodes) config backup_id)
      backup_id server_version now started_at) s = (res, s')) :
    Leaves cwd config t res s'.world := by
  have hlast : ∀ l, last = some l → ∃ l', some (second t) = some l' ∧ l ≤ l' := fun l hl =>
    ⟨_, rfl, (hlater l hl).le⟩
  have htarget (dest : DestinationConfig) (hd : dest ∈ config.destinations)
      (hl : dest.type = .local) := hlayout.target hid hd hl
  have hmeta (finished_at : Datetime) : Moves (Undisturbed cwd config)
      (record_meta config (target_dir (site cwd nodes) config backup_id) backup_id server_version
        started_at finished_at) :=
    undisturbed_of (fun dest hd hl => Elsewhere.record_meta (htarget dest hd hl)
      (target_leads hlayout hid) _ _ _ _)
  have hhook := run_hook_moves config.hooks.post_backup false
  refine Leaves.bind (same_undisturbed now_utc_same).lift hlast hs
    (fun finished_at s₁ _ hs₁ hrun => ?_) hrun
  refine Leaves.bind ((hmeta finished_at).perform _) hlast hs₁ (fun _ s₂ h₂ hs₂ hrun => ?_) hrun
  have hprepared := record_meta_prepares hlayout hid (exec_perform_ok h₂).1
  refine Leaves.bind ((same_undisturbed hhook).perform _) hlast hs₂
    (fun _ s₃ h₃ hs₃ hrun => ?_) hrun
  have hprepared₃ : Prepared (target_dir (site cwd nodes) config backup_id) s₃.world :=
    hprepared.elsewhere (Elsewhere.of_same ((hhook.perform _).of_exec h₃))
  -- the stores, and what comes after them
  obtain ⟨x, rfl, -, -⟩ := target_at hlayout hid hprepared.leads.nul
  have hstores : Stores cwd config (target_dir (site cwd nodes) config x.val) last now t x :=
    ⟨htarget, ht, hyear, hlater, hid⟩
  have hstoring : Storing cwd config (target_dir (site cwd nodes) config x.val) last (second t)
      config.destinations s₃.world :=
    ⟨haccepted.names.of_map, List.Subset.refl _, hprepared₃, fun dest hd hl => hs₃ dest hd hl,
      hs₃.later hlast⟩
  rcases exec_bind_cases hrun with ⟨e, he, rfl⟩ | ⟨outcomes, s₄, h₄, hrun⟩
  · exact ⟨(stores_keep hlayout hstores hstoring he).1, fun _ hok => nomatch hok⟩
  obtain ⟨hs₄, -, hdelivered⟩ := stores_keep hlayout hstores hstoring h₄
  have hdelivered := hdelivered outcomes rfl
  split_ifs at hrun
  · have hu : OnWorld (Undisturbed cwd config) s₄ s' := (finish_undisturbed _).of_exec hrun
    refine ⟨hs₄.undisturbed hu, fun summary hsummary => ?_⟩
    rw [hsummary] at hrun
    rw [(finish_ok hrun).1]
    refine ⟨⟨now, ht, hid⟩, ?_⟩
    exact hdelivered.mono (fun dest hd hl => committedIds_subset (hu dest hd hl).commits)
  · have hsettle := settle_retains hlayout (some (second t)) hid outcomes
    obtain ⟨hkept, hgrows⟩ := hsettle.of_exec hrun hs₄
    refine ⟨hkept, fun summary hsummary => ?_⟩
    rw [hsummary] at hrun
    obtain ⟨had_error, hsettled⟩ := settle_summary hrun
    rw [hsettled]
    exact ⟨⟨now, ht, hid⟩, hdelivered.mono hgrows⟩

/-- The time of a run: the one it is given, or what the clock says when it starts. -/
def start_time (now : Option Datetime) (w : World) : Datetime :=
  now.getD (Datetime.utc (w.tape 0).stamp)

theorem exec_now_or (now : Option Datetime) (s : Pipe) :
    (exec (now_or now) s).1 = .ok (start_time now s.world) := by
  cases now <;> rfl

theorem now_or_same (now : Option Datetime) : Moves (OnWorld Same) (now_or now) := by
  cases now with
  | some time => exact Moves.pure _
  | none => exact now_utc_same.lift

theorem backup_id_ok {pre : String} {time : Datetime} {w w' : World}
    (h : exec (liftExcept (generate_backup_id pre time) : Io String) w = (.ok backup_id, w')) :
    generate_backup_id pre time = .ok backup_id := by
  cases hgen : generate_backup_id pre time with
  | error e =>
    rw [hgen] at h
    cases h
  | ok id =>
    rw [hgen] at h
    rw [Except.ok.inj (Prod.mk.inj h).1]

theorem backup_id_same (pre : String) (time : Datetime) :
    Moves Same (liftExcept (generate_backup_id pre time) : Io String) := by
  intro w
  cases generate_backup_id pre time <;> exact refl_of Same w

/-- A run, wherever it ends. -/
theorem run_leaves (haccepted : config.Accepted) (hlayout : Layout cwd nodes config)
    {now : Option Datetime} (ht : (start_time now s.world).instant = some t)
    (hyear : FourDigitYear t) (hlater : ∀ l, last = some l → l < second t)
    (hs : KeptEach cwd config last s.world)
    (hrun : exec (run (site cwd nodes) config now) s = (res, s')) :
    Leaves cwd config t res s'.world := by
  have hlast : ∀ l, last = some l → ∃ l', some (second t) = some l' ∧ l ≤ l' := fun l hl =>
    ⟨_, rfl, (hlater l hl).le⟩
  refine Leaves.bind ((now_or_same now).mono (fun _ _ h _ _ _ => Elsewhere.of_same h)) hlast hs
    (fun time s₁ h₁ hs₁ hrun => ?_) hrun
  have htime : start_time now s.world = time := by
    have h := exec_now_or now s
    rw [h₁] at h
    exact (Except.ok.inj h).symm
  rw [htime] at ht
  refine Leaves.bind ((lock_undisturbed hlayout).perform _) hlast hs₁
    (fun _ s₂ _ hs₂ hrun => ?_) hrun
  refine Leaves.bind ((same_undisturbed (backup_id_same _ _)).perform _) hlast hs₂
    (fun backup_id s₃ h₃ hs₃ hrun => ?_) hrun
  have hid := backup_id_ok (exec_perform_ok h₃).1
  refine Leaves.bind (prepare_run_undisturbed hlayout hid) hlast hs₃
    (fun server_version s₄ _ hs₄ hrun => ?_) hrun
  refine Leaves.bind (same_undisturbed now_utc_same).lift hlast hs₄
    (fun started_at s₅ _ hs₅ hrun => ?_) hrun
  refine Leaves.bind (phases_undisturbed hlayout hid) hlast hs₅
    (fun failure s₆ _ hs₆ hrun => ?_) hrun
  cases failure with
  | some message =>
    have hu : OnWorld (Undisturbed cwd config) s₆ s' := (finish_undisturbed _).of_exec hrun
    refine ⟨(hs₆.undisturbed hu).later hlast, fun summary hok => ?_⟩
    dsimp only at hrun
    rw [hok] at hrun
    rw [(finish_ok hrun).1]
    exact ⟨⟨time, ht, hid⟩, fun o ho => absurd ho List.not_mem_nil⟩
  | none => exact place_leaves haccepted hlayout ht hyear hlater hid hs₆ hrun

end

end

end MbKeeper
