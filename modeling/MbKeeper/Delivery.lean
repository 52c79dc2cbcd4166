import MbKeeper.Footprint
import MbKeeper.Backends

/-!
# From the backup to the destinations

`back_up` is a run up to the manifest of its generation, `deliver` what follows.
However the delivery ends, the generation is not lost: it is in the working
directory as it was when its manifest was written, unless a store returned; and
every local destination whose store returned has the copy of it, also after the
purges of the run.
-/
namespace MbKeeper

variable {cwd : Loc} {nodes : String → RemoteNode} {config : Config} {dest : DestinationConfig}
  {P : Loc} {w w' : World}

section

variable (site : Site) (config : Config)

/-- The first half of `run`: the summary of a backup that failed, else the id of the generation
whose manifest was written, and the time of the run. -/
def back_up (now : Option Datetime) : Pipeline (Except RunSummary (String × Datetime)) := do
  let now ← now_or now
  perform .lock (acquire_lock site.cwd config.lock.file)
  let backup_id ← perform .backup_id
    (liftExcept (generate_backup_id config.backup.name_prefix now))
  let server_version ← prepare_run site config backup_id
  let started_at ← lift now_utc
  let failure ← phases config (target_dir site config backup_id)
  match failure with
  | some message => do
    let summary ← finish config ⟨backup_id, .BACKUP_FAILED, [], message⟩
    pure (.error summary)
  | none => do
    let finished_at ← lift now_utc
    perform .write_meta (record_meta config (target_dir site config backup_id) backup_id
      server_version started_at finished_at)
    pure (.ok (backup_id, now))

/-- The second half, from the `post_backup` hook on. -/
def deliver (backup_id : String) (now : Datetime) : Pipeline RunSummary := do
  perform (.hook .post_backup none) (run_hook config.hooks.post_backup false)
  let outcomes ← store_to_destinations site config (target_dir site config backup_id) backup_id
    config.destinations
  if outcomes.filter (!·.stored) ≠ [] ∧ outcomes.filter (·.stored) = [] then
    finish config ⟨backup_id, .ALL_DESTINATIONS_FAILED, outcomes, ""⟩
  else settle site config (target_dir site config backup_id) backup_id now outcomes

theorem run_eq (now : Option Datetime) : run site config now = (do
    let backup ← back_up site config now
    match backup with
    | .error summary => pure summary
    | .ok (backup_id, now) => deliver site config backup_id now) := by
  unfold run back_up
  simp only [bind_assoc]
  refine bind_congr (fun now => bind_congr (fun _ => bind_congr (fun backup_id => ?_)))
  refine bind_congr (fun server_version => bind_congr (fun started_at => bind_congr (fun failure =>
    ?_)))
  cases failure with
  | some message => simp only [bind_assoc, pure_bind, bind_pure]
  | none =>
    unfold place deliver
    simp only [bind_assoc, pure_bind]

end

theorem write_text_parent {p : Path} {x : Name} {text : String} (hp : p.At P)
    (h : exec (write_text (p.child x) text false) w = (.ok (), w')) : w'.fs.isDir P = true := by
  rw [write_text, exec_primitive, (hp.child x).find] at h
  cases hf : (w.tape 0).fault with
  | some e =>
    simp only [hf] at h
    split_ifs at h <;> cases (Prod.mk.inj h).1
  | none =>
    simp only [hf] at h
    split_ifs at h with hdir
    · cases (Prod.mk.inj h).1
    · rw [List.dropLast_concat] at hdir
      have hparent : w.fs.isDir P = true := by simpa using (not_or.mp hdir).2
      rw [← (Prod.mk.inj h).2, World.fs_setTree_none, FileTree.isDir_iff, FileTree.kind_write,
        if_neg (by simp)]
      exact (FileTree.isDir_iff _ _).mp hparent

section

variable {now : Option Datetime} {time : Datetime} {backup_id : String} {s s' u : Pipe}

theorem storeless_of_free {m : Pipeline α} (h : Moves (Adds (Event.On Call.Free)) m) :
    Moves (Adds Event.Storeless) m :=
  h.mono (fun _ _ hadds => hadds.mono (fun _ he => he.storeless (fun _ hc => hc)))

theorem finish_storeless (summary : RunSummary) :
    Moves (Adds Event.Storeless) (finish config summary) :=
  Moves.bind (storeless_of_free (perform_adds_of trivial _)) (fun _ => Moves.pure _)

theorem back_up_storeless (site : Site) (now : Option Datetime) :
    Moves (Adds Event.Storeless) (back_up site config now) := by
  refine Moves.bind (now_or_adds now) (fun time => ?_)
  refine Moves.bind (storeless_of_free (perform_adds_of trivial _)) (fun _ => ?_)
  refine Moves.bind (storeless_of_free (perform_adds_of trivial _)) (fun backup_id => ?_)
  refine Moves.bind (storeless_of_free (prepare_run_adds backup_id)) (fun server_version => ?_)
  refine Moves.bind (Adds.lift _) (fun started_at => ?_)
  refine Moves.bind ((phases_adds _).mono (fun _ _ hadds => hadds.mono (fun _ he =>
    Event.Early.storeless (.inl he)))) (fun failure => ?_)
  cases failure with
  | some message => exact Moves.bind (finish_storeless _) (fun _ => Moves.pure _)
  | none =>
    exact Moves.bind (Adds.lift _) (fun _ => Moves.bind
      (storeless_of_free (perform_adds_of trivial _)) (fun _ => Moves.pure _))

theorem back_up_undisturbed (hlayout : Layout cwd nodes config) (now : Option Datetime) :
    Moves (OnWorld (Undisturbed cwd config)) (back_up (site cwd nodes) config now) := by
  have hnow : Moves (OnWorld (Undisturbed cwd config)) (now_or now) :=
    (now_or_same now).mono (fun _ _ h _ _ _ => Elsewhere.of_same h)
  refine Moves.bind hnow (fun time => Moves.bind ((lock_undisturbed hlayout).perform _)
    (fun _ => ?_))
  refine generate_bind_moves (fun _ _ hs _ _ _ => Elsewhere.of_same hs) (fun backup_id hid => ?_)
  have hrecord (server_version : String) (started_at finished_at : Datetime) :
      Moves (Undisturbed cwd config) (record_meta config
        (target_dir (site cwd nodes) config backup_id) backup_id server_version started_at
          finished_at) :=
    undisturbed_of (fun dest hd hl => Elsewhere.record_meta (hlayout.target hid hd hl)
      (target_leads hlayout hid) _ _ _ _)
  refine Moves.bind (prepare_run_undisturbed hlayout hid) (fun server_version => ?_)
  refine Moves.bind (same_undisturbed now_utc_same).lift (fun started_at => ?_)
  refine Moves.bind (phases_undisturbed hlayout hid) (fun failure => ?_)
  cases failure with
  | some message => exact Moves.bind (finish_undisturbed _) (fun _ => Moves.pure _)
  | none =>
    exact Moves.bind (same_undisturbed now_utc_same).lift (fun finished_at => Moves.bind
      ((hrecord _ _ _).perform _) (fun _ => Moves.pure _))

/-- The generation that is to be delivered: a directory with its manifest, under the id of the
time of its run. -/
structure BackedUp (cwd : Loc) (nodes : String → RemoteNode) (config : Config) (time : Datetime)
    (backup_id : String) (u : Pipe) : Prop where
  id : generate_backup_id config.backup.name_prefix time = .ok backup_id
  source : SourceDir u.world.fs (target_dir (site cwd nodes) config backup_id).loc
    (target_dir (site cwd nodes) config backup_id)

theorem back_up_ok (hlayout : Layout cwd nodes config)
    (h : exec (back_up (site cwd nodes) config now) s = (.ok (.ok (backup_id, time)), u)) :
    time = start_time now s.world ∧ BackedUp cwd nodes config time backup_id u := by
  obtain ⟨started, s₁, hstart, h⟩ := exec_bind_eq_ok h
  obtain ⟨_, s₂, -, h⟩ := exec_bind_eq_ok h
  obtain ⟨id, s₃, hgenerate, h⟩ := exec_bind_eq_ok h
  obtain ⟨server_version, s₄, -, h⟩ := exec_bind_eq_ok h
  obtain ⟨started_at, s₅, -, h⟩ := exec_bind_eq_ok h
  obtain ⟨failure, s₆, -, h⟩ := exec_bind_eq_ok h
  cases failure with
  | some message =>
    obtain ⟨summary, s₇, -, h⟩ := exec_bind_eq_ok h
    cases (exec_pure_eq_ok h).1
  | none =>
    obtain ⟨finished_at, s₇, -, h⟩ := exec_bind_eq_ok h
    obtain ⟨_, s₈, hrecord, h⟩ := exec_bind_eq_ok h
    obtain ⟨hpair, rfl⟩ := exec_pure_eq_ok h
    obtain ⟨rfl, rfl⟩ := Prod.mk.inj (Except.ok.inj hpair)
    have hid := backup_id_ok (exec_perform_ok hgenerate).1
    have hmeta := (exec_perform_ok hrecord).1
    obtain ⟨hleads, hmanifest⟩ := record_meta_prepares hlayout hid hmeta
    obtain ⟨hostname, w₁, -, hmeta⟩ := exec_bind_eq_ok hmeta
    obtain ⟨version, w₂, -, hmeta⟩ := exec_bind_eq_ok hmeta
    obtain ⟨size_bytes, w₃, -, hmeta⟩ := exec_bind_eq_ok hmeta
    have htime := exec_now_or now s
    rw [hstart] at htime
    exact ⟨Except.ok.inj htime, hid, hleads,
      (FileTree.isDir_iff _ _).mp (write_text_parent hleads hmeta), hmanifest⟩

end

/-- A store that returned, under an id that is free, has committed the copy of its source. -/
theorem LocalDestination.store_commits {d : LocalDestination} (hp : d.path.At P) {x : Name}
    {S : Loc} {src : Path}
    (hfree : ∀ r, w.fs.kind (P ++ [x] ++ r) = none ∧ w.fs.kind (P ++ [partialName x] ++ r) = none)
    (hsrc : SourceDir w.fs S src) (habove : ¬ S <+: P)
    (h : exec (d.store src x.val) w = (.ok (), w')) :
    ⟨none, P ++ [x], copyOf w.fs S⟩ ∈ w'.commits := by
  have hputs := (LocalDestination.store_puts hp hfree hsrc habove h).1
  rcases LocalDestination.store_cases hp h with ⟨-, hthere⟩ | ⟨-, ⟨-, hne⟩ | ⟨u, hc, -⟩⟩
  · exact absurd (hfree _).1 (FileTree.kind_ne_none_of_isFile (hthere rfl))
  · exact absurd rfl hne
  · obtain ⟨s, htree⟩ := hc.tree
    have hfs : w'.fs = u.fs.move (P ++ [partialName x]) (P ++ [x]) s := by
      rw [World.fs, htree]
      rfl
    have hcontent : (fun l => u.fs.kind (P ++ [partialName x] ++ l)) = copyOf w.fs S := by
      funext r
      rw [← hputs r, hfs, FileTree.kind_move_append]
    rw [hc.commits, hcontent]
    exact List.mem_append_right _ List.mem_cons_self

/-- A generation of a run that is later than the last has not been taken yet. -/
theorem Made.later_ne {pre : String} {last : Option ℤ} {now : Datetime} {t : Instant} {x y : Name}
    (h : Made pre last y) (ht : now.instant = some t) (hyear : FourDigitYear t)
    (hlater : ∀ l, last = some l → l < second t) (hid : generate_backup_id pre now = .ok x.val) :
    y ≠ x := by
  rintro rfl
  obtain ⟨now', t', l, hid', ht', hyear', hlast, hle⟩ := h
  have hlt := generate_backup_id_lt hid' hid ht' ht hyear' hyear (hle.trans_lt (hlater l hlast))
  exact lt_irrefl _ hlt

/-- Nothing has the id of a run that is later than the last, and nothing is left of an attempt to
store it. -/
theorem Kept.free {pre : String} {keep : ℕ} {last : Option ℤ} {now : Datetime} {t : Instant}
    {x : Name} (h : Kept pre keep P last w) (ht : now.instant = some t) (hyear : FourDigitYear t)
    (hlater : ∀ l, last = some l → l < second t) (hid : generate_backup_id pre now = .ok x.val)
    (r : Loc) : w.fs.kind (P ++ [x] ++ r) = none ∧
      w.fs.kind (P ++ [partialName x] ++ r) = none := by
  have hmade : Made pre (some (second t)) x := ⟨now, t, _, hid, ht, hyear, rfl, le_rfl⟩
  have hnew {y : Name} (hy : Made pre last y) : y ≠ x := hy.later_ne ht hyear hlater hid
  constructor
  · by_contra hthere
    rcases h.entries x r hthere with hmem | ⟨y, -, -, hy⟩ | ⟨hy, -⟩
    · exact hnew (h.made x hmem) rfl
    · exact plain_ne_partialName hmade.plain hy
    · exact hmade.ne_probe hy
  · by_contra hthere
    rcases h.entries _ r hthere with hmem | ⟨y, -, hy, heq⟩ | ⟨heq, -⟩
    · exact plain_ne_partialName (h.made _ hmem).plain rfl
    · exact hnew hy (partialName_injective heq).symm
    · exact probe_ne_partialName x heq.symm

/-- What a caught step did, and when it is noted as returned. -/
theorem attempt_perform_returned {α : Type} {c : Call} {m : Io α} {s s' : Pipe}
    {res : Except Exn (Except String α)} (h : exec (attempt (perform c m)) s = (res, s')) :
    ∃ r, exec m s.world = (r, s'.world) ∧ (∀ a, res = .ok (.ok a) → r = .ok a) ∧
      ∀ c', .returned c' ∈ s'.trace → .returned c' ∈ s.trace ∨ c' = c ∧ ∃ a, r = .ok a := by
  have hraised {e : Exn} (htrace : s'.trace = s.trace ++ [.call c, .raised c e]) (c' : Call)
      (hmem : .returned c' ∈ s'.trace) : .returned c' ∈ s.trace := by
    rw [htrace] at hmem
    simpa using hmem
  rcases attempt_cases h with ⟨a, ha, rfl⟩ | ⟨message, ha, rfl⟩ | ⟨e, ha, -, rfl⟩
  · obtain ⟨hm, htrace⟩ := exec_perform_ok ha
    refine ⟨_, hm, fun b hb => by rw [Except.ok.inj (Except.ok.inj hb)], fun c' hmem => ?_⟩
    rw [htrace] at hmem
    rcases List.mem_append.mp hmem with hmem | hmem
    · exact .inl hmem
    · exact .inr ⟨by simpa using hmem, a, rfl⟩
  · obtain ⟨hm, htrace⟩ := exec_perform_error ha
    refine ⟨_, hm, fun b hb => ?_, fun c' hmem => .inl (hraised htrace c' hmem)⟩
    cases Except.ok.inj hb
  · obtain ⟨hm, htrace⟩ := exec_perform_error ha
    refine ⟨_, hm, fun b hb => ?_, fun c' hmem => .inl (hraised htrace c' hmem)⟩
    cases hb

section

variable {target : Path} {last : Option ℤ} {now : Datetime} {t : Instant} {x : Name}
  {dests : List DestinationConfig} {v : World}

/-- The generation in the working directory is as it was in `v`. -/
def AsWritten (target : Path) (v w : World) : Prop :=
  ∀ r, w.fs.kind (target.loc ++ r) = v.fs.kind (target.loc ++ r)

theorem AsWritten.same (h : AsWritten target v w) (hsame : Same w w') : AsWritten target v w' := by
  intro r
  rw [hsame.fs, h]

/-- One store: the generation stays, and a local destination whose store returned has committed
the copy of it. -/
theorem AsWritten.store (hlayout : Layout cwd nodes config)
    (hs : Stores cwd config target last now t x) (hsource : SourceDir v.fs target.loc target)
    (hstoring : Storing cwd config target last (second t) (dest :: dests) w)
    (h : AsWritten target v w) {res : Except Exn Unit}
    (hrun : exec (((site cwd nodes).build_destination dest config.transfer).store target x.val) w =
      (res, w')) :
    AsWritten target v w' ∧ (res = .ok () → dest.type = .local →
      ⟨none, localRoot cwd dest ++ [x], copyOf v.fs target.loc⟩ ∈ w'.commits) := by
  have hd : dest ∈ config.destinations := hstoring.subset List.mem_cons_self
  obtain ⟨-, htarget⟩ := Storing.store_elsewhere hlayout hs hd hstoring.prepared.leads
  refine ⟨fun r => ?_, fun hres hl => ?_⟩
  · rw [(htarget.of_exec hrun).kind _ (List.prefix_append _ _), h]
  · have hlocal := hlayout.isLocal hd hl
    rw [hlocal.build, hres] at hrun
    have hwaiting := hstoring.waiting dest List.mem_cons_self hl
    have hkeep : SourceDir w.fs target.loc target := by
      obtain ⟨data, hdata⟩ := hsource.manifest
      have hroot := h []
      rw [List.append_nil] at hroot
      exact ⟨hsource.leads, hroot.trans hsource.dir, data, (h _).trans hdata⟩
    rw [← copyOf_congr h]
    exact LocalDestination.store_commits (hlocal.at cwd)
      (hwaiting.free hs.instant hs.year hs.later hs.id) hkeep
      (hs.apart dest hd hl hsource.leads.nul).1 hrun

/-- Every local destination whose store has returned since has committed the copy of the
generation. -/
structure Delivers (cwd : Loc) (target : Path) (x : Name) (v : World) (s s' : Pipe) : Prop where
  commits : s.world.commits ⊆ s'.world.commits
  returned : ∀ dest, dest.type = .local → .returned (.store dest) ∈ s'.trace →
    .returned (.store dest) ∈ s.trace ∨
      ⟨none, localRoot cwd dest ++ [x], copyOf v.fs target.loc⟩ ∈ s'.world.commits

instance : Std.Refl (Delivers cwd target x v) :=
  ⟨fun _ => ⟨List.Subset.refl _, fun _ _ hmem => .inl hmem⟩⟩

instance : IsTrans Pipe (Delivers cwd target x v) := ⟨fun _ _ _ h h' => by
  refine ⟨List.Subset.trans h.commits h'.commits, fun dest hl hmem => ?_⟩
  rcases h'.returned dest hl hmem with hmem | hcommit
  · exact (h.returned dest hl hmem).imp_right (fun hc => h'.commits hc)
  · exact .inr hcommit⟩

/-- The loop over the stores, wherever it ends. -/
theorem stores_deliver (hlayout : Layout cwd nodes config)
    (hs : Stores cwd config target last now t x) (hsource : SourceDir v.fs target.loc target)
    {s s' : Pipe} (hstoring : Storing cwd config target last (second t) dests s.world)
    (h : AsWritten target v s.world) {res : Except Exn (List DestinationOutcome)}
    (hrun : exec (store_to_destinations (site cwd nodes) config target x.val dests) s = (res, s')) :
    AsWritten target v s'.world ∧ Delivers cwd target x v s s' := by
  induction dests generalizing s res s' with
  | nil =>
    obtain ⟨rfl, rfl⟩ := Prod.mk.inj hrun
    exact ⟨h, refl_of (Delivers cwd target x v) s⟩
  | cons dest dests ih =>
    have hfirst {u : Pipe} {stored : Except Exn (Except String Unit)}
        (hu : exec (attempt (perform (.store dest) (((site cwd nodes).build_destination dest
          config.transfer).store target x.val))) s = (stored, u)) :
        Storing cwd config target last (second t) dests u.world ∧
          AsWritten target v u.world ∧ Delivers cwd target x v s u := by
      obtain ⟨r, hr, -, hreturned⟩ := attempt_perform_returned hu
      obtain ⟨hnext, hcommits, -⟩ := hstoring.store hlayout hs hr
      obtain ⟨hheld, hcommit⟩ := h.store hlayout hs hsource hstoring hr
      refine ⟨hnext, hheld, hcommits, fun other hl hmem => ?_⟩
      rcases hreturned _ hmem with hmem | ⟨hsame, a, ha⟩
      · exact .inl hmem
      · obtain rfl := Call.store.inj hsame
        exact .inr (hcommit ha hl)
    rcases exec_bind_cases hrun with ⟨e, he, rfl⟩ | ⟨stored, u, hu, hrun⟩
    · exact (hfirst he).2
    obtain ⟨hnext, hheld, hdelivers⟩ := hfirst hu
    have hrest {o : DestinationOutcome} (hrun : exec (do
        let rest ← store_to_destinations (site cwd nodes) config target x.val dests
        pure (o :: rest)) u = (res, s')) :
        AsWritten target v s'.world ∧ Delivers cwd target x v s s' := by
      rcases exec_bind_cases hrun with ⟨e, he, rfl⟩ | ⟨rest, u', hu', hpure⟩
      · obtain ⟨hstill, hlater⟩ := ih hnext hheld he
        exact ⟨hstill, trans_of (Delivers cwd target x v) hdelivers hlater⟩
      · obtain ⟨rfl, rfl⟩ := Prod.mk.inj hpure
        obtain ⟨hstill, hlater⟩ := ih hnext hheld hu'
        exact ⟨hstill, trans_of (Delivers cwd target x v) hdelivers hlater⟩
    cases stored with
    | ok a => exact hrest hrun
    | error message =>
      dsimp only at hrun
      split_ifs at hrun
      · obtain ⟨rfl, rfl⟩ := Prod.mk.inj hrun
        exact ⟨hheld, hdelivers⟩
      · exact hrest hrun

end

theorem nodup_filterMap_inj {α β : Type} {f : α → Option β} {l : List α}
    (h : (l.filterMap f).Nodup) {a a' : α} (ha : a ∈ l) (ha' : a' ∈ l) {b : β}
    (hb : f a = some b) (hb' : f a' = some b) : a = a' := by
  induction l with
  | nil => cases ha
  | cons c l ih =>
    have hout {d : α} (hc : f c = some b) (hd : d ∈ l) : f d ≠ some b := by
      intro hdb
      rw [List.filterMap_cons_some hc] at h
      exact (List.nodup_cons.mp h).1 (List.mem_filterMap.mpr ⟨d, hd, hdb⟩)
    have hrest : (l.filterMap f).Nodup := by
      rw [List.filterMap_cons] at h
      split at h
      · exact h
      · exact (List.nodup_cons.mp h).2
    rcases List.mem_cons.mp ha with rfl | hmem
    · rcases List.mem_cons.mp ha' with rfl | hmem'
      · rfl
      · exact absurd hb' (hout hb hmem')
    · rcases List.mem_cons.mp ha' with rfl | hmem'
      · exact absurd hb (hout hb' hmem)
      · exact ih hrest hmem hmem'

/-- The generation of the last run is there as it was committed. -/
theorem Kept.holds {pre : String} {keep : ℕ} {t : Instant} {now : Datetime} {x : Name}
    {content : Loc → Option (Kind String)} (h : Kept pre keep P (some (second t)) w)
    (hkeep : 1 ≤ keep) (ht : now.instant = some t) (hyear : FourDigitYear t)
    (hid : generate_backup_id pre now = .ok x.val) (hc : ⟨none, P ++ [x], content⟩ ∈ w.commits)
    (r : Loc) : w.fs.kind (P ++ [x] ++ r) = content r := by
  have hname (c : Loc → Option (Kind String)) : (fun c : Commit =>
      if c.host = none then FileTree.childName P c.loc else none) ⟨none, P ++ [x], c⟩ = some x := by
    simp [FileTree.childName]
  have hmem : x ∈ committed none P w := List.mem_filterMap.mpr ⟨_, hc, hname content⟩
  have hnewest := h.last_newest hkeep ht hyear hid (mem_committedIds.mpr hmem)
  obtain ⟨found, hfound, -, -, hkind⟩ := h.intact x hmem hnewest
  have hnodup : (committed none P w).Nodup := h.ascending.imp (fun hlt => by
    rintro rfl
    exact lt_irrefl _ hlt)
  have hone := nodup_filterMap_inj hnodup hc hfound (hname content) (hname found)
  rw [hkind, (Commit.mk.inj hone).2.2]

section

variable {target : Path} {last : Option ℤ} {now : Datetime} {t : Instant} {x : Name} {v : World}
  {backup_id : String}

/-- Steps that store nothing deliver nothing. -/
theorem Delivers.of_storeless {s s' : Pipe} (hcommits : s.world.commits ⊆ s'.world.commits)
    (hadds : Adds Event.Storeless s s') : Delivers cwd target x v s s' := by
  obtain ⟨new, htrace, hnew⟩ := hadds
  refine ⟨hcommits, fun dest _ hmem => .inl ?_⟩
  rw [htrace] at hmem
  exact (List.mem_append.mp hmem).resolve_right (fun hin => hnew _ hin)

theorem settle_storeless (site : Site) (outcomes : List DestinationOutcome) :
    Moves (Adds Event.Storeless) (settle site config target backup_id now outcomes) := by
  have hremove := (perform_adds .remove_target (rmtree target true)).mono
    (fun _ _ hadds => hadds.mono (fun _ he => he.storeless (by simp)))
  refine Moves.bind hremove (fun _ => ?_)
  refine Moves.bind (storeless_of_free (perform_adds_of trivial _)) (fun _ => ?_)
  refine Moves.bind ((purge_stored_adds _ _).mono (fun _ _ hadds => hadds.mono (fun _ he =>
    he.storeless (fun d hd => ?_)))) (fun _ => finish_storeless _)
  obtain ⟨-, -, dest, -, hpurges⟩ := hd
  exact (purges_ne hpurges).2.1 d rfl

/-- A loop over the stores that does not end a run has a store that returned. -/
theorem exists_returned {site : Site} {s s' : Pipe} {outcomes : List DestinationOutcome}
    (hne : config.destinations ≠ [])
    (h : exec (store_to_destinations site config target backup_id config.destinations) s =
      (.ok outcomes, s'))
    (hsome : ¬ (outcomes.filter (!·.stored) ≠ [] ∧ outcomes.filter (·.stored) = [])) :
    ∃ dest ∈ config.destinations, .returned (.store dest) ∈ s'.trace := by
  obtain ⟨trials, hattempted, rfl, htrace⟩ := store_to_destinations_ok h
  have hgood : ∃ trial ∈ trials, trial.error = none := by
    by_contra hnone
    have hstored : ∀ trial ∈ trials, trial.outcome.stored = false := by
      intro trial hmem
      cases herror : trial.error with
      | none => exact absurd ⟨trial, hmem, herror⟩ hnone
      | some message => rw [Trial.outcome, herror, Option.isNone_some]
    refine hsome ⟨?_, List.filter_eq_nil_iff.mpr (fun o ho => ?_)⟩
    · obtain ⟨trial, hmem⟩ := List.exists_mem_of_ne_nil _ (hattempted.ne_nil hne)
      refine List.ne_nil_of_mem (List.mem_filter.mpr ⟨List.mem_map_of_mem hmem, ?_⟩)
      simp [hstored trial hmem]
    · obtain ⟨trial, hmem, rfl⟩ := List.mem_map.mp ho
      simp [hstored trial hmem]
  obtain ⟨⟨dest, error⟩, hmem, rfl⟩ := hgood
  refine ⟨dest, hattempted.dests_prefix.subset (List.mem_map_of_mem hmem), ?_⟩
  rw [htrace]
  refine List.mem_append_right _ (List.mem_flatMap.mpr ⟨_, hmem, ?_⟩)
  simp [Trial.events]

/-- A delivery, wherever it ends. -/
theorem deliver_ends (haccepted : config.Accepted) (hlayout : Layout cwd nodes config)
    (htarget : target = target_dir (site cwd nodes) config x.val)
    (hs : Stores cwd config target last now t x) (hsource : SourceDir v.fs target.loc target)
    {s s' : Pipe} (hstoring : Storing cwd config target last (second t) config.destinations s.world)
    (h : AsWritten target v s.world) {res : Except Exn RunSummary}
    (hrun : exec (deliver (site cwd nodes) config x.val now) s = (res, s')) :
    Delivers cwd target x v s s' ∧ (AsWritten target v s'.world ∨
      ∃ dest ∈ config.destinations, .returned (.store dest) ∈ s'.trace) := by
  rw [deliver, ← htarget] at hrun
  -- the hooks change nothing and store nothing
  have hhook (command : String) (point : HookPoint) (payload : Option String) :
      Moves (OnWorld Same) (perform (.hook point payload) (run_hook command false)) :=
    (run_hook_moves command false).perform _
  have hquiet {u u' : Pipe} (hsame : OnWorld Same u u') (hadds : Adds Event.Storeless u u') :
      Delivers cwd target x v u u' :=
    Delivers.of_storeless (by rw [hsame.commits]; exact List.Subset.refl _) hadds
  have hpost {r : Except Exn Unit} {u : Pipe}
      (hu : exec (perform (.hook .post_backup none) (run_hook config.hooks.post_backup false)) s =
        (r, u)) : OnWorld Same s u ∧ Delivers cwd target x v s u :=
    ⟨(hhook _ _ _).of_exec hu, hquiet ((hhook _ _ _).of_exec hu)
      ((storeless_of_free (perform_adds_of trivial _)).of_exec hu)⟩
  rcases exec_bind_cases hrun with ⟨e, he, rfl⟩ | ⟨_, u, hu, hrun⟩
  · obtain ⟨hsame, hdelivers⟩ := hpost he
    exact ⟨hdelivers, .inl (h.same hsame)⟩
  obtain ⟨hsame, hfirst⟩ := hpost hu
  have hstoring' : Storing cwd config target last (second t) config.destinations u.world :=
    ⟨hstoring.nodup, hstoring.subset, hstoring.prepared.elsewhere (Elsewhere.of_same hsame),
      fun dest hd hl => (hstoring.waiting dest hd hl).elsewhere (Elsewhere.of_same hsame),
      hstoring.kept.undisturbed (fun _ _ _ => Elsewhere.of_same hsame)⟩
  rcases exec_bind_cases hrun with ⟨e, he, rfl⟩ | ⟨outcomes, u', hu', hrun⟩
  · obtain ⟨hheld, hstores⟩ := stores_deliver hlayout hs hsource hstoring' (h.same hsame) he
    exact ⟨trans_of (Delivers cwd target x v) hfirst hstores, .inl hheld⟩
  obtain ⟨hheld, hstores⟩ := stores_deliver hlayout hs hsource hstoring' (h.same hsame) hu'
  have hbefore := trans_of (Delivers cwd target x v) hfirst hstores
  split_ifs at hrun with hnone
  · -- no store returned, and the generation stays where it is
    have hfinish : Moves (OnWorld Same)
        (finish config ⟨x.val, .ALL_DESTINATIONS_FAILED, outcomes, ""⟩) :=
      Moves.bind (hhook _ _ _) (fun _ => Moves.pure _)
    have hafter : OnWorld Same u' s' := hfinish.of_exec hrun
    have hlast := hquiet hafter ((finish_storeless _).of_exec hrun)
    exact ⟨trans_of (Delivers cwd target x v) hbefore hlast, .inl (hheld.same hafter)⟩
  · have hwithin : OnWorld (Within Set.univ) u' s' :=
      (settle_within _ _ _ (Set.subset_univ _) (fun _ _ => Set.subset_univ _)).of_exec hrun
    have hadds := (settle_storeless (site cwd nodes) outcomes).of_exec hrun
    have hlast : Delivers cwd target x v u' s' :=
      Delivers.of_storeless hwithin.commits_subset hadds
    obtain ⟨dest, hd, hmem⟩ := exists_returned haccepted.some_destination hu' hnone
    obtain ⟨new, htrace, -⟩ := hadds
    refine ⟨trans_of (Delivers cwd target x v) hbefore hlast, .inr ⟨dest, hd, ?_⟩⟩
    rw [htrace]
    exact List.mem_append_left _ hmem

/-- A run among the invocations that has written the manifest of its generation does not lose it,
however it ends: in its working directory the generation is as it was then, unless a store has
returned; and at every local destination whose store has returned there is the copy of it. -/
theorem finished_backup_survives (haccepted : config.Accepted) (hlayout : Layout cwd nodes config)
    (h : Invocations cwd nodes config w last) {now : Option Datetime} {time : Datetime}
    (ht : (start_time now w).instant = some t) (hyear : FourDigitYear t)
    (hlater : ∀ l, last = some l → l < second t) {u s' : Pipe}
    (hback : exec (back_up (site cwd nodes) config now) ⟨w, []⟩ = (.ok (.ok (x.val, time)), u))
    {res : Except Exn RunSummary}
    (hrun : exec (run (site cwd nodes) config now) ⟨w, []⟩ = (res, s')) :
    ((∀ r, s'.world.fs.kind ((target_dir (site cwd nodes) config x.val).loc ++ r) =
        u.world.fs.kind ((target_dir (site cwd nodes) config x.val).loc ++ r)) ∨
      ∃ dest ∈ config.destinations, .returned (.store dest) ∈ s'.trace) ∧
    ∀ dest ∈ config.destinations, dest.type = .local → .returned (.store dest) ∈ s'.trace →
      ∀ r, s'.world.fs.kind (localRoot cwd dest ++ [x] ++ r) =
        copyOf u.world.fs (target_dir (site cwd nodes) config x.val).loc r := by
  have hkept := h.kept haccepted hlayout
  have hleaves := run_leaves haccepted hlayout ht hyear hlater hkept hrun
  obtain ⟨htime, hid, hsource⟩ := back_up_ok hlayout hback
  rw [← htime] at ht
  have hundisturbed : OnWorld (Undisturbed cwd config) ⟨w, []⟩ u :=
    (back_up_undisturbed hlayout now).of_exec hback
  have hstores : Stores cwd config (target_dir (site cwd nodes) config x.val) last time t x :=
    ⟨fun dest hd hl => hlayout.target hid hd hl, ht, hyear, hlater, hid⟩
  have hkept' := hkept.undisturbed hundisturbed
  have hstoring : Storing cwd config (target_dir (site cwd nodes) config x.val) last (second t)
      config.destinations u.world :=
    ⟨haccepted.names.of_map, List.Subset.refl _, ⟨hsource.leads, hsource.manifest⟩,
      fun dest hd hl => hkept' dest hd hl,
      hkept'.later (fun l hl => ⟨_, rfl, (hlater l hl).le⟩)⟩
  rw [run_eq, exec_bind_ok hback] at hrun
  obtain ⟨hdelivers, hheld⟩ :=
    deliver_ends haccepted hlayout rfl hstores hsource hstoring (fun _ => rfl) hrun
  refine ⟨hheld, fun dest hd hl hmem => ?_⟩
  -- nothing was stored before the delivery
  have hnone : .returned (.store dest) ∉ u.trace := by
    obtain ⟨new, htrace, hnew⟩ := (back_up_storeless (site cwd nodes) now).of_exec hback
    rw [htrace, List.nil_append]
    exact fun hin => hnew _ hin
  have hcommit := (hdelivers.returned dest hl hmem).resolve_left hnone
  exact (hleaves.1 dest hd hl).holds (haccepted.keep dest hd) ht hyear hid hcommit

/-- After the second run the destination has the manifest that this run wrote. -/
theorem finished_backup_survives_second :
    (exec (run (site [] smallNodes) (smallConfig "/w" "p" "/b" 1)
        (some (Datetime.utc 1700000001000000))) ⟨secondWorld, []⟩).2.world.fs.kind
      (localRoot [] (smallDestination "/b" 1) ++ [entry "p-20231114T221321Z"] ++
        [META_FILENAME]) =
    copyOf (exec (back_up (site [] smallNodes) (smallConfig "/w" "p" "/b" 1)
        (some (Datetime.utc 1700000001000000))) ⟨secondWorld, []⟩).2.world.fs
      (target_dir (site [] smallNodes) (smallConfig "/w" "p" "/b" 1) "p-20231114T221321Z").loc
      [META_FILENAME] := by
  have hback : (exec (back_up (site [] smallNodes) (smallConfig "/w" "p" "/b" 1)
      (some (Datetime.utc 1700000001000000))) ⟨secondWorld, []⟩).1 =
      .ok (.ok ("p-20231114T221321Z", Datetime.utc 1700000001000000)) := by decide +kernel
  have hgone : (exec (run (site [] smallNodes) (smallConfig "/w" "p" "/b" 1)
      (some (Datetime.utc 1700000001000000))) ⟨secondWorld, []⟩).2.world.fs.kind
        ((target_dir (site [] smallNodes) (smallConfig "/w" "p" "/b" 1)
          "p-20231114T221321Z").loc ++ [META_FILENAME]) ≠
      (exec (back_up (site [] smallNodes) (smallConfig "/w" "p" "/b" 1)
        (some (Datetime.utc 1700000001000000))) ⟨secondWorld, []⟩).2.world.fs.kind
        ((target_dir (site [] smallNodes) (smallConfig "/w" "p" "/b" 1)
          "p-20231114T221321Z").loc ++ [META_FILENAME]) := by decide +kernel
  have hrun := (Prod.eta (exec (run (site [] smallNodes) (smallConfig "/w" "p" "/b" 1)
    (some (Datetime.utc 1700000001000000))) ⟨secondWorld, []⟩)).symm
  have htime : (start_time (some (Datetime.utc 1700000001000000)) secondWorld).instant =
      some 1700000001000000 := Datetime.instant_utc _
  have hsurvives := finished_backup_survives (x := entry "p-20231114T221321Z") smallConfig_accepted
    smallLayout secondWorld_reached htime (by decide) (by decide) (exec_of_ok hback) hrun
  obtain ⟨dest, hd, hreturned⟩ := hsurvives.1.resolve_left (fun hheld => hgone (hheld _))
  obtain rfl := List.mem_singleton.mp hd
  exact hsurvives.2 _ List.mem_cons_self rfl hreturned [META_FILENAME]

end

end MbKeeper
