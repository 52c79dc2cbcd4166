import MbKeeper.PurgeFrame

/-!
# Housekeeping in the working directory

Three operations remove directories: the cleanup at the start of a run, the
removal of the run's own directory once it is stored, and a purge. `Harmless`
says that the first two never take anything of a local destination, and a purge
nothing of the working directory. The configuration is only checked for one
spelling of one path, so this depends on how the paths lie: `Separated` says
exactly when it holds, whatever the directories contain.
-/
namespace MbKeeper

section

variable (cwd : Loc) (nodes : String → RemoteNode) (config : Config)

/-- Nothing at or below the path is gone. A path with a NUL names nothing. -/
def Preserves (p : Path) (w w' : World) : Prop :=
  p.nul = false → ∀ q, p.loc <+: q → w.fs.kind q ≠ none → w'.fs.kind q ≠ none

/-- Whatever the directories hold and however the calls end, housekeeping in the working
directory takes nothing of a local destination, and a purge nothing of the working directory. -/
structure Harmless : Prop where
  cleanup : ∀ dest ∈ config.destinations, dest.type = .local → ∀ now backup_id,
    generate_backup_id config.backup.name_prefix now = .ok backup_id → ∀ w,
      Preserves (LocalDestination.from_config cwd dest).path w
        (exec (cleanup_stale_work_dir (work_dir (site cwd nodes) config) backup_id) w).2
  target : ∀ dest ∈ config.destinations, dest.type = .local → ∀ now backup_id,
    generate_backup_id config.backup.name_prefix now = .ok backup_id → ∀ w,
      Preserves (LocalDestination.from_config cwd dest).path w
        (exec (rmtree (target_dir (site cwd nodes) config backup_id) true) w).2
  purge : ∀ dest ∈ config.destinations, dest.type = .local →
    ∀ (now : Datetime) t, Representable now.wall →
    now.instant = some t → ∀ dry_run in_progress_id s,
      Preserves (work_dir (site cwd nodes) config) s.world
        (exec (purge_one_destination (site cwd nodes) config dest now dry_run in_progress_id)
          s).2.world

/-- Neither path lies at or below the other. -/
def Aside (p q : Path) : Prop :=
  p.nul = false → q.nul = false → ¬ p.loc <+: q.loc ∧ ¬ q.loc <+: p.loc

/-- There are times at which a directory has outlived its grace period. -/
def Expires : Prop :=
  config.retention.incomplete_grace_hours < 24 * 1000000000 ∧
    ∃ (now : Datetime) (t s : Instant), Representable now.wall ∧
    now.instant = some t ∧ Representable s ∧
      config.retention.incomplete_grace_hours * 3600000000 ≤ t - s

/-- Where the paths lie, for every local destination. -/
structure Separated : Prop where
  work : ∀ dest ∈ config.destinations, dest.type = .local →
    Aside (work_dir (site cwd nodes) config) (LocalDestination.from_config cwd dest).path
  target : ∀ dest ∈ config.destinations, dest.type = .local → ∀ now backup_id,
    generate_backup_id config.backup.name_prefix now = .ok backup_id →
      Aside (target_dir (site cwd nodes) config backup_id)
        (LocalDestination.from_config cwd dest).path
  /-- The id of a directory called `...partial` is two dots. -/
  parent : ∀ dest ∈ config.destinations, dest.type = .local → Expires config →
    (LocalDestination.from_config cwd dest).path.nul = false →
      (work_dir (site cwd nodes) config).nul = false →
        ¬ (localRoot cwd dest).dropLast <+: (work_dir (site cwd nodes) config).loc

end

variable {cwd : Loc} {nodes : String → RemoteNode} {config : Config} {dest : DestinationConfig}

section

variable {p : Path} {w w' : World}

instance (p : Path) : Std.Refl (Preserves p) := ⟨fun _ _ _ _ h => h⟩

instance (p : Path) : IsTrans World (Preserves p) :=
  ⟨fun _ _ _ h h' hnul q hq hk => h' hnul q hq (h hnul q hq hk)⟩

theorem Preserves.of_removes {S : Set Spot} (hr : Removes S w w')
    (hS : p.nul = false → ∀ q, p.loc <+: q → (none, q) ∉ S) : Preserves p w w' := by
  intro hnul q hq hk
  rwa [hr.fs_kind (hS hnul q hq)]

/-- What lies below one of two paths apart does not lie below the other. -/
theorem notMem_below {l m q : Loc} (hl : ¬ l <+: m) (hm : ¬ m <+: l) (hq : m <+: q) :
    (none, q) ∉ below none l := by
  rintro ⟨-, hlq⟩
  rcases prefix_or_prefix hlq hq with h | h
  · exact hl h
  · exact hm h

theorem Preserves.rmtree {q : Path} (h : Aside q p) (ig : Bool) :
    Moves (Preserves p) (rmtree q ig) := by
  cases hq : q.nul with
  | true =>
    refine (LocalDestination.rmtree_nul hq ig).mono (fun w w' hs => ?_)
    exact Preserves.of_removes (hs.removes ∅) (fun _ _ _ => Set.notMem_empty _)
  | false =>
    refine (rmtree_removes q ig).mono (fun w w' hr => Preserves.of_removes hr (fun hp r hr => ?_))
    exact notMem_below (h hq hp).1 (h hq hp).2 hr

theorem Preserves.same (hs : Same w w') : Preserves p w w' :=
  Preserves.of_removes (hs.removes ∅) (fun _ _ _ => Set.notMem_empty _)

/-- An entry of a directory apart from the path is apart from it. -/
theorem Aside.child {work : Path} (h : Aside work p) (hwork : work.nul = false → work.At work.loc)
    (x : Name) : Aside (work.child x) p := by
  intro hnul hp
  obtain ⟨hl, hm⟩ := h hnul hp
  rw [((hwork hnul).child x).loc_eq]
  refine ⟨fun hq => hl ((List.prefix_append _ _).trans hq), fun hq => ?_⟩
  rcases List.prefix_concat_iff.mp hq with he | hq
  · exact hl (he ▸ List.prefix_append _ _)
  · exact hm hq

theorem cleanup_preserves {work : Path} (h : Aside work p)
    (hwork : work.nul = false → work.At work.loc) (keep_id : String) :
    Moves (Preserves p) (cleanup_stale_work_dir work keep_id) := by
  have hask : ∀ {α : Type} (q : Reply → World → α), Moves (Preserves p) (ask q) := fun q =>
    (LocalDestination.ask_same q).mono (fun _ _ hs => Preserves.same hs)
  have hentry : ∀ x, Moves (Preserves p) (cleanup_entry work keep_id x) := fun x =>
    Moves.bind (hask _) (fun _ => Moves.ite (Preserves.rmtree (h.child hwork x) true)
      (Moves.pure _))
  have hentries : ∀ xs, Moves (Preserves p) (cleanup_entries work keep_id xs) := by
    intro xs
    induction xs with
    | nil => exact Moves.pure _
    | cons x xs ih => exact Moves.bind (hentry x) (fun _ => ih)
  exact Moves.bind (hask _) (fun _ => Moves.ite (Moves.bind (hask _) (fun xs => hentries xs))
    (Moves.pure _))

end

theorem work_dir_at (h : (work_dir (site cwd nodes) config).nul = false) :
    (work_dir (site cwd nodes) config).At (work_dir (site cwd nodes) config).loc := by
  have hparts : ∀ s ∈ config.backup.work_dir.parts, hasNul s = false := by
    simpa [work_dir, Path.configured] using h
  exact Path.configured_at hparts

/-- What `delete` of a listed id may empty. -/
theorem notMem_deleteSpots {d : LocalDestination} {P m q : Loc} (hp : d.path.At P)
    (hP : ¬ P <+: m) (hm : ¬ m <+: P) (y : Name)
    (hup : LocalDestination.listedId y = ".." → ¬ P.dropLast <+: m) (hq : m <+: q) :
    (none, q) ∉ d.deleteSpots (LocalDestination.listedId y) := by
  have hinside : ∀ z : Name, (none, q) ∉ below none (d.path.join z.val).loc := by
    intro z
    rw [(hp.join z).loc_eq]
    refine notMem_below (fun hz => hP ((List.prefix_append _ _).trans hz)) (fun hz => ?_) hq
    rcases List.prefix_concat_iff.mp hz with he | hz
    · exact hP (he ▸ List.prefix_append _ _)
    · exact hm hz
  have hsuffix : Legal (LocalDestination.listedId y ++ PARTIAL_SUFFIX) := by
    refine Legal.append (fun c hc => y.property.2.2.2 c ?_) (by decide) (by decide)
    rcases LocalDestination.listedId_cases y with h | h
    · rwa [h]
    · rw [h, String.toList_append]
      exact List.mem_append_left _ hc
  refine fun hmem => hmem.elim ?_ (hinside ⟨_, hsuffix⟩)
  rcases LocalDestination.listedId_legal_or y with hlegal | hdotted
  · exact hinside ⟨_, hlegal⟩
  rcases or_assoc.mpr hdotted with hhere | hdots
  · rw [(join_here hp hhere).loc_eq]
    exact notMem_below hP hm hq
  · have hloc : (d.path.join (LocalDestination.listedId y)).loc = P.dropLast := by
      have hfind := find_up hp (t := FileTree.empty.create P .dir 0) (by
        rw [FileTree.isDir_iff, FileTree.kind_create, if_pos rfl])
      rw [hdots]
      exact (Path.find_eq_loc hfind).symm
    rw [hloc]
    exact notMem_below (hup hdots) (fun hz => hm (hz.trans (List.dropLast_prefix P))) hq

/-- A path with a NUL is no directory. -/
theorem list_backups_nul {d : LocalDestination} (h : d.path.nul = true) (w : World) :
    Same w (exec d.list_backups w).2 ∧ ∀ stored, (exec d.list_backups w).1 ≠ .ok stored := by
  cases hf : (w.tape 0).fault with
  | some e =>
    have hask : exec (is_dir d.path) w = (.error e, w.next) := by rw [is_dir, exec_ask, hf]
    rw [LocalDestination.list_backups, exec_bind_error hask]
    exact ⟨same_next w, fun _ hx => by cases hx⟩
  | none =>
    have hask : exec (is_dir d.path) w = (.ok false, w.next) := by
      rw [is_dir, exec_ask, hf]
      simp [Path.isDirIn, Path.find_nul h]
    rw [LocalDestination.list_backups, exec_bind_ok hask]
    exact ⟨same_next w, fun _ hx => by cases hx⟩

section

variable {now : Datetime} {t : Instant} {in_progress_id : Option String}

/-- Two dots are in a plan only where a directory can outlive its grace period. -/
theorem expires_of_planned (hwall : Representable now.wall) (hnow : now.instant = some t)
    {tree : Fs} {P : Loc} (hdated : LocalDestination.Dated tree P) {plan : PurgePlan}
    (hplan : planOf config dest now in_progress_id tree P = .ok plan) (hdots : ".." ∈ plan.delete) :
    Expires config := by
  have hgrace := grace_of_plan hnow hplan
  obtain ⟨x, hx, hdir, hdue⟩ := (mem_delete_iff_due hnow hplan).mp hdots
  have hsuffixed : stripSuffix PARTIAL_SUFFIX x.val = some ".." := by
    cases hs : stripSuffix PARTIAL_SUFFIX x.val with
    | some s =>
      rw [LocalDestination.listedId, hs] at hx
      exact congrArg some hx
    | none =>
      rw [LocalDestination.listedId, hs] at hx
      exact absurd hx x.property.2.2.1
  rw [LocalDestination.recordOf_suffixed hsuffixed] at hdue
  have hold : ¬ Spared config.retention.incomplete_grace_hours t in_progress_id
      ⟨"..", false, Datetime.utc (LocalDestination.mtimeAt tree (P ++ [x]))⟩ := by
    simpa [Due] using hdue
  simp only [Spared, Datetime.instant_utc, not_or, Option.some.injEq, forall_eq', not_lt] at hold
  exact ⟨hgrace, now, t, _, hwall, hnow, hdated x (LocalDestination.mem_dirsIn.mpr hdir), hold.2⟩

theorem purge_preserves (h : Separated cwd nodes config) (hmem : dest ∈ config.destinations)
    (htype : dest.type = .local) (hwall : Representable now.wall) (hnow : now.instant = some t)
    (dry_run : Bool) (s : Pipe) : Preserves (work_dir (site cwd nodes) config) s.world
      (exec (purge_one_destination (site cwd nodes) config dest now dry_run in_progress_id)
        s).2.world := by
  intro hwork
  have hbuild : (site cwd nodes).build_destination dest config.transfer =
      (LocalDestination.from_config cwd dest).toDestination := by
    simp [site, build_destination, htype]
  rcases purge_one_cases (Prod.eta (exec (purge_one_destination (site cwd nodes) config dest now
    dry_run in_progress_id) s)).symm with
    ⟨r, hlist, -⟩ | ⟨stored, plan, u, r, hlist, hplan, hdel, -⟩
  · rw [hbuild] at hlist
    have hsame : Moves Same (LocalDestination.from_config cwd dest).list_backups := by
      cases hnul : (LocalDestination.from_config cwd dest).path.nul with
      | true => exact fun w => (list_backups_nul hnul w).1
      | false => exact (LocalDestination.list_backups_reads
        (DestinationConfig.at_of_nul hnul)).moves
    exact Preserves.same (hsame.of_exec hlist) hwork
  · rw [hbuild] at hlist hdel
    cases hnul : (LocalDestination.from_config cwd dest).path.nul with
    | true => exact absurd (congrArg Prod.fst hlist) ((list_backups_nul hnul _).2 _)
    | false =>
      have hp := DestinationConfig.at_of_nul hnul
      obtain ⟨hsame, -, hdated, rfl⟩ := LocalDestination.list_backups_ok hp hlist
      obtain ⟨hW, hP⟩ := h.work dest hmem htype hwork hnul
      have hdelete : ∀ i ∈ plan.delete, Moves (Preserves (work_dir (site cwd nodes) config))
          ((LocalDestination.from_config cwd dest).delete i) := by
        intro i hi
        obtain ⟨y, rfl, -⟩ := (mem_delete_iff_due hnow hplan).mp hi
        refine ((LocalDestination.from_config cwd dest).delete_removes _).mono (fun _ _ hr => ?_)
        refine Preserves.of_removes hr
          (fun _ q hq => notMem_deleteSpots hp hP hW y (fun hup => ?_) hq)
        exact h.parent dest hmem htype
          (expires_of_planned hwall hnow hdated hplan (hup ▸ hi)) hnul hwork
      have hall := (delete_planned_moves hdelete dry_run).of_exec hdel
      exact trans_of (Preserves (work_dir (site cwd nodes) config))
        (Preserves.same hsame) hall hwork

end

/-- Directories, all made at the time `s`. -/
def dirTree (ls : List Loc) (s : Instant) : Fs := FileTree.empty.mkdirs ls s

@[simp] theorem kind_dirTree (ls : List Loc) (s : Instant) (q : Loc) :
    (dirTree ls s).kind q = if q ∈ ls then some .dir else none := by
  rw [dirTree, FileTree.kind_mkdirs]
  simp

theorem isDir_dirTree {ls : List Loc} {q : Loc} (h : q ∈ ls) (s : Instant) :
    (dirTree ls s).isDir q = true := by
  rw [FileTree.isDir_iff, kind_dirTree, if_pos h]

theorem mtime_mkdirs {t : Fs} (ls : List Loc) {s : Instant}
    (ht : ∀ q n, t.lookup q = some n → n.mtime = s) :
    ∀ q n, (t.mkdirs ls s).lookup q = some n → n.mtime = s := by
  induction ls generalizing t with
  | nil => exact ht
  | cons l ls ih =>
    rw [FileTree.mkdirs, List.foldl_cons, ← FileTree.mkdirs]
    refine ih ?_
    split_ifs
    · exact ht
    · intro q n hq
      simp only [FileTree.create, FileTree.touch, FileTree.put] at hq
      split_ifs at hq
      · obtain ⟨m, -, rfl⟩ := Option.map_eq_some_iff.mp hq
        rfl
      · obtain ⟨m, -, rfl⟩ := Option.map_eq_some_iff.mp hq
        rfl
      · rw [← Option.some.inj hq]
      · exact ht q n hq

theorem mtimeAt_dirTree {ls : List Loc} {q : Loc} (h : q ∈ ls) (s : Instant) :
    LocalDestination.mtimeAt (dirTree ls s) q = s := by
  cases hl : (dirTree ls s).lookup q with
  | none =>
    have hdir := (FileTree.isDir_iff _ _).mp (isDir_dirTree h s)
    rw [FileTree.kind, hl] at hdir
    cases hdir
  | some n =>
    rw [LocalDestination.mtimeAt, hl]
    exact mtime_mkdirs ls (by intro q n hq; cases hq) q n hl

/-- The two ids of different seconds differ. -/
theorem exists_other_id (pre s : String) :
    ∃ now backup_id, generate_backup_id pre now = .ok backup_id ∧ backup_id ≠ s := by
  have hid : ∀ t, Representable t → generate_backup_id pre (Datetime.utc t) =
      .ok (pre ++ ("-" ++ String.ofList (stamp t))) := fun t ht =>
    generate_backup_id_eq_ok.mpr ⟨t, Datetime.instant_utc t, ht, rfl⟩
  have hfirst := hid 1600000000000000 (by decide)
  have hsecond := hid 1700000000000000 (by decide)
  have hlt := generate_backup_id_lt hfirst hsecond (Datetime.instant_utc _) (Datetime.instant_utc _)
    (by decide) (by decide) (by decide)
  by_cases hs : pre ++ ("-" ++ String.ofList (stamp 1600000000000000)) = s
  · exact ⟨_, _, hsecond, fun he => absurd hlt (by rw [he, hs]; exact lt_irrefl s)⟩
  · exact ⟨_, _, hfirst, hs⟩

section

variable {work : Path} {W : Loc} {keep_id : String} {w : World}

/-- Where errors are ignored and none is a crash, the removal returns. -/
theorem rmtree_ignoring (p : Path) (hc : Calm w) :
    (exec (rmtree p true) w).1 = .ok () ∧ Calm (exec (rmtree p true) w).2 := by
  have hnone : (w.tape 0).fault = none := hc 0
  have hlost : lost p ≠ .crash := by
    rw [lost]
    split_ifs <;> exact Exn.noConfusion
  rw [rmtree, exec_primitive, World.fs_next, hnone]
  cases p.find w.fs with
  | none => exact ⟨if_pos ⟨rfl, hlost⟩, hc.next⟩
  | some l =>
    dsimp only
    split_ifs
    · exact ⟨rfl, hc.next⟩
    · exact ⟨rfl, hc.next⟩
    · exact ⟨rfl, hc.next⟩

theorem cleanup_entry_calm (x : Name) (hc : Calm w) :
    (exec (cleanup_entry work keep_id x) w).1 = .ok () ∧
      Calm (exec (cleanup_entry work keep_id x) w).2 := by
  have hdir : exec (is_dir (work.child x)) w =
      (.ok ((work.child x).isDirIn w.fs), w.next) := LocalDestination.ask_calm hc
  rw [cleanup_entry, exec_bind_ok hdir]
  split_ifs
  · exact rmtree_ignoring _ hc.next
  · exact ⟨rfl, hc.next⟩

/-- Every stale directory is emptied. -/
theorem cleanup_entries_clears (hW : work.At W) {xs : List Name} {x : Name} (hx : x ∈ xs)
    (hkeep : x.val ≠ keep_id) (hc : Calm w) (hdir : w.fs.isDir (W ++ [x]) = true) {q : Loc}
    (hq : W ++ [x] <+: q) (hne : q ≠ W ++ [x]) :
    (exec (cleanup_entries work keep_id xs) w).2.fs.kind q = none := by
  have hremoves : ∀ y, Moves (Removes (below none (W ++ [y]))) (cleanup_entry work keep_id y) := by
    intro y
    refine Moves.bind (fun v => (LocalDestination.ask_same _ v).removes _)
      (fun _ => Moves.ite ?_ (Moves.pure _))
    have hrm := rmtree_removes (work.child y) true
    rwa [(hW.child y).loc_eq] at hrm
  have hall : ∀ ys, Moves (Removes Set.univ) (cleanup_entries work keep_id ys) := by
    intro ys
    induction ys with
    | nil => exact Moves.pure _
    | cons y ys ih =>
      exact Moves.bind ((hremoves y).mono (fun _ _ h => h.mono (Set.subset_univ _))) (fun _ => ih)
  induction xs generalizing w with
  | nil => cases hx
  | cons y ys ih =>
    have hcalm := @cleanup_entry_calm work keep_id w y hc
    rw [cleanup_entries, exec_bind_ok (exec_of_ok hcalm.1)]
    by_cases hyx : x = y
    · subst hyx
      refine (hall ys _).none_of_none ?_
      have hthere : exec (is_dir (work.child x)) w = (.ok true, w.next) := by
        have hask : exec (is_dir (work.child x)) w =
          (.ok ((work.child x).isDirIn w.fs), w.next) := LocalDestination.ask_calm hc
        rw [hask, Path.isDirIn, (hW.child x).find]
        simp [hdir]
      rw [cleanup_entry, exec_bind_ok hthere, if_pos ⟨rfl, hkeep⟩]
      exact LocalDestination.rmtree_clears hc.next ((hW.child x).find _) hdir hq hne
    · refine ih ((List.mem_cons.mp hx).resolve_left hyx) hcalm.2 ?_
      rw [FileTree.isDir_congr ((hremoves y w).fs_kind ?_)]
      · exact hdir
      · rintro ⟨-, hpre⟩
        have hyx' : y = x := by simpa using (List.prefix_append_right_inj W).mp hpre
        exact hyx hyx'.symm

theorem cleanup_clears (hW : work.At W) (hc : Calm w) (hroot : w.fs.isDir W = true) {x : Name}
    (hkeep : x.val ≠ keep_id) (hdir : w.fs.isDir (W ++ [x]) = true) {q : Loc}
    (hq : W ++ [x] <+: q) (hne : q ≠ W ++ [x]) :
    (exec (cleanup_stale_work_dir work keep_id) w).2.fs.kind q = none := by
  have hthere : exec (is_dir work) w = (.ok true, w.next) := by
    have hask : exec (is_dir work) w = (.ok (work.isDirIn w.fs), w.next) :=
      LocalDestination.ask_calm hc
    rw [hask, Path.isDirIn, hW.find]
    simp [hroot]
  have hnames : exec (iterdir work) w.next = (.ok (w.fs.children W), w.next.next) := by
    have hask : exec (iterdir work) w.next = (.ok (((work.find w.next.next.fs).map
      w.next.next.fs.children).getD []), w.next.next) := LocalDestination.ask_calm hc.next
    rw [hask, hW.find]
    rfl
  rw [cleanup_stale_work_dir, exec_bind_ok hthere, if_pos rfl, exec_bind_ok hnames]
  refine cleanup_entries_clears hW (FileTree.mem_children.mpr ?_) hkeep hc.next.next hdir hq hne
  rw [(FileTree.isDir_iff _ _).mp hdir]
  simp

/-- Two comparable locations have a place below both, beyond an entry of the first. -/
theorem exists_below_both {l m : Loc} (h : l <+: m ∨ m <+: l) :
    ∃ x q, l ++ [x] <+: q ∧ m <+: q ∧ q ≠ l ++ [x] := by
  rcases h with ⟨r, rfl⟩ | h
  · cases r with
    | nil => exact ⟨META_FILENAME, l ++ [META_FILENAME] ++ [META_FILENAME],
        List.prefix_append _ _, by simp, by simp⟩
    | cons x r => exact ⟨x, l ++ [x] ++ (r ++ [META_FILENAME]), List.prefix_append _ _, by simp,
        by simp⟩
  · exact ⟨META_FILENAME, l ++ [META_FILENAME] ++ [META_FILENAME], List.prefix_append _ _,
      h.trans (by simp), by simp⟩

theorem isDir_inits {q l : Loc} (h : l <+: q) (ls : List Loc) (s : Instant) :
    (dirTree (ls ++ q.inits) s).isDir l = true :=
  isDir_dirTree (List.mem_append_right _ ((List.mem_inits _ _).mpr h)) s

end

theorem Harmless.work (h : Harmless cwd nodes config) (hmem : dest ∈ config.destinations)
    (htype : dest.type = .local) :
    Aside (work_dir (site cwd nodes) config) (LocalDestination.from_config cwd dest).path := by
  intro hwork hnul
  rw [← not_or]
  intro hor
  obtain ⟨x, q, hq, hD, hne⟩ := exists_below_both hor
  obtain ⟨now, backup_id, hid, hother⟩ := exists_other_id config.backup.name_prefix x.val
  have hW := (List.prefix_append _ _).trans hq
  have hgone := cleanup_clears (work_dir_at hwork) (smallWorld_calm (dirTree ([] ++ q.inits) 0))
    (isDir_inits hW _ _) (Ne.symm hother) (isDir_inits hq _ _) hq hne
  refine h.cleanup dest hmem htype now backup_id hid _ hnul q hD ?_ hgone
  have hthere := isDir_inits (List.prefix_refl q) [] 0
  rw [fs_smallWorld, (FileTree.isDir_iff _ _).mp hthere]
  simp

/-- A path whose directories are all there leads where it resolves to. -/
theorem walk_of_dirs {t : Fs} {l : Loc} {ps : List (PathStep Name)}
    (h : ∀ qs, qs <+: ps → t.isDir (FileTree.resolve l qs) = true) :
    t.walk l ps = some (FileTree.resolve l ps) := by
  induction ps generalizing l with
  | nil => rfl
  | cons p ps ih =>
    cases p with
    | up =>
      have hl : t.isDir l = true := h [] List.nil_prefix
      rw [FileTree.walk, if_pos hl]
      exact ih (fun qs hqs => h (.up :: qs) (List.cons_prefix_cons.mpr ⟨rfl, hqs⟩))
    | down x => exact ih (fun qs hqs => h (.down x :: qs) (List.cons_prefix_cons.mpr ⟨rfl, hqs⟩))

theorem resolve_mem_chain (p : Path) {qs : List (PathStep Name)} (h : qs <+: p.steps) :
    FileTree.resolve p.home qs ∈ p.chain := by
  cases qs with
  | nil => exact List.mem_append_left _ ((List.mem_inits _ _).mpr (List.prefix_refl _))
  | cons a qs =>
    refine List.mem_append_right _ (List.mem_map.mpr ⟨a :: qs, ?_, rfl⟩)
    have hmem := (List.mem_inits _ _).mpr h
    cases hsteps : p.steps with
    | nil => simp [hsteps] at h
    | cons b ps =>
      rw [hsteps] at hmem
      simpa using hmem

theorem find_dirTree {p : Path} (h : p.nul = false) (ls : List Loc) (s : Instant) :
    p.find (dirTree (p.chain ++ ls) s) = some p.loc ∧
      (dirTree (p.chain ++ ls) s).isDir p.loc = true := by
  have hdir : ∀ qs, qs <+: p.steps →
      (dirTree (p.chain ++ ls) s).isDir (FileTree.resolve p.home qs) = true := fun qs hqs =>
    isDir_dirTree (List.mem_append_left _ (resolve_mem_chain p hqs)) s
  refine ⟨?_, hdir p.steps (List.prefix_refl _)⟩
  rw [Path.find, h, if_neg (by simp)]
  exact walk_of_dirs hdir

theorem Harmless.aside_target (h : Harmless cwd nodes config) (hmem : dest ∈ config.destinations)
    (htype : dest.type = .local) {now : Datetime} {backup_id : String}
    (hid : generate_backup_id config.backup.name_prefix now = .ok backup_id) :
    Aside (target_dir (site cwd nodes) config backup_id)
      (LocalDestination.from_config cwd dest).path := by
  intro htarget hnul
  rw [← not_or]
  intro hor
  obtain ⟨x, q, hq, hD, -⟩ := exists_below_both hor
  obtain ⟨hfind, hdir⟩ := find_dirTree htarget q.inits 0
  have hT := (List.prefix_append _ _).trans hq
  have hne : q ≠ (target_dir (site cwd nodes) config backup_id).loc := ne_of_entry_prefix hq
  have hgone := @LocalDestination.rmtree_clears _ true _ (smallWorld_calm (dirTree
    ((target_dir (site cwd nodes) config backup_id).chain ++ q.inits) 0)) _ hfind hdir q hT hne
  refine h.target dest hmem htype now backup_id hid _ hnul q hD ?_ hgone
  have hthere :=
    isDir_inits (List.prefix_refl q) (target_dir (site cwd nodes) config backup_id).chain 0
  rw [fs_smallWorld, (FileTree.isDir_iff _ _).mp hthere]
  simp

/-- A purge in which no call fails ends with no more than its first delete left. -/
theorem calm_purge_first (hd : dest.IsLocal) {now : Datetime} {t : Instant}
    (hnow : now.instant = some t) {tree : Fs}
    (hdir : tree.kind (localRoot cwd dest) = some .dir)
    (hdated : LocalDestination.Dated tree (localRoot cwd dest)) {plan : PurgePlan}
    (hplan : planOf config dest now none tree (localRoot cwd dest) = .ok plan)
    {i : String} {ids : List String} (hids : plan.delete = i :: ids) :
    ∃ v, Calm v ∧ v.fs = tree ∧
      Removes Set.univ (exec ((LocalDestination.from_config cwd dest).delete i) v).2
        (exec (purge_one_destination (site cwd nodes) config dest now false none)
          ⟨smallWorld tree, []⟩).2.world := by
  obtain ⟨u, hcalm, hsame, hfinal⟩ := @calm_purge_planned cwd nodes _ _ _ _ hd _ _ hdir hdated hplan
  have hend := planned_delete_calm hd hnow hplan (hids ▸ List.mem_cons_self) hcalm
  obtain ⟨outcome, v, hv, hworld⟩ := @delete_one_ends dest
    (LocalDestination.from_config cwd dest).toDestination i u hend.2
  refine ⟨u.world, hcalm, hsame.fs, ?_⟩
  rw [hfinal, hids, delete_planned_cons hv]
  change Removes Set.univ (exec ((LocalDestination.from_config cwd dest).toDestination.delete i)
    u.world).2 _
  rw [← hworld]
  exact delete_planned_moves (R := Removes Set.univ) (fun j _ => delete_removes_univ _ j) false v

/-- The directory whose id is two dots. -/
def dotsPartial : Name := ⟨"...partial", by decide⟩

theorem recordOf_dots (t : Fs) (P : Loc) : LocalDestination.recordOf t P dotsPartial =
    ⟨"..", false, Datetime.utc (LocalDestination.mtimeAt t (P ++ [dotsPartial]))⟩ :=
  LocalDestination.recordOf_suffixed (by decide)

/-- The directory `P` with nothing but that entry, and the place `q` elsewhere. -/
def dotsTree (P q : Loc) (s : Instant) : Fs :=
  dirTree ((P ++ [dotsPartial]) :: (P.inits ++ q.inits)) s

section

variable {P q : Loc} {s : Instant}

theorem dotsTree_dir {l : Loc} (h : l <+: P ∨ l <+: q) : (dotsTree P q s).kind l = some .dir := by
  rw [dotsTree, kind_dirTree, if_pos]
  refine List.mem_cons_of_mem _ (List.mem_append.mpr ?_)
  rwa [List.mem_inits, List.mem_inits]

theorem dotsTree_entries (hq : ∀ x, ¬ P ++ [x] <+: q) {x : Name} :
    (dotsTree P q s).kind (P ++ [x]) = some .dir ↔ x = dotsPartial := by
  rw [dotsTree, kind_dirTree]
  constructor
  · intro hdir
    split_ifs at hdir with hmem
    rcases List.mem_cons.mp hmem with he | hmem
    · simpa using he
    rcases List.mem_append.mp hmem with hmem | hmem
    · have := ((List.mem_inits _ _).mp hmem).length_le
      simp only [List.length_append, List.length_singleton] at this
      omega
    · exact absurd ((List.mem_inits _ _).mp hmem) (hq x)
  · rintro rfl
    rw [if_pos List.mem_cons_self]

theorem dotsTree_mtime : LocalDestination.mtimeAt (dotsTree P q s) (P ++ [dotsPartial]) = s :=
  mtimeAt_dirTree List.mem_cons_self s

/-- What is planned is to delete the id of the two dots. -/
theorem dotsTree_planned (hq : ∀ x, ¬ P ++ [x] <+: q) {now : Datetime} {t : Instant}
    (hnow : now.instant = some t)
    (hgrace : config.retention.incomplete_grace_hours < 24 * 1000000000)
    (hage : config.retention.incomplete_grace_hours * 3600000000 ≤ t - s) :
    ∃ plan ids, planOf config dest now none (dotsTree P q s) P = .ok plan ∧
      plan.delete = ".." :: ids := by
  obtain ⟨plan, hplan⟩ : ∃ plan, planOf config dest now none (dotsTree P q s) P = .ok plan :=
    exists_plan hnow _ _ hgrace
  have hmem : ".." ∈ plan.delete := by
    refine (mem_delete_iff_due hnow hplan).mpr ⟨dotsPartial, by decide,
      (dotsTree_entries hq).mpr rfl, ?_⟩
    rw [recordOf_dots, dotsTree_mtime]
    simpa [Due, Spared] using hage
  cases hids : plan.delete with
  | nil =>
    rw [hids] at hmem
    cases hmem
  | cons i ids =>
    obtain ⟨x, hx, hdir, -⟩ := (mem_delete_iff_due hnow hplan).mp (hids ▸ List.mem_cons_self)
    obtain rfl := (dotsTree_entries hq).mp hdir
    obtain rfl : ".." = i := hx
    exact ⟨plan, ids, hplan, hids⟩

end

theorem Harmless.parent (h : Harmless cwd nodes config) (hmem : dest ∈ config.destinations)
    (htype : dest.type = .local) (hexp : Expires config)
    (hnul : (LocalDestination.from_config cwd dest).path.nul = false)
    (hwork : (work_dir (site cwd nodes) config).nul = false) :
    ¬ (localRoot cwd dest).dropLast <+: (work_dir (site cwd nodes) config).loc := by
  intro hup
  have hd : dest.IsLocal := ⟨htype, DestinationConfig.parts_of_nul hnul⟩
  have hnot : ¬ localRoot cwd dest <+: (work_dir (site cwd nodes) config).loc :=
    (h.work hmem htype hwork hnul).2
  obtain ⟨hgrace, now, t, s, hwall, hnow, hs, hage⟩ := hexp
  obtain ⟨q, hq⟩ : ∃ q, q = (work_dir (site cwd nodes) config).loc ++ [META_FILENAME] := ⟨_, rfl⟩
  have hworkq : (work_dir (site cwd nodes) config).loc <+: q := hq ▸ List.prefix_append _ _
  have hout : ∀ x, ¬ localRoot cwd dest ++ [x] <+: q := by
    intro x hx
    rw [hq] at hx
    rcases List.prefix_concat_iff.mp hx with he | hx
    · exact hnot ((List.append_inj_left' he rfl) ▸ List.prefix_refl _)
    · exact hnot ((List.prefix_append _ _).trans hx)
  have hdated :
      LocalDestination.Dated (dotsTree (localRoot cwd dest) q s) (localRoot cwd dest) := by
    intro x hx
    obtain rfl := (dotsTree_entries hout).mp (LocalDestination.mem_dirsIn.mp hx)
    rwa [dotsTree_mtime]
  obtain ⟨plan, ids, hplan, hids⟩ := @dotsTree_planned config dest _ _ s hout now t hnow hgrace hage
  obtain ⟨v, hv, hfs, hrem⟩ := @calm_purge_first cwd nodes config dest hd now t hnow _
    (dotsTree_dir (.inl (List.prefix_refl _))) hdated plan hplan ".." ids hids
  -- the first delete empties the parent of the destination
  have hdir : ∀ l, l <+: localRoot cwd dest → v.fs.isDir l = true := fun l hl => by
    rw [hfs, FileTree.isDir_iff]
    exact dotsTree_dir (.inl hl)
  have hgone :=
    LocalDestination.delete_clears hv (find_up (hd.at cwd) (hdir _ (List.prefix_refl _)))
    (hdir _ (List.dropLast_prefix _)) (hup.trans hworkq) (.inl (by
      rintro he
      have := hup.length_le
      rw [← he, hq, List.length_append, List.length_singleton] at this
      omega))
  refine h.purge dest hmem htype now t hwall hnow false none
    ⟨smallWorld (dotsTree (localRoot cwd dest) q s), []⟩ hwork q hworkq ?_
    (hrem.none_of_none hgone)
  rw [fs_smallWorld, dotsTree_dir (.inr (List.prefix_refl _))]
  simp

/-- Housekeeping and purges leave each other's directories alone, whatever the directories hold
and however the calls end, if and only if the paths lie apart. -/
theorem harmless_iff (cwd : Loc) (nodes : String → RemoteNode) (config : Config) :
    Harmless cwd nodes config ↔ Separated cwd nodes config := by
  constructor
  · intro h
    exact ⟨fun _ hmem htype => h.work hmem htype,
      fun _ hmem htype _ _ hid => h.aside_target hmem htype hid,
      fun _ hmem htype hexp hnul hwork => h.parent hmem htype hexp hnul hwork⟩
  · intro h
    refine ⟨fun dest hmem htype now backup_id _ w => ?_,
      fun dest hmem htype now backup_id hid w => ?_,
      fun dest hmem htype now t hwall hnow dry_run in_progress_id s => ?_⟩
    · exact cleanup_preserves (h.work dest hmem htype) work_dir_at backup_id w
    · exact Preserves.rmtree (h.target dest hmem htype now backup_id hid) true w
    · exact purge_preserves h hmem htype hwall hnow dry_run s

/-- A generation in `/w`, which is both the working directory and, with another spelling, the
path of the destination. -/
def sharedWorld : World := smallWorld (smallTree.addGeneration [entry "w", entry "p-1"])

/-- The configuration is accepted, and the cleanup takes the generation of the destination. -/
theorem housekeeping_harms :
    parse_config (smallTable "/w" "p" "/w/" 1) = .ok (smallConfig "/w" "p" "/w/" 1) ∧
      ∃ now backup_id, generate_backup_id "p" now = .ok backup_id ∧
        ¬ Preserves (LocalDestination.from_config [] (smallDestination "/w/" 1)).path sharedWorld
          (exec (cleanup_stale_work_dir
            (work_dir (site [] smallNodes) (smallConfig "/w" "p" "/w/" 1))
            backup_id) sharedWorld).2 := by
  refine ⟨rfl, Datetime.utc 1700000000000000, "p-20231114T221320Z", rfl, fun h => ?_⟩
  have hroot : (LocalDestination.from_config [] (smallDestination "/w/" 1)).path.loc =
      [entry "w"] := by decide
  refine h (by decide) [entry "w", entry "p-1"] (by rw [hroot]; decide) (by decide) ?_
  decide +kernel

end MbKeeper
