import MbKeeper.LocalHistory

/-!
# What a purge of a local destination leaves alone

`delete` turns an id back into two names, so a purge keeps to its plan exactly
when these two names lead to nothing but directories that are due. `Separable`
says so of the directory as it was. It fails for the three names that strip to
no name at all, and for an id that is due under one of its names only.
-/
namespace MbKeeper

namespace LocalDestination

variable {d : LocalDestination} {P : Loc}

theorem ask_calm {α : Type} {q : Reply → World → α} {w : World} (hc : Calm w) :
    exec (ask q) w = (.ok (q (w.tape 0) w.next), w.next) := by
  rw [exec_ask, hc 0]

/-- A call of `rmtree` ends, and what it raises is an error of the system. -/
theorem rmtree_calm {p : Path} (hnul : p.nul = false) {w : World} (hc : Calm w) :
    Calm (exec (rmtree p false) w).2 ∧
      ((exec (rmtree p false) w).1 = .ok () ∨
        ∃ message, (exec (rmtree p false) w).1 = .error (.os message)) := by
  have hlost : ∃ message, lost p = .os message := ⟨_, by simp [lost, hnul, enoent, osError]; rfl⟩
  have hnone : (w.tape 0).fault = none := hc 0
  rw [rmtree, exec_primitive, World.fs_next, hnone]
  cases p.find w.fs with
  | none =>
    obtain ⟨message, hm⟩ := hlost
    exact ⟨hc.next, .inr ⟨message, by simp [rmtreeFailed, hm]⟩⟩
  | some l =>
    dsimp only
    split_ifs
    · exact ⟨hc.next, .inl rfl⟩
    · exact ⟨hc.next, .inr ⟨_, rfl⟩⟩
    · exact ⟨hc.next, .inr ⟨_, rfl⟩⟩

/-- It empties the directory it was called on. -/
theorem rmtree_clears {p : Path} {ig : Bool} {w : World} (hc : Calm w) {l : Loc}
    (hfind : p.find w.fs = some l) (hdir : w.fs.isDir l = true) {q : Loc} (hq : l <+: q)
    (hne : q ≠ l) : (exec (rmtree p ig) w).2.fs.kind q = none := by
  have hnone : (w.tape 0).fault = none := hc 0
  rw [rmtree, exec_primitive, World.fs_next, hnone, hfind]
  simp only [hdir, if_true]
  split_ifs
  · rw [World.fs_setTree_none, FileTree.kind_removeTree, if_pos hq]
  · rw [World.fs_setTree_none, FileTree.kind_clear, if_pos ⟨hq, hne⟩]

/-- On a path that leads to one place it removes the directory too. -/
theorem rmtree_succeeds {p : Path} {w : World} (hc : Calm w) {l : Loc} (hp : p.At l) (hl : l ≠ [])
    (hdir : w.fs.isDir l = true) : (exec (rmtree p false) w).1 = .ok () := by
  have hnone : (w.tape 0).fault = none := hc 0
  rw [rmtree, exec_primitive, World.fs_next, hnone, hp.find]
  simp only [hdir, if_true, hp.find]
  rw [if_pos ⟨trivial, hl⟩]

theorem delete_name_eq (name : String) {w : World} (hc : Calm w) :
    exec (d.delete_name name) w =
      if (d.path.join name).presentIn w.fs then
        exec (guarded s!"destination '{d.name}': delete failed: "
          (rmtree (d.path.join name) false)) w.next
      else (.ok (), w.next) := by
  have hlook : exec (path_exists (d.path.join name)) w =
      (.ok ((d.path.join name).presentIn w.fs), w.next) := ask_calm hc
  rw [delete_name, exec_bind_ok hlook]
  split_ifs <;> rfl

theorem delete_name_calm {name : String} (hnul : (d.path.join name).nul = false) {w : World}
    (hc : Calm w) : Calm (exec (d.delete_name name) w).2 ∧
      ((exec (d.delete_name name) w).1 = .ok () ∨
        ∃ message, (exec (d.delete_name name) w).1 = .error (.destination message)) := by
  rw [delete_name_eq name hc]
  split_ifs
  · obtain ⟨hcalm, hres⟩ := rmtree_calm hnul hc.next
    rw [guarded_state]
    refine ⟨hcalm, ?_⟩
    rw [guarded, exec_tryCatch]
    rcases hx : exec (rmtree (d.path.join name) false) w.next with ⟨r, u⟩
    rw [hx] at hres
    rcases hres with rfl | ⟨message, rfl⟩
    · exact .inl rfl
    · exact .inr ⟨_, rfl⟩
  · exact ⟨hc.next, .inl rfl⟩

theorem delete_calm {backup_id : String} (hpath : d.path.nul = false)
    (hnul : hasNul backup_id = false) {w : World} (hc : Calm w) :
    Calm (exec (d.delete backup_id) w).2 ∧
      ((exec (d.delete backup_id) w).1 = .ok () ∨
        ∃ message, (exec (d.delete backup_id) w).1 = .error (.destination message)) := by
  have hjoin : ∀ s, hasNul s = false → (d.path.join s).nul = false := by
    intro s hs
    simp only [Path.join, hs, hpath, Bool.or_self]
    split_ifs <;> rfl
  have hsuffix : hasNul (backup_id ++ PARTIAL_SUFFIX) = false := by
    rw [hasNul_append, hnul]
    decide
  obtain ⟨hc₁, h₁⟩ := d.delete_name_calm (hjoin _ hnul) hc
  rcases hx : exec (d.delete_name backup_id) w with ⟨r, u⟩
  rw [hx] at hc₁ h₁
  rcases h₁ with rfl | ⟨message, rfl⟩
  · rw [delete, exec_bind_ok hx]
    exact d.delete_name_calm (hjoin _ hsuffix) hc₁
  · rw [delete, exec_bind_error hx]
    exact ⟨hc₁, .inr ⟨message, rfl⟩⟩

/-- The directory that a name leads to is gone, or at least empty, after its delete. -/
theorem delete_name_clears {name : String} {w : World} (hc : Calm w) {l : Loc}
    (hfind : (d.path.join name).find w.fs = some l) (hdir : w.fs.isDir l = true) {q : Loc}
    (hq : l <+: q) (hne : q ≠ l ∨ (d.path.join name).At l ∧ l ≠ []) :
    (exec (d.delete_name name) w).2.fs.kind q = none := by
  have hpresent : (d.path.join name).presentIn w.fs = true := by
    simp only [Path.presentIn, hfind, Option.map_some, Option.getD_some, FileTree.present_iff]
    rw [(FileTree.isDir_iff _ _).mp hdir]
    simp
  rw [delete_name_eq name hc, if_pos hpresent, guarded_state]
  rcases hne with hne | ⟨hat, hl⟩
  · exact rmtree_clears hc.next hfind hdir hq hne
  · refine rmtree_ok (Prod.ext (rmtree_succeeds hc.next hat hl hdir) rfl) ?_
    rwa [hat.loc_eq]

theorem delete_name_succeeds {name : String} {w : World} (hc : Calm w) {l : Loc}
    (hat : (d.path.join name).At l) (hl : l ≠ []) (hfile : w.fs.isFile l = false) :
    (exec (d.delete_name name) w).1 = .ok () := by
  rw [delete_name_eq name hc]
  split_ifs with hpresent
  · have hdir : w.fs.isDir l = true := by
      simp only [Path.presentIn, hat.find, Option.map_some, Option.getD_some,
        FileTree.present_iff] at hpresent
      cases hk : w.fs.kind l with
      | none => exact absurd hk hpresent
      | some k =>
        cases k with
        | dir => exact (FileTree.isDir_iff _ _).mpr hk
        | file data =>
          rw [(FileTree.isFile_iff _ _).mpr ⟨data, hk⟩] at hfile
          cases hfile
    have hrun := rmtree_succeeds hc.next hat hl hdir
    have hex : exec (rmtree (d.path.join name) false) w.next =
      (.ok (), (exec (rmtree (d.path.join name) false) w.next).2) := Prod.ext hrun rfl
    rw [guarded_ok.mpr hex]
  · rfl

/-- A delete first clears the id's own name. -/
theorem delete_clears {backup_id : String} {w : World} (hc : Calm w) {l : Loc}
    (hfind : (d.path.join backup_id).find w.fs = some l) (hdir : w.fs.isDir l = true) {q : Loc}
    (hq : l <+: q) (hne : q ≠ l ∨ (d.path.join backup_id).At l ∧ l ≠ []) :
    (exec (d.delete backup_id) w).2.fs.kind q = none := by
  have hfirst := delete_name_clears hc hfind hdir hq hne
  rcases hx : exec (d.delete_name backup_id) w with ⟨e | _, u⟩
  · rw [delete, exec_bind_error hx]
    rwa [hx] at hfirst
  · rw [delete, exec_bind_ok hx]
    rw [hx] at hfirst
    exact (d.delete_name_removes (backup_id ++ PARTIAL_SUFFIX) u).none_of_none hfirst

/-- Then it clears the directory of its building, unless its own name is a file's. -/
theorem delete_clears_partial (hp : d.path.At P) {x : Name} {w : World} (hc : Calm w)
    (hfile : w.fs.isFile (P ++ [x]) = false) (hdir : w.fs.isDir (P ++ [partialName x]) = true) :
    (exec (d.delete x.val) w).2.fs.kind (P ++ [partialName x]) = none := by
  have hfirst := delete_name_succeeds hc (hp.join x) (by simp) hfile
  have hcalm := (d.delete_name_calm (hp.join x).nul hc).1
  rcases hx : exec (d.delete_name x.val) w with ⟨r, u⟩
  rw [hx] at hfirst hcalm
  obtain rfl := hfirst
  rw [delete, exec_bind_ok hx]
  have hkept : u.fs.kind (P ++ [partialName x]) = w.fs.kind (P ++ [partialName x]) := by
    have hrem := d.delete_name_removes x.val w
    rw [hx, (hp.join x).loc_eq] at hrem
    refine hrem.fs_kind ?_
    rintro ⟨-, hq⟩
    have hxy : x = partialName x := by simpa using hq
    exact partialName_ne x hxy.symm
  have hat : (d.path.join (x.val ++ PARTIAL_SUFFIX)).At (P ++ [partialName x]) :=
    hp.join (partialName x)
  refine delete_name_clears hcalm (hat.find _) ?_ (List.prefix_refl _) (.inr ⟨hat, by simp⟩)
  rw [FileTree.isDir_congr hkept, hdir]

end LocalDestination

section

variable (cwd : Loc) (nodes : String → RemoteNode) (config : Config) (dest : DestinationConfig)
  (now : Datetime) (in_progress_id : Option String)

/-- The plan made of the directory `P`. -/
def planOf (t : Fs) (P : Loc) : Except Exn PurgePlan :=
  select_purge (LocalDestination.records t P) dest.keep config.retention.incomplete_grace_hours
    now in_progress_id

/-- A purge did what its plan and its report say. -/
structure PurgeExact (P : Loc) (w : World) (res : Except Exn (DestinationPurgeResult × Bool))
    (w' : World) : Prop where
  /-- What the plan kept is unchanged. -/
  kept : ∀ plan, planOf config dest now in_progress_id w.fs P = .ok plan → ∀ y,
    w.fs.kind (P ++ [y]) = some .dir → LocalDestination.listedId y ∈ plan.keep →
      ∀ r, w'.fs.lookup (P ++ [y] ++ r) = w.fs.lookup (P ++ [y] ++ r)
  /-- No directory is left of an id reported as deleted. -/
  deleted : ∀ x, res = .ok x → ∀ i ∈ x.1.deleted, ∀ y,
    w'.fs.kind (P ++ [y]) = some .dir → LocalDestination.listedId y ≠ i
  /-- Nothing was removed but directories listed with an id of the plan. -/
  only : ∀ plan, planOf config dest now in_progress_id w.fs P = .ok plan → ∀ y,
    w.fs.kind (P ++ [y]) ≠ none →
      (w.fs.kind (P ++ [y]) = some .dir → LocalDestination.listedId y ∉ plan.delete) →
        ∀ r, w'.fs.lookup (P ++ [y] ++ r) = w.fs.lookup (P ++ [y] ++ r)
  root : w'.fs.kind P = w.fs.kind P
  outside : ∀ h q, (h = none → ¬ P <+: q) → (w'.tree h).lookup q = (w.tree h).lookup q

/-- The directory `y` is due for deletion. -/
def DueDir (t₀ : Instant) (t : Fs) (P : Loc) (y : Name) : Prop :=
  t.kind (P ++ [y]) = some .dir ∧
    Due dest.keep config.retention.incomplete_grace_hours t₀ in_progress_id
      (LocalDestination.records t P) (LocalDestination.recordOf t P y)

/-- The id of every directory that is due is a name, and the directories of that name, with and
without the suffix, are due as well; or the destination is the root directory and everything in
it is due. -/
def Separable (t₀ : Instant) (t : Fs) (P : Loc) : Prop :=
  ∀ x, DueDir config dest in_progress_id t₀ t P x →
    (Legal (LocalDestination.listedId x) ∧ ∀ y : Name,
      (y.val = LocalDestination.listedId x ∨
        y.val = LocalDestination.listedId x ++ PARTIAL_SUFFIX) →
        t.kind (P ++ [y]) = some .dir → DueDir config dest in_progress_id t₀ t P y) ∨
    (P = [] ∧ ∀ y, t.kind (P ++ [y]) ≠ none → DueDir config dest in_progress_id t₀ t P y)

end

section

variable {cwd : Loc} {nodes : String → RemoteNode} {config : Config} {dest : DestinationConfig}
  {now : Datetime} {in_progress_id : Option String} {t₀ : Instant} {P : Loc}

/-- A plan is made where the time of grace has a reading, and nowhere else. -/
theorem exists_plan (hnow : now.instant = some t₀) (t : Fs) (P : Loc)
    (hgrace : config.retention.incomplete_grace_hours < 24 * 1000000000) :
    ∃ plan, planOf config dest now in_progress_id t P = .ok plan :=
  ⟨_, by rw [planOf, select_purge_eq hnow (LocalDestination.aware_records _ _), if_pos hgrace]⟩

theorem grace_of_plan (hnow : now.instant = some t₀) {t : Fs} {plan : PurgePlan}
    (hplan : planOf config dest now in_progress_id t P = .ok plan) :
    config.retention.incomplete_grace_hours < 24 * 1000000000 := by
  rw [planOf, select_purge_eq hnow (LocalDestination.aware_records _ _)] at hplan
  split_ifs at hplan with hgrace
  exact hgrace

theorem mem_delete_iff_due (hnow : now.instant = some t₀) {t : Fs} {plan : PurgePlan}
    (hplan : planOf config dest now in_progress_id t P = .ok plan) {i : String} :
    i ∈ plan.delete ↔
      ∃ x, LocalDestination.listedId x = i ∧ DueDir config dest in_progress_id t₀ t P x := by
  rw [(mem_plan_iff hnow (LocalDestination.aware_records t P)
    (LocalDestination.nodup_complete_records t P) hplan i).1]
  constructor
  · rintro ⟨b, hb, rfl, hdue⟩
    obtain ⟨x, hx, rfl⟩ := LocalDestination.mem_records.mp hb
    exact ⟨x, (LocalDestination.recordOf_id t P x).symm, hx, hdue⟩
  · rintro ⟨x, rfl, hx, hdue⟩
    exact ⟨_, LocalDestination.mem_records.mpr ⟨x, hx, rfl⟩,
      LocalDestination.recordOf_id t P x, hdue⟩

theorem mem_keep_iff_due (hnow : now.instant = some t₀) {t : Fs} {plan : PurgePlan}
    (hplan : planOf config dest now in_progress_id t P = .ok plan) {i : String} :
    i ∈ plan.keep ↔ ∃ x, LocalDestination.listedId x = i ∧ t.kind (P ++ [x]) = some .dir ∧
      ¬ DueDir config dest in_progress_id t₀ t P x := by
  rw [(mem_plan_iff hnow (LocalDestination.aware_records t P)
    (LocalDestination.nodup_complete_records t P) hplan i).2]
  constructor
  · rintro ⟨b, hb, rfl, hdue⟩
    obtain ⟨x, hx, rfl⟩ := LocalDestination.mem_records.mp hb
    exact ⟨x, (LocalDestination.recordOf_id t P x).symm, hx, fun h => hdue h.2⟩
  · rintro ⟨x, rfl, hx, hdue⟩
    exact ⟨_, LocalDestination.mem_records.mpr ⟨x, hx, rfl⟩, LocalDestination.recordOf_id t P x,
      fun h => hdue ⟨hx, h⟩⟩

/-- Removals that stay in `S` as long as those since `w₀` did. -/
def RemovesFrom (S : Set Spot) (w₀ w w' : World) : Prop := Removes S w₀ w → Removes S w w'

instance (S : Set Spot) (w₀ : World) : Std.Refl (RemovesFrom S w₀) :=
  ⟨fun w _ => refl_of (Removes S) w⟩

instance (S : Set Spot) (w₀ : World) : IsTrans World (RemovesFrom S w₀) :=
  ⟨fun _ _ _ h h' h₀ => trans_of (Removes S) (h h₀) (h' (trans_of (Removes S) h₀ (h h₀)))⟩

/-- A directory seen in the middle of the purge was there at its start. -/
theorem rmtree_from {S : Set Spot} {w₀ : World} {p : Path}
    (h : w₀.fs.kind p.loc = some .dir → below none p.loc ⊆ S) :
    Moves (RemovesFrom S w₀) (rmtree p false) := by
  intro w hw
  by_cases hdir : w.fs.kind p.loc = some .dir
  · exact (rmtree_removes p false w).mono (h (hw.kind_of_some hdir))
  · have hnot : w.fs.isDir p.loc = false := by
      rw [← Bool.not_eq_true, FileTree.isDir_iff]
      exact hdir
    exact (rmtree_of_not_dir hnot).removes S

theorem delete_name_from {d : LocalDestination} {S : Set Spot} {w₀ : World} {name : String}
    (h : w₀.fs.kind (d.path.join name).loc = some .dir → below none (d.path.join name).loc ⊆ S) :
    Moves (RemovesFrom S w₀) (d.delete_name name) :=
  Moves.bind (fun w _ => (LocalDestination.ask_same _ w).removes S)
    (fun _ => Moves.ite (guarded_moves _ (rmtree_from h)) (Moves.pure _))

/-- What the due directories hold. -/
def dueSpots (config : Config) (dest : DestinationConfig) (in_progress_id : Option String)
    (t₀ : Instant) (t : Fs) (P : Loc) : Set Spot :=
  {q | ∃ y, DueDir config dest in_progress_id t₀ t P y ∧ q ∈ below none (P ++ [y])}

theorem delete_from {d : LocalDestination} (hp : d.path.At P) {w₀ : World} {x : Name}
    (hlegal : Legal (LocalDestination.listedId x))
    (hsep : ∀ y : Name, (y.val = LocalDestination.listedId x ∨
        y.val = LocalDestination.listedId x ++ PARTIAL_SUFFIX) →
      w₀.fs.kind (P ++ [y]) = some .dir → DueDir config dest in_progress_id t₀ w₀.fs P y) :
    Moves (RemovesFrom (dueSpots config dest in_progress_id t₀ w₀.fs P) w₀)
      (d.delete (LocalDestination.listedId x)) := by
  have hname : ∀ y : Name, (y.val = LocalDestination.listedId x ∨
        y.val = LocalDestination.listedId x ++ PARTIAL_SUFFIX) →
      Moves (RemovesFrom (dueSpots config dest in_progress_id t₀ w₀.fs P) w₀)
        (d.delete_name y.val) := by
    intro y hy
    refine delete_name_from (fun hdir => ?_)
    rw [(hp.join y).loc_eq] at hdir ⊢
    exact fun q hq => ⟨y, hsep y hy hdir, hq⟩
  obtain ⟨z, hz⟩ : ∃ z : Name, z.val = LocalDestination.listedId x := ⟨⟨_, hlegal⟩, rfl⟩
  rw [← hz] at hname ⊢
  exact Moves.bind (hname z (.inl rfl)) (fun _ => hname (partialName z) (.inr rfl))

/-- After a delete that returned no directory is listed under its id. -/
theorem delete_ok_listed {d : LocalDestination} (hp : d.path.At P) {i : String} {w w' : World}
    (h : exec (d.delete i) w = (.ok (), w')) {y : Name} (hy : LocalDestination.listedId y = i) :
    w'.fs.kind (P ++ [y]) = none := by
  obtain ⟨_, u, hu, h⟩ := exec_bind_eq_ok h
  rcases LocalDestination.listedId_cases y with hval | hval
  · rw [hy] at hval
    have hgone := LocalDestination.delete_name_ok hp (hval.symm ▸ hu)
    exact ((d.delete_name_removes _).of_exec h).none_of_none hgone
  · rw [hy] at hval
    exact LocalDestination.delete_name_ok hp (hval.symm ▸ h)

theorem PurgeExact.of_same {w w' : World} {res : Except Exn (DestinationPurgeResult × Bool)}
    (h : Same w w') (hres : ∀ x, res = .ok x → x.1.deleted = []) :
    PurgeExact config dest now in_progress_id P w res w' where
  kept _ _ _ _ _ _ := by rw [h.fs]
  deleted x hx i hi := by
    rw [hres x hx] at hi
    cases hi
  only _ _ _ _ _ _ := by rw [h.fs]
  root := by rw [h.fs]
  outside k q _ := by rw [h.tree]

/-- An exact purge leaves the directory that the destination is in. -/
theorem PurgeExact.parent {w w' : World} {res : Except Exn (DestinationPurgeResult × Bool)}
    (h : PurgeExact config dest now in_progress_id P w res w') :
    w'.fs.kind P.dropLast = w.fs.kind P.dropLast := by
  by_cases hP : P = []
  · subst hP
    exact h.root
  · have hshort : P.dropLast.length < P.length := by
      have := List.length_pos_iff.mpr hP
      rw [List.length_dropLast]
      omega
    exact FileTree.kind_eq_of_lookup_eq (h.outside none P.dropLast
      (fun _ hpre => absurd hpre.length_le (by omega)))

/-- A purge whose removals stayed among the due directories is exact. -/
theorem PurgeExact.of_due (hnow : now.instant = some t₀) {w w' : World}
    {res : Except Exn (DestinationPurgeResult × Bool)}
    (hsep : ∀ x, DueDir config dest in_progress_id t₀ w.fs P x → ∀ y : Name,
      (y.val = LocalDestination.listedId x ∨
        y.val = LocalDestination.listedId x ++ PARTIAL_SUFFIX) →
        w.fs.kind (P ++ [y]) = some .dir → DueDir config dest in_progress_id t₀ w.fs P y)
    (h : Removes (dueSpots config dest in_progress_id t₀ w.fs P) w w')
    (hdeleted : ∀ x, res = .ok x → ∀ i ∈ x.1.deleted, ∀ y,
      w'.fs.kind (P ++ [y]) = some .dir → LocalDestination.listedId y ≠ i) :
    PurgeExact config dest now in_progress_id P w res w' := by
  have hsafe : ∀ y, ¬ DueDir config dest in_progress_id t₀ w.fs P y → ∀ r,
      w'.fs.lookup (P ++ [y] ++ r) = w.fs.lookup (P ++ [y] ++ r) := by
    intro y hy r
    refine h.lookup none _ ?_ (fun x => ?_)
    · rintro ⟨z, hz, -, hq⟩
      rw [prefix_entry_iff.mp hq] at hz
      exact hy hz
    · rintro ⟨z, hz, -, hq⟩
      rw [List.append_assoc] at hq
      rw [prefix_entry_iff.mp hq] at hz
      exact hy hz
  refine ⟨fun plan hplan y hdir hkeep => hsafe y (fun hdue => ?_), hdeleted,
    fun plan hplan y _ hnot => hsafe y (fun hdue => ?_), ?_, fun k q hq => ?_⟩
  · obtain ⟨z, hz, hzdir, hznot⟩ := (mem_keep_iff_due hnow hplan).mp hkeep
    refine hznot (hsep y hdue z ?_ hzdir)
    rw [← hz]
    exact LocalDestination.listedId_cases z
  · exact hnot hdue.1 ((mem_delete_iff_due hnow hplan).mpr ⟨y, rfl, hdue⟩)
  · refine h.fs_kind ?_
    rintro ⟨z, -, -, hq⟩
    have := hq.length_le
    simp only [List.length_append, List.length_singleton] at this
    omega
  · refine h.lookup k q ?_ (fun x => ?_)
    · rintro ⟨z, -, hk, hz⟩
      exact hq hk ((List.prefix_append _ _).trans hz)
    · rintro ⟨z, -, hk, hz⟩
      rcases List.prefix_concat_iff.mp hz with he | hz
      · exact hq hk (List.append_inj_left' he rfl ▸ List.prefix_refl _)
      · exact hq hk ((List.prefix_append _ _).trans hz)

/-- An exact purge leaves what is not due. -/
theorem PurgeExact.undue_stays (hnow : now.instant = some t₀) {w w' : World} {plan : PurgePlan}
    {res : Except Exn (DestinationPurgeResult × Bool)}
    (h : PurgeExact config dest now in_progress_id P w res w')
    (hplan : planOf config dest now in_progress_id w.fs P = .ok plan) {y : Name}
    (hy : w.fs.kind (P ++ [y]) ≠ none) (hnot : ¬ DueDir config dest in_progress_id t₀ w.fs P y) :
    w'.fs.kind (P ++ [y]) = w.fs.kind (P ++ [y]) := by
  have hlook : w'.fs.lookup (P ++ [y] ++ []) = w.fs.lookup (P ++ [y] ++ []) := by
    by_cases hdir : w.fs.kind (P ++ [y]) = some .dir
    · have hkeep := (mem_keep_iff_due hnow hplan).mpr ⟨y, rfl, hdir, hnot⟩
      exact h.kept plan hplan y hdir hkeep []
    · exact h.only plan hplan y hy (fun hdir' => absurd hdir' hdir) []
  rw [List.append_nil] at hlook
  exact FileTree.kind_eq_of_lookup_eq hlook

/-- Something may be gone, but not the root directory. -/
def Empties (w w' : World) : Prop := Removes (below none []) w w' ∧ w'.fs.kind [] = w.fs.kind []

instance : Std.Refl Empties := ⟨fun w => ⟨refl_of (Removes (below none [])) w, rfl⟩⟩

instance : IsTrans World Empties := ⟨fun _ _ _ h h' =>
  ⟨trans_of (Removes (below none [])) h.1 h'.1, h'.2.trans h.2⟩⟩

theorem delete_empties (d : LocalDestination) (backup_id : String) :
    Moves Empties (d.delete backup_id) := by
  have hname : ∀ name, Moves Empties (d.delete_name name) := fun name =>
    Moves.bind (fun w => ⟨(LocalDestination.ask_same _ w).removes _,
        congrArg (fun t => FileTree.kind t []) (LocalDestination.ask_same _ w).fs⟩)
      (fun _ => Moves.ite (guarded_moves _ (fun w => ⟨(rmtree_removes _ _ w).mono
        (below_subset List.nil_prefix), rmtree_root _ _ w⟩)) (Moves.pure _))
  exact Moves.bind (hname _) (fun _ => hname _)

/-- In the root directory, with nothing there that is not due, every purge is exact. -/
theorem PurgeExact.of_all_due (hnow : now.instant = some t₀) {w w' : World}
    {res : Except Exn (DestinationPurgeResult × Bool)}
    (hdue : ∀ y, w.fs.kind ([] ++ [y]) ≠ none → DueDir config dest in_progress_id t₀ w.fs [] y)
    (h : Removes (below none []) w w') (hroot : w'.fs.kind [] = w.fs.kind [])
    (hdeleted : ∀ x, res = .ok x → ∀ i ∈ x.1.deleted, ∀ y,
      w'.fs.kind ([] ++ [y]) = some .dir → LocalDestination.listedId y ≠ i) :
    PurgeExact config dest now in_progress_id [] w res w' := by
  refine ⟨fun plan hplan y _ hkeep => ?_, hdeleted, fun plan hplan y hpresent hnot => ?_, hroot,
    fun k q hq => ?_⟩
  · obtain ⟨z, -, hzdir, hznot⟩ := (mem_keep_iff_due hnow hplan).mp hkeep
    exact absurd (hdue z (by rw [hzdir]; simp)) hznot
  · have hy := hdue y hpresent
    exact absurd ((mem_delete_iff_due hnow hplan).mpr ⟨y, rfl, hy⟩) (hnot hy.1)
  · have hk : k ≠ none := fun hk => hq hk List.nil_prefix
    exact h.lookup k q (fun hq => hk hq.1) (fun x hx => hk hx.1)

/-- Where the due directories are separable, every purge is exact, whatever calls fail. -/
theorem purge_exact_of_separable (hd : dest.IsLocal) (hnow : now.instant = some t₀) {s : Pipe}
    (hsep : Separable config dest in_progress_id t₀ s.world.fs (localRoot cwd dest)) :
    PurgeExact config dest now in_progress_id (localRoot cwd dest) s.world
      (exec (purge_one_destination (site cwd nodes) config dest now false in_progress_id) s).1
      (exec (purge_one_destination (site cwd nodes) config dest now false in_progress_id)
        s).2.world := by
  have hp := hd.at cwd
  rcases purge_one_cases (Prod.eta (exec (purge_one_destination (site cwd nodes) config dest now
    false in_progress_id) s)).symm with
    ⟨r, hlist, herr⟩ | ⟨stored, plan, u, r, hlist, hplan, hdel, hr⟩
  · rw [hd.build] at hlist
    exact PurgeExact.of_same (((LocalDestination.list_backups_reads hp).moves).of_exec hlist)
      (fun x hx => (herr x hx).2)
  rw [hd.build] at hlist hdel
  obtain ⟨hsame, -, -, rfl⟩ := LocalDestination.list_backups_ok hp hlist
  have hdue : ∀ i ∈ plan.delete, ∃ x, LocalDestination.listedId x = i ∧
      DueDir config dest in_progress_id t₀ s.world.fs (localRoot cwd dest) x := fun i hi =>
    (mem_delete_iff_due hnow hplan).mp hi
  have hdeleted : ∀ x, (exec (purge_one_destination (site cwd nodes) config dest now false
      in_progress_id) s).1 = .ok x → ∀ i ∈ x.1.deleted, ∀ y,
      (exec (purge_one_destination (site cwd nodes) config dest now false in_progress_id)
        s).2.world.fs.kind (localRoot cwd dest ++ [y]) = some .dir →
          LocalDestination.listedId y ≠ i := by
    rintro x hx i hi y hy hyi
    rw [hr] at hx
    cases r with
    | error e => cases hx
    | ok o =>
      obtain rfl := Except.ok.inj hx
      have hgone := ((delete_planned_gone
        (fun i w => ∀ y, LocalDestination.listedId y = i →
          w.fs.kind (localRoot cwd dest ++ [y]) = none)
        (fun i _ => ((LocalDestination.from_config cwd dest).delete_removes i).mono
          (fun _ _ h => h.mono (Set.subset_univ _)))
        (fun i w w' hR hi y hy => hR.none_of_none (hi y hy))
        (fun i _ w w' h y hy => delete_ok_listed hp h hy) hdel).1 i hi).2 y hyi
      rw [hgone] at hy
      cases hy
  by_cases hall :
      localRoot cwd dest = [] ∧ ∀ y, s.world.fs.kind (localRoot cwd dest ++ [y]) ≠ none →
      DueDir config dest in_progress_id t₀ s.world.fs (localRoot cwd dest) y
  · obtain ⟨hroot, hall⟩ := hall
    obtain ⟨hrem, hkind⟩ := (delete_planned_moves (fun i _ =>
      delete_empties (LocalDestination.from_config cwd dest) i) false).of_exec hdel
    rw [hroot] at hall hdeleted ⊢
    exact PurgeExact.of_all_due hnow hall (trans_of _ (hsame.removes _) hrem)
      (by rw [hkind, hsame.fs]) hdeleted
  · have hnames : ∀ x, DueDir config dest in_progress_id t₀ s.world.fs (localRoot cwd dest) x →
        Legal (LocalDestination.listedId x) ∧ ∀ y : Name, (y.val = LocalDestination.listedId x ∨
          y.val = LocalDestination.listedId x ++ PARTIAL_SUFFIX) →
          s.world.fs.kind (localRoot cwd dest ++ [y]) = some .dir →
            DueDir config dest in_progress_id t₀ s.world.fs (localRoot cwd dest) y :=
      fun x hx => (hsep x hx).resolve_right hall
    have hfrom := (delete_planned_moves (R := RemovesFrom (dueSpots config dest in_progress_id t₀
      s.world.fs (localRoot cwd dest)) s.world) (fun i hi => by
        obtain ⟨x, rfl, hx⟩ := hdue i hi
        exact delete_from hp (hnames x hx).1 (hnames x hx).2) false).of_exec hdel
    have hstart := hsame.removes (dueSpots config dest in_progress_id t₀ s.world.fs
      (localRoot cwd dest))
    exact PurgeExact.of_due hnow (fun x hx => (hnames x hx).2)
      (trans_of _ hstart (hfrom hstart)) hdeleted

theorem hasNul_listedId (x : Name) : hasNul (LocalDestination.listedId x) = false := by
  have hx := hasNul_name x
  rcases LocalDestination.listedId_cases x with h | h
  · rwa [← h]
  · rw [h, hasNul_append, Bool.or_eq_false_iff] at hx
    exact hx.1

/-- Two dots lead up from a directory that is there. -/
theorem find_up {p : Path} (hp : p.At P) {t : Fs} (hdir : t.isDir P = true) :
    (p.join "..").find t = some P.dropLast := by
  obtain ⟨⟨m, hm, rfl⟩, hnul⟩ := hp
  have hroot : (PurePath.parse "..").root = "" := by decide
  have hsteps : stepsOf (PurePath.parse "..").parts = [.up] := by decide
  have hdots : hasNul ".." = false := by decide
  simp only [Path.find, Path.join, hroot, if_true, hsteps, hnul, hdots, Bool.or_self,
    Bool.false_eq_true, if_false, hm, FileTree.walk_append, FileTree.walk_down, Option.bind_some]
  simp [FileTree.walk, hdir]

/-- No text and one dot lead nowhere else. -/
theorem join_here {p : Path} (hp : p.At P) {i : String} (hi : i = "" ∨ i = ".") :
    (p.join i).At P := by
  obtain ⟨⟨m, hm, rfl⟩, hnul⟩ := hp
  have hstay : ∀ s, stepsOf (PurePath.parse s).parts = [] → (PurePath.parse s).root = "" →
      hasNul s = false → (p.join s).At (p.home ++ m) := by
    intro s hsteps hroot hs
    simp only [Path.join, hroot, if_true, hsteps, List.append_nil]
    exact ⟨⟨m, hm, rfl⟩, by simp [hnul, hs]⟩
  rcases hi with rfl | rfl
  · exact hstay "" (by decide) (by decide) (by decide)
  · exact hstay "." (by decide) (by decide) (by decide)

/-- Where the three ids that are no names lead from the directory `P`. -/
theorem find_dotted {p : Path} (hp : p.At P) {i : String} (hi : i = "" ∨ i = "." ∨ i = "..")
    {t : Fs} (hdir : t.isDir P = true) :
    ((p.join i).find t = some P ∧ (p.join i).At P) ∨
      (i = ".." ∧ (p.join i).find t = some P.dropLast) := by
  rcases or_assoc.mpr hi with hi | rfl
  · have hat := join_here hp hi
    exact .inl ⟨hat.find t, hat⟩
  · exact .inr ⟨rfl, find_up hp hdir⟩

/-- A delete of such an id clears `P`, and takes it away unless it is the root directory. -/
theorem delete_dotted_clears {d : LocalDestination} (hp : d.path.At P) {i : String}
    (hi : i = "" ∨ i = "." ∨ i = "..") {w : World} (hc : Calm w) (hroot : w.fs.isDir P = true)
    (hparent : w.fs.isDir P.dropLast = true) {q : Loc} (hq : P <+: q) (hne : q ≠ P ∨ P ≠ []) :
    (exec (d.delete i) w).2.fs.kind q = none := by
  rcases find_dotted hp hi hroot with ⟨hfind, hat⟩ | ⟨-, hfind⟩
  · exact LocalDestination.delete_clears hc hfind hroot hq (hne.imp_right (fun h => ⟨hat, h⟩))
  · refine LocalDestination.delete_clears hc hfind hparent ((List.dropLast_prefix _).trans hq)
      (.inl (fun he => ?_))
    rw [he] at hq
    have hnil : P = [] := by
      have hlen := hq.length_le
      rw [List.length_dropLast] at hlen
      exact List.length_eq_zero_iff.mp (by omega)
    rw [hnil] at he hne
    exact hne.elim (fun h => h he) (fun h => h rfl)

/-- Where no call fails a purge comes to the deletes of its plan. -/
theorem calm_purge_planned (hd : dest.IsLocal) {tree : Fs} {plan : PurgePlan}
    (hdir : tree.kind (localRoot cwd dest) = some .dir)
    (hdated : LocalDestination.Dated tree (localRoot cwd dest))
    (hplan : planOf config dest now in_progress_id tree (localRoot cwd dest) = .ok plan) :
    ∃ u : Pipe, Calm u.world ∧ Same (smallWorld tree) u.world ∧
      (exec (purge_one_destination (site cwd nodes) config dest now false in_progress_id)
        ⟨smallWorld tree, []⟩).2.world = (exec (delete_planned dest
          (LocalDestination.from_config cwd dest).toDestination false plan.delete) u).2.world := by
  have hp := hd.at cwd
  obtain ⟨hlisted, hcalm⟩ := (LocalDestination.list_backups_reads hp).calm _ (smallWorld_calm tree)
  have hsame := (LocalDestination.list_backups_reads hp).same (smallWorld tree)
  have hthere : ((smallWorld tree).tree none).isDir (localRoot cwd dest) = true :=
    (FileTree.isDir_iff _ _).mpr hdir
  have hdated' : LocalDestination.Dated ((smallWorld tree).tree none) (localRoot cwd dest) := hdated
  rw [if_pos hthere, if_pos hdated'] at hlisted
  rcases hlist : exec (LocalDestination.from_config cwd dest).list_backups (smallWorld tree) with
    ⟨r, w⟩
  rw [hlist] at hlisted hcalm hsame
  obtain rfl := hlisted
  have hbuild : ((site cwd nodes).build_destination dest config.transfer) =
    (LocalDestination.from_config cwd dest).toDestination := hd.build _
  have hlist' : exec ((site cwd nodes).build_destination dest config.transfer).list_backups
      (⟨smallWorld tree, []⟩ : Pipe).world =
        (.ok (LocalDestination.records tree (localRoot cwd dest)), w) := by
    rw [hbuild]
    exact hlist
  obtain ⟨u, rfl, hfinal⟩ := purge_one_planned false hlist' hplan
  rw [hbuild] at hfinal
  exact ⟨u, hcalm, hsame, hfinal⟩

/-- Each delete of a plan ends, and what it raises is caught. -/
theorem planned_delete_calm (hd : dest.IsLocal) (hnow : now.instant = some t₀) {tree : Fs}
    {plan : PurgePlan}
    (hplan : planOf config dest now in_progress_id tree (localRoot cwd dest) = .ok plan)
    {i : String}
    (hi : i ∈ plan.delete) {w : World} (hw : Calm w) :
    Calm (exec ((LocalDestination.from_config cwd dest).delete i) w).2 ∧
      ((exec ((LocalDestination.from_config cwd dest).delete i) w).1 = .ok () ∨ ∃ message,
        (exec ((LocalDestination.from_config cwd dest).delete i) w).1 =
          .error (.destination message)) := by
  obtain ⟨y, rfl, -⟩ := (mem_delete_iff_due hnow hplan).mp hi
  exact LocalDestination.delete_calm (hd.at cwd).nul (hasNul_listedId y) hw

theorem delete_removes_univ (d : LocalDestination) (backup_id : String) :
    Moves (Removes Set.univ) (d.delete backup_id) :=
  (d.delete_removes backup_id).mono (fun _ _ h => h.mono (Set.subset_univ _))

/-- Where no call fails every id of the plan is deleted in its turn. -/
theorem calm_purge_visits (hd : dest.IsLocal) {R : World → World → Prop} [Std.Refl R]
    [IsTrans World R] (hsame : ∀ {w w'}, Same w w' → R w w')
    (hmove : ∀ j, Moves R ((LocalDestination.from_config cwd dest).delete j)) {tree : Fs}
    {plan : PurgePlan} (hnow : now.instant = some t₀)
    (hdir : tree.kind (localRoot cwd dest) = some .dir)
    (hdated : LocalDestination.Dated tree (localRoot cwd dest))
    (hplan : planOf config dest now in_progress_id tree (localRoot cwd dest) = .ok plan)
    {i : String} (hi : i ∈ plan.delete) :
    ∃ v, Calm v ∧ R (smallWorld tree) v ∧
      R (exec ((LocalDestination.from_config cwd dest).delete i) v).2
        (exec (purge_one_destination (site cwd nodes) config dest now false in_progress_id)
          ⟨smallWorld tree, []⟩).2.world := by
  obtain ⟨u, hcalm, hlisted, hfinal⟩ :=
    @calm_purge_planned cwd nodes _ _ _ _ hd _ _ hdir hdated hplan
  obtain ⟨v, hv, hbefore, hafter⟩ := @delete_planned_visits dest
    (LocalDestination.from_config cwd dest).toDestination R _ _ _
    (fun j _ => hmove j) (fun j hj w hw => planned_delete_calm hd hnow hplan hj hw) _ hcalm _ hi
  rw [← hfinal] at hafter
  exact ⟨v, hv, trans_of R (hsame hlisted) hbefore, hafter⟩

/-- A delete of the id that a directory is listed with clears the other directory of this id. -/
theorem delete_listed_clears {d : LocalDestination} (hp : d.path.At P) {x y : Name}
    (hlegal : Legal (LocalDestination.listedId x)) {w : World} (hc : Calm w) (hne : y ≠ x)
    (hfile : w.fs.isFile (P ++ [x]) = false)
    (hy : y.val = LocalDestination.listedId x ∨
      y.val = LocalDestination.listedId x ++ PARTIAL_SUFFIX)
    (hdir : w.fs.isDir (P ++ [y]) = true) :
    (exec (d.delete (LocalDestination.listedId x)) w).2.fs.kind (P ++ [y]) = none := by
  rcases hy with hy | hy
  · rw [← hy]
    exact LocalDestination.delete_clears hc ((hp.join y).find _) hdir (List.prefix_refl _)
      (.inr ⟨hp.join y, by simp⟩)
  · obtain ⟨z, hz⟩ : ∃ z : Name, z.val = LocalDestination.listedId x := ⟨⟨_, hlegal⟩, rfl⟩
    obtain rfl : y = partialName z := Subtype.ext (by rw [hy, ← hz]; rfl)
    have hzx : z = x := by
      rcases LocalDestination.listedId_cases x with hx | hx
      · exact Subtype.ext (hz.trans hx.symm)
      · exact absurd (Subtype.ext (hy.trans hx.symm)) hne
    subst hzx
    rw [← hz]
    exact LocalDestination.delete_clears_partial hp hc hfile hdir

/-- An exact purge in which no call fails shows that the due directories are separable. -/
theorem separable_of_exact (hd : dest.IsLocal) (hnow : now.instant = some t₀) {tree : Fs}
    (hdir : tree.kind (localRoot cwd dest) = some .dir)
    (hparent : tree.kind (localRoot cwd dest).dropLast = some .dir)
    (hdated : LocalDestination.Dated tree (localRoot cwd dest))
    (hgrace : config.retention.incomplete_grace_hours < 24 * 1000000000)
    (h : PurgeExact config dest now in_progress_id (localRoot cwd dest) (smallWorld tree)
      (exec (purge_one_destination (site cwd nodes) config dest now false in_progress_id)
        ⟨smallWorld tree, []⟩).1
      (exec (purge_one_destination (site cwd nodes) config dest now false in_progress_id)
        ⟨smallWorld tree, []⟩).2.world) :
    Separable config dest in_progress_id t₀ tree (localRoot cwd dest) := by
  have hp := hd.at cwd
  obtain ⟨plan, hplan⟩ : ∃ plan, planOf config dest now in_progress_id tree (localRoot cwd dest) =
    .ok plan := exists_plan hnow _ _ hgrace
  intro x hx
  have hmem := (mem_delete_iff_due hnow hplan).mpr ⟨x, rfl, hx⟩
  obtain ⟨v, hv, hbefore, hafter⟩ := calm_purge_visits hd (R := Removes Set.univ)
    (fun h => h.removes _) (delete_removes_univ _) hnow hdir hdated hplan hmem
  -- what is there at the end was there when the id had its turn, and was not removed then
  have hback : ∀ q k, (exec (purge_one_destination (site cwd nodes) config dest now false
      in_progress_id) ⟨smallWorld tree, []⟩).2.world.fs.kind q = some k →
        (exec ((LocalDestination.from_config cwd dest).delete (LocalDestination.listedId x))
          v).2.fs.kind q = some k ∧ v.fs.kind q = some k := by
    intro q k hq
    have hmid := hafter.kind_of_some hq
    exact ⟨hmid, ((LocalDestination.from_config cwd dest).delete_removes
      (LocalDestination.listedId x) v).kind_of_some hmid⟩
  have hkept : ∀ y k, tree.kind (localRoot cwd dest ++ [y]) = some k →
      ¬ DueDir config dest in_progress_id t₀ tree (localRoot cwd dest) y →
        (exec (purge_one_destination (site cwd nodes) config dest now false in_progress_id)
          ⟨smallWorld tree, []⟩).2.world.fs.kind (localRoot cwd dest ++ [y]) = some k :=
    fun y k hy hnot => (h.undue_stays hnow hplan (by simp [hy]) hnot).trans hy
  have hroot := hback _ _ (h.root.trans hdir)
  have hvdir : v.fs.isDir (localRoot cwd dest) = true := (FileTree.isDir_iff _ _).mpr hroot.2
  rcases LocalDestination.listedId_legal_or x with hlegal | hdotted
  · refine .inl ⟨hlegal, fun y hy hydir => ?_⟩
    by_contra hnot
    have hne : y ≠ x := fun heq => hnot (heq ▸ hx)
    obtain ⟨hgone, hthere⟩ := hback _ _ (hkept y _ hydir hnot)
    have hfile : v.fs.isFile (localRoot cwd dest ++ [x]) = false :=
      hbefore.isFile_eq_false (FileTree.isFile_of_dir hx.1)
    rw [delete_listed_clears hp hlegal hv hne hfile hy ((FileTree.isDir_iff _ _).mpr hthere)]
      at hgone
    cases hgone
  · have hvparent : v.fs.isDir (localRoot cwd dest).dropLast = true :=
      (FileTree.isDir_iff _ _).mpr (hback _ _ (h.parent.trans hparent)).2
    by_cases hP : localRoot cwd dest = []
    · refine .inr ⟨hP, fun y hy => ?_⟩
      by_contra hnot
      obtain ⟨k, hk⟩ := Option.ne_none_iff_exists'.mp hy
      obtain ⟨hgone, -⟩ := hback _ _ (hkept y k hk hnot)
      rw [delete_dotted_clears hp hdotted hv hvdir hvparent (List.prefix_append _ _)
        (.inl (by simp))] at hgone
      cases hgone
    · have hthere := hroot.1
      rw [delete_dotted_clears hp hdotted hv hvdir hvparent (List.prefix_refl _) (.inr hP)]
        at hthere
      cases hthere

/-- A purge of a destination directory does exactly what its plan and its report say, whatever
calls fail, if and only if, when it gets as far as a plan, the directories that are due are
separable. -/
theorem purge_exact_iff (hd : dest.IsLocal) (hnow : now.instant = some t₀) {tree : Fs}
    (hdir : tree.kind (localRoot cwd dest) = some .dir)
    (hparent : tree.kind (localRoot cwd dest).dropLast = some .dir) :
    (∀ s : Pipe, s.world.fs = tree →
      PurgeExact config dest now in_progress_id (localRoot cwd dest) s.world
        (exec (purge_one_destination (site cwd nodes) config dest now false in_progress_id) s).1
        (exec (purge_one_destination (site cwd nodes) config dest now false in_progress_id)
          s).2.world) ↔
      (LocalDestination.Dated tree (localRoot cwd dest) →
        config.retention.incomplete_grace_hours < 24 * 1000000000 →
          Separable config dest in_progress_id t₀ tree (localRoot cwd dest)) := by
  constructor
  · intro h hdated hgrace
    exact separable_of_exact hd hnow hdir hparent hdated hgrace (h ⟨smallWorld tree, []⟩ rfl)
  · rintro h s rfl
    have hp := hd.at cwd
    rcases purge_one_cases (Prod.eta (exec (purge_one_destination (site cwd nodes) config dest now
      false in_progress_id) s)).symm with ⟨r, hlist, herr⟩ | ⟨stored, plan, u, r, hlist, hplan, -⟩
    · rw [hd.build] at hlist
      exact PurgeExact.of_same (((LocalDestination.list_backups_reads hp).moves).of_exec hlist)
        (fun x hx => (herr x hx).2)
    · rw [hd.build] at hlist
      obtain ⟨-, -, hdated, rfl⟩ := LocalDestination.list_backups_ok hp hlist
      exact purge_exact_of_separable hd hnow (h hdated (grace_of_plan hnow hplan))

end

/-- A destination with one complete generation and a stale directory called `.partial`. -/
def dottedTree : Fs :=
  (smallTree.addGeneration [entry "b", entry "p-1"]).create [entry "b", entry ".partial"] .dir 0

/-- The id of `.partial` is empty, and deleting it removes the whole destination. -/
theorem purge_not_exact_of_dotted :
    ¬ PurgeExact (smallConfig "/w" "p" "/b" 1) (smallDestination "/b" 1)
      (Datetime.utc 1700000000000000) none (localRoot [] (smallDestination "/b" 1))
      (smallWorld dottedTree)
      (exec (purge_one_destination (site [] smallNodes) (smallConfig "/w" "p" "/b" 1)
        (smallDestination "/b" 1) (Datetime.utc 1700000000000000) false none)
        ⟨smallWorld dottedTree, []⟩).1
      (exec (purge_one_destination (site [] smallNodes) (smallConfig "/w" "p" "/b" 1)
        (smallDestination "/b" 1) (Datetime.utc 1700000000000000) false none)
        ⟨smallWorld dottedTree, []⟩).2.world :=
  fun h => absurd h.root (by decide)

/-- Where every directory has a name of its own, however it is spelt, the directories that are due
are separable. -/
theorem separable_of_apart {config : Config} {dest : DestinationConfig}
    {in_progress_id : Option String} {t₀ : Instant} {t : Fs} {P : Loc}
    (h : ∀ x ∈ LocalDestination.dirsIn t P,
    Legal (LocalDestination.listedId x) ∧ ∀ y ∈ LocalDestination.dirsIn t P,
      y.val = LocalDestination.listedId x ∨ y.val = LocalDestination.listedId x ++ PARTIAL_SUFFIX →
        y = x) : Separable config dest in_progress_id t₀ t P := by
  intro x hx
  obtain ⟨hlegal, hown⟩ := h x (LocalDestination.mem_dirsIn.mpr hx.1)
  refine .inl ⟨hlegal, fun y hy hdir => ?_⟩
  rw [hown y (LocalDestination.mem_dirsIn.mpr hdir) hy]
  exact hx

/-- A destination with two complete generations and a stale building directory. -/
def mixedTree : Fs :=
  ((smallTree.addGeneration [entry "b", entry "p-1"]).addGeneration [entry "b", entry "p-2"]).create
    [entry "b", entry "p-0.partial"] .dir 0

/-- A purge of it keeps one generation, has the other two to delete, and is exact. -/
theorem purge_exact_iff_mixed :
    planOf (smallConfig "/w" "p" "/b" 1) (smallDestination "/b" 1) (Datetime.utc 1700000000000000)
        none mixedTree (localRoot [] (smallDestination "/b" 1)) = .ok ⟨["p-2"], ["p-1", "p-0"]⟩ ∧
    PurgeExact (smallConfig "/w" "p" "/b" 1) (smallDestination "/b" 1)
      (Datetime.utc 1700000000000000) none (localRoot [] (smallDestination "/b" 1))
      (smallWorld mixedTree)
      (exec (purge_one_destination (site [] smallNodes) (smallConfig "/w" "p" "/b" 1)
        (smallDestination "/b" 1) (Datetime.utc 1700000000000000) false none)
        ⟨smallWorld mixedTree, []⟩).1
      (exec (purge_one_destination (site [] smallNodes) (smallConfig "/w" "p" "/b" 1)
        (smallDestination "/b" 1) (Datetime.utc 1700000000000000) false none)
        ⟨smallWorld mixedTree, []⟩).2.world := by
  refine ⟨by decide +kernel, ?_⟩
  have hapart : ∀ x ∈ LocalDestination.dirsIn mixedTree (localRoot [] (smallDestination "/b" 1)),
      Legal (LocalDestination.listedId x) ∧
        ∀ y ∈ LocalDestination.dirsIn mixedTree (localRoot [] (smallDestination "/b" 1)),
          y.val = LocalDestination.listedId x ∨
            y.val = LocalDestination.listedId x ++ PARTIAL_SUFFIX → y = x := by
    decide +kernel
  exact (purge_exact_iff ⟨rfl, by decide⟩ rfl (by decide) (by decide)).mpr
    (fun _ _ => separable_of_apart hapart) ⟨smallWorld mixedTree, []⟩ rfl

end MbKeeper
