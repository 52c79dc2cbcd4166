import MbKeeper.PurgeFrame
import MbKeeper.RunTrace

/-!
# Purging several destinations

A purge of several destinations lists each of them after it has deleted at the
ones before. `Watched` is what the listing of a directory reads and
`purgeSpots` what the deletes of its plan may remove. Where no destination's
deletes reach what another one's listing reads, every report is the one that
`reportOf` computes of the tree as it was at the start.
-/
namespace MbKeeper

open LocalDestination

/-- A spot whose change could change the listing of `P`. -/
inductive Watched (t : Fs) (P : Loc) : Spot → Prop where
  | root (h : t.isDir P = true) : Watched t P (none, P)
  | generation {x : Name} (h : x ∈ dirsIn t P) : Watched t P (none, P ++ [x])
  | manifest {x : Name} (h : x ∈ dirsIn t P) (hc : (recordOf t P x).complete = true) :
      Watched t P (none, P ++ [x] ++ [META_FILENAME])
  /-- An incomplete generation is judged by its time, which every entry it loses changes. -/
  | content {x : Name} (h : x ∈ dirsIn t P) (hc : (recordOf t P x).complete = false) (y : Name) :
      Watched t P (none, P ++ [x] ++ [y])

/-- A listing of `P` finds the same in both trees. -/
structure SameListing (P : Loc) (t t' : Fs) : Prop where
  root : t'.isDir P = t.isDir P
  dirs : dirsIn t' P = dirsIn t P
  complete : ∀ x ∈ dirsIn t P, (recordOf t' P x).complete = (recordOf t P x).complete
  record : ∀ x ∈ dirsIn t P, (recordOf t P x).complete = false → recordOf t' P x = recordOf t P x

namespace SameListing

variable {P : Loc} {t t' t'' : Fs}

theorem trans (h : SameListing P t t') (h' : SameListing P t' t'') : SameListing P t t'' where
  root := h'.root.trans h.root
  dirs := h'.dirs.trans h.dirs
  complete x hx := (h'.complete x (h.dirs ▸ hx)).trans (h.complete x hx)
  record x hx hc :=
    (h'.record x (h.dirs ▸ hx) ((h.complete x hx).trans hc)).trans (h.record x hx hc)

/-- Both trees list the same complete ids, in the same order. -/
theorem complete_records (h : SameListing P t t') :
    ((records t' P).filter (·.complete)).map (·.backup_id) =
      ((records t P).filter (·.complete)).map (·.backup_id) := by
  unfold records
  rw [h.dirs, List.filter_map, List.filter_map, List.map_map, List.map_map]
  have hfilter : (dirsIn t P).filter ((·.complete) ∘ recordOf t' P) =
      (dirsIn t P).filter ((·.complete) ∘ recordOf t P) :=
    List.filter_congr (fun x hx => h.complete x hx)
  rw [hfilter]
  apply List.map_congr_left
  intro x _
  exact (recordOf_id t' P x).trans (recordOf_id t P x).symm

theorem incomplete_records (h : SameListing P t t') :
    (records t' P).filter (!·.complete) = (records t P).filter (!·.complete) := by
  unfold records
  rw [h.dirs, List.filter_map, List.filter_map]
  have hfilter : (dirsIn t P).filter ((!·.complete) ∘ recordOf t' P) =
      (dirsIn t P).filter ((!·.complete) ∘ recordOf t P) :=
    List.filter_congr (fun x hx => congrArg (!·) (h.complete x hx))
  rw [hfilter]
  apply List.map_congr_left
  intro x hx
  have hmem := List.mem_filter.mp hx
  exact h.record x hmem.1 (by simpa using hmem.2)

theorem planOf_eq (h : SameListing P t t') {config : Config} {dest : DestinationConfig}
    {now : Datetime} {t₀ : Instant} (hnow : now.instant = some t₀)
    (in_progress_id : Option String) :
    planOf config dest now in_progress_id t' P = planOf config dest now in_progress_id t P :=
  select_purge_congr hnow (aware_records t P) (aware_records t' P) h.complete_records
    h.incomplete_records

theorem completeIds_eq (h : SameListing P t t') :
    completeIds (records t' P) = completeIds (records t P) := by
  unfold completeIds
  rw [h.complete_records]

theorem watched (h : SameListing P t t') {q : Spot} (hq : Watched t' P q) : Watched t P q := by
  cases hq with
  | root hdir => exact .root (h.root ▸ hdir)
  | generation hx => exact .generation (h.dirs ▸ hx)
  | manifest hx hc =>
    rw [h.dirs] at hx
    exact .manifest hx ((h.complete _ hx).symm.trans hc)
  | content hx hc y =>
    rw [h.dirs] at hx
    exact .content hx ((h.complete _ hx).symm.trans hc) y

end SameListing

/-- The order in which the trees list their entries is the same. -/
def SameOrder (w w' : World) : Prop := w'.fs.locs = w.fs.locs

instance : Std.Refl SameOrder := ⟨fun _ => rfl⟩

instance : IsTrans World SameOrder := ⟨fun _ _ _ h h' => Eq.trans h' h⟩

theorem Same.order {w w' : World} (h : Same w w') : SameOrder w w' := congrArg FileTree.locs h.fs

theorem rmtree_order (p : Path) (ig : Bool) : Moves SameOrder (rmtree p ig) := by
  have hunlink : ∀ (t : Fs) (ls : List Loc) (s : ℤ), (t.unlinkAll ls s).locs = t.locs := by
    intro t ls s
    induction ls generalizing t with
    | nil => rfl
    | cons l ls ih =>
      have hone : (t.unlink l s).locs = t.locs := by
        unfold FileTree.unlink
        split_ifs <;> rfl
      exact (ih _).trans hone
  intro w
  have hset : ∀ t : Fs, t.locs = w.fs.locs → SameOrder w (w.next.setTree none t) := fun t h =>
    (congrArg FileTree.locs (World.fs_setTree_none _ _)).trans h
  rw [rmtree, exec_primitive, World.fs_next]
  cases p.find w.fs with
  | none => exact rfl
  | some l =>
    dsimp only
    by_cases hdir : w.fs.isDir l = true
    · rw [if_pos hdir]
      cases (w.tape 0).fault with
      | some e => exact hset _ (hunlink _ _ _)
      | none =>
        dsimp only
        split_ifs
        · exact hset _ rfl
        · exact hset _ rfl
    · rw [if_neg hdir]
      exact rfl

theorem delete_order (d : LocalDestination) (backup_id : String) :
    Moves SameOrder (d.delete backup_id) := by
  have hname : ∀ name, Moves SameOrder (d.delete_name name) := fun name =>
    Moves.bind (fun w => (ask_same _ w).order)
      (fun _ => Moves.ite (guarded_moves _ (rmtree_order _ _)) (Moves.pure _))
  exact Moves.bind (hname _) (fun _ => hname _)

theorem filter_dedup {α : Type} [DecidableEq α] (p : α → Bool) (l : List α) :
    l.dedup.filter p = (l.filter p).dedup := by
  induction l with
  | nil => rfl
  | cons a l ih =>
    by_cases ha : a ∈ l
    · rw [List.dedup_cons_of_mem ha, ih]
      cases hp : p a with
      | true =>
        rw [List.filter_cons_of_pos hp,
          List.dedup_cons_of_mem (List.mem_filter.mpr ⟨ha, hp⟩)]
      | false => rw [List.filter_cons_of_neg (by simp [hp])]
    · rw [List.dedup_cons_of_notMem ha]
      have hnot : a ∉ l.filter p := fun h => ha (List.mem_of_mem_filter h)
      cases hp : p a with
      | true =>
        rw [List.filter_cons_of_pos hp, List.filter_cons_of_pos hp,
          List.dedup_cons_of_notMem hnot, ih]
      | false =>
        rw [List.filter_cons_of_neg (by simp [hp]), List.filter_cons_of_neg (by simp [hp]), ih]

/-- The directories are listed in the order of the tree. -/
theorem dirsIn_eq (t : Fs) (P : Loc) : dirsIn t P =
    ((t.locs.filterMap (FileTree.childName P)).filter (fun x => t.isDir (P ++ [x]))).dedup := by
  unfold dirsIn FileTree.children
  rw [filter_dedup, List.filter_filter]
  congr 1
  apply List.filter_congr
  intro x _
  cases hdir : t.isDir (P ++ [x]) with
  | false => rfl
  | true =>
    have hkind := (FileTree.isDir_iff _ _).mp hdir
    have hpresent := (FileTree.present_iff t (P ++ [x])).mpr (by simp [hkind])
    rw [hpresent]
    rfl

/-- A removal that touches nothing the listing of `P` reads does not change it. -/
theorem SameListing.of_removes {S : Set Spot} {P : Loc} {w w' : World} (h : Removes S w w')
    (horder : SameOrder w w') (hS : ∀ q, Watched w.fs P q → q ∉ S) :
    SameListing P w.fs w'.fs := by
  have hdir : ∀ x, w'.fs.isDir (P ++ [x]) = w.fs.isDir (P ++ [x]) := by
    intro x
    cases hx : w.fs.isDir (P ++ [x]) with
    | false => exact h.isDir_eq_false hx
    | true =>
      have hmem : x ∈ dirsIn w.fs P := mem_dirsIn.mpr ((FileTree.isDir_iff _ _).mp hx)
      rw [FileTree.isDir_congr (h.fs_kind (hS _ (.generation hmem))), hx]
  have hrecord : ∀ x ∈ dirsIn w.fs P, (recordOf w.fs P x).complete = false →
      recordOf w'.fs P x = recordOf w.fs P x := by
    intro x hx hc
    have hlookup : w'.fs.lookup (P ++ [x]) = w.fs.lookup (P ++ [x]) :=
      h.lookup none _ (hS _ (.generation hx)) (fun y => hS _ (.content hx hc y))
    have hfile : w'.fs.isFile (P ++ [x] ++ [META_FILENAME]) =
        w.fs.isFile (P ++ [x] ++ [META_FILENAME]) :=
      FileTree.isFile_congr (h.fs_kind (hS _ (.content hx hc META_FILENAME)))
    unfold recordOf mtimeAt
    rw [hlookup, hfile]
  refine ⟨?_, ?_, fun x hx => ?_, hrecord⟩
  · cases hP : w.fs.isDir P with
    | false => exact h.isDir_eq_false hP
    | true => rw [FileTree.isDir_congr (h.fs_kind (hS _ (.root hP))), hP]
  · rw [dirsIn_eq, dirsIn_eq, horder]
    simp only [hdir]
  · cases hc : (recordOf w.fs P x).complete with
    | false => rw [hrecord x hx hc, hc]
    | true =>
      obtain ⟨hplain, -, hmeta⟩ := recordOf_complete hc
      rw [recordOf_plain hplain]
      exact (FileTree.isFile_congr (h.fs_kind (hS _ (.manifest hx hc)))).trans hmeta

/-- A removal that spares the complete generations leaves them complete. -/
theorem completeIds_spared {S : Set Spot} {P : Loc} {w w' : World} (h : Removes S w w')
    {ids : Finset String} (hids : ids ⊆ completeIds (records w.fs P))
    (hS : ∀ x : Name, x.val ∈ ids →
      (none, P ++ [x]) ∉ S ∧ (none, P ++ [x] ++ [META_FILENAME]) ∉ S) :
    ids ⊆ completeIds (records w'.fs P) := by
  intro i hi
  obtain ⟨x, rfl, hplain, hdir, hmeta⟩ := mem_completeIds_records.mp (hids hi)
  obtain ⟨hx, hx'⟩ := hS x hi
  refine mem_completeIds_records.mpr ⟨x, rfl, hplain, ?_, ?_⟩
  · rw [h.fs_kind hx, hdir]
  · rw [FileTree.isFile_congr (h.fs_kind hx'), hmeta]

section

variable (cwd : Loc) (config : Config) (now : Datetime) (t : Fs) (dest : DestinationConfig)

/-- The report on a destination of the tree `t` when every delete succeeds. -/
def reportOf : Except Exn DestinationPurgeResult :=
  if (from_config cwd dest).path.isDirIn t then
    (planOf config dest now none t (localRoot cwd dest)).map
      (fun plan => ⟨dest.name, plan.delete, plan.keep, ""⟩)
  else .ok ⟨dest.name, [], [],
    s!"destination '{dest.name}': path does not exist: {(from_config cwd dest).path.str}"⟩

/-- Where the deletes of the plan made of `t` may remove something. -/
def purgeSpots : Set Spot :=
  {q | ∃ plan, planOf config dest now none t (localRoot cwd dest) = .ok plan ∧
    ∃ i ∈ plan.delete, q ∈ (from_config cwd dest).deleteSpots i}

end

section

variable {cwd : Loc} {nodes : String → RemoteNode} {config : Config} {now : Datetime}
  {t₀ : Instant} {dest : DestinationConfig} {dry_run : Bool} {t : Fs}

/-- The listing when no call fails. -/
theorem list_calm (nodes : String → RemoteNode) (htype : dest.type = .local)
    (transfer : TransferConfig) {w : World}
    (hc : Calm w) :
    ∃ w', exec ((site cwd nodes).build_destination dest transfer).list_backups w =
        (if (from_config cwd dest).path.isDirIn w.fs then
          if Dated w.fs (localRoot cwd dest) then .ok (records w.fs (localRoot cwd dest))
          else .error undated
        else .error (.destination s!"destination '{dest.name}': path does not exist: {
          (from_config cwd dest).path.str}"), w') ∧ Same w w' ∧ Calm w' := by
  have hbuild : (site cwd nodes).build_destination dest transfer =
      (from_config cwd dest).toDestination := by simp [site, build_destination, htype]
  rw [hbuild]
  change ∃ w', exec (from_config cwd dest).list_backups w = _ ∧ _
  cases hnul : (from_config cwd dest).path.nul with
  | true =>
    have hdir := DestinationConfig.find_of_nul hnul
    have hlook : exec (is_dir (from_config cwd dest).path) w = (.ok false, w.next) := by
      rw [is_dir, ask_calm hc, hdir]
    refine ⟨w.next, ?_, same_next w, hc.next⟩
    rw [list_backups, exec_bind_ok hlook, hdir]
    rfl
  | false =>
    have hat := DestinationConfig.at_of_nul hnul
    have hreads := list_backups_reads hat
    have hdir : (from_config cwd dest).path.isDirIn w.fs = w.fs.isDir (localRoot cwd dest) := by
      simp [Path.isDirIn, hat.find]
    obtain ⟨hres, hcalm⟩ := hreads.calm w hc
    refine ⟨_, Prod.ext ?_ rfl, hreads.same w, hcalm⟩
    rw [hres, hdir]
    rfl

/-- Where no delete raised, every id was deleted. -/
theorem delete_planned_all {D : Destination} {ids : List String} {s s' : Pipe}
    {res : List String × Bool} (h : exec (delete_planned dest D dry_run ids) s = (.ok res, s'))
    (hraised : ∀ i e, .raised (.delete dest i) e ∉ s'.trace) : res = (ids, false) := by
  induction ids generalizing s s' res with
  | nil =>
    obtain ⟨rfl, rfl⟩ := exec_pure_eq_ok h
    rfl
  | cons i ids ih =>
    obtain ⟨outcome, u, hu, h⟩ := exec_bind_eq_ok h
    obtain ⟨rest, v, hv, h⟩ := exec_bind_eq_ok h
    cases outcome with
    | ok _ =>
      obtain ⟨rfl, rfl⟩ := exec_pure_eq_ok h
      rw [ih hv hraised]
    | error message =>
      obtain ⟨rfl, rfl⟩ := exec_pure_eq_ok h
      exfalso
      have hadds : Moves (Adds (Event.On (Call.Purges dest))) (delete_planned dest D dry_run ids) :=
        delete_planned_adds dry_run ids
      obtain ⟨new, htrace, -⟩ := hadds.of_exec hv
      rw [delete_one] at hu
      split_ifs at hu
      · cases hu
      · rcases attempt_cases hu with ⟨_, -, hr⟩ | ⟨message, hm, -⟩ | ⟨_, -, -, hr⟩
        · cases hr
        · apply hraised i (.destination message)
          rw [htrace, (exec_perform_error hm).2]
          simp
        · cases hr

/-- A dry run deletes nothing. -/
theorem delete_planned_dry (dest : DestinationConfig) (D : Destination) (ids : List String)
    (s : Pipe) :
    exec (delete_planned dest D true ids) s = (.ok (ids, false), s) := by
  induction ids generalizing s with
  | nil => rfl
  | cons i ids ih =>
    have hone : exec (delete_one dest D true i) s = (.ok (.ok ()), s) := rfl
    rw [delete_planned, exec_bind_ok hone, exec_bind_ok (ih s)]
    rfl

/-- What the purge of one destination did, told of the tree `t` it found. -/
structure Purged (cwd : Loc) (config : Config) (now : Datetime) (dest : DestinationConfig)
    (dry_run : Bool) (s s' : Pipe) (res : DestinationPurgeResult) : Prop where
  report : reportOf cwd config now s.world.fs dest = .ok res
  calm : Calm s'.world
  order : SameOrder s.world s'.world
  removes : Removes (purgeSpots cwd config now s.world.fs dest) s.world s'.world
  dry : dry_run = true → Same s.world s'.world
  gone : dry_run = false → ∀ y : Name, listedId y ∈ res.deleted →
    s'.world.fs.kind (localRoot cwd dest ++ [y]) = none

/-- A listing that returned when no call fails gave the records of the tree. -/
theorem listed_calm (htype : dest.type = .local) {transfer : TransferConfig} {w w' : World}
    {stored : List StoredBackup} (hc : Calm w)
    (h : exec ((site cwd nodes).build_destination dest transfer).list_backups w =
      (.ok stored, w')) :
    (from_config cwd dest).path.isDirIn w.fs = true ∧ stored = records w.fs (localRoot cwd dest) ∧
      Same w w' ∧ Calm w' := by
  obtain ⟨u, hlist, hsame, hcalm⟩ := list_calm nodes htype transfer hc
  rw [h] at hlist
  split_ifs at hlist with hdir hdated
  · obtain ⟨hstored, rfl⟩ := Prod.mk.inj hlist
    exact ⟨hdir, Except.ok.inj hstored, hsame, hcalm⟩
  · cases hlist
  · cases hlist

/-- A listing that failed when no call fails did not find the directory. -/
theorem unlisted_calm (htype : dest.type = .local) {transfer : TransferConfig} {w w' : World}
    {message : String} (hc : Calm w)
    (h : exec ((site cwd nodes).build_destination dest transfer).list_backups w =
      (.error (.destination message), w')) :
    (from_config cwd dest).path.isDirIn w.fs = false ∧
      message = s!"destination '{dest.name}': path does not exist: {
        (from_config cwd dest).path.str}" ∧ Same w w' ∧ Calm w' := by
  obtain ⟨u, hlist, hsame, hcalm⟩ := list_calm nodes htype transfer hc
  rw [h] at hlist
  split_ifs at hlist with hdir hdated
  · cases hlist
  · cases hlist
  · obtain ⟨hmessage, rfl⟩ := Prod.mk.inj hlist
    exact ⟨eq_false_of_ne_true hdir, Exn.destination.inj (Except.error.inj hmessage), hsame, hcalm⟩

theorem planned_of_perform {t : Fs} {P : Loc} {plan : PurgePlan} {s s' : Pipe}
    (h : exec (perform (.plan dest) (liftExcept (select_purge (records t P) dest.keep
      config.retention.incomplete_grace_hours now none))) s = (.ok plan, s')) :
    planOf config dest now none t P = .ok plan ∧ s'.world = s.world := by
  have hplan := (exec_perform_ok h).1
  unfold planOf
  cases hp : select_purge (records t P) dest.keep config.retention.incomplete_grace_hours now
      none with
  | error e =>
    rw [hp] at hplan
    cases hplan
  | ok plan' =>
    rw [hp] at hplan
    obtain ⟨hp', hw⟩ := Prod.mk.inj hplan
    exact ⟨hp', hw.symm⟩

/-- A path that leads to a directory has no NUL. -/
theorem at_of_isDirIn (h : (from_config cwd dest).path.isDirIn t = true) :
    (from_config cwd dest).path.At (localRoot cwd dest) := by
  apply DestinationConfig.at_of_nul
  cases hnul : (from_config cwd dest).path.nul with
  | false => rfl
  | true =>
    rw [DestinationConfig.find_of_nul hnul] at h
    cases h

/-- Deletes of listed ids keep the calm. -/
theorem delete_planned_calm (hat : (from_config cwd dest).path.At (localRoot cwd dest))
    {ids : List String} (hids : ∀ i ∈ ids, ∃ y, listedId y = i) {s s' : Pipe}
    {res : Except Exn (List String × Bool)}
    (h : exec (delete_planned dest (from_config cwd dest).toDestination false ids) s = (res, s'))
    (hc : Calm s.world) : Calm s'.world := by
  have hstep : ∀ i ∈ ids, Moves (fun w w' => Calm w → Calm w')
      ((from_config cwd dest).toDestination.delete i) := by
    intro i hi w hw
    obtain ⟨y, rfl⟩ := hids i hi
    exact (delete_calm hat.nul (hasNul_listedId y) hw).1
  have : Std.Refl (fun w w' : World => Calm w → Calm w') := ⟨fun _ hw => hw⟩
  have : IsTrans World (fun w w' : World => Calm w → Calm w') :=
    ⟨fun _ _ _ h h' hw => h' (h hw)⟩
  exact (delete_planned_moves hstep false).of_exec h hc

/-- The deletes of a plan that was made of the tree `t` remove nothing but what they are for, and
what they report as deleted is gone. -/
theorem delete_planned_purged (hnow : now.instant = some t₀)
    (hat : (from_config cwd dest).path.At (localRoot cwd dest)) {plan : PurgePlan}
    (hplan : planOf config dest now none t (localRoot cwd dest) = .ok plan) {s s' : Pipe}
    {res : List String × Bool} (hc : Calm s.world)
    (h : exec (delete_planned dest (from_config cwd dest).toDestination false plan.delete) s =
      (.ok res, s')) :
    Calm s'.world ∧ SameOrder s.world s'.world ∧
      Removes (purgeSpots cwd config now t dest) s.world s'.world ∧
      ∀ y : Name, listedId y ∈ res.1 → s'.world.fs.kind (localRoot cwd dest ++ [y]) = none := by
  have hids : ∀ i ∈ plan.delete, ∃ y, listedId y = i := by
    intro i hi
    obtain ⟨y, hy, -⟩ := (mem_delete_iff_due hnow hplan).mp hi
    exact ⟨y, hy⟩
  have hmove : ∀ i ∈ plan.delete, Moves (Removes (purgeSpots cwd config now t dest))
      ((from_config cwd dest).toDestination.delete i) := fun i hi =>
    ((from_config cwd dest).delete_removes i).mono
      (fun _ _ hrem => hrem.mono (fun q hq => ⟨plan, hplan, i, hi, hq⟩))
  have horder := (delete_planned_moves
    (fun i _ => delete_order (from_config cwd dest) i) false).of_exec h
  have hgone := delete_planned_gone
    (fun i w => ∀ y, listedId y = i → w.fs.kind (localRoot cwd dest ++ [y]) = none)
    hmove (fun i w w' hR hi y hy => hR.none_of_none (hi y hy))
    (fun i _ w w' hrun y hy => delete_ok_listed hat hrun hy) h
  exact ⟨delete_planned_calm hat hids h hc, horder, (delete_planned_moves hmove false).of_exec h,
    fun y hy => (hgone.1 _ hy).2 y rfl⟩

/-- When no call fails, no delete raises and the purge of a destination returns, its report is the
one computed of the tree it found, and its deletes removed nothing but what they are for. -/
theorem purge_one_purged (htype : dest.type = .local) (hnow : now.instant = some t₀) {s s' : Pipe}
    {res : DestinationPurgeResult × Bool} (hc : Calm s.world)
    (h : exec (purge_one_destination (site cwd nodes) config dest now dry_run none) s =
      (.ok res, s')) (hraised : ∀ i e, .raised (.delete dest i) e ∉ s'.trace) :
    Purged cwd config now dest dry_run s s' res.1 := by
  have hbuild : (site cwd nodes).build_destination dest config.transfer =
      (from_config cwd dest).toDestination := by simp [site, build_destination, htype]
  obtain ⟨listing, u, hu, h⟩ := exec_bind_eq_ok h
  rcases attempt_cases hu with ⟨stored, hm, hr⟩ | ⟨message, hm, hr⟩ | ⟨_, -, -, hr⟩
  · obtain rfl := Except.ok.inj hr
    obtain ⟨hdir, rfl, hsame, hcalm⟩ := listed_calm htype hc (exec_perform_ok hm).1
    obtain ⟨plan, v, hv, h⟩ := exec_bind_eq_ok h
    obtain ⟨outcome, x, hx, h⟩ := exec_bind_eq_ok h
    obtain ⟨rfl, rfl⟩ := exec_pure_eq_ok h
    obtain ⟨hplan, hworld⟩ := planned_of_perform hv
    rw [← hworld] at hsame hcalm
    have hreport : reportOf cwd config now s.world.fs dest =
        .ok ⟨dest.name, plan.delete, plan.keep, ""⟩ := by
      rw [reportOf, if_pos hdir, hplan]
      rfl
    rw [hbuild] at hx
    obtain rfl := delete_planned_all hx hraised
    cases dry_run with
    | true =>
      have hstay := delete_planned_dry dest (from_config cwd dest).toDestination plan.delete v
      rw [hx] at hstay
      obtain rfl := (Prod.mk.inj hstay).2
      exact ⟨hreport, hcalm, hsame.order, hsame.removes _, fun _ => hsame,
        fun hfalse => by cases hfalse⟩
    | false =>
      obtain ⟨hafter, horder, hremoves, hgone⟩ :=
        delete_planned_purged hnow (at_of_isDirIn hdir) hplan hcalm hx
      exact ⟨hreport, hafter, trans_of SameOrder hsame.order horder,
        trans_of _ (hsame.removes _) hremoves, fun htrue => (by cases htrue), fun _ => hgone⟩
  · obtain rfl := Except.ok.inj hr
    obtain ⟨rfl, rfl⟩ := exec_pure_eq_ok h
    obtain ⟨hdir, rfl, hsame, hcalm⟩ := unlisted_calm htype hc (exec_perform_error hm).1
    refine ⟨?_, hcalm, hsame.order, hsame.removes _, fun _ => hsame, fun _ y hy => by cases hy⟩
    rw [reportOf, hdir, if_neg (by decide)]
  · cases hr

end

section

variable (cwd : Loc) (config : Config) (now : Datetime) (t : Fs)

/-- The deletes at one destination reach neither what the listing of another destination reads nor
a generation that the destination itself keeps. -/
structure Independent (dests : List DestinationConfig) : Prop where
  own : ∀ d ∈ dests, ∀ x : Name,
    x.val ∈ newest d.keep (completeIds (records t (localRoot cwd d))) →
      (none, localRoot cwd d ++ [x]) ∉ purgeSpots cwd config now t d ∧
      (none, localRoot cwd d ++ [x] ++ [META_FILENAME]) ∉ purgeSpots cwd config now t d
  others : ∀ d ∈ dests, ∀ e ∈ dests, d ≠ e → ∀ q, Watched t (localRoot cwd e) q →
    q ∉ purgeSpots cwd config now t d

/-- Where the deletes of these destinations may remove something. -/
def loopSpots (dests : List DestinationConfig) : Set Spot :=
  {q | ∃ d ∈ dests, q ∈ purgeSpots cwd config now t d}

end

section

variable {cwd : Loc} {nodes : String → RemoteNode} {config : Config} {now : Datetime}
  {t₀ : Instant} {dest : DestinationConfig} {dry_run : Bool} {t : Fs}

/-- The listings of a destination tell the same of both trees. -/
def SameAt (cwd : Loc) (t t' : Fs) (dest : DestinationConfig) : Prop :=
  SameListing (localRoot cwd dest) t t' ∧
    (from_config cwd dest).path.isDirIn t' = (from_config cwd dest).path.isDirIn t

theorem SameAt.of_listing {t' : Fs} (h : SameListing (localRoot cwd dest) t t') :
    SameAt cwd t t' dest := by
  refine ⟨h, ?_⟩
  cases hnul : (from_config cwd dest).path.nul with
  | true => rw [DestinationConfig.find_of_nul hnul, DestinationConfig.find_of_nul hnul]
  | false =>
    have hat := DestinationConfig.at_of_nul hnul
    simpa [Path.isDirIn, hat.find] using h.root

theorem SameAt.reportOf_eq {t' : Fs} (h : SameAt cwd t t' dest) (hnow : now.instant = some t₀) :
    reportOf cwd config now t' dest = reportOf cwd config now t dest := by
  unfold reportOf
  rw [h.2, h.1.planOf_eq hnow]

theorem SameAt.purgeSpots_eq {t' : Fs} (h : SameAt cwd t t' dest) (hnow : now.instant = some t₀) :
    purgeSpots cwd config now t' dest = purgeSpots cwd config now t dest := by
  unfold purgeSpots
  rw [h.1.planOf_eq hnow]

theorem purge_loop_adds (site : Site) (config : Config) (now : Datetime) (dry_run : Bool)
    (dests : List DestinationConfig) :
    Moves (Adds (Event.On (fun c => ∃ d ∈ dests, c.Purges d)))
      (purge_loop site config now dry_run dests) := by
  induction dests with
  | nil => exact Moves.pure _
  | cons d dests ih =>
    have hfirst : Moves (Adds (Event.On (fun c => ∃ e ∈ d :: dests, c.Purges e)))
        (purge_one_destination site config d now dry_run none) :=
      (purge_one_adds dry_run none).mono (fun _ _ h => h.mono (fun _ he => he.mono
        (fun _ hc => ⟨d, List.mem_cons_self, hc⟩)))
    have hrest : Moves (Adds (Event.On (fun c => ∃ e ∈ d :: dests, c.Purges e)))
        (purge_loop site config now dry_run dests) :=
      ih.mono (fun _ _ h => h.mono (fun _ he => he.mono
        (fun _ ⟨e, hmem, hc⟩ => ⟨e, List.mem_cons_of_mem _ hmem, hc⟩)))
    exact Moves.bind hfirst (fun _ => Moves.bind hrest (fun _ => Moves.pure _))

/-- After its own purge a destination holds the newest of its complete generations. -/
theorem Purged.newest {s s' : Pipe} {res : DestinationPurgeResult}
    (h : Purged cwd config now dest false s s' res)
    (hdir : (from_config cwd dest).path.isDirIn s.world.fs = true)
    (hown : ∀ x : Name,
      x.val ∈ newest dest.keep (completeIds (records s.world.fs (localRoot cwd dest))) →
      (none, localRoot cwd dest ++ [x]) ∉ purgeSpots cwd config now s.world.fs dest ∧
      (none, localRoot cwd dest ++ [x] ++ [META_FILENAME]) ∉
        purgeSpots cwd config now s.world.fs dest) :
    completeIds (records s'.world.fs (localRoot cwd dest)) =
      newest dest.keep (completeIds (records s.world.fs (localRoot cwd dest))) := by
  obtain ⟨plan, hplan, rfl⟩ : ∃ plan,
      planOf config dest now none s.world.fs (localRoot cwd dest) = .ok plan ∧
        res = ⟨dest.name, plan.delete, plan.keep, ""⟩ := by
    have hreport := h.report
    rw [reportOf, if_pos hdir] at hreport
    cases hp : planOf config dest now none s.world.fs (localRoot cwd dest) with
    | error e =>
      rw [hp] at hreport
      cases hreport
    | ok plan =>
      rw [hp] at hreport
      exact ⟨plan, rfl, (Except.ok.inj hreport).symm⟩
  apply Finset.Subset.antisymm
  · intro i hi
    have hbefore := completeIds_removes h.removes hi
    by_contra hnot
    have habove : dest.keep ≤ above (completeIds (records s.world.fs (localRoot cwd dest))) i := by
      by_contra hlt
      exact hnot (mem_newest.mpr ⟨hbefore, by omega⟩)
    have hdelete : i ∈ plan.delete := (mem_delete_cases (nodup_complete_records _ _) hplan).1
      i hbefore habove
    obtain ⟨x, rfl, hplain, hkind, -⟩ := mem_completeIds_records.mp hi
    have hlisted : listedId x = x.val := by rw [listedId, hplain, Option.getD_none]
    have hgone := h.gone rfl x (by rw [hlisted]; exact hdelete)
    rw [hgone] at hkind
    cases hkind
  · exact completeIds_spared h.removes (newest_subset _ _) hown

theorem Independent.mono {dests dests' : List DestinationConfig}
    (h : Independent cwd config now t dests) (hsub : dests' ⊆ dests) :
    Independent cwd config now t dests' :=
  ⟨fun d hd => h.own d (hsub hd), fun d hd e he => h.others d (hsub hd) e (hsub he)⟩

/-- The deletes at the others leave a complete generation. -/
theorem Independent.spared {d : DestinationConfig} {dests : List DestinationConfig}
    (h : Independent cwd config now t (d :: dests)) (hnew : d ∉ dests) {x : Name}
    (hx : x.val ∈ completeIds (records t (localRoot cwd d))) :
    (none, localRoot cwd d ++ [x]) ∉ loopSpots cwd config now t dests ∧
      (none, localRoot cwd d ++ [x] ++ [META_FILENAME]) ∉ loopSpots cwd config now t dests := by
  obtain ⟨z, hz, hplain, hkind, hmeta⟩ := mem_completeIds_records.mp hx
  obtain rfl : z = x := Subtype.ext hz
  have hmem : z ∈ dirsIn t (localRoot cwd d) := mem_dirsIn.mpr hkind
  have hcomplete : (recordOf t (localRoot cwd d) z).complete = true := by
    rw [recordOf_plain hplain]
    exact hmeta
  have hout {q : Spot} (hq : Watched t (localRoot cwd d) q) :
      q ∉ loopSpots cwd config now t dests := by
    rintro ⟨e, he, hspot⟩
    have hne : e ≠ d := fun heq => hnew (heq ▸ he)
    exact h.others e (List.mem_cons_of_mem _ he) d List.mem_cons_self hne q hq hspot
  exact ⟨hout (.generation hmem), hout (.manifest hmem hcomplete)⟩

/-- The loop over the destinations: every report is the one computed of the tree at the start, and
each destination is left with its newest generations. -/
theorem purge_loop_independent (hnow : now.instant = some t₀) {dests : List DestinationConfig}
    (hlocal : ∀ d ∈ dests, d.type = .local) (hnodup : dests.Nodup)
    (hind : Independent cwd config now t dests) {s s' : Pipe}
    {res : List DestinationPurgeResult × Bool}
    (hsame : ∀ d ∈ dests, SameAt cwd t s.world.fs d) (hc : Calm s.world)
    (h : exec (purge_loop (site cwd nodes) config now dry_run dests) s = (.ok res, s'))
    (hraised : ∀ d i e, .raised (.delete d i) e ∉ s'.trace) :
    List.Forall₂ (fun d r => reportOf cwd config now t d = .ok r) dests res.1 ∧
      Removes (loopSpots cwd config now t dests) s.world s'.world ∧
      (dry_run = true → Same s.world s'.world) ∧
      (dry_run = false → ∀ d ∈ dests, (from_config cwd d).path.isDirIn t = true →
        completeIds (records s'.world.fs (localRoot cwd d)) =
          newest d.keep (completeIds (records t (localRoot cwd d)))) := by
  induction dests generalizing s s' res with
  | nil =>
    obtain ⟨rfl, rfl⟩ := exec_pure_eq_ok h
    exact ⟨.nil, refl_of _ _, fun _ => refl_of Same _, fun _ d hd => by cases hd⟩
  | cons d dests ih =>
    obtain ⟨first, v, hv, h⟩ := exec_bind_eq_ok h
    obtain ⟨rest, x, hx, h⟩ := exec_bind_eq_ok h
    obtain ⟨rfl, rfl⟩ := exec_pure_eq_ok h
    have hd := hsame d List.mem_cons_self
    obtain ⟨hnew, hnodup'⟩ := List.nodup_cons.mp hnodup
    obtain ⟨new, htrace, -⟩ :=
      (purge_loop_adds (site cwd nodes) config now dry_run dests).of_exec hx
    have hgrows : ∀ e, e ∈ v.trace → e ∈ s'.trace := by
      intro e he
      rw [htrace]
      exact List.mem_append_left _ he
    have hfirst := purge_one_purged (hlocal d List.mem_cons_self) hnow hc hv
      (fun i e he => hraised d i e (hgrows _ he))
    have hspots : purgeSpots cwd config now s.world.fs d = purgeSpots cwd config now t d :=
      hd.purgeSpots_eq hnow
    have hrem := hfirst.removes
    rw [hspots] at hrem
    -- the first destination's deletes leave the listings of the others
    have hothers : ∀ e ∈ dests, SameAt cwd t v.world.fs e := by
      intro e he
      have hne : d ≠ e := fun heq => hnew (heq ▸ he)
      have hse := (hsame e (List.mem_cons_of_mem _ he)).1
      apply SameAt.of_listing
      exact hse.trans (SameListing.of_removes hrem hfirst.order (fun q hq =>
        hind.others d List.mem_cons_self e (List.mem_cons_of_mem _ he) hne q (hse.watched hq)))
    obtain ⟨hreports, hrest, hdry, hkept⟩ := ih (fun e he => hlocal e (List.mem_cons_of_mem _ he))
      hnodup' (hind.mono (List.subset_cons_self _ _)) hothers hfirst.calm hx hraised
    have hleft : loopSpots cwd config now t dests ⊆ loopSpots cwd config now t (d :: dests) :=
      fun q ⟨e, he, hq⟩ => ⟨e, List.mem_cons_of_mem _ he, hq⟩
    have hhere : purgeSpots cwd config now t d ⊆ loopSpots cwd config now t (d :: dests) :=
      fun q hq => ⟨d, List.mem_cons_self, hq⟩
    refine ⟨.cons ?_ hreports, trans_of _ (hrem.mono hhere) (hrest.mono hleft),
      fun hdry' => trans_of Same (hfirst.dry hdry') (hdry hdry'),
      fun hwet e he hdir => ?_⟩
    · rw [← hd.reportOf_eq hnow]
      exact hfirst.report
    · rcases List.mem_cons.mp he with rfl | he
      · have hown := hind.own e List.mem_cons_self
        rw [← hspots, ← hd.1.completeIds_eq] at hown
        subst hwet
        have hnewest := hfirst.newest (hd.2.trans hdir) hown
        rw [hd.1.completeIds_eq] at hnewest
        -- and the deletes at the others leave its generations
        apply Finset.Subset.antisymm
        · exact (completeIds_removes hrest).trans hnewest.subset
        · apply completeIds_spared hrest hnewest.superset
          exact fun y hy => hind.spared hnew (newest_subset _ _ hy)
      · exact hkept hwet e he hdir

end

/-- The replies go on where they were. -/
def Later (w w' : World) : Prop := ∃ n, ∀ k, w'.tape k = w.tape (n + k)

instance : Std.Refl Later := ⟨fun _ => ⟨0, fun k => by rw [Nat.zero_add]⟩⟩

instance : IsTrans World Later := ⟨fun _ _ _ ⟨m, h⟩ ⟨n, h'⟩ =>
  ⟨m + n, fun k => by rw [h', h, Nat.add_assoc]⟩⟩

theorem Later.calm {w w' : World} (h : Later w w') (hc : Calm w) : Calm w' := by
  obtain ⟨n, hn⟩ := h
  intro k
  rw [hn]
  exact hc _

theorem primitive_later {α : Type} {f : Reply → World → Except Exn α × World}
    (h : ∀ r w, (f r w).2.tape = w.tape) : Moves Later (primitive f) := by
  intro w
  refine ⟨1, fun k => ?_⟩
  rw [exec_primitive, h, Nat.add_comm]
  rfl

theorem acquire_lock_later (cwd : Loc) (lock_path : PurePath) :
    Moves Later (acquire_lock cwd lock_path) := by
  have hmkdir : ∀ p, Moves Later (mkdir p) := by
    intro p
    apply primitive_later
    intro r w
    split_ifs
    · rfl
    · rfl
    · cases r.fault <;> rfl
  have hwrite : ∀ p text append, Moves Later (write_text p text append) := by
    intro p text append
    apply primitive_later
    intro r w
    cases p.find w.fs with
    | none => rfl
    | some l =>
      dsimp only
      by_cases hl : w.fs.isDir l ∨ !w.fs.isDir l.dropLast
      · rw [if_pos hl]
      · rw [if_neg hl]
        cases r.fault with
        | none => rfl
        | some e => cases r.applied <;> rfl
  have hflock : Moves Later (flock lock_path) := by
    apply Moves.tryCatch
    · apply primitive_later
      intro r w
      cases r.fault <;> rfl
    · intro e
      cases e <;> exact Moves.throw _
  exact Moves.bind (hmkdir _) (fun _ => Moves.bind (hwrite _ _ _) (fun _ => hflock))

/-- A purge without a failing call: it starts from listings that tell the same as those of `t`, no
delete raises, and it returns. -/
structure PurgeRun (cwd : Loc) (nodes : String → RemoteNode) (config : Config) (now : Datetime)
    (t : Fs) (names : Option (List String)) (dry_run : Bool) (w u : World) (summary : PurgeSummary)
    (s' : Pipe) : Prop where
  locked : exec (acquire_lock cwd config.lock.file) w = (.ok (), u)
  start : ∀ d ∈ config.destinations, SameListing (localRoot cwd d) t u.fs
  calm : Calm w
  ran : exec (purge (site cwd nodes) config names dry_run (some now)) ⟨w, []⟩ = (.ok summary, s')
  deleted : ∀ d i e, .raised (.delete d i) e ∉ s'.trace

section

variable {cwd : Loc} {nodes : String → RemoteNode} {config : Config} {now : Datetime}
  {t₀ : Instant} {t : Fs}

theorem reportOf_name {d : DestinationConfig} {r : DestinationPurgeResult}
    (h : reportOf cwd config now t d = .ok r) : r.name = d.name := by
  unfold reportOf at h
  split_ifs at h
  · cases hp : planOf config d now none t (localRoot cwd d) with
    | error e =>
      rw [hp] at h
      cases h
    | ok plan =>
      rw [hp] at h
      obtain rfl := Except.ok.inj h
      rfl
  · obtain rfl := Except.ok.inj h
    rfl

section

variable {ds : List DestinationConfig} {rs rs' : List DestinationPurgeResult}
  (h : List.Forall₂ (fun d r => reportOf cwd config now t d = .ok r) ds rs)
include h

theorem reported_unique
    (h' : List.Forall₂ (fun d r => reportOf cwd config now t d = .ok r) ds rs') : rs = rs' := by
  induction h generalizing rs' with
  | nil =>
    cases h'
    rfl
  | cons hr _ ih =>
    cases h' with
    | cons hr' h' => rw [Except.ok.inj (hr.symm.trans hr'), ih h']

theorem reported_names : rs.map (·.name) = ds.map (·.name) := by
  induction h with
  | nil => rfl
  | cons hr _ ih => rw [List.map_cons, List.map_cons, ih, reportOf_name hr]

theorem reported_mem {d : DestinationConfig} (hd : d ∈ ds) :
    ∃ r ∈ rs, reportOf cwd config now t d = .ok r := by
  induction h with
  | nil => cases hd
  | cons hr _ ih =>
    rcases List.mem_cons.mp hd with rfl | hd
    · exact ⟨_, List.mem_cons_self, hr⟩
    · obtain ⟨r, hmem, hr'⟩ := ih hd
      exact ⟨r, List.mem_cons_of_mem _ hmem, hr'⟩

end

theorem PurgeRun.independent {names : Option (List String)} {dry_run : Bool} {w u : World}
    {summary : PurgeSummary} {s' : Pipe} (hnow : now.instant = some t₀)
    (hlocal : ∀ d ∈ config.destinations, d.type = .local) (hnodup : config.destinations.Nodup)
    (hind : Independent cwd config now t config.destinations)
    (h : PurgeRun cwd nodes config now t names dry_run w u summary s') :
    List.Forall₂ (fun d r => reportOf cwd config now t d = .ok r)
        (config.destinations.filter (fun dest => names.all (dest.name ∈ ·))) summary.results ∧
      (dry_run = true → s'.world.tree = u.tree) ∧
      (dry_run = false → ∀ d ∈ config.destinations.filter (fun dest => names.all (dest.name ∈ ·)),
        (from_config cwd d).path.isDirIn t = true →
          completeIds (records s'.world.fs (localRoot cwd d)) =
            newest d.keep (completeIds (records t (localRoot cwd d)))) := by
  have hsub : ∀ d ∈ config.destinations.filter (fun dest => names.all (dest.name ∈ ·)),
      d ∈ config.destinations := fun d hd => List.mem_of_mem_filter hd
  have hrun := h.ran
  have hnow' : exec (now_or (some now)) (⟨w, []⟩ : Pipe) = (.ok now, ⟨w, []⟩) := rfl
  rw [purge, exec_bind_ok hnow'] at hrun
  obtain ⟨_, v, hv, hrun⟩ := exec_bind_eq_ok hrun
  obtain ⟨outcome, x, hx, hrun⟩ := exec_bind_eq_ok hrun
  obtain ⟨rfl, rfl⟩ := exec_pure_eq_ok hrun
  have hworld : v.world = u := by
    have hlock := (exec_perform_ok hv).1
    rw [show (site cwd nodes).cwd = cwd from rfl, h.locked] at hlock
    exact (Prod.mk.inj hlock).2.symm
  have hcalm : Calm v.world := by
    rw [hworld]
    exact ((acquire_lock_later cwd config.lock.file).of_exec h.locked).calm h.calm
  obtain ⟨hreports, -, hdry, hkept⟩ := purge_loop_independent hnow
    (fun d hd => hlocal d (hsub d hd)) (hnodup.filter _) (hind.mono hsub)
    (fun d hd => SameAt.of_listing (hworld ▸ h.start d (hsub d hd))) hcalm hx h.deleted
  exact ⟨hreports, fun hd => hworld ▸ (hdry hd).tree, hkept⟩

/-- A list of distinct configurations that holds `d` and none of another name is `[d]`. -/
theorem filter_name {dests : List DestinationConfig} (hnames : (dests.map (·.name)).Nodup)
    {d : DestinationConfig} (hd : d ∈ dests) :
    dests.filter (fun dest => (some [d.name]).all (dest.name ∈ ·)) = [d] := by
  induction dests with
  | nil => cases hd
  | cons e dests ih =>
    obtain ⟨hnew, hnames'⟩ := List.nodup_cons.mp hnames
    rcases List.mem_cons.mp hd with rfl | hd
    · have hnone : dests.filter (fun dest => (some [d.name]).all (dest.name ∈ ·)) = [] := by
        apply List.filter_eq_nil_iff.mpr
        intro e he heq
        have hname : e.name = d.name := by simpa using heq
        exact hnew (List.mem_map.mpr ⟨e, he, hname⟩)
      rw [List.filter_cons_of_pos (by simp), hnone]
    · have hne : e.name ≠ d.name := fun heq => hnew (List.mem_map.mpr ⟨d, hd, heq.symm⟩)
      rw [List.filter_cons_of_neg (by simpa using hne), ih hnames' hd]

/-- Where the deletes at one destination do not reach the others, a purge of all destinations in
any order reports of each and leaves at each what its purge alone does, the newest of its complete
generations, and a dry run reports the same and changes nothing. -/
theorem retention_independent (haccepted : config.Accepted)
    (hlocal : ∀ d ∈ config.destinations, d.type = .local) (hnow : now.instant = some t₀)
    (hind : Independent cwd config now t config.destinations) {ds : List DestinationConfig}
    (hds : ds.Perm config.destinations) {w w' w'' u u' u'' : World}
    {all alone dry : PurgeSummary} {s s' s'' : Pipe} {d : DestinationConfig}
    (hd : d ∈ config.destinations)
    (hall : PurgeRun cwd nodes { config with destinations := ds } now t none false w u all s)
    (halone : PurgeRun cwd nodes config now t (some [d.name]) false w' u' alone s')
    (hdry : PurgeRun cwd nodes { config with destinations := ds } now t none true w'' u'' dry s'') :
    (∃ r, alone.results = [r] ∧ r ∈ all.results ∧ r.name = d.name) ∧
      (all.results.map (·.name)).Nodup ∧
      ((from_config cwd d).path.isDirIn t = true →
        completeIds (records s.world.fs (localRoot cwd d)) =
            newest d.keep (completeIds (records t (localRoot cwd d))) ∧
          completeIds (records s'.world.fs (localRoot cwd d)) =
            newest d.keep (completeIds (records t (localRoot cwd d))) ∧
          (newest d.keep (completeIds (records t (localRoot cwd d)))).card =
            min d.keep (completeIds (records t (localRoot cwd d))).card) ∧
      dry.results = all.results ∧ s''.world.tree = u''.tree := by
  have hnodup := List.Nodup.of_map _ haccepted.names
  have hind' : Independent cwd { config with destinations := ds } now t ds :=
    ⟨fun e he => hind.own e (hds.mem_iff.mp he),
      fun e he e' he' => hind.others e (hds.mem_iff.mp he) e' (hds.mem_iff.mp he')⟩
  have hlocal' : ∀ e ∈ ds, e.type = .local := fun e he => hlocal e (hds.mem_iff.mp he)
  have hevery : ds.filter (fun dest => (none : Option (List String)).all (dest.name ∈ ·)) = ds := by
    simp
  obtain ⟨hreports, -, hkept⟩ := hall.independent hnow hlocal' (hds.nodup_iff.mpr hnodup) hind'
  obtain ⟨hreports', -, hkept'⟩ := halone.independent hnow hlocal hnodup hind
  obtain ⟨hreports'', hsame, -⟩ := hdry.independent hnow hlocal' (hds.nodup_iff.mpr hnodup) hind'
  rw [filter_name haccepted.names hd] at hreports' hkept'
  simp only [hevery] at hreports hreports'' hkept
  have hdir : dry.results = all.results := reported_unique hreports'' hreports
  refine ⟨?_, ?_, fun hdir => ⟨hkept trivial d (hds.mem_iff.mpr hd) hdir,
    hkept' rfl d (List.mem_singleton.mpr rfl) hdir, card_newest _ _⟩, hdir, hsame rfl⟩
  · obtain ⟨r, hr, hreport⟩ := reported_mem hreports (hds.mem_iff.mpr hd)
    refine ⟨r, ?_, hr, reportOf_name hreport⟩
    exact reported_unique hreports' (.cons hreport .nil)
  · rw [reported_names hreports]
    exact (hds.map _).nodup_iff.mpr haccepted.names

end

/-- Two local destinations. -/
def pairTable (path path' : String) (keep keep' : ℤ) : Table :=
  [("schema_version", .int 1),
    ("backup", .table [("work_dir", .str "/w"), ("name_prefix", .str "p")]),
    ("destinations", .array [
      .table [("name", .str "twin"), ("type", .str "local"), ("path", .str path),
        ("keep", .int keep)],
      .table [("name", .str "disk"), ("type", .str "local"), ("path", .str path'),
        ("keep", .int keep')]])]

/-- What `pairTable` is parsed to. -/
def pairConfig (path path' : String) (keep keep' : ℕ) : Config :=
  { smallConfig "/w" "p" path' keep' with
    destinations := [{ smallDestination path keep with name := "twin" },
      smallDestination path' keep'] }

/-- Two generations in `/b` and one in `/c`. -/
def pairTree : Fs :=
  (((smallTree.addGeneration [entry "b", entry "p-1"]).addGeneration
    [entry "b", entry "p-2"]).create [entry "c"] .dir 0).addGeneration [entry "c", entry "p-3"]

/-- Two names for one directory: what the first destination deletes the second one would have
kept. -/
theorem purges_interfere :
    parse_config (pairTable "/b" "/b" 1 2) = .ok (pairConfig "/b" "/b" 1 2) ∧
      (exec (purge (site [] smallNodes) (pairConfig "/b" "/b" 1 2) none false
          (some (Datetime.utc 1700000000000000))) ⟨smallWorld pairTree, []⟩).1 =
        .ok ⟨.SUCCESS, [⟨"twin", ["p-1"], ["p-2"], ""⟩, ⟨"disk", [], ["p-2"], ""⟩]⟩ ∧
      (exec (purge (site [] smallNodes) (pairConfig "/b" "/b" 1 2) (some ["disk"]) false
          (some (Datetime.utc 1700000000000000))) ⟨smallWorld pairTree, []⟩).1 =
        .ok ⟨.SUCCESS, [⟨"disk", [], ["p-2", "p-1"], ""⟩]⟩ ∧
      (exec (purge (site [] smallNodes) (pairConfig "/b" "/b" 1 2) none true
          (some (Datetime.utc 1700000000000000))) ⟨smallWorld pairTree, []⟩).1 =
        .ok ⟨.SUCCESS, [⟨"twin", ["p-1"], ["p-2"], ""⟩, ⟨"disk", [], ["p-2", "p-1"], ""⟩]⟩ :=
  ⟨rfl, by decide +kernel⟩

/-- The listing of a directory that lies apart from `Q` reads nothing in `Q`. -/
theorem not_watched {P Q l : Loc} {t : Fs} {q : Spot} (hq : Watched t P q) (hPQ : ¬ P <+: Q)
    (hQP : ¬ Q <+: P) (hl : Q <+: l) : q ∉ below none l := by
  intro hb
  have hP : P <+: q.2 := by
    cases hq with
    | root => exact List.prefix_refl _
    | generation => exact List.prefix_append _ _
    | manifest => exact (List.prefix_append _ _).trans (List.prefix_append _ _)
    | content => exact (List.prefix_append _ _).trans (List.prefix_append _ _)
  have hQ : Q <+: q.2 := hl.trans hb.2
  rcases Nat.le_total P.length Q.length with hlen | hlen
  · exact hPQ (List.prefix_of_prefix_length_le hP hQ hlen)
  · exact hQP (List.prefix_of_prefix_length_le hQ hP hlen)

/-- Destinations in directories that lie apart are independent, as long as every id to be deleted
is a name and not that of a generation that is kept. -/
theorem Independent.of_apart {cwd : Loc} {config : Config} {now : Datetime} {t : Fs}
    {dests : List DestinationConfig} (hlocal : ∀ d ∈ dests, d.IsLocal)
    (hapart : ∀ d ∈ dests, ∀ e ∈ dests, d ≠ e → ¬ localRoot cwd d <+: localRoot cwd e)
    (hplans : ∀ d ∈ dests, ∀ plan, planOf config d now none t (localRoot cwd d) = .ok plan →
      ∀ i ∈ plan.delete, Legal i ∧
        i ∉ newest d.keep (completeIds (records t (localRoot cwd d)))) :
    Independent cwd config now t dests := by
  have hspots : ∀ d ∈ dests, ∀ q ∈ purgeSpots cwd config now t d, ∃ y : Name,
      y.val ∉ newest d.keep (completeIds (records t (localRoot cwd d))) ∧
        (q ∈ below none (localRoot cwd d ++ [y]) ∨
          q ∈ below none (localRoot cwd d ++ [partialName y])) := by
    intro d hd q ⟨plan, hplan, i, hi, hq⟩
    obtain ⟨hlegal, hkept⟩ := hplans d hd plan hplan i hi
    have hdelete := delete_spots ((hlocal d hd).at cwd) ⟨i, hlegal⟩
    exact ⟨⟨i, hlegal⟩, hkept, (hdelete ▸ hq : q ∈ _ ∪ _)⟩
  constructor
  · intro d hd x hx
    have hout : ∀ r : Loc, (none, localRoot cwd d ++ [x] ++ r) ∉ purgeSpots cwd config now t d := by
      intro r hr
      obtain ⟨y, hy, hq⟩ := hspots d hd _ hr
      rcases hq with ⟨-, hq⟩ | ⟨-, hq⟩
      · rw [prefix_entry_iff.mp hq] at hy
        exact hy hx
      · obtain ⟨z, hz, hplain, -⟩ := mem_completeIds_records.mp (newest_subset _ _ hx)
        rw [hz, ← prefix_entry_iff.mp hq, stripSuffix_partialName] at hplain
        cases hplain
    exact ⟨by simpa using hout [], hout [META_FILENAME]⟩
  · intro d hd e he hne q hq hmem
    obtain ⟨y, -, hbelow⟩ := hspots d hd q hmem
    have hfree : ∀ z : Name, q ∉ below none (localRoot cwd d ++ [z]) := fun z =>
      not_watched hq (hapart e he d hd hne.symm) (hapart d hd e he hne) (List.prefix_append _ _)
    exact hbelow.elim (hfree y) (hfree (partialName y))

theorem pairTree_independent : Independent [] (pairConfig "/b" "/c" 1 1)
    (Datetime.utc 1700000000000000) pairTree (pairConfig "/b" "/c" 1 1).destinations := by
  apply Independent.of_apart
  · intro d hd
    rcases List.mem_cons.mp hd with rfl | hd
    · exact ⟨rfl, by decide⟩
    · obtain rfl := List.mem_singleton.mp hd
      exact ⟨rfl, by decide⟩
  · intro d hd e he hne
    rcases List.mem_cons.mp hd with rfl | hd
    · rcases List.mem_cons.mp he with rfl | he
      · exact absurd rfl hne
      · obtain rfl := List.mem_singleton.mp he
        decide
    · obtain rfl := List.mem_singleton.mp hd
      rcases List.mem_cons.mp he with rfl | he
      · decide
      · obtain rfl := List.mem_singleton.mp he
        exact absurd rfl hne
  · intro d hd plan hplan
    rcases List.mem_cons.mp hd with rfl | hd
    · obtain rfl : ⟨["p-2"], ["p-1"]⟩ = plan :=
        Except.ok.inj ((show Except.ok _ = _ by decide +kernel).trans hplan)
      intro i hi
      obtain rfl := List.mem_singleton.mp hi
      exact ⟨by decide, by decide +kernel⟩
    · obtain rfl := List.mem_singleton.mp hd
      obtain rfl : ⟨["p-3"], []⟩ = plan :=
        Except.ok.inj ((show Except.ok _ = _ by decide +kernel).trans hplan)
      intro i hi
      cases hi

/-- The purge of these destinations in the order `ds`. -/
def pairPurge (ds : List DestinationConfig) (names : Option (List String)) (dry_run : Bool) :
    Except Exn PurgeSummary × Pipe :=
  exec (purge (site [] smallNodes) { pairConfig "/b" "/c" 1 1 with destinations := ds } names
    dry_run
    (some (Datetime.utc 1700000000000000))) ⟨smallWorld pairTree, []⟩

theorem pair_run {ds : List DestinationConfig} {names : Option (List String)} {dry_run : Bool}
    {summary : PurgeSummary}
    (hstart : ∀ d ∈ ds, SameListing (localRoot [] d) pairTree
      (exec (acquire_lock [] LockConfig.default.file) (smallWorld pairTree)).2.fs)
    (h : (pairPurge ds names dry_run).1 = .ok summary)
    (hdeleted : (pairPurge ds names dry_run).2.trace.all (fun
      | .raised _ _ => false
      | _ => true) = true) :
    PurgeRun [] smallNodes { pairConfig "/b" "/c" 1 1 with destinations := ds }
      (Datetime.utc 1700000000000000) pairTree names dry_run (smallWorld pairTree)
      (exec (acquire_lock [] LockConfig.default.file) (smallWorld pairTree)).2 summary
      (pairPurge ds names dry_run).2 := by
  have hlocked : (exec (acquire_lock [] LockConfig.default.file) (smallWorld pairTree)).1 =
      .ok () := by decide +kernel
  refine ⟨exec_of_ok hlocked, hstart, smallWorld_calm pairTree, exec_of_ok h,
    fun d i e hmem => ?_⟩
  exact absurd (List.all_eq_true.mp hdeleted _ hmem) (by simp)

theorem retention_independent_pair :
    completeIds (records (pairPurge [smallDestination "/c" 1,
      { smallDestination "/b" 1 with name := "twin" }] none false).2.world.fs [entry "b"]) =
        {"p-2"} := by
  have hlisting : ∀ P ∈ [[entry "b"], [entry "c"]], SameListing P pairTree
      (exec (acquire_lock [] LockConfig.default.file) (smallWorld pairTree)).2.fs := by
    intro P hP
    rcases List.mem_cons.mp hP with rfl | hP
    · exact ⟨by decide +kernel, by decide +kernel, by decide +kernel, by decide +kernel⟩
    · obtain rfl := List.mem_singleton.mp hP
      exact ⟨by decide +kernel, by decide +kernel, by decide +kernel, by decide +kernel⟩
  have hstart : ∀ d ∈ (pairConfig "/b" "/c" 1 1).destinations, SameListing (localRoot [] d) pairTree
      (exec (acquire_lock [] LockConfig.default.file) (smallWorld pairTree)).2.fs := by
    intro d hd
    rcases List.mem_cons.mp hd with rfl | hd
    · exact hlisting _ (by decide)
    · obtain rfl := List.mem_singleton.mp hd
      exact hlisting _ (by decide)
  have hswap : [smallDestination "/c" 1, { smallDestination "/b" 1 with name := "twin" }].Perm
      (pairConfig "/b" "/c" 1 1).destinations := List.Perm.swap _ _ _
  have haccepted : (pairConfig "/b" "/c" 1 1).Accepted :=
    ⟨by decide, by decide, by decide, by decide +kernel⟩
  have hall : ∀ dry_run, (pairPurge [smallDestination "/c" 1,
      { smallDestination "/b" 1 with name := "twin" }] none dry_run).1 = .ok ⟨.SUCCESS,
        [⟨"disk", [], ["p-3"], ""⟩, ⟨"twin", ["p-1"], ["p-2"], ""⟩]⟩ := by decide +kernel
  have halone : (pairPurge (pairConfig "/b" "/c" 1 1).destinations (some ["twin"]) false).1 =
      .ok ⟨.SUCCESS, [⟨"twin", ["p-1"], ["p-2"], ""⟩]⟩ := by decide +kernel
  have hnewest : newest 1 (completeIds (records pairTree [entry "b"])) = {"p-2"} := by
    decide +kernel
  have hkept := (retention_independent haccepted (by decide) rfl pairTree_independent hswap
    List.mem_cons_self
    (pair_run (fun d hd => hstart d (hswap.mem_iff.mp hd)) (hall false) (by decide +kernel))
    (pair_run hstart halone (by decide +kernel))
    (pair_run (fun d hd => hstart d (hswap.mem_iff.mp hd)) (hall true) (by decide +kernel))).2.2.1
    (by decide +kernel)
  exact hkept.1.trans hnewest

end MbKeeper
