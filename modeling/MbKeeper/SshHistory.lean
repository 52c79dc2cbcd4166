import MbKeeper.Listings
import MbKeeper.SshStore

/-!
# Histories of an ssh destination

A history starts from an empty remote directory and is any sequence of stores
and deletes, each of them cut short wherever the environment likes. `Tidy` is
what all of them keep: every directory without the suffix holds the manifest,
and the manifest's place is never taken by a directory. The one step that
breaks it is a removal that is cut short after it took the manifest.
-/
namespace MbKeeper

namespace SSHDestination

variable {d : SSHDestination} {P S : Loc} {x : Name} {src : Path} {w w' : World}

theorem remote_call_state {cmd : RemoteCommand} (hlit : cmd.Literal) (w : World) :
    (exec (remote_call d.node d.host cmd) w).2 =
        (cmd.full d.node d.host w.next (w.tape 0).stamp).world ∨
      ((w.tape 0).fault ≠ none ∨ (w.tape 0).status ≠ 0) ∧
        (exec (remote_call d.node d.host cmd) w).2 = cmd.cut d.node d.host w.next (w.tape 0) := by
  rw [remote_call, exec_primitive, if_pos hlit]
  cases hf : (w.tape 0).fault with
  | some e => exact .inr ⟨.inl (by simp), rfl⟩
  | none =>
    dsimp only
    split_ifs with hs
    · exact .inl rfl
    · exact .inr ⟨.inr hs, rfl⟩

theorem remote_run_state {cmd : RemoteCommand} (hlit : cmd.Literal) (w : World) :
    (exec (d.remote_run cmd) w).2 = w ∨
      (exec (d.remote_run cmd) w).2 = (cmd.full d.node d.host w.next (w.tape 0).stamp).world ∨
      ((w.tape 0).fault ≠ none ∨ (w.tape 0).status ≠ 0) ∧
        (exec (d.remote_run cmd) w).2 = cmd.cut d.node d.host w.next (w.tape 0) := by
  have hprocess : (exec (d.remote_process cmd) w).2 = w ∨
      (exec (d.remote_process cmd) w).2 = (exec (remote_call d.node d.host cmd) w).2 := by
    have hstate := started_state (.ok (d.ssh_argv ++ [.str d.user_host, .str cmd.text])) w
    rw [remote_process, exec_tryCatch]
    rcases hs : exec (started (.ok (d.ssh_argv ++ [.str d.user_host, .str cmd.text]))) w with
      ⟨e | _, v⟩
    · rw [hs] at hstate
      rw [exec_bind_error hs]
      refine .inl ?_
      cases e <;> exact hstate
    · rw [hs] at hstate
      obtain rfl : v = w := hstate
      rw [exec_bind_ok hs]
      refine .inr ?_
      rcases exec (remote_call d.node d.host cmd) v with ⟨e | p, u⟩
      · cases e <;> rfl
      · rfl
  have hrun : (exec (d.remote_run cmd) w).2 = (exec (d.remote_process cmd) w).2 := by
    rw [remote_run, exec_bind]
    rcases exec (d.remote_process cmd) w with ⟨e | p, u⟩
    · rfl
    · dsimp only
      split_ifs <;> rfl
  rw [hrun]
  rcases hprocess with hp | hp
  · exact .inl hp
  · rw [hp]
    exact .inr (remote_call_state hlit w)

theorem delete_removes (ha : d.Addresses P x) :
    Moves (Removes (spots d.host P x)) (d.delete x.val) := by
  refine Moves.bind (fun w => ?_) (fun _ => Moves.pure _)
  exact rm_rf_removes ha.path x (remote_run_left ha.literal_rm (Prod.eta _).symm)

/-- Where the removal ran to its end nothing is left of `x`. -/
theorem rm_rf_gone (hp : d.path.path.At P) (w : World) (s : Instant) {y : Name}
    (hy : y = x ∨ y = partialName x) (r : Loc) :
    ((RemoteCommand.full d.node d.host w s
      (.rm_rf (d.final_path x.val) (d.partial_path x.val))).world.tree (some d.host)).kind
        (P ++ [y] ++ r) = none := by
  rw [rm_rf_full hp, World.tree_setTree_self, FileTree.kind_removeTree, FileTree.kind_removeTree]
  rcases hy with rfl | rfl
  · rw [if_pos (List.prefix_append _ _), ite_self]
  · rw [if_pos (List.prefix_append _ _)]

theorem delete_ok (ha : d.Addresses P x) (h : exec (d.delete x.val) w = (.ok (), w')) {y : Name}
    (hy : y = x ∨ y = partialName x) (r : Loc) :
    (w'.tree (some d.host)).kind (P ++ [y] ++ r) = none := by
  obtain ⟨proc, u, hu, hpure⟩ := exec_bind_eq_ok h
  obtain ⟨-, rfl⟩ := exec_pure_eq_ok hpure
  rcases remote_run_cases ha.literal_rm hu with ⟨s, rfl, -, -⟩ | ⟨-, e, he⟩
  · exact rm_rf_gone ha.path _ _ hy r
  · cases he

/-- A removal did nothing, or took everything of `x`, or was cut short by a failure. -/
theorem delete_state (ha : d.Addresses P x) (w : World) :
    (exec (d.delete x.val) w).2 = w ∨
      (∀ y, y = x ∨ y = partialName x → ∀ r,
        ((exec (d.delete x.val) w).2.tree (some d.host)).kind (P ++ [y] ++ r) = none) ∨
      ((w.tape 0).fault ≠ none ∨ (w.tape 0).status ≠ 0) ∧ (exec (d.delete x.val) w).2 =
        RemoteCommand.cut d.node d.host w.next (w.tape 0)
          (.rm_rf (d.final_path x.val) (d.partial_path x.val)) := by
  have hdelete : (exec (d.delete x.val) w).2 = (exec (d.remote_run
      (.rm_rf (d.final_path x.val) (d.partial_path x.val))) w).2 := by
    rw [delete, exec_bind]
    rcases exec (d.remote_run (.rm_rf (d.final_path x.val) (d.partial_path x.val))) w with
      ⟨e | p, u⟩ <;> rfl
  rw [hdelete]
  rcases remote_run_state ha.literal_rm w with h | h | h
  · exact .inl h
  · rw [h]
    exact .inr (.inl (fun y hy r => rm_rf_gone ha.path _ _ hy r))
  · exact .inr (.inr h)

/-- The shell takes the name as it is written, the glob yields it, and its line is one line of
three words. -/
structure Listable (x : Name) : Prop where
  literal : Literal x.val
  space : ∀ a ∈ x.val.toList, isSpace a = false
  dot : x.val.toList.head? ≠ some '.'

theorem partialName_toList (x : Name) :
    (partialName x).val.toList = x.val.toList ++ PARTIAL_SUFFIX.toList := String.toList_append

theorem partialName_head? (x : Name) :
    (partialName x).val.toList.head? = x.val.toList.head? := by
  rw [partialName_toList]
  cases h : x.val.toList with
  | nil => exact absurd (String.toList_eq_nil_iff.mp h) x.property.1
  | cons c cs => rfl

theorem listable_partialName : Listable (partialName x) ↔ Listable x := by
  constructor
  · intro h
    refine ⟨(literal_append.mp h.literal).1, fun a ha => h.space a ?_, ?_⟩
    · rw [partialName_toList]
      exact List.mem_append_left _ ha
    · rw [← partialName_head?]
      exact h.dot
  · intro h
    refine ⟨literal_append.mpr ⟨h.literal, literal_suffix⟩, fun a ha => ?_, ?_⟩
    · have hsuffix : ∀ a ∈ PARTIAL_SUFFIX.toList, isSpace a = false := by decide
      rw [partialName_toList] at ha
      exact (List.mem_append.mp ha).elim (h.space a) (hsuffix a)
    · rw [partialName_head?]
      exact h.dot

/-- A listed name with the suffix is the building directory of an id. -/
theorem Listable.exists_id (h : Listable x) {s : String}
    (hs : stripSuffix PARTIAL_SUFFIX x.val = some s) :
    ∃ y : Name, y.val = s ∧ x = partialName y := by
  have hx := stripSuffix_eq_some.mp hs
  have hdot := h.dot
  have hne : ∀ u : String, (u ++ PARTIAL_SUFFIX).toList.head? = some '.' → s ≠ u := by
    rintro u hu rfl
    rw [hx] at hdot
    exact hdot hu
  have hlegal : Legal s := ⟨hne "" (by decide), hne "." (by decide), hne ".." (by decide),
    fun c hc => x.property.2.2.2 c (by
      rw [hx, String.toList_append]
      exact List.mem_append_left _ hc)⟩
  exact ⟨⟨s, hlegal⟩, rfl, Subtype.ext hx⟩

/-- The worlds reached from an empty remote directory. Only ids with `Id` are stored and deleted,
and a removal of `x` begins in a world with `Cut x`; what happens in between happens elsewhere. -/
inductive History (d : SSHDestination) (P : Loc) (Id : Name → Prop) (Cut : Name → World → Prop) :
    World → Prop where
  | start {w : World} (hempty : ∀ q, P <+: q → q ≠ P → (w.tree (some d.host)).kind q = none) :
      History d P Id Cut w
  | store {w : World} (h : History d P Id Cut w) {x : Name} (hx : Id x) {S : Loc} {src : Path}
      (hsrc : SourceDir w.fs S src) : History d P Id Cut (exec (d.store src x.val) w).2
  | delete {w : World} (h : History d P Id Cut w) {x : Name} (hx : Id x) (hcut : Cut x w) :
      History d P Id Cut (exec (d.delete x.val) w).2
  | elsewhere {w w' : World} (h : History d P Id Cut w) (hkind : ∀ q, P <+: q →
      (w'.tree (some d.host)).kind q = (w.tree (some d.host)).kind q) : History d P Id Cut w'

/-- A removal of `x` that is cut short does not take the manifest alone: where it took the
manifest, it took the directory. -/
def ManifestNotAlone (d : SSHDestination) (P : Loc) (x : Name) (w : World) : Prop :=
  (w.tape 0).fault ≠ none ∨ (w.tape 0).status ≠ 0 → stripSuffix PARTIAL_SUFFIX x.val = none →
    ((RemoteCommand.cut d.node d.host w.next (w.tape 0)
        (.rm_rf (d.final_path x.val) (d.partial_path x.val))).tree (some d.host)).isFile
      (P ++ [x] ++ [META_FILENAME]) = false →
    ((RemoteCommand.cut d.node d.host w.next (w.tape 0)
        (.rm_rf (d.final_path x.val) (d.partial_path x.val))).tree (some d.host)).isDir
      (P ++ [x]) = false

/-- What a history leaves at its destination. -/
structure Tidy (h : String) (P : Loc) (w : World) : Prop where
  names : ∀ z r, (w.tree (some h)).kind (P ++ [z] ++ r) ≠ none → Listable z
  marked : ∀ z, (w.tree (some h)).isDir (P ++ [z]) = true →
    stripSuffix PARTIAL_SUFFIX z.val = none →
    (w.tree (some h)).isFile (P ++ [z] ++ [META_FILENAME]) = true
  manifest : ∀ z, (w.tree (some h)).isDir (P ++ [z] ++ [META_FILENAME]) = false

namespace Tidy

theorem congr {h : String} (ht : Tidy h P w) (hkind : ∀ z r,
    (w'.tree (some h)).kind (P ++ [z] ++ r) = (w.tree (some h)).kind (P ++ [z] ++ r)) :
    Tidy h P w' := by
  have hroot : ∀ z, (w'.tree (some h)).kind (P ++ [z]) = (w.tree (some h)).kind (P ++ [z]) :=
    fun z => by simpa using hkind z []
  refine ⟨fun z r hz => ht.names z r (by rwa [← hkind]), fun z hz hs => ?_, fun z => ?_⟩
  · rw [FileTree.isFile_congr (hkind z _)]
    exact ht.marked z (by rwa [← FileTree.isDir_congr (hroot z)]) hs
  · rw [FileTree.isDir_congr (hkind z _)]
    exact ht.manifest z

theorem start {h : String}
    (hempty : ∀ q, P <+: q → q ≠ P → (w.tree (some h)).kind q = none) : Tidy h P w := by
  have hnone : ∀ z r, (w.tree (some h)).kind (P ++ [z] ++ r) = none := fun z r =>
    hempty _ ⟨[z] ++ r, by simp⟩ (by simp)
  refine ⟨fun z r hz => absurd (hnone z r) hz, fun z hz _ => ?_, fun z => ?_⟩
  · have := hnone z []
    rw [List.append_nil] at this
    rw [FileTree.isDir, this] at hz
    cases hz
  · rw [FileTree.isDir, hnone]

/-- A removal keeps the destination tidy unless it took a manifest alone. -/
theorem removed (ht : Tidy d.host P w) (hr : Removes (spots d.host P x) w w')
    (hx : stripSuffix PARTIAL_SUFFIX x.val = none →
      (w'.tree (some d.host)).isFile (P ++ [x] ++ [META_FILENAME]) = false →
      (w'.tree (some d.host)).isDir (P ++ [x]) = false) : Tidy d.host P w' := by
  refine ⟨fun z r hz => ht.names z r (hr.ne_none hz), fun z hz hs => ?_, fun z => ?_⟩
  · by_cases hzx : z = x
    · subst hzx
      by_contra hf
      rw [hx hs (by simpa using hf)] at hz
      cases hz
    · -- nothing of `z` is removed
      have hout : (some d.host, P ++ [z] ++ [META_FILENAME]) ∉ spots d.host P x := by
        rintro (⟨-, hq⟩ | ⟨-, hq⟩)
        · exact hzx (prefix_entry_iff.mp hq).symm
        · exact plain_ne_partialName hs (prefix_entry_iff.mp hq).symm
      rw [FileTree.isFile_congr (hr.kind _ _ hout)]
      exact ht.marked z ((FileTree.isDir_iff _ _).mpr
        (hr.kind_of_some ((FileTree.isDir_iff _ _).mp hz))) hs
  · exact hr.isDir_eq_false (ht.manifest z)

theorem delete (ha : d.Addresses P x) (ht : Tidy d.host P w)
    (hcut : ManifestNotAlone d P x w) : Tidy d.host P (exec (d.delete x.val) w).2 := by
  refine ht.removed (delete_removes ha w) (fun hs hfile => ?_)
  rcases delete_state ha w with hw | hgone | ⟨hbad, hw⟩
  · by_contra hd
    rw [hw] at hfile hd
    rw [ht.marked x (by simpa using hd) hs] at hfile
    cases hfile
  · have := hgone x (.inl rfl) []
    rw [List.append_nil] at this
    rw [FileTree.isDir, this]
  · rw [hw] at hfile ⊢
    exact hcut hbad hs hfile

end Tidy

/-- No directory comes to the place of a manifest. -/
def PlaceFree (h : String) (P : Loc) (w w' : World) : Prop :=
  (∀ z, (w.tree (some h)).isDir (P ++ [z] ++ [META_FILENAME]) = false) →
    ∀ z, (w'.tree (some h)).isDir (P ++ [z] ++ [META_FILENAME]) = false

instance (h : String) (P : Loc) : Std.Refl (PlaceFree h P) := ⟨fun _ => id⟩

instance (h : String) (P : Loc) : IsTrans World (PlaceFree h P) := ⟨fun _ _ _ h h' hw => h' (h hw)⟩

theorem PlaceFree.of_same {h : String} (hs : Same w w') : PlaceFree h P w w' := fun hw z => by
  rw [hs.tree]
  exact hw z

/-- Where only the building directory changed, its own place decides. -/
theorem PlaceFree.of_confined {h : String} (hc : Confined (building h P x) w w')
    (hplace : (w.tree (some h)).isDir (P ++ [partialName x] ++ [META_FILENAME]) = false →
      (w'.tree (some h)).isDir (P ++ [partialName x] ++ [META_FILENAME]) = false) :
    PlaceFree h P w w' := by
  intro hw z
  by_cases hz : z = partialName x
  · subst hz
    exact hplace (hw _)
  · rw [FileTree.isDir_congr (hc.kind _ _ (other_notMem_building hz _))]
    exact hw z

theorem remote_process_left {cmd : RemoteCommand} (hlit : cmd.Literal)
    {res : Except Exn CompletedProcess} (h : exec (d.remote_process cmd) w = (res, w')) :
    d.Left cmd w w' := by
  rcases remote_process_cases hlit h with ⟨s, -, rfl, -⟩ | ⟨hleft, -⟩
  · exact Left.of_full
  · exact hleft

theorem send_meta_place (ha : d.Addresses P x) (hS : src.At S) :
    Moves (PlaceFree d.host P) (d.send_meta src x.val) := by
  refine Moves.bind (fun w => ?_) (fun _ => Moves.ite ?_ (Moves.pure _))
  · rw [is_file, exec_ask_state]
    exact PlaceFree.of_same (same_next w)
  refine run_with_retries_moves ?_ _ _ _
  intro w hw z
  rcases rsync_file_cases (hS.child META_FILENAME)
    (RemotePath.sub_at ha.partial_at META_FILENAME) (Prod.eta _).symm with ⟨he, -⟩ | ⟨_, _, -, he⟩
  · rw [he]
    exact hw z
  · rw [he, World.tree_setTree_self, FileTree.isDir, FileTree.kind_write, mvTarget_meta]
    split_ifs
    · rfl
    · exact hw z

theorem mv_place (ha : d.Addresses P x) :
    Moves (PlaceFree d.host P)
      (d.remote_run (.mv (d.partial_path x.val) (d.final_path x.val))) := by
  intro w
  have hnone : ∀ {v : World} {z : Name}, (v.tree (some d.host)).kind (P ++ [z] ++ [META_FILENAME]) =
      none → (v.tree (some d.host)).isDir (P ++ [z] ++ [META_FILENAME]) = false := fun h => by
    rw [FileTree.isDir, h]
  rcases mv_left ha.path x (remote_run_left ha.literal_mv (Prod.eta _).symm) with hs | ht | hn
  · exact PlaceFree.of_same hs
  · intro hw z
    by_cases hzp : z = partialName x
    · subst hzp
      exact hnone (ht.kind_partial _)
    · by_cases hzx : z = x
      · subst hzx
        rw [FileTree.isDir_congr (ht.kind_final _)]
        exact hw _
      · rw [FileTree.isDir_congr (ht.kind_other hzx hzp _)]
        exact hw z
  · intro hw z
    by_cases hzp : z = partialName x
    · subst hzp
      exact hnone (hn.kind_partial _)
    · rw [FileTree.isDir_congr (hn.kind_of_outside ?_ ?_)]
      · exact hw z
      · intro hq
        rw [List.append_assoc, List.append_assoc, List.prefix_append_right_inj] at hq
        have := hq.eq_of_length (by simp)
        exact partialName_ne_meta x (by simpa using (List.cons.inj this).2)
      · exact fun hq => hzp (prefix_entry_iff.mp hq).symm

theorem store_place (ha : d.Addresses P x) (hS : src.At S) :
    Moves (PlaceFree d.host P) (d.store src x.val) := by
  refine Moves.bind ?_ (fun _ => Moves.ite (Moves.pure _) ?_)
  · refine Moves.bind (fun w => ?_) (fun _ => Moves.pure _)
    exact PlaceFree.of_same (remote_process_left ha.literal_test (Prod.eta _).symm).test_f
  refine Moves.bind (fun w => ?_) (fun _ => Moves.bind (fun w => ?_) (fun _ =>
    Moves.bind (send_meta_place ha hS) (fun _ => Moves.bind (mv_place ha) (fun _ => Moves.pure _))))
  · have hc := mkdir_p_moves ha w
    refine PlaceFree.of_confined (x := x) (hc.mono Set.subset_union_left) (fun hp => ?_)
    rwa [FileTree.isDir_congr (hc.kind _ _ (toward_building _))]
  · refine PlaceFree.of_confined ((rsync_directory_moves ha hS w).mono Set.subset_union_right)
      (fun hp => ?_)
    rwa [FileTree.isDir_congr (rsync_directory_keeps ha hS w [META_FILENAME] (by simp))]

namespace Tidy

/-- What building leaves, the place of the manifest aside. -/
theorem building (ht : Tidy d.host P w) (hx : Listable x)
    (hc : Confined (SSHDestination.building d.host P x) w w')
    (hplace : PlaceFree d.host P w w') : Tidy d.host P w' := by
  have hkind : ∀ z, z ≠ partialName x → ∀ r, (w'.tree (some d.host)).kind (P ++ [z] ++ r) =
      (w.tree (some d.host)).kind (P ++ [z] ++ r) := fun z hz r =>
    hc.kind _ _ (other_notMem_building hz r)
  refine ⟨fun z r hz => ?_, fun z hz hs => ?_, hplace ht.manifest⟩
  · by_cases hzp : z = partialName x
    · rw [hzp]
      exact listable_partialName.mpr hx
    · exact ht.names z r (by rwa [← hkind z hzp])
  · have hzp := plain_ne_partialName (y := x) hs
    have hroot := hkind z hzp []
    rw [List.append_nil] at hroot
    rw [FileTree.isFile_congr (hkind z hzp _)]
    exact ht.marked z (by rwa [← FileTree.isDir_congr hroot]) hs

theorem store (ha : d.Addresses P x) (hx : Listable x) (hsrc : SourceDir w.fs S src)
    (ht : Tidy d.host P w) : Tidy d.host P (exec (d.store src x.val) w).2 := by
  have hplace := store_place ha hsrc.leads w
  rcases store_cases ha src (Prod.eta (exec (d.store src x.val) w)).symm with
    ⟨hsame, -⟩ | ⟨v, hv, htransfer, -⟩
  · exact ht.congr (fun z r => by rw [hsame.tree])
  rcases transfer_cases ha hsrc.leads htransfer with ⟨hc, -⟩ | ⟨u, hc, hmoved, hsends⟩
  · exact ht.building hx (trans_of _ (hv.confined _) hc) hplace
  have hcu := trans_of (Confined (SSHDestination.building d.host P x)) (hv.confined _) hc
  have hkind : ∀ z, z ≠ partialName x → ∀ r, (u.tree (some d.host)).kind (P ++ [z] ++ r) =
      (w.tree (some d.host)).kind (P ++ [z] ++ r) := fun z hz r =>
    hcu.kind _ _ (other_notMem_building hz r)
  have hroot : ∀ z, z ≠ partialName x → (u.tree (some d.host)).kind (P ++ [z]) =
      (w.tree (some d.host)).kind (P ++ [z]) := fun z hz => by simpa using hkind z hz []
  rcases hmoved with htakes | hnests
  · have hother : ∀ z, z ≠ x → z ≠ partialName x → ∀ r,
        ((exec (d.store src x.val) w).2.tree (some d.host)).kind (P ++ [z] ++ r) =
          (w.tree (some d.host)).kind (P ++ [z] ++ r) := fun z hzx hzp r =>
      (htakes.kind_other hzx hzp r).trans (hkind z hzp r)
    refine ⟨fun z r hz => ?_, fun z hz hs => ?_, hplace ht.manifest⟩
    · by_cases hzx : z = x
      · rwa [hzx]
      · by_cases hzp : z = partialName x
        · rw [hzp]
          exact listable_partialName.mpr hx
        · exact ht.names z r (by rwa [← hother z hzx hzp])
    · by_cases hzx : z = x
      · -- the manifest came with the directory
        subst hzx
        obtain ⟨data, hdata⟩ := hsrc.manifest
        refine (FileTree.isFile_iff _ _).mpr ⟨data, ?_⟩
        rw [htakes.kind_final]
        exact hsends data (by rw [hv.fs]; exact hdata) (by rw [hv.tree]; exact ht.manifest _)
      · have hzp := plain_ne_partialName (y := x) hs
        rw [FileTree.isFile_congr (hother z hzx hzp _)]
        have hsame := hother z hzx hzp []
        rw [List.append_nil] at hsame
        exact ht.marked z (by rwa [← FileTree.isDir_congr hsame]) hs
  · have hout : ∀ q, (∀ r, q ≠ P ++ [x] ++ [partialName x] ++ r) → ¬ P ++ [partialName x] <+: q →
        ((exec (d.store src x.val) w).2.tree (some d.host)).kind q =
          (u.tree (some d.host)).kind q := fun q hq hp =>
      hnests.kind_of_outside (fun ⟨r, hr⟩ => hq r hr.symm) hp
    refine ⟨fun z r hz => ?_, fun z hz hs => ?_, hplace ht.manifest⟩
    · by_cases hzx : z = x
      · rwa [hzx]
      · by_cases hzp : z = partialName x
        · rw [hzp]
          exact listable_partialName.mpr hx
        · refine ht.names z r ?_
          rwa [← hkind z hzp,
            ← hout _ (fun r' he => ?_) (fun hq => hzp (prefix_entry_iff.mp hq).symm)]
          rw [List.append_assoc, List.append_assoc, List.append_assoc] at he
          exact hzx (by simpa using (List.cons.inj (List.append_cancel_left he)).1)
    · have hzp := plain_ne_partialName (y := x) hs
      have hzout : ∀ l : Loc, l = [] ∨ l = [META_FILENAME] →
          ((exec (d.store src x.val) w).2.tree (some d.host)).kind (P ++ [z] ++ l) =
            (w.tree (some d.host)).kind (P ++ [z] ++ l) := by
        intro l hl
        rw [hout _ (fun r he => ?_) (fun hq => hzp (prefix_entry_iff.mp hq).symm), hkind z hzp]
        rw [List.append_assoc, List.append_assoc, List.append_assoc] at he
        have hcons := List.cons.inj (List.append_cancel_left he)
        rcases hl with rfl | rfl
        · exact absurd hcons.2 (by simp)
        · exact partialName_ne_meta x (by simpa using (List.cons.inj hcons.2).1.symm)
      have hz0 := hzout [] (.inl rfl)
      rw [List.append_nil] at hz0
      rw [FileTree.isFile_congr (hzout _ (.inr rfl))]
      exact ht.marked z (by rwa [← FileTree.isDir_congr hz0]) hs

end Tidy

/-- What may be stored and deleted: ids that are listed. -/
theorem History.tidy (hp : d.path.path.At P) (hpath : Literal d.remote_path)
    (h : History d P Listable (ManifestNotAlone d P) w) : Tidy d.host P w := by
  induction h with
  | start hempty => exact Tidy.start hempty
  | store _ hx hsrc ih => exact ih.store ⟨hp, hpath, hx.literal⟩ hx hsrc
  | delete _ hx hcut ih => exact ih.delete ⟨hp, hpath, hx.literal⟩ hcut
  | elsewhere _ hkind ih =>
    exact ih.congr (fun z r => hkind _ ⟨[z] ++ r, by simp⟩)

theorem Tidy.listable (ht : Tidy d.host P w) {z : Name}
    (hz : (w.tree (some d.host)).kind (P ++ [z]) = some .dir) : Listable z :=
  ht.names z [] (by rw [List.append_nil, hz]; simp)

/-- The id that the script prints for a directory that is listed, and what its removal takes. -/
theorem Tidy.classified (ht : Tidy d.host P w) {z : Name}
    (hz : (w.tree (some d.host)).kind (P ++ [z]) = some .dir) :
    ∃ complete, ∃ y : Name, classified (w.tree (some d.host)) P z = some (complete, y.val) ∧
      Listable y ∧ (z = y ∨ z = partialName y) := by
  have hlist := ht.listable hz
  cases hfile : (w.tree (some d.host)).isFile (P ++ [z] ++ [META_FILENAME]) with
  | true => exact ⟨true, z, by rw [SSHDestination.classified, if_pos hfile], hlist, .inl rfl⟩
  | false =>
    cases hs : stripSuffix PARTIAL_SUFFIX z.val with
    | none =>
      rw [ht.marked z ((FileTree.isDir_iff _ _).mpr hz) hs] at hfile
      cases hfile
    | some s =>
      obtain ⟨y, rfl, hy⟩ := hlist.exists_id hs
      refine ⟨false, y, ?_, listable_partialName.mp (hy ▸ hlist), .inr hy⟩
      rw [SSHDestination.classified, if_neg (ne_true_of_eq_false hfile), hs]
      rfl

/-- A listing that returned is what the script printed, read back. -/
theorem list_backups_parses {v v' : World} {stored : List StoredBackup} (hp : d.path.path.At P)
    (hpath : Literal d.remote_path) (h : exec d.list_backups v = (.ok stored, v')) :
    parse_list_output (if (v.tree (some d.host)).isDir P then
      listOutput d.node.shell (v.tree (some d.host)) P else "") = .ok stored := by
  have hlist : (RemoteCommand.list d.path).Literal := fun q hq => by
    rw [List.mem_singleton.mp hq]
    exact hpath
  obtain ⟨proc, u, hu, hparse⟩ := exec_bind_eq_ok h
  rcases remote_run_cases hlist hu with ⟨s, -, -, hres⟩ | ⟨-, e, he⟩
  · have hstdout : (RemoteCommand.full d.node d.host v.next s (.list d.path)).stdout =
        if (v.tree (some d.host)).isDir P then
          listOutput d.node.shell (v.tree (some d.host)) P else "" := by
      simp only [RemoteCommand.full, World.tree_next, hp.find]
      rfl
    rw [Except.ok.inj hres, hstdout] at hparse
    generalize (if (v.tree (some d.host)).isDir P then
      listOutput d.node.shell (v.tree (some d.host)) P else "") = stdout at hparse ⊢
    cases hval : parse_list_output stdout with
    | error e =>
      rw [hval] at hparse
      cases hparse
    | ok xs =>
      rw [hval] at hparse
      rw [(exec_pure_eq_ok hparse).1]
  · cases he

theorem list_backups_ok {v v' : World} {stored : List StoredBackup} (hp : d.path.path.At P)
    (hpath : Literal d.remote_path) (h : exec d.list_backups v = (.ok stored, v'))
    (hdir : (v.tree (some d.host)).isDir P = true) :
    parse_list_output (listOutput d.node.shell (v.tree (some d.host)) P) = .ok stored := by
  have hparse := list_backups_parses hp hpath h
  rwa [if_pos hdir] at hparse

/-- Nothing is listed of a path that is no directory. -/
theorem list_backups_absent {v v' : World} {stored : List StoredBackup} (hp : d.path.path.At P)
    (hpath : Literal d.remote_path) (h : exec d.list_backups v = (.ok stored, v'))
    (hdir : ¬ (v.tree (some d.host)).isDir P = true) : stored = [] := by
  have hparse := list_backups_parses hp hpath h
  rw [if_neg hdir] at hparse
  exact (Except.ok.inj hparse).symm

/-- Every directory that is listed has a line that the shell writes as it is. -/
theorem Tidy.echoes (ht : Tidy d.host P w) :
    ∀ z ∈ globbed (w.tree (some d.host)) P, Echoes d.node.shell (w.tree (some d.host)) P z := by
  intro z hz
  apply echoes_of_no_backslash
  intro hslash
  have hlive := (ht.listable (mem_globbed.mp hz).1).literal _ hslash
  revert hlive
  decide

theorem Tidy.oneField (ht : Tidy d.host P w) :
    ∀ z ∈ globbed (w.tree (some d.host)) P, OneField z.val.toList := by
  intro z hz
  exact oneField_of_no_space (ht.listable (mem_globbed.mp hz).1).space

/-- In a tidy destination every directory is in the listing. -/
theorem Tidy.listed (ht : Tidy d.host P w) {stored : List StoredBackup}
    (h : parse_list_output (listOutput d.node.shell (w.tree (some d.host)) P) = .ok stored)
    {z : Name} (hz : (w.tree (some d.host)).kind (P ++ [z]) = some .dir) :
    ∃ b ∈ stored, ∃ y : Name, b.backup_id = y.val ∧ Listable y ∧ (z = y ∨ z = partialName y) := by
  obtain ⟨complete, y, hc, hlist, hy⟩ := ht.classified hz
  have hglob : z ∈ globbed (w.tree (some d.host)) P := mem_globbed.mpr ⟨hz, (ht.listable hz).dot⟩
  rw [parse_list_output, splitlines_listOutput ht.echoes ht.oneField] at h
  obtain ⟨r, hr, hmem⟩ := mem_of_parse_list_lines h
    (List.mem_filterMap.mpr ⟨z, hglob, by rw [hc]; rfl⟩)
  obtain ⟨b, hb, hid, -⟩ := record_of_parse (c := (complete, y.val))
    (oneField_of_no_space hlist.space) hr
  exact ⟨b, hmem b hb, y, hid, hlist, hy⟩

/-- After any history whose removals never take a manifest alone, a listing that returns has, for
every directory of the remote path, an id whose removal leaves nothing of it; and the listing
returns
when `ssh` answers and every time in it has a reading. -/
theorem nothing_unreachable (hp : d.path.path.At P) (hpath : Literal d.remote_path)
    (h : History d P Listable (ManifestNotAlone d P) w)
    (hdir : (w.tree (some d.host)).isDir P = true) {v : World} (hv : v.tree = w.tree) :
    (∀ stored v', exec d.list_backups v = (.ok stored, v') →
      ∀ z, (w.tree (some d.host)).kind (P ++ [z]) = some .dir →
        ∃ b ∈ stored, ∀ u u', exec (d.delete b.backup_id) u = (.ok (), u') →
          ∀ r, (u'.tree (some d.host)).kind (P ++ [z] ++ r) = none) ∧
      (d.Launches (.list d.path) → (v.tape 0).fault = none → (v.tape 0).status = 0 →
        (∀ z ∈ globbed (w.tree (some d.host)) P,
          Representable (reading d.node.shell (w.tree (some d.host)) P z * 1000000)) →
        ∃ stored, (exec d.list_backups v).1 = .ok stored) := by
  have ht := h.tidy hp hpath
  constructor
  · intro stored v' hlist z hz
    have hparse := list_backups_ok hp hpath hlist (by rwa [hv])
    rw [hv] at hparse
    obtain ⟨b, hb, y, hid, hlistable, hzy⟩ := ht.listed hparse hz
    refine ⟨b, hb, fun u u' hdelete r => ?_⟩
    rw [hid] at hdelete
    exact delete_ok ⟨hp, hpath, hlistable.literal⟩ hdelete hzy r
  · intro hlaunch hfault hstatus hdated
    rw [list_backups_answered hp hpath hlaunch hfault hstatus (by rwa [hv]), hv]
    exact ⟨_, parse_list_output_dated ht.echoes ht.oneField (fun z hz _ => hdated z hz)⟩

/-- The removal of `x` is cut off after it took the manifest. -/
def cutOff (w : World) : World :=
  { w with tape := fun n =>
      if n = 0 then
        { Reply.good 0 with status := 255, paths := [[entry "b", entry "x"] ++ [META_FILENAME]] }
      else Reply.good 0 }

theorem cutOff_tree (w : World) : (cutOff w).tree = w.tree := rfl

/-- The worlds that a store and a removal of `x` on the small remote destination lead to. -/
theorem smallRemote_history {Cut : Name → World → Prop} {w : World}
    (hempty : ∀ q, [entry "b"] <+: q → q ≠ [entry "b"] →
      (w.tree (some smallRemote.host)).kind q = none)
    (hsrc : SourceDir w.fs [entry "w", entry "x"] (Path.configured [] (PurePath.parse "/w/x"))) :
    History smallRemote [entry "b"] Listable Cut (smallStored w) ∧
      ∀ v : World, v.tree = (smallStored w).tree → Cut (entry "x") v →
        History smallRemote [entry "b"] Listable Cut (exec (smallRemote.delete "x") v).2 := by
  have hx : Listable (entry "x") := ⟨by decide, by decide, by decide⟩
  have hstored : History smallRemote [entry "b"] Listable Cut (smallStored w) :=
    History.store (x := entry "x") (.start hempty) hx hsrc
  refine ⟨hstored, fun v hv hcut => ?_⟩
  have hv' : History smallRemote [entry "b"] Listable Cut v :=
    .elsewhere hstored (fun q _ => by rw [hv])
  exact History.delete (x := entry "x") hv' hx hcut

theorem freshWorld_empty : ∀ q, [entry "b"] <+: q → q ≠ [entry "b"] →
    (freshWorld.tree (some smallRemote.host)).kind q = none := by
  have hlocs : ∀ q ∈ smallTree.locs, [entry "b"] <+: q → q = [entry "b"] := by decide
  intro q hq hne
  by_contra hk
  exact hne (hlocs q (smallTree.finite _ (fun hn => hk (by
    change smallTree.kind q = none
    rw [FileTree.kind, hn]
    rfl))) hq)

/-- The directory is left without its manifest and without a line in the listing. -/
theorem directory_unreachable :
    ∃ w, History smallRemote [entry "b"] Listable (fun _ _ => True) w ∧
      (w.tree (some smallRemote.host)).kind [entry "b", entry "x"] = some .dir ∧
      (exec smallRemote.list_backups w).1 = .ok [] := by
  refine ⟨(exec (smallRemote.delete "x") (cutOff (smallStored freshWorld))).2, ?_, ?_, ?_⟩
  · exact (smallRemote_history freshWorld_empty freshWorld_source).2 _
      (cutOff_tree (smallStored freshWorld)) trivial
  · decide +kernel
  · rw [smallRemote_lists (by decide +kernel) (by decide +kernel) (by decide +kernel)]
    decide +kernel

abbrev SmallHistory : World → Prop :=
  History smallRemote [entry "b"] Listable (ManifestNotAlone smallRemote [entry "b"])

theorem SmallHistory.store {w : World} (h : SmallHistory w) {x : Name} (hx : Listable x)
    {backup_id : String} (hid : x.val = backup_id)
    (hdir : w.fs.kind [entry "w", entry "x"] = some .dir)
    (hmeta : w.fs.kind [entry "w", entry "x", META_FILENAME] = some (.file "")) :
    SmallHistory (storeUnder smallRemote.toDestination backup_id w) := by
  subst hid
  exact History.store h hx ⟨freshWorld_source.leads, hdir, "", hmeta⟩

theorem SmallHistory.delete {w : World} (h : SmallHistory w) {x : Name} (hx : Listable x)
    {backup_id : String} (hid : x.val = backup_id)
    (hfault : (w.tape 0).fault = none) (hstatus : (w.tape 0).status = 0) :
    SmallHistory (deleteUnder smallRemote.toDestination backup_id w) := by
  subst hid
  exact History.delete h hx (fun hcut => absurd hcut (by simp [hfault, hstatus]))

/-- After two stores and the deletion of the first the second is listed, and can be removed. -/
theorem nothing_unreachable_three :
    ((threeDeeds smallRemote.toDestination freshWorld).tree (some "vault")).kind
        ([entry "b"] ++ [entry "y"]) = some .dir ∧
      ∃ stored, (exec smallRemote.list_backups
        (threeDeeds smallRemote.toDestination freshWorld)).1 = .ok stored ∧
        ∃ b ∈ stored, ∀ u u', exec (smallRemote.delete b.backup_id) u = (.ok (), u') →
          ∀ r, (u'.tree (some "vault")).kind ([entry "b"] ++ [entry "y"] ++ r) = none := by
  have hx : Listable (entry "x") := ⟨by decide, by decide, by decide⟩
  have hy : Listable (entry "y") := ⟨by decide, by decide, by decide⟩
  have hfirst := SmallHistory.store (.start freshWorld_empty) hx rfl (by decide) (by decide)
  have hsecond := hfirst.delete hx rfl (by decide +kernel) (by decide +kernel)
  have hthird : SmallHistory (threeDeeds smallRemote.toDestination freshWorld) :=
    hsecond.store hy rfl (by decide +kernel) (by decide +kernel)
  have hdir : ((threeDeeds smallRemote.toDestination freshWorld).tree (some "vault")).kind
      ([entry "b"] ++ [entry "y"]) = some .dir := by
    decide +kernel
  have hroot : ((threeDeeds smallRemote.toDestination freshWorld).tree (some "vault")).isDir
      [entry "b"] = true := by
    decide +kernel
  have hlist : ∃ stored, (exec smallRemote.list_backups
      (threeDeeds smallRemote.toDestination freshWorld)).1 = .ok stored := by
    refine ⟨[⟨"y", true, Datetime.utc 1700000000000000⟩], ?_⟩
    rw [smallRemote_lists (by decide +kernel) (by decide +kernel) hroot]
    decide +kernel
  generalize threeDeeds smallRemote.toDestination freshWorld = w at *
  obtain ⟨stored, hstored⟩ := hlist
  have hall := nothing_unreachable (v := w) smallRemote_at (by decide) hthird hroot rfl
  exact ⟨hdir, stored, hstored, hall.1 stored _ (exec_of_ok hstored) (entry "y") hdir⟩

end SSHDestination

end MbKeeper
