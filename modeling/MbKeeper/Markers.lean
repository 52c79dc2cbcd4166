import MbKeeper.ListRoundTrip
import MbKeeper.SshHistory

/-!
# The manifest as a marker

A generation counts as complete when its directory holds the manifest, which a
store copies last. `Truthful` says what the marker promises: whatever it marks
has every file it had when it was committed. A call keeps this when everything
it leaves marked was marked before and has lost no file, or was committed by
the call itself. A store always does so, wherever it stops; a removal does
unless it is cut short with files gone and the manifest still there.
-/
namespace MbKeeper

section

variable {h : Option String} {P : Loc} {x z : Name} {w w' : World}

/-- The last directory that took the name `x` in the directory `P` of the host `h`. -/
def lastCommit (h : Option String) (P : Loc) (x : Name) (w : World) : Option Commit :=
  w.commits.reverse.find? (fun c => c.host = h ∧ c.loc = P ++ [x])

theorem lastCommit_congr (hc : w'.commits = w.commits) (x : Name) :
    lastCommit h P x w' = lastCommit h P x w := by rw [lastCommit, hc, lastCommit]

theorem lastCommit_append {content : Loc → Option (Kind String)}
    (hc : w'.commits = w.commits ++ [⟨h, P ++ [x], content⟩]) (z : Name) :
    lastCommit h P z w' = if z = x then some ⟨h, P ++ [x], content⟩ else lastCommit h P z w := by
  rw [lastCommit, hc, List.reverse_append, List.reverse_singleton, List.singleton_append,
    List.find?_cons]
  by_cases hzx : z = x
  · simp [hzx]
  · have hne : ¬ P ++ [x] = P ++ [z] := fun he => hzx (by simpa using he.symm)
    simp [hzx, hne, lastCommit]

/-- The entry `x` has every file it had when it was last committed. -/
def Whole (h : Option String) (P : Loc) (w : World) (x : Name) : Prop :=
  ∃ c, lastCommit h P x w = some c ∧ ∀ r data, c.content r = some (.file data) →
    (w.tree h).kind (P ++ [x] ++ r) = some (.file data)

/-- Every entry that the manifest marks is whole; the names with the suffix are never final. -/
def Truthful (h : Option String) (P : Loc) (w : World) : Prop :=
  ∀ z, stripSuffix PARTIAL_SUFFIX z.val = none →
    (w.tree h).isFile (P ++ [z] ++ [META_FILENAME]) = true → Whole h P w z

/-- The entry `z` was marked before and has lost no file. -/
structure Carried (h : Option String) (P : Loc) (z : Name) (w w' : World) : Prop where
  marked : (w.tree h).isFile (P ++ [z] ++ [META_FILENAME]) = true
  files : ∀ r data, (w.tree h).kind (P ++ [z] ++ r) = some (.file data) →
    (w'.tree h).kind (P ++ [z] ++ r) = some (.file data)
  commit : lastCommit h P z w' = lastCommit h P z w

/-- The entry `z` is the directory that was committed last. -/
def Fresh (h : Option String) (P : Loc) (z : Name) (w' : World) : Prop :=
  ∃ content, lastCommit h P z w' = some ⟨h, P ++ [z], content⟩ ∧
    ∀ r, (w'.tree h).kind (P ++ [z] ++ r) = content r

/-- What a call leaves marked it has carried over or committed. -/
def Upholds (h : Option String) (P : Loc) (w w' : World) : Prop :=
  ∀ z, stripSuffix PARTIAL_SUFFIX z.val = none →
    (w'.tree h).isFile (P ++ [z] ++ [META_FILENAME]) = true →
      Carried h P z w w' ∨ Fresh h P z w'

theorem Carried.of_kind (hmarked : (w'.tree h).isFile (P ++ [z] ++ [META_FILENAME]) = true)
    (hkind : ∀ r, (w'.tree h).kind (P ++ [z] ++ r) = (w.tree h).kind (P ++ [z] ++ r))
    (hcommit : lastCommit h P z w' = lastCommit h P z w) : Carried h P z w w' where
  marked := by rwa [← FileTree.isFile_congr (hkind [META_FILENAME])]
  files r data hr := by rw [hkind, hr]
  commit := hcommit

theorem Truthful.upholds (ht : Truthful h P w) (hu : Upholds h P w w') : Truthful h P w' := by
  intro z hz hmarked
  rcases hu z hz hmarked with hc | ⟨content, hlast, hkind⟩
  · obtain ⟨c, hlast, hfiles⟩ := ht z hz hc.marked
    exact ⟨c, hc.commit.trans hlast, fun r data hr => hc.files r data (hfiles r data hr)⟩
  · refine ⟨_, hlast, fun r data hr => ?_⟩
    rw [hkind]
    exact hr

namespace Upholds

/-- Where the entries without the suffix stay as they are. -/
theorem of_kind (hkind : ∀ z, stripSuffix PARTIAL_SUFFIX z.val = none → ∀ r,
      (w'.tree h).kind (P ++ [z] ++ r) = (w.tree h).kind (P ++ [z] ++ r))
    (hcommits : w'.commits = w.commits) : Upholds h P w w' := fun z hz hmarked =>
  .inl (Carried.of_kind hmarked (hkind z hz) (lastCommit_congr hcommits z))

/-- Where `x` was committed and the other entries stay as they are. -/
theorem of_commit {content : Loc → Option (Kind String)}
    (hkind : ∀ z, z ≠ x → stripSuffix PARTIAL_SUFFIX z.val = none → ∀ r,
      (w'.tree h).kind (P ++ [z] ++ r) = (w.tree h).kind (P ++ [z] ++ r))
    (hcontent : ∀ r, (w'.tree h).kind (P ++ [x] ++ r) = content r)
    (hcommits : w'.commits = w.commits ++ [⟨h, P ++ [x], content⟩]) : Upholds h P w w' := by
  intro z hz hmarked
  have hlast := lastCommit_append hcommits z
  by_cases hzx : z = x
  · subst hzx
    rw [if_pos rfl] at hlast
    exact .inr ⟨content, hlast, hcontent⟩
  · rw [if_neg hzx] at hlast
    exact .inl (Carried.of_kind hmarked (hkind z hzx hz) hlast)

end Upholds

/-- What is left of the directory `l` when it was `t` has its files or lacks the manifest. -/
def ManifestFirst (t t' : Fs) (l : Loc) : Prop :=
  t'.isFile (l ++ [META_FILENAME]) = true →
    ∀ r data, t.kind (l ++ r) = some (.file data) → t'.kind (l ++ r) = some (.file data)

/-- A removal within the two directories of `x`. -/
theorem Upholds.of_removes (hr : Removes (below h (P ++ [x]) ∪ below h (P ++ [partialName x])) w w')
    (hfirst : stripSuffix PARTIAL_SUFFIX x.val = none →
      ManifestFirst (w.tree h) (w'.tree h) (P ++ [x])) : Upholds h P w w' := by
  intro z hz hmarked
  have hcommit := lastCommit_congr (h := h) (P := P) hr.commits z
  by_cases hzx : z = x
  · subst hzx
    refine .inl ⟨?_, hfirst hz hmarked, hcommit⟩
    obtain ⟨data, hdata⟩ := (FileTree.isFile_iff _ _).mp hmarked
    exact (FileTree.isFile_iff _ _).mpr ⟨data, hr.kind_of_some hdata⟩
  · refine .inl (Carried.of_kind hmarked (fun r => hr.kind _ _ ?_) hcommit)
    rintro (⟨-, hq⟩ | ⟨-, hq⟩)
    · exact hzx (prefix_entry_iff.mp hq).symm
    · exact plain_ne_partialName hz (prefix_entry_iff.mp hq).symm

/-- The worlds reached from an empty directory by calls, with other things happening elsewhere. -/
inductive Calls (h : Option String) (P : Loc) (Call : World → World → Prop) : World → Prop where
  | start {w : World} (hempty : ∀ q, P <+: q → q ≠ P → (w.tree h).kind q = none)
      (hnone : ∀ z, lastCommit h P z w = none) : Calls h P Call w
  | call {w w' : World} (hw : Calls h P Call w) (hcall : Call w w') : Calls h P Call w'
  | elsewhere {w w' : World} (hw : Calls h P Call w)
      (hkind : ∀ q, P <+: q → (w'.tree h).kind q = (w.tree h).kind q)
      (hcommits : ∀ z, lastCommit h P z w' = lastCommit h P z w) : Calls h P Call w'

variable {Call : World → World → Prop}

/-- What calls uphold holds throughout. -/
theorem Calls.truthful (hcall : ∀ w w', Call w w' → Upholds h P w w') (hw : Calls h P Call w) :
    Truthful h P w := by
  induction hw with
  | start hempty _ =>
    intro z _ hmarked
    obtain ⟨data, hdata⟩ := (FileTree.isFile_iff _ _).mp hmarked
    rw [hempty _ ⟨[z, META_FILENAME], by simp⟩ (by simp)] at hdata
    cases hdata
  | call _ hc ih => exact ih.upholds (hcall _ _ hc)
  | elsewhere _ hkind hcommits ih =>
    refine ih.upholds (fun z _ hmarked => .inl (Carried.of_kind hmarked (fun r => ?_) (hcommits z)))
    exact hkind _ ⟨[z] ++ r, by simp⟩

/-- Only what calls put there has a name. -/
theorem Calls.named {Good : Name → Prop}
    (hcall : ∀ w w', Call w w' → ∀ z, Good z ∨ ∀ r,
      (w'.tree h).kind (P ++ [z] ++ r) ≠ none → (w.tree h).kind (P ++ [z] ++ r) ≠ none)
    (hw : Calls h P Call w) {r : Loc} (hz : (w.tree h).kind (P ++ [z] ++ r) ≠ none) : Good z := by
  induction hw with
  | start hempty _ => exact absurd (hempty _ ⟨[z] ++ r, by simp⟩ (by simp)) hz
  | call _ hc ih => exact (hcall _ _ hc z).elim id (fun hback => ih (hback r hz))
  | elsewhere _ hkind _ ih =>
    rw [hkind _ ⟨[z] ++ r, by simp⟩] at hz
    exact ih hz

/-- A name that no call commits is never committed. -/
theorem Calls.uncommitted (hcall : ∀ w w', Call w w' → lastCommit h P z w' = lastCommit h P z w)
    (hw : Calls h P Call w) : lastCommit h P z w = none := by
  induction hw with
  | start _ hnone => exact hnone z
  | call _ hc ih => exact (hcall _ _ hc).trans ih
  | elsewhere _ _ hcommits ih => exact (hcommits z).trans ih

end

namespace LocalDestination

variable {d : LocalDestination} {P : Loc} {x : Name} {w : World}

theorem store_upholds (hp : d.path.At P) (x : Name) (src : Path) (w : World) :
    Upholds none P w (exec (d.store src x.val) w).2 := by
  have hout : ∀ {u : World}, Confined (building P x) w u → ∀ z,
      stripSuffix PARTIAL_SUFFIX z.val = none → ∀ r,
        (u.tree none).kind (P ++ [z] ++ r) = (w.tree none).kind (P ++ [z] ++ r) := by
    intro u hb z hz r
    apply hb.kind
    rintro (⟨-, hq⟩ | ⟨-, hq⟩)
    · have := hq.length_le
      simp only [List.length_append, List.length_singleton] at this
      omega
    · exact plain_ne_partialName hz (prefix_entry_iff.mp hq).symm
  rcases store_cases hp (Prod.eta (exec (d.store src x.val) w)).symm with
    ⟨hsame, -⟩ | ⟨-, ⟨hb, -⟩ | ⟨u, hc, -⟩⟩
  · exact Upholds.of_kind (fun z _ r => by rw [hsame.tree]) hsame.commits
  · exact Upholds.of_kind (hout hb) hb.commits
  · obtain ⟨s, htree⟩ := hc.tree
    have hmove : (exec (d.store src x.val) w).2.tree none =
        (u.tree none).move (P ++ [partialName x]) (P ++ [x]) s := by
      rw [htree]
      exact World.fs_setTree_none u _
    refine Upholds.of_commit (fun z hzx hz r => ?_) (fun r => ?_) hc.commits
    · rw [hmove, FileTree.kind_move_of_outside]
      · exact hout hc.building z hz r
      · exact fun hq => hzx (prefix_entry_iff.mp hq).symm
      · exact fun hq => plain_ne_partialName hz (prefix_entry_iff.mp hq).symm
    · rw [hmove, FileTree.kind_move_append]
      rfl

/-- A removal of `x` that the system cuts short takes the manifest before it takes a file. -/
def CutFirst (P : Loc) (x : Name) (w : World) : Prop :=
  (w.tape 1).fault ≠ none → stripSuffix PARTIAL_SUFFIX x.val = none →
    ManifestFirst w.fs (w.fs.unlinkAll
      ((w.tape 1).paths.filter (fun q => P ++ [x] <+: q ∧ q ≠ [])) (w.tape 1).stamp) (P ++ [x])

theorem rmtree_first {p : Path} {l : Loc} (hp : p.At l) {w : World}
    (hcut : (w.tape 0).fault ≠ none → ManifestFirst w.fs (w.fs.unlinkAll
      ((w.tape 0).paths.filter (fun q => l <+: q ∧ q ≠ [])) (w.tape 0).stamp) l) :
    ManifestFirst w.fs (exec (rmtree p false) w).2.fs l := by
  intro hmarked r data hr
  rw [rmtree, exec_primitive, World.fs_next, hp.find] at hmarked ⊢
  dsimp only at hmarked ⊢
  have hgone : ∀ {t : Fs}, t.kind (l ++ [META_FILENAME]) = none →
      t.isFile (l ++ [META_FILENAME]) ≠ true := by
    intro t ht hfile
    obtain ⟨data, hdata⟩ := (FileTree.isFile_iff _ _).mp hfile
    rw [ht] at hdata
    cases hdata
  have hclear : (w.fs.clear l (w.tape 0).stamp).kind (l ++ [META_FILENAME]) = none := by
    rw [FileTree.kind_clear, if_pos ⟨List.prefix_append _ _, by simp⟩]
  by_cases hdir : w.fs.isDir l = true
  · rw [if_pos hdir] at hmarked ⊢
    cases hf : (w.tape 0).fault with
    | some e =>
      rw [hf] at hmarked
      dsimp only at hmarked ⊢
      rw [World.fs_setTree_none] at hmarked ⊢
      exact hcut (by simp [hf]) hmarked r data hr
    | none =>
      rw [hf] at hmarked
      refine absurd hmarked (hgone ?_)
      dsimp only
      split_ifs
      · rw [World.fs_setTree_none, FileTree.kind_removeTree, if_pos (List.prefix_append _ _)]
      · rw [World.fs_setTree_none]
        exact hclear
  · rw [if_neg hdir]
    exact hr

theorem delete_upholds (hp : d.path.At P) (hcut : CutFirst P x w) :
    Upholds none P w (exec (d.delete x.val) w).2 := by
  have hrem := d.delete_removes x.val w
  rw [delete_spots hp] at hrem
  refine Upholds.of_removes hrem (fun hx hmarked r data hr => ?_)
  -- the second name has nothing to do with the first
  have hsecond : ∀ v q, (exec (d.delete_name (x.val ++ PARTIAL_SUFFIX)) v).2.fs.kind
      (P ++ [x] ++ q) = v.fs.kind (P ++ [x] ++ q) := by
    intro v q
    have hname := d.delete_name_removes (partialName x).val v
    rw [(hp.join (partialName x)).loc_eq] at hname
    refine hname.fs_kind ?_
    rintro ⟨-, hq⟩
    exact partialName_ne x (prefix_entry_iff.mp hq)
  have hfirst : ∀ q, (exec (d.delete x.val) w).2.fs.kind (P ++ [x] ++ q) =
      (exec (d.delete_name x.val) w).2.fs.kind (P ++ [x] ++ q) := by
    intro q
    rw [delete, exec_bind]
    rcases exec (d.delete_name x.val) w with ⟨e | _, v⟩
    · rfl
    · exact hsecond v q
  change (exec (d.delete x.val) w).2.fs.isFile (P ++ [x] ++ [META_FILENAME]) = true at hmarked
  change (exec (d.delete x.val) w).2.fs.kind (P ++ [x] ++ r) = some (.file data)
  rw [FileTree.isFile_congr (hfirst _)] at hmarked
  rw [hfirst]
  rw [delete_name, exec_bind] at hmarked ⊢
  have hsame := (path_exists_reads (hp.join x)).same w
  rcases hask : exec (path_exists (d.path.join x.val)) w with ⟨e | there, v⟩
  · rw [hask] at hsame
    change v.fs.kind (P ++ [x] ++ r) = some (.file data)
    rw [hsame.fs]
    exact hr
  · have hv : v = w.next := by
      have := exec_ask_state (fun _ u => (d.path.join x.val).presentIn u.fs) w
      rw [path_exists] at hask
      rwa [hask] at this
    rw [hask] at hmarked
    cases there with
    | false =>
      change v.fs.kind (P ++ [x] ++ r) = some (.file data)
      rw [hv]
      exact hr
    | true =>
      dsimp only at hmarked ⊢
      rw [if_pos rfl, guarded_state, hv] at hmarked ⊢
      exact rmtree_first (hp.join x) (fun hfault => hcut hfault hx) hmarked r data hr

/-- A store of any id, or a removal of an id with `Cut`. -/
inductive Call (d : LocalDestination) (Cut : Name → World → Prop) : World → World → Prop where
  | store {w : World} (x : Name) (src : Path) : Call d Cut w (exec (d.store src x.val) w).2
  | delete {w : World} {x : Name} (hcut : Cut x w) : Call d Cut w (exec (d.delete x.val) w).2

theorem Call.upholds (hp : d.path.At P) {w w' : World} (h : d.Call (CutFirst P) w w') :
    Upholds none P w w' := by
  cases h with
  | store x src => exact store_upholds hp x src w
  | delete hcut => exact delete_upholds hp hcut

end LocalDestination

namespace SSHDestination

variable {d : SSHDestination} {P S : Loc} {x : Name} {src : Path} {w w' : World}

theorem store_upholds (ha : d.Addresses P x) (hS : src.At S) (w : World) :
    Upholds (some d.host) P w (exec (d.store src x.val) w).2 := by
  have hout : ∀ {u : World}, Confined (building d.host P x) w u → ∀ z,
      stripSuffix PARTIAL_SUFFIX z.val = none → ∀ r,
        (u.tree (some d.host)).kind (P ++ [z] ++ r) = (w.tree (some d.host)).kind (P ++ [z] ++ r) :=
    fun hb z hz r => hb.kind _ _ (other_notMem_building (plain_ne_partialName hz) r)
  rcases store_cases ha src (Prod.eta (exec (d.store src x.val) w)).symm with
    ⟨hsame, -⟩ | ⟨v, hv, htransfer, -⟩
  · exact Upholds.of_kind (fun z _ r => by rw [hsame.tree]) hsame.commits
  have hwv : Confined (building d.host P x) w v := hv.confined _
  rcases transfer_cases ha hS htransfer with ⟨hc, -⟩ | ⟨u, hc, htakes | hnests, -⟩
  · have hb := trans_of (Confined (building d.host P x)) hwv hc
    exact Upholds.of_kind (hout hb) hb.commits
  · have hb := trans_of (Confined (building d.host P x)) hwv hc
    refine Upholds.of_commit (fun z hzx hz r => ?_) htakes.kind_final
      (by rw [htakes.commits, hb.commits])
    rw [htakes.kind_other hzx (plain_ne_partialName hz), hout hb z hz]
  · -- what was built went into a directory of that name, where there was nothing or a directory
    have hb := trans_of (Confined (building d.host P x)) hwv hc
    obtain ⟨hfile, hnone⟩ := FileTree.vacant_iff.mp hnests.vacant
    have hkeep : ∀ z, stripSuffix PARTIAL_SUFFIX z.val = none → ∀ r,
        ¬ P ++ [x] ++ [partialName x] <+: P ++ [z] ++ r →
          ((exec (d.store src x.val) w).2.tree (some d.host)).kind (P ++ [z] ++ r) =
            (w.tree (some d.host)).kind (P ++ [z] ++ r) := by
      intro z hz r hr
      rw [hnests.kind_of_outside hr, hout hb z hz]
      exact fun hq => plain_ne_partialName hz (prefix_entry_iff.mp hq).symm
    intro z hz hmarked
    refine .inl ⟨?_, fun r data hr => ?_, ?_⟩
    · rw [← FileTree.isFile_congr (hkeep z hz [META_FILENAME] (fun hq => ?_))]
      · exact hmarked
      · have hmeta := hq.eq_of_length (by simp)
        exact partialName_ne_meta x (by simpa using List.append_inj_right' hmeta rfl)
    · rw [hkeep z hz r (fun hq => ?_), hr]
      rw [← hout hb z hz] at hr
      by_cases he : P ++ [z] ++ r = P ++ [x] ++ [partialName x]
      · rw [he] at hr
        rw [(FileTree.isFile_iff _ _).mpr ⟨data, hr⟩] at hfile
        cases hfile
      · rw [hnone _ hq he] at hr
        cases hr
    · exact lastCommit_congr (by rw [hnests.commits, hb.commits]) z

/-- A removal of `x` that is cut short by a failure takes the manifest before it takes a file. -/
def CutFirst (d : SSHDestination) (P : Loc) (x : Name) (w : World) : Prop :=
  (w.tape 0).fault ≠ none ∨ (w.tape 0).status ≠ 0 → stripSuffix PARTIAL_SUFFIX x.val = none →
    ManifestFirst (w.tree (some d.host))
      ((RemoteCommand.cut d.node d.host w.next (w.tape 0)
        (.rm_rf (d.final_path x.val) (d.partial_path x.val))).tree (some d.host)) (P ++ [x])

theorem delete_upholds (ha : d.Addresses P x) (hcut : CutFirst d P x w) :
    Upholds (some d.host) P w (exec (d.delete x.val) w).2 := by
  refine Upholds.of_removes (delete_removes ha w) (fun hx hmarked r data hr => ?_)
  rcases delete_state ha w with hw | hgone | ⟨hbad, hw⟩
  · rw [hw]
    exact hr
  · obtain ⟨data', hdata⟩ := (FileTree.isFile_iff _ _).mp hmarked
    rw [hgone x (.inl rfl)] at hdata
    cases hdata
  · rw [hw] at hmarked ⊢
    exact hcut hbad hx hmarked r data hr

/-- An id that is final as a name, that the shell takes as it is written and the listing as one
field. -/
structure PlainId (x : Name) : Prop where
  plain : stripSuffix PARTIAL_SUFFIX x.val = none
  literal : Literal x.val
  field : OneField x.val.toList

/-- A store or a removal of a plain id, a removal with `Cut`. -/
inductive Call (d : SSHDestination) (Cut : Name → World → Prop) : World → World → Prop where
  | store {w : World} {x : Name} (hx : PlainId x) {src : Path} {S : Loc} (hS : src.At S) :
      Call d Cut w (exec (d.store src x.val) w).2
  | delete {w : World} {x : Name} (hx : PlainId x) (hcut : Cut x w) :
      Call d Cut w (exec (d.delete x.val) w).2

theorem Call.upholds (hp : d.path.path.At P) (hpath : Literal d.remote_path)
    (h : d.Call (CutFirst d P) w w') : Upholds (some d.host) P w w' := by
  cases h with
  | store hx hS => exact store_upholds ⟨hp, hpath, hx.literal⟩ hS w
  | delete hx hcut => exact delete_upholds ⟨hp, hpath, hx.literal⟩ hcut

/-- The directory of an id, or the one it is built in. -/
def Entry (z : Name) : Prop := ∃ x, PlainId x ∧ (z = x ∨ z = partialName x)

theorem Entry.field {z : Name} (hz : Entry z) : OneField z.val.toList := by
  obtain ⟨x, hx, rfl | rfl⟩ := hz
  · exact hx.field
  · rw [partialName_toList]
    exact oneField_append.mpr ⟨hx.field, suffix_plainTail.field⟩

theorem Entry.backslash {z : Name} (hz : Entry z) : '\\' ∉ z.val.toList := by
  have hlive : isLive '\\' = true := by decide
  obtain ⟨x, hx, rfl | rfl⟩ := hz
  · intro hmem
    rw [hx.literal _ hmem] at hlive
    cases hlive
  · rw [partialName_toList]
    intro hmem
    rcases List.mem_append.mp hmem with hmem | hmem
    · rw [hx.literal _ hmem] at hlive
      cases hlive
    · exact suffix_plainTail.backslash hmem

/-- A call touches no entry but those of its id. -/
theorem Call.names {Cut : Name → World → Prop} (hp : d.path.path.At P)
    (hpath : Literal d.remote_path) (h : d.Call Cut w w') (z : Name) : Entry z ∨ ∀ r,
      (w'.tree (some d.host)).kind (P ++ [z] ++ r) ≠ none →
        (w.tree (some d.host)).kind (P ++ [z] ++ r) ≠ none := by
  by_cases hz : Entry z
  · exact .inl hz
  refine .inr (fun r hr => ?_)
  cases h with
  | @store x hx src S hS =>
    have ha : d.Addresses P x := ⟨hp, hpath, hx.literal⟩
    have hzx : z ≠ x := fun he => hz ⟨x, hx, .inl he⟩
    have hzp : z ≠ partialName x := fun he => hz ⟨x, hx, .inr he⟩
    have hnot : ¬ P ++ [partialName x] <+: P ++ [z] ++ r := fun hq =>
      hzp (prefix_entry_iff.mp hq).symm
    have hout : ∀ {u v : World}, Confined (building d.host P x) u v →
        (v.tree (some d.host)).kind (P ++ [z] ++ r) = (u.tree (some d.host)).kind (P ++ [z] ++ r) :=
      fun hb => hb.kind _ _ (other_notMem_building hzp r)
    rcases store_cases ha src (Prod.eta (exec (d.store src x.val) w)).symm with
      ⟨hsame, -⟩ | ⟨v, hv, htransfer, -⟩
    · rwa [hsame.tree] at hr
    rcases transfer_cases ha hS htransfer with ⟨hc, -⟩ | ⟨u, hc, htakes | hnests, -⟩
    · rwa [hout hc, hv.tree] at hr
    · rwa [htakes.kind_other hzx hzp, hout hc, hv.tree] at hr
    · rwa [hnests.kind_of_outside (fun hq => ?_) hnot, hout hc, hv.tree] at hr
      exact hzx (prefix_entry_iff.mp ((List.prefix_append _ _).trans hq)).symm
  | @delete x hx hcut =>
    have hrem := delete_removes (d := d) (P := P) (x := x) ⟨hp, hpath, hx.literal⟩ w
    exact hrem.ne_none hr

/-- A building directory is committed under its own name never. -/
theorem Call.uncommitted {Cut : Name → World → Prop} (hp : d.path.path.At P)
    (hpath : Literal d.remote_path) (h : d.Call Cut w w') (y : Name) :
    lastCommit (some d.host) P (partialName y) w' =
      lastCommit (some d.host) P (partialName y) w := by
  cases h with
  | @store x hx src S hS =>
    have ha : d.Addresses P x := ⟨hp, hpath, hx.literal⟩
    rcases store_cases ha src (Prod.eta (exec (d.store src x.val) w)).symm with
      ⟨hsame, -⟩ | ⟨v, hv, htransfer, -⟩
    · exact lastCommit_congr hsame.commits _
    rcases transfer_cases ha hS htransfer with ⟨hc, -⟩ | ⟨u, hc, htakes | hnests, -⟩
    · exact lastCommit_congr (hc.commits.trans hv.commits) _
    · have hcommits := htakes.commits
      rw [hc.commits, hv.commits] at hcommits
      rw [lastCommit_append hcommits, if_neg (plain_ne_partialName hx.plain).symm]
    · exact lastCommit_congr (hnests.commits.trans (hc.commits.trans hv.commits)) _
  | @delete x hx hcut =>
    have hrem := delete_removes (d := d) (P := P) (x := x) ⟨hp, hpath, hx.literal⟩ w
    exact lastCommit_congr hrem.commits _

end SSHDestination

/-- From an empty destination on, over stores and removals that may stop anywhere, provided that
a removal cut short never takes a file and leaves the manifest: what the local destination lists
as complete has been committed and has every file it had then; so has what the ssh destination
lists as complete, the building directories apart, which have never been committed. -/
theorem complete_generations_are_whole {l : LocalDestination} {d : SSHDestination} {P Q : Loc}
    {w v : World} (hl : l.path.At P) (hd : d.path.path.At Q) (hlit : Literal d.remote_path)
    (hw : Calls none P (l.Call (LocalDestination.CutFirst P)) w)
    (hv : Calls (some d.host) Q (d.Call (SSHDestination.CutFirst d Q)) v) :
    (∀ stored w', exec l.list_backups w = (.ok stored, w') → ∀ b ∈ stored, b.complete = true →
        ∃ z : Name, z.val = b.backup_id ∧ Whole none P w z) ∧
      ∀ stored v', exec d.list_backups v = (.ok stored, v') → ∀ b ∈ stored, b.complete = true →
        ∃ z : Name, z.val = b.backup_id ∧ (Whole (some d.host) Q v z ∨
          (∃ x, z = partialName x) ∧ lastCommit (some d.host) Q z v = none) := by
  constructor
  · intro stored w' hlist b hb hcomplete
    have htrue := hw.truthful (fun _ _ hc => hc.upholds hl)
    obtain ⟨-, -, -, rfl⟩ := LocalDestination.list_backups_ok hl hlist
    obtain ⟨z, -, rfl⟩ := LocalDestination.mem_records.mp hb
    obtain ⟨hplain, hid, hmarked⟩ := LocalDestination.recordOf_complete hcomplete
    exact ⟨z, hid.symm, htrue z hplain hmarked⟩
  · intro stored v' hlist b hb hcomplete
    have htrue := hv.truthful (fun _ _ hc => hc.upholds hd hlit)
    by_cases hdir : (v.tree (some d.host)).isDir Q = true
    · have hentry : ∀ z ∈ globbed (v.tree (some d.host)) Q,
          SSHDestination.Entry z := by
        intro z hz
        refine hv.named (r := []) (fun _ _ hc => hc.names hd hlit) ?_
        rw [List.append_nil, (SSHDestination.mem_globbed.mp hz).1]
        simp
      have hparse := SSHDestination.list_backups_ok hd hlit hlist hdir
      rw [SSHDestination.parse_list_output_ok
        (fun z hz => SSHDestination.echoes_of_no_backslash (hentry z hz).backslash)
        (fun z hz => (hentry z hz).field) hparse] at hb
      obtain ⟨z, hz, hreported⟩ := List.mem_filterMap.mp hb
      obtain ⟨hid, hmarked⟩ := SSHDestination.complete_reported hreported hcomplete
      refine ⟨z, hid, ?_⟩
      obtain ⟨x, hx, rfl | rfl⟩ := hentry z hz
      · exact .inl (htrue z hx.plain hmarked)
      · exact .inr ⟨⟨x, rfl⟩, hv.uncommitted (fun _ _ hc => hc.uncommitted hd hlit x)⟩
    · rw [SSHDestination.list_backups_absent hd hlit hlist hdir] at hb
      cases hb

open SSHDestination

def rowsWorld : World := smallWorld ((smallTree.addGeneration [entry "w", entry "x"]).create
  [entry "w", entry "x", entry "rows"] (.file "1") 0)

def rowsStored : World :=
  (exec (smallLocal.store (Path.configured [] (PurePath.parse "/w/x")) "x") rowsWorld).2

/-- The removal of `x` is cut short after it took the file `rows`. -/
def cutShort (w : World) : World :=
  { w with tape := fun n =>
      if n = 1 then { Reply.good 0 with
        fault := some (.os "Input/output error")
        paths := [[entry "b", entry "x", entry "rows"]] }
      else Reply.good 0 }

/-- What the removal leaves. -/
def rowsCut : World := (exec (smallLocal.delete "x") (cutShort rowsStored)).2

theorem nothing_below_small : ∀ q, [entry "b"] <+: q → q ≠ [entry "b"] →
    rowsWorld.fs.kind q = none := by
  have hlocs : ∀ q ∈ rowsWorld.fs.locs, [entry "b"] <+: q → q = [entry "b"] := by decide
  intro q hq hne
  by_contra hk
  refine hne (hlocs q (FileTree.finite _ q (fun hn => hk ?_)) hq)
  exact congrArg (Option.map Node.kind) hn

theorem rowsStored_calls {Cut : Name → World → Prop} :
    Calls none [entry "b"] (smallLocal.Call Cut) rowsStored :=
  .call (.start nothing_below_small (fun _ => rfl)) (.store (entry "x") _)

/-- After a removal that was cut short the generation is listed as complete without its file. -/
theorem marked_without_its_file :
    ∃ w stored b, Calls none [entry "b"] (smallLocal.Call (fun _ _ => True)) w ∧
      (exec smallLocal.list_backups w).1 = .ok stored ∧ b ∈ stored ∧ b.complete = true ∧
      b.backup_id = (entry "x").val ∧ ¬ Whole none [entry "b"] w (entry "x") := by
  have hcalls : Calls none [entry "b"] (smallLocal.Call (fun _ _ => True)) (cutShort rowsStored) :=
    .elsewhere rowsStored_calls (fun _ _ => rfl) (fun _ => rfl)
  refine ⟨rowsCut, [⟨"x", true, Datetime.utc 0⟩], ⟨"x", true, Datetime.utc 0⟩,
    .call hcalls (.delete (x := entry "x") trivial), by decide +kernel, List.mem_singleton_self _,
    rfl, rfl, ?_⟩
  rintro ⟨c, hlast, hfiles⟩
  have hrows : (lastCommit none [entry "b"] (entry "x") rowsCut).map
      (fun c => c.content [entry "rows"]) = some (some (.file "1")) := by decide +kernel
  have hgone : rowsCut.fs.kind [entry "b", entry "x", entry "rows"] = none := by decide +kernel
  rw [hlast] at hrows
  have hkept := hfiles _ _ (Option.some.inj hrows)
  change rowsCut.fs.kind [entry "b", entry "x", entry "rows"] = _ at hkept
  rw [hgone] at hkept
  cases hkept

abbrev LocalCalls : World → Prop :=
  Calls none [entry "b"] (smallLocal.Call (LocalDestination.CutFirst [entry "b"]))

abbrev RemoteCalls : World → Prop :=
  Calls (some "vault") [entry "b"]
    (smallRemote.Call (SSHDestination.CutFirst smallRemote [entry "b"]))

theorem LocalCalls.store {w : World} (h : LocalCalls w) {x : Name} {backup_id : String}
    (hid : x.val = backup_id) : LocalCalls (storeUnder smallLocal.toDestination backup_id w) := by
  subst hid
  exact .call h (.store x _)

theorem LocalCalls.delete {w : World} (h : LocalCalls w) {x : Name} {backup_id : String}
    (hid : x.val = backup_id) (hfault : (w.tape 1).fault = none) :
    LocalCalls (deleteUnder smallLocal.toDestination backup_id w) := by
  subst hid
  exact .call h (.delete (fun hcut => absurd hfault hcut))

theorem RemoteCalls.store {w : World} (h : RemoteCalls w) {x : Name} {backup_id : String}
    (hid : x.val = backup_id) (hx : PlainId x) :
    RemoteCalls (storeUnder smallRemote.toDestination backup_id w) := by
  subst hid
  exact .call h (.store hx freshWorld_source.leads)

theorem RemoteCalls.delete {w : World} (h : RemoteCalls w) {x : Name} {backup_id : String}
    (hid : x.val = backup_id) (hx : PlainId x) (hfault : (w.tape 0).fault = none)
    (hstatus : (w.tape 0).status = 0) :
    RemoteCalls (deleteUnder smallRemote.toDestination backup_id w) := by
  subst hid
  exact .call h (.delete hx (fun hcut => absurd hcut (by simp [hfault, hstatus])))

theorem rowsWorld_calls : LocalCalls (threeDeeds smallLocal.toDestination rowsWorld) := by
  have hstart : LocalCalls rowsWorld := .start nothing_below_small (fun _ => rfl)
  have hfirst := LocalCalls.store hstart (x := entry "x") rfl
  have hsecond := LocalCalls.delete hfirst (x := entry "x") rfl (by decide +kernel)
  exact LocalCalls.store hsecond (x := entry "y") rfl

theorem freshWorld_calls : RemoteCalls (threeDeeds smallRemote.toDestination freshWorld) := by
  have hx : PlainId (entry "x") := ⟨by decide, by decide, oneField_of_no_space (by decide)⟩
  have hy : PlainId (entry "y") := ⟨by decide, by decide, oneField_of_no_space (by decide)⟩
  have hstart : RemoteCalls freshWorld := .start freshWorld_empty (fun _ => rfl)
  have hfirst := RemoteCalls.store hstart rfl hx
  have hsecond := RemoteCalls.delete hfirst rfl hx (by decide +kernel) (by decide +kernel)
  exact RemoteCalls.store hsecond rfl hy

/-- After two stores and the deletion of the first generation each destination lists the second,
and it is whole. -/
theorem complete_generations_are_whole_three :
    (∃ z : Name, z.val = "y" ∧
      Whole none [entry "b"] (threeDeeds smallLocal.toDestination rowsWorld) z) ∧
    ∃ z : Name, z.val = "y" ∧
      (Whole (some "vault") [entry "b"] (threeDeeds smallRemote.toDestination freshWorld) z ∨
        (∃ x, z = partialName x) ∧ lastCommit (some "vault") [entry "b"] z
          (threeDeeds smallRemote.toDestination freshWorld) = none) := by
  have hl : smallLocal.path.At [entry "b"] := ⟨⟨[], rfl, by decide⟩, rfl⟩
  have hlocal : (exec smallLocal.list_backups (threeDeeds smallLocal.toDestination rowsWorld)).1 =
      .ok [⟨"y", true, Datetime.utc 1700000000000000⟩] := by decide +kernel
  have hremote : (exec smallRemote.list_backups
      (threeDeeds smallRemote.toDestination freshWorld)).1 =
      .ok [⟨"y", true, Datetime.utc 1700000000000000⟩] := by
    rw [SSHDestination.smallRemote_lists (by decide +kernel) (by decide +kernel)
      (by decide +kernel)]
    decide +kernel
  have hcalls := rowsWorld_calls
  have hcalls' := freshWorld_calls
  generalize threeDeeds smallLocal.toDestination rowsWorld = w at *
  generalize threeDeeds smallRemote.toDestination freshWorld = v at *
  have h := complete_generations_are_whole hl SSHDestination.smallRemote_at (by decide) hcalls
    hcalls'
  exact ⟨h.1 _ _ (exec_of_ok hlocal) _ (List.mem_singleton_self _) rfl,
    h.2 _ _ (exec_of_ok hremote) _ (List.mem_singleton_self _) rfl⟩

end MbKeeper
