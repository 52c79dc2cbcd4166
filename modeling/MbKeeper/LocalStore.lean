import MbKeeper.PurgeFrame

/-!
# What a store leaves behind

`Halfway` relates the tree before a store to the tree wherever the store
stopped short of its rename; it composes, so it holds over any number of
attempts. A store that comes to the rename has `Built` the copy, and then the
tree is the one `placed` describes. Since `placed` does not depend on what an
earlier attempt left, a store without a fault ends in the same place after any
number of attempts.
-/
namespace MbKeeper

namespace FileTree

variable {ν δ : Type} [DecidableEq ν]

/-- Where nothing is, nothing lies below. -/
def Rooted (t : FileTree ν δ) (b : List ν) : Prop :=
  t.kind b = none → ∀ r, t.kind (b ++ r) = none

omit [DecidableEq ν] in
theorem kind_ne_none_of_isFile {t : FileTree ν δ} {l : List ν} (h : t.isFile l = true) :
    t.kind l ≠ none := by
  obtain ⟨data, hdata⟩ := (isFile_iff t l).mp h
  simp [hdata]

omit [DecidableEq ν] in
theorem Rooted.of_present {t : FileTree ν δ} {b : List ν} (h : t.kind b ≠ none) : t.Rooted b :=
  fun hn => absurd hn h

omit [DecidableEq ν] in
/-- Where every directory on the way to an entry is there, nothing hangs in the air. -/
theorem rooted_of_locs {t : FileTree ν δ} (h : ∀ m ∈ t.locs, ∀ l ∈ m.inits, t.kind l ≠ none)
    (l : List ν) : t.Rooted l := by
  intro hl r
  by_contra hk
  refine h (l ++ r) (t.finite _ (fun hn => hk (by simp [kind, hn]))) l ?_ hl
  exact (List.mem_inits _ _).mpr (List.prefix_append l r)

/-- What is there is in a directory. -/
def Housed (t : FileTree ν δ) : Prop := ∀ l x, t.kind (l ++ [x]) ≠ none → t.kind l = some .dir

omit [DecidableEq ν] in
theorem Housed.rooted {t : FileTree ν δ} (h : t.Housed) (b : List ν) : t.Rooted b := by
  intro hb r
  induction r using List.reverseRecOn with
  | nil => rw [List.append_nil, hb]
  | append_singleton r x ih =>
    by_contra hk
    rw [← List.append_assoc] at hk
    have hdir := h _ _ hk
    rw [ih] at hdir
    cases hdir

omit [DecidableEq ν] in
theorem housed_of_locs {t : FileTree ν δ}
    (h : ∀ m ∈ t.locs, m = [] ∨ t.kind m.dropLast = some .dir) :
    t.Housed := by
  intro l x hk
  have hmem : l ++ [x] ∈ t.locs := t.finite _ (fun hn => hk (by simp [kind, hn]))
  rcases h _ hmem with hnil | hdir
  · simp at hnil
  · simpa using hdir

theorem Rooted.unlinkAll {t : FileTree ν δ} {b : List ν} (h : t.Rooted b) (ls : List (List ν))
    (s : ℤ) : (t.unlinkAll ls s).Rooted b := by
  induction ls generalizing t with
  | nil => exact h
  | cons l ls ih =>
    rw [FileTree.unlinkAll, List.foldl_cons, ← FileTree.unlinkAll]
    refine ih (fun hb r => ?_)
    rcases kind_unlink_or t l (b ++ r) s with hr | hr
    · by_cases hl : l <+: b
      · -- the entry removed holds all of `b`
        unfold unlink at hb hr ⊢
        split_ifs at hb hr ⊢ with hc
        · rw [kind_removeTree, if_pos (hl.trans (List.prefix_append _ _))]
        · exact h hb r
      · rw [kind_unlink_of_outside t s hl] at hb
        rw [hr]
        exact h hb r
    · exact hr

end FileTree

/-- Every directory on the way is there after `mkdir`. -/
theorem mkdir_ok {p : Path} {l : Loc} (hp : p.At l) {w w' : World}
    (h : exec (mkdir p) w = (.ok (), w')) :
    (∀ q, q <+: l → w.fs.isFile q = false) ∧ ∀ q, q <+: l → w'.fs.kind q = some .dir := by
  rw [mkdir, exec_primitive, World.fs_next, if_neg (by simp [hp.nul])] at h
  split_ifs at h with hb
  · cases h
  have hfree : ∀ q, q <+: l → w.fs.isFile q = false := by
    intro q hq
    simp only [blocked, List.any_eq_true, not_exists, not_and, Bool.not_eq_true] at hb
    exact hb q (hp.mem_chain.mpr hq)
  refine ⟨hfree, fun q hq => ?_⟩
  cases hf : (w.tape 0).fault with
  | some e =>
    rw [hf] at h
    cases h
  | none =>
    rw [hf] at h
    rw [← (Prod.mk.inj h).2, World.fs_setTree_none, FileTree.kind_mkdirs]
    cases hk : w.fs.kind q with
    | none => simp [hp.mem_chain.mpr hq]
    | some k =>
      cases k with
      | dir => simp
      | file data =>
        have := (FileTree.isFile_iff w.fs q).mpr ⟨data, hk⟩
        rw [hfree q hq] at this
        cases this

/-- What `copytree` made where nothing was. -/
theorem copytree_ok {src dst : Path} {a b : Loc} (ha : src.At a) (hb : dst.At b)
    {ignore : Name → Bool} {w w' : World} (h : exec (copytree src dst ignore) w = (.ok (), w')) :
    w.fs.kind a = some .dir ∧ w.fs.kind b = none ∧ ∃ s, w'.fs =
      (w.fs.mkdirs dst.chain s).copyTree a b (fun l => l.all (!ignore ·)) id := by
  rw [copytree, exec_primitive, World.fs_next, ha.find, hb.find] at h
  cases hf : (w.tape 0).fault with
  | some e =>
    simp only [hf] at h
    split_ifs at h <;> cases h
  | none =>
    simp only [hf] at h
    split_ifs at h with h₁ h₂ h₃
    · cases h
    · cases h
    · cases h
    · refine ⟨by simpa using h₁, ?_, (w.tape 0).stamp, ?_⟩
      · simpa [FileTree.present_iff] using h₂
      · rw [← (Prod.mk.inj h).2, World.fs_setTree_none]

/-- A copied file changes nothing but its own place. -/
theorem copy2_only (src dst : Path) {q : Loc} (hq : q ≠ dst.loc) :
    Moves (fun w w' => w'.fs.kind q = w.fs.kind q) (copy2 src dst) := by
  intro w
  have hwrite : ∀ data s, (w.fs.write dst.loc data s).kind q = w.fs.kind q := fun data s => by
    rw [FileTree.kind_write, if_neg hq]
  rw [copy2, exec_primitive, World.fs_next]
  cases src.find w.fs with
  | none => rfl
  | some a =>
    cases hb : dst.find w.fs with
    | none => rfl
    | some b =>
      obtain rfl := Path.find_eq_loc hb
      dsimp only
      split
      · cases (w.tape 0).fault with
        | some e =>
          dsimp only
          split_ifs
          · rfl
          · exact hwrite _ _
          · rfl
        | none =>
          dsimp only
          split_ifs
          · rfl
          · exact hwrite _ _
      · rfl

/-- The file `store` takes from the source at `r`: the name of the manifest is left out in every
directory and then copied at the top. -/
def copyOf (t : Fs) (S r : Loc) : Option (Kind String) :=
  if r = [META_FILENAME] ∨ META_FILENAME ∉ r then t.kind (S ++ r) else none

theorem copyOf_congr {t t' : Fs} {S : Loc} (h : ∀ r, t.kind (S ++ r) = t'.kind (S ++ r)) :
    copyOf t S = copyOf t' S := by
  funext r
  rw [copyOf, copyOf, h]

/-- A directory with a manifest at its top, neither above the destination nor in one of the two
directories of `x`. -/
structure Generation (t : Fs) (P S : Loc) (x : Name) (src : Path) : Prop where
  leads : src.At S
  above : ¬ S <+: P
  place : ¬ P ++ [x] <+: S
  building : ¬ P ++ [partialName x] <+: S
  dir : t.kind S = some .dir
  manifest : ∃ data, t.kind (S ++ [META_FILENAME]) = some (.file data)

theorem Generation.outside {t : Fs} {P S : Loc} {x : Name} {src : Path}
    (hg : Generation t P S x src) (r : Loc) :
    ¬ S ++ r <+: P ∧ ¬ P ++ [partialName x] <+: S ++ r ∧ ¬ P ++ [x] <+: S ++ r ∧
      ¬ S ++ r <+: P ++ [partialName x] := by
  have hbelow : ∀ y : Name, ¬ P ++ [y] <+: S → ¬ P ++ [y] <+: S ++ r := by
    intro y hyS hy
    rcases prefix_or_prefix hy (List.prefix_append S r) with h | h
    · exact hyS h
    · rcases List.prefix_concat_iff.mp h with rfl | h
      · exact hyS (List.prefix_refl _)
      · exact hg.above h
  refine ⟨fun h => hg.above ((List.prefix_append _ _).trans h), hbelow _ hg.building,
    hbelow _ hg.place, fun h => ?_⟩
  rcases List.prefix_concat_iff.mp ((List.prefix_append S r).trans h) with rfl | h
  · exact hg.building (List.prefix_refl _)
  · exact hg.above h

namespace LocalDestination

variable {d : LocalDestination} {P S : Loc} {src : Path} {x : Name}

/-- The tree after the source at `S` was stored as `x` in `P`. -/
def placed (t : Fs) (S P : Loc) (x : Name) (q : Loc) : Option (Kind String) :=
  match relTo (P ++ [x]) q with
  | some r => copyOf t S r
  | none =>
    if P ++ [partialName x] <+: q then none else if q <+: P then some .dir else t.kind q

/-- What has happened to the tree while a store of `x` was building. -/
structure Halfway (P : Loc) (x : Name) (t t' : Fs) : Prop where
  rest : ∀ q, ¬ q <+: P → ¬ P ++ [partialName x] <+: q → t'.kind q = t.kind q
  way : ∀ q, q <+: P → t'.kind q = t.kind q ∨ t.kind q = none ∧ t'.kind q = some .dir
  rooted : t.Rooted (P ++ [partialName x]) → t'.Rooted (P ++ [partialName x])
  /-- A file at the building directory's name stays. -/
  stuck : t.isFile (P ++ [partialName x]) = true → ∀ r,
    t'.kind (P ++ [partialName x] ++ r) = t.kind (P ++ [partialName x] ++ r)
  loose : t.isFile (P ++ [partialName x]) = false → t'.isFile (P ++ [partialName x]) = false

namespace Halfway

variable {t t' t'' : Fs}

theorem refl (P : Loc) (x : Name) (t : Fs) : Halfway P x t t :=
  ⟨fun _ _ _ => rfl, fun _ _ => .inl rfl, id, fun _ _ => rfl, id⟩

theorem trans (h : Halfway P x t t') (h' : Halfway P x t' t'') : Halfway P x t t'' where
  rest q hq hb := (h'.rest q hq hb).trans (h.rest q hq hb)
  way q hq := by
    rcases h.way q hq with he | ⟨hn, hd⟩
    · rw [← he]
      exact h'.way q hq
    · refine .inr ⟨hn, ?_⟩
      rcases h'.way q hq with he | ⟨hn', -⟩
      · exact he.trans hd
      · rw [hd] at hn'
        cases hn'
  rooted hr := h'.rooted (h.rooted hr)
  stuck hf r := by
    have hsame := h.stuck hf
    have hf' : t'.isFile (P ++ [partialName x]) = true := by
      have := hsame []
      rw [List.append_nil] at this
      rwa [FileTree.isFile_congr this]
    exact (h'.stuck hf' r).trans (hsame r)
  loose hf := h'.loose (h.loose hf)

/-- Trees that agree on what they hold. -/
theorem of_kind (h : ∀ q, t'.kind q = t.kind q) : Halfway P x t t' where
  rest q _ _ := h q
  way q _ := .inl (h q)
  rooted hr hn r := by
    rw [h] at hn ⊢
    exact hr hn r
  stuck _ r := h _
  loose hf := by rwa [FileTree.isFile_congr (h _)]

/-- The source is not touched. -/
theorem source (h : Halfway P x t t') (hg : Generation t P S x src) (r : Loc) :
    t'.kind (S ++ r) = t.kind (S ++ r) :=
  h.rest _ (hg.outside r).1 (hg.outside r).2.1

theorem generation (h : Halfway P x t t') (hg : Generation t P S x src) :
    Generation t' P S x src := by
  obtain ⟨data, hdata⟩ := hg.manifest
  have hS := h.source hg []
  rw [List.append_nil] at hS
  exact ⟨hg.leads, hg.above, hg.place, hg.building, hS.trans hg.dir, data,
    (h.source hg _).trans hdata⟩

/-- Nor are the other entries. -/
theorem entry (h : Halfway P x t t') {y : Name} (hy : y ≠ partialName x) (r : Loc) :
    t'.kind (P ++ [y] ++ r) = t.kind (P ++ [y] ++ r) := by
  refine h.rest _ (fun hq => ?_) (fun hq => hy (prefix_entry_iff.mp hq).symm)
  have := hq.length_le
  simp only [List.length_append, List.length_singleton] at this
  omega

/-- Directories on the way are made. -/
theorem mkdirs {ps : List Loc} (hps : ∀ q ∈ ps, q <+: P) (s : ℤ) :
    Halfway P x t (t.mkdirs ps s) := by
  have hout : ∀ q, ¬ q <+: P → (t.mkdirs ps s).kind q = t.kind q := fun q hq =>
    FileTree.kind_mkdirs_of_notMem t s (fun h => hq (hps q h))
  have hbelow : ∀ r, (t.mkdirs ps s).kind (P ++ [partialName x] ++ r) =
      t.kind (P ++ [partialName x] ++ r) := by
    refine fun r => hout _ (fun h => ?_)
    have := h.length_le
    simp only [List.length_append, List.length_singleton] at this
    omega
  have hroot := hbelow []
  rw [List.append_nil] at hroot
  refine ⟨fun q hq _ => hout q hq, fun q hq => ?_, fun hr hn r => ?_, fun _ r => hbelow r,
    fun hf => ?_⟩
  · rw [FileTree.kind_mkdirs]
    split_ifs with h
    · exact .inr ⟨h.2, rfl⟩
    · exact .inl rfl
  · rw [hroot] at hn
    rw [hbelow]
    exact hr hn r
  · rwa [FileTree.isFile_congr hroot]

/-- Only the building directory changed; it was no file and is none, and unless it is there
nothing lies below. -/
theorem inside (hrest : ∀ q, ¬ P ++ [partialName x] <+: q → t'.kind q = t.kind q)
    (hfile : t.isFile (P ++ [partialName x]) = false)
    (hfile' : t'.isFile (P ++ [partialName x]) = false)
    (hrooted : t.Rooted (P ++ [partialName x]) → t'.Rooted (P ++ [partialName x])) :
    Halfway P x t t' := by
  refine ⟨fun q _ hb => hrest q hb, fun q hq => .inl (hrest q (fun h => ?_)), hrooted,
    fun hf => ?_, fun _ => hfile'⟩
  · have := (h.trans hq).length_le
    simp only [List.length_append, List.length_singleton] at this
    omega
  · rw [hfile] at hf
    cases hf

end Halfway

/-- The building relation between worlds. -/
def HalfwayWorld (P : Loc) (x : Name) (w w' : World) : Prop := Halfway P x w.fs w'.fs

instance : Std.Refl (HalfwayWorld P x) := ⟨fun w => Halfway.refl P x w.fs⟩

instance : IsTrans World (HalfwayWorld P x) := ⟨fun _ _ _ h h' => Halfway.trans h h'⟩

theorem ask_halfway {α : Type} (q : Reply → World → α) : Moves (HalfwayWorld P x) (ask q) :=
  (ask_same q).mono (fun _ _ h => Halfway.of_kind (fun q => by rw [h.fs]))

theorem mkdir_halfway (hp : d.path.At P) : Moves (HalfwayWorld P x) (mkdir d.path) := by
  intro w
  rw [mkdir, exec_primitive, World.fs_next]
  split_ifs
  · exact Halfway.refl P x w.fs
  · exact Halfway.refl P x w.fs
  · cases (w.tape 0).fault with
    | some e =>
      exact Halfway.mkdirs (fun q hq => hp.mem_chain.mp (List.mem_of_mem_take hq)) _
    | none => exact Halfway.mkdirs (fun q hq => hp.mem_chain.mp hq) _

theorem rmtree_partial_halfway (hp : d.path.At P) :
    Moves (HalfwayWorld P x) (rmtree (d.partial_dir x.val) false) := by
  intro w
  have hb := partial_dir_at hp x
  have hrem := rmtree_removes (d.partial_dir x.val) false w
  by_cases hdir : w.fs.isDir (d.partial_dir x.val).loc = true
  · rw [hb.loc_eq] at hdir hrem
    have hnofile : ∀ t : Fs, t.kind (P ++ [partialName x]) = some .dir ∨
        t.kind (P ++ [partialName x]) = none → t.isFile (P ++ [partialName x]) = false := by
      rintro t (h | h) <;> simp [FileTree.isFile, h]
    have hdir' := (FileTree.isDir_iff _ _).mp hdir
    refine Halfway.inside (fun q hq => hrem.fs_kind (fun h => hq h.2)) (hnofile _ (.inl hdir'))
      (hnofile _ ((hrem.less none _).imp (fun h => h.trans hdir') id)) (fun hr => ?_)
    rw [rmtree, exec_primitive, World.fs_next, hb.find]
    simp only [hdir, if_true]
    cases (w.tape 0).fault with
    | some e => exact hr.unlinkAll _ _
    | none =>
      dsimp only
      split_ifs
      · intro _ r
        rw [World.fs_setTree_none, FileTree.kind_removeTree, if_pos (List.prefix_append _ _)]
      · refine FileTree.Rooted.of_present ?_
        rw [World.fs_setTree_none, FileTree.kind_clear, if_neg (fun h => h.2 rfl), hdir']
        simp
  · rw [Bool.not_eq_true] at hdir
    have hsame : Same w (exec (rmtree (d.partial_dir x.val) false) w).2 := rmtree_of_not_dir hdir
    exact Halfway.of_kind (fun q => by rw [hsame.fs])

theorem clear_stale_halfway (hp : d.path.At P) :
    Moves (HalfwayWorld P x) (d.clear_stale x.val) :=
  Moves.bind (ask_halfway _) (fun _ => Moves.ite (rmtree_partial_halfway hp) (Moves.pure _))

/-- A copy that makes the building directory where nothing was. -/
theorem Halfway.copy (hp : d.path.At P) {t : Fs} {a : Loc} {sel : Loc → Bool} {time : ℤ → ℤ} {s : ℤ}
    (hnone : t.kind (P ++ [partialName x]) = none)
    (hdir : ((t.mkdirs (d.partial_dir x.val).chain s).copyTree a (P ++ [partialName x]) sel
      time).kind (P ++ [partialName x]) = some .dir) :
    Halfway P x t
      ((t.mkdirs (d.partial_dir x.val).chain s).copyTree a (P ++ [partialName x]) sel time) := by
  have hout : ∀ q, ¬ P ++ [partialName x] <+: q →
      ((t.mkdirs (d.partial_dir x.val).chain s).copyTree a (P ++ [partialName x]) sel time).kind q =
        (t.mkdirs (d.partial_dir x.val).chain s).kind q := fun q hq =>
    FileTree.kind_copyTree_of_outside _ sel time hq
  refine ⟨fun q hq hb => ?_, fun q hq => ?_,
    fun _ => FileTree.Rooted.of_present (by rw [hdir]; simp),
    fun hf => ?_, fun _ => by simp [FileTree.isFile, hdir]⟩
  · rw [hout q hb]
    refine FileTree.kind_mkdirs_of_notMem t s (fun h => ?_)
    rcases List.prefix_concat_iff.mp ((partial_dir_at hp x).mem_chain.mp h) with rfl | h
    · exact hb (List.prefix_refl _)
    · exact hq h
  · rw [hout q (fun h => ?_), FileTree.kind_mkdirs]
    · split_ifs with h
      · exact .inr ⟨h.2, rfl⟩
      · exact .inl rfl
    · have := (h.trans hq).length_le
      simp only [List.length_append, List.length_singleton] at this
      omega
  · simp [FileTree.isFile, hnone] at hf

theorem copytree_halfway (hp : d.path.At P) (ignore : Name → Bool) :
    Moves (HalfwayWorld P x) (copytree src (d.partial_dir x.val) ignore) := by
  intro w
  have hb := partial_dir_at hp x
  rw [copytree, exec_primitive, World.fs_next, hb.find]
  cases src.find w.fs with
  | none => exact Halfway.refl P x w.fs
  | some a =>
    dsimp only
    have hmade : ∀ s, ¬ w.fs.present (P ++ [partialName x]) = true →
        (w.fs.mkdirs (d.partial_dir x.val).chain s).kind (P ++ [partialName x]) = some .dir := by
      intro s hn
      have hnone : w.fs.kind (P ++ [partialName x]) = none := by
        simpa [FileTree.present_iff] using hn
      rw [FileTree.kind_mkdirs, if_pos ⟨hb.mem_chain.mpr (List.prefix_refl _), hnone⟩]
    have hcopy : ∀ sel time s, ¬ w.fs.present (P ++ [partialName x]) = true →
        (sel [] = true → w.fs.kind a = some .dir) → Halfway P x w.fs
          ((w.fs.mkdirs (d.partial_dir x.val).chain s).copyTree a (P ++ [partialName x])
            sel time) := by
      intro sel time s hn hsel
      refine Halfway.copy hp (by simpa [FileTree.present_iff] using hn) ?_
      have hroot := FileTree.kind_copyTree_append (w.fs.mkdirs (d.partial_dir x.val).chain s) a
        (P ++ [partialName x]) [] sel time
      rw [List.append_nil, List.append_nil] at hroot
      rw [hroot]
      split_ifs with hs
      · rw [FileTree.kind_mkdirs_of_some _ _ (by rw [hsel hs]; simp), hsel hs]
      · exact hmade s hn
    cases (w.tape 0).fault with
    | some e =>
      by_cases hb' : P ++ [partialName x] ∈ (w.tape 0).paths
      · simp only [hb', if_true]
        split_ifs with h₁ h₂ h₃
        · exact Halfway.refl P x w.fs
        · exact Halfway.refl P x w.fs
        · exact Halfway.refl P x w.fs
        · change Halfway P x w.fs (World.fs _)
          rw [World.fs_setTree_none]
          exact hcopy _ _ _ h₂ (by simp)
      · simp only [hb', if_false]
        split_ifs <;> exact Halfway.refl P x w.fs
    | none =>
      dsimp only
      split_ifs with h₁ h₂ h₃
      · exact Halfway.refl P x w.fs
      · exact Halfway.refl P x w.fs
      · exact Halfway.refl P x w.fs
      · exact hcopy _ _ _ h₂ (fun _ => by simpa using h₁)

theorem copy_meta_halfway (hp : d.path.At P) :
    Moves (HalfwayWorld P x) (d.copy_meta src x.val) := by
  refine Moves.bind (ask_halfway _) (fun _ => Moves.ite (fun w => ?_) (Moves.pure _))
  have hb := (partial_dir_at hp x).child META_FILENAME
  have hwrite : ∀ data s, w.fs.isDir (P ++ [partialName x]) = true →
      Halfway P x w.fs (w.fs.write (P ++ [partialName x] ++ [META_FILENAME]) data s) := by
    intro data s hdir
    have hdir := (FileTree.isDir_iff _ _).mp hdir
    have hkept : (w.fs.write (P ++ [partialName x] ++ [META_FILENAME]) data s).kind
        (P ++ [partialName x]) = some .dir := by
      rw [FileTree.kind_write, if_neg (by simp), hdir]
    refine Halfway.inside (fun q hq => ?_) (FileTree.isFile_of_dir hdir)
      (FileTree.isFile_of_dir hkept) (fun _ => FileTree.Rooted.of_present (by rw [hkept]; simp))
    rw [FileTree.kind_write, if_neg]
    rintro rfl
    exact hq (List.prefix_append _ _)
  rw [copy2, exec_primitive, World.fs_next, hb.find]
  cases (src.child META_FILENAME).find w.fs with
  | none => exact Halfway.refl P x w.fs
  | some a =>
    dsimp only
    split
    · cases (w.tape 0).fault with
      | some e =>
        dsimp only
        split_ifs with h₁ h₂
        · exact Halfway.refl P x w.fs
        · exact hwrite _ _ (by simpa using (not_or.mp h₁).2)
        · exact Halfway.refl P x w.fs
      | none =>
        dsimp only
        split_ifs with h₁
        · exact Halfway.refl P x w.fs
        · exact hwrite _ _ (by simpa using (not_or.mp h₁).2)
    · exact Halfway.refl P x w.fs

/-- What `store` has made of the tree when it comes to the rename. -/
structure Built (P S : Loc) (x : Name) (t u : Fs) : Prop where
  copied : ∀ r, u.kind (P ++ [partialName x] ++ r) = copyOf t S r
  way : ∀ q, q <+: P → t.isFile q = false ∧ u.kind q = some .dir
  rest : ∀ q, ¬ q <+: P → ¬ P ++ [partialName x] <+: q → u.kind q = t.kind q
  loose : t.isFile (P ++ [partialName x]) = false

theorem clear_stale_ok (hp : d.path.At P) {w w' : World}
    (hr : w.fs.Rooted (P ++ [partialName x])) (h : exec (d.clear_stale x.val) w = (.ok (), w')) :
    (∀ r, w'.fs.kind (P ++ [partialName x] ++ r) = none) ∧
      w.fs.isFile (P ++ [partialName x]) = false := by
  obtain ⟨stale, u, hu, h⟩ := exec_bind_eq_ok h
  have hb := partial_dir_at hp x
  have hval := (path_exists_reads hb).ok w stale (by rw [hu])
  have hsame := (path_exists_reads hb).same w
  rw [hu] at hsame
  have hval : w.fs.present (P ++ [partialName x]) = stale := Except.ok.inj hval
  cases stale with
  | true =>
    have hdir : w.fs.isFile (P ++ [partialName x]) = false := by
      by_contra hfile
      obtain ⟨data, hdata⟩ := (FileTree.isFile_iff _ _).mp (by simpa using hfile)
      change exec (rmtree (d.partial_dir x.val) false) u = _ at h
      rw [rmtree, exec_primitive, World.fs_next, hb.find] at h
      simp [FileTree.isDir, hsame.fs, hdata, rmtreeFailed] at h
    exact ⟨fun r => rmtree_ok h (by rw [hb.loc_eq]; exact List.prefix_append _ _), hdir⟩
  | false =>
    obtain rfl : u = w' := (Prod.mk.inj h).2
    have hnone : w.fs.kind (P ++ [partialName x]) = none := by
      by_contra hk
      rw [(FileTree.present_iff _ _).mpr hk] at hval
      cases hval
    rw [hsame.fs]
    exact ⟨hr hnone, by simp [FileTree.isFile, hnone]⟩

/-- What is at the building directory, or below it, after the copy of the source. -/
theorem copytree_partial_ok (hp : d.path.At P) {w w' : World} (hg : Generation w.fs P S x src)
    (hempty : ∀ r, w.fs.kind (P ++ [partialName x] ++ r) = none)
    (h : exec (copytree src (d.partial_dir x.val) (· = META_FILENAME)) w = (.ok (), w')) :
    (∀ r, w'.fs.kind (P ++ [partialName x] ++ r) =
        if META_FILENAME ∈ r then none else w.fs.kind (S ++ r)) ∧
      ∀ q, q <+: P → w.fs.kind q = some .dir → w'.fs.kind q = some .dir := by
  have hb := partial_dir_at hp x
  obtain ⟨-, -, s, hfs⟩ := copytree_ok hg.leads hb h
  rw [hfs]
  refine ⟨fun r => ?_, fun q hq hdir => ?_⟩
  · have hkeep : ∀ q, q ∉ (d.partial_dir x.val).chain →
        (w.fs.mkdirs (d.partial_dir x.val).chain s).kind q = w.fs.kind q := fun q hq =>
      FileTree.kind_mkdirs_of_notMem w.fs s hq
    have hall : (r.all (fun y => !decide (y = META_FILENAME))) = true ↔ META_FILENAME ∉ r := by
      simp only [List.all_eq_true, Bool.not_eq_true', decide_eq_false_iff_not]
      exact ⟨fun h hm => h _ hm rfl, fun h y hy he => h (he ▸ hy)⟩
    rw [FileTree.kind_copyTree_append]
    by_cases hr : META_FILENAME ∈ r
    · rw [if_neg (fun h => hall.mp h hr), if_pos hr, hkeep _ (fun hc => ?_), hempty]
      have hlen := (hb.mem_chain.mp hc).length_le
      have hpos := List.length_pos_of_mem hr
      simp only [List.length_append, List.length_singleton] at hlen
      omega
    · rw [if_pos (hall.mpr hr), if_neg hr, hkeep _ (fun hc => ?_)]
      exact (hg.outside r).2.2.2 (hb.mem_chain.mp hc)
  · rw [FileTree.kind_copyTree_of_outside _ _ _ (fun hpre => ?_),
      FileTree.kind_mkdirs_of_some _ _ (by rw [hdir]; simp), hdir]
    have := (hpre.trans hq).length_le
    simp only [List.length_append, List.length_singleton] at this
    omega

/-- The manifest is the only thing copied last. -/
theorem copy_meta_rest (hp : d.path.At P) {w w' : World} {res : Except Exn Unit}
    (h : exec (d.copy_meta src x.val) w = (res, w')) (q : Loc)
    (hq : q ≠ P ++ [partialName x] ++ [META_FILENAME]) : w'.fs.kind q = w.fs.kind q := by
  have hmoves : Moves (fun w w' : World => w'.fs.kind q = w.fs.kind q) (d.copy_meta src x.val) := by
    have : Std.Refl (fun w w' : World => w'.fs.kind q = w.fs.kind q) := ⟨fun _ => rfl⟩
    have : IsTrans World (fun w w' => w'.fs.kind q = w.fs.kind q) :=
      ⟨fun _ _ _ h h' => h'.trans h⟩
    refine Moves.bind (fun w => ?_) (fun _ => Moves.ite ((copy2_only _ _ ?_)) (Moves.pure _))
    · rw [is_file, exec_ask_state]
      rfl
    · rwa [((partial_dir_at hp x).child META_FILENAME).loc_eq]
  exact hmoves.of_exec h

/-- The four steps before the rename. -/
theorem built_of_ok (hp : d.path.At P) {w w₁ w₂ w₃ w₄ : World} (hg : Generation w.fs P S x src)
    (hr : w.fs.Rooted (P ++ [partialName x])) (h₁ : exec (mkdir d.path) w = (.ok (), w₁))
    (h₂ : exec (d.clear_stale x.val) w₁ = (.ok (), w₂))
    (h₃ : exec (copytree src (d.partial_dir x.val) (· = META_FILENAME)) w₂ = (.ok (), w₃))
    (h₄ : exec (d.copy_meta src x.val) w₃ = (.ok (), w₄)) : Built P S x w.fs w₄.fs := by
  obtain ⟨hfree, hway₁⟩ := mkdir_ok hp h₁
  have half₁ : Halfway P x w.fs w₁.fs := (mkdir_halfway hp).of_exec h₁
  have hempty := clear_stale_ok hp (half₁.rooted hr) h₂
  have half₂ : Halfway P x w₁.fs w₂.fs := (clear_stale_halfway hp).of_exec h₂
  have hway₂ : ∀ q, q <+: P → w₂.fs.kind q = some .dir := by
    intro q hq
    rcases half₂.way q hq with he | ⟨-, hd⟩
    · rw [he, hway₁ q hq]
    · exact hd
  have hsource := (half₁.trans half₂).source hg
  have hg₂ := (half₁.trans half₂).generation hg
  obtain ⟨hcopied, hway₃⟩ := copytree_partial_ok hp hg₂ hempty.1 h₃
  have half₃ : Halfway P x w₂.fs w₃.fs := (copytree_halfway hp _).of_exec h₃
  have half₄ : Halfway P x w₃.fs w₄.fs := (copy_meta_halfway hp).of_exec h₄
  have hmeta := copy_meta_rest hp h₄
  refine ⟨fun r => ?_, fun q hq => ⟨hfree q hq, ?_⟩, fun q hq hb => ?_, ?_⟩
  · rw [copyOf]
    by_cases hrm : r = [META_FILENAME]
    · obtain ⟨data, hdata⟩ := hg₂.manifest
      have hdata₃ : w₃.fs.kind (S ++ [META_FILENAME]) = some (.file data) :=
        (half₃.source hg₂ _).trans hdata
      rw [if_pos (.inl hrm), hrm, copy_meta_ok hp hg.leads h₄ hdata₃, ← hsource, hdata]
    · rw [hmeta _ (fun h => hrm (List.append_cancel_left h)), hcopied]
      by_cases hr' : META_FILENAME ∈ r
      · rw [if_pos hr', if_neg (by simp [hrm, hr'])]
      · rw [if_neg hr', if_pos (.inr hr'), hsource]
  · rw [hmeta q (fun h => ?_), hway₃ q hq (hway₂ q hq)]
    have := hq.length_le
    simp only [h, List.length_append, List.length_singleton] at this
    omega
  · rw [half₄.rest q hq hb, half₃.rest q hq hb, half₂.rest q hq hb, half₁.rest q hq hb]
  · by_contra hf
    rw [Bool.not_eq_false] at hf
    have hsame := half₁.stuck hf []
    rw [List.append_nil] at hsame
    rw [← FileTree.isFile_congr hsame, hempty.2] at hf
    cases hf

/-- The rename puts what was built in its place. -/
theorem placed_of_renamed {t u : Fs} (hu : Built P S x t u) (s : ℤ) (q : Loc) :
    (u.move (P ++ [partialName x]) (P ++ [x]) s).kind q = placed t S P x q := by
  rw [placed]
  cases hrel : relTo (P ++ [x]) q with
  | some r =>
    rw [relTo_eq_some.mp hrel, FileTree.kind_move_append, hu.copied]
  | none =>
    have hx : ¬ P ++ [x] <+: q := relTo_eq_none.mp hrel
    dsimp only
    split_ifs with hb hq
    · exact FileTree.kind_move_source _ _ hx hb
    · rw [FileTree.kind_move_of_outside _ _ hx hb, (hu.way q hq).2]
    · rw [FileTree.kind_move_of_outside _ _ hx hb, hu.rest q hq hb]

/-- A transfer stopped half way, or placed the generation. -/
theorem transfer_ends (hp : d.path.At P) {w w' : World} {res : Except Exn Unit}
    (hg : Generation w.fs P S x src) (hr : w.fs.Rooted (P ++ [partialName x]))
    (h : exec (d.transfer src x.val) w = (res, w')) :
    (res ≠ .ok () ∧ Halfway P x w.fs w'.fs) ∨
      ((∀ q, q <+: P → w.fs.isFile q = false) ∧ w.fs.isFile (P ++ [partialName x]) = false ∧
        ∀ q, w'.fs.kind q = placed w.fs S P x q) := by
  rcases exec_bind_cases h with ⟨e, he, rfl⟩ | ⟨_, w₁, h₁, h⟩
  · exact .inl ⟨by simp, (mkdir_halfway hp).of_exec he⟩
  have c₁ : HalfwayWorld P x w w₁ := (mkdir_halfway hp).of_exec h₁
  rcases exec_bind_cases h with ⟨e, he, rfl⟩ | ⟨_, w₂, h₂, h⟩
  · exact .inl ⟨by simp, c₁.trans ((clear_stale_halfway hp).of_exec he)⟩
  have c₂ : HalfwayWorld P x w w₂ := c₁.trans ((clear_stale_halfway hp).of_exec h₂)
  rcases exec_bind_cases h with ⟨e, he, rfl⟩ | ⟨_, w₃, h₃, h⟩
  · exact .inl ⟨by simp, c₂.trans ((copytree_halfway hp _).of_exec he)⟩
  have c₃ : HalfwayWorld P x w w₃ := c₂.trans ((copytree_halfway hp _).of_exec h₃)
  rcases exec_bind_cases h with ⟨e, he, rfl⟩ | ⟨_, w₄, h₄, h⟩
  · exact .inl ⟨by simp, c₃.trans ((copy_meta_halfway hp).of_exec he)⟩
  have c₄ : HalfwayWorld P x w w₄ := c₃.trans ((copy_meta_halfway hp).of_exec h₄)
  rcases rename_cases h with ⟨ht, -, hres⟩ | ⟨a, b, s, ha, hb, -, ht, -⟩
  · exact .inl ⟨hres, Halfway.trans c₄ (Halfway.of_kind (fun q => by rw [World.fs, ht, World.fs]))⟩
  · obtain rfl : P ++ [partialName x] = a :=
      Option.some.inj (((partial_dir_at hp x).find _).symm.trans ha)
    obtain rfl : P ++ [x] = b := Option.some.inj (((hp.join x).find _).symm.trans hb)
    have hbuilt := built_of_ok hp hg hr h₁ h₂ h₃ h₄
    refine .inr ⟨fun q hq => (hbuilt.way q hq).1, hbuilt.loose, fun q => ?_⟩
    have hfs : w'.fs = w₄.fs.move (P ++ [partialName x]) (P ++ [x]) s := by
      rw [World.fs, ht]
      rfl
    rw [hfs, placed_of_renamed hbuilt]

theorem mkdir_calm (hp : d.path.At P) {w : World} (hc : Calm w) :
    exec (mkdir d.path) w = if blocked w.fs d.path then (.error (enotdir d.path), w.next)
      else (.ok (), w.next.setTree none (w.fs.mkdirs d.path.chain (w.tape 0).stamp)) := by
  rw [mkdir, exec_primitive, World.fs_next, hc 0, if_neg (by simp [hp.nul])]

theorem blocked_iff (hp : d.path.At P) (t : Fs) :
    blocked t d.path = true ↔ ∃ q, q <+: P ∧ t.isFile q = true := by
  simp [blocked, hp.mem_chain]

/-- A file on the way stops a store before it changes anything. -/
theorem transfer_blocked (src : Path) (x : Name) (hp : d.path.At P) {w : World}
    (hb : ∃ q, q <+: P ∧ w.fs.isFile q = true) :
    ∃ e, exec (d.transfer src x.val) w = (.error e, w.next) := by
  have hmk : ∃ e, exec (mkdir d.path) w = (.error e, w.next) := by
    rw [mkdir, exec_primitive, World.fs_next, if_neg (by simp [hp.nul]),
      if_pos ((blocked_iff hp _).mpr hb)]
    exact ⟨_, rfl⟩
  obtain ⟨e, hmk⟩ := hmk
  exact ⟨e, by rw [transfer, exec_bind_error hmk]⟩

theorem clear_stale_calm (hp : d.path.At P) {w : World} (hc : Calm w)
    (hfile : w.fs.isFile (P ++ [partialName x]) = false) :
    ∃ w', exec (d.clear_stale x.val) w = (.ok (), w') ∧ Calm w' := by
  have hb := partial_dir_at hp x
  have hlook : exec (path_exists (d.partial_dir x.val)) w =
      (.ok (w.fs.present (P ++ [partialName x])), w.next) := by
    rw [path_exists, ask_calm hc]
    simp [Path.presentIn, hb.find]
  rw [clear_stale, exec_bind_ok hlook]
  cases hpres : w.fs.present (P ++ [partialName x]) with
  | false => exact ⟨_, rfl, hc.next⟩
  | true =>
    have hdir : w.next.fs.isDir (P ++ [partialName x]) = true := by
      have hk := (FileTree.present_iff _ _).mp hpres
      rw [World.fs_next, FileTree.isDir_iff]
      cases hkind : w.fs.kind (P ++ [partialName x]) with
      | none => exact absurd hkind hk
      | some k =>
        cases k with
        | dir => rfl
        | file data => simp [FileTree.isFile, hkind] at hfile
    have hok := rmtree_succeeds hc.next hb (by simp) hdir
    exact ⟨_, Prod.ext hok rfl, (rmtree_calm hb.nul hc.next).1⟩

theorem copytree_calm (hp : d.path.At P) {w : World} (hc : Calm w) (hg : Generation w.fs P S x src)
    (hway : ∀ q, q <+: P → w.fs.kind q = some .dir)
    (hnone : w.fs.kind (P ++ [partialName x]) = none) (ignore : Name → Bool) :
    ∃ w', exec (copytree src (d.partial_dir x.val) ignore) w = (.ok (), w') ∧ Calm w' := by
  have hb := partial_dir_at hp x
  have hfree : blocked w.fs (d.partial_dir x.val) = false := by
    rw [Bool.eq_false_iff, Ne, blocked, List.any_eq_true]
    rintro ⟨q, hq, hf⟩
    rcases List.prefix_concat_iff.mp (hb.mem_chain.mp hq) with rfl | hq
    · simp [FileTree.isFile, hnone] at hf
    · simp [FileTree.isFile, hway q hq] at hf
  rw [copytree, exec_primitive, World.fs_next, hg.leads.find, hb.find, hc 0]
  dsimp only
  rw [if_neg (by simp [hg.dir]), if_neg (by simp [FileTree.present_iff, hnone]),
    if_neg (by simp [hfree])]
  exact ⟨_, rfl, hc.next⟩

theorem copy_meta_calm (hp : d.path.At P) {w : World} (hc : Calm w) (hg : Generation w.fs P S x src)
    (hdir : w.fs.kind (P ++ [partialName x]) = some .dir)
    (hnone : w.fs.kind (P ++ [partialName x] ++ [META_FILENAME]) = none) :
    ∃ w', exec (d.copy_meta src x.val) w = (.ok (), w') ∧ Calm w' := by
  have hb := (partial_dir_at hp x).child META_FILENAME
  have hS := hg.leads.child META_FILENAME
  obtain ⟨data, hdata⟩ := hg.manifest
  have hlook : exec (is_file (src.child META_FILENAME)) w = (.ok true, w.next) := by
    rw [is_file, ask_calm hc]
    simp [Path.isFileIn, hS.find, FileTree.isFile, hdata]
  rw [copy_meta, exec_bind_ok hlook, if_pos rfl, copy2, exec_primitive, World.fs_next, hS.find,
    hb.find]
  simp only [World.fs_next, hdata, show (w.next.tape 0).fault = none from hc 1]
  have hnodir : w.fs.isDir (P ++ [partialName x] ++ [META_FILENAME]) = false := by
    rw [FileTree.isDir, hnone]
  rw [if_neg (by rw [hnodir, List.dropLast_concat, (FileTree.isDir_iff _ _).mpr hdir]; simp)]
  exact ⟨_, rfl, hc.next.next⟩

theorem rename_calm (hp : d.path.At P) {w : World} (hc : Calm w)
    (hdir : w.fs.kind (P ++ [partialName x]) = some .dir) (hway : w.fs.kind P = some .dir)
    (hvacant : ∀ r, w.fs.kind (P ++ [x] ++ r) = none) :
    ∃ w', exec (rename (d.partial_dir x.val) (d.final_dir x.val)) w = (.ok (), w') := by
  have hb := partial_dir_at hp x
  have hx := hp.join x
  have hren : renamable w.fs (P ++ [partialName x]) (P ++ [x]) = true := by
    refine renamable_iff.mpr
      ⟨hdir, fun h => ?_, by simpa using hway, FileTree.vacant_iff.mpr ⟨?_, ?_⟩⟩
    · exact partialName_ne x (by simpa using h)
    · have := hvacant []
      rw [List.append_nil] at this
      simp [FileTree.isFile, this]
    · rintro m ⟨r, rfl⟩ -
      exact hvacant r
  rw [rename, exec_primitive, World.fs_next, hb.find, hx.find]
  simp only [hren, if_true, hc 0]
  exact ⟨_, rfl⟩

/-- Where nothing is in the way, a transfer without a fault succeeds. -/
theorem transfer_calm (hp : d.path.At P) {w : World} (hc : Calm w) (hg : Generation w.fs P S x src)
    (hr : w.fs.Rooted (P ++ [partialName x])) (hfree : ∀ q, q <+: P → w.fs.isFile q = false)
    (hfile : w.fs.isFile (P ++ [partialName x]) = false)
    (habsent : ∀ r, w.fs.kind (P ++ [x] ++ r) = none) :
    (exec (d.transfer src x.val) w).1 = .ok () := by
  have hxp : x ≠ partialName x := (partialName_ne x).symm
  obtain ⟨w₁, h₁, hc₁⟩ : ∃ w₁, exec (mkdir d.path) w = (.ok (), w₁) ∧ Calm w₁ := by
    have hnot : ¬ blocked w.fs d.path = true := fun hb => by
      obtain ⟨q, hq, hf⟩ := (blocked_iff hp _).mp hb
      rw [hfree q hq] at hf
      cases hf
    rw [mkdir_calm hp hc, if_neg hnot]
    exact ⟨_, rfl, hc.next⟩
  have half₁ : Halfway P x w.fs w₁.fs := (mkdir_halfway hp).of_exec h₁
  have hway₁ := (mkdir_ok hp h₁).2
  obtain ⟨w₂, h₂, hc₂⟩ := clear_stale_calm hp hc₁ (half₁.loose hfile)
  have half₂ : Halfway P x w₁.fs w₂.fs := (clear_stale_halfway hp).of_exec h₂
  have hempty := (clear_stale_ok hp (half₁.rooted hr) h₂).1
  have hg₂ := (half₁.trans half₂).generation hg
  have hway₂ : ∀ q, q <+: P → w₂.fs.kind q = some .dir := fun q hq =>
    (half₂.way q hq).elim (fun he => he.trans (hway₁ q hq)) And.right
  have hnone : w₂.fs.kind (P ++ [partialName x]) = none := by simpa using hempty []
  obtain ⟨w₃, h₃, hc₃⟩ := copytree_calm hp hc₂ hg₂ hway₂ hnone (· = META_FILENAME)
  have half₃ : Halfway P x w₂.fs w₃.fs := (copytree_halfway hp _).of_exec h₃
  obtain ⟨hcopied, hway₃⟩ := copytree_partial_ok hp hg₂ hempty h₃
  have hdir₃ : w₃.fs.kind (P ++ [partialName x]) = some .dir := by
    have := hcopied []
    rw [List.append_nil, List.append_nil, if_neg List.not_mem_nil, hg₂.dir] at this
    exact this
  obtain ⟨w₄, h₄, hc₄⟩ := copy_meta_calm hp hc₃ (half₃.generation hg₂) hdir₃
    (by rw [hcopied, if_pos (List.mem_singleton_self _)])
  have half₄ : Halfway P x w₃.fs w₄.fs := (copy_meta_halfway hp).of_exec h₄
  have hrest := copy_meta_rest hp h₄
  have hdir₄ : w₄.fs.kind (P ++ [partialName x]) = some .dir := by
    rw [hrest _ (by simp), hdir₃]
  have hway₄ : w₄.fs.kind P = some .dir := by
    rw [hrest _ (by simp), hway₃ P (List.prefix_refl _) (hway₂ P (List.prefix_refl _))]
  obtain ⟨w₅, h₅⟩ := rename_calm hp hc₄ hdir₄ hway₄ (fun r => by
    rw [half₄.entry hxp, half₃.entry hxp, half₂.entry hxp, half₁.entry hxp, habsent])
  rw [transfer, exec_bind_ok h₁, exec_bind_ok h₂, exec_bind_ok h₃, exec_bind_ok h₄, h₅]

/-- What a run does whose errors are wrapped: an `OSError` does not get out. -/
theorem guarded_not_os {α : Type} {context message : String} {m : Io α} {w : World} :
    (exec (guarded context m) w).1 ≠ .error (.os message) := by
  rw [guarded, exec_tryCatch]
  rcases exec m w with ⟨e | a, u⟩
  · cases e <;> simp [asDestinationError]
  · simp

/-- A store looks for the manifest of the generation and, unless it is there, transfers. -/
theorem store_stages (hp : d.path.At P) (src : Path) (x : Name) (w : World) :
    ((exec (d.store src x.val) w).2 = w.next ∧
        (w.fs.isFile (P ++ [x] ++ [META_FILENAME]) = true ∨ (w.tape 0).fault ≠ none) ∧
        ((exec (d.store src x.val) w).1 = .ok () →
          w.fs.isFile (P ++ [x] ++ [META_FILENAME]) = true) ∧
        ∀ e, (exec (d.store src x.val) w).1 = .error e → (w.tape 0).fault = some e) ∨
      (w.tape 0).fault = none ∧ w.fs.isFile (P ++ [x] ++ [META_FILENAME]) = false ∧
        exec (d.store src x.val) w =
          exec (guarded s!"destination '{d.name}': store failed: " (d.transfer src x.val))
            w.next := by
  have hx := (hp.join x).child META_FILENAME
  cases hf : (w.tape 0).fault with
  | some e =>
    have hlook : exec (is_file ((d.final_dir x.val).child META_FILENAME)) w =
        (.error e, w.next) := by rw [is_file, exec_ask, hf]
    rw [store, exec_bind_error hlook]
    refine .inl ⟨rfl, .inr (by simp), fun hok => (by cases hok), fun e' he' => ?_⟩
    rw [Except.error.inj he']
  | none =>
    have hlook : exec (is_file ((d.final_dir x.val).child META_FILENAME)) w =
        (.ok (w.fs.isFile (P ++ [x] ++ [META_FILENAME])), w.next) := by
      rw [is_file, exec_ask, hf]
      simp [Path.isFileIn, hx.find]
    rw [store, exec_bind_ok hlook]
    cases hm : w.fs.isFile (P ++ [x] ++ [META_FILENAME]) with
    | true => exact .inl ⟨rfl, .inl rfl, fun _ => rfl, fun _ he => by cases he⟩
    | false => exact .inr ⟨rfl, rfl, rfl⟩

/-- Any number of stores of one generation, each against a behaviour of the environment of its
own. -/
inductive Attempts (d : LocalDestination) (src : Path) (x : Name) (w : World) : World → Prop where
  | none : Attempts d src x w w
  | again {u v : World} (h : Attempts d src x w u) (hv : v.tree = u.tree) :
      Attempts d src x w (exec (d.store src x.val) v).2

/-- Where the tree `t` stands after some attempts: half way, and untouched where a file is in the
way; or with the generation in its place. -/
inductive Tried (P S : Loc) (x : Name) (t t' : Fs) : Prop where
  | halfway (h : Halfway P x t t')
      (hblocked : (∃ q, q <+: P ∧ t.isFile q = true) → ∀ q, t'.kind q = t.kind q)
  | placed (hfree : ∀ q, q <+: P → t.isFile q = false)
      (hfile : t.isFile (P ++ [partialName x]) = false)
      (hkind : ∀ q, t'.kind q = placed t S P x q)

namespace Tried

variable {t t' : Fs}

/-- Placing a generation over what attempts left is placing it at the start. -/
theorem placed_congr (hg : Generation t P S x src) (h : Halfway P x t t') (q : Loc) :
    LocalDestination.placed t' S P x q = LocalDestination.placed t S P x q := by
  rw [LocalDestination.placed, LocalDestination.placed]
  cases relTo (P ++ [x]) q with
  | some r => simp only [copyOf, h.source hg]
  | none =>
    dsimp only
    split_ifs with hb hq
    · rfl
    · rfl
    · exact h.rest q hq hb

theorem free_of_halfway
    (hblocked : (∃ q, q <+: P ∧ t.isFile q = true) → ∀ q, t'.kind q = t.kind q)
    (hfree : ∀ q, q <+: P → t'.isFile q = false) : ∀ q, q <+: P → t.isFile q = false := by
  intro q hq
  by_contra hf
  rw [Bool.not_eq_false] at hf
  have := hfree q hq
  rw [FileTree.isFile_congr (hblocked ⟨q, hq, hf⟩ q), hf] at this
  cases this

theorem loose_of_halfway (h : Halfway P x t t')
    (hfile : t'.isFile (P ++ [partialName x]) = false) :
    t.isFile (P ++ [partialName x]) = false := by
  by_contra hf
  rw [Bool.not_eq_false] at hf
  have hsame := h.stuck hf []
  rw [List.append_nil] at hsame
  rw [FileTree.isFile_congr hsame, hf] at hfile
  cases hfile

/-- A placed generation is complete. -/
theorem complete (hg : Generation t P S x src)
    (hkind : ∀ q, t'.kind q = LocalDestination.placed t S P x q) :
    t'.isFile (P ++ [x] ++ [META_FILENAME]) = true := by
  obtain ⟨data, hdata⟩ := hg.manifest
  refine (FileTree.isFile_iff _ _).mpr ⟨data, ?_⟩
  rw [hkind, LocalDestination.placed, relTo_append]
  simpa [copyOf] using hdata

theorem store (hp : d.path.At P) (hg : Generation t P S x src)
    (hr : t.Rooted (P ++ [partialName x])) {w : World} (h : Tried P S x t w.fs) :
    Tried P S x t (exec (d.store src x.val) w).2.fs := by
  rcases store_stages hp src x w with ⟨hw, -⟩ | ⟨-, hnot, heq⟩
  · rw [hw]
    exact h
  · rw [heq, guarded_state]
    cases h with
    | placed hfree hfile hkind =>
      rw [complete hg hkind] at hnot
      cases hnot
    | halfway h hblocked =>
      have hg' : Generation w.next.fs P S x src := h.generation hg
      by_cases hb : ∃ q, q <+: P ∧ w.next.fs.isFile q = true
      · obtain ⟨e, he⟩ := transfer_blocked src x hp hb
        rw [he]
        exact .halfway h hblocked
      · rcases transfer_ends hp hg' (h.rooted hr)
          (Prod.eta (exec (d.transfer src x.val) w.next)).symm with ⟨-, h'⟩ | ⟨hfree, hfile, hkind⟩
        · refine .halfway (h.trans h') (fun ⟨q, hq, hf⟩ => absurd ⟨q, hq, ?_⟩ hb)
          rwa [World.fs_next, FileTree.isFile_congr (hblocked ⟨q, hq, hf⟩ q)]
        · exact .placed (free_of_halfway hblocked hfree) (loose_of_halfway h hfile)
            (fun q => (hkind q).trans (placed_congr hg h q))

end Tried

theorem Attempts.tried (hp : d.path.At P) {w : World} (hg : Generation w.fs P S x src)
    (hr : w.fs.Rooted (P ++ [partialName x])) {u : World} (h : Attempts d src x w u) :
    Tried P S x w.fs u.fs := by
  induction h with
  | none => exact .halfway (Halfway.refl P x w.fs) (fun _ _ => rfl)
  | @again u v _ hv ih =>
    refine Tried.store hp hg hr ?_
    have hfs : v.fs = u.fs := congrFun hv Option.none
    rwa [hfs]

/-- Where a store without a fault ends, by the tree before the first attempt. -/
structure Settled (P S : Loc) (x : Name) (t : Fs) (res : Except Exn Unit) (t' : Fs) : Prop where
  blocked : (∃ q, q <+: P ∧ t.isFile q = true) → res ≠ .ok () ∧ ∀ q, t'.kind q = t.kind q
  stuck : (∀ q, q <+: P → t.isFile q = false) → t.isFile (P ++ [partialName x]) = true →
    res ≠ .ok () ∧ ∀ q, t'.kind q = if q <+: P then some .dir else t.kind q
  stored : (∀ q, q <+: P → t.isFile q = false) → t.isFile (P ++ [partialName x]) = false →
    res = .ok () ∧ ∀ q, t'.kind q = placed t S P x q

/-- A file at the building directory's name stops a transfer after the directories are made. -/
theorem transfer_stuck (hp : d.path.At P) {w : World} (hc : Calm w) {t : Fs}
    (h : Halfway P x t w.fs) (hfree : ∀ q, q <+: P → w.fs.isFile q = false)
    (hfile : t.isFile (P ++ [partialName x]) = true) :
    (exec (d.transfer src x.val) w).1 ≠ .ok () ∧ ∀ q,
      (exec (d.transfer src x.val) w).2.fs.kind q = if q <+: P then some .dir else t.kind q := by
  have hnot : ¬ blocked w.fs d.path = true := fun hb => by
    obtain ⟨q, hq, hf⟩ := (blocked_iff hp _).mp hb
    rw [hfree q hq] at hf
    cases hf
  have h₁ : exec (mkdir d.path) w =
      (.ok (), w.next.setTree none (w.fs.mkdirs d.path.chain (w.tape 0).stamp)) := by
    rw [mkdir_calm hp hc, if_neg hnot]
  generalize w.next.setTree none (w.fs.mkdirs d.path.chain (w.tape 0).stamp) = w₁ at h₁
  have half₁ : Halfway P x t w₁.fs := h.trans ((mkdir_halfway hp).of_exec h₁)
  have hfile₁ : w₁.fs.isFile (P ++ [partialName x]) = true := by
    have hsame := half₁.stuck hfile []
    rw [List.append_nil] at hsame
    rwa [FileTree.isFile_congr hsame]
  have hway₁ := (mkdir_ok hp h₁).2
  rcases hx : exec (d.clear_stale x.val) w₁ with ⟨e | _, w₂⟩
  · have half₂ : Halfway P x t w₂.fs := half₁.trans ((clear_stale_halfway hp).of_exec hx)
    have hway₂ : Halfway P x w₁.fs w₂.fs := (clear_stale_halfway hp).of_exec hx
    rw [transfer, exec_bind_ok h₁, exec_bind_error hx]
    refine ⟨by simp, fun q => ?_⟩
    split_ifs with hq
    · exact (hway₂.way q hq).elim (fun he => he.trans (hway₁ q hq)) And.right
    · by_cases hb : P ++ [partialName x] <+: q
      · obtain ⟨r, rfl⟩ := hb
        exact half₂.stuck hfile r
      · exact half₂.rest q hq hb
  · have := (clear_stale_ok hp (FileTree.Rooted.of_present
      (FileTree.kind_ne_none_of_isFile hfile₁)) hx).2
    rw [hfile₁] at this
    cases this

/-- A store without a fault settles the tree, whatever was tried before. -/
theorem store_settles (hp : d.path.At P) {t : Fs} (hg : Generation t P S x src)
    (hr : t.Rooted (P ++ [partialName x]))
    (habsent : ∀ r, t.kind (P ++ [x] ++ r) = none) {v : World}
    (hc : Calm v) (h : Tried P S x t v.fs) :
    Settled P S x t (exec (d.store src x.val) v).1 (exec (d.store src x.val) v).2.fs := by
  cases h with
  | placed hfree hfile hkind =>
    have hcomplete := Tried.complete hg hkind
    have hdone : exec (d.store src x.val) v = (.ok (), v.next) := by
      rcases store_stages hp src x v with ⟨hw, -, -, herr⟩ | ⟨-, hnot, -⟩
      · refine Prod.ext ?_ hw
        rcases hres : (exec (d.store src x.val) v).1 with e | _
        · have := herr e hres
          rw [hc 0] at this
          cases this
        · rfl
      · rw [hcomplete] at hnot
        cases hnot
    rw [hdone]
    refine ⟨fun ⟨q, hq, hf⟩ => ?_, fun _ hf => ?_, fun _ _ => ⟨rfl, hkind⟩⟩
    · rw [hfree q hq] at hf
      cases hf
    · rw [hfile] at hf
      cases hf
  | halfway h hblocked =>
    have hnot : v.fs.isFile (P ++ [x] ++ [META_FILENAME]) = false := by
      have := h.entry (partialName_ne x).symm [META_FILENAME]
      rw [FileTree.isFile, this, habsent]
    have heq : exec (d.store src x.val) v =
        exec (guarded s!"destination '{d.name}': store failed: " (d.transfer src x.val))
          v.next := by
      rcases store_stages hp src x v with ⟨-, hor, -⟩ | ⟨-, -, heq⟩
      · rcases hor with hf | hf
        · rw [hnot] at hf
          cases hf
        · exact absurd (hc 0) hf
      · exact heq
    have hres : (exec (d.store src x.val) v).1 = .ok () ↔
        (exec (d.transfer src x.val) v.next).1 = .ok () := by
      rw [heq]
      constructor
      · intro hok
        rw [guarded_ok.mp (Prod.ext hok rfl)]
      · intro hok
        rw [guarded_ok.mpr (Prod.ext hok rfl)]
    have hstate : (exec (d.store src x.val) v).2 = (exec (d.transfer src x.val) v.next).2 := by
      rw [heq, guarded_state]
    rw [hstate]
    have hfree :
        (∀ q, q <+: P → t.isFile q = false) → ∀ q, q <+: P → v.next.fs.isFile q = false := by
      intro hfree q hq
      rcases h.way q hq with he | ⟨-, hd⟩
      · rw [World.fs_next, FileTree.isFile_congr he, hfree q hq]
      · exact FileTree.isFile_of_dir hd
    refine ⟨fun hb => ?_, fun hf hfile => ?_, fun hf hfile => ?_⟩
    · have hb' : ∃ q, q <+: P ∧ v.next.fs.isFile q = true := by
        obtain ⟨q, hq, hf⟩ := hb
        exact ⟨q, hq, by rw [World.fs_next, FileTree.isFile_congr (hblocked ⟨q, hq, hf⟩ q), hf]⟩
      obtain ⟨e, he⟩ := transfer_blocked src x hp hb'
      rw [Ne, hres, he]
      exact ⟨by simp, hblocked hb⟩
    · rw [Ne, hres]
      exact transfer_stuck hp hc.next h (hfree hf) hfile
    · have hg' : Generation v.next.fs P S x src := h.generation hg
      have hok := transfer_calm hp hc.next hg' (h.rooted hr) (hfree hf) (h.loose hfile)
        (fun r => by rw [World.fs_next, h.entry (partialName_ne x).symm, habsent])
      refine ⟨hres.mpr hok, fun q => ?_⟩
      rcases transfer_ends hp hg' (h.rooted hr)
        (Prod.eta (exec (d.transfer src x.val) v.next)).symm with ⟨hne, -⟩ | ⟨-, -, hkind⟩
      · exact absurd hok hne
      · exact (hkind q).trans (Tried.placed_congr hg h q)

/-- Once the tree has settled a further store changes nothing, with or without faults. -/
theorem Settled.again (hp : d.path.At P) {t t' : Fs} (hg : Generation t P S x src)
    {res : Except Exn Unit} (h : Settled P S x t res t') {z : World} (hz : z.fs = t') (q : Loc) :
    (exec (d.store src x.val) z).2.fs.kind q = z.fs.kind q := by
  rcases store_stages hp src x z with ⟨hw, -⟩ | ⟨-, hnot, heq⟩
  · rw [hw, World.fs_next]
  rw [heq, guarded_state]
  by_cases hb : ∃ q, q <+: P ∧ t.isFile q = true
  · have hb' : ∃ q, q <+: P ∧ z.next.fs.isFile q = true := by
      obtain ⟨q, hq, hf⟩ := hb
      exact ⟨q, hq, by rw [World.fs_next, hz,
        FileTree.isFile_congr ((h.blocked ⟨q, hq, hf⟩).2 q), hf]⟩
    obtain ⟨e, he⟩ := transfer_blocked src x hp hb'
    rw [he]
    rfl
  have hfree : ∀ q, q <+: P → t.isFile q = false := fun q hq => by
    by_contra hf
    exact hb ⟨q, hq, by simpa using hf⟩
  by_cases hfile : t.isFile (P ++ [partialName x]) = true
  · have hkind := (h.stuck hfree hfile).2
    have hout : ∀ r, ¬ P ++ [partialName x] ++ r <+: P := fun r hq => by
      have := hq.length_le
      simp only [List.length_append, List.length_singleton] at this
      omega
    have hhalf : Halfway P x t z.next.fs := by
      refine ⟨fun q hq _ => by rw [World.fs_next, hz, hkind, if_neg hq], fun q hq => ?_,
        fun hr hn => ?_,
        fun _ r => by rw [World.fs_next, hz, hkind, if_neg (hout r)], fun hf => ?_⟩
      · rw [World.fs_next, hz, hkind, if_pos hq]
        cases hk : t.kind q with
        | none => exact .inr ⟨rfl, rfl⟩
        | some k =>
          cases k with
          | dir => exact .inl rfl
          | file data =>
            have := hfree q hq
            rw [(FileTree.isFile_iff _ _).mpr ⟨data, hk⟩] at this
            cases this
      · have := hout []
        rw [List.append_nil] at this
        rw [World.fs_next, hz, hkind, if_neg this] at hn
        exact absurd hn (FileTree.kind_ne_none_of_isFile hfile)
      · rw [hfile] at hf
        cases hf
    have hfile' : z.next.fs.isFile (P ++ [partialName x]) = true := by
      have := hhalf.stuck hfile []
      rw [List.append_nil] at this
      rwa [FileTree.isFile_congr this]
    have hrooted : z.next.fs.Rooted (P ++ [partialName x]) :=
      FileTree.Rooted.of_present (FileTree.kind_ne_none_of_isFile hfile')
    rcases transfer_ends hp (hhalf.generation hg) hrooted
      (Prod.eta (exec (d.transfer src x.val) z.next)).symm with ⟨-, h'⟩ | ⟨-, hf, -⟩
    · by_cases hq : q <+: P
      · refine (h'.way q hq).elim id (fun hn => ?_)
        have := hn.1
        rw [World.fs_next, hz, hkind, if_pos hq] at this
        cases this
      · by_cases hbq : P ++ [partialName x] <+: q
        · obtain ⟨r, rfl⟩ := hbq
          exact h'.stuck hfile' r
        · exact h'.rest q hq hbq
    · rw [hfile'] at hf
      cases hf
  · rw [hz, Tried.complete hg (h.stored hfree (by simpa using hfile)).2] at hnot
    cases hnot

/-- The steps of a store after its look at the manifest. -/
def steps (d : LocalDestination) (src : Path) (backup_id : String) : List (Io Unit) :=
  [mkdir d.path, d.clear_stale backup_id,
    copytree src (d.partial_dir backup_id) (· = META_FILENAME), d.copy_meta src backup_id,
    rename (d.partial_dir backup_id) (d.final_dir backup_id)]

def inTurn : List (Io Unit) → Io Unit
  | [] => pure ()
  | step :: rest => do
    step
    inTurn rest

theorem transfer_eq (d : LocalDestination) (src : Path) (backup_id : String) :
    d.transfer src backup_id = inTurn (d.steps src backup_id) := by
  simp only [transfer, steps, inTurn, bind_pure_unit]

/-- The step that raises is the last one. -/
theorem inTurn_raises {done rest : List (Io Unit)} {step : Io Unit} {w v w' : World} {e : Exn}
    (hdone : exec (inTurn done) w = (.ok (), v)) (hstep : exec step v = (.error e, w')) :
    exec (inTurn (done ++ step :: rest)) w = (.error e, w') := by
  induction done generalizing w with
  | nil =>
    obtain ⟨-, rfl⟩ := exec_pure_eq_ok hdone
    exact exec_bind_error hstep _
  | cons first done ih =>
    obtain ⟨_, u, hfirst, hdone⟩ := exec_bind_eq_ok hdone
    rw [List.cons_append, inTurn, exec_bind_ok hfirst]
    exact ih hdone

/-- An `OSError` of a step comes out of the store as a `DestinationError`. -/
theorem store_surfaces (hp : d.path.At P) {v u w' : World} {message : String}
    (hlook : (v.tape 0).fault = none)
    (hfile : v.fs.isFile (P ++ [x] ++ [META_FILENAME]) = false) {done rest : List (Io Unit)}
    {step : Io Unit} (hsteps : d.steps src x.val = done ++ step :: rest)
    (hdone : exec (inTurn done) v.next = (.ok (), u))
    (hstep : exec step u = (.error (.os message), w')) :
    exec (d.store src x.val) v =
      (.error (.destination s!"destination '{d.name}': store failed: {message}"), w') := by
  rcases store_stages hp src x v with ⟨-, hno, -⟩ | ⟨-, -, heq⟩
  · rcases hno with hthere | hfault
    · rw [hfile] at hthere
      cases hthere
    · exact absurd hlook hfault
  · rw [heq, guarded, exec_tryCatch, transfer_eq, hsteps, inTurn_raises hdone hstep]
    rfl

/-- Stores of `x` that failed anywhere, in any number, have changed nothing but `x` and its
building directory, and `x` is not there or is complete. A store that meets an `OSError` in any of
its steps raises a `DestinationError` with its text, and an `OSError` gets out of a store only when
the look at the manifest fails. A store without a fault then leaves what it would have left at the
start, and a further store changes nothing. -/
theorem local_store_all_or_nothing (hp : d.path.At P) {w : World} (hg : Generation w.fs P S x src)
    (htree : ∀ l, w.fs.Rooted l) (habsent : w.fs.kind (P ++ [x]) = none) {u : World}
    (h : Attempts d src x w u) :
    (∀ y, y ≠ x → y ≠ partialName x → ∀ r,
        u.fs.kind (P ++ [y] ++ r) = w.fs.kind (P ++ [y] ++ r)) ∧
      ((∀ r, u.fs.kind (P ++ [x] ++ r) = none) ∨
        u.fs.isFile (P ++ [x] ++ [META_FILENAME]) = true ∧
          ∀ r, u.fs.kind (P ++ [x] ++ r) = copyOf w.fs S r) ∧
      (∀ v message, v.tree = u.tree → (v.tape 0).fault = none →
        v.fs.isFile (P ++ [x] ++ [META_FILENAME]) = false → ∀ done step rest v' w',
          d.steps src x.val = done ++ step :: rest → exec (inTurn done) v.next = (.ok (), v') →
          exec step v' = (.error (.os message), w') →
            exec (d.store src x.val) v =
              (.error (.destination s!"destination '{d.name}': store failed: {message}"), w')) ∧
      (∀ v message, v.tree = u.tree → (exec (d.store src x.val) v).1 = .error (.os message) →
        (v.tape 0).fault = some (.os message)) ∧
      ∀ v w₁, v.tree = u.tree → w₁.tree = w.tree → Calm v → Calm w₁ →
        ((exec (d.store src x.val) v).1 = .ok () ↔ (exec (d.store src x.val) w₁).1 = .ok ()) ∧
        (∀ q, (exec (d.store src x.val) v).2.fs.kind q =
          (exec (d.store src x.val) w₁).2.fs.kind q) ∧
        ∀ z q, z.tree = (exec (d.store src x.val) v).2.tree →
          (exec (d.store src x.val) z).2.fs.kind q = z.fs.kind q := by
  have hr := htree (P ++ [partialName x])
  have hx : ∀ r, w.fs.kind (P ++ [x] ++ r) = none := htree _ habsent
  have hu := h.tried hp hg hr
  refine ⟨fun y hyx hyp r => ?_, ?_, fun v message _ hlook hfile done step rest v' w' hsteps hdone
    hstep => store_surfaces hp hlook hfile hsteps hdone hstep, fun v message _ herr => ?_,
    fun v w₁ hv hw₁ hcv hcw => ?_⟩
  · cases hu with
    | halfway hh => exact hh.entry hyp r
    | placed _ _ hkind =>
      have hout : ¬ P ++ [y] ++ r <+: P := fun hq => by
        have := hq.length_le
        simp only [List.length_append, List.length_singleton] at this
        omega
      rw [hkind, placed, relTo_eq_none.mpr (fun hq => hyx (prefix_entry_iff.mp hq).symm)]
      dsimp only
      rw [if_neg (fun hq => hyp (prefix_entry_iff.mp hq).symm), if_neg hout]
  · cases hu with
    | halfway hh => exact .inl (fun r => by rw [hh.entry (partialName_ne x).symm, hx])
    | placed _ _ hkind =>
      refine .inr ⟨Tried.complete hg hkind, fun r => ?_⟩
      rw [hkind, placed, relTo_append]
  · rcases store_stages hp src x v with ⟨-, -, -, hraise⟩ | ⟨-, -, heq⟩
    · exact hraise _ herr
    · rw [heq] at herr
      exact absurd herr guarded_not_os
  · have hvfs : v.fs = u.fs := congrFun hv none
    have hwfs : w₁.fs = w.fs := congrFun hw₁ none
    have hsv := store_settles hp hg hr hx hcv (hvfs ▸ hu)
    have hsw := store_settles hp hg hr hx hcw
      (.halfway (Halfway.of_kind (fun q => by rw [hwfs])) (fun _ q => by rw [hwfs]))
    refine ⟨?_, fun q => ?_, fun z q hz => hsv.again hp hg (congrFun hz none) q⟩
    · by_cases hb : ∃ q, q <+: P ∧ w.fs.isFile q = true
      · exact iff_of_false (hsv.blocked hb).1 (hsw.blocked hb).1
      · have hfree : ∀ q, q <+: P → w.fs.isFile q = false := fun q hq => by
          by_contra hf
          exact hb ⟨q, hq, by simpa using hf⟩
        cases hfile : w.fs.isFile (P ++ [partialName x]) with
        | true => exact iff_of_false (hsv.stuck hfree hfile).1 (hsw.stuck hfree hfile).1
        | false => exact iff_of_true (hsv.stored hfree hfile).1 (hsw.stored hfree hfile).1
    · by_cases hb : ∃ q, q <+: P ∧ w.fs.isFile q = true
      · rw [(hsv.blocked hb).2, (hsw.blocked hb).2]
      · have hfree : ∀ q, q <+: P → w.fs.isFile q = false := fun q hq => by
          by_contra hf
          exact hb ⟨q, hq, by simpa using hf⟩
        cases hfile : w.fs.isFile (P ++ [partialName x]) with
        | true => rw [(hsv.stuck hfree hfile).2, (hsw.stuck hfree hfile).2]
        | false => rw [(hsv.stored hfree hfile).2, (hsw.stored hfree hfile).2]

/-- A store whose copy fails after it made its directory. -/
def failingCopy (t : Fs) : World :=
  { smallWorld t with
    tape := fun n => if n = 3 then
      { Reply.good 0 with
        fault := some (.os "No space left on device")
        paths := [[entry "b", entry "x.partial"]] }
      else Reply.good 0 }

/-- It raises a `DestinationError`, it is tried again, and the generation is stored. -/
theorem local_store_all_or_nothing_retry :
    (exec ((LocalDestination.from_config [] (smallDestination "/b" 1)).store
        (Path.configured [] (PurePath.parse "/w/x")) "x")
        (failingCopy (smallTree.addGeneration [entry "w", entry "x"]))).1 =
      .error (.destination "destination 'disk': store failed: No space left on device") ∧
    ∃ u : World, Attempts (LocalDestination.from_config [] (smallDestination "/b" 1))
        (Path.configured [] (PurePath.parse "/w/x")) (entry "x")
        (smallWorld (smallTree.addGeneration [entry "w", entry "x"])) u ∧
      u.fs.kind [entry "b", entry "x.partial"] = some .dir ∧
      ∀ q, (exec ((LocalDestination.from_config [] (smallDestination "/b" 1)).store
          (Path.configured [] (PurePath.parse "/w/x")) "x") (smallWorld u.fs)).2.fs.kind q =
        (exec ((LocalDestination.from_config [] (smallDestination "/b" 1)).store
          (Path.configured [] (PurePath.parse "/w/x")) "x")
          (smallWorld (smallTree.addGeneration [entry "w", entry "x"]))).2.fs.kind q := by
  have hg : Generation (smallWorld (smallTree.addGeneration [entry "w", entry "x"])).fs [entry "b"]
      [entry "w", entry "x"] (entry "x") (Path.configured [] (PurePath.parse "/w/x")) :=
    ⟨⟨⟨[], rfl, by decide⟩, rfl⟩, by decide, by decide, by decide, by decide, "", by decide⟩
  have hp : (LocalDestination.from_config [] (smallDestination "/b" 1)).path.At [entry "b"] :=
    ⟨⟨[], rfl, by decide⟩, rfl⟩
  have htree : ∀ l, (smallWorld (smallTree.addGeneration [entry "w", entry "x"])).fs.Rooted l :=
    FileTree.rooted_of_locs (by decide)
  have hu : Attempts (LocalDestination.from_config [] (smallDestination "/b" 1))
      (Path.configured [] (PurePath.parse "/w/x")) (entry "x")
      (smallWorld (smallTree.addGeneration [entry "w", entry "x"])) _ :=
    .again (v := failingCopy (smallTree.addGeneration [entry "w", entry "x"])) .none rfl
  have hall := local_store_all_or_nothing hp hg htree (by decide) hu
  have hfirst := local_store_all_or_nothing hp hg htree (by decide) .none
  have hraised := hfirst.2.2.1 (failingCopy (smallTree.addGeneration [entry "w", entry "x"]))
    "No space left on device" rfl rfl (by decide)
    [mkdir (LocalDestination.from_config [] (smallDestination "/b" 1)).path,
      (LocalDestination.from_config [] (smallDestination "/b" 1)).clear_stale "x"] _ _ _ _ rfl
    (exec_of_ok (by decide)) (Prod.ext (by decide) rfl)
  refine ⟨congrArg Prod.fst hraised, _, hu, by decide, ?_⟩
  refine (hall.2.2.2.2 _ _ ?_ rfl (smallWorld_calm _) (smallWorld_calm _)).2.1
  funext h
  cases h <;> rfl

end LocalDestination

end MbKeeper
