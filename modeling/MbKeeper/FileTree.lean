import Mathlib.Data.List.Infix
import Mathlib.Data.List.Dedup
import Mathlib.Data.Set.Basic
import Mathlib.Data.Int.Notation
import Mathlib.Tactic.Common

/-!
# Finite file trees

A tree maps locations, the lists of names leading from the root, to nodes. Only
finitely many locations are occupied. Every operation here is one primitive
step of a POSIX file system, or one of the recursive operations built from
them: creating a missing chain of directories, removing a subtree all at once
or entry by entry, copying a subtree, and moving one. A directory's time of
modification changes when an entry is added to it or removed from it.
`kind` forgets the times.
-/
namespace MbKeeper

/-- What a location holds, its times aside. -/
inductive Kind (δ : Type) where
  | file (data : δ)
  | dir
  deriving DecidableEq, Repr

structure Node (δ : Type) where
  kind : Kind δ
  mtime : ℤ
  deriving DecidableEq, Repr

/-- One component of an unresolved path. -/
inductive PathStep (ν : Type) where
  | up
  | down (name : ν)
  deriving DecidableEq, Repr

/-- A finitely supported map from locations to nodes. -/
structure FileTree (ν δ : Type) where
  lookup : List ν → Option (Node δ)
  locs : List (List ν)
  finite : ∀ l, lookup l ≠ none → l ∈ locs

variable {ν δ : Type}

/-- Two locations are comparable when one of them lies at or below the other. -/
theorem prefix_or_prefix {p q r : List ν} (hp : p <+: r) (hq : q <+: r) : p <+: q ∨ q <+: p :=
  List.prefix_or_prefix_of_prefix hp hq

theorem ne_of_entry_prefix {p q : List ν} {x : ν} (h : p ++ [x] <+: q) : q ≠ p := by
  rintro rfl
  have := h.length_le
  simp only [List.length_append, List.length_singleton] at this
  omega

namespace FileTree

def empty : FileTree ν δ := ⟨fun _ => none, [], by simp⟩

def kind (t : FileTree ν δ) (l : List ν) : Option (Kind δ) := (t.lookup l).map Node.kind

def isDir (t : FileTree ν δ) (l : List ν) : Bool := match t.kind l with
  | some .dir => true
  | _ => false

def isFile (t : FileTree ν δ) (l : List ν) : Bool := match t.kind l with
  | some (.file _) => true
  | _ => false

def present (t : FileTree ν δ) (l : List ν) : Bool := (t.lookup l).isSome

@[simp] theorem isDir_iff (t : FileTree ν δ) (l : List ν) :
    t.isDir l = true ↔ t.kind l = some .dir := by
  unfold isDir
  split <;> simp_all

theorem isFile_iff (t : FileTree ν δ) (l : List ν) :
    t.isFile l = true ↔ ∃ d, t.kind l = some (.file d) := by
  unfold isFile
  split <;> simp_all

theorem isFile_of_dir {t : FileTree ν δ} {l : List ν} (h : t.kind l = some .dir) :
    t.isFile l = false := by
  simp [isFile, h]

theorem present_iff (t : FileTree ν δ) (l : List ν) : t.present l = true ↔ t.kind l ≠ none := by
  simp [present, kind, Option.isSome_iff_ne_none]

@[simp] theorem kind_empty (l : List ν) : (empty : FileTree ν δ).kind l = none := rfl

theorem isDir_congr {t t' : FileTree ν δ} {l l' : List ν} (h : t'.kind l' = t.kind l) :
    t'.isDir l' = t.isDir l := by simp [isDir, h]

theorem isFile_congr {t t' : FileTree ν δ} {l l' : List ν} (h : t'.kind l' = t.kind l) :
    t'.isFile l' = t.isFile l := by simp [isFile, h]

theorem kind_eq_of_lookup_eq {t t' : FileTree ν δ} {l l' : List ν}
    (h : t'.lookup l' = t.lookup l) : t'.kind l' = t.kind l := by simp [kind, h]

/-- Follow a path from `l`. Going up needs a directory to go up from. -/
def walk (t : FileTree ν δ) (l : List ν) : List (PathStep ν) → Option (List ν)
  | [] => some l
  | .up :: ps => if t.isDir l then t.walk l.dropLast ps else none
  | .down x :: ps => t.walk (l ++ [x]) ps

/-- A path without `up` leads to the same place in every tree. -/
@[simp] theorem walk_down (t : FileTree ν δ) (l m : List ν) :
    t.walk l (m.map PathStep.down) = some (l ++ m) := by
  induction m generalizing l with
  | nil => simp [walk]
  | cons x m ih => simp [walk, ih]

theorem walk_append (t : FileTree ν δ) (l : List ν) (ps ps' : List (PathStep ν)) :
    t.walk l (ps ++ ps') = (t.walk l ps).bind (fun m => t.walk m ps') := by
  induction ps generalizing l with
  | nil => rfl
  | cons p ps ih =>
    cases p with
    | up => by_cases h : t.isDir l <;> simp [walk, h, ih]
    | down x => simp [walk, ih]

/-- Where a path leads when every directory it goes up from exists. -/
def resolve (l : List ν) : List (PathStep ν) → List ν
  | [] => l
  | .up :: ps => resolve l.dropLast ps
  | .down x :: ps => resolve (l ++ [x]) ps

theorem walk_eq_resolve {t : FileTree ν δ} {l m : List ν} {ps : List (PathStep ν)}
    (h : t.walk l ps = some m) : m = resolve l ps := by
  induction ps generalizing l with
  | nil => simpa [walk, resolve] using h.symm
  | cons p ps ih =>
    cases p with
    | up =>
      simp only [walk] at h
      split_ifs at h
      exact ih h
    | down x => exact ih h

end FileTree

/-- Everything at or below `l`. -/
def under (l : List ν) : Set (List ν) := {q | l <+: q}

/-- Everything on the way to `l`, and `l` itself. -/
def upTo (l : List ν) : Set (List ν) := {q | q <+: l}

@[simp] theorem mem_under {l q : List ν} : q ∈ under l ↔ l <+: q := Iff.rfl

@[simp] theorem mem_upTo {l q : List ν} : q ∈ upTo l ↔ q <+: l := Iff.rfl

variable [DecidableEq ν]

/-- The rest of `q` after the prefix `p`. -/
def relTo (p q : List ν) : Option (List ν) := if p <+: q then some (q.drop p.length) else none

@[simp] theorem relTo_append (p r : List ν) : relTo p (p ++ r) = some r := by simp [relTo]

theorem relTo_eq_some {p q r : List ν} : relTo p q = some r ↔ q = p ++ r := by
  constructor
  · intro h
    simp only [relTo] at h
    split_ifs at h with hp
    obtain ⟨s, rfl⟩ := hp
    simpa using h
  · rintro rfl
    simp

theorem relTo_eq_none {p q : List ν} : relTo p q = none ↔ ¬ p <+: q := by simp [relTo]

/-- The locations of `ls` below `src`, moved to below `dst`. -/
def shifted (src dst : List ν) (ls : List (List ν)) : List (List ν) :=
  (ls.filterMap (relTo src)).map (dst ++ ·)

theorem mem_shifted {src dst r : List ν} {ls : List (List ν)} (h : src ++ r ∈ ls) :
    dst ++ r ∈ shifted src dst ls :=
  List.mem_map.mpr ⟨r, List.mem_filterMap.mpr ⟨src ++ r, h, relTo_append src r⟩, rfl⟩

namespace FileTree

/-- The name `k` has directly below `l`. -/
def childName (l k : List ν) : Option ν := if k.dropLast = l then k.getLast? else none

/-- The names of a directory's entries, in no particular order. -/
def children (t : FileTree ν δ) (l : List ν) : List ν :=
  ((t.locs.filterMap (childName l)).filter (fun x => t.present (l ++ [x]))).dedup

theorem mem_children {t : FileTree ν δ} {l : List ν} {x : ν} :
    x ∈ t.children l ↔ t.kind (l ++ [x]) ≠ none := by
  simp only [children, List.mem_dedup, List.mem_filter, present_iff, and_iff_right_iff_imp]
  intro h
  refine List.mem_filterMap.mpr ⟨l ++ [x], t.finite _ ?_, by simp [childName]⟩
  intro hn
  simp [kind, hn] at h

theorem children_nodup (t : FileTree ν δ) (l : List ν) : (t.children l).Nodup :=
  List.nodup_dedup _

def put (t : FileTree ν δ) (l : List ν) (n : Node δ) : FileTree ν δ where
  lookup q := if q = l then some n else t.lookup q
  locs := l :: t.locs
  finite q h := by
    by_cases hq : q = l
    · simp [hq]
    · exact List.mem_cons_of_mem _ (t.finite q (by simpa [hq] using h))

/-- An entry was added to or removed from the directory `l` at time `s`. -/
def touch (t : FileTree ν δ) (l : List ν) (s : ℤ) : FileTree ν δ where
  lookup q := if q = l then (t.lookup q).map (fun n => ⟨n.kind, s⟩) else t.lookup q
  locs := t.locs
  finite q h := t.finite q (by
    intro hn
    simp [hn] at h)

def create (t : FileTree ν δ) (l : List ν) (k : Kind δ) (s : ℤ) : FileTree ν δ :=
  (t.put l ⟨k, s⟩).touch l.dropLast s

/-- Take away everything at or below `l`. -/
def prune (t : FileTree ν δ) (l : List ν) : FileTree ν δ where
  lookup q := if l <+: q then none else t.lookup q
  locs := t.locs
  finite q h := t.finite q (by
    intro hn
    simp [hn] at h)

def removeTree (t : FileTree ν δ) (l : List ν) (s : ℤ) : FileTree ν δ :=
  (t.prune l).touch l.dropLast s

/-- Take away everything below `l`, but not `l`. -/
def clear (t : FileTree ν δ) (l : List ν) (s : ℤ) : FileTree ν δ :=
  touch ⟨fun q => if l <+: q ∧ q ≠ l then none else t.lookup q, t.locs, fun q h =>
    t.finite q (by
      intro hn
      simp [hn] at h)⟩ l s

/-- Write a file, made anew where it is missing. -/
def write (t : FileTree ν δ) (l : List ν) (d : δ) (s : ℤ) : FileTree ν δ :=
  if t.present l then t.put l ⟨.file d, s⟩ else t.create l (.file d) s

/-- Remove one entry; a directory that still has entries stays. -/
def unlink (t : FileTree ν δ) (l : List ν) (s : ℤ) : FileTree ν δ :=
  if t.isFile l ∨ t.children l = [] then t.removeTree l s else t

/-- Something may be moved to `l`: no file is there and nothing lies below. -/
def vacant (t : FileTree ν δ) (l : List ν) : Bool :=
  !t.isFile l ∧ t.locs.all (fun m => ¬ (l <+: m ∧ m ≠ l ∧ t.present m))

@[simp] theorem kind_touch (t : FileTree ν δ) (l q : List ν) (s : ℤ) :
    (t.touch l s).kind q = t.kind q := by
  simp only [kind, touch]
  split_ifs
  · cases t.lookup q <;> rfl
  · rfl

theorem lookup_touch_ne (t : FileTree ν δ) {l q : List ν} (s : ℤ) (h : q ≠ l) :
    (t.touch l s).lookup q = t.lookup q := by simp [touch, h]

theorem kind_create (t : FileTree ν δ) (l q : List ν) (k : Kind δ) (s : ℤ) :
    (t.create l k s).kind q = if q = l then some k else t.kind q := by
  rw [create, kind_touch]
  by_cases h : q = l <;> simp [kind, put, h]

theorem kind_prune (t : FileTree ν δ) (l q : List ν) :
    (t.prune l).kind q = if l <+: q then none else t.kind q := by
  by_cases h : l <+: q <;> simp [kind, prune, h]

theorem kind_removeTree (t : FileTree ν δ) (l q : List ν) (s : ℤ) :
    (t.removeTree l s).kind q = if l <+: q then none else t.kind q := by
  rw [removeTree, kind_touch, kind_prune]

theorem kind_clear (t : FileTree ν δ) (l q : List ν) (s : ℤ) :
    (t.clear l s).kind q = if l <+: q ∧ q ≠ l then none else t.kind q := by
  rw [clear, kind_touch]
  by_cases h : l <+: q ∧ q ≠ l <;> simp [kind, h]

theorem kind_write (t : FileTree ν δ) (l q : List ν) (d : δ) (s : ℤ) :
    (t.write l d s).kind q = if q = l then some (.file d) else t.kind q := by
  unfold write
  split_ifs with hp hq hq
  · simp [kind, put, hq]
  · simp [kind, put, hq]
  · simp [kind_create, hq]
  · simp [kind_create, hq]

theorem lookup_removeTree (t : FileTree ν δ) {l q : List ν} (s : ℤ) (h : ¬ l <+: q)
    (hq : q ≠ l.dropLast) : (t.removeTree l s).lookup q = t.lookup q := by
  rw [removeTree, lookup_touch_ne _ _ hq]
  simp [prune, h]

theorem lookup_clear (t : FileTree ν δ) {l q : List ν} (s : ℤ) (h : ¬ l <+: q) :
    (t.clear l s).lookup q = t.lookup q := by
  rw [clear, lookup_touch_ne _ _ (by rintro rfl; exact h (List.prefix_refl _))]
  simp [h]

theorem kind_unlink_of_outside (t : FileTree ν δ) {l q : List ν} (s : ℤ) (h : ¬ l <+: q) :
    (t.unlink l s).kind q = t.kind q := by
  unfold unlink
  split_ifs
  · simp [kind_removeTree, h]
  · rfl

theorem vacant_iff {t : FileTree ν δ} {l : List ν} :
    t.vacant l = true ↔ t.isFile l = false ∧ ∀ m, l <+: m → m ≠ l → t.kind m = none := by
  simp only [vacant, Bool.decide_and, Bool.and_eq_true, decide_eq_true_eq, Bool.not_eq_true',
    List.all_eq_true]
  refine and_congr_right (fun _ => ⟨fun h m hm hne => ?_, fun h m _ hm => ?_⟩)
  · by_contra hk
    refine h m (t.finite m (fun hn => hk (by simp [kind, hn]))) ⟨hm, hne, ?_⟩
    exact (present_iff t m).mpr hk
  · exact (present_iff t m).mp hm.2.2 (h m hm.1 hm.2.1)

theorem kind_unlink_or (t : FileTree ν δ) (l q : List ν) (s : ℤ) :
    (t.unlink l s).kind q = t.kind q ∨ (t.unlink l s).kind q = none := by
  by_cases h : l <+: q
  · unfold unlink
    split_ifs
    · exact .inr (by simp [kind_removeTree, h])
    · exact .inl rfl
  · exact .inl (kind_unlink_of_outside t s h)

/-- The locations of `ps` that were missing become directories. -/
def mkdirs (t : FileTree ν δ) (ps : List (List ν)) (s : ℤ) : FileTree ν δ :=
  ps.foldl (fun t p => if t.present p then t else t.create p .dir s) t

/-- Remove the listed entries one at a time; entries that still have entries of
their own stay, so every list describes some run of a recursive removal. -/
def unlinkAll (t : FileTree ν δ) (ls : List (List ν)) (s : ℤ) : FileTree ν δ :=
  ls.foldl (fun t l => t.unlink l s) t

/-- Copy the selected locations below `src` to below `dst`; `time` says which time of
modification a copy gets from its original's. -/
def copyTree (t : FileTree ν δ) (src dst : List ν) (sel : List ν → Bool) (time : ℤ → ℤ) :
    FileTree ν δ where
  lookup q := match relTo dst q with
    | some r => if sel r then (t.lookup (src ++ r)).map (fun n => ⟨n.kind, time n.mtime⟩)
      else t.lookup q
    | none => t.lookup q
  locs := t.locs ++ shifted src dst t.locs
  finite q h := by
    cases hr : relTo dst q with
    | none => exact List.mem_append_left _ (t.finite q (by simpa [hr] using h))
    | some r =>
      by_cases hs : sel r
      · rw [relTo_eq_some.mp hr]
        refine List.mem_append_right _ (mem_shifted (t.finite _ ?_))
        intro hn
        simp [hr, hs, hn] at h
      · exact List.mem_append_left _ (t.finite q (by simpa [hr, hs] using h))

/-- Something at or below `q` is skipped. -/
def holdsSkipped (t : FileTree ν δ) (dst : List ν) (skip : List ν → Bool) (q : List ν) : Bool :=
  t.locs.any (fun m => q <+: m ∧ skip (m.drop dst.length) ∧ t.present m)

/-- Bring the selected locations below `dst` in line with those below `src` of another tree.
What is skipped is neither copied nor removed, nor is a directory that holds it. -/
def sync (t source : FileTree ν δ) (src dst : List ν) (skip sel : List ν → Bool) :
    FileTree ν δ where
  lookup q := match relTo dst q with
    | some r =>
      if skip r ∨ !sel r then t.lookup q
      else match source.lookup (src ++ r) with
        | some n => some n
        | none => if t.isDir q ∧ t.holdsSkipped dst skip q then t.lookup q else none
    | none => t.lookup q
  locs := t.locs ++ shifted src dst source.locs
  finite q h := by
    have old (h : t.lookup q ≠ none) : q ∈ t.locs ++ shifted src dst source.locs :=
      List.mem_append_left _ (t.finite q h)
    cases hr : relTo dst q with
    | none => exact old (by simpa [hr] using h)
    | some r =>
      simp only [hr] at h
      by_cases hskip : skip r ∨ !sel r
      · rw [if_pos hskip] at h
        exact old h
      · rw [if_neg hskip] at h
        cases hs : source.lookup (src ++ r) with
        | none =>
          simp only [hs] at h
          split_ifs at h
          · exact old h
          · exact absurd rfl h
        | some n =>
          rw [relTo_eq_some.mp hr]
          exact List.mem_append_right _ (mem_shifted (source.finite _ (by simp [hs])))

/-- `rename(a, b)`: the subtree at `a` becomes the one at `b`. -/
def move (t : FileTree ν δ) (a b : List ν) (s : ℤ) : FileTree ν δ :=
  ((⟨fun q => match relTo b q with
      | some r => t.lookup (a ++ r)
      | none => if a <+: q then none else t.lookup q,
    t.locs ++ shifted a b t.locs, by
      intro q h
      cases hr : relTo b q with
      | none =>
        refine List.mem_append_left _ (t.finite q ?_)
        intro hn
        simp [hr, hn] at h
      | some r =>
        rw [relTo_eq_some.mp hr]
        exact List.mem_append_right _ (mem_shifted (t.finite _ (by simpa [hr] using h)))⟩ :
    FileTree ν δ).touch a.dropLast s).touch b.dropLast s

theorem kind_mkdirs (t : FileTree ν δ) (ps : List (List ν)) (q : List ν) (s : ℤ) :
    (t.mkdirs ps s).kind q = if q ∈ ps ∧ t.kind q = none then some .dir else t.kind q := by
  induction ps generalizing t with
  | nil => simp [mkdirs]
  | cons p ps ih =>
    rw [mkdirs, List.foldl_cons, ← mkdirs, ih]
    by_cases hp : t.present p = true
    · have hne := (present_iff t p).mp hp
      rw [if_pos hp]
      by_cases hq : q = p
      · subst q; simp [hne]
      · simp [hq]
    · have hnone : t.kind p = none := by simpa [present_iff] using hp
      rw [if_neg hp, kind_create]
      by_cases hq : q = p
      · subst q; simp [hnone]
      · simp [hq]

theorem kind_mkdirs_of_notMem (t : FileTree ν δ) {ps : List (List ν)} {q : List ν} (s : ℤ)
    (h : q ∉ ps) : (t.mkdirs ps s).kind q = t.kind q := by simp [kind_mkdirs, h]

theorem kind_mkdirs_of_some (t : FileTree ν δ) {ps : List (List ν)} {q : List ν} (s : ℤ)
    (h : t.kind q ≠ none) : (t.mkdirs ps s).kind q = t.kind q := by simp [kind_mkdirs, h]

theorem kind_unlinkAll_of_outside (t : FileTree ν δ) {ls : List (List ν)} {q : List ν} (s : ℤ)
    (h : ∀ l ∈ ls, ¬ l <+: q) : (t.unlinkAll ls s).kind q = t.kind q := by
  induction ls generalizing t with
  | nil => rfl
  | cons l ls ih =>
    rw [unlinkAll, List.foldl_cons, ← unlinkAll, ih _ (fun m hm => h m (List.mem_cons_of_mem _ hm))]
    exact kind_unlink_of_outside t s (h l List.mem_cons_self)

theorem kind_unlinkAll_or (t : FileTree ν δ) (ls : List (List ν)) (q : List ν) (s : ℤ) :
    (t.unlinkAll ls s).kind q = t.kind q ∨ (t.unlinkAll ls s).kind q = none := by
  induction ls generalizing t with
  | nil => exact .inl rfl
  | cons l ls ih =>
    rw [unlinkAll, List.foldl_cons, ← unlinkAll]
    rcases ih (t.unlink l s) with h | h
    · rw [h]; exact kind_unlink_or t l q s
    · exact .inr h

theorem lookup_unlinkAll (t : FileTree ν δ) {ls : List (List ν)} {q : List ν} (s : ℤ)
    (h : ∀ l ∈ ls, ¬ l <+: q ∧ q ≠ l.dropLast) : (t.unlinkAll ls s).lookup q = t.lookup q := by
  induction ls generalizing t with
  | nil => rfl
  | cons l ls ih =>
    rw [unlinkAll, List.foldl_cons, ← unlinkAll, ih _ (fun m hm => h m (List.mem_cons_of_mem _ hm))]
    have hl := h l List.mem_cons_self
    unfold unlink
    split_ifs
    · exact lookup_removeTree t s hl.1 hl.2
    · rfl

theorem kind_copyTree_append (t : FileTree ν δ) (src dst r : List ν) (sel : List ν → Bool)
    (time : ℤ → ℤ) : (t.copyTree src dst sel time).kind (dst ++ r) =
      if sel r then t.kind (src ++ r) else t.kind (dst ++ r) := by
  by_cases h : sel r
  · simp only [kind, copyTree, relTo_append, h, if_true]
    cases t.lookup (src ++ r) <;> rfl
  · simp [kind, copyTree, h]

theorem kind_copyTree_of_outside (t : FileTree ν δ) {src dst q : List ν}
    (sel : List ν → Bool) (time : ℤ → ℤ) (h : ¬ dst <+: q) :
    (t.copyTree src dst sel time).kind q = t.kind q := by
  simp [kind, copyTree, relTo_eq_none.mpr h]

theorem kind_sync_of_outside (t source : FileTree ν δ) {src dst q : List ν}
    (skip sel : List ν → Bool) (h : ¬ dst <+: q) :
    (t.sync source src dst skip sel).kind q = t.kind q := by
  simp [kind, sync, relTo_eq_none.mpr h]

theorem kind_sync_of_skip (t source : FileTree ν δ) {src dst r : List ν}
    {skip sel : List ν → Bool} (h : skip r = true) :
    (t.sync source src dst skip sel).kind (dst ++ r) = t.kind (dst ++ r) := by
  simp [kind, sync, h]

theorem kind_sync_of_unselected (t source : FileTree ν δ) {src dst r : List ν}
    {skip sel : List ν → Bool} (h : sel r = false) :
    (t.sync source src dst skip sel).kind (dst ++ r) = t.kind (dst ++ r) := by
  simp [kind, sync, h]

theorem kind_move (t : FileTree ν δ) (a b q : List ν) (s : ℤ) :
    (t.move a b s).kind q = match relTo b q with
      | some r => t.kind (a ++ r)
      | none => if a <+: q then none else t.kind q := by
  rw [move, kind_touch, kind_touch]
  cases hr : relTo b q with
  | none => by_cases h : a <+: q <;> simp [kind, hr, h]
  | some r => simp [kind, hr]

theorem kind_move_append (t : FileTree ν δ) (a b r : List ν) (s : ℤ) :
    (t.move a b s).kind (b ++ r) = t.kind (a ++ r) := by simp [kind_move]

theorem kind_move_source (t : FileTree ν δ) {a b q : List ν} (s : ℤ) (hb : ¬ b <+: q)
    (ha : a <+: q) : (t.move a b s).kind q = none := by
  simp [kind_move, relTo_eq_none.mpr hb, ha]

theorem kind_move_of_outside (t : FileTree ν δ) {a b q : List ν} (s : ℤ) (hb : ¬ b <+: q)
    (ha : ¬ a <+: q) : (t.move a b s).kind q = t.kind q := by
  simp [kind_move, relTo_eq_none.mpr hb, ha]

/-! Times too stay as they are outside what an operation works on and the directories around it. -/

theorem lookup_create (t : FileTree ν δ) {l q : List ν} (k : Kind δ) (s : ℤ) (h : q ≠ l)
    (hq : q ≠ l.dropLast) : (t.create l k s).lookup q = t.lookup q := by
  rw [create, lookup_touch_ne _ _ hq]
  simp [put, h]

theorem lookup_mkdirs (t : FileTree ν δ) {ps : List (List ν)} {q : List ν} (s : ℤ)
    (h : ∀ p ∈ ps, q ≠ p ∧ q ≠ p.dropLast) : (t.mkdirs ps s).lookup q = t.lookup q := by
  induction ps generalizing t with
  | nil => rfl
  | cons p ps ih =>
    have hp := h p List.mem_cons_self
    rw [mkdirs, List.foldl_cons, ← mkdirs, ih _ (fun r hr => h r (List.mem_cons_of_mem _ hr))]
    split_ifs
    · rfl
    · exact lookup_create t _ s hp.1 hp.2

theorem lookup_write (t : FileTree ν δ) {l q : List ν} (d : δ) (s : ℤ) (h : q ≠ l)
    (hq : q ≠ l.dropLast) : (t.write l d s).lookup q = t.lookup q := by
  unfold write
  split_ifs
  · simp [put, h]
  · exact lookup_create t _ s h hq

theorem lookup_copyTree (t : FileTree ν δ) {src dst q : List ν} (sel : List ν → Bool)
    (time : ℤ → ℤ) (h : ¬ dst <+: q) : (t.copyTree src dst sel time).lookup q = t.lookup q := by
  simp [copyTree, relTo_eq_none.mpr h]

theorem lookup_move (t : FileTree ν δ) {a b q : List ν} (s : ℤ) (ha : ¬ a <+: q) (hb : ¬ b <+: q)
    (ha' : q ≠ a.dropLast) (hb' : q ≠ b.dropLast) : (t.move a b s).lookup q = t.lookup q := by
  rw [move, lookup_touch_ne _ _ hb', lookup_touch_ne _ _ ha']
  simp [relTo_eq_none.mpr hb, ha]

end FileTree

end MbKeeper
