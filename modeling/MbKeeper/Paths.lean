import MbKeeper.FileTree
import MbKeeper.Text
import Mathlib.Order.Lattice

/-!
# Names, locations and paths

`Name` is what a directory entry may be called. `PurePath` is `pathlib.Path` as
text: its root and its parts. `Path` is a path as the operating system gets it:
the configured part is resolved lexically, which is right where no symbolic
link is involved, and the rest, an id or a file name joined to it, is walked in
the tree, so that going up from a directory that is missing fails.
-/
namespace MbKeeper

/-- What a directory entry may be called. -/
def Legal (s : String) : Prop :=
  s ≠ "" ∧ s ≠ "." ∧ s ≠ ".." ∧ ∀ c ∈ s.toList, c ≠ '/' ∧ c ≠ Char.ofNat 0

instance (s : String) : Decidable (Legal s) := inferInstanceAs (Decidable (_ ∧ _))

abbrev Name := {s : String // Legal s}

abbrev Loc := List Name

abbrev Fs := FileTree Name String

def Name.ofString? (s : String) : Option Name := if h : Legal s then some ⟨s, h⟩ else none

@[simp] theorem Name.ofString?_val (x : Name) : Name.ofString? x.val = some x := by
  simp [Name.ofString?, x.property]

/-- A legal name followed by any characters but the two forbidden ones is legal when the
whole is longer than the dotted names. -/
theorem Legal.append {s suf : String} (hs : ∀ c ∈ s.toList, c ≠ '/' ∧ c ≠ Char.ofNat 0)
    (hsuf : ∀ c ∈ suf.toList, c ≠ '/' ∧ c ≠ Char.ofNat 0) (hlen : 3 ≤ suf.toList.length) :
    Legal (s ++ suf) := by
  have hne : ∀ u : String, u.toList.length < 3 → s ++ suf ≠ u := by
    rintro u hu rfl
    rw [String.toList_append, List.length_append] at hu
    omega
  refine ⟨hne _ (by decide), hne _ (by decide), hne _ (by decide), ?_⟩
  intro c hc
  rw [String.toList_append, List.mem_append] at hc
  exact hc.elim (hs c) (hsuf c)

/-- `pathlib.PurePosixPath` -/
structure PurePath where
  root : String
  parts : List String
  deriving DecidableEq, Repr

namespace PurePath

/-- Two slashes in front are a root of their own; any other number of them is one. -/
def rootOf : List Char → String
  | '/' :: '/' :: '/' :: _ => "/"
  | '/' :: '/' :: _ => "//"
  | '/' :: _ => "/"
  | _ => ""

def partsOf (s : List Char) : List String :=
  ((s.splitOn '/').map String.ofList).filter (fun p => p ≠ "" ∧ p ≠ ".")

/-- `Path(text)` -/
def parse (s : String) : PurePath := ⟨rootOf s.toList, partsOf s.toList⟩

/-- `str(path)` -/
def str (p : PurePath) : String :=
  if p.root = "" ∧ p.parts = [] then "." else p.root ++ "/".intercalate p.parts

/-- `path / text`: an absolute text takes the path's place. -/
def join (p : PurePath) (s : String) : PurePath :=
  let q := parse s
  if q.root = "" then ⟨p.root, p.parts ++ q.parts⟩ else q

end PurePath

/-- The steps of the parts of a path. -/
def stepsOf (parts : List String) : List (PathStep Name) :=
  parts.filterMap (fun s => if s = ".." then some .up else (Name.ofString? s).map .down)

theorem rootOf_eq_empty {s : List Char} (h : '/' ∉ s) : PurePath.rootOf s = "" := by
  cases s with
  | nil => rfl
  | cons c s =>
    have hc : c ≠ '/' := fun he => h (he ▸ List.mem_cons_self)
    unfold PurePath.rootOf
    split <;> simp_all

theorem splitOn_of_notMem {c : Char} {s : List Char} (h : c ∉ s) : s.splitOn c = [s] :=
  List.splitOnP_eq_singleton (fun _ hd => beq_eq_false_iff_ne.mpr (fun he => h (he ▸ hd)))

/-- A part is within the text, without the character it is split at. -/
theorem mem_splitOn {c : Char} {s part : List Char} (h : part ∈ s.splitOn c) :
    c ∉ part ∧ ∀ a ∈ part, a ∈ s := by
  induction s generalizing part with
  | nil =>
    obtain rfl : part = [] := by simpa using h
    simp
  | cons b s ih =>
    rw [List.splitOn_cons_eq_if_modifyHead] at h
    split_ifs at h with hb
    · rcases List.mem_cons.mp h with rfl | h
      · simp
      · exact ⟨(ih h).1, fun a ha => List.mem_cons_of_mem _ ((ih h).2 a ha)⟩
    · obtain ⟨first, rest, hsplit⟩ := List.exists_cons_of_ne_nil (List.splitOn_ne_nil c s)
      rw [hsplit, List.modifyHead_cons] at h
      rcases List.mem_cons.mp h with rfl | h
      · obtain ⟨hc, hsub⟩ := ih (hsplit ▸ List.mem_cons_self)
        have hne : c ≠ b := fun he => hb (by simp [he])
        refine ⟨fun hmem => ?_, fun a ha => ?_⟩
        · exact (List.mem_cons.mp hmem).elim hne hc
        · exact List.mem_cons.mpr ((List.mem_cons.mp ha).imp_right (hsub a))
      · obtain ⟨hc, hsub⟩ := ih (hsplit ▸ List.mem_cons_of_mem _ h)
        exact ⟨hc, fun a ha => List.mem_cons_of_mem _ (hsub a ha)⟩

theorem Name.slash_notMem (x : Name) : '/' ∉ x.val.toList := fun h => (x.property.2.2.2 _ h).1 rfl

theorem partsOf_name (x : Name) : PurePath.partsOf x.val.toList = [x.val] := by
  rw [PurePath.partsOf, splitOn_of_notMem x.slash_notMem]
  simp [x.property.1, x.property.2.1]

@[simp] theorem parse_name (x : Name) : PurePath.parse x.val = ⟨"", [x.val]⟩ := by
  rw [PurePath.parse, rootOf_eq_empty x.slash_notMem, partsOf_name]

@[simp] theorem stepsOf_name (x : Name) : stepsOf [x.val] = [.down x] := by
  simp [stepsOf, x.property.2.2.1]

/-- A configured place, resolved, and what is joined to it. -/
structure Path where
  text : PurePath
  home : Loc
  steps : List (PathStep Name)
  /-- A NUL in the text, which no system call accepts. -/
  nul : Bool

def hasNul (s : String) : Bool := Char.ofNat 0 ∈ s.toList

namespace Path

/-- A configured path, from the working directory `cwd` where it is relative. Going up is lexical:
the operating system agrees where the directories on the way exist, but finds nothing at
`/missing/../b`, and `mkdir(parents=True)` makes `/missing` there. -/
def configured (cwd : Loc) (p : PurePath) : Path :=
  ⟨p, FileTree.resolve (if p.root = "" then cwd else []) (stepsOf p.parts), [],
    p.parts.any hasNul⟩

def str (p : Path) : String := p.text.str

/-- `path / text` -/
def join (p : Path) (s : String) : Path :=
  let q := PurePath.parse s
  if q.root = "" then ⟨p.text.join s, p.home, p.steps ++ stepsOf q.parts, p.nul || hasNul s⟩
  else ⟨p.text.join s, [], stepsOf q.parts, hasNul s⟩

/-- An entry of the directory at `path`, as `iterdir` yields it. -/
def child (p : Path) (x : Name) : Path :=
  ⟨⟨p.text.root, p.text.parts ++ [x.val]⟩, p.home, p.steps ++ [.down x], p.nul⟩

/-- Where the path leads when every directory on the way exists. -/
def loc (p : Path) : Loc := FileTree.resolve p.home p.steps

/-- The locations `mkdir(parents=True)` visits, the path's own last. -/
def chain (p : Path) : List Loc :=
  p.home.inits ++ (p.steps.inits.drop 1).map (FileTree.resolve p.home)

/-- Where the path leads in the tree `t`. -/
def find (t : Fs) (p : Path) : Option Loc := if p.nul then none else t.walk p.home p.steps

/-- The path names `l` in every tree. -/
structure At (p : Path) (l : Loc) : Prop where
  steps : ∃ m : Loc, p.steps = m.map .down ∧ l = p.home ++ m
  nul : p.nul = false

end Path

theorem hasNul_name (x : Name) : hasNul x.val = false := by
  simp only [hasNul, decide_eq_false_iff_not]
  exact fun h => (x.property.2.2.2 _ h).2 rfl

theorem hasNul_append (a b : String) : hasNul (a ++ b) = (hasNul a || hasNul b) := by
  simp [hasNul, Bool.decide_or]

/-- A text given by its characters. -/
theorem hasNul_ofList {l : List Char} (h : Char.ofNat 0 ∉ l) :
    hasNul (String.ofList l) = false := by
  rw [hasNul, String.toList_ofList, decide_eq_false h]

theorem Path.join_name (p : Path) (x : Name) : p.join x.val = p.child x := by
  simp [Path.join, Path.child, PurePath.join, hasNul_name]

theorem Path.join_nul (p : Path) {s : String} (h : hasNul s = true) : (p.join s).nul = true := by
  simp only [Path.join, h, Bool.or_true]
  split_ifs <;> rfl

theorem Path.find_nul {p : Path} (h : p.nul = true) (t : Fs) : p.find t = none := by
  simp [Path.find, h]

namespace Path.At

variable {p : Path} {l : Loc}

theorem find (h : p.At l) (t : Fs) : p.find t = some l := by
  obtain ⟨⟨m, hm, rfl⟩, hnul⟩ := h
  simp [Path.find, hnul, hm]

theorem resolve_down (l m : Loc) : FileTree.resolve l (m.map .down) = l ++ m := by
  induction m generalizing l with
  | nil => simp [FileTree.resolve]
  | cons x m ih => simp [FileTree.resolve, ih]

theorem mem_chain (h : p.At l) {q : Loc} : q ∈ p.chain ↔ q <+: l := by
  obtain ⟨⟨m, hm, rfl⟩, -⟩ := h
  have hsteps : (p.steps.inits.drop 1).map (FileTree.resolve p.home) =
      (m.inits.drop 1).map (p.home ++ ·) := by
    rw [hm, List.map_inits, ← List.map_drop, List.map_map]
    exact List.map_congr_left (fun a _ => resolve_down p.home a)
  rw [Path.chain, hsteps, List.mem_append, List.mem_inits, List.mem_map]
  constructor
  · rintro (h | ⟨a, ha, rfl⟩)
    · exact h.trans (List.prefix_append _ _)
    · exact (List.prefix_append_right_inj _).mpr ((List.mem_inits _ _).mp (List.mem_of_mem_drop ha))
  · intro hq
    rcases prefix_or_prefix hq (List.prefix_append p.home m) with h | ⟨a, rfl⟩
    · exact .inl h
    · cases a with
      | nil => exact .inl (by simp)
      | cons x a =>
        refine .inr ⟨x :: a, ?_, rfl⟩
        have ha : x :: a ∈ m.inits :=
          (List.mem_inits _ _).mpr ((List.prefix_append_right_inj _).mp hq)
        cases m with
        | nil => simp at ha
        | cons y m => simpa using ha

theorem child (h : p.At l) (x : Name) : (p.child x).At (l ++ [x]) := by
  obtain ⟨⟨m, hm, rfl⟩, hnul⟩ := h
  exact ⟨⟨m ++ [x], by simp [Path.child, hm], by simp [Path.child]⟩, hnul⟩

theorem join (h : p.At l) (x : Name) : (p.join x.val).At (l ++ [x]) := by
  rw [Path.join_name]
  exact h.child x

end Path.At

end MbKeeper
