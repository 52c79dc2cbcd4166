import Mathlib.Data.String.Basic
import Mathlib.Data.Int.Notation
import Mathlib.Tactic.Common

/-!
# Text as Python's `str` reads it

Suffixes, line breaks, separators, white space and decimal integers, on lists
of characters. Reading back what was written is the part proofs use: a line
written before a break is the line `splitlines` returns, and `pyInt` reads the
integer that `intText` wrote.
-/
namespace MbKeeper

/-- A condition on every character of a text is decided on the text, not on all characters. -/
instance decidableForallChar (p : Char → Prop) [DecidablePred p] (l : List Char) :
    Decidable (∀ c ∈ l, p c) := List.decidableBAll p l

/-- The rest of `s` before the suffix `suf`. -/
def stripSuffix (suf s : String) : Option String :=
  if suf.toList <:+ s.toList then
    some (String.ofList (s.toList.take (s.toList.length - suf.toList.length)))
  else none

theorem stripSuffix_eq_some {suf s p : String} : stripSuffix suf s = some p ↔ s = p ++ suf := by
  constructor
  · intro h
    simp only [stripSuffix] at h
    split_ifs at h with hs
    obtain ⟨r, hr⟩ := hs
    have hp : p = String.ofList r := by
      rw [← Option.some.inj h, ← hr]
      simp
    apply String.toList_inj.mp
    simp [hp, hr]
  · rintro rfl
    simp [stripSuffix]

@[simp] theorem stripSuffix_append (p suf : String) : stripSuffix suf (p ++ suf) = some p :=
  stripSuffix_eq_some.mpr rfl

theorem stripSuffix_eq_none {suf s : String} :
    stripSuffix suf s = none ↔ ∀ p, s ≠ p ++ suf := by
  constructor
  · rintro h p rfl
    simp at h
  · intro h
    cases hs : stripSuffix suf s with
    | none => rfl
    | some p => exact absurd (stripSuffix_eq_some.mp hs) (h p)

theorem append_suffix_injective (suf : String) : Function.Injective (· ++ suf) := by
  intro a b h
  have := stripSuffix_append a suf
  rw [show a ++ suf = b ++ suf from h, stripSuffix_append] at this
  exact (Option.some.inj this).symm

/-- A text ends in no suffix whose last character is another one. -/
theorem stripSuffix_of_last_ne {suf s : String} {c d : Char} (hs : s.toList.getLast? = some c)
    (hsuf : suf.toList.getLast? = some d) (hcd : c ≠ d) : stripSuffix suf s = none := by
  rw [stripSuffix_eq_none]
  rintro p rfl
  rw [String.toList_append, List.getLast?_append, hsuf] at hs
  exact hcd (Option.some.inj hs).symm

/-- The characters at which `str.splitlines` ends a line, carriage return aside. -/
def isLineBreak (c : Char) : Bool :=
  c.toNat ∈ [0x0a, 0x0b, 0x0c, 0x1c, 0x1d, 0x1e, 0x85, 0x2028, 0x2029]

private def consLine (c : Char) : List (List Char) → List (List Char)
  | [] => [[c]]
  | l :: ls => (c :: l) :: ls

/-- `str.splitlines`: a carriage return and the newline after it are one break. -/
def splitlines : List Char → List (List Char)
  | [] => []
  | '\r' :: '\n' :: cs => [] :: splitlines cs
  | c :: cs => if c = '\r' ∨ isLineBreak c then [] :: splitlines cs else consLine c (splitlines cs)

/-- No character of `l` ends a line. -/
def OneLine (l : List Char) : Prop := ∀ c ∈ l, c ≠ '\r' ∧ isLineBreak c = false

private theorem splitlines_cons {c : Char} (cs : List Char) (hr : c ≠ '\r')
    (hb : isLineBreak c = false) : splitlines (c :: cs) = consLine c (splitlines cs) := by
  rw [splitlines]
  · simp [hr, hb]
  · rintro _ rfl
    exact absurd rfl hr

theorem splitlines_append_newline {l : List Char} (h : OneLine l) (cs : List Char) :
    splitlines (l ++ '\n' :: cs) = l :: splitlines cs := by
  induction l with
  | nil =>
    rw [List.nil_append, splitlines]
    · simp [isLineBreak]
    · rintro _ h
      exact absurd h (by decide)
  | cons c l ih =>
    have hc := h c List.mem_cons_self
    rw [List.cons_append, splitlines_cons _ hc.1 hc.2,
      ih (fun d hd => h d (List.mem_cons_of_mem _ hd)), consLine]

/-- The lines of a text written line by line. -/
theorem splitlines_flatMap {ls : List (List Char)} (h : ∀ l ∈ ls, OneLine l) :
    splitlines (ls.flatMap (· ++ ['\n'])) = ls := by
  induction ls with
  | nil => rfl
  | cons l ls ih =>
    rw [List.flatMap_cons, List.append_assoc, List.singleton_append,
      splitlines_append_newline (h l List.mem_cons_self),
      ih (fun m hm => h m (List.mem_cons_of_mem _ hm))]

private theorem mem_consLine {c : Char} {ls : List (List Char)} {l : List Char}
    (h : l ∈ consLine c ls) :
    l = [c] ∨ (∃ l' ∈ ls, l = c :: l') ∨ l ∈ ls := by
  cases ls with
  | nil => exact .inl (List.mem_singleton.mp h)
  | cons l' ls =>
    rcases List.mem_cons.mp h with rfl | h
    · exact .inr (.inl ⟨l', List.mem_cons_self, rfl⟩)
    · exact .inr (.inr (List.mem_cons_of_mem _ h))

/-- A line is part of its text, and holds no line break. -/
theorem mem_splitlines {cs l : List Char} (h : l ∈ splitlines cs) :
    OneLine l ∧ ∀ c ∈ l, c ∈ cs := by
  have hnil : ∀ cs : List Char, OneLine [] ∧ ∀ c ∈ ([] : List Char), c ∈ cs := fun cs =>
    ⟨fun c hc => absurd hc List.not_mem_nil, fun c hc => absurd hc List.not_mem_nil⟩
  induction cs using splitlines.induct generalizing l with
  | case1 => exact absurd h List.not_mem_nil
  | case2 cs ih =>
    rw [splitlines] at h
    rcases List.mem_cons.mp h with rfl | h
    · exact hnil _
    · obtain ⟨hone, hsub⟩ := ih h
      exact ⟨hone, fun c hc => List.mem_cons_of_mem _ (List.mem_cons_of_mem _ (hsub c hc))⟩
  | case3 c cs hne hbreak ih =>
    rw [splitlines, if_pos hbreak] at h
    · rcases List.mem_cons.mp h with rfl | h
      · exact hnil _
      · obtain ⟨hone, hsub⟩ := ih h
        exact ⟨hone, fun a ha => List.mem_cons_of_mem _ (hsub a ha)⟩
    · exact hne
  | case4 c cs hne hbreak ih =>
    rw [splitlines, if_neg hbreak] at h
    · have hc : c ≠ '\r' ∧ isLineBreak c = false := by simpa using hbreak
      rcases mem_consLine h with rfl | ⟨l', hl', rfl⟩ | hl
      · exact ⟨fun a ha => by rwa [List.mem_singleton.mp ha],
          fun a ha => by rw [List.mem_singleton.mp ha]; exact List.mem_cons_self⟩
      · obtain ⟨hone, hsub⟩ := ih hl'
        refine ⟨fun a ha => ?_, fun a ha => ?_⟩
        · rcases List.mem_cons.mp ha with rfl | ha
          · exact hc
          · exact hone a ha
        · exact List.mem_cons.mpr ((List.mem_cons.mp ha).imp_right (hsub a))
      · obtain ⟨hone, hsub⟩ := ih hl
        exact ⟨hone, fun a ha => List.mem_cons_of_mem _ (hsub a ha)⟩
    · exact hne

private theorem mem_consLine_of {c : Char} {l : List Char} {ls : List (List Char)} (h : l ∈ ls) :
    ∃ l' ∈ consLine c ls, l ⊆ l' := by
  cases ls with
  | nil => cases h
  | cons m ls =>
    rcases List.mem_cons.mp h with rfl | h
    · exact ⟨_, List.mem_cons_self, List.subset_cons_self _ _⟩
    · exact ⟨l, List.mem_cons_of_mem _ h, List.Subset.refl l⟩

/-- A character that ends no line is in one of the lines. -/
theorem exists_mem_splitlines {a : Char} {cs : List Char} (ha : a ∈ cs) (hr : a ≠ '\r')
    (hb : isLineBreak a = false) : ∃ l ∈ splitlines cs, a ∈ l := by
  induction cs using splitlines.induct with
  | case1 => cases ha
  | case2 cs ih =>
    have hn : a ≠ '\n' := fun h => by rw [h] at hb; cases hb
    obtain ⟨l, hl, hal⟩ := ih (by simpa [hr, hn] using ha)
    exact ⟨l, by rw [splitlines]; exact List.mem_cons_of_mem _ hl, hal⟩
  | case3 c cs hne hbreak ih =>
    have hc : a ≠ c := by
      rintro rfl
      rcases hbreak with h | h
      · exact hr h
      · rw [hb] at h
        cases h
    obtain ⟨l, hl, hal⟩ := ih ((List.mem_cons.mp ha).resolve_left hc)
    refine ⟨l, ?_, hal⟩
    rw [splitlines, if_pos hbreak]
    · exact List.mem_cons_of_mem _ hl
    · exact hne
  | case4 c cs hne hbreak ih =>
    rw [splitlines, if_neg hbreak]
    · rcases List.mem_cons.mp ha with rfl | ha
      · cases splitlines cs with
        | nil => exact ⟨_, List.mem_singleton_self _, List.mem_singleton_self _⟩
        | cons l ls => exact ⟨_, List.mem_cons_self, List.mem_cons_self⟩
      · obtain ⟨l, hl, hal⟩ := ih ha
        obtain ⟨l', hl', hsub⟩ := mem_consLine_of (c := c) hl
        exact ⟨l', hl', hsub hal⟩
    · exact hne

/-- No character of `l` ends a line or a field. -/
def OneField (l : List Char) : Prop := ' ' ∉ l ∧ OneLine l

/-- `str.isspace` of one character. -/
def isSpace (c : Char) : Bool :=
  let n := c.toNat
  (9 ≤ n ∧ n ≤ 13) ∨ (0x1c ≤ n ∧ n ≤ 0x20) ∨ n = 0x85 ∨ n = 0xa0 ∨ n = 0x1680 ∨
    (0x2000 ≤ n ∧ n ≤ 0x200a) ∨ n = 0x2028 ∨ n = 0x2029 ∨ n = 0x202f ∨ n = 0x205f ∨ n = 0x3000

/-- `str.strip` without an argument. -/
def strip (l : List Char) : List Char :=
  (((l.dropWhile isSpace).reverse).dropWhile isSpace).reverse

private theorem dropWhile_eq_self {l : List Char} (h : ∀ c ∈ l, isSpace c = false) :
    l.dropWhile isSpace = l := by
  cases l with
  | nil => rfl
  | cons c l => rw [List.dropWhile_cons_of_neg (by simp [h c List.mem_cons_self])]

theorem strip_eq_self {l : List Char} (h : ∀ c ∈ l, isSpace c = false) : strip l = l := by
  have hr : ∀ c ∈ l.reverse, isSpace c = false := fun c hc => h c (List.mem_reverse.mp hc)
  rw [strip, dropWhile_eq_self h, dropWhile_eq_self hr, List.reverse_reverse]

private theorem mem_dropWhile_of_not_space {c : Char} (hc : isSpace c = false) (l : List Char) :
    c ∈ l.dropWhile isSpace ↔ c ∈ l := by
  induction l with
  | nil => rfl
  | cons d l ih =>
    by_cases hd : isSpace d = true
    · have hne : c ≠ d := fun h => by rw [h, hd] at hc; cases hc
      rw [List.dropWhile_cons_of_pos hd, ih, List.mem_cons, or_iff_right hne]
    · rw [List.dropWhile_cons_of_neg hd]

/-- What is not white space is not stripped. -/
theorem mem_strip_of_not_space {c : Char} (hc : isSpace c = false) (l : List Char) :
    c ∈ strip l ↔ c ∈ l := by
  rw [strip, List.mem_reverse, mem_dropWhile_of_not_space hc, List.mem_reverse,
    mem_dropWhile_of_not_space hc]

/-- White space breaks no line unless it is a line break itself. -/
theorem oneLine_of_no_space {l : List Char} (h : ∀ c ∈ l, isSpace c = false) : OneLine l := by
  intro c hc
  have hsp := h c hc
  constructor
  · rintro rfl
    exact absurd hsp (by decide)
  · simp only [isLineBreak, decide_eq_false_iff_not, List.mem_cons, List.not_mem_nil, or_false]
    intro hb
    simp only [isSpace, decide_eq_false_iff_not] at hsp
    omega

theorem oneField_of_no_space {l : List Char} (h : ∀ c ∈ l, isSpace c = false) : OneField l :=
  ⟨fun hc => absurd (h _ hc) (by decide), oneLine_of_no_space h⟩

/-- The code points of the zeros of Unicode's decimal digit runs beyond ASCII. -/
def wideZeros : List ℕ :=
  [1632, 1776, 1984, 2406, 2534, 2662, 2790, 2918, 3046, 3174, 3302, 3430, 3558, 3664, 3792,
    3872, 4160, 4240, 6112, 6160, 6470, 6608, 6784, 6800, 6992, 7088, 7232, 7248, 42528, 43216,
    43264, 43472, 43504, 43600, 44016, 65296, 66720, 68912, 69734, 69872, 69942, 70096, 70384,
    70736, 70864, 71248, 71360, 71472, 71904, 72016, 72784, 73040, 73120, 92768, 92864, 93008,
    120782, 120792, 120802, 120812, 120822, 123200, 123632, 125264, 130032]

def digitValue (c : Char) : Option ℕ :=
  ((48 :: wideZeros).find? (fun z => z ≤ c.toNat ∧ c.toNat < z + 10)).map (c.toNat - ·)

/-- Decimal digits with single underscores between them. -/
def intDigits : List Char → Option (List ℕ)
  | [] => none
  | [c] => (digitValue c).map (fun d => [d])
  | c :: '_' :: cs => do
    let d ← digitValue c
    let ds ← intDigits cs
    pure (d :: ds)
  | c :: cs => do
    let d ← digitValue c
    let ds ← intDigits cs
    pure (d :: ds)

/-- `sys.int_info.default_max_str_digits`. -/
def maxStrDigits : ℕ := 4300

def natOfDigits (cs : List Char) : Option ℕ := do
  let ds ← intDigits cs
  if ds.length ≤ maxStrDigits then pure (ds.foldl (fun n d => 10 * n + d) 0) else none

def intOfSigned : List Char → Option ℤ
  | '-' :: cs => (natOfDigits cs).map (fun n : ℕ => -(n : ℤ))
  | '+' :: cs => (natOfDigits cs).map (fun n : ℕ => (n : ℤ))
  | cs => (natOfDigits cs).map (fun n : ℕ => (n : ℤ))

/-- `int(text)`; `none` is its `ValueError`. The separators U+001C to U+001F are skipped here as
`strip` skips them; `int` does so only where the text has a character beyond ASCII. -/
def pyInt (l : List Char) : Option ℤ := intOfSigned (strip l)

/-- `str` of an integer. -/
def natText (n : ℕ) : List Char := Nat.toDigits 10 n

def intText (z : ℤ) : List Char := if z < 0 then '-' :: natText z.natAbs else natText z.natAbs

theorem isDigit_of_mem_natText {n : ℕ} {c : Char} (h : c ∈ natText n) :
    48 ≤ c.toNat ∧ c.toNat ≤ 57 := by
  have := Nat.isDigit_of_mem_toDigits (by decide) (by decide) h
  simp only [Char.isDigit, Bool.and_eq_true, decide_eq_true_eq, ge_iff_le,
    UInt32.le_iff_toNat_le] at this
  exact this

theorem natText_ne_nil (n : ℕ) : natText n ≠ [] := Nat.toDigits_ne_nil

theorem digitValue_of_ascii {c : Char} (h : 48 ≤ c.toNat ∧ c.toNat ≤ 57) :
    digitValue c = some (c.toNat - 48) := by
  have hfirst : decide (48 ≤ c.toNat ∧ c.toNat < 48 + 10) = true := by
    rw [decide_eq_true_eq]
    omega
  simp only [digitValue, List.find?, hfirst, Option.map_some]

private theorem intDigits_of_ascii {cs : List Char} (hne : cs ≠ [])
    (h : ∀ c ∈ cs, 48 ≤ c.toNat ∧ c.toNat ≤ 57) :
    intDigits cs = some (cs.map (fun c => c.toNat - 48)) := by
  induction cs with
  | nil => exact absurd rfl hne
  | cons c cs ih =>
    have hc := digitValue_of_ascii (h c List.mem_cons_self)
    have hcs : ∀ d ∈ cs, 48 ≤ d.toNat ∧ d.toNat ≤ 57 := fun d hd => h d (List.mem_cons_of_mem _ hd)
    cases cs with
    | nil => simp [intDigits, hc]
    | cons d cs =>
      have hd : d ≠ '_' := by
        rintro rfl
        exact absurd (hcs _ List.mem_cons_self) (by decide)
      rw [intDigits]
      · simp [hc, ih (by simp) hcs]
      · simp
      · rintro _ h
        exact hd (List.cons.inj h).1

private theorem foldl_digits (cs : List Char) (n : ℕ) :
    (cs.map (fun c => c.toNat - 48)).foldl (fun n d => 10 * n + d) n =
      Nat.ofDigitChars 10 cs n := by
  induction cs generalizing n with
  | nil => rfl
  | cons c cs ih =>
    rw [List.map_cons, List.foldl_cons, ih]
    rfl

/-- Decimal digits alone are converted when they are not too many. -/
theorem natOfDigits_ascii {cs : List Char} (hne : cs ≠ [])
    (hcs : ∀ c ∈ cs, 48 ≤ c.toNat ∧ c.toNat ≤ 57) :
    natOfDigits cs =
      if cs.length ≤ maxStrDigits then some (Nat.ofDigitChars 10 cs 0) else none := by
  have hd := intDigits_of_ascii hne hcs
  simp only [natOfDigits, hd, Option.bind_eq_bind, Option.bind_some, List.length_map, foldl_digits]
  rfl

theorem natOfDigits_natText {n : ℕ} (h : (natText n).length ≤ maxStrDigits) :
    natOfDigits (natText n) = some n := by
  rw [natOfDigits_ascii (natText_ne_nil n) (fun c hc => isDigit_of_mem_natText hc), if_pos h]
  exact congrArg some (Nat.ofDigitChars_ten_toDigits)

private theorem not_space_of_digit {c : Char} (h : 48 ≤ c.toNat ∧ c.toNat ≤ 57) :
    isSpace c = false := by
  simp only [isSpace, decide_eq_false_iff_not]
  omega

theorem mem_intText {z : ℤ} {c : Char} (hc : c ∈ intText z) :
    c = '-' ∨ 48 ≤ c.toNat ∧ c.toNat ≤ 57 := by
  simp only [intText] at hc
  split_ifs at hc
  · rcases List.mem_cons.mp hc with rfl | hc
    · exact .inl rfl
    · exact .inr (isDigit_of_mem_natText hc)
  · exact .inr (isDigit_of_mem_natText hc)

theorem intText_not_space (z : ℤ) : ∀ c ∈ intText z, isSpace c = false := by
  intro c hc
  rcases mem_intText hc with rfl | hdigit
  · decide
  · exact not_space_of_digit hdigit

theorem intText_not_backslash (z : ℤ) : '\\' ∉ intText z := fun hc =>
  (mem_intText hc).elim (fun h => absurd h (by decide)) (fun h => absurd h (by decide))

theorem intText_ne_nil (z : ℤ) : intText z ≠ [] := by
  rw [intText]
  split_ifs
  · simp
  · exact natText_ne_nil _

private theorem intOfSigned_unsigned (n : ℕ) :
    intOfSigned (natText n) = (natOfDigits (natText n)).map (fun n : ℕ => (n : ℤ)) := by
  have hunsigned : ∀ c ∈ natText n, c ≠ '-' ∧ c ≠ '+' := by
    intro c hc
    have hd := isDigit_of_mem_natText hc
    constructor <;> (rintro rfl; exact absurd hd (by decide))
  rw [intOfSigned]
  · intro cs hcs
    exact (hunsigned '-' (by rw [hcs]; exact List.mem_cons_self)).1 rfl
  · intro cs hcs
    exact (hunsigned '+' (by rw [hcs]; exact List.mem_cons_self)).2 rfl

/-- One with more digits is not. -/
theorem natOfDigits_natText_none {n : ℕ} (h : maxStrDigits < (natText n).length) :
    natOfDigits (natText n) = none := by
  rw [natOfDigits_ascii (natText_ne_nil n) (fun c hc => isDigit_of_mem_natText hc),
    if_neg (by omega)]

/-- An integer with at most as many digits as Python converts is read back. -/
theorem pyInt_intText {z : ℤ} (h : (natText z.natAbs).length ≤ maxStrDigits) :
    pyInt (intText z) = some z := by
  rw [pyInt, strip_eq_self (intText_not_space z), intText]
  split_ifs with hz
  · rw [intOfSigned, natOfDigits_natText h, Option.map_some]
    exact congrArg some (by omega)
  · rw [intOfSigned_unsigned, natOfDigits_natText h, Option.map_some]
    exact congrArg some (by omega)

/-- Whatever is read of an integer is the integer. -/
theorem pyInt_intText_eq {z z' : ℤ} (h : pyInt (intText z) = some z') : z' = z := by
  by_cases hlen : (natText z.natAbs).length ≤ maxStrDigits
  · rw [pyInt_intText hlen] at h
    exact (Option.some.inj h).symm
  · rw [pyInt, strip_eq_self (intText_not_space z)] at h
    have hnone := natOfDigits_natText_none (Nat.lt_of_not_le hlen)
    rw [intText] at h
    split_ifs at h
    · simp [intOfSigned, hnone] at h
    · rw [intOfSigned_unsigned, hnone] at h
      cases h

end MbKeeper
