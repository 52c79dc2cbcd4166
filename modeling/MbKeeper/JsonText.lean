import MbKeeper.ManifestReading

/-!
# JSON as text

`dumps` is `json.dumps` of the values a program prints, on one line or indented,
with or without escapes for what is not ASCII. `json_loads` is `json.loads`, a
reader that goes down the value and leaves what follows it. It has fuel for every
text that it is given: more of it would find nothing more.
-/
namespace MbKeeper

/-- What is handed to `json.dumps`. -/
inductive Dumped where
  | null
  | bool (b : Bool)
  | int (z : ℤ)
  | str (s : String)
  | list (items : List Dumped)
  | dict (items : List (String × Dumped))

/-- The arguments of `json.dumps`. -/
structure JsonStyle where
  indent : Option ℕ
  ensure_ascii : Bool

/-- What follows the backslash where JSON has an escape of two characters. -/
def shortEscape (c : Char) : Option Char :=
  if c = '"' ∨ c = '\\' then some c
  else if c = '\n' then some 'n'
  else if c = '\r' then some 'r'
  else if c = '\t' then some 't'
  else if c.toNat = 8 then some 'b'
  else if c.toNat = 12 then some 'f'
  else none

/-- A character as it is printed when only what JSON forbids is escaped. -/
def jsonCharRaw (c : Char) : List Char :=
  match shortEscape c with
  | some d => ['\\', d]
  | none => if c.toNat < 32 then jsonEscape c.toNat else [c]

namespace JsonStyle

variable (style : JsonStyle)

def char (c : Char) : List Char := if style.ensure_ascii then jsonChar c else jsonCharRaw c

def text (s : String) : List Char := '"' :: (s.toList.flatMap style.char ++ ['"'])

/-- The start of a line at a level of nesting. -/
def newline (level : ℕ) : List Char :=
  match style.indent with
  | none => []
  | some n => '\n' :: List.replicate (n * level) ' '

def separator (level : ℕ) : List Char :=
  match style.indent with
  | none => [',', ' ']
  | some _ => ',' :: style.newline level

end JsonStyle

mutual

def dumpsAt (style : JsonStyle) (level : ℕ) : Dumped → List Char
  | .null => "null".toList
  | .bool b => if b then "true".toList else "false".toList
  | .int z => intText z
  | .str s => style.text s
  | .list [] => ['[', ']']
  | .list (v :: vs) => '[' :: (style.newline (level + 1) ++ (dumpsAt style (level + 1) v ++
      (dumpsItems style (level + 1) vs ++ (style.newline level ++ [']']))))
  | .dict [] => ['{', '}']
  | .dict ((k, v) :: items) => '{' :: (style.newline (level + 1) ++ (style.text k ++
      (':' :: ' ' :: (dumpsAt style (level + 1) v ++
        (dumpsMembers style (level + 1) items ++ (style.newline level ++ ['}']))))))
termination_by structural v => v

/-- The items after the first one. -/
def dumpsItems (style : JsonStyle) (level : ℕ) : List Dumped → List Char
  | [] => []
  | v :: vs => style.separator level ++ (dumpsAt style level v ++ dumpsItems style level vs)
termination_by structural vs => vs

def dumpsMembers (style : JsonStyle) (level : ℕ) : List (String × Dumped) → List Char
  | [] => []
  | (k, v) :: items => style.separator level ++ (style.text k ++ (':' :: ' ' ::
      (dumpsAt style level v ++ dumpsMembers style level items)))
termination_by structural items => items

end

/-- `json.dumps(value, …)` -/
def dumps (style : JsonStyle) (v : Dumped) : String := String.ofList (dumpsAt style 0 v)

def isJsonSpace (c : Char) : Bool := c = ' ' ∨ c = '\t' ∨ c = '\n' ∨ c = '\r'

def skipSpace (cs : List Char) : List Char := cs.dropWhile isJsonSpace

def hexDigit (c : Char) : Option ℕ :=
  let n := c.toNat
  if 48 ≤ n ∧ n ≤ 57 then some (n - 48)
  else if 97 ≤ n ∧ n ≤ 102 then some (n - 87)
  else if 65 ≤ n ∧ n ≤ 70 then some (n - 55)
  else none

def hexValue (a b c d : Char) : Option ℕ := do
  let a ← hexDigit a
  let b ← hexDigit b
  let c ← hexDigit c
  let d ← hexDigit d
  pure (4096 * a + 256 * b + 16 * c + d)

/-- What stands for one character after a backslash. -/
def unescaped (c : Char) : Option ℕ :=
  if c = '"' ∨ c = '\\' ∨ c = '/' then some c.toNat
  else if c = 'b' then some 8
  else if c = 'f' then some 12
  else if c = 'n' then some 10
  else if c = 'r' then some 13
  else if c = 't' then some 9
  else none

/-- A code of a string, and whether it was written `\uXXXX`. -/
abbrev CodeUnit := Bool × ℕ

/-- The codes up to the closing quote, and what follows it. -/
def readUnits : List Char → Option (List CodeUnit × List Char)
  | [] => none
  | '"' :: cs => some ([], cs)
  | '\\' :: 'u' :: a :: b :: c :: d :: cs => do
    let n ← hexValue a b c d
    let p ← readUnits cs
    pure ((true, n) :: p.1, p.2)
  | '\\' :: c :: cs => do
    let n ← unescaped c
    let p ← readUnits cs
    pure ((false, n) :: p.1, p.2)
  | c :: cs =>
    if c.toNat < 32 then none
    else (readUnits cs).map (fun p => ((false, c.toNat) :: p.1, p.2))

/-- Two surrogates that were written one after the other are one character. -/
def joinPairs : List CodeUnit → PyStr
  | [] => []
  | (true, hi) :: (true, lo) :: us =>
    if (55296 ≤ hi ∧ hi < 56320) ∧ 56320 ≤ lo ∧ lo < 57344 then
      (65536 + 1024 * (hi - 55296) + (lo - 56320)) :: joinPairs us
    else hi :: joinPairs ((true, lo) :: us)
  | u :: us => u.2 :: joinPairs us

def readString (cs : List Char) : Option (PyStr × List Char) :=
  (readUnits cs).map (fun p => (joinPairs p.1, p.2))

def isJsonDigit (c : Char) : Bool := 48 ≤ c.toNat ∧ c.toNat ≤ 57

/-- The digits of an integer; a zero in front stands alone. -/
def readDigits : List Char → Option (List Char × List Char)
  | [] => none
  | c :: cs =>
    if c = '0' then some ([c], cs)
    else if isJsonDigit c then some (c :: cs.takeWhile isJsonDigit, cs.dropWhile isJsonDigit)
    else none

/-- The digits after a point. -/
def readFraction : List Char → List Char × List Char
  | '.' :: c :: cs =>
    if isJsonDigit c then ('.' :: c :: cs.takeWhile isJsonDigit, cs.dropWhile isJsonDigit)
    else ([], '.' :: c :: cs)
  | cs => ([], cs)

/-- The digits of an exponent, after its sign. -/
def readPower (mark : List Char) (start : List Char) : List Char → List Char × List Char
  | c :: cs =>
    if isJsonDigit c then (mark ++ c :: cs.takeWhile isJsonDigit, cs.dropWhile isJsonDigit)
    else ([], start)
  | [] => ([], start)

def readExponent : List Char → List Char × List Char
  | e :: cs =>
    if e = 'e' ∨ e = 'E' then
      match cs with
      | '+' :: ds => readPower [e, '+'] (e :: cs) ds
      | '-' :: ds => readPower [e, '-'] (e :: cs) ds
      | ds => readPower [e] (e :: cs) ds
    else ([], e :: cs)
  | [] => ([], [])

/-- A number without its sign; `int` refuses too many digits. -/
def readUnsigned (negative : Bool) (cs : List Char) : Option (Json × List Char) := do
  let (digits, rest) ← readDigits cs
  let (fraction, rest) := readFraction rest
  let (power, rest) := readExponent rest
  if fraction = [] ∧ power = [] then
    let n ← natOfDigits digits
    pure (.int (if negative then -(n : ℤ) else n), rest)
  else
    let sign := if negative then ['-'] else []
    pure (.float (String.ofList (sign ++ digits ++ fraction ++ power)), rest)

/-- A word, and what follows it. -/
def readWord (word : String) (v : Json) (cs : List Char) : Option (Json × List Char) :=
  if word.toList <+: cs then some (v, cs.drop word.toList.length) else none

/-- A value that is no string, object or array. -/
def readAtom : List Char → Option (Json × List Char)
  | 'n' :: cs => readWord "null" .null ('n' :: cs)
  | 't' :: cs => readWord "true" (.bool true) ('t' :: cs)
  | 'f' :: cs => readWord "false" (.bool false) ('f' :: cs)
  | 'N' :: cs => readWord "NaN" (.float "nan") ('N' :: cs)
  | 'I' :: cs => readWord "Infinity" (.float "inf") ('I' :: cs)
  | '-' :: 'I' :: cs => readWord "Infinity" (.float "-inf") ('I' :: cs)
  | '-' :: cs => readUnsigned true cs
  | cs => readUnsigned false cs

/-- A `dict` of these items: a later value of a key takes the place of an earlier one. -/
def dictOf (items : List (PyStr × Json)) : List (PyStr × Json) :=
  items.foldl (fun d item => if d.any (fun x => x.1 = item.1) then
    d.map (fun x => if x.1 = item.1 then item else x) else d ++ [item]) []

/-- A key with the colon after it. -/
def readKey : List Char → Option (PyStr × List Char)
  | '"' :: cs => do
    let (k, rest) ← readString cs
    match skipSpace rest with
    | ':' :: rest => pure (k, skipSpace rest)
    | _ => none
  | _ => none

mutual

/-- A value, and what follows it. -/
def readValue : ℕ → List Char → Option (Json × List Char)
  | 0, _ => none
  | _ + 1, [] => none
  | n + 1, c :: cs =>
    if c = '"' then (readString cs).map (fun p => (.str p.1, p.2))
    else if c = '[' then readList n (skipSpace cs)
    else if c = '{' then readDict n (skipSpace cs)
    else readAtom (c :: cs)
termination_by structural n => n

/-- The inside of an array. -/
def readList : ℕ → List Char → Option (Json × List Char)
  | 0, _ => none
  | n + 1, cs =>
    if cs.head? = some ']' then some (.arr [], cs.tail)
    else (readItems n cs).map (fun p => (.arr p.1, p.2))
termination_by structural n => n

def readItems : ℕ → List Char → Option (List Json × List Char)
  | 0, _ => none
  | n + 1, cs => do
    let (v, rest) ← readValue n cs
    match skipSpace rest with
    | ',' :: rest => do
      let (vs, rest) ← readItems n (skipSpace rest)
      pure (v :: vs, rest)
    | ']' :: rest => pure ([v], rest)
    | _ => none
termination_by structural n => n

/-- The inside of an object. -/
def readDict : ℕ → List Char → Option (Json × List Char)
  | 0, _ => none
  | n + 1, cs =>
    if cs.head? = some '}' then some (.obj [], cs.tail)
    else (readMembers n cs).map (fun p => (.obj (dictOf p.1), p.2))
termination_by structural n => n

def readMembers : ℕ → List Char → Option (List (PyStr × Json) × List Char)
  | 0, _ => none
  | n + 1, cs => do
    let (k, rest) ← readKey cs
    let (v, rest) ← readValue n rest
    match skipSpace rest with
    | ',' :: rest => do
      let (items, rest) ← readMembers n (skipSpace rest)
      pure ((k, v) :: items, rest)
    | '}' :: rest => pure ([(k, v)], rest)
    | _ => none
termination_by structural n => n

end

/-- `json.loads(text)`; an error stands for whichever exception it raises, a `JSONDecodeError` or
the `ValueError` of an integer that `int` finds too long. -/
def json_loads (text : String) : Except String Json :=
  match text.toList with
  | '\ufeff' :: _ => .error "Unexpected UTF-8 BOM (decode using utf-8-sig)"
  | cs =>
    match readValue (3 * cs.length + 1) (skipSpace cs) with
    | none => .error "Expecting value"
    | some (v, rest) => if skipSpace rest = [] then .ok v else .error "Extra data"

/-- What is left is shorter than what was read. -/
def Consumes {α : Type} (cs : List Char) (found : Option (α × List Char)) : Prop :=
  ∀ a rest, found = some (a, rest) → rest.length < cs.length

theorem length_skipSpace (cs : List Char) : (skipSpace cs).length ≤ cs.length :=
  (List.dropWhile_sublist _).length_le

theorem readUnits_consumes (cs : List Char) : Consumes cs (readUnits cs) := by
  intro us rest h
  fun_induction readUnits cs generalizing us rest with
  | case1 => cases h
  | case2 cs => 
    obtain ⟨-, rfl⟩ := Prod.mk.inj (Option.some.inj h)
    simp
  | case3 a b c d cs ih =>
    simp only [Option.bind_eq_bind, Option.bind_eq_some_iff] at h
    obtain ⟨n, -, p, hp, h⟩ := h
    obtain ⟨-, rfl⟩ := Prod.mk.inj (Option.some.inj h)
    have := ih _ _ hp
    simp only [List.length_cons]
    omega
  | case4 c cs hcs ih =>
    simp only [Option.bind_eq_bind, Option.bind_eq_some_iff] at h
    obtain ⟨n, -, p, hp, h⟩ := h
    obtain ⟨-, rfl⟩ := Prod.mk.inj (Option.some.inj h)
    have := ih _ _ hp
    simp only [List.length_cons]
    omega
  | case5 => cases h
  | case6 c cs h₁ h₂ h₃ hc ih =>
    obtain ⟨p, hp, h⟩ := Option.map_eq_some_iff.mp h
    obtain ⟨-, rfl⟩ := Prod.mk.inj h
    have := ih _ _ hp
    rw [List.length_cons]
    omega

theorem readDigits_consumes (cs : List Char) : Consumes cs (readDigits cs) := by
  intro ds rest h
  have hdrop := fun l : List Char => (List.dropWhile_sublist isJsonDigit (l := l)).length_le
  unfold readDigits at h
  split at h
  · cases h
  · rename_i c l
    have hl := hdrop l
    rw [List.length_cons]
    split_ifs at h
    · obtain ⟨-, rfl⟩ := Prod.mk.inj (Option.some.inj h)
      omega
    · obtain ⟨-, rfl⟩ := Prod.mk.inj (Option.some.inj h)
      omega

theorem length_readFraction (cs : List Char) : (readFraction cs).2.length ≤ cs.length := by
  unfold readFraction
  split
  · rename_i c l
    have hl := (List.dropWhile_sublist isJsonDigit (l := l)).length_le
    split_ifs
    · simp only [List.length_cons]
      omega
    · exact Nat.le_refl _
  · exact Nat.le_refl _

theorem length_readPower (mark start cs : List Char) (h : cs.length ≤ start.length) :
    (readPower mark start cs).2.length ≤ start.length := by
  unfold readPower
  split
  · rename_i c l
    have hl := (List.dropWhile_sublist isJsonDigit (l := l)).length_le
    rw [List.length_cons] at h
    split_ifs
    · dsimp only
      omega
    · exact Nat.le_refl _
  · exact Nat.le_refl _

theorem length_readExponent (cs : List Char) : (readExponent cs).2.length ≤ cs.length := by
  unfold readExponent
  split
  · split_ifs
    · split
      all_goals
        apply length_readPower
        simp only [List.length_cons]
        omega
    · exact Nat.le_refl _
  · exact Nat.le_refl _

theorem readUnsigned_consumes (negative : Bool) (cs : List Char) :
    Consumes cs (readUnsigned negative cs) := by
  intro v rest h
  simp only [readUnsigned, Option.bind_eq_bind, Option.bind_eq_some_iff] at h
  obtain ⟨⟨digits, left⟩, hdigits, h⟩ := h
  have hleft := readDigits_consumes cs _ _ hdigits
  have hfraction := length_readFraction left
  have hpower := length_readExponent (readFraction left).2
  have hrest : rest = (readExponent (readFraction left).2).2 := by
    dsimp only at h
    by_cases hint : (readFraction left).1 = [] ∧ (readExponent (readFraction left).2).1 = []
    · rw [if_pos hint] at h
      obtain ⟨n, -, h⟩ := Option.bind_eq_some_iff.mp h
      exact (Prod.mk.inj (Option.some.inj h)).2.symm
    · rw [if_neg hint] at h
      exact (Prod.mk.inj (Option.some.inj h)).2.symm
  rw [hrest]
  omega

theorem readWord_consumes {word : String} (hword : word.toList ≠ []) (v : Json) (cs : List Char) :
    Consumes cs (readWord word v cs) := by
  intro w rest h
  unfold readWord at h
  split_ifs at h with hp
  obtain ⟨-, rfl⟩ := Prod.mk.inj (Option.some.inj h)
  have hlen := hp.length_le
  have hpos := List.length_pos_of_ne_nil hword
  rw [List.length_drop]
  omega

theorem readAtom_consumes (cs : List Char) : Consumes cs (readAtom cs) := by
  unfold readAtom
  split
  · exact readWord_consumes (by simp) _ _
  · exact readWord_consumes (by simp) _ _
  · exact readWord_consumes (by simp) _ _
  · exact readWord_consumes (by simp) _ _
  · exact readWord_consumes (by simp) _ _
  · intro v rest h
    have := readWord_consumes (by simp) _ _ _ _ h
    simp only [List.length_cons] at this ⊢
    omega
  · intro v rest h
    have := readUnsigned_consumes true _ _ _ h
    rw [List.length_cons]
    omega
  · exact readUnsigned_consumes false _

theorem readString_consumes (cs : List Char) : Consumes cs (readString cs) := by
  intro s rest h
  obtain ⟨p, hp, h⟩ := Option.map_eq_some_iff.mp h
  obtain ⟨-, rfl⟩ := Prod.mk.inj h
  exact readUnits_consumes cs _ _ hp

theorem readKey_consumes (cs : List Char) : Consumes cs (readKey cs) := by
  intro k rest h
  unfold readKey at h
  split at h
  · simp only [Option.bind_eq_bind, Option.bind_eq_some_iff] at h
    obtain ⟨⟨s, left⟩, hs, h⟩ := h
    have hleft := readString_consumes _ _ _ hs
    dsimp only at h
    split at h
    · rename_i l hskip
      obtain ⟨-, rfl⟩ := Prod.mk.inj (Option.some.inj h)
      have h₁ := length_skipSpace left
      have h₂ := length_skipSpace l
      rw [hskip, List.length_cons] at h₁
      rw [List.length_cons]
      omega
    · cases h
  · cases h

/-- What every reader leaves is shorter than what it got. -/
structure ReadersConsume (n : ℕ) : Prop where
  value : ∀ cs, Consumes cs (readValue n cs)
  list : ∀ cs, Consumes cs (readList n cs)
  items : ∀ cs, Consumes cs (readItems n cs)
  dict : ∀ cs, Consumes cs (readDict n cs)
  members : ∀ cs, Consumes cs (readMembers n cs)

theorem Consumes.map {α β : Type} {cs : List Char} {found : Option (α × List Char)} {f : α → β}
    (h : Consumes cs found) : Consumes cs (found.map (fun p => (f p.1, p.2))) := by
  intro b rest hb
  obtain ⟨p, hp, hb⟩ := Option.map_eq_some_iff.mp hb
  obtain ⟨-, rfl⟩ := Prod.mk.inj hb
  exact h _ _ hp

theorem Consumes.skip {α : Type} {c : Char} {cs : List Char} {found : Option (α × List Char)}
    (h : Consumes (skipSpace cs) found) : Consumes (c :: cs) found := by
  intro a rest ha
  have hlen := length_skipSpace cs
  have := h a rest ha
  rw [List.length_cons]
  omega

theorem consumes_close {α : Type} {cs : List Char} {c : Char} {a : α} (h : cs.head? = some c) :
    Consumes cs (some (a, cs.tail)) := by
  intro b rest hb
  obtain ⟨-, rfl⟩ := Prod.mk.inj (Option.some.inj hb)
  cases cs with
  | nil => cases h
  | cons d cs => simp

theorem readersConsume (n : ℕ) : ReadersConsume n := by
  induction n with
  | zero => constructor <;> exact fun cs a rest h => nomatch h
  | succ n ih =>
    have hvalue : ∀ cs, Consumes cs (readValue (n + 1) cs) := by
      intro cs
      cases cs with
      | nil => exact fun a rest h => nomatch h
      | cons c cs =>
        rw [readValue]
        split_ifs
        · intro a rest h
          have := (readString_consumes cs).map _ _ h
          rw [List.length_cons]
          omega
        · exact (ih.list _).skip
        · exact (ih.dict _).skip
        · exact readAtom_consumes _
    have hlist : ∀ cs, Consumes cs (readList (n + 1) cs) := by
      intro cs
      rw [readList]
      split_ifs with hclose
      · exact consumes_close hclose
      · exact (ih.items cs).map
    have hdict : ∀ cs, Consumes cs (readDict (n + 1) cs) := by
      intro cs
      rw [readDict]
      split_ifs with hclose
      · exact consumes_close hclose
      · exact (ih.members cs).map (f := fun items => Json.obj (dictOf items))
    have hitems : ∀ cs, Consumes cs (readItems (n + 1) cs) := by
      intro cs vs rest h
      simp only [readItems, Option.bind_eq_bind, Option.bind_eq_some_iff] at h
      obtain ⟨⟨v, left⟩, hv, h⟩ := h
      have hleft := ih.value cs _ _ hv
      have hskip := length_skipSpace left
      dsimp only at h
      split at h
      · rename_i l hl
        obtain ⟨⟨ws, left'⟩, hws, h⟩ := Option.bind_eq_some_iff.mp h
        obtain ⟨-, rfl⟩ := Prod.mk.inj (Option.some.inj h)
        have hrest := ih.items _ _ _ hws
        have hskip' := length_skipSpace l
        rw [hl, List.length_cons] at hskip
        dsimp only
        omega
      · rename_i l hl
        obtain ⟨-, rfl⟩ := Prod.mk.inj (Option.some.inj h)
        rw [hl, List.length_cons] at hskip
        omega
      · cases h
    have hmembers : ∀ cs, Consumes cs (readMembers (n + 1) cs) := by
      intro cs items rest h
      simp only [readMembers, Option.bind_eq_bind, Option.bind_eq_some_iff] at h
      obtain ⟨⟨k, left₀⟩, hk, ⟨v, left⟩, hv, h⟩ := h
      have hkey := readKey_consumes cs _ _ hk
      have hleft := ih.value _ _ _ hv
      have hskip := length_skipSpace left
      dsimp only at h hleft
      split at h
      · rename_i l hl
        obtain ⟨⟨ws, left'⟩, hws, h⟩ := Option.bind_eq_some_iff.mp h
        obtain ⟨-, rfl⟩ := Prod.mk.inj (Option.some.inj h)
        have hrest := ih.members _ _ _ hws
        have hskip' := length_skipSpace l
        rw [hl, List.length_cons] at hskip
        dsimp only
        omega
      · rename_i l hl
        obtain ⟨-, rfl⟩ := Prod.mk.inj (Option.some.inj h)
        rw [hl, List.length_cons] at hskip
        omega
      · cases h
    exact ⟨hvalue, hlist, hitems, hdict, hmembers⟩

/-- Fuel `n` is as good as more of it, for texts as long as each reader is given. -/
structure FuelSuffices (n : ℕ) : Prop where
  value : ∀ cs : List Char, 3 * cs.length + 1 ≤ n → readValue (n + 1) cs = readValue n cs
  list : ∀ cs : List Char, 3 * cs.length + 3 ≤ n → readList (n + 1) cs = readList n cs
  items : ∀ cs : List Char, 3 * cs.length + 2 ≤ n → readItems (n + 1) cs = readItems n cs
  dict : ∀ cs : List Char, 3 * cs.length + 3 ≤ n → readDict (n + 1) cs = readDict n cs
  members : ∀ cs : List Char, 3 * cs.length + 2 ≤ n → readMembers (n + 1) cs = readMembers n cs

theorem fuelSuffices (n : ℕ) : FuelSuffices n := by
  induction n with
  | zero => constructor <;> exact fun cs h => by omega
  | succ n ih =>
    have hvalue : ∀ cs : List Char, 3 * cs.length + 1 ≤ n + 1 →
        readValue (n + 2) cs = readValue (n + 1) cs := by
      intro cs hn
      cases cs with
      | nil => rfl
      | cons c cs =>
        have hskip := length_skipSpace cs
        rw [List.length_cons] at hn
        have hl := ih.list (skipSpace cs) (by omega)
        have hd := ih.dict (skipSpace cs) (by omega)
        rw [readValue, readValue, hl, hd]
    have hlist : ∀ cs : List Char, 3 * cs.length + 3 ≤ n + 1 →
        readList (n + 2) cs = readList (n + 1) cs := by
      intro cs hn
      have hi := ih.items cs (by omega)
      rw [readList, readList, hi]
    have hdict : ∀ cs : List Char, 3 * cs.length + 3 ≤ n + 1 →
        readDict (n + 2) cs = readDict (n + 1) cs := by
      intro cs hn
      have hm := ih.members cs (by omega)
      rw [readDict, readDict, hm]
    have hitems : ∀ cs : List Char, 3 * cs.length + 2 ≤ n + 1 →
        readItems (n + 2) cs = readItems (n + 1) cs := by
      intro cs hn
      have hv := ih.value cs (by omega)
      rw [readItems, readItems, hv]
      cases hfound : readValue n cs with
      | none => rfl
      | some p =>
        have hleft := (readersConsume n).value cs _ _ hfound
        have hskip := length_skipSpace p.2
        simp only [Option.bind_eq_bind, Option.bind_some]
        split
        · rename_i l hl
          have hskip' := length_skipSpace l
          rw [hl, List.length_cons] at hskip
          rw [ih.items (skipSpace l) (by omega)]
        · rfl
        · rfl
    have hmembers : ∀ cs : List Char, 3 * cs.length + 2 ≤ n + 1 →
        readMembers (n + 2) cs = readMembers (n + 1) cs := by
      intro cs hn
      rw [readMembers, readMembers]
      cases hkey : readKey cs with
      | none => rfl
      | some k =>
        have hcolon := readKey_consumes cs _ _ hkey
        have hv := ih.value k.2 (by omega)
        simp only [Option.bind_eq_bind, Option.bind_some]
        rw [hv]
        cases hfound : readValue n k.2 with
        | none => rfl
        | some p =>
          have hleft := (readersConsume n).value k.2 _ _ hfound
          have hskip := length_skipSpace p.2
          simp only [Option.bind_some]
          split
          · rename_i l hl
            have hskip' := length_skipSpace l
            rw [hl, List.length_cons] at hskip
            rw [ih.members (skipSpace l) (by omega)]
          · rfl
          · rfl
    exact ⟨hvalue, hlist, hitems, hdict, hmembers⟩

/-- The reader finds nothing only where there is no JSON: no fuel makes it find more. -/
theorem readValue_fuel {n : ℕ} {cs : List Char} (h : 3 * cs.length + 1 ≤ n) :
    readValue n cs = readValue (3 * cs.length + 1) cs := by
  induction n, h using Nat.le_induction with
  | base => rfl
  | succ n hn ih => rw [(fuelSuffices n).value cs hn, ih]

end MbKeeper
