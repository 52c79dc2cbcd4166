import MbKeeper.JsonText

/-!
# What is printed as JSON is read back

The reader is moved over what `dumps` printed, first over one character of a
string, then over a string and a number, and then over a value with what stands
in its arrays and objects, which is one induction on the fuel. What is printed
without indentation has no control character, so it is one line.
-/
namespace MbKeeper

theorem hexDigit_digitChar : ∀ d < 16, hexDigit (Nat.digitChar d) = some d := by decide

theorem jsonEscape_eq {n : ℕ} (h : n < 65536) :
    jsonEscape n = ['\\', 'u', Nat.digitChar (n / 4096), Nat.digitChar (n / 256 % 16),
      Nat.digitChar (n / 16 % 16), Nat.digitChar (n % 16)] := by
  have hsplit (m : ℕ) (hm : 16 ≤ m) : Nat.toDigits 16 m =
      Nat.toDigits 16 (m / 16) ++ [Nat.digitChar (m % 16)] := by
    rw [Nat.toDigits_eq_if (by decide), if_neg (by omega)]
  have hdigit (m : ℕ) (hm : m < 16) : Nat.toDigits 16 m = [Nat.digitChar m] := by
    rw [Nat.toDigits_eq_if (by decide), if_pos hm]
  unfold jsonEscape
  by_cases h₁ : n < 16
  · have hz : n / 4096 = 0 ∧ n / 256 % 16 = 0 ∧ n / 16 % 16 = 0 ∧ n % 16 = n := by omega
    rw [hdigit n h₁, hz.1, hz.2.1, hz.2.2.1, hz.2.2.2]
    rfl
  by_cases h₂ : n < 256
  · have hz : n / 4096 = 0 ∧ n / 256 % 16 = 0 ∧ n / 16 % 16 = n / 16 := by omega
    rw [hsplit n (by omega), hdigit _ (by omega), hz.1, hz.2.1, hz.2.2]
    rfl
  by_cases h₃ : n < 4096
  · have hz : n / 4096 = 0 ∧ n / 256 % 16 = n / 256 ∧ n / 16 / 16 = n / 256 := by omega
    rw [hsplit n (by omega), hsplit _ (by omega), hdigit _ (by omega), hz.1, hz.2.1, hz.2.2]
    rfl
  · have hz : n / 16 / 16 / 16 = n / 4096 ∧ n / 16 / 16 = n / 256 := by omega
    rw [hsplit n (by omega), hsplit _ (by omega), hsplit _ (by omega), hdigit _ (by omega), hz.1,
      hz.2]
    rfl

theorem readUnits_jsonEscape {n : ℕ} (h : n < 65536) (rest : List Char) :
    readUnits (jsonEscape n ++ rest) = (readUnits rest).map (fun p => ((true, n) :: p.1, p.2)) := by
  have hvalue : hexValue (Nat.digitChar (n / 4096)) (Nat.digitChar (n / 256 % 16))
      (Nat.digitChar (n / 16 % 16)) (Nat.digitChar (n % 16)) = some n := by
    simp only [hexValue, hexDigit_digitChar _ (show n / 4096 < 16 by omega),
      hexDigit_digitChar _ (Nat.mod_lt _ (show 0 < 16 by decide)), Option.bind_eq_bind,
      Option.bind_some]
    exact congrArg some (by omega)
  rw [jsonEscape_eq h]
  simp only [List.cons_append, List.nil_append, readUnits, hvalue]
  cases readUnits rest <;> rfl

/-- The characters `cs` in a string stand for the code `n`. -/
def Spells (cs : List Char) (n : ℕ) : Prop :=
  ∃ us : List CodeUnit,
    (∀ rest, readUnits (cs ++ rest) = (readUnits rest).map (fun p => (us ++ p.1, p.2))) ∧
      ∀ vs, joinPairs (us ++ vs) = n :: joinPairs vs

/-- A code that begins no pair stands for itself. -/
theorem joinPairs_alone {u : CodeUnit} (h : u.1 = true → ¬ (55296 ≤ u.2 ∧ u.2 < 56320))
    (vs : List CodeUnit) : joinPairs (u :: vs) = u.2 :: joinPairs vs := by
  obtain ⟨escaped, n⟩ := u
  cases escaped with
  | false => simp [joinPairs]
  | true =>
    have hn : ¬ (55296 ≤ n ∧ n < 56320) := h rfl
    cases vs with
    | nil => simp [joinPairs]
    | cons v vs =>
      obtain ⟨escaped, m⟩ := v
      cases escaped with
      | false => simp [joinPairs]
      | true => rw [joinPairs, if_neg (fun hpair => hn hpair.1)]

theorem spells_escape {n : ℕ} (h : ¬ (55296 ≤ n ∧ n < 56320)) (hn : n < 65536) :
    Spells (jsonEscape n) n :=
  ⟨[(true, n)], fun rest => readUnits_jsonEscape hn rest, fun vs => joinPairs_alone (fun _ => h) vs⟩

/-- A character beyond the first plane is written as two surrogates. -/
theorem spells_pair {n : ℕ} (h : 65536 ≤ n) (hn : n < 1114112) :
    Spells (jsonEscape (55296 + (n - 65536) / 1024) ++
      jsonEscape (56320 + (n - 65536) % 1024)) n := by
  refine ⟨[(true, 55296 + (n - 65536) / 1024), (true, 56320 + (n - 65536) % 1024)],
    fun rest => ?_, fun vs => ?_⟩
  · rw [List.append_assoc, readUnits_jsonEscape (by omega), readUnits_jsonEscape (by omega)]
    cases readUnits rest <;> rfl
  · simp only [List.cons_append, List.nil_append, joinPairs]
    rw [if_pos (by omega)]
    exact congrArg (· :: joinPairs vs) (by omega)

theorem spells_backslash {c : Char} {n : ℕ} (hu : c ≠ 'u') (h : unescaped c = some n) :
    Spells ['\\', c] n := by
  refine ⟨[(false, n)], fun rest => ?_, fun vs => joinPairs_alone (by simp) vs⟩
  have hread : readUnits ('\\' :: c :: rest) =
      (do let n ← unescaped c; let p ← readUnits rest; pure ((false, n) :: p.1, p.2)) := by
    rw [readUnits]
    exact fun _ _ _ _ _ h => absurd h hu
  rw [List.cons_append, List.singleton_append, hread, h]
  cases readUnits rest <;> rfl

theorem spells_plain {c : Char} (hq : c ≠ '"') (hb : c ≠ '\\') (hc : 32 ≤ c.toNat) :
    Spells [c] c.toNat := by
  refine ⟨[(false, c.toNat)], fun rest => ?_, fun vs => joinPairs_alone (by simp) vs⟩
  rw [List.singleton_append, readUnits]
  · rw [if_neg (by omega)]
    cases readUnits rest <;> rfl
  · exact fun h => hq h
  · exact fun a b c d cs h _ => hb h
  · exact fun a b h _ => hb h

theorem not_surrogate (c : Char) : c.toNat < 55296 ∨ 57343 < c.toNat ∧ c.toNat < 1114112 :=
  c.valid

theorem jsonChar_eq (c : Char) : jsonChar c = match shortEscape c with
    | some d => ['\\', d]
    | none => if 32 ≤ c.toNat ∧ c.toNat < 127 then [c]
      else if c.toNat < 65536 then jsonEscape c.toNat
      else jsonEscape (55296 + (c.toNat - 65536) / 1024) ++
        jsonEscape (56320 + (c.toNat - 65536) % 1024) := by
  unfold jsonChar shortEscape
  split_ifs <;> rfl

theorem unescaped_shortEscape {c d : Char} (h : shortEscape c = some d) :
    d ≠ 'u' ∧ unescaped d = some c.toNat := by
  unfold shortEscape at h
  split_ifs at h with hq hn hr ht h8 h12
  · obtain rfl := Option.some.inj h
    rcases hq with rfl | rfl
    · decide
    · decide
  · obtain rfl := Option.some.inj h
    subst hn
    decide
  · obtain rfl := Option.some.inj h
    subst hr
    decide
  · obtain rfl := Option.some.inj h
    subst ht
    decide
  · obtain rfl := Option.some.inj h
    rw [h8]
    decide
  · obtain rfl := Option.some.inj h
    rw [h12]
    decide

/-- A character without a short escape is no quote and no backslash. -/
theorem ne_of_shortEscape {c : Char} (h : shortEscape c = none) : c ≠ '"' ∧ c ≠ '\\' := by
  unfold shortEscape at h
  split_ifs at h with hq
  exact not_or.mp hq

/-- Either style prints a character so that it is read back. -/
theorem spells_char (style : JsonStyle) (c : Char) : Spells (style.char c) c.toNat := by
  have hplain := not_surrogate c
  unfold JsonStyle.char
  rw [jsonChar_eq, jsonCharRaw]
  cases hs : shortEscape c with
  | some d =>
    obtain ⟨hu, hd⟩ := unescaped_shortEscape hs
    rw [ite_self]
    exact spells_backslash hu hd
  | none =>
    obtain ⟨hq, hb⟩ := ne_of_shortEscape hs
    dsimp only
    split_ifs with _ h₁ h₂ h₃
    · exact spells_plain hq hb h₁.1
    · exact spells_escape (by omega) h₂
    · exact spells_pair (by omega) (by omega)
    · exact spells_escape (by omega) (by omega)
    · exact spells_plain hq hb (by omega)

theorem readString_text (style : JsonStyle) (s : String) (rest : List Char) :
    ∃ cs, style.text s = '"' :: cs ∧ readString (cs ++ rest) = some (codes s, rest) := by
  refine ⟨_, rfl, ?_⟩
  have hread : ∀ l : List Char, ∃ us, readUnits (l.flatMap style.char ++ '"' :: rest) =
      some (us, rest) ∧ joinPairs us = l.map Char.toNat := by
    intro l
    induction l with
    | nil => exact ⟨[], rfl, rfl⟩
    | cons c l ih =>
      obtain ⟨us, hus, hjoin⟩ := ih
      obtain ⟨vs, hvs, hcode⟩ := spells_char style c
      refine ⟨vs ++ us, ?_, ?_⟩
      · rw [List.flatMap_cons, List.append_assoc, hvs, hus]
        rfl
      · rw [hcode, hjoin, List.map_cons]
  obtain ⟨us, hus, hjoin⟩ := hread s.toList
  rw [List.append_assoc, List.singleton_append, readString, hus]
  exact congrArg (fun l => some (l, rest)) hjoin

/-- What follows a number does not go on with it. -/
def Stops (rest : List Char) : Prop :=
  ∀ c, rest.head? = some c → isJsonDigit c = false ∧ c ≠ '.' ∧ c ≠ 'e' ∧ c ≠ 'E'

theorem Stops.nil : Stops [] := by
  intro c h
  cases h

theorem Stops.cons {c : Char} (h : isJsonDigit c = false ∧ c ≠ '.' ∧ c ≠ 'e' ∧ c ≠ 'E')
    (cs : List Char) : Stops (c :: cs) := by
  intro d hd
  obtain rfl := Option.some.inj hd
  exact h

theorem isJsonDigit_of_mem_natText {n : ℕ} {c : Char} (h : c ∈ natText n) : isJsonDigit c = true :=
  decide_eq_true (isDigit_of_mem_natText h)

/-- A number begins with a zero when it is zero only. -/
theorem natText_head {n : ℕ} (hn : 0 < n) : ∃ c cs, natText n = c :: cs ∧ c ≠ '0' := by
  induction n using Nat.strong_induction_on with
  | h n ih =>
    rw [natText, Nat.toDigits_eq_if (by decide)]
    split_ifs with hlt
    · have hdigit : ∀ d < 10, 0 < d → Nat.digitChar d ≠ '0' := by decide
      exact ⟨_, [], rfl, hdigit n hlt hn⟩
    · obtain ⟨c, cs, he, hc⟩ := ih (n / 10) (by omega) (by omega)
      rw [natText] at he
      exact ⟨c, cs ++ [Nat.digitChar (n % 10)], by rw [he, List.cons_append], hc⟩

theorem takeWhile_digits {ds rest : List Char} (hds : ∀ c ∈ ds, isJsonDigit c = true)
    (hrest : Stops rest) : (ds ++ rest).takeWhile isJsonDigit = ds ∧
      (ds ++ rest).dropWhile isJsonDigit = rest := by
  induction ds with
  | nil =>
    cases rest with
    | nil => exact ⟨rfl, rfl⟩
    | cons c rest =>
      have hc := (hrest c rfl).1
      simp [hc]
  | cons d ds ih =>
    have hd := hds d List.mem_cons_self
    obtain ⟨htake, hdrop⟩ := ih (fun c hc => hds c (List.mem_cons_of_mem _ hc))
    simp [hd, htake, hdrop]

theorem readDigits_natText (n : ℕ) {rest : List Char} (hrest : Stops rest) :
    readDigits (natText n ++ rest) = some (natText n, rest) := by
  rcases Nat.eq_zero_or_pos n with rfl | hn
  · rfl
  · obtain ⟨c, cs, he, hc⟩ := natText_head hn
    have hdigits : ∀ d ∈ c :: cs, isJsonDigit d = true := fun d hd =>
      isJsonDigit_of_mem_natText (he ▸ hd)
    obtain ⟨htake, hdrop⟩ :=
      takeWhile_digits (fun d hd => hdigits d (List.mem_cons_of_mem _ hd)) hrest
    rw [he, List.cons_append, readDigits, if_neg hc, if_pos (hdigits c List.mem_cons_self), htake,
      hdrop]

theorem readFraction_of_stops {rest : List Char} (hrest : Stops rest) :
    readFraction rest = ([], rest) := by
  cases rest with
  | nil => rfl
  | cons c cs =>
    rw [readFraction]
    rintro d ds h
    obtain ⟨rfl, -⟩ := List.cons.inj h
    exact (hrest _ rfl).2.1 rfl

theorem readExponent_of_stops {rest : List Char} (hrest : Stops rest) :
    readExponent rest = ([], rest) := by
  cases rest with
  | nil => rfl
  | cons c cs =>
    obtain ⟨-, -, he, hE⟩ := hrest c rfl
    unfold readExponent
    exact if_neg (not_or.mpr ⟨he, hE⟩)

/-- `int` converts a number of so many digits. -/
def Convertible (z : ℤ) : Prop := (natText z.natAbs).length ≤ maxStrDigits

instance (z : ℤ) : Decidable (Convertible z) := inferInstanceAs (Decidable (_ ≤ _))

theorem readUnsigned_natText {n : ℕ} (negative : Bool) (hn : (natText n).length ≤ maxStrDigits)
    {rest : List Char} (hrest : Stops rest) :
    readUnsigned negative (natText n ++ rest) =
      some (.int (if negative then -(n : ℤ) else n), rest) := by
  simp only [readUnsigned, readDigits_natText n hrest, readFraction_of_stops hrest,
    readExponent_of_stops hrest, natOfDigits_natText hn, Option.bind_eq_bind, Option.bind_some,
    and_self, if_true]
  rfl

/-- A number is none of the other atoms. -/
theorem readAtom_digit {c : Char} (h : isJsonDigit c = true) (cs : List Char) :
    readAtom (c :: cs) = readUnsigned false (c :: cs) := by
  have hne : ∀ d : Char, isJsonDigit d = false → c ≠ d := fun d hd he => by
    rw [he, hd] at h
    cases h
  rw [readAtom]
  all_goals exact fun _ he => absurd (List.cons.inj he).1 (hne _ (by decide))

theorem readAtom_intText {z : ℤ} (hz : Convertible z) {rest : List Char} (hrest : Stops rest) :
    readAtom (intText z ++ rest) = some (.int z, rest) := by
  have hne := natText_ne_nil z.natAbs
  obtain ⟨c, cs, he⟩ := List.exists_cons_of_ne_nil hne
  have hc : isJsonDigit c = true := isJsonDigit_of_mem_natText (he ▸ List.mem_cons_self)
  rw [intText]
  split_ifs with hneg
  · have hminus : readAtom ('-' :: (natText z.natAbs ++ rest)) =
        readUnsigned true (natText z.natAbs ++ rest) := by
      rw [he, List.cons_append, readAtom]
      rintro ds h
      obtain ⟨rfl, -⟩ := List.cons.inj h
      cases hc
    rw [List.cons_append, hminus, readUnsigned_natText true hz hrest]
    have hval : -(z.natAbs : ℤ) = z := by omega
    rw [if_pos rfl, hval]
  · have hplus : readAtom (natText z.natAbs ++ rest) =
        readUnsigned false (natText z.natAbs ++ rest) := by
      rw [he, List.cons_append, readAtom_digit hc]
    rw [hplus, readUnsigned_natText false hz hrest]
    have hval : (z.natAbs : ℤ) = z := by omega
    rw [if_neg Bool.false_ne_true, hval]

mutual

def Dumped.toJson : Dumped → Json
  | .null => .null
  | .bool b => .bool b
  | .int z => .int z
  | .str s => .str (codes s)
  | .list items => .arr (itemsToJson items)
  | .dict items => .obj (membersToJson items)
termination_by structural v => v

def itemsToJson : List Dumped → List Json
  | [] => []
  | v :: vs => v.toJson :: itemsToJson vs
termination_by structural vs => vs

def membersToJson : List (String × Dumped) → List (PyStr × Json)
  | [] => []
  | (k, v) :: items => (codes k, v.toJson) :: membersToJson items
termination_by structural items => items

end

mutual

/-- The value can be converted back, and its dictionaries have no key twice. -/
def Dumped.Fits : Dumped → Prop
  | .int z => Convertible z
  | .list items => ItemsFit items
  | .dict items => (items.map Prod.fst).Nodup ∧ MembersFit items
  | _ => True
termination_by structural v => v

def ItemsFit : List Dumped → Prop
  | [] => True
  | v :: vs => v.Fits ∧ ItemsFit vs
termination_by structural vs => vs

def MembersFit : List (String × Dumped) → Prop
  | [] => True
  | (_, v) :: items => v.Fits ∧ MembersFit items
termination_by structural items => items

end

mutual

/-- How often the reader has to go down for the value. -/
def Dumped.size : Dumped → ℕ
  | .list items => 2 + itemsSize items
  | .dict items => 2 + membersSize items
  | _ => 1
termination_by structural v => v

def itemsSize : List Dumped → ℕ
  | [] => 0
  | v :: vs => 1 + v.size + itemsSize vs
termination_by structural vs => vs

def membersSize : List (String × Dumped) → ℕ
  | [] => 0
  | (_, v) :: items => 1 + v.size + membersSize items
termination_by structural items => items

end

def Spacing (b : List Char) : Prop := ∀ c ∈ b, isJsonSpace c = true

theorem skipSpace_spacing {b : List Char} (hb : Spacing b) (rest : List Char) :
    skipSpace (b ++ rest) = skipSpace rest := by
  induction b with
  | nil => rfl
  | cons c b ih =>
    rw [List.cons_append, skipSpace, List.dropWhile_cons_of_pos (hb c List.mem_cons_self)]
    exact ih (fun d hd => hb d (List.mem_cons_of_mem _ hd))

theorem skipSpace_cons {c : Char} (hc : isJsonSpace c = false) (cs : List Char) :
    skipSpace (c :: cs) = c :: cs := List.dropWhile_cons_of_neg (by simp [hc])

theorem newline_spacing (style : JsonStyle) (level : ℕ) : Spacing (style.newline level) := by
  unfold JsonStyle.newline
  intro c hc
  split at hc
  · cases hc
  · rcases List.mem_cons.mp hc with rfl | hc
    · rfl
    · rw [List.eq_of_mem_replicate hc]
      rfl

theorem separator_eq (style : JsonStyle) (level : ℕ) :
    ∃ b, style.separator level = ',' :: b ∧ Spacing b := by
  unfold JsonStyle.separator
  split
  · refine ⟨_, rfl, fun c hc => ?_⟩
    rw [List.mem_singleton.mp hc]
    rfl
  · exact ⟨_, rfl, newline_spacing style level⟩

/-- A number ends where a blank and a character that is no part of it begin. -/
theorem stops_spacing {b : List Char} (hb : Spacing b) {rest : List Char} (hrest : Stops rest) :
    Stops (b ++ rest) := by
  cases b with
  | nil => exact hrest
  | cons c b =>
    have hspace := hb c List.mem_cons_self
    apply Stops.cons
    refine ⟨?_, ?_, ?_, ?_⟩
    · simp only [isJsonSpace, decide_eq_true_eq] at hspace
      rcases hspace with rfl | rfl | rfl | rfl <;> rfl
    all_goals
      rintro rfl
      cases hspace

/-- How a printed value begins. -/
theorem dumpsAt_head (style : JsonStyle) (level : ℕ) (v : Dumped) :
    ∃ c cs, dumpsAt style level v = c :: cs ∧ isJsonSpace c = false ∧ c ≠ ']' ∧
      c ≠ '\ufeff' := by
  cases v with
  | null => exact ⟨_, _, rfl, rfl, by decide, by decide⟩
  | bool b => cases b <;> exact ⟨_, _, rfl, rfl, by decide, by decide⟩
  | int z =>
    obtain ⟨c, cs, he⟩ := List.exists_cons_of_ne_nil (intText_ne_nil z)
    have hc : c = '-' ∨ 48 ≤ c.toNat ∧ c.toNat ≤ 57 := mem_intText (he ▸ List.mem_cons_self)
    refine ⟨c, cs, he, ?_, ?_, ?_⟩
    · unfold isJsonSpace
      apply decide_eq_false
      rintro (rfl | rfl | rfl | rfl) <;> exact absurd hc (by decide)
    all_goals
      rintro rfl
      exact absurd hc (by decide)
  | str s => exact ⟨_, _, rfl, rfl, by decide, by decide⟩
  | list items => cases items <;> exact ⟨_, _, rfl, rfl, by decide, by decide⟩
  | dict items =>
    cases items with
    | nil => exact ⟨_, _, rfl, rfl, by decide, by decide⟩
    | cons item items => exact ⟨_, _, rfl, rfl, by decide, by decide⟩

theorem skipSpace_dumpsAt {b : List Char} (hb : Spacing b) (style : JsonStyle) (level : ℕ)
    (v : Dumped) (rest : List Char) : skipSpace (b ++ (dumpsAt style level v ++ rest)) =
      dumpsAt style level v ++ rest := by
  obtain ⟨c, cs, he, hc, -, -⟩ := dumpsAt_head style level v
  rw [skipSpace_spacing hb, he, List.cons_append, skipSpace_cons hc]

theorem skipSpace_text {b : List Char} (hb : Spacing b) (style : JsonStyle) (s : String)
    (rest : List Char) : skipSpace (b ++ (style.text s ++ rest)) = style.text s ++ rest := by
  rw [skipSpace_spacing hb]
  exact skipSpace_cons rfl _

theorem dictOf_nodup {items : List (PyStr × Json)} (h : (items.map Prod.fst).Nodup) :
    dictOf items = items := by
  have hfold : ∀ d : List (PyStr × Json), ((d ++ items).map Prod.fst).Nodup →
      items.foldl (fun d item => if d.any (fun x => x.1 = item.1) then
        d.map (fun x => if x.1 = item.1 then item else x) else d ++ [item]) d = d ++ items := by
    induction items with
    | nil => simp
    | cons item items ih =>
      intro d hd
      have hnew : d.any (fun x => x.1 = item.1) = false := by
        rw [List.any_eq_false]
        intro x hx
        have hne : x.1 ≠ item.1 := by
          rw [List.map_append, List.nodup_append] at hd
          exact hd.2.2 _ (List.mem_map_of_mem hx) _ (by simp)
        simpa using hne
      have hd' : ((d ++ [item] ++ items).map Prod.fst).Nodup := by
        rwa [List.append_assoc, List.singleton_append]
      have hitems : (items.map Prod.fst).Nodup := (List.nodup_cons.mp h).2
      rw [List.foldl_cons, hnew, if_neg Bool.false_ne_true, ih hitems _ hd', List.append_assoc,
        List.singleton_append]
  exact hfold [] h

theorem map_fst_membersToJson (items : List (String × Dumped)) :
    (membersToJson items).map Prod.fst = (items.map Prod.fst).map codes := by
  induction items with
  | nil => rfl
  | cons item items ih => rw [membersToJson, List.map_cons, ih]; rfl

/-- The inside of an array whose first item is `v`, from that item on. -/
def itemsText (style : JsonStyle) (level : ℕ) (v : Dumped) (vs : List Dumped) (rest : List Char) :
    List Char := dumpsAt style level v ++ (dumpsItems style level vs ++ rest)

def membersText (style : JsonStyle) (level : ℕ) (k : String) (v : Dumped)
    (items : List (String × Dumped)) (rest : List Char) : List Char :=
  style.text k ++ (':' :: ' ' :: (dumpsAt style level v ++
    (dumpsMembers style level items ++ rest)))

theorem dumpsAt_list_append (style : JsonStyle) (level : ℕ) (v : Dumped) (vs : List Dumped)
    (rest : List Char) : dumpsAt style level (.list (v :: vs)) ++ rest =
      '[' :: (style.newline (level + 1) ++ itemsText style (level + 1) v vs
        (style.newline level ++ ']' :: rest)) := by
  simp only [dumpsAt, itemsText, List.cons_append, List.append_assoc, List.nil_append]

theorem dumpsAt_dict_append (style : JsonStyle) (level : ℕ) (k : String) (v : Dumped)
    (items : List (String × Dumped)) (rest : List Char) :
    dumpsAt style level (.dict ((k, v) :: items)) ++ rest =
      '{' :: (style.newline (level + 1) ++ membersText style (level + 1) k v items
        (style.newline level ++ '}' :: rest)) := by
  simp only [dumpsAt, membersText, List.cons_append, List.append_assoc, List.nil_append]

/-- With fuel `n` the reader finds again what was printed of that size. -/
structure ReadsBack (style : JsonStyle) (n : ℕ) : Prop where
  value : ∀ (v : Dumped) (level : ℕ) (rest : List Char), v.Fits → v.size ≤ n → Stops rest →
    readValue n (dumpsAt style level v ++ rest) = some (v.toJson, rest)
  items : ∀ (v : Dumped) (vs : List Dumped) (level : ℕ) (b rest : List Char),
    ItemsFit (v :: vs) → itemsSize (v :: vs) ≤ n → Spacing b →
      readItems n (itemsText style level v vs (b ++ ']' :: rest)) =
        some (itemsToJson (v :: vs), rest)
  members : ∀ (k : String) (v : Dumped) (items : List (String × Dumped)) (level : ℕ)
    (b rest : List Char), MembersFit ((k, v) :: items) → membersSize ((k, v) :: items) ≤ n →
      Spacing b → readMembers n (membersText style level k v items (b ++ '}' :: rest)) =
        some (membersToJson ((k, v) :: items), rest)
  list : ∀ (v : Dumped) (vs : List Dumped) (level : ℕ) (b rest : List Char),
    ItemsFit (v :: vs) → 1 + itemsSize (v :: vs) ≤ n → Spacing b →
      readList n (itemsText style level v vs (b ++ ']' :: rest)) =
        some (.arr (itemsToJson (v :: vs)), rest)
  dict : ∀ (k : String) (v : Dumped) (items : List (String × Dumped)) (level : ℕ)
    (b rest : List Char), (((k, v) :: items).map Prod.fst).Nodup → MembersFit ((k, v) :: items) →
      1 + membersSize ((k, v) :: items) ≤ n → Spacing b →
        readDict n (membersText style level k v items (b ++ '}' :: rest)) =
          some (.obj (membersToJson ((k, v) :: items)), rest)

theorem stops_close {c : Char} (hc : c = ']' ∨ c = '}' ∨ c = ',') (rest : List Char) :
    Stops (c :: rest) := by
  apply Stops.cons
  rcases hc with rfl | rfl | rfl <;> decide

theorem stops_items (style : JsonStyle) (level : ℕ) (vs : List Dumped) {b : List Char}
    (hb : Spacing b) (rest : List Char) :
    Stops (dumpsItems style level vs ++ (b ++ ']' :: rest)) := by
  cases vs with
  | nil => exact stops_spacing hb (stops_close (by simp) rest)
  | cons v vs =>
    obtain ⟨b', he, -⟩ := separator_eq style level
    rw [dumpsItems, he]
    exact stops_close (by simp) _

theorem stops_members (style : JsonStyle) (level : ℕ) (items : List (String × Dumped))
    {b : List Char} (hb : Spacing b) (rest : List Char) :
    Stops (dumpsMembers style level items ++ (b ++ '}' :: rest)) := by
  cases items with
  | nil => exact stops_spacing hb (stops_close (by simp) rest)
  | cons item items =>
    obtain ⟨b', he, -⟩ := separator_eq style level
    rw [dumpsMembers, he]
    exact stops_close (by simp) _

theorem readKey_text (style : JsonStyle) (k : String) (level : ℕ) (v : Dumped) (rest : List Char) :
    readKey (style.text k ++ (':' :: ' ' :: (dumpsAt style level v ++ rest))) =
      some (codes k, dumpsAt style level v ++ rest) := by
  obtain ⟨cs, he, hread⟩ := readString_text style k (':' :: ' ' :: (dumpsAt style level v ++ rest))
  have hspace : Spacing [' '] := by
    intro c hc
    rw [List.mem_singleton.mp hc]
    rfl
  have hskip : skipSpace (' ' :: (dumpsAt style level v ++ rest)) = dumpsAt style level v ++ rest :=
    skipSpace_dumpsAt hspace style level v rest
  rw [he, List.cons_append]
  simp only [readKey, hread, Option.bind_eq_bind, Option.bind_some, skipSpace_cons (c := ':') rfl,
    hskip]
  rfl

variable {style : JsonStyle} {n : ℕ}

theorem readItems_last {cs rest rest' : List Char} {v : Json} (hv : readValue n cs = some (v, rest))
    (hend : skipSpace rest = ']' :: rest') : readItems (n + 1) cs = some ([v], rest') := by
  simp [readItems, hv, hend]

theorem readItems_comma {cs rest rest' rest'' : List Char} {v : Json} {vs : List Json}
    (hv : readValue n cs = some (v, rest)) (hcomma : skipSpace rest = ',' :: rest')
    (hvs : readItems n (skipSpace rest') = some (vs, rest'')) :
    readItems (n + 1) cs = some (v :: vs, rest'') := by
  simp [readItems, hv, hcomma, hvs]

theorem readMembers_last {cs rest rest' rest'' : List Char} {k : PyStr} {v : Json}
    (hk : readKey cs = some (k, rest)) (hv : readValue n rest = some (v, rest'))
    (hend : skipSpace rest' = '}' :: rest'') :
    readMembers (n + 1) cs = some ([(k, v)], rest'') := by
  simp [readMembers, hk, hv, hend]

theorem readMembers_comma {cs rest r r' r'' : List Char} {k : PyStr} {v : Json}
    {items : List (PyStr × Json)} (hk : readKey cs = some (k, rest))
    (hv : readValue n rest = some (v, r)) (hcomma : skipSpace r = ',' :: r')
    (hitems : readMembers n (skipSpace r') = some (items, r'')) :
    readMembers (n + 1) cs = some ((k, v) :: items, r'') := by
  simp [readMembers, hk, hv, hcomma, hitems]

theorem ReadsBack.succ_items (ih : ReadsBack style n) (v : Dumped) (vs : List Dumped) (level : ℕ)
    (b rest : List Char) (hfit : ItemsFit (v :: vs)) (hsize : itemsSize (v :: vs) ≤ n + 1)
    (hb : Spacing b) : readItems (n + 1) (itemsText style level v vs (b ++ ']' :: rest)) =
      some (itemsToJson (v :: vs), rest) := by
  rw [itemsSize] at hsize
  have hv := ih.value v level _ hfit.1 (by omega) (stops_items style level vs hb rest)
  cases vs with
  | nil =>
    have hend : skipSpace (dumpsItems style level [] ++ (b ++ ']' :: rest)) = ']' :: rest := by
      rw [dumpsItems, List.nil_append, skipSpace_spacing hb, skipSpace_cons rfl]
    exact readItems_last hv hend
  | cons v' vs =>
    obtain ⟨b', he, hb'⟩ := separator_eq style level
    have hcomma : skipSpace (dumpsItems style level (v' :: vs) ++ (b ++ ']' :: rest)) =
        ',' :: (b' ++ itemsText style level v' vs (b ++ ']' :: rest)) := by
      rw [dumpsItems, he, List.cons_append, List.cons_append, skipSpace_cons rfl, List.append_assoc,
        List.append_assoc, itemsText]
    have hskip : skipSpace (b' ++ itemsText style level v' vs (b ++ ']' :: rest)) =
        itemsText style level v' vs (b ++ ']' :: rest) := skipSpace_dumpsAt hb' style level v' _
    have hvs := ih.items v' vs level b rest hfit.2 (by omega) hb
    rw [← hskip] at hvs
    exact readItems_comma hv hcomma hvs

theorem ReadsBack.succ_members (ih : ReadsBack style n) (k : String) (v : Dumped)
    (items : List (String × Dumped)) (level : ℕ) (b rest : List Char)
    (hfit : MembersFit ((k, v) :: items)) (hsize : membersSize ((k, v) :: items) ≤ n + 1)
    (hb : Spacing b) : readMembers (n + 1) (membersText style level k v items (b ++ '}' :: rest)) =
      some (membersToJson ((k, v) :: items), rest) := by
  rw [membersSize] at hsize
  have hk := readKey_text style k level v (dumpsMembers style level items ++ (b ++ '}' :: rest))
  have hv := ih.value v level _ hfit.1 (by omega) (stops_members style level items hb rest)
  cases items with
  | nil =>
    have hend : skipSpace (dumpsMembers style level [] ++ (b ++ '}' :: rest)) = '}' :: rest := by
      rw [dumpsMembers, List.nil_append, skipSpace_spacing hb, skipSpace_cons rfl]
    exact readMembers_last hk hv hend
  | cons item items =>
    obtain ⟨k', v'⟩ := item
    obtain ⟨b', he, hb'⟩ := separator_eq style level
    have hcomma : skipSpace (dumpsMembers style level ((k', v') :: items) ++ (b ++ '}' :: rest)) =
        ',' :: (b' ++ membersText style level k' v' items (b ++ '}' :: rest)) := by
      rw [dumpsMembers, he, membersText]
      simp only [List.cons_append, List.append_assoc]
      exact skipSpace_cons rfl _
    have hskip : skipSpace (b' ++ membersText style level k' v' items (b ++ '}' :: rest)) =
        membersText style level k' v' items (b ++ '}' :: rest) := skipSpace_text hb' style k' _
    have hitems := ih.members k' v' items level b rest hfit.2 (by omega) hb
    rw [← hskip] at hitems
    exact readMembers_comma hk hv hcomma hitems

theorem ReadsBack.succ_list (ih : ReadsBack style n) (v : Dumped) (vs : List Dumped) (level : ℕ)
    (b rest : List Char) (hfit : ItemsFit (v :: vs)) (hsize : 1 + itemsSize (v :: vs) ≤ n + 1)
    (hb : Spacing b) : readList (n + 1) (itemsText style level v vs (b ++ ']' :: rest)) =
      some (.arr (itemsToJson (v :: vs)), rest) := by
  have hitems := ih.items v vs level b rest hfit (by omega) hb
  have hhead : (itemsText style level v vs (b ++ ']' :: rest)).head? ≠ some ']' := by
    obtain ⟨c, cs, he, -, hc, -⟩ := dumpsAt_head style level v
    rw [itemsText, he]
    exact fun h => hc (Option.some.inj h)
  rw [readList, if_neg hhead, hitems, Option.map_some]

theorem ReadsBack.succ_dict (ih : ReadsBack style n) (k : String) (v : Dumped)
    (items : List (String × Dumped)) (level : ℕ) (b rest : List Char)
    (hkeys : (((k, v) :: items).map Prod.fst).Nodup) (hfit : MembersFit ((k, v) :: items))
    (hsize : 1 + membersSize ((k, v) :: items) ≤ n + 1) (hb : Spacing b) :
    readDict (n + 1) (membersText style level k v items (b ++ '}' :: rest)) =
      some (.obj (membersToJson ((k, v) :: items)), rest) := by
  have hmembers := ih.members k v items level b rest hfit (by omega) hb
  have hhead : (membersText style level k v items (b ++ '}' :: rest)).head? ≠ some '}' := by
    intro h
    have hquote := Option.some.inj h
    revert hquote
    decide
  have hnodup : ((membersToJson ((k, v) :: items)).map Prod.fst).Nodup := by
    rw [map_fst_membersToJson]
    exact hkeys.map codes_injective
  rw [readDict, if_neg hhead, hmembers, Option.map_some, dictOf_nodup hnodup]

theorem intText_start (z : ℤ) : ∃ c cs, intText z = c :: cs ∧ c ≠ '"' ∧ c ≠ '[' ∧ c ≠ '{' := by
  obtain ⟨c, cs, he⟩ := List.exists_cons_of_ne_nil (intText_ne_nil z)
  have hc : c = '-' ∨ 48 ≤ c.toNat ∧ c.toNat ≤ 57 := mem_intText (he ▸ List.mem_cons_self)
  have hne (d : Char) (hd : ¬ (d = '-' ∨ 48 ≤ d.toNat ∧ d.toNat ≤ 57)) : c ≠ d :=
    fun h => hd (h ▸ hc)
  exact ⟨c, cs, he, hne _ (by decide), hne _ (by decide), hne _ (by decide)⟩

theorem ReadsBack.succ_value (ih : ReadsBack style n) (v : Dumped) (level : ℕ) (rest : List Char)
    (hfit : v.Fits) (hsize : v.size ≤ n + 1) (hrest : Stops rest) :
    readValue (n + 1) (dumpsAt style level v ++ rest) = some (v.toJson, rest) := by
  cases v with
  | null => simp [dumpsAt, readValue, readAtom, readWord, Dumped.toJson]
  | bool b => cases b <;> simp [dumpsAt, readValue, readAtom, readWord, Dumped.toJson]
  | int z =>
    obtain ⟨c, cs, he, hq, hb, hc⟩ := intText_start z
    have hread := readAtom_intText hfit hrest
    rw [dumpsAt]
    rw [he, List.cons_append] at hread ⊢
    rw [readValue, if_neg hq, if_neg hb, if_neg hc, hread]
    rfl
  | str s =>
    obtain ⟨cs, he, hread⟩ := readString_text style s rest
    rw [dumpsAt, he, List.cons_append, readValue, if_pos rfl, hread]
    rfl
  | list items =>
    rw [Dumped.size] at hsize
    cases items with
    | nil =>
      obtain ⟨m, rfl⟩ : ∃ m, n = m + 1 := ⟨n - 1, by omega⟩
      rfl
    | cons v vs =>
      have hlist := ih.list v vs (level + 1) (style.newline level) rest hfit (by omega)
        (newline_spacing style level)
      have hskip := skipSpace_dumpsAt (newline_spacing style (level + 1)) style (level + 1) v
        (dumpsItems style (level + 1) vs ++ (style.newline level ++ ']' :: rest))
      rw [itemsText] at hlist
      rw [dumpsAt_list_append, readValue, if_neg (by decide), if_pos rfl, itemsText, hskip, hlist]
      rfl
  | dict items =>
    rw [Dumped.size] at hsize
    cases items with
    | nil =>
      obtain ⟨m, rfl⟩ : ∃ m, n = m + 1 := ⟨n - 1, by omega⟩
      rfl
    | cons item items =>
      obtain ⟨k, v⟩ := item
      have hdict := ih.dict k v items (level + 1) (style.newline level) rest hfit.1 hfit.2
        (by omega) (newline_spacing style level)
      have hskip := skipSpace_text (newline_spacing style (level + 1)) style k
        (':' :: ' ' :: (dumpsAt style (level + 1) v ++
          (dumpsMembers style (level + 1) items ++ (style.newline level ++ '}' :: rest))))
      rw [membersText] at hdict
      rw [dumpsAt_dict_append, readValue, if_neg (by decide), if_neg (by decide), if_pos rfl,
        membersText, hskip, hdict]
      rfl

theorem readsBack (style : JsonStyle) (n : ℕ) : ReadsBack style n := by
  induction n with
  | zero =>
    constructor
    · intro v level rest _ hsize
      cases v <;> simp [Dumped.size] at hsize
    · intro v vs level b rest _ hsize
      simp [itemsSize] at hsize
    · intro k v items level b rest _ hsize
      simp [membersSize] at hsize
    · intro v vs level b rest _ hsize
      simp at hsize
    · intro k v items level b rest _ _ hsize
      simp at hsize
  | succ n ih =>
    exact ⟨ih.succ_value, ih.succ_items, ih.succ_members, ih.succ_list, ih.succ_dict⟩

mutual

theorem dumpsAt_length (style : JsonStyle) (level : ℕ) : (v : Dumped) →
    v.size ≤ 3 * (dumpsAt style level v).length
  | .null => by simp [Dumped.size, dumpsAt]
  | .bool b => by cases b <;> simp [Dumped.size, dumpsAt]
  | .int z => by
    have hpos := List.length_pos_of_ne_nil (intText_ne_nil z)
    simp only [Dumped.size, dumpsAt]
    omega
  | .str s => by
    simp only [Dumped.size, dumpsAt, JsonStyle.text, List.length_cons]
    omega
  | .list [] => by simp [Dumped.size, itemsSize, dumpsAt]
  | .list (v :: vs) => by
    have hv := dumpsAt_length style (level + 1) v
    have hvs := dumpsItems_length style (level + 1) vs
    simp only [Dumped.size, itemsSize, dumpsAt, List.length_cons, List.length_append,
      List.length_nil]
    omega
  | .dict [] => by simp [Dumped.size, membersSize, dumpsAt]
  | .dict ((k, v) :: items) => by
    have hv := dumpsAt_length style (level + 1) v
    have hitems := dumpsMembers_length style (level + 1) items
    simp only [Dumped.size, membersSize, dumpsAt, List.length_cons, List.length_append,
      List.length_nil]
    omega
termination_by structural v => v

theorem dumpsItems_length (style : JsonStyle) (level : ℕ) : (vs : List Dumped) →
    itemsSize vs ≤ 3 * (dumpsItems style level vs).length
  | [] => by simp [itemsSize]
  | v :: vs => by
    have hv := dumpsAt_length style level v
    have hvs := dumpsItems_length style level vs
    obtain ⟨b, he, -⟩ := separator_eq style level
    simp only [itemsSize, dumpsItems, he, List.length_cons, List.length_append]
    omega
termination_by structural vs => vs

theorem dumpsMembers_length (style : JsonStyle) (level : ℕ) : (items : List (String × Dumped)) →
    membersSize items ≤ 3 * (dumpsMembers style level items).length
  | [] => by simp [membersSize]
  | (k, v) :: items => by
    have hv := dumpsAt_length style level v
    have hitems := dumpsMembers_length style level items
    obtain ⟨b, he, -⟩ := separator_eq style level
    simp only [membersSize, dumpsMembers, he, List.length_cons, List.length_append]
    omega
termination_by structural items => items

end

/-- What was printed is read back, whatever the style and however it is indented. -/
theorem json_loads_dumps (style : JsonStyle) (v : Dumped) (hfit : v.Fits) {b : List Char}
    (hb : Spacing b) : json_loads (String.ofList (dumpsAt style 0 v ++ b)) = .ok v.toJson := by
  have hsize := dumpsAt_length style 0 v
  have hfuel : v.size ≤ 3 * (dumpsAt style 0 v ++ b).length + 1 := by
    rw [List.length_append]
    omega
  have hstops : Stops b := by
    have h := stops_spacing hb Stops.nil
    rwa [List.append_nil] at h
  have hread := (readsBack style _).value v 0 b hfit hfuel hstops
  have hskip := skipSpace_dumpsAt (b := []) (by simp [Spacing]) style 0 v b
  have hend : skipSpace b = [] := by
    have h := skipSpace_spacing hb []
    rwa [List.append_nil] at h
  have hbom : ∀ cs, dumpsAt style 0 v ++ b ≠ '\ufeff' :: cs := by
    obtain ⟨c, cs, he, -, -, hc⟩ := dumpsAt_head style 0 v
    rw [he]
    exact fun ds h => hc (List.cons.inj h).1
  rw [List.nil_append] at hskip
  unfold json_loads
  rw [String.toList_ofList]
  split
  · exact absurd ‹_› (hbom _)
  · rw [hskip, hread]
    exact if_pos hend

/-- No control character. -/
def Printable (cs : List Char) : Prop := ∀ c ∈ cs, 32 ≤ c.toNat

theorem printable_append {cs ds : List Char} :
    Printable (cs ++ ds) ↔ Printable cs ∧ Printable ds := List.forall_mem_append

theorem printable_cons {c : Char} {cs : List Char} :
    Printable (c :: cs) ↔ 32 ≤ c.toNat ∧ Printable cs := List.forall_mem_cons

theorem printable_jsonEscape {n : ℕ} (h : n < 65536) : Printable (jsonEscape n) := by
  have hdigit : ∀ d < 16, 32 ≤ (Nat.digitChar d).toNat := by decide
  rw [jsonEscape_eq h]
  simp only [printable_cons]
  refine ⟨by decide, by decide, hdigit _ (by omega), hdigit _ (Nat.mod_lt _ (by decide)),
    hdigit _ (Nat.mod_lt _ (by decide)), hdigit _ (Nat.mod_lt _ (by decide)), ?_⟩
  simp [Printable]

theorem printable_shortEscape {c d : Char} (h : shortEscape c = some d) : 32 ≤ d.toNat := by
  unfold shortEscape at h
  split_ifs at h with hq
  · obtain rfl := Option.some.inj h
    rcases hq with rfl | rfl <;> decide
  all_goals
    obtain rfl := Option.some.inj h
    decide

theorem printable_char (style : JsonStyle) (c : Char) : Printable (style.char c) := by
  have hplain := not_surrogate c
  unfold JsonStyle.char
  rw [jsonChar_eq, jsonCharRaw]
  cases hs : shortEscape c with
  | some d =>
    have hd := printable_shortEscape hs
    rw [ite_self]
    simpa [Printable] using hd
  | none =>
    dsimp only
    split_ifs with _ h₁ h₂ h₃
    · simpa [Printable] using h₁.1
    · exact printable_jsonEscape h₂
    · exact printable_append.mpr ⟨printable_jsonEscape (by omega), printable_jsonEscape (by omega)⟩
    · exact printable_jsonEscape (by omega)
    · simpa [Printable] using h₃

theorem printable_text (style : JsonStyle) (s : String) : Printable (style.text s) := by
  intro c hc
  rw [JsonStyle.text, List.mem_cons, List.mem_append, List.mem_singleton, List.mem_flatMap] at hc
  rcases hc with rfl | ⟨d, -, hd⟩ | rfl
  · decide
  · exact printable_char style d c hd
  · decide

theorem printable_intText (z : ℤ) : Printable (intText z) := by
  intro c hc
  rcases mem_intText hc with rfl | hc
  · decide
  · omega

section

variable {style : JsonStyle} (hstyle : style.indent = none)

include hstyle

theorem printable_newline (level : ℕ) : Printable (style.newline level) := by
  simp [JsonStyle.newline, hstyle, Printable]

theorem printable_separator (level : ℕ) : Printable (style.separator level) := by
  simp [JsonStyle.separator, hstyle, Printable]

mutual

theorem printable_dumpsAt (level : ℕ) : (v : Dumped) → Printable (dumpsAt style level v)
  | .null => by simp [dumpsAt, Printable]
  | .bool b => by cases b <;> simp [dumpsAt, Printable]
  | .int z => by
    rw [dumpsAt]
    exact printable_intText z
  | .str s => printable_text style s
  | .list [] => by simp [dumpsAt, Printable]
  | .list (v :: vs) => by
    have hv := printable_dumpsAt (level + 1) v
    have hvs := printable_dumpsItems (level + 1) vs
    simp only [dumpsAt, printable_cons, printable_append]
    exact ⟨by decide, printable_newline hstyle _, hv, hvs, printable_newline hstyle _, by decide,
      by simp [Printable]⟩
  | .dict [] => by simp [dumpsAt, Printable]
  | .dict ((k, v) :: items) => by
    have hk := printable_text style k
    have hv := printable_dumpsAt (level + 1) v
    have hitems := printable_dumpsMembers (level + 1) items
    simp only [dumpsAt, printable_cons, printable_append]
    exact ⟨by decide, printable_newline hstyle _, hk, by decide, by decide, hv, hitems,
      printable_newline hstyle _, by decide, by simp [Printable]⟩
termination_by structural v => v

theorem printable_dumpsItems (level : ℕ) : (vs : List Dumped) →
    Printable (dumpsItems style level vs)
  | [] => by simp [dumpsItems, Printable]
  | v :: vs => by
    have hv := printable_dumpsAt level v
    have hvs := printable_dumpsItems level vs
    simp only [dumpsItems, printable_append]
    exact ⟨printable_separator hstyle _, hv, hvs⟩
termination_by structural vs => vs

theorem printable_dumpsMembers (level : ℕ) : (items : List (String × Dumped)) →
    Printable (dumpsMembers style level items)
  | [] => by simp [dumpsMembers, Printable]
  | (k, v) :: items => by
    have hk := printable_text style k
    have hv := printable_dumpsAt level v
    have hitems := printable_dumpsMembers level items
    simp only [dumpsMembers, printable_cons, printable_append]
    exact ⟨printable_separator hstyle _, hk, by decide, by decide, hv, hitems⟩
termination_by structural items => items

end

/-- No newline stands in what is printed without indentation. -/
theorem newline_notMem_dumpsAt (level : ℕ) (v : Dumped) : '\n' ∉ dumpsAt style level v := by
  intro h
  exact absurd (printable_dumpsAt hstyle level v '\n' h) (by decide)

end

end MbKeeper
