import MbKeeper.Ssh

/-!
# The grammar of the listing

A line of the listing is a status word, an id and a number of seconds, with
single spaces between them. `lineRecord` reads such a line and no other.
`parse_list_output` looks at the number of fields alone, so that on other text
it raises or returns generations that are none.
-/
namespace MbKeeper

def isDecimalDigit (c : Char) : Bool := 48 ≤ c.toNat ∧ c.toNat ≤ 57

/-- The digits of a number of seconds, after its sign. -/
def secondsDigits : List Char → List Char
  | '-' :: cs => cs
  | cs => cs

/-- Decimal seconds: digits, with a minus sign before them for times before the epoch. -/
def Decimal (cs : List Char) : Prop :=
  secondsDigits cs ≠ [] ∧ ∀ c ∈ secondsDigits cs, isDecimalDigit c = true

instance (cs : List Char) : Decidable (Decimal cs) :=
  inferInstanceAs (Decidable (_ ∧ ∀ c ∈ secondsDigits cs, _))

def decimalValue : List Char → ℤ
  | '-' :: cs => -(Nat.ofDigitChars 10 cs 0 : ℤ)
  | cs => Nat.ofDigitChars 10 cs 0

/-- The record of a line of the form `(COMPLETE|PARTIAL) <id> <seconds>`. -/
def lineRecord (line : List Char) : Option StoredBackup :=
  match line.splitOn ' ' with
  | [status, backup_id, mtime] =>
    if (status = "COMPLETE".toList ∨ status = "PARTIAL".toList) ∧ backup_id ≠ [] ∧
        Decimal mtime then
      some ⟨String.ofList backup_id, status = "COMPLETE".toList,
        Datetime.utc (decimalValue mtime * 1000000)⟩
    else none
  | _ => none

/-- Three fields with single spaces between them. -/
def ThreeFields (line : List Char) : Prop := (line.splitOn ' ').length = 3

instance (line : List Char) : Decidable (ThreeFields line) := inferInstanceAs (Decidable (_ = _))

/-- The seconds of the line are ones that `int` converts and `datetime` holds. -/
def InRange (line : List Char) : Prop :=
  ∀ status backup_id mtime, line.splitOn ' ' = [status, backup_id, mtime] →
    (secondsDigits mtime).length ≤ maxStrDigits ∧ Representable (decimalValue mtime * 1000000)

theorem unsigned {cs : List Char} (h : ∀ ds, cs ≠ '-' :: ds) :
    secondsDigits cs = cs ∧ decimalValue cs = Nat.ofDigitChars 10 cs 0 := by
  unfold secondsDigits decimalValue
  split
  · next ds => exact absurd rfl (h ds)
  · exact ⟨rfl, rfl⟩

theorem not_space_of_decimal {c : Char} (h : 48 ≤ c.toNat ∧ c.toNat ≤ 57) : isSpace c = false := by
  simp only [isSpace, decide_eq_false_iff_not]
  omega

theorem pyInt_decimal {cs : List Char} (h : Decimal cs) :
    pyInt cs =
      if (secondsDigits cs).length ≤ maxStrDigits then some (decimalValue cs) else none := by
  obtain ⟨hne, hdigits⟩ := h
  have hcodes : ∀ c ∈ secondsDigits cs, 48 ≤ c.toNat ∧ c.toNat ≤ 57 := fun c hc => by
    simpa [isDecimalDigit] using hdigits c hc
  have hvalue := natOfDigits_ascii hne hcodes
  rw [pyInt]
  by_cases hsign : ∃ ds, cs = '-' :: ds
  · obtain ⟨ds, rfl⟩ := hsign
    have hspace : ∀ c ∈ '-' :: ds, isSpace c = false := by
      intro c hc
      rcases List.mem_cons.mp hc with rfl | hc
      · decide
      · exact not_space_of_decimal (hcodes c hc)
    rw [strip_eq_self hspace, intOfSigned, show natOfDigits ds = _ from hvalue]
    simp only [secondsDigits, decimalValue]
    split_ifs <;> rfl
  · obtain ⟨hself, hread⟩ := unsigned (fun ds hds => hsign ⟨ds, hds⟩)
    rw [hself] at hcodes hvalue
    rw [hself, hread, strip_eq_self (fun c hc => not_space_of_decimal (hcodes c hc)), intOfSigned,
      hvalue]
    · split_ifs <;> rfl
    · exact fun ds hds => hsign ⟨ds, hds⟩
    · rintro ds rfl
      exact absurd (hcodes '+' List.mem_cons_self) (by decide)

/-- The fields of a line that has three. -/
theorem threeFields_iff {line : List Char} :
    ThreeFields line ↔ ∃ status backup_id mtime, line.splitOn ' ' = [status, backup_id, mtime] :=
  List.length_eq_three

/-- A line of other than three fields is skipped. -/
theorem parse_line_skipped {line : List Char} (h : ¬ ThreeFields line) :
    parse_list_line line = .ok none ∧ lineRecord line = none := by
  have hne : ∀ a b c, line.splitOn ' ' ≠ [a, b, c] := fun a b c habc =>
    h (threeFields_iff.mpr ⟨a, b, c, habc⟩)
  unfold parse_list_line lineRecord
  constructor
  · split
    · next a b c habc => exact absurd habc (hne a b c)
    · rfl
  · split
    · next a b c habc => exact absurd habc (hne a b c)
    · rfl

/-- A line of three fields becomes a record or raises. -/
theorem parse_line_some {line : List Char} (h : ThreeFields line) {r : Option StoredBackup}
    (hr : parse_list_line line = .ok r) : ∃ b, r = some b := by
  obtain ⟨a, b, c, habc⟩ := threeFields_iff.mp h
  unfold parse_list_line at hr
  rw [habc] at hr
  obtain ⟨seconds, -, hr⟩ := except_bind_ok hr
  obtain ⟨stored_at, -, hr⟩ := except_bind_ok hr
  exact ⟨_, (Except.ok.inj hr).symm⟩

/-- The fields of a line of the form. -/
theorem lineRecord_eq_some {line : List Char} {b : StoredBackup} :
    lineRecord line = some b ↔ ∃ status backup_id mtime,
      line.splitOn ' ' = [status, backup_id, mtime] ∧
      (status = "COMPLETE".toList ∨ status = "PARTIAL".toList) ∧ backup_id ≠ [] ∧ Decimal mtime ∧
      b = ⟨String.ofList backup_id, status = "COMPLETE".toList,
        Datetime.utc (decimalValue mtime * 1000000)⟩ := by
  unfold lineRecord
  split
  · next status backup_id mtime hfields =>
    constructor
    · intro h
      split_ifs at h with hform
      exact ⟨status, backup_id, mtime, hfields, hform.1, hform.2.1, hform.2.2,
        (Option.some.inj h).symm⟩
    · rintro ⟨status', backup_id', mtime', hfields', hstatus, hid, hmtime, rfl⟩
      obtain ⟨rfl, rfl, rfl⟩ : status = status' ∧ backup_id = backup_id' ∧ mtime = mtime' := by
        simpa using hfields.symm.trans hfields'
      rw [if_pos ⟨hstatus, hid, hmtime⟩]
  · next hne =>
    refine iff_of_false (by simp) ?_
    rintro ⟨status, backup_id, mtime, hfields, -⟩
    exact hne status backup_id mtime hfields

/-- A line of the form is read as it is meant when its seconds are in range, and raises else. -/
theorem parse_line_record {line : List Char} {b : StoredBackup} (h : lineRecord line = some b) :
    (InRange line → parse_list_line line = .ok (some b)) ∧
      ∀ r, parse_list_line line = .ok r → InRange line := by
  obtain ⟨status, backup_id, mtime, hfields, -, -, hmtime, rfl⟩ := lineRecord_eq_some.mp h
  have hint := pyInt_decimal hmtime
  unfold parse_list_line pyIntText stampOf
  rw [hfields]
  dsimp only
  rw [String.toList_ofList, hint]
  constructor
  · intro hrange
    obtain ⟨hdigits, hrep⟩ := hrange status backup_id mtime hfields
    rw [if_pos hdigits]
    dsimp only
    simp only [Bind.bind, Except.bind, if_pos hrep]
    rfl
  · intro r hr status' backup_id' mtime' hfields'
    obtain ⟨rfl, rfl, rfl⟩ : status = status' ∧ backup_id = backup_id' ∧ mtime = mtime' := by
      simpa using hfields.symm.trans hfields'
    by_cases hdigits : (secondsDigits mtime).length ≤ maxStrDigits
    · rw [if_pos hdigits] at hr
      obtain ⟨seconds, hs, hr⟩ := except_bind_ok hr
      obtain rfl := Except.ok.inj hs
      obtain ⟨stored_at, hd, -⟩ := except_bind_ok hr
      refine ⟨hdigits, ?_⟩
      by_contra hrep
      rw [if_neg hrep] at hd
      cases hd
    · rw [if_neg hdigits] at hr
      cases hr

theorem parse_lines_length {lines : List (List Char)} {records : List StoredBackup}
    (h : parse_list_lines lines = .ok records) :
    records.length = (lines.filter ThreeFields).length := by
  induction lines generalizing records with
  | nil =>
    obtain rfl := Except.ok.inj h
    rfl
  | cons line lines ih =>
    rw [parse_list_lines] at h
    obtain ⟨first, hfirst, h⟩ := except_bind_ok h
    obtain ⟨rest, hrest, h⟩ := except_bind_ok h
    obtain rfl := Except.ok.inj h
    by_cases hthree : ThreeFields line
    · obtain ⟨b, rfl⟩ := parse_line_some hthree hfirst
      simp [ih hrest, hthree]
    · rw [(parse_line_skipped hthree).1] at hfirst
      obtain rfl := Except.ok.inj hfirst
      simp [ih hrest, hthree]

theorem records_length (lines : List (List Char)) :
    (lines.filterMap lineRecord).length ≤ (lines.filter ThreeFields).length := by
  induction lines with
  | nil => simp
  | cons line lines ih =>
    by_cases hthree : ThreeFields line
    · cases hline : lineRecord line with
      | none =>
        simp only [List.filterMap_cons, hline, List.filter_cons, hthree, decide_true, if_true,
          List.length_cons]
        omega
      | some b =>
        simp only [List.filterMap_cons, hline, List.filter_cons, hthree, decide_true, if_true,
          List.length_cons]
        omega
    · simp only [List.filterMap_cons, (parse_line_skipped hthree).2, List.filter_cons, hthree,
        decide_false]
      exact ih

theorem parse_lines_iff (lines : List (List Char)) :
    parse_list_lines lines = .ok (lines.filterMap lineRecord) ↔
      ∀ line ∈ lines, ThreeFields line → (∃ b, lineRecord line = some b) ∧ InRange line := by
  induction lines with
  | nil => simp [parse_list_lines]
  | cons line lines ih =>
    rw [List.forall_mem_cons, ← ih]
    constructor
    · intro h
      rw [parse_list_lines] at h
      obtain ⟨first, hfirst, h⟩ := except_bind_ok h
      obtain ⟨rest, hrest, h⟩ := except_bind_ok h
      have heq := Except.ok.inj h
      have hlength := congrArg List.length heq
      have hrecords := records_length lines
      have hparsed := parse_lines_length hrest
      by_cases hthree : ThreeFields line
      · obtain ⟨b, rfl⟩ := parse_line_some hthree hfirst
        cases hline : lineRecord line with
        | none =>
          simp only [List.filterMap_cons, hline, Option.toList_some, List.length_append,
            List.length_singleton] at hlength
          omega
        | some b' =>
          simp only [List.filterMap_cons, hline, Option.toList_some, List.singleton_append] at heq
          obtain ⟨-, rfl⟩ := List.cons.inj heq
          exact ⟨fun _ => ⟨⟨b', rfl⟩, (parse_line_record hline).2 _ hfirst⟩, hrest⟩
      · obtain ⟨hskip, hnone⟩ := parse_line_skipped hthree
        rw [hskip] at hfirst
        obtain rfl := Except.ok.inj hfirst
        simp only [List.filterMap_cons, hnone, Option.toList_none, List.nil_append] at heq
        subst heq
        exact ⟨fun h3 => absurd h3 hthree, hrest⟩
    · rintro ⟨hfirst, hrest⟩
      rw [parse_list_lines, hrest]
      by_cases hthree : ThreeFields line
      · obtain ⟨⟨b, hline⟩, hrange⟩ := hfirst hthree
        rw [(parse_line_record hline).1 hrange]
        simp only [List.filterMap_cons, hline]
        rfl
      · obtain ⟨hskip, hnone⟩ := parse_line_skipped hthree
        rw [hskip]
        simp only [List.filterMap_cons, hnone]
        rfl

/-- The listing is read by its grammar exactly on texts whose lines of three fields are all of the
form, with seconds in range. -/
theorem parse_list_output_iff (stdout : String) :
    parse_list_output stdout = .ok ((splitlines stdout.toList).filterMap lineRecord) ↔
      ∀ line ∈ splitlines stdout.toList, ThreeFields line →
        (∃ b, lineRecord line = some b) ∧ InRange line := parse_lines_iff _

/-- A banner of three words aborts the listing, and one that ends in a number is a generation. -/
theorem banner_is_listed :
    parse_list_output "Last login: yesterday\nCOMPLETE p-1 1700000000\n" =
        .error (.value "invalid literal for int() with base 10: 'yesterday'") ∧
      parse_list_output "Disk usage: 95\nCOMPLETE p-1 1700000000\n" =
        .ok [⟨"usage:", false, Datetime.utc 95000000⟩,
          ⟨"p-1", true, Datetime.utc 1700000000000000⟩] ∧
      (splitlines "Disk usage: 95\nCOMPLETE p-1 1700000000\n".toList).filterMap lineRecord =
        [⟨"p-1", true, Datetime.utc 1700000000000000⟩] := by
  refine ⟨by decide +kernel, by decide +kernel, by decide +kernel⟩

end MbKeeper
