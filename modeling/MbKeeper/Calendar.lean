import MbKeeper.Text
import Mathlib.Order.Monotone.Basic
import Mathlib.Algebra.GroupWithZero.Nat

/-!
# Instants, the Gregorian calendar and time stamps

An instant is a count of microseconds since the Unix epoch. `ordToYmd` is the
proleptic Gregorian calendar of Python's `datetime`, and `stamp` writes an
instant as `%Y%m%dT%H%M%SZ`. Within the four-digit years the order of the
stamps is the order of the seconds (`stamp_lt_stamp`); the proof passes through
one number per day and one per second of the day, both written with a fixed
number of digits.
-/
namespace MbKeeper

def isLeap (y : ℕ) : Prop := y % 4 = 0 ∧ (y % 100 ≠ 0 ∨ y % 400 = 0)

instance (y : ℕ) : Decidable (isLeap y) := inferInstanceAs (Decidable (_ ∧ _))

/-- The year of a day counted from the first of January of year 1, and the day
within the year, both by the cycles of 400, 100, 4 and 1 years. -/
def yearAndDay (n : ℕ) : ℕ × ℕ :=
  let n400 := n / 146097
  let n100 := n % 146097 / 36524
  let n4 := n % 146097 % 36524 / 1461
  let n1 := n % 146097 % 36524 % 1461 / 365
  let year := n400 * 400 + n100 * 100 + n4 * 4 + n1 + 1
  if n1 = 4 ∨ n100 = 4 then (year - 1, 365)
  else (year, n % 146097 % 36524 % 1461 % 365)

def monthLengths (leap : Bool) : List ℕ :=
  [31, if leap then 29 else 28, 31, 30, 31, 30, 31, 31, 30, 31, 30, 31]

/-- The month of a day of the year and the day of the month, the first being 1. -/
def splitMonth : List ℕ → ℕ → ℕ → ℕ × ℕ
  | [], m, d => (m, d + 1)
  | len :: ls, m, d => if d < len then (m, d + 1) else splitMonth ls (m + 1) (d - len)

structure Ymd where
  year : ℕ
  month : ℕ
  day : ℕ
  deriving DecidableEq, Repr

def ordToYmd (n : ℕ) : Ymd :=
  let yd := yearAndDay n
  let md := splitMonth (monthLengths (isLeap yd.1)) 1 yd.2
  ⟨yd.1, md.1, md.2⟩

/-- The days before the first of January of the year `y + 1`. -/
def daysBeforeYear (y : ℕ) : ℕ := 365 * y + y / 4 - y / 100 + y / 400

theorem daysBeforeYear_cycles {a b c e : ℕ} (hb : b ≤ 3) (hc : c ≤ 24) (he : e ≤ 3) :
    daysBeforeYear (a * 400 + b * 100 + c * 4 + e) =
      146097 * a + 36524 * b + 1461 * c + 365 * e := by
  have h4 : (a * 400 + b * 100 + c * 4 + e) / 4 = 100 * a + 25 * b + c := by omega
  have h100 : (a * 400 + b * 100 + c * 4 + e) / 100 = 4 * a + b := by omega
  have h400 : (a * 400 + b * 100 + c * 4 + e) / 400 = a := by omega
  simp only [daysBeforeYear, h4, h100, h400]
  omega

private theorem succ_div_eq (y k : ℕ) :
    (y + 1) / k = y / k ∧ (y + 1) % k ≠ 0 ∨ (y + 1) / k = y / k + 1 ∧ (y + 1) % k = 0 := by
  rw [Nat.succ_div]
  by_cases h : k ∣ y + 1
  · exact .inr ⟨by rw [if_pos h], Nat.mod_eq_zero_of_dvd h⟩
  · exact .inl ⟨by rw [if_neg h]; rfl, fun h0 => h (Nat.dvd_of_mod_eq_zero h0)⟩

theorem daysBeforeYear_succ (y : ℕ) :
    (isLeap (y + 1) ∧ daysBeforeYear (y + 1) = daysBeforeYear y + 366) ∨
      (¬ isLeap (y + 1) ∧ daysBeforeYear (y + 1) = daysBeforeYear y + 365) := by
  have hle : y / 100 ≤ y / 4 := Nat.div_le_div_left (by decide) (by decide)
  have hdvd4 : (y + 1) % 100 = 0 → (y + 1) % 4 = 0 := by omega
  have hdvd100 : (y + 1) % 400 = 0 → (y + 1) % 100 = 0 := by omega
  simp only [isLeap, daysBeforeYear]
  rcases succ_div_eq y 4 with ⟨h4, r4⟩ | ⟨h4, r4⟩
  · have r100 : (y + 1) % 100 ≠ 0 := fun h => r4 (hdvd4 h)
    have r400 : (y + 1) % 400 ≠ 0 := fun h => r100 (hdvd100 h)
    have h100 := ((succ_div_eq y 100).resolve_right (fun h => r100 h.2)).1
    have h400 := ((succ_div_eq y 400).resolve_right (fun h => r400 h.2)).1
    exact .inr ⟨fun h => r4 h.1, by rw [h4, h100, h400]; omega⟩
  rcases succ_div_eq y 100 with ⟨h100, r100⟩ | ⟨h100, r100⟩
  · have r400 : (y + 1) % 400 ≠ 0 := fun h => r100 (hdvd100 h)
    have h400 := ((succ_div_eq y 400).resolve_right (fun h => r400 h.2)).1
    exact .inl ⟨⟨r4, .inl r100⟩, by rw [h4, h100, h400]; omega⟩
  rcases succ_div_eq y 400 with ⟨h400, r400⟩ | ⟨h400, r400⟩
  · refine .inr ⟨fun h => ?_, by rw [h4, h100, h400]; omega⟩
    rcases h.2 with h | h
    · exact h r100
    · exact r400 h
  · exact .inl ⟨⟨r4, .inr r400⟩, by rw [h4, h100, h400]; omega⟩

theorem daysBeforeYear_mono : Monotone daysBeforeYear :=
  monotone_nat_of_le_succ (fun y => by have := daysBeforeYear_succ y; omega)

/-- The day `d` of the year after `y`, both counted from zero. -/
def InYear (n y d : ℕ) : Prop :=
  n = daysBeforeYear y + d ∧ (d < 365 ∨ isLeap (y + 1) ∧ d < 366)

private theorem inYear_cycles {a b c e u : ℕ} (hb : b ≤ 3) (hc : c ≤ 24) (he : e ≤ 3)
    (hu : u < 365) : InYear (146097 * a + (36524 * b + (1461 * c + (365 * e + u))))
      (a * 400 + b * 100 + c * 4 + e) u := by
  refine ⟨?_, .inl hu⟩
  rw [daysBeforeYear_cycles hb hc he]
  omega

/-- The last day of a leap year is the day on which a cycle overflows. -/
private theorem inYear_last {a b c : ℕ} (hb : b ≤ 3) (hc : c ≤ 24) (hcb : c = 24 → b = 3) :
    InYear (146097 * a + (36524 * b + (1461 * c + 1460))) (a * 400 + b * 100 + c * 4 + 3) 365 := by
  refine ⟨?_, .inr ⟨?_, by omega⟩⟩
  · rw [daysBeforeYear_cycles hb hc le_rfl]
    omega
  · simp only [isLeap]
    omega

theorem yearAndDay_spec (n : ℕ) : ∃ y, (yearAndDay n).1 = y + 1 ∧ InYear n y (yearAndDay n).2 := by
  obtain ⟨a, r, hr, rfl⟩ : ∃ a r, r < 146097 ∧ n = 146097 * a + r :=
    ⟨n / 146097, n % 146097, Nat.mod_lt _ (by decide), by omega⟩
  obtain ⟨b, s, hs, rfl⟩ : ∃ b s, s < 36524 ∧ r = 36524 * b + s :=
    ⟨r / 36524, r % 36524, Nat.mod_lt _ (by decide), by omega⟩
  obtain ⟨c, t, ht, rfl⟩ : ∃ c t, t < 1461 ∧ s = 1461 * c + t :=
    ⟨s / 1461, s % 1461, Nat.mod_lt _ (by decide), by omega⟩
  obtain ⟨e, u, hu, rfl⟩ : ∃ e u, u < 365 ∧ t = 365 * e + u :=
    ⟨t / 365, t % 365, Nat.mod_lt _ (by decide), by omega⟩
  have h400 : (146097 * a + (36524 * b + (1461 * c + (365 * e + u)))) / 146097 = a := by omega
  have h400r : (146097 * a + (36524 * b + (1461 * c + (365 * e + u)))) % 146097 =
      36524 * b + (1461 * c + (365 * e + u)) := by omega
  have h100 : (36524 * b + (1461 * c + (365 * e + u))) / 36524 = b := by omega
  have h100r : (36524 * b + (1461 * c + (365 * e + u))) % 36524 = 1461 * c + (365 * e + u) := by
    omega
  have h4 : (1461 * c + (365 * e + u)) / 1461 = c := by omega
  have h4r : (1461 * c + (365 * e + u)) % 1461 = 365 * e + u := by omega
  have h1 : (365 * e + u) / 365 = e := by omega
  have h1r : (365 * e + u) % 365 = u := by omega
  simp only [yearAndDay, h400, h400r, h100, h100r, h4, h4r, h1, h1r]
  split_ifs with hlast
  · refine ⟨a * 400 + b * 100 + c * 4 + e - 1, by dsimp only; omega, ?_⟩
    rcases hlast with rfl | rfl
    · have h := inYear_last (a := a) (b := b) (c := c) (by omega) (by omega) (by omega)
      rwa [show a * 400 + b * 100 + c * 4 + 4 - 1 = a * 400 + b * 100 + c * 4 + 3 by omega,
        show 365 * 4 + u = 1460 by omega]
    · have h := inYear_last (a := a) le_rfl le_rfl (fun _ => rfl)
      rwa [show a * 400 + 4 * 100 + c * 4 + e - 1 = a * 400 + 3 * 100 + 24 * 4 + 3 by omega,
        show 36524 * 4 + (1461 * c + (365 * e + u)) = 36524 * 3 + (1461 * 24 + 1460) by omega]
  · exact ⟨_, rfl, inYear_cycles (by omega) (by omega) (by omega) hu⟩

/-- Later days lie in later years, or later in the same year. -/
theorem yearAndDay_lt {n m : ℕ} (h : n < m) :
    (yearAndDay n).1 < (yearAndDay m).1 ∨
      (yearAndDay n).1 = (yearAndDay m).1 ∧ (yearAndDay n).2 < (yearAndDay m).2 := by
  obtain ⟨y, hy, hn, -⟩ := yearAndDay_spec n
  obtain ⟨z, hz, hm, hd⟩ := yearAndDay_spec m
  rw [hy, hz]
  rcases lt_trichotomy y z with hlt | rfl | hgt
  · exact .inl (by omega)
  · exact .inr ⟨rfl, by omega⟩
  · -- the year of the later day would end before the earlier day
    have hmono : daysBeforeYear (z + 1) ≤ daysBeforeYear y := daysBeforeYear_mono hgt
    rcases daysBeforeYear_succ z with ⟨hleap, hsucc⟩ | ⟨hleap, hsucc⟩
    · omega
    · rcases hd with hd | hd
      · omega
      · exact absurd hd.1 hleap

theorem splitMonth_le (ls : List ℕ) (m d : ℕ) : m ≤ (splitMonth ls m d).1 := by
  induction ls generalizing m d with
  | nil => exact le_rfl
  | cons len ls ih =>
    simp only [splitMonth]
    split_ifs
    · exact le_rfl
    · exact (Nat.le_succ m).trans (ih (m + 1) (d - len))

theorem splitMonth_lt (ls : List ℕ) (m : ℕ) {d d' : ℕ} (h : d < d') :
    (splitMonth ls m d).1 < (splitMonth ls m d').1 ∨
      (splitMonth ls m d).1 = (splitMonth ls m d').1 ∧
        (splitMonth ls m d).2 < (splitMonth ls m d').2 := by
  induction ls generalizing m d d' with
  | nil => exact .inr ⟨rfl, by simp only [splitMonth]; omega⟩
  | cons len ls ih =>
    simp only [splitMonth]
    by_cases hd : d < len
    · by_cases hd' : d' < len
      · rw [if_pos hd, if_pos hd']
        exact .inr ⟨rfl, by dsimp only; omega⟩
      · rw [if_pos hd, if_neg hd']
        exact .inl (splitMonth_le ls (m + 1) (d' - len))
    · have hd' : ¬ d' < len := by omega
      simp only [if_neg hd, if_neg hd']
      exact ih (m + 1) (by omega)

theorem splitMonth_month_le {ls : List ℕ} (hne : ls ≠ []) (m : ℕ) {d : ℕ} (h : d < ls.sum) :
    (splitMonth ls m d).1 < m + ls.length ∧ (splitMonth ls m d).2 ≤ ls.foldr max 0 := by
  induction ls generalizing m d with
  | nil => exact absurd rfl hne
  | cons len ls ih =>
    simp only [splitMonth, List.length_cons, List.foldr_cons]
    by_cases hd : d < len
    · simp only [if_pos hd]
      exact ⟨by omega, by omega⟩
    · simp only [if_neg hd]
      rw [List.sum_cons] at h
      have hls : ls ≠ [] := by
        rintro rfl
        simp only [List.sum_nil] at h
        omega
      have := ih hls (m + 1) (d := d - len) (by omega)
      exact ⟨by omega, by omega⟩

theorem splitMonth_bounds {leap : Bool} {d : ℕ} (h : d < 365 ∨ leap = true ∧ d < 366) :
    (splitMonth (monthLengths leap) 1 d).1 ≤ 12 ∧ (splitMonth (monthLengths leap) 1 d).2 ≤ 31 := by
  have hsum : d < (monthLengths leap).sum := by
    cases leap with
    | false => exact lt_of_lt_of_eq (by simpa using h) (by decide : 365 = (monthLengths false).sum)
    | true => exact lt_of_lt_of_eq (by omega) (by decide : 366 = (monthLengths true).sum)
  obtain ⟨hm, hd⟩ := splitMonth_month_le (by simp [monthLengths]) 1 hsum
  have hlen : (monthLengths leap).length = 12 := rfl
  have hmax : (monthLengths leap).foldr max 0 = 31 := by cases leap <;> rfl
  exact ⟨by omega, by omega⟩

/-- One number for a date, written `yyyymmdd`. -/
def Ymd.code (d : Ymd) : ℕ := (d.year * 100 + d.month) * 100 + d.day

theorem ordToYmd_bounds (n : ℕ) : (ordToYmd n).month ≤ 12 ∧ (ordToYmd n).day ≤ 31 := by
  obtain ⟨y, hy, -, hd⟩ := yearAndDay_spec n
  apply splitMonth_bounds
  rw [hy]
  exact hd.imp_right (fun h => ⟨decide_eq_true h.1, h.2⟩)

theorem ordToYmd_code_lt {n m : ℕ} (h : n < m) : (ordToYmd n).code < (ordToYmd m).code := by
  have hn := ordToYmd_bounds n
  have hm := ordToYmd_bounds m
  have hlex : (ordToYmd n).year < (ordToYmd m).year ∨ (ordToYmd n).year = (ordToYmd m).year ∧
      ((ordToYmd n).month < (ordToYmd m).month ∨ (ordToYmd n).month = (ordToYmd m).month ∧
        (ordToYmd n).day < (ordToYmd m).day) := by
    rcases yearAndDay_lt h with hlt | ⟨heq, hlt⟩
    · exact .inl hlt
    · refine .inr ⟨heq, ?_⟩
      simp only [ordToYmd, heq]
      exact splitMonth_lt _ 1 hlt
  simp only [Ymd.code]
  omega

/-- The last `k` decimal digits of `n`. -/
def pad : ℕ → ℕ → List Char
  | 0, _ => []
  | k + 1, n => pad k (n / 10) ++ [(n % 10).digitChar]

@[simp] theorem length_pad (k n : ℕ) : (pad k n).length = k := by
  induction k generalizing n with
  | zero => rfl
  | succ k ih => simp [pad, ih]

theorem pad_append (j k a b : ℕ) (hb : b < 10 ^ k) :
    pad (j + k) (a * 10 ^ k + b) = pad j a ++ pad k b := by
  induction k generalizing b with
  | zero =>
    obtain rfl : b = 0 := by simpa using hb
    simp [pad]
  | succ k ih =>
    have hb' : b / 10 < 10 ^ k := by rw [pow_succ] at hb; omega
    have hdiv : (a * 10 ^ (k + 1) + b) / 10 = a * 10 ^ k + b / 10 := by
      rw [pow_succ, ← mul_assoc]
      omega
    have hmod : (a * 10 ^ (k + 1) + b) % 10 = b % 10 := by
      rw [pow_succ, ← mul_assoc]
      omega
    rw [← Nat.add_assoc, pad, hdiv, hmod, ih _ hb', pad, List.append_assoc]

theorem natText_eq_pad {k n : ℕ} (hlow : 10 ^ k ≤ n) (hhigh : n < 10 ^ (k + 1)) :
    natText n = pad (k + 1) n := by
  induction k generalizing n with
  | zero =>
    have hn : n < 10 := by simpa using hhigh
    rw [natText, Nat.toDigits_of_lt_base hn, pad, pad, Nat.mod_eq_of_lt hn, List.nil_append]
  | succ k ih =>
    have h10 : 10 ≤ n := le_trans (by rw [pow_succ]; have := Nat.one_le_pow k 10 (by decide); omega)
      hlow
    have hlow' : 10 ^ k ≤ n / 10 := by rw [pow_succ] at hlow; omega
    have hhigh' : n / 10 < 10 ^ (k + 1) := by rw [pow_succ] at hhigh; omega
    rw [natText, Nat.toDigits_of_base_le (by decide) h10, ← natText, ih hlow' hhigh']
    rfl

private theorem append_lt_append {l l' : List Char} (hlen : l.length = l'.length) (h : l < l')
    (r r' : List Char) : l ++ r < l' ++ r' := by
  induction h with
  | nil => simp at hlen
  | cons h ih => exact List.Lex.cons (ih (by simpa using hlen))
  | rel h => exact List.Lex.rel h

private theorem digitChar_lt {a b : ℕ} (h : a < b) (hb : b < 10) : a.digitChar < b.digitChar := by
  rw [Char.lt_def, UInt32.lt_iff_toNat_lt]
  have ha := Nat.toNat_digitChar_of_lt_ten (h.trans hb)
  have hb' := Nat.toNat_digitChar_of_lt_ten hb
  change a.digitChar.toNat < b.digitChar.toNat
  omega

theorem pad_lt_pad {k a b : ℕ} (h : a < b) (hb : b < 10 ^ k) : pad k a < pad k b := by
  induction k generalizing a b with
  | zero => simp at hb; omega
  | succ k ih =>
    simp only [pad]
    by_cases hdiv : a / 10 = b / 10
    · rw [hdiv]
      refine List.append_left_lt (List.Lex.rel (digitChar_lt ?_ (Nat.mod_lt _ (by decide))))
      omega
    · refine append_lt_append (by simp) (ih (by omega) ?_) _ _
      rw [pow_succ] at hb
      omega

/-- Microseconds since the Unix epoch. -/
abbrev Instant := ℤ

def second (t : Instant) : ℤ := t / 1000000

/-- Seconds from the first of January of year 1 to the Unix epoch. -/
def epochSecond : ℕ := 719162 * 86400

/-- `datetime` has room for the years 1 to 9999. -/
def Representable (t : Instant) : Prop :=
  0 ≤ second t + epochSecond ∧ second t + epochSecond < 3652059 * 86400

instance (t : Instant) : Decidable (Representable t) := inferInstanceAs (Decidable (_ ∧ _))

/-- Whole seconds since the first of January of year 1. -/
def ordinalSecond (t : Instant) : ℕ := (second t + epochSecond).toNat

def dateOf (t : Instant) : Ymd := ordToYmd (ordinalSecond t / 86400)

/-- `strftime("%Y%m%dT%H%M%SZ")` in UTC; the year is not padded. -/
def stamp (t : Instant) : List Char :=
  let d := dateOf t
  let s := ordinalSecond t % 86400
  natText d.year ++ pad 2 d.month ++ pad 2 d.day ++ ['T'] ++
    pad 2 (s / 3600) ++ pad 2 (s % 3600 / 60) ++ pad 2 (s % 60) ++ ['Z']

theorem stamp_getLast? (t : Instant) : (stamp t).getLast? = some 'Z' := by
  rw [stamp, List.getLast?_concat]

theorem isDigit_of_mem_pad {k n : ℕ} {c : Char} (h : c ∈ pad k n) :
    48 ≤ c.toNat ∧ c.toNat ≤ 57 := by
  induction k generalizing n with
  | zero => simp [pad] at h
  | succ k ih =>
    rcases List.mem_append.mp h with h | h
    · exact ih h
    · have hlt : n % 10 < 10 := Nat.mod_lt _ (by decide)
      rw [List.mem_singleton.mp h, Nat.toNat_digitChar_of_lt_ten hlt]
      omega

/-- A stamp is made of digits and the letters T and Z. -/
theorem mem_stamp {t : Instant} {c : Char} (h : c ∈ stamp t) :
    c = 'T' ∨ c = 'Z' ∨ 48 ≤ c.toNat ∧ c.toNat ≤ 57 := by
  simp only [stamp, List.mem_append, List.mem_singleton] at h
  rcases h with ((((((h | h) | h) | h) | h) | h) | h) | h
  · exact .inr (.inr (isDigit_of_mem_natText h))
  · exact .inr (.inr (isDigit_of_mem_pad h))
  · exact .inr (.inr (isDigit_of_mem_pad h))
  · exact .inl h
  · exact .inr (.inr (isDigit_of_mem_pad h))
  · exact .inr (.inr (isDigit_of_mem_pad h))
  · exact .inr (.inr (isDigit_of_mem_pad h))
  · exact .inr (.inl h)

/-- Four-digit years. -/
def FourDigitYear (t : Instant) : Prop :=
  Representable t ∧ 1000 ≤ (dateOf t).year ∧ (dateOf t).year ≤ 9999

instance (t : Instant) : Decidable (FourDigitYear t) := inferInstanceAs (Decidable (_ ∧ _))

/-- A stamp of a four-digit year is two fixed-width numbers. -/
theorem stamp_eq {t : Instant} (h : FourDigitYear t) : stamp t =
    pad 8 (dateOf t).code ++ (['T'] ++ (pad 6 ((ordinalSecond t % 86400 / 3600 * 100 +
      ordinalSecond t % 86400 % 3600 / 60) * 100 + ordinalSecond t % 86400 % 60) ++ ['Z'])) := by
  obtain ⟨hm, hd⟩ : (dateOf t).month ≤ 12 ∧ (dateOf t).day ≤ 31 :=
    ordToYmd_bounds (ordinalSecond t / 86400)
  have hyear : natText (dateOf t).year = pad 4 (dateOf t).year :=
    natText_eq_pad (k := 3) (by have := h.2.1; omega) (by have := h.2.2; omega)
  have hdate : pad 8 (dateOf t).code =
      pad 4 (dateOf t).year ++ pad 2 (dateOf t).month ++ pad 2 (dateOf t).day := by
    rw [← pad_append 4 2 _ _ (lt_of_le_of_lt hm (by decide)),
      ← pad_append 6 2 _ _ (lt_of_le_of_lt hd (by decide))]
    rfl
  have htime (a b c : ℕ) (hb : b < 100) (hc : c < 100) :
      pad 6 ((a * 100 + b) * 100 + c) = pad 2 a ++ pad 2 b ++ pad 2 c := by
    rw [← pad_append 2 2 a b hb, ← pad_append 4 2 _ c hc]
    rfl
  rw [hdate, htime _ _ _ (by omega) (by omega), ← hyear, stamp]
  simp only [List.append_assoc]

/-- Two instants in one second have one stamp. -/
theorem stamp_congr {t t' : Instant} (h : second t = second t') : stamp t = stamp t' := by
  simp only [stamp, dateOf, ordinalSecond, h]

theorem stamp_lt_stamp {t t' : Instant} (ht : FourDigitYear t) (ht' : FourDigitYear t')
    (h : second t < second t') : stamp t < stamp t' := by
  have hs : ordinalSecond t < ordinalSecond t' := by
    have := ht.1.1
    simp only [ordinalSecond]
    omega
  rw [stamp_eq ht, stamp_eq ht']
  by_cases hday : ordinalSecond t / 86400 = ordinalSecond t' / 86400
  · have hdate : dateOf t = dateOf t' := by rw [dateOf, hday, ← dateOf]
    rw [hdate]
    refine List.append_left_lt (List.append_left_lt (append_lt_append (by simp) ?_ _ _))
    exact pad_lt_pad (by omega) (by omega)
  · refine append_lt_append (by simp) (pad_lt_pad (ordToYmd_code_lt (by omega)) ?_) _ _
    have := ordToYmd_bounds (ordinalSecond t' / 86400)
    have := ht'.2.2
    simp only [Ymd.code, dateOf] at this ⊢
    omega

/-- `datetime`: a wall clock reading in microseconds since the Unix epoch and its
offset from UTC; `none` is a naive one. -/
structure Datetime where
  wall : ℤ
  utcoffset : Option ℤ
  deriving DecidableEq, Repr

namespace Datetime

/-- The instant an aware reading denotes. -/
def instant (d : Datetime) : Option Instant := d.utcoffset.map (d.wall - ·)

/-- `datetime(…, tzinfo=timezone.utc)` -/
def utc (t : Instant) : Datetime := ⟨t, some 0⟩

@[simp] theorem instant_utc (t : Instant) : (utc t).instant = some t := by simp [instant, utc]

end Datetime

end MbKeeper
