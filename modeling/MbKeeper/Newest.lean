import Mathlib.Data.Finset.Sort
import Mathlib.Data.Finset.Card
import Mathlib.Order.Interval.Finset.Nat
import Mathlib.Tactic.Common

/-!
# The largest k elements of a finite set

`above S x` counts the elements of `S` that lie above `x`; `newest k S` keeps the
elements with fewer than `k` others above them. The point of the module is
`newest_between`: a set caught between `newest k S` and `S` has the same newest
`k` elements, so a listing that is incomplete or polluted only below the top
still decides correctly about the top.
-/
namespace MbKeeper

variable {α : Type*} [LinearOrder α]

/-- How many elements of `S` lie above `x`. -/
def above (S : Finset α) (x : α) : ℕ := (S.filter (x < ·)).card

/-- The elements of `S` with fewer than `k` elements of `S` above them. -/
def newest (k : ℕ) (S : Finset α) : Finset α := S.filter (above S · < k)

theorem mem_newest {k : ℕ} {S : Finset α} {x : α} :
    x ∈ newest k S ↔ x ∈ S ∧ above S x < k := by simp [newest]

theorem newest_subset (k : ℕ) (S : Finset α) : newest k S ⊆ S := Finset.filter_subset _ _

theorem above_mono {S T : Finset α} (h : S ⊆ T) (x : α) : above S x ≤ above T x :=
  Finset.card_le_card (Finset.filter_subset_filter _ h)

theorem above_lt_above {S : Finset α} {x y : α} (hy : y ∈ S) (hxy : x < y) :
    above S y < above S x := by
  apply Finset.card_lt_card
  refine ⟨fun z hz => ?_, fun h => ?_⟩
  · rw [Finset.mem_filter] at hz ⊢
    exact ⟨hz.1, hxy.trans hz.2⟩
  · have := h (Finset.mem_filter.mpr ⟨hy, hxy⟩)
    exact lt_irrefl y (Finset.mem_filter.mp this).2

theorem above_antitone (S : Finset α) {x y : α} (hxy : x ≤ y) : above S y ≤ above S x :=
  Finset.card_le_card (Finset.monotone_filter_right S (fun _ _ hz => hxy.trans_lt hz))

theorem above_lt_card {S : Finset α} {x : α} (hx : x ∈ S) : above S x < S.card := by
  apply Finset.card_lt_card
  refine ⟨Finset.filter_subset _ _, fun h => ?_⟩
  exact lt_irrefl x (Finset.mem_filter.mp (h hx)).2

theorem above_injOn (S : Finset α) : Set.InjOn (above S) S := by
  intro x hx y hy h
  by_contra hne
  rcases lt_or_gt_of_ne hne with hlt | hlt
  · exact (above_lt_above hy hlt).ne' h
  · exact (above_lt_above hx hlt).ne h

/-- The counts of the elements of `S` are exactly `0, 1, …, |S| - 1`. -/
theorem image_above (S : Finset α) : S.image (above S) = Finset.range S.card := by
  apply Finset.eq_of_subset_of_card_le
  · intro n hn
    obtain ⟨x, hx, rfl⟩ := Finset.mem_image.mp hn
    exact Finset.mem_range.mpr (above_lt_card hx)
  · rw [Finset.card_image_of_injOn (above_injOn S), Finset.card_range]

theorem card_newest (k : ℕ) (S : Finset α) : (newest k S).card = min k S.card := by
  have hinj : Set.InjOn (above S) (newest k S) := (above_injOn S).mono (newest_subset k S)
  have himage : (newest k S).image (above S) = Finset.range (min k S.card) := by
    ext n
    simp only [Finset.mem_image, mem_newest, Finset.mem_range, lt_min_iff]
    constructor
    · rintro ⟨x, ⟨hx, hk⟩, rfl⟩
      exact ⟨hk, above_lt_card hx⟩
    · rintro ⟨hk, hc⟩
      have hn : n ∈ S.image (above S) := by rw [image_above]; exact Finset.mem_range.mpr hc
      obtain ⟨x, hx, rfl⟩ := Finset.mem_image.mp hn
      exact ⟨x, ⟨hx, hk⟩, rfl⟩
  rw [← Finset.card_image_of_injOn hinj, himage, Finset.card_range]

theorem newest_eq_self {k : ℕ} {S : Finset α} (h : S.card ≤ k) : newest k S = S :=
  Finset.filter_true_of_mem (fun _ hx => (above_lt_card hx).trans_le h)

/-- What is among the newest of the whole is among the newest of any part it lies in. -/
theorem mem_newest_of_subset {k : ℕ} {L S : Finset α} {x : α} (hL : L ⊆ S) (hx : x ∈ L)
    (h : x ∈ newest k S) : x ∈ newest k L :=
  mem_newest.mpr ⟨hx, (above_mono hL x).trans_lt (mem_newest.mp h).2⟩

/-- A part that contains the newest `k` of the whole has the same newest `k`. -/
theorem newest_between {k : ℕ} {L S : Finset α} (hlow : newest k S ⊆ L) (hup : L ⊆ S) :
    newest k L = newest k S := by
  apply Finset.Subset.antisymm
  · intro x hx
    obtain ⟨hxL, hk⟩ := mem_newest.mp hx
    by_contra hnot
    have hrank : k ≤ above S x := by
      by_contra hlt
      exact hnot (mem_newest.mpr ⟨hup hxL, by omega⟩)
    -- all of the newest `k` lie above `x`, and the part has them
    have hsub : newest k S ⊆ L.filter (x < ·) := by
      intro y hy
      refine Finset.mem_filter.mpr ⟨hlow hy, ?_⟩
      by_contra hxy
      have := above_antitone S (not_lt.mp hxy)
      have := (mem_newest.mp hy).2
      omega
    have hcard := Finset.card_le_card hsub
    have hS : above S x ≤ S.card := Finset.card_le_card (Finset.filter_subset _ _)
    rw [card_newest] at hcard
    change min k S.card ≤ above L x at hcard
    omega
  · intro x hx
    exact mem_newest_of_subset hup (hlow hx) hx

/-- A new maximum pushes at most one element out and lets none back in. -/
theorem newest_insert_subset {k : ℕ} {S : Finset α} {m : α} :
    newest k (insert m S) ⊆ insert m (newest k S) := by
  intro x hx
  obtain ⟨hxS, hk⟩ := mem_newest.mp hx
  rcases Finset.mem_insert.mp hxS with rfl | hxS
  · exact Finset.mem_insert_self _ _
  · refine Finset.mem_insert_of_mem (mem_newest.mpr ⟨hxS, ?_⟩)
    exact (above_mono (Finset.subset_insert m S) x).trans_lt hk

theorem above_insert_of_lt {S : Finset α} {a x : α} (ha : a ∉ S) (h : x < a) :
    above (insert a S) x = above S x + 1 := by
  rw [above, Finset.filter_insert, if_pos h, Finset.card_insert_of_notMem (by simp [ha]), above]

theorem above_eq_zero {S : Finset α} {a : α} (h : ∀ x ∈ S, x ≤ a) : above S a = 0 := by
  rw [above, Finset.card_eq_zero, Finset.filter_eq_empty_iff]
  exact fun x hx => not_lt.mpr (h x hx)

/-- In a strictly descending list the first `k` elements are the newest `k`. -/
theorem mem_take_iff_above {l : List α} (hl : l.Pairwise (· > ·)) (k : ℕ) {x : α} (hx : x ∈ l) :
    x ∈ l.take k ↔ above l.toFinset x < k := by
  induction l generalizing k with
  | nil => simp at hx
  | cons a l ih =>
    obtain ⟨ha, hl⟩ := List.pairwise_cons.mp hl
    have hnot : a ∉ l.toFinset := fun h => lt_irrefl a (ha a (List.mem_toFinset.mp h))
    cases k with
    | zero => simp
    | succ k =>
      rw [List.take_succ_cons, List.toFinset_cons]
      by_cases hxa : x = a
      · subst hxa
        rw [above_eq_zero]
        · simp
        · intro y hy
          rcases Finset.mem_insert.mp hy with rfl | hy
          · exact le_rfl
          · exact (ha y (List.mem_toFinset.mp hy)).le
      · have hxl : x ∈ l := (List.mem_cons.mp hx).resolve_left hxa
        rw [List.mem_cons, above_insert_of_lt hnot (ha x hxl), ih hl k hxl]
        simp [hxa]

theorem mem_drop_iff_above {l : List α} (hl : l.Pairwise (· > ·)) (k : ℕ) {x : α} (hx : x ∈ l) :
    x ∈ l.drop k ↔ k ≤ above l.toFinset x := by
  have hnodup : l.Nodup := hl.imp (fun h => ne_of_gt h)
  have hsplit : x ∈ l.take k ∨ x ∈ l.drop k := by
    rw [← List.mem_append, List.take_append_drop]
    exact hx
  have hdisj : ¬ (x ∈ l.take k ∧ x ∈ l.drop k) := fun h =>
    List.disjoint_take_drop hnodup le_rfl h.1 h.2
  have htake := mem_take_iff_above hl k hx
  constructor
  · intro h
    by_contra hlt
    exact hdisj ⟨htake.mpr (by omega), h⟩
  · intro h
    exact hsplit.resolve_left (fun ht => by have := htake.mp ht; omega)

end MbKeeper
