import MbKeeper.Programs

/-!
# Trying again

A loop that makes an attempt until one succeeds, but not more often than it
was told to: then it gives up, with the failure of the last attempt. Attempts
that fail may have done something to the state, so how a loop ends is said
along the chain of states that the failing attempts lead through.
-/
namespace MbKeeper

variable {σ ε α β : Type}

/-- The first of at most so many attempts that succeeds; giving up is done with the last
failure. -/
def retry (attempt : Prog σ ε (Except β α)) (give_up : β → Prog σ ε α) : ℕ → β → Prog σ ε α
  | 0, failure => give_up failure
  | n + 1, _ => do
    let outcome ← attempt
    match outcome with
    | .ok a => pure a
    | .error failure => retry attempt give_up n failure

/-- Attempts that failed, one after the other. -/
inductive Failing (attempt : Prog σ ε (Except β α)) : List β → σ → σ → Prop where
  | nil (s : σ) : Failing attempt [] s s
  | cons {failure : β} {failures : List β} {s t u : σ}
      (h : exec attempt s = (.ok (.error failure), t)) (rest : Failing attempt failures t u) :
      Failing attempt (failure :: failures) s u

section

variable {attempt : Prog σ ε (Except β α)} {give_up : β → Prog σ ε α} {failures : List β}
  {s t u : σ}

/-- Failing attempts are spent. -/
theorem Failing.spent (h : Failing attempt failures s t) (n : ℕ) (failure : β) :
    exec (retry attempt give_up (failures.length + n) failure) s =
      exec (retry attempt give_up n (failures.getLastD failure)) t := by
  induction h generalizing failure with
  | nil s => rw [List.length_nil, Nat.zero_add]; rfl
  | @cons first failures s t u h rest ih =>
    rw [List.length_cons, Nat.add_right_comm, List.getLastD_cons, ← ih]
    exact exec_bind_ok h _

theorem Failing.succeeds (h : Failing attempt failures s t) {a : α}
    (hok : exec attempt t = (.ok (.ok a), u)) {n : ℕ} (hn : failures.length < n) (failure : β) :
    exec (retry attempt give_up n failure) s = (.ok a, u) := by
  obtain ⟨m, rfl⟩ := Nat.exists_eq_add_of_lt hn
  rw [Nat.add_assoc, h.spent]
  exact exec_bind_ok hok _

theorem Failing.gives_up (h : Failing attempt failures s t) {n : ℕ} (hn : failures.length = n)
    (failure : β) : exec (retry attempt give_up n failure) s =
      exec (give_up (failures.getLastD failure)) t := by
  rw [← hn]
  exact h.spent 0 failure

end

theorem Failing.concat {attempt : Prog σ ε (Except β α)} {failures : List β} {failure : β}
    {s t u : σ} (h : Failing attempt failures s t)
    (hlast : exec attempt t = (.ok (.error failure), u)) :
    Failing attempt (failures ++ [failure]) s u := by
  induction h with
  | nil s => exact .cons hlast (.nil u)
  | cons h rest ih => exact .cons h (ih hlast)

/-- Where the attempts number `0` to `j - 1` fail, each from a state with its invariant into one
with the next. -/
theorem failing_range {attempt : Prog σ ε (Except β α)} (I : ℕ → σ → Prop) (failure : ℕ → β)
    {j : ℕ} (h : ∀ n < j, ∀ s, I n s →
      ∃ t, exec attempt s = (.ok (.error (failure n)), t) ∧ I (n + 1) t) {s : σ} (hs : I 0 s) :
    ∃ t, Failing attempt ((List.range j).map failure) s t ∧ I j t := by
  induction j with
  | zero => exact ⟨s, .nil s, hs⟩
  | succ j ih =>
    obtain ⟨t, hfailing, ht⟩ := ih (fun n hn => h n (Nat.lt_succ_of_lt hn))
    obtain ⟨u, hattempt, hu⟩ := h j (Nat.lt_succ_self j) t ht
    rw [List.range_succ, List.map_append]
    exact ⟨u, hfailing.concat hattempt, hu⟩

end MbKeeper
