import Mathlib.Order.Defs.Unbundled
import Mathlib.Tactic.Common

/-!
# Programs with state and exceptions

A program transforms a state and either returns a value or raises; whatever it
did to the state before a raise stays done. `Sat` is a Hoare triple whose
postcondition sees the outcome, returned or raised. `Moves R` says that every
run, however it ends, relates the state before to the state after by `R`.
-/
namespace MbKeeper

/-- A state transformer that may raise; the state at the raise is kept. -/
abbrev Prog (σ ε α : Type) := ExceptT ε (StateM σ) α

variable {σ ε α β : Type}

/-- One run: the outcome and the state it ends in. -/
def exec (m : Prog σ ε α) (s : σ) : Except ε α × σ := m.run.run s

@[simp] theorem exec_pure (a : α) (s : σ) : exec (pure a : Prog σ ε α) s = (.ok a, s) := rfl

@[simp] theorem exec_throw (e : ε) (s : σ) :
    exec (throw e : Prog σ ε α) s = (.error e, s) := rfl

@[simp] theorem exec_get (s : σ) : exec (get : Prog σ ε σ) s = (.ok s, s) := rfl

@[simp] theorem exec_modify (f : σ → σ) (s : σ) :
    exec (modify f : Prog σ ε PUnit) s = (.ok ⟨⟩, f s) := rfl

theorem exec_bind (m : Prog σ ε α) (f : α → Prog σ ε β) (s : σ) :
    exec (m >>= f) s = match exec m s with
      | (.ok a, s') => exec (f a) s'
      | (.error e, s') => (.error e, s') := by
  simp only [exec, ExceptT.run_bind, StateT.run_bind]
  rcases h : (ExceptT.run m).run s with ⟨_ | _, _⟩ <;> rfl

theorem exec_bind_ok {m : Prog σ ε α} {s s' : σ} {a : α} (h : exec m s = (.ok a, s'))
    (f : α → Prog σ ε β) : exec (m >>= f) s = exec (f a) s' := by
  rw [exec_bind, h]

theorem exec_bind_error {m : Prog σ ε α} {s s' : σ} {e : ε} (h : exec m s = (.error e, s'))
    (f : α → Prog σ ε β) : exec (m >>= f) s = (.error e, s') := by
  rw [exec_bind, h]

theorem exec_tryCatch (m : Prog σ ε α) (handler : ε → Prog σ ε α) (s : σ) :
    exec (tryCatch m handler) s = match exec m s with
      | (.ok a, s') => (.ok a, s')
      | (.error e, s') => exec (handler e) s' := by
  change (ExceptT.run (ExceptT.tryCatch m handler)).run s = _
  simp only [exec, ExceptT.tryCatch, ExceptT.run, ExceptT.mk, StateT.run_bind]
  rcases h : StateT.run (m : StateT σ Id (Except ε α)) s with ⟨_ | _, _⟩ <;> rfl

/-- Either the first program raised, or the second one went on from where it returned. -/
theorem exec_bind_cases {m : Prog σ ε α} {f : α → Prog σ ε β} {s s' : σ} {r : Except ε β}
    (h : exec (m >>= f) s = (r, s')) :
    (∃ e, exec m s = (.error e, s') ∧ r = .error e) ∨
      ∃ a t, exec m s = (.ok a, t) ∧ exec (f a) t = (r, s') := by
  rw [exec_bind] at h
  rcases hm : exec m s with ⟨e | a, t⟩
  · rw [hm] at h
    obtain ⟨rfl, rfl⟩ := Prod.mk.inj h
    exact .inl ⟨e, rfl, rfl⟩
  · rw [hm] at h
    exact .inr ⟨a, t, rfl, h⟩

theorem exec_bind_eq_ok {m : Prog σ ε α} {f : α → Prog σ ε β} {s s' : σ} {b : β}
    (h : exec (m >>= f) s = (.ok b, s')) :
    ∃ a t, exec m s = (.ok a, t) ∧ exec (f a) t = (.ok b, s') := by
  rcases exec_bind_cases h with ⟨e, -, he⟩ | h
  · cases he
  · exact h

theorem exec_pure_eq_ok {a b : α} {s s' : σ} (h : exec (pure a : Prog σ ε α) s = (.ok b, s')) :
    b = a ∧ s' = s := by
  obtain ⟨hb, hs⟩ := Prod.mk.inj h
  exact ⟨(Except.ok.inj hb).symm, hs.symm⟩

theorem exec_of_ok {m : Prog σ ε α} {s : σ} {a : α} (h : (exec m s).1 = .ok a) :
    exec m s = (.ok a, (exec m s).2) := Prod.ext h rfl

/-- What a computation of two steps that succeeds went through. -/
theorem except_bind_ok {x : Except ε α} {f : α → Except ε β} {b : β} (h : x >>= f = .ok b) :
    ∃ a, x = .ok a ∧ f a = .ok b := by
  cases x with
  | error e => cases h
  | ok a => exact ⟨a, rfl, h⟩

/-- A run started under `P` ends, by return or by raise, under `Q`. -/
def Sat (P : σ → Prop) (m : Prog σ ε α) (Q : Except ε α → σ → Prop) : Prop :=
  ∀ s, P s → Q (exec m s).1 (exec m s).2

namespace Sat

variable {P P' : σ → Prop} {m : Prog σ ε α} {Q Q' : Except ε α → σ → Prop}

theorem conseq (h : Sat P m Q) (hp : ∀ s, P' s → P s) (hq : ∀ r s, Q r s → Q' r s) :
    Sat P' m Q' :=
  fun s hs => hq _ _ (h s (hp s hs))

theorem pure {a : α} (h : ∀ s, P s → Q (.ok a) s) : Sat P (pure a) Q := h

theorem throw {e : ε} (h : ∀ s, P s → Q (.error e) s) : Sat P (throw e) Q := h

/-- Sequencing: a raise of the first program passes the second one by. -/
theorem bind {f : α → Prog σ ε β} {R : Except ε α → σ → Prop} {Q : Except ε β → σ → Prop}
    (hm : Sat P m R) (hf : ∀ a, Sat (R (.ok a)) (f a) Q)
    (he : ∀ e s, R (.error e) s → Q (.error e) s) : Sat P (m >>= f) Q := by
  intro s hs
  have h := hm s hs
  rw [exec_bind]
  rcases hr : exec m s with ⟨e | a, s'⟩
  · exact he e s' (by simpa [hr] using h)
  · exact hf a s' (by simpa [hr] using h)

theorem tryCatch {handler : ε → Prog σ ε α} {R : Except ε α → σ → Prop}
    (hm : Sat P m R) (hok : ∀ a s, R (.ok a) s → Q (.ok a) s)
    (hh : ∀ e, Sat (R (.error e)) (handler e) Q) : Sat P (tryCatch m handler) Q := by
  intro s hs
  have h := hm s hs
  rw [exec_tryCatch]
  rcases hr : exec m s with ⟨e | a, s'⟩
  · exact hh e s' (by simpa [hr] using h)
  · exact hok a s' (by simpa [hr] using h)

end Sat

/-- Every run of `m`, whatever its outcome, moves the state along `R`. -/
def Moves (R : σ → σ → Prop) (m : Prog σ ε α) : Prop := ∀ s, R s (exec m s).2

namespace Moves

variable {R R' : σ → σ → Prop} {m : Prog σ ε α}

theorem mono (h : Moves R m) (hr : ∀ s s', R s s' → R' s s') : Moves R' m :=
  fun s => hr _ _ (h s)

theorem pure [Std.Refl R] (a : α) : Moves R (pure a : Prog σ ε α) := fun s => refl_of R s

theorem throw [Std.Refl R] (e : ε) : Moves R (throw e : Prog σ ε α) := fun s => refl_of R s

theorem bind [IsTrans σ R] {f : α → Prog σ ε β} (hm : Moves R m)
    (hf : ∀ a, Moves R (f a)) : Moves R (m >>= f) := by
  intro s
  have h := hm s
  rw [exec_bind]
  rcases hr : exec m s with ⟨e | a, s'⟩
  · simpa [hr] using h
  · exact trans_of R (by simpa [hr] using h) (hf a s')

theorem tryCatch [IsTrans σ R] {handler : ε → Prog σ ε α} (hm : Moves R m)
    (hh : ∀ e, Moves R (handler e)) : Moves R (tryCatch m handler) := by
  intro s
  have h := hm s
  rw [exec_tryCatch]
  rcases hr : exec m s with ⟨e | a, s'⟩
  · exact trans_of R (by simpa [hr] using h) (hh e s')
  · simpa [hr] using h

theorem of_exec (h : Moves R m) {s s' : σ} {r : Except ε α} (hr : exec m s = (r, s')) :
    R s s' := by
  have := h s
  rwa [hr] at this

theorem ite {c : Prop} [Decidable c] {m' : Prog σ ε α} (h : Moves R m) (h' : Moves R m') :
    Moves R (if c then m else m') := by
  split
  · exact h
  · exact h'

end Moves

end MbKeeper
