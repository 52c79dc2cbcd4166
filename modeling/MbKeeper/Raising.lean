import MbKeeper.Programs

/-!
# What a program may raise

`Raises I E` is the triple of a program that keeps the invariant `I` and raises
nothing but what `E` allows. It is closed under the constructs of a program, and
a handler is the place where `E` changes.
-/
namespace MbKeeper

variable {σ ε α β : Type} {I : σ → Prop} {E E' : ε → Prop}

/-- Started under `I`, a run ends under `I`, and what it raises satisfies `E`. -/
def Raises (I : σ → Prop) (E : ε → Prop) (m : Prog σ ε α) : Prop :=
  Sat I m (fun r s => I s ∧ ∀ e, r = .error e → E e)

namespace Raises

variable {m : Prog σ ε α}

theorem mono (h : Raises I E m) (hE : ∀ e, E e → E' e) : Raises I E' m :=
  Sat.conseq h (fun _ hs => hs) (fun _ _ hr => ⟨hr.1, fun e he => hE e (hr.2 e he)⟩)

theorem pure (a : α) : Raises I E (pure a : Prog σ ε α) :=
  Sat.pure (fun _ hs => ⟨hs, fun _ he => nomatch he⟩)

theorem throw {e : ε} (h : E e) : Raises I E (throw e : Prog σ ε α) :=
  Sat.throw (fun _ hs => ⟨hs, fun _ he => Except.error.inj he ▸ h⟩)

theorem bind {f : α → Prog σ ε β} (hm : Raises I E m) (hf : ∀ a, Raises I E (f a)) :
    Raises I E (m >>= f) := by
  refine Sat.bind hm (fun a => Sat.conseq (hf a) (fun _ hs => hs.1) (fun _ _ hr => hr)) ?_
  exact fun e _ hs => ⟨hs.1, fun e' he => Except.error.inj he ▸ hs.2 e rfl⟩

/-- The handler decides what is raised. -/
theorem tryCatch {handler : ε → Prog σ ε α} (hm : Raises I E m)
    (hh : ∀ e, E e → Raises I E' (handler e)) : Raises I E' (tryCatch m handler) := by
  refine Sat.tryCatch hm (fun _ _ hs => ⟨hs.1, fun _ he => nomatch he⟩) (fun e s hs => ?_)
  exact hh e (hs.2 e rfl) s hs.1

theorem ite {c : Prop} [Decidable c] {m' : Prog σ ε α} (h : Raises I E m) (h' : Raises I E m') :
    Raises I E (if c then m else m') := by
  split
  · exact h
  · exact h'

theorem keeps (h : Raises I E m) {s s' : σ} {r : Except ε α} (hr : exec m s = (r, s'))
    (hs : I s) : I s' := by
  have hend := (h s hs).1
  rwa [hr] at hend

theorem raised (h : Raises I E m) {s s' : σ} {e : ε} (hr : exec m s = (.error e, s'))
    (hs : I s) : E e := by
  have hend := (h s hs).2 e
  rw [hr] at hend
  exact hend rfl

end Raises

/-- What the computation fails with satisfies `E`. -/
def Fails (E : ε → Prop) (x : Except ε α) : Prop := ∀ e, x = .error e → E e

namespace Fails

theorem ok (a : α) : Fails E (.ok a) := fun _ he => nomatch he

theorem error {e : ε} (h : E e) : Fails E (.error e : Except ε α) :=
  fun _ he => Except.error.inj he ▸ h

theorem bind {x : Except ε α} {f : α → Except ε β} (hx : Fails E x) (hf : ∀ a, Fails E (f a)) :
    Fails E (x >>= f) := by
  intro e he
  cases x with
  | error e' => exact Except.error.inj he ▸ hx e' rfl
  | ok a => exact hf a e he

theorem ite {c : Prop} [Decidable c] {x y : Except ε α} (hx : Fails E x) (hy : Fails E y) :
    Fails E (if c then x else y) := by
  split
  · exact hx
  · exact hy

end Fails

end MbKeeper
