import Mathlib.Logic.Function.Basic

/-!
# Refinement of a specification by a system of steps

A system refines a deterministic specification when an invariant goes along with
its steps and a map of its states takes every step to the step of the
specification. The runs of such a system end where the specification says, so
two systems that refine one specification agree after the same labels.

`Deed` is a specification of this kind: an archive that keeps what was first put
under a key until the key is dropped.
-/
namespace Refinement

variable {σ σ' τ ι : Type*}

/-- The states that steps with the labels of the list lead to. -/
inductive Run (step : σ → ι → σ → Prop) : σ → List ι → σ → Prop where
  | done (s : σ) : Run step s [] s
  | more {s t u : σ} {i : ι} {is : List ι} (h : step s i t) (rest : Run step t is u) :
      Run step s (i :: is) u

structure Refines (step : σ → ι → σ → Prop) (spec : τ → ι → τ) (inv : σ → Prop) (abs : σ → τ) :
    Prop where
  keeps : ∀ s i t, step s i t → inv s → inv t
  follows : ∀ s i t, step s i t → inv s → abs t = spec (abs s) i

namespace Refines

variable {step : σ → ι → σ → Prop} {step' : σ' → ι → σ' → Prop} {spec : τ → ι → τ}
  {inv : σ → Prop} {inv' : σ' → Prop} {abs : σ → τ} {abs' : σ' → τ}

/-- A run keeps the invariant and ends where the specification says. -/
theorem run (h : Refines step spec inv abs) {s t : σ} {is : List ι} (hrun : Run step s is t)
    (hs : inv s) : inv t ∧ abs t = is.foldl spec (abs s) := by
  induction hrun with
  | done s => exact ⟨hs, rfl⟩
  | more hstep rest ih =>
    obtain ⟨hinv, habs⟩ := ih (h.keeps _ _ _ hstep hs)
    rw [h.follows _ _ _ hstep hs] at habs
    exact ⟨hinv, habs⟩

/-- Systems that refine one specification agree after the same labels. -/
theorem agree (h : Refines step spec inv abs) (h' : Refines step' spec inv' abs') {s t : σ}
    {s' t' : σ'} {is : List ι} (hrun : Run step s is t) (hrun' : Run step' s' is t') (hs : inv s)
    (hs' : inv' s') (hstart : abs s = abs' s') : abs t = abs' t' := by
  rw [(h.run hrun hs).2, (h'.run hrun' hs').2, hstart]

end Refines

variable {α β : Type*}

inductive Deed (α β : Type*) where
  | put (a : α) (b : β)
  | drop (a : α)

namespace Deed

def key : Deed α β → α
  | put a _ | drop a => a

/-- What becomes of what is kept under the key of the deed. -/
def onKey : Deed α β → Option β → Option β
  | put _ b, o => some (o.getD b)
  | drop _, _ => none

variable [DecidableEq α]

/-- What is kept under each key after the deed. -/
def apply (m : α → Option β) (d : Deed α β) : α → Option β :=
  Function.update m d.key (d.onKey (m d.key))

theorem apply_of_ne (m : α → Option β) (d : Deed α β) {a : α} (h : a ≠ d.key) :
    d.apply m a = m a := Function.update_of_ne h _ _

theorem apply_key (m : α → Option β) (d : Deed α β) :
    d.apply m d.key = d.onKey (m d.key) := Function.update_self _ _ _

/-- Each key has a history of its own. -/
theorem foldl_apply (ds : List (Deed α β)) (m : α → Option β) (a : α) :
    ds.foldl (fun m d => d.apply m) m a =
      (ds.filter (fun d => d.key = a)).foldl (fun o d => d.onKey o) (m a) := by
  induction ds generalizing m with
  | nil => rfl
  | cons d ds ih =>
    rw [List.foldl_cons, ih]
    by_cases hd : d.key = a
    · subst hd
      rw [List.filter_cons_of_pos (by simp), List.foldl_cons, apply_key]
    · rw [List.filter_cons_of_neg (by simpa using hd), apply_of_ne m d (Ne.symm hd)]

end Deed

end Refinement
