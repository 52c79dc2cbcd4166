import MbKeeper.Config

/-!
# How reading the configuration can fail

`load_config` promises a `ConfigError` on any problem. Validation goes on after
each error, so later steps work on values already known to be wrong: a message
quotes such a value, and `tuple` is applied to options nobody checked. `Readable`
says which documents come through all of them.
-/
namespace MbKeeper

/-- The computation returns exactly when `c` holds, and otherwise raises something that is
no `ConfigError`. -/
structure Answers {α : Type} (c : Prop) (x : Except Exn α) : Prop where
  returns : c → ∃ a, x = .ok a
  raises : ¬ c → ∃ e, x = .error e ∧ ∀ m, e ≠ .config m

namespace Answers

variable {α β : Type} {c c' : Prop} {x : Except Exn α}

theorem of_ok (h : ∃ a, x = .ok a) : Answers True x :=
  ⟨fun _ => h, fun h' => absurd trivial h'⟩

theorem pure (a : α) : Answers True (.ok a : Except Exn α) := of_ok ⟨a, rfl⟩

theorem congr (h : Answers c x) (hc : c ↔ c') : Answers c' x :=
  ⟨fun h' => h.returns (hc.mpr h'), fun h' => h.raises (fun hc' => h' (hc.mp hc'))⟩

/-- Two steps, the second of which answers alike whatever the first one returned. -/
theorem bind {f : α → Except Exn β} (hx : Answers c x) (hf : ∀ a, Answers c' (f a)) :
    Answers (c ∧ c') (x >>= f) := by
  constructor
  · rintro ⟨hc, hc'⟩
    obtain ⟨a, rfl⟩ := hx.returns hc
    exact (hf a).returns hc'
  · intro h
    by_cases hc : c
    · obtain ⟨a, rfl⟩ := hx.returns hc
      exact (hf a).raises (fun hc' => h ⟨hc, hc'⟩)
    · obtain ⟨e, rfl, he⟩ := hx.raises hc
      exact ⟨e, rfl, he⟩

end Answers

end MbKeeper
