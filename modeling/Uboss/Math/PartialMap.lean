import Mathlib.Tactic.Common

/-!
# Partial maps

Memory as a function to `Option`, where `none` is what is not allocated.
-/

namespace Uboss.Math

variable {ι β : Type*} [DecidableEq ι] {f : ι → Option β} {a b : ι} {v : Option β} {y : β}

/-- What is found after a write was written, or was there before. -/
theorem update_eq_some_iff :
    Function.update f a v b = some y ↔ b = a ∧ v = some y ∨ b ≠ a ∧ f b = some y := by
  by_cases hb : b = a
  · subst hb
    simp
  · simp [hb]

theorem update_some_eq_some_iff {x : β} :
    Function.update f a (some x) b = some y ↔ b = a ∧ x = y ∨ b ≠ a ∧ f b = some y := by
  rw [update_eq_some_iff, Option.some_inj]

theorem update_none_eq_some_iff : Function.update f a none b = some y ↔ b ≠ a ∧ f b = some y := by
  simp [update_eq_some_iff]

end Uboss.Math
