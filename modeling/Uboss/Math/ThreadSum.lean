import Mathlib.Algebra.Order.BigOperators.Group.Finset

/-!
# Sums over threads

What a number of threads hold together, when one of them changes its state.
-/

namespace Uboss.Math

open Finset

variable {τ π : Type*} [Fintype τ] [DecidableEq τ]

/-- The change of a sum is the change of the one thread that moved. -/
theorem sum_update_add (f : π → ℕ) (pc : τ → π) (t : τ) (p : π) :
    (∑ u, f (Function.update pc t p u)) + f (pc t) = (∑ u, f (pc u)) + f p := by
  have hrest : ∑ u ∈ Finset.univ.erase t, f (Function.update pc t p u) =
      ∑ u ∈ Finset.univ.erase t, f (pc u) :=
    sum_congr rfl fun u hu => by rw [Function.update_of_ne (ne_of_mem_erase hu)]
  rw [← add_sum_erase _ _ (mem_univ t), hrest, Function.update_self,
    ← add_sum_erase _ (fun u => f (pc u)) (mem_univ t)]
  omega

omit [DecidableEq τ] in
theorem le_sum_thread (f : π → ℕ) (pc : τ → π) (t : τ) : f (pc t) ≤ ∑ u, f (pc u) :=
  single_le_sum (f := fun u => f (pc u)) (fun _ _ => Nat.zero_le _) (mem_univ t)

theorem add_le_sum_thread (f : π → ℕ) (pc : τ → π) {t u : τ} (h : t ≠ u) :
    f (pc t) + f (pc u) ≤ ∑ v, f (pc v) := by
  rw [← add_sum_erase _ _ (mem_univ t)]
  refine Nat.add_le_add_left ?_ _
  exact single_le_sum (f := fun v => f (pc v)) (fun _ _ => Nat.zero_le _)
    (mem_erase.mpr ⟨h.symm, mem_univ u⟩)

end Uboss.Math
