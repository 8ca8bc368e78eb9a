import Mathlib.Data.List.Range

/-!
# Counting loops

Rules for the two shapes a C loop `for (i = 0; i < n; i++)` takes in a functional model: a
search that returns at the first hit, and an accumulation whose body may fail.
-/

namespace Uboss.Math

open List

/-- A searching loop returns the result at the first index that has one. -/
theorem findSome?_range_eq_some_iff {β : Type*} {f : ℕ → Option β} {n : ℕ} {b : β} :
    (range n).findSome? f = some b ↔ ∃ i < n, f i = some b ∧ ∀ j < i, f j = none := by
  induction n with
  | zero => simp
  | succ n ih =>
    rw [range_succ, findSome?_append, Option.or_eq_some_iff, ih, findSome?_eq_none_iff]
    simp only [mem_range, findSome?_singleton]
    constructor
    · rintro (⟨i, hi, hfound, hbefore⟩ | ⟨hbefore, hfound⟩)
      · exact ⟨i, by omega, hfound, hbefore⟩
      · exact ⟨n, by omega, hfound, hbefore⟩
    · rintro ⟨i, hi, hfound, hbefore⟩
      rcases Nat.lt_succ_iff_lt_or_eq.mp hi with hlt | rfl
      · exact .inl ⟨i, hlt, hfound, hbefore⟩
      · exact .inr ⟨hbefore, hfound⟩

/-- A failing loop body that succeeds under the loop invariant `P` and advances it makes
the whole loop succeed and establish `P` at the bound. -/
theorem foldlM_range_ok {ε β : Type*} {f : β → ℕ → Except ε β} {P : ℕ → β → Prop} {n : ℕ}
    {b : β} (hinit : P 0 b)
    (hbody : ∀ i < n, ∀ b, P i b → ∃ b', f b i = .ok b' ∧ P (i + 1) b') :
    ∃ b', (range n).foldlM f b = .ok b' ∧ P n b' := by
  induction n with
  | zero => exact ⟨b, rfl, hinit⟩
  | succ n ih =>
    obtain ⟨b₁, hloop, hP⟩ := ih fun i hi => hbody i (by omega)
    obtain ⟨b₂, hlast, hP'⟩ := hbody n (by omega) b₁ hP
    refine ⟨b₂, ?_, hP'⟩
    rw [range_succ, foldlM_append, hloop]
    change (f b₁ n >>= pure) = _
    rw [hlast]
    rfl

/-- The rule for a loop `for i in 0 .. n` that is known to have succeeded. -/
theorem foldlM_range_inv {ε β : Type*} {f : β → ℕ → Except ε β} {P : ℕ → β → Prop} {n : ℕ}
    {b r : β} (hok : (range n).foldlM f b = .ok r) (hinit : P 0 b)
    (hstep : ∀ i < n, ∀ x y, P i x → f x i = .ok y → P (i + 1) y) : P n r := by
  induction n generalizing r with
  | zero =>
    obtain rfl : b = r := by simpa [pure, Except.pure] using hok
    exact hinit
  | succ n ih =>
    rw [range_succ, foldlM_append] at hok
    cases hpre : (range n).foldlM f b with
    | error e => simp [hpre, bind, Except.bind] at hok
    | ok x =>
      have hx := ih hpre fun i hi => hstep i (by omega)
      refine hstep n (by omega) x r hx ?_
      rw [hpre] at hok
      change (f x n >>= pure) = _ at hok
      rwa [bind_pure] at hok

end Uboss.Math
