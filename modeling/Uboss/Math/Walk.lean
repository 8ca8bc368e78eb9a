import Mathlib.Data.Set.Finite.Basic

/-!
# Walks that may not end

A partial function is followed from a point as long as it has a value. If only finitely many points
have one, a walk ends exactly when it does not come to a point twice.
-/

namespace Uboss.Math

open Option

variable {α : Type*}

/-- The point after `n` steps from `a`. -/
def walk (follow : α → Option α) : ℕ → α → Option α
  | 0, a => some a
  | n + 1, a => (follow a).bind (walk follow n)

/-- The walk from `a` ends. -/
def Ends (follow : α → Option α) (a : α) : Prop := ∃ n, walk follow n a = none

/-- The walk from `a` does not come to a point twice. -/
def NoRevisit (follow : α → Option α) (a : α) : Prop :=
  ∀ i j b, walk follow i a = some b → walk follow j a = some b → i = j

variable {follow : α → Option α} {a b c : α} {m n : ℕ}

theorem walk_succ_of_some (h : follow a = some b) : walk follow (n + 1) a = walk follow n b := by
  rw [walk, h, bind_some]

theorem walk_succ_of_none (h : follow a = none) : walk follow (n + 1) a = none := by
  rw [walk, h, bind_none]

theorem walk_add (h : walk follow m a = some b) (n : ℕ) :
    walk follow (m + n) a = walk follow n b := by
  induction m generalizing a with
  | zero =>
    obtain rfl := some.inj h
    rw [Nat.zero_add]
  | succ m ih =>
    obtain ⟨c, hc, hrest⟩ := bind_eq_some_iff.mp h
    rw [Nat.add_right_comm, walk_succ_of_some hc, ih hrest]

theorem walk_eq_none_of_le (h : walk follow m a = none) (hle : m ≤ n) : walk follow n a = none := by
  cases hn : walk follow n a with
  | none => rfl
  | some b =>
    induction m generalizing a n with
    | zero => cases h
    | succ m ih =>
      obtain ⟨n, rfl⟩ : ∃ n', n = n' + 1 := ⟨n - 1, by omega⟩
      obtain ⟨c, hc, hrest⟩ := bind_eq_some_iff.mp hn
      rw [walk_succ_of_some hc] at h
      exact absurd (ih h (Nat.le_of_succ_le_succ hle) hrest) (by simp)

theorem walk_end_unique (hb : walk follow m a = some b) (hbend : follow b = none)
    (hc : walk follow n a = some c) (hcend : follow c = none) : m = n ∧ b = c := by
  have hle : ∀ {m n b c}, walk follow m a = some b → follow b = none →
      walk follow n a = some c → n ≤ m := by
    intro m n b c hb hbend hc
    by_contra hlt
    have hend : walk follow (m + 1) a = none := (walk_add hb 1).trans (walk_succ_of_none hbend)
    rw [walk_eq_none_of_le hend (not_le.mp hlt)] at hc
    cases hc
  obtain rfl := le_antisymm (hle hc hcend hb) (hle hb hbend hc)
  exact ⟨rfl, some.inj (hb.symm.trans hc)⟩

theorem ends_of_none (h : follow a = none) : Ends follow a := ⟨1, walk_succ_of_none h⟩

theorem ends_iff_of_some (h : follow a = some b) : Ends follow a ↔ Ends follow b := by
  constructor
  · rintro ⟨n, hn⟩
    cases n with
    | zero => cases hn
    | succ n =>
      rw [walk_succ_of_some h] at hn
      exact ⟨n, hn⟩
  · rintro ⟨n, hn⟩
    exact ⟨n + 1, (walk_succ_of_some h).trans hn⟩

/-- What holds where the function has no value, and before any point at which it holds, holds
wherever a walk that ends has started. -/
theorem Ends.induct {P : α → Prop} (h : Ends follow a) (hnone : ∀ a, follow a = none → P a)
    (hsome : ∀ a b, follow a = some b → P b → P a) : P a := by
  obtain ⟨n, hn⟩ := h
  induction n generalizing a with
  | zero => cases hn
  | succ n ih =>
    cases hfollow : follow a with
    | none => exact hnone a hfollow
    | some b =>
      rw [walk_succ_of_some hfollow] at hn
      exact hsome a b hfollow (ih hn)

/-- A walk that comes back is at the same points again and again. -/
theorem Ends.noRevisit (h : Ends follow a) : NoRevisit follow a := by
  intro i j b hi hj
  by_contra hne
  wlog hlt : i < j generalizing i j
  · exact this j i hj hi (Ne.symm hne) (by omega)
  obtain ⟨n, hn⟩ := h
  -- after each round trip the walk is where it was before it
  have hback : ∀ k, walk follow (i + k * (j - i)) a = some b := by
    intro k
    induction k with
    | zero => rwa [Nat.zero_mul, Nat.add_zero]
    | succ k ih =>
      have htrip : walk follow (j - i) b = some b := by
        have := walk_add hi (j - i)
        rwa [Nat.add_sub_cancel' hlt.le, hj, eq_comm] at this
      rw [Nat.succ_mul, ← Nat.add_assoc, walk_add ih, htrip]
  have hfar : n ≤ i + n * (j - i) := by
    have := Nat.le_mul_of_pos_right n (Nat.sub_pos_of_lt hlt)
    omega
  have hend := walk_eq_none_of_le hn hfar
  rw [hback n] at hend
  cases hend

/-- By the pigeonhole principle: an endless walk would be at infinitely many points. -/
theorem ends_iff_noRevisit {s : Finset α} (hs : ∀ a b, follow a = some b → a ∈ s) :
    Ends follow a ↔ NoRevisit follow a := by
  refine ⟨Ends.noRevisit, fun h => ?_⟩
  by_contra hendless
  have hsome : ∀ n, ∃ b, walk follow n a = some b := by
    intro n
    cases hn : walk follow n a with
    | none => exact absurd ⟨n, hn⟩ hendless
    | some b => exact ⟨b, rfl⟩
  choose f hf using hsome
  have hmem : ∀ n, f n ∈ s := by
    intro n
    have hnext := walk_add (hf n) 1
    rw [hf (n + 1)] at hnext
    obtain ⟨c, hc, -⟩ := bind_eq_some_iff.mp hnext.symm
    exact hs _ c hc
  have hinj : Function.Injective f := fun i j hij => h i j (f i) (hf i) (hij ▸ hf j)
  exact Set.infinite_of_injective_forall_mem hinj hmem s.finite_toSet

end Uboss.Math
