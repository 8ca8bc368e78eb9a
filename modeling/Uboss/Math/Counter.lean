import Mathlib.Data.Int.ModEq
import Mathlib.Data.List.Iterate
import Mathlib.Data.List.Nodup
import Mathlib.Data.List.Perm.Subperm

/-!
# Counters that start again

A state has a number that is one larger in the next state, up to a bound where it starts again.
-/

namespace Uboss.Math

open List Nat

/-- A counter of the numbers below `m`. A state whose number is larger may only come first. -/
structure Counter (α : Type*) (m : ℕ) where
  next : α → α
  value : α → ℕ
  value_next (a : α) : value (next a) = (value a + 1) % m

namespace Counter

variable {α : Type*} {m d n : ℕ} (c : Counter α m) {a : α}

/-- The state after `n` steps. -/
def after (a : α) (n : ℕ) : α := c.next^[n] a

/-- The states after the first `n` steps, in order. -/
def draw (a : α) (n : ℕ) : List α := List.iterate c.next (c.next a) n

@[simp] theorem length_draw (a : α) (n : ℕ) : (c.draw a n).length = n := length_iterate ..

@[simp] theorem draw_zero (a : α) : c.draw a 0 = [] := rfl

theorem draw_succ (a : α) (n : ℕ) : c.draw a (n + 1) = c.next a :: c.draw (c.next a) n := rfl

theorem after_succ (a : α) (n : ℕ) : c.after a (n + 1) = c.after (c.next a) n := rfl

theorem after_succ' (a : α) (n : ℕ) : c.after a (n + 1) = c.next (c.after a n) :=
  Function.iterate_succ_apply' ..

theorem draw_add (a : α) (k n : ℕ) : c.draw a (k + n) = c.draw a k ++ c.draw (c.after a k) n := by
  induction k generalizing a with
  | zero => rw [Nat.zero_add]; rfl
  | succ k ih =>
    rw [Nat.add_right_comm, draw_succ, draw_succ, ih]
    rfl

theorem draw_eq_map (a : α) (n : ℕ) : c.draw a n = (List.range n).map fun k => c.after a (k + 1) :=
  (range_map_iterate n c.next (c.next a)).symm

/-- The first of the states that has a property. -/
theorem exists_first (p : α → Prop) (a : α) (n : ℕ) : (∀ b ∈ c.draw a n, ¬ p b) ∨
      ∃ k < n, (∀ b ∈ c.draw a k, ¬ p b) ∧ p (c.after a (k + 1)) := by
  induction n generalizing a with
  | zero => exact .inl fun b hb => absurd hb not_mem_nil
  | succ n ih =>
    by_cases hnext : p (c.next a)
    · exact .inr ⟨0, n.succ_pos, fun b hb => absurd hb not_mem_nil, hnext⟩
    obtain hnone | ⟨k, hk, hbefore, hfirst⟩ := ih (c.next a)
    · exact .inl (forall_mem_cons.mpr ⟨hnext, hnone⟩)
    · exact .inr ⟨k + 1, by omega, forall_mem_cons.mpr ⟨hnext, hbefore⟩, hfirst⟩

theorem value_after (a : α) (k : ℕ) : c.value (c.after a (k + 1)) = (c.value a + (k + 1)) % m := by
  induction k generalizing a with
  | zero => exact c.value_next a
  | succ k ih =>
    rw [after_succ, ih, value_next, mod_add_mod, Nat.add_assoc, Nat.add_comm 1]

/-- The residues of the numbers are different, as long as there are enough residues. -/
theorem nodup_map_draw (hd : d ∣ m) (hn : n ≤ d) (a : α) :
    ((c.draw a n).map fun b => c.value b % d).Nodup := by
  rw [draw_eq_map, map_map]
  refine List.Nodup.map_on (fun i hi j hj h => ?_) nodup_range
  rw [mem_range] at hi hj
  simp only [Function.comp_apply, value_after, mod_mod_of_dvd _ hd] at h
  have hmod : i ≡ j [MOD d] :=
    Nat.ModEq.add_right_cancel' 1 (Nat.ModEq.add_left_cancel' (c.value a) h)
  exact hmod.eq_of_lt_of_lt (by omega) (by omega)

/-- Every residue is met. -/
theorem exists_mem_draw (hd : d ∣ m) {s : ℕ} (hs : s < d) (a : α) :
    ∃ b ∈ c.draw a d, c.value b % d = s := by
  have hsub : ((c.draw a d).map fun b => c.value b % d) ⊆ List.range d := by
    intro r hr
    obtain ⟨b, -, rfl⟩ := mem_map.mp hr
    exact mem_range.mpr (mod_lt _ (by omega))
  have hperm := (subperm_of_subset (c.nodup_map_draw hd le_rfl a) hsub).perm_of_length_le
    (by rw [length_range, length_map, length_draw])
  exact mem_map.mp (hperm.mem_iff.mpr (mem_range.mpr hs))

theorem nodup_draw (hn : n ≤ m) (a : α) : (c.draw a n).Nodup :=
  (c.nodup_map_draw dvd_rfl hn a).of_map

/-- States that follow each other are different, as long as there are enough numbers. -/
theorem nodup_of_infix {w : List α} (hw : w <:+: c.draw a n) (hlength : w.length ≤ m) :
    w.Nodup := by
  obtain ⟨pre, post, hsplit⟩ := hw
  have hn : pre.length + w.length + post.length = n := by
    rw [← length_append, ← length_append, hsplit, length_draw]
  rw [← hn, draw_add, draw_add] at hsplit
  have hfirst := (append_inj hsplit (by simp)).1
  rw [(append_inj hfirst (by simp)).2]
  exact c.nodup_draw hlength _

end Counter

end Uboss.Math
