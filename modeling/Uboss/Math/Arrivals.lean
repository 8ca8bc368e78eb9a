import Mathlib.Algebra.Order.Ring.Int
import Mathlib.Data.List.Basic

/-!
# Streams that arrive in pieces

A stream is delivered in pieces. A reader takes the next piece, whatever it is, or a given number of
elements, for which it waits as long as they have not all arrived.
-/

namespace Uboss.Math

open List Prod Option

variable {α : Type*}

/-- A stream in pieces of which none is empty. -/
def Whole (pieces : List (List α)) : Prop := ∀ p ∈ pieces, p ≠ []

/-- The first `n` elements of a stream, and the stream behind them. -/
def takeExactly (n : ℕ) : List (List α) → Option (List α × List (List α))
  | [] => if n = 0 then some ([], []) else none
  | p :: ps =>
    if n < p.length then some (p.take n, p.drop n :: ps)
    else (takeExactly (n - p.length) ps).map fun r => (p ++ r.1, r.2)

/-- How many elements have arrived with the piece that brings the `n`-th one. -/
def arrived : ℕ → List (List α) → ℕ
  | _, [] => 0
  | n, p :: ps => if n ≤ p.length then p.length else p.length + arrived (n - p.length) ps

variable {pieces qs rest later : List (List α)} {p x : List α} {n m : ℕ}

@[simp] theorem whole_nil : Whole ([] : List (List α)) := fun _ hp => absurd hp not_mem_nil

@[simp] theorem whole_cons : Whole (p :: pieces) ↔ p ≠ [] ∧ Whole pieces := forall_mem_cons

theorem Whole.eq_nil (h : Whole pieces) (hflat : pieces.flatten = []) : pieces = [] := by
  cases pieces with
  | nil => rfl
  | cons p ps =>
    rw [flatten_cons, append_eq_nil_iff] at hflat
    exact absurd hflat.1 (whole_cons.mp h).1

/-! ### Elements in a given number -/

theorem takeExactly_of_lt (h : n < p.length) :
    takeExactly n (p :: pieces) = some (p.take n, p.drop n :: pieces) := if_pos h

theorem takeExactly_of_le (h : p.length ≤ n) : takeExactly n (p :: pieces) =
    (takeExactly (n - p.length) pieces).map fun r => (p ++ r.1, r.2) := if_neg (Nat.not_lt.mpr h)

/-- By induction on the pieces: what is taken has the length that was asked for, and the rest of the
stream is left. -/
theorem takeExactly_spec (h : takeExactly n pieces = some (x, rest)) :
    x.length = n ∧ pieces.flatten = x ++ rest.flatten ∧ (Whole pieces → Whole rest) := by
  induction pieces generalizing n x with
  | nil =>
    rw [takeExactly, ite_none_right_eq_some] at h
    obtain ⟨rfl, hpair⟩ := h
    obtain ⟨rfl, rfl⟩ := mk.inj (some.inj hpair)
    exact ⟨rfl, rfl, id⟩
  | cons p ps ih =>
    rcases Nat.lt_or_ge n p.length with hlt | hle
    · rw [takeExactly_of_lt hlt] at h
      obtain ⟨rfl, rfl⟩ := mk.inj (some.inj h)
      refine ⟨length_take_of_le hlt.le, ?_, fun hwhole => ?_⟩
      · rw [flatten_cons, flatten_cons, ← append_assoc, take_append_drop]
      · refine whole_cons.mpr ⟨?_, (whole_cons.mp hwhole).2⟩
        exact ne_nil_of_length_pos (by rw [length_drop]; omega)
    · rw [takeExactly_of_le hle, map_eq_some_iff] at h
      obtain ⟨⟨y, rest'⟩, htake, hpair⟩ := h
      obtain ⟨rfl, rfl⟩ := mk.inj hpair
      obtain ⟨hlength, hflat, hrest⟩ := ih htake
      refine ⟨?_, ?_, fun hwhole => hrest (whole_cons.mp hwhole).2⟩
      · rw [length_append, hlength]
        omega
      · rw [flatten_cons, hflat, append_assoc]

/-- Elements that have arrived, or will, are there to be taken. Nothing of what comes later is. -/
theorem takeExactly_append (hqs : Whole qs) (hlater : Whole later) (hn : n ≤ qs.flatten.length) :
    ∃ x rest, takeExactly n (qs ++ later) = some (x, rest ++ later) ∧ x.length = n ∧
      qs.flatten = x ++ rest.flatten ∧ Whole rest := by
  induction qs generalizing n with
  | nil =>
    obtain rfl : n = 0 := Nat.le_zero.mp hn
    refine ⟨[], [], ?_, rfl, rfl, whole_nil⟩
    cases later with
    | nil => rfl
    | cons p ps =>
      have hpos : 0 < p.length := length_pos_of_ne_nil (whole_cons.mp hlater).1
      exact takeExactly_of_lt hpos
  | cons p ps ih =>
    obtain ⟨hp, hps⟩ := whole_cons.mp hqs
    rw [cons_append]
    rcases Nat.lt_or_ge n p.length with hlt | hle
    · refine ⟨p.take n, p.drop n :: ps, takeExactly_of_lt hlt, length_take_of_le hlt.le, ?_,
        whole_cons.mpr ⟨ne_nil_of_length_pos (by rw [length_drop]; omega), hps⟩⟩
      rw [flatten_cons, flatten_cons, ← append_assoc, take_append_drop]
    · rw [flatten_cons, length_append] at hn
      obtain ⟨x, rest, htake, hlength, hflat, hrest⟩ := ih hps (show n - p.length ≤ _ by omega)
      refine ⟨p ++ x, rest, ?_, ?_, ?_, hrest⟩
      · rw [takeExactly_of_le hle, htake]
        rfl
      · rw [length_append, hlength]
        omega
      · rw [flatten_cons, hflat, append_assoc]

/-- A reader that waits for more than there is gets nothing. -/
theorem takeExactly_eq_none_iff : takeExactly n pieces = none ↔ pieces.flatten.length < n := by
  induction pieces generalizing n with
  | nil =>
    rw [takeExactly, flatten_nil, length_nil, Nat.pos_iff_ne_zero]
    by_cases hn : n = 0
    · exact iff_of_false (by simp [hn]) (not_not_intro hn)
    · exact iff_of_true (if_neg hn) hn
  | cons p ps ih =>
    rw [flatten_cons, length_append]
    rcases Nat.lt_or_ge n p.length with hlt | hle
    · rw [takeExactly_of_lt hlt]
      exact iff_of_false (by simp) (by omega)
    · rw [takeExactly_of_le hle, map_eq_none_iff, ih]
      omega

/-- The pieces are cut by their lengths alone. -/
theorem takeExactly_map {β : Type*} (f : α → β) (n : ℕ) (pieces : List (List α)) :
    takeExactly n (pieces.map (List.map f)) =
      (takeExactly n pieces).map fun r => (r.1.map f, r.2.map (List.map f)) := by
  induction pieces generalizing n with
  | nil =>
    rw [map_nil, takeExactly, takeExactly]
    split <;> rfl
  | cons p ps ih =>
    rw [map_cons]
    rcases Nat.lt_or_ge n p.length with hlt | hle
    · rw [takeExactly_of_lt hlt, takeExactly_of_lt (by rwa [length_map]), map_some,
        map_take, map_cons, map_drop]
    · rw [takeExactly_of_le hle, takeExactly_of_le (by rwa [length_map]), length_map, ih,
        Option.map_map, Option.map_map]
      refine congrArg (Option.map · _) (funext fun r => ?_)
      exact congrArg (·, _) map_append.symm

/-! ### How many have arrived -/

theorem length_le_arrived (n : ℕ) (p : List α) (pieces : List (List α)) :
    p.length ≤ arrived n (p :: pieces) := by
  rw [arrived]
  split
  · exact le_rfl
  · exact Nat.le_add_right _ _

/-- Enough elements have arrived. -/
theorem le_arrived (h : n ≤ pieces.flatten.length) : n ≤ arrived n pieces := by
  induction pieces generalizing n with
  | nil => exact h
  | cons p ps ih =>
    rw [flatten_cons, length_append] at h
    rw [arrived]
    split
    · assumption
    · have := ih (show n - p.length ≤ ps.flatten.length by omega)
      omega

end Uboss.Math
