import Mathlib.Data.List.Range
import Mathlib.Data.Nat.ModEq

/-!
# Ring buffers

A ring buffer is a block of `cap` cells with the positions of its first element and of its
first free cell. Its list is read off from the first element on, around the end of the block.
-/

namespace Uboss.Math

open List Nat

variable {α : Type*} {buf buf' : ℕ → α} {cap head tail n : ℕ}

/-- The number of elements of a ring that is not full. -/
def ringLength (cap head tail : ℕ) : ℕ :=
  if head ≤ tail then tail - head else tail + cap - head

/-- The position after `i`. -/
def ringNext (cap i : ℕ) : ℕ := if cap ≤ i + 1 then 0 else i + 1

/-- The `n` elements from position `head` on. -/
def ringList (buf : ℕ → α) (cap head n : ℕ) : List α :=
  (List.range n).map fun i => buf ((head + i) % cap)

@[simp] theorem length_ringList : (ringList buf cap head n).length = n := by
  simp [ringList]

theorem ringNext_lt (hpos : 0 < cap) : ringNext cap head < cap := by
  unfold ringNext
  split_ifs <;> omega

section

variable (hhead : head < cap)
include hhead

theorem ringNext_eq_mod : ringNext cap head = (head + 1) % cap := by
  unfold ringNext
  split_ifs with h
  · obtain rfl : cap = head + 1 := by omega
    simp
  · rw [mod_eq_of_lt (by omega)]

theorem ringLength_lt (htail : tail < cap) : ringLength cap head tail < cap := by
  unfold ringLength
  split_ifs <;> omega

theorem ringLength_eq_zero_iff : ringLength cap head tail = 0 ↔ head = tail := by
  unfold ringLength
  split_ifs <;> omega

/-- The end position, from the start and the number of elements. -/
theorem tail_eq_mod (htail : tail < cap) : tail = (head + ringLength cap head tail) % cap := by
  unfold ringLength
  split_ifs with h
  · rw [mod_eq_of_lt (by omega)]
    omega
  · rw [show head + (tail + cap - head) = tail + cap by omega, add_mod_right, mod_eq_of_lt htail]

/-- Moving the end on makes the ring longer by one, unless it meets the start. -/
theorem ringLength_next_tail (htail : tail < cap) (hne : head ≠ ringNext cap tail) :
    ringLength cap head (ringNext cap tail) = ringLength cap head tail + 1 := by
  unfold ringNext at hne ⊢
  unfold ringLength
  split_ifs at hne ⊢ <;> omega

end

theorem ringLength_of_full (htail : tail < cap) (heq : head = ringNext cap tail) :
    ringLength cap head tail + 1 = cap := by
  subst heq
  unfold ringLength ringNext
  split_ifs <;> omega

theorem ringLength_next_head (hhead : head < cap) (htail : tail < cap) (hne : head ≠ tail) :
    ringLength cap head tail = ringLength cap (ringNext cap head) tail + 1 := by
  unfold ringLength ringNext
  split_ifs <;> omega

theorem add_mod_injective {i j : ℕ} (hi : i < cap) (hj : j < cap)
    (h : (head + i) % cap = (head + j) % cap) : i = j := by
  have := Nat.ModEq.add_left_cancel' head h
  rwa [Nat.ModEq, mod_eq_of_lt hi, mod_eq_of_lt hj] at this

/-- Writing the first free cell appends an element. -/
theorem ringList_push (buf : ℕ → α) (head : ℕ) (x : α) (hn : n < cap) :
    ringList (Function.update buf ((head + n) % cap) x) cap head (n + 1) =
      ringList buf cap head n ++ [x] := by
  unfold ringList
  rw [range_succ, map_append]
  congr 1
  · refine map_congr_left fun i hi => ?_
    have hlt := mem_range.mp hi
    refine Function.update_of_ne (fun h => ?_) _ _
    have := add_mod_injective (by omega) hn h
    omega
  · simp

/-- The first element and the rest. -/
theorem ringList_pop (hhead : head < cap) :
    ringList buf cap head (n + 1) = buf head :: ringList buf cap (ringNext cap head) n := by
  unfold ringList
  rw [range_succ_eq_map, map_cons, map_map]
  congr 1
  · simp [mod_eq_of_lt hhead]
  · refine map_congr_left fun i _ => ?_
    rw [ringNext_eq_mod hhead, mod_add_mod]
    simp only [Function.comp, succ_eq_add_one]
    congr 2
    omega

/-- Copying the elements to the front of a block with room for them. -/
theorem ringList_unroll {cap' : ℕ} (hn : n ≤ cap')
    (hcopy : ∀ i < n, buf' i = buf ((head + i) % cap)) :
    ringList buf' cap' 0 n = ringList buf cap head n := by
  refine map_congr_left fun i hi => ?_
  have hlt := mem_range.mp hi
  rw [Nat.zero_add, mod_eq_of_lt (by omega), hcopy i hlt]

theorem ringList_getElem? {i : ℕ} (hi : i < n) :
    (ringList buf cap head n)[i]? = some (buf ((head + i) % cap)) := by
  rw [ringList, getElem?_map, getElem?_range hi]
  rfl

end Uboss.Math
