import Mathlib.Data.List.Basic

/-!
# Blocks of memory

The memory is the list of all blocks that were ever allocated, a freed one being `none`, so that an
address is never given out twice.
-/

namespace Uboss.Math

open List

variable {α : Type*}

/-- A memory of blocks of type `α`. -/
abbrev Blocks (α : Type*) := List (Option α)

/-- The block is allocated. -/
def Allocated (h : Blocks α) (b : ℕ) : Prop := ∃ x, h[b]? = some (some x)

/-- The block was freed. -/
def Freed (h : Blocks α) (b : ℕ) : Prop := h[b]? = some none

/-- The number of blocks with the property `p`. -/
def countBlocks (p : α → Bool) (h : Blocks α) : ℕ := h.countP fun x => x.any p

variable {h : Blocks α} {p : α → Bool} {b b' : ℕ} {x y : α}

theorem not_freed_of_allocated (hb : Allocated h b) : ¬ Freed h b := by
  rintro hfree
  obtain ⟨x, hx⟩ := hb
  rw [Freed, hx] at hfree
  cases hfree

theorem lt_of_getElem? (hb : h[b]? = some (some x)) : b < h.length :=
  (List.getElem?_eq_some_iff.mp hb).1

theorem getElem?_malloc : (h ++ [some x])[h.length]? = some (some x) := by
  rw [getElem?_concat_length]

theorem getElem?_malloc_of_lt (hb : b < h.length) : (h ++ [some x])[b]? = h[b]? :=
  getElem?_append_left hb

theorem countBlocks_malloc :
    countBlocks p (h ++ [some x]) = countBlocks p h + if p x then 1 else 0 := by
  rw [countBlocks, countP_append, countP_singleton]
  rfl

/-- A block is written. -/
theorem countBlocks_set (hb : h[b]? = some (some x)) (v : Option α) :
    countBlocks p (h.set b v) + (if p x then 1 else 0) =
      countBlocks p h + if v.any p then 1 else 0 := by
  obtain ⟨hlt, hget⟩ := List.getElem?_eq_some_iff.mp hb
  rw [countBlocks, countBlocks, countP_set hlt, hget]
  have hpos : p x = true → 0 < h.countP fun x => x.any p := fun hx =>
    countP_pos_iff.mpr ⟨some x, mem_of_getElem? hb, hx⟩
  cases hx : p x with
  | true =>
    have := hpos hx
    simp [hx]
    omega
  | false => simp [hx]

theorem countBlocks_free (hb : h[b]? = some (some x)) :
    countBlocks p (h.set b none) + (if p x then 1 else 0) = countBlocks p h :=
  countBlocks_set hb none

end Uboss.Math
