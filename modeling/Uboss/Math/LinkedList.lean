import Mathlib.Data.List.Nodup

/-!
# Singly linked lists with a tail pointer

The cells are named by elements of a type, and `next` is the link field of every cell. A
list is kept by a pointer to its first and one to its last cell; the link of the last cell,
and of every cell outside the list, is null.
-/

namespace Uboss.Math

open Function List

variable {ι : Type*} {next : ι → Option ι} {head tail : Option ι}
  {a b : ι} {l : List ι}

/-- Following the links from a pointer visits the cells of the list and ends in null. -/
def Chain (next : ι → Option ι) : Option ι → List ι → Prop
  | p, [] => p = none
  | p, a :: l => p = some a ∧ Chain next (next a) l

/-- The list between two pointers. -/
structure Linked (next : ι → Option ι) (head tail : Option ι) (l : List ι) : Prop where
  chain : Chain next head l
  tail_eq : tail = l.getLast?
  next_eq_none : ∀ a, a ∉ l → next a = none

theorem linked_nil : Linked (fun _ : ι => none) none none [] := ⟨rfl, rfl, fun _ _ => rfl⟩

theorem chain_congr {next' : ι → Option ι} {p : Option ι} (hsame : ∀ a ∈ l, next' a = next a)
    (h : Chain next p l) : Chain next' p l := by
  induction l generalizing p with
  | nil => exact h
  | cons a l ih =>
    obtain ⟨ha, hl⟩ := forall_mem_cons.mp hsame
    refine ⟨h.1, ?_⟩
    rw [ha]
    exact ih hl h.2

theorem chain_suffix {p : Option ι} {l' : List ι} (h : Chain next p (l ++ a :: l')) :
    Chain next (some a) (a :: l') := by
  induction l generalizing p with
  | nil => exact ⟨rfl, h.2⟩
  | cons b l ih => exact ih h.2

theorem Linked.tail_of_next_none (h : Linked next head tail (a :: l)) (hnone : next a = none) :
    tail = some a := by
  have hchain := h.chain.2
  rw [hnone] at hchain
  cases l with
  | nil => exact h.tail_eq
  | cons b l => cases hchain.1

/-- The first cell of an empty list. -/
theorem Linked.push_nil (h : Linked next head tail []) : Linked next (some a) (some a) [a] where
  chain := ⟨rfl, h.next_eq_none a not_mem_nil⟩
  tail_eq := rfl
  next_eq_none b _ := h.next_eq_none b not_mem_nil

variable [DecidableEq ι]

theorem chain_update_of_notMem {p : Option ι} {v : Option ι} (ha : a ∉ l)
    (h : Chain next p l) : Chain (update next a v) p l := by
  induction l generalizing p with
  | nil => exact h
  | cons b l ih =>
    obtain ⟨hp, hrest⟩ := h
    rw [mem_cons, not_or] at ha
    refine ⟨hp, ?_⟩
    rw [update_of_ne (Ne.symm ha.1)]
    exact ih ha.2 hrest

theorem chain_concat {p : Option ι} (hnodup : (l ++ [b]).Nodup) (ha : next a = none)
    (hab : a ≠ b) (h : Chain next p (l ++ [b])) :
    Chain (update next b (some a)) p (l ++ [b, a]) := by
  induction l generalizing p with
  | nil =>
    obtain ⟨hp, -⟩ := h
    refine ⟨hp, update_self .., ?_⟩
    change update next b (some a) a = none
    rw [update_of_ne hab, ha]
  | cons c l ih =>
    obtain ⟨hp, hrest⟩ := h
    obtain ⟨hc, hnodup⟩ := nodup_cons.mp hnodup
    have hcb : c ≠ b := by
      rintro rfl
      exact hc (by simp)
    refine ⟨hp, ?_⟩
    rw [update_of_ne hcb]
    exact ih hnodup hrest

/-- Linking a new cell behind the last one. -/
theorem Linked.push_concat (h : Linked next head tail (l ++ [b])) (hnodup : (l ++ [b]).Nodup)
    (ha : a ∉ l ++ [b]) : Linked (update next b (some a)) head (some a)
      (l ++ [b] ++ [a]) where
  chain := by
    rw [append_assoc]
    refine chain_concat hnodup (h.next_eq_none a ha) ?_ h.chain
    rintro rfl
    simp at ha
  tail_eq := by simp
  next_eq_none c hc := by
    rw [mem_append, not_or] at hc
    rw [update_of_ne, h.next_eq_none c hc.1]
    rintro rfl
    simp at hc

/-- The cell behind a cell is taken out. -/
theorem chain_unlink {p : Option ι} {l' : List ι} (hnodup : (l ++ a :: b :: l').Nodup)
    (h : Chain next p (l ++ a :: b :: l')) :
    Chain (update (update next a (next b)) b none) p (l ++ a :: l') := by
  induction l generalizing p with
  | nil =>
    obtain ⟨hp, -, hrest⟩ := h
    obtain ⟨ha, hnodup⟩ := nodup_cons.mp hnodup
    obtain ⟨hb, -⟩ := nodup_cons.mp hnodup
    rw [mem_cons, not_or] at ha
    refine ⟨hp, ?_⟩
    rw [update_of_ne ha.1, update_self]
    exact chain_update_of_notMem hb (chain_update_of_notMem ha.2 hrest)
  | cons c l ih =>
    obtain ⟨hp, hrest⟩ := h
    obtain ⟨hc, hnodup⟩ := nodup_cons.mp hnodup
    have hca : c ≠ a := by
      rintro rfl
      exact hc (by simp)
    have hcb : c ≠ b := by
      rintro rfl
      exact hc (by simp)
    refine ⟨hp, ?_⟩
    rw [update_of_ne hcb, update_of_ne hca]
    exact ih hnodup hrest

/-- Unlinking the first cell. -/
theorem Linked.pop (h : Linked next head tail (a :: l)) (ha : a ∉ l) :
    Linked (update next a none) (next a) (if next a = none then none else tail) l where
  chain := chain_update_of_notMem ha h.chain.2
  tail_eq := by
    have hchain := h.chain.2
    rw [h.tail_eq]
    cases l with
    | nil => exact if_pos hchain
    | cons b l =>
      rw [if_neg (by simp [hchain.1]), getLast?_cons_cons]
  next_eq_none b hb := by
    by_cases hba : b = a
    · rw [hba, update_self]
    · rw [update_of_ne hba]
      exact h.next_eq_none b (by simp [hba, hb])

end Uboss.Math
