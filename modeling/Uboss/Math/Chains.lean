import Mathlib.Algebra.Order.Ring.Nat
import Mathlib.Algebra.BigOperators.Group.List.Basic

/-!
# Hash tables with chains

A hash table is a family of chains. An entry is looked for in the chain of its key: it is the first
one that the key matches. New entries are put in front.
-/

namespace Uboss.Math

open Function List Option

variable {ε : Type*} {p q : ε → Bool} {f : ε → ε} {l : List ε}

/-- Apply `f` to the first element that `p` holds for. -/
def modifyFirst (p : ε → Bool) (f : ε → ε) : List ε → List ε
  | [] => []
  | x :: l => if p x then f x :: l else x :: modifyFirst p f l

theorem find?_modifyFirst_self (h : ∀ x, p x → p (f x)) :
    (modifyFirst p f l).find? p = (l.find? p).map f := by
  induction l with
  | nil => rfl
  | cons x l ih =>
    rw [modifyFirst]
    by_cases hx : p x
    · rw [if_pos hx, find?_cons_of_pos (h x hx), find?_cons_of_pos hx, map_some]
    · rw [if_neg hx, find?_cons_of_neg hx, find?_cons_of_neg hx, ih]

theorem find?_modifyFirst_of_disjoint (hp : ∀ x, p x → ¬ q x) (hf : ∀ x, p x → ¬ q (f x)) :
    (modifyFirst p f l).find? q = l.find? q := by
  induction l with
  | nil => rfl
  | cons x l ih =>
    rw [modifyFirst]
    by_cases hx : p x
    · rw [if_pos hx, find?_cons_of_neg (hf x hx), find?_cons_of_neg (hp x hx)]
    · rw [if_neg hx, find?_cons, find?_cons, ih]

theorem mem_modifyFirst {y : ε} (h : y ∈ modifyFirst p f l) :
    y ∈ l ∨ ∃ x, l.find? p = some x ∧ y = f x := by
  induction l with
  | nil => cases h
  | cons x l ih =>
    rw [modifyFirst] at h
    by_cases hx : p x
    · rw [if_pos hx] at h
      rcases mem_cons.mp h with rfl | hy
      · exact .inr ⟨x, find?_cons_of_pos hx, rfl⟩
      · exact .inl (mem_cons_of_mem x hy)
    · rw [if_neg hx] at h
      rw [find?_cons_of_neg hx]
      rcases mem_cons.mp h with rfl | hy
      · exact .inl mem_cons_self
      · exact (ih hy).imp_left (mem_cons_of_mem x)

theorem sum_modifyFirst {x : ε} (g : ε → ℕ) (h : l.find? p = some x) :
    ((modifyFirst p f l).map g).sum + g x = (l.map g).sum + g (f x) := by
  induction l with
  | nil => cases h
  | cons y l ih =>
    rw [modifyFirst]
    by_cases hy : p y
    · rw [find?_cons_of_pos hy] at h
      obtain rfl := some_inj.mp h
      rw [if_pos hy, map_cons, map_cons, sum_cons, sum_cons]
      omega
    · rw [find?_cons_of_neg hy] at h
      have := ih h
      rw [if_neg hy, map_cons, map_cons, sum_cons, sum_cons]
      omega

/-- Apply `f` to the first element that `p` holds for, or to a new one. -/
def upsertFirst (p : ε → Bool) (f : ε → ε) (e : ε) (l : List ε) : List ε :=
  match l.find? p with
  | some _ => modifyFirst p f l
  | none => f e :: l

theorem find?_upsertFirst_self {e : ε} (h : ∀ x, p x → p (f x)) (he : p e) :
    (upsertFirst p f e l).find? p = some (f ((l.find? p).getD e)) := by
  unfold upsertFirst
  split
  next x hx =>
    rw [find?_modifyFirst_self h, hx]
    rfl
  next hx =>
    rw [find?_cons_of_pos (h e he), hx]
    rfl

theorem find?_upsertFirst_of_disjoint {e : ε} (hp : ∀ x, p x → ¬ q x) (hf : ∀ x, p x → p (f x))
    (he : p e) : (upsertFirst p f e l).find? q = l.find? q := by
  unfold upsertFirst
  split
  · exact find?_modifyFirst_of_disjoint hp fun x hx => hp (f x) (hf x hx)
  · exact find?_cons_of_neg (hp _ (hf e he))

theorem mem_upsertFirst {e x : ε} (h : x ∈ upsertFirst p f e l) :
    x ∈ l ∨ x = f ((l.find? p).getD e) := by
  unfold upsertFirst at h
  split at h
  next y hy =>
    rcases mem_modifyFirst h with hx | ⟨z, hz, rfl⟩
    · exact .inl hx
    · rw [hz]
      exact .inr rfl
  next hy =>
    rw [hy]
    exact (mem_cons.mp h).symm

theorem sum_upsertFirst {e : ε} (g : ε → ℕ) (he : g e = 0) :
    ((upsertFirst p f e l).map g).sum + g ((l.find? p).getD e) =
      (l.map g).sum + g (f ((l.find? p).getD e)) := by
  unfold upsertFirst
  split
  next x hx =>
    rw [hx]
    exact sum_modifyFirst g hx
  next hx =>
    rw [hx, getD_none, map_cons, sum_cons, he]
    omega

theorem find?_eraseP_of_disjoint (hp : ∀ x, p x → ¬ q x) : (l.eraseP p).find? q = l.find? q := by
  induction l with
  | nil => rfl
  | cons x l ih =>
    by_cases hx : p x
    · rw [eraseP_cons_of_pos hx, find?_cons_of_neg (hp x hx)]
    · rw [eraseP_cons_of_neg hx, find?_cons, find?_cons, ih]

theorem find?_eraseP_self (h : (l.filter p).length ≤ 1) : (l.eraseP p).find? p = none := by
  induction l with
  | nil => rfl
  | cons x l ih =>
    by_cases hx : p x
    · rw [filter_cons_of_pos hx, length_cons] at h
      have hnil : l.filter p = [] := length_eq_zero_iff.mp (by omega)
      rw [eraseP_cons_of_pos hx, find?_eq_none]
      exact filter_eq_nil_iff.mp hnil
    · rw [filter_cons_of_neg hx] at h
      rw [eraseP_cons_of_neg hx, find?_cons_of_neg hx, ih h]

namespace Chains

variable {κ β : Type*} [DecidableEq β] {bucket : κ → β} {hit : κ → ε → Bool} {t : β → List ε}
  {k k' : κ} {e : ε}

section Operations

variable (bucket : κ → β) (hit : κ → ε → Bool) (t : β → List ε) (k : κ)

/-- The first entry in the chain of the key that the key matches. -/
def find : Option ε := (t (bucket k)).find? (hit k)

/-- Put an entry in front of the chain of the key. -/
def push (e : ε) : β → List ε := Function.update t (bucket k) (e :: t (bucket k))

/-- Take the entry of the key out of its chain. -/
def unlink : β → List ε := Function.update t (bucket k) ((t (bucket k)).eraseP (hit k))

/-- Change the entry of the key, or a new one. -/
def upsert (f : ε → ε) (e : ε) : β → List ε :=
  Function.update t (bucket k) (upsertFirst (hit k) f e (t (bucket k)))

end Operations

/-- An entry that is put in is found first. -/
theorem find_push (he : hit k e) : find bucket hit (push bucket t k e) k = some e := by
  rw [find, push, update_self, find?_cons_of_pos he]

theorem find_push_of_ne (he : ¬ hit k' e) :
    find bucket hit (push bucket t k e) k' = find bucket hit t k' := by
  rw [find, push, find]
  by_cases hb : bucket k' = bucket k
  · rw [hb, update_self, find?_cons_of_neg he]
  · rw [update_of_ne hb]

/-- The entry that was changed or made is found. -/
theorem find_upsert_self {f : ε → ε} (hf : ∀ x, hit k x → hit k (f x)) (he : hit k e) :
    find bucket hit (upsert bucket hit t k f e) k = some (f ((find bucket hit t k).getD e)) := by
  rw [find, upsert, update_self, find?_upsertFirst_self hf he, find]

/-- A change to the entry of a key is not seen by the others. -/
theorem find_upsert_of_ne {f : ε → ε} (hne : ∀ x, hit k x → ¬ hit k' x)
    (hf : ∀ x, hit k x → hit k (f x)) (he : hit k e) :
    find bucket hit (upsert bucket hit t k f e) k' = find bucket hit t k' := by
  rw [find, upsert, find]
  by_cases hb : bucket k' = bucket k
  · rw [hb, update_self, find?_upsertFirst_of_disjoint hne hf he]
  · rw [update_of_ne hb]

theorem mem_upsert {f : ε → ε} {b : β} {x : ε} (h : x ∈ upsert bucket hit t k f e b) :
    x ∈ t b ∨ x = f ((find bucket hit t k).getD e) := by
  rw [upsert] at h
  by_cases hb : b = bucket k
  · rw [hb, update_self] at h
    rw [hb]
    exact mem_upsertFirst h
  · rw [update_of_ne hb] at h
    exact .inl h

theorem find_unlink_of_ne (hne : ∀ x, hit k x → ¬ hit k' x) :
    find bucket hit (unlink bucket hit t k) k' = find bucket hit t k' := by
  rw [find, unlink, find]
  by_cases hb : bucket k' = bucket k
  · rw [hb, update_self, find?_eraseP_of_disjoint hne]
  · rw [update_of_ne hb]

/-- A key has at most one entry. -/
def Single (bucket : κ → β) (hit : κ → ε → Bool) (t : β → List ε) : Prop :=
  ∀ k, ((t (bucket k)).filter (hit k)).length ≤ 1

variable (hsingle : Single bucket hit t)
include hsingle

/-- An entry that is taken out is not found. -/
theorem find_unlink_self : find bucket hit (unlink bucket hit t k) k = none := by
  rw [find, unlink, update_self]
  exact find?_eraseP_self (hsingle k)

theorem Single.unlink (k : κ) : Single bucket hit (unlink bucket hit t k) := by
  intro k'
  rw [Chains.unlink]
  by_cases hb : bucket k' = bucket k
  · rw [hb, update_self, ← hb]
    exact Nat.le_trans (eraseP_sublist.filter (hit k')).length_le (hsingle k')
  · rw [update_of_ne hb]
    exact hsingle k'

/-- An entry is put in if its key has none. -/
theorem Single.push (hfind : find bucket hit t k = none) (hhit : ∀ k', hit k' e → k' = k) :
    Single bucket hit (push bucket t k e) := by
  intro k'
  rw [Chains.push]
  by_cases hb : bucket k' = bucket k
  · rw [hb, update_self]
    by_cases he : hit k' e
    · obtain rfl := hhit k' he
      have hnil : (t (bucket k')).filter (hit k') = [] :=
        filter_eq_nil_iff.mpr (find?_eq_none.mp hfind)
      rw [filter_cons_of_pos he, hnil]
      exact Nat.le_refl 1
    · rw [filter_cons_of_neg he, ← hb]
      exact hsingle k'
  · rw [update_of_ne hb]
    exact hsingle k'

end Chains

end Uboss.Math
