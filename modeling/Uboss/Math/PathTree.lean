import Mathlib.Data.List.Infix

/-!
# Trees with named branches

A path of keys leads to a place of the tree. A write at a path makes the nodes on the way to it.

## Main definitions

* `PathTree`, `PathForest` — a leaf or a node, and the children of a node
* `PathForest.find`, `PathForest.put` — what is at a path, and a write there
* `Apart` — no path is the beginning of the other
* `PathForest.Open` — no leaf is on the way to a path
* `PathForest.Passable` — every place on the way to a path is a node

## Main results

* `PathForest.find_put_self`, `PathForest.find_put_of_apart` — what a write changes
* `PathForest.Open.put` — a write at the end of a path closes no path apart from it
-/

namespace Uboss.Math

open Function List

variable {κ α : Type*}

/-- A leaf, or a node with children that have names. -/
inductive PathTree (κ α : Type*)
  | leaf (a : α)
  | node (children : κ → Option (PathTree κ α))

/-- The children of a node. -/
abbrev PathForest (κ α : Type*) := κ → Option (PathTree κ α)

/-- The children of what is at a place, none where there is no node. -/
def PathTree.children : Option (PathTree κ α) → PathForest κ α
  | some (.node children) => children
  | _ => fun _ => none

/-- No path is the beginning of the other. -/
def Apart (p q : List κ) : Prop := ¬ p <+: q ∧ ¬ q <+: p

theorem apart_cons_iff {p q : List κ} {k : κ} : Apart (k :: p) (k :: q) ↔ Apart p q := by
  simp [Apart, cons_prefix_cons]

/-- Paths that are equal or apart: none is a proper beginning of the other. -/
theorem apart_of_ne {p q : List κ} (hpq : p <+: q → p = q) (hqp : q <+: p → q = p) (hne : p ≠ q) :
    Apart p q :=
  ⟨fun h => hne (hpq h), fun h => hne (hqp h).symm⟩

namespace PathForest

variable {f : PathForest κ α} {k : κ} {p q : List κ}

/-- What is at the end of a path. -/
def find (f : PathForest κ α) : List κ → Option (PathTree κ α)
  | [] => none
  | [k] => f k
  | k :: k' :: ks => find (PathTree.children (f k)) (k' :: ks)

/-- A write at the end of a path. What is not a node on the way to it becomes one. -/
def put [DecidableEq κ] (f : PathForest κ α) : List κ → Option (PathTree κ α) → PathForest κ α
  | [], _ => f
  | [k], t => Function.update f k t
  | k :: k' :: ks, t =>
    Function.update f k (some (.node (put (PathTree.children (f k)) (k' :: ks) t)))

@[simp] theorem find_nil : find f [] = none := rfl

@[simp] theorem find_singleton : find f [k] = f k := rfl

theorem find_cons (hp : p ≠ []) : find f (k :: p) = find (PathTree.children (f k)) p := by
  cases p with
  | nil => exact absurd rfl hp
  | cons k' ks => rfl

@[simp] theorem find_empty : find (fun _ => none : PathForest κ α) p = none := by
  induction p with
  | nil => rfl
  | cons k p ih =>
    cases p with
    | nil => rfl
    | cons k' ks => exact ih

/-- No leaf is on the way to the end of a path. -/
def Open (f : PathForest κ α) (p : List κ) : Prop :=
  ∀ q a, q <+: p → q ≠ p → find f q ≠ some (.leaf a)

/-- Every place on the way to the end of a path is a node. -/
def Passable (f : PathForest κ α) (p : List κ) : Prop :=
  ∀ q, q ≠ [] → q <+: p → q ≠ p → ∃ g, find f q = some (.node g)

section Put

variable [DecidableEq κ] {t : Option (PathTree κ α)}

theorem put_cons (hp : p ≠ []) :
    put f (k :: p) t = update f k (some (.node (put (PathTree.children (f k)) p t))) := by
  cases p with
  | nil => exact absurd rfl hp
  | cons k' ks => rfl

/-- What was written is read. -/
theorem find_put_self (hp : p ≠ []) : find (put f p t) p = t := by
  induction p generalizing f with
  | nil => exact absurd rfl hp
  | cons k p ih =>
    by_cases hnil : p = []
    · subst hnil
      simp [put]
    · rw [put_cons hnil, find_cons hnil, update_self]
      exact ih hnil

/-- A write is not seen at a path that is apart from its own. -/
theorem find_put_of_apart (h : Apart p q) : find (put f p t) q = find f q := by
  induction p generalizing f q with
  | nil => exact absurd q.nil_prefix h.1
  | cons k p ih =>
    cases q with
    | nil => rfl
    | cons k' q =>
      by_cases hk : k' = k
      · subst hk
        have hpq : Apart p q := apart_cons_iff.mp h
        have hp : p ≠ [] := fun hnil => hpq.1 (hnil ▸ q.nil_prefix)
        have hq : q ≠ [] := fun hnil => hpq.2 (hnil ▸ p.nil_prefix)
        rw [put_cons hp, find_cons hq, find_cons hq, update_self]
        exact ih hpq
      · -- The first keys differ, and the write changes only what is below its own first key.
        have hput : put f (k :: p) t k' = f k' := by
          cases p with
          | nil => exact update_of_ne hk _ _
          | cons _ _ => exact update_of_ne hk _ _
        cases q with
        | nil => exact hput
        | cons k'' q =>
          have hfind : ∀ g : PathForest κ α,
              find g (k' :: k'' :: q) = find (PathTree.children (g k')) (k'' :: q) := fun _ => rfl
          rw [hfind, hfind, hput]

theorem passable_put : Passable (put f p t) p := by
  intro q hq hqp hne
  induction p generalizing f q with
  | nil => exact absurd (prefix_nil.mp hqp) hq
  | cons k p ih =>
    obtain ⟨k', q, rfl⟩ := exists_cons_of_ne_nil hq
    obtain ⟨rfl, htail⟩ := cons_prefix_cons.mp hqp
    have hqp' : q ≠ p := fun h => hne (h ▸ rfl)
    have hp : p ≠ [] := by
      rintro rfl
      exact hqp' (prefix_nil.mp htail)
    rw [put_cons hp]
    by_cases hnil : q = []
    · subst hnil
      exact ⟨_, update_self ..⟩
    · rw [find_cons hnil, update_self]
      exact ih q hnil htail hqp'

end Put

theorem open_empty : Open (fun _ => none : PathForest κ α) p := by
  intro q a _ _
  simp

theorem Passable.open (h : Passable f p) : Open f p := by
  intro q a hqp hne
  cases q with
  | nil => simp
  | cons k q =>
    obtain ⟨g, hg⟩ := h (k :: q) (by simp) hqp hne
    simp [hg]

/-- A write at the end of a path, or apart from it, leaves the path open. -/
theorem Open.put [DecidableEq κ] {t : Option (PathTree κ α)} (h : Open f q)
    (hpq : p <+: q → p = q) : Open (put f p t) q := by
  intro r a hrq hne
  by_cases hrp : r <+: p
  · -- On the way to the write there are nodes.
    by_cases heq : r = p
    · subst heq
      exact absurd (hpq hrq) hne
    · exact passable_put.open r a hrp heq
  · by_cases hpr : p <+: r
    · -- The write is on the way to the end of `q`, so it is there.
      have hp := hpq (hpr.trans hrq)
      subst hp
      exact absurd hrq hrp
    · rw [find_put_of_apart ⟨hpr, hrp⟩]
      exact h r a hrq hne

theorem Open.tail {ks : List κ} (h : Open f (k :: ks)) : Open (PathTree.children (f k)) ks := by
  intro q a hq hne
  cases q with
  | nil => simp
  | cons k' q =>
    have := h (k :: k' :: q) a (cons_prefix_cons.mpr ⟨rfl, hq⟩) (fun h => hne (by simpa using h))
    rwa [find_cons (by simp)] at this

theorem Passable.tail {ks : List κ} (h : Passable f (k :: ks)) :
    Passable (PathTree.children (f k)) ks := by
  intro q hnil hq hne
  have := h (k :: q) (by simp) (cons_prefix_cons.mpr ⟨rfl, hq⟩) (fun h => hne (by simpa using h))
  rwa [find_cons hnil] at this

end PathForest

end Uboss.Math
