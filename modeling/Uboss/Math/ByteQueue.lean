import Mathlib.Data.List.Infix

/-!
# Queues that are read in pieces

Chunks are put at the end of a queue, and pieces are taken from its front: a number of elements, a
line up to a separator, or all there is.
-/

namespace Uboss.Math

open List Nat

variable {α : Type*} [DecidableEq α]

/-- The first position at which the separator occurs. -/
def occurrence (sep : List α) : List α → Option ℕ
  | [] => none
  | x :: q => if sep.isPrefixOf (x :: q) then some 0 else (occurrence sep q).map (· + 1)

/-- The operations of a queue. A line may be looked for only. -/
inductive QueueOp (α : Type*)
  | push (chunk : List α)
  | pop (n : ℕ)
  | line (check : Bool) (sep : List α)
  | all
  | clear

/-- What an operation of the queue returns. -/
inductive QueueResult (α : Type*)
  | size (n : ℤ)
  /-- The elements, unless there are too few, and how many are left. -/
  | popped (piece : Option (List α)) (size : ℤ)
  | line (piece : List α)
  | found
  | nothing
  | all (piece : List α)
  | done
  deriving DecidableEq, Repr

/-- What an operation makes of a queue. -/
def QueueOp.apply (q : List α) : QueueOp α → QueueResult α × List α
  | .push chunk => (.size (q ++ chunk).length, q ++ chunk)
  | .pop n =>
    if 0 < n ∧ n ≤ q.length then (.popped (some (q.take n)) (q.drop n).length, q.drop n)
    else (.popped none q.length, q)
  | .line check sep =>
    match occurrence sep q with
    | none => (.nothing, q)
    | some p => if check then (.found, q) else (.line (q.take p), q.drop (p + sep.length))
  | .all => (.all q, [])
  | .clear => (.done, [])

/-- The results of operations on queues, and the queues afterwards. -/
def answers (queues : ℕ → List α) : List (ℕ × QueueOp α) → List (QueueResult α) × (ℕ → List α)
  | [] => ([], queues)
  | (id, op) :: w =>
    let r := op.apply (queues id)
    let rest := answers (Function.update queues id r.2) w
    (r.1 :: rest.1, rest.2)

/-! ### Occurrences -/

variable {sep q : List α} {p : ℕ}

theorem occurrence_of_starts (hsep : sep ≠ []) (h : sep <+: q) : occurrence sep q = some 0 := by
  cases q with
  | nil => exact absurd (prefix_nil.mp h) hsep
  | cons x q => exact if_pos (List.isPrefixOf_iff_prefix.mpr h)

theorem occurrence_cons_of_not_starts {x : α} (h : ¬ sep <+: x :: q) :
    occurrence sep (x :: q) = (occurrence sep q).map (· + 1) :=
  if_neg fun hstarts => h (List.isPrefixOf_iff_prefix.mp hstarts)

theorem occurrence_of_length_lt (h : q.length < sep.length) : occurrence sep q = none := by
  induction q with
  | nil => rfl
  | cons x q ih =>
    have hnot : ¬ sep <+: x :: q := fun hstarts => absurd hstarts.length_le (Nat.not_le.mpr h)
    rw [occurrence_cons_of_not_starts hnot, ih (lt_of_succ_lt h)]
    rfl

/-- By induction on the queue: an occurrence is the first of its tails that starts with the
separator. -/
theorem occurrence_eq_some_iff (hsep : sep ≠ []) :
    occurrence sep q = some p ↔ sep <+: q.drop p ∧ ∀ p' < p, ¬ sep <+: q.drop p' := by
  induction q generalizing p with
  | nil =>
    refine iff_of_false (fun h => by cases h) fun h => ?_
    rw [drop_nil] at h
    exact hsep (prefix_nil.mp h.1)
  | cons x q ih =>
    by_cases hstarts : sep <+: x :: q
    · rw [occurrence_of_starts hsep hstarts]
      constructor
      · intro h
        obtain rfl := Option.some.inj h
        exact ⟨hstarts, fun p' hp' => absurd hp' (Nat.not_lt_zero p')⟩
      · rintro ⟨-, hfirst⟩
        cases p with
        | zero => rfl
        | succ p => exact absurd hstarts (hfirst 0 (succ_pos p))
    · rw [occurrence_cons_of_not_starts hstarts, Option.map_eq_some_iff]
      constructor
      · rintro ⟨p, hp, rfl⟩
        obtain ⟨hat, hfirst⟩ := ih.mp hp
        refine ⟨hat, fun p' hp' => ?_⟩
        cases p' with
        | zero => exact hstarts
        | succ p' => exact hfirst p' (lt_of_succ_lt_succ hp')
      · rintro ⟨hat, hfirst⟩
        cases p with
        | zero => exact absurd hat hstarts
        | succ p =>
          refine ⟨p, ih.mpr ⟨hat, fun p' hp' => ?_⟩, rfl⟩
          exact hfirst (p' + 1) (succ_lt_succ hp')

/-- A separator is found behind elements of which none is its first. -/
theorem occurrence_of_not_mem {x : α} {l : List α} (h : x ∉ l) (sep q : List α) :
    occurrence (x :: sep) (l ++ x :: sep ++ q) = some l.length := by
  induction l with
  | nil => exact occurrence_of_starts (cons_ne_nil x sep) (prefix_append _ q)
  | cons y l ih =>
    obtain ⟨hne, hnot⟩ := not_or.mp (mt mem_cons.mpr h)
    rw [cons_append, cons_append, occurrence_cons_of_not_starts fun hstarts =>
      hne (cons_prefix_cons.mp hstarts).1, ih hnot]
    rfl

/-- Where a separator stands, one is found, if not an earlier one. -/
theorem exists_occurrence (hsep : sep ≠ []) (h : sep <+: q.drop p) :
    ∃ p' ≤ p, occurrence sep q = some p' := by
  induction q generalizing p with
  | nil =>
    rw [drop_nil] at h
    exact absurd (prefix_nil.mp h) hsep
  | cons x q ih =>
    by_cases hstarts : sep <+: x :: q
    · exact ⟨0, Nat.zero_le p, occurrence_of_starts hsep hstarts⟩
    · cases p with
      | zero => exact absurd h hstarts
      | succ p =>
        obtain ⟨p', hle, hp'⟩ := ih h
        refine ⟨p' + 1, succ_le_succ hle, ?_⟩
        rw [occurrence_cons_of_not_starts hstarts, hp']
        rfl

/-- By induction on how much is skipped: nothing is missed where the separator does not occur. -/
theorem occurrence_drop {k : ℕ} (hk : k ≤ q.length) (hnot : ∀ p < k, ¬ sep <+: q.drop p) :
    (occurrence sep (q.drop k)).map (· + k) = occurrence sep q := by
  induction k generalizing q with
  | zero =>
    change (occurrence sep q).map id = _
    rw [Option.map_id, id]
  | succ k ih =>
    cases q with
    | nil => exact absurd hk (not_succ_le_zero k)
    | cons x q =>
      rw [occurrence_cons_of_not_starts (hnot 0 (succ_pos k)), drop_succ_cons,
        ← ih (le_of_succ_le_succ hk) fun p hp => hnot (p + 1) (succ_lt_succ hp),
        Option.map_map]
      rfl

/-- A separator occurs in the front of a queue if it ends there. -/
theorem occurrence_take (hsep : sep ≠ []) {n : ℕ} : occurrence sep (q.take n) = some p ↔
    occurrence sep q = some p ∧ p + sep.length ≤ n := by
  have hpos : 0 < sep.length := length_pos_of_ne_nil hsep
  have hstarts : ∀ p', sep <+: (q.take n).drop p' ↔ sep <+: q.drop p' ∧ p' + sep.length ≤ n := by
    intro p'
    rw [drop_take, prefix_take_iff]
    exact and_congr_right fun _ => by omega
  simp only [occurrence_eq_some_iff hsep, hstarts]
  constructor
  · rintro ⟨⟨hat, hend⟩, hfirst⟩
    exact ⟨⟨hat, fun p' hp' hat' => hfirst p' hp' ⟨hat', by omega⟩⟩, hend⟩
  · rintro ⟨⟨hat, hfirst⟩, hend⟩
    exact ⟨⟨hat, hend⟩, fun p' hp' hat' => hfirst p' hp' hat'.1⟩

theorem occurrence_append (hsep : sep ≠ []) (h : occurrence sep q = some p) (r : List α) :
    occurrence sep (q ++ r) = some p := by
  have hfront : occurrence sep ((q ++ r).take q.length) = some p := by rwa [take_left]
  exact ((occurrence_take hsep).mp hfront).1

theorem length_le_of_occurrence (hsep : sep ≠ []) (h : occurrence sep q = some p) :
    p + sep.length ≤ q.length := by
  have hstarts := ((occurrence_eq_some_iff hsep).mp h).1
  have hle := hstarts.length_le
  have hpos : 0 < sep.length := length_pos_of_ne_nil hsep
  rw [length_drop] at hle
  omega

end Uboss.Math
