import Mathlib.Data.List.Nodup
import Mathlib.Logic.Relation

/-!
# Relays

A relay takes messages and passes them on. It holds them as long as it waits, passes on what it
holds when it is opened, and everything else at once from then on. Not every message can be passed
on. When the relay goes down it may lose messages, and pass on some of those that come later.
-/

namespace Uboss.Math

open List

/-- The phases of a relay. -/
inductive Phase
  | waiting
  | opened
  | down
  deriving DecidableEq

/-- A relay, with the messages that it has taken and those that it has passed on. -/
@[ext]
structure Relay (μ : Type*) where
  phase : Phase
  held : List μ
  taken : List μ
  passed : List μ

namespace Relay

variable {μ : Type*} {fits : μ → Bool} {r r' : Relay μ}

/-- A step of a relay that can pass on the messages that fit. -/
inductive Step (fits : μ → Bool) (r : Relay μ) : Relay μ → Prop
  | hold {m : μ} :
      r.phase = .waiting → m ∉ r.taken →
      Step fits r { r with held := r.held ++ [m], taken := r.taken ++ [m] }
  | openUp :
      r.phase = .waiting →
      Step fits r { r with phase := .opened, held := [], passed := r.passed ++ r.held.filter fits }
  | pass {m : μ} :
      r.phase = .opened → m ∉ r.taken →
      Step fits r { r with taken := r.taken ++ [m], passed := r.passed ++ [m].filter fits }
  | goDown : Step fits r { r with phase := .down, held := [] }
  | late {m : μ} {l : List μ} :
      r.phase = .down → m ∉ r.taken → l.Sublist [m] →
      Step fits r { r with taken := r.taken ++ [m], passed := r.passed ++ l }

/-- Any number of steps. -/
abbrev Steps (fits : μ → Bool) : Relay μ → Relay μ → Prop := Relation.ReflTransGen (Step fits)

/-- What a relay has done. -/
structure InOrder (fits : μ → Bool) (r : Relay μ) : Prop where
  nodup : r.taken.Nodup
  /-- Nothing overtakes. -/
  sublist : r.passed.Sublist r.taken
  waiting : r.phase = .waiting → r.passed = [] ∧ r.held = r.taken
  opened : r.phase = .opened → r.passed = r.taken.filter fits

theorem inOrder_empty : InOrder fits ⟨.waiting, [], [], []⟩ where
  nodup := nodup_nil
  sublist := List.Sublist.refl []
  waiting _ := ⟨rfl, rfl⟩
  opened hphase := by cases hphase

theorem InOrder.step (hr : InOrder fits r) (hstep : Step fits r r') : InOrder fits r' := by
  have hconcat : ∀ {m}, m ∉ r.taken → (r.taken ++ [m]).Nodup := by
    intro m hnew
    rw [← concat_eq_append]
    exact hr.nodup.concat hnew
  cases hstep with
  | hold hphase hnew =>
    obtain ⟨hpassed, hheld⟩ := hr.waiting hphase
    exact
      { nodup := hconcat hnew
        sublist := hr.sublist.trans (sublist_append_left _ _)
        waiting := fun _ => ⟨hpassed, congrArg (· ++ _) hheld⟩
        opened := fun h => by rw [hphase] at h; cases h }
  | openUp hphase =>
    obtain ⟨hpassed, hheld⟩ := hr.waiting hphase
    have hall : r.passed ++ r.held.filter fits = r.taken.filter fits := by
      rw [hpassed, hheld, nil_append]
    exact
      { nodup := hr.nodup
        sublist := hall ▸ filter_sublist
        waiting := fun h => by cases h
        opened := fun _ => hall }
  | @pass m hphase hnew =>
    have hall : r.passed ++ [m].filter fits = (r.taken ++ [m]).filter fits := by
      rw [filter_append, hr.opened hphase]
    exact
      { nodup := hconcat hnew
        sublist := hall ▸ filter_sublist
        waiting := fun h => by rw [hphase] at h; cases h
        opened := fun _ => hall }
  | goDown =>
    exact
      { nodup := hr.nodup
        sublist := hr.sublist
        waiting := fun h => by cases h
        opened := fun h => by cases h }
  | late hphase hnew hl =>
    exact
      { nodup := hconcat hnew
        sublist := hr.sublist.append hl
        waiting := fun h => by rw [hphase] at h; cases h
        opened := fun h => by rw [hphase] at h; cases h }

/-- In a run nothing overtakes, nothing is passed on twice, and nothing is lost while the relay is
open. -/
theorem InOrder.steps (hr : InOrder fits r) (hsteps : Steps fits r r') : InOrder fits r' := by
  induction hsteps with
  | refl => exact hr
  | tail _ hstep ih => exact ih.step hstep

end Relay

end Uboss.Math
