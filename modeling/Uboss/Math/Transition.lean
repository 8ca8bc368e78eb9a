import Mathlib.Tactic.Common

/-!
# Guarded runs of a partial step function

A transition system is given by a partial step function `σ → α → Option σ`: an action
that is not enabled, or that would fail an assertion of the program, has no successor.
A guard restricts which actions a run may take in which states, so that "every run whose
steps all meet a condition" and "every run" are instances of one notion.

## Main definitions

* `Run` — the runs of a step function whose steps all satisfy a guard
* `Reachable` — reachability by unguarded runs
* `exec` — the executable counterpart, for concrete action lists

## Main results

* `Run.invariant` — the induction rule for state properties
* `run_of_exec`, `run_of_exec_guarded` — an evaluated action list is a run
* `map_eq_ok_iff`, `bind_eq_ok_iff`, `toOption_eq_some_iff` — for step functions that are given by
  `Except`
-/

namespace Uboss.Math

open Option

variable {σ α : Type*} {step : σ → α → Option σ} {guard : σ → α → Prop}

variable {P : σ → Prop} {w : List α}

/-- `Run step guard s w t`: from `s` the actions `w` lead to `t`, and every action was
allowed by `guard` in the state in which it was taken. -/
inductive Run (step : σ → α → Option σ) (guard : σ → α → Prop) : σ → List α → σ → Prop
  | nil (s : σ) : Run step guard s [] s
  | snoc {s t u : σ} {w : List α} {a : α} :
      Run step guard s w t → guard t a → step t a = some u → Run step guard s (w ++ [a]) u

/-- The guard that allows everything. -/
def anyAction : σ → α → Prop := fun _ _ => True

/-- `t` is reachable from `s` by some run. -/
def Reachable (step : σ → α → Option σ) (s t : σ) : Prop := ∃ w, Run step anyAction s w t

/-- A property of the initial state that every allowed step preserves holds at the end of
every run. -/
theorem Run.invariant {s t : σ} (hrun : Run step guard s w t) (hinit : P s)
    (hstep : ∀ {s a t}, guard s a → step s a = some t → P s → P t) : P t := by
  induction hrun with
  | nil => exact hinit
  | snoc _ hguard hnext ih => exact hstep hguard hnext ih

theorem Reachable.invariant {s t : σ} (hreach : Reachable step s t) (hinit : P s)
    (hstep : ∀ {s a t}, step s a = some t → P s → P t) : P t := by
  obtain ⟨w, hrun⟩ := hreach
  exact hrun.invariant hinit fun _ hnext => hstep hnext

theorem Reachable.refl (s : σ) : Reachable step s s := ⟨[], .nil s⟩

theorem Reachable.tail {s t u : σ} {a : α} (hreach : Reachable step s t)
    (hnext : step t a = some u) : Reachable step s u := by
  obtain ⟨w, hrun⟩ := hreach
  exact ⟨w ++ [a], hrun.snoc trivial hnext⟩

theorem Run.append {s t u : σ} {v w : List α} (hleft : Run step guard s v t)
    (hright : Run step guard t w u) : Run step guard s (v ++ w) u := by
  induction hright with
  | nil => simpa using hleft
  | snoc _ hguard hnext ih =>
    rw [← List.append_assoc]
    exact ih.snoc hguard hnext

theorem Run.mono {guard' : σ → α → Prop} {s t : σ} (hrun : Run step guard s w t)
    (h : ∀ s a, guard s a → guard' s a) : Run step guard' s w t := by
  induction hrun with
  | nil => exact .nil s
  | snoc _ hguard hnext ih => exact ih.snoc (h _ _ hguard) hnext

theorem Run.reachable {s t : σ} (hrun : Run step guard s w t) :
    Reachable step s t := by
  induction hrun with
  | nil => exact Reachable.refl s
  | snoc _ _ hnext ih => exact ih.tail hnext

/-- Run a list of actions. -/
def exec (step : σ → α → Option σ) : σ → List α → Option σ
  | s, [] => some s
  | s, a :: w => (step s a).bind fun t => exec step t w

theorem exec_append (s : σ) (v w : List α) :
    exec step s (v ++ w) = (exec step s v).bind fun t => exec step t w := by
  induction v generalizing s with
  | nil => rfl
  | cons a v ih =>
    rw [List.cons_append, exec, exec, bind_assoc]
    exact congrArg _ (funext ih)

/-- The step function cut down to the actions that a decidable guard allows. -/
def guarded (step : σ → α → Option σ) (guard : σ → α → Prop)
    [∀ s a, Decidable (guard s a)] (s : σ) (a : α) : Option σ :=
  if guard s a then step s a else none

theorem run_of_exec_guarded [∀ s a, Decidable (guard s a)] {s t : σ}
    (h : exec (guarded step guard) s w = some t) : Run step guard s w t := by
  induction w generalizing s with
  | nil =>
    obtain rfl := some_inj.mp h
    exact .nil _
  | cons a w ih =>
    obtain ⟨u, hu, hrest⟩ := bind_eq_some_iff.mp h
    unfold guarded at hu
    split_ifs at hu with hguard
    exact (Run.nil s).snoc hguard hu |>.append (ih hrest)

/-- A list of actions that was evaluated is a run. -/
theorem run_of_exec {s t : σ} (h : exec step s w = some t) :
    Run step anyAction s w t := by
  induction w generalizing s with
  | nil =>
    obtain rfl := some_inj.mp h
    exact .nil _
  | cons a w ih =>
    obtain ⟨u, hu, hrest⟩ := bind_eq_some_iff.mp h
    exact (Run.nil s).snoc trivial hu |>.append (ih hrest)

theorem Run.exec_eq {s t : σ} (hrun : Run step guard s w t) : exec step s w = some t := by
  induction hrun with
  | nil => rfl
  | snoc _ _ hnext ih =>
    rw [exec_append, ih, bind_some, exec, hnext]
    rfl

theorem reachable_of_exec {s t : σ} (h : exec step s w = some t) :
    Reachable step s t :=
  ⟨w, run_of_exec h⟩

section Except

variable {ε β : Type*} {x : Except ε α} {f : α → β} {g : α → Except ε β} {a : α} {b : β} {e : ε}

theorem map_eq_ok_iff : x.map f = .ok b ↔ ∃ a, x = .ok a ∧ f a = b := by
  cases x <;> simp [Except.map]

theorem map_eq_error_iff : x.map f = .error e ↔ x = .error e := by
  cases x <;> simp [Except.map]

theorem bind_eq_ok_iff : x.bind g = .ok b ↔ ∃ a, x = .ok a ∧ g a = .ok b := by
  cases x <;> simp [Except.bind]

theorem exists_map_eq_ok (h : ∃ a, x = .ok a) : ∃ b, x.map f = .ok b := by
  obtain ⟨a, rfl⟩ := h
  exact ⟨f a, rfl⟩

theorem toOption_eq_some_iff : x.toOption = some a ↔ x = .ok a := by
  cases x <;> simp [Except.toOption]

end Except

end Uboss.Math
