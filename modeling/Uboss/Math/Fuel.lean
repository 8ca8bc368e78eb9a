import Mathlib.Order.Lattice
import Mathlib.Tactic.Common

/-!
# Computations with fuel

A computation that may not end is given fuel, and has no result where the fuel does not suffice. It
may also fail. More fuel does not change a result.
-/

namespace Uboss.Math

variable {ε α β : Type}

/-- There is a result. -/
def HasResult (x : ExceptT ε Option α) : Prop := ∃ r, x = some r

/-- A result does not change with more fuel. -/
def FuelMono (f : ℕ → ExceptT ε Option α) : Prop := ∀ ⦃m n r⦄, m ≤ n → f m = some r → f n = some r

/-- Some fuel suffices for a result. -/
def Settles (f : ℕ → ExceptT ε Option α) : Prop := ∃ n r, f n = some r

variable {f : ℕ → ExceptT ε Option α} {g : α → ℕ → ExceptT ε Option β}
  {x : ExceptT ε Option α} {h : α → ExceptT ε Option β}

theorem fuel_bind_ok {a : α} (hx : x = some (.ok a)) : (x >>= h) = h a := by
  subst hx
  rfl

theorem fuel_bind_error {e : ε} (hx : x = some (.error e)) : (x >>= h) = some (.error e) := by
  subst hx
  rfl

theorem of_fuel_bind {r : Except ε β} (hr : (x >>= h) = some r) :
    (∃ e, x = some (.error e) ∧ r = .error e) ∨ ∃ a, x = some (.ok a) ∧ h a = some r := by
  cases x with
  | none => cases hr
  | some y =>
    cases y with
    | error e => exact .inl ⟨e, rfl, (Option.some.inj hr).symm⟩
    | ok a => exact .inr ⟨a, rfl, hr⟩

theorem HasResult.bind (hx : HasResult x) (hh : ∀ a, HasResult (h a)) : HasResult (x >>= h) := by
  obtain ⟨r, rfl⟩ := hx
  cases r with
  | error e => exact ⟨.error e, rfl⟩
  | ok a => exact hh a

theorem HasResult.pure (a : α) : HasResult (pure a : ExceptT ε Option α) := ⟨.ok a, rfl⟩

theorem FuelMono.const (x : ExceptT ε Option α) : FuelMono fun _ => x := fun _ _ _ _ h => h

theorem HasResult.settles (hx : HasResult x) : Settles fun _ => x := ⟨0, hx⟩

theorem FuelMono.bind (hf : FuelMono f) (hg : ∀ a, FuelMono (g a)) :
    FuelMono fun n => f n >>= fun a => g a n := by
  intro m n r hle hr
  rcases of_fuel_bind hr with ⟨e, hx, rfl⟩ | ⟨a, hx, hrest⟩
  · exact fuel_bind_error (hf hle hx)
  · exact (fuel_bind_ok (hf hle hx)).trans (hg a hle hrest)

/-- The first part has a result, and if it is a value then what follows has one. -/
theorem settles_bind_iff (hf : FuelMono f) (hg : ∀ a, FuelMono (g a)) :
    (Settles fun n => f n >>= fun a => g a n) ↔
      Settles f ∧ ∀ m a, f m = some (.ok a) → Settles (g a) := by
  constructor
  · rintro ⟨n, r, hr⟩
    rcases of_fuel_bind hr with ⟨e, hx, -⟩ | ⟨a, hx, hrest⟩
    · refine ⟨⟨n, _, hx⟩, fun m a hm => ?_⟩
      have hsame := (hf (le_max_left m n) hm).symm.trans (hf (le_max_right m n) hx)
      cases hsame
    · refine ⟨⟨n, _, hx⟩, fun m b hm => ?_⟩
      have hsame := (hf (le_max_left m n) hm).symm.trans (hf (le_max_right m n) hx)
      obtain rfl := Except.ok.inj (Option.some.inj hsame)
      exact ⟨n, r, hrest⟩
  · rintro ⟨⟨n, r, hr⟩, hrest⟩
    cases r with
    | error e => exact ⟨n, .error e, fuel_bind_error hr⟩
    | ok a =>
      obtain ⟨m, r, hm⟩ := hrest n a hr
      refine ⟨max n m, r, ?_⟩
      exact (fuel_bind_ok (hf (le_max_left n m) hr)).trans (hg a (le_max_right n m) hm)

end Uboss.Math
