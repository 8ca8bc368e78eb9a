import Mathlib.Algebra.Order.Ring.Int

/-!
# The integers of C

The type `int` has 32 bits. An operation whose result does not fit has no result here.
-/

namespace Uboss.Math

open BitVec

variable {ε : Type*} {n : ℤ}

/-- The result of an operation on `int`, or the error `overflow`. -/
def checkInt (overflow : ε) (n : ℤ) : Except ε ℤ :=
  if -2 ^ 31 ≤ n ∧ n < 2 ^ 31 then .ok n else .error overflow

/-- The conversion of a `size_t` to `int`. -/
def castInt (n : ℕ) : ℤ := (BitVec.ofNat 32 n).toInt

theorem castInt_eq {n : ℕ} (hn : n < 2 ^ 31) : castInt n = n := by
  unfold castInt
  rw [toInt_eq_toNat_of_lt (by rw [toNat_ofNat]; omega), toNat_ofNat]
  omega

theorem castInt_lt (n : ℕ) : castInt n < 2 ^ 31 := BitVec.toInt_lt

theorem le_castInt (n : ℕ) : -2 ^ 31 ≤ castInt n := BitVec.le_toInt _

theorem castInt_le (n : ℕ) : castInt n ≤ n := by
  have hmod := Nat.mod_le n (2 ^ 32)
  rw [castInt, toInt_eq_toNat_cond, toNat_ofNat]
  split <;> omega

/-- A result that fits is the result. -/
theorem checkInt_ok {overflow : ε} (hlow : -2 ^ 31 ≤ n) (hhigh : n < 2 ^ 31) :
    checkInt overflow n = .ok n :=
  if_pos ⟨hlow, hhigh⟩

theorem ok_bind {α β : Type} (a : α) (f : α → Except ε β) : (Except.ok a >>= f) = f a := rfl

theorem checkInt_bind {α : Type} {overflow : ε} (hlow : -2 ^ 31 ≤ n) (hhigh : n < 2 ^ 31)
    (f : ℤ → Except ε α) : (checkInt overflow n >>= f) = f n := by
  rw [checkInt_ok hlow hhigh]
  rfl

theorem checkInt_eq_ok_iff {overflow : ε} {m : ℤ} :
    checkInt overflow n = .ok m ↔ -2 ^ 31 ≤ n ∧ n < 2 ^ 31 ∧ m = n := by
  constructor
  · intro h
    rw [checkInt] at h
    split at h
    · next hfits => exact ⟨hfits.1, hfits.2, (Except.ok.inj h).symm⟩
    · cases h
  · rintro ⟨hlow, hhigh, rfl⟩
    exact checkInt_ok hlow hhigh

theorem checkInt_error {overflow : ε} (hhigh : 2 ^ 31 ≤ n) :
    checkInt overflow n = .error overflow :=
  if_neg fun h => absurd h.2 (not_lt.mpr hhigh)

theorem of_checkInt_bind {α : Type} {overflow : ε} {f : ℤ → Except ε α} {a : α}
    (h : (checkInt overflow n >>= f) = .ok a) : n < 2 ^ 31 ∧ f n = .ok a := by
  unfold checkInt at h
  split at h
  · next hfits => exact ⟨hfits.2, h⟩
  · cases h

end Uboss.Math
