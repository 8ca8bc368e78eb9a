import Mathlib.Data.Nat.Bitwise

/-!
# Masks of low bits

Setting the low `k` bits of two numbers makes them equal exactly when they lie in the same
block of length `2 ^ k`. Where two numbers have no bit in common, `|||` adds them, which gives
the value of a word that is put together from its bytes.
-/

namespace Uboss.Math

open Nat

theorem or_two_pow_sub_one (x k : ℕ) : x ||| (2 ^ k - 1) = 2 ^ k * (x / 2 ^ k) + (2 ^ k - 1) := by
  have hlt : 2 ^ k - 1 < 2 ^ k := sub_lt (Nat.two_pow_pos k) Nat.one_pos
  rw [two_pow_add_eq_or_of_lt hlt]
  apply eq_of_testBit_eq
  intro i
  simp only [testBit_or, testBit_two_pow_sub_one, testBit_two_pow_mul, testBit_div_two_pow]
  by_cases hi : i < k
  · simp [hi]
  · have hle : k ≤ i := Nat.le_of_not_lt hi
    simp [hi, hle, Nat.sub_add_cancel hle]

theorem or_two_pow_sub_one_eq_iff (x y k : ℕ) :
    x ||| (2 ^ k - 1) = y ||| (2 ^ k - 1) ↔ x / 2 ^ k = y / 2 ^ k := by
  rw [or_two_pow_sub_one, or_two_pow_sub_one]
  constructor
  · intro h
    exact Nat.eq_of_mul_eq_mul_left (Nat.two_pow_pos k) (by omega)
  · intro h
    rw [h]

theorem or_eq_add {x y : ℕ} (k : ℕ) (hx : 2 ^ k ∣ x) (hy : y < 2 ^ k) : x ||| y = x + y := by
  obtain ⟨a, rfl⟩ := hx
  rw [two_pow_add_eq_or_of_lt hy]

/-- The value of a word with the bytes `a`, `b`, `c`, `d`, the highest first. -/
theorem or_bytes {a b c d : ℕ} (hb : b < 2 ^ 8) (hc : c < 2 ^ 8) (hd : d < 2 ^ 8) :
    a <<< 24 ||| b <<< 16 ||| c <<< 8 ||| d = a * 2 ^ 24 + b * 2 ^ 16 + c * 2 ^ 8 + d := by
  simp only [shiftLeft_eq]
  have h₁ : a * 2 ^ 24 ||| b * 2 ^ 16 = a * 2 ^ 24 + b * 2 ^ 16 :=
    or_eq_add 24 (by omega) (by omega)
  have h₂ : a * 2 ^ 24 + b * 2 ^ 16 ||| c * 2 ^ 8 = a * 2 ^ 24 + b * 2 ^ 16 + c * 2 ^ 8 :=
    or_eq_add 16 (by omega) (by omega)
  rw [h₁, h₂]
  exact or_eq_add 8 (by omega) hd

end Uboss.Math
