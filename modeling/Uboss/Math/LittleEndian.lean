import Mathlib.Tactic.Ring

/-!
# Words in memory

The bytes of a number, the lowest first.
-/

namespace Uboss.Math

open List Nat

/-- The `k` lowest bytes of `n`. -/
def leBytes : ℕ → ℕ → List UInt8
  | 0, _ => []
  | k + 1, n => UInt8.ofNat n :: leBytes k (n / 2 ^ 8)

/-- The number with these bytes. -/
def leNat : List UInt8 → ℕ
  | [] => 0
  | b :: bs => b.toNat + 2 ^ 8 * leNat bs

variable {k n : ℕ} {bs : List UInt8}

@[simp] theorem length_leBytes : (leBytes k n).length = k := by
  induction k generalizing n with
  | zero => rfl
  | succ k ih => rw [leBytes, length_cons, ih]

/-- Bytes that were made of a number give it back, up to their number. -/
theorem leNat_leBytes : leNat (leBytes k n) = n % 2 ^ (8 * k) := by
  induction k generalizing n with
  | zero => rw [leBytes, leNat, Nat.mul_zero, pow_zero, mod_one]
  | succ k ih =>
    have hsplit : 2 ^ (8 * (k + 1)) = 2 ^ 8 * 2 ^ (8 * k) := by ring
    rw [leBytes, leNat, ih, hsplit, mod_mul]
    rfl

theorem leNat_leBytes_of_lt (h : n < 2 ^ (8 * k)) : leNat (leBytes k n) = n := by
  rw [leNat_leBytes, mod_eq_of_lt h]

theorem leNat_lt : leNat bs < 2 ^ (8 * bs.length) := by
  induction bs with
  | nil => exact Nat.one_pos
  | cons b bs ih =>
    have hsplit : 2 ^ (8 * (b :: bs).length) = 2 ^ 8 * 2 ^ (8 * bs.length) := by
      rw [length_cons]
      ring
    have hb := b.toNat_lt
    rw [leNat, hsplit]
    omega

/-- A number that was made of bytes gives them back. -/
theorem leBytes_leNat : leBytes bs.length (leNat bs) = bs := by
  induction bs with
  | nil => rfl
  | cons b bs ih =>
    have hb := b.toNat_lt
    have hbyte : UInt8.ofNat (leNat (b :: bs)) = b := by
      apply UInt8.toNat.inj
      rw [UInt8.toNat_ofNat', leNat]
      omega
    have hrest : leNat (b :: bs) / 2 ^ 8 = leNat bs := by
      rw [leNat]
      omega
    rw [length_cons, leBytes, hbyte, hrest, ih]

/-! ### Bits put together -/

/-- With disjoint bits, `|||` is a sum. -/
theorem shiftLeft_or_eq (m : ℕ) (hn : n < 2 ^ k) : m <<< k ||| n = m * 2 ^ k + n := by
  rw [← shiftLeft_add_eq_or_of_lt hn, shiftLeft_eq]

/-- The same with the low bits first. -/
theorem or_shiftLeft_eq (m : ℕ) (hn : n < 2 ^ k) : n ||| m <<< k = n + 2 ^ k * m := by
  rw [Nat.or_comm, shiftLeft_or_eq m hn, Nat.add_comm, Nat.mul_comm]

end Uboss.Math
