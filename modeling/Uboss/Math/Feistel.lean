import Mathlib.Data.Prod.Basic
import Mathlib.Tactic.Common

/-!
# Feistel networks

A round of a Feistel network changes one half of a block by a function of the other half. Whatever
the function is, the round can be undone, and the rounds in the reverse order undo the network. The
bit permutations around a network are made of exchanges of bits between two words, and of rotations.
-/

namespace Uboss.Math

open List BitVec

section Network

variable {α : Type*} (op : α → α → α)

/-- A round with the function `f`. The half that was changed comes last. -/
def feistelRound (f : α → α) (p : α × α) : α × α := (p.2, op p.1 (f p.2))

/-- The rounds with these functions. -/
def feistel (fs : List (α → α)) (p : α × α) : α × α := fs.foldl (fun p f => feistelRound op f p) p

variable {op} {f : α → α} {fs : List (α → α)} {p : α × α}

/-- A round after the same round, with the halves exchanged between them. -/
theorem feistelRound_swap (hcancel : ∀ a b, op (op a b) b = a) :
    feistelRound op f (feistelRound op f p).swap = p.swap := by
  show (p.2, op (op p.1 (f p.2)) (f p.2)) = (p.2, p.1)
  rw [hcancel]

/-- The rounds in the reverse order undo the network, up to the order of the halves. -/
theorem feistel_reverse (hcancel : ∀ a b, op (op a b) b = a) :
    feistel op fs.reverse (feistel op fs p).swap = p.swap := by
  induction fs generalizing p with
  | nil => rfl
  | cons f fs ih =>
    have hrest := ih (p := feistelRound op f p)
    unfold feistel at hrest ⊢
    rw [reverse_cons, foldl_append, foldl_cons, foldl_nil, foldl_cons, hrest]
    exact feistelRound_swap hcancel

end Network

section Bits

variable {w : ℕ} {s : ℕ} {m : BitVec w} {p : BitVec w × BitVec w}

/-- The bits of the second word under the mask are exchanged with the bits of the first word which
are `s` places higher. -/
def exchange (s : ℕ) (m : BitVec w) (p : BitVec w × BitVec w) : BitVec w × BitVec w :=
  let t := ((p.1 >>> s) ^^^ p.2) &&& m
  (p.1 ^^^ (t <<< s), p.2 ^^^ t)

/-- The exchange of the bits at the places of the mask. -/
def exchangeSame (m : BitVec w) (p : BitVec w × BitVec w) : BitVec w × BitVec w :=
  let t := (p.1 ^^^ p.2) &&& m
  (p.1 ^^^ t, p.2 ^^^ t)

theorem exchangeSame_eq (m : BitVec w) (p : BitVec w × BitVec w) :
    exchangeSame m p = exchange 0 m p := by
  simp [exchangeSame, exchange]

theorem xor_xor_cancel (a b : BitVec w) : a ^^^ b ^^^ b = a := by
  rw [BitVec.xor_assoc, BitVec.xor_self, BitVec.xor_zero]

theorem lt_of_getLsbD_mask (hm : m <<< s >>> s = m) {i : ℕ} (hi : m.getLsbD i = true) :
    i + s < w := by
  rw [← hm, getLsbD_ushiftRight, getLsbD_shiftLeft] at hi
  simp only [Bool.and_eq_true, decide_eq_true_eq] at hi
  omega

theorem and_shift_shift (hm : m <<< s >>> s = m) (a : BitVec w) :
    (a &&& m) <<< s >>> s &&& m = a &&& m := by
  ext i hi
  simp only [← getLsbD_eq_getElem, getLsbD_and, getLsbD_ushiftRight,
    getLsbD_shiftLeft, Nat.add_sub_cancel_left]
  by_cases hmask : m.getLsbD i = true
  · have hlt : s + i < w := by
      have := lt_of_getLsbD_mask hm hmask
      omega
    simp [hmask, hlt]
  · simp [hmask]

theorem and_xor_distrib (a b m : BitVec w) : (a ^^^ b) &&& m = (a &&& m) ^^^ (b &&& m) := by
  ext i hi
  simp [Bool.and_xor_distrib_right]

/-- Where no bit of the mask is lost, an exchange is its own inverse. -/
theorem exchange_exchange (hm : m <<< s >>> s = m) : exchange s m (exchange s m p) = p := by
  obtain ⟨x, y⟩ := p
  unfold exchange
  dsimp only
  generalize ht : (x >>> s ^^^ y) &&& m = t
  have hback : t <<< s >>> s &&& m = t := by
    rw [← ht]
    exact and_shift_shift hm _
  have hself : t &&& m = t := by
    rw [← ht, BitVec.and_assoc, BitVec.and_self]
  -- the same bits are exchanged again
  have hagain : ((x ^^^ t <<< s) >>> s ^^^ (y ^^^ t)) &&& m = t := by
    calc ((x ^^^ t <<< s) >>> s ^^^ (y ^^^ t)) &&& m
        = (x >>> s ^^^ y ^^^ (t <<< s >>> s ^^^ t)) &&& m := by
          rw [ushiftRight_xor_distrib]
          ac_rfl
      _ = ((x >>> s ^^^ y) &&& m) ^^^ ((t <<< s >>> s &&& m) ^^^ (t &&& m)) := by
          rw [and_xor_distrib, and_xor_distrib (t <<< s >>> s)]
      _ = t := by
          rw [ht, hback, hself, BitVec.xor_self, BitVec.xor_zero]
  rw [hagain, xor_xor_cancel, xor_xor_cancel]

theorem exchangeSame_exchangeSame : exchangeSame m (exchangeSame m p) = p := by
  have hm : m <<< 0 >>> 0 = m := by rw [ushiftRight_zero, shiftLeft_zero]
  rw [exchangeSame_eq, exchangeSame_eq, exchange_exchange hm]

/-- A rotation to the left by `s` bits, and back. -/
theorem rotate_rotate (x : BitVec w) (hs : s ≤ w) :
    (x <<< s ||| x >>> (w - s)) <<< (w - s) ||| (x <<< s ||| x >>> (w - s)) >>> s = x := by
  ext i hi
  simp only [← getLsbD_eq_getElem, getLsbD_or, getLsbD_ushiftRight, getLsbD_shiftLeft]
  by_cases hlow : i < w - s
  · -- the bit was moved up
    have hup : s + i < w := by omega
    have hout : x.getLsbD (w - s + (s + i)) = false := getLsbD_of_ge _ _ (by omega)
    simp [hlow, hup, hout]
  · -- the bit was moved around
    have hback : w - s + (i - (w - s)) = i := by omega
    have hwrapped : i - (w - s) < s := by omega
    have hout : x.getLsbD (w - s + (s + i)) = false := getLsbD_of_ge _ _ (by omega)
    have hend : ¬ s + i < w := by omega
    simp [hlow, hi, hback, hwrapped, hout, hend]

end Bits

end Uboss.Math
