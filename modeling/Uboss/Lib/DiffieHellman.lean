import Mathlib.Algebra.Order.Ring.Int
import Mathlib.Data.Nat.Bitwise
import Mathlib.Data.Nat.ModEq
import Uboss.Lib.LuaValue
import Uboss.Math.LittleEndian

/-!
# The key exchange

`mul_mod_p`, `pow_mod_p`, `powmodp`, `ldhexchange` and `ldhsecret` of `lua-crypt.c`. The numbers are
unsigned 64-bit numbers and wrap around. `pow_mod_p` recurs for ever on the exponent 0.
-/

namespace Uboss.Lib.Crypt.Dh

open Math Nat UInt64

/-! ### Arithmetic -/

/-- `P`, the largest prime number of 64 bits. -/
def P : UInt64 := 0xffffffffffffffc5

/-- The loop of `mul_mod_p`. -/
def mulLoop (a b m : UInt64) : UInt64 :=
  if b = 0 then m
  else
    let m :=
      if b &&& 1 ≠ 0 then
        let t := P - a
        if m ≥ t then m - t else m + a
      else m
    let a := if a ≥ P - a then a * 2 - P else a * 2
    mulLoop a (b >>> 1) m
termination_by b.toNat
decreasing_by
  have hpos : b.toNat ≠ 0 := fun h => by
    next hb => exact hb (UInt64.toNat_inj.mp h)
  rw [UInt64.toNat_shiftRight, shiftRight_eq_div_pow]
  change b.toNat / 2 ^ 1 < b.toNat
  omega

def mulModP (a b : UInt64) : UInt64 := mulLoop a b 0

/-- `pow_mod_p` with at most so many calls. -/
def powModP : ℕ → UInt64 → UInt64 → Option UInt64
  | 0, _, _ => none
  | calls + 1, a, b =>
    if b = 1 then some a
    else do
      let t ← powModP calls a (b >>> 1)
      let t := mulModP t t
      return if b % 2 ≠ 0 then mulModP t a else t

/-- `powmodp`. An exponent of 64 bits needs 64 calls, if they end. -/
def powmodp (a b : UInt64) : Option UInt64 :=
  let a := if a > P then a % P else a
  powModP 64 a b

/-! ### Keys -/

inductive DhError
  /-- An error of Lua. -/
  | raised (message : String)
  /-- A recursion that does not end. -/
  | endless
  deriving DecidableEq, Repr

/-- The number that is stored in four bytes. The last shift goes into the sign of an `int`. -/
def word (x₀ x₁ x₂ x₃ : UInt8) : UInt32 :=
  x₀.toUInt32 ||| x₁.toUInt32 <<< 8 ||| x₂.toUInt32 <<< 16 ||| x₃.toUInt32 <<< 24

/-- The two words of a key of eight bytes, put together. -/
def readKey : LuaString → Option UInt64
  | [x₀, x₁, x₂, x₃, x₄, x₅, x₆, x₇] =>
    some ((word x₀ x₁ x₂ x₃).toUInt64 ||| (word x₄ x₅ x₆ x₇).toUInt64 <<< 32)
  | _ => none

def read64 (x y : LuaString) : Except DhError (UInt64 × UInt64) :=
  match readKey x with
  | none => .error (.raised "Invalid uint64 x")
  | some xx =>
    match readKey y with
    | none => .error (.raised "Invalid uint64 y")
    | some yy => .ok (xx, yy)

def push64 (r : UInt64) : LuaString :=
  [(r &&& 0xff).toUInt8, ((r >>> 8) &&& 0xff).toUInt8, ((r >>> 16) &&& 0xff).toUInt8,
    ((r >>> 24) &&& 0xff).toUInt8, ((r >>> 32) &&& 0xff).toUInt8, ((r >>> 40) &&& 0xff).toUInt8,
    ((r >>> 48) &&& 0xff).toUInt8, ((r >>> 56) &&& 0xff).toUInt8]

def ldhsecret (x y : LuaString) : Except DhError LuaString := do
  let (xx, yy) ← read64 x y
  if xx = 0 ∨ yy = 0 then .error (.raised "Can't be 0")
  else
    match powmodp xx yy with
    | none => .error .endless
    | some r => return push64 r

def ldhexchange (x : LuaString) : Except DhError LuaString :=
  match readKey x with
  | none => .error (.raised "Invalid dh uint64 key")
  | some x64 =>
    if x64 = 0 then .error (.raised "Can't be 0")
    else
      match powmodp 5 x64 with
      | none => .error .endless
      | some r => .ok (push64 r)

/-! ### Products -/

variable {a b m r : UInt64} {calls : ℕ}

theorem toNat_P : P.toNat = 2 ^ 64 - 59 := rfl

theorem lt_P_iff : a < P ↔ a.toNat < 2 ^ 64 - 59 := Iff.rfl

theorem toNat_P_sub (ha : a < P) : (P - a).toNat = P.toNat - a.toNat := by
  rw [lt_P_iff] at ha
  rw [UInt64.toNat_sub, toNat_P]
  omega

theorem ge_P_sub_iff (ha : a < P) : m ≥ P - a ↔ P.toNat ≤ m.toNat + a.toNat := by
  rw [ge_iff_le, le_iff_toNat_le, toNat_P_sub ha]
  omega

theorem toNat_sum (ha : a < P) (hm : m < P) :
    (if m ≥ P - a then m - (P - a) else m + a).toNat = (m.toNat + a.toNat) % P.toNat := by
  have hsub := toNat_P_sub ha
  have hge := ge_P_sub_iff (m := m) ha
  rw [lt_P_iff] at ha hm
  rw [toNat_P] at hsub hge ⊢
  split
  · next h =>
    rw [hge] at h
    rw [UInt64.toNat_sub, hsub]
    omega
  · next h =>
    rw [hge] at h
    rw [UInt64.toNat_add]
    omega

theorem toNat_double (ha : a < P) :
    (if a ≥ P - a then a * 2 - P else a * 2).toNat = 2 * a.toNat % P.toNat := by
  have hge := ge_P_sub_iff (m := a) ha
  have htwice : (a * 2).toNat = a.toNat * 2 % 2 ^ 64 := UInt64.toNat_mul a 2
  rw [lt_P_iff] at ha
  rw [toNat_P] at hge ⊢
  split
  · next h =>
    rw [hge] at h
    have hmod : 2 * a.toNat % (2 ^ 64 - 59) = 2 * a.toNat - (2 ^ 64 - 59) := by
      rw [mod_eq_sub_mod (by omega), mod_eq_of_lt (by omega)]
    rw [UInt64.toNat_sub, htwice, toNat_P, hmod]
    -- the product wraps around when the double does not fit
    rcases lt_or_ge (a.toNat * 2) (2 ^ 64) with hfits | hwraps
    · rw [mod_eq_of_lt hfits]
      omega
    · rw [mod_eq_sub_mod hwraps, mod_eq_of_lt (by omega)]
      omega
  · next h =>
    rw [hge] at h
    rw [htwice, mod_eq_of_lt (by omega), mod_eq_of_lt (by omega), mul_comm]

theorem lt_P_of_mod {n : ℕ} (h : r.toNat = n % P.toNat) : r < P := by
  rw [lt_iff_toNat_lt, h]
  exact mod_lt n (by decide)

theorem toNat_half (b : UInt64) : (b >>> 1).toNat = b.toNat / 2 := by
  rw [UInt64.toNat_shiftRight, shiftRight_eq_div_pow]
  rfl

theorem land_one_ne_zero_iff (b : UInt64) : b &&& 1 ≠ 0 ↔ b.toNat % 2 = 1 := by
  rw [Ne, ← UInt64.toNat_inj, UInt64.toNat_and]
  have hone : b.toNat &&& (1 : UInt64).toNat = b.toNat % 2 := and_one_is_mod b.toNat
  rw [hone]
  change b.toNat % 2 ≠ 0 ↔ _
  omega

theorem toNat_bit (ha : a < P) (hm : m < P) :
    (if b &&& 1 ≠ 0 then if m ≥ P - a then m - (P - a) else m + a else m).toNat =
      (m.toNat + a.toNat * (b.toNat % 2)) % P.toNat := by
  split
  · next h => rw [toNat_sum ha hm, (land_one_ne_zero_iff b).mp h, Nat.mul_one]
  · next h =>
    have hbit : b.toNat % 2 = 0 := by
      have := (not_congr (land_one_ne_zero_iff b)).mp h
      omega
    rw [hbit, Nat.mul_zero, Nat.add_zero, mod_eq_of_lt (lt_iff_toNat_lt.mp hm)]

theorem mulLoop_step (hb : b ≠ 0) : mulLoop a b m =
    mulLoop (if a ≥ P - a then a * 2 - P else a * 2) (b >>> 1)
      (if b &&& 1 ≠ 0 then if m ≥ P - a then m - (P - a) else m + a else m) := by
  rw [mulLoop, if_neg hb]

theorem add_mod_half (n x y p : ℕ) :
    ((n + x * (y % 2)) % p + 2 * x % p * (y / 2)) % p = (n + x * y) % p := by
  have hsum : n + x * (y % 2) + 2 * x * (y / 2) = n + x * y := by
    conv_rhs => rw [← mod_add_div y 2]
    ring
  have hmod : (n + x * (y % 2)) % p + 2 * x % p * (y / 2) ≡
      n + x * (y % 2) + 2 * x * (y / 2) [MOD p] :=
    (mod_modEq _ p).add ((mod_modEq _ p).mul_right _)
  rw [hsum] at hmod
  exact hmod

theorem toNat_mulLoop (ha : a < P) (hm : m < P) :
    (mulLoop a b m).toNat = (m.toNat + a.toNat * b.toNat) % P.toNat := by
  induction hn : b.toNat using Nat.strong_induction_on generalizing a b m with
  | _ n ih =>
    by_cases hb : b = 0
    · rw [mulLoop, if_pos hb, ← hn, hb]
      have hzero : a.toNat * (0 : UInt64).toNat = 0 := mul_zero _
      rw [hzero, add_zero, mod_eq_of_lt (lt_iff_toNat_lt.mp hm)]
    · have hpos : b.toNat ≠ 0 := fun h => hb (UInt64.toNat_inj.mp h)
      have hdouble := toNat_double ha
      have hbit := toNat_bit (b := b) ha hm
      rw [mulLoop_step hb, ih (b.toNat / 2) (by omega) (lt_P_of_mod hdouble) (lt_P_of_mod hbit)
        (toNat_half b), hbit, hdouble, add_mod_half, hn]

/-- `mul_mod_p` is the product modulo `P`. -/
theorem toNat_mulModP (ha : a < P) : (mulModP a b).toNat = a.toNat * b.toNat % P.toNat := by
  have hloop := toNat_mulLoop (b := b) (m := 0) ha (by decide)
  rw [UInt64.toNat_zero, zero_add] at hloop
  exact hloop

/-! ### Powers -/

/-- The square of the power for the halved exponent, and one factor for an odd exponent. -/
theorem pow_half_mod (x y p : ℕ) :
    (x ^ (y / 2) % p * (x ^ (y / 2) % p) % p * x ^ (y % 2)) % p = x ^ y % p := by
  have hsplit : x ^ (y / 2) * x ^ (y / 2) * x ^ (y % 2) = x ^ y := by
    rw [← pow_add, ← pow_add]
    congr 1
    omega
  have hsquare : x ^ (y / 2) % p * (x ^ (y / 2) % p) % p ≡ x ^ (y / 2) * x ^ (y / 2) [MOD p] :=
    (mod_modEq _ p).trans ((mod_modEq _ p).mul (mod_modEq _ p))
  have hmod := hsquare.mul_right (x ^ (y % 2))
  rw [hsplit] at hmod
  exact hmod

theorem mod_two_ne_zero_iff (b : UInt64) : b % 2 ≠ 0 ↔ b.toNat % 2 = 1 := by
  rw [Ne, ← UInt64.toNat_inj, UInt64.toNat_mod]
  change b.toNat % 2 ≠ 0 ↔ _
  omega

/-- `pow_mod_p` is the power modulo `P`, for an exponent with at most as many bits as calls. -/
theorem powModP_spec (ha : a < P) (hpos : 1 ≤ b.toNat) (hcalls : b.toNat < 2 ^ calls) :
    ∃ r, powModP calls a b = some r ∧ r.toNat = a.toNat ^ b.toNat % P.toNat := by
  induction calls generalizing b with
  | zero => omega
  | succ calls ih =>
    rw [powModP]
    by_cases hone : b = 1
    · refine ⟨a, if_pos hone, ?_⟩
      have hexp : a.toNat ^ b.toNat = a.toNat := by
        rw [hone]
        exact pow_one _
      rw [hexp, mod_eq_of_lt (lt_iff_toNat_lt.mp ha)]
    · have hne : b.toNat ≠ 1 := fun h => hone (UInt64.toNat_inj.mp h)
      have hhalf := toNat_half b
      rw [pow_succ] at hcalls
      obtain ⟨t, ht, hvalue⟩ := ih (b := b >>> 1) (by omega) (by omega)
      rw [if_neg hone, ht, Option.bind_eq_bind, Option.bind_some]
      have hsquare := toNat_mulModP (b := t) (lt_P_of_mod hvalue)
      refine ⟨_, rfl, ?_⟩
      rw [← pow_half_mod, ← hhalf, ← hvalue, ← hsquare]
      by_cases hodd : b % 2 ≠ 0
      · rw [if_pos hodd, toNat_mulModP (lt_P_of_mod hsquare), (mod_two_ne_zero_iff b).mp hodd,
          pow_one]
      · have heven : b.toNat % 2 = 0 := by
          have := (not_congr (mod_two_ne_zero_iff b)).mp hodd
          omega
        rw [if_neg hodd, heven, pow_zero, Nat.mul_one, hsquare, mod_mod]

theorem powmodp_spec (ha : a < P) (hb : 1 ≤ b) :
    ∃ r, powmodp a b = some r ∧ r.toNat = a.toNat ^ b.toNat % P.toNat := by
  unfold powmodp
  rw [if_neg (UInt64.not_lt.mpr (UInt64.le_of_lt ha))]
  exact powModP_spec ha (le_iff_toNat_le.mp hb) b.toNat_lt

/-! ### Keys -/

theorem mod_shiftLeft_eq {n j k w : ℕ} (hn : n < 2 ^ j) (hw : j + k ≤ w) :
    n <<< k % 2 ^ w = n <<< k := by
  apply mod_eq_of_lt
  rw [shiftLeft_eq]
  calc n * 2 ^ k < 2 ^ j * 2 ^ k := Nat.mul_lt_mul_of_pos_right hn (Nat.two_pow_pos k)
    _ = 2 ^ (j + k) := (pow_add 2 j k).symm
    _ ≤ 2 ^ w := Nat.pow_le_pow_right (by decide) hw

theorem toNat_word (x₀ x₁ x₂ x₃ : UInt8) : (word x₀ x₁ x₂ x₃).toNat = leNat [x₀, x₁, x₂, x₃] := by
  have h₀ := x₀.toNat_lt
  have h₁ := x₁.toNat_lt
  have h₂ := x₂.toNat_lt
  have hshift (x : UInt8) (k : UInt32) (hk : 8 + k.toNat % 32 ≤ 32) :
      (x.toUInt32 <<< k).toNat = x.toNat <<< (k.toNat % 32) := by
    rw [UInt32.toNat_shiftLeft, UInt8.toNat_toUInt32, mod_shiftLeft_eq x.toNat_lt hk]
  unfold word
  rw [UInt32.toNat_or, UInt32.toNat_or, UInt32.toNat_or, hshift _ _ (by decide),
    hshift _ _ (by decide), hshift _ _ (by decide), UInt8.toNat_toUInt32]
  have hone : x₀.toNat ||| x₁.toNat <<< 8 = x₀.toNat + 2 ^ 8 * x₁.toNat := or_shiftLeft_eq _ h₀
  have htwo : x₀.toNat + 2 ^ 8 * x₁.toNat ||| x₂.toNat <<< 16 =
      x₀.toNat + 2 ^ 8 * x₁.toNat + 2 ^ 16 * x₂.toNat := or_shiftLeft_eq _ (by omega)
  have hthree : x₀.toNat + 2 ^ 8 * x₁.toNat + 2 ^ 16 * x₂.toNat ||| x₃.toNat <<< 24 =
      x₀.toNat + 2 ^ 8 * x₁.toNat + 2 ^ 16 * x₂.toNat + 2 ^ 24 * x₃.toNat :=
    or_shiftLeft_eq _ (by omega)
  refine (congrArg (fun n => (n ||| x₂.toNat <<< 16) ||| x₃.toNat <<< 24) hone).trans ?_
  refine (congrArg (fun n => n ||| x₃.toNat <<< 24) htwo).trans (hthree.trans ?_)
  simp only [leNat]
  omega

theorem readKey_eq {x : LuaString} (hx : x.length = 8) :
    ∃ r, readKey x = some r ∧ r.toNat = leNat x := by
  match x, hx with
  | [x₀, x₁, x₂, x₃, x₄, x₅, x₆, x₇], _ =>
    refine ⟨_, rfl, ?_⟩
    have hlow := (word x₀ x₁ x₂ x₃).toNat_lt
    have hhigh := (word x₄ x₅ x₆ x₇).toNat_lt
    have hjoin : (word x₀ x₁ x₂ x₃).toNat ||| (word x₄ x₅ x₆ x₇).toNat <<< 32 =
        (word x₀ x₁ x₂ x₃).toNat + 2 ^ 32 * (word x₄ x₅ x₆ x₇).toNat := or_shiftLeft_eq _ hlow
    have hshift : ((word x₄ x₅ x₆ x₇).toUInt64 <<< 32).toNat = (word x₄ x₅ x₆ x₇).toNat <<< 32 := by
      rw [UInt64.toNat_shiftLeft, UInt32.toNat_toUInt64]
      exact mod_shiftLeft_eq hhigh (by decide)
    rw [UInt64.toNat_or, hshift, UInt32.toNat_toUInt64, hjoin, toNat_word, toNat_word]
    simp only [leNat]
    omega

theorem toUInt8_land (r : UInt64) : (r &&& 0xff).toUInt8 = UInt8.ofNat r.toNat := by
  apply UInt8.toNat_inj.mp
  have hmask : r.toNat &&& (0xff : UInt64).toNat = r.toNat % 2 ^ 8 :=
    and_two_pow_sub_one_eq_mod r.toNat 8
  rw [UInt64.toNat_toUInt8, UInt64.toNat_and, hmask, mod_mod, UInt8.toNat_ofNat']

theorem push64_eq (r : UInt64) : push64 r = leBytes 8 r.toNat := by
  unfold push64
  simp only [toUInt8_land, UInt64.toNat_shiftRight, shiftRight_eq_div_pow, leBytes,
    Nat.div_div_eq_div_mul]
  rfl

theorem readKey_push64 (r : UInt64) : readKey (push64 r) = some r := by
  have hlength : (push64 r).length = 8 := rfl
  obtain ⟨r', hr, hvalue⟩ := readKey_eq hlength
  rw [push64_eq, leNat_leBytes_of_lt r.toNat_lt, UInt64.toNat_inj] at hvalue
  rw [hr, hvalue]

theorem leNat_ne_zero {bs : List UInt8} (h : ∃ c ∈ bs, c ≠ 0) : leNat bs ≠ 0 := by
  induction bs with
  | nil => simp at h
  | cons b bs ih =>
    rw [leNat]
    obtain ⟨c, hc, hne⟩ := h
    rcases List.mem_cons.mp hc with rfl | hc
    · have hpos : c.toNat ≠ 0 := fun h => hne (UInt8.toNat_inj.mp h)
      omega
    · have := ih ⟨c, hc, hne⟩
      omega

/-! ### The exchange -/

/-- A key that is not zero. -/
structure IsKey (x : LuaString) : Prop where
  length : x.length = 8
  ne_zero : ∃ c ∈ x, c ≠ 0

theorem IsKey.readKey {x : LuaString} (h : IsKey x) :
    ∃ r, readKey x = some r ∧ 1 ≤ r ∧ r.toNat = leNat x := by
  obtain ⟨r, hr, hvalue⟩ := readKey_eq h.length
  refine ⟨r, hr, le_iff_toNat_le.mpr ?_, hvalue⟩
  have hne := leNat_ne_zero h.ne_zero
  rw [hvalue]
  exact one_le_iff_ne_zero.mpr hne

theorem pow_five_mod_ne_zero (n : ℕ) : 5 ^ n % P.toNat ≠ 0 := by
  intro h
  have hcoprime : Nat.Coprime P.toNat (5 ^ n) := Nat.Coprime.pow_right n (by decide)
  have hone := hcoprime.eq_one_of_dvd (dvd_of_mod_eq_zero h)
  exact absurd hone (by decide)

theorem ldhexchange_spec {x : LuaString} (hx : IsKey x) :
    ∃ r, ldhexchange x = .ok (push64 r) ∧ r.toNat = 5 ^ leNat x % P.toNat := by
  obtain ⟨x64, hread, hpos, hvalue⟩ := hx.readKey
  obtain ⟨r, hr, hpow⟩ := powmodp_spec (a := 5) (by decide) hpos
  rw [hvalue] at hpow
  refine ⟨r, ?_, hpow⟩
  have hne : x64 ≠ 0 := by
    rintro rfl
    exact absurd hpos (by decide)
  unfold ldhexchange
  rw [hread]
  dsimp only
  rw [if_neg hne, hr]

theorem ldhsecret_spec {y : LuaString} (hr : r < P) (hne : r ≠ 0) (hy : IsKey y) :
    ∃ secret, ldhsecret (push64 r) y = .ok (push64 secret) ∧
      secret.toNat = r.toNat ^ leNat y % P.toNat := by
  obtain ⟨yy, hread, hpos, hvalue⟩ := hy.readKey
  obtain ⟨secret, hsecret, hpow⟩ := powmodp_spec hr hpos
  rw [hvalue] at hpow
  refine ⟨secret, ?_, hpow⟩
  have hkeys : read64 (push64 r) y = .ok (r, yy) := by
    unfold read64
    rw [readKey_push64]
    dsimp only
    rw [hread]
  have hnonzero : ¬ (r = 0 ∨ yy = 0) := by
    rintro (h | rfl)
    · exact hne h
    · exact absurd hpos (by decide)
  unfold ldhsecret
  rw [hkeys]
  change (if r = 0 ∨ yy = 0 then _ else _) = _
  rw [if_neg hnonzero, hsecret]
  rfl

theorem ldhsecret_comm {x y : LuaString} (hx : IsKey x) (hy : IsKey y) :
    ∃ sentX sentY secret, ldhexchange x = .ok sentX ∧ ldhexchange y = .ok sentY ∧
      ldhsecret sentX y = .ok secret ∧ ldhsecret sentY x = .ok secret := by
  obtain ⟨rx, hsentX, hrx⟩ := ldhexchange_spec hx
  obtain ⟨ry, hsentY, hry⟩ := ldhexchange_spec hy
  have hne {r : UInt64} {n : ℕ} (h : r.toNat = 5 ^ n % P.toNat) : r ≠ 0 := by
    rintro rfl
    exact pow_five_mod_ne_zero n h.symm
  obtain ⟨s, hs, hvalue⟩ := ldhsecret_spec (lt_P_of_mod hrx) (hne hrx) hy
  obtain ⟨s', hs', hvalue'⟩ := ldhsecret_spec (lt_P_of_mod hry) (hne hry) hx
  have hsame : s = s' := by
    apply UInt64.toNat_inj.mp
    rw [hvalue, hvalue', hrx, hry, ← pow_mod, ← pow_mod, ← pow_mul, ← pow_mul, mul_comm]
  exact ⟨_, _, _, hsentX, hsentY, hs, hsame ▸ hs'⟩

/-- The product and the power are exact for every residue, every 64-bit number and every 64-bit
exponent other than 0, and for all keys that are not 0 nothing raises and both sides get the same
secret. -/
theorem dh_exact : (∀ a b : UInt64, a < P → (mulModP a b).toNat = a.toNat * b.toNat % P.toNat) ∧
    (∀ a b : UInt64, a < P → 1 ≤ b →
      ∃ r, powmodp a b = some r ∧ r.toNat = a.toNat ^ b.toNat % P.toNat) ∧
    ∀ x y : LuaString, IsKey x → IsKey y →
      ∃ sentX sentY secret, ldhexchange x = .ok sentX ∧ ldhexchange y = .ok sentY ∧
        ldhsecret sentX y = .ok secret ∧ ldhsecret sentY x = .ok secret :=
  ⟨fun _ _ ha => toNat_mulModP ha, fun _ _ ha hb => powmodp_spec ha hb,
    fun _ _ hx hy => ldhsecret_comm hx hy⟩

/-- With the keys 1 and 2 what is sent is 5 and 25. -/
theorem dh_exact_keys : (mulModP 5 5).toNat = 25 ∧ (∃ r, powmodp 5 2 = some r ∧ r.toNat = 25) ∧
      ∃ sentX sentY secret, ldhexchange [1, 0, 0, 0, 0, 0, 0, 0] = .ok sentX ∧
        ldhexchange [2, 0, 0, 0, 0, 0, 0, 0] = .ok sentY ∧
        ldhsecret sentX [2, 0, 0, 0, 0, 0, 0, 0] = .ok secret ∧
        ldhsecret sentY [1, 0, 0, 0, 0, 0, 0, 0] = .ok secret :=
  ⟨dh_exact.1 5 5 (by decide), dh_exact.2.1 5 2 (by decide) (by decide),
    dh_exact.2.2 _ _ ⟨rfl, 1, by decide, by decide⟩ ⟨rfl, 2, by decide, by decide⟩⟩

end Uboss.Lib.Crypt.Dh
