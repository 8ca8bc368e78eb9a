import Uboss.Lib.Hex
import Uboss.Math.LittleEndian

/-!
# Base64

`lb64encode`, `b64index` and `lb64decode` of `lua-crypt.c`. The functions are split into the
computation of the size of the buffer and the loops that write into a buffer, so that one can say
which size the loops need.
-/

namespace Uboss.Lib.Crypt.Base64

open Math List Int UInt8 Nat

/-! ### Buffers -/

/-- `buffer` is `tmp`, or has the size that was computed. -/
def bufferSize (size : ℤ) : ℕ := if size > smallChunk then size.toNat else smallChunk

/-- `buffer[j] = …`, `buffer[j+1] = …`, and so on. -/
def writeBytes (capacity : ℕ) : LuaString → ℤ → List UInt8 → Except CryptError (List UInt8) :=
  writeList .outOfBounds (checkInt .overflow) capacity

/-! ### Encoding -/

/-- `encoding`, the alphabet. -/
def encoding : List UInt8 :=
  [65, 66, 67, 68, 69, 70, 71, 72, 73, 74, 75, 76, 77, 78, 79, 80, 81, 82, 83, 84, 85, 86, 87, 88,
    89, 90, 97, 98, 99, 100, 101, 102, 103, 104, 105, 106, 107, 108, 109, 110, 111, 112, 113, 114,
    115, 116, 117, 118, 119, 120, 121, 122, 48, 49, 50, 51, 52, 53, 54, 55, 56, 57, 43, 47]

example : encoding =
    "ABCDEFGHIJKLMNOPQRSTUVWXYZabcdefghijklmnopqrstuvwxyz0123456789+/".toUTF8.data.toList := by
  decide

/-- `encoding[v]`. -/
def encode (v : ℕ) : UInt8 := encoding.getD v 0

/-- The character `=`. -/
def pad : UInt8 := 61

/-- The four characters of three bytes. -/
def encodeThree (a b c : UInt8) : LuaString :=
  let v := a.toNat <<< 16 ||| b.toNat <<< 8 ||| c.toNat
  [encode (v >>> 18), encode ((v >>> 12) &&& 0x3f), encode ((v >>> 6) &&& 0x3f),
    encode (v &&& 0x3f)]

/-- The case of two bytes that are left. -/
def encodeTwo (a b : UInt8) : LuaString :=
  let v := a.toNat <<< 8 ||| b.toNat
  [encode (v >>> 10), encode ((v >>> 4) &&& 0x3f), encode ((v &&& 0xf) <<< 2), pad]

/-- The case of one byte that is left. -/
def encodeOne (a : UInt8) : LuaString :=
  let v := a.toNat
  [encode (v >>> 2), encode ((v &&& 3) <<< 4), pad, pad]

@[simp] theorem length_encodeThree (a b c : UInt8) : (encodeThree a b c).length = 4 := rfl

@[simp] theorem length_encodeTwo (a b : UInt8) : (encodeTwo a b).length = 4 := rfl

@[simp] theorem length_encodeOne (a : UInt8) : (encodeOne a).length = 4 := rfl

/-- The loop of `lb64encode` over what is left of the text, while `i` is below a bound. -/
def encodeLoop (capacity : ℕ) (bound : ℤ) : LuaString → ℤ → ℤ → List UInt8 →
    Except CryptError (LuaString × ℤ × ℤ × List UInt8)
  | a :: b :: c :: text, i, j, buffer =>
    if i < bound then do
      let buffer ← writeBytes capacity (encodeThree a b c) j buffer
      let j ← checkInt CryptError.overflow (j + 4)
      let i ← checkInt CryptError.overflow (i + 3)
      encodeLoop capacity bound text i j buffer
    else .ok (a :: b :: c :: text, i, j, buffer)
  | text, i, j, buffer => if i < bound then .error .outOfBounds else .ok (text, i, j, buffer)

/-- The `switch` of `lb64encode`. -/
def encodePadding (capacity : ℕ) (padding : ℤ) (text : LuaString) (j : ℤ) (buffer : List UInt8) :
    Except CryptError (List UInt8) :=
  if padding = 1 then
    match text with
    | a :: _ => writeBytes capacity (encodeOne a) j buffer
    | _ => .error .outOfBounds
  else if padding = 2 then
    match text with
    | a :: b :: _ => writeBytes capacity (encodeTwo a b) j buffer
    | _ => .error .outOfBounds
  else .ok buffer

def encodeSz (text : LuaString) : ℤ := castInt ((text.length + 2) / 3 * 4)

/-- What is behind the allocation of the buffer in `lb64encode`. -/
def b64encodeIn (capacity : ℕ) (text : LuaString) : Except CryptError LuaString := do
  let bound ← checkInt CryptError.overflow (castInt text.length - 2)
  let (rest, i, j, buffer) ← encodeLoop capacity bound text 0 0 []
  let padding := castInt ((text.length - i : ℤ) % 2 ^ 64).toNat
  let buffer ← encodePadding capacity padding rest j buffer
  if encodeSz text ≤ buffer.length then return buffer.take (encodeSz text).toNat
  else .error .outOfBounds

def lb64encode (text : LuaString) : Except CryptError LuaString :=
  b64encodeIn (bufferSize (encodeSz text)) text

/-! ### Decoding -/

/-- The table of `b64index`. -/
def decoding : List ℤ :=
  [62, -1, -1, -1, 63, 52, 53, 54, 55, 56, 57, 58, 59, 60, 61, -1, -1, -1, -2, -1, -1, -1, 0, 1, 2,
    3, 4, 5, 6, 7, 8, 9, 10, 11, 12, 13, 14, 15, 16, 17, 18, 19, 20, 21, 22, 23, 24, 25, -1, -1,
    -1, -1, -1, -1, 26, 27, 28, 29, 30, 31, 32, 33, 34, 35, 36, 37, 38, 39, 40, 41, 42, 43, 44, 45,
    46, 47, 48, 49, 50, 51]

def b64index (c : UInt8) : ℤ :=
  if c < 43 then -1
  else
    let c := c - 43
    if c.toNat ≥ decoding.length then -1 else decoding.getD c.toNat (-1)

/-- The `switch` of `lb64decode`, and the new value of `output`. -/
def decodeGroup (capacity : ℕ) (c : List ℤ) (padding : ℕ) (output : ℤ) (buffer : List UInt8) :
    Except CryptError (ℤ × List UInt8) :=
  match padding, c with
  | 0, [c₀, c₁, c₂, c₃] => do
    let v := c₀.toNat <<< 18 ||| c₁.toNat <<< 12 ||| c₂.toNat <<< 6 ||| c₃.toNat
    let buffer ← writeBytes capacity
      [ofNat (v >>> 16), ofNat ((v >>> 8) &&& 0xff), ofNat (v &&& 0xff)] output
      buffer
    return (← checkInt CryptError.overflow (output + 3), buffer)
  | 1, [c₀, c₁, c₂, c₃] =>
    -- no other index is negative when the last one is -2
    if c₃ ≠ -2 ∨ c₂.toNat &&& 3 ≠ 0 then .error (.raised "Invalid base64 text")
    else do
      let v := c₀.toNat <<< 10 ||| c₁.toNat <<< 4 ||| c₂.toNat >>> 2
      let buffer ← writeBytes capacity [ofNat (v >>> 8), ofNat (v &&& 0xff)] output buffer
      return (← checkInt CryptError.overflow (output + 2), buffer)
  | 2, [c₀, c₁, c₂, c₃] =>
    if c₃ ≠ -2 ∨ c₂ ≠ -2 ∨ c₁.toNat &&& 0xf ≠ 0 then .error (.raised "Invalid base64 text")
    else do
      let v := c₀.toNat <<< 2 ||| c₁.toNat >>> 4
      let buffer ← writeBytes capacity [ofNat v] output buffer
      return (← checkInt CryptError.overflow (output + 1), buffer)
  | _, _ => .error (.raised "Invalid base64 text")

/-- The inner loop of `lb64decode`, after the first indices of a group. -/
structure Group where
  c : List ℤ := []
  padding : ℕ := 0
  deriving DecidableEq, Repr

/-- The index of the next character that is not ignored. -/
def Group.push (g : Group) (c : ℤ) : Group :=
  { c := g.c ++ [c], padding := if c = -2 then g.padding + 1 else g.padding }

/-- The loops of `lb64decode` over what is left of the text. Without a group, the outer loop is at
its test. -/
def decodeLoop (capacity : ℕ) :
    LuaString → ℤ → Option Group → ℤ → List UInt8 → Except CryptError LuaString
  | [], _, none, _, buffer => .ok buffer
  | [], _, some _, _, _ => .error (.raised "Invalid base64 text")
  | c :: text, i, group, output, buffer => do
    let g := group.getD {}
    let i ← checkInt CryptError.overflow (i + 1)
    if b64index c = -1 then decodeLoop capacity text i (some g) output buffer
    else
      let g := g.push (b64index c)
      if g.c.length < 4 then decodeLoop capacity text i (some g) output buffer
      else
        let (output, buffer) ← decodeGroup capacity g.c g.padding output buffer
        decodeLoop capacity text i none output buffer

def decodeSz (text : LuaString) : ℤ := castInt ((text.length + 3) / 4 * 3)

/-- What is behind the allocation of the buffer in `lb64decode`. -/
def b64decodeIn (capacity : ℕ) (text : LuaString) : Except CryptError LuaString :=
  decodeLoop capacity text 0 none 0 []

def lb64decode (text : LuaString) : Except CryptError LuaString :=
  b64decodeIn (bufferSize (decodeSz text)) text

example : lb64encode [102, 111] = .ok [90, 109, 56, 61] := by decide

example : lb64decode [10, 90, 109, 10, 13, 56, 61] = .ok [102, 111] := by decide

/-! ### The alphabet -/

/-- The 64 characters and the one for the padding. -/
def InAlphabet (c : UInt8) : Prop := c ∈ encoding ∨ c = pad

instance : DecidablePred InAlphabet := fun c => inferInstanceAs (Decidable (c ∈ encoding ∨ c = pad))

/-- Bytes that are not in the alphabet are inserted into a code, before its last character. -/
inductive Inserted : LuaString → LuaString → Prop
  | nil : Inserted [] []
  | keep {code text : LuaString} (c : UInt8) : Inserted code text → Inserted (c :: code) (c :: text)
  | insert {code text : LuaString} (d : UInt8) : ¬ InAlphabet d → code ≠ [] → Inserted code text →
      Inserted code (d :: text)

variable {c : UInt8} {v : ℕ}

theorem b64index_all : (List.range 256).all (fun n =>
    (b64index (ofNat n) == -1) == !decide (InAlphabet (ofNat n)) &&
      (b64index (UInt8.ofNat n) == -2) == decide (UInt8.ofNat n = pad)) := by decide +kernel

/-- The characters that the decoder ignores. -/
theorem b64index_eq_neg_one_iff : b64index c = -1 ↔ ¬ InAlphabet c := by
  have h := all_eq_true.mp b64index_all c.toNat (mem_range.mpr c.toNat_lt)
  simp only [UInt8.ofNat_toNat, Bool.and_eq_true, beq_iff_eq] at h
  rw [← beq_iff_eq, h.1]
  simp

theorem b64index_pad : b64index pad = -2 := rfl

theorem encode_all : (List.range 64).all (fun n => b64index (encode n) == n) := by decide +kernel

theorem b64index_encode (hv : v < 64) : b64index (encode v) = v := by
  simpa using all_eq_true.mp encode_all v (mem_range.mpr hv)

/-! ### Groups -/

theorem shiftLeft_or_shiftLeft (m n j k : ℕ) :
    m <<< (j + k) ||| n <<< k = (m <<< j ||| n) <<< k := by
  rw [Nat.shiftLeft_or_distrib, Nat.shiftLeft_add]

theorem three_digits {k y z : ℕ} (x : ℕ) (hy : y < 2 ^ k) (hz : z < 2 ^ k) :
    x <<< (k + k) ||| y <<< k ||| z = (x * 2 ^ k + y) * 2 ^ k + z := by
  rw [shiftLeft_or_shiftLeft, shiftLeft_or_eq _ hz, shiftLeft_or_eq _ hy]

theorem four_digits {k y z w : ℕ} (x : ℕ) (hy : y < 2 ^ k) (hz : z < 2 ^ k) (hw : w < 2 ^ k) :
    x <<< (k + k + k) ||| y <<< (k + k) ||| z <<< k ||| w =
      ((x * 2 ^ k + y) * 2 ^ k + z) * 2 ^ k + w := by
  have hshift : x <<< (k + k + k) ||| y <<< (k + k) ||| z <<< k =
      (x <<< (k + k) ||| y <<< k ||| z) <<< k := by
    simp only [Nat.shiftLeft_or_distrib, Nat.shiftLeft_add]
  rw [hshift, shiftLeft_or_eq _ hw, three_digits x hy hz]

theorem land_three (v : ℕ) : v &&& 3 = v % 4 := and_two_pow_sub_one_eq_mod v 2

theorem land_fifteen (v : ℕ) : v &&& 0xf = v % 16 := and_two_pow_sub_one_eq_mod v 4

theorem land_sixty_three (v : ℕ) : v &&& 0x3f = v % 64 := and_two_pow_sub_one_eq_mod v 6

theorem land_byte (v : ℕ) : v &&& 0xff = v % 256 := and_two_pow_sub_one_eq_mod v 8

theorem three_bytes (a b c : UInt8) : a.toNat <<< 16 ||| b.toNat <<< 8 ||| c.toNat =
    (a.toNat * 256 + b.toNat) * 256 + c.toNat :=
  three_digits (k := 8) a.toNat b.toNat_lt c.toNat_lt

theorem two_bytes (a b : UInt8) : a.toNat <<< 8 ||| b.toNat = a.toNat * 256 + b.toNat :=
  shiftLeft_or_eq (k := 8) a.toNat b.toNat_lt

theorem map_b64index_three {a b c : UInt8} {v : ℕ}
    (hv : (a.toNat * 256 + b.toNat) * 256 + c.toNat = v) :
    (encodeThree a b c).map b64index =
      [((v / 2 ^ 18 : ℕ) : ℤ), (v / 2 ^ 12 % 64 : ℕ), (v / 2 ^ 6 % 64 : ℕ), (v % 64 : ℕ)] := by
  have hlt : v / 2 ^ 18 < 64 := by
    have ha := a.toNat_lt
    have hb := b.toNat_lt
    have hc := c.toNat_lt
    omega
  have hmod (n : ℕ) : n % 64 < 64 := mod_lt n (by decide)
  unfold encodeThree
  rw [three_bytes, hv]
  simp only [map_cons, map_nil, Nat.shiftRight_eq_div_pow, land_sixty_three]
  rw [b64index_encode hlt, b64index_encode (hmod _), b64index_encode (hmod _),
    b64index_encode (hmod _)]

theorem map_b64index_two {a b : UInt8} {v : ℕ} (hv : a.toNat * 256 + b.toNat = v) :
    (encodeTwo a b).map b64index =
      [((v / 2 ^ 10 : ℕ) : ℤ), (v / 2 ^ 4 % 64 : ℕ), (v % 16 * 4 : ℕ), -2] := by
  have ha := a.toNat_lt
  have hb := b.toNat_lt
  unfold encodeTwo
  rw [two_bytes, hv]
  simp only [map_cons, map_nil, Nat.shiftRight_eq_div_pow, Nat.shiftLeft_eq,
    land_sixty_three, land_fifteen]
  rw [b64index_encode (by omega), b64index_encode (by omega), b64index_encode (by omega),
    b64index_pad]

theorem map_b64index_one (a : UInt8) : (encodeOne a).map b64index =
    [((a.toNat / 4 : ℕ) : ℤ), (a.toNat % 4 * 16 : ℕ), -2, -2] := by
  have ha := a.toNat_lt
  unfold encodeOne
  simp only [map_cons, map_nil, Nat.shiftRight_eq_div_pow, Nat.shiftLeft_eq, land_three]
  rw [b64index_encode (by omega), b64index_encode (by omega), b64index_pad]

theorem writeBytes_ok {capacity : ℕ} {bytes buffer : List UInt8} {j : ℕ} (hj : j = buffer.length)
    (hcapacity : j + bytes.length ≤ capacity) (hfits : j + bytes.length ≤ 2 ^ 31) :
    writeBytes capacity bytes j buffer = .ok (buffer ++ bytes) :=
  writeList_ok (fun _ _ => checkInt_ok (by omega) (by omega)) hj hcapacity

variable {capacity j : ℕ} {buffer : List UInt8}

theorem ofNat_eq {n : ℕ} {a : UInt8} (h : n % 256 = a.toNat) : UInt8.ofNat n = a :=
  UInt8.toNat_inj.mp (by rw [UInt8.toNat_ofNat', h])

variable (hj : j = buffer.length)
include hj

/-- Three bytes come back. -/
theorem decodeGroup_three {a b c : UInt8} (hcapacity : j + 3 ≤ capacity) (hfits : j + 3 < 2 ^ 31) :
    decodeGroup capacity ((encodeThree a b c).map b64index) 0 j buffer =
      .ok ((j + 3 : ℕ), buffer ++ [a, b, c]) := by
  obtain ⟨v, hv⟩ : ∃ v, (a.toNat * 256 + b.toNat) * 256 + c.toNat = v := ⟨_, rfl⟩
  have hb := b.toNat_lt
  have hc := c.toNat_lt
  have hmod (n : ℕ) : n % 64 < 2 ^ 6 := mod_lt n (by decide)
  have hjoin : (v / 2 ^ 18) <<< 18 ||| (v / 2 ^ 12 % 64) <<< 12 ||| (v / 2 ^ 6 % 64) <<< 6 |||
      v % 64 = v :=
    (four_digits (k := 6) _ (hmod _) (hmod _) (hmod _)).trans (by omega)
  have hfst : UInt8.ofNat (v / 2 ^ 16) = a := ofNat_eq (by have := a.toNat_lt; omega)
  have hsnd : UInt8.ofNat (v / 2 ^ 8 % 256) = b := ofNat_eq (by omega)
  have hthird : UInt8.ofNat (v % 256) = c := ofNat_eq (by omega)
  rw [map_b64index_three hv]
  unfold decodeGroup
  simp only [toNat_natCast, hjoin, Nat.shiftRight_eq_div_pow, land_byte, hfst, hsnd, hthird]
  rw [writeBytes_ok hj hcapacity (by simp; omega), ok_bind, checkInt_bind (by omega) (by omega)]
  rfl

/-- Two bytes come back. -/
theorem decodeGroup_two {a b : UInt8} (hcapacity : j + 2 ≤ capacity) (hfits : j + 2 < 2 ^ 31) :
    decodeGroup capacity ((encodeTwo a b).map b64index) 1 j buffer =
      .ok ((j + 2 : ℕ), buffer ++ [a, b]) := by
  obtain ⟨v, hv⟩ : ∃ v, a.toNat * 256 + b.toNat = v := ⟨_, rfl⟩
  have hb := b.toNat_lt
  have hjoin : (v / 2 ^ 10) <<< 10 ||| (v / 2 ^ 4 % 64) <<< 4 ||| v % 16 * 4 / 2 ^ 2 = v := by
    have hmiddle : v / 2 ^ 4 % 64 < 2 ^ 6 := by omega
    have hlast : v % 16 * 4 / 2 ^ 2 < 2 ^ 4 := by omega
    have hshift : (v / 2 ^ 10) <<< 10 ||| (v / 2 ^ 4 % 64) <<< 4 =
        ((v / 2 ^ 10) <<< 6 ||| (v / 2 ^ 4 % 64)) <<< 4 := shiftLeft_or_shiftLeft _ _ 6 4
    rw [hshift, shiftLeft_or_eq _ hlast, shiftLeft_or_eq _ hmiddle]
    omega
  have hbits : (v % 16 * 4) &&& 3 = 0 := by
    rw [land_three]
    omega
  have hfst : UInt8.ofNat (v / 2 ^ 8) = a := ofNat_eq (by have := a.toNat_lt; omega)
  have hsnd : UInt8.ofNat (v % 256) = b := ofNat_eq (by omega)
  rw [map_b64index_two hv]
  unfold decodeGroup
  simp only [toNat_natCast, hbits, Nat.shiftRight_eq_div_pow, hjoin, land_byte, hfst, hsnd]
  rw [if_neg (by simp), writeBytes_ok hj hcapacity (by simp; omega), ok_bind,
    checkInt_bind (by omega) (by omega)]
  rfl

/-- One byte comes back. -/
theorem decodeGroup_one {a : UInt8} (hcapacity : j + 1 ≤ capacity) (hfits : j + 1 < 2 ^ 31) :
    decodeGroup capacity ((encodeOne a).map b64index) 2 j buffer =
      .ok ((j + 1 : ℕ), buffer ++ [a]) := by
  have hjoin : (a.toNat / 4) <<< 2 ||| a.toNat % 4 * 16 / 2 ^ 4 = a.toNat := by
    rw [shiftLeft_or_eq (k := 2) _ (by omega)]
    omega
  have hbits : (a.toNat % 4 * 16) &&& 0xf = 0 := by
    rw [land_fifteen]
    omega
  rw [map_b64index_one]
  unfold decodeGroup
  simp only [toNat_natCast, hbits, Nat.shiftRight_eq_div_pow, hjoin, UInt8.ofNat_toNat]
  rw [if_neg (by simp), writeBytes_ok hj hcapacity (by simp; omega), ok_bind,
    checkInt_bind (by omega) (by omega)]
  rfl

end Uboss.Lib.Crypt.Base64
