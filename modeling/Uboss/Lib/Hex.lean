import Mathlib.Data.Nat.Bitwise
import Uboss.Lib.LuaValue
import Uboss.Math.CheckedBuffer

/-!
# Hexadecimal strings

`ltohex` and `lfromhex` of `lua-crypt.c`. The index is an `int`, and one that overflows is an error
of its own, as is a byte that is written outside of the buffer. The bytes of the result are written
one behind the other.
-/

namespace Uboss.Lib.Crypt

open Math List Nat

inductive CryptError
  /-- An error of Lua. -/
  | raised (message : String)
  /-- An `int` overflows. -/
  | overflow
  /-- A byte is written outside of the buffer. -/
  | outOfBounds
  deriving DecidableEq, Repr

def smallChunk : ℕ := 256

/-- `buffer[j] = c`, where `j` is the next index. -/
def writeByte (capacity : ℕ) (buffer : List UInt8) (j : ℤ) (c : UInt8) :
    Except CryptError (List UInt8) :=
  writeNext .outOfBounds capacity buffer j c

/-- `hex`, the digits. -/
def hex : List UInt8 := [48, 49, 50, 51, 52, 53, 54, 55, 56, 57, 97, 98, 99, 100, 101, 102]

/-- The digit with a value. -/
def hexDigit (v : UInt8) : UInt8 := hex.getD v.toNat 0

/-- The loop of `ltohex` over what is left of the text. -/
def tohexLoop (capacity : ℕ) : LuaString → ℤ → List UInt8 → Except CryptError (List UInt8)
  | [], _, buffer => .ok buffer
  | c :: text, i, buffer => do
    let j ← checkInt CryptError.overflow (i * 2)
    let buffer ← writeByte capacity buffer j (hexDigit (c >>> 4))
    let j ← checkInt CryptError.overflow (j + 1)
    let buffer ← writeByte capacity buffer j (hexDigit (c &&& 0xf))
    let i ← checkInt CryptError.overflow (i + 1)
    tohexLoop capacity text i buffer

def ltohex (text : LuaString) : Except CryptError LuaString :=
  let capacity := if text.length > smallChunk / 2 then text.length * 2 else smallChunk
  tohexLoop capacity text 0 []

/-- `HEX`. -/
def hexValue (c : UInt8) : UInt8 := if 48 ≤ c ∧ c ≤ 57 then c - 48 else c - 97 + 10

/-- The body of the loop of `lfromhex`. -/
def fromhexByte (capacity : ℕ) (c d : UInt8) (i : ℤ) (buffer : List UInt8) :
    Except CryptError (List UInt8) :=
  let hi := hexValue c
  let low := hexValue d
  if hi > 16 ∨ low > 16 then .error (.raised "Invalid hex text")
  else writeByte capacity buffer (i / 2) (hi <<< 4 ||| low)

/-- The loop of `lfromhex` over what is left of the text. A string of Lua ends with a byte 0. -/
def fromhexLoop (capacity : ℕ) : LuaString → ℤ → List UInt8 → Except CryptError (List UInt8)
  | [], _, buffer => .ok buffer
  | [c], i, buffer => do
    let buffer ← fromhexByte capacity c 0 i buffer
    let _ ← checkInt CryptError.overflow (i + 2)
    return buffer
  | c :: d :: text, i, buffer => do
    let buffer ← fromhexByte capacity c d i buffer
    let i ← checkInt CryptError.overflow (i + 2)
    fromhexLoop capacity text i buffer

def lfromhex (text : LuaString) : Except CryptError LuaString :=
  if text.length &&& 2 ≠ 0 then .error (.raised s!"Invalid hex text size {castInt text.length}")
  else
    let capacity := if text.length > smallChunk * 2 then text.length / 2 else smallChunk
    fromhexLoop capacity text 0 []

/-! ### What the claims of a codec are -/

/-- The string is encoded, and its encoding is decoded to the string. -/
def HexRoundTrip (text : LuaString) : Prop :=
  ∃ code, ltohex text = .ok code ∧ lfromhex code = .ok text

/-- The characters 0-9 and a-f. -/
def IsHexDigit (c : UInt8) : Prop := c ∈ hex

/-- An even number of hexadecimal digits. -/
def IsHex (text : LuaString) : Prop := text.length % 2 = 0 ∧ ∀ c ∈ text, IsHexDigit c

instance : DecidablePred IsHexDigit := fun c => inferInstanceAs (Decidable (c ∈ hex))

instance : DecidablePred IsHex := fun _ => inferInstanceAs (Decidable (_ ∧ _))

/-- A hexadecimal string is decoded, and for any other string an error is raised. -/
def FromhexRight (text : LuaString) : Prop :=
  if IsHex text then ∃ result, lfromhex text = .ok result
  else ∃ message, lfromhex text = .error (.raised message)

/-- The characters that pass the test of `lfromhex`: 0-9, and the ones from W to g. -/
def Accepted (c : UInt8) : Prop := hexValue c ≤ 16

instance : DecidablePred Accepted := fun c => inferInstanceAs (Decidable (hexValue c ≤ 16))

example : (List.range 256).filter (fun c => Accepted (UInt8.ofNat c)) =
    [48, 49, 50, 51, 52, 53, 54, 55, 56, 57, 87, 88, 89, 90, 91, 92, 93, 94, 95, 96, 97, 98, 99,
      100, 101, 102, 103] := by decide

/-! ### Encoding -/

/-- The two digits of a byte. -/
def hexPair (c : UInt8) : List UInt8 := [hexDigit (c >>> 4), hexDigit (c &&& 0xf)]

variable {text : LuaString} {capacity i k : ℕ} {buffer : List UInt8} {c d : UInt8}

theorem writeByte_ok (hi : i = buffer.length) (hcapacity : i < capacity) :
    writeByte capacity buffer i c = .ok (buffer ++ [c]) :=
  writeNext_ok hi hcapacity

theorem tohexLoop_cons (hi : 2 * i = buffer.length) (hcapacity : 2 * i + 1 < capacity)
    (hfits : i < 2 ^ 30) :
    tohexLoop capacity (c :: text) i buffer =
      tohexLoop capacity text (i + 1 : ℕ) (buffer ++ hexPair c) := by
  have hfst : ((i : ℤ) * 2) = (2 * i : ℕ) := by omega
  rw [tohexLoop, checkInt_bind (by omega) (by omega), hfst, writeByte_ok hi (by omega), ok_bind,
    checkInt_bind (by omega) (by omega)]
  have hsnd : ((2 * i : ℕ) : ℤ) + 1 = (2 * i + 1 : ℕ) := by omega
  rw [hsnd, writeByte_ok (by simp [hi]) hcapacity, ok_bind, checkInt_bind (by omega) (by omega),
    append_assoc]
  rfl

theorem tohexLoop_ok (hi : 2 * i = buffer.length) (hcapacity : 2 * (i + text.length) ≤ capacity)
    (hfits : i + text.length ≤ 2 ^ 30) :
    tohexLoop capacity text i buffer = .ok (buffer ++ text.flatMap hexPair) := by
  induction text generalizing i buffer with
  | nil => simp [tohexLoop]
  | cons c text ih =>
    rw [length_cons] at hcapacity hfits
    rw [tohexLoop_cons hi (by omega) (by omega),
      ih (by simp [hexPair, ← hi]; omega) (by omega) (by omega), flatMap_cons,
      append_assoc]

theorem tohexLoop_overflow (hi : 2 * i = buffer.length)
    (hcapacity : 2 * (i + text.length) ≤ capacity) (hlow : i ≤ 2 ^ 30)
    (hhigh : 2 ^ 30 < i + text.length) :
    tohexLoop capacity text i buffer = .error .overflow := by
  induction text generalizing i buffer with
  | nil => simp at hhigh; omega
  | cons c text ih =>
    rw [length_cons] at hcapacity hhigh
    by_cases hlast : i = 2 ^ 30
    · unfold tohexLoop
      rw [checkInt_error (by omega)]
      rfl
    · rw [tohexLoop_cons hi (by omega) (by omega),
        ih (by simp [hexPair, ← hi]; omega) (by omega) (by omega) (by omega)]

theorem ltohex_eq (text : LuaString) : ltohex text =
    if text.length ≤ 2 ^ 30 then .ok (text.flatMap hexPair) else .error .overflow := by
  unfold ltohex smallChunk
  have hcapacity : 2 * (0 + text.length) ≤
      if text.length > 256 / 2 then text.length * 2 else 256 := by split <;> omega
  by_cases hlength : text.length ≤ 2 ^ 30
  · rw [if_pos hlength]
    exact tohexLoop_ok rfl hcapacity (by rwa [Nat.zero_add])
  · rw [if_neg hlength]
    exact tohexLoop_overflow rfl hcapacity (Nat.zero_le _) (by omega)

/-! ### Decoding -/

/-- The bytes of pairs of digits. -/
def hexBytes : LuaString → LuaString
  | c :: d :: text => (hexValue c <<< 4 ||| hexValue d) :: hexBytes text
  | _ => []

theorem land_two_eq_zero_iff (n : ℕ) : n &&& 2 = 0 ↔ n / 2 % 2 = 0 := by
  have h := and_two_pow n 1
  rw [testBit_eq_decide_div_mod_eq, pow_one] at h
  rw [h]
  rcases mod_two_eq_zero_or_one (n / 2) with hbit | hbit <;> simp [hbit]

theorem not_gt_iff_accepted : ¬ hexValue c > 16 ↔ Accepted c := UInt8.not_lt

theorem fromhexByte_ok (hi : i = buffer.length) (hcapacity : i < capacity) (hc : Accepted c)
    (hd : Accepted d) :
    fromhexByte capacity c d (2 * i : ℕ) buffer =
      .ok (buffer ++ [hexValue c <<< 4 ||| hexValue d]) := by
  have hhalf : ((2 * i : ℕ) : ℤ) / 2 = i := by omega
  refine Eq.trans ?_ (writeByte_ok hi hcapacity)
  rw [← hhalf]
  exact if_neg (not_or.mpr ⟨not_gt_iff_accepted.mpr hc, not_gt_iff_accepted.mpr hd⟩)

theorem fromhexByte_raised (h : ¬ (Accepted c ∧ Accepted d)) (j : ℤ) :
    ∃ message, fromhexByte capacity c d j buffer = .error (.raised message) := by
  refine ⟨"Invalid hex text", if_pos ?_⟩
  by_contra hnot
  exact h ((not_or.mp hnot).imp not_gt_iff_accepted.mp not_gt_iff_accepted.mp)

theorem fromhexLoop_cons (hi : i = buffer.length) (hcapacity : i < capacity)
    (hfits : 2 * i + 2 < 2 ^ 31) (hc : Accepted c) (hd : Accepted d) :
    fromhexLoop capacity (c :: d :: text) (2 * i : ℕ) buffer =
      fromhexLoop capacity text (2 * (i + 1) : ℕ)
        (buffer ++ [hexValue c <<< 4 ||| hexValue d]) := by
  rw [fromhexLoop, fromhexByte_ok hi hcapacity hc hd, ok_bind, checkInt_bind (by omega) (by omega)]
  congr 1

theorem fromhexLoop_ok (heven : text.length % 2 = 0) (haccepted : ∀ c ∈ text, Accepted c)
    (hi : i = buffer.length) (hcapacity : 2 * i + text.length ≤ 2 * capacity)
    (hfits : 2 * i + text.length < 2 ^ 31) :
    fromhexLoop capacity text (2 * i : ℕ) buffer = .ok (buffer ++ hexBytes text) := by
  induction text using hexBytes.induct generalizing i buffer with
  | case1 c d text ih =>
    simp only [length_cons, mem_cons, forall_eq_or_imp] at heven haccepted hcapacity hfits
    rw [fromhexLoop_cons hi (by omega) (by omega) haccepted.1 haccepted.2.1,
      ih (by omega) haccepted.2.2 (by simp [hi]) (by omega) (by omega), hexBytes, append_assoc]
    rfl
  | case2 text hshort =>
    match text, hshort with
    | [], _ => simp [fromhexLoop, hexBytes]
    | [c], _ => simp at heven
    | c :: d :: text, hshort => exact absurd rfl (hshort c d text)

theorem take_pair (hlow : 2 * i < 2 ^ 31) : (c :: d :: text).take (2 ^ 31 - 2 * i) =
    c :: d :: text.take (2 ^ 31 - 2 * (i + 1)) := by
  have hrest : 2 ^ 31 - 2 * i = 2 ^ 31 - 2 * (i + 1) + 2 := by omega
  rw [hrest, take_succ_cons, take_succ_cons]

theorem fromhexLoop_raised (hi : i = buffer.length)
    (hcapacity : 2 * i + text.length ≤ 2 * capacity + 1) (hlow : 2 * i < 2 ^ 31)
    (h : (text.length % 2 = 1 ∧ 2 * i + text.length < 2 ^ 31) ∨
      ∃ c ∈ text.take (2 ^ 31 - 2 * i), ¬ Accepted c) :
    ∃ message, fromhexLoop capacity text (2 * i : ℕ) buffer = .error (.raised message) := by
  induction text using hexBytes.induct generalizing i buffer with
  | case1 c d text ih =>
    by_cases hpair : Accepted c ∧ Accepted d
    · simp only [length_cons] at h hcapacity
      -- the first character that is not accepted is behind the pair
      rw [take_pair hlow] at h
      have hrest : (text.length % 2 = 1 ∧ 2 * (i + 1) + text.length < 2 ^ 31) ∨
          ∃ c ∈ text.take (2 ^ 31 - 2 * (i + 1)), ¬ Accepted c := by
        refine h.imp (fun h => ⟨by omega, by omega⟩) ?_
        rintro ⟨x, hx, hnot⟩
        rcases mem_cons.mp hx with rfl | hx
        · exact absurd hpair.1 hnot
        rcases mem_cons.mp hx with rfl | hx
        · exact absurd hpair.2 hnot
        exact ⟨x, hx, hnot⟩
      have hfits : 2 * (i + 1) < 2 ^ 31 := by
        by_contra hlast
        have hnone : 2 ^ 31 - 2 * (i + 1) = 0 := by omega
        rw [hnone] at hrest
        rcases hrest with h | ⟨x, hx, -⟩
        · omega
        · exact absurd hx not_mem_nil
      rw [fromhexLoop_cons hi (by omega) hfits hpair.1 hpair.2]
      exact ih (by simp [hi]) (by omega) hfits hrest
    · obtain ⟨message, hmessage⟩ := @fromhexByte_raised capacity buffer _ _ hpair (2 * i : ℕ)
      rw [fromhexLoop, hmessage]
      exact ⟨message, rfl⟩
  | case2 text hshort =>
    match text, hshort with
    | [], _ => simp at h
    | [c], _ =>
      -- the byte behind the string is no digit
      obtain ⟨message, hmessage⟩ := @fromhexByte_raised capacity buffer c 0
        (fun h => absurd h.2 (by decide)) (2 * i : ℕ)
      rw [fromhexLoop, hmessage]
      exact ⟨message, rfl⟩
    | c :: d :: text, hshort => exact absurd rfl (hshort c d text)

theorem fromhexLoop_overflow (haccepted : ∀ c ∈ text.take (2 ^ 31 - 2 * i), Accepted c)
    (hi : i = buffer.length) (hcapacity : 2 * i + text.length ≤ 2 * capacity + 1)
    (hlow : 2 * i < 2 ^ 31) (hhigh : 2 ^ 31 ≤ 2 * i + text.length) :
    fromhexLoop capacity text (2 * i : ℕ) buffer = .error .overflow := by
  induction text using hexBytes.induct generalizing i buffer with
  | case1 c d text ih =>
    rw [take_pair hlow] at haccepted
    simp only [length_cons, mem_cons, forall_eq_or_imp] at haccepted hcapacity hhigh
    obtain ⟨hc, hd, htext⟩ := haccepted
    by_cases hlast : 2 * (i + 1) < 2 ^ 31
    · rw [fromhexLoop_cons hi (by omega) hlast hc hd,
        ih htext (by simp [hi]) (by omega) hlast (by omega)]
    · rw [fromhexLoop, fromhexByte_ok hi (by omega) hc hd, ok_bind, checkInt_error (by omega)]
      rfl
  | case2 text hshort =>
    match text, hshort with
    | [], _ => simp at hhigh; omega
    | [c], _ => simp at hhigh; omega
    | c :: d :: text, hshort => exact absurd rfl (hshort c d text)

theorem half_le_capacity (text : LuaString) : 2 * 0 + text.length ≤
    2 * (if text.length > smallChunk * 2 then text.length / 2 else smallChunk) + 1 := by
  unfold smallChunk
  split <;> omega

theorem lfromhex_of_bit (hbit : text.length / 2 % 2 = 1) :
    ∃ message, lfromhex text = .error (.raised message) :=
  ⟨_, if_pos (mt (land_two_eq_zero_iff _).mp (by omega))⟩

theorem lfromhex_of_loop (hbit : text.length / 2 % 2 = 0) : lfromhex text =
    fromhexLoop (if text.length > smallChunk * 2 then text.length / 2 else smallChunk) text
      (2 * 0 : ℕ) [] :=
  if_neg (not_not.mpr ((land_two_eq_zero_iff _).mpr hbit))

theorem lfromhex_raised (h : text.length / 2 % 2 = 1 ∨
    (text.length % 2 = 1 ∧ text.length < 2 ^ 31) ∨ ∃ c ∈ text.take (2 ^ 31), ¬ Accepted c) :
    ∃ message, lfromhex text = .error (.raised message) := by
  rcases mod_two_eq_zero_or_one (text.length / 2) with hbit | hbit
  · rw [lfromhex_of_loop hbit]
    refine fromhexLoop_raised rfl (half_le_capacity text) (by decide) ?_
    rw [hbit] at h
    simpa using h
  · exact lfromhex_of_bit hbit

theorem lfromhex_ok (hlength : text.length % 4 = 0) (hfits : text.length < 2 ^ 31)
    (haccepted : ∀ c ∈ text, Accepted c) : lfromhex text = .ok (hexBytes text) := by
  rw [lfromhex_of_loop (by omega)]
  have hcapacity := half_le_capacity text
  exact fromhexLoop_ok (by omega) haccepted rfl (by omega) (by omega)

theorem lfromhex_overflow (hbit : text.length / 2 % 2 = 0) (hlong : 2 ^ 31 ≤ text.length)
    (haccepted : ∀ c ∈ text.take (2 ^ 31), Accepted c) : lfromhex text = .error .overflow := by
  rw [lfromhex_of_loop hbit]
  exact fromhexLoop_overflow haccepted rfl (half_le_capacity text) (by decide) (by omega)

theorem text_cases (text : LuaString) :
    (text.length / 2 % 2 = 1 ∨ (text.length % 2 = 1 ∧ text.length < 2 ^ 31) ∨
      ∃ c ∈ text.take (2 ^ 31), ¬ Accepted c) ∨
    (text.length % 4 = 0 ∧ text.length < 2 ^ 31 ∧ ∀ c ∈ text, Accepted c) ∨
    (text.length / 2 % 2 = 0 ∧ 2 ^ 31 ≤ text.length ∧ ∀ c ∈ text.take (2 ^ 31), Accepted c) := by
  by_cases h : text.length / 2 % 2 = 1 ∨
      (text.length % 2 = 1 ∧ text.length < 2 ^ 31) ∨ ∃ c ∈ text.take (2 ^ 31), ¬ Accepted c
  · exact .inl h
  right
  simp only [not_or, not_and, not_exists, not_not] at h
  obtain ⟨hbit, hodd, haccepted⟩ := h
  rcases Nat.lt_or_ge text.length (2 ^ 31) with hlength | hlength
  · rw [take_of_length_le hlength.le] at haccepted
    exact .inl ⟨by omega, hlength, haccepted⟩
  · exact .inr ⟨by omega, hlength, haccepted⟩

theorem lfromhex_raised_iff : (∃ message, lfromhex text = .error (.raised message)) ↔
    text.length / 2 % 2 = 1 ∨ (text.length % 2 = 1 ∧ text.length < 2 ^ 31) ∨
      ∃ c ∈ text.take (2 ^ 31), ¬ Accepted c := by
  refine ⟨?_, lfromhex_raised⟩
  rintro ⟨message, hmessage⟩
  rcases text_cases text with h | ⟨hlength, hfits, haccepted⟩ | ⟨hbit, hlong, haccepted⟩
  · exact h
  · rw [lfromhex_ok hlength hfits haccepted] at hmessage
    cases hmessage
  · rw [lfromhex_overflow hbit hlong haccepted] at hmessage
    cases hmessage

theorem lfromhex_ok_iff : (∃ result, lfromhex text = .ok result) ↔
    text.length % 4 = 0 ∧ text.length < 2 ^ 31 ∧ ∀ c ∈ text, Accepted c := by
  refine ⟨?_, fun h => ⟨_, lfromhex_ok h.1 h.2.1 h.2.2⟩⟩
  rintro ⟨result, hresult⟩
  rcases text_cases text with h | h | ⟨hbit, hlong, haccepted⟩
  · obtain ⟨message, hmessage⟩ := lfromhex_raised h
    rw [hmessage] at hresult
    cases hresult
  · exact h
  · rw [lfromhex_overflow hbit hlong haccepted] at hresult
    cases hresult

/-! ### The two together -/

theorem accepted_of_isHexDigit : ∀ c ∈ hex, Accepted c := by decide +kernel

theorem hexPair_all : (List.range 256).all (fun n =>
    (hexPair (UInt8.ofNat n)).all (fun c => IsHexDigit c) &&
      hexBytes (hexPair (UInt8.ofNat n)) == [UInt8.ofNat n]) := by decide +kernel

theorem hexPair_digits (c : UInt8) :
    (∀ d ∈ hexPair c, IsHexDigit d) ∧ hexBytes (hexPair c) = [c] := by
  have h := all_eq_true.mp hexPair_all c.toNat (mem_range.mpr c.toNat_lt)
  simpa using h

theorem length_flatMap_hexPair (text : LuaString) :
    (text.flatMap hexPair).length = 2 * text.length := by
  induction text with
  | nil => rfl
  | cons c text ih =>
    rw [flatMap_cons, length_append, ih, length_cons]
    change 2 + 2 * text.length = 2 * (text.length + 1)
    omega

theorem isHexDigit_flatMap (text : LuaString) : ∀ d ∈ text.flatMap hexPair, IsHexDigit d := by
  intro d hd
  obtain ⟨c, -, hd⟩ := mem_flatMap.mp hd
  exact (hexPair_digits c).1 d hd

theorem hexBytes_flatMap (text : LuaString) : hexBytes (text.flatMap hexPair) = text := by
  induction text with
  | nil => rfl
  | cons c text ih =>
    have hc : hexBytes (hexPair c ++ text.flatMap hexPair) =
        hexBytes (hexPair c) ++ hexBytes (text.flatMap hexPair) := rfl
    rw [flatMap_cons, hc, (hexPair_digits c).2, ih]
    rfl

theorem hexRoundTrip_iff : HexRoundTrip text ↔ text.length % 2 = 0 ∧ text.length < 2 ^ 30 := by
  have hlength := length_flatMap_hexPair text
  unfold HexRoundTrip
  rw [ltohex_eq]
  constructor
  · rintro ⟨code, hcode, hdecode⟩
    by_cases hfits : text.length ≤ 2 ^ 30
    · rw [if_pos hfits, Except.ok.injEq] at hcode
      rw [← hcode] at hdecode
      have hok := lfromhex_ok_iff.mp ⟨text, hdecode⟩
      omega
    · rw [if_neg hfits] at hcode
      cases hcode
  · rintro ⟨heven, hfits⟩
    refine ⟨_, if_pos hfits.le, ?_⟩
    rw [lfromhex_ok (by omega) (by omega), hexBytes_flatMap]
    exact fun d hd => accepted_of_isHexDigit d (isHexDigit_flatMap text d hd)

/-- The texts that are accepted if and only if they are hexadecimal. -/
theorem fromhexRight_iff : FromhexRight text ↔
    if IsHex text then text.length % 4 = 0 ∧ text.length < 2 ^ 31
    else text.length / 2 % 2 = 1 ∨ (text.length % 2 = 1 ∧ text.length < 2 ^ 31) ∨
      ∃ c ∈ text.take (2 ^ 31), ¬ Accepted c := by
  unfold FromhexRight
  rw [lfromhex_ok_iff, lfromhex_raised_iff]
  by_cases hhex : IsHex text
  · rw [if_pos hhex, if_pos hhex]
    have haccepted : ∀ c ∈ text, Accepted c := fun c hc => accepted_of_isHexDigit c (hhex.2 c hc)
    exact ⟨fun h => ⟨h.1, h.2.1⟩, fun h => ⟨h.1, h.2, haccepted⟩⟩
  · rw [if_neg hhex, if_neg hhex]

/-- For every string and every text: the string comes back if and only if it has an even length
below 2^30, and the text is treated as it should be if and only if it is an even number of pairs of
digits below 2^31, or no such text and its size or one of its first characters is refused. -/
theorem hex_iff (s t : LuaString) : (HexRoundTrip s ↔ s.length % 2 = 0 ∧ s.length < 2 ^ 30) ∧
    (FromhexRight t ↔
      if IsHex t then t.length % 4 = 0 ∧ t.length < 2 ^ 31
      else t.length / 2 % 2 = 1 ∨ (t.length % 2 = 1 ∧ t.length < 2 ^ 31) ∨
        ∃ c ∈ t.take (2 ^ 31), ¬ Accepted c) :=
  ⟨hexRoundTrip_iff, fromhexRight_iff⟩

/-- The encoding "41" of one byte is refused, "gggg" is accepted. -/
theorem hex_wrong : ltohex [0x41] = .ok [0x34, 0x31] ∧
      lfromhex [0x34, 0x31] = .error (.raised "Invalid hex text size 2") ∧
      lfromhex [0x67, 0x67, 0x67, 0x67] = .ok [0x10, 0x10] ∧
      ¬ HexRoundTrip [0x41] ∧ ¬ FromhexRight [0x67, 0x67, 0x67, 0x67] := by
  refine ⟨by decide, by decide, by decide, ?_, ?_⟩
  · rintro ⟨code, hcode, hdecode⟩
    cases hcode
    cases hdecode
  · rintro ⟨message, hmessage⟩
    cases hmessage

end Uboss.Lib.Crypt
