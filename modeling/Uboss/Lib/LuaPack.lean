import Uboss.Lib.LuaValue
import Uboss.Math.LittleEndian

/-!
# Packed strings in Lua

`string.pack` and `string.unpack` of `lstrlib.c` for unsigned integers of which the highest byte
comes first, and for strings behind their length. A format of several items is read item by item. A
position counts from 1, and an item that does not lie within the string is an error.
-/

namespace Uboss.Lib.LuaPack

open Math List

inductive PackError
  /-- `initial position out of string` -/
  | position
  /-- `data string too short` -/
  | tooShort
  /-- `unsigned overflow`, or `string length does not fit in given size` -/
  | overflow
  deriving DecidableEq, Repr

/-- `string.pack(">I" .. size, n)` -/
def packUInt (size n : ℕ) : Except PackError LuaString :=
  if n < 2 ^ (8 * size) then .ok (leBytes size n).reverse else .error .overflow

/-- `string.pack(">s" .. size, s)` -/
def packString (size : ℕ) (s : LuaString) : Except PackError LuaString :=
  (packUInt size s.length).map (· ++ s)

/-- `string.unpack(">I" .. size, data, pos)`: the number, and the next position. -/
def unpackUInt (size : ℕ) (data : LuaString) (pos : ℕ) : Except PackError (ℕ × ℕ) :=
  if pos = 0 ∨ data.length < pos - 1 then .error .position
  else if data.length < pos - 1 + size then .error .tooShort
  else .ok (leNat ((data.drop (pos - 1)).take size).reverse, pos + size)

/-- `string.unpack(">s" .. size, data, pos)`: the string, and the next position. -/
def unpackString (size : ℕ) (data : LuaString) (pos : ℕ) : Except PackError (LuaString × ℕ) := do
  let (len, pos) ← unpackUInt size data pos
  if data.length < pos - 1 + len then .error .tooShort
  else .ok ((data.drop (pos - 1)).take len, pos + len)

variable {size pos n : ℕ} {data s t : LuaString}

theorem unpackUInt_eq (hpos : 0 < pos) (hfits : pos - 1 + size ≤ data.length) :
    unpackUInt size data pos =
      .ok (leNat ((data.drop (pos - 1)).take size).reverse, pos + size) := by
  rw [unpackUInt, if_neg (by omega), if_neg (by omega)]

/-- An integer at the front of what follows. -/
theorem unpackUInt_packUInt (h : packUInt size n = .ok s) (before after : LuaString) :
    unpackUInt size (before ++ (s ++ after)) (before.length + 1) =
      .ok (n, before.length + 1 + size) := by
  rw [packUInt] at h
  split at h
  · rename_i hfits
    obtain rfl := Except.ok.inj h
    have hlength : (leBytes size n).reverse.length = size := by
      rw [length_reverse, length_leBytes]
    have hpos : 0 < before.length + 1 := Nat.succ_pos _
    rw [unpackUInt_eq hpos, Nat.add_sub_cancel, drop_left]
    · have htake : ((leBytes size n).reverse ++ after).take size = (leBytes size n).reverse := by
        exact take_left' hlength
      rw [htake, reverse_reverse, leNat_leBytes_of_lt hfits]
    · rw [length_append, length_append, hlength]
      omega
  · cases h

theorem packUInt_ok_iff : (∃ s, packUInt size n = .ok s) ↔ n < 2 ^ (8 * size) := by
  rw [packUInt]
  split
  · rename_i hfits
    exact iff_of_true ⟨_, rfl⟩ hfits
  · rename_i hlarge
    exact iff_of_false (fun ⟨s, h⟩ => by cases h) hlarge

end Uboss.Lib.LuaPack
