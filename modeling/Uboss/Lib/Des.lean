import Uboss.Lib.LuaValue
import Uboss.Math.CInt
import Uboss.Math.Feistel

/-!
# DES

`des_crypt` of `lua-crypt.c`, and the functions of Lua that encrypt and decrypt a string with it,
block by block. Words are bit vectors. An `int` that overflows and an access outside of a buffer
are errors of their own.
-/

namespace Uboss.Lib.Crypt

open Math

/-! ### The tables -/

def sb1 : List (BitVec 32) := [
  0x01010400, 0x00000000, 0x00010000, 0x01010404, 0x01010004, 0x00010404, 0x00000004, 0x00010000,
  0x00000400, 0x01010400, 0x01010404, 0x00000400, 0x01000404, 0x01010004, 0x01000000, 0x00000004,
  0x00000404, 0x01000400, 0x01000400, 0x00010400, 0x00010400, 0x01010000, 0x01010000, 0x01000404,
  0x00010004, 0x01000004, 0x01000004, 0x00010004, 0x00000000, 0x00000404, 0x00010404, 0x01000000,
  0x00010000, 0x01010404, 0x00000004, 0x01010000, 0x01010400, 0x01000000, 0x01000000, 0x00000400,
  0x01010004, 0x00010000, 0x00010400, 0x01000004, 0x00000400, 0x00000004, 0x01000404, 0x00010404,
  0x01010404, 0x00010004, 0x01010000, 0x01000404, 0x01000004, 0x00000404, 0x00010404, 0x01010400,
  0x00000404, 0x01000400, 0x01000400, 0x00000000, 0x00010004, 0x00010400, 0x00000000, 0x01010004]

def sb2 : List (BitVec 32) := [
  0x80108020, 0x80008000, 0x00008000, 0x00108020, 0x00100000, 0x00000020, 0x80100020, 0x80008020,
  0x80000020, 0x80108020, 0x80108000, 0x80000000, 0x80008000, 0x00100000, 0x00000020, 0x80100020,
  0x00108000, 0x00100020, 0x80008020, 0x00000000, 0x80000000, 0x00008000, 0x00108020, 0x80100000,
  0x00100020, 0x80000020, 0x00000000, 0x00108000, 0x00008020, 0x80108000, 0x80100000, 0x00008020,
  0x00000000, 0x00108020, 0x80100020, 0x00100000, 0x80008020, 0x80100000, 0x80108000, 0x00008000,
  0x80100000, 0x80008000, 0x00000020, 0x80108020, 0x00108020, 0x00000020, 0x00008000, 0x80000000,
  0x00008020, 0x80108000, 0x00100000, 0x80000020, 0x00100020, 0x80008020, 0x80000020, 0x00100020,
  0x00108000, 0x00000000, 0x80008000, 0x00008020, 0x80000000, 0x80100020, 0x80108020, 0x00108000]

def sb3 : List (BitVec 32) := [
  0x00000208, 0x08020200, 0x00000000, 0x08020008, 0x08000200, 0x00000000, 0x00020208, 0x08000200,
  0x00020008, 0x08000008, 0x08000008, 0x00020000, 0x08020208, 0x00020008, 0x08020000, 0x00000208,
  0x08000000, 0x00000008, 0x08020200, 0x00000200, 0x00020200, 0x08020000, 0x08020008, 0x00020208,
  0x08000208, 0x00020200, 0x00020000, 0x08000208, 0x00000008, 0x08020208, 0x00000200, 0x08000000,
  0x08020200, 0x08000000, 0x00020008, 0x00000208, 0x00020000, 0x08020200, 0x08000200, 0x00000000,
  0x00000200, 0x00020008, 0x08020208, 0x08000200, 0x08000008, 0x00000200, 0x00000000, 0x08020008,
  0x08000208, 0x00020000, 0x08000000, 0x08020208, 0x00000008, 0x00020208, 0x00020200, 0x08000008,
  0x08020000, 0x08000208, 0x00000208, 0x08020000, 0x00020208, 0x00000008, 0x08020008, 0x00020200]

def sb4 : List (BitVec 32) := [
  0x00802001, 0x00002081, 0x00002081, 0x00000080, 0x00802080, 0x00800081, 0x00800001, 0x00002001,
  0x00000000, 0x00802000, 0x00802000, 0x00802081, 0x00000081, 0x00000000, 0x00800080, 0x00800001,
  0x00000001, 0x00002000, 0x00800000, 0x00802001, 0x00000080, 0x00800000, 0x00002001, 0x00002080,
  0x00800081, 0x00000001, 0x00002080, 0x00800080, 0x00002000, 0x00802080, 0x00802081, 0x00000081,
  0x00800080, 0x00800001, 0x00802000, 0x00802081, 0x00000081, 0x00000000, 0x00000000, 0x00802000,
  0x00002080, 0x00800080, 0x00800081, 0x00000001, 0x00802001, 0x00002081, 0x00002081, 0x00000080,
  0x00802081, 0x00000081, 0x00000001, 0x00002000, 0x00800001, 0x00002001, 0x00802080, 0x00800081,
  0x00002001, 0x00002080, 0x00800000, 0x00802001, 0x00000080, 0x00800000, 0x00002000, 0x00802080]

def sb5 : List (BitVec 32) := [
  0x00000100, 0x02080100, 0x02080000, 0x42000100, 0x00080000, 0x00000100, 0x40000000, 0x02080000,
  0x40080100, 0x00080000, 0x02000100, 0x40080100, 0x42000100, 0x42080000, 0x00080100, 0x40000000,
  0x02000000, 0x40080000, 0x40080000, 0x00000000, 0x40000100, 0x42080100, 0x42080100, 0x02000100,
  0x42080000, 0x40000100, 0x00000000, 0x42000000, 0x02080100, 0x02000000, 0x42000000, 0x00080100,
  0x00080000, 0x42000100, 0x00000100, 0x02000000, 0x40000000, 0x02080000, 0x42000100, 0x40080100,
  0x02000100, 0x40000000, 0x42080000, 0x02080100, 0x40080100, 0x00000100, 0x02000000, 0x42080000,
  0x42080100, 0x00080100, 0x42000000, 0x42080100, 0x02080000, 0x00000000, 0x40080000, 0x42000000,
  0x00080100, 0x02000100, 0x40000100, 0x00080000, 0x00000000, 0x40080000, 0x02080100, 0x40000100]

def sb6 : List (BitVec 32) := [
  0x20000010, 0x20400000, 0x00004000, 0x20404010, 0x20400000, 0x00000010, 0x20404010, 0x00400000,
  0x20004000, 0x00404010, 0x00400000, 0x20000010, 0x00400010, 0x20004000, 0x20000000, 0x00004010,
  0x00000000, 0x00400010, 0x20004010, 0x00004000, 0x00404000, 0x20004010, 0x00000010, 0x20400010,
  0x20400010, 0x00000000, 0x00404010, 0x20404000, 0x00004010, 0x00404000, 0x20404000, 0x20000000,
  0x20004000, 0x00000010, 0x20400010, 0x00404000, 0x20404010, 0x00400000, 0x00004010, 0x20000010,
  0x00400000, 0x20004000, 0x20000000, 0x00004010, 0x20000010, 0x20404010, 0x00404000, 0x20400000,
  0x00404010, 0x20404000, 0x00000000, 0x20400010, 0x00000010, 0x00004000, 0x20400000, 0x00404010,
  0x00004000, 0x00400010, 0x20004010, 0x00000000, 0x20404000, 0x20000000, 0x00400010, 0x20004010]

def sb7 : List (BitVec 32) := [
  0x00200000, 0x04200002, 0x04000802, 0x00000000, 0x00000800, 0x04000802, 0x00200802, 0x04200800,
  0x04200802, 0x00200000, 0x00000000, 0x04000002, 0x00000002, 0x04000000, 0x04200002, 0x00000802,
  0x04000800, 0x00200802, 0x00200002, 0x04000800, 0x04000002, 0x04200000, 0x04200800, 0x00200002,
  0x04200000, 0x00000800, 0x00000802, 0x04200802, 0x00200800, 0x00000002, 0x04000000, 0x00200800,
  0x04000000, 0x00200800, 0x00200000, 0x04000802, 0x04000802, 0x04200002, 0x04200002, 0x00000002,
  0x00200002, 0x04000000, 0x04000800, 0x00200000, 0x04200800, 0x00000802, 0x00200802, 0x04200800,
  0x00000802, 0x04000002, 0x04200802, 0x04200000, 0x00200800, 0x00000000, 0x00000002, 0x04200802,
  0x00000000, 0x00200802, 0x04200000, 0x00000800, 0x04000002, 0x04000800, 0x00000800, 0x00200002]

def sb8 : List (BitVec 32) := [
  0x10001040, 0x00001000, 0x00040000, 0x10041040, 0x10000000, 0x10001040, 0x00000040, 0x10000000,
  0x00040040, 0x10040000, 0x10041040, 0x00041000, 0x10041000, 0x00041040, 0x00001000, 0x00000040,
  0x10040000, 0x10000040, 0x10001000, 0x00001040, 0x00041000, 0x00040040, 0x10040040, 0x10041000,
  0x00001040, 0x00000000, 0x00000000, 0x10040040, 0x10000040, 0x10001000, 0x00041040, 0x00040000,
  0x00041040, 0x00040000, 0x10041000, 0x00001000, 0x00000040, 0x10040040, 0x00001000, 0x00041040,
  0x10001000, 0x00000040, 0x10000040, 0x10040000, 0x10040040, 0x10000000, 0x00040000, 0x10001040,
  0x00000000, 0x10041040, 0x00040040, 0x10000040, 0x10040000, 0x10001000, 0x10001040, 0x00000000,
  0x10041040, 0x00041000, 0x00041000, 0x00001040, 0x00001040, 0x00040040, 0x10000000, 0x10041000]

def lHs : List (BitVec 32) := [
  0x00000000, 0x00000001, 0x00000100, 0x00000101, 0x00010000, 0x00010001, 0x00010100, 0x00010101,
  0x01000000, 0x01000001, 0x01000100, 0x01000101, 0x01010000, 0x01010001, 0x01010100, 0x01010101]

def rHs : List (BitVec 32) := [
  0x00000000, 0x01000000, 0x00010000, 0x01010000, 0x00000100, 0x01000100, 0x00010100, 0x01010100,
  0x00000001, 0x01000001, 0x00010001, 0x01010001, 0x00000101, 0x01000101, 0x00010101, 0x01010101]

/-! ### The cipher -/

/-- An entry of a table. -/
def entry (table : List (BitVec 32)) (index : BitVec 32) : BitVec 32 := table.getD index.toNat 0

/-- A byte, as a word. -/
def byteAt (b : List UInt8) (i : ℕ) : BitVec 32 := (b.getD i 0).toBitVec.setWidth 32

def getUint32 (b : List UInt8) (i : ℕ) : BitVec 32 :=
  byteAt b i <<< 24 ||| byteAt b (i + 1) <<< 16 ||| byteAt b (i + 2) <<< 8 ||| byteAt b (i + 3)

/-- `(uint8_t)`. -/
def toUint8 (n : BitVec 32) : UInt8 := UInt8.ofBitVec (n.setWidth 8)

def putUint32 (n : BitVec 32) : List UInt8 :=
  [toUint8 (n >>> 24), toUint8 (n >>> 16), toUint8 (n >>> 8), toUint8 n]

def desIp (X Y : BitVec 32) : BitVec 32 × BitVec 32 :=
  let T := ((X >>> 4) ^^^ Y) &&& 0x0F0F0F0F
  let Y := Y ^^^ T
  let X := X ^^^ (T <<< 4)
  let T := ((X >>> 16) ^^^ Y) &&& 0x0000FFFF
  let Y := Y ^^^ T
  let X := X ^^^ (T <<< 16)
  let T := ((Y >>> 2) ^^^ X) &&& 0x33333333
  let X := X ^^^ T
  let Y := Y ^^^ (T <<< 2)
  let T := ((Y >>> 8) ^^^ X) &&& 0x00FF00FF
  let X := X ^^^ T
  let Y := Y ^^^ (T <<< 8)
  let Y := ((Y <<< 1) ||| (Y >>> 31)) &&& 0xFFFFFFFF
  let T := (X ^^^ Y) &&& 0xAAAAAAAA
  let Y := Y ^^^ T
  let X := X ^^^ T
  let X := ((X <<< 1) ||| (X >>> 31)) &&& 0xFFFFFFFF
  (X, Y)

def desFp (X Y : BitVec 32) : BitVec 32 × BitVec 32 :=
  let X := ((X <<< 31) ||| (X >>> 1)) &&& 0xFFFFFFFF
  let T := (X ^^^ Y) &&& 0xAAAAAAAA
  let X := X ^^^ T
  let Y := Y ^^^ T
  let Y := ((Y <<< 31) ||| (Y >>> 1)) &&& 0xFFFFFFFF
  let T := ((Y >>> 8) ^^^ X) &&& 0x00FF00FF
  let X := X ^^^ T
  let Y := Y ^^^ (T <<< 8)
  let T := ((Y >>> 2) ^^^ X) &&& 0x33333333
  let X := X ^^^ T
  let Y := Y ^^^ (T <<< 2)
  let T := ((X >>> 16) ^^^ Y) &&& 0x0000FFFF
  let Y := Y ^^^ T
  let X := X ^^^ (T <<< 16)
  let T := ((X >>> 4) ^^^ Y) &&& 0x0F0F0F0F
  let Y := Y ^^^ T
  let X := X ^^^ (T <<< 4)
  (X, Y)

/-- `DES_ROUND` with the next two words of `SK`: the new `Y`. -/
def desRound (sk sk' X Y : BitVec 32) : BitVec 32 :=
  let T := sk ^^^ X
  let Y := Y ^^^ (entry sb8 (T &&& 0x3F) ^^^ entry sb6 ((T >>> 8) &&& 0x3F) ^^^
    entry sb4 ((T >>> 16) &&& 0x3F) ^^^ entry sb2 ((T >>> 24) &&& 0x3F))
  let T := sk' ^^^ ((X <<< 28) ||| (X >>> 4))
  Y ^^^ (entry sb7 (T &&& 0x3F) ^^^ entry sb5 ((T >>> 8) &&& 0x3F) ^^^
    entry sb3 ((T >>> 16) &&& 0x3F) ^^^ entry sb1 ((T >>> 24) &&& 0x3F))

/-- The loop of `des_main_ks`, for the next `n` values of `i`. -/
def subkeys : (n i : ℕ) → (X Y : BitVec 32) → List (BitVec 32)
  | 0, _, _, _ => []
  | n + 1, i, X, Y =>
    let one : Bool := i < 2 ∨ i = 8 ∨ i = 15
    let X := (if one then (X <<< 1) ||| (X >>> 27) else (X <<< 2) ||| (X >>> 26)) &&& 0x0FFFFFFF
    let Y := (if one then (Y <<< 1) ||| (Y >>> 27) else (Y <<< 2) ||| (Y >>> 26)) &&& 0x0FFFFFFF
    [((X <<< 4) &&& 0x24000000) ||| ((X <<< 28) &&& 0x10000000)
      ||| ((X <<< 14) &&& 0x08000000) ||| ((X <<< 18) &&& 0x02080000)
      ||| ((X <<< 6) &&& 0x01000000) ||| ((X <<< 9) &&& 0x00200000)
      ||| ((X >>> 1) &&& 0x00100000) ||| ((X <<< 10) &&& 0x00040000)
      ||| ((X <<< 2) &&& 0x00020000) ||| ((X >>> 10) &&& 0x00010000)
      ||| ((Y >>> 13) &&& 0x00002000) ||| ((Y >>> 4) &&& 0x00001000)
      ||| ((Y <<< 6) &&& 0x00000800) ||| ((Y >>> 1) &&& 0x00000400)
      ||| ((Y >>> 14) &&& 0x00000200) ||| (Y &&& 0x00000100)
      ||| ((Y >>> 5) &&& 0x00000020) ||| ((Y >>> 10) &&& 0x00000010)
      ||| ((Y >>> 3) &&& 0x00000008) ||| ((Y >>> 18) &&& 0x00000004)
      ||| ((Y >>> 26) &&& 0x00000002) ||| ((Y >>> 24) &&& 0x00000001),
     ((X <<< 15) &&& 0x20000000) ||| ((X <<< 17) &&& 0x10000000)
      ||| ((X <<< 10) &&& 0x08000000) ||| ((X <<< 22) &&& 0x04000000)
      ||| ((X >>> 2) &&& 0x02000000) ||| ((X <<< 1) &&& 0x01000000)
      ||| ((X <<< 16) &&& 0x00200000) ||| ((X <<< 11) &&& 0x00100000)
      ||| ((X <<< 3) &&& 0x00080000) ||| ((X >>> 6) &&& 0x00040000)
      ||| ((X <<< 15) &&& 0x00020000) ||| ((X >>> 4) &&& 0x00010000)
      ||| ((Y >>> 2) &&& 0x00002000) ||| ((Y <<< 8) &&& 0x00001000)
      ||| ((Y >>> 14) &&& 0x00000808) ||| ((Y >>> 9) &&& 0x00000400)
      ||| (Y &&& 0x00000200) ||| ((Y <<< 7) &&& 0x00000100)
      ||| ((Y >>> 7) &&& 0x00000020) ||| ((Y >>> 3) &&& 0x00000011)
      ||| ((Y <<< 2) &&& 0x00000004) ||| ((Y >>> 21) &&& 0x00000002)] ++ subkeys n (i + 1) X Y

def desMainKs (key : List UInt8) : List (BitVec 32) :=
  let X := getUint32 key 0
  let Y := getUint32 key 4
  let T := ((Y >>> 4) ^^^ X) &&& 0x0F0F0F0F
  let X := X ^^^ T
  let Y := Y ^^^ (T <<< 4)
  let T := (Y ^^^ X) &&& 0x10101010
  let X := X ^^^ T
  let Y := Y ^^^ T
  let X := (entry lHs (X &&& 0xF) <<< 3) ||| (entry lHs ((X >>> 8) &&& 0xF) <<< 2)
    ||| (entry lHs ((X >>> 16) &&& 0xF) <<< 1) ||| entry lHs ((X >>> 24) &&& 0xF)
    ||| (entry lHs ((X >>> 5) &&& 0xF) <<< 7) ||| (entry lHs ((X >>> 13) &&& 0xF) <<< 6)
    ||| (entry lHs ((X >>> 21) &&& 0xF) <<< 5) ||| (entry lHs ((X >>> 29) &&& 0xF) <<< 4)
  let Y := (entry rHs ((Y >>> 1) &&& 0xF) <<< 3) ||| (entry rHs ((Y >>> 9) &&& 0xF) <<< 2)
    ||| (entry rHs ((Y >>> 17) &&& 0xF) <<< 1) ||| entry rHs ((Y >>> 25) &&& 0xF)
    ||| (entry rHs ((Y >>> 4) &&& 0xF) <<< 7) ||| (entry rHs ((Y >>> 12) &&& 0xF) <<< 6)
    ||| (entry rHs ((Y >>> 20) &&& 0xF) <<< 5) ||| (entry rHs ((Y >>> 28) &&& 0xF) <<< 4)
  subkeys 16 0 (X &&& 0x0FFFFFFF) (Y &&& 0x0FFFFFFF)

/-- The rounds of `des_crypt`, two at a time. -/
def desRounds : List (BitVec 32) → (X Y : BitVec 32) → BitVec 32 × BitVec 32
  | k :: k' :: l :: l' :: SK, X, Y =>
    let X := desRound k k' Y X
    let Y := desRound l l' X Y
    desRounds SK X Y
  | _, X, Y => (X, Y)

def desCrypt (SK : List (BitVec 32)) (input : List UInt8) : List UInt8 :=
  let (X, Y) := desIp (getUint32 input 0) (getUint32 input 4)
  let (X, Y) := desRounds SK X Y
  let (Y, X) := desFp Y X
  putUint32 Y ++ putUint32 X

/-! ### Strings -/

inductive DesError
  /-- An error of Lua. -/
  | raised (message : String)
  /-- An `int` overflows. -/
  | overflow
  /-- An access to a byte that is not in the buffer. -/
  | outOfBounds
  | outOfFuel
  deriving DecidableEq, Repr

def desKey (key : LuaString) : Except DesError (List (BitVec 32)) :=
  if key.length ≠ 8 then
    .error (.raised s!"Invalid key size {castInt key.length}, need 8 bytes")
  else .ok (desMainKs key)

/-- `des_crypt(SK, text+i, buffer+i)`: the blocks are written one behind the other. -/
def cryptAt (SK : List (BitVec 32)) (size : ℕ) (block buffer : List UInt8) :
    Except DesError (List UInt8) :=
  if block.length = 8 ∧ buffer.length + 8 ≤ size then .ok (buffer ++ desCrypt SK block)
  else .error .outOfBounds

/-- The loop of `ldesencode`: the index behind the last whole block, and the buffer. -/
def encodeLoop (SK : List (BitVec 32)) (chunksz : ℕ) (text : LuaString) :
    ℕ → ℤ → List UInt8 → Except DesError (ℤ × List UInt8)
  | 0, _, _ => .error .outOfFuel
  | fuel + 1, i, buffer => do
    let textsz ← checkInt DesError.overflow text.length
    if i < textsz - 7 then
      let buffer ← cryptAt SK chunksz ((text.drop i.toNat).take 8) buffer
      let i ← checkInt DesError.overflow (i + 8)
      encodeLoop SK chunksz text fuel i buffer
    else return (i, buffer)

/-- A byte of the last block of `ldesencode`. -/
def tailByte (text : LuaString) (i bytes : ℤ) (j : ℕ) : UInt8 :=
  if j < bytes then text.getD (i + j).toNat 0
  else if j = bytes then 0x80
  else 0

def ldesencode (key text : LuaString) : Except DesError LuaString := do
  let SK ← desKey key
  let chunksz := (text.length + 8) / 8 * 8
  let (i, buffer) ← encodeLoop SK chunksz text (text.length + 1) 0 []
  let bytes ← checkInt DesError.overflow (text.length - i)
  let tail := (List.range 8).map (tailByte text i bytes)
  cryptAt SK chunksz tail buffer

/-- The subkeys of `ldesdecode`. -/
def decodeKs (ESK : List (BitVec 32)) : List (BitVec 32) :=
  (List.range 16).flatMap fun j => [ESK.getD (30 - 2 * j) 0, ESK.getD (31 - 2 * j) 0]

/-- The first loop of `ldesdecode`, where `i` is compared as a `size_t`. -/
def decodeLoop (SK : List (BitVec 32)) (text : LuaString) :
    ℕ → ℤ → List UInt8 → Except DesError (List UInt8)
  | 0, _, _ => .error .outOfFuel
  | fuel + 1, i, buffer =>
    if i % 2 ^ 64 < text.length then do
      let buffer ← cryptAt SK text.length ((text.drop i.toNat).take 8) buffer
      let i ← checkInt DesError.overflow (i + 8)
      decodeLoop SK text fuel i buffer
    else return buffer

/-- The loop over the padding from `i = n - 1` on, where `i` is compared as a `size_t`: the indices
that are read, and `padding`. -/
def paddingLoop (buffer : List UInt8) : (n : ℕ) → (padding : ℕ) → List ℤ × Except DesError ℕ
  | 0, padding =>
    if (-1) % 2 ^ 64 ≥ (buffer.length - 8 : ℤ) then ([-1], .error .outOfBounds)
    else ([], .ok padding)
  | n + 1, padding =>
    if (n : ℤ) % 2 ^ 64 ≥ (buffer.length - 8 : ℤ) then
      match buffer[n]? with
      | none => ([(n : ℤ)], .error .outOfBounds)
      | some b =>
        if b = 0 then
          let (reads, result) := paddingLoop buffer n (padding + 1)
          ((n : ℤ) :: reads, result)
        else if b = 0x80 then ([(n : ℤ)], .ok padding)
        else ([(n : ℤ)], .error (.raised "Invalid des crypt text"))
    else ([], .ok padding)

/-- The end of `ldesdecode`: the padding is cut off. -/
def cutPadding (textsz : ℕ) (buffer : List UInt8) : List ℤ × Except DesError LuaString :=
  match paddingLoop buffer textsz 1 with
  | (reads, .error e) => (reads, .error e)
  | (reads, .ok padding) =>
    if 8 < padding then (reads, .error (.raised "Invalid des crypt text"))
    else (reads, .ok (buffer.take (textsz - padding)))

/-- `ldesdecode`, and the indices of the buffer that are read for the padding. -/
def ldesdecode (key text : LuaString) : List ℤ × Except DesError LuaString :=
  match desKey key with
  | .error e => ([], .error e)
  | .ok ESK =>
    if text.length % 8 ≠ 0 ∨ text.length = 0 then
      ([], .error (.raised s!"Invalid des crypt text length {castInt text.length}"))
    else
      match decodeLoop (decodeKs ESK) text (text.length + 1) 0 [] with
      | .error e => ([], .error e)
      | .ok buffer => cutPadding text.length buffer

end Uboss.Lib.Crypt
