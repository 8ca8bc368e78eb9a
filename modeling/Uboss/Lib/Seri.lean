import Uboss.Lib.LuaValue
import Uboss.Math.LittleEndian

/-!
# The serializer

`lua-seri.c`. What the Lua VM itself may refuse, for want of memory or of room on its stack, is left
out. The stack of C is a parameter: `unpack_one` calls itself once for every table that it is in.
`lua_rawlen` is an `int` inside the VM.
-/

namespace Uboss.Lib

open Math List

/-- `MAX_COOKIE`. -/
def maxCookie : ℕ := 32

/-- `COMBINE_TYPE`. -/
def combineType (t v : ℕ) : UInt8 := UInt8.ofNat (t ||| v <<< 3)

/-- `BLOCK_SIZE`. -/
def blockSize : ℕ := 128

/-- `MAX_DEPTH`. -/
def maxDepth : ℕ := 32

/-- A size that is passed as an `int`. -/
def toInt (n : ℕ) : ℤ := (Int32.ofNat n).toInt

/-- The errors of packing and unpacking. -/
inductive SeriError
  /-- `serialize can't pack too depth table`. -/
  | tooDeep
  /-- `Invalid serialize stream %d (line:%d)`. -/
  | invalidStream
  /-- The error of `lua_pushlstring` for a size that is not one. -/
  | blockTooBig
  /-- The error of `lua_rawset` for a key that is nil or not a number. -/
  | invalidKey
  /-- There are more calls inside each other than the stack holds. -/
  | stackOverflow
  /-- The model does not go on. -/
  | outOfFuel
  deriving DecidableEq, Repr

/-! ### Blocks -/

/-- `struct write_block`: the blocks before the current one, and what is in that. -/
structure WriteBlock where
  blocks : List (List UInt8)
  current : List UInt8
  len : ℕ
  full : ∀ b ∈ blocks, b.length = blockSize
  le : current.length ≤ blockSize
  len_eq : len = (blocks.flatten ++ current).length

namespace WriteBlock

/-- `b->ptr`. -/
def ptr (b : WriteBlock) : ℕ := b.current.length

/-- `wb_init`. -/
def init : WriteBlock where
  blocks := []
  current := []
  len := 0
  full := nofun
  le := Nat.zero_le _
  len_eq := rfl

/-- `memcpy` to the current block. -/
def copy (b : WriteBlock) (buf : List UInt8) (h : b.ptr + buf.length ≤ blockSize) :
    WriteBlock where
  blocks := b.blocks
  current := b.current ++ buf
  len := b.len + buf.length
  full := b.full
  le := by rwa [length_append]
  len_eq := by
    simp only [b.len_eq, length_append]
    exact Nat.add_assoc _ _ _

@[simp] theorem ptr_copy (b : WriteBlock) (buf : List UInt8)
    (h : b.ptr + buf.length ≤ blockSize) : (b.copy buf h).ptr = b.ptr + buf.length :=
  length_append

/-- `b->current = b->current->next = blk_alloc()`. -/
def alloc (b : WriteBlock) (h : b.ptr = blockSize) : WriteBlock where
  blocks := b.blocks ++ [b.current]
  current := []
  len := b.len
  full := fun c hc => by
    rcases mem_append.mp hc with hc | hc
    · exact b.full c hc
    · rwa [mem_singleton.mp hc]
  le := Nat.zero_le _
  len_eq := by
    rw [flatten_append, flatten_singleton, append_nil]
    exact b.len_eq

/-- `wb_push` from the comparison on. -/
def push (b : WriteBlock) (buf : List UInt8) : WriteBlock :=
  if h : b.ptr + buf.length ≤ blockSize then b.copy buf h
  else
    have hlen : b.ptr + (buf.take (blockSize - b.ptr)).length = blockSize := by
      have hle := b.le
      rw [length_take]
      unfold ptr at h ⊢
      omega
    push ((b.copy (buf.take (blockSize - b.ptr)) hlen.le).alloc ((ptr_copy ..).trans hlen))
      (buf.drop (blockSize - b.ptr))
termination_by 2 * buf.length + b.ptr
decreasing_by
  have hzero : ((b.copy (buf.take (blockSize - b.ptr)) hlen.le).alloc
    ((ptr_copy ..).trans hlen)).ptr = 0 := rfl
  rw [hzero, length_drop]
  unfold ptr blockSize at *
  omega

end WriteBlock

/-- `wb_push`. -/
def wbPush (b : WriteBlock) (buf : List UInt8) : WriteBlock :=
  if h : b.ptr = blockSize then (b.alloc h).push buf else b.push buf

/-- `seri`: as many bytes as have been written. -/
def seriLoop : List (List UInt8) → ℕ → List UInt8
  | [], _ => []
  | b :: bs, len =>
    if blockSize ≤ len then b.take blockSize ++ seriLoop bs (len - blockSize) else b.take len

/-- The string that `seri` makes. -/
def seri (b : WriteBlock) : List UInt8 := seriLoop (b.blocks ++ [b.current]) b.len

/-! ### Packing -/

section Pack

variable (wb : WriteBlock)

/-- `wb_nil`. -/
def wbNil : WriteBlock := wbPush wb [0]

/-- `wb_boolean`. -/
def wbBoolean (b : Bool) : WriteBlock := wbPush wb [combineType 1 (if b then 1 else 0)]

/-- `wb_integer`: the shortest of the five forms. -/
def wbInteger (v : Int64) : WriteBlock :=
  let bits := v.toUInt64.toNat
  if v = 0 then wbPush wb [combineType 2 0]
  else if v ≠ v.toInt32.toInt64 then wbPush (wbPush wb [combineType 2 6]) (leBytes 8 bits)
  else if v < 0 then wbPush (wbPush wb [combineType 2 4]) (leBytes 4 bits)
  else if v < 0x100 then wbPush (wbPush wb [combineType 2 1]) (leBytes 1 bits)
  else if v < 0x10000 then wbPush (wbPush wb [combineType 2 2]) (leBytes 2 bits)
  else wbPush (wbPush wb [combineType 2 4]) (leBytes 4 bits)

/-- `wb_real`. -/
def wbReal (bits : UInt64) : WriteBlock :=
  wbPush (wbPush wb [combineType 2 8]) (leBytes 8 bits.toNat)

/-- `wb_pointer`. -/
def wbPointer (ptr : UInt64) : WriteBlock := wbPush (wbPush wb [3]) (leBytes 8 ptr.toNat)

/-- `wb_string`. -/
def wbString (str : List UInt8) : WriteBlock :=
  let len := toInt str.length
  if len < maxCookie then
    let wb := wbPush wb [combineType 4 len.toNat]
    if 0 < len then wbPush wb str else wb
  else if len < 0x10000 then
    wbPush (wbPush (wbPush wb [combineType 5 2]) (leBytes 2 str.length)) str
  else wbPush (wbPush (wbPush wb [combineType 5 4]) (leBytes 4 str.length)) str

/-- A value that is not a table. -/
def wbScalar : LuaScalar → WriteBlock
  | .boolean b => wbBoolean wb b
  | .integer v => wbInteger wb v
  | .real bits => wbReal wb bits
  | .string str => wbString wb str
  | .lightuserdata ptr => wbPointer wb ptr

section Table

variable {V E : Type}

/-- The writer of one value. -/
abbrev Packer (V E : Type) := V → WriteBlock → Except E WriteBlock

/-- What `wb_table_array` writes first. -/
def wbArrayHeader (arraySize : ℤ) : WriteBlock :=
  if (maxCookie : ℤ) - 1 ≤ arraySize then
    wbInteger (wbPush wb [combineType 6 (maxCookie - 1)]) (Int64.ofInt arraySize)
  else wbPush wb [combineType 6 arraySize.toNat]

/-- The loop of `wb_table_array`, for as many elements as are left, from `i` on. -/
def wbArrayLoop (pack : Packer V E) (get : ℕ → V) : ℕ → ℕ → WriteBlock → Except E WriteBlock
  | 0, _, wb => .ok wb
  | n + 1, i, wb => (pack (get i) wb).bind fun wb => wbArrayLoop pack get n (i + 1) wb

/-- `wb_table_array`, where `get` is `lua_rawgeti`. -/
def wbTableArray (pack : Packer V E) (get : ℕ → V) (arraySize : ℤ) : Except E WriteBlock :=
  wbArrayLoop pack get arraySize.toNat 1 (wbArrayHeader wb arraySize)

/-- The key has been written with the array. -/
def inArray (arraySize : ℤ) : Option LuaScalar → Bool
  | some (.integer x) => 0 < x.toInt ∧ x.toInt ≤ arraySize
  | _ => false

/-- The loop of `wb_table_hash`; `key` gives a key that is not a table. -/
def wbHashLoop (pack : Packer V E) (key : V → Option LuaScalar) (arraySize : ℤ) :
    List (V × V) → WriteBlock → Except E WriteBlock
  | [], wb => .ok wb
  | (k, v) :: es, wb =>
    if inArray arraySize (key k) then wbHashLoop pack key arraySize es wb
    else (pack k wb).bind fun wb => (pack v wb).bind fun wb => wbHashLoop pack key arraySize es wb

/-- `wb_table` for a table with these entries; `rawlen` is the result of `lua_rawlen`. -/
def wbTable (pack : Packer V E) (get : ℕ → V) (key : V → Option LuaScalar) (rawlen : ℕ)
    (es : List (V × V)) : Except E WriteBlock :=
  (wbTableArray wb pack get (toInt rawlen)).bind fun wb =>
  (wbHashLoop pack key (toInt rawlen) es wb).map wbNil

end Table

/-- A table, with the result of `lua_rawlen`. There are no tables with `__pairs`. -/
abbrev PackValue := LuaValue ℕ

/-- `pack_one`, when there are so many levels left up to `MAX_DEPTH`, or none. -/
def packOne : ℕ → Packer PackValue SeriError
  | 0, _, _ => .error .tooDeep
  | _ + 1, .nil, wb => .ok (wbNil wb)
  | _ + 1, .scalar s, wb => .ok (wbScalar wb s)
  | left + 1, .table rawlen es, wb =>
    wbTable wb (packOne left) (rawgeti es) LuaValue.scalar? rawlen es

/-- `luaseri_pack` up to `seri`. -/
def packFrom : List PackValue → WriteBlock → Except SeriError WriteBlock
  | [], wb => .ok wb
  | v :: vs, wb => do
    let wb ← packOne (maxDepth + 1) v wb
    packFrom vs wb

/-- `luaseri_pack`. -/
def luaseriPack (vs : List PackValue) : Except SeriError (List UInt8) :=
  (packFrom vs .init).map seri

end Pack

/-! ### Unpacking -/

/-- `struct read_block`, and the position and size of all that `rb_read` has returned. -/
structure ReadBlock where
  buffer : List UInt8
  len : ℤ
  ptr : ℤ
  reads : List (ℤ × ℤ)

/-- The state is kept when there is an error. -/
abbrev Unpack (α : Type) := EStateM SeriError ReadBlock α

/-- Nothing is known of the length of a table. -/
abbrev UnpackValue := LuaValue Unit

/-- `rb_read`: what is at the pointer that it returns. -/
def rbRead (sz : ℤ) : Unpack (Option (List UInt8)) := fun rb =>
  if rb.len < sz then .ok none rb
  else .ok (some ((rb.buffer.drop rb.ptr.toNat).take sz.toNat))
    { rb with len := rb.len - sz, ptr := rb.ptr + sz, reads := rb.reads ++ [(rb.ptr, sz)] }

/-- `invalid_stream`. -/
def invalidStream {α : Type} : Unpack α := throw .invalidStream

/-- `rb_read`, and `invalid_stream` if it returns `NULL`. -/
def rbNeed (sz : ℤ) : Unpack (List UInt8) := do
  match ← rbRead sz with
  | some bs => return bs
  | none => invalidStream

/-- `get_integer`. -/
def getInteger (cookie : ℕ) : Unpack Int64 :=
  match cookie with
  | 0 => return 0
  | 1 => (fun bs => Int64.ofNat (leNat bs)) <$> rbNeed 1
  | 2 => (fun bs => Int64.ofNat (leNat bs)) <$> rbNeed 2
  | 4 => (fun bs => (UInt32.ofNat (leNat bs)).toInt32.toInt64) <$> rbNeed 4
  | 6 => (fun bs => (UInt64.ofNat (leNat bs)).toInt64) <$> rbNeed 8
  | _ => invalidStream

/-- `get_real`. -/
def getReal : Unpack UInt64 := (fun bs => UInt64.ofNat (leNat bs)) <$> rbNeed 8

/-- `get_pointer`. -/
def getPointer : Unpack UInt64 := (fun bs => UInt64.ofNat (leNat bs)) <$> rbNeed 8

/-- `get_buffer`. -/
def getBuffer (len : ℤ) : Unpack (List UInt8) := do
  let p ← rbNeed len
  if len < 0 then throw .blockTooBig else return p

/-- The array size of `unpack_table`. -/
def getArraySize (cookie : ℕ) : Unpack ℤ :=
  if cookie = maxCookie - 1 then do
    let t ← rbNeed 1
    let type := (t.headD 0).toNat
    if type % 8 ≠ 2 ∨ type / 8 = 8 then invalidStream
    else (fun n => n.toInt32.toInt) <$> getInteger (type / 8)
  else return cookie

/-- The first loop of `unpack_table`, for as many elements as are left, from `i` on. -/
def arrayLoop (one : Unpack UnpackValue) : ℕ → ℕ → LuaEntries Unit → Unpack (LuaEntries Unit)
  | 0, _, es => return es
  | n + 1, i, es => do
    let v ← one
    arrayLoop one n (i + 1) (rawseti es i v)

/-- The second loop of `unpack_table`. -/
def hashLoop (one : Unpack UnpackValue) : ℕ → LuaEntries Unit → Unpack (LuaEntries Unit)
  | 0, _ => throw .outOfFuel
  | fuel + 1, es => do
    let k ← one
    if k.isNil then return es
    else
      let v ← one
      match rawset es k v with
      | some es => hashLoop one fuel es
      | none => throw .invalidKey

/-- `unpack_table`. -/
def unpackTable (one : Unpack UnpackValue) (fuel cookie : ℕ) : Unpack UnpackValue := do
  let arraySize ← getArraySize cookie
  let es ← arrayLoop one arraySize.toNat 1 []
  let es ← hashLoop one fuel es
  return .table () es

/-- The branch `TYPE_LONG_STRING`. -/
def getLongString (cookie : ℕ) : Unpack (List UInt8) :=
  if cookie = 2 then do
    let n ← rbNeed 2
    getBuffer (leNat n)
  else if cookie = 4 then do
    let n ← rbNeed 4
    -- `uint32_t` to `int`
    getBuffer (toInt (leNat n))
  else invalidStream

/-- `push_value`, where `one` is `unpack_one`. -/
def pushValue (one : Unpack UnpackValue) (fuel type cookie : ℕ) : Unpack UnpackValue :=
  match type with
  | 0 => return .nil
  | 1 => return .scalar (.boolean (cookie ≠ 0))
  | 2 =>
    if cookie = 8 then (fun bits => .scalar (.real bits)) <$> getReal
    else (fun n => .scalar (.integer n)) <$> getInteger cookie
  | 3 => (fun p => .scalar (.lightuserdata p)) <$> getPointer
  | 4 => (fun str => .scalar (.string str)) <$> getBuffer cookie
  | 5 => (fun str => .scalar (.string str)) <$> getLongString cookie
  | 6 => unpackTable one fuel cookie
  | _ => invalidStream

/-- `unpack_one`, when the stack has room for so many calls of it inside each other. -/
def unpackOne (fuel : ℕ) : ℕ → Unpack UnpackValue
  | 0 => throw .stackOverflow
  | stack + 1 => do
    let t ← rbNeed 1
    let type := (t.headD 0).toNat
    pushValue (unpackOne fuel stack) fuel (type % 8) (type / 8)

/-- The loop of `luaseri_unpack`, for a buffer of at most `size` bytes. -/
def unpackLoop (stack size : ℕ) : ℕ → List UnpackValue → Unpack (List UnpackValue)
  | 0, _ => throw .outOfFuel
  | fuel + 1, vs => do
    match ← rbRead 1 with
    | none => return vs
    | some t =>
      let type := (t.headD 0).toNat
      let v ← pushValue (unpackOne size stack) size (type % 8) (type / 8)
      unpackLoop stack size fuel (vs ++ [v])

/-- `rball_init`. -/
def rballInit (buffer : List UInt8) : ReadBlock := ⟨buffer, toInt buffer.length, 0, []⟩

/-- `luaseri_unpack`, for a string or for a pointer with its length, on a stack that has room for so
many calls of `unpack_one`, that is, for so many tables inside each other. Every value has a byte of
its own, so there is fuel enough. -/
def unpackWithin (stack : ℕ) (buffer : List UInt8) :
    EStateM.Result SeriError ReadBlock (List UnpackValue) :=
  if toInt buffer.length = 0 then .ok [] (rballInit buffer)
  else unpackLoop stack (buffer.length + 1) (buffer.length + 1) [] (rballInit buffer)

/-- `luaseri_unpack` with room for all tables that the bytes can hold. -/
def luaseriUnpack (buffer : List UInt8) : EStateM.Result SeriError ReadBlock (List UnpackValue) :=
  unpackWithin (buffer.length + 1) buffer

end Uboss.Lib
