import Uboss.Lib.LuaValue
import Uboss.Math.LittleEndian

/-!
# The BSON encoder and decoder

`lua-bson.c`: `encode` and `decode`. A table is the list of its entries in the order of `lua_next`,
with what `lua_rawlen` returns for it; tables with a `__pairs` metamethod are left out. A userdata
is its pointer, and the memory of a full one is given beside the table. The sizes of the writer are
`int`: that `cap` or a size leaves this type is an error here, as is a read outside the string, the
userdata or the document. What the Lua VM may refuse for want of memory or of room on its stack is
left out.
-/

namespace Uboss.Lib

open Math

/-- The ways in which `lua-bson.c` stops. -/
inductive BsonError
  /-- A size is not an `int`: this is not defined. -/
  | overflow
  /-- A read outside the string or the document. -/
  | outside
  /-- `Too depth while encoding bson`. -/
  | tooDepth
  /-- `Invalid array key type : %s`. -/
  | invalidArrayKeyType
  /-- `Invalid key type : %s`. -/
  | invalidKeyType
  /-- `Invalid value type : %s`. -/
  | invalidValueType
  /-- The error of `lua_next` for a key that is not there. -/
  | invalidNext
  /-- `Invalid object id %s`. -/
  | invalidObjectId
  /-- `Invalid date`. -/
  | invalidDate
  /-- `Invalid timestamp`. -/
  | invalidTimestamp
  /-- `Invalid subtype %d`. -/
  | invalidSubtype (subt : UInt8)
  /-- `Invalid bson block (%d:%d)`. -/
  | invalidBlock (size sz : ℤ)
  /-- `Invalid bson block : cstring`. -/
  | invalidCstring
  /-- `Invalid document end`. -/
  | invalidDocumentEnd
  /-- `Invalid bson string , length = %d`. -/
  | invalidString (sz : ℤ)
  /-- `Invalid bson type : %d`. -/
  | invalidType (bt : UInt8)
  /-- The error of the Lua buffer for a size that is negative. -/
  | tooLarge
  /-- There are more calls inside each other than the stack holds. -/
  | stackOverflow
  /-- The model does not go on. -/
  | outOfFuel
  deriving DecidableEq, Repr

/-- `DEFAULT_CAP`. -/
def defaultCap : ℕ := 64

/-- `MAX_NUMBER`: the numbers below it have their text in a table. -/
def maxNumber : ℕ := 1024

/-- `MAX_DEPTH`. -/
def bsonMaxDepth : ℕ := 128

/-- What an `int` holds. -/
def toInt32 (n : ℤ) : ℤ := n.bmod (2 ^ 32)

/-! ### The buffer -/

/-- `struct bson`: its capacity, and the `size` bytes that were written. -/
structure Bson where
  cap : ℕ
  bytes : List UInt8
  deriving DecidableEq, Repr

/-- The loop of `bson_reserve`. An `int` cannot be doubled more often. -/
def doubleCap (need : ℕ) : ℕ → ℕ → Option ℕ
  | 0, _ => none
  | fuel + 1, cap =>
    if 2 ^ 31 ≤ cap * 2 then none
    else if cap * 2 ≤ need then doubleCap need fuel (cap * 2) else some (cap * 2)

namespace Bson

/-- The `size` bytes that were written. -/
def size (b : Bson) : ℕ := b.bytes.length

/-- `bson_create`. -/
def create : Bson := ⟨defaultCap, []⟩

/-- `bson_reserve`. -/
def reserve (b : Bson) (sz : ℕ) : Except BsonError Bson :=
  if 2 ^ 31 ≤ b.size + sz then .error .overflow
  else if b.size + sz ≤ b.cap then .ok b
  else
    match doubleCap (b.size + sz) 31 b.cap with
    | none => .error .overflow
    | some cap => .ok { b with cap }

/-- `write_byte`, `write_int32`, `write_int64` and the copies of blocks. -/
def write (b : Bson) (bs : List UInt8) : Except BsonError Bson :=
  (b.reserve bs.length).map fun b => { b with bytes := b.bytes ++ bs }

/-- `write_string`: the bytes and a zero. -/
def writeString (b : Bson) (key : List UInt8) : Except BsonError Bson := b.write (key ++ [0])

/-- `reserve_length`: what these bytes are before `write_length` does not matter. -/
def reserveLength (b : Bson) : Except BsonError Bson := b.write [0, 0, 0, 0]

/-- `write_length`, at a place that was reserved. -/
def writeLength (b : Bson) (v off : ℕ) : Bson :=
  { b with bytes := b.bytes.take off ++ leBytes 4 v ++ b.bytes.drop (off + 4) }

/-- `append_key`: the type and the name of an element. -/
def appendKey (b : Bson) (type : UInt8) (key : List UInt8) : Except BsonError Bson := do
  let b ← b.write [type]
  b.writeString key

end Bson

/-! ### Types -/

def bsonReal : UInt8 := 1
def bsonString : UInt8 := 2
def bsonDocument : UInt8 := 3
def bsonArray : UInt8 := 4
def bsonBinary : UInt8 := 5
def bsonObjectid : UInt8 := 7
def bsonBoolean : UInt8 := 8
def bsonDate : UInt8 := 9
def bsonNull : UInt8 := 10
def bsonRegex : UInt8 := 11
def bsonDbpointer : UInt8 := 12
def bsonJscode : UInt8 := 13
def bsonSymbol : UInt8 := 14
def bsonCodews : UInt8 := 15
def bsonInt32 : UInt8 := 16
def bsonTimestamp : UInt8 := 17
def bsonInt64 : UInt8 := 18
def bsonMinkey : UInt8 := 255
def bsonMaxkey : UInt8 := 127

/-! ### Packing -/

/-- What `sprintf` makes of a number, with `%d` or `%u`. -/
def decimal (i : ℕ) : List UInt8 := (Nat.toDigits 10 i).map fun c => UInt8.ofNat c.toNat

/-- `bson_numstrs`: without a terminator where there is no room for it. -/
def bsonNumstrs (i : ℕ) : List UInt8 := decimal i ++ List.replicate (4 - (decimal i).length) 0

/-- `bson_numstr_len`. -/
def bsonNumstrLen (i : ℕ) : ℕ := (decimal i).length

/-- `bson_numstr`: the key. -/
def bsonNumstr (i : ℕ) : List UInt8 :=
  if i < maxNumber then (bsonNumstrs i).take (bsonNumstrLen i) else decimal i

section Pack

/-- `is_32bit`. -/
def is32bit (v : Int64) : Bool := -2 ^ 31 ≤ v.toInt ∧ v.toInt < 2 ^ 31

/-- `append_number` of an integer. -/
def appendInteger (b : Bson) (key : List UInt8) (i : Int64) : Except BsonError Bson := do
  if is32bit i then
    let b ← b.appendKey bsonInt32 key
    b.write (leBytes 4 i.toUInt64.toNat)
  else
    let b ← b.appendKey bsonInt64 key
    b.write (leBytes 8 i.toUInt64.toNat)

/-- `append_number` of a float. -/
def appendReal (b : Bson) (key : List UInt8) (d : UInt64) : Except BsonError Bson := do
  let b ← b.appendKey bsonReal key
  b.write (leBytes 8 d.toNat)

/-- `write_binary`: the length does not count the subtype, which is the first byte. -/
def writeBinary (b : Bson) (buffer : List UInt8) : Except BsonError Bson := do
  let length := b.size
  let b ← b.reserveLength
  let b ← b.write buffer
  return b.writeLength (buffer.length + 2 ^ 32 - 1) length

/-- The two strings of a regular expression. Without the terminator, or without the one between
them, the code reads and copies what is not there. -/
def regexParts (str : List UInt8) : Option (List UInt8 × List UInt8) :=
  if str = [] ∨ 0 ∉ str.dropLast then none
  else
    let options := (str.dropLast.reverse.takeWhile (· ≠ 0)).reverse
    some (str.dropLast.take (str.dropLast.length - options.length - 1), options)

/-- A string that begins with a zero and a type. -/
def appendTagged (b : Bson) (key : List UInt8) (subt : UInt8) (str : List UInt8) :
    Except BsonError Bson := do
  let b ← b.appendKey subt key
  if subt = bsonBinary then writeBinary b str
  else if subt = bsonObjectid then
    if str.length ≠ 12 then throw .invalidObjectId
    b.write str
  else if subt = bsonJscode ∨ subt = bsonDbpointer ∨ subt = bsonSymbol ∨ subt = bsonCodews then
    b.write str
  else if subt = bsonDate then
    if str.length ≠ 4 then throw .invalidDate
    b.write (leBytes 8 (leNat str * 1000))
  else if subt = bsonTimestamp then
    if str.length ≠ 8 then throw .invalidTimestamp
    let b ← b.write (str.take 4)
    b.write (str.drop 4)
  else if subt = bsonRegex then
    match regexParts str with
    | none => throw .outside
    | some (pattern, options) =>
      let b ← b.writeString pattern
      b.writeString options
  else if subt = bsonMinkey ∨ subt = bsonMaxkey ∨ subt = bsonNull then return b
  else throw (.invalidSubtype subt)

/-- A plain string. -/
def appendString (b : Bson) (key str : List UInt8) : Except BsonError Bson := do
  let b ← b.appendKey bsonString key
  let off := b.size
  let b ← b.reserveLength
  let b ← b.writeString str
  return b.writeLength (str.length + 1) off

/-- `isarray` in `append_table`: `lua_next` finds nothing after the border. -/
def isArray (len : ℕ) (es : LuaEntries ℕ) : Except BsonError Bool :=
  if len = 0 then .ok false
  else
    match es.dropWhile fun e => !e.1.isKey (.integer (Int64.ofNat len)) with
    | [] => .error .invalidNext
    | [_] => .ok true
    | _ => .ok false

/-- `pack_dict` for the tables in a table. -/
abbrev DictPacker := Bool → LuaEntries ℕ → Bson → Except BsonError Bson

/-- `append_table`, where `pack` is `pack_dict` one level deeper. -/
def appendTable (pack : DictPacker) (b : Bson) (key : List UInt8) (len : ℕ) (es : LuaEntries ℕ) :
    Except BsonError Bson := do
  let isarray ← isArray len es
  let b ← b.appendKey (if isarray then bsonArray else bsonDocument) key
  pack isarray es b

/-- The memory of the full userdata, by their pointers; the other pointers are light userdata. -/
abbrev UserBlock := UInt64 → Option (List UInt8)

/-- What `append_one` copies from a full userdata: as many bytes as the `int32_t` in front says. -/
def userDocument (doc : List UInt8) : Except BsonError (List UInt8) :=
  let sz := toInt32 (leNat (doc.take 4))
  if doc.length < 4 ∨ sz < 0 ∨ doc.length < sz then .error .outside else .ok (doc.take sz.toNat)

/-- The copy of a full userdata: nothing says that it is a document. -/
def appendUserdata (b : Bson) (key doc : List UInt8) : Except BsonError Bson := do
  let b ← b.appendKey bsonDocument key
  let copy ← userDocument doc
  b.write copy

variable (block : UserBlock)

/-- `append_one`. -/
def appendOne (pack : DictPacker) (b : Bson) (key : List UInt8) : LuaValue ℕ → Except BsonError Bson
  | .scalar (.integer i) => appendInteger b key i
  | .scalar (.real d) => appendReal b key d
  | .scalar (.string (0 :: subt :: str)) => appendTagged b key subt str
  | .scalar (.string str) => appendString b key str
  | .table len es => appendTable pack b key len es
  | .scalar (.boolean v) => do
    let b ← b.appendKey bsonBoolean key
    b.write [if v then 1 else 0]
  | .scalar (.lightuserdata p) =>
    match block p with
    | some doc => appendUserdata b key doc
    | none => .error .invalidValueType
  | .nil => .error .invalidValueType

/-- `(unsigned int)lua_tointeger(L,-2)-1`. -/
def arrayIndex (i : Int64) : ℕ := (i.toUInt64.toNat + (2 ^ 32 - 1)) % 2 ^ 32

/-- The name of an entry in `pack_dict_data`. `tolstring` is what `lua_tolstring` makes of a
number. -/
def entryKey (tolstring : LuaScalar → List UInt8) (isarray : Bool) :
    LuaValue ℕ → Except BsonError (List UInt8)
  | .scalar (.integer i) =>
    .ok (if isarray then bsonNumstr (arrayIndex i) else tolstring (.integer i))
  | .scalar (.real d) =>
    .ok (if isarray then bsonNumstr (arrayIndex ((realToInteger d).getD 0)) else
      tolstring (.real d))
  | .scalar (.string str) => if isarray then .error .invalidArrayKeyType else .ok str
  | _ => .error (if isarray then .invalidArrayKeyType else .invalidKeyType)

variable (tolstring : LuaScalar → List UInt8)

/-- The loop of `pack_simple_dict`, with `pack_dict_data`. -/
def packEntries (pack : DictPacker) (isarray : Bool) : LuaEntries ℕ → Bson → Except BsonError Bson
  | [], b => .ok b
  | e :: es, b => do
    let key ← entryKey tolstring isarray e.1
    let b ← appendOne block pack b key e.2
    packEntries pack isarray es b

/-- `pack_simple_dict`; so many more tables may be in each other. -/
def packDict : ℕ → DictPacker
  | 0, _, _, _ => .error .tooDepth
  | left + 1, isarray, es, b => do
    let length := b.size
    let b ← b.reserveLength
    let b ← packEntries block tolstring (packDict left) isarray es b
    let b ← b.write [0]
    return b.writeLength (b.size - length) length

/-- `lencode`. -/
def lencodeWith (es : LuaEntries ℕ) : Except BsonError (List UInt8) :=
  (packDict block tolstring (bsonMaxDepth + 1) false es .create).map Bson.bytes

/-- `lencode` of a table without full userdata. -/
def lencode : LuaEntries ℕ → Except BsonError (List UInt8) := lencodeWith (fun _ => none) tolstring

end Pack

/-! ### Reading -/

/-- `struct bson_reader`, with the pointer as an offset in the document. -/
structure BsonReader where
  ptr : ℤ
  size : ℤ
  deriving DecidableEq, Repr

/-- A function that is given a reader. -/
abbrev BsonRead (α : Type) := StateT BsonReader (Except BsonError) α

section Read

variable (buffer : List UInt8)

/-- What is in the memory. -/
def memory (ptr sz : ℤ) : Except BsonError (List UInt8) :=
  if sz < 0 then .error .tooLarge
  else if 0 ≤ ptr ∧ ptr + sz ≤ buffer.length then
    .ok ((buffer.drop ptr.toNat).take sz.toNat)
  else .error .outside

/-- `read_bytes`: the pointer to the bytes. -/
def readBytes (sz : ℤ) : BsonRead ℤ := fun br =>
  if br.size < sz then .error (.invalidBlock br.size sz)
  else .ok (br.ptr, ⟨br.ptr + sz, toInt32 (br.size - sz)⟩)

/-- The bytes themselves. -/
def readBlock (sz : ℤ) : BsonRead (List UInt8) := do
  let ptr ← readBytes sz
  memory buffer ptr sz

/-- `read_byte`. -/
def readByte : BsonRead UInt8 := (·.headD 0) <$> readBlock buffer 1

/-- `read_int32`. -/
def readInt32 : BsonRead ℤ := (fun bs => toInt32 (leNat bs)) <$> readBlock buffer 4

/-- `read_int64` and `read_double`, up to the conversion. -/
def readWord : BsonRead ℕ := leNat <$> readBlock buffer 8

/-- The loop of `read_cstring`. -/
def scanCstring : ℤ → List UInt8 → Except BsonError (List UInt8)
  | size, bs =>
    if size = 0 then .error .invalidCstring
    else
      match bs with
      | [] => .error .outside
      | b :: bs => if b = 0 then .ok [] else (scanCstring (size - 1) bs).map (b :: ·)

/-- `read_cstring`. -/
def readCstring : BsonRead (List UInt8) := fun br =>
  if br.ptr < 0 then .error .outside
  else
    (scanCstring br.size (buffer.drop br.ptr.toNat)).map fun str =>
      (str, ⟨br.ptr + (str.length + 1), toInt32 (br.size - (str.length + 1))⟩)

/-! ### Unpacking -/

/-- `isspace`. -/
def isSpace (c : UInt8) : Bool := c = 32 ∨ 9 ≤ c ∧ c ≤ 13

/-- `isdigit`. -/
def isDigit (c : UInt8) : Bool := 48 ≤ c ∧ c ≤ 57

/-- The value of digits. -/
def digitsValue (bs : List UInt8) : ℕ := bs.foldl (fun n c => 10 * n + (c.toNat - 48)) 0

/-- `strtol` with base 10. -/
def strtol (str : List UInt8) : ℤ :=
  let str := str.dropWhile isSpace
  let value (bs : List UInt8) : ℕ := digitsValue (bs.takeWhile isDigit)
  match str with
  | 45 :: rest => -(min (value rest) (2 ^ 63) : ℕ)
  | 43 :: rest => (min (value rest) (2 ^ 63 - 1) : ℕ)
  | _ => (min (value str) (2 ^ 63 - 1) : ℕ)

/-- A string that begins with a zero and a type: `make_object`. -/
def makeObject (type : UInt8) (bs : List UInt8) : LuaValue Unit :=
  .scalar (.string (0 :: type :: bs))

/-- The value of an element in `unpack_dict`. -/
def unpackValue (unpack : Bool → BsonRead (LuaValue Unit)) (bt : UInt8) :
    BsonRead (LuaValue Unit) :=
  if bt = bsonReal then (fun v => .scalar (.real (UInt64.ofNat v))) <$> readWord buffer
  else if bt = bsonBoolean then (fun v => .scalar (.boolean (v ≠ 0))) <$> readByte buffer
  else if bt = bsonString then do
    let sz ← readInt32 buffer
    if sz ≤ 0 then throw (.invalidString sz)
    let ptr ← readBytes sz
    let str ← memory buffer ptr (sz - 1)
    return .scalar (.string str)
  else if bt = bsonDocument then unpack false
  else if bt = bsonArray then unpack true
  else if bt = bsonBinary then do
    let sz ← readInt32 buffer
    let subtype ← readByte buffer
    let bs ← readBlock buffer sz
    return makeObject bsonBinary (subtype :: bs)
  else if bt = bsonObjectid then makeObject bsonObjectid <$> readBlock buffer 12
  else if bt = bsonDate then do
    let date ← readWord buffer
    -- the conversion to `uint32_t` of a division that rounds to zero
    let v := ((date : ℤ).bmod (2 ^ 64)).tdiv 1000 % 2 ^ 32
    return makeObject bsonDate (leBytes 4 v.toNat)
  else if bt = bsonMinkey ∨ bt = bsonMaxkey ∨ bt = bsonNull then return makeObject bt []
  else if bt = bsonRegex then do
    let r1 ← readCstring buffer
    let r2 ← readCstring buffer
    return makeObject bsonRegex (r1 ++ 0 :: r2 ++ [0])
  else if bt = bsonInt32 then
    (fun v => .scalar (.integer (Int64.ofInt v))) <$> readInt32 buffer
  else if bt = bsonTimestamp then do
    let inc ← readBlock buffer 4
    let ts ← readBlock buffer 4
    return makeObject bsonTimestamp (inc ++ ts)
  else if bt = bsonInt64 then
    (fun v => .scalar (.integer (Int64.ofNat v))) <$> readWord buffer
  else if bt = bsonDbpointer then do
    let br ← get
    let sz ← readInt32 buffer
    let _ ← readBytes (toInt32 (sz + 12))
    let bs ← memory buffer br.ptr (toInt32 (sz + 16))
    return makeObject bsonDbpointer bs
  else if bt = bsonJscode ∨ bt = bsonSymbol then do
    let br ← get
    let sz ← readInt32 buffer
    let _ ← readBytes sz
    let bs ← memory buffer br.ptr (toInt32 (sz + 4))
    return makeObject bt bs
  else if bt = bsonCodews then do
    let br ← get
    let sz ← readInt32 buffer
    let _ ← readBytes (toInt32 (sz - 4))
    let bs ← memory buffer br.ptr sz
    return makeObject bt bs
  else throw (.invalidType bt)

/-- One element: its key and its value. -/
def unpackElement (unpack : Bool → BsonRead (LuaValue Unit)) (array : Bool) :
    BsonRead (LuaScalar × LuaValue Unit) := do
  let bt ← readByte buffer
  let key ← readCstring buffer
  let v ← unpackValue buffer unpack bt
  return (if array then .integer (Int64.ofInt (toInt32 (strtol key + 1))) else .string key, v)

/-- The loop of `unpack_dict`. -/
def unpackElements (unpack : Bool → BsonRead (LuaValue Unit)) (array : Bool) :
    ℕ → BsonReader → LuaEntries Unit → Except BsonError (LuaEntries Unit)
  | 0, _, _ => .error .outOfFuel
  | fuel + 1, t, es =>
    if t.size = 0 then .ok es
    else do
      let (e, t) ← unpackElement buffer unpack array t
      unpackElements unpack array fuel t (setKey es e.1 e.2)

/-- `unpack_dict`, when the stack has room for so many calls of it inside each other. -/
def unpackDict (fuel : ℕ) : ℕ → Bool → BsonRead (LuaValue Unit)
  | 0, _ => throw .stackOverflow
  | stack + 1, array => do
    let sz ← readInt32 buffer
    let bytes ← readBytes (toInt32 (sz - 5))
    let last ← readByte buffer
    if last ≠ 0 then throw .invalidDocumentEnd
    let es ← unpackElements buffer (unpackDict fuel stack) array fuel ⟨bytes, toInt32 (sz - 5)⟩ []
    return .table () es

/-- `ldecode`, with the document that the pointer leads to, on a stack with room for so many calls
of `unpack_dict`, that is, for so many documents inside each other. -/
def ldecodeWithin (stack fuel : ℕ) : Except BsonError (LuaValue Unit) := do
  let len ← memory buffer 0 4
  let (v, _) ← unpackDict buffer fuel stack false ⟨0, toInt32 (leNat len)⟩
  return v

/-- `ldecode` with room for as many documents inside each other as there may be elements in one. -/
def ldecode (fuel : ℕ) : Except BsonError (LuaValue Unit) := ldecodeWithin buffer fuel fuel

end Read

end Uboss.Lib
