import Uboss.Lib.BsonGrammar

/-!
# The index of a document

`makeindex` in `lua-bson.c` walks over the elements of a document a second way, without making
values of them, and `lreplace` writes values of a fixed size in the place of others. What they do is
given with any function for `read_bytes`, and so is what `unpack_dict` does.
-/

namespace Uboss.Lib

open Math

def bsonTypeShift : ℕ := 5

section With

variable (buffer : List UInt8) (advance : ℤ → BsonRead ℤ)

/-! ### The index -/

/-- The `switch` of `lmakeindex`, with the pointer to a value of a fixed size. -/
def indexValue (bt : UInt8) : BsonRead (Option ℤ) :=
  if bt = bsonJscode ∨ bt = bsonSymbol ∨ bt = bsonString then do
    let sz ← readInt32 buffer
    let _ ← advance sz
    return none
  else if bt = bsonCodews ∨ bt = bsonArray ∨ bt = bsonDocument then do
    let sz ← readInt32 buffer
    let _ ← advance (toInt32 (sz - 4))
    return none
  else if bt = bsonBinary then do
    let sz ← readInt32 buffer
    let _ ← advance (toInt32 (sz + 1))
    return none
  else if bt = bsonRegex then do
    let _ ← readCstring buffer
    let _ ← readCstring buffer
    return none
  else if bt = bsonDbpointer then do
    let sz ← readInt32 buffer
    let _ ← advance (toInt32 (sz + 12))
    return none
  else
    match fixedSize bt with
    | none => throw (.invalidType bt)
    | some 0 => return none
    | some fieldSize => some <$> advance fieldSize

/-- `bt | (int)(br.ptr - start) << BSON_TYPE_SHIFT`: the types are smaller than `2 ^ 5`. -/
def indexId (bt : UInt8) (ptr : ℤ) : ℤ := toInt32 (ptr * 2 ^ bsonTypeShift + bt.toNat)

/-- A value of a fixed size is put into the index. -/
def indexPut (es : LuaEntries Unit) (bt : UInt8) (key : List UInt8) : Option ℤ → LuaEntries Unit
  | none => es
  | some ptr => setKey es (.string key) (.scalar (.integer (Int64.ofInt (indexId bt ptr))))

/-- `lmakeindex` with another `read_bytes`. -/
def lmakeindexWith (fuel : ℕ) : Except BsonError (LuaEntries Unit) := do
  let len ← memory buffer 0 4
  elementsLoop (elementStep buffer (indexValue buffer advance) indexPut) fuel
    ⟨4, toInt32 (length32 len - 5)⟩ []

def lmakeindex (fuel : ℕ) : Except BsonError (LuaEntries Unit) :=
  lmakeindexWith buffer readBytes fuel

/-- How `lmakeindex` follows lengths. -/
def indexLayout : Layout where
  sized bt :=
    if bt = bsonJscode ∨ bt = bsonSymbol ∨ bt = bsonString then some (0, 0)
    else if bt = bsonCodews ∨ bt = bsonArray ∨ bt = bsonDocument then some (0, -4)
    else if bt = bsonBinary then some (0, 1)
    else if bt = bsonDbpointer then some (0, 12)
    else none
  checked _ := false
  nested _ := false

/-! ### The decoder -/

/-- `unpackValue` with another `read_bytes`. Where the size is fixed, or checked, nothing
changes. -/
def unpackValueWith (unpack : Bool → BsonRead (LuaValue Unit)) (bt : UInt8) :
    BsonRead (LuaValue Unit) :=
  if bt = bsonBinary then do
    let sz ← readInt32 buffer
    let subtype ← readByte buffer
    let ptr ← advance sz
    let bs ← memory buffer ptr sz
    return makeObject bsonBinary (subtype :: bs)
  else if bt = bsonDbpointer then do
    let br ← get
    let sz ← readInt32 buffer
    let _ ← advance (toInt32 (sz + 12))
    let bs ← memory buffer br.ptr (toInt32 (sz + 16))
    return makeObject bsonDbpointer bs
  else if bt = bsonJscode ∨ bt = bsonSymbol then do
    let br ← get
    let sz ← readInt32 buffer
    let _ ← advance sz
    let bs ← memory buffer br.ptr (toInt32 (sz + 4))
    return makeObject bt bs
  else if bt = bsonCodews then do
    let br ← get
    let sz ← readInt32 buffer
    let _ ← advance (toInt32 (sz - 4))
    let bs ← memory buffer br.ptr sz
    return makeObject bt bs
  else unpackValue buffer unpack bt

/-- The key of an element, from its name. -/
def elementKey (array : Bool) (name : List UInt8) : LuaScalar :=
  if array then .integer (Int64.ofInt (toInt32 (strtol name + 1))) else .string name

/-- The entry of an element in the table that is made. -/
def unpackPut (array : Bool) (es : LuaEntries Unit) (_ : UInt8) (key : List UInt8)
    (v : LuaValue Unit) : LuaEntries Unit := setKey es (elementKey array key) v

/-- `unpackDict` with another `read_bytes`. -/
def unpackDictWith (fuel : ℕ) : ℕ → Bool → BsonRead (LuaValue Unit)
  | 0, _ => throw .stackOverflow
  | stack + 1, array => do
    let sz ← readInt32 buffer
    let bytes ← advance (toInt32 (sz - 5))
    let last ← readByte buffer
    if last ≠ 0 then throw .invalidDocumentEnd
    else
      let es ← elementsLoop
        (elementStep buffer (unpackValueWith buffer advance (unpackDictWith fuel stack))
          (unpackPut array))
        fuel ⟨bytes, toInt32 (sz - 5)⟩ []
      return .table () es

/-- `ldecodeWithin` with another `read_bytes`. -/
def ldecodeWith (stack fuel : ℕ) : Except BsonError (LuaValue Unit) := do
  let len ← memory buffer 0 4
  let (v, _) ← unpackDictWith buffer advance fuel stack false ⟨0, toInt32 (leNat len)⟩
  return v

/-- How `unpack_dict` follows lengths. -/
def decodeLayout : Layout where
  sized bt :=
    if bt = bsonBinary then some (1, 0)
    else if bt = bsonDbpointer then some (0, 12)
    else if bt = bsonJscode ∨ bt = bsonSymbol then some (0, 0)
    else if bt = bsonCodews then some (0, -4)
    else none
  checked bt := bt = bsonString
  nested bt := bt = bsonDocument ∨ bt = bsonArray

end With

section Same

variable {buffer : List UInt8}

theorem unpackValueWith_readBytes (unpack : Bool → BsonRead (LuaValue Unit)) (bt : UInt8) :
    unpackValueWith buffer readBytes unpack bt = unpackValue buffer unpack bt := by
  unfold unpackValueWith
  split_ifs with hbinary hdbpointer hjscode hcodews
  · subst hbinary
    change _ = (do
      let sz ← readInt32 buffer
      let subtype ← readByte buffer
      let bs ← readBlock buffer sz
      return makeObject bsonBinary (subtype :: bs))
    simp [readBlock]
  · subst hdbpointer
    rfl
  · rcases hjscode with rfl | rfl <;> rfl
  · subst hcodews
    rfl
  · rfl

theorem elementStep_unpack (unpack : Bool → BsonRead (LuaValue Unit)) (array : Bool)
    (es : LuaEntries Unit) :
    elementStep buffer (unpackValue buffer unpack) (unpackPut array) es =
      (fun e => setKey es e.1 e.2) <$> unpackElement buffer unpack array := by
  simp only [elementStep, unpackElement, map_bind, map_pure]
  rfl

theorem elementsLoop_unpack (unpack : Bool → BsonRead (LuaValue Unit)) (array : Bool) (fuel : ℕ)
    (t : BsonReader) (es : LuaEntries Unit) :
    elementsLoop (elementStep buffer (unpackValue buffer unpack) (unpackPut array)) fuel t es =
      unpackElements buffer unpack array fuel t es := by
  induction fuel generalizing t es with
  | zero => rfl
  | succ fuel ih =>
    rw [elementsLoop, unpackElements, elementStep_unpack]
    split
    · rfl
    · change ((unpackElement buffer unpack array t).map _).bind _ =
        (unpackElement buffer unpack array t).bind _
      cases unpackElement buffer unpack array t with
      | error e => rfl
      | ok p => exact ih p.2 _

theorem unpackDictWith_readBytes (fuel stack : ℕ) (array : Bool) :
    unpackDictWith buffer readBytes fuel stack array = unpackDict buffer fuel stack array := by
  induction stack generalizing array with
  | zero => rfl
  | succ stack ih =>
    rw [unpackDictWith, unpackDict]
    have hvalue : unpackValueWith buffer readBytes (unpackDictWith buffer readBytes fuel stack) =
        unpackValue buffer (unpackDict buffer fuel stack) := by
      funext bt
      rw [unpackValueWith_readBytes, funext ih]
    simp only [hvalue, elementsLoop_unpack]
    refine bind_congr fun sz => bind_congr fun bytes => bind_congr fun last => ?_
    split <;> rfl

/-- With `read_bytes` itself, `ldecodeWith` is the decoder. -/
theorem ldecodeWith_readBytes (stack fuel : ℕ) :
    ldecodeWith buffer readBytes stack fuel = ldecodeWithin buffer stack fuel := by
  simp only [ldecodeWith, ldecodeWithin, unpackDictWith_readBytes]

end Same

end Uboss.Lib
