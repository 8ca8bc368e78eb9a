import Uboss.Lib.LuaValue
import Uboss.Math.CInt

/-!
# The tables of shared data

`lua-sharedata.c`: a tree of Lua tables is copied into `struct table`s, which services read without
a lock. The strings are kept on the stack of a Lua state of their own, and a table refers to them by
their index. The length of a source table is what `lua_rawlen` returns, which may be any number
where the table has holes.

What a VM may refuse is a parameter: the number of nested calls of C functions, and the number of
slots that `luaL_checkstack` can get for the strings. The want of memory is left out. A slot of the
hash part that was allocated and not written is `none`.
-/

namespace Uboss.Lib.Sharedata

open Math

/-- A value of the source. -/
abbrev Source := LuaValue ℕ

/-- The ways in which `lua-sharedata.c` stops. -/
inductive ConfError
  /-- An error of Lua. -/
  | raised (message : String)
  /-- `Invalid key %f`. -/
  | invalidKey (key : UInt64)
  /-- `assert(n)` fails. -/
  | assertion
  /-- An `int` overflows. -/
  | overflow
  /-- An access to a slot that is not in the table. -/
  | outOfBounds
  /-- A slot is read that was not written. -/
  | uninitialised
  /-- A loop that does not end. -/
  | endless
  deriving DecidableEq, Repr

/-- The error is one of Lua. -/
def ConfError.IsRaised : ConfError → Prop
  | .raised _ | .invalidKey _ => True
  | _ => False

/-! ### Tables -/

inductive KeyType
  | integer
  | string
  deriving DecidableEq, Repr

/-- `struct node`, once it is written. `next` is -1 where it is `none`. -/
structure Node (V : Type) where
  v : V
  /-- The integer key, or the index of a string. -/
  key : ℤ
  next : Option ℕ
  keyhash : UInt32
  keytype : KeyType
  nocolliding : Bool
  deriving DecidableEq, Repr

/-- `struct table`. -/
structure Table (V : Type) where
  array : List V := []
  hash : List (Option (Node V)) := []
  deriving DecidableEq, Repr

/-- `union value` with its type. -/
inductive ConfValue
  | nil
  | real (n : UInt64)
  | string (index : ℤ)
  | boolean (b : Bool)
  | table (tbl : Table ConfValue)
  | integer (d : Int64)

def ConfValue.isNil : ConfValue → Bool
  | .nil => true
  | _ => false

/-- `struct context`. `stringmap` is the table at index 1 of the state of the strings. -/
structure Context where
  stringmap : List (LuaString × ℤ) := []
  stringIndex : ℤ := 1
  deriving DecidableEq, Repr

/-! ### Keys -/

/-- `lua_typename`. -/
def typename : Source → String
  | .nil => "nil"
  | .scalar (.boolean _) => "boolean"
  | .scalar (.integer _) | .scalar (.real _) => "number"
  | .scalar (.string _) => "string"
  | .scalar (.lightuserdata _) => "userdata"
  | .table .. => "table"

/-- `countsize`, over what is left of the entries. -/
def countsize (sizearray : ℤ) : LuaEntries ℕ → ℤ → Except ConfError ℤ
  | [], n => .ok n
  | (key, _) :: es, n => do
    let n ← checkInt .overflow (n + 1)
    match key with
    | .scalar (.integer nkey) =>
      countsize sizearray es (if 0 < nkey.toInt ∧ nkey.toInt ≤ sizearray then n - 1 else n)
    | .scalar (.real x) => .error (.invalidKey x)
    | .scalar (.string _) | .table .. => countsize sizearray es n
    | key => .error (.raised s!"Invalid key type {typename key}")

/-- `calchash`. The loop reads every `step`-th byte, from the last one on. -/
def calchash (str : LuaString) : UInt32 :=
  let step := (str.length >>> 5) + 1
  (List.range (str.length / step)).foldl
    (fun h i => h ^^^ ((h <<< 5) + (h >>> 2) + (str.getD (str.length - i * step - 1) 0).toUInt32))
    (UInt32.ofNat str.length)

def stringindex (ctx : Context) (str : LuaString) : Except ConfError (Context × ℤ) :=
  match ctx.stringmap.lookup str with
  | some index => .ok (ctx, index)
  | none => do
    let index ← checkInt ConfError.overflow (ctx.stringIndex + 1)
    return ({ stringmap := (str, index) :: ctx.stringmap, stringIndex := index }, index)

/-- What `ishashkey` finds: an index of the array, or what to look for in the hash part. -/
inductive KeyPlace
  | array (key : ℤ)
  | hash (key : ℤ) (keyhash : UInt32) (keytype : KeyType)

/-- `(int) lua_tointeger`. -/
def toIntKey (n : Int64) : ℤ := n.toInt32.toInt

/-- `(uint32_t) key`. -/
def integerHash (key : ℤ) : UInt32 := UInt32.ofBitVec (BitVec.ofInt 32 key)

/-- `ishashkey`. `lua_tolstring` gives an empty string for what is no string. -/
def ishashkey (sizearray : ℕ) (k : Source) (ctx : Context) :
    Except ConfError (Context × KeyPlace) :=
  let number (key : ℤ) := if 0 < key ∧ key ≤ sizearray then KeyPlace.array key
    else .hash key (integerHash key) .integer
  let string (s : LuaString) := do
    let (ctx, index) ← stringindex ctx s
    return (ctx, KeyPlace.hash index (calchash s) .string)
  match k with
  | .scalar (.integer n) => .ok (ctx, number (toIntKey n))
  | .scalar (.real x) => .ok (ctx, number (toIntKey ((realToInteger x).getD 0)))
  | .scalar (.string s) => string s
  | _ => string []

/-! ### Conversion -/

/-- The call of `convtable` for a table in a table. -/
abbrev Converter := ℕ → LuaEntries ℕ → Context → Except ConfError (Context × Table ConfValue)

def setvalue (convtable : Converter) (v : Source) (ctx : Context) :
    Except ConfError (Context × ConfValue) :=
  match v with
  | .nil => .ok (ctx, .nil)
  | .scalar (.integer d) => .ok (ctx, .integer d)
  | .scalar (.real n) => .ok (ctx, .real n)
  | .scalar (.string s) => do
    let (ctx, index) ← stringindex ctx s
    return (ctx, .string index)
  | .scalar (.boolean b) => .ok (ctx, .boolean b)
  | .table rawlen es => do
    let (ctx, tbl) ← convtable rawlen es ctx
    return (ctx, .table tbl)
  | v => .error (.raised s!"Unsupport value type {typename v}")

/-- `n->valuetype == VALUETYPE_NIL`. -/
def isEmptySlot : Option (Node ConfValue) → Bool
  | none => true
  | some n => n.v.isNil

def setarray (convtable : Converter) (v : Source) (key : ℤ) (ctx : Context)
    (tbl : Table ConfValue) : Except ConfError (Context × Table ConfValue) := do
  let (ctx, v) ← setvalue convtable v ctx
  return (ctx, { tbl with array := tbl.array.set (key - 1).toNat v })

/-- `fillnocolliding`, over what is left of the entries. -/
def fillnocolliding (convtable : Converter) :
    LuaEntries ℕ → Context → Table ConfValue → Except ConfError (Context × Table ConfValue)
  | [], ctx, tbl => .ok (ctx, tbl)
  | (k, v) :: es, ctx, tbl => do
    let (ctx, place) ← ishashkey tbl.array.length k ctx
    match place with
    | .array key =>
      let (ctx, tbl) ← setarray convtable v key ctx tbl
      fillnocolliding convtable es ctx tbl
    | .hash key keyhash keytype =>
      let mainpos := keyhash.toNat % tbl.hash.length
      match tbl.hash[mainpos]? with
      | none => .error .outOfBounds
      | some n =>
        if isEmptySlot n then
          let (ctx, v) ← setvalue convtable v ctx
          let n := { v, key, next := none, keyhash, keytype, nocolliding := true }
          fillnocolliding convtable es ctx { tbl with hash := tbl.hash.set mainpos (some n) }
        else fillnocolliding convtable es ctx tbl

/-- `fillcolliding`, over what is left of the entries. -/
def fillcolliding (convtable : Converter) :
    LuaEntries ℕ → Context → Table ConfValue → Except ConfError (Context × Table ConfValue)
  | [], ctx, tbl => .ok (ctx, tbl)
  | (k, v) :: es, ctx, tbl => do
    let (ctx, place) ← ishashkey tbl.array.length k ctx
    match place with
    | .array _ => fillcolliding convtable es ctx tbl
    | .hash key keyhash keytype =>
      let pos := keyhash.toNat % tbl.hash.length
      match tbl.hash[pos]? with
      | none => .error .outOfBounds
      | some none => .error .uninitialised
      | some (some mainpos) =>
        if mainpos.keytype = keytype ∧ mainpos.key = key then fillcolliding convtable es ctx tbl
        else
          -- the key has not been inserted
          match tbl.hash.findIdx? isEmptySlot with
          | none => .error .assertion
          | some i =>
            let (ctx, v) ← setvalue convtable v ctx
            let hash := tbl.hash.set pos
              (some { mainpos with next := some i, nocolliding := false })
            let n := { v, key, next := mainpos.next, keyhash, keytype, nocolliding := false }
            fillcolliding convtable es ctx { tbl with hash := hash.set i (some n) }

/-- The loop over the array of a table without a hash part, with so many indices left. -/
def fillarray (convtable : Converter) (es : LuaEntries ℕ) :
    ℕ → ℤ → Context → Table ConfValue → Except ConfError (Context × Table ConfValue)
  | 0, _, ctx, tbl => .ok (ctx, tbl)
  | n + 1, i, ctx, tbl => do
    let (ctx, tbl) ← setarray convtable (rawget es (.integer (Int64.ofInt i))) i ctx tbl
    let i ← checkInt ConfError.overflow (i + 1)
    fillarray convtable es n i ctx tbl

/-- The body of `convtable`. -/
def convtableBody (convtable : Converter) : Converter := fun rawlen es ctx =>
  let sizearray := castInt rawlen
  if sizearray < 0 then .error (.raised "memory error")
  else do
    let sizehash ← countsize sizearray es 0
    let array := List.replicate sizearray.toNat ConfValue.nil
    if sizehash ≠ 0 then
      let tbl := { array, hash := List.replicate sizehash.toNat none }
      let (ctx, tbl) ← fillnocolliding convtable es ctx tbl
      fillcolliding convtable es ctx tbl
    else fillarray convtable es sizearray.toNat 1 ctx { array }

/-- `convtable`, with so many nested calls. -/
def convtable : ℕ → Converter
  | 0 => fun _ _ _ => .error (.raised "C stack overflow")
  | calls + 1 => convtableBody (convtable calls)

/-- The stack of the state of the strings, from index 1 on. -/
abbrev Strings := List (Option LuaString)

def convertStringmap (ctx : Context) : Strings :=
  ctx.stringmap.foldl (fun L e => L.set (e.2 - 1).toNat (some e.1))
    (List.replicate ctx.stringIndex.toNat none)

/-- The root of an object, and the state of its strings. -/
structure Conf where
  L : Strings
  root : Table ConfValue

/-- `lnewconf` and `pconv`, with so many nested calls and so many slots of the stack. -/
def lnewconf (calls stack : ℕ) : Source → Except ConfError Conf
  | .table rawlen es => do
    let (ctx, root) ← convtable calls rawlen es {}
    let space ← checkInt ConfError.overflow (ctx.stringIndex + 3)
    if space ≤ stack then return { L := convertStringmap ctx, root }
    else .error (.raised "stack overflow")
  | v => .error (.raised s!"table expected, got {typename v}")

/-! ### Access -/

/-- What is pushed onto the stack of the caller. -/
inductive Pushed
  | nil
  | scalar (s : LuaScalar)
  | table (tbl : Table ConfValue)

/-- `lua_tolstring` of an index of the state of the strings. -/
def tolstring (L : Strings) (index : ℤ) : LuaString := (L[(index - 1).toNat]?.join).getD []

def pushvalue (L : Strings) : ConfValue → Pushed
  | .nil => .nil
  | .real n => .scalar (.real n)
  | .integer d => .scalar (.integer d)
  | .string index => .scalar (.string (tolstring L index))
  | .boolean b => .scalar (.boolean b)
  | .table tbl => .table tbl

def pushkey {V : Type} (L : Strings) (n : Node V) : LuaScalar :=
  match n.keytype with
  | .integer => .integer (Int64.ofInt n.key)
  | .string => .string (tolstring L n.key)

/-- A key that is looked for: an integer, or a string. -/
inductive ConfKey
  | integer (key : ℤ)
  | string (str : LuaString)
  deriving DecidableEq, Repr

def ConfKey.keyhash : ConfKey → UInt32
  | .integer key => integerHash key
  | .string str => calchash str

section Access

variable {V : Type} (L : Strings) (tbl : Table V)

/-- The comparison in `lookup_key`. -/
def isNode (k : ConfKey) (n : Node V) : Bool := k.keyhash == n.keyhash &&
    match n.keytype, k with
    | .integer, .integer key => n.key == key
    | .string, .string str => str == tolstring L n.key
    | _, _ => false

/-- The slot with an index. -/
def slotAt (i : ℕ) : Except ConfError (Node V) :=
  match tbl.hash[i]? with
  | none => .error .outOfBounds
  | some none => .error .uninitialised
  | some (some n) => .ok n

/-- The loop of `lookup_key`, from a slot on. A loop that visits more slots than there are visits
one of them twice, and does not end. -/
def lookupLoop (k : ConfKey) : ℕ → ℕ → Except ConfError (Option ℕ)
  | 0, _ => .error .endless
  | visits + 1, i => do
    let n ← slotAt tbl i
    if isNode L k n then return some i
    else
      match n.next with
      | none => return none
      | some j => lookupLoop k visits j

/-- `lookup_key`: the index of the slot. -/
def lookupKey (k : ConfKey) : Except ConfError (Option ℕ) :=
  if tbl.hash.length = 0 then .ok none
  else do
    let pos := k.keyhash.toNat % tbl.hash.length
    let n ← slotAt tbl pos
    if k.keyhash ≠ n.keyhash ∧ n.nocolliding then return none
    else lookupLoop L tbl k tbl.hash.length pos

/-- The key of a call: an index of the array, or one that is looked for in the hash part. -/
inductive CallKey
  | array (i : ℕ)
  | hash (k : ConfKey)

/-- The key of `lindexconf` and `lnextkey`. -/
def callKey (sizearray : ℕ) : LuaScalar → Except ConfError CallKey
  | .integer n =>
    let key := toIntKey n
    if 0 < key ∧ key ≤ sizearray then .ok (.array (key - 1).toNat) else .ok (.hash (.integer key))
  | .real x => .error (.invalidKey x)
  | .string str => .ok (.hash (.string str))
  | s => .error (.raised s!"string expected, got {typename (.scalar s)}")

def pushfirsthash : Except ConfError (Option LuaScalar) :=
  if tbl.hash.length = 0 then .ok none
  else do
    let n ← slotAt tbl 0
    return some (pushkey L n)

end Access

/-- `lindexconf`. No value is pushed where the key is not found. -/
def lindexconf (L : Strings) (tbl : Table ConfValue) (k : LuaScalar) :
    Except ConfError (Option Pushed) := do
  match ← callKey tbl.array.length k with
  | .array i => return some (pushvalue L (tbl.array.getD i .nil))
  | .hash k =>
    match ← lookupKey L tbl k with
    | none => return none
    | some i =>
      let n ← slotAt tbl i
      return some (pushvalue L n.v)

/-- The first index of the array from `i` on with a value, as a key; or else the first key of the
hash part. -/
def nextarray (L : Strings) (tbl : Table ConfValue) (i : ℕ) : Except ConfError (Option LuaScalar) :=
  match ((List.range tbl.array.length).drop i).find? (fun j => !(tbl.array.getD j .nil).isNil) with
  | some j => .ok (some (.integer (Int64.ofNat (j + 1))))
  | none => pushfirsthash L tbl

/-- `lnextkey`. The first key is asked for with nil. -/
def lnextkey (L : Strings) (tbl : Table ConfValue) :
    Option LuaScalar → Except ConfError (Option LuaScalar)
  | none => nextarray L tbl 0
  | some (.real _) => .ok none
  | some k => do
    match ← callKey tbl.array.length k with
    | .array i => nextarray L tbl (i + 1)
    | .hash k =>
      match ← lookupKey L tbl k with
      | none => return none
      | some i =>
        if i + 1 = tbl.hash.length then return none
        else
          let n ← slotAt tbl (i + 1)
          return some (pushkey L n)

end Uboss.Lib.Sharedata
