import Mathlib.Data.UInt
import Uboss.Lib.BsonFields
import Uboss.Lib.BsonRoundTrip

/-!
# Values that are replaced in place

`lreplace` in `lua-bson.c` writes a value over the one that the index leads to. The value is not
moved, so it is made to be of the type of the old one: a number becomes a float, anything becomes a
boolean, and an integer is cut to four bytes.
-/

namespace Uboss.Lib

open Math List Option Int LuaScalar LuaValue

inductive ReplaceError
  /-- `call makeindex first`. -/
  | noIndex
  /-- `Can't replace key : %s`. -/
  | cannotReplaceKey
  /-- `Type mismatch, need bson type %d`. -/
  | typeMismatch (type : UInt8)
  /-- `Invalid object id`. -/
  | invalidObjectId
  /-- `Invalid date`. -/
  | invalidDate
  /-- `Invalid timestamp`. -/
  | invalidTimestamp
  /-- `%f must be a 32bit integer `. -/
  | not32bit
  /-- `%f must be a 64bit integer `. -/
  | not64bit
  /-- `Can't replace type %d`. -/
  | cannotReplaceType (type : UInt8)
  /-- The error of Lua for an argument of another type. -/
  | badArgument
  /-- A write outside the document. -/
  | outside
  deriving DecidableEq, Repr

/-- The conversions between numbers and strings in the Lua VM. -/
structure LuaConversions where
  /-- `lua_tolstring` of a number. -/
  tolstring : LuaScalar → List UInt8
  /-- An integer as a float. -/
  toReal : Int64 → UInt64
  /-- The number in a string, if there is one. -/
  strToReal : List UInt8 → Option UInt64

/-- A function that writes into the document. What was written before an error stays. -/
abbrev Replacing (α : Type) := ExceptT ReplaceError (StateM (List UInt8)) α

section Replace

variable (L : LuaConversions)

/-- `luaL_checknumber`. -/
def checknumber : LuaValue Unit → Except ReplaceError UInt64
  | .scalar (.real d) => .ok d
  | .scalar (.integer i) => .ok (L.toReal i)
  | .scalar (.string str) => (L.strToReal str).elim (.error .badArgument) .ok
  | _ => .error .badArgument

/-- `luaL_checklstring`. -/
def checklstring : LuaValue Unit → Except ReplaceError (List UInt8)
  | .scalar (.string str) => .ok str
  | .scalar (.integer i) => .ok (L.tolstring (.integer i))
  | .scalar (.real d) => .ok (L.tolstring (.real d))
  | _ => .error .badArgument

/-- `lua_toboolean`. -/
def toboolean : LuaValue Unit → Bool
  | .nil => false
  | .scalar (.boolean b) => b
  | _ => true

/-- Bytes in the place of others. -/
def splice (buffer : List UInt8) (off : ℕ) (bs : List UInt8) : List UInt8 :=
  buffer.take off ++ bs ++ buffer.drop (off + bs.length)

/-- What the functions that write do with a `struct bson` at this place. -/
def writeAt (off : ℤ) (bs : List UInt8) : Replacing Unit := fun buffer =>
  if 0 ≤ off ∧ off + bs.length ≤ buffer.length then (.ok (), splice buffer off.toNat bs)
  else (.error .outside, buffer)

def replaceObject (type : UInt8) (off : ℤ) (v : LuaValue Unit) : Replacing Unit := do
  let data ← liftM (checklstring L v)
  if data.length < 6 ∨ data[0]? ≠ some 0 ∨ data[1]? ≠ some type then throw (.typeMismatch type)
  else if type = bsonObjectid then
    if data.length ≠ 2 + 12 then throw .invalidObjectId
    else writeAt off (data.drop 2)
  else if type = bsonDate then
    if data.length ≠ 2 + 4 then throw .invalidDate
    else writeAt off (leBytes 8 (leNat (data.drop 2) * 1000))
  else if type = bsonTimestamp then
    if data.length ≠ 2 + 8 then throw .invalidTimestamp
    else do
      writeAt off ((data.drop 2).take 4)
      writeAt (off + 4) (data.drop 6)
  else return ()

/-- The `switch` of `lreplace`. -/
def replaceValue (type : UInt8) (off : ℤ) (v : LuaValue Unit) : Replacing Unit :=
  if type = bsonReal then do
    let d ← liftM (checknumber L v)
    writeAt off (leBytes 8 d.toNat)
  else if type = bsonBoolean then writeAt off [if toboolean v then 1 else 0]
  else if type = bsonObjectid ∨ type = bsonDate ∨ type = bsonTimestamp then
    replaceObject L type off v
  else if type = bsonInt32 then
    match v with
    | .scalar (.integer i) => writeAt off (leBytes 4 i.toUInt64.toNat)
    | _ => throw .not32bit
  else if type = bsonInt64 then
    match v with
    | .scalar (.integer i) => writeAt off (leBytes 8 i.toUInt64.toNat)
    | _ => throw .not64bit
  else throw (.cannotReplaceType type)

/-- `lreplace`. There are only integers in the index. -/
def lreplace (index : Option (LuaEntries Unit)) (key : LuaScalar) (v : LuaValue Unit) :
    Replacing Unit :=
  match index with
  | none => throw .noIndex
  | some index =>
    match rawget index key.normalize with
    | .scalar (.integer n) =>
      let id := toInt32 n.toInt
      replaceValue L (UInt8.ofNat (id % 2 ^ bsonTypeShift).toNat) (id / 2 ^ bsonTypeShift) v
    | _ => throw .cannotReplaceKey

end Replace

/-- The same value, or an integer and a float that are the same number. -/
def Equals : LuaValue Unit → LuaValue Unit → Prop
  | .scalar (.real d), .scalar (.integer i) => realToInteger d = some i
  | .scalar (.integer i), .scalar (.real d) => realToInteger d = some i
  | v, w => v = w

/-- An error is raised and the document stays as it is, or it is decoded as the same table with the
other value for the key. -/
def Replaces (L : LuaConversions) (bytes : List UInt8) (decoded index : LuaEntries Unit)
    (key : LuaScalar) (v : LuaValue Unit) : Prop :=
  match lreplace L (some index) key v bytes with
  | (.error e, bytes') => e ≠ .outside ∧ bytes' = bytes
  | (.ok _, bytes') => ∃ decoded',
      (∀ fuel, bytes'.length < fuel → ldecode bytes' fuel = .ok (.table () decoded')) ∧
      Equals (rawget decoded' key) v ∧ ∀ k, k ≠ key → rawget decoded' k = rawget decoded k

/-! ### Values for a type -/

/-- The length of the bytes behind a zero and a type. -/
def objectSize (type : UInt8) : ℕ :=
  if type = bsonObjectid then 12 else if type = bsonDate then 4 else 8

/-- A value that is not refused for a type. -/
def Accepts (L : LuaConversions) (type : UInt8) (v : LuaValue Unit) : Prop :=
  if type = bsonReal then ∃ d, checknumber L v = .ok d
  else if type = bsonBoolean then True
  else if type = bsonInt32 ∨ type = bsonInt64 then ∃ i, v = .scalar (.integer i)
  else ∃ str, str.length = objectSize type ∧ v = .scalar (.string (0 :: type :: str))

/-- A value that does not become another one: a float or an integer that is one, a boolean, and an
integer of four bytes. -/
def Matches (L : LuaConversions) (type : UInt8) (v : LuaValue Unit) : Prop :=
  if type = bsonReal then (∃ d, v = .scalar (.real d)) ∨
    ∃ i, v = .scalar (.integer i) ∧ realToInteger (L.toReal i) = some i
  else if type = bsonBoolean then ∃ b, v = .scalar (.boolean b)
  else if type = bsonInt32 then ∃ i, v = .scalar (.integer i) ∧ is32bit i
  else True

section Replaced

variable {L : LuaConversions} {type : UInt8} {v : LuaValue Unit} {off : ℕ}
  {buffer bs str : List UInt8} {e : ReplaceError}

theorem writeAt_eq (h : off + bs.length ≤ buffer.length) :
    writeAt off bs buffer = (.ok (), splice buffer off bs) := by
  rw [writeAt, if_pos ⟨natCast_nonneg _, by omega⟩]
  rfl

/-- The value is refused, and nothing is written. -/
def Refused (L : LuaConversions) (type : UInt8) (v : LuaValue Unit) : Prop :=
  ∃ e, e ≠ .outside ∧ ∀ off buffer, replaceValue L type off v buffer = (.error e, buffer)

/-- These bytes are written. -/
def Written (L : LuaConversions) (type : UInt8) (v : LuaValue Unit) (bs : List UInt8) : Prop :=
  bs.length = fieldSize type ∧ ∀ (off : ℕ) buffer, off + bs.length ≤ buffer.length →
    replaceValue L type off v buffer = (.ok (), splice buffer off bs)

/-- The value is refused, or the bytes that are written are read as the value if it matches the
type. -/
def Replaced (L : LuaConversions) (type : UInt8) (v : LuaValue Unit) : Prop :=
  ¬ Accepts L type v ∧ Refused L type v ∨ Accepts L type v ∧
      ∃ bs, Written L type v bs ∧ (Equals (fixedValue type bs) v ↔ Matches L type v)

/-- A number is refused, or it is the same one as a float if it was one, or if it can be. -/
theorem checknumber_cases (L : LuaConversions) (v : LuaValue Unit) :
    checknumber L v = .error .badArgument ∨ ∃ d, checknumber L v = .ok d ∧
      (Equals (.scalar (.real d)) v ↔ Matches L bsonReal v) := by
  have hmatches : Matches L bsonReal v ↔ (∃ d, v = .scalar (.real d)) ∨
      ∃ i, v = .scalar (.integer i) ∧ realToInteger (L.toReal i) = some i := Iff.rfl
  rw [hmatches]
  cases v with
  | nil | table => exact .inl rfl
  | scalar s =>
    cases s with
    | boolean | lightuserdata => exact .inl rfl
    | real d => exact .inr ⟨d, rfl, iff_of_true rfl (.inl ⟨d, rfl⟩)⟩
    | integer i =>
      refine .inr ⟨L.toReal i, rfl, ⟨fun h => .inr ⟨i, rfl, h⟩, ?_⟩⟩
      rintro (⟨d, ⟨⟩⟩ | ⟨_, ⟨rfl⟩, h⟩)
      exact h
    | string str =>
      rw [checknumber]
      cases L.strToReal str with
      | none => exact .inl rfl
      | some d =>
        refine .inr ⟨d, rfl, iff_of_false (fun h => ?_) ?_⟩
        · cases h
        · rintro (⟨d, ⟨⟩⟩ | ⟨i, ⟨⟩, -⟩)

theorem replaced_real (L : LuaConversions) (v : LuaValue Unit) : Replaced L bsonReal v := by
  have hreplace : ∀ off, replaceValue L bsonReal off v = (do
      let d ← liftM (checknumber L v)
      writeAt off (leBytes 8 d.toNat)) := fun _ => rfl
  rcases checknumber_cases L v with herror | ⟨d, hok, hequals⟩
  · refine .inl ⟨?_, .badArgument, by decide, fun off buffer => ?_⟩
    · rintro ⟨d, hd⟩
      rw [herror] at hd
      cases hd
    · rw [hreplace, herror]
      rfl
  · refine .inr ⟨⟨d, hok⟩, leBytes 8 d.toNat, ⟨length_leBytes, fun off buffer h => ?_⟩, ?_⟩
    · rw [hreplace, hok]
      exact writeAt_eq h
    · have hread : fixedValue bsonReal (leBytes 8 d.toNat) = .scalar (.real d) := by
        change scalar (.real (UInt64.ofNat (leNat (leBytes 8 d.toNat)))) = _
        rw [leNat_leBytes_of_lt d.toNat_lt, UInt64.ofNat_toNat]
      rw [hread]
      exact hequals

theorem replaced_boolean (L : LuaConversions) (v : LuaValue Unit) : Replaced L bsonBoolean v := by
  refine .inr ⟨trivial, [if toboolean v then 1 else 0], ⟨rfl, fun off buffer h => writeAt_eq h⟩, ?_⟩
  have hread : fixedValue bsonBoolean [if toboolean v then 1 else 0] =
      .scalar (.boolean (toboolean v)) := by
    change scalar (.boolean (decide ((if toboolean v then (1 : UInt8) else 0) ≠ 0))) = _
    cases toboolean v <;> rfl
  rw [hread]
  change Equals (.scalar (.boolean (toboolean v))) v ↔ ∃ b, v = .scalar (.boolean b)
  constructor
  · intro h
    exact ⟨_, h.symm⟩
  · rintro ⟨b, rfl⟩
    rfl

theorem replaced_int32 (L : LuaConversions) (v : LuaValue Unit) : Replaced L bsonInt32 v := by
  by_cases h : ∃ i, v = .scalar (.integer i)
  · obtain ⟨i, rfl⟩ := h
    refine .inr ⟨⟨i, rfl⟩, leBytes 4 i.toUInt64.toNat,
      ⟨length_leBytes, fun off buffer h => writeAt_eq h⟩, ?_⟩
    have hequals : Equals (fixedValue bsonInt32 (leBytes 4 i.toUInt64.toNat))
        (.scalar (.integer i)) ↔ Int64.ofInt (length32 (leBytes 4 i.toUInt64.toNat)) = i := by
      change scalar (.integer (Int64.ofInt (length32 _))) = .scalar (.integer i) ↔ _
      rw [scalar.injEq, integer.injEq]
    rw [hequals, int32_iff]
    constructor
    · exact fun h => ⟨i, rfl, h⟩
    · rintro ⟨j, hj, h⟩
      cases hj
      exact h
  · refine .inl ⟨h, .not32bit, by decide, fun off buffer => ?_⟩
    cases v with
    | nil | table => rfl
    | scalar s =>
      cases s with
      | integer i => exact absurd ⟨i, rfl⟩ h
      | boolean | real | string | lightuserdata => rfl

theorem replaced_int64 (L : LuaConversions) (v : LuaValue Unit) : Replaced L bsonInt64 v := by
  by_cases h : ∃ i, v = .scalar (.integer i)
  · obtain ⟨i, rfl⟩ := h
    refine .inr ⟨⟨i, rfl⟩, leBytes 8 i.toUInt64.toNat,
      ⟨length_leBytes, fun off buffer h => writeAt_eq h⟩, iff_of_true ?_ trivial⟩
    change scalar (.integer (Int64.ofNat (leNat (leBytes 8 i.toUInt64.toNat)))) =
      .scalar (.integer i)
    rw [leNat_leBytes_of_lt i.toUInt64.toNat_lt, ofNat_toUInt64]
  · refine .inl ⟨h, .not64bit, by decide, fun off buffer => ?_⟩
    cases v with
    | nil | table => rfl
    | scalar s =>
      cases s with
      | integer i => exact absurd ⟨i, rfl⟩ h
      | boolean | real | string | lightuserdata => rfl

theorem splice_append {bs' : List UInt8} (h : off + (bs ++ bs').length ≤ buffer.length) :
    splice (splice buffer off bs) (off + bs.length) bs' = splice buffer off (bs ++ bs') := by
  rw [length_append] at h
  have hlen : (buffer.take off ++ bs).length = off + bs.length := by
    rw [length_append, length_take_of_le (by omega)]
  have hdrop : (splice buffer off bs).drop (off + bs.length + bs'.length) =
      buffer.drop (off + (bs ++ bs').length) := by
    rw [splice, ← drop_drop, drop_left' hlen, drop_drop, length_append, Nat.add_assoc]
  rw [splice, hdrop, splice, take_left' hlen, splice, append_assoc (buffer.take off)]

/-- A string that begins with a zero and the type, or the value is refused. -/
theorem object_cases (htolstring : ∀ s, 0 ∉ L.tolstring s) (type : UInt8) (v : LuaValue Unit) :
    (∃ str, 4 ≤ str.length ∧ v = .scalar (.string (0 :: type :: str))) ∨
      (∀ str, 4 ≤ str.length → v ≠ .scalar (.string (0 :: type :: str))) ∧
      ∃ e, e ≠ .outside ∧ ∀ off buffer, replaceObject L type off v buffer = (.error e, buffer) := by
  have hmismatch {data : List UInt8} (hdata : checklstring L v = .ok data)
      (hbad : data.length < 6 ∨ data[0]? ≠ some 0 ∨ data[1]? ≠ some type) :
      ∃ e, e ≠ .outside ∧ ∀ off buffer, replaceObject L type off v buffer = (.error e, buffer) := by
    refine ⟨.typeMismatch type, nofun, fun off buffer => ?_⟩
    rw [replaceObject, hdata]
    change (if _ then _ else _ : Replacing Unit) buffer = _
    rw [if_pos hbad]
    rfl
  have hnumber {data : List UInt8} (hdata : 0 ∉ data) : data[0]? ≠ some 0 := fun h =>
    hdata (mem_of_getElem? h)
  have hargument (hdata : checklstring L v = .error .badArgument) :
      ∃ e, e ≠ .outside ∧ ∀ off buffer, replaceObject L type off v buffer = (.error e, buffer) := by
    refine ⟨.badArgument, nofun, fun off buffer => ?_⟩
    rw [replaceObject, hdata]
    rfl
  cases v with
  | nil | table => exact .inr ⟨nofun, hargument rfl⟩
  | scalar s =>
    cases s with
    | boolean | lightuserdata => exact .inr ⟨nofun, hargument rfl⟩
    | integer i => exact .inr ⟨nofun, hmismatch rfl (.inr (.inl (hnumber (htolstring _))))⟩
    | real d => exact .inr ⟨nofun, hmismatch rfl (.inr (.inl (hnumber (htolstring _))))⟩
    | string data =>
      by_cases hbad : data.length < 6 ∨ data[0]? ≠ some 0 ∨ data[1]? ≠ some type
      · refine .inr ⟨?_, hmismatch rfl hbad⟩
        rintro str hlen ⟨rfl⟩
        rcases hbad with hshort | hzero | htype
        · simp only [length_cons] at hshort
          omega
        · exact hzero rfl
        · exact htype rfl
      · simp only [not_or, not_not, not_lt] at hbad
        obtain ⟨hlen, hzero, htype⟩ := hbad
        match data, hlen, hzero, htype with
        | c :: c' :: str, hlen, hzero, htype =>
          obtain rfl := some.inj hzero
          obtain rfl := some.inj htype
          exact .inl ⟨str, by simpa using hlen, rfl⟩

theorem replaceObject_tagged (hstr : 4 ≤ str.length) (off : ℤ) :
    replaceObject L type off (.scalar (.string (0 :: type :: str))) =
      if type = bsonObjectid then
        if str.length ≠ 12 then throw .invalidObjectId else writeAt off str
      else if type = bsonDate then
        if str.length ≠ 4 then throw .invalidDate else writeAt off (leBytes 8 (leNat str * 1000))
      else if type = bsonTimestamp then
        if str.length ≠ 8 then throw .invalidTimestamp
        else writeAt off (str.take 4) >>= fun _ => writeAt (off + 4) (str.drop 4)
      else return () := by
  have hgood : ¬((0 :: type :: str).length < 6 ∨ (0 :: type :: str)[0]? ≠ some 0 ∨
      (0 :: type :: str)[1]? ≠ some type) := by
    simp only [not_or, not_not, not_lt, length_cons]
    exact ⟨by omega, rfl, rfl⟩
  rw [replaceObject]
  change (if _ then _ else _ : Replacing Unit) = _
  rw [if_neg hgood]
  have hsize (n : ℕ) : str.length + 1 + 1 ≠ 2 + n ↔ str.length ≠ n := by omega
  simp only [length_cons, drop_succ_cons, drop_zero, hsize]

theorem replacing_bind {α β : Type} {m : Replacing α} {f : α → Replacing β} {a : α}
    {buffer buffer' : List UInt8} (h : m buffer = (.ok a, buffer')) :
    (m >>= f) buffer = f a buffer' := by
  change (fun p : Except ReplaceError α × List UInt8 => ExceptT.bindCont f p.1 p.2) (m buffer) = _
  rw [h]
  rfl

theorem writeAt_twice (hstr : str.length = 8) (h : off + str.length ≤ buffer.length) :
    (writeAt off (str.take 4) >>= fun _ => writeAt (off + 4) (str.drop 4)) buffer =
      (.ok (), splice buffer off str) := by
  have hfirst : (str.take 4).length = 4 := length_take_of_le (by omega)
  have hsplit : str.take 4 ++ str.drop 4 = str := take_append_drop 4 str
  have hsplice : splice (splice buffer off (str.take 4)) (off + 4) (str.drop 4) =
      splice buffer off str := by
    have happend : splice (splice buffer off (str.take 4)) (off + (str.take 4).length)
        (str.drop 4) = splice buffer off (str.take 4 ++ str.drop 4) :=
      splice_append (by rwa [hsplit])
    rwa [hfirst, hsplit] at happend
  have hlen : (splice buffer off (str.take 4)).length = buffer.length := by
    simp only [splice, length_append, length_drop, hfirst]
    rw [length_take_of_le (by omega)]
    omega
  have hsecond : writeAt ((off : ℤ) + 4) (str.drop 4) (splice buffer off (str.take 4)) =
      (.ok (), splice buffer off str) := by
    have hcast : (off : ℤ) + 4 = (off + 4 : ℕ) := rfl
    rw [← hsplice, hcast]
    exact writeAt_eq (by rw [length_drop, hlen]; omega)
  rw [replacing_bind (writeAt_eq (by omega))]
  exact hsecond

theorem fixedValue_date (hstr : str.length = 4) :
    fixedValue bsonDate (leBytes 8 (leNat str * 1000)) =
      .scalar (.string (0 :: bsonDate :: str)) := by
  have hlt : leNat str < 2 ^ (8 * str.length) := leNat_lt
  rw [hstr] at hlt
  have hread : leNat (leBytes 8 (leNat str * 1000)) = leNat str * 1000 :=
    leNat_leBytes_of_lt (by omega)
  have hmod : (((leNat str * 1000 : ℕ) : ℤ).bmod (2 ^ 64)).tdiv 1000 % 2 ^ 32 = leNat str := by
    have hdiv : ((leNat str * 1000 : ℕ) : ℤ).tdiv 1000 = leNat str := by
      rw [Nat.cast_mul]
      exact mul_tdiv_cancel _ (by decide)
    rw [bmod_eq_of_le_mul_two (by omega) (by omega), hdiv]
    omega
  have hbytes : leBytes 4 (leNat str) = str := by
    rw [← hstr]
    exact leBytes_leNat
  have hvalue (v : List UInt8) : fixedValue bsonDate v = makeObject bsonDate
      (leBytes 4 (((leNat v : ℤ).bmod (2 ^ 64)).tdiv 1000 % 2 ^ 32).toNat) := rfl
  rw [hvalue, hread, hmod, toNat_natCast, hbytes]
  rfl

theorem replaced_object (htolstring : ∀ s, 0 ∉ L.tolstring s)
    (htype : type = bsonObjectid ∨ type = bsonDate ∨ type = bsonTimestamp) (v : LuaValue Unit) :
    Replaced L type v := by
  have hreplace : ∀ off, replaceValue L type off v = replaceObject L type off v := by
    rcases htype with rfl | rfl | rfl <;> exact fun _ => rfl
  have haccepts : Accepts L type v ↔
      ∃ str, str.length = objectSize type ∧ v = .scalar (.string (0 :: type :: str)) := by
    rcases htype with rfl | rfl | rfl <;> rfl
  have hmatches : Matches L type v := by
    rcases htype with rfl | rfl | rfl <;> exact trivial
  have hsize : 4 ≤ objectSize type := by
    rcases htype with rfl | rfl | rfl <;> decide
  rcases object_cases htolstring type v with ⟨str, hlen, rfl⟩ | ⟨hother, e, he, herror⟩
  · by_cases hsize : str.length = objectSize type
    · refine .inr ⟨haccepts.mpr ⟨str, hsize, rfl⟩, ?_⟩
      rcases htype with rfl | rfl | rfl
      · have hlen : ¬str.length ≠ 12 := not_not.mpr hsize
        refine ⟨str, ⟨hsize, fun off buffer h => ?_⟩, iff_of_true rfl hmatches⟩
        rw [hreplace, replaceObject_tagged (by omega), if_pos rfl, if_neg hlen]
        exact writeAt_eq h
      · have hlen : ¬str.length ≠ 4 := not_not.mpr hsize
        refine ⟨leBytes 8 (leNat str * 1000), ⟨length_leBytes, fun off buffer h => ?_⟩,
          iff_of_true (fixedValue_date hsize) hmatches⟩
        rw [hreplace, replaceObject_tagged (by omega), if_neg (by decide), if_pos rfl, if_neg hlen]
        exact writeAt_eq h
      · have hlen : ¬str.length ≠ 8 := not_not.mpr hsize
        refine ⟨str, ⟨hsize, fun off buffer h => ?_⟩, iff_of_true rfl hmatches⟩
        rw [hreplace, replaceObject_tagged (by omega), if_neg (by decide), if_neg (by decide),
          if_pos rfl, if_neg hlen]
        exact writeAt_twice hsize h
    · refine .inl ⟨fun h => ?_, ?_⟩
      · obtain ⟨str', hsize', heq⟩ := haccepts.mp h
        cases heq
        exact hsize hsize'
      · rcases htype with rfl | rfl | rfl
        · have hbad : str.length ≠ 12 := hsize
          refine ⟨.invalidObjectId, nofun, fun off buffer => ?_⟩
          rw [hreplace, replaceObject_tagged hlen, if_pos rfl, if_pos hbad]
          rfl
        · have hbad : str.length ≠ 4 := hsize
          refine ⟨.invalidDate, nofun, fun off buffer => ?_⟩
          rw [hreplace, replaceObject_tagged hlen, if_neg (by decide), if_pos rfl, if_pos hbad]
          rfl
        · have hbad : str.length ≠ 8 := hsize
          refine ⟨.invalidTimestamp, nofun, fun off buffer => ?_⟩
          rw [hreplace, replaceObject_tagged hlen, if_neg (by decide), if_neg (by decide),
            if_pos rfl, if_pos hbad]
          rfl
  · refine .inl ⟨fun h => ?_, e, he, fun off buffer => hreplace off ▸ herror off buffer⟩
    obtain ⟨str, hlen, rfl⟩ := haccepts.mp h
    exact hother str (hsize.trans hlen.ge) rfl

/-- A value of a type that is in the index is refused, or its bytes are written. -/
theorem outcome (htolstring : ∀ s, 0 ∉ L.tolstring s) (htype : fieldSize type ≠ 0)
    (v : LuaValue Unit) : Replaced L type v := by
  have hmem : type ∈ [bsonInt64, bsonTimestamp, bsonDate, bsonReal, bsonBoolean, bsonObjectid,
      bsonInt32, bsonMinkey, bsonMaxkey, bsonNull] := by
    cases hfixed : fixedSize type with
    | none =>
      rw [fieldSize, hfixed] at htype
      exact absurd rfl htype
    | some n => exact fixed_types hfixed
  simp only [mem_cons, not_mem_nil, or_false] at hmem
  rcases hmem with rfl | rfl | rfl | rfl | rfl | rfl | rfl | rfl | rfl | rfl
  · exact replaced_int64 L v
  · exact replaced_object htolstring (.inr (.inr rfl)) v
  · exact replaced_object htolstring (.inr (.inl rfl)) v
  · exact replaced_real L v
  · exact replaced_boolean L v
  · exact replaced_object htolstring (.inl rfl) v
  · exact replaced_int32 L v
  all_goals exact absurd rfl htype

end Replaced

/-! ### The index -/

section Index

variable {L : LuaConversions} {index : LuaEntries Unit} {name : List UInt8} {type : UInt8}
  {ptr : ℕ}

theorem type_lt (htype : fieldSize type ≠ 0) : type.toNat < 32 := by
  rw [fieldSize, fixedSize] at htype
  split_ifs at htype with h8 h1 h12 h4
  · rcases h8 with rfl | rfl | rfl | rfl <;> decide
  · subst h1
    decide
  · subst h12
    decide
  · subst h4
    decide
  · exact absurd rfl htype
  · exact absurd rfl htype

/-- The type and the place of a value are found again in the index. -/
theorem lreplace_indexed (htype : fieldSize type ≠ 0) (hptr : ptr < 2 ^ 26)
    (hindex : rawget index (.string name) =
      .scalar (.integer (Int64.ofInt (indexId type ptr)))) (v : LuaValue Unit) :
    lreplace L (some index) (.string name) v = replaceValue L type ptr v := by
  have hlt := type_lt htype
  have hid : indexId type ptr = ptr * 32 + type.toNat := by
    change toInt32 ((ptr : ℤ) * 2 ^ 5 + type.toNat) = _
    rw [toInt32_eq (by omega) (by omega)]
    omega
  have hint : (Int64.ofInt (ptr * 32 + type.toNat)).toInt = ptr * 32 + type.toNat := by
    have hsize : Int64.size = 2 ^ 64 := rfl
    rw [Int64.toInt_ofInt]
    exact bmod_eq_of_le_mul_two (by omega) (by omega)
  have hread : toInt32 (ptr * 32 + type.toNat) = ptr * 32 + type.toNat :=
    toInt32_eq (by omega) (by omega)
  have hmod : ((ptr * 32 + type.toNat : ℤ) % 2 ^ bsonTypeShift).toNat = type.toNat := by
    rw [bsonTypeShift]
    omega
  have hdiv : (ptr * 32 + type.toNat : ℤ) / 2 ^ bsonTypeShift = ptr := by
    rw [bsonTypeShift]
    omega
  have hkey : (string name).normalize = .string name := rfl
  rw [lreplace]
  simp only [hkey, hindex, hid, hint, hread, hmod, hdiv, UInt8.ofNat_toNat]

theorem lreplace_none {key : LuaScalar} (hindex : rawget index key.normalize = .nil)
    (v : LuaValue Unit) : lreplace L (some index) key v = throw .cannotReplaceKey := by
  rw [lreplace]
  simp only [hindex]

end Index

/-! ### The element that is replaced -/

/-- The element with a name that the index leads to: the last one of a fixed size. -/
def indexedField (name : List UInt8) (fields : List BsonField) : Option BsonField :=
  fields.reverse.find? fun f => f.name = name ∧ fieldSize f.type ≠ 0

/-- The element with a name that is in the table: the last one. -/
def lastField (name : List UInt8) (fields : List BsonField) : Option BsonField :=
  fields.reverse.find? fun f => f.name = name

/-- The value is refused for the type of the old one, or it matches the type. If the index leads to
another element than the table has, the table is not changed. -/
def Replaceable (L : LuaConversions) (fields : List BsonField) (decoded : LuaEntries Unit)
    (key : LuaScalar) (v : LuaValue Unit) : Prop :=
  ∀ name f g, key = .string name → indexedField name fields = some f →
    lastField name fields = some g → Accepts L f.type v →
    if fieldSize g.type = 0 then Equals (rawget decoded key) v else Matches L f.type v

section Field

variable {pre post fields : List BsonField} {f : BsonField} {name bs : List UInt8}

theorem indexedField_eq (hfields : fields = pre ++ f :: post) (hname : f.name = name)
    (hsize : fieldSize f.type ≠ 0) (hpost : ∀ g ∈ post, g.name = name → fieldSize g.type = 0) :
    indexedField name fields = some f := by
  have hnone : post.reverse.find? (fun g => g.name = name ∧ fieldSize g.type ≠ 0) = none := by
    rw [find?_eq_none]
    intro g hg
    simpa using hpost g (mem_reverse.mp hg)
  rw [indexedField, hfields, reverse_append, reverse_cons, append_assoc, find?_append, hnone]
  simp [hname, hsize]

theorem indexedField_none (h : ∀ f ∈ fields, f.name = name → fieldSize f.type = 0) :
    indexedField name fields = none := by
  rw [indexedField, find?_eq_none]
  intro f hf
  simpa using h f (mem_reverse.mp hf)

/-- The last element with the name is behind the one that the index leads to, or it is this one. -/
theorem lastField_cases (hfields : fields = pre ++ f :: post) (hname : f.name = name) :
    (∃ g ∈ post, g.name = name ∧ lastField name fields = some g) ∨
      (∀ g ∈ post, g.name ≠ name) ∧ lastField name fields = some f := by
  rw [lastField, hfields, reverse_append, reverse_cons, append_assoc, find?_append]
  cases hfind : post.reverse.find? fun g => g.name = name with
  | some g =>
    have hg := mem_of_find?_eq_some hfind
    have hgname := find?_some hfind
    exact .inl ⟨g, mem_reverse.mp hg, of_decide_eq_true hgname, rfl⟩
  | none =>
    rw [find?_eq_none] at hfind
    refine .inr ⟨fun g hg => by simpa using hfind g (mem_reverse.mpr hg), ?_⟩
    simp [hname]

theorem splice_middle {a b c : List UInt8} (hbs : bs.length = b.length) :
    splice (a ++ (b ++ c)) a.length bs = a ++ (bs ++ c) := by
  rw [splice, take_left, ← drop_drop, drop_left, drop_left' hbs.symm, append_assoc]

end Field

section Replaces

variable {L : LuaConversions} {ps : List ReadField} {w bs : List UInt8}
  {index : LuaEntries Unit} {key : LuaScalar} {v : LuaValue Unit}

/-- The document with these elements. -/
def fieldsDocument (ps : List ReadField) : List UInt8 :=
  leBytes 4 ((fieldBytes ps).length + 5) ++ (fieldBytes ps ++ [0])

theorem length_fieldsDocument (ps : List ReadField) :
    (fieldsDocument ps).length = (fieldBytes ps).length + 5 := by
  simp only [fieldsDocument, length_append, length_leBytes, length_singleton]
  omega

theorem fieldBytes_eq (ps : List ReadField) :
    fieldBytes ps = (ps.map Prod.fst).flatMap BsonField.bytes := by
  rw [flatMap_map]
  rfl

theorem ldecode_fieldsDocument (hps : ∀ p ∈ ps, p.Decoded)
    (hlen : (fieldsDocument ps).length ≤ 2 ^ 30) {fuel : ℕ}
    (hfuel : (fieldsDocument ps).length < fuel) :
    ldecode (fieldsDocument ps) fuel = .ok (.table () (tableOf ps [])) := by
  rw [length_fieldsDocument] at hlen hfuel
  exact ldecode_fields hps rfl hlen hfuel

theorem lmakeindex_fieldsDocument (hfields : ∀ p ∈ ps, p.1.Readable decodeLayout)
    (hlen : (fieldsDocument ps).length ≤ 2 ^ 30) {fuel : ℕ}
    (hfuel : (fieldsDocument ps).length < fuel) :
    lmakeindex (fieldsDocument ps) fuel = .ok (indexFields 4 (ps.map Prod.fst) []) := by
  rw [length_fieldsDocument] at hlen hfuel
  refine lmakeindex_fields (fun f hf => ?_) (fieldBytes_eq ps) hlen hfuel
  obtain ⟨p, hp, rfl⟩ := mem_map.mp hf
  exact hfields p hp

theorem replaces_of_refused {e : ReplaceError} (he : e ≠ .outside)
    (h : lreplace L (some index) key v (fieldsDocument ps) = (.error e, fieldsDocument ps)) :
    Replaces L (fieldsDocument ps) (tableOf ps []) index key v := by
  rw [Replaces, h]
  exact ⟨he, rfl⟩

/-- The table before and after the value of one element is replaced. -/
theorem tableOf_replaced (pre post : List ReadField) {f f' : BsonField} (val val' : LuaValue Unit)
    (hname : f'.name = f.name) :
    (∀ k, k ≠ .string f.name → rawget (tableOf (pre ++ (f', val') :: post) []) k =
      rawget (tableOf (pre ++ (f, val) :: post) []) k) ∧
    ((∀ p ∈ post, p.1.name ≠ f.name) →
      rawget (tableOf (pre ++ (f', val') :: post) []) (.string f.name) = val') ∧
    ((∃ p ∈ post, p.1.name = f.name) →
      rawget (tableOf (pre ++ (f', val') :: post) []) (.string f.name) =
        rawget (tableOf (pre ++ (f, val) :: post) []) (.string f.name)) := by
  have htable (g : BsonField) (x : LuaValue Unit) : tableOf (pre ++ (g, x) :: post) [] =
      tableOf post (setKey (tableOf pre []) (.string g.name) x) := foldl_append ..
  rw [htable, htable, hname]
  refine ⟨fun k hk => ?_, fun hpost => ?_, fun ⟨p, hp, hpname⟩ => ?_⟩
  · refine rawget_tableOf_congr ?_
    rw [rawget_setKey, rawget_setKey, if_neg hk, if_neg hk]
  · rw [rawget_tableOf_notMem fun p hp heq => hpost p hp (string.inj heq).symm,
      rawget_setKey, if_pos rfl]
  · exact rawget_tableOf_mem ⟨p, hp, by rw [hpname]⟩ _ _

theorem fieldBytes_append (pre post : List ReadField) (p : ReadField) :
    fieldBytes (pre ++ p :: post) =
      fieldBytes pre ++ (p.1.type :: (p.1.name ++ [0]) ++ p.1.value ++ fieldBytes post) := by
  rw [fieldBytes, flatMap_append, flatMap_cons]
  rfl

theorem length_replaced (pre post : List ReadField) {f : BsonField} (val val' : LuaValue Unit)
    (hbs : bs.length = f.value.length) :
    (fieldBytes (pre ++ ({ f with value := bs }, val') :: post)).length =
      (fieldBytes (pre ++ (f, val) :: post)).length := by
  rw [fieldBytes_append, fieldBytes_append]
  simp [hbs]

theorem splice_fieldsDocument (pre post : List ReadField) {f : BsonField}
    (val val' : LuaValue Unit) (hbs : bs.length = f.value.length) :
    splice (fieldsDocument (pre ++ (f, val) :: post))
      (4 + (fieldBytes pre).length + f.name.length + 2) bs =
      fieldsDocument (pre ++ ({ f with value := bs }, val') :: post) := by
  have hlen := length_replaced pre post val val' hbs
  have hsplit (g : BsonField) (x : LuaValue Unit) (n : ℕ) :
      leBytes 4 n ++ (fieldBytes (pre ++ (g, x) :: post) ++ [0]) =
        (leBytes 4 n ++ fieldBytes pre ++ g.type :: (g.name ++ [0])) ++
          (g.value ++ (fieldBytes post ++ [0])) := by
    rw [fieldBytes_append]
    simp
  have hprefix (n : ℕ) : (leBytes 4 n ++ fieldBytes pre ++ f.type :: (f.name ++ [0])).length =
      4 + (fieldBytes pre).length + f.name.length + 2 := by
    simp only [length_append, length_cons, length_nil, length_leBytes]
    omega
  rw [fieldsDocument, fieldsDocument, hlen, hsplit, hsplit, ← hprefix]
  exact splice_middle hbs

theorem fixedSize_of_ne_zero {type : UInt8} (h : fieldSize type ≠ 0) :
    fixedSize type = some (fieldSize type) := by
  rw [fieldSize] at h ⊢
  cases hfixed : fixedSize type with
  | none =>
    rw [hfixed] at h
    exact absurd rfl h
  | some n => rfl

theorem replaceable_iff {fields : List BsonField} {decoded : LuaEntries Unit} {name : List UInt8}
    {f g : BsonField} (hindexed : indexedField name fields = some f)
    (hlast : lastField name fields = some g) (haccepts : Accepts L f.type v) :
    Replaceable L fields decoded (.string name) v ↔
      if fieldSize g.type = 0 then Equals (rawget decoded (.string name)) v
      else Matches L f.type v := by
  constructor
  · exact fun h => h name f g rfl hindexed hlast haccepts
  · rintro h name' f' g' heq hindexed' hlast' -
    obtain rfl := string.inj heq
    obtain rfl := some.inj (hindexed.symm.trans hindexed')
    obtain rfl := some.inj (hlast.symm.trans hlast')
    exact h

/-- After a value was written, the table is as expected if the value of the key is. -/
theorem replaces_of_written {ps' : List ReadField} (hps : ∀ p ∈ ps', p.Decoded)
    (hlen : (fieldsDocument ps').length < 2 ^ 26)
    (h : lreplace L (some index) key v (fieldsDocument ps) = (.ok (), fieldsDocument ps'))
    (hother : ∀ k, k ≠ key → rawget (tableOf ps' []) k = rawget (tableOf ps []) k) :
    Replaces L (fieldsDocument ps) (tableOf ps []) index key v ↔
      Equals (rawget (tableOf ps' []) key) v := by
  have hdecode {fuel : ℕ} (hfuel : (fieldsDocument ps').length < fuel) :
      ldecode (fieldsDocument ps') fuel = .ok (.table () (tableOf ps' [])) :=
    ldecode_fieldsDocument hps (by omega) hfuel
  rw [Replaces, h]
  constructor
  · rintro ⟨decoded', hdecoded, hequals, -⟩
    have hsame := (hdecoded _ (Nat.lt_succ_self _)).symm.trans (hdecode (Nat.lt_succ_self _))
    rwa [(table.inj (Except.ok.inj hsame)).2] at hequals
  · exact fun hequals => ⟨_, fun fuel => hdecode, hequals, hother⟩

theorem replaces_indexed (htolstring : ∀ s, 0 ∉ L.tolstring s) {pre post : List ReadField}
    {f : BsonField} {val : LuaValue Unit} (hsplit : ps = pre ++ (f, val) :: post)
    (hfield : f.Readable decodeLayout) (hps : ∀ p ∈ ps, p.Decoded)
    (hlen : (fieldsDocument ps).length < 2 ^ 26) (hsize : fieldSize f.type ≠ 0)
    (hpost : ∀ p ∈ post, p.1.name = f.name → fieldSize p.1.type = 0)
    (hindex : rawget index (.string f.name) = .scalar (.integer (Int64.ofInt (indexId f.type
      (4 + (fieldBytes pre).length + f.name.length + 2 : ℕ))))) :
    Replaces L (fieldsDocument ps) (tableOf ps []) index (.string f.name) v ↔
      Replaceable L (ps.map Prod.fst) (tableOf ps []) (.string f.name) v := by
  have hmap : ps.map Prod.fst = pre.map Prod.fst ++ f :: post.map Prod.fst := by
    rw [hsplit, map_append, map_cons]
  have hindexed : indexedField f.name (ps.map Prod.fst) = some f :=
    indexedField_eq hmap rfl hsize fun g hg => by
      obtain ⟨p, hp, rfl⟩ := mem_map.mp hg
      exact hpost p hp
  have hvalue : f.value.length = fieldSize f.type :=
    hfield.elim fun _ h => length_of_fixed (fixedSize_of_ne_zero hsize) h.2
  have hptr : 4 + (fieldBytes pre).length + f.name.length + 2 + f.value.length ≤
      (fieldsDocument ps).length := by
    rw [length_fieldsDocument, hsplit, fieldBytes_append]
    simp only [length_append, length_cons, length_nil]
    omega
  have hreplace := lreplace_indexed (L := L) hsize (by omega) hindex v
  rcases outcome htolstring hsize v with ⟨hrefuses, e, he, herror⟩ | ⟨haccepts, bs, hbs, hequals⟩
  · refine iff_of_true (replaces_of_refused he ?_) ?_
    · rw [hreplace]
      exact herror _ _
    · rintro name f' g heq hindexed' - haccepts
      obtain rfl := string.inj heq
      obtain rfl := some.inj (hindexed.symm.trans hindexed')
      exact absurd haccepts hrefuses
  · obtain ⟨hbslen, hwrite⟩ := hbs
    have hsame : bs.length = f.value.length := hbslen.trans hvalue.symm
    have hbytes := splice_fieldsDocument pre post val (fixedValue f.type bs) hsame
    have hsizes := length_replaced pre post val (fixedValue f.type bs) hsame
    have hname : BsonField.name { f with value := bs } = f.name := rfl
    obtain ⟨hother, hnone, hsome⟩ := tableOf_replaced pre post val (fixedValue f.type bs) hname
    have hdecoded : ReadField.Decoded ({ f with value := bs }, fixedValue f.type bs) :=
      ⟨hfield.elim fun _ h => h.1, fun buffer fuel stack hbuf _ _ =>
        unpack_fixed hbuf (hbslen ▸ fixedSize_of_ne_zero hsize)⟩
    generalize (({ f with value := bs } : BsonField), fixedValue f.type bs) = p' at *
    have hps' : ∀ p ∈ pre ++ p' :: post, p.Decoded := by
      rw [hsplit] at hps
      simp only [forall_mem_append, forall_mem_cons] at hps ⊢
      exact ⟨hps.1, hdecoded, hps.2.2⟩
    rw [← hsplit] at hbytes hsizes hother hsome
    have hlen' : (fieldsDocument (pre ++ p' :: post)).length < 2 ^ 26 := by
      rwa [length_fieldsDocument, hsizes, ← length_fieldsDocument]
    have hok : lreplace L (some index) (.string f.name) v (fieldsDocument ps) =
        (.ok (), fieldsDocument (pre ++ p' :: post)) := by
      rw [hreplace, hwrite _ _ (by omega), hbytes]
    rw [replaces_of_written hps' hlen' hok hother]
    rcases lastField_cases hmap rfl with ⟨g, hg, hgname, hlast⟩ | ⟨hno, hlast⟩
    · rw [replaceable_iff hindexed hlast haccepts]
      obtain ⟨p, hp, rfl⟩ := mem_map.mp hg
      rw [if_pos (hpost p hp hgname), hsome ⟨p, hp, hgname⟩]
    · rw [replaceable_iff hindexed hlast haccepts, if_neg hsize,
        hnone fun p hp => hno _ (mem_map_of_mem hp)]
      exact hequals

/-- A value in a document is replaced as it should be if and only if it is refused for the type of
the old one, or matches it. -/
theorem replaces_document (htolstring : ∀ s, 0 ∉ L.tolstring s)
    (hfields : ∀ p ∈ ps, p.1.Readable decodeLayout) (hps : ∀ p ∈ ps, p.Decoded)
    (hlen : (fieldsDocument ps).length < 2 ^ 26) :
    Replaces L (fieldsDocument ps) (tableOf ps []) (indexFields 4 (ps.map Prod.fst) []) key v ↔
      Replaceable L (ps.map Prod.fst) (tableOf ps []) key v := by
  by_cases hstring : ∃ name, key = .string name
  · obtain ⟨name, rfl⟩ := hstring
    rcases rawget_indexFields (ps.map Prod.fst) 4 name [] with
      ⟨pre, f, post, hsplit, rfl, hsize, hpost, hindex⟩ | ⟨hnone, hindex⟩
    · obtain ⟨pre, rest, rfl, rfl, hrest⟩ := map_eq_append_iff.mp hsplit
      obtain ⟨⟨_, val⟩, post, rfl, rfl, rfl⟩ := map_eq_cons_iff.mp hrest
      rw [← fieldBytes_eq] at hindex
      exact replaces_indexed htolstring rfl (hfields _ (by simp)) hps hlen hsize
        (fun p hp => hpost _ (mem_map_of_mem hp)) hindex
    · refine iff_of_true (replaces_of_refused (e := .cannotReplaceKey) nofun ?_) ?_
      · rw [lreplace_none hindex]
        rfl
      · rintro name f g heq hf
        obtain rfl := string.inj heq
        rw [indexedField_none hnone] at hf
        cases hf
  · refine iff_of_true (replaces_of_refused (e := .cannotReplaceKey) nofun ?_) ?_
    · have hkey : ∀ name, key.normalize ≠ .string name := by
        intro name h
        cases key with
        | real d =>
          rw [LuaScalar.normalize] at h
          cases hint : realToInteger d with
          | none => rw [hint] at h; cases h
          | some i => rw [hint] at h; cases h
        | string name => exact hstring ⟨name, rfl⟩
        | boolean | integer | lightuserdata => cases h
      rw [lreplace_none (rawget_indexFields_ne _ 4 hkey [])]
      rfl
    · exact fun name f g heq => absurd ⟨name, heq⟩ hstring

end Replaces

/-- In the document of a sound table, a value is replaced as it should be if and only if it is
refused for the type of the old one, or matches it. -/
theorem replaces_iff {L : LuaConversions} (htolstring : ∀ s, 0 ∉ L.tolstring s) {len : ℕ}
    {es : LuaEntries ℕ} {bytes : List UInt8} (h : Encodable (.table len es))
    (hcode : lencode L.tolstring es = .ok bytes) (hlen : bytes.length < 2 ^ 26) {fuel : ℕ}
    (hfuel : bytes.length < fuel) :
    ∃ fields decoded index, fields.length = es.length ∧
      (∀ f ∈ fields, f.Readable decodeLayout) ∧ body bytes = fields.flatMap BsonField.bytes ∧
      ldecode bytes fuel = .ok (.table () decoded) ∧ lmakeindex bytes fuel = .ok index ∧
      ∀ key v, Replaces L bytes decoded index key v ↔ Replaceable L fields decoded key v := by
  obtain ⟨w, rfl, fields, hcount, hwithin, rfl⟩ := (h.isDocument htolstring hcode).1
  have hfields : ∀ f ∈ fields, f.Readable decodeLayout := fun f hf => ⟨_, hwithin f hf⟩
  obtain ⟨ps, rfl, hps⟩ := exists_decoded hfields
  rw [← fieldBytes_eq] at hlen hfuel ⊢
  have hreadable : ∀ p ∈ ps, p.1.Readable decodeLayout :=
    fun p hp => hfields _ (List.mem_map_of_mem hp)
  change (fieldsDocument ps).length < _ at hlen hfuel
  refine ⟨ps.map Prod.fst, tableOf ps [], indexFields 4 (ps.map Prod.fst) [], hcount, hfields, ?_,
    ldecode_fieldsDocument hps (by omega) hfuel,
    lmakeindex_fieldsDocument hreadable (by omega) hfuel, fun key v => ?_⟩
  · rw [body_append _ length_leBytes, fieldBytes_eq]
  · exact replaces_document htolstring hreadable hps hlen

/-- An integer of 53 bits as a float. -/
def integerReal (i : Int64) : UInt64 :=
  let n := i.toInt.natAbs
  if n = 0 then 0
  else
    (if i.toInt < 0 then 2 ^ 63 else 0) +
      UInt64.ofNat ((1023 + n.log2) * 2 ^ 52 + (n * 2 ^ 52 / 2 ^ n.log2 - 2 ^ 52))

example : integerReal (-3) = 0xc008000000000000 := by decide +kernel

/-- The conversions of integers, and of strings of digits. -/
def digitConversions : LuaConversions where
  tolstring := integerText
  toReal := integerReal
  strToReal str :=
    if str ≠ [] ∧ str.all isDigit then some (integerReal (Int64.ofNat (digitsValue str))) else none

theorem replaces_oneNumber : ∃ fields decoded index, fields.length = 1 ∧
    (∀ f ∈ fields, f.Readable decodeLayout) ∧ body oneNumber = fields.flatMap BsonField.bytes ∧
    ldecode oneNumber 13 = .ok (.table () decoded) ∧ lmakeindex oneNumber 13 = .ok index ∧
    ∀ key v, Replaces digitConversions oneNumber decoded index key v ↔
      Replaceable digitConversions fields decoded key v :=
  replaces_iff zero_notMem_integerText
    (@encodable_one [97] (.integer 1) (by decide) nofun) (by decide) (by decide) (by decide)

/-- The element of `oneNumber`. -/
def numberField : ReadField := (⟨bsonInt32, [97], [1, 0, 0, 0]⟩, fixedValue bsonInt32 [1, 0, 0, 0])

/-- An integer that needs more than four bytes is cut. -/
theorem replaced_integer_cut : ∃ decoded index,
    lencode integerText (oneEntry [97] (.integer 1)) = .ok oneNumber ∧
    ldecode oneNumber 13 = .ok (.table () decoded) ∧ lmakeindex oneNumber 13 = .ok index ∧
    ¬ Replaces digitConversions oneNumber decoded index (.string [97])
      (.scalar (.integer 4294967301)) := by
  have hname : (0 : UInt8) ∉ [97] := by decide
  have hfields : ∀ p ∈ [numberField], p.1.Readable decodeLayout := by
    intro p hp
    obtain rfl := List.mem_singleton.mp hp
    exact ⟨0, hname, .fixed rfl⟩
  have hps : ∀ p ∈ [numberField], p.Decoded := by
    intro p hp
    obtain rfl := List.mem_singleton.mp hp
    exact ⟨hname, fun buffer fuel stack hbuf _ _ => unpack_fixed hbuf rfl⟩
  have hdocument : oneNumber = fieldsDocument [numberField] := by decide
  have hlen : (fieldsDocument [numberField]).length = 12 := rfl
  have hdecode := ldecode_fieldsDocument hps (by omega) (hlen.trans_lt (Nat.lt_succ_self 12))
  have hindex := lmakeindex_fieldsDocument hfields (by omega) (hlen.trans_lt (Nat.lt_succ_self 12))
  rw [← hdocument] at hdecode hindex
  have hcode : lencode integerText (oneEntry [97] (.integer 1)) = .ok oneNumber := by decide
  refine ⟨_, _, hcode, hdecode, hindex, ?_⟩
  rw [hdocument]
  have hshort : (fieldsDocument [numberField]).length < 2 ^ 26 := by omega
  intro h
  rw [replaces_document (L := digitConversions) zero_notMem_integerText hfields hps hshort] at h
  have hindexed : indexedField [97] ([numberField].map Prod.fst) = some numberField.1 := rfl
  have hlast : lastField [97] ([numberField].map Prod.fst) = some numberField.1 := rfl
  have hmatches := (replaceable_iff hindexed hlast ⟨_, rfl⟩).mp h
  rw [if_neg (by decide)] at hmatches
  obtain ⟨i, hi, hfits⟩ := hmatches
  cases hi
  exact absurd hfits (by decide +kernel)

end Uboss.Lib
