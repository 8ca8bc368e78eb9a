import Mathlib.Algebra.Order.Ring.Nat

/-!
# Values of Lua

What the serializer and the cluster protocol see of Lua values. A table is the list of its entries,
in the order of `lua_next`. Floats are bit patterns.
-/

namespace Uboss.Lib

open List

/-- A string of Lua. -/
abbrev LuaString := List UInt8

/-- A value that is neither nil nor a table. -/
inductive LuaScalar
  | boolean (b : Bool)
  | integer (n : Int64)
  | real (bits : UInt64)
  | string (bytes : LuaString)
  | lightuserdata (ptr : UInt64)
  deriving DecidableEq, Repr

/-- A value of Lua. A table has its border and its entries in the order of `lua_next`. -/
inductive LuaValue (Len : Type)
  | nil
  | scalar (s : LuaScalar)
  | table (len : Len) (entries : List (LuaValue Len × LuaValue Len))

/-- The entries of a table. -/
abbrev LuaEntries (Len : Type) := List (LuaValue Len × LuaValue Len)

/-! ### Floats -/

/-- The exponent of a float. -/
def realExponent (bits : UInt64) : ℕ := (bits >>> 52 &&& 0x7ff).toNat

/-- The fraction of a float. -/
def realFraction (bits : UInt64) : ℕ := (bits &&& 0xfffffffffffff).toNat

def realIsNaN (bits : UInt64) : Bool := realExponent bits = 0x7ff ∧ realFraction bits ≠ 0

/-- The absolute value, if it is an integer. -/
def realMagnitude (bits : UInt64) : Option ℕ :=
  let e := realExponent bits
  let sig := 2 ^ 52 + realFraction bits
  if e = 0x7ff then none
  else if e = 0 then if realFraction bits = 0 then some 0 else none
  else if 1075 ≤ e then some (sig * 2 ^ (e - 1075))
  else if sig % 2 ^ (1075 - e) = 0 then some (sig / 2 ^ (1075 - e)) else none

/-- `luaV_tointeger` for a float. -/
def realToInteger (bits : UInt64) : Option Int64 := (realMagnitude bits).bind fun m =>
    if bits >>> 63 = 1 then if m ≤ 2 ^ 63 then some (Int64.ofInt (-m)) else none
    else if m < 2 ^ 63 then some (Int64.ofNat m) else none

example : realToInteger 0x4008000000000000 = some 3 := by decide

/-! ### Tables -/

/-- A key as it is kept in a table: a float that is an integer is kept as one. -/
def LuaScalar.normalize : LuaScalar → LuaScalar
  | .real bits => (realToInteger bits).elim (.real bits) .integer
  | s => s

/-- A float that is not a number. -/
def LuaScalar.isNaN : LuaScalar → Bool
  | .real bits => realIsNaN bits
  | _ => false

section Table

variable {Len : Type}

def LuaValue.isNil : LuaValue Len → Bool
  | .nil => true
  | _ => false

/-- The entry with a key. Tables are equal to nothing but themselves, and a key that has just been
made is in no table. -/
def LuaValue.isKey (k : LuaScalar) : LuaValue Len → Bool
  | .scalar s => s = k
  | _ => false

/-- The value, if it is neither nil nor a table. -/
def LuaValue.scalar? : LuaValue Len → Option LuaScalar
  | .scalar s => some s
  | _ => none

/-- `lua_rawget` of a key that is not a table. -/
def rawget (es : LuaEntries Len) (k : LuaScalar) : LuaValue Len :=
  ((es.find? fun e => e.1.isKey k).map (·.2)).getD .nil

/-- `lua_rawgeti`. -/
def rawgeti (es : LuaEntries Len) (i : ℕ) : LuaValue Len := rawget es (.integer (Int64.ofNat i))

/-- The entry of a key is replaced. -/
def setKey (es : LuaEntries Len) (k : LuaScalar) (v : LuaValue Len) : LuaEntries Len :=
  let es := es.filter fun e => !e.1.isKey k
  if v.isNil then es else (.scalar k, v) :: es

/-- `lua_rawseti`. -/
def rawseti (es : LuaEntries Len) (i : ℕ) (v : LuaValue Len) : LuaEntries Len :=
  setKey es (.integer (Int64.ofNat i)) v

/-- `lua_rawset`: there is an error if the key is nil or not a number. -/
def rawset (es : LuaEntries Len) (k v : LuaValue Len) : Option (LuaEntries Len) :=
  match k with
  | .nil => none
  | .scalar s => if s.isNaN then none else some (setKey es s.normalize v)
  | .table .. => some (if v.isNil then es else (k, v) :: es)

variable {es : LuaEntries Len} {k k' : LuaScalar} {v : LuaValue Len}

theorem LuaValue.eq_of_isKey {w : LuaValue Len} (h : w.isKey k = true) : w = .scalar k := by
  cases w with
  | scalar s => rw [of_decide_eq_true h]
  | nil | table => cases h

theorem LuaValue.eq_nil_of_isNil (h : v.isNil = true) : v = .nil := by
  cases v with
  | nil => rfl
  | scalar | table => cases h

theorem rawget_cons (e : LuaValue Len × LuaValue Len) :
    rawget (e :: es) k = if e.1.isKey k then e.2 else rawget es k := by
  unfold rawget
  cases h : e.1.isKey k <;> simp [h]

theorem rawget_filter_self : rawget (es.filter fun e => !e.1.isKey k) k = .nil := by
  have hnone : (es.filter fun e => !e.1.isKey k).find? (fun e => e.1.isKey k) = none := by
    rw [find?_eq_none]
    intro e he
    simpa using (mem_filter.mp he).2
  rw [rawget, hnone]
  rfl

theorem rawget_filter_ne (h : k' ≠ k) :
    rawget (es.filter fun e => !e.1.isKey k) k' = rawget es k' := by
  induction es with
  | nil => rfl
  | cons e es ih =>
    rw [rawget_cons]
    cases hk : e.1.isKey k with
    | false => rw [filter_cons_of_pos (by simp [hk]), rawget_cons, ih]
    | true =>
      have hne : e.1.isKey k' = false := by
        rw [LuaValue.eq_of_isKey hk]
        simpa [LuaValue.isKey] using Ne.symm h
      rw [filter_cons_of_neg (by simp [hk]), ih, hne]
      rfl

/-- What is read after a write. -/
theorem rawget_setKey : rawget (setKey es k v) k' = if k' = k then v else rawget es k' := by
  unfold setKey
  by_cases hk : k' = k
  · subst hk
    rw [if_pos rfl]
    cases hv : v.isNil with
    | true =>
      rw [if_pos rfl, LuaValue.eq_nil_of_isNil hv]
      exact rawget_filter_self
    | false =>
      rw [if_neg (by simp), rawget_cons, if_pos]
      simp [LuaValue.isKey]
  · rw [if_neg hk]
    cases hv : v.isNil with
    | true =>
      rw [if_pos rfl]
      exact rawget_filter_ne hk
    | false =>
      rw [if_neg (by simp), rawget_cons, if_neg]
      · exact rawget_filter_ne hk
      · simpa [LuaValue.isKey] using Ne.symm hk

theorem rawset_scalar {s : LuaScalar} (hnan : s.isNaN = false) (hs : s.normalize = s) :
    rawset es (.scalar s) v = some (setKey es s v) := by
  rw [rawset, hnan, hs]
  rfl

/-! ### Equality -/

/-- What can be seen of a value without looking into it. -/
inductive LuaShape
  | nil
  | scalar (s : LuaScalar)
  | table
  deriving DecidableEq, Repr

/-- What is left of a value without its entries. -/
def LuaValue.shape : LuaValue Len → LuaShape
  | .nil => .nil
  | .scalar s => .scalar s
  | .table .. => .table

/-- What is found where a path of keys leads to. -/
def LuaValue.at (v : LuaValue Len) : List LuaScalar → LuaShape
  | [] => v.shape
  | k :: ks =>
    match v with
    | .table _ es => (rawget es k).at ks
    | _ => .nil

/-- Values are the same if every path of keys leads to the same: tables are equal as finite maps,
and so are the tables in them. -/
def LuaValue.Same {Len' : Type} (v : LuaValue Len) (w : LuaValue Len') : Prop :=
  ∀ path, v.at path = w.at path

variable {Len' : Type} {es' : LuaEntries Len'} {len : Len} {len' : Len'}

theorem LuaValue.same_nil : (nil : LuaValue Len).Same (nil : LuaValue Len') := fun path => by
  cases path <;> rfl

theorem LuaValue.same_scalar (s : LuaScalar) :
    (scalar s : LuaValue Len).Same (scalar s : LuaValue Len') := fun path => by
  cases path <;> rfl

/-- Tables with the same values under all keys are the same. -/
theorem LuaValue.same_table_iff : (table len es).Same (table len' es') ↔
    ∀ k, (rawget es k).Same (rawget es' k) := by
  constructor
  · exact fun h k ks => h (k :: ks)
  · intro h path
    cases path with
    | nil => rfl
    | cons k ks => exact h k ks

end Table

end Uboss.Lib
