import Uboss.Lib.LuaValue
import Uboss.Math.CheckedBuffer
import Uboss.Math.Escape

/-!
# Quoted strings of SQL

`lua-mysqlaux.c`. The number of escapes is counted before the block for the result is allocated, in
an `unsigned int`; the bytes of the result are written into the block one behind the other, and a
byte that is written outside of it is an error of its own.
-/

namespace Uboss.Lib.Mysqlaux

open Math List

inductive QuoteError
  /-- An error of Lua. -/
  | raised (message : String)
  /-- A byte is written outside of the block. -/
  | outOfBounds
  deriving DecidableEq, Repr

/-- The cases of `num_escape_sql_str`: whether a byte is counted. -/
def needsEscape (c : UInt8) : Bool :=
  if c &&& 0x80 = 0 then
    match c with
    | 0 | 8 | 10 | 13 | 9 | 26 | 92 | 39 | 34 => true
    | _ => false
  else false

/-- `num_escape_sql_str`, where `n` has been counted. -/
def numEscapeSqlStr : LuaString → ℕ → ℕ
  | [], n => n
  | c :: src, n => numEscapeSqlStr src (if needsEscape c then (n + 1) % 2 ^ 32 else n)

/-- The cases of `escape_sql_str`: the bytes that are written for one byte. -/
def escapeByte (c : UInt8) : List UInt8 :=
  if c &&& 0x80 = 0 then
    match c with
    | 0 => [92, 48]
    | 8 => [92, 98]
    | 10 => [92, 110]
    | 13 => [92, 114]
    | 9 => [92, 116]
    | 26 => [92, 90]
    | 92 => [92, 92]
    | 39 => [92, 39]
    | 34 => [92, 34]
    | c => [c]
  else [c]

/-- `*p++ = c`, where the block has `dlen` bytes. -/
def writeByte (dlen : ℕ) (block : List UInt8) (c : UInt8) : Except QuoteError (List UInt8) :=
  writeNext .outOfBounds dlen block block.length c

/-- Bytes that are written one behind the other. -/
def writeBytes (dlen : ℕ) (block bytes : List UInt8) : Except QuoteError (List UInt8) :=
  writeList .outOfBounds .ok dlen bytes block.length block

def escapeSqlStr (dlen : ℕ) : List UInt8 → LuaString → Except QuoteError (List UInt8)
  | block, [] => .ok block
  | block, c :: src => do
    let block ← writeBytes dlen block (escapeByte c)
    escapeSqlStr dlen block src

/-- The part of `quote_sql_str` that writes what is between the quotes. -/
def quoteBody (escape dlen : ℕ) (p : List UInt8) (src : LuaString) :
    Except QuoteError (List UInt8) :=
  if escape = 0 then writeBytes dlen p src else escapeSqlStr dlen p src

/-- `quote_sql_str` with strings on the stack. -/
def quoteSqlStr : List LuaString → Except QuoteError LuaString
  | [src] =>
    if src.length = 0 then .ok [39, 39]
    else do
      let escape := numEscapeSqlStr src 0
      let dlen := (2 + src.length + escape) % 2 ^ 64
      let p ← writeByte dlen [] 39
      let p ← quoteBody escape dlen p src
      let p ← writeByte dlen p 39
      if p.length ≠ dlen then .error (.raised "quote sql string error") else .ok p
  | _ => .error (.raised "expecting one argument")

section Spec

/-- What a backslash and a byte stand for. In front of a wildcard the backslash is kept. -/
def unescapeByte : UInt8 → List UInt8
  | 48 => [0]
  | 98 => [8]
  | 110 => [10]
  | 114 => [13]
  | 116 => [9]
  | 90 => [26]
  | 37 => [92, 37]
  | 95 => [92, 95]
  | c => [c]

/-- The bytes between the quotes: a quote is escaped there, so is not the one behind them, and they
stand for the string. -/
structure IsQuoted (body s : LuaString) : Prop where
  escaped : ∀ (a b : LuaString) (q : UInt8), body = a ++ q :: b → q = 39 ∨ q = 34 →
    isEscaping 92 a = true
  closed : isEscaping 92 body = false
  unescapes : unescape 92 unescapeByte body = s

end Spec

section Bytes

/-- Every byte stands for itself or is written as a backslash and another byte. -/
theorem escapeByte_eq (c : UInt8) :
    escapeByte c = [c] ∧ c ≠ 92 ∨ ∃ d, escapeByte c = [92, d] ∧ unescapeByte d = [c] := by
  unfold escapeByte
  split
  · split
    case h_10 => exact .inl ⟨rfl, by assumption⟩
    all_goals exact .inr ⟨_, rfl, rfl⟩
  · next hhigh => exact .inl ⟨rfl, fun h => hhigh (by rw [h]; rfl)⟩

/-- `escape_sql_str` as a code. -/
def escapeCode : EscapeCode (92 : UInt8) unescapeByte where
  code := escapeByte
  code_eq := escapeByte_eq

theorem length_escapeByte (c : UInt8) : (escapeByte c).length = if needsEscape c then 2 else 1 := by
  unfold escapeByte needsEscape
  split
  · split <;> simp_all
  · rfl

/-- Counting agrees with writing, as long as the counter does not wrap. -/
theorem numEscapeSqlStr_add (src : LuaString) (n : ℕ) (h : n + src.length < 2 ^ 32) :
    numEscapeSqlStr src n + src.length = n + (escapeCode.encode src).length := by
  induction src generalizing n with
  | nil => rfl
  | cons c src ih =>
    have hcode : (escapeCode.code c).length = if needsEscape c then 2 else 1 := length_escapeByte c
    rw [length_cons] at h
    rw [numEscapeSqlStr, EscapeCode.encode_cons, length_append, hcode, length_cons]
    split
    · have hcount := ih (n + 1) (by omega)
      rw [Nat.mod_eq_of_lt (by omega)]
      omega
    · have hcount := ih n (by omega)
      omega

end Bytes

section Block

variable {dlen : ℕ} {block bytes : List UInt8}

theorem writeByte_ok {c : UInt8} (h : block.length < dlen) :
    writeByte dlen block c = .ok (block ++ [c]) :=
  writeNext_ok rfl h

theorem writeBytes_ok (h : block.length + bytes.length ≤ dlen) :
    writeBytes dlen block bytes = .ok (block ++ bytes) :=
  writeList_ok (fun _ _ => rfl) rfl h

theorem escapeSqlStr_ok {src : LuaString}
    (h : block.length + (escapeCode.encode src).length ≤ dlen) :
    escapeSqlStr dlen block src = .ok (block ++ escapeCode.encode src) := by
  induction src generalizing block with
  | nil => rw [escapeSqlStr, EscapeCode.encode_nil, append_nil]
  | cons c src ih =>
    rw [EscapeCode.encode_cons, length_append] at h
    change block.length + ((escapeByte c).length + _) ≤ dlen at h
    rw [escapeSqlStr, writeBytes_ok (by omega)]
    change escapeSqlStr dlen (block ++ escapeByte c) src = _
    rw [ih (by rw [length_append]; omega), append_assoc]
    rfl

end Block

section Quote

variable {src : LuaString}

theorem quoteSqlStr_eq (h : src.length < 2 ^ 31) :
    quoteSqlStr [src] = .ok (39 :: (escapeCode.encode src ++ [39])) := by
  have hlong := escapeCode.length_le_encode src
  have hshort := escapeCode.length_encode_le src
  have hcount := numEscapeSqlStr_add src 0 (by omega)
  have hsize : (2 + src.length + numEscapeSqlStr src 0) % 2 ^ 64
      = 2 + (escapeCode.encode src).length := by
    rw [Nat.mod_eq_of_lt (by omega)]
    omega
  have hbody : quoteBody (numEscapeSqlStr src 0) (2 + (escapeCode.encode src).length) [39] src
      = .ok (39 :: escapeCode.encode src) := by
    unfold quoteBody
    split
    · next hnone =>
      have hsame : escapeCode.encode src = src := escapeCode.encode_of_length (by omega)
      rw [writeBytes_ok (by rw [hsame, length_singleton]; omega), hsame]
      rfl
    · exact escapeSqlStr_ok (by rw [length_singleton]; omega)
  rw [quoteSqlStr]
  split
  · next hnil =>
    rw [eq_nil_of_length_eq_zero hnil]
    rfl
  · dsimp only
    rw [hsize, writeByte_ok (by rw [length_nil]; omega), ok_bind, nil_append, hbody,
      ok_bind, writeByte_ok (by rw [length_cons]; omega), ok_bind]
    refine if_neg fun hne => hne ?_
    rw [length_append, length_cons, length_singleton]
    omega

theorem isQuoted_encode (s : LuaString) : IsQuoted (escapeCode.encode s) s where
  escaped a b q h hq := by
    apply escapeCode.isEscaping_of_encode_eq _ _ h <;> rcases hq with rfl | rfl <;> decide
  closed := escapeCode.isEscaping_encode s
  unescapes := escapeCode.unescape_encode s

end Quote

/-- A string of less than `2 ^ 31` bytes is quoted without an error and without a byte outside of
the block, and no other such string is quoted in the same way. -/
theorem quoteSqlStr_isQuoted (s : LuaString) (h : s.length < 2 ^ 31) :
    (∃ body, quoteSqlStr [s] = .ok (39 :: (body ++ [39])) ∧ IsQuoted body s) ∧
      ∀ t : LuaString, t.length < 2 ^ 31 → quoteSqlStr [t] = quoteSqlStr [s] → t = s := by
  refine ⟨⟨_, quoteSqlStr_eq h, isQuoted_encode s⟩, fun t ht hsame => ?_⟩
  rw [quoteSqlStr_eq ht, quoteSqlStr_eq h] at hsame
  have hbody := (List.cons.inj (Except.ok.inj hsame)).2
  exact escapeCode.encode_injective (List.append_cancel_right hbody)

/-- The string of a quote behind a backslash. -/
theorem quoteSqlStr_isQuoted_backslash :
    (∃ body, quoteSqlStr [[92, 39]] = .ok (39 :: (body ++ [39])) ∧ IsQuoted body [92, 39]) ∧
      ∀ t : LuaString, t.length < 2 ^ 31 → quoteSqlStr [t] = quoteSqlStr [[92, 39]] →
        t = [92, 39] :=
  quoteSqlStr_isQuoted [92, 39] (by decide)

/-- What is written for it, and the same bytes with a wildcard in place of the quote. -/
example : quoteSqlStr [[92, 39]] = .ok [39, 92, 92, 92, 39, 39] ∧
    quoteSqlStr [[92, 37]] = .ok [39, 92, 92, 37, 39] := by decide

end Uboss.Lib.Mysqlaux
