import Mathlib.Algebra.Order.Ring.Int
import Mathlib.Data.List.TakeWhile
import Uboss.Lib.LuaValue
import Uboss.Math.ByteQueue

/-!
# Text in Lua

What the library of Lua's strings does: `string.find` without patterns, `string.sub`, the operator
`..`, and `tonumber` with a base, as `lstrlib.c`, `lvm.c` and `lbaselib.c` have them. A string is
shorter than `MAX_SIZE` bytes, and concatenating more is an error.
-/

namespace Uboss.Lib.LuaText

open Math List Int Nat

def maxSize : ℕ := 2 ^ 63 - 1

/-- `luaV_concat` of two strings. -/
def concat {ε : Type} (overflow : ε) (s t : LuaString) : Except ε LuaString :=
  if s.length + t.length < maxSize then .ok (s ++ t) else .error overflow

def posrelat (pos : ℤ) (len : ℕ) : ℤ :=
  if 0 ≤ pos then pos else if len < -pos then 0 else len + pos + 1

/-- `s:find(pattern, init, true)`, the first of its results. -/
def find (s pattern : LuaString) (init : ℤ) : Option ℕ :=
  let init := max 1 (posrelat init s.length)
  if s.length + 1 < init then none
  else (occurrence pattern (s.drop (init.toNat - 1))).map (· + init.toNat)

/-- `s:sub(i, j)`. -/
def sub (s : LuaString) (i j : ℤ) : LuaString :=
  let first := max 1 (posrelat i s.length)
  let last := min (s.length : ℤ) (posrelat j s.length)
  if last < first then [] else (s.drop (first.toNat - 1)).take (last - first + 1).toNat

/-- `lua_Integer` of a number modulo `2 ^ 64`. -/
def toInteger (n : ℤ) : ℤ := n.bmod (2 ^ 64)

/-- `s:lower()` -/
def lower (s : LuaString) : LuaString := s.map fun c => if 65 ≤ c ∧ c ≤ 90 then c + 32 else c

/-! ### Numerals -/

/-- `SPACECHARS`. -/
def isSpace (c : UInt8) : Bool := c ∈ [32, 12, 10, 13, 9, 11]

def isDigit (c : UInt8) : Bool := 48 ≤ c ∧ c ≤ 57

def isAlnum (c : UInt8) : Bool := isDigit c ∨ (65 ≤ c ∧ c ≤ 90) ∨ (97 ≤ c ∧ c ≤ 122)

/-- The value of a digit: that of a letter is the same for `toupper` of it. -/
def digitValue (c : UInt8) : ℕ :=
  if isDigit c then c.toNat - 48 else (if 97 ≤ c then c.toNat - 32 else c.toNat) - 65 + 10

/-- The loop of `b_str2int` over the digits, with `n` so far. -/
def str2intDigits (base n : ℕ) : LuaString → Option (ℕ × LuaString)
  | [] => some (n, [])
  | c :: s =>
    if isAlnum c then
      if base ≤ digitValue c then none
      else str2intDigits base ((n * base + digitValue c) % 2 ^ 64) s
    else some (n, c :: s)

/-- The sign of a numeral, and what follows it. -/
def handleSign : LuaString → Bool × LuaString
  | 45 :: s => (true, s)
  | 43 :: s => (false, s)
  | s => (false, s)

/-- `tonumber(s, base)`: `b_str2int`, which has to come to the end of the string. -/
def bStr2int (base : ℕ) (s : LuaString) : Option ℤ :=
  let signed := handleSign (s.dropWhile isSpace)
  if signed.2.head?.any isAlnum then
    (str2intDigits base 0 signed.2).bind fun r =>
      if r.2.dropWhile isSpace = [] then some (toInteger (if signed.1 then -r.1 else r.1)) else none
  else none

/-- The bytes of a text of the code. -/
def text (s : String) : LuaString := s.toList.map fun c => UInt8.ofNat c.toNat

/-- `%d` -/
def decimalDigits (n : ℕ) : LuaString := (toDigits 10 n).map fun c => UInt8.ofNat c.toNat

/-- `%x` -/
def hexDigits (n : ℕ) : LuaString := (toDigits 16 n).map fun c => UInt8.ofNat c.toNat

/-- The value of digits, however large. -/
def digitsValue (base : ℕ) (ds : LuaString) : ℕ := ds.foldl (fun n c => n * base + digitValue c) 0

/-- The digits are those of the base. -/
def DigitsOf (base : ℕ) (s : LuaString) : Prop := ∀ c ∈ s, digitValue c < base

instance (base : ℕ) (s : LuaString) : Decidable (DigitsOf base s) := List.decidableBAll _ s

/-- A numeral before it is cut to 64 bits: whether it has a minus sign, and its digits' value. -/
def numeral (base : ℕ) (s : LuaString) : Option (Bool × ℕ) :=
  let signed := handleSign (s.dropWhile isSpace)
  let digits := signed.2.takeWhile isAlnum
  if digits ≠ [] ∧ DigitsOf base digits ∧
      (signed.2.dropWhile isAlnum).dropWhile isSpace = [] then
    some (signed.1, digitsValue base digits)
  else none

variable {s t pattern ds rest : LuaString} {n base : ℕ}

/-! ### Slices and searches -/

theorem concat_ok {ε : Type} {overflow : ε} (h : s.length + t.length < maxSize) :
    concat overflow s t = .ok (s ++ t) := if_pos h

theorem concat_eq_ok_iff {ε : Type} {overflow : ε} {r : LuaString} :
    concat overflow s t = .ok r ↔ s.length + t.length < maxSize ∧ s ++ t = r := by
  rw [concat]
  split
  · rename_i hfits
    rw [Except.ok.injEq, and_iff_right hfits]
  · rename_i hlong
    exact iff_of_false (fun h => by cases h) fun h => hlong h.1

theorem posrelat_nat (n len : ℕ) : posrelat n len = n := if_pos (natCast_nonneg n)

/-- A slice from the beginning. -/
theorem sub_take (s : LuaString) (n : ℕ) : sub s 1 n = s.take n := by
  have hone : posrelat 1 s.length = 1 := posrelat_nat 1 s.length
  rw [sub, hone, posrelat_nat]
  split
  · rename_i hempty
    rw [eq_comm, take_eq_nil_iff, ← length_eq_zero_iff]
    omega
  · have hcount : (min (s.length : ℤ) n - max 1 1 + 1).toNat = min n s.length := by omega
    rw [hcount, Int.max_self, toNat_one, Nat.sub_self, drop_zero]
    rcases le_total n s.length with hle | hle
    · rw [min_eq_left hle]
    · rw [min_eq_right hle, take_length, take_of_length_le hle]

/-- A slice up to the end. -/
theorem sub_suffix (s : LuaString) (n : ℕ) : sub s (n + 1) (-1) = s.drop n := by
  have hfirst : posrelat ((n : ℤ) + 1) s.length = n + 1 := if_pos (by omega)
  rw [sub, hfirst]
  have hlast : posrelat (-1) s.length = s.length := by
    rw [posrelat, if_neg (by decide)]
    split
    · omega
    · omega
  rw [hlast]
  split
  · rename_i hempty
    rw [eq_comm, drop_eq_nil_iff]
    omega
  · have hmax : (max 1 ((n : ℤ) + 1)).toNat - 1 = n := by omega
    rw [hmax, take_of_length_le]
    rw [length_drop]
    omega

theorem find_one (s pattern : LuaString) :
    find s pattern 1 = (occurrence pattern s).map (· + 1) := by
  have hone : posrelat 1 s.length = 1 := posrelat_nat 1 s.length
  rw [find, hone]
  rw [Int.max_self, if_neg (by omega), toNat_one, Nat.sub_self, drop_zero]

/-- A search that starts behind the end, counted from there, misses nothing if the pattern does not
occur before. -/
theorem find_from {k : ℕ} (hk : 0 < k) (hnot : ∀ p, p + k < s.length → ¬ pattern <+: s.drop p) :
    find s pattern (-k) = find s pattern 1 := by
  have hinit : (max 1 (posrelat (-k) s.length)).toNat - 1 = s.length - k := by
    rw [posrelat, if_neg (by omega)]
    split
    · omega
    · omega
  have hone : (max 1 (posrelat (-k) s.length)).toNat = s.length - k + 1 := by
    have : 1 ≤ (max 1 (posrelat (-k) s.length)).toNat := by omega
    omega
  rw [find_one, find]
  rw [if_neg (by omega), hinit, hone, ← occurrence_drop (sub_le s.length k) fun p hp =>
    hnot p (by omega), Option.map_map]
  exact congrArg (Option.map · _) (funext fun p => (add_assoc p _ 1).symm)

/-! ### Numerals -/

/-- By induction on the digits: the value so far is cut to 64 bits after each of them. -/
theorem str2intDigits_eq (base n : ℕ) (s : LuaString) : str2intDigits base (n % 2 ^ 64) s =
      if DigitsOf base (s.takeWhile isAlnum) then
        some ((s.takeWhile isAlnum).foldl (fun n c => n * base + digitValue c) n % 2 ^ 64,
          s.dropWhile isAlnum)
      else none := by
  induction s generalizing n with
  | nil => simp [str2intDigits, DigitsOf]
  | cons c s ih =>
    rw [str2intDigits]
    by_cases halnum : isAlnum c
    · rw [if_pos halnum, takeWhile_cons_of_pos halnum, dropWhile_cons_of_pos halnum]
      by_cases hbase : base ≤ digitValue c
      · rw [if_pos hbase, if_neg fun hall => not_lt.mpr hbase (hall c mem_cons_self)]
      · have hnext : (n % 2 ^ 64 * base + digitValue c) % 2 ^ 64 =
            (n * base + digitValue c) % 2 ^ 64 := by
          rw [add_mod, mod_mul_mod, ← add_mod]
        have hdigits : DigitsOf base (s.takeWhile isAlnum) ↔
            DigitsOf base (c :: s.takeWhile isAlnum) := by
          simp only [DigitsOf, forall_mem_cons, Nat.lt_of_not_le hbase, true_and]
        rw [if_neg hbase, hnext, ih, foldl_cons]
        exact if_congr hdigits rfl rfl
    · rw [if_neg halnum, takeWhile_cons_of_neg halnum, dropWhile_cons_of_neg halnum]
      simp [DigitsOf]

theorem toInteger_congr {a b : ℤ} (h : a % 2 ^ 64 = b % 2 ^ 64) : toInteger a = toInteger b := by
  rw [toInteger, toInteger, Int.bmod, Int.bmod]
  norm_cast at h ⊢
  rw [h]

theorem toInteger_eq {a : ℤ} (hlow : -2 ^ 63 ≤ a) (hhigh : a < 2 ^ 63) : toInteger a = a := by
  rw [toInteger, Int.bmod]
  omega

theorem toInteger_signed (neg : Bool) (n : ℕ) :
    toInteger (if neg then -((n % 2 ^ 64 : ℕ) : ℤ) else (n % 2 ^ 64 : ℕ)) =
      toInteger (if neg then -(n : ℤ) else n) := by
  apply toInteger_congr
  cases neg with
  | false =>
    rw [if_neg Bool.false_ne_true, if_neg Bool.false_ne_true]
    omega
  | true =>
    rw [if_pos rfl, if_pos rfl]
    omega

/-- A numeral stands for its value modulo `2 ^ 64`. -/
theorem bStr2int_eq (base : ℕ) (s : LuaString) : bStr2int base s =
      (numeral base s).map fun v => toInteger (if v.1 then -(v.2 : ℤ) else v.2) := by
  rw [bStr2int, numeral]
  generalize handleSign (s.dropWhile isSpace) = signed
  cases hdigits : signed.2.head?.any isAlnum with
  | false =>
    have hnone : signed.2.takeWhile isAlnum = [] := by
      cases hs : signed.2 with
      | nil => rfl
      | cons c ds =>
        rw [hs] at hdigits
        exact takeWhile_cons_of_neg (by simpa using hdigits)
    rw [if_neg Bool.false_ne_true, if_neg fun h => h.1 hnone]
    rfl
  | true =>
    have hsome : signed.2.takeWhile isAlnum ≠ [] := by
      cases hs : signed.2 with
      | nil => rw [hs] at hdigits; cases hdigits
      | cons c ds =>
        rw [hs] at hdigits
        have hc : isAlnum c = true := hdigits
        rw [takeWhile_cons_of_pos hc]
        exact cons_ne_nil _ _
    have hloop := str2intDigits_eq base 0 signed.2
    rw [zero_mod] at hloop
    rw [if_pos rfl, hloop]
    by_cases hall : DigitsOf base (signed.2.takeWhile isAlnum)
    · rw [if_pos hall, Option.bind_some]
      by_cases hend : (signed.2.dropWhile isAlnum).dropWhile isSpace = []
      · have hnumeral := And.intro hsome (And.intro hall hend)
        rw [if_pos hend, if_pos hnumeral, Option.map_some, digitsValue]
        exact congrArg some (toInteger_signed signed.1 _)
      · rw [if_neg hend, if_neg fun h => hend h.2.2]
        rfl
    · rw [if_neg hall, if_neg fun h => hall h.2.1]
      rfl

/-! ### Hexadecimal digits -/

theorem hexDigit_spec : ∀ d < 16, isAlnum (UInt8.ofNat (digitChar d).toNat) ∧
    digitValue (UInt8.ofNat (digitChar d).toNat) = d ∧
    isSpace (UInt8.ofNat (digitChar d).toNat) = false ∧
    UInt8.ofNat (digitChar d).toNat ≠ 45 ∧ UInt8.ofNat (digitChar d).toNat ≠ 43 := by
  decide

theorem hexDigits_of_lt (h : n < 16) : hexDigits n = [UInt8.ofNat (digitChar n).toNat] := by
  rw [hexDigits, toDigits_of_lt_base h]
  rfl

theorem hexDigits_of_le (h : 16 ≤ n) :
    hexDigits n = hexDigits (n / 16) ++ [UInt8.ofNat (digitChar (n % 16)).toNat] := by
  rw [hexDigits, toDigits_of_base_le (by decide) h, map_append]
  rfl

/-- By induction on the number, digit by digit. -/
theorem hexDigits_spec (n : ℕ) : digitsValue 16 (hexDigits n) = n ∧
    ∀ c ∈ hexDigits n, ∃ d < 16, c = UInt8.ofNat (digitChar d).toNat := by
  induction n using Nat.strongRecOn with
  | ind n ih =>
    rcases lt_or_ge n 16 with hlt | hge
    · rw [hexDigits_of_lt hlt]
      refine ⟨?_, fun c hc => ⟨n, hlt, mem_singleton.mp hc⟩⟩
      rw [digitsValue, foldl_cons, foldl_nil, (hexDigit_spec n hlt).2.1]
      omega
    · obtain ⟨hvalue, hdigits⟩ := ih (n / 16) (by omega)
      have hlast : n % 16 < 16 := mod_lt n (by decide)
      rw [hexDigits_of_le hge]
      constructor
      · rw [digitsValue, foldl_append, ← digitsValue, hvalue, foldl_cons, foldl_nil,
          (hexDigit_spec _ hlast).2.1]
        omega
      · intro c hc
        rcases mem_append.mp hc with hc | hc
        · exact hdigits c hc
        · exact ⟨n % 16, hlast, mem_singleton.mp hc⟩

theorem length_hexDigits (h : n < 2 ^ 63) : (hexDigits n).length ≤ 16 := by
  rw [hexDigits, length_map, length_toDigits_le_iff (by decide) (by decide)]
  exact h.trans (by decide)

/-- A numeral of digits alone, of a number that fits. -/
theorem bStr2int_hexDigits (h : n < 2 ^ 63) : bStr2int 16 (hexDigits n) = some (n : ℤ) := by
  obtain ⟨hvalue, hdigits⟩ := hexDigits_spec n
  have halnum : ∀ c ∈ hexDigits n, isAlnum c = true := by
    intro c hc
    obtain ⟨d, hd, rfl⟩ := hdigits c hc
    exact (hexDigit_spec d hd).1
  have hbase : ∀ c ∈ hexDigits n, digitValue c < 16 := by
    intro c hc
    obtain ⟨d, hd, rfl⟩ := hdigits c hc
    rw [(hexDigit_spec d hd).2.1]
    exact hd
  have hne : hexDigits n ≠ [] := fun h => toDigits_ne_nil (map_eq_nil_iff.mp h)
  -- there are no spaces and no sign in front
  have hsigned : handleSign ((hexDigits n).dropWhile isSpace) = (false, hexDigits n) := by
    obtain ⟨c, ds, hcons⟩ := exists_cons_of_ne_nil hne
    obtain ⟨d, hd, hc⟩ := hdigits c (hcons ▸ mem_cons_self)
    obtain ⟨-, -, hspace, hminus, hplus⟩ := hexDigit_spec d hd
    rw [← hc] at hspace hminus hplus
    rw [hcons, dropWhile_cons_of_neg (by simp [hspace])]
    rw [handleSign]
    · exact fun s hs => hminus (cons_eq_cons.mp hs).1
    · exact fun s hs => hplus (cons_eq_cons.mp hs).1
  have htake : (hexDigits n).takeWhile isAlnum = hexDigits n := takeWhile_eq_self_iff.mpr halnum
  have hdrop : (hexDigits n).dropWhile isAlnum = [] := dropWhile_eq_nil_iff.mpr halnum
  have hnumeral : numeral 16 (hexDigits n) = some (false, n) := by
    rw [numeral, hsigned]
    dsimp only
    rw [htake, hdrop, hvalue, if_pos ⟨hne, hbase, rfl⟩]
  rw [bStr2int_eq, hnumeral, Option.map_some, if_neg Bool.false_ne_true,
    toInteger_eq (by omega) (by omega)]

end Uboss.Lib.LuaText
