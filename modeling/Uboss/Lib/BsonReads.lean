import Mathlib.Data.List.TakeWhile
import Uboss.Lib.BsonFormat

/-!
# What the reader takes

Rules for the functions that are given a reader. The bytes that one of them takes are the next ones
of the document, and the reader is moved behind them.
-/

namespace Uboss.Lib

open Math List Int Nat

/-- The reader is in the document, and these are the bytes that it may take. -/
def BsonReader.At (br : BsonReader) (buffer rest : List UInt8) : Prop :=
  ∃ pre post, buffer = pre ++ rest ++ post ∧ br.ptr = pre.length ∧ br.size = rest.length

/-- These bytes are taken, and what is returned has the property. -/
def Reads {α : Type} (buffer : List UInt8) (m : BsonRead α) (P : α → Prop) (bs : List UInt8) :
    Prop :=
  ∀ br rest, br.At buffer (bs ++ rest) → ∃ a br', m br = .ok (a, br') ∧ P a ∧ br'.At buffer rest

theorem toInt32_eq {n : ℤ} (hpos : 0 ≤ n) (hlt : n < 2 ^ 31) : toInt32 n = n :=
  bmod_eq_of_le_mul_two (by omega) (by omega)

section Rules

variable {buffer : List UInt8} {α β : Type} {m : BsonRead α} {P : α → Prop} {Q : β → Prop}
  {bs bs' rest : List UInt8} {br : BsonReader}

theorem Reads.mono {P' : α → Prop} (h : Reads buffer m P bs) (hP : ∀ a, P a → P' a) :
    Reads buffer m P' bs := fun br rest hat => by
  obtain ⟨a, br', hm, ha, hat'⟩ := h br rest hat
  exact ⟨a, br', hm, hP a ha, hat'⟩

theorem Reads.pure {a : α} (ha : P a) : Reads buffer (pure a) P [] := fun br _ hat =>
  ⟨a, br, rfl, ha, hat⟩

/-- One function after another. -/
theorem Reads.bind {f : α → BsonRead β} (hm : Reads buffer m P bs)
    (hf : ∀ a, P a → Reads buffer (f a) Q bs') : Reads buffer (m >>= f) Q (bs ++ bs') := by
  intro br rest hat
  rw [append_assoc] at hat
  obtain ⟨a, br₁, hok, ha, hat₁⟩ := hm br _ hat
  obtain ⟨b, br₂, hok', hb, hat₂⟩ := hf a ha br₁ rest hat₁
  refine ⟨b, br₂, ?_, hb, hat₂⟩
  change (m br).bind _ = _
  rw [hok]
  exact hok'

/-- A function of what was read. -/
theorem Reads.map {f : α → β} (hm : Reads buffer m P bs) (hf : ∀ a, P a → Q (f a)) :
    Reads buffer (f <$> m) Q bs := by
  have hbind := hm.bind (f := fun a => Pure.pure (f a)) fun a ha => Reads.pure (hf a ha)
  rwa [append_nil, bind_pure_comp] at hbind

theorem BsonReader.At.memory (h : br.At buffer (bs ++ rest)) :
    memory buffer br.ptr bs.length = .ok bs := by
  obtain ⟨pre, post, rfl, hptr, -⟩ := h
  have hlen : (pre ++ (bs ++ rest) ++ post).length =
      pre.length + (bs.length + rest.length) + post.length := by
    rw [length_append, length_append, length_append]
  rw [Uboss.Lib.memory, if_neg (by omega), if_pos (by rw [hptr, hlen]; omega), hptr]
  rw [toNat_natCast, toNat_natCast, append_assoc, drop_left, append_assoc, take_left]

theorem BsonReader.At.reads_memory (h : br.At buffer (bs ++ rest)) :
    Reads buffer (liftM (Uboss.Lib.memory buffer br.ptr bs.length)) (· = bs) [] := by
  intro br' _ hat
  refine ⟨bs, br', ?_, rfl, hat⟩
  rw [h.memory]
  rfl

variable (hbuf : buffer.length < 2 ^ 31)
include hbuf

/-- A pointer to bytes: they are in front of a reader that is made for them. -/
theorem reads_bytes (bs : List UInt8) : Reads buffer (readBytes bs.length)
    (fun ptr => BsonReader.At ⟨ptr, bs.length⟩ buffer bs) bs := by
  rintro br rest ⟨pre, post, rfl, hptr, hsize⟩
  rw [length_append] at hsize
  simp only [length_append] at hbuf
  have hok : readBytes bs.length br = .ok (br.ptr, ⟨br.ptr + bs.length, (rest.length : ℤ)⟩) := by
    rw [readBytes, if_neg (by omega), toInt32_eq (by omega) (by omega)]
    congr 3
    omega
  refine ⟨br.ptr, _, hok, ⟨pre, rest ++ post, ?_, hptr, rfl⟩, ⟨pre ++ bs, post, ?_, ?_, rfl⟩⟩
  · simp
  · simp
  · rw [length_append, hptr]
    rfl

theorem reads_block (bs : List UInt8) : Reads buffer (readBlock buffer bs.length) (· = bs) bs := by
  have hmemory : ∀ ptr, BsonReader.At ⟨ptr, bs.length⟩ buffer bs →
      Reads buffer (liftM (memory buffer ptr bs.length)) (· = bs) [] := by
    intro ptr hwindow
    rw [← append_nil bs] at hwindow
    exact hwindow.reads_memory
  have hblock := (reads_bytes hbuf bs).bind hmemory
  rwa [append_nil] at hblock

theorem reads_byte (c : UInt8) : Reads buffer (readByte buffer) (· = c) [c] :=
  (reads_block hbuf [c]).map fun _ h => h ▸ rfl

omit hbuf in
theorem scanCstring_eq {key : List UInt8} (hkey : 0 ∉ key) {size : ℤ} (hsize : key.length < size)
    (rest : List UInt8) : scanCstring size (key ++ 0 :: rest) = .ok key := by
  induction key generalizing size with
  | nil =>
    rw [length_nil] at hsize
    rw [nil_append, scanCstring, if_neg (by omega)]
    rfl
  | cons c key ih =>
    rw [mem_cons, not_or] at hkey
    rw [length_cons] at hsize
    rw [cons_append, scanCstring, if_neg (by omega)]
    rw [if_neg (Ne.symm hkey.1), ih hkey.2 (by omega)]
    rfl

/-- A name is read until its zero. -/
theorem reads_cstring {key : List UInt8} (hkey : 0 ∉ key) :
    Reads buffer (readCstring buffer) (· = key) (key ++ [0]) := by
  rintro br rest ⟨pre, post, rfl, hptr, hsize⟩
  simp only [length_append, length_singleton] at hsize hbuf
  have hdrop : (pre ++ (key ++ [0] ++ rest) ++ post).drop pre.length =
      key ++ 0 :: (rest ++ post) := by
    simp only [append_assoc, drop_left, cons_append, nil_append]
  have hscan : scanCstring br.size (key ++ 0 :: (rest ++ post)) = .ok key :=
    scanCstring_eq hkey (by omega) _
  have hok : readCstring (pre ++ (key ++ [0] ++ rest) ++ post) br =
      .ok (key, ⟨br.ptr + (key.length + 1), (rest.length : ℤ)⟩) := by
    rw [readCstring, if_neg (by omega), hptr, toNat_natCast, hdrop, hscan]
    change Except.ok (key, BsonReader.mk _ (toInt32 (br.size - (key.length + 1)))) = _
    rw [toInt32_eq (by omega) (by omega)]
    congr 3
    omega
  refine ⟨key, _, hok, rfl, pre ++ (key ++ [0]), post, ?_, ?_, rfl⟩
  · simp
  · rw [length_append, length_append, hptr]
    rfl

end Rules

/-! ### The names of an array -/

section Decimal

variable {i : ℕ}

theorem toNat_ofNat_digit {c : Char} (hc : c.isDigit = true) :
    (UInt8.ofNat c.toNat).toNat = c.toNat ∧ 48 ≤ c.toNat ∧ c.toNat ≤ 57 := by
  obtain ⟨hge, hle⟩ := Bool.and_eq_true_iff.mp hc
  have hge : 48 ≤ c.toNat := UInt32.le_iff_toNat_le.mp (of_decide_eq_true hge)
  have hle : c.toNat ≤ 57 := UInt32.le_iff_toNat_le.mp (of_decide_eq_true hle)
  exact ⟨UInt8.toNat_ofNat_of_lt' (hle.trans_lt (by decide)), hge, hle⟩

theorem isDigit_of_mem_decimal {c : UInt8} (hc : c ∈ decimal i) : 48 ≤ c.toNat ∧ c.toNat ≤ 57 := by
  obtain ⟨d, hd, rfl⟩ := mem_map.mp hc
  obtain ⟨heq, hbounds⟩ := toNat_ofNat_digit (isDigit_of_mem_toDigits (by decide) (by decide) hd)
  rwa [heq]

theorem digitsValue_decimal (i : ℕ) : digitsValue (decimal i) = i := by
  have hdigits : ∀ n, ∀ c ∈ Nat.toDigits 10 i,
      10 * n + ((UInt8.ofNat c.toNat).toNat - 48) = 10 * n + (c.toNat - '0'.toNat) := by
    intro n c hc
    rw [(toNat_ofNat_digit (isDigit_of_mem_toDigits (by decide) (by decide) hc)).1]
    rfl
  calc digitsValue (decimal i)
      = (Nat.toDigits 10 i).foldl (fun n c => 10 * n + ((UInt8.ofNat c.toNat).toNat - 48)) 0 :=
        foldl_map ..
    _ = Nat.ofDigitChars 10 (Nat.toDigits 10 i) 0 := by
        rw [ofDigitChars_eq_foldl]
        exact foldl_ext _ _ _ hdigits
    _ = i := ofDigitChars_toDigits (by decide) (by decide)

theorem zero_notMem_decimal (i : ℕ) : 0 ∉ decimal i := fun h =>
  absurd (isDigit_of_mem_decimal h).1 (by decide)

/-- The index of an array is read back from its name. -/
theorem strtol_decimal (hi : i < 2 ^ 63) : strtol (decimal i) = i := by
  have hspace : (decimal i).dropWhile isSpace = decimal i := by
    cases hd : decimal i with
    | nil => rfl
    | cons c cs =>
      obtain ⟨hge, hle⟩ := isDigit_of_mem_decimal (i := i) (c := c) (hd ▸ mem_cons_self)
      refine dropWhile_cons_of_neg ?_
      simp only [isSpace, decide_eq_true_eq]
      rintro (rfl | ⟨-, hc⟩)
      · exact absurd hge (by decide)
      · exact absurd (UInt8.le_iff_toNat_le.mp hc) (by change ¬c.toNat ≤ 13; omega)
  have hall : (decimal i).takeWhile isDigit = decimal i := by
    refine takeWhile_eq_self_iff.mpr fun c hc => decide_eq_true ?_
    obtain ⟨hge, hle⟩ := isDigit_of_mem_decimal hc
    exact ⟨UInt8.le_iff_toNat_le.mpr hge, UInt8.le_iff_toNat_le.mpr hle⟩
  rw [strtol, hspace]
  split
  · rename_i rest hsign
    exact absurd (isDigit_of_mem_decimal (i := i) (hsign ▸ mem_cons_self)).1 (by decide)
  · rename_i rest hsign
    exact absurd (isDigit_of_mem_decimal (i := i) (hsign ▸ mem_cons_self)).1 (by decide)
  · change ((min (digitsValue ((decimal i).takeWhile isDigit)) (2 ^ 63 - 1) : ℕ) : ℤ) = i
    rw [hall, digitsValue_decimal]
    omega

end Decimal

end Uboss.Lib
