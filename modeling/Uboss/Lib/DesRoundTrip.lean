import Mathlib.Tactic.IntervalCases
import Uboss.Lib.Des

/-!
# Decryption undoes encryption

The cipher is a Feistel network between a permutation of the bits of a block and its inverse. Only
the permutations, the order of the subkeys and the padding matter for the round trip; the tables and
the subkeys could be any.
-/

namespace Uboss.Lib.Crypt

open Math List Int Nat

/-! ### Words and bytes -/

theorem bytes_word (x y z w : BitVec 8) {n : BitVec 32} (hn : x.setWidth 32 <<< 24 |||
    y.setWidth 32 <<< 16 ||| z.setWidth 32 <<< 8 ||| w.setWidth 32 = n) :
    (n >>> 24).setWidth 8 = x ∧ (n >>> 16).setWidth 8 = y ∧ (n >>> 8).setWidth 8 = z ∧
      n.setWidth 8 = w := by
  subst hn
  refine ⟨?_, ?_, ?_, ?_⟩
  all_goals
    ext i hi
    interval_cases i <;> simp

theorem word_bytes (n : BitVec 32) : ((n >>> 24).setWidth 8).setWidth 32 <<< 24 |||
    ((n >>> 16).setWidth 8).setWidth 32 <<< 16 ||| ((n >>> 8).setWidth 8).setWidth 32 <<< 8 |||
      (n.setWidth 8).setWidth 32 = n := by
  ext i hi
  interval_cases i <;> simp

/-- The two words of a block. -/
def getWords (b : List UInt8) : BitVec 32 × BitVec 32 := (getUint32 b 0, getUint32 b 4)

/-- The block with these words. -/
def putWords (p : BitVec 32 × BitVec 32) : List UInt8 := putUint32 p.1 ++ putUint32 p.2

@[simp] theorem getWords_putWords (p : BitVec 32 × BitVec 32) : getWords (putWords p) = p :=
  Prod.ext (word_bytes p.1) (word_bytes p.2)

theorem putWords_getWords {b : List UInt8} (h : b.length = 8) : putWords (getWords b) = b := by
  match b, h with
  | [b0, b1, b2, b3, b4, b5, b6, b7], _ =>
    have hword (x y z w : UInt8) : putUint32 (x.toBitVec.setWidth 32 <<< 24 |||
        y.toBitVec.setWidth 32 <<< 16 ||| z.toBitVec.setWidth 32 <<< 8 |||
          w.toBitVec.setWidth 32) = [x, y, z, w] := by
      obtain ⟨hx, hy, hz, hw⟩ := bytes_word x.toBitVec y.toBitVec z.toBitVec w.toBitVec rfl
      unfold putUint32 toUint8
      rw [hx, hy, hz, hw]
    exact congrArg₂ (· ++ ·) (hword b0 b1 b2 b3) (hword b4 b5 b6 b7)

/-! ### The permutations -/

/-- A rotation of the first word to the left by `s` bits. -/
def rotateFirst (s : ℕ) (p : BitVec 32 × BitVec 32) : BitVec 32 × BitVec 32 :=
  ((p.1 <<< s ||| p.1 >>> (32 - s)) &&& 0xFFFFFFFF, p.2)

theorem rotateFirst_rotateFirst {s : ℕ} (hs : s ≤ 32) (p : BitVec 32 × BitVec 32) :
    rotateFirst (32 - s) (rotateFirst s p) = p := by
  have hones (x : BitVec 32) : x &&& 0xFFFFFFFF = x := BitVec.and_allOnes
  unfold rotateFirst
  rw [Nat.sub_sub_self hs, hones]
  dsimp only
  rw [hones, rotate_rotate p.1 hs]

theorem desIp_eq (p : BitVec 32 × BitVec 32) : desIp p.1 p.2 =
    rotateFirst 1 (exchangeSame 0xAAAAAAAA (rotateFirst 1 (exchange 8 0x00FF00FF
      (exchange 2 0x33333333 (exchange 16 0x0000FFFF (exchange 4 0x0F0F0F0F p)).swap))).swap) :=
  rfl

theorem desFp_eq (p : BitVec 32 × BitVec 32) : desFp p.1 p.2 =
    exchange 4 0x0F0F0F0F (exchange 16 0x0000FFFF (exchange 2 0x33333333 (exchange 8 0x00FF00FF
      (rotateFirst 31 (exchangeSame 0xAAAAAAAA (rotateFirst 31 p)).swap))).swap) :=
  rfl

theorem desFp_desIp (p : BitVec 32 × BitVec 32) :
    desFp (desIp p.1 p.2).1 (desIp p.1 p.2).2 = p := by
  rw [desFp_eq, desIp_eq, rotateFirst_rotateFirst (s := 1) (by decide),
    exchangeSame_exchangeSame, Prod.swap_swap, rotateFirst_rotateFirst (s := 1) (by decide),
    exchange_exchange (by decide), exchange_exchange (by decide), Prod.swap_swap,
    exchange_exchange (by decide), exchange_exchange (by decide)]

theorem desIp_desFp (p : BitVec 32 × BitVec 32) :
    desIp (desFp p.1 p.2).1 (desFp p.1 p.2).2 = p := by
  rw [desIp_eq, desFp_eq, exchange_exchange (by decide), exchange_exchange (by decide),
    Prod.swap_swap, exchange_exchange (by decide), exchange_exchange (by decide),
    rotateFirst_rotateFirst (s := 31) (by decide), Prod.swap_swap, exchangeSame_exchangeSame,
    rotateFirst_rotateFirst (s := 31) (by decide)]

/-! ### The rounds -/

/-- What a round adds to the other word. -/
def roundFunction (sk sk' X : BitVec 32) : BitVec 32 := desRound sk sk' X 0#32

/-- The functions of the rounds, with two words of the subkeys each. -/
def roundFunctions : List (BitVec 32) → List (BitVec 32 → BitVec 32)
  | sk :: sk' :: SK => roundFunction sk sk' :: roundFunctions SK
  | _ => []

theorem desRound_eq (sk sk' X Y : BitVec 32) :
    desRound sk sk' X Y = Y ^^^ roundFunction sk sk' X := by
  unfold roundFunction desRound
  dsimp only
  rw [BitVec.zero_xor, BitVec.xor_assoc Y]

theorem desRounds_eq {SK : List (BitVec 32)} (h : SK.length % 4 = 0) (X Y : BitVec 32) :
    desRounds SK X Y = feistel (· ^^^ ·) (roundFunctions SK) (X, Y) := by
  induction SK, X, Y using desRounds.induct with
  | case1 k k' l l' SK X Y X' Y' ih =>
    have hrest : SK.length % 4 = 0 := by
      simp only [length_cons] at h
      omega
    rw [desRounds, ih hrest]
    unfold feistel
    simp only [roundFunctions, foldl_cons, feistelRound]
    rw [← desRound_eq, ← desRound_eq]
  | case2 SK X Y hshort =>
    match SK with
    | [] => rfl
    | [_] | [_, _] | [_, _, _] => simp at h
    | k :: k' :: l :: l' :: SK => exact absurd rfl (hshort k k' l l' SK)

theorem roundFunctions_flatMap (l : List ℕ) (f g : ℕ → BitVec 32) :
    roundFunctions (l.flatMap fun j => [f j, g j]) = l.map fun j => roundFunction (f j) (g j) := by
  induction l with
  | nil => rfl
  | cons j l ih => exact congrArg (roundFunction (f j) (g j) :: ·) ih

theorem roundFunctions_eq {SK : List (BitVec 32)} {n : ℕ} (h : SK.length = 2 * n) :
    roundFunctions SK = (List.range n).map fun j =>
      roundFunction (SK.getD (2 * j) 0) (SK.getD (2 * j + 1) 0) := by
  induction n generalizing SK with
  | zero =>
    rw [length_eq_zero_iff.mp h]
    rfl
  | succ n ih =>
    match SK, h with
    | sk :: sk' :: SK, h =>
      have hrest : SK.length = 2 * n := by
        simp only [length_cons] at h
        omega
      rw [roundFunctions, ih hrest, range_succ_eq_map, map_cons, map_map]
      rfl

theorem length_decodeKs (ESK : List (BitVec 32)) : (decodeKs ESK).length = 32 := rfl

/-- Decryption has the functions of the rounds in the reverse order. -/
theorem roundFunctions_decodeKs {ESK : List (BitVec 32)} (h : ESK.length = 32) :
    roundFunctions (decodeKs ESK) = (roundFunctions ESK).reverse := by
  have hrange : (List.range 16).reverse = (List.range 16).map (15 - ·) := by decide
  rw [decodeKs, roundFunctions_flatMap, roundFunctions_eq (n := 16) h, ← map_reverse, hrange,
    map_map]
  refine map_congr_left fun j hj => ?_
  have hlt : j < 16 := mem_range.mp hj
  have heven : 30 - 2 * j = 2 * (15 - j) := by omega
  have hodd : 31 - 2 * j = 2 * (15 - j) + 1 := by omega
  rw [heven, hodd]
  rfl

/-! ### A block -/

theorem desCrypt_eq {SK : List (BitVec 32)} (h : SK.length = 32) (b : List UInt8) :
    desCrypt SK b = putWords (let p := (feistel (· ^^^ ·) (roundFunctions SK)
      (desIp (getWords b).1 (getWords b).2)).swap
      desFp p.1 p.2) := by
  unfold desCrypt
  dsimp only
  rw [desRounds_eq (by rw [h])]
  rfl

@[simp] theorem length_desCrypt (SK : List (BitVec 32)) (b : List UInt8) :
    (desCrypt SK b).length = 8 := rfl

/-- The rounds in the reverse order undo the cipher. -/
theorem desCrypt_desCrypt {SK SK' : List (BitVec 32)} {b : List UInt8} (h : SK.length = 32)
    (h' : SK'.length = 32) (hreverse : roundFunctions SK' = (roundFunctions SK).reverse)
    (hb : b.length = 8) : desCrypt SK' (desCrypt SK b) = b := by
  rw [desCrypt_eq h', desCrypt_eq h, getWords_putWords, hreverse]
  dsimp only
  rw [desIp_desFp, feistel_reverse xor_xor_cancel, Prod.swap_swap, desFp_desIp]
  exact putWords_getWords hb

theorem length_subkeys (n i : ℕ) (X Y : BitVec 32) : (subkeys n i X Y).length = 2 * n := by
  induction n generalizing i X Y with
  | zero => rfl
  | succ n ih =>
    rw [subkeys, length_append, ih]
    simp only [length_cons, length_nil]
    omega

theorem length_desMainKs (key : List UInt8) : (desMainKs key).length = 32 := length_subkeys 16 ..

theorem desCrypt_decodeKs {key b : List UInt8} (hb : b.length = 8) :
    desCrypt (decodeKs (desMainKs key)) (desCrypt (desMainKs key) b) = b :=
  desCrypt_desCrypt (length_desMainKs key) (length_decodeKs _)
    (roundFunctions_decodeKs (length_desMainKs key)) hb

theorem desCrypt_desMainKs {key b : List UInt8} (hb : b.length = 8) :
    desCrypt (desMainKs key) (desCrypt (decodeKs (desMainKs key)) b) = b := by
  refine desCrypt_desCrypt (length_decodeKs _) (length_desMainKs key) ?_ hb
  rw [roundFunctions_decodeKs (length_desMainKs key), reverse_reverse]

/-- A known block. -/
example : desCrypt (desMainKs [0x13, 0x34, 0x57, 0x79, 0x9b, 0xbc, 0xdf, 0xf1])
    [0x01, 0x23, 0x45, 0x67, 0x89, 0xab, 0xcd, 0xef] =
      [0x85, 0xe8, 0x13, 0x54, 0x0f, 0x0a, 0xb4, 0x05] := by decide +kernel

/-! ### The loops over the blocks -/

/-- The cipher, for the next `n` blocks. -/
def ecb (SK : List (BitVec 32)) : ℕ → LuaString → List UInt8
  | 0, _ => []
  | n + 1, text => desCrypt SK (text.take 8) ++ ecb SK n (text.drop 8)

variable {SK SK' : List (BitVec 32)} {text : LuaString} {n k : ℕ}

@[simp] theorem length_ecb : (ecb SK n text).length = 8 * n := by
  induction n generalizing text with
  | zero => rfl
  | succ n ih =>
    rw [ecb, length_append, length_desCrypt, ih]
    omega

theorem ecb_append {tail : List UInt8} (h : text.length = 8 * n) (htail : tail.length = 8) :
    ecb SK n text ++ desCrypt SK tail = ecb SK (n + 1) (text ++ tail) := by
  induction n generalizing text with
  | zero =>
    obtain rfl := length_eq_zero_iff.mp h
    show desCrypt SK tail = desCrypt SK (tail.take 8) ++ []
    rw [take_of_length_le htail.le, append_nil]
  | succ n ih =>
    have hrest : (text.drop 8).length = 8 * n := by
      rw [length_drop]
      omega
    have hle : 8 ≤ text.length := by omega
    have hstep : ecb SK (n + 1 + 1) (text ++ tail) =
        desCrypt SK ((text ++ tail).take 8) ++ ecb SK (n + 1) ((text ++ tail).drop 8) := rfl
    rw [hstep, take_append_of_le_length hle, drop_append_of_le_length hle, ← ih hrest,
      ecb, append_assoc]

theorem ecb_take (m : ℕ) (h : 8 * n ≤ m) : ecb SK n (text.take m) = ecb SK n text := by
  induction n generalizing text m with
  | zero => rfl
  | succ n ih =>
    rw [ecb, ecb, take_take, min_eq_left (by omega), drop_take, ih (m - 8) (by omega)]

theorem ecb_ecb (h : ∀ b : List UInt8, b.length = 8 → desCrypt SK' (desCrypt SK b) = b)
    (htext : text.length = 8 * n) : ecb SK' n (ecb SK n text) = text := by
  induction n generalizing text with
  | zero => exact (length_eq_zero_iff.mp htext).symm
  | succ n ih =>
    have hblock : (text.take 8).length = 8 := by
      rw [length_take]
      omega
    have hrest : (text.drop 8).length = 8 * n := by
      rw [length_drop]
      omega
    have hlen : (desCrypt SK (text.take 8)).length = 8 := rfl
    rw [ecb, ecb, take_left' hlen, drop_left' hlen, h _ hblock, ih hrest, take_append_drop]

theorem cryptAt_eq {size : ℕ} {block buffer : List UInt8} (hblock : block.length = 8)
    (hsize : buffer.length + 8 ≤ size) :
    cryptAt SK size block buffer = .ok (buffer ++ desCrypt SK block) :=
  if_pos ⟨hblock, hsize⟩

theorem length_block {i : ℕ} (h : i + 8 ≤ text.length) : ((text.drop i).take 8).length = 8 := by
  rw [length_take, length_drop]
  omega

theorem decodeLoop_eq (hlen : text.length < 2 ^ 31) :
    ∀ {fuel k : ℕ} {buffer : List UInt8}, n - k < fuel → k ≤ n → text.length = 8 * n →
      buffer.length = 8 * k → decodeLoop SK text fuel (8 * k : ℕ) buffer =
        .ok (buffer ++ ecb SK (n - k) (text.drop (8 * k))) := by
  intro fuel
  induction fuel with
  | zero => exact fun hfuel => absurd hfuel (not_lt_zero _)
  | succ fuel ih =>
    intro k buffer hfuel hk htext hbuffer
    have hsmall : ((8 * k : ℕ) : ℤ) % 2 ^ 64 = (8 * k : ℕ) := emod_eq_of_lt (by omega) (by omega)
    rw [decodeLoop, hsmall]
    rcases hk.lt_or_eq with hlt | rfl
    · have hblock := @length_block text (8 * k) (by omega)
      have hnext : ((8 * k : ℕ) : ℤ) + 8 = (8 * (k + 1) : ℕ) := by omega
      have hrest : n - k = n - (k + 1) + 1 := by omega
      rw [if_pos (by omega), toNat_natCast, cryptAt_eq hblock (by omega), ok_bind,
        hnext, checkInt_bind (by omega) (by omega),
        ih (by omega) (by omega) htext (by rw [length_append, length_desCrypt]; omega),
        append_assoc, hrest, ecb, drop_drop, ← mul_succ]
    · rw [if_neg (by omega), Nat.sub_self, ecb, append_nil]
      rfl

theorem encodeLoop_eq {chunksz : ℕ} (hlen : text.length < 2 ^ 31)
    (hsize : text.length / 8 * 8 ≤ chunksz) :
    ∀ {fuel k : ℕ} {buffer : List UInt8}, text.length / 8 - k < fuel → k ≤ text.length / 8 →
      buffer.length = 8 * k → encodeLoop SK chunksz text fuel (8 * k : ℕ) buffer =
        .ok ((8 * (text.length / 8) : ℕ),
          buffer ++ ecb SK (text.length / 8 - k) (text.drop (8 * k))) := by
  intro fuel
  induction fuel with
  | zero => exact fun hfuel => absurd hfuel (not_lt_zero _)
  | succ fuel ih =>
    intro k buffer hfuel hk hbuffer
    rw [encodeLoop, checkInt_bind (by omega) (by omega)]
    rcases hk.lt_or_eq with hlt | heq
    · have hblock := @length_block text (8 * k) (by omega)
      have hnext : ((8 * k : ℕ) : ℤ) + 8 = (8 * (k + 1) : ℕ) := by omega
      have hrest : text.length / 8 - k = text.length / 8 - (k + 1) + 1 := by omega
      rw [if_pos (by omega), toNat_natCast, cryptAt_eq hblock (by omega), ok_bind,
        hnext, checkInt_bind (by omega) (by omega),
        ih (by omega) (by omega) (by rw [length_append, length_desCrypt]; omega),
        append_assoc, hrest, ecb, drop_drop, ← mul_succ]
    · rw [if_neg (by omega), heq, Nat.sub_self, ecb, append_nil]
      rfl

/-! ### The padding -/

/-- The padding of a text: a byte 0x80, and zeros up to the end of the block. -/
def padding (text : LuaString) : List UInt8 := 0x80 :: replicate (7 - text.length % 8) 0

/-- The text with its padding. -/
def padded (text : LuaString) : LuaString := text ++ padding text

theorem length_padded : (padded text).length = 8 * (text.length / 8 + 1) := by
  unfold padded padding
  rw [length_append, length_cons, length_replicate]
  omega

theorem map_tailByte : (List.range 8).map (tailByte text (8 * (text.length / 8) : ℕ)
    (text.length % 8 : ℕ)) = text.drop (8 * (text.length / 8)) ++ padding text := by
  have hdrop : (text.drop (8 * (text.length / 8))).length = text.length % 8 := by
    rw [length_drop]
    omega
  apply ext_getElem
  · rw [length_map, length_range, length_append, hdrop, padding, length_cons, length_replicate]
    omega
  intro j hj hj'
  rw [length_map, length_range] at hj
  rw [getElem_map, getElem_range, tailByte]
  by_cases hlt : j < text.length % 8
  · have hindex : (((8 * (text.length / 8) : ℕ) : ℤ) + j).toNat = 8 * (text.length / 8) + j := by
      omega
    rw [if_pos (by omega), hindex, getElem_append_left (by omega), getElem_drop,
      ← getElem_eq_getD 0]
  · rw [if_neg (by omega), getElem_append_right (by omega)]
    simp only [hdrop, padding]
    by_cases heq : j = text.length % 8
    · simp [heq]
    · rw [if_neg (by omega), getElem_cons, dif_neg (by omega), getElem_replicate]

theorem ldesencode_eq {key : LuaString} (hkey : key.length = 8) (hlen : text.length < 2 ^ 31 - 8) :
    ldesencode key text = .ok (ecb (desMainKs key) (text.length / 8 + 1) (padded text)) := by
  have hsize : (text.length + 8) / 8 * 8 = 8 * (text.length / 8) + 8 := by omega
  have hloop := @encodeLoop_eq (desMainKs key) text ((text.length + 8) / 8 * 8) (by omega)
    (by omega) (text.length + 1) 0 [] (by omega) (zero_le _) rfl
  have hbytes : (text.length : ℤ) - (8 * (text.length / 8) : ℕ) = (text.length % 8 : ℕ) := by omega
  have htail : (text.drop (8 * (text.length / 8)) ++ padding text).length = 8 := by
    rw [← map_tailByte]
    rfl
  have hwhole : (text.take (8 * (text.length / 8))).length = 8 * (text.length / 8) := by
    rw [length_take]
    omega
  have hkey' : desKey key = .ok (desMainKs key) := if_neg (not_not.mpr hkey)
  have hstart : ((8 * 0 : ℕ) : ℤ) = 0 := rfl
  rw [hstart, nil_append, Nat.sub_zero, Nat.mul_zero, drop_zero] at hloop
  rw [ldesencode, hkey', ok_bind]
  dsimp only
  rw [hloop, ok_bind]
  dsimp only
  rw [hbytes, checkInt_bind (by omega) (by omega), map_tailByte,
    cryptAt_eq htail (by rw [length_ecb]; omega), ← ecb_take (8 * (text.length / 8)) (le_refl _),
    ecb_append hwhole htail, ← append_assoc, take_append_drop]
  rfl

/-- The loop over the padding: zeros, and the byte 0x80 before them. By induction on the zeros. -/
theorem paddingLoop_eq {a : List UInt8} {z : ℕ} (hz : z ≤ 7)
    (hlen : a.length + 1 + z < 2 ^ 31) {j : ℕ} (hj : j ≤ z) (p : ℕ) :
    (paddingLoop (a ++ 0x80 :: replicate z 0) (a.length + 1 + j) p).2 = .ok (p + j) := by
  have hlength : (a ++ 0x80 :: replicate z (0 : UInt8)).length = a.length + 1 + z := by
    rw [length_append, length_cons, length_replicate, add_right_comm, add_assoc]
  have hcond {i : ℕ} (hi : a.length ≤ i) (hi' : i ≤ a.length + z) :
      (i : ℤ) % 2 ^ 64 ≥ (((a ++ 0x80 :: replicate z (0 : UInt8)).length : ℤ) - 8) := by
    rw [hlength, emod_eq_of_lt (by omega) (by omega)]
    omega
  induction j generalizing p with
  | zero =>
    have hget : (a ++ 0x80 :: replicate z (0 : UInt8))[a.length]? = some 0x80 := by
      rw [getElem?_append_right (le_refl _), Nat.sub_self]
      rfl
    rw [add_zero, paddingLoop, if_pos (hcond (le_refl _) (by omega)), hget]
    rfl
  | succ j ih =>
    have hget : (a ++ 0x80 :: replicate z (0 : UInt8))[a.length + 1 + j]? = some 0 := by
      have hindex : a.length + 1 + j - a.length = j + 1 := by omega
      rw [getElem?_append_right (by omega), hindex, getElem?_cons_succ,
        getElem?_replicate, if_pos (by omega)]
    have hrest := ih (by omega) (p + 1)
    rw [← add_assoc, paddingLoop, if_pos (hcond (by omega) (by omega)), hget]
    dsimp only
    rw [if_pos rfl]
    exact hrest.trans (congrArg Except.ok (by omega))

/-- For every key of 8 bytes and every text that is shorter than 2^31 - 8 bytes, `ldesencode`
returns a string of the length rounded up to whole blocks, of which the last one has padding, and
`ldesdecode` returns the text. -/
theorem ldesdecode_ldesencode {key text : LuaString} (hkey : key.length = 8)
    (hlen : text.length < 2 ^ 31 - 8) :
    ∃ c, ldesencode key text = .ok c ∧ c.length = (text.length + 8) / 8 * 8 ∧
      (ldesdecode key c).2 = .ok text := by
  generalize hc : ecb (desMainKs key) (text.length / 8 + 1) (padded text) = c
  have hclen : c.length = 8 * (text.length / 8 + 1) := by rw [← hc, length_ecb]
  refine ⟨c, by rw [ldesencode_eq hkey hlen, hc], by omega, ?_⟩
  have hloop := @decodeLoop_eq (decodeKs (desMainKs key)) c (text.length / 8 + 1) (by omega)
    (c.length + 1) 0 [] (by omega) (Nat.zero_le _) (by omega) rfl
  have hplain : ecb (decodeKs (desMainKs key)) (text.length / 8 + 1) c = padded text := by
    rw [← hc]
    exact ecb_ecb (fun b hb => desCrypt_decodeKs hb) length_padded
  have hstart : ((8 * 0 : ℕ) : ℤ) = 0 := rfl
  rw [hstart, List.nil_append, Nat.sub_zero, Nat.mul_zero, List.drop_zero, hplain] at hloop
  have hpadding := paddingLoop_eq (a := text) (z := 7 - text.length % 8) (by omega) (by omega)
    (le_refl _) 1
  have hn : text.length + 1 + (7 - text.length % 8) = c.length := by omega
  have hkey' : desKey key = .ok (desMainKs key) := if_neg (not_not.mpr hkey)
  rw [hn] at hpadding
  unfold ldesdecode
  rw [hkey']
  dsimp only
  rw [if_neg (by omega), hloop]
  dsimp only
  unfold cutPadding
  have hpadding' : (paddingLoop (padded text) c.length 1).2 =
      .ok (1 + (7 - text.length % 8)) := hpadding
  rcases hresult : paddingLoop (padded text) c.length 1 with ⟨reads, result⟩
  rw [hresult] at hpadding'
  obtain rfl : result = .ok (1 + (7 - text.length % 8)) := hpadding'
  have htake : c.length - (1 + (7 - text.length % 8)) = text.length := by omega
  dsimp only
  rw [if_neg (by omega), htake]
  exact congrArg Except.ok (List.take_left' rfl)

/-- A text that ends with the bytes of the padding. -/
theorem ldesdecode_ldesencode_padding :
    ∃ c, ldesencode [1, 2, 3, 4, 5, 6, 7, 8] [7, 0x80, 0, 0, 0, 0, 0, 0] = .ok c ∧ c.length = 16 ∧
      (ldesdecode [1, 2, 3, 4, 5, 6, 7, 8] c).2 = .ok [7, 0x80, 0, 0, 0, 0, 0, 0] :=
  ldesdecode_ldesencode rfl (by decide)

end Uboss.Lib.Crypt
