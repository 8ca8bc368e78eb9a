import Uboss.Lib.DesRoundTrip

/-!
# Decrypting any string

The blocks are written one behind the other, and the padding is looked for from the end of the
buffer. The end of that loop is compared as an unsigned number: in a single block it is 0, and no
index is below it.
-/

namespace Uboss.Lib.Crypt

open Math List Int

/-- Decryption raises an error of Lua or returns a part of the decrypted blocks, from their start;
no access is out of bounds and no number overflows, and the padding is looked for in the last
block. -/
def SafeDecode (key text : LuaString) : Prop :=
  (∀ i ∈ (ldesdecode key text).1, (text.length : ℤ) - 8 ≤ i ∧ i < text.length) ∧
  ((∃ message, (ldesdecode key text).2 = .error (.raised message)) ∨
    ∃ result, (ldesdecode key text).2 = .ok result ∧
      result <+: ecb (decodeKs (desMainKs key)) (text.length / 8) text)

variable {key text : LuaString} {SK : List (BitVec 32)} {buffer : List UInt8} {n : ℕ}

/-! ### The loop over the blocks -/

theorem decodeLoop_overflow (hlen : 2 ^ 31 ≤ text.length) (hwhole : text.length % 8 = 0) :
    ∀ {fuel k : ℕ} {buffer : List UInt8}, 2 ^ 28 - k ≤ fuel → k < 2 ^ 28 → buffer.length = 8 * k →
      decodeLoop SK text fuel (8 * k : ℕ) buffer = .error .overflow := by
  intro fuel
  induction fuel with
  | zero =>
    intro k buffer hfuel hk
    omega
  | succ fuel ih =>
    intro k buffer hfuel hk hbuffer
    have hsmall : ((8 * k : ℕ) : ℤ) % 2 ^ 64 = (8 * k : ℕ) := emod_eq_of_lt (by omega) (by omega)
    have hblock := @length_block text (8 * k) (by omega)
    have hnext : ((8 * k : ℕ) : ℤ) + 8 = (8 * (k + 1) : ℕ) := by omega
    rw [decodeLoop, hsmall, if_pos (by omega), toNat_natCast, cryptAt_eq hblock (by omega),
      ok_bind, hnext]
    by_cases hlast : k + 1 = 2 ^ 28
    · rw [checkInt_error (by omega)]
      rfl
    · rw [checkInt_bind (by omega) (by omega), ih (by omega) (by omega)]
      rw [length_append, length_desCrypt]
      omega

/-! ### The loop over the padding -/

/-- What the loop does when it ends inside of the buffer. -/
structure PaddingSafe (buffer : List UInt8) (result : List ℤ × Except DesError ℕ) : Prop where
  reads : ∀ i ∈ result.1, (buffer.length : ℤ) - 8 ≤ i ∧ i < buffer.length
  result : (∃ message, result.2 = .error (.raised message)) ∨ ∃ padding, result.2 = .ok padding

/-- There is a byte that is not zero, or there is a block before the last one. By induction on the
number of bytes that are left. -/
theorem paddingSafe_paddingLoop (hlen : buffer.length < 2 ^ 31) (hn : n ≤ buffer.length)
    (hstop : (∃ i < n, buffer[i]? ≠ some 0) ∨ 0 < buffer.length - 8 ∧ buffer.length - 8 ≤ n)
    (p : ℕ) : PaddingSafe buffer (paddingLoop buffer n p) := by
  induction n generalizing p with
  | zero =>
    rcases hstop with ⟨i, hi, -⟩ | ⟨hpos, hle⟩
    · exact absurd hi (Nat.not_lt_zero i)
    · omega
  | succ n ih =>
    have hsmall : (n : ℤ) % 2 ^ 64 = n := emod_eq_of_lt (by omega) (by omega)
    obtain ⟨b, hb⟩ : ∃ b, buffer[n]? = some b := ⟨_, getElem?_eq_getElem (by omega)⟩
    rw [paddingLoop, hsmall, hb]
    dsimp only
    split_ifs with hin hzero hend
    · -- a zero: the other alternative holds for the bytes that are left
      have hrest := ih (by omega) (?_ : _ ∨ _) (p + 1)
      · refine ⟨fun i hi => ?_, hrest.result⟩
        rcases mem_cons.mp hi with rfl | hi
        · omega
        · exact hrest.reads i hi
      · rcases hstop with ⟨i, hi, hne⟩ | ⟨hpos, hle⟩
        · refine .inl ⟨i, ?_, hne⟩
          have hin : i ≠ n := by
            rintro rfl
            exact hne (by rw [hb, hzero])
          omega
        · exact .inr ⟨hpos, by omega⟩
    · refine ⟨fun i hi => ?_, .inr ⟨p, rfl⟩⟩
      obtain rfl := mem_singleton.mp hi
      omega
    · refine ⟨fun i hi => ?_, .inl ⟨_, rfl⟩⟩
      obtain rfl := mem_singleton.mp hi
      omega
    · exact ⟨fun i hi => absurd hi not_mem_nil, .inr ⟨p, rfl⟩⟩

theorem paddingLoop_zeros (hn : n ≤ 8) (p : ℕ) :
    (paddingLoop (replicate 8 0) n p).2 = .error .outOfBounds := by
  induction n generalizing p with
  | zero => rfl
  | succ n ih =>
    have hb : (replicate 8 (0 : UInt8))[n]? = some 0 := by
      rw [getElem?_replicate, if_pos (by omega)]
    have hin : (n : ℤ) % 2 ^ 64 ≥ ((replicate 8 (0 : UInt8)).length : ℤ) - 8 := by
      rw [length_replicate]
      omega
    rw [paddingLoop, if_pos hin, hb]
    dsimp only
    rw [if_pos rfl]
    exact ih (by omega) (p + 1)

/-! ### Any string -/

theorem ldesdecode_of_key (hkey : key.length ≠ 8) : ldesdecode key text =
      ([], .error (.raised s!"Invalid key size {castInt key.length}, need 8 bytes")) := by
  unfold ldesdecode desKey
  rw [if_pos hkey]

theorem ldesdecode_of_length (hkey : key.length = 8)
    (hlength : text.length % 8 ≠ 0 ∨ text.length = 0) :
    ldesdecode key text =
      ([], .error (.raised s!"Invalid des crypt text length {castInt text.length}")) := by
  unfold ldesdecode desKey
  rw [if_neg (not_not.mpr hkey)]
  exact if_pos hlength

theorem ldesdecode_of_loop (hkey : key.length = 8) (hlength : text.length % 8 = 0)
    (hpos : text.length ≠ 0)
    (hloop : decodeLoop (decodeKs (desMainKs key)) text (text.length + 1) 0 [] = .ok buffer) :
    ldesdecode key text = cutPadding text.length buffer := by
  have hvalid : ¬ (text.length % 8 ≠ 0 ∨ text.length = 0) := by omega
  unfold ldesdecode desKey
  rw [if_neg (not_not.mpr hkey)]
  dsimp only
  rw [if_neg hvalid, hloop]

theorem ldesdecode_of_overflow (hkey : key.length = 8) (hlength : text.length % 8 = 0)
    (hlen : 2 ^ 31 ≤ text.length) : ldesdecode key text = ([], .error .overflow) := by
  have hvalid : ¬ (text.length % 8 ≠ 0 ∨ text.length = 0) := by omega
  have hloop := @decodeLoop_overflow text (decodeKs (desMainKs key)) hlen hlength (text.length + 1)
    0 [] (by omega) (by omega) rfl
  have hstart : ((8 * 0 : ℕ) : ℤ) = 0 := rfl
  rw [hstart] at hloop
  unfold ldesdecode desKey
  rw [if_neg (not_not.mpr hkey)]
  dsimp only
  rw [if_neg hvalid, hloop]

theorem decodeLoop_text (hlength : text.length % 8 = 0) (hlen : text.length < 2 ^ 31) :
    decodeLoop SK text (text.length + 1) 0 [] = .ok (ecb SK (text.length / 8) text) := by
  have hloop := @decodeLoop_eq SK text (text.length / 8) hlen (text.length + 1) 0 [] (by omega)
    (Nat.zero_le _) (by omega) rfl
  have hstart : ((8 * 0 : ℕ) : ℤ) = 0 := rfl
  rwa [hstart, nil_append, Nat.sub_zero, Nat.mul_zero, drop_zero] at hloop

theorem ecb_eq_zeros_iff (hlength : text.length = 8) :
    ecb (decodeKs (desMainKs key)) 1 text = replicate 8 0 ↔
      text = desCrypt (desMainKs key) (replicate 8 0) := by
  have hblock : ecb (decodeKs (desMainKs key)) 1 text =
      desCrypt (decodeKs (desMainKs key)) text := by
    show desCrypt (decodeKs (desMainKs key)) (text.take 8) ++ [] = _
    rw [append_nil, take_of_length_le hlength.le]
  rw [hblock]
  constructor
  · intro h
    rw [← h, desCrypt_desMainKs hlength]
  · intro h
    rw [h, desCrypt_decodeKs length_replicate]

/-- Some byte of the last block stops the loop, or it ends before the buffer does. -/
theorem padding_stops (hlength : text.length % 8 = 0) (hpos : 0 < text.length)
    (hzeros : text ≠ desCrypt (desMainKs key) (replicate 8 0)) :
    let buffer := ecb (decodeKs (desMainKs key)) (text.length / 8) text
    (∃ i < text.length, buffer[i]? ≠ some 0) ∨
      0 < buffer.length - 8 ∧ buffer.length - 8 ≤ text.length := by
  intro buffer
  have hbuffer : buffer.length = text.length := by
    rw [length_ecb]
    omega
  by_cases hone : text.length = 8
  · left
    by_contra hall
    refine hzeros ((ecb_eq_zeros_iff hone).mp (ext_getElem? fun i => ?_))
    have hbuffer' : ecb (decodeKs (desMainKs key)) 1 text = buffer := by
      show _ = ecb _ (text.length / 8) text
      rw [hone]
    rw [hbuffer', getElem?_replicate]
    by_cases hi : i < 8
    · rw [if_pos hi]
      by_contra hne
      exact hall ⟨i, by omega, hne⟩
    · rw [if_neg hi, getElem?_eq_none (by omega)]
  · right
    omega

theorem safeDecode_of_buffer (hkey : key.length = 8) (hlength : text.length % 8 = 0)
    (hpos : text.length ≠ 0) (hlen : text.length < 2 ^ 31)
    (hzeros : text ≠ desCrypt (desMainKs key) (replicate 8 0)) : SafeDecode key text := by
  have hdecode := ldesdecode_of_loop hkey hlength hpos (decodeLoop_text hlength hlen)
  have hstop := padding_stops hlength (Nat.pos_of_ne_zero hpos) hzeros
  unfold SafeDecode
  rw [hdecode]
  generalize hbuffer : ecb (decodeKs (desMainKs key)) (text.length / 8) text = buffer at hstop ⊢
  have hsize : buffer.length = text.length := by
    rw [← hbuffer, length_ecb]
    omega
  have hsafe := paddingSafe_paddingLoop (n := text.length) (by omega) hsize.ge hstop 1
  unfold cutPadding
  rcases hloop : paddingLoop buffer text.length 1 with ⟨reads, result⟩
  rw [hloop] at hsafe
  have hreads : ∀ i ∈ reads, (text.length : ℤ) - 8 ≤ i ∧ i < text.length := by
    rw [← hsize]
    exact hsafe.reads
  rcases hsafe.result with ⟨message, hresult⟩ | ⟨padding, hresult⟩
  · obtain rfl : result = .error (.raised message) := hresult
    exact ⟨hreads, .inl ⟨message, rfl⟩⟩
  · obtain rfl : result = .ok padding := hresult
    dsimp only
    split_ifs
    · exact ⟨hreads, .inl ⟨_, rfl⟩⟩
    · exact ⟨hreads, .inr ⟨_, rfl, List.take_prefix _ _⟩⟩

theorem ldesdecode_of_zeros (hkey : key.length = 8)
    (hzeros : text = desCrypt (desMainKs key) (replicate 8 0)) :
    (ldesdecode key text).2 = .error .outOfBounds := by
  have hone : text.length = 8 := by rw [hzeros, length_desCrypt]
  have hloop := @decodeLoop_text text (decodeKs (desMainKs key)) (by omega) (by omega)
  rw [hone] at hloop
  have hbuffer : ecb (decodeKs (desMainKs key)) (8 / 8) text = replicate 8 0 :=
    (ecb_eq_zeros_iff hone).mpr hzeros
  rw [hbuffer, ← hone] at hloop
  rw [ldesdecode_of_loop hkey (by omega) (by omega) hloop, hone]
  have hpadding := paddingLoop_zeros (n := 8) (le_refl _) 1
  unfold cutPadding
  rcases hresult : paddingLoop (replicate 8 0) 8 1 with ⟨reads, result⟩
  rw [hresult] at hpadding
  obtain rfl : result = .error .outOfBounds := hpadding
  rfl

/-- For every key and every string of every length: decryption is safe if and only if the key or the
length is refused, or the string is shorter than 2^31 bytes and is not the encryption of a single
block of zeros. -/
theorem safeDecode_iff (key text : LuaString) : SafeDecode key text ↔
    key.length ≠ 8 ∨ text.length % 8 ≠ 0 ∨ text.length = 0 ∨
      text.length < 2 ^ 31 ∧ text ≠ desCrypt (desMainKs key) (List.replicate 8 0) := by
  by_cases hkey : key.length = 8
  swap
  · refine iff_of_true ?_ (.inl hkey)
    unfold SafeDecode
    rw [ldesdecode_of_key hkey]
    exact ⟨fun i hi => absurd hi List.not_mem_nil, .inl ⟨_, rfl⟩⟩
  by_cases hlength : text.length % 8 ≠ 0 ∨ text.length = 0
  · refine iff_of_true ?_ (.inr (hlength.imp_right .inl))
    unfold SafeDecode
    rw [ldesdecode_of_length hkey hlength]
    exact ⟨fun i hi => absurd hi List.not_mem_nil, .inl ⟨_, rfl⟩⟩
  obtain ⟨hwhole, hpos⟩ := not_or.mp hlength
  rw [not_not] at hwhole
  constructor
  · rintro ⟨-, hresult⟩
    refine .inr (.inr (.inr ⟨?_, fun hzeros => ?_⟩))
    · -- the index overflows
      by_contra hlen
      rw [ldesdecode_of_overflow hkey hwhole (not_lt.mp hlen)] at hresult
      simp at hresult
    · rw [ldesdecode_of_zeros hkey hzeros] at hresult
      simp at hresult
  · rintro (h | h | h | ⟨hlen, hzeros⟩)
    · exact absurd hkey h
    · exact absurd hwhole h
    · exact absurd h hpos
    · exact safeDecode_of_buffer hkey hwhole hpos hlen hzeros

/-- The encryption of eight zeros with the key 0102030405060708: the padding is looked for in the
byte before the buffer. -/
theorem ldesdecode_zeros :
    ldesdecode [1, 2, 3, 4, 5, 6, 7, 8] [176, 115, 220, 63, 178, 9, 83, 109] =
      ([7, 6, 5, 4, 3, 2, 1, 0, -1], .error .outOfBounds) ∧
    ¬ SafeDecode [1, 2, 3, 4, 5, 6, 7, 8] [176, 115, 220, 63, 178, 9, 83, 109] := by
  have hdecode : ldesdecode [1, 2, 3, 4, 5, 6, 7, 8] [176, 115, 220, 63, 178, 9, 83, 109] =
      ([7, 6, 5, 4, 3, 2, 1, 0, -1], .error .outOfBounds) := by decide +kernel
  refine ⟨hdecode, fun hsafe => ?_⟩
  have hreads := (hsafe.1 (-1) (by rw [hdecode]; decide)).1
  revert hreads
  decide

end Uboss.Lib.Crypt
