import Uboss.Lib.Base64
import Uboss.Math.Transition

/-!
# What base64 gives back

A code is decoded to the string that was encoded, also when ignored bytes are inserted, as long as
the index of the decoder, an `int`, does not overflow.
-/

namespace Uboss.Lib.Crypt.Base64

open Math List Option Int

/-- The loops of the encoder write only into the first `encode_sz` bytes. -/
def EncodeInside (text : LuaString) : Prop :=
  b64encodeIn (encodeSz text).toNat text ≠ .error .outOfBounds

/-- The loops of the decoder write only into the first `decode_sz` bytes. -/
def DecodeInside (text : LuaString) : Prop :=
  b64decodeIn (decodeSz text).toNat text ≠ .error .outOfBounds

/-! ### Encoding -/

/-- The code of a string. -/
def code : LuaString → LuaString
  | a :: b :: c :: text => encodeThree a b c ++ code text
  | [a, b] => encodeTwo a b
  | [a] => encodeOne a
  | [] => []

variable {text rest : LuaString} {capacity i j : ℕ} {buffer : List UInt8} {c : UInt8}

theorem length_code (text : LuaString) : (code text).length = (text.length + 2) / 3 * 4 := by
  induction text using code.induct with
  | case1 a b c text ih =>
    rw [code, length_append, ih, length_cons, length_cons, length_cons]
    simp only [length_encodeThree]
    omega
  | case2 a b => simp [code]
  | case3 a => simp [code]
  | case4 => simp [code]

theorem castInt_left {n : ℕ} (hi : i + rest.length = n) (hn : n < 2 ^ 31) :
    castInt ((n - i : ℤ) % 2 ^ 64).toNat = rest.length := by
  have hleft : ((n - i : ℤ) % 2 ^ 64).toNat = rest.length := by omega
  rw [hleft, castInt_eq (by omega)]

/-- The loop and the `switch` write the code of what is left of the text. -/
theorem encodeLoop_padding {n : ℕ} (hi : i + rest.length = n) (hn : n < 2 ^ 31)
    (hj : j = buffer.length) (hcapacity : j + (code rest).length ≤ capacity)
    (hfits : j + (code rest).length < 2 ^ 31) :
    (encodeLoop capacity (n - 2) rest i j buffer >>= fun (rest, i, j, buffer) =>
      encodePadding capacity (castInt ((n - i : ℤ) % 2 ^ 64).toNat) rest j buffer) =
      .ok (buffer ++ code rest) := by
  induction rest using code.induct generalizing i j buffer with
  | case1 a b c rest ih =>
    simp only [code, length_append, length_encodeThree] at hcapacity hfits
    simp only [length_cons] at hi
    rw [encodeLoop, if_pos (by omega), writeBytes_ok hj (by simp; omega) (by simp; omega), ok_bind,
      checkInt_bind (by omega) (by omega), checkInt_bind (by omega) (by omega)]
    have hnext := @ih (i + 3) (j + 4) (buffer ++ encodeThree a b c) (by omega)
      (by simp [hj]) (by omega) (by omega)
    rw [append_assoc] at hnext
    rw [code]
    exact_mod_cast hnext
  | case2 a b =>
    have hleft := castInt_left hi hn
    simp only [code, length_encodeTwo] at hcapacity hfits
    simp only [length_cons, length_nil] at hi hleft
    rw [encodeLoop, if_neg (by omega), ok_bind]
    · dsimp only
      rw [hleft, code]
      exact writeBytes_ok hj hcapacity hfits.le
    · simp
  | case3 a =>
    have hleft := castInt_left hi hn
    simp only [code, length_encodeOne] at hcapacity hfits
    simp only [length_cons, length_nil] at hi hleft
    rw [encodeLoop, if_neg (by omega), ok_bind]
    · dsimp only
      rw [hleft, code]
      exact writeBytes_ok hj hcapacity hfits.le
    · simp
  | case4 =>
    have hleft := castInt_left hi hn
    simp only [length_nil] at hi hleft
    rw [encodeLoop, if_neg (by omega), ok_bind]
    · dsimp only
      rw [hleft, code, append_nil]
      rfl
    · simp

theorem encodeSz_eq (hlength : text.length < 2 ^ 30) : encodeSz text = (code text).length := by
  unfold encodeSz
  rw [castInt_eq (by omega), length_code]

/-- A buffer with as many bytes as were computed is enough for the encoder. -/
theorem b64encodeIn_ok (hlength : text.length < 2 ^ 30)
    (hcapacity : (code text).length ≤ capacity) : b64encodeIn capacity text = .ok (code text) := by
  have hcode := length_code text
  have hloop := @encodeLoop_padding text capacity 0 0 [] text.length (Nat.zero_add _)
    (by omega) rfl (by omega) (by omega)
  unfold b64encodeIn
  rw [castInt_eq (by omega), checkInt_bind (by omega) (by omega), encodeSz_eq hlength]
  obtain ⟨⟨rest, i, j, buffer⟩, hrest, hpadding⟩ := bind_eq_ok_iff.mp hloop
  refine bind_eq_ok_iff.mpr ⟨_, hrest, bind_eq_ok_iff.mpr ⟨_, hpadding, ?_⟩⟩
  rw [nil_append, if_pos (le_refl _), toNat_natCast, take_length]
  rfl

/-! ### Decoding -/

theorem length_lt_of_decodeLoop {i output : ℤ} {group : Option Group} {result : LuaString}
    (hi : i < 2 ^ 31) (h : decodeLoop capacity text i group output buffer = .ok result) :
    i + text.length < 2 ^ 31 := by
  induction text generalizing i group output buffer with
  | nil => simpa using hi
  | cons c text ih =>
    rw [decodeLoop] at h
    obtain ⟨hnext, h⟩ := of_checkInt_bind h
    rw [length_cons]
    split at h
    · have := ih hnext h
      omega
    · dsimp only at h
      split at h
      · have := ih hnext h
        omega
      · obtain ⟨⟨_, _⟩, -, h⟩ := bind_eq_ok_iff.mp h
        have := ih hnext h
        omega

theorem lb64decode_long {result : LuaString} (h : lb64decode text = .ok result) :
    text.length < 2 ^ 31 := by
  have hcount := length_lt_of_decodeLoop (by decide) h
  omega

/-- The bytes of a group are written, and `output` is advanced. -/
theorem writeGroup_ok {bytes : List UInt8} (hj : j = buffer.length)
    (hcapacity : j + bytes.length ≤ capacity) (hfits : j + bytes.length < 2 ^ 31) :
    (do
      let buffer ← writeBytes capacity bytes j buffer
      return (← checkInt CryptError.overflow (j + bytes.length), buffer)) =
      .ok (((j + bytes.length : ℕ) : ℤ), buffer ++ bytes) := by
  rw [writeBytes_ok hj hcapacity hfits.le, ok_bind, checkInt_bind (by omega) (by omega)]
  rfl

theorem decodeGroup_cases (c : List ℤ) (padding : ℕ) (hj : j = buffer.length)
    (hcapacity : j + 3 ≤ capacity) (hfits : j + 3 < 2 ^ 31) :
    (∃ message, decodeGroup capacity c padding j buffer = .error (.raised message)) ∨
      ∃ bytes : List UInt8, bytes.length ≤ 3 ∧ decodeGroup capacity c padding j buffer =
          .ok ((j + bytes.length : ℕ), buffer ++ bytes) := by
  unfold decodeGroup
  split
  · exact .inr ⟨_, by simp, writeGroup_ok hj (by simpa using hcapacity) (by simpa using hfits)⟩
  · split
    · exact .inl ⟨_, rfl⟩
    · exact .inr ⟨_, by simp, writeGroup_ok hj (by simp; omega) (by simp; omega)⟩
  · split
    · exact .inl ⟨_, rfl⟩
    · exact .inr ⟨_, by simp, writeGroup_ok hj (by simp; omega) (by simp; omega)⟩
  · exact .inl ⟨_, rfl⟩

theorem decodeLoop_inside {group : Option Group} {n : ℕ} (hi : i + text.length = n)
    (hn : n < 2 ^ 31) (hj : j = buffer.length) (hcapacity : 3 * n ≤ 4 * capacity)
    (hwritten : 4 * j + 3 * (group.getD {}).c.length ≤ 3 * i) :
    decodeLoop capacity text i group j buffer ≠ .error .outOfBounds := by
  induction text generalizing i j group buffer with
  | nil => cases group <;> simp [decodeLoop]
  | cons c text ih =>
    rw [length_cons] at hi
    rw [decodeLoop, checkInt_bind (by omega) (by omega)]
    have hnext : ((i : ℤ) + 1) = (i + 1 : ℕ) := rfl
    rw [hnext]
    split
    · exact ih (by omega) hj (by rw [getD_some]; omega)
    have hpush : ((group.getD {}).push (b64index c)).c.length = (group.getD {}).c.length + 1 := by
      simp [Group.push]
    dsimp only
    split
    · exact ih (by omega) hj (by rw [getD_some, hpush]; omega)
    · next hfull =>
      rcases @decodeGroup_cases capacity j buffer ((group.getD {}).push (b64index c)).c
        ((group.getD {}).push (b64index c)).padding hj (by omega) (by omega)
        with ⟨message, hmessage⟩ | ⟨bytes, hbytes, hgroup⟩
      · rw [hmessage]
        exact fun h => by cases h
      · rw [hgroup, ok_bind]
        exact ih (by omega) (by simp [hj]) (by
          change 4 * (j + bytes.length) + 3 * 0 ≤ 3 * (i + 1)
          omega)

theorem decodeSz_eq (hlength : text.length < 2 ^ 31) :
    decodeSz text = ((text.length + 3) / 4 * 3 : ℕ) := castInt_eq (by omega)

/-- Below 2^31 characters the decoder writes into no more bytes than were computed. -/
theorem decodeInside_of_length (hlength : text.length < 2 ^ 31) : DecodeInside text := by
  unfold DecodeInside b64decodeIn
  rw [decodeSz_eq hlength, toNat_natCast]
  exact decodeLoop_inside (i := 0) (j := 0) (Nat.zero_add _) hlength rfl (by omega) (by simp)

/-! ### Inserted bytes -/

theorem eq_nil_of_inserted (h : Inserted [] text) : text = [] := by
  generalize hcode : ([] : LuaString) = whole at h
  cases h with
  | nil => rfl
  | keep c _ => cases hcode
  | insert d _ hne _ => exact absurd hcode.symm hne

theorem length_le_of_inserted {whole : LuaString} (h : Inserted whole text) :
    whole.length ≤ text.length := by
  induction h with
  | nil => exact le_rfl
  | keep c _ ih => simpa using ih
  | insert d _ _ _ ih => exact ih.trans (by simp)

theorem decodeLoop_next {whole : LuaString} {group : Option Group} {output : ℤ}
    (h : Inserted (c :: whole) text) (hc : InAlphabet c) (hfits : i + text.length < 2 ^ 31) :
    ∃ text' i', Inserted whole text' ∧ i' + text'.length = i + text.length ∧
      decodeLoop capacity text i group output buffer =
        let g := (group.getD {}).push (b64index c)
        if g.c.length < 4 then decodeLoop capacity text' (i' : ℕ) (some g) output buffer
        else decodeGroup capacity g.c g.padding output buffer >>= fun (output, buffer) =>
          decodeLoop capacity text' (i' : ℕ) none output buffer := by
  generalize hcode : c :: whole = code at h
  induction h generalizing i group with
  | nil => cases hcode
  | @keep _ text _ h =>
    cases hcode
    refine ⟨text, i + 1, h, by rw [length_cons]; omega, ?_⟩
    rw [length_cons] at hfits
    rw [decodeLoop, checkInt_bind (by omega) (by omega),
      if_neg (fun hnot => b64index_eq_neg_one_iff.mp hnot hc)]
    rfl
  | @insert _ text d hd _ _ ih =>
    rw [length_cons] at hfits
    obtain ⟨text', i', h', hlength, hloop⟩ := @ih (i + 1) (some (group.getD {})) (by omega) hcode
    refine ⟨text', i', h', by rw [length_cons]; omega, ?_⟩
    rw [decodeLoop, checkInt_bind (by omega) (by omega), if_pos (b64index_eq_neg_one_iff.mpr hd)]
    exact hloop

theorem foldl_push (cs : LuaString) (g : Group) : cs.foldl (fun g c => g.push (b64index c)) g =
      { c := g.c ++ cs.map b64index, padding := g.padding + (cs.map b64index).count (-2) } := by
  induction cs generalizing g with
  | nil => simp
  | cons c cs ih =>
    rw [foldl_cons, ih]
    unfold Group.push
    simp only [append_assoc, singleton_append, map_cons, count_cons, beq_iff_eq]
    split <;> simp; omega

theorem decodeLoop_push {whole cs : LuaString} {group : Option Group} {output : ℤ} (hcs : cs ≠ [])
    (hgroup : (group.getD {}).c.length + cs.length = 4) (halphabet : ∀ c ∈ cs, InAlphabet c)
    (h : Inserted (cs ++ whole) text) (hfits : i + text.length < 2 ^ 31) :
    ∃ text' i', Inserted whole text' ∧ i' + text'.length = i + text.length ∧
      decodeLoop capacity text i group output buffer =
        let g := cs.foldl (fun g c => g.push (b64index c)) (group.getD {})
        decodeGroup capacity g.c g.padding output buffer >>= fun (output, buffer) =>
          decodeLoop capacity text' (i' : ℕ) none output buffer := by
  induction cs generalizing text i group with
  | nil => exact absurd rfl hcs
  | cons c cs ih =>
    obtain ⟨text', i', h', hlength, hloop⟩ :=
      @decodeLoop_next text capacity i buffer c (cs ++ whole) group output h
        (halphabet c mem_cons_self) hfits
    have hpush : ((group.getD {}).push (b64index c)).c.length = (group.getD {}).c.length + 1 := by
      simp [Group.push]
    rw [length_cons] at hgroup
    rw [hloop]
    dsimp only
    by_cases hlast : cs = []
    · -- the group is complete
      subst hlast
      rw [if_neg (by rw [hpush]; simp at hgroup; omega)]
      exact ⟨text', i', h', hlength, rfl⟩
    · have hpos := length_pos_iff.mpr hlast
      rw [if_pos (by omega)]
      obtain ⟨text'', i'', h'', hlength', hrest⟩ :=
        @ih text' i' (some ((group.getD {}).push (b64index c))) hlast
          (by rw [getD_some]; omega) (fun d hd => halphabet d (mem_cons_of_mem c hd)) h'
          (by omega)
      exact ⟨text'', i'', h'', hlength'.trans hlength, hrest⟩

theorem inAlphabet_of_not_mem {cs : LuaString} (h : -1 ∉ cs.map b64index) :
    ∀ c ∈ cs, InAlphabet c := by
  intro c hc
  by_contra hnot
  exact h (mem_map.mpr ⟨c, hc, b64index_eq_neg_one_iff.mpr hnot⟩)

theorem decodeLoop_group {whole cs : LuaString} {output : ℤ} (hcs : cs.length = 4)
    (halphabet : -1 ∉ cs.map b64index) (h : Inserted (cs ++ whole) text)
    (hfits : i + text.length < 2 ^ 31) :
    ∃ text' i', Inserted whole text' ∧ i' + text'.length = i + text.length ∧
      decodeLoop capacity text i none output buffer =
        decodeGroup capacity (cs.map b64index) ((cs.map b64index).count (-2)) output buffer >>=
          fun (output, buffer) => decodeLoop capacity text' (i' : ℕ) none output buffer := by
  obtain ⟨text', i', h', hlength, hloop⟩ :=
    @decodeLoop_push text capacity i buffer whole cs none output
      (by rintro rfl; simp at hcs) (by simp [hcs])
      (inAlphabet_of_not_mem halphabet) h hfits
  rw [foldl_push] at hloop
  simp only [getD_none, nil_append, Nat.zero_add] at hloop
  exact ⟨text', i', h', hlength, hloop⟩

theorem natCast_beq (n : ℕ) : ((n : ℤ) == -2) = false := rfl

theorem decodeLoop_code {s : LuaString} (h : Inserted (code s) text)
    (hfits : i + text.length < 2 ^ 31) (hj : j = buffer.length)
    (hcapacity : j + s.length ≤ capacity) (hwritten : j + s.length < 2 ^ 31) :
    decodeLoop capacity text i none j buffer = .ok (buffer ++ s) := by
  induction s using code.induct generalizing text i j buffer with
  | case1 a b c s ih =>
    rw [code] at h
    simp only [length_cons] at hcapacity hwritten
    have hmap := map_b64index_three (a := a) (b := b) (c := c) rfl
    obtain ⟨text', i', h', hlength, hloop⟩ := @decodeLoop_group text capacity i
      buffer _ _ j (length_encodeThree a b c) (by rw [hmap]; simp; omega) h hfits
    have hpadding : ((encodeThree a b c).map b64index).count (-2) = 0 := by
      rw [hmap, count_eq_zero]
      simp
      omega
    rw [hloop, hpadding, decodeGroup_three hj (by omega) (by omega), ok_bind]
    have hrest := @ih text' i' (j + 3) (buffer ++ [a, b, c]) h' (by omega)
      (by simp [hj]) (by omega) (by omega)
    rw [append_assoc] at hrest
    exact hrest
  | case2 a b =>
    rw [code, ← append_nil (encodeTwo a b)] at h
    have hmap := map_b64index_two (a := a) (b := b) rfl
    obtain ⟨text', i', h', hlength, hloop⟩ := @decodeLoop_group text capacity i
      buffer _ _ j (length_encodeTwo a b) (by rw [hmap]; simp; omega) h hfits
    have hpadding : ((encodeTwo a b).map b64index).count (-2) = 1 := by
      rw [hmap]
      simp only [count_cons, count_nil, natCast_beq]
      rfl
    rw [hloop, hpadding, decodeGroup_two hj hcapacity hwritten, ok_bind, eq_nil_of_inserted h']
    rfl
  | case3 a =>
    rw [code, ← append_nil (encodeOne a)] at h
    have hmap := map_b64index_one a
    obtain ⟨text', i', h', hlength, hloop⟩ := @decodeLoop_group text capacity i
      buffer _ _ j (length_encodeOne a) (by rw [hmap]; simp; omega) h hfits
    have hpadding : ((encodeOne a).map b64index).count (-2) = 2 := by
      rw [hmap]
      simp only [count_cons, count_nil, natCast_beq]
      rfl
    rw [hloop, hpadding, decodeGroup_one hj hcapacity hwritten, ok_bind, eq_nil_of_inserted h']
    rfl
  | case4 =>
    rw [code] at h
    rw [eq_nil_of_inserted h, decodeLoop, append_nil]

theorem le_bufferSize (size : ℤ) : size.toNat ≤ bufferSize size := by
  unfold bufferSize smallChunk
  split <;> omega

theorem encodeInside_of_length (hlength : text.length < 2 ^ 30) : EncodeInside text := by
  unfold EncodeInside
  rw [b64encodeIn_ok hlength (by rw [encodeSz_eq hlength, toNat_natCast])]
  exact fun h => by cases h

theorem lb64encode_eq (hlength : text.length < 2 ^ 30) : lb64encode text = .ok (code text) := by
  refine b64encodeIn_ok hlength ?_
  have hcapacity := le_bufferSize (encodeSz text)
  rwa [encodeSz_eq hlength, toNat_natCast, ← encodeSz_eq hlength] at hcapacity

theorem lb64decode_eq {s : LuaString} (hs : s.length < 2 ^ 30) (h : Inserted (code s) text)
    (hlength : text.length < 2 ^ 31) : lb64decode text = .ok s := by
  have hsize := le_bufferSize (decodeSz text)
  have hcode := length_le_of_inserted h
  rw [length_code] at hcode
  rw [decodeSz_eq hlength, toNat_natCast, ← decodeSz_eq hlength] at hsize
  exact @decodeLoop_code _ _ 0 0 [] _ h (by omega) rfl (by omega) (by omega)

/-- For every string below 2^30 bytes: it is encoded without a write outside of the computed size;
and when bytes that are not in the alphabet are inserted into the code before its last character,
the text is decoded to the string without a write outside of the computed size if and only if it is
shorter than 2^31 bytes. A text that is shorter never makes the decoder write outside. -/
theorem base64_iff (s : LuaString) (hs : s.length < 2 ^ 30) :
    (∃ code, lb64encode s = .ok code ∧ EncodeInside s ∧ ∀ text, Inserted code text →
        (lb64decode text = .ok s ∧ DecodeInside text ↔ text.length < 2 ^ 31)) ∧
    ∀ text : LuaString, text.length < 2 ^ 31 → DecodeInside text := by
  refine ⟨⟨_, lb64encode_eq hs, encodeInside_of_length hs, fun text htext => ?_⟩,
    fun text => decodeInside_of_length⟩
  constructor
  · rintro ⟨hdecode, -⟩
    exact lb64decode_long hdecode
  · intro hlength
    exact ⟨lb64decode_eq hs htext hlength, decodeInside_of_length hlength⟩

theorem base64_iff_foo : (∃ code, lb64encode [102, 111] = .ok code ∧ EncodeInside [102, 111] ∧
      ∀ text, Inserted code text →
        (lb64decode text = .ok [102, 111] ∧ DecodeInside text ↔ text.length < 2 ^ 31)) ∧
    ∀ text : LuaString, text.length < 2 ^ 31 → DecodeInside text :=
  base64_iff [102, 111] (by decide)

theorem inserted_replicate {whole : LuaString} (hne : whole ≠ []) (hc : ¬ InAlphabet c)
    (h : Inserted whole text) (n : ℕ) : Inserted whole (List.replicate n c ++ text) := by
  induction n with
  | zero => exact h
  | succ n ih => exact .insert c hc hne ih

/-- The code of one byte behind 2^31 - 4 spaces is not decoded: the index overflows. -/
theorem lb64decode_spaces :
    ∃ text, lb64encode [97] = .ok [89, 81, 61, 61] ∧ Inserted [89, 81, 61, 61] text ∧
      text = List.replicate (2 ^ 31 - 4) 32 ++ [89, 81, 61, 61] ∧
      ∀ result, lb64decode text ≠ .ok result := by
  refine ⟨_, by decide, ?_, rfl, fun result hresult => ?_⟩
  · exact inserted_replicate (by decide) (by decide) (.keep _ (.keep _ (.keep _ (.keep _ .nil)))) _
  · have hlength := lb64decode_long hresult
    rw [List.length_append, List.length_replicate] at hlength
    exact absurd hlength (by decide)

end Uboss.Lib.Crypt.Base64
