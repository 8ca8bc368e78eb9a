import Uboss.Lib.SeriFormat
import Uboss.Math.Interleave

/-!
# What is packed

The writer makes a stream of the values that it is given.
-/

namespace Uboss.Lib

open Math List Int Int64 LuaValue

/-! ### Blocks -/

/-- What has been written. -/
def WriteBlock.content (wb : WriteBlock) : List UInt8 := wb.blocks.flatten ++ wb.current

section Content

variable (wb : WriteBlock) (buf : List UInt8)

theorem WriteBlock.content_push : (wb.push buf).content = wb.content ++ buf := by
  fun_induction WriteBlock.push wb buf with
  | case1 wb buf h => exact (append_assoc ..).symm
  | case2 wb buf h hlen ih =>
    have halloc : ∀ (wb : WriteBlock) (h : wb.ptr = blockSize),
        (wb.alloc h).content = wb.content := fun wb h => by
      simp [WriteBlock.content, WriteBlock.alloc]
    rw [ih, halloc]
    change wb.blocks.flatten ++ (wb.current ++ buf.take _) ++ buf.drop _ = _
    rw [← append_assoc, append_assoc _ (buf.take _), take_append_drop]
    rfl

theorem content_wbPush : (wbPush wb buf).content = wb.content ++ buf := by
  unfold wbPush
  split_ifs with h
  · rw [WriteBlock.content_push]
    simp [WriteBlock.content, WriteBlock.alloc]
  · exact WriteBlock.content_push ..

theorem seriLoop_eq {bs : List (List UInt8)} {last : List UInt8}
    (hfull : ∀ b ∈ bs, b.length = blockSize) (hle : last.length ≤ blockSize) :
    seriLoop (bs ++ [last]) (bs.flatten ++ last).length = bs.flatten ++ last := by
  induction bs with
  | nil =>
    rw [nil_append, flatten_nil, nil_append, seriLoop]
    split_ifs with h
    · rw [← Nat.le_antisymm hle h, take_length, Nat.sub_self, seriLoop, append_nil]
    · exact take_length
  | cons b bs ih =>
    obtain ⟨hb, hfull⟩ := forall_mem_cons.mp hfull
    rw [cons_append, seriLoop, flatten_cons, append_assoc, length_append, hb,
      if_pos (Nat.le_add_right ..), Nat.add_sub_cancel_left, ih hfull, ← hb, take_length]

theorem seri_eq : seri wb = wb.content := by
  rw [seri, wb.len_eq]
  exact seriLoop_eq wb.full wb.le

end Content

/-! ### Scalars -/

section Integer

variable (v : Int64)

theorem ofNat_toUInt64 : Int64.ofNat v.toUInt64.toNat = v := by
  rw [← UInt64.toInt64_ofNat', UInt64.ofNat_toNat, toInt64_toUInt64]

theorem ofNat_leBytes_four :
    (UInt32.ofNat (leNat (leBytes 4 v.toUInt64.toNat))).toInt32 = v.toInt32 := by
  have hmod : UInt32.ofNat (v.toUInt64.toNat % 2 ^ (8 * 4)) = UInt32.ofNat v.toUInt64.toNat := by
    apply UInt32.toNat.inj
    rw [UInt32.toNat_ofNat', UInt32.toNat_ofNat', Nat.mod_mod]
  rw [leNat_leBytes, hmod, UInt32.toInt32_ofNat', ← toInt32_ofNat', ofNat_toUInt64]

variable {v}

theorem toNat_toUInt64_lt {n : ℕ} (hpos : 0 ≤ v) (hlt : v.toInt < n) : v.toUInt64.toNat < n := by
  have hint : 0 ≤ v.toInt := le_iff_toInt_le.mp hpos
  rw [toNat_toUInt64_of_le hpos, toNatClampNeg]
  omega

theorem ofNat_leBytes {k : ℕ} (hpos : 0 ≤ v) (hlt : v.toInt < (2 ^ (8 * k) : ℕ)) :
    Int64.ofNat (leNat (leBytes k v.toUInt64.toNat)) = v := by
  rw [leNat_leBytes_of_lt (toNat_toUInt64_lt hpos hlt), ofNat_toUInt64]

end Integer

theorem content_wbPush_two (wb : WriteBlock) (t : UInt8) (bs : List UInt8) :
    (wbPush (wbPush wb [t]) bs).content = wb.content ++ t :: bs := by
  rw [content_wbPush, content_wbPush, append_assoc, singleton_append]

theorem wbInteger_bytes (wb : WriteBlock) (v : Int64) :
    ∃ t bs, (wbInteger wb v).content = wb.content ++ t :: bs ∧ t.toNat % 8 = 2 ∧
      IntegerBytes (t.toNat / 8) bs v := by
  have hdword (h : v = v.toInt32.toInt64) :
      IntegerBytes ((combineType 2 4).toNat / 8) (leBytes 4 v.toUInt64.toNat) v := by
    have hbytes := IntegerBytes.dword (length_leBytes (k := 4) (n := v.toUInt64.toNat))
    rwa [ofNat_leBytes_four, ← h] at hbytes
  unfold wbInteger
  split_ifs with hzero hqword hneg hbyte hword
  · subst hzero
    exact ⟨combineType 2 0, [], content_wbPush .., rfl, .zero⟩
  · refine ⟨_, _, content_wbPush_two .., rfl, ?_⟩
    have hbytes := IntegerBytes.qword (length_leBytes (k := 8) (n := v.toUInt64.toNat))
    rwa [leNat_leBytes_of_lt v.toUInt64.toNat_lt, UInt64.ofNat_toNat, toInt64_toUInt64]
      at hbytes
  · exact ⟨_, _, content_wbPush_two .., rfl, hdword (not_not.mp hqword)⟩
  · refine ⟨_, _, content_wbPush_two .., rfl, ?_⟩
    have hbytes := IntegerBytes.byte (length_leBytes (k := 1) (n := v.toUInt64.toNat))
    rwa [ofNat_leBytes (Int64.not_lt.mp hneg) (Int64.lt_iff_toInt_lt.mp hbyte)] at hbytes
  · refine ⟨_, _, content_wbPush_two .., rfl, ?_⟩
    have hbytes := IntegerBytes.word (length_leBytes (k := 2) (n := v.toUInt64.toNat))
    rwa [ofNat_leBytes (Int64.not_lt.mp hneg) (Int64.lt_iff_toInt_lt.mp hword)] at hbytes
  · exact ⟨_, _, content_wbPush_two .., rfl, hdword (not_not.mp hqword)⟩

/-- A string that is shorter than 2^31 bytes; any other scalar. -/
def LuaScalar.Fits : LuaScalar → Prop
  | .string str => str.length < 2 ^ 31
  | _ => True

theorem toNat_combineType {t v : ℕ} (ht : t < 8) (hv : v < 32) :
    (combineType t v).toNat % 8 = t ∧ (combineType t v).toNat / 8 = v := by
  have hor := Nat.shiftLeft_add_eq_or_of_lt (i := 3) ht v
  rw [combineType, UInt8.toNat_ofNat', Nat.or_comm, ← hor, Nat.shiftLeft_eq]
  omega

theorem wbString_bytes (wb : WriteBlock) {str : List UInt8} (hlen : str.length < 2 ^ 31) :
    ∃ t bs, (wbString wb str).content = wb.content ++ t :: bs ∧
      ScalarBytes (t.toNat % 8) (t.toNat / 8) bs (.scalar (.string str)) := by
  unfold wbString
  rw [toInt_eq hlen]
  dsimp only
  rw [toNat_natCast]
  split_ifs with hshort hpos hlong
  · obtain ⟨ht, hcookie⟩ := toNat_combineType (t := 4) (by decide) (ofNat_lt.mp hshort)
    refine ⟨_, _, content_wbPush_two .., ?_⟩
    rw [ht, hcookie]
    exact .short
  · obtain rfl : str = [] := length_eq_zero_iff.mp (by omega)
    have hempty : ScalarBytes 4 ([] : List UInt8).length [] (.scalar (.string [])) := .short
    exact ⟨_, [], content_wbPush .., hempty⟩
  · have hheader : leNat (leBytes 2 str.length) = str.length := leNat_leBytes_of_lt (by omega)
    refine ⟨combineType 5 2, leBytes 2 str.length ++ str, ?_, .long length_leBytes hheader⟩
    rw [content_wbPush, content_wbPush_two, append_assoc, cons_append]
  · have hheader : leNat (leBytes 4 str.length) = str.length := leNat_leBytes_of_lt (by omega)
    refine ⟨combineType 5 4, leBytes 4 str.length ++ str, ?_, .huge length_leBytes hheader hlen⟩
    rw [content_wbPush, content_wbPush_two, append_assoc, cons_append]

theorem wbScalar_bytes (wb : WriteBlock) {s : LuaScalar} (hs : s.Fits) :
    ∃ t bs, (wbScalar wb s).content = wb.content ++ t :: bs ∧
      ScalarBytes (t.toNat % 8) (t.toNat / 8) bs (.scalar s) := by
  cases s with
  | boolean b =>
    cases b with
    | false => exact ⟨_, [], content_wbPush .., .boolean 0⟩
    | true => exact ⟨_, [], content_wbPush .., .boolean 1⟩
  | integer v =>
    obtain ⟨t, bs, hcontent, ht, hv⟩ := wbInteger_bytes wb v
    exact ⟨t, bs, hcontent, ht ▸ .integer hv⟩
  | real bits =>
    refine ⟨_, _, content_wbPush_two .., ?_⟩
    have hbytes := ScalarBytes.real (length_leBytes (k := 8) (n := bits.toNat))
    rwa [leNat_leBytes_of_lt bits.toNat_lt, UInt64.ofNat_toNat] at hbytes
  | lightuserdata ptr =>
    refine ⟨_, _, content_wbPush_two .., ?_⟩
    have hbytes := ScalarBytes.pointer 0 (length_leBytes (k := 8) (n := ptr.toNat))
    rwa [leNat_leBytes_of_lt ptr.toNat_lt, UInt64.ofNat_toNat] at hbytes
  | string str => exact wbString_bytes wb hs

/-! ### What the reader makes of a table -/

/-- An index of an array. -/
def indexKey (i : ℕ) : LuaScalar := .integer (ofNat i)

theorem indexKey_inj {i j : ℕ} (hi : i < 2 ^ 63) (hj : j < 2 ^ 63) (h : indexKey i = indexKey j) :
    i = j := by
  have htoInt := congrArg Int64.toInt (LuaScalar.integer.inj h)
  rw [toInt_ofNat_of_lt hi, toInt_ofNat_of_lt hj] at htoInt
  exact ofNat_inj.mp htoInt

/-- The elements of an array are under their indices, and nothing else has changed. -/
theorem rawget_setArray (vs : List UnpackValue) (i : ℕ) (es : LuaEntries Unit)
    (hlt : i + vs.length < 2 ^ 63) :
    (∀ j (hj : j < vs.length), rawget (setArray i vs es) (indexKey (i + j)) = vs[j]) ∧
      ∀ k, (∀ j < vs.length, k ≠ indexKey (i + j)) → rawget (setArray i vs es) k = rawget es k := by
  induction vs generalizing i es with
  | nil => exact ⟨nofun, fun _ _ => rfl⟩
  | cons v vs ih =>
    rw [length_cons] at hlt
    obtain ⟨helems, hother⟩ := ih (i + 1) (rawseti es i v) (by omega)
    have hset : ∀ k, k ≠ indexKey i → rawget (rawseti es i v) k = rawget es k := fun k hk => by
      rw [rawseti, rawget_setKey]
      exact if_neg hk
    constructor
    · intro j hj
      cases j with
      | zero =>
        rw [setArray, Nat.add_zero, hother _ fun j hj heq => ?_, rawseti, rawget_setKey]
        · exact if_pos rfl
        · have := indexKey_inj (by omega) (by omega) heq
          omega
      | succ j =>
        have helem := helems j (by simpa using hj)
        rw [Nat.add_right_comm] at helem
        exact helem
    · intro k hk
      have hfirst : k ≠ indexKey i := hk 0 (Nat.succ_pos _)
      rw [setArray, hother k fun j hj heq => ?_, hset k hfirst]
      refine hk (j + 1) (Nat.succ_lt_succ hj) ?_
      rw [heq, Nat.add_right_comm, Nat.add_assoc]

/-- The entries of the hash part are put into the table. -/
def setAll (es : LuaEntries Unit) (hash : List (LuaScalar × UnpackValue)) : LuaEntries Unit :=
  hash.foldl (fun es e => setKey es e.1 e.2) es

/-- The keys and values of the hash part, as they are written. -/
def keysAndValues (hash : List (LuaScalar × UnpackValue)) : List UnpackValue :=
  hash.flatMap fun e => [.scalar e.1, e.2]

/-- A key that is kept as it is. -/
def LuaScalar.IsKey (k : LuaScalar) : Prop := k.isNaN = false ∧ k.normalize = k

theorem pairs_setAll {hash : List (LuaScalar × UnpackValue)} (hkeys : ∀ e ∈ hash, e.1.IsKey)
    (es : LuaEntries Unit) : Pairs (keysAndValues hash ++ [.nil]) es (setAll es hash) := by
  induction hash generalizing es with
  | nil => exact .done es
  | cons e hash ih =>
    obtain ⟨hkey, hkeys⟩ := forall_mem_cons.mp hkeys
    exact .pair rfl (rawset_scalar hkey.1 hkey.2) (ih hkeys _)

section SetAll

variable {hash : List (LuaScalar × UnpackValue)} {es : LuaEntries Unit} {k : LuaScalar}
  {v : UnpackValue}

theorem rawget_setAll_of_not_mem (hk : k ∉ hash.map (·.1)) :
    rawget (setAll es hash) k = rawget es k := by
  induction hash generalizing es with
  | nil => rfl
  | cons e hash ih =>
    rw [map_cons, mem_cons, not_or] at hk
    exact (ih hk.2).trans (rawget_setKey.trans (if_neg hk.1))

theorem rawget_setAll_of_mem (hnodup : (hash.map (·.1)).Nodup) (hmem : (k, v) ∈ hash) :
    rawget (setAll es hash) k = v := by
  induction hash generalizing es with
  | nil => cases hmem
  | cons e hash ih =>
    obtain ⟨he, hnodup⟩ := nodup_cons.mp hnodup
    rcases mem_cons.mp hmem with rfl | hmem
    · exact (rawget_setAll_of_not_mem he).trans (rawget_setKey.trans (if_pos rfl))
    · exact ih hnodup hmem

end SetAll

/-! ### Tables -/

/-- A table with these entries. -/
def ofEntries (entries : List (LuaScalar × PackValue)) : LuaEntries ℕ :=
  entries.map fun e => (.scalar e.1, e.2)

/-- A result of `lua_rawlen`. -/
def IsBorder (rawlen : ℕ) (es : LuaEntries ℕ) : Prop :=
  (rawlen = 0 ∨ (rawget es (indexKey rawlen)).isNil = false) ∧
    (rawget es (indexKey (rawlen + 1))).isNil = true

/-- A value that can be packed when so many levels are left: no key is a table, and every key has
one value, which is not nil. -/
inductive PackValue.Fits : ℕ → PackValue → Prop
  | nil {left : ℕ} : Fits (left + 1) .nil
  | scalar {left : ℕ} {s : LuaScalar} : s.Fits → Fits (left + 1) (.scalar s)
  | table {left rawlen : ℕ} {entries : List (LuaScalar × PackValue)} :
      (entries.map (·.1)).Nodup → (∀ e ∈ entries, e.1.Fits ∧ e.1.IsKey) →
      (∀ e ∈ entries, e.2.isNil = false) → (∀ e ∈ entries, Fits left e.2) →
      rawlen < 2 ^ 31 → IsBorder rawlen (ofEntries entries) →
      Fits (left + 1) (.table rawlen (ofEntries entries))

/-- The writer makes a stream of a value that is the same. -/
def Packs (left : ℕ) (v : PackValue) : Prop :=
  ∀ wb, ∃ wb' bs v', packOne left v wb = .ok wb' ∧ wb'.content = wb.content ++ bs ∧
    Stream (left + 1) bs [v'] ∧ v.Same v'

section Table

variable {entries : List (LuaScalar × PackValue)} {rawlen left : ℕ}

theorem packs_array {es : LuaEntries ℕ} {n i : ℕ}
    (h : ∀ j < n, Packs left (rawget es (indexKey (i + j)))) (wb : WriteBlock) :
    ∃ wb' bs vs, wbArrayLoop (packOne left) (rawgeti es) n i wb = .ok wb' ∧
      wb'.content = wb.content ++ bs ∧ Stream (left + 1) bs vs ∧ vs.length = n ∧
      ∀ j (hj : j < vs.length), (rawget es (indexKey (i + j))).Same vs[j] := by
  induction n generalizing i wb with
  | zero => exact ⟨wb, [], [], rfl, (append_nil _).symm, .nil, rfl, nofun⟩
  | succ n ih =>
    obtain ⟨wb₁, bs, v, hpack, hcontent, hstream, hsame⟩ := h 0 (Nat.succ_pos n) wb
    obtain ⟨wb', bs', vs, hloop, hcontent', hstream', hlen, hall⟩ := ih (i := i + 1) (fun j hj => by
        rw [Nat.add_right_comm]
        exact h (j + 1) (Nat.succ_lt_succ hj)) wb₁
    refine ⟨wb', bs ++ bs', v :: vs, ?_, ?_, hstream.append hstream', ?_, fun j hj => ?_⟩
    · rw [wbArrayLoop]
      rw [Nat.add_zero] at hpack
      change (packOne left (rawget es (indexKey i)) wb).bind _ = _
      rw [hpack]
      exact hloop
    · rw [hcontent', hcontent, append_assoc]
    · rw [length_cons, hlen]
    · cases j with
      | zero => exact hsame
      | succ j =>
        have hj' := hall j (by simpa using hj)
        rw [Nat.add_right_comm] at hj'
        exact hj'

theorem eq_scalar_of_same {s : LuaScalar} {v : UnpackValue}
    (h : (scalar s : PackValue).Same v) : v = .scalar s := by
  have hshape := h []
  cases v with
  | nil => cases hshape
  | scalar s' => rw [LuaShape.scalar.inj hshape]
  | table => cases hshape

theorem packs_hash (hkeys : ∀ e ∈ entries, Packs left (.scalar e.1))
    (hvalues : ∀ e ∈ entries, Packs left e.2) (size : ℤ) (wb : WriteBlock) :
    ∃ wb' bs hash, wbHashLoop (packOne left) scalar? size (ofEntries entries) wb = .ok wb' ∧
      wb'.content = wb.content ++ bs ∧ Stream (left + 1) bs (keysAndValues hash) ∧
      List.Forall₂ (fun e e' => e.1 = e'.1 ∧ e.2.Same e'.2)
        (entries.filter fun e => !inArray size (some e.1)) hash := by
  induction entries generalizing wb with
  | nil => exact ⟨wb, [], [], rfl, (append_nil _).symm, .nil, .nil⟩
  | cons e entries ih =>
    obtain ⟨hkey, hkeys⟩ := forall_mem_cons.mp hkeys
    obtain ⟨hvalue, hvalues⟩ := forall_mem_cons.mp hvalues
    have hloop : wbHashLoop (packOne left) scalar? size (ofEntries (e :: entries)) wb =
        if inArray size (some e.1) then
          wbHashLoop (packOne left) scalar? size (ofEntries entries) wb
        else (packOne left (.scalar e.1) wb).bind fun wb => (packOne left e.2 wb).bind fun wb =>
          wbHashLoop (packOne left) scalar? size (ofEntries entries) wb := rfl
    cases harray : inArray size (some e.1) with
    | true =>
      obtain ⟨wb', bs, hash, hok, hcontent, hstream, hall⟩ := ih hkeys hvalues wb
      refine ⟨wb', bs, hash, ?_, hcontent, hstream, ?_⟩
      · rw [hloop, harray, if_pos rfl, hok]
      · rwa [filter_cons_of_neg (by simp [harray])]
    | false =>
      obtain ⟨wb₁, bsk, k', hk, hkcontent, hkstream, hksame⟩ := hkey wb
      obtain ⟨wb₂, bsv, v', hv, hvcontent, hvstream, hvsame⟩ := hvalue wb₁
      obtain ⟨wb', bs, hash, hok, hcontent, hstream, hall⟩ := ih hkeys hvalues wb₂
      obtain rfl := eq_scalar_of_same hksame
      refine ⟨wb', bsk ++ (bsv ++ bs), (e.1, v') :: hash, ?_, ?_,
        hkstream.append (hvstream.append hstream), ?_⟩
      · rw [hloop, harray, if_neg Bool.false_ne_true, hk]
        change (packOne left e.2 wb₁).bind _ = _
        rw [hv]
        exact hok
      · rw [hcontent, hvcontent, hkcontent, append_assoc, append_assoc]
      · rw [filter_cons_of_pos (by simp [harray])]
        exact .cons ⟨rfl, hvsame⟩ hall

theorem wbArrayHeader_bytes (hlen : rawlen < 2 ^ 31) (wb : WriteBlock) :
    ∃ t sz, (wbArrayHeader wb rawlen).content = wb.content ++ t :: sz ∧ t.toNat % 8 = 6 ∧
      SizeBytes (t.toNat / 8) sz rawlen := by
  unfold wbArrayHeader
  rw [toNat_natCast]
  split_ifs with hlong
  · obtain ⟨t, bs, hcontent, ht, hn⟩ := wbInteger_bytes
      (wbPush wb [combineType 6 (maxCookie - 1)]) (ofInt rawlen)
    have hsize : (ofInt rawlen).toInt32.toInt = rawlen := by
      rw [toInt32_ofInt, Int32.toInt_ofInt_of_le (by omega) (by omega)]
    have hbytes : SizeBytes ((combineType 6 (maxCookie - 1)).toNat / 8) (t :: bs) rawlen :=
      hsize ▸ SizeBytes.long ht hn
    refine ⟨combineType 6 (maxCookie - 1), t :: bs, ?_, rfl, hbytes⟩
    rw [hcontent, content_wbPush, append_assoc, singleton_append]
  · have hshort : rawlen < 31 := by
      unfold maxCookie at hlong
      omega
    obtain ⟨ht, hcookie⟩ := toNat_combineType (t := 6) (v := rawlen) (by decide) (by omega)
    refine ⟨_, [], content_wbPush .., ht, ?_⟩
    rw [hcookie]
    exact .short (by unfold maxCookie; omega)

/-! ### Values -/

theorem inArray_iff {k : LuaScalar} (hlen : rawlen < 2 ^ 31) :
    inArray (rawlen : ℤ) (some k) = true ↔ ∃ j < rawlen, k = indexKey (1 + j) := by
  cases k with
  | integer n =>
    have hdef : inArray (rawlen : ℤ) (some (.integer n)) = true ↔
        0 < n.toInt ∧ n.toInt ≤ rawlen := decide_eq_true_iff
    rw [hdef]
    constructor
    · rintro ⟨hpos, hle⟩
      refine ⟨n.toInt.toNat - 1, by omega, ?_⟩
      have hn : 1 + (n.toInt.toNat - 1) = n.toInt.toNat := by omega
      rw [indexKey, hn, ← ofInt_eq_ofNat, toNat_of_nonneg hpos.le, ofInt_toInt]
    · rintro ⟨j, hj, hk⟩
      rw [LuaScalar.integer.inj hk, toInt_ofNat_of_lt (by omega)]
      omega
  | boolean | real | string | lightuserdata =>
    constructor
    · exact nofun
    · rintro ⟨j, -, hk⟩
      cases hk

theorem rawget_ofEntries_of_mem (hnodup : (entries.map (·.1)).Nodup) {k : LuaScalar}
    {v : PackValue} (hmem : (k, v) ∈ entries) : rawget (ofEntries entries) k = v := by
  induction entries with
  | nil => cases hmem
  | cons e entries ih =>
    obtain ⟨he, hnodup⟩ := nodup_cons.mp hnodup
    change rawget ((.scalar e.1, e.2) :: ofEntries entries) k = v
    rw [rawget_cons]
    rcases mem_cons.mp hmem with rfl | hmem
    · exact if_pos (decide_eq_true rfl)
    · rw [if_neg, ih hnodup hmem]
      intro hkey
      have heq : e.1 = k := of_decide_eq_true hkey
      exact he (mem_map.mpr ⟨_, hmem, heq.symm⟩)

theorem rawget_ofEntries_of_not_mem {k : LuaScalar} (hk : k ∉ entries.map (·.1)) :
    rawget (ofEntries entries) k = .nil := by
  induction entries with
  | nil => rfl
  | cons e entries ih =>
    rw [map_cons, mem_cons, not_or] at hk
    change rawget ((.scalar e.1, e.2) :: ofEntries entries) k = _
    rw [rawget_cons, if_neg, ih hk.2]
    intro hkey
    exact hk.1 (of_decide_eq_true hkey).symm

theorem map_fst_eq {as : List (LuaScalar × PackValue)} {bs : List (LuaScalar × UnpackValue)}
    (h : List.Forall₂ (fun e e' => e.1 = e'.1 ∧ e.2.Same e'.2) as bs) :
    bs.map (·.1) = as.map (·.1) := by
  induction h with
  | nil => rfl
  | cons hkey _ ih => rw [map_cons, map_cons, ih, hkey.1]

/-- The table that is read has the values of the one that was written. -/
theorem same_setAll {vs : List UnpackValue} {hash : List (LuaScalar × UnpackValue)}
    (hnodup : (entries.map (·.1)).Nodup) (hlen : rawlen < 2 ^ 31) (hvs : vs.length = rawlen)
    (harray : ∀ j (hj : j < vs.length), (rawget (ofEntries entries) (indexKey (1 + j))).Same vs[j])
    (hhash : List.Forall₂ (fun e e' => e.1 = e'.1 ∧ e.2.Same e'.2)
      (entries.filter fun e => !inArray rawlen (some e.1)) hash) :
    (table rawlen (ofEntries entries)).Same (table () (setAll (setArray 1 vs []) hash)) := by
  rw [same_table_iff]
  have hkeys := map_fst_eq hhash
  have hhashNodup : (hash.map (·.1)).Nodup := by
    rw [hkeys]
    exact hnodup.sublist (filter_sublist.map _)
  obtain ⟨helems, hother⟩ := rawget_setArray vs 1 [] (by omega)
  intro k
  by_cases hk : inArray (rawlen : ℤ) (some k) = true
  · have hnot : k ∉ hash.map (·.1) := by
      rw [hkeys]
      intro hmem
      obtain ⟨e, he, rfl⟩ := mem_map.mp hmem
      simpa [hk] using (mem_filter.mp he).2
    obtain ⟨j, hj, rfl⟩ := (inArray_iff hlen).mp hk
    rw [rawget_setAll_of_not_mem hnot, helems j (hvs ▸ hj)]
    exact harray j (hvs ▸ hj)
  · have hnone : rawget (setArray 1 vs []) k = .nil :=
      hother k fun j hj heq => hk ((inArray_iff hlen).mpr ⟨j, hvs ▸ hj, heq⟩)
    by_cases hmem : k ∈ entries.map (·.1)
    · obtain ⟨⟨k, v⟩, he, rfl⟩ := mem_map.mp hmem
      obtain ⟨⟨k', v'⟩, he', rfl, hsame⟩ := forall₂_exists hhash
        (mem_filter.mpr ⟨he, by simpa using hk⟩)
      rw [rawget_ofEntries_of_mem hnodup he, rawget_setAll_of_mem hhashNodup he']
      exact hsame
    · have hnot : k ∉ hash.map (·.1) := by
        rw [hkeys]
        exact fun h => hmem ((filter_sublist.map _).subset h)
      rw [rawget_ofEntries_of_not_mem hmem, rawget_setAll_of_not_mem hnot, hnone]
      exact same_nil

end Table

theorem packs_nil (left : ℕ) : Packs (left + 1) .nil := fun wb =>
  ⟨wbNil wb, [0], .nil, rfl, content_wbPush .., stream_scalar (.nil 0), same_nil⟩

theorem packs_scalar {s : LuaScalar} (hs : s.Fits) (left : ℕ) :
    Packs (left + 1) (.scalar s) := fun wb => by
  obtain ⟨t, bs, hcontent, hbytes⟩ := wbScalar_bytes wb hs
  exact ⟨_, _, _, rfl, hcontent, stream_scalar hbytes, same_scalar s⟩

theorem PackValue.Fits.pos {left : ℕ} {v : PackValue} (h : v.Fits left) : ∃ l, left = l + 1 := by
  cases h <;> exact ⟨_, rfl⟩

theorem mem_of_rawget_ne_nil {entries : List (LuaScalar × PackValue)}
    (hnodup : (entries.map (·.1)).Nodup) {k : LuaScalar}
    (h : (rawget (ofEntries entries) k).isNil = false) :
    (k, rawget (ofEntries entries) k) ∈ entries := by
  by_cases hk : k ∈ entries.map (·.1)
  · obtain ⟨⟨k, v⟩, he, rfl⟩ := mem_map.mp hk
    rwa [rawget_ofEntries_of_mem hnodup he]
  · rw [rawget_ofEntries_of_not_mem hk] at h
    cases h

theorem PackValue.Fits.packs {left : ℕ} {v : PackValue} (h : v.Fits left) :
    Packs left v := by
  induction h with
  | nil => exact packs_nil _
  | scalar hs => exact packs_scalar hs _
  | @table left rawlen entries hnodup hkeys hvalues hfits hlen hborder ih =>
    intro wb
    have helems : ∀ j < rawlen, Packs left (rawget (ofEntries entries) (indexKey (1 + j))) := by
      intro j hj
      cases hnil : (rawget (ofEntries entries) (indexKey (1 + j))).isNil with
      | false => exact ih _ (mem_of_rawget_ne_nil hnodup hnil)
      | true =>
        -- an element is missing, but the last one is there
        have hlast := mem_of_rawget_ne_nil hnodup (hborder.1.resolve_left (by omega))
        obtain ⟨l, rfl⟩ := (hfits _ hlast).pos
        rw [eq_nil_of_isNil hnil]
        exact packs_nil l
    have hkeyPacks : ∀ e ∈ entries, Packs left (.scalar e.1) := by
      intro e he
      obtain ⟨l, rfl⟩ := (hfits e he).pos
      exact packs_scalar (hkeys e he).1 l
    obtain ⟨t, sz, hcontent₁, ht, hsize⟩ := wbArrayHeader_bytes hlen wb
    obtain ⟨wb₂, bs, vs, hloop, hcontent₂, hstream, hvs, hall⟩ :=
      packs_array helems (wbArrayHeader wb rawlen)
    obtain ⟨wb₃, bs', hash, hhashLoop, hcontent₃, hstream', hhash⟩ :=
      packs_hash hkeyPacks ih rawlen wb₂
    have hhashKeys : ∀ e ∈ hash, e.1.IsKey := by
      intro e he
      have hmem : e.1 ∈ hash.map (·.1) := mem_map_of_mem he
      rw [map_fst_eq hhash] at hmem
      obtain ⟨e', he', heq⟩ := mem_map.mp hmem
      exact heq ▸ (hkeys e' (mem_of_mem_filter he')).2
    have hpairs := pairs_setAll hhashKeys (setArray 1 vs [])
    have hend : Stream (left + 1) (bs' ++ [0]) (keysAndValues hash ++ [.nil]) :=
      hstream'.append (stream_scalar (.nil 0))
    have htable := Stream.table ht hsize hstream hvs hend hpairs .nil
    rw [append_nil] at htable
    refine ⟨wbNil wb₃, _, _, ?_, ?_, htable, same_setAll hnodup hlen hvs hall hhash⟩
    · rw [packOne, wbTable, wbTableArray, toInt_eq hlen, toNat_natCast, hloop]
      change (wbHashLoop _ _ _ _ wb₂).map _ = _
      rw [hhashLoop]
      rfl
    · rw [wbNil, content_wbPush, hcontent₃, hcontent₂, hcontent₁]
      simp

theorem packFrom_stream {vs : List PackValue} (hvs : ∀ v ∈ vs, v.Fits (maxDepth + 1))
    (wb : WriteBlock) :
    ∃ wb' bs ws, packFrom vs wb = .ok wb' ∧ wb'.content = wb.content ++ bs ∧
      Stream (maxDepth + 2) bs ws ∧ List.Forall₂ LuaValue.Same vs ws := by
  induction vs generalizing wb with
  | nil => exact ⟨wb, [], [], rfl, (append_nil _).symm, .nil, .nil⟩
  | cons v vs ih =>
    obtain ⟨hv, hvs⟩ := forall_mem_cons.mp hvs
    obtain ⟨wb₁, bs, w, hpack, hcontent, hstream, hsame⟩ := hv.packs wb
    obtain ⟨wb', bs', ws, hpack', hcontent', hstream', hall⟩ := ih hvs wb₁
    refine ⟨wb', bs ++ bs', w :: ws, ?_, ?_, hstream.append hstream', .cons hsame hall⟩
    · rw [packFrom, hpack]
      exact hpack'
    · rw [hcontent', hcontent, append_assoc]

/-- Values that fit are packed, and if this makes less than 2^31 bytes, as many values are unpacked,
each the same as the one that was packed. -/
theorem unpack_pack (vs : List PackValue) (hvs : ∀ v ∈ vs, v.Fits (maxDepth + 1)) :
    ∃ bytes, luaseriPack vs = .ok bytes ∧ (bytes.length < 2 ^ 31 →
      ∃ ws rb, luaseriUnpack bytes = .ok ws rb ∧ vs.length = ws.length ∧
        List.Forall₂ LuaValue.Same vs ws) := by
  obtain ⟨wb, bs, ws, hpack, hcontent, hstream, hall⟩ := packFrom_stream hvs .init
  have hbytes : wb.content = bs := hcontent
  refine ⟨bs, ?_, fun hlen => ?_⟩
  · rw [luaseriPack, hpack, ← hbytes, ← seri_eq]
    rfl
  · obtain ⟨rb, hunpack⟩ := hstream.luaseriUnpack hlen
    exact ⟨ws, rb, hunpack, hall.length_eq, hall⟩

/-- A table with an array of one element, a float as a key, and another table. -/
def nestedTable : PackValue := .table 1 (ofEntries [(indexKey 1, .scalar (.string [104])),
    (.real 0x3ff8000000000000, .scalar (.integer (-300))),
    (.string [107], .table 0 (ofEntries []))])

theorem fits_nestedTable : nestedTable.Fits (maxDepth + 1) := by
  refine .table (by decide) (fun e he => ?_) (fun e he => ?_) (fun e he => ?_) (by decide)
    ⟨.inr (by decide), by decide⟩
  · simp only [mem_cons, not_mem_nil, or_false] at he
    rcases he with rfl | rfl | rfl
    · exact ⟨trivial, by decide, by decide⟩
    · exact ⟨trivial, by decide, by decide⟩
    · exact ⟨Nat.one_lt_two_pow (by decide), by decide, by decide⟩
  · simp only [mem_cons, not_mem_nil, or_false] at he
    rcases he with rfl | rfl | rfl <;> rfl
  · simp only [mem_cons, not_mem_nil, or_false] at he
    rcases he with rfl | rfl | rfl
    · exact .scalar (Nat.one_lt_two_pow (by decide))
    · exact .scalar trivial
    · exact .table .nil nofun nofun nofun (by decide) ⟨.inl rfl, rfl⟩

theorem unpack_pack_nested :
    ∃ bytes, luaseriPack [.nil, nestedTable, .nil] = .ok bytes ∧ (bytes.length < 2 ^ 31 →
      ∃ ws rb, luaseriUnpack bytes = .ok ws rb ∧ 3 = ws.length ∧
        List.Forall₂ LuaValue.Same [.nil, nestedTable, .nil] ws) :=
  unpack_pack [.nil, nestedTable, .nil] fun v hv => by
    simp only [List.mem_cons, List.not_mem_nil, or_false] at hv
    rcases hv with rfl | rfl | rfl
    · exact .nil
    · exact fits_nestedTable
    · exact .nil

end Uboss.Lib
