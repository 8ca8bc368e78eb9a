import Mathlib.Data.List.Nodup
import Uboss.Lib.BsonSound

/-!
# A table is read as it was written
-/

namespace Uboss.Lib

open Math List Int Nat LuaValue

/-! ### Values -/

/-- The bytes of a value are read as the value, if there is so much room on the stack. -/
def ReadBack (n : ℕ) (v : LuaValue ℕ) : Prop :=
  ∃ val, UnpackedAs n (bsonType v) (payload v) val ∧ v.Same val

section Scalars

variable {n : ℕ}

theorem toInt32_of_is32bit {i : Int64} (h : is32bit i = true) :
    toInt32 (i.toUInt64.toNat % 2 ^ 32 : ℕ) = i.toInt := by
  obtain ⟨hge, hlt⟩ : -2 ^ 31 ≤ i.toInt ∧ i.toInt < 2 ^ 31 := of_decide_eq_true h
  have hint : i.toInt = Int.bmod i.toUInt64.toNat (2 ^ 64) := BitVec.toInt_eq_toNat_bmod ..
  calc toInt32 (i.toUInt64.toNat % 2 ^ 32 : ℕ)
      = Int.bmod i.toUInt64.toNat (2 ^ 32) := by
        rw [toInt32, natCast_emod]
        exact emod_bmod ..
    _ = Int.bmod (Int.bmod i.toUInt64.toNat (2 ^ 64)) (2 ^ 32) :=
        (bmod_bmod_of_dvd (by decide)).symm
    _ = i.toInt := by
        rw [← hint]
        exact bmod_eq_of_le_mul_two (by omega) (by omega)

/-- An integer is read back from four bytes if and only if it fits in them. -/
theorem int32_iff (i : Int64) :
    Int64.ofInt (length32 (leBytes 4 i.toUInt64.toNat)) = i ↔ is32bit i := by
  rw [length32, leNat_leBytes]
  constructor
  · intro h
    generalize hn : toInt32 (i.toUInt64.toNat % 2 ^ (8 * 4) : ℕ) = n at h
    have hlt := bmod_lt (x := (i.toUInt64.toNat % 2 ^ (8 * 4) : ℕ)) (m := 2 ^ 32) (by decide)
    have hle := le_bmod (x := (i.toUInt64.toNat % 2 ^ (8 * 4) : ℕ)) (m := 2 ^ 32) (by decide)
    rw [toInt32] at hn
    rw [hn] at hlt hle
    have hint : i.toInt = n := by
      have hsize : Int64.size = 2 ^ 64 := rfl
      rw [← h, Int64.toInt_ofInt]
      exact bmod_eq_of_le_mul_two (by omega) (by omega)
    refine decide_eq_true ?_
    rw [hint]
    omega
  · intro h
    rw [toInt32_of_is32bit h, Int64.ofInt_toInt]

theorem readBack_fixed {v : LuaValue ℕ} (hsize : fixedSize (bsonType v) = some (payload v).length)
    (hsame : v.Same (fixedValue (bsonType v) (payload v))) : ReadBack n v :=
  ⟨_, fun _ _ _ hbuf _ _ => unpack_fixed hbuf hsize, hsame⟩

/-- An integer is read as the integer that it was, from four or from eight bytes. -/
theorem readBack_integer (i : Int64) : ReadBack n (.scalar (.integer i)) := by
  have hvalue : fixedValue (bsonType (.scalar (.integer i))) (payload (.scalar (.integer i))) =
      .scalar (.integer i) := by
    rw [bsonType, payload]
    cases h : is32bit i with
    | true => exact congrArg (fun i => scalar (.integer i)) ((int32_iff i).mpr h)
    | false =>
      have hword : leNat (leBytes 8 i.toUInt64.toNat) = i.toUInt64.toNat :=
        leNat_leBytes_of_lt i.toUInt64.toNat_lt
      change scalar (.integer (Int64.ofNat (leNat (leBytes 8 i.toUInt64.toNat)))) = _
      rw [hword, ofNat_toUInt64]
  refine readBack_fixed ?_ (hvalue ▸ same_scalar _)
  rw [payload, length_leBytes, bsonType]
  split_ifs <;> rfl

theorem readBack_real (d : UInt64) : ReadBack n (.scalar (.real d)) := by
  refine readBack_fixed rfl ?_
  change Same _ (scalar (.real (UInt64.ofNat (leNat (leBytes 8 d.toNat)))))
  rw [leNat_leBytes_of_lt d.toNat_lt, UInt64.ofNat_toNat]
  exact same_scalar _

theorem readBack_boolean (v : Bool) : ReadBack n (.scalar (.boolean v)) := by
  refine readBack_fixed rfl ?_
  cases v <;> exact same_scalar _

theorem readBack_string {str : List UInt8} (hlen : str.length + 1 < 2 ^ 31) :
    ReadBack n (.scalar (.string str)) := by
  have hsize : length32 (leBytes 4 (str.length + 1)) = (str ++ [0]).length := by
    rw [length32_leBytes hlen, length_append, length_singleton]
  refine ⟨_, fun _ _ _ hbuf _ _ => unpack_checked hbuf length_leBytes hsize (by simp), ?_⟩
  rw [dropLast_concat]
  exact same_scalar _

end Scalars

/-! ### Tables -/

section Tables

variable {array : Bool} {n i : ℕ} {entries : List (LuaScalar × LuaValue ℕ)}

/-- An entry and what was read for it. -/
def SameEntry (e : LuaScalar × LuaValue ℕ) (e' : LuaScalar × LuaValue Unit) : Prop :=
  e.1 = e'.1 ∧ e.2.Same e'.2

theorem same_table {len : ℕ} {hash : List (LuaScalar × LuaValue Unit)}
    (hnodup : (entries.map (·.1)).Nodup) (hhash : List.Forall₂ SameEntry entries hash) :
    (table len (ofEntries entries)).Same (table () (setAll [] hash)) := by
  have hall : (entries.filter fun e => !inArray (0 : ℕ) (some e.1)) = entries := by
    refine filter_eq_self.mpr fun e _ => ?_
    have hnot : ¬inArray ((0 : ℕ) : ℤ) (some e.1) = true := by
      rw [inArray_iff (by decide)]
      rintro ⟨j, hj, -⟩
      exact absurd hj (Nat.not_lt_zero j)
    simpa using hnot
  have hsame : (table 0 (ofEntries entries)).Same (table () (setAll (setArray 1 [] []) hash)) :=
    same_setAll hnodup (by decide) rfl nofun (by rwa [hall])
  rw [same_table_iff] at hsame ⊢
  exact hsame

/-- The entries are read one after the other, each from its own bytes. -/
theorem looped_entries (hnames : ∀ j (hj : j < entries.length),
      0 ∉ elementName array (i + j) (.scalar entries[j].1) ∧
        elementKey array (elementName array (i + j) (.scalar entries[j].1)) = entries[j].1)
    (hvalues : ∀ e ∈ entries, ReadBack n e.2) :
    ∃ hash, LoopedAs n array (elements array i (ofEntries entries)) (setAll · hash) ∧
      List.Forall₂ SameEntry entries hash := by
  induction entries generalizing i with
  | nil => exact ⟨[], loopedAs_nil n array, .nil⟩
  | cons e entries ih =>
    obtain ⟨⟨val, hval, hsame⟩, hvalues⟩ := forall_mem_cons.mp hvalues
    obtain ⟨hzero, hkey⟩ := hnames 0 (succ_pos _)
    obtain ⟨hash, hloop, hall⟩ := ih (i := i + 1) (fun j hj => by
      rw [Nat.add_right_comm]
      exact hnames (j + 1) (succ_lt_succ hj)) hvalues
    refine ⟨(e.1, val) :: hash, ?_, .cons ⟨rfl, hsame⟩ hall⟩
    have hcons := hval.cons hzero hloop
    rwa [hkey] at hcons

theorem elementKey_decimal {i : ℕ} (hi : i + 1 < 2 ^ 31) :
    elementKey true (decimal i) = indexKey (i + 1) := by
  have hkey : toInt32 (strtol (decimal i) + 1) = ((i + 1 : ℕ) : ℤ) := by
    rw [strtol_decimal (by omega), toInt32_eq (by omega) (by omega)]
    rfl
  rw [elementKey, if_pos rfl, hkey, Int64.ofInt_eq_ofNat]
  rfl

theorem nodup_sequence
    (hkeys : entries.map (·.1) = (List.range entries.length).map fun i => indexKey (i + 1))
    (hlen : entries.length < 2 ^ 31) : (entries.map (·.1)).Nodup := by
  rw [hkeys]
  refine List.Nodup.map_on (fun i hi j hj h => ?_) nodup_range
  rw [mem_range] at hi hj
  have := indexKey_inj (by omega) (by omega) h
  omega

theorem ReadBack.mono {m : ℕ} {v : LuaValue ℕ} (h : ReadBack n v) (hm : n ≤ m) : ReadBack m v :=
  let ⟨val, hval, hsame⟩ := h
  ⟨val, hval.mono hm, hsame⟩

theorem looped_document (hkeys : ∀ e ∈ entries, ∃ key, e.1 = .string key ∧ 0 ∉ key)
    (hvalues : ∀ e ∈ entries, ReadBack n e.2) :
    ∃ hash, LoopedAs n false (elements false 0 (ofEntries entries)) (setAll · hash) ∧
      List.Forall₂ SameEntry entries hash := by
  refine looped_entries (fun j hj => ?_) hvalues
  obtain ⟨key, hkey, hzero⟩ := hkeys _ (getElem_mem hj)
  rw [hkey]
  exact ⟨hzero, rfl⟩

theorem looped_sequence
    (hkeys : entries.map (·.1) = (List.range entries.length).map fun i => indexKey (i + 1))
    (hlen : entries.length < 2 ^ 31) (hvalues : ∀ e ∈ entries, ReadBack n e.2) :
    ∃ hash, LoopedAs n true (elements true 0 (ofEntries entries)) (setAll · hash) ∧
      List.Forall₂ SameEntry entries hash := by
  refine looped_entries (fun j hj => ?_) hvalues
  rw [sequence_key hkeys hj, Nat.zero_add]
  exact ⟨zero_notMem_decimal _, elementKey_decimal (by omega)⟩

theorem readBack_table {len : ℕ} {hash : List (LuaScalar × LuaValue Unit)}
    (harray : decide (len ≠ 0) = array) (hnodup : (entries.map (·.1)).Nodup)
    (hsize : elementsSize array 0 (ofEntries entries) + 5 < 2 ^ 31)
    (hloop : LoopedAs n array (elements array 0 (ofEntries entries)) (setAll · hash))
    (hall : List.Forall₂ SameEntry entries hash) :
    ReadBack (n + 1) (table len (ofEntries entries)) := by
  have htype : bsonType (table len (ofEntries entries)) =
      if array then bsonArray else bsonDocument := by
    rw [bsonType, ← harray]
    by_cases h : len = 0 <;> simp [h]
  refine ⟨_, ?_, same_table hnodup hall⟩
  rw [htype, payload, harray, Lib.document, append_assoc]
  refine unpackedAs_nested (f := (setAll · hash)) ?_ length_leBytes
    (toInt32_document (by rwa [length_elements])) ?_
  · cases array <;> rfl
  · cases array <;> exact hloop

/-- The bytes of a value are read as the value. -/
theorem Bsonable.readBack {left : ℕ} {v : LuaValue ℕ} (h : Bsonable left v)
    (hsize : bsonSize v < 2 ^ 31) : ReadBack (bsonSize v) v := by
  induction h with
  | integer i => exact readBack_integer i
  | real d => exact readBack_real d
  | boolean v => exact readBack_boolean v
  | string hstr =>
    rw [bsonSize] at hsize
    exact readBack_string (by omega)
  | @document left entries hnodup hkeys hvalues ih =>
    obtain ⟨-, hle⟩ := le_elementsSize entries false 0
    change elementsSize false 0 (ofEntries entries) + 5 < _ at hsize
    obtain ⟨hash, hloop, hall⟩ := looped_document hkeys fun e he =>
      (ih e he ((hle e he).trans_lt (by omega))).mono (hle e he)
    have hempty : decide ((0 : ℕ) ≠ 0) = false := rfl
    exact (readBack_table hempty hnodup hsize hloop hall).mono (by rw [bsonSize, hempty]; omega)
  | @array left entries hne hkeys hvalues ih =>
    have hpos : decide (entries.length ≠ 0) = true := decide_eq_true (length_pos_iff.mpr hne).ne'
    obtain ⟨hlen, hle⟩ := le_elementsSize entries true 0
    rw [bsonSize, hpos] at hsize ⊢
    obtain ⟨hash, hloop, hall⟩ := looped_sequence hkeys (by omega) fun e he =>
      (ih e he ((hle e he).trans_lt (by omega))).mono (hle e he)
    exact (readBack_table hpos (nodup_sequence hkeys (by omega)) hsize hloop hall).mono (by omega)

end Tables

/-! ### Documents -/

/-- A value that is in another one, at any depth. -/
inductive Within (v : LuaValue ℕ) : LuaValue ℕ → Prop
  | refl : Within v v
  | entry {len : ℕ} {es : LuaEntries ℕ} {k w : LuaValue ℕ} :
      (k, w) ∈ es → Within v w → Within v (.table len es)

theorem payload_infix_elements {array : Bool} {i : ℕ} {es : LuaEntries ℕ} {k w : LuaValue ℕ}
    (hmem : (k, w) ∈ es) : payload w <:+: elements array i es := by
  induction es generalizing i with
  | nil => cases hmem
  | cons e es ih =>
    rw [elements]
    rcases mem_cons.mp hmem with rfl | hmem
    · rw [element]
      exact (suffix_append ..).isInfix.trans (prefix_append ..).isInfix
    · exact (ih hmem).trans (suffix_append ..).isInfix

theorem Within.payload_infix {v w : LuaValue ℕ} (h : Within v w) : payload v <:+: payload w := by
  induction h with
  | refl => exact infix_refl _
  | @entry len es k w hmem _ ih =>
    rw [payload, document, append_assoc]
    exact ih.trans ((payload_infix_elements hmem).trans
      ((prefix_append ..).isInfix.trans (suffix_append ..).isInfix))

/-- Every table in a value is a document with its real length in front. -/
theorem Within.prefix_eq {len : ℕ} {es : LuaEntries ℕ} {w : LuaValue ℕ}
    (h : Within (.table len es) w) (hsize : bsonSize w < 2 ^ 31) :
    leNat ((payload (.table len es)).take 4) = (payload (.table len es)).length := by
  have hle := h.payload_infix.length_le
  rw [length_payload, length_payload, bsonSize] at hle
  rw [payload]
  exact leNat_document (by rw [length_elements]; omega)

/-! ### The round trip -/

/-- A table is written, it is read as the table that it was, and every table in it has its real
length in front. -/
def RoundTrips (tolstring : LuaScalar → List UInt8) (es : LuaEntries ℕ) : Prop :=
  ∃ bytes, lencode tolstring es = .ok bytes ∧
    (∀ fuel, bytes.length ≤ fuel → ∃ v, ldecode bytes fuel = .ok v ∧ (table 0 es).Same v) ∧
    ∀ len es', Within (.table len es') (.table 0 es) → payload (.table len es') <:+: bytes ∧
      leNat ((payload (.table len es')).take 4) = (payload (.table len es')).length

section RoundTrip

variable {es : LuaEntries ℕ}

theorem ldecode_payload (h : Bsonable (bsonMaxDepth + 1) (.table 0 es)) {fuel : ℕ}
    (hsize : bsonSize (.table 0 es) < 2 ^ 31) (hfuel : bsonSize (.table 0 es) ≤ fuel) :
    ∃ v, ldecode (payload (.table 0 es)) fuel = .ok v ∧ (table 0 es).Same v := by
  obtain ⟨entries, rfl, hnodup, hkeys, hvalues⟩ := h.exists_document
  have hempty : decide ((0 : ℕ) ≠ 0) = false := rfl
  rw [bsonSize, hempty] at hsize hfuel
  obtain ⟨-, hle⟩ := le_elementsSize entries false 0
  obtain ⟨hash, hloop, hall⟩ := looped_document hkeys fun e he =>
    ((hvalues e he).readBack ((hle e he).trans_lt (by omega))).mono (hle e he)
  rw [← length_elements] at hsize hfuel hloop
  obtain ⟨fuel, rfl⟩ : ∃ n, fuel = n + 1 := ⟨fuel - 1, by omega⟩
  refine ⟨_, ?_, same_table hnodup hall⟩
  rw [payload, hempty, document, append_assoc]
  have hreal := length_real hsize
  refine Reads.ldecode (reads_dict (f := (setAll · hash)) (length_lt_of_real hreal) ?_ ?_
    length_leBytes (toInt32_document hsize) hloop) ?_ hreal
  · omega
  · omega
  · rw [length_prefixed]
    omega

/-- A table whose document is smaller than 2^31 bytes is read as it was written if and only if the
document has no more than 2^30 bytes: the capacity of the buffer is doubled until there is room, and
2^31 is not an `int`. -/
theorem ldecode_lencode_iff (tolstring : LuaScalar → List UInt8)
    (h : Bsonable (bsonMaxDepth + 1) (.table 0 es)) (hsize : bsonSize (.table 0 es) < 2 ^ 31) :
    RoundTrips tolstring es ↔ bsonSize (.table 0 es) ≤ 2 ^ 30 := by
  constructor
  · rintro ⟨bytes, hcode, -⟩
    exact ((lencode_iff tolstring h hsize bytes).mp hcode).2
  · intro hle
    refine ⟨_, (lencode_iff tolstring h hsize _).mpr ⟨rfl, hle⟩, fun fuel hfuel => ?_,
      fun len es' hwithin => ⟨hwithin.payload_infix, hwithin.prefix_eq hsize⟩⟩
    rw [length_payload] at hfuel
    exact ldecode_payload h hsize hfuel

theorem bsonable_sampleTable : Bsonable (bsonMaxDepth + 1) (.table 0 sampleTable) := by
  have harray := @Bsonable.array 127 [(indexKey 1, .scalar (.boolean true)),
      (indexKey 2, .scalar (.string [104, 105]))] (cons_ne_nil _ _) rfl (by
    intro e he
    simp only [mem_cons, not_mem_nil, or_false] at he
    rcases he with rfl | rfl
    · exact .boolean true
    · exact .string (by decide))
  refine .document (by decide) (fun e he => ?_) fun e he => ?_
  · simp only [mem_cons, not_mem_nil, or_false] at he
    rcases he with rfl | rfl | rfl | rfl <;> exact ⟨_, rfl, by decide⟩
  · simp only [mem_cons, not_mem_nil, or_false] at he
    rcases he with rfl | rfl | rfl | rfl
    · exact harray
    · exact .integer _
    · exact .real _
    · exact @Bsonable.document _ [] .nil nofun nofun

theorem ldecode_lencode_sample :
    RoundTrips (fun _ => []) sampleTable ↔ bsonSize (.table 0 sampleTable) ≤ 2 ^ 30 :=
  ldecode_lencode_iff _ bsonable_sampleTable (by decide)

/-- A table with one string of this length. -/
def longString (n : ℕ) : LuaEntries ℕ :=
  ofEntries [(.string [97], .scalar (.string (List.replicate n 97)))]

theorem bsonSize_longString (n : ℕ) : bsonSize (.table 0 (longString n)) = n + 13 := by
  have hsize : bsonSize (.table 0 (longString n)) =
      (1 + ((List.replicate n (97 : UInt8)).length + 5) + 2 + 0) + 5 := rfl
  rw [hsize, length_replicate]
  omega

theorem bsonable_longString {n left : ℕ} (hn : 0 < n) :
    Bsonable (left + 1) (.table 0 (longString n)) := by
  refine .document (nodup_singleton _) (fun e he => ?_) fun e he => ?_
  · obtain rfl := mem_singleton.mp he
    exact ⟨[97], rfl, by decide⟩
  · obtain rfl := mem_singleton.mp he
    refine .string ?_
    rw [head?_replicate, if_neg hn.ne']
    decide

/-- A string of 2^30 bytes is not written, although its document is smaller than 2^31 bytes. -/
theorem lencode_long_string : ¬ ∀ tolstring es, Bsonable (bsonMaxDepth + 1) (.table 0 es) →
    bsonSize (.table 0 es) < 2 ^ 31 → RoundTrips tolstring es := by
  intro hall
  have hlong : Bsonable (bsonMaxDepth + 1) (.table 0 (longString (2 ^ 30))) :=
    bsonable_longString (Nat.two_pow_pos 30)
  have hsize := bsonSize_longString (2 ^ 30)
  have hlt : bsonSize (.table 0 (longString (2 ^ 30))) < 2 ^ 31 := by
    rw [hsize]
    decide
  obtain ⟨bytes, hcode, -⟩ := hall (fun _ => []) _ hlong hlt
  have hle := ((lencode_iff _ hlong hlt bytes).mp hcode).2
  rw [hsize] at hle
  exact absurd hle (by decide)

end RoundTrip

end Uboss.Lib
