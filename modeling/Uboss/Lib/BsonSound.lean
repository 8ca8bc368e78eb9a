import Uboss.Lib.BsonTagged

/-!
# Documents that are not broken

The writer goes through the entries of a table up to the first one that it refuses. A name is
written up to its end, and is read up to its first zero; the bytes behind a type, and those of a
full userdata, are written as they are. Where the names have no zero, the tagged strings are well
formed and there is a document in every userdata, the decoder accepts what was written.

## Main results

* `follows_value`, `follows_table` — what the writer does is what the course of the table says
* `Course.Sound.soundly` — a table with a sound course is encoded soundly
* `encodesSoundly` — which tables are encoded soundly
-/

namespace Uboss.Lib

open Math List Except

/-! ### The course of a table -/

namespace Course

/-- The value is refused. -/
def refuse (e : BsonError) : Course := ⟨0, some e, True⟩

/-- The type and the name of an element. -/
def named (key : List UInt8) : Course := ⟨key.length + 2, none, 0 ∉ key⟩

/-- A length in front of the elements, and a zero behind them. -/
def document (c : Course) : Course := (bytes 4).andThen (c.andThen (bytes 1))

/-- The buffer is large enough. -/
def Fits (c : Course) : Prop :=
  match c.stop with
  | some _ => c.size < 2 ^ 30
  | none => c.size ≤ 2 ^ 30

/-- What the writer reaches does not break the document: it reads nothing outside a string or a
userdata, the buffer is large enough, and if nothing is refused then all can be read. -/
structure Sound (c : Course) : Prop where
  fits : c.Fits
  raised : ∀ e, c.stop = some e → Raised e
  readable : c.stop = none → c.readable

end Course

section Course

variable (block : UserBlock) (tolstring : LuaScalar → List UInt8) (room : ℕ)

/-- A scalar, where so many documents may be inside each other. -/
def scalarCourse (k : ℕ) (key : List UInt8) (s : LuaScalar) : Course :=
  match scalarPayload block s with
  | .ok w => (Course.named key).andThen ⟨w.length, none, SoundScalar block k s⟩
  | .error e =>
    if e = .invalidValueType then .refuse e else (Course.named key).andThen (.refuse e)

mutual

/-- The value of an entry, when so many tables may still be in each other. In the userdata may be
`room` documents more. -/
def valueCourse (left : ℕ) (key : List UInt8) : LuaValue ℕ → Course
  | .scalar s => scalarCourse block (room + left) key s
  | .nil => .refuse .invalidValueType
  | .table len es =>
    match isArray len es with
    | .error e => .refuse e
    | .ok array =>
      (Course.named key).andThen
        (match left with
        | 0 => .refuse .tooDepth
        | left + 1 => (entriesCourse left array es).document)

/-- The entries of a table in their order. -/
def entriesCourse (left : ℕ) (array : Bool) : LuaEntries ℕ → Course
  | [] => .bytes 0
  | e :: es => (entryCourse left array e).andThen (entriesCourse left array es)

/-- An entry. -/
def entryCourse (left : ℕ) (array : Bool) : LuaValue ℕ × LuaValue ℕ → Course
  | (k, v) =>
    match entryKey tolstring array k with
    | .error e => .refuse e
    | .ok key => valueCourse left key v

end

/-- The table that is encoded. -/
def tableCourse (es : LuaEntries ℕ) : Course :=
  (entriesCourse block tolstring room bsonMaxDepth false es).document

/-- The writer raises an error, or makes a document that the decoder accepts on a stack with room
for as many documents, with as many elements as the table has entries. It does not read outside a
string or a userdata, and its sizes are in their type. -/
def EncodesSoundly (es : LuaEntries ℕ) : Prop :=
  match lencodeWith block tolstring es with
  | .ok bytes => (∀ fuel, bytes.length < fuel →
      ∃ v, ldecodeWithin bytes (room + bsonMaxDepth + 1) fuel = .ok v) ∧
      HasFields (room + bsonMaxDepth) es.length (body bytes)
  | .error e => Raised e

end Course

/-! ### The writer -/

theorem Course.readable_andThen {c d : Course} (hc : c.readable) (hd : d.readable) :
    (c.andThen d).readable := by
  cases h : c.stop with
  | none =>
    rw [andThen_of_none h]
    exact ⟨hc, hd⟩
  | some e => rwa [andThen_of_some h]

theorem Course.readable_document {c : Course} (h : c.readable) : c.document.readable :=
  readable_andThen trivial (readable_andThen h trivial)

theorem follows_refuse (spare : ℕ) (e : BsonError) (G : List UInt8 → Prop) :
    Follows spare (fun _ => .error e) (.refuse e) G where
  ok _ := nofun
  error hb herror := .inl ⟨congrArg some (Except.error.inj herror), hb.size_le⟩

/-! ### The elements -/

/-- The bytes are an element that the decoder goes over. -/
def IsField (k : ℕ) (bs : List UInt8) : Prop :=
  ∃ f : BsonField, f.ReadableWithin decodeLayout k ∧ bs = f.bytes

/-- The bytes are a document with so many elements. -/
def IsDocument (k n : ℕ) (bs : List UInt8) : Prop :=
  ∃ w, bs = leBytes 4 (w.length + 5) ++ (w ++ [0]) ∧ HasFields k n w

section Values

variable {block : UserBlock} {tolstring : LuaScalar → List UInt8} {room k n left : ℕ}
  {pack : DictPacker} {array : Bool} {es : LuaEntries ℕ} {key : List UInt8} {c : Course}

theorem hasFields_nil : HasFields k 0 [] := ⟨[], rfl, nofun, rfl⟩

theorem IsField.cons {x y : List UInt8} (hx : IsField k x) (hy : HasFields k n y) :
    HasFields k (n + 1) (x ++ y) := by
  obtain ⟨f, hf, rfl⟩ := hx
  obtain ⟨fields, rfl, hfields, rfl⟩ := hy
  exact ⟨f :: fields, rfl, forall_mem_cons.mpr ⟨hf, hfields⟩, rfl⟩

theorem follows_named (type : UInt8) (key : List UInt8) :
    Follows 0 (fun b => b.appendKey type key) (.named key)
      fun bs => bs = type :: (key ++ [0]) ∧ 0 ∉ key := by
  have h := (writes_appendKey type key).follows (P := 0 ∉ key)
    (G := fun bs => bs = type :: (key ++ [0]) ∧ 0 ∉ key) fun _ hkey => ⟨rfl, hkey⟩
  rwa [length_cons, length_append, length_singleton] at h

theorem follows_scalar (key : List UInt8) (s : LuaScalar) :
    Follows 0 (fun b => appendOne block pack b key (.scalar s)) (scalarCourse block k key s)
      (IsField k) := by
  rw [scalarCourse]
  cases hpayload : scalarPayload block s with
  | ok w =>
    have hwrites : Writes 0 (fun b => appendOne block pack b key (.scalar s))
        (scalarType s :: (key ++ [0]) ++ w) := writes_scalar hpayload key
    have hsize : (scalarType s :: (key ++ [0]) ++ w).length = key.length + 2 + w.length := by
      rw [length_append, length_cons, length_append, length_singleton]
    have h := hwrites.follows (P := 0 ∉ key ∧ SoundScalar block k s) (G := IsField k)
      fun hle hread => by
        have hsound := (sound_scalar fun w' hw' => by
          obtain rfl := ok.inj (hpayload.symm.trans hw')
          omega).mpr hread.2
        rw [hpayload] at hsound
        exact ⟨⟨scalarType s, key, w⟩, ⟨hread.1, hsound⟩, rfl⟩
    rwa [hsize] at h
  | error e =>
    rcases appendOne_error pack hpayload key with ⟨he, h⟩ | ⟨he, h⟩
    · rw [funext h]
      simp only [if_pos he]
      exact follows_refuse 0 e _
    · rw [funext h]
      simp only [if_neg he]
      refine ((follows_named _ key).bind (follows_refuse 0 e fun _ => False) nofun).imp ?_
      rintro bs - - - ⟨-, -, -, -, ⟨⟩⟩

theorem readable_scalar {s : LuaScalar} (hkey : 0 ∉ key) (hs : SoundScalar block k s) :
    (scalarCourse block k key s).readable := by
  rw [scalarCourse]
  split
  · exact Course.readable_andThen hkey hs
  · split_ifs
    · trivial
    · exact Course.readable_andThen hkey trivial

/-- A length, the elements and a zero. -/
theorem follows_document
    (h : Follows 0 (packEntries block tolstring (packDict block tolstring left) array es) c
      (HasFields k n)) :
    Follows 1 (packDict block tolstring (left + 1) array es) c.document (IsDocument k n) := by
  have hlast : Follows 1 (fun b => b.write [0]) (.bytes 1) (· = [0]) :=
    (writes_byte 0).follows fun _ _ => rfl
  have hspare (hstop : (c.andThen (.bytes 1)).stop = none) : 1 ≤ (c.andThen (.bytes 1)).size := by
    cases hc : c.stop with
    | none =>
      rw [Course.andThen_of_none hc]
      exact Nat.le_add_left ..
    | some e =>
      rw [Course.andThen_of_some hc, hc] at hstop
      cases hstop
  have hpatch := (h.bind hlast fun _ => le_rfl).patch hspare id
  rw [packDict_succ]
  refine hpatch.imp ?_
  rintro _ - - - ⟨_, rfl, w, _, rfl, hw, rfl⟩
  exact ⟨w, by rw [length_append]; rfl, hw⟩

theorem IsDocument.parsed {bs : List UInt8} (h : IsDocument k n bs) (hle : bs.length ≤ 2 ^ 30)
    {bt : UInt8} (hbt : decodeLayout.nested bt) :
    Parsed decodeLayout (k + 1) (.value bt) bs := by
  obtain ⟨w, rfl, fields, rfl, hfields, rfl⟩ := h
  generalize hw : fields.flatMap BsonField.bytes = w at hle ⊢
  simp only [length_append, length_leBytes, length_singleton] at hle
  exact .nested hbt length_leBytes (toInt32_document (by omega)) (hw ▸ parsed_fields hfields)

mutual

/-- The writer goes the way of a value. -/
theorem follows_value (left : ℕ) (key : List UInt8) : ∀ v : LuaValue ℕ,
    Follows 0 (fun b => appendOne block (packDict block tolstring left) b key v)
      (valueCourse block tolstring room left key v) (IsField (room + left))
  | .scalar s => by
    rw [valueCourse]
    exact follows_scalar key s
  | .nil => by
    rw [valueCourse]
    exact follows_refuse 0 _ _
  | .table len es => by
    rw [valueCourse]
    change Follows 0 (fun b => isArray len es >>= _) _ _
    cases isArray len es with
    | error e => exact follows_refuse 0 e _
    | ok array =>
      have htype : decodeLayout.nested (if array then bsonArray else bsonDocument) := by
        cases array <;> rfl
      have hname := follows_named (if array then bsonArray else bsonDocument) key
      cases left with
      | zero =>
        refine (hname.bind (follows_refuse 0 .tooDepth fun _ => False) nofun).imp ?_
        rintro bs - - - ⟨-, -, -, -, ⟨⟩⟩
      | succ left =>
        have hdict := (follows_document (follows_entries left array es)).mono
        refine (hname.bind hdict fun _ => Nat.zero_le _).imp ?_
        rintro _ - hle - ⟨_, y, rfl, ⟨rfl, hkey⟩, hy⟩
        rw [length_append] at hle
        exact ⟨⟨_, key, y⟩, ⟨hkey, hy.parsed (by omega) htype⟩, rfl⟩

/-- The writer goes the way of the entries of a table. -/
theorem follows_entries (left : ℕ) (array : Bool) : ∀ es : LuaEntries ℕ,
    Follows 0 (packEntries block tolstring (packDict block tolstring left) array es)
      (entriesCourse block tolstring room left array es) (HasFields (room + left) es.length)
  | [] => by
    rw [entriesCourse]
    exact writes_ok.follows fun _ _ => hasFields_nil
  | e :: es => by
    rw [entriesCourse]
    have hboth := (follows_entry left array e).bind (follows_entries left array es)
      fun _ => Nat.zero_le _
    have hloop : packEntries block tolstring (packDict block tolstring left) array (e :: es) =
        fun b => (entryKey tolstring array e.1 >>= fun key =>
          appendOne block (packDict block tolstring left) b key e.2) >>=
            packEntries block tolstring (packDict block tolstring left) array es := by
      funext b
      rw [packEntries, bind_assoc]
    rw [hloop]
    refine hboth.imp ?_
    rintro _ - - - ⟨x, y, rfl, hx, hy⟩
    exact hx.cons hy

/-- The writer goes the way of an entry. -/
theorem follows_entry (left : ℕ) (array : Bool) : ∀ e : LuaValue ℕ × LuaValue ℕ,
    Follows 0 (fun b => entryKey tolstring array e.1 >>= fun key =>
      appendOne block (packDict block tolstring left) b key e.2)
      (entryCourse block tolstring room left array e) (IsField (room + left))
  | (k, v) => by
    rw [entryCourse]
    cases entryKey tolstring array k with
    | error e => exact follows_refuse 0 e _
    | ok key => exact follows_value left key v

end

/-- The writer goes the way of a table. -/
theorem follows_table (room : ℕ) (es : LuaEntries ℕ) :
    Follows 1 (packDict block tolstring (bsonMaxDepth + 1) false es)
      (tableCourse block tolstring room es) (IsDocument (room + bsonMaxDepth) es.length) :=
  follows_document (follows_entries bsonMaxDepth false es)

end Values

/-! ### Documents -/

section Documents

variable {block : UserBlock} {tolstring : LuaScalar → List UInt8} {room k n : ℕ}
  {bs w key : List UInt8} {s : LuaScalar} {es : LuaEntries ℕ} {e : BsonError}

theorem body_append (w : List UInt8) (h : bs.length = 4) : body (bs ++ (w ++ [0])) = w := by
  rw [body, drop_left' h, dropLast_concat]

theorem length_prefixed (w : List UInt8) :
    (leBytes 4 (w.length + 5) ++ (w ++ [0])).length = w.length + 5 := by
  simp only [length_append, length_leBytes, length_singleton]
  omega

/-- What is in front of the elements is the length of all of it. -/
theorem length_real (hlt : w.length + 5 < 2 ^ 31) :
    length32 ((leBytes 4 (w.length + 5) ++ (w ++ [0])).take 4) =
      (leBytes 4 (w.length + 5) ++ (w ++ [0])).length := by
  rw [take_left' length_leBytes, length32_leBytes hlt, length_prefixed]

/-- The document is decoded as the value that is read from its bytes. -/
theorem Reads.ldecode {v : LuaValue Unit} {stack fuel : ℕ}
    (h : Reads bs (unpackDictWith bs forwardBytes fuel stack false) (· = v) bs)
    (hlen : 5 ≤ bs.length) (hreal : length32 (bs.take 4) = bs.length) :
    ldecodeWithin bs stack fuel = .ok v := by
  have hat : BsonReader.At ⟨0, bs.length⟩ bs (bs ++ []) := by
    rw [append_nil]
    exact at_buffer
  obtain ⟨_, br, hok, hv, -⟩ := h ⟨0, bs.length⟩ [] hat
  have hdecode : ldecodeWith bs forwardBytes stack fuel = .ok v := by
    rw [ldecodeWith_eq hlen hreal, unpackValueWith_of_nested _ _ _ rfl]
    change (unpackDictWith bs forwardBytes fuel stack false _).map _ = _
    rw [hok, hv]
    rfl
  rw [← hdecode]
  refine (ldecodeWithin_eq fun herror => ?_).symm
  rw [hdecode] at herror
  cases herror

theorem UnpackedAs.ldecode {v : LuaValue Unit} (h : UnpackedAs k bsonDocument bs v)
    (hlen : 5 ≤ bs.length) (hreal : length32 (bs.take 4) = bs.length) {stack fuel : ℕ}
    (hfuel : bs.length < fuel) (hstack : k ≤ stack) : ldecodeWithin bs stack fuel = .ok v :=
  (h bs fuel stack (length_lt_of_real hreal) hfuel hstack).ldecode hlen hreal

theorem IsDocument.decoded (h : IsDocument k n bs) (hle : bs.length ≤ 2 ^ 30) :
    (∀ fuel, bs.length < fuel → ∃ v, ldecodeWithin bs (k + 1) fuel = .ok v) ∧
      HasFields k n (body bs) := by
  have hunpack : ∃ val, UnpackedAs (k + 1) bsonDocument bs val := (h.parsed hle rfl).unpack
  obtain ⟨w, rfl, hw⟩ := h
  obtain ⟨v, hv⟩ := hunpack
  have hlen := length_prefixed w
  refine ⟨fun fuel hfuel => ⟨v, hv.ldecode (by omega) (length_real (by omega)) hfuel le_rfl⟩, ?_⟩
  rwa [body_append w length_leBytes]

/-- What `lencode` makes of a table, when it does not raise an error, has followed its course. -/
theorem lencode_ok (room : ℕ) {bytes : List UInt8}
    (hcode : lencodeWith block tolstring es = .ok bytes) :
    (tableCourse block tolstring room es).stop = none ∧
      bytes.length = (tableCourse block tolstring room es).size ∧ bytes.length ≤ 2 ^ 30 ∧
      ((tableCourse block tolstring room es).readable →
        IsDocument (room + bsonMaxDepth) es.length bytes) := by
  obtain ⟨b, hb, rfl⟩ := map_eq_ok_iff.mp hcode
  obtain ⟨hstop, hfits, bs, hbytes, hlen, hdoc⟩ := (follows_table room es).ok fits_create hb
  obtain rfl : b.bytes = bs := hbytes
  exact ⟨hstop, hlen, hfits.size_le, hdoc⟩

/-- An error of `lencode` is the one that ends the course, or the buffer is too large. -/
theorem lencode_error (room : ℕ) (hcode : lencodeWith block tolstring es = .error e) :
    (tableCourse block tolstring room es).stop = some e ∧
        (tableCourse block tolstring room es).size ≤ 2 ^ 30 ∨
      e = .overflow ∧ ¬ (tableCourse block tolstring room es).Fits := by
  rw [lencodeWith] at hcode
  cases hdict : packDict block tolstring (bsonMaxDepth + 1) false es .create with
  | ok b =>
    rw [hdict] at hcode
    cases hcode
  | error e' =>
    rw [hdict] at hcode
    obtain rfl := Except.error.inj hcode
    have herror := (follows_table room es).error fits_create hdict
    change _ ∧ 0 + _ ≤ _ ∨ _ ∧ _ ≤ 0 + _ ∧ (_ → _ ≤ 0 + _) at herror
    rw [Nat.zero_add] at herror
    refine herror.imp_right fun ⟨he, hle, hnone⟩ => ⟨he, fun hfits => ?_⟩
    rw [Course.Fits] at hfits
    split at hfits
    · omega
    · have := hnone ‹_›
      omega

/-- The writer does not make a broken document on a sound course. -/
theorem Course.Sound.soundly (h : (tableCourse block tolstring room es).Sound) :
    EncodesSoundly block tolstring room es := by
  rw [EncodesSoundly]
  cases hcode : lencodeWith block tolstring es with
  | ok bytes =>
    obtain ⟨hstop, -, hle, hdoc⟩ := lencode_ok room hcode
    exact (hdoc (h.readable hstop)).decoded hle
  | error e =>
    rcases lencode_error room hcode with ⟨hstop, -⟩ | ⟨-, hlarge⟩
    · exact h.raised e hstop
    · exact absurd h.fits hlarge

/-- A table that is encoded soundly is not too large, and nothing outside is read. -/
theorem EncodesSoundly.course (h : EncodesSoundly block tolstring room es) :
    (tableCourse block tolstring room es).size ≤ 2 ^ 30 ∧
      ∀ e, (tableCourse block tolstring room es).stop = some e → Raised e := by
  rw [EncodesSoundly] at h
  cases hcode : lencodeWith block tolstring es with
  | ok bytes =>
    obtain ⟨hstop, hlen, hle, -⟩ := lencode_ok room hcode
    rw [hstop, ← hlen]
    exact ⟨hle, nofun⟩
  | error e =>
    rw [hcode] at h
    rcases lencode_error room hcode with ⟨hstop, hle⟩ | ⟨rfl, -⟩
    · rw [hstop]
      exact ⟨hle, fun e' heq => Option.some.inj heq ▸ h⟩
    · exact absurd rfl h.2

/-! ### Tables with one entry -/

/-- A table with one entry. -/
def oneEntry (key : List UInt8) (s : LuaScalar) : LuaEntries ℕ :=
  [(.scalar (.string key), .scalar s)]

theorem hasFields_one : HasFields k 1 w ↔ IsField k w := by
  constructor
  · rintro ⟨fields, hlen, hfields, rfl⟩
    obtain ⟨f, rfl⟩ := length_eq_one_iff.mp hlen
    exact ⟨f, hfields f (mem_singleton_self f), append_nil _⟩
  · rintro ⟨f, hf, rfl⟩
    exact ⟨[f], rfl, by simpa using hf, (append_nil _).symm⟩

theorem course_one : tableCourse block tolstring room (oneEntry key s) =
    ((scalarCourse block (room + bsonMaxDepth) key s).andThen (.bytes 0)).document := by
  rw [tableCourse, oneEntry, entriesCourse, entriesCourse, entryCourse]
  change (((valueCourse block tolstring room bsonMaxDepth key (.scalar s)).andThen _).document) = _
  rw [valueCourse]

/-- The course of a value that is written. -/
theorem course_one_ok (tolstring : LuaScalar → List UInt8) (room : ℕ) (key : List UInt8)
    (h : scalarPayload block s = .ok w) :
    (tableCourse block tolstring room (oneEntry key s)).stop = none ∧
      (tableCourse block tolstring room (oneEntry key s)).size = key.length + w.length + 7 ∧
      ((tableCourse block tolstring room (oneEntry key s)).readable ↔
        0 ∉ key ∧ SoundScalar block (room + bsonMaxDepth) s) := by
  rw [course_one, scalarCourse, h]
  refine ⟨rfl, ?_, ?_⟩
  · change 4 + (key.length + 2 + w.length + 0 + 1) = _
    omega
  · change True ∧ ((0 ∉ key ∧ _) ∧ True) ∧ True ↔ _
    rw [true_and, and_true, and_true]

/-- The course of a value that is refused. -/
theorem course_one_error (tolstring : LuaScalar → List UInt8) (room : ℕ) (key : List UInt8)
    (h : scalarPayload block s = .error e) :
    (tableCourse block tolstring room (oneEntry key s)).stop = some e := by
  rw [course_one, scalarCourse, h]
  by_cases he : e = .invalidValueType
  · simp only [if_pos he]
    rfl
  · simp only [if_neg he]
    rfl

/-- What is written for a table with one entry. -/
theorem lencode_one (h : scalarPayload block s = .ok w)
    (hsize : key.length + w.length + 7 ≤ 2 ^ 30) :
    lencodeWith block tolstring (oneEntry key s) =
      .ok (document (scalarType s :: (key ++ [0]) ++ w)) := by
  have hloop : packEntries block tolstring (packDict block tolstring bsonMaxDepth) false
      (oneEntry key s) = fun b =>
        appendOne block (packDict block tolstring bsonMaxDepth) b key (.scalar s) >>=
          fun b => .ok b := rfl
  have hwrites : Writes 0 (packEntries block tolstring (packDict block tolstring bsonMaxDepth)
      false (oneEntry key s)) (scalarType s :: (key ++ [0]) ++ w ++ []) := by
    rw [hloop]
    exact (writes_scalar h key).bind writes_ok (Nat.zero_le _)
  rw [append_nil] at hwrites
  refine (hwrites.dict.lencodeWith _ _).mpr ⟨rfl, ?_⟩
  rw [length_document]
  simp only [length_append, length_cons, length_nil]
  omega

theorem EncodesSoundly.isField (h : EncodesSoundly block tolstring room (oneEntry key s))
    (hpayload : scalarPayload block s = .ok w) :
    IsField (room + bsonMaxDepth) (scalarType s :: (key ++ [0]) ++ w) := by
  obtain ⟨-, hlen, -⟩ := course_one_ok tolstring room key hpayload
  have hsize := h.course.1
  rw [hlen] at hsize
  rw [EncodesSoundly, lencode_one hpayload hsize] at h
  have hbody := h.2
  rw [document, append_assoc, body_append _ length_leBytes] at hbody
  exact hasFields_one.mp hbody

theorem cstring_inj {a b x y : List UInt8} (ha : 0 ∉ a) (hb : 0 ∉ b)
    (h : a ++ [0] ++ x = b ++ [0] ++ y) : a = b ∧ x = y := by
  induction a generalizing b with
  | nil =>
    cases b with
    | nil => exact ⟨rfl, append_cancel_left h⟩
    | cons c b => exact absurd (cons.inj h).1 fun h0 => hb (h0 ▸ mem_cons_self)
  | cons c a ih =>
    cases b with
    | nil => exact absurd (cons.inj h).1 fun h0 => ha (h0 ▸ mem_cons_self)
    | cons c' b =>
      obtain ⟨rfl, hrest⟩ := cons.inj h
      obtain ⟨rfl, rfl⟩ := ih (fun hc => ha (mem_cons_of_mem _ hc))
        (fun hc => hb (mem_cons_of_mem _ hc)) hrest
      exact ⟨rfl, rfl⟩

/-- Under a name without a zero, a scalar is encoded soundly if and only if its string is well
formed, or a document is in its memory. -/
theorem encodesSoundly_scalar_iff (hkey : 0 ∉ key)
    (hfits : (tableCourse block tolstring room (oneEntry key s)).Fits) :
    EncodesSoundly block tolstring room (oneEntry key s) ↔
      SoundScalar block (room + bsonMaxDepth) s := by
  cases hpayload : scalarPayload block s with
  | ok w =>
    obtain ⟨hstop, hlen, hread⟩ := course_one_ok tolstring room key hpayload
    refine ⟨fun h => ?_, fun h => Course.Sound.soundly ⟨hfits, ?_, fun _ => hread.mpr ⟨hkey, h⟩⟩⟩
    · have hsize := h.course.1
      obtain ⟨f, ⟨hname, hvalue⟩, heq⟩ := h.isField hpayload
      obtain ⟨htype, heq⟩ := cons.inj heq
      obtain ⟨-, rfl⟩ := cstring_inj hkey hname heq
      change scalarType s = f.type at htype
      refine (sound_scalar fun w' hw' => ?_).mp (hpayload ▸ htype ▸ hvalue)
      obtain rfl := ok.inj (hpayload.symm.trans hw')
      omega
    · rw [hstop]
      exact nofun
  | error e =>
    have hstop := course_one_error tolstring room key hpayload
    have hsound : Raised e ↔ SoundScalar block (room + bsonMaxDepth) s := by
      rw [← sound_scalar (k := room + bsonMaxDepth) fun w hw => ?_, hpayload]
      · rfl
      · rw [hpayload] at hw
        cases hw
    refine ⟨fun h => hsound.mp (h.course.2 e hstop), fun h => Course.Sound.soundly ⟨hfits, ?_, ?_⟩⟩
    · rintro e' heq
      rw [hstop] at heq
      exact Option.some.inj heq ▸ hsound.mpr h
    · rw [hstop]
      exact nofun

/-- A boolean is encoded soundly if and only if its name has no zero. -/
theorem encodesSoundly_boolean_iff {v : Bool}
    (hfits : (tableCourse block tolstring room (oneEntry key (.boolean v))).Fits) :
    EncodesSoundly block tolstring room (oneEntry key (.boolean v)) ↔ 0 ∉ key := by
  refine ⟨fun h => ?_, fun hkey => (encodesSoundly_scalar_iff hkey hfits).mpr trivial⟩
  obtain ⟨f, ⟨hname, hvalue⟩, heq⟩ := h.isField (s := .boolean v) rfl
  obtain ⟨htype, heq⟩ := cons.inj heq
  change bsonBoolean = f.type at htype
  rw [← htype] at hvalue
  have hkey := append_inj_left' heq (length_of_fixed rfl hvalue).symm
  rwa [append_cancel_right hkey]

end Documents

/-- The text of an integer. -/
def integerText : LuaScalar → List UInt8
  | .integer i => (if i.toInt < 0 then [45] else []) ++ decimal i.toInt.natAbs
  | _ => []

theorem zero_notMem_integerText (s : LuaScalar) : 0 ∉ integerText s := by
  cases s with
  | integer i =>
    rw [integerText, mem_append, not_or]
    refine ⟨?_, zero_notMem_decimal _⟩
    split_ifs <;> decide
  | boolean | real | string | lightuserdata => exact not_mem_nil

/-- One userdata with an empty document in front, and one with no document. -/
def twoBlocks : UserBlock
  | 1 => some [5, 0, 0, 0, 0, 42]
  | 2 => some [5, 0, 0, 0, 1]
  | _ => none

/-- A table with a number as a key, with binary data, a table and a userdata in it. -/
def taggedTable : LuaEntries ℕ := [(.scalar (.integer 7), .scalar (.string [0, 5, 0, 104, 105])),
    (.scalar (.string [97]), .table 0 [(.scalar (.string [98]), .scalar (.boolean true))]),
    (.scalar (.string [99]), .scalar (.lightuserdata 1))]

/-- The second entry has a zero in its name, but the first one is refused. -/
def refusedTable : LuaEntries ℕ := [(.scalar (.integer 1), .scalar (.lightuserdata 3)),
    (.scalar (.string [0]), .scalar (.boolean true))]

theorem sound_taggedTable : (tableCourse twoBlocks integerText 0 taggedTable).Sound where
  fits := by
    change (tableCourse twoBlocks integerText 0 taggedTable).size ≤ 2 ^ 30
    decide
  raised := nofun
  readable _ := by
    have hnumber : 0 ∉ if false = true then bsonNumstr (arrayIndex 7)
        else integerText (.integer 7) := by
      rw [if_neg Bool.false_ne_true]
      exact zero_notMem_integerText _
    have hbinary : WellFormed [0, 5, 0, 104, 105] := cons_ne_nil 0 [104, 105]
    have hname (c : UInt8) (hc : 0 ≠ c) : 0 ∉ [c] := mt mem_singleton.mp hc
    have hcopied : SoundScalar twoBlocks (0 + bsonMaxDepth) (.lightuserdata 1) := fun doc hdoc => by
      obtain rfl := Option.some.inj hdoc
      have hempty : Parsed decodeLayout 1 (.value bsonDocument) ([5, 0, 0, 0] ++ ([] ++ [0])) :=
        .nested rfl rfl (by decide) .nil
      exact ⟨[5, 0, 0, 0, 0], by decide, hempty.of_length_lt (by decide)⟩
    have hinner : (valueCourse twoBlocks integerText 0 bsonMaxDepth [97]
        (.table 0 [(.scalar (.string [98]), .scalar (.boolean true))])).readable :=
      Course.readable_andThen (hname 97 (by decide)) (Course.readable_document
        (Course.readable_andThen (readable_scalar (hname 98 (by decide)) trivial) trivial))
    refine Course.readable_document ?_
    exact Course.readable_andThen (readable_scalar hnumber hbinary) (Course.readable_andThen hinner
      (Course.readable_andThen (readable_scalar (hname 99 (by decide)) hcopied) trivial))

theorem sound_refusedTable : (tableCourse twoBlocks integerText 0 refusedTable).Sound where
  fits := by
    change (tableCourse twoBlocks integerText 0 refusedTable).size < 2 ^ 30
    decide
  raised e h := Option.some.inj h ▸ ⟨nofun, nofun⟩
  readable := nofun

/-- A name without a zero. -/
def SoundKey : LuaValue ℕ → Prop
  | .scalar (.string key) => 0 ∉ key
  | _ => True

/-- A value in which no name has a zero, and all strings are well formed. -/
inductive Encodable : LuaValue ℕ → Prop
  | nil : Encodable .nil
  | scalar {s : LuaScalar} : (∀ str, s = .string str → WellFormed str) → Encodable (.scalar s)
  | table {len : ℕ} {es : LuaEntries ℕ} : (∀ e ∈ es, SoundKey e.1) →
      (∀ e ∈ es, Encodable e.2) → Encodable (.table len es)

section Encodable

variable {tolstring : LuaScalar → List UInt8} (htolstring : ∀ s, 0 ∉ tolstring s) {array : Bool}
  {key : List UInt8} {len left room : ℕ} {es : LuaEntries ℕ} {k v : LuaValue ℕ} {c : Course}

theorem Encodable.soundScalar {s : LuaScalar} (hwell : ∀ str, s = .string str → WellFormed str) :
    SoundScalar (fun _ => none) room s := by
  cases s with
  | string str => exact hwell str rfl
  | lightuserdata p => exact nofun
  | boolean | integer | real => trivial

include htolstring

/-- The names of entries have no zero, where the keys have none. -/
theorem zero_notMem_entryKey (hk : SoundKey k) (h : entryKey tolstring array k = .ok key) :
    0 ∉ key := by
  have hnumstr (i : ℕ) : 0 ∉ bsonNumstr i := by
    rw [bsonNumstr_eq]
    exact zero_notMem_decimal i
  have hnumber (i : ℕ) (s : LuaScalar) : 0 ∉ if array then bsonNumstr i else tolstring s := by
    split_ifs
    · exact hnumstr i
    · exact htolstring s
  cases k with
  | nil | table => cases h
  | scalar s =>
    cases s with
    | integer i => exact ok.inj h ▸ hnumber _ _
    | real d => exact ok.inj h ▸ hnumber _ _
    | boolean | lightuserdata => cases h
    | string str =>
      rw [entryKey] at h
      split_ifs at h
      exact ok.inj h ▸ hk

theorem readable_entries (hkeys : ∀ e ∈ es, SoundKey e.1) (hvalues : ∀ e ∈ es, ∀ key, 0 ∉ key →
      (valueCourse (fun _ => none) tolstring room left key e.2).readable) :
    (entriesCourse (fun _ => none) tolstring room left array es).readable := by
  induction es with
  | nil =>
    rw [entriesCourse]
    trivial
  | cons e es ih =>
    obtain ⟨hkey, hkeys⟩ := forall_mem_cons.mp hkeys
    obtain ⟨hvalue, hvalues⟩ := forall_mem_cons.mp hvalues
    rw [entriesCourse]
    refine Course.readable_andThen ?_ (ih hkeys hvalues)
    obtain ⟨k, v⟩ := e
    rw [entryCourse]
    cases hname : entryKey tolstring array k with
    | error e => trivial
    | ok name => exact hvalue name (zero_notMem_entryKey htolstring hkey hname)

theorem Encodable.readable (h : Encodable v) (left : ℕ) (hkey : 0 ∉ key) :
    (valueCourse (fun _ => none) tolstring room left key v).readable := by
  induction h generalizing left key with
  | nil =>
    rw [valueCourse]
    trivial
  | scalar hwell =>
    rw [valueCourse]
    exact readable_scalar hkey (soundScalar hwell)
  | table hkeys _ ih =>
    rw [valueCourse]
    split
    · trivial
    · refine Course.readable_andThen hkey ?_
      cases left with
      | zero => trivial
      | succ left =>
        exact Course.readable_document
          (readable_entries htolstring hkeys fun e he key hkey => ih e he left hkey)

theorem Encodable.table_readable (h : Encodable (.table len es)) :
    (tableCourse (fun _ => none) tolstring room es).readable := by
  cases h with
  | table hkeys hvalues =>
    exact Course.readable_document (readable_entries htolstring hkeys fun e he key hkey =>
      (hvalues e he).readable htolstring bsonMaxDepth hkey)

/-- What is encoded of such a table is a document. -/
theorem Encodable.isDocument {bytes : List UInt8} (h : Encodable (.table len es))
    (hcode : lencode tolstring es = .ok bytes) :
    IsDocument bsonMaxDepth es.length bytes ∧ bytes.length ≤ 2 ^ 30 := by
  obtain ⟨-, -, hle, hdoc⟩ := lencode_ok 0 hcode
  have hdoc' := hdoc (h.table_readable htolstring)
  rw [Nat.zero_add] at hdoc'
  exact ⟨hdoc', hle⟩

end Encodable

theorem encodable_one {key : List UInt8} {s : LuaScalar} (hkey : 0 ∉ key)
    (hs : ∀ str, s = .string str → WellFormed str) : Encodable (.table 0 (oneEntry key s)) := by
  refine .table (fun e he => ?_) fun e he => ?_
  · obtain rfl := mem_singleton.mp he
    exact hkey
  · obtain rfl := mem_singleton.mp he
    exact .scalar hs

end Uboss.Lib
