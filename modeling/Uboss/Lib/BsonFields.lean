import Uboss.Lib.BsonSound

/-!
# The elements of a document

What the two readers make of a document, element by element: the table, and the index with the
positions of the values in it.
-/

namespace Uboss.Lib

open Math List Int BsonField

/-! ### Positions -/

/-- The function moves the pointer by as much as it takes from the size. -/
def Conserves {α : Type} (m : BsonRead α) : Prop :=
  ∀ br a br', 0 ≤ br.size → br.size < 2 ^ 31 → m br = .ok (a, br') →
    0 ≤ br'.size ∧ br'.size ≤ br.size ∧ br'.ptr + br'.size = br.ptr + br.size

section Conserves

variable {buffer : List UInt8} {α β : Type} {m : BsonRead α} {f : α → BsonRead β}

theorem Conserves.pure (a : α) : Conserves (pure a) := by
  rintro br _ _ hpos - ⟨rfl, rfl⟩
  exact ⟨hpos, le_rfl, rfl⟩

theorem Conserves.throw (e : BsonError) : Conserves (throw e : BsonRead α) := by
  rintro br a br' - - ⟨⟩

theorem Conserves.bind (hm : Conserves m) (hf : ∀ a, Conserves (f a)) : Conserves (m >>= f) := by
  intro br b br' hpos hlt h
  obtain ⟨⟨a, br₁⟩, hok, hrest⟩ := bind_eq_ok_iff.mp h
  obtain ⟨hpos₁, hle₁, hsum₁⟩ := hm br a br₁ hpos hlt hok
  obtain ⟨hpos', hle', hsum'⟩ := hf a br₁ b br' hpos₁ (hle₁.trans_lt hlt) hrest
  exact ⟨hpos', hle'.trans hle₁, hsum'.trans hsum₁⟩

theorem Conserves.map (hm : Conserves m) (g : α → β) : Conserves (g <$> m) := by
  rw [← bind_pure_comp]
  exact hm.bind fun _ => .pure _

theorem conserves_lift (x : Except BsonError α) : Conserves (liftM x) := by
  cases x with
  | error e => exact .throw e
  | ok a => exact .pure a

theorem conserves_readBytes {sz : ℤ} (hsz : 0 ≤ sz) : Conserves (readBytes sz) := by
  intro br a br' hpos hlt h
  rw [readBytes] at h
  split_ifs at h with hshort
  cases h
  have hsize : toInt32 (br.size - sz) = br.size - sz := toInt32_eq (by omega) (by omega)
  simp only [hsize]
  omega

theorem conserves_forwardBytes (sz : ℤ) : Conserves (forwardBytes sz) := by
  intro br a br' hpos hlt h
  rw [forwardBytes] at h
  split_ifs at h with hneg
  exact conserves_readBytes (by omega) br a br' hpos hlt h

theorem conserves_readBlock (n : ℕ) : Conserves (readBlock buffer n) :=
  (conserves_readBytes (natCast_nonneg n)).bind fun _ => conserves_lift _

theorem conserves_readByte : Conserves (readByte buffer) := (conserves_readBlock 1).map _

theorem conserves_readInt32 : Conserves (readInt32 buffer) := (conserves_readBlock 4).map _

/-- What is found in front of a zero is shorter than what may be read. -/
theorem length_lt_of_scanCstring {size : ℤ} {bs key : List UInt8} (hsize : 0 ≤ size)
    (h : scanCstring size bs = .ok key) : (key.length : ℤ) < size := by
  induction bs generalizing size key with
  | nil =>
    rw [scanCstring.eq_def] at h
    change (if size = 0 then _ else _) = _ at h
    split_ifs at h
  | cons c bs ih =>
    rw [scanCstring] at h
    split_ifs at h with hend hzero
    · obtain rfl := Except.ok.inj h
      rw [length_nil]
      omega
    · obtain ⟨str, hstr, rfl⟩ := map_eq_ok_iff.mp h
      have := ih (by omega) hstr
      rw [length_cons]
      omega

theorem conserves_readCstring : Conserves (readCstring buffer) := by
  intro br key br' hpos hlt h
  rw [readCstring] at h
  split_ifs at h
  obtain ⟨str, hstr, heq⟩ := map_eq_ok_iff.mp h
  cases heq
  have hlen := length_lt_of_scanCstring hpos hstr
  have hsize : toInt32 (br.size - (key.length + 1)) = br.size - (key.length + 1) :=
    toInt32_eq (by omega) (by omega)
  simp only [hsize]
  omega

theorem conserves_indexValue (bt : UInt8) : Conserves (indexValue buffer forwardBytes bt) := by
  have hskip : ∀ g : ℤ → ℤ, Conserves (do
      let sz ← readInt32 buffer
      let _ ← forwardBytes (g sz)
      return (none : Option ℤ)) := fun g =>
    conserves_readInt32.bind fun _ => (conserves_forwardBytes _).bind fun _ => .pure _
  unfold indexValue
  split_ifs
  · exact hskip id
  · exact hskip _
  · exact hskip _
  · exact conserves_readCstring.bind fun _ => conserves_readCstring.bind fun _ => .pure _
  · exact hskip _
  · split
    · exact .throw _
    · exact .pure _
    · exact (conserves_forwardBytes _).map _

theorem Reads.exact {P : α → Prop} {bs rest : List UInt8} {pos : ℕ} (h : Reads buffer m P bs)
    (hm : Conserves m) (hbuf : buffer.length < 2 ^ 31)
    (hat : BsonReader.At ⟨pos, (bs ++ rest).length⟩ buffer (bs ++ rest)) :
    ∃ a, P a ∧ m ⟨pos, (bs ++ rest).length⟩ = .ok (a, ⟨(pos + bs.length : ℕ), rest.length⟩) ∧
      BsonReader.At ⟨(pos + bs.length : ℕ), rest.length⟩ buffer rest := by
  obtain ⟨a, br', hok, ha, hat'⟩ := h _ rest hat
  have hshort : (bs ++ rest).length ≤ buffer.length := by
    obtain ⟨pre, post, rfl, -, -⟩ := hat
    simp only [length_append]
    omega
  obtain ⟨-, -, hsum⟩ := hm _ a br' (natCast_nonneg _) (by
    change ((bs ++ rest).length : ℤ) < _
    omega) hok
  obtain rfl : br' = ⟨(pos + bs.length : ℕ), rest.length⟩ := by
    obtain ⟨ptr, size⟩ := br'
    have hsize : size = rest.length := hat'.size_eq
    simp only [length_append] at hsum
    rw [BsonReader.mk.injEq]
    omega
  exact ⟨a, ha, hok, hat'⟩

end Conserves

/-! ### The index -/

/-- The bytes of a type of a fixed size. -/
def fieldSize (bt : UInt8) : ℕ := (fixedSize bt).getD 0

/-- Where the value of an element is, if it is put into the index. -/
def fieldPtr (pos : ℕ) (f : BsonField) : Option ℤ :=
  if fieldSize f.type = 0 then none else some (pos + f.name.length + 2 : ℕ)

/-- The index of some elements, from a position on. -/
def indexFields : ℕ → List BsonField → LuaEntries Unit → LuaEntries Unit
  | _, [], es => es
  | pos, f :: fields, es =>
    indexFields (pos + f.bytes.length) fields (indexPut es f.type f.name (fieldPtr pos f))

section Index

variable {buffer rest : List UInt8} {pos : ℕ} {f : BsonField} {fields : List BsonField}

theorem indexValue_ptr {bt : UInt8} {br br' : BsonReader} {o : Option ℤ}
    (h : indexValue buffer forwardBytes bt br = .ok (o, br')) :
    o = if fieldSize bt = 0 then none else some br.ptr := by
  cases hF : indexLayout.sized bt with
  | some p =>
    have hfixed : fixedSize bt = none := by
      cases hfixed : fixedSize bt with
      | none => rfl
      | some n =>
        rw [(index_sized_of_fixed hfixed).1] at hF
        cases hF
    obtain ⟨-, g, -, heq⟩ := indexValue_of_sized buffer forwardBytes hF
    rw [heq] at h
    obtain ⟨_, _, h⟩ := bind_eq_ok_iff.mp h
    obtain ⟨_, _, h⟩ := bind_eq_ok_iff.mp h
    cases h
    rw [fieldSize, hfixed]
    rfl
  | none =>
    rw [indexValue_eq hF] at h
    split_ifs at h with hregex
    · obtain ⟨_, _, h⟩ := bind_eq_ok_iff.mp h
      obtain ⟨_, _, h⟩ := bind_eq_ok_iff.mp h
      cases h
      subst hregex
      rfl
    · cases hfixed : fixedSize bt with
      | none =>
        rw [hfixed] at h
        cases h
      | some n =>
        rw [hfixed] at h
        rw [fieldSize, hfixed]
        cases n with
        | zero =>
          cases h
          rfl
        | succ n =>
          obtain ⟨⟨ptr, br₁⟩, hread, h⟩ := bind_eq_ok_iff.mp h
          cases h
          rw [forwardBytes, readBytes] at hread
          split_ifs at hread
          cases hread
          rfl

/-- An element is put into the index, and the reader is behind it. -/
theorem index_step (hbuf : buffer.length < 2 ^ 31) (hf : f.Readable indexLayout)
    (hat : BsonReader.At ⟨pos, (f.bytes ++ rest).length⟩ buffer (f.bytes ++ rest))
    (es : LuaEntries Unit) :
    elementStep buffer (indexValue buffer forwardBytes) indexPut es
      ⟨pos, (f.bytes ++ rest).length⟩ = .ok (indexPut es f.type f.name (fieldPtr pos f),
        ⟨(pos + f.bytes.length : ℕ), rest.length⟩) ∧
      BsonReader.At ⟨(pos + f.bytes.length : ℕ), rest.length⟩ buffer rest := by
  obtain ⟨k, hname, hvalue⟩ := hf
  have hbytes : f.bytes ++ rest = [f.type] ++ ((f.name ++ [0]) ++ (f.value ++ rest)) := by
    simp [bytes]
  have hlen : f.bytes.length = f.name.length + f.value.length + 2 := by
    simp only [bytes, length_append, length_cons, length_nil]
    omega
  rw [hbytes] at hat ⊢
  obtain ⟨_, rfl, hbt, hat⟩ := (reads_byte hbuf f.type).exact conserves_readByte hbuf hat
  obtain ⟨_, rfl, hkey, hat⟩ := (reads_cstring hbuf hname).exact conserves_readCstring hbuf hat
  obtain ⟨o, -, hok, hat⟩ :=
    ((parses_index hbuf k (f.value.length + 1)).reads (Nat.lt_succ_self _) hvalue).exact
      (conserves_indexValue f.type) hbuf hat
  have hptr : o = fieldPtr pos f := by
    rw [indexValue_ptr hok, fieldPtr, length_append, length_singleton]
    congr 2
    change ((pos + 1 + (f.name.length + 1) : ℕ) : ℤ) = _
    omega
  have hpos : pos + [f.type].length + (f.name ++ [0]).length + f.value.length =
      pos + f.bytes.length := by
    rw [hlen, length_append, length_singleton, length_singleton]
    omega
  rw [hpos] at hat hok
  refine ⟨?_, hat⟩
  rw [elementStep, read_bind hbt, read_bind hkey, read_bind hok, hptr]
  rfl

theorem index_loop (hbuf : buffer.length < 2 ^ 31) (hfields : ∀ f ∈ fields, f.Readable indexLayout)
    {w : List UInt8} (hw : w = fields.flatMap bytes)
    (hat : BsonReader.At ⟨pos, w.length⟩ buffer w) {fuel : ℕ} (hfuel : w.length < fuel)
    (es : LuaEntries Unit) :
    elementsLoop (elementStep buffer (indexValue buffer forwardBytes) indexPut) fuel
      ⟨pos, w.length⟩ es = .ok (indexFields pos fields es) := by
  subst hw
  obtain ⟨fuel, rfl⟩ : ∃ n, fuel = n + 1 := ⟨fuel - 1, by omega⟩
  induction fields generalizing pos fuel es with
  | nil => exact elementsLoop_nil hat
  | cons f fields ih =>
    obtain ⟨hf, hfields⟩ := forall_mem_cons.mp hfields
    rw [flatMap_cons] at hat hfuel ⊢
    obtain ⟨hstep, hat'⟩ := index_step hbuf hf hat es
    have hne : ((f.bytes ++ fields.flatMap bytes).length : ℤ) ≠ 0 := by
      rw [length_append, bytes, length_append, length_cons]
      omega
    have hshort : 0 < f.bytes.length := by
      rw [bytes, length_append, length_cons]
      omega
    rw [length_append] at hfuel
    obtain ⟨fuel, rfl⟩ : ∃ n, fuel = n + 1 := ⟨fuel - 1, by omega⟩
    rw [elementsLoop, if_neg hne, hstep]
    exact ih hfields _ hat' fuel (by omega)

end Index

/-! ### One grammar for the other -/

theorem toInt32_add_one {n m : ℤ} (h : toInt32 n = m) (hpos : 0 ≤ m) (hlt : m + 1 < 2 ^ 31) :
    toInt32 (n + 1) = m + 1 := by
  calc toInt32 (n + 1) = toInt32 (toInt32 n + 1) := (bmod_add_bmod).symm
    _ = toInt32 (m + 1) := by rw [h]
    _ = m + 1 := toInt32_eq (by omega) hlt

/-- What the decoder goes over is skipped when the index is made. -/
theorem Parsed.indexed {k : ℕ} {bt : UInt8} {v : List UInt8}
    (h : Parsed decodeLayout k (.value bt) v) (hv : v.length < 2 ^ 31) :
    Parsed indexLayout k (.value bt) v := by
  generalize hpart : Part.value bt = part at h
  cases h with
  | nil | cons => cases hpart
  | fixed h =>
    cases hpart
    exact .fixed h
  | regex ha hb =>
    cases hpart
    exact .regex ha hb
  | @checked _ _ l s hbt hl hsize _ =>
    cases hpart
    obtain rfl : bt = bsonString := of_decide_eq_true hbt
    rw [length_append] at hv
    rw [← nil_append s]
    have hF : indexLayout.sized bsonString = some (([] : List UInt8).length, 0) := rfl
    refine .sized hF hl ?_
    rw [hsize, add_zero, toInt32_eq (by omega) (by omega)]
  | @nested _ _ l es hbt hl hsize _ =>
    cases hpart
    simp only [length_append, length_singleton] at hv
    have hadd : toInt32 (length32 l + -4) = es.length + 1 := by
      have hsub : length32 l + -4 = length32 l - 5 + 1 := by omega
      rw [hsub]
      exact toInt32_add_one hsize (by omega) (by omega)
    rw [← nil_append (es ++ [0])]
    have hF : indexLayout.sized bt = some (([] : List UInt8).length, -4) := by
      rcases of_decide_eq_true hbt with rfl | rfl <;> rfl
    refine .sized hF hl ?_
    · rw [hadd, length_append, length_singleton]
      rfl
  | @sized _ _ l s s' adjust hF hl hsize =>
    cases hpart
    simp only [length_append] at hv
    by_cases hbinary : bt = bsonBinary
    · subst hbinary
      obtain ⟨hs, rfl⟩ := Prod.mk.inj (Option.some.inj hF)
      rw [← nil_append (s ++ s')]
      have hF : indexLayout.sized bsonBinary = some (([] : List UInt8).length, 1) := rfl
      refine .sized hF hl ?_
      rw [add_zero] at hsize
      rw [length_append, ← hs]
      have hadd := toInt32_add_one hsize (by omega) (by omega)
      omega
    · refine .sized (hF ▸ ?_) hl hsize
      simp only [decodeLayout, if_neg hbinary] at hF
      split_ifs at hF with hdbpointer hjscode hcodews
      · subst hdbpointer
        rfl
      · rcases hjscode with rfl | rfl <;> rfl
      · subst hcodews
        rfl

theorem BsonField.Readable.index {f : BsonField} (h : f.Readable decodeLayout)
    (hf : f.value.length < 2 ^ 31) : f.Readable indexLayout := by
  obtain ⟨k, hname, hvalue⟩ := h
  exact ⟨k, hname, hvalue.indexed hf⟩

theorem length_value_le {f : BsonField} {fields : List BsonField} (hf : f ∈ fields) :
    f.value.length ≤ (fields.flatMap bytes).length := by
  obtain ⟨pre, post, rfl⟩ := append_of_mem hf
  simp only [flatMap_append, flatMap_cons, bytes, length_append]
  omega

/-- The index of a document. -/
theorem lmakeindex_fields {fields : List BsonField} (h : ∀ f ∈ fields, f.Readable decodeLayout)
    {w : List UInt8} (hw : w = fields.flatMap bytes) (hle : w.length + 5 ≤ 2 ^ 30)
    {fuel : ℕ} (hfuel : w.length + 5 < fuel) :
    lmakeindex (leBytes 4 (w.length + 5) ++ (w ++ [0])) fuel = .ok (indexFields 4 fields []) := by
  have hreal := length_real (w := w) (by omega)
  have hbody : body (leBytes 4 (w.length + 5) ++ (w ++ [0])) = w := body_append w length_leBytes
  have hlen := length_prefixed w
  generalize leBytes 4 (w.length + 5) ++ (w ++ [0]) = bytes at hreal hbody hlen ⊢
  have hat : BsonReader.At ⟨4, (body bytes).length⟩ bytes (body bytes) := at_body (by omega)
  rw [hbody] at hat
  have hindex : ∀ f ∈ fields, f.Readable indexLayout := fun f hf => by
    have hshort := length_value_le hf
    rw [← hw] at hshort
    exact (h f hf).index (by omega)
  have hok : lmakeindexWith bytes forwardBytes fuel = .ok (indexFields 4 fields []) := by
    rw [lmakeindexWith_eq (by omega) hreal, hbody]
    exact @index_loop bytes 4 fields (by omega) hindex w hw hat fuel (by omega) []
  rw [← hok]
  refine (lmakeindex_eq fun herror => ?_).symm
  rw [hok] at herror
  cases herror

/-! ### The table -/

/-- An element and its value. -/
abbrev ReadField := BsonField × LuaValue Unit

/-- The decoder reads the element as this value. There are fewer documents in it than bytes. -/
def ReadField.Decoded (p : ReadField) : Prop :=
  0 ∉ p.1.name ∧ UnpackedAs (p.1.value.length + 1) p.1.type p.1.value p.2

/-- The bytes of elements. -/
def fieldBytes (ps : List ReadField) : List UInt8 := ps.flatMap fun p => p.1.bytes

/-- Elements are put into a table, one after the other. -/
def tableOf (ps : List ReadField) (es : LuaEntries Unit) : LuaEntries Unit :=
  ps.foldl (fun es p => setKey es (.string p.1.name) p.2) es

section Table

variable {ps pre post : List ReadField} {p : ReadField} {es es' : LuaEntries Unit} {k : LuaScalar}

theorem exists_decoded {fields : List BsonField} (h : ∀ f ∈ fields, f.Readable decodeLayout) :
    ∃ ps : List ReadField, ps.map Prod.fst = fields ∧ ∀ p ∈ ps, p.Decoded := by
  induction fields with
  | nil => exact ⟨[], rfl, nofun⟩
  | cons f fields ih =>
    obtain ⟨⟨k, hname, hvalue⟩, hfields⟩ := forall_mem_cons.mp h
    obtain ⟨ps, rfl, hps⟩ := ih hfields
    have hunpack : ∃ v, UnpackedAs (f.value.length + 1) f.type f.value v :=
      (hvalue.of_length_lt (Nat.lt_succ_self _)).unpack
    obtain ⟨v, hv⟩ := hunpack
    exact ⟨(f, v) :: ps, rfl, forall_mem_cons.mpr ⟨⟨hname, hv⟩, hps⟩⟩

theorem loopedAs_fields {n : ℕ} (h : ∀ p ∈ ps, p.Decoded) (hn : (fieldBytes ps).length ≤ n) :
    LoopedAs n false (fieldBytes ps) (tableOf ps) := by
  induction ps with
  | nil => exact loopedAs_nil n false
  | cons p ps ih =>
    obtain ⟨⟨hname, hvalue⟩, hps⟩ := forall_mem_cons.mp h
    have hlen : (fieldBytes (p :: ps)).length = p.1.bytes.length + (fieldBytes ps).length := by
      rw [fieldBytes, flatMap_cons, length_append]
      rfl
    have hbytes : p.1.value.length + 2 ≤ p.1.bytes.length := by
      simp only [bytes, length_append, length_cons]
      omega
    exact (hvalue.mono (by omega)).cons hname (ih hps (by omega))

/-- The document is decoded as the table of its elements. -/
theorem ldecode_fields (h : ∀ p ∈ ps, p.Decoded) {w : List UInt8} (hw : w = fieldBytes ps)
    (hle : w.length + 5 ≤ 2 ^ 30) {fuel : ℕ} (hfuel : w.length + 5 < fuel) :
    ldecode (leBytes 4 (w.length + 5) ++ (w ++ [0])) fuel = .ok (.table () (tableOf ps [])) := by
  have hlen := length_prefixed w
  have hunpacked : UnpackedAs (w.length + 1) bsonDocument (leBytes 4 (w.length + 5) ++ (w ++ [0]))
      (.table () (tableOf ps [])) :=
    unpackedAs_nested rfl length_leBytes (toInt32_document (by omega))
      (hw ▸ loopedAs_fields h le_rfl)
  exact hunpacked.ldecode (by omega) (length_real (by omega)) (by omega) (by omega)

theorem rawget_tableOf_notMem (h : ∀ p ∈ ps, k ≠ .string p.1.name) :
    rawget (tableOf ps es) k = rawget es k := by
  induction ps generalizing es with
  | nil => rfl
  | cons p ps ih =>
    obtain ⟨hp, hps⟩ := forall_mem_cons.mp h
    change rawget (tableOf ps (setKey es (.string p.1.name) p.2)) k = _
    rw [ih hps, rawget_setKey, if_neg hp]

theorem rawget_tableOf_congr (h : rawget es k = rawget es' k) :
    rawget (tableOf ps es) k = rawget (tableOf ps es') k := by
  induction ps generalizing es es' with
  | nil => exact h
  | cons p ps ih =>
    refine ih ?_
    rw [rawget_setKey, rawget_setKey, h]

theorem rawget_tableOf_mem (h : ∃ p ∈ ps, k = .string p.1.name) (es es' : LuaEntries Unit) :
    rawget (tableOf ps es) k = rawget (tableOf ps es') k := by
  induction ps generalizing es es' with
  | nil =>
    obtain ⟨p, hp, -⟩ := h
    cases hp
  | cons p ps ih =>
    by_cases hrest : ∃ p ∈ ps, k = .string p.1.name
    · exact ih hrest _ _
    · obtain ⟨q, hq, hk⟩ := h
      obtain rfl : q = p := (mem_cons.mp hq).resolve_right fun hmem => hrest ⟨q, hmem, hk⟩
      change rawget (tableOf ps (setKey es _ _)) k = rawget (tableOf ps (setKey es' _ _)) k
      refine rawget_tableOf_congr ?_
      rw [rawget_setKey, rawget_setKey, if_pos hk, if_pos hk]

end Table

/-! ### The last value with a name -/

/-- The index leads to the last value of a fixed size with a name. -/
theorem rawget_indexFields (fields : List BsonField) (pos : ℕ) (key : List UInt8)
    (es : LuaEntries Unit) :
    (∃ pre f post, fields = pre ++ f :: post ∧ f.name = key ∧ fieldSize f.type ≠ 0 ∧
      (∀ g ∈ post, g.name = key → fieldSize g.type = 0) ∧
      rawget (indexFields pos fields es) (.string key) =
        .scalar (.integer (Int64.ofInt (indexId f.type
          (pos + (pre.flatMap bytes).length + key.length + 2 : ℕ))))) ∨
    (∀ f ∈ fields, f.name = key → fieldSize f.type = 0) ∧
      rawget (indexFields pos fields es) (.string key) = rawget es (.string key) := by
  induction fields generalizing pos es with
  | nil => exact .inr ⟨nofun, rfl⟩
  | cons f fields ih =>
    rcases ih (pos + f.bytes.length) (indexPut es f.type f.name (fieldPtr pos f)) with
      ⟨pre, g, post, rfl, hname, hsize, hpost, hget⟩ | ⟨hrest, hget⟩
    · refine .inl ⟨f :: pre, g, post, rfl, hname, hsize, hpost, ?_⟩
      rw [indexFields, hget, flatMap_cons, length_append, Nat.add_assoc pos]
    · rw [indexFields, hget]
      by_cases hf : f.name = key ∧ fieldSize f.type ≠ 0
      · obtain ⟨rfl, hsize⟩ := hf
        refine .inl ⟨[], f, fields, rfl, rfl, hsize, hrest, ?_⟩
        rw [fieldPtr, if_neg hsize, indexPut, rawget_setKey, if_pos rfl]
        rfl
      · refine .inr ⟨forall_mem_cons.mpr ⟨fun hname => ?_, hrest⟩, ?_⟩
        · exact not_not.mp fun hsize => hf ⟨hname, hsize⟩
        · rw [fieldPtr]
          split_ifs with hsize
          · rfl
          · rw [indexPut, rawget_setKey,
              if_neg fun heq => hf ⟨(LuaScalar.string.inj heq).symm, hsize⟩]

theorem rawget_indexFields_ne (fields : List BsonField) (pos : ℕ) {k : LuaScalar}
    (hk : ∀ key, k ≠ .string key) (es : LuaEntries Unit) :
    rawget (indexFields pos fields es) k = rawget es k := by
  induction fields generalizing pos es with
  | nil => rfl
  | cons f fields ih =>
    rw [indexFields, ih, fieldPtr]
    split_ifs
    · rfl
    · rw [indexPut, rawget_setKey, if_neg (hk _)]

end Uboss.Lib
