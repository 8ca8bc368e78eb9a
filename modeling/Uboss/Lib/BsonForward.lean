import Uboss.Lib.BsonIndex

/-!
# Readers that go forward

The two readers are compared with what they would do if `read_bytes` reported a negative size as a
read outside the document. In front of any bytes they either go over a value, or they come to a
length that leads them backwards, or they raise an error.
-/

namespace Uboss.Lib

open Math List Option Int Prod Reads

/-- `read_bytes`, where going backwards is reported like a read outside the document. -/
def forwardBytes (sz : ℤ) : BsonRead ℤ := fun br =>
  if sz < 0 ∧ sz ≤ br.size then .error .outside else readBytes sz br

/-! ### Agreement -/

/-- The same result, if nothing is reported. -/
def Agrees {α : Type} (m m' : BsonRead α) : Prop := ∀ br, m br = m' br ∨ m br = .error .outside

section Agrees

variable {α β σ : Type} {m m' : BsonRead α} {f f' : α → BsonRead β} {buffer : List UInt8}

theorem Agrees.refl (m : BsonRead α) : Agrees m m := fun _ => .inl rfl

theorem Agrees.bind (h : Agrees m m') (hf : ∀ a, Agrees (f a) (f' a)) :
    Agrees (m >>= f) (m' >>= f') := by
  intro br
  change (m br).bind _ = (m' br).bind _ ∨ (m br).bind _ = _
  rcases h br with hm | hm
  · rw [hm]
    cases m' br with
    | error e => exact .inl rfl
    | ok p => exact hf p.1 p.2
  · rw [hm]
    exact .inr rfl

theorem Agrees.map (h : Agrees m m') (f : α → β) : Agrees (f <$> m) (f <$> m') := by
  rw [← bind_pure_comp, ← bind_pure_comp]
  exact h.bind fun _ => Agrees.refl _

theorem Agrees.lift {x x' : Except BsonError α} (h : x = x' ∨ x = .error .outside) :
    Agrees (liftM x : BsonRead α) (liftM x') := by
  intro br
  rcases h with rfl | rfl
  · exact .inl rfl
  · exact .inr rfl

theorem agrees_forwardBytes (sz : ℤ) : Agrees (forwardBytes sz) (readBytes sz) := by
  intro br
  rw [forwardBytes]
  split
  · exact .inr rfl
  · exact .inl rfl

theorem Agrees.elementStep {value value' : UInt8 → BsonRead β}
    (h : ∀ bt, Agrees (value bt) (value' bt)) (put : σ → UInt8 → List UInt8 → β → σ) (s : σ) :
    Agrees (elementStep buffer value put s) (Lib.elementStep buffer value' put s) :=
  (Agrees.refl _).bind fun bt => (Agrees.refl _).bind fun _ => (h bt).bind fun _ => Agrees.refl _

theorem Agrees.loop {step step' : σ → BsonRead σ} (h : ∀ s, Agrees (step s) (step' s)) (fuel : ℕ)
    (t : BsonReader) (s : σ) : elementsLoop step fuel t s = elementsLoop step' fuel t s ∨
      elementsLoop step fuel t s = .error .outside := by
  induction fuel generalizing t s with
  | zero => exact .inl rfl
  | succ fuel ih =>
    rw [elementsLoop, elementsLoop]
    split
    · exact .inl rfl
    · change (step s t).bind _ = (step' s t).bind _ ∨ (step s t).bind _ = _
      rcases h s t with hstep | hstep
      · rw [hstep]
        cases step' s t with
        | error e => exact .inl rfl
        | ok p => exact ih p.2 p.1
      · rw [hstep]
        exact .inr rfl

theorem agrees_indexValue (bt : UInt8) :
    Agrees (indexValue buffer forwardBytes bt) (indexValue buffer readBytes bt) := by
  have hskip : ∀ f : ℤ → ℤ, Agrees
      (do
        let sz ← readInt32 buffer
        let _ ← forwardBytes (f sz)
        return (none : Option ℤ))
      (do
        let sz ← readInt32 buffer
        let _ ← readBytes (f sz)
        return none) := fun f =>
    (Agrees.refl _).bind fun sz => (agrees_forwardBytes _).bind fun _ => Agrees.refl _
  unfold indexValue
  split_ifs
  · exact hskip id
  · exact hskip _
  · exact hskip _
  · exact Agrees.refl _
  · exact hskip _
  · split
    · exact Agrees.refl _
    · exact Agrees.refl _
    · exact (agrees_forwardBytes _).map _

theorem Agrees.unpackValueWith {unpack unpack' : Bool → BsonRead (LuaValue Unit)}
    (h : ∀ array, Agrees (unpack array) (unpack' array)) (bt : UInt8) :
    Agrees (unpackValueWith buffer forwardBytes unpack bt)
      (unpackValueWith buffer readBytes unpack' bt) := by
  unfold Lib.unpackValueWith
  split_ifs
  any_goals exact (Agrees.refl _).bind fun _ => (Agrees.refl _).bind fun _ =>
    (agrees_forwardBytes _).bind fun _ => Agrees.refl _
  · by_cases hdocument : bt = bsonDocument
    · subst hdocument
      exact h false
    · by_cases harray : bt = bsonArray
      · subst harray
        exact h true
      · unfold unpackValue
        simp only [if_neg hdocument, if_neg harray]
        exact Agrees.refl _

theorem agrees_unpackDictWith (fuel stack : ℕ) (array : Bool) :
    Agrees (unpackDictWith buffer forwardBytes fuel stack array)
      (unpackDictWith buffer readBytes fuel stack array) := by
  induction stack generalizing array with
  | zero => exact Agrees.refl _
  | succ stack ih =>
    rw [unpackDictWith, unpackDictWith]
    refine (Agrees.refl _).bind fun sz => (agrees_forwardBytes _).bind fun bytes =>
      (Agrees.refl _).bind fun last => ?_
    split
    · exact Agrees.refl _
    · exact (Agrees.lift (Agrees.loop
        (fun es => Agrees.elementStep (Agrees.unpackValueWith ih) _ es) _ _ _)).bind fun _ =>
          Agrees.refl _

theorem ldecodeWith_of_ok {advance : ℤ → BsonRead ℤ} {len : List UInt8}
    (h : memory buffer 0 4 = .ok len) (stack fuel : ℕ) : ldecodeWith buffer advance stack fuel =
      (unpackDictWith buffer advance fuel stack false ⟨0, toInt32 (leNat len)⟩).map Prod.fst := by
  rw [ldecodeWith, h]
  change (unpackDictWith buffer advance fuel stack false ⟨0, toInt32 (leNat len)⟩).bind _ = _
  cases unpackDictWith buffer advance fuel stack false ⟨0, toInt32 (leNat len)⟩ <;> rfl

theorem ldecodeWith_of_error {advance : ℤ → BsonRead ℤ} {e : BsonError}
    (h : memory buffer 0 4 = .error e) (stack fuel : ℕ) :
    ldecodeWith buffer advance stack fuel = .error e := by
  rw [ldecodeWith, h]
  rfl

/-- If nothing is reported, the decoder goes forward. -/
theorem ldecodeWithin_eq {stack fuel : ℕ}
    (h : ldecodeWith buffer forwardBytes stack fuel ≠ .error .outside) :
    ldecodeWith buffer forwardBytes stack fuel = ldecodeWithin buffer stack fuel := by
  rw [← ldecodeWith_readBytes]
  cases hlen : memory buffer 0 4 with
  | error e => rw [ldecodeWith_of_error hlen, ldecodeWith_of_error hlen]
  | ok len =>
    rw [ldecodeWith_of_ok hlen] at h ⊢
    rw [ldecodeWith_of_ok hlen]
    rcases agrees_unpackDictWith fuel stack false ⟨0, toInt32 (leNat len)⟩ with hdict | hdict
    · rw [hdict]
    · rw [hdict] at h
      exact absurd rfl h

/-- If nothing is reported, the index is the same. -/
theorem lmakeindex_eq {fuel : ℕ} (h : lmakeindexWith buffer forwardBytes fuel ≠ .error .outside) :
    lmakeindexWith buffer forwardBytes fuel = lmakeindex buffer fuel := by
  unfold lmakeindex lmakeindexWith at *
  cases hlen : memory buffer 0 4 with
  | error e => rfl
  | ok len =>
    rw [hlen] at h
    exact (Agrees.loop (fun es => Agrees.elementStep agrees_indexValue _ es) _ _ _).resolve_right h

end Agrees

/-! ### Blocks -/

/-- The function reads a length and some more bytes, and then it skips a block. -/
structure Skips {α : Type} (buffer : List UInt8) (between : ℕ) (adjust : ℤ) (m : BsonRead α) :
    Prop where
  short : ∀ {w}, w.length < 4 + between → Errs buffer m Ordinary w
  outside : ∀ {l s rest}, l.length = 4 → s.length = between → toInt32 (length32 l + adjust) < 0 →
    Errs buffer m (¬ Ordinary ·) (l ++ (s ++ rest))
  far : ∀ {l s rest}, l.length = 4 → s.length = between →
    (rest.length : ℤ) < toInt32 (length32 l + adjust) → Errs buffer m Ordinary (l ++ (s ++ rest))

section Skips

variable {α : Type} {buffer w l : List UInt8} {sz adjust : ℤ} {between : ℕ}

theorem toInt32_length32 (l : List UInt8) : toInt32 (length32 l) = length32 l := by
  rw [length32, toInt32, toInt32, bmod_bmod]

theorem fails_forward (hsz : sz < 0) : Errs buffer (forwardBytes sz) (¬ Ordinary ·) w := by
  intro br hat
  have hsize := hat.size_eq
  exact ⟨.outside, if_pos ⟨hsz, by omega⟩, fun h => h.1 rfl⟩

theorem fails_forward_far (hfar : w.length < sz) : Errs buffer (forwardBytes sz) Ordinary w := by
  intro br hat
  have hsize := hat.size_eq
  refine ⟨.invalidBlock br.size sz, ?_, by simp [Ordinary]⟩
  rw [forwardBytes, if_neg (by omega), readBytes, if_pos (by omega)]

theorem reads_forward (hbuf : buffer.length < 2 ^ 31) (bs : List UInt8) :
    Reads buffer (forwardBytes bs.length)
      (fun ptr => BsonReader.At ⟨ptr, bs.length⟩ buffer bs) bs := by
  intro br rest hat
  rw [forwardBytes, if_neg (by omega)]
  exact reads_bytes hbuf bs br rest hat

theorem skips_block (hbuf : buffer.length < 2 ^ 31) (f : ℤ → ℤ)
    (hf : ∀ l, f (length32 l) = toInt32 (length32 l + adjust)) (g : ℤ → ℤ → BsonRead α) :
    Skips buffer 0 adjust (do
      let sz ← readInt32 buffer
      let ptr ← forwardBytes (f sz)
      g sz ptr) where
  short hw := (fails_int32 hw).bind _
  outside := by
    rintro l s rest hl hs hneg
    rw [length_eq_zero_iff.mp hs]
    refine (reads_length32 hbuf hl).bind_fails fun sz hsz => ?_
    rw [hsz, hf]
    exact (fails_forward hneg).bind _
  far := by
    rintro l s rest hl hs hfar
    rw [length_eq_zero_iff.mp hs]
    refine (reads_length32 hbuf hl).bind_fails fun sz hsz => ?_
    rw [hsz, hf]
    exact (fails_forward_far hfar).bind _

theorem Skips.get {m : BsonReader → BsonRead α} (h : ∀ br, Skips buffer between adjust (m br)) :
    Skips buffer between adjust (get >>= m) where
  short hw br hat := (h br).short hw br hat
  outside hl hs hneg br hat := (h br).outside hl hs hneg br hat
  far hl hs hfar br hat := (h br).far hl hs hfar br hat

/-- A binary value has its subtype between the length and the block. -/
theorem skips_binary (hbuf : buffer.length < 2 ^ 31) (g : ℤ → UInt8 → ℤ → BsonRead α) :
    Skips buffer 1 0 (do
      let sz ← readInt32 buffer
      let subtype ← readByte buffer
      let ptr ← forwardBytes sz
      g sz subtype ptr) where
  short := by
    intro w hw
    by_cases hshort : w.length < 4
    · exact (fails_int32 hshort).bind _
    · have hsplit := take_append_drop 4 w
      have hnil : w.drop 4 = [] := drop_eq_nil_iff.mpr (by omega)
      rw [← hsplit, hnil]
      exact (reads_length32 hbuf (length_take_of_le (by omega))).bind_fails fun _ _ =>
        fails_byte.bind _
  outside := by
    rintro l s rest hl hs hneg
    obtain ⟨c, rfl⟩ := length_eq_one_iff.mp hs
    refine (reads_length32 hbuf hl).bind_fails fun sz hsz =>
      (reads_byte hbuf c).bind_fails fun _ _ => ?_
    rw [add_zero, toInt32_length32, ← hsz] at hneg
    exact (fails_forward hneg).bind _
  far := by
    rintro l s rest hl hs hfar
    obtain ⟨c, rfl⟩ := length_eq_one_iff.mp hs
    refine (reads_length32 hbuf hl).bind_fails fun sz hsz =>
      (reads_byte hbuf c).bind_fails fun _ _ => ?_
    rw [add_zero, toInt32_length32, ← hsz] at hfar
    exact (fails_forward_far hfar).bind _

theorem split_cases (n : ℕ) (w : List UInt8) :
    w.length < n ∨ ∃ v rest, w = v ++ rest ∧ v.length = n := by
  by_cases h : w.length < n
  · exact .inl h
  · exact .inr ⟨w.take n, w.drop n, (take_append_drop n w).symm, length_take_of_le (not_lt.mp h)⟩

/-- There is nothing else in front of a block but errors. -/
theorem Skips.total {m : BsonRead α} (h : Skips buffer between adjust m) {F : Layout} {bt : UInt8}
    (hF : F.sized bt = some (between, adjust)) (n : ℕ) (w : List UInt8) :
    (∃ v rest, w = v ++ rest ∧ Parsed F n (.value bt) v) ∨ Faulty F n (.value bt) w ∨
      Errs buffer m Ordinary w := by
  rcases split_cases 4 w with hshort | ⟨l, w, rfl, hl⟩
  · exact .inr (.inr (h.short (by omega)))
  rcases split_cases between w with hshort | ⟨s, w, rfl, rfl⟩
  · refine .inr (.inr (h.short ?_))
    rw [length_append]
    omega
  rcases lt_or_ge (toInt32 (length32 l + adjust)) 0 with hneg | hpos
  · exact .inr (.inl (.sized hF hl hneg))
  rcases split_cases (toInt32 (length32 l + adjust)).toNat w with hshort | ⟨s', w, rfl, hs'⟩
  · exact .inr (.inr (h.far hl rfl (by omega)))
  · exact .inl ⟨l ++ (s ++ s'), w, by simp, .sized hF hl (by omega)⟩

end Skips

/-! ### The index -/

section Index

variable {buffer : List UInt8} {bt : UInt8} (hbuf : buffer.length < 2 ^ 31)
include hbuf

omit hbuf in
theorem indexValue_of_sized (buffer : List UInt8) (advance : ℤ → BsonRead ℤ) {between : ℕ}
    {adjust : ℤ}
    (h : indexLayout.sized bt = some (between, adjust)) : between = 0 ∧ ∃ f : ℤ → ℤ,
      (∀ l, f (length32 l) = toInt32 (length32 l + adjust)) ∧
      indexValue buffer advance bt = (do
        let sz ← readInt32 buffer
        let _ ← advance (f sz)
        return none) := by
  simp only [indexLayout] at h
  unfold indexValue
  split_ifs at h with hstring hdocument hbinary hdbpointer
  · obtain ⟨rfl, rfl⟩ := mk.inj (some.inj h)
    rw [if_pos hstring]
    exact ⟨rfl, id, fun l => by rw [add_zero, toInt32_length32, id], rfl⟩
  · obtain ⟨rfl, rfl⟩ := mk.inj (some.inj h)
    rw [if_neg hstring, if_pos hdocument]
    exact ⟨rfl, fun sz => toInt32 (sz - 4), fun _ => congrArg toInt32 (sub_eq_add_neg _ _), rfl⟩
  · obtain ⟨rfl, rfl⟩ := mk.inj (some.inj h)
    rw [if_neg hstring, if_neg hdocument, if_pos hbinary]
    exact ⟨rfl, fun sz => toInt32 (sz + 1), fun _ => by rfl, rfl⟩
  · obtain ⟨rfl, rfl⟩ := mk.inj (some.inj h)
    have hregex : bt ≠ bsonRegex := fun h => absurd (hdbpointer.symm.trans h) (by decide)
    rw [if_neg hstring, if_neg hdocument, if_neg hbinary, if_neg hregex, if_pos hdbpointer]
    exact ⟨rfl, fun sz => toInt32 (sz + 12), fun _ => by rfl, rfl⟩

theorem skips_indexValue {between : ℕ} {adjust : ℤ}
    (h : indexLayout.sized bt = some (between, adjust)) :
    Skips buffer between adjust (indexValue buffer forwardBytes bt) := by
  obtain ⟨rfl, f, hf, heq⟩ := indexValue_of_sized buffer forwardBytes h
  rw [heq]
  exact skips_block hbuf f hf fun _ _ => pure none

theorem reads_indexValue {l s s' : List UInt8} {adjust : ℤ}
    (h : indexLayout.sized bt = some (s.length, adjust)) (hl : l.length = 4)
    (hsize : toInt32 (length32 l + adjust) = s'.length) :
    Reads buffer (indexValue buffer forwardBytes bt) (· = none) (l ++ (s ++ s')) := by
  obtain ⟨hs, f, hf, heq⟩ := indexValue_of_sized buffer forwardBytes h
  rw [heq, length_eq_zero_iff.mp hs, nil_append, ← append_nil s']
  refine (reads_length32 hbuf hl).bind fun sz hsz => ?_
  rw [hsz, hf, hsize]
  exact (reads_forward hbuf s').bind fun _ _ => pure rfl

omit hbuf in
theorem fixed_types {n : ℕ} (h : fixedSize bt = some n) : bt ∈ [bsonInt64, bsonTimestamp, bsonDate,
    bsonReal, bsonBoolean, bsonObjectid, bsonInt32, bsonMinkey, bsonMaxkey, bsonNull] := by
  unfold fixedSize at h
  simp only [mem_cons, not_mem_nil, or_false]
  split_ifs at h <;> tauto

omit hbuf in
theorem index_sized_of_fixed {n : ℕ} (h : fixedSize bt = some n) :
    indexLayout.sized bt = none ∧ bt ≠ bsonRegex := by
  have hmem := fixed_types h
  simp only [mem_cons, not_mem_nil, or_false] at hmem
  rcases hmem with rfl | rfl | rfl | rfl | rfl | rfl | rfl | rfl | rfl | rfl <;> decide

omit hbuf in
theorem indexValue_eq (h : indexLayout.sized bt = none) : indexValue buffer forwardBytes bt =
      if bt = bsonRegex then do
        let _ ← readCstring buffer
        let _ ← readCstring buffer
        return none
      else
        match fixedSize bt with
        | none => throw (.invalidType bt)
        | some 0 => return none
        | some fieldSize => some <$> forwardBytes fieldSize := by
  simp only [indexLayout] at h
  unfold indexValue
  split_ifs at h ⊢ <;> rfl

theorem reads_regex {α : Type} {a b : List UInt8} (ha : 0 ∉ a) (hb : 0 ∉ b)
    (g : List UInt8 → List UInt8 → α) :
    Reads buffer (do
      let r1 ← readCstring buffer
      let r2 ← readCstring buffer
      return g r1 r2) (· = g a b) (a ++ [0] ++ (b ++ [0])) := by
  rw [← append_nil (b ++ [0])]
  refine (reads_cstring hbuf ha).bind fun r1 h1 => (reads_cstring hbuf hb).bind fun r2 h2 => ?_
  exact pure (by rw [h1, h2])

theorem regex_total {α : Type} {F : Layout} (n : ℕ) (g : List UInt8 → List UInt8 → α)
    (w : List UInt8) : (∃ v rest, w = v ++ rest ∧ Parsed F n (.value bsonRegex) v) ∨
      Errs buffer (do
        let r1 ← readCstring buffer
        let r2 ← readCstring buffer
        return g r1 r2) Ordinary w := by
  rcases cstring_cases w with hzero | ⟨a, w, ha, rfl⟩
  · exact .inr ((fails_cstring hzero).bind _)
  rcases cstring_cases w with hzero | ⟨b, w, hb, rfl⟩
  · exact .inr ((reads_cstring hbuf ha).bind_fails fun _ _ => (fails_cstring hzero).bind _)
  · exact .inl ⟨_, w, (append_assoc ..).symm, .regex ha hb⟩

/-- The index is made as its layout says. -/
theorem parses_index (n N : ℕ) :
    Parses indexLayout n N buffer (indexValue buffer forwardBytes) where
  reads := by
    intro bt v _ hv
    generalize hpart : Part.value bt = part at hv
    cases hv with
    | nil | cons => cases hpart
    | checked hF | nested hF => cases hF
    | fixed hfixed =>
      cases hpart
      obtain ⟨hF, hregex⟩ := index_sized_of_fixed hfixed
      rw [indexValue_eq hF, if_neg hregex, hfixed]
      cases v with
      | nil => exact pure trivial
      | cons c v => exact (reads_forward hbuf (c :: v)).map fun _ _ => trivial
    | sized hF hl hsize =>
      cases hpart
      exact (reads_indexValue hbuf hF hl hsize).mono fun _ _ => trivial
    | regex ha hb =>
      cases hpart
      rw [indexValue_eq rfl]
      exact (reads_regex hbuf ha hb fun _ _ => none).mono fun _ _ => trivial
  faulty := by
    intro bt w _ hw
    generalize hpart : Part.value bt = part at hw
    cases hw with
    | here | later => cases hpart
    | deep hnested | nested hnested | inside hnested => cases hnested
    | sized hF hl hneg =>
      cases hpart
      exact (skips_indexValue hbuf hF).outside hl rfl hneg
  total := by
    intro bt w _
    cases hF : indexLayout.sized bt with
    | some p => exact (skips_indexValue hbuf hF).total hF n w
    | none =>
      rw [indexValue_eq hF]
      split_ifs with hregex
      · subst hregex
        exact (regex_total hbuf n (fun _ _ => none) w).imp id .inr
      · cases hfixed : fixedSize bt with
        | none => exact .inr (.inr (fails_throw (by simp [Ordinary])))
        | some size =>
          rcases split_cases size w with hshort | ⟨v, rest, rfl, rfl⟩
          · refine .inr (.inr ?_)
            cases size with
            | zero => omega
            | succ size => exact (fails_forward_far (by omega)).map _
          · exact .inl ⟨v, rest, rfl, .fixed hfixed⟩

end Index

/-! ### Values -/

/-- The value of a type of which all values have the same size. -/
def fixedValue (bt : UInt8) (v : List UInt8) : LuaValue Unit :=
  if bt = bsonReal then .scalar (.real (UInt64.ofNat (leNat v)))
  else if bt = bsonBoolean then .scalar (.boolean (v.headD 0 ≠ 0))
  else if bt = bsonObjectid then makeObject bsonObjectid v
  else if bt = bsonDate then
    makeObject bsonDate (leBytes 4 (((leNat v : ℤ).bmod (2 ^ 64)).tdiv 1000 % 2 ^ 32).toNat)
  else if bt = bsonInt32 then .scalar (.integer (Int64.ofInt (length32 v)))
  else if bt = bsonTimestamp then makeObject bsonTimestamp v
  else if bt = bsonInt64 then .scalar (.integer (Int64.ofNat (leNat v)))
  else makeObject bt []

section Values

variable {buffer : List UInt8} {unpack : Bool → BsonRead (LuaValue Unit)} {bt : UInt8}
  (hbuf : buffer.length < 2 ^ 31)
include hbuf

/-- The bytes of a value of a fixed size are all that its value depends on. -/
theorem unpack_fixed {v : List UInt8} (h : fixedSize bt = some v.length) :
    Reads buffer (unpackValueWith buffer forwardBytes unpack bt) (· = fixedValue bt v) v := by
  have hmem := fixed_types h
  simp only [mem_cons, not_mem_nil, or_false] at hmem
  rcases hmem with rfl | rfl | rfl | rfl | rfl | rfl | rfl | rfl | rfl | rfl
  · -- `int64`
    exact (reads_leNat hbuf (some.inj h).symm).map fun _ hn => by subst hn; rfl
  · -- `timestamp`
    have hv : v.length = 8 := (some.inj h).symm
    rcases split_cases 4 v with hshort | ⟨a, b, rfl, ha⟩
    · omega
    have hb : b.length = 4 := by
      rw [length_append] at hv
      omega
    have hinc := reads_block hbuf a
    have hts := reads_block hbuf b
    rw [ha] at hinc
    rw [hb] at hts
    have hreads : Reads buffer (unpackValueWith buffer forwardBytes unpack bsonTimestamp)
        (· = fixedValue bsonTimestamp (a ++ b)) (a ++ (b ++ [])) :=
      hinc.bind fun inc hinc => hts.bind fun ts hts => pure (by subst hinc hts; rfl)
    rwa [append_nil] at hreads
  · -- `date`
    have hreads : Reads buffer (unpackValueWith buffer forwardBytes unpack bsonDate)
        (· = fixedValue bsonDate v) (v ++ []) :=
      (reads_leNat hbuf (some.inj h).symm).bind fun _ hn =>
        pure (by subst hn; rfl)
    rwa [append_nil] at hreads
  · -- `real`
    exact (reads_leNat hbuf (some.inj h).symm).map fun _ hn => by subst hn; rfl
  · -- `boolean`
    obtain ⟨c, rfl⟩ := length_eq_one_iff.mp (some.inj h).symm
    exact (reads_byte hbuf c).map fun _ hc => by subst hc; rfl
  · -- `objectid`
    have hblock := reads_block hbuf v
    rw [show v.length = 12 from (some.inj h).symm] at hblock
    exact hblock.map fun _ hb => by subst hb; rfl
  · -- `int32`
    refine (reads_length32 hbuf (some.inj h).symm).map fun _ hn => ?_
    rw [hn]
    rfl
  all_goals
    obtain rfl := length_eq_zero_iff.mp (some.inj h).symm
    exact pure rfl

omit hbuf in
/-- What is skipped by its length, and what is returned for it. -/
theorem unpackValueWith_of_sized (buffer : List UInt8) (advance : ℤ → BsonRead ℤ)
    (unpack : Bool → BsonRead (LuaValue Unit)) {between : ℕ} {adjust : ℤ}
    (h : decodeLayout.sized bt = some (between, adjust)) (hbinary : bt ≠ bsonBinary) :
    between = 0 ∧ ∃ f g : ℤ → ℤ, (∀ l, f (length32 l) = toInt32 (length32 l + adjust)) ∧
      (∀ l, g (length32 l) = toInt32 (f (length32 l) + 4)) ∧
      unpackValueWith buffer advance unpack bt = (do
        let br ← get
        let sz ← readInt32 buffer
        let _ ← advance (f sz)
        let bs ← memory buffer br.ptr (g sz)
        return makeObject bt bs) := by
  have hadd : ∀ n m : ℤ, toInt32 (toInt32 n + m) = toInt32 (n + m) := fun n m =>
    bmod_add_bmod
  simp only [decodeLayout, if_neg hbinary] at h
  unfold unpackValueWith
  rw [if_neg hbinary]
  split_ifs at h with hdbpointer hjscode hcodews
  · obtain ⟨rfl, rfl⟩ := mk.inj (some.inj h)
    rw [if_pos hdbpointer, hdbpointer]
    refine ⟨rfl, fun sz => toInt32 (sz + 12), fun sz => toInt32 (sz + 16), fun _ => by rfl,
      fun l => ?_, rfl⟩
    change toInt32 (length32 l + 16) = toInt32 (toInt32 (length32 l + 12) + 4)
    rw [hadd, add_assoc]
    norm_num
  · obtain ⟨rfl, rfl⟩ := mk.inj (some.inj h)
    rw [if_neg hdbpointer, if_pos hjscode]
    exact ⟨rfl, id, fun sz => toInt32 (sz + 4), fun l => by rw [add_zero, toInt32_length32, id],
      fun _ => by rw [id], rfl⟩
  · obtain ⟨rfl, rfl⟩ := mk.inj (some.inj h)
    rw [if_neg hdbpointer, if_neg hjscode, if_pos hcodews]
    refine ⟨rfl, fun sz => toInt32 (sz - 4), id, fun _ => congrArg toInt32 (sub_eq_add_neg _ _),
      fun l => ?_, rfl⟩
    rw [hadd, sub_add_cancel, toInt32_length32, id]

theorem skips_unpackValue {between : ℕ} {adjust : ℤ}
    (h : decodeLayout.sized bt = some (between, adjust)) :
    Skips buffer between adjust (unpackValueWith buffer forwardBytes unpack bt) := by
  by_cases hbinary : bt = bsonBinary
  · subst hbinary
    obtain ⟨rfl, rfl⟩ := mk.inj (some.inj h)
    exact skips_binary hbuf fun _ _ _ => _
  · obtain ⟨rfl, f, g, hf, -, heq⟩ := unpackValueWith_of_sized buffer forwardBytes unpack h hbinary
    rw [heq]
    exact Skips.get fun br => skips_block hbuf f hf fun _ _ => _

/-- The value of a type with a length. -/
def sizedValue (bt : UInt8) (l s s' : List UInt8) : LuaValue Unit :=
  if bt = bsonBinary then makeObject bsonBinary (s ++ s') else makeObject bt (l ++ s')

/-- A value is read from its own bytes. -/
theorem unpack_sized {l s s' : List UInt8} {adjust : ℤ}
    (h : decodeLayout.sized bt = some (s.length, adjust)) (hl : l.length = 4)
    (hsize : toInt32 (length32 l + adjust) = s'.length) :
    Reads buffer (unpackValueWith buffer forwardBytes unpack bt) (· = sizedValue bt l s s')
      (l ++ (s ++ s')) := by
  by_cases hbinary : bt = bsonBinary
  · subst hbinary
    obtain ⟨hs, rfl⟩ := mk.inj (some.inj h)
    obtain ⟨c, rfl⟩ := length_eq_one_iff.mp hs.symm
    rw [add_zero, toInt32_length32] at hsize
    have hreads : Reads buffer (unpackValueWith buffer forwardBytes unpack bsonBinary)
        (· = sizedValue bsonBinary l [c] s') (l ++ ([c] ++ (s' ++ ([] ++ [])))) := by
      refine (reads_length32 hbuf hl).bind fun sz hsz =>
        (reads_byte hbuf c).bind fun subtype hc => ?_
      rw [hsz, hsize]
      refine (reads_forward hbuf s').bind fun ptr hptr => ?_
      rw [← append_nil s'] at hptr
      exact hptr.reads_memory.bind fun bs hbs => pure (by rw [hc, hbs]; rfl)
    simpa using hreads
  · obtain ⟨hs, f, g, hf, hg, heq⟩ := unpackValueWith_of_sized buffer forwardBytes unpack h hbinary
    rw [heq, sizedValue, if_neg hbinary, length_eq_zero_iff.mp hs, nil_append]
    intro br rest hat
    -- the block with its length in front of it is in the memory
    have hroom : (l ++ s').length < 2 ^ 31 := by
      obtain ⟨pre, post, rfl, -, -⟩ := hat
      simp only [length_append] at hbuf ⊢
      omega
    have htotal : g (length32 l) = (l ++ s').length := by
      rw [length_append] at hroom ⊢
      rw [hg, hf, hsize, toInt32_eq (by omega) (by omega), hl]
      omega
    have hreads : Reads buffer (do
        let sz ← readInt32 buffer
        let _ ← forwardBytes (f sz)
        let bs ← memory buffer br.ptr (g sz)
        return makeObject bt bs) (· = makeObject bt (l ++ s')) (l ++ (s' ++ ([] ++ []))) := by
      refine (reads_length32 hbuf hl).bind fun sz hsz => ?_
      rw [hsz, hf, hsize, htotal]
      exact (reads_forward hbuf s').bind fun _ _ => hat.reads_memory.bind fun bs hbs =>
        pure (by rw [hbs])
    rw [append_nil, append_nil] at hreads
    exact hreads br rest hat

theorem fixed_short {w : List UInt8} {n : ℕ} (h : fixedSize bt = some n) (hw : w.length < n) :
    Errs buffer (unpackValueWith buffer forwardBytes unpack bt) Ordinary w := by
  have hmem := fixed_types h
  simp only [mem_cons, not_mem_nil, or_false] at hmem
  rcases hmem with rfl | rfl | rfl | rfl | rfl | rfl | rfl | rfl | rfl | rfl
  all_goals obtain rfl := some.inj h
  · exact (fails_word hw).map _
  · -- `timestamp`: one of its two parts is not there
    rcases split_cases 4 w with hshort | ⟨a, b, rfl, ha⟩
    · exact (fails_block (n := 4) hshort).bind _
    · rw [length_append] at hw
      have hinc := reads_block hbuf a
      rw [ha] at hinc
      exact hinc.bind_fails fun _ _ => (fails_block (n := 4) (by omega)).bind _
  · exact (fails_word hw).bind _
  · exact (fails_word hw).map _
  · obtain rfl := length_eq_zero_iff.mp (Nat.lt_one_iff.mp hw)
    exact fails_byte.map _
  · exact (fails_block (n := 12) hw).map _
  · exact (fails_int32 hw).map _
  all_goals exact absurd hw (Nat.not_lt_zero _)

omit hbuf in
theorem unpackValueWith_invalid (hfixed : fixedSize bt = none)
    (hsized : decodeLayout.sized bt = none) (hnested : ¬ decodeLayout.nested bt)
    (hstring : bt ≠ bsonString) (hregex : bt ≠ bsonRegex) :
    unpackValueWith buffer forwardBytes unpack bt = throw (.invalidType bt) := by
  simp only [decodeLayout] at hsized hnested
  unfold fixedSize at hfixed
  unfold unpackValueWith unpackValue
  split_ifs at hsized hfixed with h₁ h₂ h₃ h₄ h₅ h₆ h₇ h₈ h₉
  simp only [not_or, decide_eq_true_eq] at *
  simp [*]

/-- A string is read without its terminator, whatever that is. -/
theorem unpack_checked {l s : List UInt8} (hl : l.length = 4) (hsize : length32 l = s.length)
    (hs : s ≠ []) : Reads buffer (unpackValueWith buffer forwardBytes unpack bsonString)
      (· = .scalar (.string s.dropLast)) (l ++ s) := by
  have hpos := length_pos_iff.mpr hs
  have hreads : Reads buffer (unpackValueWith buffer forwardBytes unpack bsonString)
      (· = .scalar (.string s.dropLast)) (l ++ (s ++ ([] ++ []))) := by
    refine (reads_length32 hbuf hl).bind fun sz hsz => ?_
    rw [hsz, hsize, if_neg (by omega)]
    refine (reads_bytes hbuf s).bind fun ptr hptr => ?_
    have hlen : ((s.length : ℕ) : ℤ) - 1 = (s.dropLast.length : ℕ) := by
      rw [length_dropLast]
      omega
    rw [← dropLast_append_getLast hs] at hptr
    rw [hlen]
    exact hptr.reads_memory.bind fun str hstr => pure (by rw [hstr])
  simpa using hreads

theorem string_total (n : ℕ) (w : List UInt8) :
    (∃ v rest, w = v ++ rest ∧ Parsed decodeLayout n (.value bsonString) v) ∨
      Errs buffer (unpackValueWith buffer forwardBytes unpack bsonString) Ordinary w := by
  rcases split_cases 4 w with hshort | ⟨l, w, rfl, hl⟩
  · exact .inr ((fails_int32 hshort).bind _)
  rcases le_or_gt (length32 l) 0 with hneg | hpos
  · refine .inr ((reads_length32 hbuf hl).bind_fails fun sz hsz => ?_)
    rw [hsz, if_pos hneg]
    exact fails_throw (by simp [Ordinary])
  rcases split_cases (length32 l).toNat w with hshort | ⟨s, w, rfl, hs⟩
  · refine .inr ((reads_length32 hbuf hl).bind_fails fun sz hsz => ?_)
    rw [hsz, if_neg (not_le.mpr hpos), ← toNat_of_nonneg hpos.le]
    exact (fails_bytes hshort).bind _
  · refine .inl ⟨l ++ s, w, (append_assoc ..).symm, .checked rfl hl (by omega) ?_⟩
    rintro rfl
    rw [length_nil] at hs
    omega

end Values

end Uboss.Lib
