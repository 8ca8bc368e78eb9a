import Uboss.Lib.BsonReads

/-!
# What a reader of BSON accepts

Two functions walk over the elements of a document: one makes a table of them, the other one an
index. They agree in the values that all have the same size, and differ in how they follow the
lengths in the data. A length may be negative, or become so when it is adjusted; a reader that
follows it goes backwards. A reader that calls itself for a document inside another one needs a
stack.
-/

namespace Uboss.Lib

open Math List

/-! ### The grammar -/

/-- A length in the data. -/
def length32 (l : List UInt8) : ℤ := toInt32 (leNat l)

theorem length32_leBytes {n : ℕ} (hn : n < 2 ^ 31) : length32 (leBytes 4 n) = n := by
  rw [length32, leNat_leBytes_of_lt (by omega), toInt32_eq (by omega) (by omega)]

/-- The size that is read in front of a document is that of its elements. -/
theorem toInt32_document {n : ℕ} (hn : n + 5 < 2 ^ 31) :
    toInt32 (length32 (leBytes 4 (n + 5)) - 5) = n := by
  rw [length32_leBytes hn, toInt32_eq (by omega) (by omega)]
  omega

/-- The size of the values of a type, where they all have the same. -/
def fixedSize (bt : UInt8) : Option ℕ :=
  if bt = bsonInt64 ∨ bt = bsonTimestamp ∨ bt = bsonDate ∨ bt = bsonReal then some 8
  else if bt = bsonBoolean then some 1
  else if bt = bsonObjectid then some 12
  else if bt = bsonInt32 then some 4
  else if bt = bsonMinkey ∨ bt = bsonMaxkey ∨ bt = bsonNull then some 0
  else none

/-- How a reader follows the lengths in the data. -/
structure Layout where
  /-- The types of which the block behind the length is skipped without a check: how many bytes are
  read before the block, and what is added to the length. -/
  sized : UInt8 → Option (ℕ × ℤ)
  /-- The types of which the length must be positive. -/
  checked : UInt8 → Bool
  /-- The types that are read as documents. -/
  nested : UInt8 → Bool

/-- A part of a document. -/
inductive Part
  | value (bt : UInt8)
  | elements

/-- The reader goes over these bytes, where fewer documents than so many are inside each other. -/
inductive Parsed (F : Layout) : ℕ → Part → List UInt8 → Prop
  | fixed {n : ℕ} {bt : UInt8} {v : List UInt8} : fixedSize bt = some v.length →
      Parsed F n (.value bt) v
  | checked {n : ℕ} {bt : UInt8} {l s : List UInt8} : F.checked bt → l.length = 4 →
      length32 l = s.length → s ≠ [] → Parsed F n (.value bt) (l ++ s)
  | sized {n : ℕ} {bt : UInt8} {l s s' : List UInt8} {adjust : ℤ} :
      F.sized bt = some (s.length, adjust) → l.length = 4 →
      toInt32 (length32 l + adjust) = s'.length → Parsed F n (.value bt) (l ++ (s ++ s'))
  | regex {n : ℕ} {a b : List UInt8} : 0 ∉ a → 0 ∉ b →
      Parsed F n (.value bsonRegex) (a ++ [0] ++ (b ++ [0]))
  | nested {n : ℕ} {bt : UInt8} {l es : List UInt8} : F.nested bt → l.length = 4 →
      toInt32 (length32 l - 5) = es.length → Parsed F n .elements es →
      Parsed F (n + 1) (.value bt) (l ++ (es ++ [0]))
  | nil {n : ℕ} : Parsed F n .elements []
  | cons {n : ℕ} {bt : UInt8} {key v es : List UInt8} : 0 ∉ key → Parsed F n (.value bt) v →
      Parsed F n .elements es → Parsed F n .elements ((bt :: (key ++ [0]) ++ v) ++ es)

/-- In front of these bytes the reader comes to a length that leads it backwards, or to a document
that is inside so many others. -/
inductive Faulty (F : Layout) : ℕ → Part → List UInt8 → Prop
  | sized {n : ℕ} {bt : UInt8} {l s rest : List UInt8} {adjust : ℤ} :
      F.sized bt = some (s.length, adjust) → l.length = 4 → toInt32 (length32 l + adjust) < 0 →
      Faulty F n (.value bt) (l ++ (s ++ rest))
  | deep {bt : UInt8} {w : List UInt8} : F.nested bt → Faulty F 0 (.value bt) w
  | nested {n : ℕ} {bt : UInt8} {l rest : List UInt8} : F.nested bt → l.length = 4 →
      toInt32 (length32 l - 5) < 0 → Faulty F (n + 1) (.value bt) (l ++ rest)
  | inside {n : ℕ} {bt : UInt8} {l es rest : List UInt8} : F.nested bt → l.length = 4 →
      toInt32 (length32 l - 5) = es.length → Faulty F n .elements es →
      Faulty F (n + 1) (.value bt) (l ++ (es ++ [0]) ++ rest)
  | here {n : ℕ} {bt : UInt8} {key w : List UInt8} : 0 ∉ key → Faulty F n (.value bt) w →
      Faulty F n .elements (bt :: (key ++ [0]) ++ w)
  | later {n : ℕ} {bt : UInt8} {key v es : List UInt8} : 0 ∉ key → Parsed F n (.value bt) v →
      Faulty F n .elements es → Faulty F n .elements ((bt :: (key ++ [0]) ++ v) ++ es)

/-- Every document has bytes of its own. -/
theorem Parsed.of_length_lt {F : Layout} {n m : ℕ} {part : Part} {w : List UInt8}
    (h : Parsed F n part w) (hm : w.length < m) : Parsed F m part w := by
  induction h generalizing m with
  | fixed h => exact .fixed h
  | checked h hl hsize hs => exact .checked h hl hsize hs
  | sized h hl hsize => exact .sized h hl hsize
  | regex ha hb => exact .regex ha hb
  | nested h hl hsize _ ih =>
    obtain ⟨m, rfl⟩ : ∃ k, m = k + 1 := ⟨m - 1, by omega⟩
    rw [length_append, length_append] at hm
    exact .nested h hl hsize (ih (by omega))
  | nil => exact .nil
  | cons hkey _ _ ihv ihes =>
    simp only [length_append, length_cons] at hm
    exact .cons hkey (ihv (by omega)) (ihes (by omega))

/-! ### Errors -/

/-- An error that the code raises. -/
def Ordinary (e : BsonError) : Prop := e ≠ .outside ∧ e ≠ .outOfFuel ∧ e ≠ .stackOverflow

/-- In front of these bytes there is an error with this property. -/
def Errs {α : Type} (buffer : List UInt8) (m : BsonRead α) (E : BsonError → Prop)
    (w : List UInt8) : Prop :=
  ∀ br, br.At buffer w → ∃ e, m br = .error e ∧ E e

section Errs

variable {buffer : List UInt8} {α β : Type} {m : BsonRead α} {f : α → BsonRead β} {P : α → Prop}
  {E : BsonError → Prop} {bs w : List UInt8}

/-- The first function has a result, and the second one goes on with it. -/
theorem read_bind {br br' : BsonReader} {a : α} (h : m br = .ok (a, br')) :
    (m >>= f) br = f a br' := by
  change (m br).bind _ = _
  rw [h]
  rfl

theorem Errs.bind (h : Errs buffer m E w) (f : α → BsonRead β) : Errs buffer (m >>= f) E w := by
  intro br hat
  obtain ⟨e, he, hE⟩ := h br hat
  refine ⟨e, ?_, hE⟩
  change (m br).bind _ = _
  rw [he]
  rfl

theorem Errs.map (h : Errs buffer m E w) (f : α → β) : Errs buffer (f <$> m) E w := by
  rw [← bind_pure_comp]
  exact h.bind _

/-- The first function goes over some bytes, and the second one fails. -/
theorem Reads.bind_fails (h : Reads buffer m P bs) (hf : ∀ a, P a → Errs buffer (f a) E w) :
    Errs buffer (m >>= f) E (bs ++ w) := by
  intro br hat
  obtain ⟨a, br', hok, ha, hat'⟩ := h br w hat
  obtain ⟨e, he, hE⟩ := hf a ha br' hat'
  exact ⟨e, (read_bind hok).trans he, hE⟩

theorem fails_throw {e : BsonError} (he : E e) : Errs buffer (throw e : BsonRead α) E w :=
  fun _ _ => ⟨e, rfl, he⟩

theorem fails_bytes {n : ℕ} (hn : w.length < n) : Errs buffer (readBytes n) Ordinary w := by
  rintro br ⟨pre, post, -, -, hsize⟩
  exact ⟨_, if_pos (by omega), by simp [Ordinary]⟩

theorem fails_block {n : ℕ} (hn : w.length < n) : Errs buffer (readBlock buffer n) Ordinary w :=
  (fails_bytes hn).bind _

theorem fails_byte : Errs buffer (readByte buffer) Ordinary [] :=
  Errs.map (fails_block (w := []) (n := 1) Nat.one_pos) _

theorem fails_int32 (hw : w.length < 4) : Errs buffer (readInt32 buffer) Ordinary w :=
  Errs.map (fails_block (n := 4) hw) _

theorem fails_word (hw : w.length < 8) : Errs buffer (readWord buffer) Ordinary w :=
  Errs.map (fails_block (n := 8) hw) _

theorem scanCstring_invalid (hw : 0 ∉ w) (post : List UInt8) :
    scanCstring w.length (w ++ post) = .error .invalidCstring := by
  induction w with
  | nil =>
    rw [scanCstring.eq_def]
    exact if_pos rfl
  | cons c w ih =>
    rw [mem_cons, not_or] at hw
    rw [length_cons, cons_append, scanCstring, if_neg (by omega)]
    have hsize : ((w.length + 1 : ℕ) : ℤ) - 1 = w.length := by omega
    rw [if_neg (Ne.symm hw.1), hsize, ih hw.2]
    rfl

theorem fails_cstring (hw : 0 ∉ w) : Errs buffer (readCstring buffer) Ordinary w := by
  rintro br ⟨pre, post, rfl, hptr, hsize⟩
  refine ⟨.invalidCstring, ?_, by simp [Ordinary]⟩
  rw [readCstring, if_neg (by omega), hptr, Int.toNat_natCast, append_assoc,
    drop_left, hsize, scanCstring_invalid hw]
  rfl

theorem cstring_cases (w : List UInt8) :
    0 ∉ w ∨ ∃ key rest, 0 ∉ key ∧ w = (key ++ [0]) ++ rest := by
  by_cases h : 0 ∈ w
  · obtain ⟨key, rest, rfl, hkey⟩ := eq_append_cons_of_mem h
    exact .inr ⟨key, rest, hkey, by simp⟩
  · exact .inl h

end Errs

theorem reads_length32 {buffer l : List UInt8} (hbuf : buffer.length < 2 ^ 31) (hl : l.length = 4) :
    Reads buffer (readInt32 buffer) (· = length32 l) l := by
  have hblock := reads_block hbuf l
  rw [hl] at hblock
  exact hblock.map fun _ h => by rw [h, length32]

theorem reads_leNat {buffer v : List UInt8} (hbuf : buffer.length < 2 ^ 31) (hv : v.length = 8) :
    Reads buffer (readWord buffer) (· = leNat v) v := by
  have hblock := reads_block hbuf v
  rw [hv] at hblock
  exact hblock.map fun _ h => by rw [h]

/-! ### Elements -/

/-- The loop over the elements of a document. -/
def elementsLoop {σ : Type} (step : σ → BsonRead σ) : ℕ → BsonReader → σ → Except BsonError σ
  | 0, _, _ => .error .outOfFuel
  | fuel + 1, t, s =>
    if t.size = 0 then .ok s
    else do
      let (s, t) ← step s t
      elementsLoop step fuel t s

/-- An element: its type, its name, and what is made of its value. -/
def elementStep {σ β : Type} (buffer : List UInt8) (value : UInt8 → BsonRead β)
    (put : σ → UInt8 → List UInt8 → β → σ) (s : σ) : BsonRead σ := do
  let bt ← readByte buffer
  let key ← readCstring buffer
  let v ← value bt
  return put s bt key v

section Loop

variable {buffer : List UInt8} {σ : Type} {step : σ → BsonRead σ} {fuel : ℕ} {t : BsonReader}
  {s : σ} {bs rest w : List UInt8} {E : BsonError → Prop}

theorem BsonReader.At.size_eq (h : t.At buffer w) : t.size = w.length := by
  obtain ⟨-, -, -, -, hsize⟩ := h
  exact hsize

theorem elementsLoop_nil (hat : t.At buffer []) : elementsLoop step (fuel + 1) t s = .ok s := by
  rw [elementsLoop]
  exact if_pos hat.size_eq

theorem elementsLoop_append (fuel : ℕ) {P : σ → Prop} (h : Reads buffer (step s) P bs)
    (hne : bs ≠ []) (hat : t.At buffer (bs ++ rest)) : ∃ s' t', P s' ∧ t'.At buffer rest ∧
      elementsLoop step (fuel + 1) t s = elementsLoop step fuel t' s' := by
  obtain ⟨s', t', hok, hP, hat'⟩ := h t rest hat
  have hsize : t.size ≠ 0 := by
    rw [hat.size_eq, length_append]
    have := length_pos_iff.mpr hne
    omega
  refine ⟨s', t', hP, hat', ?_⟩
  rw [elementsLoop, if_neg hsize, hok]
  rfl

theorem elementsLoop_fails (fuel : ℕ) (h : Errs buffer (step s) E w) (hne : w ≠ [])
    (hat : t.At buffer w) : ∃ e, elementsLoop step (fuel + 1) t s = .error e ∧ E e := by
  obtain ⟨e, he, hE⟩ := h t hat
  have hsize : t.size ≠ 0 := by
    rw [hat.size_eq]
    have := length_pos_iff.mpr hne
    omega
  refine ⟨e, ?_, hE⟩
  rw [elementsLoop, if_neg hsize, he]
  rfl

end Loop

/-- The function reads values as the layout says, in windows that are smaller than this. -/
structure Parses {β : Type} (F : Layout) (n N : ℕ) (buffer : List UInt8)
    (value : UInt8 → BsonRead β) : Prop where
  reads : ∀ {bt v}, v.length < N → Parsed F n (.value bt) v →
    Reads buffer (value bt) (fun _ => True) v
  faulty : ∀ {bt w}, w.length < N → Faulty F n (.value bt) w →
    Errs buffer (value bt) (¬ Ordinary ·) w
  total : ∀ bt w, w.length < N → (∃ v rest, w = v ++ rest ∧ Parsed F n (.value bt) v) ∨
    Faulty F n (.value bt) w ∨ Errs buffer (value bt) Ordinary w

namespace Parses

variable {F : Layout} {n N fuel : ℕ} {buffer : List UInt8} {β σ : Type} {value : UInt8 → BsonRead β}
  {put : σ → UInt8 → List UInt8 → β → σ} {t : BsonReader} {w : List UInt8}

theorem element_ne_nil {bt : UInt8} {v : List UInt8} (w : List UInt8) : bt :: w ++ v ≠ [] :=
  cons_ne_nil _ _

variable (hbuf : buffer.length < 2 ^ 31)
include hbuf

theorem element_reads (h : Parses F n N buffer value) {bt : UInt8} {key v : List UInt8}
    (hkey : 0 ∉ key) (hv : Parsed F n (.value bt) v) (hN : v.length < N)
    (put : σ → UInt8 → List UInt8 → β → σ) (s : σ) :
    Reads buffer (elementStep buffer value put s) (fun _ => True) (bt :: (key ++ [0]) ++ v) := by
  have hbytes : bt :: (key ++ [0]) ++ v = [bt] ++ ((key ++ [0]) ++ (v ++ [])) := by simp
  rw [hbytes]
  refine (reads_byte hbuf bt).bind fun _ hbt => (reads_cstring hbuf hkey).bind fun _ _ => ?_
  subst hbt
  exact (h.reads hN hv).bind fun _ _ => Reads.pure trivial

theorem element_fails {E : BsonError → Prop} {bt : UInt8} {key w : List UInt8} (hkey : 0 ∉ key)
    (hfails : Errs buffer (value bt) E w) (put : σ → UInt8 → List UInt8 → β → σ) (s : σ) :
    Errs buffer (elementStep buffer value put s) E (bt :: (key ++ [0]) ++ w) := by
  have hbytes : bt :: (key ++ [0]) ++ w = [bt] ++ ((key ++ [0]) ++ w) := by simp
  rw [hbytes]
  refine (reads_byte hbuf bt).bind_fails fun _ hbt =>
    (reads_cstring hbuf hkey).bind_fails fun _ _ => ?_
  subst hbt
  exact hfails.bind _

variable (h : Parses F n N buffer value)
include h

/-- The loop goes over elements. -/
theorem loop_ok (hw : Parsed F n .elements w) (hN : w.length ≤ N) (hfuel : w.length < fuel)
    (hat : t.At buffer w) (s : σ) :
    ∃ s', elementsLoop (elementStep buffer value put) fuel t s = .ok s' := by
  generalize hpart : Part.elements = part at hw
  induction hw generalizing fuel t s with
  | fixed | checked | sized | regex | nested => cases hpart
  | nil =>
    obtain ⟨fuel, rfl⟩ : ∃ f, fuel = f + 1 := ⟨fuel - 1, by omega⟩
    exact ⟨s, elementsLoop_nil hat⟩
  | @cons _ _ _ _ w hkey hv hes _ ih =>
    obtain ⟨fuel, rfl⟩ : ∃ f, fuel = f + 1 := ⟨fuel - 1, by omega⟩
    simp only [length_append, length_cons] at hN hfuel
    obtain ⟨s', t', -, hat', hloop⟩ := elementsLoop_append fuel
      (h.element_reads hbuf hkey hv (by omega) put s) (element_ne_nil _) hat
    have hshorter : w.length < fuel := by omega
    obtain ⟨s'', hrest⟩ := ih h (by omega) hshorter hat' s' rfl
    exact ⟨s'', hloop.trans hrest⟩

/-- The loop comes to a fault. -/
theorem loop_faulty (hw : Faulty F n .elements w) (hN : w.length ≤ N) (hfuel : w.length < fuel)
    (hat : t.At buffer w) (s : σ) :
    ∃ e, elementsLoop (elementStep buffer value put) fuel t s = .error e ∧ ¬ Ordinary e := by
  generalize hpart : Part.elements = part at hw
  induction hw generalizing fuel t s with
  | sized | deep | nested | inside => cases hpart
  | here hkey hw =>
    obtain ⟨fuel, rfl⟩ : ∃ f, fuel = f + 1 := ⟨fuel - 1, by omega⟩
    simp only [length_append, length_cons] at hN
    exact elementsLoop_fails fuel
      (element_fails hbuf hkey (h.faulty (by omega) hw) put s) (element_ne_nil _) hat
  | @later _ _ _ _ w hkey hv hes ih =>
    obtain ⟨fuel, rfl⟩ : ∃ f, fuel = f + 1 := ⟨fuel - 1, by omega⟩
    simp only [length_append, length_cons] at hN hfuel
    obtain ⟨s', t', -, hat', hloop⟩ := elementsLoop_append fuel
      (h.element_reads hbuf hkey hv (by omega) put s) (element_ne_nil _) hat
    have hshorter : w.length < fuel := by omega
    obtain ⟨e, he, hfault⟩ := ih h (by omega) hshorter hat' s' rfl
    exact ⟨e, hloop.trans he, hfault⟩

/-- There are no other elements than those which the loop does not go over for an error. -/
theorem loop_total (hN : w.length ≤ N) (hfuel : w.length < fuel) (hat : t.At buffer w) (s : σ) :
    Parsed F n .elements w ∨ Faulty F n .elements w ∨
      ∃ e, elementsLoop (elementStep buffer value put) fuel t s = .error e ∧ Ordinary e := by
  induction fuel generalizing t s w with
  | zero => omega
  | succ fuel ih =>
    cases w with
    | nil => exact .inl .nil
    | cons bt w =>
      rcases cstring_cases w with hkey | ⟨key, w, hkey, rfl⟩
      · have hstep : Errs buffer (elementStep buffer value put s) Ordinary ([bt] ++ w) :=
          (reads_byte hbuf bt).bind_fails fun _ _ => (fails_cstring hkey).bind _
        exact .inr (.inr (elementsLoop_fails fuel hstep (cons_ne_nil _ _) hat))
      · simp only [length_cons, length_append] at hN hfuel
        rw [← cons_append] at hat ⊢
        rcases h.total bt w (by omega) with ⟨v, es, rfl, hv⟩ | hfaulty | hfails
        · rw [length_append] at hN hfuel
          rw [← append_assoc] at hat ⊢
          obtain ⟨s', t', -, hat', hloop⟩ := elementsLoop_append fuel
            (h.element_reads hbuf hkey hv (by omega) put s) (element_ne_nil _) hat
          rw [hloop]
          exact (ih (by omega) (by omega) hat' s').imp (.cons hkey hv) (Or.imp (.later hkey hv) id)
        · exact .inr (.inl (.here hkey hfaulty))
        · exact .inr (.inr (elementsLoop_fails fuel (element_fails hbuf hkey hfails put s)
            (element_ne_nil _) hat))

end Parses

end Uboss.Lib
