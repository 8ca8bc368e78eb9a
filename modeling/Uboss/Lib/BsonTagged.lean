import Uboss.Lib.BsonSafe

/-!
# Tagged strings

A string that begins with a zero and a type is written as a value of that type, and for most types
nothing is checked. What is written for it can be read if the bytes behind the type are those of a
value.
-/

namespace Uboss.Lib

open Math List Option Except

/-- An error that the writer raises. -/
def Raised (e : BsonError) : Prop := e ≠ .outside ∧ e ≠ .overflow

/-! ### Tagged strings -/

/-- What is written for the bytes behind a zero and a type. -/
def taggedPayload (subt : UInt8) (str : List UInt8) : Except BsonError (List UInt8) :=
  if subt = bsonBinary then .ok (leBytes 4 (str.length + 2 ^ 32 - 1) ++ str)
  else if subt = bsonObjectid then
    if str.length ≠ 12 then .error .invalidObjectId else .ok str
  else if subt = bsonJscode ∨ subt = bsonDbpointer ∨ subt = bsonSymbol ∨ subt = bsonCodews then
    .ok str
  else if subt = bsonDate then
    if str.length ≠ 4 then .error .invalidDate else .ok (leBytes 8 (leNat str * 1000))
  else if subt = bsonTimestamp then
    if str.length ≠ 8 then .error .invalidTimestamp else .ok str
  else if subt = bsonRegex then
    (regexParts str).elim (.error .outside) fun (pattern, options) =>
      .ok (pattern ++ [0] ++ (options ++ [0]))
  else if subt = bsonMinkey ∨ subt = bsonMaxkey ∨ subt = bsonNull then .ok []
  else .error (.invalidSubtype subt)

/-- The bytes behind a zero and a type are a value of this type: there is a subtype in front of
binary data, two strings in a regular expression, and the length in the data is the real one. -/
def WellTagged (subt : UInt8) (str : List UInt8) : Prop :=
  if subt = bsonBinary then str ≠ []
  else if subt = bsonRegex then ∃ pattern options : List UInt8, ∃ last,
    str = pattern ++ 0 :: (options ++ [last]) ∧ 0 ∉ pattern ∧ 0 ∉ options
  else ∀ n adjust, decodeLayout.sized subt = some (n, adjust) →
    4 ≤ str.length ∧ 4 + toInt32 (length32 (str.take 4) + adjust) = str.length

/-- What is written for a value can be read where so many documents may be inside each other, or an
error is raised. -/
def Sound (k : ℕ) (bt : UInt8) : Except BsonError (List UInt8) → Prop
  | .ok w => Parsed decodeLayout k (.value bt) w
  | .error e => Raised e

section Tagged

variable {subt : UInt8} {str w : List UInt8} {e : BsonError} {pack : DictPacker} {k : ℕ}

theorem regexParts_append {pattern options : List UInt8} (last : UInt8) (h : 0 ∉ options) :
    regexParts (pattern ++ 0 :: (options ++ [last])) = some (pattern, options) := by
  have hdrop : (pattern ++ 0 :: (options ++ [last])).dropLast = pattern ++ 0 :: options := by
    rw [← cons_append, ← append_assoc, dropLast_concat]
  have htake : ((pattern ++ 0 :: options).reverse.takeWhile (· ≠ 0)).reverse = options := by
    have hsplit : (pattern ++ 0 :: options).reverse = options.reverse ++ 0 :: pattern.reverse := by
      simp
    rw [hsplit, takeWhile_append_of_pos, takeWhile_cons_of_neg (by simp),
      append_nil, reverse_reverse]
    intro c hc
    exact decide_eq_true fun h0 => h (mem_reverse.mp (h0 ▸ hc))
  rw [regexParts, hdrop, if_neg (by simp)]
  simp only [htake, length_append, length_cons]
  rw [show pattern.length + (options.length + 1) - options.length - 1 = pattern.length by omega,
    take_left]

/-- A regular expression has a last zero that ends its pattern, or the writer looks for it in front
of the string. -/
theorem regexParts_cases (str : List UInt8) : regexParts str = none ∨
    ∃ pattern options last, 0 ∉ options ∧ str = pattern ++ 0 :: (options ++ [last]) := by
  by_cases h : str = [] ∨ 0 ∉ str.dropLast
  · exact .inl (if_pos h)
  · rw [not_or, not_not] at h
    obtain ⟨a, b, hrev, ha⟩ := eq_append_cons_of_mem (mem_reverse.mpr h.2)
    refine .inr ⟨b.reverse, a.reverse, str.getLast h.1, by simpa using ha, ?_⟩
    have hdrop : str.dropLast = b.reverse ++ 0 :: a.reverse := by
      rw [← reverse_reverse str.dropLast, hrev]
      simp
    rw [← cons_append, ← append_assoc, ← hdrop, dropLast_append_getLast]

theorem writes_writeBinary (str : List UInt8) :
    Writes 0 (fun b => writeBinary b str) (leBytes 4 (str.length + 2 ^ 32 - 1) ++ str) :=
  (writes_write str).patch (Nat.zero_le _) fun _ => str.length + 2 ^ 32 - 1

/-- What is written for a string that begins with a zero and a type. -/
theorem writes_appendTagged (h : taggedPayload subt str = .ok w) (key : List UInt8) :
    Writes 0 (fun b => appendTagged b key subt str) (subt :: (key ++ [0]) ++ w) := by
  unfold appendTagged
  refine Writes.keyed ?_ subt key
  rw [taggedPayload] at h
  split_ifs at h ⊢ with hbinary hobjectid hlen hcopied hdate hlen htimestamp hlen hregex hempty
  · exact ok.inj h ▸ writes_writeBinary str
  · exact ok.inj h ▸ writes_write str
  · exact ok.inj h ▸ writes_write str
  · exact ok.inj h ▸ writes_write _
  · obtain rfl := ok.inj h
    have hboth := (writes_write (str.take 4)).bind (writes_write (str.drop 4)) (Nat.zero_le _)
    rwa [take_append_drop] at hboth
  · rcases regexParts_cases str with hnone | ⟨pattern, options, last, hoptions, rfl⟩
    · rw [hnone] at h
      cases h
    · rw [regexParts_append last hoptions] at h ⊢
      obtain rfl := ok.inj h
      exact (writes_write _).bind (writes_write _) (Nat.zero_le _)
  · exact ok.inj h ▸ writes_ok

/-- Where the bytes are refused, this is after the name has been written. -/
theorem appendTagged_error (h : taggedPayload subt str = .error e) (b : Bson) (key : List UInt8) :
    appendTagged b key subt str = b.appendKey subt key >>= fun _ => .error e := by
  rw [appendTagged]
  refine congrArg (b.appendKey subt key >>= ·) (funext fun b => ?_)
  rw [taggedPayload] at h
  split_ifs at h ⊢ with hbinary hobjectid hlen hcopied hdate hlen htimestamp hlen hregex hempty
  · exact error.inj h ▸ rfl
  · exact error.inj h ▸ rfl
  · exact error.inj h ▸ rfl
  · rcases regexParts_cases str with hnone | ⟨pattern, options, last, hoptions, rfl⟩
    · rw [hnone] at h ⊢
      exact error.inj h ▸ rfl
    · rw [regexParts_append last hoptions] at h
      cases h
  · exact error.inj h ▸ rfl

/-! ### What is read of them -/

/-- A type of which a length in the data is followed has no other reader. -/
theorem parsed_sized_iff {bt : UInt8} {n : ℕ} {adjust : ℤ}
    (hF : decodeLayout.sized bt = some (n, adjust)) : Parsed decodeLayout k (.value bt) w ↔
    ∃ l s s', w = l ++ (s ++ s') ∧ l.length = 4 ∧ s.length = n ∧
      toInt32 (length32 l + adjust) = s'.length := by
  have hother : fixedSize bt = none ∧ decodeLayout.checked bt = false ∧
      decodeLayout.nested bt = false ∧ bt ≠ bsonRegex := by
    change (if bt = bsonBinary then _ else _) = _ at hF
    split_ifs at hF with hbinary hdbpointer hcopied hcodews
    · subst hbinary; decide
    · subst hdbpointer; decide
    · rcases hcopied with rfl | rfl <;> decide
    · subst hcodews; decide
  obtain ⟨hfixed, hchecked, hnested, hregex⟩ := hother
  constructor
  · intro h
    generalize hpart : Part.value bt = part at h
    cases h with
    | nil | cons => cases hpart
    | fixed h =>
      cases hpart
      rw [hfixed] at h
      cases h
    | checked h =>
      cases hpart
      rw [hchecked] at h
      cases h
    | nested h =>
      cases hpart
      rw [hnested] at h
      cases h
    | regex =>
      cases hpart
      exact absurd rfl hregex
    | @sized _ _ l s s' _ h hl hsize =>
      cases hpart
      obtain ⟨rfl, rfl⟩ := Prod.mk.inj (some.inj (hF.symm.trans h))
      exact ⟨l, s, s', rfl, hl, rfl, hsize⟩
  · rintro ⟨l, s, s', rfl, hl, rfl, hsize⟩
    exact .sized hF hl hsize

theorem length_of_fixed {bt : UInt8} {n : ℕ} (hfixed : fixedSize bt = some n)
    (h : Parsed decodeLayout k (.value bt) w) : w.length = n := by
  have hother : decodeLayout.sized bt = none ∧ decodeLayout.checked bt = false ∧
      decodeLayout.nested bt = false ∧ bt ≠ bsonRegex := by
    have hmem := fixed_types hfixed
    simp only [mem_cons, not_mem_nil, or_false] at hmem
    rcases hmem with rfl | rfl | rfl | rfl | rfl | rfl | rfl | rfl | rfl | rfl <;> decide
  obtain ⟨hsized, hchecked, hnested, hregex⟩ := hother
  generalize hpart : Part.value bt = part at h
  cases h with
  | nil | cons => cases hpart
  | fixed h =>
    cases hpart
    exact some.inj (h.symm.trans hfixed)
  | checked h =>
    cases hpart
    rw [hchecked] at h
    cases h
  | nested h =>
    cases hpart
    rw [hnested] at h
    cases h
  | regex =>
    cases hpart
    exact absurd rfl hregex
  | sized h =>
    cases hpart
    rw [hsized] at h
    cases h

theorem parsed_regex_iff : Parsed decodeLayout k (.value bsonRegex) w ↔
    ∃ a b, w = a ++ [0] ++ (b ++ [0]) ∧ 0 ∉ a ∧ 0 ∉ b := by
  constructor
  · intro h
    generalize hpart : Part.value bsonRegex = part at h
    cases h with
    | nil | cons => cases hpart
    | fixed h | checked h | nested h | sized h =>
      cases hpart
      cases h
    | @regex _ a b ha hb => exact ⟨a, b, rfl, ha, hb⟩
  · rintro ⟨a, b, rfl, ha, hb⟩
    exact .regex ha hb

/-- The length that is written for binary data is read, unless there is no subtype in front. -/
theorem sound_binary (hlen : str.length ≤ 2 ^ 30) :
    Sound k bsonBinary (taggedPayload bsonBinary str) ↔ str ≠ [] := by
  change Parsed decodeLayout k (.value bsonBinary) (leBytes 4 (str.length + 2 ^ 32 - 1) ++ str) ↔ _
  have hF : decodeLayout.sized bsonBinary = some (1, 0) := rfl
  rw [parsed_sized_iff hF]
  constructor
  · rintro ⟨l, s, s', hw, hl, hs, -⟩ rfl
    have htotal := congrArg List.length hw
    simp only [length_append, length_leBytes, length_nil] at htotal
    omega
  · intro hne
    obtain ⟨subtype, rest, rfl⟩ := exists_cons_of_ne_nil hne
    rw [length_cons] at hlen
    refine ⟨_, [subtype], rest, rfl, length_leBytes, rfl, ?_⟩
    have hlength : (subtype :: rest).length + 2 ^ 32 - 1 = rest.length + 2 ^ 32 := by
      rw [length_cons]
      omega
    have hread : toInt32 rest.length = rest.length := toInt32_eq (by omega) (by omega)
    rw [hlength, add_zero, length32, leNat_leBytes, Nat.add_mod_right,
      Nat.mod_eq_of_lt (by omega), hread, hread]

theorem sound_regex : Sound k bsonRegex (taggedPayload bsonRegex str) ↔
    ∃ pattern options : List UInt8, ∃ last,
      str = pattern ++ 0 :: (options ++ [last]) ∧ 0 ∉ pattern ∧ 0 ∉ options := by
  have htagged : taggedPayload bsonRegex str = (regexParts str).elim (.error .outside)
      fun (pattern, options) => .ok (pattern ++ [0] ++ (options ++ [0])) := rfl
  rw [htagged]
  rcases regexParts_cases str with hnone | ⟨pattern, options, last, hoptions, rfl⟩
  · rw [hnone]
    refine iff_of_false (fun h => h.1 rfl) ?_
    rintro ⟨pattern, options, last, rfl, -, hoptions⟩
    rw [regexParts_append last hoptions] at hnone
    cases hnone
  · -- no zero behind the last one: the strings that are read are those that were written
    have hsame {a b : List UInt8} (ha : 0 ∉ a) (hb : 0 ∉ b)
        (heq : pattern ++ 0 :: options = a ++ 0 :: b) : 0 ∉ pattern := by
      obtain ⟨rfl, -⟩ := (append_cons_inj_of_notMem ha hb).mp heq.symm
      exact ha
    rw [regexParts_append last hoptions]
    constructor
    · intro h
      obtain ⟨a, b, hw, ha, hb⟩ := parsed_regex_iff.mp h
      rw [← append_assoc, ← append_assoc] at hw
      have heq := append_cancel_right hw
      rw [append_assoc, append_assoc] at heq
      exact ⟨pattern, options, last, rfl, hsame ha hb heq, hoptions⟩
    · rintro ⟨pattern', options', last', heq, hpattern, hoptions'⟩
      rw [← cons_append, ← cons_append, ← append_assoc, ← append_assoc] at heq
      have hinit := append_inj_left' heq rfl
      exact parsed_regex_iff.mpr ⟨pattern, options, rfl, hsame hpattern hoptions' hinit, hoptions⟩

/-- The types that are copied are read back if the length in them is the real one. -/
theorem sound_copied {n : ℕ} {adjust : ℤ} (hbinary : subt ≠ bsonBinary)
    (hF : decodeLayout.sized subt = some (n, adjust)) :
    Sound k subt (taggedPayload subt str) ↔
      4 ≤ str.length ∧ 4 + toInt32 (length32 (str.take 4) + adjust) = str.length := by
  have hcopied : (subt = bsonJscode ∨ subt = bsonDbpointer ∨ subt = bsonSymbol ∨
      subt = bsonCodews) ∧ n = 0 := by
    change (if subt = bsonBinary then _ else _) = _ at hF
    rw [if_neg hbinary] at hF
    split_ifs at hF with hdbpointer hjscode hcodews
    · exact ⟨.inr (.inl hdbpointer), (congrArg Prod.fst (some.inj hF)).symm⟩
    · exact ⟨hjscode.imp id fun h => .inr (.inl h), (congrArg Prod.fst (some.inj hF)).symm⟩
    · exact ⟨.inr (.inr (.inr hcodews)), (congrArg Prod.fst (some.inj hF)).symm⟩
  obtain ⟨hcopied, rfl⟩ := hcopied
  have htagged : taggedPayload subt str = .ok str := by
    rcases hcopied with rfl | rfl | rfl | rfl <;> rfl
  rw [htagged, Sound, parsed_sized_iff hF]
  constructor
  · rintro ⟨l, s, s', rfl, hl, hs, hsize⟩
    obtain rfl := length_eq_zero_iff.mp hs
    rw [nil_append, take_left' hl, hsize, length_append, hl]
    exact ⟨Nat.le_add_right .., by omega⟩
  · rintro ⟨hlen, hsize⟩
    refine ⟨str.take 4, [], str.drop 4, ?_, length_take_of_le hlen, rfl, ?_⟩
    · rw [nil_append, take_append_drop]
    · rw [length_drop]
      omega

/-- The other types have values of a fixed size, which is checked. -/
theorem sound_checked (hbinary : subt ≠ bsonBinary) (hregex : subt ≠ bsonRegex)
    (hF : decodeLayout.sized subt = none) : Sound k subt (taggedPayload subt str) := by
  have hcopied : ¬(subt = bsonJscode ∨ subt = bsonDbpointer ∨ subt = bsonSymbol ∨
      subt = bsonCodews) := by
    rintro (rfl | rfl | rfl | rfl) <;> cases hF
  rw [taggedPayload, if_neg hbinary, if_neg hcopied, if_neg hregex]
  split_ifs with hobjectid hlen hdate hlen htimestamp hlen hempty
  · simp [Sound, Raised]
  · subst hobjectid
    exact .fixed (by rw [not_not.mp hlen]; rfl)
  · simp [Sound, Raised]
  · subst hdate
    exact .fixed (by rw [length_leBytes]; rfl)
  · simp [Sound, Raised]
  · subst htimestamp
    exact .fixed (by rw [not_not.mp hlen]; rfl)
  · rcases hempty with rfl | rfl | rfl <;> exact .fixed rfl
  · simp [Sound, Raised]

/-- What is written for a tagged string can be read, or an error is raised, if and only if the
string is well tagged. -/
theorem tagged_iff (hlen : ∀ w, taggedPayload subt str = .ok w → w.length ≤ 2 ^ 30) :
    Sound k subt (taggedPayload subt str) ↔ WellTagged subt str := by
  by_cases hbinary : subt = bsonBinary
  · subst hbinary
    have hle := hlen _ rfl
    rw [length_append] at hle
    exact sound_binary (by omega)
  by_cases hregex : subt = bsonRegex
  · subst hregex
    exact sound_regex
  rw [WellTagged, if_neg hbinary, if_neg hregex]
  cases hF : decodeLayout.sized subt with
  | none => exact iff_of_true (sound_checked hbinary hregex hF) nofun
  | some p =>
    rw [sound_copied hbinary hF]
    constructor
    · rintro h n adjust heq
      obtain rfl := some.inj heq
      exact h
    · exact fun h => h p.1 p.2 rfl

end Tagged

/-! ### Scalars -/

/-- The type that is written for a scalar. -/
def scalarType : LuaScalar → UInt8
  | .string (0 :: subt :: _) => subt
  | .lightuserdata _ => bsonDocument
  | s => bsonType (.scalar s)

/-- The bytes that are written for a scalar. -/
def scalarPayload (block : UserBlock) : LuaScalar → Except BsonError (List UInt8)
  | .string (0 :: subt :: str) => taggedPayload subt str
  | .lightuserdata p => (block p).elim (.error .invalidValueType) userDocument
  | s => .ok (payload (.scalar s))

/-- A plain string, or one that is well tagged. -/
def WellFormed : List UInt8 → Prop
  | 0 :: subt :: str => WellTagged subt str
  | _ => True

/-- The memory of a userdata begins with a document that the decoder goes over. -/
def WellCopied (k : ℕ) (doc : List UInt8) : Prop :=
  ∃ w, userDocument doc = .ok w ∧ Parsed decodeLayout k (.value bsonDocument) w

/-- What is written for the scalar can be read where so many documents may be inside each other. -/
def SoundScalar (block : UserBlock) (k : ℕ) : LuaScalar → Prop
  | .string str => WellFormed str
  | .lightuserdata p => ∀ doc, block p = some doc → WellCopied k doc
  | _ => True

section Scalar

variable {block : UserBlock} {pack : DictPacker} {s : LuaScalar} {str w : List UInt8}
  {e : BsonError} {k : ℕ}

theorem tagged_or_plain (str : List UInt8) :
    (∃ subt rest, str = 0 :: subt :: rest) ∨ ∀ subt rest, str ≠ 0 :: subt :: rest := by
  by_cases h : ∃ subt rest, str = 0 :: subt :: rest
  · exact .inl h
  · exact .inr fun subt rest heq => h ⟨subt, rest, heq⟩

theorem scalar_plain (block : UserBlock) (h : ∀ subt rest, str ≠ 0 :: subt :: rest) :
    scalarType (.string str) = bsonString ∧
      scalarPayload block (.string str) = .ok (payload (.scalar (.string str))) := by
  constructor
  · rw [scalarType]
    · rfl
    · exact fun subt rest heq => h subt rest (LuaScalar.string.inj heq)
    · exact nofun
  · rw [scalarPayload]
    · exact fun subt rest heq => h subt rest (LuaScalar.string.inj heq)
    · exact nofun

/-- What becomes of a userdata depends on its memory. -/
theorem appendOne_userdata (block : UserBlock) (pack : DictPacker) (b : Bson) (key : List UInt8)
    (p : UInt64) : appendOne block pack b key (.scalar (.lightuserdata p)) =
      (block p).elim (.error .invalidValueType) fun doc =>
        b.appendKey bsonDocument key >>= fun b => userDocument doc >>= b.write := by
  rw [appendOne]
  cases block p <;> rfl

/-- What is written for a scalar. -/
theorem writes_scalar (h : scalarPayload block s = .ok w) (key : List UInt8) :
    Writes 0 (fun b => appendOne block pack b key (.scalar s))
      (scalarType s :: (key ++ [0]) ++ w) := by
  cases s with
  | integer i => exact ok.inj h ▸ appends_integer i key
  | real d => exact ok.inj h ▸ appends_real d key
  | boolean v => exact ok.inj h ▸ appends_boolean v key
  | lightuserdata p =>
    cases hblock : block p with
    | none =>
      rw [scalarPayload, hblock] at h
      cases h
    | some doc =>
      rw [scalarPayload, hblock] at h
      change userDocument doc = .ok w at h
      have hcopy : ∀ b, appendOne block pack b key (.scalar (.lightuserdata p)) =
          b.appendKey bsonDocument key >>= fun b => b.write w := fun b => by
        rw [appendOne_userdata, hblock, elim_some, h]
        rfl
      rw [funext hcopy]
      exact (writes_write w).keyed bsonDocument key
  | string str =>
    rcases tagged_or_plain str with ⟨subt, rest, rfl⟩ | hplain
    · exact writes_appendTagged h key
    · obtain ⟨htype, hpayload⟩ := scalar_plain block hplain
      rw [hpayload, payload] at h
      rw [htype, funext fun b => appendOne_plain hplain b key, ← ok.inj h]
      exact writes_appendString key str

theorem taggedPayload_error_ne (h : taggedPayload subt str = .error e) : e ≠ .invalidValueType := by
  rw [taggedPayload] at h
  split_ifs at h
  · exact error.inj h ▸ nofun
  · exact error.inj h ▸ nofun
  · exact error.inj h ▸ nofun
  · cases hparts : regexParts str with
    | none =>
      rw [hparts] at h
      exact error.inj h ▸ nofun
    | some parts =>
      rw [hparts] at h
      cases h
  · exact error.inj h ▸ nofun

theorem userDocument_error {doc : List UInt8} (h : userDocument doc = .error e) : e = .outside := by
  rw [userDocument] at h
  split_ifs at h
  exact (error.inj h).symm

/-- A scalar is refused for its type before its name is written, and for its bytes afterwards. -/
theorem appendOne_error (pack : DictPacker) (h : scalarPayload block s = .error e)
    (key : List UInt8) :
    e = .invalidValueType ∧ (∀ b, appendOne block pack b key (.scalar s) = .error e) ∨
      e ≠ .invalidValueType ∧ ∀ b, appendOne block pack b key (.scalar s) =
        b.appendKey (scalarType s) key >>= fun _ => .error e := by
  cases s with
  | integer | real | boolean => cases h
  | lightuserdata p =>
    cases hblock : block p with
    | none =>
      rw [scalarPayload, hblock] at h
      obtain rfl := error.inj h
      exact .inl ⟨rfl, fun b => by rw [appendOne_userdata, hblock]; rfl⟩
    | some doc =>
      rw [scalarPayload, hblock] at h
      change userDocument doc = .error e at h
      exact .inr ⟨userDocument_error h ▸ nofun,
        fun b => by rw [appendOne_userdata, hblock, elim_some, h]; rfl⟩
  | string str =>
    rcases tagged_or_plain str with ⟨subt, rest, rfl⟩ | hplain
    · exact .inr ⟨taggedPayload_error_ne h, fun b => appendTagged_error h b key⟩
    · rw [(scalar_plain block hplain).2] at h
      cases h

theorem sound_userdata {p : UInt64} :
    Sound k bsonDocument (scalarPayload block (.lightuserdata p)) ↔
      SoundScalar block k (.lightuserdata p) := by
  rw [scalarPayload, SoundScalar]
  cases block p with
  | none => exact iff_of_true ⟨by decide, by decide⟩ nofun
  | some doc =>
    have hwell : (∀ doc', some doc = some doc' → WellCopied k doc') ↔ WellCopied k doc :=
      ⟨fun h => h doc rfl, fun h doc' heq => some.inj heq ▸ h⟩
    rw [hwell, WellCopied, elim_some]
    cases hcopy : userDocument doc with
    | ok w => exact ⟨fun h => ⟨w, rfl, h⟩, fun ⟨w', heq, h⟩ => ok.inj heq ▸ h⟩
    | error e =>
      exact iff_of_false (fun h => h.1 (userDocument_error hcopy)) nofun

theorem sound_plain (hlen : (payload (.scalar (.string str))).length ≤ 2 ^ 30) :
    Sound k bsonString (.ok (payload (.scalar (.string str)))) := by
  rw [payload, length_append, length_append, length_singleton] at hlen
  rw [payload]
  refine .checked rfl length_leBytes ?_ (by simp)
  rw [length32_leBytes (by omega), length_append, length_singleton]

/-- What is written for a scalar can be read, or an error is raised, if and only if its string is
well formed, or a document is in its memory. -/
theorem sound_scalar (hlen : ∀ w, scalarPayload block s = .ok w → w.length ≤ 2 ^ 30) :
    Sound k (scalarType s) (scalarPayload block s) ↔ SoundScalar block k s := by
  cases s with
  | integer i =>
    refine iff_of_true (.fixed ?_) trivial
    rw [payload, length_leBytes, scalarType, bsonType]
    · split_ifs <;> rfl
    · rintro - - ⟨⟩
    · rintro - ⟨⟩
  | real d =>
    refine iff_of_true (.fixed ?_) trivial
    rw [payload, length_leBytes]
    rfl
  | boolean v => exact iff_of_true (.fixed rfl) trivial
  | lightuserdata => exact sound_userdata
  | string str =>
    rcases tagged_or_plain str with ⟨subt, rest, rfl⟩ | hplain
    · exact tagged_iff hlen
    · obtain ⟨htype, hpayload⟩ := scalar_plain block hplain
      rw [htype, hpayload]
      refine iff_of_true (sound_plain (hlen _ hpayload)) ?_
      rw [SoundScalar, WellFormed]
      · trivial
      · exact hplain

end Scalar

/-! ### Elements -/

/-- An element of a document: its type, its name, and the bytes of its value. -/
structure BsonField where
  type : UInt8
  name : List UInt8
  value : List UInt8

/-- The bytes of an element. -/
def BsonField.bytes (f : BsonField) : List UInt8 := f.type :: (f.name ++ [0]) ++ f.value

/-- A reader goes over the element, where so many documents may be inside each other. -/
def BsonField.ReadableWithin (F : Layout) (k : ℕ) (f : BsonField) : Prop :=
  0 ∉ f.name ∧ Parsed F k (.value f.type) f.value

/-- A reader with room enough goes over the element. -/
def BsonField.Readable (F : Layout) (f : BsonField) : Prop := ∃ k, f.ReadableWithin F k

/-- The bytes are so many elements that the decoder goes over. -/
def HasFields (k n : ℕ) (w : List UInt8) : Prop := ∃ fields : List BsonField, fields.length = n ∧
    (∀ f ∈ fields, f.ReadableWithin decodeLayout k) ∧ w = fields.flatMap BsonField.bytes

theorem parsed_fields {F : Layout} {k : ℕ} {fields : List BsonField}
    (h : ∀ f ∈ fields, f.ReadableWithin F k) :
    Parsed F k .elements (fields.flatMap BsonField.bytes) := by
  induction fields with
  | nil => exact .nil
  | cons f fields ih =>
    obtain ⟨⟨hname, hvalue⟩, hfields⟩ := forall_mem_cons.mp h
    exact .cons hname hvalue (ih hfields)

end Uboss.Lib
