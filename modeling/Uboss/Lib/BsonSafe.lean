import Uboss.Lib.BsonForward

/-!
# Documents that are decoded safely

A document with its real length in front is decoded and indexed without a read outside it, and
without going backwards, unless a reader comes to a length that is negative after it was adjusted.
The decoder also needs room on its stack for the documents that are inside each other.
-/

namespace Uboss.Lib

open Math List Nat

/-- A result of a function that has ended, without a read outside the document, and that the stack
was large enough for. -/
def Settled {α : Type} (r : Except BsonError α) : Prop := ∀ e, r = .error e → Ordinary e

/-- On a stack with room for so many calls of `unpack_dict`, the document is decoded, or an error is
raised, in no more rounds than it has bytes; no byte outside it is read, and no reader goes
backwards. -/
def DecodesSafely (stack : ℕ) (buffer : List UInt8) : Prop :=
  ∀ fuel, buffer.length < fuel → Settled (ldecodeWithin buffer stack fuel) ∧
    ldecodeWith buffer forwardBytes stack fuel = ldecodeWithin buffer stack fuel

/-- The same for the index, which needs no stack. -/
def IndexesSafely (buffer : List UInt8) : Prop :=
  ∀ fuel, buffer.length < fuel → Settled (lmakeindex buffer fuel) ∧
    lmakeindexWith buffer forwardBytes fuel = lmakeindex buffer fuel

/-! ### Documents -/

/-- The value that is read from some bytes, wherever they are, if there is so much room. -/
def UnpackedAs (n : ℕ) (bt : UInt8) (v : List UInt8) (val : LuaValue Unit) : Prop :=
  ∀ buffer fuel stack, buffer.length < 2 ^ 31 → v.length < fuel → n ≤ stack → Reads buffer
      (unpackValueWith buffer forwardBytes (unpackDictWith buffer forwardBytes fuel stack) bt)
      (· = val) v

/-- The loop of `unpack_dict`. -/
def dictLoop (buffer : List UInt8) (fuel stack : ℕ) (array : Bool) :
    ℕ → BsonReader → LuaEntries Unit → Except BsonError (LuaEntries Unit) :=
  elementsLoop (elementStep buffer
    (unpackValueWith buffer forwardBytes (unpackDictWith buffer forwardBytes fuel stack))
    (unpackPut array))

/-- What the loop makes of some bytes, wherever they are, if there is so much room. -/
def LoopedAs (n : ℕ) (array : Bool) (w : List UInt8) (f : LuaEntries Unit → LuaEntries Unit) :
    Prop :=
  ∀ buffer fuel stack rounds t es, buffer.length < 2 ^ 31 → w.length < fuel → n ≤ stack →
    w.length < rounds → t.At buffer w → dictLoop buffer fuel stack array rounds t es = .ok (f es)

section Documents

variable {bt : UInt8} {key v w l es : List UInt8} {val : LuaValue Unit} {array : Bool}
  {f : LuaEntries Unit → LuaEntries Unit} {n : ℕ}

theorem UnpackedAs.mono (h : UnpackedAs n bt v val) {m : ℕ} (hm : n ≤ m) :
    UnpackedAs m bt v val := fun buffer fuel stack hbuf hfuel hstack =>
  h buffer fuel stack hbuf hfuel (hm.trans hstack)

theorem loopedAs_nil (n : ℕ) (array : Bool) : LoopedAs n array [] id := by
  intro buffer fuel stack rounds t es _ _ _ hrounds hat
  obtain ⟨rounds, rfl⟩ : ∃ m, rounds = m + 1 := ⟨rounds - 1, by omega⟩
  exact elementsLoop_nil hat

theorem UnpackedAs.cons (hkey : 0 ∉ key) (hv : UnpackedAs n bt v val)
    (hes : LoopedAs n array es f) : LoopedAs n array ((bt :: (key ++ [0]) ++ v) ++ es)
      fun entries => f (setKey entries (elementKey array key) val) := by
  intro buffer fuel stack rounds t entries hbuf hfuel hstack hrounds hat
  obtain ⟨rounds, rfl⟩ : ∃ m, rounds = m + 1 := ⟨rounds - 1, by omega⟩
  simp only [length_append, length_cons] at hfuel hrounds
  have hstep : Reads buffer (elementStep buffer
      (unpackValueWith buffer forwardBytes (unpackDictWith buffer forwardBytes fuel stack))
      (unpackPut array) entries) (· = setKey entries (elementKey array key) val)
      ([bt] ++ ((key ++ [0]) ++ (v ++ []))) := by
    refine (reads_byte hbuf bt).bind fun _ hbt => (reads_cstring hbuf hkey).bind fun _ hk => ?_
    subst hbt hk
    exact (hv buffer fuel stack hbuf (by omega) hstack).bind fun _ hval =>
      Reads.pure (by rw [hval]; rfl)
  have hbytes : [bt] ++ ((key ++ [0]) ++ (v ++ [])) = bt :: (key ++ [0]) ++ v := by simp
  rw [hbytes] at hstep
  obtain ⟨_, t', rfl, hat', hloop⟩ := elementsLoop_append rounds hstep (Parses.element_ne_nil _) hat
  exact hloop.trans (hes buffer fuel stack rounds t' _ hbuf (by omega) hstack (by omega) hat')

theorem reads_lift {α : Type} {buffer : List UInt8} {x : Except BsonError α} {a : α}
    (h : x = .ok a) : Reads buffer (liftM x) (· = a) [] := by
  intro br _ hat
  subst h
  exact ⟨a, br, rfl, rfl, hat⟩

theorem fails_lift {α : Type} {buffer : List UInt8} {x : Except BsonError α}
    {E : BsonError → Prop} (h : ∃ e, x = .error e ∧ E e) : Errs buffer (liftM x) E w := by
  obtain ⟨e, rfl, hE⟩ := h
  exact fun _ _ => ⟨e, rfl, hE⟩

theorem unpackValueWith_of_nested (buffer : List UInt8) (advance : ℤ → BsonRead ℤ)
    (unpack : Bool → BsonRead (LuaValue Unit)) (hbt : decodeLayout.nested bt) :
    unpackValueWith buffer advance unpack bt = unpack (bt = bsonArray) := by
  rcases of_decide_eq_true hbt with rfl | rfl <;> rfl

theorem reads_dict {buffer : List UInt8} {fuel stack : ℕ} (hbuf : buffer.length < 2 ^ 31)
    (hfuel : es.length < fuel) (hstack : n ≤ stack) (hl : l.length = 4)
    (hsize : toInt32 (length32 l - 5) = es.length) (hes : LoopedAs n array es f) :
    Reads buffer (unpackDictWith buffer forwardBytes fuel (stack + 1) array)
      (· = .table () (f [])) (l ++ (es ++ [0])) := by
  have hreads : Reads buffer (unpackDictWith buffer forwardBytes fuel (stack + 1) array)
      (· = .table () (f [])) (l ++ (es ++ ([0] ++ ([] ++ [])))) := by
    rw [unpackDictWith]
    refine (reads_length32 hbuf hl).bind fun sz hsz => ?_
    rw [hsz, hsize]
    refine (reads_forward hbuf es).bind fun bytes hwindow => (reads_byte hbuf 0).bind fun _ h => ?_
    rw [if_neg (not_not.mpr h)]
    exact (reads_lift (hes buffer fuel stack _ _ _ hbuf hfuel hstack hfuel hwindow)).bind
      fun _ h => Reads.pure (by rw [h])
  simpa using hreads

theorem unpackedAs_nested (hbt : decodeLayout.nested bt) (hl : l.length = 4)
    (hsize : toInt32 (length32 l - 5) = es.length) (hes : LoopedAs n (bt = bsonArray) es f) :
    UnpackedAs (n + 1) bt (l ++ (es ++ [0])) (.table () (f [])) := by
  intro buffer fuel stack hbuf hfuel hstack
  simp only [length_append] at hfuel
  obtain ⟨stack, rfl⟩ : ∃ m, stack = m + 1 := ⟨stack - 1, by omega⟩
  rw [unpackValueWith_of_nested _ _ _ hbt]
  exact reads_dict hbuf (by omega) (by omega) hl hsize hes

/-- The value that is read from some bytes is the same wherever they are. -/
theorem Parsed.unpack {part : Part} (h : Parsed decodeLayout n part w) :
    match part with
    | .value bt => ∃ val, UnpackedAs n bt w val
    | .elements => ∀ array, ∃ f, LoopedAs n array w f := by
  induction h with
  | fixed hfixed => exact ⟨_, fun _ _ _ hbuf _ _ => unpack_fixed hbuf hfixed⟩
  | @checked n bt l s hbt hl hsize hs =>
    obtain rfl : bt = bsonString := of_decide_eq_true hbt
    exact ⟨_, fun _ _ _ hbuf _ _ => unpack_checked hbuf hl hsize hs⟩
  | sized hF hl hsize => exact ⟨_, fun _ _ _ hbuf _ _ => unpack_sized hbuf hF hl hsize⟩
  | regex ha hb => exact ⟨_, fun _ _ _ hbuf _ _ => reads_regex hbuf ha hb _⟩
  | @nested n bt l es hbt hl hsize _ ih =>
    obtain ⟨f, hf⟩ := ih (bt = bsonArray)
    exact ⟨_, unpackedAs_nested hbt hl hsize hf⟩
  | @nil n => exact fun array => ⟨id, loopedAs_nil n array⟩
  | cons hkey _ _ ihv ihes =>
    intro array
    obtain ⟨val, hval⟩ := ihv
    obtain ⟨f, hf⟩ := ihes array
    exact ⟨_, hval.cons hkey hf⟩

section Dict

variable {buffer : List UInt8} {fuel stack : ℕ} (hbuf : buffer.length < 2 ^ 31)
include hbuf

omit hbuf in
theorem dict_short (hw : w.length < 4) :
    Errs buffer (unpackDictWith buffer forwardBytes fuel (stack + 1) array) Ordinary w := by
  rw [unpackDictWith]
  exact (fails_int32 hw).bind _

theorem dict_backwards (hl : l.length = 4) (hneg : toInt32 (length32 l - 5) < 0) :
    Errs buffer (unpackDictWith buffer forwardBytes fuel (stack + 1) array) (¬ Ordinary ·)
      (l ++ w) := by
  rw [unpackDictWith]
  refine (reads_length32 hbuf hl).bind_fails fun sz hsz => ?_
  rw [hsz]
  exact (fails_forward hneg).bind _

theorem dict_far (hl : l.length = 4) (hfar : (w.length : ℤ) < toInt32 (length32 l - 5)) :
    Errs buffer (unpackDictWith buffer forwardBytes fuel (stack + 1) array) Ordinary (l ++ w) := by
  rw [unpackDictWith]
  refine (reads_length32 hbuf hl).bind_fails fun sz hsz => ?_
  rw [hsz]
  exact (fails_forward_far hfar).bind _

theorem dict_unended (hl : l.length = 4) (hsize : toInt32 (length32 l - 5) = es.length)
    (hend : w.head? ≠ some 0) :
    Errs buffer (unpackDictWith buffer forwardBytes fuel (stack + 1) array) Ordinary
      (l ++ (es ++ w)) := by
  rw [unpackDictWith]
  refine (reads_length32 hbuf hl).bind_fails fun sz hsz => ?_
  rw [hsz, hsize]
  refine (reads_forward hbuf es).bind_fails fun bytes _ => ?_
  cases w with
  | nil => exact fails_byte.bind _
  | cons c w =>
    change Errs buffer _ Ordinary ([c] ++ w)
    refine (reads_byte hbuf c).bind_fails fun last h => ?_
    subst h
    rw [if_pos fun h => hend (congrArg some h)]
    exact fails_throw (by simp [Ordinary])

theorem dict_loop {E : BsonError → Prop} (hl : l.length = 4)
    (hsize : toInt32 (length32 l - 5) = es.length)
    (hloop : ∀ t, t.At buffer es →
      ∃ e, dictLoop buffer fuel stack array fuel t [] = .error e ∧ E e) :
    Errs buffer (unpackDictWith buffer forwardBytes fuel (stack + 1) array) E
      (l ++ (es ++ ([0] ++ w))) := by
  rw [unpackDictWith]
  refine (reads_length32 hbuf hl).bind_fails fun sz hsz => ?_
  rw [hsz, hsize]
  refine (reads_forward hbuf es).bind_fails fun bytes hwindow =>
    (reads_byte hbuf 0).bind_fails fun last h => ?_
  rw [if_neg (not_not.mpr h)]
  exact (fails_lift (hloop _ hwindow)).bind _

theorem dict_total (h : Parses decodeLayout stack fuel buffer
      (unpackValueWith buffer forwardBytes (unpackDictWith buffer forwardBytes fuel stack)))
    (hbt : decodeLayout.nested bt) (hw : w.length < fuel) :
    (∃ v rest, w = v ++ rest ∧ Parsed decodeLayout (stack + 1) (.value bt) v) ∨
      Faulty decodeLayout (stack + 1) (.value bt) w ∨
      Errs buffer (unpackDictWith buffer forwardBytes fuel (stack + 1) array) Ordinary w := by
  rcases split_cases 4 w with hshort | ⟨l, w, rfl, hl⟩
  · exact .inr (.inr (dict_short hshort))
  rcases lt_or_ge (toInt32 (length32 l - 5)) 0 with hneg | hpos
  · exact .inr (.inl (.nested hbt hl hneg))
  rcases split_cases (toInt32 (length32 l - 5)).toNat w with hshort | ⟨es, w, rfl, hes⟩
  · exact .inr (.inr (dict_far hbuf hl (by omega)))
  have hsize : toInt32 (length32 l - 5) = es.length := by omega
  by_cases hend : w.head? = some 0
  · obtain ⟨w, rfl⟩ : ∃ w', w = 0 :: w' := head?_eq_some_iff.mp hend
    have hbytes : l ++ (es ++ 0 :: w) = l ++ (es ++ [0]) ++ w := by simp
    by_cases hparsed : Parsed decodeLayout stack .elements es
    · exact .inl ⟨_, w, hbytes, .nested hbt hl hsize hparsed⟩
    by_cases hfaulty : Faulty decodeLayout stack .elements es
    · exact .inr (.inl (hbytes ▸ .inside hbt hl hsize hfaulty))
    simp only [length_append] at hw
    refine .inr (.inr (dict_loop hbuf hl hsize fun t hat => ?_))
    exact ((h.loop_total hbuf (by omega) (by omega) hat []).resolve_left hparsed).resolve_left
      hfaulty
  · exact .inr (.inr (dict_unended hbuf hl hsize hend))

end Dict

theorem fails_deep (buffer : List UInt8) (fuel : ℕ) (hbt : decodeLayout.nested bt) :
    Errs buffer (unpackValueWith buffer forwardBytes (unpackDictWith buffer forwardBytes fuel 0) bt)
      (¬ Ordinary ·) w := by
  rw [unpackValueWith_of_nested _ _ _ hbt]
  exact fun _ _ => ⟨.stackOverflow, rfl, fun h => h.2.2 rfl⟩

theorem reads_parsed {buffer : List UInt8} (hbuf : buffer.length < 2 ^ 31) {fuel : ℕ}
    (h : Parsed decodeLayout n (.value bt) v) (hv : v.length < fuel) : Reads buffer
      (unpackValueWith buffer forwardBytes (unpackDictWith buffer forwardBytes fuel n) bt)
      (fun _ => True) v := by
  have hunpack : ∃ val, UnpackedAs n bt v val := h.unpack
  obtain ⟨val, hval⟩ := hunpack
  exact (hval buffer fuel n hbuf hv le_rfl).mono fun _ _ => trivial

/-- Where no other document is read, it does not matter how that is done. -/
theorem value_total {buffer : List UInt8} (hbuf : buffer.length < 2 ^ 31)
    (unpack : Bool → BsonRead (LuaValue Unit)) (hnested : ¬ decodeLayout.nested bt) (n : ℕ)
    (w : List UInt8) :
    (∃ v rest, w = v ++ rest ∧ Parsed decodeLayout n (.value bt) v) ∨
      Faulty decodeLayout n (.value bt) w ∨
      Errs buffer (unpackValueWith buffer forwardBytes unpack bt) Ordinary w := by
  cases hF : decodeLayout.sized bt with
  | some p => exact (skips_unpackValue hbuf hF).total hF n w
  | none =>
    by_cases hstring : bt = bsonString
    · subst hstring
      exact (string_total hbuf n w).imp id .inr
    by_cases hregex : bt = bsonRegex
    · subst hregex
      exact (regex_total hbuf n _ w).imp id .inr
    cases hfixed : fixedSize bt with
    | some size =>
      rcases split_cases size w with hshort | ⟨v, rest, rfl, rfl⟩
      · exact .inr (.inr (fixed_short hbuf hfixed hshort))
      · exact .inl ⟨v, rest, rfl, .fixed hfixed⟩
    | none =>
      rw [unpackValueWith_invalid hfixed hF hnested hstring hregex]
      exact .inr (.inr (fails_throw (by simp [Ordinary])))

/-- The decoder follows its layout. -/
theorem parses_unpack {buffer : List UInt8} (hbuf : buffer.length < 2 ^ 31) (stack fuel : ℕ) :
    Parses decodeLayout stack fuel buffer
      (unpackValueWith buffer forwardBytes (unpackDictWith buffer forwardBytes fuel stack)) := by
  induction stack with
  | zero =>
    refine ⟨fun hv h => reads_parsed hbuf h hv, fun hw h => ?_, fun bt w hw => ?_⟩
    · generalize hpart : Part.value _ = part at h
      cases h with
      | here | later => cases hpart
      | sized hF hl hneg =>
        cases hpart
        exact (skips_unpackValue hbuf hF).outside hl rfl hneg
      | deep hbt =>
        cases hpart
        exact fails_deep buffer fuel hbt
    · by_cases hnested : decodeLayout.nested bt
      · exact .inr (.inl (.deep hnested))
      · exact value_total hbuf _ hnested 0 w
  | succ stack ih =>
    refine ⟨fun hv h => reads_parsed hbuf h hv, fun hw h => ?_, fun bt w hw => ?_⟩
    · generalize hpart : Part.value _ = part at h
      cases h with
      | here | later => cases hpart
      | sized hF hl hneg =>
        cases hpart
        exact (skips_unpackValue hbuf hF).outside hl rfl hneg
      | nested hbt hl hneg =>
        cases hpart
        rw [unpackValueWith_of_nested _ _ _ hbt]
        exact dict_backwards hbuf hl hneg
      | inside hbt hl hsize hes =>
        cases hpart
        simp only [length_append] at hw
        rw [unpackValueWith_of_nested _ _ _ hbt, append_assoc, append_assoc]
        exact dict_loop hbuf hl hsize fun t hat =>
          ih.loop_faulty hbuf hes (by omega) (by omega) hat []
    · by_cases hnested : decodeLayout.nested bt
      · rw [unpackValueWith_of_nested _ _ _ hnested]
        exact dict_total hbuf ih hnested hw
      · exact value_total hbuf _ hnested (stack + 1) w

end Documents

/-! ### Buffers -/

/-- What `lmakeindex` reads: the document without its length and its last byte. -/
def body (buffer : List UInt8) : List UInt8 := (buffer.drop 4).dropLast

section Buffer

variable {buffer : List UInt8} (hlen : 5 ≤ buffer.length)
  (hreal : length32 (buffer.take 4) = buffer.length)

include hreal in
theorem length_lt_of_real : buffer.length < 2 ^ 31 := by
  have hlt := Int.bmod_lt (x := leNat (buffer.take 4)) (m := 2 ^ 32) (by decide)
  rw [length32, toInt32] at hreal
  omega

include hlen in
theorem memory_length : memory buffer 0 4 = .ok (buffer.take 4) := by
  rw [memory, if_neg (by decide), if_pos (by omega)]
  rfl

include hlen hreal

theorem ldecodeWith_eq (advance : ℤ → BsonRead ℤ) (stack fuel : ℕ) :
    ldecodeWith buffer advance stack fuel =
      (unpackValueWith buffer advance (unpackDictWith buffer advance fuel stack) bsonDocument
        ⟨0, buffer.length⟩).map Prod.fst := by
  rw [ldecodeWith_of_ok (memory_length hlen), unpackValueWith_of_nested _ _ _ rfl, ← hreal]
  rfl

theorem lmakeindexWith_eq (advance : ℤ → BsonRead ℤ) (fuel : ℕ) :
    lmakeindexWith buffer advance fuel =
      elementsLoop (elementStep buffer (indexValue buffer advance) indexPut) fuel
        ⟨4, (body buffer).length⟩ [] := by
  have hbuf := length_lt_of_real hreal
  have hbody : toInt32 (length32 (buffer.take 4) - 5) = (body buffer).length := by
    rw [hreal, toInt32_eq (by omega) (by omega), body, length_dropLast, length_drop]
    omega
  rw [lmakeindexWith, memory_length hlen, ← hbody]
  rfl

omit hlen hreal in
theorem at_buffer : BsonReader.At ⟨0, buffer.length⟩ buffer buffer := ⟨[], [], by simp, rfl, rfl⟩

omit hreal in
theorem at_body : BsonReader.At ⟨4, (body buffer).length⟩ buffer (body buffer) := by
  have hne : buffer.drop 4 ≠ [] := by
    rw [Ne, drop_eq_nil_iff]
    omega
  refine ⟨buffer.take 4, [(buffer.drop 4).getLast hne], ?_, ?_, rfl⟩
  · rw [body, append_assoc, dropLast_append_getLast, take_append_drop]
  · rw [length_take_of_le (by omega)]
    rfl

variable (stack : ℕ)

/-- A document is decoded safely if and only if the decoder does not come to a length that leads it
backwards, or to a document that is too deep. -/
theorem decodesSafely_iff :
    DecodesSafely stack buffer ↔ ¬ Faulty decodeLayout stack (.value bsonDocument) buffer := by
  have hbuf := length_lt_of_real hreal
  constructor
  · intro hsafe hfaulty
    obtain ⟨hsettled, heq⟩ := hsafe (buffer.length + 1) (lt_succ_self _)
    obtain ⟨e, he, hfault⟩ := (parses_unpack hbuf stack (buffer.length + 1)).faulty
      (lt_succ_self _) hfaulty ⟨0, buffer.length⟩ at_buffer
    rw [ldecodeWith_eq hlen hreal, he] at heq
    exact hfault (hsettled _ heq.symm)
  · intro hforward fuel hfuel
    have hresult : Settled (ldecodeWith buffer forwardBytes stack fuel) := by
      rw [ldecodeWith_eq hlen hreal]
      have hparses := parses_unpack hbuf stack fuel
      rcases hparses.total bsonDocument buffer hfuel with ⟨v, rest, heq, hv⟩ | h | hfails
      · have hv' : v.length < fuel := by
          have := congrArg List.length heq
          rw [length_append] at this
          omega
        obtain ⟨val, br, hok, -, -⟩ := hparses.reads hv' hv ⟨0, buffer.length⟩ rest
          (heq ▸ at_buffer)
        rw [hok]
        exact fun e he => nomatch he
      · exact absurd h hforward
      · obtain ⟨e, he, hordinary⟩ := hfails _ at_buffer
        rw [he]
        rintro _ ⟨rfl⟩
        exact hordinary
    have heq := ldecodeWithin_eq fun h => (hresult _ h).1 rfl
    exact ⟨heq ▸ hresult, heq⟩

theorem indexesSafely_iff :
    IndexesSafely buffer ↔ ¬ Faulty indexLayout 0 .elements (body buffer) := by
  have hbuf := length_lt_of_real hreal
  have hshort : (body buffer).length ≤ buffer.length := by
    rw [body, length_dropLast, length_drop]
    omega
  have hparses := parses_index hbuf 0 (buffer.length + 1)
  constructor
  · intro hsafe hfaulty
    obtain ⟨hsettled, heq⟩ := hsafe (buffer.length + 1) (lt_succ_self _)
    have hloop : ∃ e, elementsLoop (elementStep buffer (indexValue buffer forwardBytes) indexPut)
        (buffer.length + 1) ⟨4, (body buffer).length⟩ [] = .error e ∧ ¬ Ordinary e :=
      hparses.loop_faulty hbuf hfaulty (by omega) (by omega) (at_body hlen) []
    obtain ⟨e, he, hfault⟩ := hloop
    rw [lmakeindexWith_eq hlen hreal, he] at heq
    exact hfault (hsettled _ heq.symm)
  · intro hforward fuel hfuel
    have hresult : Settled (lmakeindexWith buffer forwardBytes fuel) := by
      rw [lmakeindexWith_eq hlen hreal]
      have hfuel' : (body buffer).length < fuel := by omega
      rcases hparses.loop_total hbuf (by omega) hfuel' (at_body hlen) [] with h | h | h
      · obtain ⟨es, hok⟩ := hparses.loop_ok hbuf h (by omega) hfuel' (at_body hlen) []
        rw [hok]
        exact fun e he => nomatch he
      · exact absurd h hforward
      · obtain ⟨e, he, hordinary⟩ := h
        rw [he]
        rintro _ ⟨rfl⟩
        exact hordinary
    have heq := lmakeindex_eq fun h => (hresult _ h).1 rfl
    exact ⟨heq ▸ hresult, heq⟩

/-- A document with its real length in front is decoded and indexed safely if and only if neither of
the two readers comes to a length that leads it backwards, and the decoder does not come to a
document that is inside as many others as the stack has room for. -/
theorem safely_iff : DecodesSafely stack buffer ∧ IndexesSafely buffer ↔
    ¬ Faulty decodeLayout stack (.value bsonDocument) buffer ∧
      ¬ Faulty indexLayout 0 .elements (body buffer) :=
  and_congr (decodesSafely_iff hlen hreal stack) (indexesSafely_iff hlen hreal)

end Buffer

/-- A document with one number. -/
def oneNumber : List UInt8 := [12, 0, 0, 0, 16, 97, 0, 1, 0, 0, 0, 0]

theorem safely_oneNumber : DecodesSafely 1 oneNumber ∧ IndexesSafely oneNumber ↔
    ¬ Faulty decodeLayout 1 (.value bsonDocument) oneNumber ∧
      ¬ Faulty indexLayout 0 .elements (body oneNumber) :=
  safely_iff (by decide) (by decide) 1

/-- A document with a piece of code whose length is -6: behind it is its own type. -/
def endless : List UInt8 := [11, 0, 0, 0, 13, 0, 0xfa, 0xff, 0xff, 0xff, 0]

theorem faulty_endless {F : Layout} (h : F.sized bsonJscode = some (0, 0)) (n : ℕ) :
    Faulty F n .elements (body endless) :=
  @Faulty.here F n bsonJscode [] [0xfa, 0xff, 0xff, 0xff] (by decide)
    (@Faulty.sized F n bsonJscode [0xfa, 0xff, 0xff, 0xff] [] [] 0 h rfl (by decide))

theorem endless_real : length32 (endless.take 4) = endless.length := by decide +kernel

/-- After the element the reader of the index is where it was in front of it. -/
theorem lmakeindex_endless (fuel : ℕ) : lmakeindex endless fuel = .error .outOfFuel := by
  have hstep : ∀ es, elementStep endless (indexValue endless readBytes) indexPut es ⟨4, 6⟩ =
      .ok (es, ⟨4, 6⟩) := by
    intro es
    have htype : readByte endless ⟨4, 6⟩ = .ok (bsonJscode, ⟨5, 5⟩) := by decide
    have hkey : readCstring endless ⟨5, 5⟩ = .ok ([], ⟨6, 4⟩) := by decide
    have hvalue : indexValue endless readBytes bsonJscode ⟨6, 4⟩ = .ok (none, ⟨4, 6⟩) := by
      decide +kernel
    rw [elementStep, read_bind htype, read_bind hkey, read_bind hvalue]
    rfl
  have hloop : ∀ fuel es, elementsLoop (elementStep endless (indexValue endless readBytes) indexPut)
      fuel ⟨4, 6⟩ es = .error .outOfFuel := by
    intro fuel es
    induction fuel with
    | zero => rfl
    | succ fuel ih =>
      rw [elementsLoop, if_neg (by decide), hstep]
      exact ih
  have hbody : ((body endless).length : ℤ) = 6 := by decide
  rw [lmakeindex, lmakeindexWith_eq (by decide) endless_real, hbody]
  exact hloop fuel []

/-- Neither of the readers goes forward in this document, and one of them does not end. -/
theorem endless_unsafe : 5 ≤ endless.length ∧ length32 (endless.take 4) = endless.length ∧
    (∀ stack, ¬ DecodesSafely stack endless) ∧ ¬ IndexesSafely endless ∧
    ∀ fuel, lmakeindex endless fuel = .error .outOfFuel := by
  have hlen : 5 ≤ endless.length := by decide
  have hreal := endless_real
  refine ⟨hlen, hreal, fun stack hsafe => ?_, fun hsafe => ?_, lmakeindex_endless⟩
  · refine (decodesSafely_iff hlen hreal stack).mp hsafe ?_
    cases stack with
    | zero => exact .deep rfl
    | succ n =>
      exact @Faulty.inside decodeLayout n bsonDocument [11, 0, 0, 0] (body endless) [] rfl rfl
        (by decide) (faulty_endless rfl n)
  · exact (indexesSafely_iff hlen hreal).mp hsafe (faulty_endless rfl 0)

end Uboss.Lib
