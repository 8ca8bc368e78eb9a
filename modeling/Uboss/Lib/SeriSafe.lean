import Uboss.Lib.SeriFormat

/-!
# Malformed streams

What the reader does with any bytes. It checks every read against what is left of the buffer, but
the length of a long string is passed as an `int`, and a negative one passes the check. It calls
itself for every table that is inside another, without a limit.

## Main results

* `luaseriUnpack_safe_iff` — all reads are safe and the stack is large enough, unless the reader
  comes to such a header or to a table that is too deep
-/

namespace Uboss.Lib

open Math List Nat

/-- The beginning of a hash part: keys and values, and a key that may have no value yet. -/
inductive PartialPairs : List UnpackValue → LuaEntries Unit → Prop
  | nil (es : LuaEntries Unit) : PartialPairs [] es
  | key {k : UnpackValue} (es : LuaEntries Unit) : k.isNil = false → PartialPairs [k] es
  | pair {k v : UnpackValue} {kvs : List UnpackValue} {es es₁ : LuaEntries Unit} :
      k.isNil = false → rawset es k v = some es₁ → PartialPairs kvs es₁ →
      PartialPairs (k :: v :: kvs) es

/-- A value begins here, and the bytes end with the header of a string of 2^31 bytes or more, in the
value itself or inside a table, or where a value would begin that is inside so many tables. -/
inductive Reaches : ℕ → List UInt8 → Prop
  | deep : Reaches 0 []
  | header {n : ℕ} {t : UInt8} {bs : List UInt8} :
      t.toNat % 8 = 5 → t.toNat / 8 = 4 → bs.length = 4 → 2 ^ 31 ≤ leNat bs →
      Reaches (n + 1) (t :: bs)
  | array {n : ℕ} {t : UInt8} {sz array bs : List UInt8} {size : ℤ} {vs : List UnpackValue} :
      t.toNat % 8 = 6 → SizeBytes (t.toNat / 8) sz size → Stream n array vs →
      vs.length < size.toNat → Reaches n bs → Reaches (n + 1) (t :: (sz ++ (array ++ bs)))
  | hash {n : ℕ} {t : UInt8} {sz array hash bs : List UInt8} {size : ℤ}
      {vs kvs : List UnpackValue} :
      t.toNat % 8 = 6 → SizeBytes (t.toNat / 8) sz size → Stream n array vs →
      vs.length = size.toNat → Stream n hash kvs → PartialPairs kvs (setArray 1 vs []) →
      Reaches n bs → Reaches (n + 1) (t :: (sz ++ (array ++ (hash ++ bs))))

/-- Behind some values there is such a header, or a table inside more than `stack` others. -/
def ReachesFault (stack : ℕ) (bytes : List UInt8) : Prop :=
  ∃ pre vs bs rest, bytes = pre ++ bs ++ rest ∧ Stream (stack + 1) pre vs ∧ Reaches (stack + 1) bs

variable {buffer : List UInt8} {rb : ReadBlock} {bs bs' rest : List UInt8}

theorem rbRead_neg (h : At buffer rb rest) {n : ℤ} (hn : n < 0) :
    ∃ rb', rbRead n rb = .ok (some []) rb' ∧ ¬ SafeReads buffer.length rb'.reads := by
  have hlen := h.len
  refine ⟨{ rb with len := rb.len - n, ptr := rb.ptr + n, reads := rb.reads ++ [(rb.ptr, n)] },
    ?_, fun hsafe => ?_⟩
  · rw [rbRead, if_neg (by omega), Int.toNat_of_nonpos hn.le, take_zero]
  · have hread := hsafe.1 (rb.ptr, n) (mem_append_right _ mem_cons_self)
    exact absurd hread.2.1 (by simpa using hn)

/-! ### A header that is reached -/

/-- The stack is too small, or a read has not been safe. -/
def Unsafe (buffer : List UInt8) (e : SeriError) (rb : ReadBlock) : Prop :=
  e = .stackOverflow ∨ ¬ SafeReads buffer.length rb.reads

/-- The operation fails behind these bytes. -/
def Fails {α : Type} (buffer : List UInt8) (m : Unpack α) (bs : List UInt8) : Prop :=
  ∀ rb rest, At buffer rb (bs ++ rest) → ∃ e rb', m rb = .error e rb' ∧ Unsafe buffer e rb'

section Rules

variable {α β : Type} {m : Unpack α} {f : α → Unpack β} {a : α}

theorem Fails.bind (h : Fails buffer m bs) : Fails buffer (m >>= f) bs := by
  intro rb rest hat
  obtain ⟨e, rb', hm, hunsafe⟩ := h rb rest hat
  exact ⟨e, rb', bind_error hm, hunsafe⟩

theorem Fails.map {g : α → β} (h : Fails buffer m bs) : Fails buffer (g <$> m) bs := by
  intro rb rest hat
  obtain ⟨e, rb', hm, hunsafe⟩ := h rb rest hat
  exact ⟨e, rb', map_error hm, hunsafe⟩

theorem Takes.bind_fails (hm : Takes buffer m bs a) (hf : Fails buffer (f a) bs') :
    Fails buffer (m >>= f) (bs ++ bs') := by
  intro rb rest hat
  rw [append_assoc] at hat
  obtain ⟨rb', hm', hat'⟩ := hm rb _ hat
  rw [bind_ok hm']
  exact hf rb' rest hat'

end Rules

theorem toInt_neg {n : ℕ} (hle : 2 ^ 31 ≤ n) (hlt : n < 2 ^ 32) : toInt n < 0 := by
  rw [toInt, Int32.toInt_ofNat', Int.bmod]
  simp only [Int32.size]
  split_ifs with hsmall <;> omega

theorem getBuffer_neg (h : At buffer rb rest) {n : ℤ} (hn : n < 0) :
    ∃ rb', getBuffer n rb = .error .blockTooBig rb' ∧ ¬ SafeReads buffer.length rb'.reads := by
  obtain ⟨rb', hread, hsafe⟩ := rbRead_neg h hn
  have hneed : rbNeed n rb = .ok [] rb' := bind_ok hread
  refine ⟨rb', ?_, hsafe⟩
  rw [getBuffer, bind_ok hneed, if_pos hn]
  rfl

theorem fails_getBuffer {n : ℤ} (hn : n < 0) : Fails buffer (getBuffer n) [] := by
  intro rb rest hat
  obtain ⟨rb', hbuffer, hsafe⟩ := getBuffer_neg hat hn
  exact ⟨_, rb', hbuffer, .inr hsafe⟩

section Values

variable {one : Unpack UnpackValue} {vs : List UnpackValue} {es : LuaEntries Unit}

theorem Values.arrayLoop_fails (h : Values buffer one bs vs) (hone : Fails buffer one bs') {n : ℕ}
    (hlt : vs.length < n) (i : ℕ) (es : LuaEntries Unit) :
    Fails buffer (Lib.arrayLoop one n i es) (bs ++ bs') := by
  induction h generalizing n i es with
  | nil =>
    obtain ⟨n, rfl⟩ := exists_eq_add_one_of_ne_zero (Nat.ne_zero_of_lt hlt)
    exact hone.bind
  | cons hv _ ih =>
    obtain ⟨n, rfl⟩ := exists_eq_add_one_of_ne_zero (Nat.ne_zero_of_lt hlt)
    rw [append_assoc]
    exact hv.bind_fails (ih (lt_of_succ_lt_succ hlt) (i + 1) _)

theorem Values.hashLoop_fails (h : Values buffer one bs vs) (hone : Fails buffer one bs')
    (hpairs : PartialPairs vs es) {fuel : ℕ} (hfuel : vs.length < fuel) :
    Fails buffer (Lib.hashLoop one fuel es) (bs ++ bs') := by
  induction hpairs generalizing bs fuel with
  | nil es =>
    obtain ⟨fuel, rfl⟩ := exists_eq_add_one_of_ne_zero (Nat.ne_zero_of_lt hfuel)
    cases h
    exact hone.bind
  | key es hk =>
    obtain ⟨fuel, rfl⟩ := exists_eq_add_one_of_ne_zero (Nat.ne_zero_of_lt hfuel)
    cases h with
    | cons hkey htail =>
      cases htail
      rw [append_nil]
      refine hkey.bind_fails ?_
      rw [if_neg (by simp [hk])]
      exact hone.bind
  | pair hk hset _ ih =>
    obtain ⟨fuel, rfl⟩ := exists_eq_add_one_of_ne_zero (Nat.ne_zero_of_lt hfuel)
    cases h with
    | cons hkey htail =>
      cases htail with
      | cons hv hrest =>
        rw [append_assoc, append_assoc]
        refine hkey.bind_fails ?_
        rw [if_neg (by simp [hk])]
        refine hv.bind_fails ?_
        simp only [hset]
        exact ih hrest (by simp only [length_cons] at hfuel; omega)

end Values

theorem Reaches.fails {n : ℕ} (h : Reaches n bs) {fuel : ℕ} (hfuel : bs.length < fuel) :
    Fails buffer (unpackOne fuel n) bs := by
  induction h with
  | deep => exact fun rb _ _ => ⟨.stackOverflow, rb, rfl, .inl rfl⟩
  | @header n t bs htype hcookie hlen hle =>
    have hlt : leNat bs < 2 ^ 32 := by
      have : leNat bs < 2 ^ (8 * bs.length) := leNat_lt
      rwa [hlen] at this
    refine Takes.bind_fails takes_rbNeed_one ?_
    simp only [headD_cons, htype, hcookie]
    refine Fails.map ?_
    rw [← append_nil bs]
    refine Takes.bind_fails (takes_rbNeed (by rw [hlen]; rfl)) ?_
    exact fails_getBuffer (toInt_neg hle hlt)
  | array ht hsize harray hlt _ ih =>
    rw [length_cons, length_append, length_append] at hfuel
    refine Takes.bind_fails takes_rbNeed_one ?_
    simp only [headD_cons, ht]
    exact hsize.takes.bind_fails
      ((harray.values (by omega)).arrayLoop_fails (ih (by omega)) hlt 1 []).bind
  | @hash n t sz array hash bs size vs kvs ht hsize harray hlen hhash hpairs _ ih =>
    rw [length_cons, length_append, length_append, length_append] at hfuel
    refine Takes.bind_fails takes_rbNeed_one ?_
    have harrayValues : Values buffer (unpackOne fuel n) array vs := harray.values (by omega)
    have harrayLoop := harrayValues.arrayLoop 1 []
    have hkvs := hhash.length_le
    rw [hlen] at harrayLoop
    simp only [headD_cons, ht]
    exact hsize.takes.bind_fails (harrayLoop.bind_fails
      ((hhash.values (by omega)).hashLoop_fails (ih (by omega)) hpairs (by omega)).bind)

/-! ### Any bytes -/

/-- What an operation does with any bytes: it takes some of them, or raises an error after safe
reads, or fails in the other ways, and then the bytes are bad ones. -/
inductive Outcome {α : Type} (buffer : List UInt8) (P : List UInt8 → α → Prop)
    (bad : List UInt8 → Prop) (rest : List UInt8) : EStateM.Result SeriError ReadBlock α → Prop
  | ok {a : α} {rb : ReadBlock} {bs rest' : List UInt8} :
      rest = bs ++ rest' → P bs a → At buffer rb rest' → Outcome buffer P bad rest (.ok a rb)
  | error {e : SeriError} {rb : ReadBlock} {rest' : List UInt8} :
      e ≠ .outOfFuel → e ≠ .stackOverflow → At buffer rb rest' →
      Outcome buffer P bad rest (.error e rb)
  | bad {e : SeriError} {rb : ReadBlock} {bs rest' : List UInt8} :
      rest = bs ++ rest' → bad bs → e ≠ .outOfFuel → Unsafe buffer e rb →
      Outcome buffer P bad rest (.error e rb)

section Rules

variable {α β : Type} {m : Unpack α} {f : α → Unpack β} {P : List UInt8 → α → Prop}
  {Q : List UInt8 → β → Prop} {bad bad' : List UInt8 → Prop}

theorem Outcome.pure {a : α} (hat : At buffer rb rest) (hP : P [] a) :
    Outcome buffer P bad rest ((pure a : Unpack α) rb) := .ok rfl hP hat

theorem Outcome.throw {e : SeriError} (hat : At buffer rb rest) (he : e ≠ .outOfFuel)
    (hstack : e ≠ .stackOverflow) : Outcome buffer P bad rest ((throw e : Unpack α) rb) :=
  .error he hstack hat

theorem Outcome.bind (hm : Outcome buffer P bad rest (m rb)) (hbad : ∀ bs, bad bs → bad' bs)
    (hf : ∀ a rb' bs rest', rest = bs ++ rest' → P bs a → At buffer rb' rest' →
      Outcome buffer (fun bs' b => Q (bs ++ bs') b) (fun bs' => bad' (bs ++ bs')) rest' (f a rb')) :
    Outcome buffer Q bad' rest ((m >>= f) rb) := by
  generalize hr : m rb = r at hm
  cases hm with
  | error he hstack hat =>
    rw [bind_error hr]
    exact .error he hstack hat
  | bad hrest hb he hunsafe =>
    rw [bind_error hr]
    exact .bad hrest (hbad _ hb) he hunsafe
  | ok hrest hP hat =>
    rw [bind_ok hr]
    have hnext := hf _ _ _ _ hrest hP hat
    generalize f _ _ = r' at hnext
    cases hnext with
    | error he hstack hat => exact .error he hstack hat
    | bad hrest' hb he hunsafe =>
      exact .bad (by rw [hrest, hrest', append_assoc]) hb he hunsafe
    | ok hrest' hQ hat => exact .ok (by rw [hrest, hrest', append_assoc]) hQ hat

theorem Outcome.mono {P' : List UInt8 → α → Prop} {r : EStateM.Result SeriError ReadBlock α}
    (h : Outcome buffer P bad rest r) (hP : ∀ bs a, P bs a → P' bs a)
    (hbad : ∀ bs, bad bs → bad' bs) : Outcome buffer P' bad' rest r := by
  cases h with
  | error he hstack hat => exact .error he hstack hat
  | bad hrest hb he hunsafe => exact .bad hrest (hbad _ hb) he hunsafe
  | ok hrest h hat => exact .ok hrest (hP _ _ h) hat

theorem Outcome.map {g : α → β} (hm : Outcome buffer P bad rest (m rb))
    (hg : ∀ bs a, P bs a → Q bs (g a)) (hbad : ∀ bs, bad bs → bad' bs) :
    Outcome buffer Q bad' rest ((g <$> m) rb) := by
  generalize hr : m rb = r at hm
  cases hm with
  | error he hstack hat =>
    rw [map_error hr]
    exact .error he hstack hat
  | bad hrest hb he hunsafe =>
    rw [map_error hr]
    exact .bad hrest (hbad _ hb) he hunsafe
  | ok hrest hP hat =>
    rw [map_ok hr]
    exact .ok hrest (hg _ _ hP) hat

end Rules

/-- No bytes are bad. -/
def neverBad : List UInt8 → Prop := fun _ => False

theorem outcome_rbNeed (hat : At buffer rb rest) (n : ℕ) :
    Outcome buffer (fun bs a => a = bs ∧ bs.length = n) neverBad rest (rbNeed n rb) := by
  by_cases hn : n ≤ rest.length
  · have hlen : (rest.take n).length = n := length_take_of_le hn
    rw [← take_append_drop n rest] at hat
    obtain ⟨rb', hneed, hat'⟩ := takes_rbNeed (by rw [hlen]) rb _ hat
    rw [hneed]
    exact .ok (take_append_drop n rest).symm ⟨rfl, hlen⟩ hat'
  · have hneed : rbNeed n rb = .error .invalidStream rb := bind_ok (hat.rbRead_none (by omega))
    rw [hneed]
    exact .error nofun nofun hat

theorem outcome_getInteger (hat : At buffer rb rest) (cookie : ℕ) :
    Outcome buffer (IntegerBytes cookie) neverBad rest (getInteger cookie rb) := by
  unfold getInteger
  split
  · exact .pure hat .zero
  · refine (outcome_rbNeed hat 1).map ?_ nofun
    rintro bs _ ⟨rfl, hlen⟩
    exact .byte hlen
  · refine (outcome_rbNeed hat 2).map ?_ nofun
    rintro bs _ ⟨rfl, hlen⟩
    exact .word hlen
  · refine (outcome_rbNeed hat 4).map ?_ nofun
    rintro bs _ ⟨rfl, hlen⟩
    exact .dword hlen
  · refine (outcome_rbNeed hat 8).map ?_ nofun
    rintro bs _ ⟨rfl, hlen⟩
    exact .qword hlen
  · exact .throw hat nofun nofun

theorem outcome_getBuffer (hat : At buffer rb rest) (n : ℕ) :
    Outcome buffer (fun bs a => a = bs ∧ bs.length = n) neverBad rest (getBuffer n rb) := by
  refine (outcome_rbNeed hat n).bind nofun fun a rb' bs rest' _ hbs hat' => ?_
  rw [if_neg (by omega)]
  exact .pure hat' (by rwa [append_nil])

/-- The length of a string that does not fit into an `int`. -/
def BadLength (cookie : ℕ) (bs : List UInt8) : Prop :=
  cookie = 4 ∧ bs.length = 4 ∧ 2 ^ 31 ≤ leNat bs

theorem outcome_getLongString (hat : At buffer rb rest) (cookie : ℕ) :
    Outcome buffer (fun bs str => ScalarBytes 5 cookie bs (.scalar (.string str)))
      (BadLength cookie) rest (getLongString cookie rb) := by
  unfold getLongString
  split_ifs with hlong hhuge
  · subst hlong
    refine (outcome_rbNeed hat 2).bind nofun fun header rb' bs rest' _ hbs hat' => ?_
    obtain ⟨rfl, hheader⟩ := hbs
    refine Outcome.mono (outcome_getBuffer hat' (leNat header)) ?_ nofun
    rintro bs a ⟨rfl, hlen⟩
    exact .long hheader hlen.symm
  · subst hhuge
    refine (outcome_rbNeed hat 4).bind nofun fun header rb' bs rest' _ hbs hat' => ?_
    obtain ⟨rfl, hheader⟩ := hbs
    have hlt : leNat header < 2 ^ 32 := by
      have : leNat header < 2 ^ (8 * header.length) := leNat_lt
      rwa [hheader] at this
    by_cases hfits : leNat header < 2 ^ 31
    · rw [toInt_eq hfits]
      refine Outcome.mono (outcome_getBuffer hat' (leNat header)) ?_ nofun
      rintro bs a ⟨rfl, hlen⟩
      exact .huge hheader hlen.symm (hlen ▸ hfits)
    · have hle := not_lt.mp hfits
      obtain ⟨rb'', hbuffer, hsafe⟩ := getBuffer_neg hat' (toInt_neg hle hlt)
      rw [hbuffer]
      exact .bad (nil_append _).symm ⟨rfl, by rwa [append_nil], by rwa [append_nil]⟩ nofun
        (.inr hsafe)
  · exact .throw hat nofun nofun

theorem outcome_getArraySize (hat : At buffer rb rest) {cookie : ℕ} :
    Outcome buffer (SizeBytes cookie) neverBad rest (getArraySize cookie rb) := by
  unfold getArraySize
  split_ifs with hcookie
  · subst hcookie
    refine (outcome_rbNeed hat 1).bind nofun fun t rb' bs rest' _ hbs hat' => ?_
    obtain ⟨rfl, hlen⟩ := hbs
    obtain ⟨t, rfl⟩ := length_eq_one_iff.mp hlen
    change Outcome _ _ _ _ ((if t.toNat % 8 ≠ 2 ∨ t.toNat / 8 = 8 then _ else _ : Unpack ℤ) rb')
    split_ifs with hinvalid
    · exact .throw hat' nofun nofun
    · refine (outcome_getInteger hat' _).map (fun bs n hn => ?_) nofun
      exact .long (by omega) hn
  · exact .pure hat (.short hcookie)

theorem outcome_word (hat : At buffer rb rest) :
    Outcome buffer (fun bs n => bs.length = 8 ∧ n = UInt64.ofNat (leNat bs)) neverBad rest
      (((fun bs => UInt64.ofNat (leNat bs)) <$> rbNeed 8 : Unpack UInt64) rb) := by
  refine (outcome_rbNeed hat 8).map ?_ fun _ h => h
  rintro bs _ ⟨rfl, hlen⟩
  exact ⟨hlen, rfl⟩

/-! ### Tables of any bytes -/

/-- What is known of the reader of one value, for so many bytes and tables inside each other. -/
def ReadsOne (buffer : List UInt8) (one : Unpack UnpackValue) (fuel n : ℕ) : Prop :=
  ∀ rb rest, At buffer rb rest → rest.length < fuel →
    Outcome buffer (fun bs v => bs ≠ [] ∧ Stream n bs [v]) (Reaches n) rest (one rb)

/-- Some values and then a header that is too large, or a table that is too deep. -/
def ReachesBehind (n : ℕ) (P : List UnpackValue → Prop) (bs : List UInt8) : Prop :=
  ∃ pre vs bs', bs = pre ++ bs' ∧ Stream n pre vs ∧ P vs ∧ Reaches n bs'

section Loops

variable {one : Unpack UnpackValue} {fuel n : ℕ}

variable (hone : ReadsOne buffer one fuel n) (hat : At buffer rb rest) (hfuel : rest.length < fuel)
include hone hat hfuel

theorem ReadsOne.arrayLoop (k i : ℕ) (es : LuaEntries Unit) :
    Outcome buffer (fun bs es' => ∃ vs, Stream n bs vs ∧ vs.length = k ∧ es' = setArray i vs es)
      (ReachesBehind n (·.length < k)) rest (Lib.arrayLoop one k i es rb) := by
  induction k generalizing rb rest i es with
  | zero => exact .pure hat ⟨[], .nil, rfl, rfl⟩
  | succ k ih =>
    refine (hone rb rest hat hfuel).bind (fun bs hbs => ?_) fun v rb' bs rest' hrest hv hat' => ?_
    · exact ⟨[], [], bs, rfl, .nil, succ_pos k, hbs⟩
    · have hfuel' : rest'.length < fuel := by
        rw [hrest, length_append] at hfuel
        omega
      refine Outcome.mono (ih hat' hfuel' (i + 1) _) ?_ ?_
      · rintro bs' es' ⟨vs, hvs, hlen, rfl⟩
        exact ⟨v :: vs, hv.2.append hvs, by rw [length_cons, hlen], rfl⟩
      · rintro bs' ⟨pre, vs, bs'', rfl, hvs, hlt, hreaches⟩
        exact ⟨bs ++ pre, v :: vs, bs'', (append_assoc ..).symm, hv.2.append hvs,
          succ_lt_succ hlt, hreaches⟩

theorem ReadsOne.hashLoop {k : ℕ} (hk : rest.length < k) (es : LuaEntries Unit) :
    Outcome buffer (fun bs es' => ∃ kvs, Stream n bs kvs ∧ Pairs kvs es es')
      (ReachesBehind n (PartialPairs · es)) rest (Lib.hashLoop one k es rb) := by
  induction k generalizing rb rest es with
  | zero => exact absurd hk (Nat.not_lt_zero _)
  | succ k ih =>
    refine (hone rb rest hat hfuel).bind (fun bs hbs => ?_)
      fun key rb₁ bs₁ rest₁ hrest₁ hkey hat₁ => ?_
    · exact ⟨[], [], bs, rfl, .nil, .nil es, hbs⟩
    · cases hnil : key.isNil with
      | true =>
        rw [if_pos rfl]
        refine .pure hat₁ ⟨[key], ?_, ?_⟩
        · rw [append_nil]
          exact hkey.2
        · rw [LuaValue.eq_nil_of_isNil hnil]
          exact .done es
      | false =>
        rw [if_neg Bool.false_ne_true]
        have hlen₁ : bs₁.length + rest₁.length = rest.length := by
          rw [hrest₁, length_append]
        refine (hone rb₁ rest₁ hat₁ (by omega)).bind (fun bs hbs => ?_)
          fun v rb₂ bs₂ rest₂ hrest₂ hv hat₂ => ?_
        · exact ⟨bs₁, [key], bs, rfl, hkey.2, .key es hnil, hbs⟩
        · have hlen₂ : bs₂.length + rest₂.length = rest₁.length := by
            rw [hrest₂, length_append]
          have hpos := length_pos_iff.mpr hkey.1
          cases hset : rawset es key v with
          | none => exact .throw hat₂ nofun nofun
          | some es₁ =>
            refine Outcome.mono (ih hat₂ (by omega) (by omega) es₁) ?_ ?_
            · rintro bs' es' ⟨kvs, hkvs, hpairs⟩
              exact ⟨key :: v :: kvs, hkey.2.append (hv.2.append hkvs), .pair hnil hset hpairs⟩
            · rintro bs' ⟨pre, kvs, bs'', rfl, hkvs, hpairs, hreaches⟩
              refine ⟨bs₁ ++ (bs₂ ++ pre), key :: v :: kvs, bs'', ?_,
                hkey.2.append (hv.2.append hkvs), .pair hnil hset hpairs, hreaches⟩
              simp

theorem outcome_unpackTable {t : UInt8} (ht : t.toNat % 8 = 6) :
    Outcome buffer (fun bs v => Stream (n + 1) (t :: bs) [v])
      (fun bs => Reaches (n + 1) (t :: bs)) rest
      (unpackTable one fuel (t.toNat / 8) rb) := by
  refine (outcome_getArraySize hat).bind nofun fun size rb₁ sz rest₁ hrest₁ hsize hat₁ => ?_
  have hlen₁ : sz.length + rest₁.length = rest.length := by rw [hrest₁, length_append]
  refine (hone.arrayLoop hat₁ (by omega) _ 1 []).bind (fun bs hbs => ?_)
    fun es rb₂ array rest₂ hrest₂ hes hat₂ => ?_
  · obtain ⟨array, vs, bs, rfl, harray, hlt, hreaches⟩ := hbs
    exact .array ht hsize harray hlt hreaches
  · obtain ⟨vs, harray, hvs, rfl⟩ := hes
    have hlen₂ : array.length + rest₂.length = rest₁.length := by rw [hrest₂, length_append]
    refine (hone.hashLoop hat₂ (by omega) (by omega) _).bind (fun bs hbs => ?_)
      fun es rb₃ hash rest₃ _ hes hat₃ => ?_
    · obtain ⟨hash, kvs, bs, rfl, hhash, hpairs, hreaches⟩ := hbs
      exact .hash ht hsize harray hvs hhash hpairs hreaches
    · obtain ⟨kvs, hhash, hpairs⟩ := hes
      refine .pure hat₃ ?_
      have htable := Stream.table ht hsize harray hvs hhash hpairs .nil
      rwa [append_nil] at htable ⊢

theorem outcome_pushValue (t : UInt8) : Outcome buffer (fun bs v => Stream (n + 1) (t :: bs) [v])
      (fun bs => Reaches (n + 1) (t :: bs)) rest
      (pushValue one fuel (t.toNat % 8) (t.toNat / 8) rb) := by
  have hscalar : ∀ bs v, ScalarBytes (t.toNat % 8) (t.toNat / 8) bs v →
      Stream (n + 1) (t :: bs) [v] := fun _ _ h => stream_scalar h
  generalize htype : t.toNat % 8 = type at hscalar
  unfold pushValue
  split
  · exact .pure hat (hscalar _ _ (.nil _))
  · exact .pure hat (hscalar _ _ (.boolean _))
  · split_ifs with hreal
    · refine (outcome_word hat).map ?_ fun _ h => h.elim
      rintro bs _ ⟨hlen, rfl⟩
      rw [hreal] at hscalar
      exact hscalar _ _ (.real hlen)
    · exact (outcome_getInteger hat _).map (fun bs n hn => hscalar _ _ (.integer hn))
        fun _ h => h.elim
  · refine (outcome_word hat).map ?_ fun _ h => h.elim
    rintro bs _ ⟨hlen, rfl⟩
    exact hscalar _ _ (.pointer _ hlen)
  · refine (outcome_getBuffer hat _).map ?_ fun _ h => h.elim
    rintro bs _ ⟨rfl, hlen⟩
    exact hscalar _ _ (hlen ▸ .short)
  · refine (outcome_getLongString hat _).map (fun bs str hstr => hscalar _ _ hstr) ?_
    rintro bs ⟨hcookie, hlen, hle⟩
    exact .header htype hcookie hlen hle
  · exact outcome_unpackTable hone hat hfuel htype
  · exact .throw hat nofun nofun

end Loops

theorem readsOne_unpackOne (fuel n : ℕ) : ReadsOne buffer (unpackOne fuel n) fuel n := by
  induction n with
  | zero => exact fun rb rest hat _ => .bad (nil_append _).symm .deep nofun (.inl rfl)
  | succ n ih =>
    intro rb rest hat hfuel
    refine (outcome_rbNeed hat 1).bind (fun _ h => h.elim) fun t rb' bs rest' hrest hbs hat' => ?_
    obtain ⟨rfl, hlen⟩ := hbs
    obtain ⟨t, rfl⟩ := length_eq_one_iff.mp hlen
    have hfuel' : rest'.length < fuel := by
      rw [hrest, length_append, length_singleton] at hfuel
      omega
    exact (outcome_pushValue ih hat' hfuel' t).mono (fun bs v h => ⟨cons_ne_nil _ _, h⟩)
      fun _ h => h

section Whole

variable {stack : ℕ}

theorem outcome_unpackLoop {size : ℕ} (hat : At buffer rb rest) (hsize : rest.length < size)
    {fuel : ℕ} (hfuel : rest.length < fuel) (acc : List UnpackValue) :
    Outcome buffer (fun _ _ => True) (ReachesBehind (stack + 1) fun _ => True) rest
      (unpackLoop stack size fuel acc rb) := by
  induction fuel generalizing rb rest acc with
  | zero => exact absurd hfuel (Nat.not_lt_zero _)
  | succ fuel ih =>
    cases rest with
    | nil =>
      rw [unpackLoop_nil hat]
      exact .ok (append_nil []).symm trivial hat
    | cons b rest =>
      rw [unpackLoop_cons hat]
      refine (readsOne_unpackOne size (stack + 1) rb _ hat hsize).bind (fun bs hbs => ?_)
        fun v rb' bs rest' hrest hv hat' => ?_
      · exact ⟨[], [], bs, rfl, .nil, trivial, hbs⟩
      · have hlen : bs.length + rest'.length = (b :: rest).length := by
          rw [hrest, length_append]
        have hpos := length_pos_iff.mpr hv.1
        refine (ih hat' (by omega) (by omega) _).mono (fun _ _ h => h) ?_
        rintro bs' ⟨pre, vs, bs'', rfl, hvs, -, hreaches⟩
        exact ⟨bs ++ pre, v :: vs, bs'', (append_assoc ..).symm, hv.2.append hvs, trivial, hreaches⟩

/-! ### The whole buffer -/

/-- On a stack with room for so many calls of `unpack_one`, `luaseri_unpack` returns or raises an
error, and all that it has read is inside the buffer, piece by piece from its beginning on. -/
def UnpacksSafely (stack : ℕ) (bytes : List UInt8) : Prop :=
  ∃ rb, ((∃ vs, unpackWithin stack bytes = .ok vs rb) ∨
    ∃ e, e ≠ .outOfFuel ∧ e ≠ .stackOverflow ∧ unpackWithin stack bytes = .error e rb) ∧
      SafeReads bytes.length rb.reads

theorem Outcome.safe_of_not_bad {α : Type} {P : List UInt8 → α → Prop} {bad : List UInt8 → Prop}
    {r : EStateM.Result SeriError ReadBlock α} (h : Outcome buffer P bad rest r)
    (hbad : ∀ bs rest', rest = bs ++ rest' → ¬ bad bs) :
    ∃ rb, ((∃ a, r = .ok a rb) ∨ ∃ e, e ≠ .outOfFuel ∧ e ≠ .stackOverflow ∧ r = .error e rb) ∧
      SafeReads buffer.length rb.reads := by
  cases h with
  | ok _ _ hat => exact ⟨_, .inl ⟨_, rfl⟩, hat.safe⟩
  | error he hstack hat => exact ⟨_, .inr ⟨_, he, hstack, rfl⟩, hat.safe⟩
  | bad hrest hb _ _ => exact absurd hb (hbad _ _ hrest)

/-- After the values in front of it the loop comes to the fault. -/
theorem ReachesFault.fails {bytes : List UInt8} (hlen : bytes.length < 2 ^ 31)
    (h : ReachesFault stack bytes) :
    ∃ e rb, unpackWithin stack bytes = .error e rb ∧ Unsafe bytes e rb := by
  obtain ⟨pre, vs, bs, rest, hbytes, hstream, hreaches⟩ := h
  have hsize : pre.length + bs.length + rest.length = bytes.length := by
    rw [hbytes, length_append, length_append]
  have hat : At bytes (rballInit bytes) (pre ++ (bs ++ rest)) := by
    rw [← append_assoc, ← hbytes]
    exact at_rballInit hlen
  have hvalues : Values bytes (unpackOne (bytes.length + 1) (stack + 1)) pre vs :=
    hstream.values (by omega)
  have hvs := hstream.length_le
  obtain ⟨fuel, hfuel⟩ := Nat.exists_eq_add_of_le (show vs.length ≤ bytes.length by omega)
  obtain ⟨rb, hat', hloop⟩ := hvalues.unpackLoop hat (fuel + 1) []
  have hlast : Fails bytes (unpackOne (bytes.length + 1) (stack + 1)) bs :=
    hreaches.fails (by omega)
  obtain ⟨e, rb', hfails, hunsafe⟩ := hlast rb rest hat'
  refine ⟨e, rb', ?_, hunsafe⟩
  rw [← Nat.add_assoc, ← hfuel] at hloop
  rw [unpackWithin_eq hlen, hloop]
  generalize hcons : bs ++ rest = bytes' at hat'
  cases bytes' with
  | nil =>
    rw [(append_eq_nil_iff.mp hcons).1] at hreaches
    cases hreaches
  | cons b bytes' => rw [unpackLoop_cons hat', bind_error hfails]

/-- Every byte `0e` opens a table with one element. -/
theorem reaches_nested (n : ℕ) : Reaches n (replicate n 0x0e) := by
  induction n with
  | zero => exact .deep
  | succ n ih =>
    have hsize : SizeBytes ((0x0e : UInt8).toNat / 8) [] (1 : ℕ) := .short (by decide)
    have harray : Stream n [] [] := .nil
    exact .array (by decide) hsize harray Nat.one_pos ih

/-- No stack is large enough for everything. -/
theorem nested_not_safe (hlen : stack + 1 < 2 ^ 31) :
    ¬ UnpacksSafely stack (replicate (stack + 1) 0x0e) := by
  rintro ⟨rb, hresult, hsafe⟩
  have hfault : ReachesFault stack (replicate (stack + 1) 0x0e) :=
    ⟨[], [], _, [], (append_nil _).symm, .nil, reaches_nested (stack + 1)⟩
  obtain ⟨e, rb', hfails, hunsafe⟩ := hfault.fails (by rwa [length_replicate])
  rw [hfails] at hresult
  rcases hresult with ⟨vs, hok⟩ | ⟨e', -, hstack, herror⟩
  · cases hok
  · cases herror
    exact hunsafe.elim hstack fun h => h hsafe

end Whole

/-- The reader is safe if and only if it comes to no string header with a length of 2^31 or more and
to no table that is inside more others than the stack has room for. -/
theorem luaseriUnpack_safe_iff (stack : ℕ) (bytes : List UInt8) (hlen : bytes.length < 2 ^ 31) :
    UnpacksSafely stack bytes ↔ ¬ ReachesFault stack bytes := by
  constructor
  · rintro ⟨rb, hresult, hsafe⟩ hreaches
    obtain ⟨e', rb', hfails, hunsafe⟩ := hreaches.fails hlen
    rcases hresult with ⟨vs, hok⟩ | ⟨e, -, hstack, herror⟩
    · rw [hok] at hfails
      cases hfails
    · rw [herror] at hfails
      cases hfails
      exact hunsafe.elim hstack fun h => h hsafe
  · intro hreaches
    unfold UnpacksSafely
    rw [unpackWithin_eq hlen]
    refine (outcome_unpackLoop (at_rballInit hlen) (by omega) (by omega) []).safe_of_not_bad ?_
    rintro bs rest' hrest ⟨pre, vs, bs', rfl, hvs, -, h⟩
    exact hreaches ⟨pre, vs, bs', rest', hrest, hvs, h⟩

theorem luaseriUnpack_safe_iff_table : UnpacksSafely 1 [0x0e, 0x22, 1, 0, 0, 0, 0] ↔
      ¬ ReachesFault 1 [0x0e, 0x22, 1, 0, 0, 0, 0] :=
  luaseriUnpack_safe_iff 1 [0x0e, 0x22, 1, 0, 0, 0, 0] (by decide)

/-- Five bytes: the header of a string of 2^31 bytes. -/
theorem header_not_safe :
    ¬ ∃ stack, ∀ bytes : List UInt8, bytes.length < 2 ^ 31 → UnpacksSafely stack bytes := by
  rintro ⟨stack, h⟩
  obtain ⟨rb, hresult, hsafe⟩ := h [0x25, 0, 0, 0, 0x80] (by decide)
  have hunpack : unpackWithin stack [0x25, 0, 0, 0, 0x80] = .error .blockTooBig
    ⟨[0x25, 0, 0, 0, 0x80], 2 ^ 31, 5 - 2 ^ 31, [(0, 1), (1, 4), (5, -2 ^ 31)]⟩ := rfl
  rw [hunpack] at hresult
  rcases hresult with ⟨vs, hok⟩ | ⟨e, -, -, herror⟩
  · cases hok
  · cases herror
    exact absurd (hsafe.1 (5, -2 ^ 31) (by decide)).2.1 (by decide)

end Uboss.Lib
