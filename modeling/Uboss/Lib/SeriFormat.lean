import Uboss.Lib.Seri

/-!
# The format of the serializer

What the bytes of a value are, for everything that the reader takes: it does not insist on the
shortest form of a number, and it looks at neither the upper bits of nil nor the kind of a number
before an array.
-/

namespace Uboss.Lib

open Math List Int Nat

/-! ### Reads -/

/-- The reads are inside the buffer, and none begins before the end of an earlier one. -/
def SafeReads (size : ℕ) (reads : List (ℤ × ℤ)) : Prop :=
  (∀ r ∈ reads, 0 ≤ r.1 ∧ 0 ≤ r.2 ∧ r.1 + r.2 ≤ size) ∧ reads.Pairwise fun r r' => r.1 + r.2 ≤ r'.1

/-- All reads have been safe, and `rest` is what has not been read. -/
structure At (buffer : List UInt8) (rb : ReadBlock) (rest : List UInt8) : Prop where
  buffer_eq : rb.buffer = buffer
  len : rb.len = rest.length
  ptr : ∃ read, buffer = read ++ rest ∧ rb.ptr = read.length
  safe : SafeReads buffer.length rb.reads
  le : ∀ r ∈ rb.reads, r.1 + r.2 ≤ rb.ptr

variable {buffer : List UInt8} {rb : ReadBlock} {bs bs' rest : List UInt8}

theorem At.rbRead (h : At buffer rb (bs ++ rest)) {n : ℤ} (hn : n = bs.length) :
    ∃ rb', rbRead n rb = .ok (some bs) rb' ∧ At buffer rb' rest := by
  obtain ⟨read, hbuffer, hptr⟩ := h.ptr
  have hlen := h.len
  rw [length_append, Nat.cast_add] at hlen
  have hbytes : (rb.buffer.drop rb.ptr.toNat).take n.toNat = bs := by
    rw [h.buffer_eq, hbuffer, hptr, hn, toNat_natCast, toNat_natCast, drop_left, take_left]
  refine ⟨{ rb with len := rb.len - n, ptr := rb.ptr + n, reads := rb.reads ++ [(rb.ptr, n)] },
    ?_, h.buffer_eq, ?_, ⟨read ++ bs, ?_, ?_⟩, ⟨?_, ?_⟩, ?_⟩
  · rw [Uboss.Lib.rbRead, if_neg (by omega), hbytes]
  · simp only
    omega
  · rw [hbuffer, append_assoc]
  · rw [hptr, hn, length_append, Nat.cast_add]
  · intro r hr
    rcases mem_append.mp hr with hr | hr
    · exact h.safe.1 r hr
    · obtain rfl := mem_singleton.mp hr
      rw [hbuffer, length_append, length_append]
      simp only
      omega
  · rw [pairwise_append]
    refine ⟨h.safe.2, pairwise_singleton .., fun r hr r' hr' => ?_⟩
    obtain rfl := mem_singleton.mp hr'
    exact h.le r hr
  · intro r hr
    rcases mem_append.mp hr with hr | hr
    · exact (h.le r hr).trans (by simp only; omega)
    · obtain rfl := mem_singleton.mp hr
      exact le_rfl

theorem At.rbRead_none (h : At buffer rb rest) {n : ℤ} (hn : rest.length < n) :
    Uboss.Lib.rbRead n rb = .ok none rb := if_pos (h.len ▸ hn)

/-- The operation takes these bytes, whatever follows. -/
def Takes {α : Type} (buffer : List UInt8) (m : Unpack α) (bs : List UInt8) (a : α) : Prop :=
  ∀ rb rest, At buffer rb (bs ++ rest) → ∃ rb', m rb = .ok a rb' ∧ At buffer rb' rest

section Rules

variable {α β : Type} {m : Unpack α} {f : α → Unpack β} {a : α} {b : β}

variable {rb' : ReadBlock} {e : SeriError} {g : α → β}

theorem bind_ok (h : m rb = .ok a rb') : (m >>= f) rb = f a rb' := by
  change EStateM.bind m f rb = _
  rw [EStateM.bind, h]

theorem bind_error (h : m rb = .error e rb') : (m >>= f) rb = .error e rb' := by
  change EStateM.bind m f rb = _
  rw [EStateM.bind, h]

theorem map_ok (h : m rb = .ok a rb') : (g <$> m) rb = .ok (g a) rb' := by
  change EStateM.map g m rb = _
  rw [EStateM.map, h]

theorem map_error (h : m rb = .error e rb') : (g <$> m) rb = .error e rb' := by
  change EStateM.map g m rb = _
  rw [EStateM.map, h]

theorem Takes.pure (a : α) : Takes buffer (pure a) [] a := fun rb _ h => ⟨rb, rfl, h⟩

theorem Takes.bind (hm : Takes buffer m bs a) (hf : Takes buffer (f a) bs' b) :
    Takes buffer (m >>= f) (bs ++ bs') b := by
  intro rb rest h
  rw [append_assoc] at h
  obtain ⟨rb', hm', h'⟩ := hm rb _ h
  rw [bind_ok hm']
  exact hf rb' rest h'

theorem Takes.map (hm : Takes buffer m bs a) : Takes buffer (g <$> m) bs (g a) := by
  intro rb rest h
  obtain ⟨rb', hm', h'⟩ := hm rb rest h
  exact ⟨rb', map_ok hm', h'⟩

end Rules

theorem takes_rbNeed {n : ℤ} (hn : n = bs.length) : Takes buffer (rbNeed n) bs bs := by
  intro rb rest h
  obtain ⟨rb', hread, h'⟩ := h.rbRead hn
  exact ⟨rb', bind_ok hread, h'⟩

theorem takes_rbNeed_one {t : UInt8} : Takes buffer (rbNeed 1) [t] [t] := takes_rbNeed rfl

theorem takes_getBuffer {n : ℤ} (hn : n = bs.length) : Takes buffer (getBuffer n) bs bs := by
  intro rb rest h
  obtain ⟨rb', hread, h'⟩ := takes_rbNeed hn rb rest h
  refine ⟨rb', ?_, h'⟩
  rw [getBuffer, bind_ok hread, if_neg (by omega)]
  rfl

/-! ### Scalars -/

/-- The bytes of a number behind its type. -/
inductive IntegerBytes : ℕ → List UInt8 → Int64 → Prop
  | zero : IntegerBytes 0 [] 0
  | byte {bs : List UInt8} : bs.length = 1 → IntegerBytes 1 bs (Int64.ofNat (leNat bs))
  | word {bs : List UInt8} : bs.length = 2 → IntegerBytes 2 bs (Int64.ofNat (leNat bs))
  | dword {bs : List UInt8} :
      bs.length = 4 → IntegerBytes 4 bs (UInt32.ofNat (leNat bs)).toInt32.toInt64
  | qword {bs : List UInt8} : bs.length = 8 → IntegerBytes 6 bs (UInt64.ofNat (leNat bs)).toInt64

/-- The bytes of a value that is not a table, behind its type and cookie. -/
inductive ScalarBytes : ℕ → ℕ → List UInt8 → UnpackValue → Prop
  | nil (cookie : ℕ) : ScalarBytes 0 cookie [] .nil
  | boolean (cookie : ℕ) : ScalarBytes 1 cookie [] (.scalar (.boolean (cookie ≠ 0)))
  | real {bs : List UInt8} :
      bs.length = 8 → ScalarBytes 2 8 bs (.scalar (.real (UInt64.ofNat (leNat bs))))
  | integer {cookie : ℕ} {bs : List UInt8} {n : Int64} :
      IntegerBytes cookie bs n → ScalarBytes 2 cookie bs (.scalar (.integer n))
  | pointer (cookie : ℕ) {bs : List UInt8} :
      bs.length = 8 →
      ScalarBytes 3 cookie bs (.scalar (.lightuserdata (UInt64.ofNat (leNat bs))))
  | short {bs : List UInt8} : ScalarBytes 4 bs.length bs (.scalar (.string bs))
  | long {header bs : List UInt8} :
      header.length = 2 → leNat header = bs.length →
      ScalarBytes 5 2 (header ++ bs) (.scalar (.string bs))
  | huge {header bs : List UInt8} :
      header.length = 4 → leNat header = bs.length → bs.length < 2 ^ 31 →
      ScalarBytes 5 4 (header ++ bs) (.scalar (.string bs))

theorem IntegerBytes.takes {cookie : ℕ} {n : Int64} (h : IntegerBytes cookie bs n) :
    Takes buffer (getInteger cookie) bs n := by
  cases h with
  | zero => exact .pure 0
  | byte hbs | word hbs | dword hbs | qword hbs => exact .map (takes_rbNeed (by rw [hbs]; rfl))

theorem toInt_eq {n : ℕ} (h : n < 2 ^ 31) : toInt n = n := by
  rw [toInt, Int32.toInt_ofNat', bmod_eq_of_le (by omega) (by simp only [Int32.size]; omega)]

theorem ScalarBytes.takes {type cookie : ℕ} {v : UnpackValue} (h : ScalarBytes type cookie bs v)
    (one : Unpack UnpackValue) (fuel : ℕ) :
    Takes buffer (pushValue one fuel type cookie) bs v := by
  cases h with
  | nil => exact .pure _
  | boolean => exact .pure _
  | real hbs | pointer _ hbs => exact .map (.map (takes_rbNeed (by rw [hbs]; rfl)))
  | integer hn =>
    have hreal : cookie ≠ 8 := by
      rintro rfl
      cases hn
    rw [pushValue, if_neg hreal]
    exact .map hn.takes
  | short => exact .map (takes_getBuffer rfl)
  | long hheader hlen =>
    exact .map (.bind (takes_rbNeed (by rw [hheader]; rfl)) (takes_getBuffer (by rw [hlen])))
  | huge hheader hlen hlt =>
    refine .map (.bind (takes_rbNeed (by rw [hheader]; rfl)) (takes_getBuffer ?_))
    rw [hlen, toInt_eq hlt]

/-! ### Tables -/

/-- The bytes of an array size, behind the cookie of the table. -/
inductive SizeBytes : ℕ → List UInt8 → ℤ → Prop
  | short {cookie : ℕ} : cookie ≠ maxCookie - 1 → SizeBytes cookie [] cookie
  | long {t : UInt8} {bs : List UInt8} {n : Int64} :
      t.toNat % 8 = 2 → IntegerBytes (t.toNat / 8) bs n →
      SizeBytes (maxCookie - 1) (t :: bs) n.toInt32.toInt

/-- The array is put into the table, from `i` on. -/
def setArray : ℕ → List UnpackValue → LuaEntries Unit → LuaEntries Unit
  | _, [], es => es
  | i, v :: vs, es => setArray (i + 1) vs (rawseti es i v)

/-- Keys and values, with a nil behind, are put into the table. -/
inductive Pairs : List UnpackValue → LuaEntries Unit → LuaEntries Unit → Prop
  | done (es : LuaEntries Unit) : Pairs [.nil] es es
  | pair {k v : UnpackValue} {kvs : List UnpackValue} {es es₁ es' : LuaEntries Unit} :
      k.isNil = false → rawset es k v = some es₁ → Pairs kvs es₁ es' → Pairs (k :: v :: kvs) es es'

/-- The bytes of several values, which fewer than so many tables inside each other make up. -/
inductive Stream : ℕ → List UInt8 → List UnpackValue → Prop
  | nil {n : ℕ} : Stream n [] []
  | scalar {n : ℕ} {t : UInt8} {bs rest : List UInt8} {v : UnpackValue} {vs : List UnpackValue} :
      ScalarBytes (t.toNat % 8) (t.toNat / 8) bs v → Stream (n + 1) rest vs →
      Stream (n + 1) ((t :: bs) ++ rest) (v :: vs)
  | table {n : ℕ} {t : UInt8} {sz array hash rest : List UInt8} {size : ℤ}
      {as kvs vs : List UnpackValue} {es : LuaEntries Unit} :
      t.toNat % 8 = 6 → SizeBytes (t.toNat / 8) sz size → Stream n array as →
      as.length = size.toNat → Stream n hash kvs → Pairs kvs (setArray 1 as []) es →
      Stream (n + 1) rest vs →
      Stream (n + 1) ((t :: (sz ++ (array ++ hash))) ++ rest) (.table () es :: vs)

variable {vs ws : List UnpackValue} {n : ℕ}

theorem Stream.append (h : Stream n bs vs) (h' : Stream n bs' ws) :
    Stream n (bs ++ bs') (vs ++ ws) := by
  induction h with
  | nil => exact h'
  | scalar hv _ ih =>
    rw [append_assoc]
    exact .scalar hv (ih h')
  | table ht hsize harray hlen hhash hpairs _ _ _ ih =>
    rw [append_assoc]
    exact .table ht hsize harray hlen hhash hpairs (ih h')

theorem stream_scalar {t : UInt8} {v : UnpackValue}
    (h : ScalarBytes (t.toNat % 8) (t.toNat / 8) bs v) : Stream (n + 1) (t :: bs) [v] := by
  have hstream := Stream.scalar (n := n) h .nil
  rwa [append_nil] at hstream

theorem Stream.length_le (h : Stream n bs vs) : vs.length ≤ bs.length := by
  induction h with
  | nil => exact le_rfl
  | scalar | table =>
    simp only [length_cons, length_append] at *
    omega

/-- Every table has a byte of its own. -/
theorem Stream.of_length_lt (h : Stream n bs vs) {m : ℕ} (hm : bs.length < m) :
    Stream m bs vs := by
  induction h generalizing m with
  | nil => exact .nil
  | scalar hv _ ih =>
    obtain ⟨m, rfl⟩ := exists_eq_add_one_of_ne_zero (ne_zero_of_lt hm)
    rw [length_append, length_cons] at hm
    exact .scalar hv (ih (by omega))
  | table ht hsize _ hlen _ hpairs _ iharray ihhash ih =>
    obtain ⟨m, rfl⟩ := exists_eq_add_one_of_ne_zero (ne_zero_of_lt hm)
    rw [length_append, length_cons, length_append, length_append] at hm
    exact .table ht hsize (iharray (by omega)) hlen (ihhash (by omega)) hpairs (ih (by omega))

/-! ### Reading a stream -/

/-- The bytes that the reader of one value takes for several values. -/
inductive Values (buffer : List UInt8) (one : Unpack UnpackValue) :
    List UInt8 → List UnpackValue → Prop
  | nil : Values buffer one [] []
  | cons {bs rest : List UInt8} {v : UnpackValue} {vs : List UnpackValue} :
      Takes buffer one bs v → Values buffer one rest vs → Values buffer one (bs ++ rest) (v :: vs)

section Values

variable {one : Unpack UnpackValue} {es es' : LuaEntries Unit}

theorem Values.arrayLoop (h : Values buffer one bs vs) (i : ℕ) (es : LuaEntries Unit) :
    Takes buffer (arrayLoop one vs.length i es) bs (setArray i vs es) := by
  induction h generalizing i es with
  | nil => exact .pure es
  | cons hv _ ih => exact .bind hv (ih (i + 1) _)

theorem Values.hashLoop (h : Values buffer one bs vs) (hpairs : Pairs vs es es') {fuel : ℕ}
    (hfuel : vs.length < fuel) : Takes buffer (hashLoop one fuel es) bs es' := by
  induction hpairs generalizing bs fuel with
  | done es =>
    obtain ⟨fuel, rfl⟩ := exists_eq_add_one_of_ne_zero (ne_zero_of_lt hfuel)
    cases h with
    | cons hv htail =>
      cases htail with
      | nil => exact .bind hv (.pure es)
  | pair hk hset _ ih =>
    obtain ⟨fuel, rfl⟩ := exists_eq_add_one_of_ne_zero (ne_zero_of_lt hfuel)
    cases h with
    | cons hkey htail =>
      cases htail with
      | cons hv hrest =>
        refine .bind hkey ?_
        rw [if_neg (by simp [hk])]
        refine .bind hv ?_
        simp only [hset]
        exact ih hrest (by simp only [length_cons] at hfuel; omega)

end Values

theorem SizeBytes.takes {cookie : ℕ} {size : ℤ} (h : SizeBytes cookie bs size) :
    Takes buffer (getArraySize cookie) bs size := by
  cases h with
  | short hcookie =>
    rw [getArraySize, if_neg hcookie]
    exact .pure _
  | @long t bs n ht hn =>
    rw [getArraySize, if_pos rfl]
    refine Takes.bind takes_rbNeed_one ?_
    have hreal : t.toNat / 8 ≠ 8 := fun heq => by
      rw [heq] at hn
      cases hn
    change Takes buffer (if t.toNat % 8 ≠ 2 ∨ t.toNat / 8 = 8 then _ else _) bs _
    rw [if_neg (by omega)]
    exact .map hn.takes

/-- The reader takes a stream. -/
theorem Stream.values (h : Stream n bs vs) {fuel : ℕ} (hfuel : bs.length < fuel) :
    Values buffer (unpackOne fuel n) bs vs := by
  induction h with
  | nil => exact .nil
  | scalar hv _ ih =>
    rw [length_append, length_cons] at hfuel
    refine .cons ?_ (ih (by omega))
    exact Takes.bind takes_rbNeed_one (hv.takes _ _)
  | @table n t sz array hash rest size as kvs vs es ht hsize _ hlen hhash hpairs _ iharray ihhash
      ih =>
    rw [length_append, length_cons, length_append, length_append] at hfuel
    refine .cons ?_ (ih (by omega))
    refine Takes.bind takes_rbNeed_one ?_
    have harrayLoop := (iharray (by omega)).arrayLoop 1 []
    have hhashLoop : Takes buffer (hashLoop (unpackOne fuel n) fuel (setArray 1 as [])) hash es :=
      (ihhash (by omega)).hashLoop hpairs (by have := hhash.length_le; omega)
    simp only [headD_cons, ht]
    rw [hlen] at harrayLoop
    have hend : Takes buffer (do
        let es ← hashLoop (unpackOne fuel n) fuel (setArray 1 as [])
        return .table () es) hash (LuaValue.table () es) := by
      have hbind := hhashLoop.bind (f := fun es => pure (LuaValue.table () es)) (.pure _)
      rwa [append_nil] at hbind
    exact .bind hsize.takes (.bind harrayLoop hend)

/-! ### All values -/

section Loop

variable {stack size : ℕ}

theorem rbNeed_nil (h : At buffer rb []) : rbNeed 1 rb = .error .invalidStream rb :=
  bind_ok (h.rbRead_none Int.one_pos)

theorem unpackLoop_cons {b : UInt8} (h : At buffer rb (b :: rest)) (fuel : ℕ)
    (vs : List UnpackValue) :
    unpackLoop stack size (fuel + 1) vs rb =
      (unpackOne size (stack + 1) >>= fun v => unpackLoop stack size fuel (vs ++ [v])) rb := by
  have hbyte : At buffer rb ([b] ++ rest) := h
  obtain ⟨rb', hread, -⟩ := hbyte.rbRead (n := 1) rfl
  have hneed : rbNeed 1 rb = .ok [b] rb' := bind_ok hread
  have hloop : unpackLoop stack size (fuel + 1) vs rb =
      (pushValue (unpackOne size stack) size (b.toNat % 8) (b.toNat / 8) >>= fun v =>
        unpackLoop stack size fuel (vs ++ [v])) rb' := bind_ok hread
  have hone : unpackOne size (stack + 1) rb =
      pushValue (unpackOne size stack) size (b.toNat % 8) (b.toNat / 8) rb' := bind_ok hneed
  rw [hloop]
  cases hpush : pushValue (unpackOne size stack) size (b.toNat % 8) (b.toNat / 8) rb' with
  | ok v rb'' => rw [bind_ok hpush, bind_ok (hone.trans hpush)]
  | error e rb'' => rw [bind_error hpush, bind_error (hone.trans hpush)]

theorem unpackLoop_nil (h : At buffer rb []) (fuel : ℕ) (vs : List UnpackValue) :
    unpackLoop stack size (fuel + 1) vs rb = .ok vs rb :=
  bind_ok (h.rbRead_none Int.one_pos)

theorem Values.unpackLoop (h : Values buffer (unpackOne size (stack + 1)) bs vs)
    (hat : At buffer rb (bs ++ rest)) (fuel : ℕ) (acc : List UnpackValue) :
    ∃ rb', At buffer rb' rest ∧ unpackLoop stack size (vs.length + fuel) acc rb =
      unpackLoop stack size fuel (acc ++ vs) rb' := by
  induction h generalizing rb acc with
  | nil => exact ⟨rb, hat, by rw [append_nil, length_nil, zero_add]⟩
  | @cons bs rest' v vs hv _ ih =>
    rw [append_assoc] at hat
    obtain ⟨rb', hone, hat'⟩ := hv rb _ hat
    obtain ⟨rb'', hat'', hloop⟩ := ih hat' (acc ++ [v])
    refine ⟨rb'', hat'', ?_⟩
    rw [append_assoc, singleton_append] at hloop
    rw [← hloop, length_cons, add_right_comm]
    generalize hbytes : bs ++ (rest' ++ rest) = bytes at hat
    cases bytes with
    | nil =>
      rw [unpackOne, bind_error (rbNeed_nil hat)] at hone
      cases hone
    | cons b bytes => rw [unpackLoop_cons hat, bind_ok hone]

theorem at_rballInit (hlen : buffer.length < 2 ^ 31) : At buffer (rballInit buffer) buffer where
  buffer_eq := rfl
  len := toInt_eq hlen
  ptr := ⟨[], rfl, rfl⟩
  safe := ⟨nofun, .nil⟩
  le := nofun

/-- What `luaseri_unpack` does with a buffer that is not empty, and with the empty one. -/
theorem unpackWithin_eq (hlen : buffer.length < 2 ^ 31) : unpackWithin stack buffer =
      unpackLoop stack (buffer.length + 1) (buffer.length + 1) [] (rballInit buffer) := by
  rw [unpackWithin]
  split_ifs with hzero
  · rw [toInt_eq hlen] at hzero
    have hnil : buffer = [] := length_eq_zero_iff.mp (by omega)
    subst hnil
    exact (unpackLoop_nil (at_rballInit hlen) ..).symm
  · rfl

theorem Stream.unpackWithin (h : Stream (stack + 1) buffer vs) (hlen : buffer.length < 2 ^ 31) :
    ∃ rb, unpackWithin stack buffer = .ok vs rb := by
  have hvalues : Values buffer (unpackOne (buffer.length + 1) (stack + 1)) buffer vs :=
    h.values (lt_succ_self _)
  have hat : At buffer (rballInit buffer) (buffer ++ []) := by
    rw [append_nil]
    exact at_rballInit hlen
  obtain ⟨fuel, hfuel⟩ := Nat.exists_eq_add_of_le h.length_le
  obtain ⟨rb, hat', hloop⟩ := hvalues.unpackLoop hat (fuel + 1) []
  refine ⟨rb, ?_⟩
  rw [unpackLoop_nil hat', nil_append] at hloop
  rw [unpackWithin_eq hlen, ← hloop, ← add_assoc, ← hfuel]

/-- With room enough it does not matter how many tables are inside each other. -/
theorem Stream.luaseriUnpack (h : Stream n buffer vs) (hlen : buffer.length < 2 ^ 31) :
    ∃ rb, luaseriUnpack buffer = .ok vs rb :=
  (h.of_length_lt (by omega : buffer.length < buffer.length + 1 + 1)).unpackWithin hlen

end Loop

end Uboss.Lib
