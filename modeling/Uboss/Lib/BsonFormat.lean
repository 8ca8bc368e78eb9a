import Uboss.Lib.Bson
import Uboss.Lib.SeriPack

/-!
# The bytes of a document

What BSON makes of a value, without a buffer and without a length that is filled in afterwards, and
that the writer makes the same.
-/

namespace Uboss.Lib

open Math List Nat Bson Except LuaValue

/-! ### The format -/

/-- The name of an element: its position in an array, the key in a document. -/
def elementName (array : Bool) (i : ℕ) : LuaValue ℕ → List UInt8
  | .scalar (.string key) => if array then decimal i else key
  | _ => decimal i

/-- The type of an element. A table with a border is an array. -/
def bsonType : LuaValue ℕ → UInt8
  | .scalar (.integer i) => if is32bit i then bsonInt32 else bsonInt64
  | .scalar (.real _) => bsonReal
  | .scalar (.boolean _) => bsonBoolean
  | .scalar (.string _) => bsonString
  | .table len _ => if len = 0 then bsonDocument else bsonArray
  | .scalar (.lightuserdata _) | .nil => bsonNull

/-- A document with its length in front and a zero at the end. -/
def document (body : List UInt8) : List UInt8 := leBytes 4 (body.length + 5) ++ body ++ [0]

mutual

/-- The bytes of a value. -/
def payload : LuaValue ℕ → List UInt8
  | .scalar (.integer i) => leBytes (if is32bit i then 4 else 8) i.toUInt64.toNat
  | .scalar (.real d) => leBytes 8 d.toNat
  | .scalar (.boolean v) => [if v then 1 else 0]
  | .scalar (.string str) => leBytes 4 (str.length + 1) ++ (str ++ [0])
  | .table len es => document (elements (len ≠ 0) 0 es)
  | .scalar (.lightuserdata _) | .nil => []

/-- The elements of a table, from a position on. -/
def elements (array : Bool) (i : ℕ) : LuaEntries ℕ → List UInt8
  | [] => []
  | e :: es => element array i e ++ elements array (i + 1) es

/-- An element: the type, the name and the value. -/
def element (array : Bool) (i : ℕ) : LuaValue ℕ × LuaValue ℕ → List UInt8
  | (k, v) => bsonType v :: (elementName array i k ++ [0]) ++ payload v

end

mutual

/-- The number of bytes of a value. -/
def bsonSize : LuaValue ℕ → ℕ
  | .scalar (.integer i) => if is32bit i then 4 else 8
  | .scalar (.real _) => 8
  | .scalar (.boolean _) => 1
  | .scalar (.string str) => str.length + 5
  | .table len es => elementsSize (len ≠ 0) 0 es + 5
  | .scalar (.lightuserdata _) | .nil => 0

def elementsSize (array : Bool) (i : ℕ) : LuaEntries ℕ → ℕ
  | [] => 0
  | e :: es => elementSize array i e + elementsSize array (i + 1) es

def elementSize (array : Bool) (i : ℕ) : LuaValue ℕ × LuaValue ℕ → ℕ
  | (k, v) => (elementName array i k).length + bsonSize v + 2

end

/-- The length in front of a document is its real length. -/
theorem leNat_document {body : List UInt8} (h : body.length + 5 < 2 ^ 32) :
    leNat ((document body).take 4) = (document body).length := by
  have hhead : (document body).take 4 = leBytes 4 (body.length + 5) := by
    rw [document, append_assoc]
    exact take_left' length_leBytes
  rw [hhead, leNat_leBytes_of_lt h, document]
  simp only [length_append, length_leBytes, length_singleton]
  omega

theorem length_document (body : List UInt8) : (document body).length = body.length + 5 := by
  simp only [document, length_append, length_leBytes, length_singleton]
  omega

mutual

theorem length_payload : ∀ v : LuaValue ℕ, (payload v).length = bsonSize v
  | .scalar (.integer _) | .scalar (.real _) => length_leBytes
  | .scalar (.boolean _) | .scalar (.lightuserdata _) | .nil => rfl
  | .scalar (.string str) => by
    rw [payload, length_append, length_leBytes, length_append, length_singleton, bsonSize]
    omega
  | .table len es => by
    rw [payload, length_document, length_elements, bsonSize]

theorem length_elements (array : Bool) (i : ℕ) :
    ∀ es : LuaEntries ℕ, (elements array i es).length = elementsSize array i es
  | [] => rfl
  | e :: es => by
    rw [elements, length_append, length_element, length_elements, elementsSize]

theorem length_element (array : Bool) (i : ℕ) :
    ∀ e : LuaValue ℕ × LuaValue ℕ, (element array i e).length = elementSize array i e
  | (k, v) => by
    rw [element, length_append, length_cons, length_append, length_singleton,
      length_payload, elementSize]
    omega

end

/-- A value that can be written when so many tables may still be in each other. A table has only
strings without a zero as keys, or it is a sequence in its order; a string does not begin with a
zero. -/
inductive Bsonable : ℕ → LuaValue ℕ → Prop
  | integer {left : ℕ} (i : Int64) : Bsonable left (.scalar (.integer i))
  | real {left : ℕ} (d : UInt64) : Bsonable left (.scalar (.real d))
  | boolean {left : ℕ} (v : Bool) : Bsonable left (.scalar (.boolean v))
  | string {left : ℕ} {str : List UInt8} :
      str.head? ≠ some 0 → Bsonable left (.scalar (.string str))
  | document {left : ℕ} {entries : List (LuaScalar × LuaValue ℕ)} :
      (entries.map (·.1)).Nodup → (∀ e ∈ entries, ∃ key, e.1 = .string key ∧ 0 ∉ key) →
      (∀ e ∈ entries, Bsonable left e.2) → Bsonable (left + 1) (.table 0 (ofEntries entries))
  | array {left : ℕ} {entries : List (LuaScalar × LuaValue ℕ)} :
      entries ≠ [] →
      entries.map (·.1) = (List.range entries.length).map (fun i => indexKey (i + 1)) →
      (∀ e ∈ entries, Bsonable left e.2) →
      Bsonable (left + 1) (.table entries.length (ofEntries entries))

theorem Bsonable.exists_document {left : ℕ} {es : LuaEntries ℕ}
    (h : Bsonable (left + 1) (.table 0 es)) : ∃ entries : List (LuaScalar × LuaValue ℕ),
      es = ofEntries entries ∧ (entries.map (·.1)).Nodup ∧
      (∀ e ∈ entries, ∃ key, e.1 = .string key ∧ 0 ∉ key) ∧ ∀ e ∈ entries, Bsonable left e.2 := by
  generalize hv : table 0 es = v at h
  cases h with
  | integer | real | boolean | string => cases hv
  | document hnodup hkeys hvalues => exact ⟨_, (table.inj hv).2, hnodup, hkeys, hvalues⟩
  | array hne => exact absurd (length_eq_zero_iff.mp (table.inj hv).1.symm) hne

/-! ### The buffer -/

/-- What is kept of the buffer: its capacity is a power of two that can be doubled to an `int`, and
what was written has room in it. -/
structure Bson.Fits (b : Bson) : Prop where
  cap : ∃ k ≤ 30, b.cap = 2 ^ k
  le : b.size ≤ b.cap

section Reserve

variable {need fuel cap cap' k : ℕ} {b b' : Bson}

theorem Bson.Fits.cap_le (h : b.Fits) : b.cap ≤ 2 ^ 30 := by
  obtain ⟨k, hk, hcap⟩ := h.cap
  rw [hcap]
  exact Nat.pow_le_pow_right (by decide) hk

theorem fits_create : create.Fits := ⟨⟨6, by decide, rfl⟩, zero_le _⟩

/-- A capacity that was found has room and is still a power of two. -/
theorem doubleCap_some (hcap : cap = 2 ^ k) (h : doubleCap need fuel cap = some cap') :
    (∃ k' ≤ 30, cap' = 2 ^ k') ∧ need < cap' := by
  induction fuel generalizing cap k with
  | zero => cases h
  | succ fuel ih =>
    have hdouble : cap * 2 = 2 ^ (k + 1) := by rw [hcap, pow_succ]
    rw [doubleCap] at h
    split_ifs at h with hover hmore
    · exact ih hdouble h
    · obtain rfl := Option.some.inj h
      rw [hdouble, not_le] at hover
      have hk := (Nat.pow_lt_pow_iff_right (by decide)).mp hover
      exact ⟨⟨k + 1, by omega, hdouble⟩, by omega⟩

/-- A capacity of 2^30 is found before the doubling leaves the type. -/
theorem exists_doubleCap (fuel : ℕ) (hcap : cap = 2 ^ k) (hk : k < 30) (hfuel : 30 ≤ k + fuel)
    (hneed : need < 2 ^ 30) : ∃ cap', doubleCap need fuel cap = some cap' := by
  induction fuel generalizing cap k with
  | zero => omega
  | succ fuel ih =>
    have hdouble : cap * 2 = 2 ^ (k + 1) := by rw [hcap, pow_succ]
    have hle : 2 ^ (k + 1) ≤ 2 ^ 30 := Nat.pow_le_pow_right (by decide) hk
    rw [doubleCap, if_neg (by omega)]
    split_ifs with hmore
    · have hlt : 2 ^ (k + 1) < 2 ^ 30 := by omega
      exact ih hdouble ((Nat.pow_lt_pow_iff_right (by decide)).mp hlt) (by omega)
    · exact ⟨_, rfl⟩

theorem Bson.reserve_ok {sz : ℕ} (hb : b.Fits) (h : b.reserve sz = .ok b') :
    b'.bytes = b.bytes ∧ (∃ k ≤ 30, b'.cap = 2 ^ k) ∧ b.size + sz ≤ b'.cap := by
  obtain ⟨k, -, hcap⟩ := hb.cap
  rw [reserve] at h
  split_ifs at h with hover hroom
  · obtain rfl := ok.inj h
    exact ⟨rfl, hb.cap, hroom⟩
  · cases hdouble : doubleCap (b.size + sz) 31 b.cap with
    | none => simp [hdouble] at h
    | some cap =>
      rw [hdouble] at h
      obtain rfl := ok.inj h
      obtain ⟨hpow, hlt⟩ := doubleCap_some hcap hdouble
      exact ⟨rfl, hpow, hlt.le⟩

theorem Bson.exists_reserve {sz : ℕ} (hb : b.Fits)
    (h : b.size + sz < 2 ^ 30 ∨ b.size + sz ≤ b.cap) : ∃ b', b.reserve sz = .ok b' := by
  obtain ⟨k, hk, hcap⟩ := hb.cap
  have hle := hb.cap_le
  rw [reserve, if_neg (by omega)]
  split_ifs with hroom
  · exact ⟨b, rfl⟩
  · have hlt : b.size + sz < 2 ^ 30 := h.resolve_right hroom
    have hpow : 2 ^ k < 2 ^ 30 := by omega
    have hk := (Nat.pow_lt_pow_iff_right (by decide)).mp hpow
    obtain ⟨cap, hdouble⟩ := exists_doubleCap 31 hcap hk (by omega) hlt
    exact ⟨{ b with cap }, by rw [hdouble]⟩

end Reserve

/-- A part of the writer appends these bytes, or the sizes leave their type. It does if they end
before 2^30, or as far behind as `spare` says. -/
structure Writes (spare : ℕ) (f : Bson → Except BsonError Bson) (bs : List UInt8) : Prop where
  ok : ∀ {b b'}, b.Fits → f b = .ok b' → b'.Fits ∧ b'.bytes = b.bytes ++ bs
  room : ∀ {b}, b.Fits → b.size + bs.length < 2 ^ 30 + spare → ∃ b', f b = .ok b'
  overflow : ∀ {b e}, b.Fits → f b = .error e → e = .overflow

/-- How the writer gets through a value: how many bytes it writes, which error ends this, and that
what it writes can be read. -/
structure Course where
  size : ℕ
  stop : Option BsonError
  readable : Prop

namespace Course

/-- So many bytes. -/
def bytes (n : ℕ) : Course := ⟨n, none, True⟩

/-- Nothing is written behind what is refused. -/
def andThen (c d : Course) : Course :=
  match c.stop with
  | some _ => c
  | none => ⟨c.size + d.size, d.stop, c.readable ∧ d.readable⟩

end Course

/-- A part of the writer follows a course, up to a buffer that is too large: if this ends without an
error, behind 2^30 or as far behind as `spare` says. What is appended then has a property. -/
structure Follows (spare : ℕ) (f : Bson → Except BsonError Bson) (c : Course)
    (G : List UInt8 → Prop) : Prop where
  ok : ∀ {b b'}, b.Fits → f b = .ok b' → c.stop = none ∧ b'.Fits ∧
    ∃ bs, b'.bytes = b.bytes ++ bs ∧ bs.length = c.size ∧ (c.readable → G bs)
  error : ∀ {b e}, b.Fits → f b = .error e → c.stop = some e ∧ b.size + c.size ≤ 2 ^ 30 ∨
    e = .overflow ∧ 2 ^ 30 ≤ b.size + c.size ∧ (c.stop = none → 2 ^ 30 + spare ≤ b.size + c.size)

section Writes

variable {f g : Bson → Except BsonError Bson} {spare : ℕ} {bs bs' : List UInt8} {b b' : Bson}
  {c d : Course} {e : BsonError} {G H : List UInt8 → Prop} {P : Prop}

theorem fits_write {b b' : Bson} (hb : b.Fits) (h : b.write bs = .ok b') :
    b'.Fits ∧ b'.bytes = b.bytes ++ bs := by
  obtain ⟨b₁, hres, rfl⟩ := map_eq_ok_iff.mp h
  obtain ⟨hbytes, hpow, hroom⟩ := Bson.reserve_ok hb hres
  refine ⟨⟨hpow, ?_⟩, congrArg (· ++ bs) hbytes⟩
  change (b₁.bytes ++ bs).length ≤ b₁.cap
  rwa [hbytes, length_append]

theorem exists_write {b : Bson} (hb : b.Fits)
    (h : b.size + bs.length < 2 ^ 30 ∨ b.size + bs.length ≤ b.cap) :
    ∃ b', b.write bs = .ok b' := by
  obtain ⟨b₁, hres⟩ := Bson.exists_reserve hb h
  exact ⟨_, by rw [write, hres]; rfl⟩

/-- Only the room can be missing. -/
theorem write_error {b : Bson} {e : BsonError} (h : b.write bs = .error e) : e = .overflow := by
  cases hres : b.reserve bs.length with
  | ok b₁ =>
    rw [write, hres] at h
    cases h
  | error e' =>
    rw [write, hres] at h
    obtain rfl := error.inj h
    rw [reserve] at hres
    split_ifs at hres with hover
    · exact (error.inj hres).symm
    · cases hdouble : doubleCap (b.size + bs.length) 31 b.cap with
      | none =>
        rw [hdouble] at hres
        exact (error.inj hres).symm
      | some cap =>
        rw [hdouble] at hres
        cases hres

theorem writes_write (bs : List UInt8) : Writes 0 (fun b => b.write bs) bs where
  ok := fits_write
  room hb hlt := exists_write hb (.inl hlt)
  overflow _ := write_error

/-- One byte can be the last one of 2^30: the buffer is then as large. -/
theorem writes_byte (c : UInt8) : Writes 1 (fun b => b.write [c]) [c] where
  ok := fits_write
  room {b} hb hlt := by
    refine exists_write hb ?_
    rw [length_singleton] at hlt ⊢
    obtain ⟨k, hk, hcap⟩ := hb.cap
    have hle := hb.le
    by_cases hsmall : b.size + 1 < 2 ^ 30
    · exact .inl hsmall
    · have hlarge : 2 ^ 29 < 2 ^ k := by omega
      have hk' : 29 < k := (Nat.pow_lt_pow_iff_right (by decide)).mp hlarge
      obtain rfl : k = 30 := by omega
      exact .inr (by omega)
  overflow _ := write_error

theorem writes_ok : Writes 0 (fun b => .ok b) [] where
  ok hb h := ok.inj h ▸ ⟨hb, (append_nil _).symm⟩
  room {b} _ _ := ⟨b, rfl⟩
  overflow _ := nofun

theorem Course.andThen_of_none (h : c.stop = none) (d : Course) :
    c.andThen d = ⟨c.size + d.size, d.stop, c.readable ∧ d.readable⟩ := by
  rw [Course.andThen, h]

theorem Course.andThen_of_some (h : c.stop = some e) (d : Course) : c.andThen d = c := by
  rw [Course.andThen, h]

theorem Bson.Fits.size_le (hb : b.Fits) : b.size ≤ 2 ^ 30 := hb.le.trans hb.cap_le

theorem Bson.Fits.length_le (hb : b'.Fits) (hbytes : b'.bytes = b.bytes ++ bs) :
    bs.length ≤ 2 ^ 30 := by
  have hle := hb.size_le
  rw [Bson.size, hbytes, length_append] at hle
  omega

theorem Writes.follows (h : Writes spare f bs) (hG : bs.length ≤ 2 ^ 30 → P → G bs) :
    Follows spare f ⟨bs.length, none, P⟩ G where
  ok hb hok := by
    obtain ⟨hb', hbytes⟩ := h.ok hb hok
    exact ⟨rfl, hb', bs, hbytes, rfl, hG (hb'.length_le hbytes)⟩
  error {b e} hb herror := by
    have hlarge : 2 ^ 30 + spare ≤ b.size + bs.length := by
      by_contra hroom
      obtain ⟨b', hok⟩ := h.room hb (by omega)
      rw [hok] at herror
      cases herror
    exact .inr ⟨h.overflow hb herror, (Nat.le_add_right ..).trans hlarge, fun _ => hlarge⟩

/-- What follows a course without an error, and makes these bytes, appends them. -/
theorem Follows.writes (h : Follows spare f c (· = bs)) (hstop : c.stop = none) (hread : c.readable)
    (hsize : c.size = bs.length) : Writes spare f bs := by
  have herror {b e} (hb : b.Fits) (hf : f b = .error e) :
      e = .overflow ∧ 2 ^ 30 + spare ≤ b.size + bs.length := by
    rcases h.error hb hf with ⟨hsome, -⟩ | ⟨he, -, hlarge⟩
    · rw [hstop] at hsome
      cases hsome
    · exact ⟨he, hsize ▸ hlarge hstop⟩
  refine ⟨fun hb hok => ?_, fun {b} hb hlt => ?_, fun hb hf => (herror hb hf).1⟩
  · obtain ⟨-, hb', _, hbytes, -, hG⟩ := h.ok hb hok
    exact ⟨hb', hG hread ▸ hbytes⟩
  · cases hf : f b with
    | ok b' => exact ⟨b', rfl⟩
    | error e =>
      have := (herror hb hf).2
      omega

theorem Follows.bind (hf : Follows 0 f c G) (hg : Follows spare g d H)
    (hspare : d.stop = none → spare ≤ d.size) :
    Follows spare (fun b => f b >>= g) (c.andThen d) fun bs => ∃ x y, bs = x ++ y ∧ G x ∧ H y where
  ok hb h := by
    obtain ⟨b₁, hfb, hgb⟩ := bind_eq_ok_iff.mp h
    obtain ⟨hc, hb₁, x, hx, hxlen, hG⟩ := hf.ok hb hfb
    obtain ⟨hd, hb', y, hy, hylen, hH⟩ := hg.ok hb₁ hgb
    rw [Course.andThen_of_none hc]
    refine ⟨hd, hb', x ++ y, by rw [hy, hx, append_assoc], ?_, fun hread => ?_⟩
    · rw [length_append, hxlen, hylen]
    · exact ⟨x, y, rfl, hG hread.1, hH hread.2⟩
  error {b e} hb h := by
    cases hfb : f b with
    | error e' =>
      rw [hfb] at h
      obtain rfl := Except.error.inj h
      rcases hf.error hb hfb with ⟨hstop, hle⟩ | ⟨he, hle, hnone⟩
      · rw [Course.andThen_of_some hstop]
        exact .inl ⟨hstop, hle⟩
      · refine .inr ⟨he, ?_⟩
        cases hstop : c.stop with
        | some e =>
          rw [Course.andThen_of_some hstop, hstop]
          exact ⟨hle, nofun⟩
        | none =>
          rw [Course.andThen_of_none hstop]
          change 2 ^ 30 ≤ b.size + (c.size + d.size) ∧
            (d.stop = none → 2 ^ 30 + spare ≤ b.size + (c.size + d.size))
          refine ⟨by omega, fun hd => ?_⟩
          have := hspare hd
          omega
    | ok b₁ =>
      rw [hfb] at h
      obtain ⟨hc, hb₁, x, hx, hxlen, -⟩ := hf.ok hb hfb
      have hsize : b₁.size = b.size + c.size := by
        rw [Bson.size, hx, length_append, hxlen]
        rfl
      have hrest := hg.error hb₁ h
      rw [hsize] at hrest
      rwa [Course.andThen_of_none hc, ← Nat.add_assoc]

theorem Follows.imp (h : Follows spare f c G)
    (hGH : ∀ bs, bs.length = c.size → bs.length ≤ 2 ^ 30 → c.readable → G bs → H bs) :
    Follows spare f c H where
  ok hb hok := by
    obtain ⟨hstop, hb', bs, hbytes, hlen, hG⟩ := h.ok hb hok
    exact ⟨hstop, hb', bs, hbytes, hlen,
      fun hread => hGH bs hlen (hb'.length_le hbytes) hread (hG hread)⟩
  error := h.error

theorem Follows.mono (h : Follows spare f c G) : Follows 0 f c G where
  ok := h.ok
  error hb herror := (h.error hb herror).imp_right fun ⟨he, hle, _⟩ => ⟨he, hle, fun _ => hle⟩

theorem Writes.mono (h : Writes spare f bs) : Writes 0 f bs where
  ok := h.ok
  room hb hlt := h.room hb (by omega)
  overflow := h.overflow

theorem Writes.bind (hf : Writes 0 f bs) (hg : Writes spare g bs') (hspare : spare ≤ bs'.length) :
    Writes spare (fun b => f b >>= g) (bs ++ bs') := by
  have hboth := (hf.follows (P := True) (G := (· = bs)) fun _ _ => rfl).bind
    (hg.follows (P := True) (G := (· = bs')) fun _ _ => rfl) fun _ => hspare
  refine (hboth.imp ?_).writes rfl ⟨trivial, trivial⟩ length_append.symm
  rintro _ - - - ⟨_, _, rfl, rfl, rfl⟩
  rfl

/-- The bytes before the length stay, and the four of the length are replaced. -/
theorem Bson.Fits.writeLength {b b' : Bson} (hb' : b'.Fits)
    (hbytes : b'.bytes = b.bytes ++ ([0, 0, 0, 0] ++ bs)) (v : ℕ) :
    (b'.writeLength v b.size).Fits ∧
      (b'.writeLength v b.size).bytes = b.bytes ++ (leBytes 4 v ++ bs) := by
  have hdrop : b'.bytes.drop (b.size + 4) = bs := by
    rw [hbytes, ← append_assoc]
    exact drop_left' (by rw [length_append]; rfl)
  have hnew : (b'.writeLength v b.size).bytes = b.bytes ++ (leBytes 4 v ++ bs) := by
    rw [Bson.writeLength, hdrop, hbytes]
    change (b.bytes ++ _).take b.bytes.length ++ _ ++ _ = _
    rw [take_left, append_assoc]
  refine ⟨⟨hb'.cap, ?_⟩, hnew⟩
  have hle := hb'.le
  rw [size, hbytes] at hle
  rw [size, hnew]
  simp only [length_append, length_leBytes] at hle ⊢
  exact hle

theorem size_sub_of_reserved {b b' : Bson} (hbytes : b'.bytes = b.bytes ++ ([0, 0, 0, 0] ++ bs)) :
    b'.size - b.size = bs.length + 4 := by
  rw [Bson.size, hbytes, length_append, Bson.size, Nat.add_sub_cancel_left, length_append]
  exact add_comm ..

/-- The length is filled in when what it is the length of has been written. -/
theorem Follows.patch (hf : Follows spare f c G) (hspare : c.stop = none → spare ≤ c.size)
    (v : ℕ → ℕ) :
    Follows spare (fun b => b.reserveLength >>= fun b₁ => f b₁ >>= fun b₂ =>
      .ok (b₂.writeLength (v (b₂.size - b.size)) b.size)) ((Course.bytes 4).andThen c)
      fun bs => ∃ y, bs = leBytes 4 (v (y.length + 4)) ++ y ∧ G y := by
  have hhead : Follows 0 (fun b => b.reserveLength) (.bytes 4) (· = [0, 0, 0, 0]) :=
    (writes_write [0, 0, 0, 0]).follows fun _ _ => rfl
  have hboth := hhead.bind hf hspare
  refine ⟨fun {b b'} hb h => ?_, fun {b e} hb h => ?_⟩
  · obtain ⟨b₁, hres, h⟩ := bind_eq_ok_iff.mp h
    obtain ⟨b₂, hfb, h⟩ := bind_eq_ok_iff.mp h
    obtain rfl := Except.ok.inj h
    obtain ⟨hb₁, hhead⟩ := (writes_write [0, 0, 0, 0]).ok hb hres
    obtain ⟨hstop, hb₂, y, hy, hlen, hG⟩ := hf.ok hb₁ hfb
    have hbytes : b₂.bytes = b.bytes ++ ([0, 0, 0, 0] ++ y) := by rw [hy, hhead, append_assoc]
    obtain ⟨hfits, hnew⟩ := hb₂.writeLength hbytes (v (b₂.size - b.size))
    refine ⟨hstop, hfits, _, hnew, ?_, fun hread => ⟨y, ?_, hG hread.2⟩⟩
    · rw [length_append, length_leBytes, hlen]
      rfl
    · rw [size_sub_of_reserved hbytes]
  · rw [← bind_assoc] at h
    cases hfb : b.reserveLength >>= f with
    | ok b₂ =>
      rw [hfb] at h
      cases h
    | error e' =>
      rw [hfb] at h
      obtain rfl := Except.error.inj h
      exact hboth.error hb hfb

theorem Writes.patch (hf : Writes spare f bs) (hspare : spare ≤ bs.length) (v : ℕ → ℕ) :
    Writes spare (fun b => b.reserveLength >>= fun b₁ => f b₁ >>= fun b₂ =>
      .ok (b₂.writeLength (v (b₂.size - b.size)) b.size))
      (leBytes 4 (v (bs.length + 4)) ++ bs) := by
  have hpatch := (hf.follows (P := True) (G := (· = bs)) fun _ _ => rfl).patch (fun _ => hspare) v
  refine (hpatch.imp ?_).writes rfl ⟨trivial, trivial⟩ (by rw [length_append, length_leBytes]; rfl)
  rintro _ - - - ⟨_, rfl, rfl⟩
  rfl

end Writes

/-! ### The elements -/

theorem writes_appendKey (type : UInt8) (key : List UInt8) :
    Writes 0 (fun b => b.appendKey type key) (type :: (key ++ [0])) :=
  (writes_write [type]).bind (writes_write (key ++ [0])) (zero_le _)

theorem Writes.keyed {f : Bson → Except BsonError Bson} {bs : List UInt8} (hf : Writes 0 f bs)
    (type : UInt8) (key : List UInt8) :
    Writes 0 (fun b => b.appendKey type key >>= f) (type :: (key ++ [0]) ++ bs) :=
  Writes.bind (writes_appendKey type key) hf (zero_le _)

/-- A value is written as an element of any name. -/
def Appends (block : UserBlock) (pack : DictPacker) (v : LuaValue ℕ) : Prop :=
  ∀ key, Writes 0 (fun b => appendOne block pack b key v) (bsonType v :: (key ++ [0]) ++ payload v)

section Scalars

variable {block : UserBlock} {pack : DictPacker}

theorem appends_integer (i : Int64) : Appends block pack (.scalar (.integer i)) := fun key => by
  change Writes 0 (fun b => appendInteger b key i) _
  rw [bsonType, payload]
  unfold appendInteger
  split_ifs with h
  · exact (writes_write _).keyed _ key
  · exact (writes_write _).keyed _ key

theorem appends_real (d : UInt64) : Appends block pack (.scalar (.real d)) := fun key => by
  rw [payload]
  exact (writes_write _).keyed _ key

theorem appends_boolean (v : Bool) : Appends block pack (.scalar (.boolean v)) := fun key => by
  rw [payload]
  exact (writes_write _).keyed _ key

theorem writes_appendString (key str : List UInt8) : Writes 0 (fun b => appendString b key str)
    (bsonString :: (key ++ [0]) ++ (leBytes 4 (str.length + 1) ++ (str ++ [0]))) :=
  ((writes_write (str ++ [0])).patch (zero_le _) fun _ => str.length + 1).keyed _ key

theorem appendOne_plain {str : List UInt8} (hstr : ∀ subt rest, str ≠ 0 :: subt :: rest) (b : Bson)
    (key : List UInt8) :
    appendOne block pack b key (.scalar (.string str)) = appendString b key str := by
  rw [appendOne]
  exact hstr

theorem appends_string {str : List UInt8} (hstr : str.head? ≠ some 0) :
    Appends block pack (.scalar (.string str)) := fun key => by
  have hplain : ∀ subt rest, str ≠ 0 :: subt :: rest := by
    rintro subt rest rfl
    exact hstr rfl
  rw [funext fun b => appendOne_plain hplain b key, payload]
  exact writes_appendString key str

end Scalars

section Tables

variable {block : UserBlock} {entries : List (LuaScalar × LuaValue ℕ)}

theorem bsonNumstr_eq (i : ℕ) : bsonNumstr i = decimal i := by
  unfold bsonNumstr
  split_ifs
  · exact take_left
  · rfl

theorem sequence_key
    (hkeys : entries.map (·.1) = (List.range entries.length).map fun i => indexKey (i + 1)) {j : ℕ}
    (hj : j < entries.length) : entries[j].1 = indexKey (j + 1) := by
  have hget : (entries.map (·.1))[j]? =
      ((List.range entries.length).map fun i => indexKey (i + 1))[j]? := by rw [hkeys]
  simpa [hj] using hget

/-- A sequence is found to be an array: its last element has nothing behind it. -/
theorem isArray_sequence (hne : entries ≠ [])
    (hkeys : entries.map (·.1) = (List.range entries.length).map fun i => indexKey (i + 1))
    (hlen : entries.length < 2 ^ 63) : isArray entries.length (ofEntries entries) = .ok true := by
  have hpos : 0 < entries.length := length_pos_iff.mpr hne
  have hsplit : ofEntries entries = ofEntries entries.dropLast ++
      [(.scalar (entries.getLast hne).1, (entries.getLast hne).2)] := by
    conv_lhs => rw [← dropLast_append_getLast hne]
    exact map_append ..
  have hfirst : ∀ e ∈ ofEntries entries.dropLast,
      (!e.1.isKey (.integer (Int64.ofNat entries.length))) = true := by
    intro e he
    obtain ⟨e, hmem, rfl⟩ := mem_map.mp he
    obtain ⟨j, hj, rfl⟩ := getElem_of_mem hmem
    rw [length_dropLast] at hj
    have hkey : (entries.dropLast[j]).1 = indexKey (j + 1) := by
      rw [getElem_dropLast]
      exact sequence_key hkeys (by omega)
    have hother : indexKey (j + 1) ≠ indexKey entries.length := fun h => by
      have := indexKey_inj (by omega) hlen h
      omega
    change (!isKey (indexKey entries.length) (.scalar (entries.dropLast[j]).1)) = true
    rw [hkey]
    simpa [isKey] using hother
  have hlast : (entries.getLast hne).1 = indexKey entries.length := by
    rw [getLast_eq_getElem, sequence_key hkeys (by omega), Nat.sub_add_cancel hpos]
  rw [isArray, if_neg hpos.ne', hsplit, dropWhile_append_of_pos hfirst, dropWhile_cons_of_neg]
  rw [hlast]
  simp [isKey, indexKey]

variable (tolstring : LuaScalar → List UInt8)

variable {array : Bool} {left : ℕ} {es : LuaEntries ℕ}

theorem entryKey_index {j : ℕ} (hj : j < 2 ^ 32) :
    entryKey tolstring true (.scalar (indexKey (j + 1))) = .ok (decimal j) := by
  have hindex : arrayIndex (Int64.ofNat (j + 1)) = j := by
    rw [arrayIndex, Int64.toUInt64_ofNat', UInt64.toNat_ofNat']
    omega
  rw [indexKey, entryKey, if_pos rfl, hindex, bsonNumstr_eq]

theorem writes_packEntries {pack : DictPacker} {i : ℕ}
    (hnames : ∀ j (hj : j < entries.length), entryKey tolstring array (.scalar entries[j].1) =
      .ok (elementName array (i + j) (.scalar entries[j].1)))
    (hvalues : ∀ e ∈ entries, Appends block pack e.2) :
    Writes 0 (packEntries block tolstring pack array (ofEntries entries))
      (elements array i (ofEntries entries)) := by
  induction entries generalizing i with
  | nil => exact writes_ok
  | cons e entries ih =>
    obtain ⟨hvalue, hvalues⟩ := forall_mem_cons.mp hvalues
    have hname : entryKey tolstring array (.scalar e.1) =
        .ok (elementName array i (.scalar e.1)) := hnames 0 (succ_pos _)
    have hrest := ih (i := i + 1) (fun j hj => by
      rw [add_right_comm]
      exact hnames (j + 1) (succ_lt_succ hj)) hvalues
    have hloop : packEntries block tolstring pack array (ofEntries (e :: entries)) =
        fun b => appendOne block pack b (elementName array i (.scalar e.1)) e.2 >>=
          packEntries block tolstring pack array (ofEntries entries) := by
      funext b
      change (entryKey tolstring array (.scalar e.1) >>= _) = _
      rw [hname]
      rfl
    rw [hloop]
    exact (hvalue _).bind hrest (zero_le _)

theorem packDict_succ (left : ℕ) (array : Bool) (es : LuaEntries ℕ) :
    packDict block tolstring (left + 1) array es = fun b => b.reserveLength >>= fun b₁ =>
      (packEntries block tolstring (packDict block tolstring left) array es b₁ >>=
        fun b₂ => b₂.write [0]) >>= fun b₂ => .ok (b₂.writeLength (b₂.size - b.size) b.size) := by
  funext b
  rw [packDict]
  simp only [bind_assoc]
  rfl

/-- A document has its real length in front, and a zero behind its elements. -/
theorem Writes.dict {w : List UInt8}
    (h : Writes 0 (packEntries block tolstring (packDict block tolstring left) array es) w) :
    Writes 1 (packDict block tolstring (left + 1) array es) (document w) := by
  have hbody := h.bind (writes_byte 0) (by rfl)
  have hpatch := hbody.patch (by simp) id
  rw [document, append_assoc, packDict_succ]
  rwa [length_append] at hpatch

theorem writes_packDict
    (hnames : ∀ j (hj : j < entries.length), entryKey tolstring array (.scalar entries[j].1) =
      .ok (elementName array j (.scalar entries[j].1)))
    (hvalues : ∀ e ∈ entries, Appends block (packDict block tolstring left) e.2) :
    Writes 1 (packDict block tolstring (left + 1) array (ofEntries entries))
      (document (elements array 0 (ofEntries entries))) :=
  (writes_packEntries tolstring (i := 0) (fun j hj => by
    rw [zero_add]
    exact hnames j hj) hvalues).dict

theorem appends_table {left len : ℕ} (harray : isArray len (ofEntries entries) = .ok array)
    (hlen : array = decide (len ≠ 0))
    (hnames : ∀ j (hj : j < entries.length), entryKey tolstring array (.scalar entries[j].1) =
      .ok (elementName array j (.scalar entries[j].1)))
    (hvalues : ∀ e ∈ entries, Appends block (packDict block tolstring left) e.2) :
    Appends block (packDict block tolstring (left + 1)) (.table len (ofEntries entries)) := by
  intro key
  have hdict := (writes_packDict tolstring hnames hvalues).mono
  have htype : (if array = true then bsonArray else bsonDocument) =
      bsonType (.table len (ofEntries entries)) := by
    rw [bsonType, hlen]
    by_cases h : len = 0 <;> simp [h]
  have happend : ∀ b, appendOne block (packDict block tolstring (left + 1)) b key
        (.table len (ofEntries entries)) =
      b.appendKey (bsonType (.table len (ofEntries entries))) key >>=
        packDict block tolstring (left + 1) array (ofEntries entries) := by
    intro b
    change (isArray len (ofEntries entries) >>= _) = _
    rw [harray, ← htype]
    rfl
  rw [funext happend, payload, ← hlen]
  exact hdict.keyed _ key

/-- The values in a table are not larger than the table, nor are they more. -/
theorem le_elementsSize (entries : List (LuaScalar × LuaValue ℕ)) (array : Bool) (i : ℕ) :
    entries.length ≤ elementsSize array i (ofEntries entries) ∧
      ∀ e ∈ entries, bsonSize e.2 ≤ elementsSize array i (ofEntries entries) := by
  induction entries generalizing i with
  | nil => exact ⟨zero_le _, nofun⟩
  | cons e entries ih =>
    obtain ⟨hlen, hvalues⟩ := ih (i + 1)
    have hsize : elementsSize array i (ofEntries (e :: entries)) =
        (elementName array i (.scalar e.1)).length + bsonSize e.2 + 2 +
          elementsSize array (i + 1) (ofEntries entries) := rfl
    rw [hsize, length_cons]
    refine ⟨by omega, forall_mem_cons.mpr ⟨by omega, fun e he => ?_⟩⟩
    have := hvalues e he
    omega

theorem entryKey_document (hkeys : ∀ e ∈ entries, ∃ key, e.1 = .string key ∧ 0 ∉ key) :
    ∀ j (hj : j < entries.length), entryKey tolstring false (.scalar entries[j].1) =
      .ok (elementName false j (.scalar entries[j].1)) := by
  intro j hj
  obtain ⟨key, hkey, -⟩ := hkeys _ (getElem_mem hj)
  rw [hkey]
  rfl

theorem entryKey_sequence
    (hkeys : entries.map (·.1) = (List.range entries.length).map fun i => indexKey (i + 1))
    (hlen : entries.length < 2 ^ 32) :
    ∀ j (hj : j < entries.length), entryKey tolstring true (.scalar entries[j].1) =
      .ok (elementName true j (.scalar entries[j].1)) := by
  intro j hj
  rw [sequence_key hkeys hj, entryKey_index tolstring (hj.trans hlen)]
  rfl

/-- The writer makes the bytes of a value. -/
theorem Bsonable.appends {v : LuaValue ℕ} (h : Bsonable left v) (hsize : bsonSize v < 2 ^ 31) :
    Appends block (packDict block tolstring left) v := by
  induction h with
  | integer i => exact appends_integer i
  | real d => exact appends_real d
  | boolean v => exact appends_boolean v
  | string hstr => exact appends_string hstr
  | @document left entries hnodup hkeys hvalues ih =>
    obtain ⟨-, hle⟩ := le_elementsSize entries (decide (0 ≠ 0)) 0
    rw [bsonSize] at hsize
    refine appends_table tolstring rfl rfl (entryKey_document tolstring hkeys) fun e he => ?_
    have := hle e he
    exact ih e he (by omega)
  | @array left entries hne hkeys hvalues ih =>
    obtain ⟨hlen, hle⟩ := le_elementsSize entries (decide (entries.length ≠ 0)) 0
    rw [bsonSize] at hsize
    have harray : true = decide (entries.length ≠ 0) :=
      (decide_eq_true (length_pos_iff.mpr hne).ne').symm
    refine appends_table tolstring (isArray_sequence hne hkeys (by omega)) harray
      (entryKey_sequence tolstring hkeys (by omega)) fun e he => ?_
    have := hle e he
    exact ih e he (by omega)

theorem Writes.lencodeWith {bs : List UInt8}
    (h : Writes 1 (packDict block tolstring (bsonMaxDepth + 1) false es) bs) (bytes : List UInt8) :
    lencodeWith block tolstring es = .ok bytes ↔ bytes = bs ∧ bs.length ≤ 2 ^ 30 := by
  constructor
  · intro hcode
    obtain ⟨b, hb, rfl⟩ := map_eq_ok_iff.mp hcode
    obtain ⟨hfits, hbytes⟩ := h.ok fits_create hb
    have hle := hfits.le.trans hfits.cap_le
    rw [Bson.size, hbytes] at hle
    exact ⟨hbytes, hle⟩
  · rintro ⟨rfl, hle⟩
    obtain ⟨b, hb⟩ := h.room fits_create (by
      change 0 + _ < _
      omega)
    exact map_eq_ok_iff.mpr ⟨b, hb, (h.ok fits_create hb).2⟩

/-- What is written for a table, if anything is; and something is written if and only if it has no
more than 2^30 bytes. -/
theorem lencode_iff (h : Bsonable (bsonMaxDepth + 1) (.table 0 es))
    (hsize : bsonSize (.table 0 es) < 2 ^ 31) (bytes : List UInt8) :
    lencode tolstring es = .ok bytes ↔
      bytes = payload (.table 0 es) ∧ bsonSize (.table 0 es) ≤ 2 ^ 30 := by
  have hdict : Writes 1 (packDict (fun _ => none) tolstring (bsonMaxDepth + 1) false es)
      (payload (.table 0 es)) := by
    obtain ⟨entries, rfl, -, hkeys, hvalues⟩ := h.exists_document
    rw [bsonSize] at hsize
    refine writes_packDict tolstring (entryKey_document tolstring hkeys) fun e he => ?_
    have := (le_elementsSize _ (decide (0 ≠ 0)) 0).2 e he
    exact (hvalues e he).appends tolstring (by omega)
  rw [lencode, hdict.lencodeWith, length_payload]

end Tables

/-- A table with an array, a float and a number that needs eight bytes. -/
def sampleTable : LuaEntries ℕ :=
  ofEntries [(.string [97], .table 2 (ofEntries [(indexKey 1, .scalar (.boolean true)),
    (indexKey 2, .scalar (.string [104, 105]))])), (.string [98], .scalar (.integer (2 ^ 40))),
    (.string [], .scalar (.real 0x3ff8000000000000)), (.string [99], .table 0 [])]

example : lencode (fun _ => []) sampleTable = .ok (payload (.table 0 sampleTable)) := by decide

end Uboss.Lib
