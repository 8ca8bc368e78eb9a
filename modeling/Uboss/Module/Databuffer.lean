import Mathlib.Data.List.Basic
import Uboss.Math.LittleEndian

/-!
# The data of a connection

`databuffer.h`: the data that a gate has received and not yet read, as the chunks in which it has
come. A read that goes over the end of a chunk gives its node back to the pool. A function has no
result where the source would stop at an assertion or read from a null pointer. The sizes have no
bound: 2^31 buffered bytes of a connection, where `size` would overflow, are left out.
-/

namespace Uboss.Module

open Math List Option Nat

def messagePool : ℕ := 1023

/-- `struct message`: a node of the pool and its chunk. The `size` is the length of `buffer`. -/
structure Message where
  node : ℕ
  buffer : List UInt8
  deriving DecidableEq

/-- `struct databuffer`. The list of the messages starts at `head`. -/
structure Databuffer where
  header : ℤ
  offset : ℕ
  size : ℕ
  head : List Message
  tail : Option ℕ
  deriving DecidableEq

/-- `struct messagepool`: how many blocks were allocated, and the nodes that are free. -/
structure MessagePool where
  pool : ℕ
  freelist : List ℕ
  deriving DecidableEq

/-- A node for a chunk: the first free one, or the first one of a new block. -/
def MessagePool.take (mp : MessagePool) : ℕ × MessagePool :=
  match mp.freelist with
  | node :: freelist => (node, { mp with freelist })
  | [] =>
    let first := mp.pool * messagePool
    (first, ⟨mp.pool + 1, List.range' (first + 1) (messagePool - 1)⟩)

/-- `_return_message`, for a node. -/
def MessagePool.give (mp : MessagePool) (node : ℕ) : MessagePool :=
  { mp with freelist := node :: mp.freelist }

/-- The value of a header: `header_size` bytes, the highest first. Four bytes are an `int`. -/
def headerOf (headerSize : ℕ) (plen : List UInt8) : ℤ :=
  if headerSize = 2 then leNat plen.reverse else Int.bmod (leNat plen.reverse) (2 ^ 32)

namespace Databuffer

/-- What `memset` makes. -/
def empty : Databuffer := ⟨0, 0, 0, [], none⟩

variable (db : Databuffer) (mp : MessagePool)

def returnMessage : Option (Databuffer × MessagePool) :=
  match db.head with
  | [] => none
  | [m] => if db.tail = some m.node then some ({ db with head := [], tail := none }, mp.give m.node)
    else none
  | m :: ms => some ({ db with head := ms }, mp.give m.node)

/-- The loop of `databuffer_read`, with what it has copied. Every round but the last gives a node
back. -/
def readLoop : ℕ → Databuffer → MessagePool → List UInt8 → ℕ →
    Option (List UInt8 × Databuffer × MessagePool)
  | 0, _, _, _, _ => none
  | rounds + 1, db, mp, buffer, sz =>
    match db.head with
    | [] => none
    | current :: _ =>
      let bytes := current.buffer.drop db.offset
      let bsz := current.buffer.length - db.offset
      if sz < bsz then some (buffer ++ bytes.take sz, { db with offset := db.offset + sz }, mp)
      else if bsz = sz then
        ({ db with offset := 0 }.returnMessage mp).map fun r => (buffer ++ bytes.take sz, r)
      else
        (db.returnMessage mp).bind fun r =>
          readLoop rounds { r.1 with offset := 0 } r.2 (buffer ++ bytes) (sz - bsz)

/-- `databuffer_read`. -/
def read (sz : ℕ) : Option (List UInt8 × Databuffer × MessagePool) :=
  if db.size < sz then none
  else readLoop db.head.length { db with size := db.size - sz } mp [] sz

/-- `databuffer_push`. -/
def push (data : List UInt8) : Option (Databuffer × MessagePool) :=
  let m : Message := ⟨mp.take.1, data⟩
  if db.tail = db.head.getLast?.map Message.node then
    some ({ db with size := db.size + data.length, head := db.head ++ [m], tail := some m.node },
      mp.take.2)
  else none

/-- The end of `databuffer_readheader`: `-1` as long as the packet is not complete. -/
def awaitBody : ℤ × Databuffer × MessagePool :=
  (if (db.size : ℤ) < db.header then -1 else db.header, db, mp)

/-- `databuffer_readheader`. -/
def readHeader (headerSize : ℕ) : Option (ℤ × Databuffer × MessagePool) :=
  if db.header = 0 then
    if db.size < headerSize then some (-1, db, mp)
    else (db.read mp headerSize).map fun r =>
      awaitBody { r.2.1 with header := headerOf headerSize r.1 } r.2.2
  else some (db.awaitBody mp)

/-- `databuffer_reset`. -/
def reset : Databuffer := { db with header := 0 }

/-- The loop of `databuffer_clear`, which gives all nodes back. -/
def clearLoop : ℕ → Databuffer → MessagePool → Option MessagePool
  | 0, db, mp => if db.head = [] then some mp else none
  | rounds + 1, db, mp =>
    if db.head = [] then some mp
    else (db.returnMessage mp).bind fun r => clearLoop rounds r.1 r.2

/-- `databuffer_clear`. -/
def clear : Option (Databuffer × MessagePool) :=
  (clearLoop db.head.length db mp).map fun mp => (empty, mp)

/-! ### The bytes of a buffer -/

/-- The bytes that are left. -/
def unread : List UInt8 := (db.head.flatMap Message.buffer).drop db.offset

/-- The invariant of a buffer: the read position is in the first chunk, and `size` and `tail` are
what they have to be. -/
structure Valid : Prop where
  offset : db.offset ≤ (db.head.head?.map fun m => m.buffer.length).getD 0
  size : db.size = db.unread.length
  tail : db.tail = db.head.getLast?.map Message.node

variable {m : Message} {ms : List Message} {sz headerSize : ℕ}

/-- The first chunk, from the read position on, and the other chunks. -/
theorem unread_of_head (hhead : db.head = m :: ms) (hoffset : db.offset ≤ m.buffer.length) :
    db.unread = m.buffer.drop db.offset ++ ms.flatMap Message.buffer := by
  rw [unread, hhead, flatMap_cons, drop_append_of_le_length hoffset]

theorem returnMessage_of_head (hhead : db.head = m :: ms)
    (htail : db.tail = db.head.getLast?.map Message.node) :
    db.returnMessage mp =
      some ({ db with head := ms, tail := ms.getLast?.map Message.node }, mp.give m.node) := by
  rw [hhead] at htail
  unfold returnMessage
  rw [hhead]
  cases ms with
  | nil => exact if_pos htail
  | cons n ms =>
    rw [getLast?_cons_cons] at htail
    rw [← htail]

/-- Reading from chunks that have enough: the bytes come from the front. -/
theorem readLoop_of_valid (buffer : List UInt8) (sz : ℕ) (hhead : db.head = ms)
    (htail : db.tail = db.head.getLast?.map Message.node)
    (hoffset : db.offset ≤ (db.head.head?.map fun m => m.buffer.length).getD 0) (hpos : 0 < sz)
    (hsz : sz ≤ db.unread.length) :
    ∃ db' mp', readLoop ms.length db mp buffer sz = some (buffer ++ db.unread.take sz, db', mp') ∧
      db'.unread = db.unread.drop sz ∧ db'.header = db.header ∧ db'.size = db.size ∧
      db'.tail = db'.head.getLast?.map Message.node ∧
      db'.offset ≤ (db'.head.head?.map fun m => m.buffer.length).getD 0 := by
  induction ms generalizing db mp sz buffer with
  | nil =>
    rw [unread, hhead, flatMap_nil, drop_nil, length_nil] at hsz
    omega
  | cons m ms ih =>
    obtain ⟨header, offset, size, head, tail⟩ := db
    obtain rfl : head = m :: ms := hhead
    have hfirst : offset ≤ m.buffer.length := hoffset
    have hunread : (⟨header, offset, size, m :: ms, tail⟩ : Databuffer).unread =
        m.buffer.drop offset ++ ms.flatMap Message.buffer :=
      unread_of_head _ rfl hfirst
    have hlength : (m.buffer.drop offset).length = m.buffer.length - offset := length_drop
    rw [hunread, length_append] at hsz
    rw [hunread, length_cons, readLoop]
    simp only
    split_ifs with hinside hend
    · -- the read ends inside the chunk
      have hle : sz ≤ (m.buffer.drop offset).length := by omega
      have hoffset' : offset + sz ≤ m.buffer.length := by omega
      refine ⟨⟨header, offset + sz, size, m :: ms, tail⟩, mp, ?_, ?_, rfl, rfl, htail, hoffset'⟩
      · rw [take_append_of_le_length hle]
      · rw [← hunread, unread, unread, drop_drop]
    · -- the read ends with the chunk
      have heq : sz = (m.buffer.drop offset).length := by omega
      rw [returnMessage_of_head ⟨header, 0, size, m :: ms, tail⟩ mp rfl htail, map_some]
      refine ⟨⟨header, 0, size, ms, ms.getLast?.map Message.node⟩, mp.give m.node, ?_, ?_, rfl, rfl,
        rfl, zero_le _⟩
      · rw [take_append_of_le_length heq.le]
      · rw [heq, drop_left]
        rfl
    · -- the read goes on with the next chunk
      have hlt : (m.buffer.drop offset).length < sz := by omega
      rw [returnMessage_of_head ⟨header, offset, size, m :: ms, tail⟩ mp rfl htail, bind_some]
      have hrest : (⟨header, 0, size, ms, ms.getLast?.map Message.node⟩ : Databuffer).unread =
        ms.flatMap Message.buffer := rfl
      obtain ⟨db', mp', hloop, hdrop, hkeep⟩ :=
        ih ⟨header, 0, size, ms, ms.getLast?.map Message.node⟩ (mp.give m.node)
          (buffer ++ m.buffer.drop offset) (sz - (m.buffer.length - offset)) rfl rfl (zero_le _)
          (by omega) (by rw [hrest]; omega)
      refine ⟨db', mp', ?_, ?_, hkeep⟩
      · refine hloop.trans ?_
        rw [hrest, take_append, take_of_length_le hlt.le, hlength, append_assoc]
      · rw [hdrop, hrest, drop_append, drop_of_length_le hlt.le, hlength, nil_append]

namespace Valid

variable {db}

theorem empty : Databuffer.empty.Valid := ⟨le_refl _, rfl, rfl⟩

theorem offset_le_length (h : db.Valid) : db.offset ≤ (db.head.flatMap Message.buffer).length := by
  have hoffset := h.offset
  cases hhead : db.head with
  | nil =>
    rw [hhead] at hoffset
    exact hoffset
  | cons m ms =>
    rw [hhead] at hoffset
    rw [flatMap_cons, length_append]
    exact le_add_right_of_le hoffset

theorem read (h : db.Valid) (hpos : 0 < sz) (hsz : sz ≤ db.size) :
    ∃ db' mp', db.read mp sz = some (db.unread.take sz, db', mp') ∧ db'.Valid ∧
      db'.unread = db.unread.drop sz ∧ db'.header = db.header := by
  have hlength := h.size
  obtain ⟨db', mp', hloop, hunread, hheader, hsize, htail, hoffset⟩ :=
    readLoop_of_valid { db with size := db.size - sz } mp [] sz rfl h.tail h.offset hpos
      (hsz.trans hlength.le)
  refine ⟨db', mp', ?_, ⟨hoffset, ?_, htail⟩, hunread, hheader⟩
  · rw [Databuffer.read, if_neg (not_lt.mpr hsz)]
    exact hloop
  · rw [hsize, hunread, length_drop]
    exact congrArg (· - sz) hlength

theorem push (h : db.Valid) (data : List UInt8) :
    ∃ db', db.push mp data = some (db', mp.take.2) ∧ db'.Valid ∧
      db'.unread = db.unread ++ data ∧ db'.header = db.header := by
  have hunread : ((db.head ++ [(⟨mp.take.1, data⟩ : Message)]).flatMap Message.buffer).drop
      db.offset = db.unread ++ data := by
    rw [flatMap_append, drop_append_of_le_length h.offset_le_length, flatMap_singleton]
    rfl
  refine ⟨_, if_pos h.tail, ⟨?_, ?_, ?_⟩, hunread, rfl⟩
  · have hoffset := h.offset
    cases hhead : db.head with
    | nil =>
      rw [hhead] at hoffset
      exact hoffset.trans (zero_le _)
    | cons m ms =>
      rw [hhead] at hoffset
      exact hoffset
  · rw [unread, hunread, length_append]
    exact congrArg (· + data.length) h.size
  · rw [getLast?_concat]
    rfl

theorem clearLoop (htail : db.tail = db.head.getLast?.map Message.node) :
    ∃ mp', clearLoop db.head.length db mp = some mp' := by
  obtain ⟨header, offset, size, head, tail⟩ := db
  induction head generalizing mp tail with
  | nil => exact ⟨mp, rfl⟩
  | cons m ms ih =>
    have hrest : ∃ mp', Databuffer.clearLoop ms.length
        ⟨header, offset, size, ms, ms.getLast?.map Message.node⟩ (mp.give m.node) = some mp' :=
      ih _ _ rfl
    obtain ⟨mp', hloop⟩ := hrest
    refine ⟨mp', ?_⟩
    rw [length_cons, Databuffer.clearLoop, if_neg (cons_ne_nil m ms),
      returnMessage_of_head _ mp rfl htail, bind_some]
    exact hloop

theorem clear (h : db.Valid) : ∃ mp', db.clear mp = some (Databuffer.empty, mp') := by
  obtain ⟨mp', hloop⟩ := clearLoop mp h.tail
  refine ⟨mp', ?_⟩
  rw [Databuffer.clear, hloop, map_some]

theorem reset (h : db.Valid) : db.reset.Valid := ⟨h.offset, h.size, h.tail⟩

end Valid

/-! ### The stream of a buffer

A header that was read is put back in front of the bytes that are left. -/

/-- The bytes that have this value. -/
def headerBytes (headerSize : ℕ) (header : ℤ) : List UInt8 :=
  (leBytes headerSize (header % 2 ^ (8 * headerSize)).toNat).reverse

/-- What was received behind the last packet. -/
def pending (headerSize : ℕ) : List UInt8 :=
  if db.header = 0 then db.unread else headerBytes headerSize db.header ++ db.unread

/-- The header was read from a stream. -/
def Headed (headerSize : ℕ) : Prop := db.header ≠ 0 →
    ∃ plen : List UInt8, plen.length = headerSize ∧ headerOf headerSize plen = db.header

variable {db}

theorem headerBytes_headerOf {plen : List UInt8} (hk : headerSize = 2 ∨ headerSize = 4)
    (hlength : plen.length = headerSize) :
    headerBytes headerSize (headerOf headerSize plen) = plen := by
  have hlt : leNat plen.reverse < 2 ^ (8 * headerSize) := by
    rw [← hlength, ← length_reverse]
    exact leNat_lt
  have hmod : headerOf headerSize plen % 2 ^ (8 * headerSize) = leNat plen.reverse := by
    have hcast : (leNat plen.reverse : ℤ) % 2 ^ (8 * headerSize) = leNat plen.reverse := by
      exact_mod_cast congrArg Nat.cast (Nat.mod_eq_of_lt hlt)
    rcases hk with rfl | rfl
    · exact hcast
    · rw [headerOf, if_neg (by decide)]
      exact (Int.bmod_emod ..).trans hcast
  rw [headerBytes, hmod, Int.toNat_natCast, ← hlength, ← length_reverse, leBytes_leNat,
    reverse_reverse]

theorem headed_of_eq_zero (h : db.header = 0) : db.Headed headerSize := fun hne => absurd h hne

theorem pending_of_eq_zero (h : db.header = 0) : db.pending headerSize = db.unread := if_pos h

theorem length_pending_le : (db.pending headerSize).length ≤ headerSize + db.unread.length := by
  unfold pending
  split_ifs
  · exact le_add_left _ _
  · rw [length_append, headerBytes, length_reverse, length_leBytes]

theorem Headed.pending_eq (h : db.Headed headerSize) (hk : headerSize = 2 ∨ headerSize = 4)
    (hheader : db.header ≠ 0) :
    headerSize ≤ (db.pending headerSize).length ∧
      headerOf headerSize ((db.pending headerSize).take headerSize) = db.header ∧
      (db.pending headerSize).drop headerSize = db.unread := by
  obtain ⟨plen, hlength, hvalue⟩ := h hheader
  have hpending : db.pending headerSize = plen ++ db.unread := by
    rw [pending, if_neg hheader, ← hvalue, headerBytes_headerOf hk hlength]
  rw [hpending, length_append, ← hlength, take_left, drop_left]
  exact ⟨le_add_right _ _, hlength ▸ hvalue, rfl⟩

/-- A buffer that is behind the header of a stream represents this stream. -/
theorem pending_of_header {stream : List UInt8} (hk : headerSize = 2 ∨ headerSize = 4)
    (hle : headerSize ≤ stream.length)
    (hheader : db.header = headerOf headerSize (stream.take headerSize))
    (hunread : db.unread = stream.drop headerSize) (hne : db.header ≠ 0) :
    db.Headed headerSize ∧ db.pending headerSize = stream := by
  have hlength : (stream.take headerSize).length = headerSize := by
    rw [length_take, min_eq_left hle]
  refine ⟨fun _ => ⟨_, hlength, hheader.symm⟩, ?_⟩
  rw [pending, if_neg hne, hheader, headerBytes_headerOf hk hlength, hunread, take_append_drop]

theorem Valid.readHeader (h : db.Valid) (hheaded : db.Headed headerSize)
    (hk : headerSize = 2 ∨ headerSize = 4) :
    (db.pending headerSize).length < headerSize ∧ db.header = 0 ∧
        db.readHeader mp headerSize = some (-1, db, mp) ∨
      headerSize ≤ (db.pending headerSize).length ∧ ∃ (db' : Databuffer) (mp' : MessagePool),
          db.readHeader mp headerSize = some (db'.awaitBody mp') ∧ db'.Valid ∧
          db'.header = headerOf headerSize ((db.pending headerSize).take headerSize) ∧
          db'.unread = (db.pending headerSize).drop headerSize ∧ db'.size ≤ db.size ∧
          (db.header = 0 → db'.size < db.size) := by
  by_cases hheader : db.header = 0
  · rw [pending_of_eq_zero hheader, ← h.size]
    by_cases hshort : db.size < headerSize
    · refine .inl ⟨hshort, hheader, ?_⟩
      rw [Databuffer.readHeader, if_pos hheader, if_pos hshort]
    · have hle : headerSize ≤ db.size := not_lt.mp hshort
      have hpos : 0 < headerSize := by omega
      obtain ⟨db', mp', hread, hvalid, hunread, -⟩ := h.read mp hpos hle
      have hsize : db'.size + headerSize = db.size := by
        rw [hvalid.size, hunread, length_drop, ← h.size, Nat.sub_add_cancel hle]
      refine .inr ⟨hle, { db' with header := headerOf headerSize (db.unread.take headerSize) }, mp',
        ?_, ⟨hvalid.offset, hvalid.size, hvalid.tail⟩, rfl, hunread, ?_, fun _ => ?_⟩
      · rw [Databuffer.readHeader, if_pos hheader, if_neg hshort, hread, map_some]
      · exact le.intro hsize
      · show db'.size < db.size
        omega
  · obtain ⟨hle, hvalue, hunread⟩ := hheaded.pending_eq hk hheader
    refine .inr ⟨hle, db, mp, ?_, h, hvalue.symm, hunread.symm, le_refl _,
      fun hzero => absurd hzero hheader⟩
    rw [Databuffer.readHeader, if_neg hheader]

end Databuffer

end Uboss.Module
