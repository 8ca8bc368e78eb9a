import Uboss.Math.CInt
import Uboss.Math.Loops
import Uboss.Math.PartialMap
import Uboss.Math.RingBuffer
import Uboss.Module.HarborMessage

/-!
# The queues of the harbor

`harbor_msg_queue`, as it lies in memory: the structures, and the blocks that their rings are in.
An `int` may not overflow, a cell that is read has to lie in a block that was not freed and to have
been written. `pop_queue` returns a pointer into the ring; `push_queue_msg` reads its message
through one. One cell of a ring is kept free.

What the buffers of the messages are does not matter here.
-/

namespace Uboss.Module

open Math List Int Nat Function

/-- `DEFAULT_QUEUE_SIZE`. -/
def harborQueueSize : ℕ := 1024

/-- Why a function has no result. -/
inductive HarborQueueFault
  /-- An `int` overflows. -/
  | overflow
  /-- A cell outside of the block is used. -/
  | outside
  /-- A cell is read that was never written. -/
  | unwritten
  /-- A block or a queue is used that is not allocated. -/
  | freed
  /-- The loop of `release_queue` does not end. -/
  | endless
  deriving DecidableEq, Repr

/-- `struct harbor_msg`. -/
structure QueuedMsg (β : Type) where
  header : RemoteMessageHeader
  buffer : β
  size : ℕ

/-- `struct harbor_msg_queue`, where `data` is the number of a block. -/
structure HarborMsgQueue where
  size : ℤ
  head : ℤ
  tail : ℤ
  data : ℕ

/-- A block of memory for messages. -/
structure MsgBlock (β : Type) where
  size : ℕ
  cells : ℕ → Option (QueuedMsg β)

namespace MsgBlock

variable {β : Type} (B : MsgBlock β)

/-- A block after `uboss_malloc`. -/
def new (size : ℕ) : MsgBlock β := ⟨size, fun _ => none⟩

/-- `data[i]`, read. -/
def load (i : ℤ) : Except HarborQueueFault (QueuedMsg β) :=
  if 0 ≤ i ∧ i < B.size then
    match B.cells i.toNat with
    | some m => .ok m
    | none => .error .unwritten
  else .error .outside

/-- `data[i]`, written. -/
def store (i : ℤ) (m : QueuedMsg β) : Except HarborQueueFault (MsgBlock β) :=
  if 0 ≤ i ∧ i < B.size then
    .ok { B with cells := update B.cells i.toNat (some m) }
  else .error .outside

end MsgBlock

/-- A pointer to a message: to a local variable, or to a cell of a block. -/
inductive MsgPtr (β : Type)
  | var (m : QueuedMsg β)
  | cell (data : ℕ) (i : ℤ)

/-- The queues by their addresses, the blocks by their numbers, and the number of the next block. -/
structure HarborHeap (ι β : Type) where
  queue : ι → Option HarborMsgQueue
  block : ℕ → Option (MsgBlock β)
  nextBlock : ℕ

namespace HarborHeap

section Functions

variable {ι β : Type} (w : HarborHeap ι β)

/-- A queue that is allocated. -/
def getQueue (i : ι) : Except HarborQueueFault HarborMsgQueue :=
  match w.queue i with
  | some q => .ok q
  | none => .error .freed

/-- A block that is allocated. -/
def getBlock (data : ℕ) : Except HarborQueueFault (MsgBlock β) :=
  match w.block data with
  | some B => .ok B
  | none => .error .freed

/-- `*m`. -/
def deref : MsgPtr β → Except HarborQueueFault (QueuedMsg β)
  | .var m => .ok m
  | .cell data i => do
    let B ← w.getBlock data
    B.load i

/-- A round of the loop of `push_queue_msg`. -/
def copyMsg (q : HarborMsgQueue) (data newBuffer : MsgBlock β) (i : ℕ) :
    Except HarborQueueFault (MsgBlock β) := do
  let j ← checkInt .overflow (i + q.head)
  let m ← data.load (j.tmod q.size)
  newBuffer.store i m

/-- The part of `push_queue_msg` that makes room, as the queue and its new block. -/
def expand (q : HarborMsgQueue) : Except HarborQueueFault (HarborHeap ι β × HarborMsgQueue) := do
  let size ← checkInt .overflow (q.size * 2)
  let count ← checkInt .overflow (q.size - 1)
  let data ← w.getBlock q.data
  let newBuffer ← (List.range count.toNat).foldlM (copyMsg q data) (.new size.toNat)
  .ok
    ({ w with
        block := update (update w.block q.data none) w.nextBlock (some newBuffer)
        nextBlock := w.nextBlock + 1 },
      ⟨size, 0, count, w.nextBlock⟩)

/-- The test at the beginning of `push_queue_msg`. -/
def makeRoom (q : HarborMsgQueue) : Except HarborQueueFault (HarborHeap ι β × HarborMsgQueue) := do
  let next ← checkInt .overflow (q.tail + 1)
  if next.tmod q.size = q.head then w.expand q else .ok (w, q)

variable [DecidableEq ι]

/-- The part of `push_queue_msg` behind that. -/
def storeMsg (i : ι) (q : HarborMsgQueue) (p : MsgPtr β) :
    Except HarborQueueFault (HarborHeap ι β) := do
  let m ← w.deref p
  let data ← w.getBlock q.data
  let data ← data.store q.tail m
  let next ← checkInt .overflow (q.tail + 1)
  .ok { w with
    queue := update w.queue i (some { q with tail := next.tmod q.size })
    block := update w.block q.data (some data) }

def pushQueueMsg (i : ι) (p : MsgPtr β) : Except HarborQueueFault (HarborHeap ι β) := do
  let q ← w.getQueue i
  let (w, q) ← w.makeRoom q
  w.storeMsg i q p

def pushQueue (i : ι) (buffer : β) (sz : ℕ) (header : RemoteMessageHeader) :
    Except HarborQueueFault (HarborHeap ι β) :=
  w.pushQueueMsg i (.var ⟨header, buffer, sz⟩)

/-- `pop_queue`: a pointer to the message, or `none` for `NULL`. -/
def popQueue (i : ι) : Except HarborQueueFault (Option (MsgPtr β) × HarborHeap ι β) := do
  let q ← w.getQueue i
  if q.head = q.tail then .ok (none, w)
  else do
    let next ← checkInt .overflow (q.head + 1)
    .ok (some (.cell q.data q.head),
        { w with queue := update w.queue i (some { q with head := next.tmod q.size }) })

/-- `new_queue`, where `i` is the address of the new queue. -/
def newQueue (i : ι) : HarborHeap ι β where
  queue := update w.queue i (some ⟨harborQueueSize, 0, 0, w.nextBlock⟩)
  block := update w.block w.nextBlock (some (.new harborQueueSize))
  nextBlock := w.nextBlock + 1

/-- The loop of `release_queue`, with the buffers that are freed. -/
def releaseLoop (i : ι) :
    ℕ → HarborHeap ι β → List β → Except HarborQueueFault (HarborHeap ι β × List β)
  | 0, _, _ => .error .endless
  | fuel + 1, w, buffers => do
    let (p, w) ← w.popQueue i
    match p with
    | none => .ok (w, buffers)
    | some p => do
      let m ← w.deref p
      releaseLoop i fuel w (buffers ++ [m.buffer])

/-- `release_queue`, where `none` is `NULL`. -/
def releaseQueue : Option ι → Except HarborQueueFault (HarborHeap ι β × List β)
  | none => .ok (w, [])
  | some i => do
    let q ← w.getQueue i
    let (w, buffers) ← releaseLoop i q.size.toNat w []
    let q ← w.getQueue i
    let _ ← w.getBlock q.data
    .ok
      ({ w with
          queue := update w.queue i none
          block := update w.block q.data none },
        buffers)

end Functions

end HarborHeap

/-- The queue and its block hold the list `L`, from the head on around the end of the block. -/
structure MsgRing {β : Type} (q : HarborMsgQueue) (B : MsgBlock β) (size head : ℕ)
    (L : List (QueuedMsg β)) : Prop where
  size_eq : q.size = size
  head_eq : q.head = head
  tail_eq : q.tail = ((head + L.length) % size : ℕ)
  block : B.size = size
  head_lt : head < size
  room : L.length < size
  size_pow : ∃ k ≤ 30, size = 2 ^ k
  cells : ringList B.cells size head L.length = L.map some

namespace MsgRing

variable {β : Type} {q : HarborMsgQueue} {B : MsgBlock β} {size head i : ℕ}
  {L : List (QueuedMsg β)} {m : QueuedMsg β}

theorem new (data : ℕ) :
    MsgRing (β := β) ⟨harborQueueSize, 0, 0, data⟩ (.new harborQueueSize) harborQueueSize 0 [] where
  size_eq := rfl
  head_eq := rfl
  tail_eq := rfl
  block := rfl
  head_lt := by decide
  room := zero_lt_succ 1023
  size_pow := ⟨10, by decide, rfl⟩
  cells := rfl

section

variable (h : MsgRing q B size head L)
include h

theorem size_le : size ≤ 2 ^ 30 := by
  obtain ⟨k, hk, rfl⟩ := h.size_pow
  exact Nat.pow_le_pow_right Nat.two_pos hk

theorem cell (hi : L[i]? = some m) : B.cells ((head + i) % size) = some m := by
  have hlt : i < L.length := (List.getElem?_eq_some_iff.mp hi).1
  have hcell : (ringList B.cells size head L.length)[i]? = some (B.cells ((head + i) % size)) :=
    ringList_getElem? hlt
  rw [h.cells, getElem?_map, hi] at hcell
  exact (Option.some_inj.mp hcell).symm

/-- The first element is the head of the list. -/
theorem load (hi : L[i]? = some m) : B.load ((head + i) % size : ℕ) = .ok m := by
  have hmod : (head + i) % size < size := mod_lt _ (zero_lt_of_lt h.head_lt)
  rw [MsgBlock.load, h.block, if_pos (by omega), toNat_natCast, h.cell hi]

/-- The positions are the same if and only if the list is empty. -/
theorem head_eq_tail_iff : q.head = q.tail ↔ L = [] := by
  rw [h.head_eq, h.tail_eq, ofNat_inj, ← length_eq_zero_iff]
  constructor
  · intro heq
    have hsame : (head + 0) % size = (head + L.length) % size := by
      rw [Nat.add_zero, mod_eq_of_lt h.head_lt, ← heq]
    exact (add_mod_injective (zero_lt_of_lt h.room) h.room hsame).symm
  · intro hnil
    rw [hnil, Nat.add_zero, mod_eq_of_lt h.head_lt]

theorem next_tmod (i : ℕ) : (((i % size : ℕ) : ℤ) + 1).tmod q.size = ((i + 1) % size : ℕ) := by
  rw [h.size_eq, ← mod_add_mod]
  rfl

/-- The position behind the tail is the head if and only if one cell is free. -/
theorem full_iff : (q.tail + 1).tmod q.size = q.head ↔ L.length + 1 = size := by
  rw [h.tail_eq, h.next_tmod, h.head_eq, ofNat_inj]
  have hroom := h.room
  constructor
  · intro heq
    by_contra hne
    have hsame : (head + (L.length + 1)) % size = (head + 0) % size := by
      rw [← Nat.add_assoc, heq, Nat.add_zero, mod_eq_of_lt h.head_lt]
    have := add_mod_injective (by omega) (zero_lt_of_lt h.room) hsame
    omega
  · intro hfull
    rw [Nat.add_assoc, hfull, add_mod_right, mod_eq_of_lt h.head_lt]

theorem tail_lt : 0 ≤ q.tail ∧ q.tail < 2 ^ 30 := by
  have hmod : (head + L.length) % size < size := mod_lt _ (zero_lt_of_lt h.head_lt)
  have hsize := h.size_le
  rw [h.tail_eq]
  omega

end

/-- The queue without its first element. -/
theorem pop (h : MsgRing q B size head (m :: L)) :
    MsgRing { q with head := (q.head + 1).tmod q.size } B size (ringNext size head) L where
  size_eq := h.size_eq
  head_eq := by
    have hnext := h.next_tmod head
    rw [mod_eq_of_lt h.head_lt] at hnext
    rw [h.head_eq, hnext, ringNext_eq_mod h.head_lt]
  tail_eq := by
    rw [h.tail_eq, ringNext_eq_mod h.head_lt, mod_add_mod, length_cons, Nat.add_assoc,
      Nat.add_comm 1]
  block := h.block
  head_lt := ringNext_lt (zero_lt_of_lt h.head_lt)
  room := lt_of_succ_lt h.room
  size_pow := h.size_pow
  cells := by
    have hcells := h.cells
    rw [length_cons, ringList_pop h.head_lt, map_cons] at hcells
    exact (cons.inj hcells).2

/-- A message is stored behind the others. -/
theorem store (h : MsgRing q B size head L) (hroom : L.length + 1 < size) (m : QueuedMsg β) :
    ∃ B', B.store q.tail m = .ok B' ∧
      MsgRing { q with tail := (q.tail + 1).tmod q.size } B' size head (L ++ [m]) := by
  have hmod : (head + L.length) % size < size := mod_lt _ (zero_lt_of_lt h.head_lt)
  have hlength : (L ++ [m]).length = L.length + 1 := length_append
  refine ⟨_, if_pos ?_, ?_⟩
  · rw [h.tail_eq, h.block]
    omega
  constructor
  case size_eq => exact h.size_eq
  case head_eq => exact h.head_eq
  case tail_eq =>
    rw [h.tail_eq, h.next_tmod, hlength]
    rfl
  case block => exact h.block
  case head_lt => exact h.head_lt
  case room => rwa [hlength]
  case size_pow => exact h.size_pow
  case cells =>
    rw [h.tail_eq, toNat_natCast, hlength, ringList_push _ _ _ h.room, h.cells, map_append]
    rfl

section Expand

open HarborHeap

variable {ι : Type} {w : HarborHeap ι β}

variable (h : MsgRing q B size head L)
include h

theorem copyMsg_ok (hi : i < L.length) (newBuffer : MsgBlock β) (hsize : size ≤ newBuffer.size) :
    copyMsg q B newBuffer i =
      .ok { newBuffer with
        cells := update newBuffer.cells i (B.cells ((head + i) % size)) } := by
  obtain ⟨m, hm⟩ : ∃ m, L[i]? = some m := ⟨_, getElem?_eq_getElem hi⟩
  have hroom := h.room
  have hhead := h.head_lt
  have hle := h.size_le
  have hmod : ((i : ℤ) + head).tmod size = ((head + i) % size : ℕ) := by
    rw [Int.add_comm]
    rfl
  rw [copyMsg, h.head_eq, h.size_eq, checkInt_ok (by omega) (by omega), ok_bind, hmod, h.load hm,
    ok_bind, MsgBlock.store, if_pos (by omega), toNat_natCast, h.cell hm]

/-- A ring in which one cell is free is copied to the front of a block of twice the size. -/
theorem expand (hfull : L.length + 1 = size) (hlt : size < 2 ^ 30)
    (hdata : w.block q.data = some B) :
    ∃ newBuffer, w.expand q = .ok
        ({ w with
            block := update (update w.block q.data none) w.nextBlock (some newBuffer)
            nextBlock := w.nextBlock + 1 },
          ⟨(size * 2 : ℕ), 0, L.length, w.nextBlock⟩) ∧
      MsgRing ⟨(size * 2 : ℕ), 0, L.length, w.nextBlock⟩ newBuffer (size * 2) 0 L := by
  -- After `n` rounds the first `n` messages are copied.
  obtain ⟨newBuffer, hloop, hsize, hcopied⟩ :
      ∃ newBuffer, (List.range L.length).foldlM (copyMsg q B) (.new (size * 2)) = .ok newBuffer ∧
        newBuffer.size = size * 2 ∧
        ∀ i < L.length, newBuffer.cells i = B.cells ((head + i) % size) := by
    refine foldlM_range_ok (P := fun n (b : MsgBlock β) => b.size = size * 2 ∧
      ∀ i < n, b.cells i = B.cells ((head + i) % size))
      ⟨rfl, fun i hi => absurd hi (Nat.not_lt_zero i)⟩ fun n hn b hb => ?_
    refine ⟨_, h.copyMsg_ok hn b (by omega), hb.1, fun i hi => ?_⟩
    dsimp only
    by_cases hin : i = n
    · rw [hin, update_self]
    · rw [update_of_ne hin]
      exact hb.2 i (by omega)
  refine ⟨newBuffer, ?_, ?_⟩
  · have hcount : (size : ℤ) - 1 = L.length := by omega
    have hblock : w.getBlock q.data = .ok B := by rw [getBlock, hdata]
    have hdouble : (size : ℤ) * 2 = (size * 2 : ℕ) := by omega
    rw [HarborHeap.expand, h.size_eq, checkInt_ok (by omega) (by omega), ok_bind,
      checkInt_ok (by omega) (by omega), ok_bind, hblock, ok_bind, hcount, hdouble,
      toNat_natCast, toNat_natCast, hloop, ok_bind]
  · obtain ⟨k, hk, hpow⟩ := h.size_pow
    have hk' : k < 30 := by
      by_contra hge
      rw [show k = 30 by omega] at hpow
      omega
    constructor
    case size_eq => rfl
    case head_eq => rfl
    case tail_eq => rw [Nat.zero_add, mod_eq_of_lt (by omega)]
    case block => exact hsize
    case head_lt => omega
    case room => omega
    case size_pow => exact ⟨k + 1, hk', by rw [hpow, pow_succ]⟩
    case cells => rw [ringList_unroll (by omega) hcopied, h.cells]

theorem expand_overflow (hlast : size = 2 ^ 30) : w.expand q = .error .overflow := by
  rw [HarborHeap.expand, h.size_eq, checkInt_error (by omega)]
  rfl

end Expand

end MsgRing

end Uboss.Module
