import Uboss.Core.MessageQueue
import Uboss.Math.CInt
import Uboss.Math.Loops

/-!
# The ring of a message queue

The positions of `struct message_queue` are C integers, and its messages lie in a block of memory.
Here the functions of one queue are written with both: an `int` may not overflow, and a cell that is
read has to lie in the block and to have been written. As long as the capacity is at most `2 ^ 30`
they do what the functions of `MessageQueue` do, and so the ring is a list.

The assertion on `message` is left out, and so is `uboss_globalmq_push`: `uboss_mq_push` returns
whether it calls it.
-/

namespace Uboss.Core

open Math List Int MessageQueue Except Function

/-- Why a function has no result: an `int` overflows, a cell outside of the block is used, a cell is
read that was never written, or the loop of `uboss_mq_pop` does not end. -/
inductive RingFault
  | overflow
  | outside
  | unwritten
  | endless
  deriving DecidableEq, Repr

/-- `struct message_queue` without its lock and link. The block has `size` cells. -/
structure MessageRing where
  handle : ℕ
  cap : ℤ
  head : ℤ
  tail : ℤ
  release : Bool
  inGlobal : Bool
  overload : ℤ
  overloadThreshold : ℤ
  size : ℕ
  queue : ℕ → Option UbossMessage

namespace MessageRing

def ubossMqCreate (handle : ℕ) : MessageRing where
  handle := handle
  cap := defaultQueueSize
  head := 0
  tail := 0
  release := false
  inGlobal := true
  overload := 0
  overloadThreshold := mqOverload
  size := defaultQueueSize
  queue _ := none

section Functions

variable (q : MessageRing)

/-- `queue[i]`, read. -/
def read (i : ℤ) : Except RingFault UbossMessage :=
  if 0 ≤ i ∧ i < q.size then
    match q.queue i.toNat with
    | some message => .ok message
    | none => .error .unwritten
  else .error .outside

/-- `queue[i]`, written. -/
def write (i : ℤ) (message : UbossMessage) : Except RingFault MessageRing :=
  if 0 ≤ i ∧ i < q.size then
    .ok { q with queue := update q.queue i.toNat (some message) }
  else .error .outside

/-- A position is moved on. -/
def advance (i : ℤ) : Except RingFault ℤ :=
  (checkInt .overflow (i + 1)).map fun i => if q.cap ≤ i then 0 else i

def ubossMqLength : Except RingFault ℤ :=
  if q.head ≤ q.tail then checkInt .overflow (q.tail - q.head)
  else (checkInt .overflow (q.tail + q.cap)).bind fun n => checkInt .overflow (n - q.head)

/-- The loop of `uboss_mq_pop`, as the final overload mark and threshold. -/
def raiseThreshold (length : ℤ) : ℕ → ℤ × ℤ → Except RingFault (ℤ × ℤ)
  | fuel, (overload, threshold) =>
    if threshold < length then
      match fuel with
      | 0 => .error .endless
      | fuel + 1 => (checkInt .overflow (threshold * 2)).bind fun threshold =>
        raiseThreshold length fuel (length, threshold)
    else .ok (overload, threshold)

/-- The length that `uboss_mq_pop` computes. -/
def popLength (head : ℤ) : Except RingFault ℤ :=
  (checkInt .overflow (q.tail - head)).bind fun length =>
    if length < 0 then checkInt .overflow (length + q.cap) else .ok length

/-- `uboss_mq_pop`: the message, or `none` for the result 1. -/
def ubossMqPop : Except RingFault (Option UbossMessage × MessageRing) :=
  if q.head ≠ q.tail then
    (q.read q.head).bind fun message =>
    (q.advance q.head).bind fun head =>
    (q.popLength head).bind fun length =>
    (raiseThreshold length length.toNat (q.overload, q.overloadThreshold)).map fun r =>
      (some message, { q with head := head, overload := r.1, overloadThreshold := r.2 })
  else .ok (none, { q with overloadThreshold := mqOverload, inGlobal := false })

/-- A round of the loop of `expand_queue`. -/
def copyCell (newQueue : ℕ → Option UbossMessage) (i : ℕ) :
    Except RingFault (ℕ → Option UbossMessage) :=
  (checkInt .overflow (q.head + i)).bind fun j =>
  (q.read (j.tmod q.cap)).map fun message => update newQueue i (some message)

def expandQueue : Except RingFault MessageRing :=
  ((List.range q.cap.toNat).foldlM q.copyCell fun _ => none).bind fun newQueue =>
  (checkInt .overflow (q.cap * 2)).map fun cap =>
    { q with
      head := 0
      tail := q.cap
      cap := cap
      size := q.cap.toNat * 2
      queue := newQueue }

/-- `uboss_mq_push` up to the test for a full ring. -/
def pushTail (message : UbossMessage) : Except RingFault MessageRing :=
  (q.write q.tail message).bind fun q' =>
    (q.advance q.tail).map fun tail => { q' with tail := tail }

/-- `uboss_mq_overload`: the mark, which is taken away. -/
def ubossMqOverload : ℤ × MessageRing :=
  if q.overload ≠ 0 then (q.overload, { q with overload := 0 }) else (0, q)

/-- `uboss_mq_push`, and whether the queue is pushed to the global queue. -/
def ubossMqPush (message : UbossMessage) : Except RingFault (MessageRing × Bool) :=
  (q.pushTail message).bind fun q' =>
  (if q'.head = q'.tail then q'.expandQueue else .ok q').map fun q' =>
    ({ q' with inGlobal := true }, !q'.inGlobal)

end Functions

/-- The ring is the queue `q`: the positions are the same, and so are the cells in use. -/
structure Refines (r : MessageRing) (q : MessageQueue) : Prop where
  handle : r.handle = q.handle
  cap : r.cap = q.cap
  head : r.head = q.head
  tail : r.tail = q.tail
  release : r.release = q.release
  inGlobal : r.inGlobal = q.inGlobal
  overload : r.overload = q.overload
  overloadThreshold : r.overloadThreshold = q.overloadThreshold
  threshold_pos : 0 < q.overloadThreshold
  size : r.size = q.cap
  cells : ringList r.queue q.cap q.head q.ubossMqLength = q.contents.map some

variable {r r' : MessageRing} {q : MessageQueue} {message : UbossMessage} {L : List UbossMessage}

theorem refines_create (handle : ℕ) : (ubossMqCreate handle).Refines (Core.ubossMqCreate handle) :=
  ⟨rfl, rfl, rfl, rfl, rfl, rfl, rfl, rfl, Nat.zero_lt_succ _, rfl, rfl⟩

/-! ### Integers and cells -/

theorem read_ok {i : ℕ} (hi : i < r.size) (hcell : r.queue i = some message) :
    r.read i = .ok message := by
  rw [read, if_pos ⟨natCast_nonneg _, ofNat_lt.mpr hi⟩, toNat_natCast, hcell]

theorem advance_ok {i : ℕ} (hcap : r.cap = q.cap) (hsmall : q.cap ≤ 2 ^ 30) (hi : i < q.cap) :
    r.advance i = .ok (ringNext q.cap i : ℕ) := by
  rw [advance, checkInt_ok (by omega) (by omega), Except.map, hcap, ringNext]
  split_ifs with h h' h'
  · rfl
  · omega
  · omega
  · rfl

theorem cell_of_ringList {buf : ℕ → Option UbossMessage} {cap head n i : ℕ}
    (h : ringList buf cap head n = L.map some) (hi : L[i]? = some message) :
    buf ((head + i) % cap) = some message := by
  have hlen := congrArg List.length h
  rw [length_ringList, length_map] at hlen
  obtain ⟨hlt, -⟩ := List.getElem?_eq_some_iff.mp hi
  have hcell : (ringList buf cap head n)[i]? = some (buf ((head + i) % cap)) :=
    ringList_getElem? (hlen ▸ hlt)
  rw [h, getElem?_map, hi] at hcell
  exact (Option.some_inj.mp hcell).symm

/-! ### The functions -/

namespace Refines

theorem length (h : r.Refines q) (hsmall : q.cap ≤ 2 ^ 30) :
    r.ubossMqLength = .ok (q.ubossMqLength : ℕ) := by
  have hhead := q.head_lt
  have htail := q.tail_lt
  rw [ubossMqLength, h.head, h.tail, h.cap, MessageQueue.ubossMqLength, ringLength]
  split_ifs
  · rw [checkInt_ok (by omega) (by omega)]
    congr 1
    omega
  · omega
  · omega
  · rw [checkInt_ok (by omega) (by omega), Except.bind, checkInt_ok (by omega) (by omega)]
    congr 1
    omega

end Refines

theorem raiseThreshold_ok {length fuel overload threshold : ℕ} (hlength : length < 2 ^ 30)
    (hpos : 0 < threshold) (hfuel : length ≤ fuel + threshold) :
    raiseThreshold length fuel (overload, threshold) =
      .ok (((MessageQueue.raiseThreshold length fuel (overload, threshold)).1 : ℕ),
        ((MessageQueue.raiseThreshold length fuel (overload, threshold)).2 : ℕ)) := by
  induction fuel generalizing overload threshold with
  | zero =>
    rw [raiseThreshold, if_neg (by omega)]
    rfl
  | succ fuel ih =>
    rw [raiseThreshold, MessageQueue.raiseThreshold]
    by_cases hlt : threshold < length
    · rw [if_pos (ofNat_lt.mpr hlt), if_pos hlt, checkInt_ok (by omega) (by omega)]
      have hrest : raiseThreshold length fuel ((length : ℕ), (threshold * 2 : ℕ)) = _ :=
        ih (by omega) (by omega)
      rwa [natCast_mul] at hrest
    · rw [if_neg (by omega), if_neg hlt]

theorem raiseThreshold_pos {length fuel overload threshold : ℕ} (hpos : 0 < threshold) :
    0 < (MessageQueue.raiseThreshold length fuel (overload, threshold)).2 := by
  induction fuel generalizing overload threshold with
  | zero => exact hpos
  | succ fuel ih =>
    rw [MessageQueue.raiseThreshold]
    split_ifs
    · exact ih (by omega)
    · exact hpos

theorem popLength_ok (hcap : r.cap = q.cap) (htail : r.tail = q.tail) (hsmall : q.cap ≤ 2 ^ 30)
    {head : ℕ} (hhead : head < q.cap) :
    r.popLength head = .ok (ringLength q.cap head q.tail : ℕ) := by
  have htail_lt := q.tail_lt
  rw [popLength, htail, checkInt_ok (by omega) (by omega), Except.bind, hcap, ringLength]
  split_ifs
  · omega
  · rw [checkInt_ok (by omega) (by omega)]
    congr 1
    omega
  · congr 1
    omega
  · omega

/-- `uboss_mq_pop` does what it does without bounds. -/
theorem ubossMqPop_refines (h : r.Refines q) (hsmall : q.cap ≤ 2 ^ 30) :
    ∃ r', r.ubossMqPop = .ok (q.ubossMqPop.1, r') ∧ r'.Refines q.ubossMqPop.2 := by
  have hhead := q.head_lt
  have htail := q.tail_lt
  rw [ubossMqPop, MessageQueue.ubossMqPop, h.head, h.tail]
  by_cases hempty : q.head = q.tail
  · rw [if_neg (by omega), if_neg (not_not.mpr hempty)]
    exact ⟨_, rfl, h.handle, h.cap, rfl, rfl, h.release, rfl, h.overload, rfl, Nat.zero_lt_succ _,
      h.size, h.cells⟩
  · rw [if_pos (by omega), if_pos hempty]
    have hnext : ringNext q.cap q.head < q.cap := ringNext_lt (by omega)
    have hlength := ringLength_next_head hhead htail hempty
    have hlt := ringLength_lt hnext htail
    have hcells := h.cells
    rw [contents, MessageQueue.ubossMqLength, hlength, ringList_pop hhead,
      ringList_pop hhead, map_cons] at hcells
    obtain ⟨hcell, hrest⟩ := cons.inj hcells
    have hread : r.read (q.head : ℕ) = .ok (q.queue q.head) := read_ok (h.size ▸ hhead) hcell
    have hraise := @raiseThreshold_ok _ _ q.overload _ (hlt.trans_le hsmall)
      h.threshold_pos (Nat.le_add_right (ringLength q.cap (ringNext q.cap q.head) q.tail) _)
    rw [hread, Except.bind, advance_ok h.cap hsmall hhead, Except.bind,
      popLength_ok h.cap h.tail hsmall hnext, Except.bind, h.overload, h.overloadThreshold,
      toNat_natCast, hraise]
    exact ⟨_, rfl, h.handle, h.cap, rfl, rfl, h.release, h.inGlobal, rfl, rfl,
      raiseThreshold_pos h.threshold_pos, h.size, hrest⟩

theorem pushTail_ok (h : r.Refines q) (hsmall : q.cap ≤ 2 ^ 30) (message : UbossMessage) :
    r.pushTail message = .ok
        { r with
          queue := update r.queue q.tail (some message)
          tail := (ringNext q.cap q.tail : ℕ) } ∧
      ringList (update r.queue q.tail (some message)) q.cap q.head
        (q.ubossMqLength + 1) = (q.contents ++ [message]).map some := by
  have htail := q.tail_lt
  have hwrite : r.write r.tail message =
      .ok { r with queue := update r.queue q.tail (some message) } := by
    rw [write, h.tail, h.size, if_pos (by omega), toNat_natCast]
  constructor
  · rw [pushTail, hwrite, Except.bind, h.tail, advance_ok h.cap hsmall htail]
    rfl
  · have hpush := ringList_push r.queue q.head (some message) (ringLength_lt q.head_lt q.tail_lt)
    rw [← tail_eq_mod q.head_lt q.tail_lt] at hpush
    rw [MessageQueue.ubossMqLength, hpush, map_append]
    exact congrArg (· ++ [some message]) h.cells

/-- A round of the loop of `expand_queue`, in a ring whose cells are all in use. -/
theorem copyCell_ok {cap head i : ℕ} (hcap : r.cap = cap) (hhead : r.head = head)
    (hlt : head < cap) (hsmall : cap ≤ 2 ^ 30) (hsize : r.size = cap)
    (hcells : ringList r.queue cap head cap = L.map some) (hi : i < cap)
    (newQueue : ℕ → Option UbossMessage) :
    r.copyCell newQueue i = .ok (update newQueue i (r.queue ((head + i) % cap))) := by
  have hlength : cap = L.length := by
    simpa using congrArg List.length hcells
  obtain ⟨message, hmessage⟩ : ∃ message, L[i]? = some message :=
    ⟨_, getElem?_eq_getElem (hlength ▸ hi)⟩
  have hcell := cell_of_ringList hcells hmessage
  have hread : r.read ((head + i) % cap : ℕ) = .ok message :=
    read_ok (hsize ▸ Nat.mod_lt _ (by omega)) hcell
  have hmod : ((head + i : ℕ) : ℤ).tmod cap = ((head + i) % cap : ℕ) := rfl
  rw [copyCell, hhead, hcap, checkInt_ok (by omega) (by omega), Except.bind, ← natCast_add,
    hmod, hread, hcell]
  rfl

/-- `expand_queue` copies a ring whose cells are all in use, wherever its first one is. -/
theorem expandQueue_ok {cap head : ℕ} (hcap : r.cap = cap) (hhead : r.head = head)
    (hlt : head < cap) (hsmall : cap ≤ 2 ^ 30) (hsize : r.size = cap)
    (hcells : ringList r.queue cap head cap = L.map some) :
    ∃ newQueue, ringList newQueue (cap * 2) 0 cap = L.map some ∧
      r.expandQueue = (checkInt .overflow (cap * 2)).map fun n =>
        { r with head := 0, tail := cap, cap := n, size := cap * 2, queue := newQueue } := by
  -- after `n` rounds the first `n` messages are copied
  obtain ⟨newQueue, hloop, hcopied⟩ :
      ∃ newQueue, (List.range cap).foldlM r.copyCell (fun _ => none) = .ok newQueue ∧
        ∀ i < cap, newQueue i = r.queue ((head + i) % cap) := by
    refine foldlM_range_ok (P := fun n (newQueue : ℕ → Option UbossMessage) => ∀ i < n,
      newQueue i = r.queue ((head + i) % cap)) (fun i hi => absurd hi (Nat.not_lt_zero i))
      fun n hn newQueue hnew => ?_
    refine ⟨_, copyCell_ok hcap hhead hlt hsmall hsize hcells hn newQueue, fun i hi => ?_⟩
    by_cases hin : i = n
    · rw [hin, update_self]
    · rw [update_of_ne hin]
      exact hnew i (by omega)
  refine ⟨newQueue, ?_, ?_⟩
  · rw [ringList_unroll (by omega) hcopied, hcells]
  · rw [expandQueue, hcap, toNat_natCast, hloop, Except.bind]

/-- `uboss_mq_push` does what it does without bounds, unless the ring would have to grow beyond
`2 ^ 30` cells. -/
theorem ubossMqPush_refines (h : r.Refines q) (hsmall : q.cap ≤ 2 ^ 30)
    (hroom : q.contents.length + 1 < 2 ^ 30) (message : UbossMessage) :
    ∃ r', r.ubossMqPush message = .ok (r', !q.inGlobal) ∧
      r'.Refines { q.enqueue message with inGlobal := true } := by
  obtain ⟨hpush, hcells⟩ := pushTail_ok h hsmall message
  have hlength : q.contents.length = q.ubossMqLength := length_contents
  have hcontents : (q.enqueue message).contents = q.contents ++ [message] := contents_enqueue
  have hhead := h.head
  rw [ubossMqPush, hpush, Except.bind]
  by_cases hfull : q.head = ringNext q.cap q.tail
  · have hcap := ringLength_of_full q.tail_lt hfull
    change q.ubossMqLength + 1 = q.cap at hcap
    rw [hcap] at hcells
    obtain ⟨newQueue, hnew, hexpand⟩ := expandQueue_ok (r := { r with
      queue := update r.queue q.tail (some message)
      tail := (ringNext q.cap q.tail : ℕ) }) h.cap h.head q.head_lt hsmall h.size hcells
    rw [if_pos (by rw [h.head, ← hfull]), hexpand, checkInt_ok (by omega) (by omega)]
    have henqueue : q.enqueue message = (q.writeTail message).expandQueue := if_pos hfull
    rw [henqueue] at hcontents ⊢
    refine ⟨_, congrArg (fun b => ok (_, !b)) h.inGlobal, h.handle, ?_, rfl, rfl, h.release,
      rfl, h.overload, h.overloadThreshold, h.threshold_pos, rfl, ?_⟩
    · rfl
    · have hlen : (q.writeTail message).expandQueue.ubossMqLength = q.cap := by
        rw [← length_contents, hcontents, length_append, hlength, ← hcap]
        rfl
      change ringList newQueue (q.cap * 2) 0 (q.writeTail message).expandQueue.ubossMqLength =
          (q.writeTail message).expandQueue.contents.map some
      rw [hlen, hnew, hcontents]
  · have hne : ¬ r.head = (ringNext q.cap q.tail : ℕ) := by
      rw [h.head]
      exact fun heq => hfull (ofNat_inj.mp heq)
    rw [if_neg hne]
    have henqueue : q.enqueue message = q.writeTail message := if_neg hfull
    rw [henqueue] at hcontents ⊢
    refine ⟨_, congrArg (fun b => ok (_, !b)) h.inGlobal, h.handle, h.cap, h.head, rfl,
      h.release, rfl, h.overload, h.overloadThreshold, h.threshold_pos, h.size, ?_⟩
    have hlen : (q.writeTail message).ubossMqLength = q.ubossMqLength + 1 := by
      rw [← length_contents, hcontents, length_append, hlength]
      rfl
    change ringList _ q.cap q.head (q.writeTail message).ubossMqLength =
      (q.writeTail message).contents.map some
    rw [hlen, hcells, hcontents]

theorem ubossMqPush_overflow (h : r.Refines q) (hcap : q.cap = 2 ^ 30)
    (hfull : q.contents.length + 1 = 2 ^ 30) (message : UbossMessage) :
    r.ubossMqPush message = .error .overflow := by
  obtain ⟨hpush, hcells⟩ := pushTail_ok h hcap.le message
  have hlength : q.contents.length = q.ubossMqLength := length_contents
  have hmeet : q.head = ringNext q.cap q.tail := by
    by_contra hne
    have hnext := ringLength_next_tail q.head_lt q.tail_lt hne
    have hnext_lt : ringNext q.cap q.tail < q.cap := ringNext_lt (Nat.zero_lt_of_lt q.head_lt)
    have hlt := ringLength_lt q.head_lt hnext_lt
    rw [MessageQueue.ubossMqLength] at hlength
    omega
  rw [← hlength, hfull, ← hcap] at hcells
  obtain ⟨newQueue, -, hexpand⟩ := expandQueue_ok (r := { r with
    queue := update r.queue q.tail (some message)
    tail := (ringNext q.cap q.tail : ℕ) }) h.cap h.head q.head_lt hcap.le h.size hcells
  rw [ubossMqPush, hpush, Except.bind, if_pos (by rw [h.head, ← hmeet]), hexpand,
    checkInt_error (by omega)]
  rfl

/-! ### Runs -/

/-- A call. -/
inductive MqCall
  | push (message : UbossMessage)
  | pop
  deriving DecidableEq, Repr

/-- A call on the ring, and what `uboss_mq_pop` returns. -/
def call (r : MessageRing) : MqCall → Except RingFault (MessageRing × Option UbossMessage)
  | .push message => (r.ubossMqPush message).map fun x => (x.1, none)
  | .pop => r.ubossMqPop.map fun x => (x.2, x.1)

/-- The same call on a list. -/
def MqCall.onList (L : List UbossMessage) : MqCall → List UbossMessage × Option UbossMessage
  | .push message => (L ++ [message], none)
  | .pop => (L.tail, L.head?)

/-- A sequence of calls, with all that they return. -/
def runs : MessageRing → List MqCall → Except RingFault (MessageRing × List (Option UbossMessage))
  | r, [] => .ok (r, [])
  | r, a :: acts => (r.call a).bind fun x => (runs x.1 acts).map fun y => (y.1, x.2 :: y.2)

/-- The same sequence on a list. -/
def onLists : List UbossMessage → List MqCall → List UbossMessage × List (Option UbossMessage)
  | L, [] => (L, [])
  | L, a :: acts =>
    let x := a.onList L
    let y := onLists x.1 acts
    (y.1, x.2 :: y.2)

/-- The ring holds the list `L` and has room for one more message. When that is the last one, and
only then, the positions meet, and the expanded ring holds the longer list from its first cell
on. -/
structure Represents (r : MessageRing) (L : List UbossMessage) : Prop where
  length : r.ubossMqLength = .ok (L.length : ℕ)
  room : L.length < r.cap
  cap_le : r.cap ≤ 2 ^ 30
  empty_iff : r.head = r.tail ↔ L = []
  cell : ∀ (i : ℕ) message, L[i]? = some message →
    r.queue ((r.head + i) % r.cap).toNat = some message
  full_iff : ∀ message full, r.pushTail message = .ok full →
    (full.head = full.tail ↔ L.length + 1 = r.cap)
  expand : ∀ message full r', r.pushTail message = .ok full → full.head = full.tail →
    full.expandQueue = .ok r' → r'.cap = r.cap * 2 ∧ r'.head = 0 ∧ r'.tail = L.length + 1 ∧
      ∀ i message', (L ++ [message])[i]? = some message' → r'.queue i = some message'

theorem Refines.represents (h : r.Refines q) (hsmall : q.cap ≤ 2 ^ 30) :
    r.Represents q.contents := by
  have hhead := q.head_lt
  have htail := q.tail_lt
  have hlength : q.contents.length = q.ubossMqLength := length_contents
  have hroom : q.contents.length < q.cap := hlength ▸ ringLength_lt hhead htail
  -- the positions meet when the last free cell is taken
  have hmeet : q.head = ringNext q.cap q.tail ↔ q.contents.length + 1 = q.cap := by
    constructor
    · intro hfull
      rw [hlength]
      exact ringLength_of_full htail hfull
    · intro hfull
      by_contra hne
      have hnext := ringLength_next_tail hhead htail hne
      have hnext_lt : ringNext q.cap q.tail < q.cap := ringNext_lt (Nat.zero_lt_of_lt hhead)
      have hlt := ringLength_lt hhead hnext_lt
      rw [MessageQueue.ubossMqLength] at hlength
      omega
  refine ⟨?_, ?_, ?_, ?_, fun i message hi => ?_, fun message full hpush => ?_,
    fun message full r' hpush hfull hexpand => ?_⟩
  · rw [hlength]
    exact h.length hsmall
  · rw [h.cap]
    exact ofNat_lt.mpr hroom
  · rw [h.cap]
    exact ofNat_le.mpr hsmall
  · rw [h.head, h.tail, ofNat_inj, contents_eq_nil_iff]
  · rw [h.head, h.cap]
    exact cell_of_ringList h.cells hi
  · rw [(pushTail_ok h hsmall message).1] at hpush
    obtain rfl := ok.inj hpush
    rw [h.cap]
    dsimp only
    rw [h.head, ofNat_inj, hmeet]
    omega
  · obtain ⟨hok, hcells⟩ := pushTail_ok h hsmall message
    rw [hok] at hpush
    obtain rfl := ok.inj hpush
    have hlast := hmeet.mp (ofNat_inj.mp (h.head.symm.trans hfull))
    rw [← hlength, hlast] at hcells
    obtain ⟨newQueue, hnew, heq⟩ := expandQueue_ok (r := { r with
      queue := update r.queue q.tail (some message)
      tail := (ringNext q.cap q.tail : ℕ) }) h.cap h.head hhead hsmall h.size hcells
    rw [heq, checkInt] at hexpand
    split_ifs at hexpand
    · obtain rfl := ok.inj hexpand
      refine ⟨?_, rfl, ?_, fun i message' hi => ?_⟩
      · rw [h.cap]
      · dsimp only
        omega
      · have hcell := cell_of_ringList (n := q.cap) hnew hi
        have hlt : i < q.cap := by
          have := (List.getElem?_eq_some_iff.mp hi).1
          rw [length_append, length_singleton] at this
          omega
        rwa [Nat.zero_add, Nat.mod_eq_of_lt (by omega)] at hcell
    · cases hexpand

/-- The capacity has been doubled some times, and is an `int`. -/
def Doubled (cap : ℕ) : Prop := ∃ k ≤ 30, cap = 2 ^ k

theorem Doubled.le {cap : ℕ} (h : Doubled cap) : cap ≤ 2 ^ 30 := by
  obtain ⟨k, hk, rfl⟩ := h
  exact Nat.pow_le_pow_right Nat.two_pos hk

/-- The capacity remains an `int` as long as there are fewer than `2 ^ 30` messages. -/
theorem doubled_enqueue (h : Doubled q.cap) (hroom : q.contents.length + 1 < 2 ^ 30) :
    Doubled (q.enqueue message).cap := by
  obtain ⟨k, hk, hcap⟩ := h
  unfold enqueue
  split_ifs with hfull
  · have hlast := ringLength_of_full q.tail_lt hfull
    rw [← MessageQueue.ubossMqLength, ← length_contents] at hlast
    have hlt : k < 30 := by
      by_contra hge
      rw [show k = 30 by omega] at hcap
      omega
    exact ⟨k + 1, hlt, by rw [pow_succ, ← hcap]; rfl⟩
  · exact ⟨k, hk, hcap⟩

theorem cap_ubossMqPop (q : MessageQueue) : q.ubossMqPop.2.cap = q.cap := by
  unfold MessageQueue.ubossMqPop
  split_ifs <;> rfl

/-- The invariant of the runs. -/
def Holds (r : MessageRing) (L : List UbossMessage) : Prop :=
  ∃ q : MessageQueue, r.Refines q ∧ q.contents = L ∧ Doubled q.cap

theorem holds_create (handle : ℕ) : (ubossMqCreate handle).Holds [] :=
  ⟨_, refines_create handle, rfl, 6, by decide, rfl⟩

theorem Holds.represents (h : r.Holds L) : r.Represents L := by
  obtain ⟨q, hrefines, rfl, hcap⟩ := h
  exact hrefines.represents hcap.le

/-- One call acts as on a list, unless the ring would have to grow beyond `2 ^ 30` cells. -/
theorem Holds.call (h : r.Holds L) (a : MqCall) :
    (∃ r', r.call a = .ok (r', (a.onList L).2) ∧ r'.Holds (a.onList L).1) ∨
      r.call a = .error .overflow ∧ (∃ message, a = .push message) ∧ r.cap = 2 ^ 30 ∧
        L.length + 1 = 2 ^ 30 := by
  obtain ⟨q, hrefines, rfl, hcap⟩ := h
  have hsmall := hcap.le
  cases a with
  | pop =>
    obtain ⟨r', hpop, hr'⟩ := ubossMqPop_refines hrefines hsmall
    have hlist : q.ubossMqPop.1 = q.contents.head? ∧ q.ubossMqPop.2.contents = q.contents.tail := by
      by_cases hnil : q.contents = []
      · rw [ubossMqPop_of_contents_eq_nil hnil, hnil]
        exact ⟨rfl, hnil⟩
      · obtain ⟨m, q', hq', hcons, -⟩ := ubossMqPop_of_contents_ne_nil hnil
        rw [hq', hcons]
        exact ⟨rfl, rfl⟩
    left
    refine ⟨r', ?_, q.ubossMqPop.2, hr', hlist.2, (cap_ubossMqPop q).symm ▸ hcap⟩
    rw [MessageRing.call, hpop]
    exact congrArg (fun x => ok (r', x)) hlist.1
  | push message =>
    have hroom := hrefines.represents hsmall |>.room
    rw [hrefines.cap] at hroom
    by_cases hlimit : q.contents.length + 1 < 2 ^ 30
    · left
      obtain ⟨r', hpush, hr'⟩ := ubossMqPush_refines hrefines hsmall hlimit message
      exact ⟨r', by rw [MessageRing.call, hpush]; rfl, _, hr', contents_enqueue,
        doubled_enqueue hcap hlimit⟩
    · right
      have hfull : q.contents.length + 1 = 2 ^ 30 := by omega
      have hcap' : q.cap = 2 ^ 30 := by omega
      refine ⟨?_, ⟨message, rfl⟩, by rw [hrefines.cap, hcap']; rfl, hfull⟩
      rw [MessageRing.call, ubossMqPush_overflow hrefines hcap' hfull]
      rfl

theorem Holds.runs (h : r.Holds L) (calls : List MqCall) :
    (∃ r', r.runs calls = .ok (r', (onLists L calls).2) ∧ r'.Holds (onLists L calls).1) ∨
      r.runs calls = .error .overflow ∧ ∃ before message after r',
        calls = before ++ .push message :: after ∧
        r.runs before = .ok (r', (onLists L before).2) ∧ r'.cap = 2 ^ 30 ∧
        (onLists L before).1.length + 1 = 2 ^ 30 := by
  induction calls generalizing r L with
  | nil => exact .inl ⟨r, rfl, h⟩
  | cons a calls ih =>
    rcases h.call a with ⟨r', hcall, hr'⟩ | ⟨hcall, ⟨message, rfl⟩, hcap, hlength⟩
    · rcases ih hr' with ⟨u, hruns, hu⟩ | ⟨hruns, before, message, after, u, rfl, hbefore, hu⟩
      · left
        refine ⟨u, ?_, hu⟩
        rw [MessageRing.runs, hcall, Except.bind, hruns]
        rfl
      · right
        refine ⟨?_, a :: before, message, after, u, rfl, ?_, hu⟩
        · rw [MessageRing.runs, hcall, Except.bind, hruns]
          rfl
        · rw [MessageRing.runs, hcall, Except.bind, hbefore]
          rfl
    · right
      refine ⟨?_, [], message, calls, r, rfl, rfl, hcap, hlength⟩
      rw [MessageRing.runs, hcall]
      rfl

/-- Every sequence of `uboss_mq_push` and `uboss_mq_pop` on a new queue returns what it returns on
a list, and the ring then holds that list, until a message would make it grow beyond `2 ^ 30`
cells. -/
theorem fifo_of_runs (handle : ℕ) (calls : List MqCall) :
    (∃ r, (ubossMqCreate handle).runs calls = .ok (r, (onLists [] calls).2) ∧
        r.Represents (onLists [] calls).1) ∨
      (ubossMqCreate handle).runs calls = .error .overflow ∧ ∃ before message after r,
        calls = before ++ .push message :: after ∧
        (ubossMqCreate handle).runs before = .ok (r, (onLists [] before).2) ∧ r.cap = 2 ^ 30 ∧
        (onLists [] before).1.length + 1 = 2 ^ 30 := by
  rcases (holds_create handle).runs calls with ⟨r, hruns, hr⟩ | hlimit
  · exact .inl ⟨r, hruns, hr.represents⟩
  · exact .inr hlimit

end MessageRing

end Uboss.Core
