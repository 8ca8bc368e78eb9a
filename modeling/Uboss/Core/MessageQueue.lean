import Uboss.Math.LinkedList
import Uboss.Math.RingBuffer

/-!
# Message queues

`uboss_mq.c`: the message queue of a service is a ring of messages, and the queues that have
work are linked into the global queue. All functions here run under the lock of the queue
or of the global queue; the assertions of the source are faults of the model.

The positions here are naturals. The source has `int`s: `MessageRing` is the ring with them, and
`RingNode` runs the scheduler on such rings.

The link `next` of a queue is kept beside the queues, in a map of its own, because only the
functions of the global queue use it.
-/

namespace Uboss.Core

open Math Function List

/-- `struct uboss_message`. -/
structure UbossMessage where
  source : ℕ
  session : ℤ
  data : ℕ
  sz : ℕ
  deriving DecidableEq, Repr, Inhabited

/-- The address of a message queue. -/
abbrev QueueId := ℕ

def defaultQueueSize : ℕ := 64

def mqOverload : ℕ := 1024

/-- `struct message_queue` without its lock and link, and with positions that do not overflow. -/
structure MessageQueue where
  handle : ℕ
  cap : ℕ
  head : ℕ
  tail : ℕ
  release : Bool
  inGlobal : Bool
  overload : ℕ
  overloadThreshold : ℕ
  queue : ℕ → UbossMessage
  head_lt : head < cap
  tail_lt : tail < cap

def ubossMqCreate (handle : ℕ) : MessageQueue where
  handle := handle
  cap := defaultQueueSize
  head := 0
  tail := 0
  release := false
  inGlobal := true
  overload := 0
  overloadThreshold := mqOverload
  queue := fun _ => default
  head_lt := by decide
  tail_lt := by decide

namespace MessageQueue

variable {q : MessageQueue} {message : UbossMessage}

def ubossMqLength (q : MessageQueue) : ℕ := ringLength q.cap q.head q.tail

/-- The messages of a queue, in the order in which they will be popped. -/
def contents (q : MessageQueue) : List UbossMessage := ringList q.queue q.cap q.head q.ubossMqLength

def ubossMqOverload (q : MessageQueue) : ℕ × MessageQueue :=
  if q.overload ≠ 0 then (q.overload, { q with overload := 0 }) else (0, q)

/-- The loop of `uboss_mq_pop` that doubles the threshold, as the final overload mark and
threshold. A positive threshold below `length` is passed in fewer than `length` rounds. -/
def raiseThreshold (length : ℕ) : ℕ → ℕ × ℕ → ℕ × ℕ
  | 0, r => r
  | fuel + 1, (overload, threshold) =>
    if threshold < length then raiseThreshold length fuel (length, threshold * 2)
    else (overload, threshold)

/-- `uboss_mq_pop`: the message, or `none` when the queue is empty and given up. -/
def ubossMqPop (q : MessageQueue) : Option UbossMessage × MessageQueue :=
  if q.head ≠ q.tail then
    let head := ringNext q.cap q.head
    let length := ringLength q.cap head q.tail
    let r := raiseThreshold length length (q.overload, q.overloadThreshold)
    (some (q.queue q.head),
      { q with
        head := head
        overload := r.1
        overloadThreshold := r.2
        head_lt := ringNext_lt (Nat.zero_lt_of_lt q.head_lt) })
  else
    (none, { q with overloadThreshold := mqOverload, inGlobal := false })

/-- `expand_queue`, called with the ring full. -/
def expandQueue (q : MessageQueue) : MessageQueue :=
  { q with
    cap := q.cap * 2
    head := 0
    tail := q.cap
    queue := fun i => if i < q.cap then q.queue ((q.head + i) % q.cap) else default
    head_lt := Nat.mul_pos (Nat.zero_lt_of_lt q.head_lt) Nat.two_pos
    tail_lt := by
      have := q.head_lt
      omega }

/-- Write a message at the tail and move the tail on. -/
def writeTail (q : MessageQueue) (message : UbossMessage) : MessageQueue :=
  { q with
    queue := update q.queue q.tail message
    tail := ringNext q.cap q.tail
    tail_lt := ringNext_lt (Nat.zero_lt_of_lt q.head_lt) }

/-- `uboss_mq_push` up to the test of `in_global`. -/
def enqueue (q : MessageQueue) (message : UbossMessage) : MessageQueue :=
  if q.head = ringNext q.cap q.tail then (q.writeTail message).expandQueue
  else q.writeTail message

/-! ### A queue is a list -/

theorem length_contents : q.contents.length = q.ubossMqLength := length_ringList

theorem contents_eq_nil_iff : q.contents = [] ↔ q.head = q.tail := by
  rw [← length_eq_zero_iff, length_contents]
  exact ringLength_eq_zero_iff q.head_lt

/-- `expand_queue` keeps the messages and leaves room, when the ring is full. -/
theorem contents_expandQueue : q.expandQueue.contents = ringList q.queue q.cap q.head q.cap := by
  have hlen : q.expandQueue.ubossMqLength = q.cap := by
    simp [ubossMqLength, expandQueue, ringLength]
  rw [contents, hlen]
  refine ringList_unroll (by simp only [expandQueue]; omega) fun i hi => ?_
  simp [expandQueue, hi]

/-- `uboss_mq_push` appends the message. -/
theorem contents_enqueue : (q.enqueue message).contents = q.contents ++ [message] := by
  have hlen := ringLength_lt q.head_lt q.tail_lt
  have hpush := ringList_push q.queue q.head message hlen
  rw [← tail_eq_mod q.head_lt q.tail_lt] at hpush
  unfold enqueue
  split_ifs with hfull
  · rw [contents_expandQueue]
    have hcap := ringLength_of_full q.tail_lt hfull
    change ringList (update q.queue q.tail message) q.cap q.head q.cap = _
    rw [hcap] at hpush
    exact hpush
  · change ringList (update q.queue q.tail message) q.cap q.head
      (ringLength q.cap q.head (ringNext q.cap q.tail)) = _
    rw [ringLength_next_tail q.head_lt q.tail_lt hfull]
    exact hpush

@[simp] theorem enqueue_handle : (q.enqueue message).handle = q.handle := by
  unfold enqueue
  split_ifs <;> rfl

@[simp] theorem enqueue_release : (q.enqueue message).release = q.release := by
  unfold enqueue
  split_ifs <;> rfl

@[simp] theorem enqueue_inGlobal : (q.enqueue message).inGlobal = q.inGlobal := by
  unfold enqueue
  split_ifs <;> rfl

/-- `uboss_mq_pop` of a queue with messages takes the first one and changes no flag. -/
theorem ubossMqPop_of_contents_ne_nil (hne : q.contents ≠ []) :
    ∃ m q', q.ubossMqPop = (some m, q') ∧ q.contents = m :: q'.contents ∧
      q'.handle = q.handle ∧ q'.release = q.release ∧ q'.inGlobal = q.inGlobal := by
  have hht : q.head ≠ q.tail := fun h => hne (contents_eq_nil_iff.mpr h)
  refine ⟨_, _, if_pos hht, ?_, rfl, rfl, rfl⟩
  unfold contents ubossMqLength
  rw [ringLength_next_head q.head_lt q.tail_lt hht]
  exact ringList_pop q.head_lt

theorem ubossMqPop_of_contents_eq_nil (hnil : q.contents = []) :
    q.ubossMqPop = (none, { q with overloadThreshold := mqOverload, inGlobal := false }) := by
  rw [ubossMqPop, if_neg]
  exact fun h => h (contents_eq_nil_iff.mp hnil)

@[simp] theorem overload_contents : q.ubossMqOverload.2.contents = q.contents := by
  unfold ubossMqOverload
  split_ifs <;> rfl

@[simp] theorem overload_handle : q.ubossMqOverload.2.handle = q.handle := by
  unfold ubossMqOverload
  split_ifs <;> rfl

@[simp] theorem overload_release : q.ubossMqOverload.2.release = q.release := by
  unfold ubossMqOverload
  split_ifs <;> rfl

@[simp] theorem overload_inGlobal : q.ubossMqOverload.2.inGlobal = q.inGlobal := by
  unfold ubossMqOverload
  split_ifs <;> rfl

end MessageQueue

/-! ### The global queue -/

/-- Why a step of the model has no result: it is not enabled, it would use memory that was
freed, or an assertion of the source fails (`queue->next == NULL`, `mq == q->tail`,
`q->release == 0`, `q == ctx->queue`, `ctx->init`). -/
inductive SchedulerFault
  | disabled
  | dangling
  | nextNotNull
  | tailMismatch
  | releasedTwice
  | queueMismatch
  | notInit
  deriving DecidableEq, Repr

/-- The memory of the queues, their links and `struct global_queue`. -/
structure Queues where
  mq : QueueId → Option MessageQueue
  next : QueueId → Option QueueId
  head : Option QueueId
  tail : Option QueueId

namespace Queues

variable {Q Q' : Queues} {L : List QueueId} {q : QueueId} {m : MessageQueue}

/-- After `uboss_mq_init`. -/
def ubossMqInit : Queues where
  mq := fun _ => none
  next := fun _ => none
  head := none
  tail := none

/-- Write a queue. -/
def set (Q : Queues) (q : QueueId) (m : MessageQueue) : Queues :=
  { Q with mq := update Q.mq q (some m) }

@[simp] theorem set_mq_self : (Q.set q m).mq q = some m := update_self ..

theorem set_mq_of_ne {p : QueueId} (h : p ≠ q) : (Q.set q m).mq p = Q.mq p := update_of_ne h ..

def ubossGlobalmqPush (Q : Queues) (q : QueueId) : Except SchedulerFault Queues :=
  match Q.mq q with
  | none => .error .dangling
  | some _ =>
    if Q.next q ≠ none then .error .nextNotNull
    else
      match Q.tail with
      | none => .ok { Q with head := some q, tail := some q }
      | some last =>
        match Q.mq last with
        | none => .error .dangling
        | some _ => .ok { Q with next := update Q.next last (some q), tail := some q }

def ubossGlobalmqPop (Q : Queues) : Except SchedulerFault (Option QueueId × Queues) :=
  match Q.head with
  | none => .ok (none, Q)
  | some q =>
    match Q.mq q with
    | none => .error .dangling
    | some _ =>
      if Q.next q = none ∧ Q.tail ≠ some q then .error .tailMismatch
      else
        .ok (some q, { Q with
          head := Q.next q
          tail := if Q.next q = none then none else Q.tail
          next := update Q.next q none })

def ubossMqPush (Q : Queues) (q : QueueId) (message : UbossMessage) :
    Except SchedulerFault Queues :=
  match Q.mq q with
  | none => .error .dangling
  | some m =>
    if m.inGlobal = false then
      (Q.set q { m.enqueue message with inGlobal := true }).ubossGlobalmqPush q
    else .ok (Q.set q (m.enqueue message))

def ubossMqMarkRelease (Q : Queues) (q : QueueId) : Except SchedulerFault Queues :=
  match Q.mq q with
  | none => .error .dangling
  | some m =>
    if m.release then .error .releasedTwice
    else if m.inGlobal = false then (Q.set q { m with release := true }).ubossGlobalmqPush q
    else .ok (Q.set q { m with release := true })

/-- `_release`: the queue is freed. -/
def release (Q : Queues) (q : QueueId) : Except SchedulerFault Queues :=
  match Q.mq q with
  | none => .error .dangling
  | some _ =>
    if Q.next q ≠ none then .error .nextNotNull
    else .ok { Q with mq := update Q.mq q none }

/-- The global queue is the list `L` of allocated queues. -/
structure GlobalList (Q : Queues) (L : List QueueId) : Prop where
  linked : Linked Q.next Q.head Q.tail L
  nodup : L.Nodup
  live : ∀ q ∈ L, ∃ m, Q.mq q = some m

theorem globalList_init : ubossMqInit.GlobalList [] :=
  ⟨linked_nil, nodup_nil, fun _ h => absurd h not_mem_nil⟩

/-- Writing a queue that exists leaves the global queue as it is. -/
theorem GlobalList.set (hL : Q.GlobalList L) : (Q.set q m).GlobalList L := by
  refine ⟨hL.linked, hL.nodup, fun p hp => ?_⟩
  by_cases hpq : p = q
  · exact ⟨m, by rw [Queues.set, hpq]; exact update_self ..⟩
  · obtain ⟨m', hm'⟩ := hL.live p hp
    exact ⟨m', (update_of_ne hpq _ _).trans hm'⟩

/-- Pushing a queue that is not in the list passes the assertion and appends it. -/
theorem globalmqPush_ok (hL : Q.GlobalList L) (hq : Q.mq q = some m) (hmem : q ∉ L) :
    ∃ Q', Q.ubossGlobalmqPush q = .ok Q' ∧ Q'.mq = Q.mq ∧ Q'.GlobalList (L ++ [q]) := by
  have hnext : ¬ Q.next q ≠ none := not_not.mpr (hL.linked.next_eq_none q hmem)
  have hnodup : (L ++ [q]).Nodup := by
    rw [nodup_append_comm]
    exact nodup_cons.mpr ⟨hmem, hL.nodup⟩
  have hlive : ∀ p ∈ L ++ [q], ∃ m, Q.mq p = some m := by
    intro p hp
    rcases mem_append.mp hp with hp | hp
    · exact hL.live p hp
    · exact ⟨m, by rwa [mem_singleton.mp hp]⟩
  rcases eq_nil_or_concat L with rfl | ⟨L', last, rfl⟩
  · have htail : Q.tail = none := hL.linked.tail_eq
    refine ⟨{ Q with head := some q, tail := some q }, ?_, rfl, hL.linked.push_nil, hnodup, hlive⟩
    simp only [ubossGlobalmqPush, hq, if_neg hnext, htail]
  · rw [concat_eq_append] at *
    have htail : Q.tail = some last := by
      rw [hL.linked.tail_eq]
      simp
    obtain ⟨m', hlast⟩ := hL.live last (by simp)
    refine ⟨{ Q with next := update Q.next last (some q), tail := some q }, ?_, rfl,
      hL.linked.push_concat hL.nodup hmem, hnodup, hlive⟩
    simp only [ubossGlobalmqPush, hq, if_neg hnext, htail, hlast]

/-- Nothing comes out of an empty global queue. -/
theorem globalmqPop_nil (hL : Q.GlobalList []) : Q.ubossGlobalmqPop = .ok (none, Q) := by
  have hhead : Q.head = none := hL.linked.chain
  simp only [ubossGlobalmqPop, hhead]

/-- Popping passes the assertion and removes the first queue. -/
theorem globalmqPop_cons (hL : Q.GlobalList (q :: L)) :
    ∃ Q', Q.ubossGlobalmqPop = .ok (some q, Q') ∧ Q'.mq = Q.mq ∧ Q'.GlobalList L := by
  have hhead : Q.head = some q := hL.linked.chain.1
  obtain ⟨m, hq⟩ := hL.live q mem_cons_self
  obtain ⟨hmem, hnodup⟩ := nodup_cons.mp hL.nodup
  have htail : ¬ (Q.next q = none ∧ Q.tail ≠ some q) := fun h =>
    h.2 (hL.linked.tail_of_next_none h.1)
  refine ⟨{ Q with
      head := Q.next q
      tail := if Q.next q = none then none else Q.tail
      next := update Q.next q none }, ?_, rfl, hL.linked.pop hmem, hnodup,
    fun p hp => hL.live p (mem_cons_of_mem _ hp)⟩
  simp only [ubossGlobalmqPop, hhead, hq, if_neg htail]

/-- `_release` of a queue outside the list passes the assertion. -/
theorem release_ok (hL : Q.GlobalList L) (hq : Q.mq q = some m) (hmem : q ∉ L) :
    Q.release q = .ok { Q with mq := update Q.mq q none } ∧
      GlobalList { Q with mq := update Q.mq q none } L := by
  have hnext : ¬ Q.next q ≠ none := not_not.mpr (hL.linked.next_eq_none q hmem)
  refine ⟨by simp only [release, hq, if_neg hnext], hL.linked, hL.nodup, fun p hp => ?_⟩
  have hpq : p ≠ q := fun h => hmem (h ▸ hp)
  obtain ⟨m', hm'⟩ := hL.live p hp
  exact ⟨m', (update_of_ne hpq _ _).trans hm'⟩

end Queues

end Uboss.Core
