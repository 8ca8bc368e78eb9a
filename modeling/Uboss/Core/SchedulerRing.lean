import Mathlib.Data.Option.Basic
import Uboss.Core.MessageRing
import Uboss.Core.SchedulerSafe

/-!
# The scheduler with its rings

The queues of a node as rings whose positions are C integers. Whatever function a step of the node
calls on a queue runs on its ring, and the step goes on with what the ring answers, which is what
the queue of the node answers. A ring has at most `2 ^ 30` cells: with one message more its capacity
would be `2 ^ 31`, and `cap` is an `int`.
-/

namespace Uboss.Core

open Math Function Option MessageQueue Queues

/-- A call of a function of `uboss_mq.c` on one queue. -/
inductive QueueCall
  | create (handle : ℕ)
  /-- `uboss_mq_handle`. -/
  | handle
  | push (message : UbossMessage)
  | pop
  | length
  | overload
  | markRelease
  /-- The test of `uboss_mq_release`. -/
  | released
  /-- `_release`. -/
  | free
  deriving DecidableEq, Repr

/-- What the caller learns: a message, a number or a flag. For `uboss_mq_push` and
`uboss_mq_mark_release` the flag says whether the queue gets into the global queue. -/
inductive QueueAnswer
  | nothing
  | message (m : Option UbossMessage)
  | number (n : ℤ)
  | flag (b : Bool)
  deriving DecidableEq, Repr

/-- A call on a queue that exists, and its answer. -/
def MessageQueue.answer (m : MessageQueue) : QueueCall → MessageQueue × QueueAnswer
  | .create _ | .free => (m, .nothing)
  | .handle => (m, .number m.handle)
  | .push message => ({ m.enqueue message with inGlobal := true }, .flag !m.inGlobal)
  | .pop => (m.ubossMqPop.2, .message m.ubossMqPop.1)
  | .length => (m, .number m.ubossMqLength)
  | .overload => (m.ubossMqOverload.2, .number m.ubossMqOverload.1)
  | .markRelease => ({ m with release := true }, .flag !m.inGlobal)
  | .released => (m, .flag m.release)

/-- The same call on a ring. -/
def MessageRing.answer (r : MessageRing) : QueueCall → Except RingFault (MessageRing × QueueAnswer)
  | .create _ | .free => .ok (r, .nothing)
  | .handle => .ok (r, .number r.handle)
  | .push message => (r.ubossMqPush message).map fun x => (x.1, .flag x.2)
  | .pop => r.ubossMqPop.map fun x => (x.2, .message x.1)
  | .length => r.ubossMqLength.map fun n => (r, .number n)
  | .overload => .ok (r.ubossMqOverload.2, .number r.ubossMqOverload.1)
  | .markRelease => .ok ({ r with release := true }, .flag !r.inGlobal)
  | .released => .ok (r, .flag r.release)

namespace MessageRing

variable {r : MessageRing} {m : MessageQueue}

/-- The ring is the queue, and its capacity is an `int`. -/
structure Fits (r : MessageRing) (m : MessageQueue) : Prop where
  refines : r.Refines m
  doubled : Doubled m.cap

theorem fits_create (handle : ℕ) : (ubossMqCreate handle).Fits (Core.ubossMqCreate handle) :=
  ⟨refines_create handle, 6, by decide, rfl⟩

theorem Refines.overload_eq (h : r.Refines m) : r.ubossMqOverload.1 = m.ubossMqOverload.1 ∧
      r.ubossMqOverload.2.Refines m.ubossMqOverload.2 := by
  unfold MessageRing.ubossMqOverload MessageQueue.ubossMqOverload
  by_cases hmark : m.overload = 0
  · rw [if_neg (by rw [h.overload]; omega), if_neg (not_not.mpr hmark)]
    exact ⟨rfl, h⟩
  · rw [if_pos (by rw [h.overload]; omega), if_pos hmark]
    exact ⟨h.overload, { h with overload := rfl }⟩

/-- A ring answers what the queue answers, unless it would have to hold `2 ^ 30` messages. -/
theorem Fits.answer (h : r.Fits m) {call : QueueCall}
    (hroom : ∀ message, call = .push message → m.contents.length + 1 < 2 ^ 30) :
    ∃ r', r.answer call = .ok (r', (m.answer call).2) ∧ r'.Fits (m.answer call).1 := by
  obtain ⟨href, hcap⟩ := h
  cases call with
  | create _ | free => exact ⟨r, rfl, href, hcap⟩
  | handle => exact ⟨r, by rw [MessageRing.answer, href.handle]; rfl, href, hcap⟩
  | push message =>
    obtain ⟨r', hpush, hr'⟩ := ubossMqPush_refines href hcap.le (hroom message rfl) message
    exact ⟨r', by rw [MessageRing.answer, hpush]; rfl, hr',
      doubled_enqueue hcap (hroom message rfl)⟩
  | pop =>
    obtain ⟨r', hpop, hr'⟩ := ubossMqPop_refines href hcap.le
    exact ⟨r', by rw [MessageRing.answer, hpop]; rfl, hr', (cap_ubossMqPop m).symm ▸ hcap⟩
  | length => exact ⟨r, by rw [MessageRing.answer, href.length hcap.le]; rfl, href, hcap⟩
  | overload =>
    obtain ⟨hmark, hr'⟩ := href.overload_eq
    refine ⟨_, by rw [MessageRing.answer, hmark]; rfl, hr', ?_⟩
    change Doubled m.ubossMqOverload.2.cap
    unfold MessageQueue.ubossMqOverload
    split_ifs <;> exact hcap
  | markRelease =>
    refine ⟨{ r with release := true }, ?_, { href with release := rfl }, hcap⟩
    change Except.ok (_, QueueAnswer.flag !r.inGlobal) = _
    rw [href.inGlobal]
    rfl
  | released => exact ⟨r, by rw [MessageRing.answer, href.release]; rfl, href, hcap⟩

end MessageRing

namespace Node

variable {Tid : Type} (s : Node Tid)

/-- The function of a queue that a step calls. -/
def queueCall : NodeAct Tid → Option (QueueId × QueueCall)
  | .launch t =>
    match s.thread t, s.registry.register with
    | .idle, .ok (handle, _) => some (s.nextQueue, .create handle)
    | _, _ => none
  | .heldPush t msg =>
    match s.thread t with
    | .held c => (s.ctx c).map fun x => (x.queue, .push msg)
    | _ => none
  | .run t =>
    match s.thread t with
    | .grab q _ => some (q, .handle)
    | .pop q _ _ _ _ | .drop q _ => some (q, .pop)
    | .length q _ _ _ => some (q, .length)
    | .call q _ _ _ _ _ => some (q, .overload)
    | .mqRelease q _ => some (q, .released)
    | .free q _ => some (q, .free)
    | .delete c _ => (s.ctx c).map fun x => (x.queue, .markRelease)
    | .push c msg => (s.ctx c).map fun x => (x.queue, .push msg)
    | _ => none
  | _ => none

/-- The queues after a call. -/
def called (mq : QueueId → Option MessageQueue) :
    Option (QueueId × QueueCall) → QueueId → Option MessageQueue
  | none => mq
  | some (q, .create handle) => update mq q (some (ubossMqCreate handle))
  | some (q, .free) => update mq q none
  | some (q, call) => update mq q ((mq q).map fun m => (m.answer call).1)

variable {s} {s' : Node Tid} {t : Tid} {q : QueueId}

variable {m : MessageQueue} {call : QueueCall} {c : CtxId} {p' : Pc} {k : Cont} {msg : UbossMessage}

/-- A call on a queue that exists. -/
theorem called_eq {mq : QueueId → Option MessageQueue} (hcreate : ∀ handle, call ≠ .create handle)
    (hfree : call ≠ .free) (hm : mq q = some m) :
    called mq (some (q, call)) = update mq q (some (m.answer call).1) := by
  unfold called
  split
  next heq => cases heq
  next heq =>
    cases heq
    exact absurd rfl (hcreate _)
  next heq =>
    cases heq
    exact absurd rfl hfree
  next heq =>
    cases heq
    rw [hm, Option.map_some]

theorem mq_globalmqPush {Q Q' : Queues} (h : Q.ubossGlobalmqPush q = .ok Q') : Q'.mq = Q.mq := by
  unfold Queues.ubossGlobalmqPush at h
  repeat' split at h
  all_goals cases h
  all_goals rfl

theorem mq_globalmqPop {Q : Queues} {x : Option QueueId × Queues}
    (h : Q.ubossGlobalmqPop = .ok x) : x.2.mq = Q.mq := by
  unfold Queues.ubossGlobalmqPop at h
  repeat' split at h
  all_goals cases h
  all_goals rfl

/-- The function that is called runs on a queue that exists, and nothing else happens to the
queues. -/
def Calls (s : Node Tid) (s' : Node Tid) (o : Option (QueueId × QueueCall)) : Prop :=
  s'.queues.mq = called s.queues.mq o ∧
    ∀ q call, o = some (q, call) → (∀ handle, call ≠ .create handle) → ∃ m, s.queues.mq q = some m

theorem calls_none (h : s'.queues.mq = s.queues.mq) : s.Calls s' none := ⟨h, nofun⟩

theorem calls_some (hm : s.queues.mq q = some m) (hcreate : ∀ handle, call ≠ .create handle)
    (hfree : call ≠ .free) (h : s'.queues.mq = update s.queues.mq q (some (m.answer call).1)) :
    s.Calls s' (some (q, call)) := by
  refine ⟨by rw [called_eq hcreate hfree hm, h], fun q' call' heq _ => ?_⟩
  cases heq
  exact ⟨m, hm⟩

/-- A call that only reads. -/
theorem calls_read (hm : s.queues.mq q = some m) (hcreate : ∀ handle, call ≠ .create handle)
    (hfree : call ≠ .free) (hread : (m.answer call).1 = m) (h : s'.queues.mq = s.queues.mq) :
    s.Calls s' (some (q, call)) := by
  refine calls_some hm hcreate hfree ?_
  rw [h, hread, ← hm, update_eq_self]

theorem mq_contextGrab (h : s.ubossContextGrab c = .ok s') : s'.queues = s.queues := by
  unfold ubossContextGrab at h
  split at h <;> cases h
  rfl

variable [DecidableEq Tid]

theorem mq_handleGrab {handle : ℕ} {p : CtxId → Pc} (h : s.ubossHandleGrab t handle p p' = .ok s') :
    s'.queues = s.queues := by
  unfold ubossHandleGrab at h
  split at h
  · cases h
    rfl
  · obtain ⟨u, hu, rfl⟩ := map_eq_ok_iff.mp h
    have hsame : u.queues = s.queues := mq_contextGrab hu
    exact hsame

theorem mq_contextRelease {p : Pc} (h : s.ubossContextRelease t c p k = .ok s') :
    s'.queues = s.queues := by
  unfold ubossContextRelease at h
  split at h <;> cases h
  rfl

theorem mq_nodePop {p : QueueId → Pc} (h : s.ubossGlobalmqPop t p p' = .ok s') :
    s'.queues.mq = s.queues.mq := by
  obtain ⟨x, hx, rfl⟩ := map_eq_ok_iff.mp h
  exact mq_globalmqPop hx

theorem mq_nodePush {p : Pc} (h : s.ubossGlobalmqPush t q p = .ok s') :
    s'.queues.mq = s.queues.mq := by
  obtain ⟨Q, hQ, rfl⟩ := map_eq_ok_iff.mp h
  exact mq_globalmqPush hQ

theorem calls_mqPop {p : UbossMessage → Pc} (h : s.ubossMqPop t q p p' = .ok s') :
    s.Calls s' (some (q, .pop)) := by
  unfold ubossMqPop at h
  split at h
  · cases h
  next m hm =>
    cases h
    exact calls_some hm nofun nofun rfl

/-- `uboss_mq_push` leaves `in_global` set. -/
theorem mq_mqPush {Q Q' : Queues} (h : Q.ubossMqPush q msg = .ok Q') :
    ∃ m, Q.mq q = some m ∧ Q'.mq = update Q.mq q (some (m.answer (.push msg)).1) := by
  unfold Queues.ubossMqPush at h
  split at h
  · cases h
  next m hm =>
    refine ⟨m, hm, ?_⟩
    split_ifs at h with hglobal
    · exact mq_globalmqPush h
    · cases h
      have hsame : { m.enqueue msg with inGlobal := true } = m.enqueue msg := by
        rw [← eq_true_of_ne_false hglobal, ← @MessageQueue.enqueue_inGlobal m msg]
      change update Q.mq q (some (m.enqueue msg)) = update Q.mq q (some { m.enqueue msg with
        inGlobal := true })
      rw [hsame]

theorem calls_mqPush {p : Pc} (h : s.ubossMqPush t c msg p = .ok s') :
    s.Calls s' ((s.ctx c).map fun x => (x.queue, .push msg)) := by
  unfold ubossMqPush at h
  split at h
  · cases h
  next x hx =>
    obtain ⟨Q, hQ, rfl⟩ := map_eq_ok_iff.mp h
    obtain ⟨m, hm, hmq⟩ := mq_mqPush hQ
    rw [hx]
    exact calls_some hm nofun nofun hmq

theorem calls_deleteContext (h : s.deleteContext t c k = .ok s') :
    s.Calls s' ((s.ctx c).map fun x => (x.queue, .markRelease)) := by
  unfold deleteContext at h
  split at h
  · cases h
  next x hx =>
    obtain ⟨Q, hQ, rfl⟩ := map_eq_ok_iff.mp h
    rw [hx]
    unfold ubossMqMarkRelease at hQ
    split at hQ
    · cases hQ
    next m hm =>
      refine calls_some hm nofun nofun ?_
      split_ifs at hQ
      · exact mq_globalmqPush hQ
      · cases hQ
        rfl

theorem calls_run (h : s.run t = .ok s') : s.Calls s' (s.queueCall (.run t)) := by
  unfold run at h
  cases hpc : s.thread t <;> rw [hpc] at h <;> dsimp only at h <;>
    simp only [queueCall, hpc]
  case grab q weight =>
    split at h
    · cases h
    next m hm => exact calls_read hm nofun nofun rfl (congrArg mq (mq_handleGrab h))
  case pop | drop => exact calls_mqPop h
  case length q c weight msg =>
    split at h
    · cases h
    next m hm =>
      cases h
      exact calls_read hm nofun nofun rfl rfl
  case call q c weight i n msg =>
    unfold dispatchMessage at h
    split at h
    next m x hm hx =>
      rw [ite_eq_iff] at h
      obtain ⟨-, h⟩ | ⟨-, h⟩ := h <;> cases h
      exact calls_some hm nofun nofun rfl
    · cases h
  case yield q c =>
    split at h
    · cases h
    · split_ifs at h
      exact calls_none (mq_nodePop h)
  case globalPop => exact calls_none (mq_nodePop h)
  case pushBack | publish => exact calls_none (mq_nodePush h)
  case mqRelease q k =>
    unfold ubossMqRelease at h
    split at h
    · cases h
    next m hm =>
      refine calls_read hm nofun nofun rfl ?_
      split_ifs at h
      · cases h
        rfl
      · exact mq_nodePush h
  case free q k =>
    obtain ⟨Q, hQ, rfl⟩ := map_eq_ok_iff.mp h
    unfold Queues.release at hQ
    split at hQ
    · cases hQ
    next m hm =>
      split_ifs at hQ
      cases hQ
      refine ⟨rfl, fun q' call heq _ => ?_⟩
      cases heq
      exact ⟨m, hm⟩
  case release c k | launched q c => exact calls_none (congrArg mq (mq_contextRelease h))
  case delete c k => exact calls_deleteContext h
  case push c msg => exact calls_mqPush h
  case calling | dropMsg | setInit | failRetire =>
    cases h
    exact calls_none rfl
  case idle | between | held | init => cases h

/-- A step calls one function on one queue, and does nothing else to the queues. -/
theorem calls_step {a : NodeAct Tid} (h : s.step a = .ok s') : s.Calls s' (s.queueCall a) := by
  cases a with
  | run t => exact calls_run h
  | dispatch t weight =>
    refine calls_none ?_
    rw [step] at h
    split at h
    · exact mq_nodePop h
    · cases h
      rfl
    · cases h
  | launch t =>
    rw [step] at h
    split at h
    next handle storage hidle hregister =>
      cases h
      rw [queueCall, hidle, hregister]
      refine ⟨rfl, fun q call heq hcreate => ?_⟩
      cases heq
      exact absurd rfl (hcreate _)
    · cases h
  | heldPush t msg =>
    rw [step] at h
    split at h
    next c hheld =>
      rw [queueCall, hheld]
      exact calls_mqPush h
    · cases h
  | send t handle msg | grab t handle =>
    refine calls_none ?_
    rw [step] at h
    split at h
    · exact congrArg mq (mq_handleGrab h)
    · cases h
  | reserve t u =>
    refine calls_none ?_
    rw [step] at h
    split at h
    · obtain ⟨v, hv, rfl⟩ := map_eq_ok_iff.mp h
      have hsame : v.queues = s.queues := mq_contextGrab hv
      exact congrArg mq hsame
    · cases h
  | initReturn t ok | retire t handle | heldRelease t =>
    refine calls_none ?_
    rw [step] at h
    split at h <;> cases h
    rfl
  | callback t cb =>
    refine calls_none ?_
    rw [step] at h
    split at h
    · cases h
    · split at h <;> cases h
      rfl

end Node

/-- Why a step of a node with rings has no result. -/
inductive RingNodeFault
  | scheduler (e : SchedulerFault)
  | ring (e : RingFault)
  /-- The ring answers something else than the queue. -/
  | apart
  deriving DecidableEq, Repr

/-- A node, and the rings of its queues. -/
structure RingNode (Tid : Type) where
  node : Node Tid
  ring : QueueId → Option MessageRing

namespace RingNode

variable {Tid : Type} [DecidableEq Tid]

/-- The node as it starts, without queues. -/
def init (Tid : Type) (harbor : ℕ) : RingNode Tid := ⟨.init Tid harbor, fun _ => none⟩

section Step

variable (x : RingNode Tid)

/-- The rings after a call. -/
def callRing (q : QueueId) : QueueCall → Except RingNodeFault (QueueId → Option MessageRing)
  | .create handle => .ok (update x.ring q (some (.ubossMqCreate handle)))
  | .free => .ok (update x.ring q none)
  | call =>
    match x.ring q, x.node.queues.mq q with
    | some r, some m =>
      match r.answer call with
      | .error e => .error (.ring e)
      | .ok (r', answer) =>
        if answer = (m.answer call).2 then .ok (update x.ring q (some r'))
        else .error .apart
    | _, _ => .error (.scheduler .dangling)

/-- One step. -/
def step (a : NodeAct Tid) : Except RingNodeFault (RingNode Tid) :=
  match x.node.step a with
  | .error e => .error (.scheduler e)
  | .ok node =>
    match x.node.queueCall a with
    | none => .ok ⟨node, x.ring⟩
    | some (q, call) => (x.callRing q call).map fun ring => ⟨node, ring⟩

/-- The steps that have a result, as a transition function. -/
def next (a : NodeAct Tid) : Option (RingNode Tid) := (x.step a).toOption

/-- Handles are not recycled. -/
def FreshHandle (a : NodeAct Tid) : Prop := x.node.FreshHandle a

/-- Handles are not recycled, and no message is pushed into a queue that holds `2 ^ 30 - 1`. -/
def Safe (a : NodeAct Tid) : Prop :=
  x.FreshHandle a ∧ ∀ q message, x.node.queueCall a = some (q, .push message) →
    ∀ r, x.ring q = some r → r.ubossMqLength ≠ .ok (2 ^ 30 - 1)

/-- The messages of the rings in one state. -/
structure Delivery : Prop where
  /-- A queue with messages is in the global queue or held by a thread. -/
  scheduled : ∃ L, Linked x.node.queues.next x.node.queues.head x.node.queues.tail L ∧
    ∀ q r, x.ring q = some r → r.head ≠ r.tail → q ∈ L ∨ ∃ t, q ∈ (x.node.thread t).owned
  /-- The messages pushed are, in this order, those delivered, freed or dropped, at most one
  that a thread has just popped, and those in the ring. -/
  once : ∀ q, ∃ inHand waiting : List UbossMessage,
    x.node.sent q = (x.node.fate q).map Prod.fst ++ inHand ++ waiting ∧ inHand.length ≤ 1 ∧
      (∀ msg ∈ inHand, ∃ t, (x.node.thread t).msg = some (q, msg)) ∧
      (∀ r, x.ring q = some r → r.Represents waiting) ∧ (x.ring q = none → waiting = [])
  /-- No function of a queue fails. -/
  no_fault : ∀ a, x.Safe a → ∀ e, x.step a = .error e → e = .scheduler .disabled

end Step

variable {x : RingNode Tid} {harbor : ℕ} {a : NodeAct Tid} {q : QueueId} {r r' : MessageRing}
  {m : MessageQueue} {call : QueueCall}

omit [DecidableEq Tid] in
theorem callRing_eq (hcreate : ∀ handle, call ≠ .create handle) (hfree : call ≠ .free)
    (hr : x.ring q = some r) (hm : x.node.queues.mq q = some m)
    (hanswer : r.answer call = .ok (r', (m.answer call).2)) :
    x.callRing q call = .ok (update x.ring q (some r')) := by
  unfold callRing
  split
  next handle => exact absurd rfl (hcreate handle)
  next => exact absurd rfl hfree
  next => simp only [hr, hm, hanswer, if_pos]

/-- Every ring is the queue of the node. -/
structure Inv [Fintype Tid] (harbor : ℕ) (x : RingNode Tid) : Prop where
  node : ∃ L, x.node.Inv harbor L
  rings : ∀ q, Option.Rel MessageRing.Fits (x.ring q) (x.node.queues.mq q)

section Run

variable [Fintype Tid]

omit [DecidableEq Tid] in
theorem inv_init (harbor : ℕ) : (init Tid harbor).Inv harbor :=
  ⟨⟨[], Node.inv_init harbor⟩, fun _ => .none⟩

omit [DecidableEq Tid] in
theorem Inv.exists_ring (h : x.Inv harbor) (hm : x.node.queues.mq q = some m) :
    ∃ r, x.ring q = some r ∧ r.Fits m := by
  have hrel := h.rings q
  rw [hm] at hrel
  cases hr : x.ring q with
  | none =>
    rw [hr] at hrel
    cases hrel
  | some r =>
    rw [hr] at hrel
    cases hrel with
    | some hfits => exact ⟨r, rfl, hfits⟩

omit [DecidableEq Tid] in
theorem Inv.update_ring (h : x.Inv harbor) {o : Option MessageRing} {o' : Option MessageQueue}
    (ho : Option.Rel MessageRing.Fits o o') (p : QueueId) :
    Option.Rel MessageRing.Fits (update x.ring q o p) (update x.node.queues.mq q o' p) := by
  by_cases hp : p = q
  · rw [hp, update_self, update_self]
    exact ho
  · rw [update_of_ne hp, update_of_ne hp]
    exact h.rings p

section

variable (h : x.Inv harbor)
include h

omit [DecidableEq Tid] in
/-- A call that neither makes nor frees a queue changes its ring as it changes the queue. -/
theorem Inv.called (hsafe : x.Safe a) (hcall : x.node.queueCall a = some (q, call))
    (hcreate : ∀ handle, call ≠ .create handle) (hfree : call ≠ .free)
    (hm : x.node.queues.mq q = some m) :
    ∃ r', x.callRing q call = .ok (update x.ring q (some r')) ∧ r'.Fits (m.answer call).1 := by
  obtain ⟨r, hr, hfits⟩ := h.exists_ring hm
  obtain ⟨r', hanswer, hr'⟩ := hfits.answer fun message hpush => by
    have hlength := hsafe.2 q message (hpush ▸ hcall) r hr
    have hlt := ringLength_lt m.head_lt m.tail_lt
    have hcap := hfits.doubled.le
    rw [hfits.refines.length hcap] at hlength
    rw [length_contents]
    have hne : m.ubossMqLength ≠ 2 ^ 30 - 1 := fun heq => hlength (by rw [heq]; rfl)
    change ringLength m.cap m.head m.tail ≠ _ at hne
    change ringLength m.cap m.head m.tail + 1 < _
    omega
  exact ⟨r', callRing_eq hcreate hfree hr hm hanswer, hr'⟩

/-- The rings answer what the queues answer, and remain what they are. -/
theorem Inv.step (hsafe : x.Safe a) {node : Node Tid} (hnode : x.node.step a = .ok node) :
    ∃ ring, x.step a = .ok ⟨node, ring⟩ ∧ Inv harbor ⟨node, ring⟩ := by
  obtain ⟨L, hL⟩ := h.node
  have hgood := hL.step hsafe.1
  rw [hnode] at hgood
  obtain ⟨hmq, hexists⟩ := Node.calls_step hnode
  rw [RingNode.step, hnode]
  dsimp only
  cases hcall : x.node.queueCall a with
  | none =>
    rw [hcall] at hmq
    refine ⟨x.ring, rfl, hgood, fun q => ?_⟩
    rw [hmq]
    exact h.rings q
  | some qc =>
    obtain ⟨q, call⟩ := qc
    rw [hcall] at hmq hexists
    by_cases hcreate : ∃ handle, call = .create handle
    · obtain ⟨handle, rfl⟩ := hcreate
      refine ⟨_, rfl, hgood, fun p => ?_⟩
      rw [hmq]
      exact h.update_ring (.some (MessageRing.fits_create handle)) p
    · rw [not_exists] at hcreate
      obtain ⟨m, hm⟩ := hexists q call rfl hcreate
      by_cases hfree : call = .free
      · subst hfree
        refine ⟨_, rfl, hgood, fun p => ?_⟩
        rw [hmq]
        exact h.update_ring .none p
      · obtain ⟨r', hring, hr'⟩ := h.called hsafe hcall hcreate hfree hm
        refine ⟨update x.ring q (some r'), congrArg (Except.map _) hring, hgood, fun p => ?_⟩
        rw [hmq, Node.called_eq hcreate hfree hm]
        exact h.update_ring (.some hr') p

theorem Inv.no_fault (hsafe : x.Safe a) {e : RingNodeFault} (herror : x.step a = .error e) :
    e = .scheduler .disabled := by
  cases hnode : x.node.step a with
  | error f =>
    obtain ⟨L, hL⟩ := h.node
    have hgood := hL.step hsafe.1
    rw [hnode] at hgood
    rw [RingNode.step, hnode] at herror
    cases herror
    exact congrArg _ hgood
  | ok node =>
    obtain ⟨ring, hstep, -⟩ := h.step hsafe hnode
    rw [hstep] at herror
    cases herror

theorem Inv.next (hsafe : x.Safe a) {x' : RingNode Tid} (hnext : x.next a = some x') :
    x'.Inv harbor := by
  have hstep := toOption_eq_some_iff.mp hnext
  cases hnode : x.node.step a with
  | error f =>
    rw [RingNode.step, hnode] at hstep
    cases hstep
  | ok node =>
    obtain ⟨ring, heq, hinv⟩ := h.step hsafe hnode
    rw [heq] at hstep
    cases hstep
    exact hinv

theorem Inv.delivery : x.Delivery := by
  obtain ⟨L, hL⟩ := h.node
  obtain ⟨⟨list, hlinked, howned⟩, honce⟩ := hL.delivery
  refine ⟨⟨list, hlinked, fun q r hr hne => ?_⟩, fun q => ?_, fun a hsafe e => h.no_fault hsafe⟩
  · have hrel := h.rings q
    rw [hr] at hrel
    cases hm : x.node.queues.mq q with
    | none =>
      rw [hm] at hrel
      cases hrel
    | some m =>
      obtain ⟨r', hr', hfits⟩ := h.exists_ring hm
      obtain rfl := Option.some.inj (hr.symm.trans hr')
      refine howned q m hm fun hnil => hne ?_
      rw [hfits.refines.head, hfits.refines.tail, contents_eq_nil_iff.mp hnil]
  · obtain ⟨inHand, hsent, hone, hhand⟩ := honce q
    refine ⟨inHand, _, hsent, hone, hhand, fun r hr => ?_, fun hr => ?_⟩
    · have hrel := h.rings q
      rw [hr] at hrel
      cases hm : x.node.queues.mq q with
      | none =>
        rw [hm] at hrel
        cases hrel
      | some m =>
        rw [hm] at hrel
        cases hrel with
        | some hfits => exact hfits.refines.represents hfits.doubled.le
    · have hrel := h.rings q
      rw [hr] at hrel
      cases hm : x.node.queues.mq q with
      | none => rfl
      | some m =>
        rw [hm] at hrel
        cases hrel

end

/-- For every number of threads and every interleaving in which handles are not recycled and no
queue is given its `2 ^ 30`-th message: a queue with messages is owned, so that someone will run it,
and every message is removed at most once, in the order of the pushes. -/
theorem scheduler_delivery (Tid : Type) [Fintype Tid] [DecidableEq Tid] (harbor : ℕ)
    (acts : List (NodeAct Tid)) (x : RingNode Tid)
    (hrun : Run next Safe (init Tid harbor) acts x) : x.Delivery := by
  have hinv : x.Inv harbor :=
    hrun.invariant (inv_init harbor) fun hsafe hnext h => h.next hsafe hnext
  exact hinv.delivery

/-- A launch, and a message to the new service. -/
theorem scheduler_delivery_push : ∃ acts x, Run next Safe (init (Fin 2) 1) acts x ∧ x.Delivery := by
  have hrun : Run next Safe (init (Fin 2) 1)
      ([] ++ [.launch 0] ++ [.send 1 0x01000001 ⟨7, 1, 0, 0⟩] ++ [.run 1]) _ :=
    (((Run.nil _).snoc ⟨(fun _ _ _ _ _ h => nomatch h), fun _ _ h => nomatch h⟩ rfl).snoc
      ⟨trivial, fun _ _ h => nomatch h⟩ rfl).snoc ⟨trivial, fun _ _ h r hr => by
        cases h
        cases hr
        decide⟩ rfl
  exact ⟨_, _, hrun, scheduler_delivery _ _ _ _ hrun⟩

end Run

/-! ### The message that does not fit -/

variable {x' : RingNode (Fin 2)} {message : UbossMessage} {n : ℕ}

/-- While the first service is being initialised, the other thread holds a reference to it, and
there are `n` messages in its queue. -/
structure Filling (n : ℕ) (x : RingNode (Fin 2)) : Prop where
  inv : x.Inv 1
  thread : x.node.thread 1 = .held 0
  ctx : ∃ c, x.node.ctx 0 = some c ∧ c.queue = 0
  mq : ∃ m, x.node.queues.mq 0 = some m ∧ m.inGlobal = true ∧ m.contents.length = n

namespace Filling

variable {x : RingNode (Fin 2)}

theorem queueCall_eq (h : x.Filling n) :
    x.node.queueCall (.heldPush 1 message) = some (0, .push message) := by
  obtain ⟨c, hc, hqueue⟩ := h.ctx
  simp [Node.queueCall, h.thread, hc, hqueue]

theorem safe (h : x.Filling n) (hn : n + 1 < 2 ^ 30) : x.Safe (.heldPush 1 message) := by
  refine ⟨trivial, fun q _ hcall r hr heq => ?_⟩
  rw [h.queueCall_eq] at hcall
  cases hcall
  obtain ⟨m, hm, -, rfl⟩ := h.mq
  obtain ⟨r', hr', hfits⟩ := h.inv.exists_ring hm
  obtain rfl := Option.some.inj (hr.symm.trans hr')
  rw [hfits.refines.length hfits.doubled.le] at heq
  have hlength : (m.ubossMqLength : ℤ) = 2 ^ 30 - 1 := Except.ok.inj heq
  rw [length_contents] at hn
  omega

/-- The node itself takes the message. -/
theorem node_step (h : x.Filling n) (message : UbossMessage) :
    ∃ node, x.node.step (.heldPush 1 message) = .ok node ∧
    node.thread 1 = .held 0 ∧ node.ctx = x.node.ctx ∧ ∃ m, node.queues.mq 0 = some m ∧
      m.inGlobal = true ∧ m.contents.length = n + 1 := by
  obtain ⟨c, hc, hqueue⟩ := h.ctx
  obtain ⟨m, hm, hglobal, rfl⟩ := h.mq
  have hpush : x.node.queues.ubossMqPush 0 message =
      .ok (x.node.queues.set 0 (m.enqueue message)) := by
    rw [ubossMqPush, hm]
    exact if_neg (by rw [hglobal]; decide)
  simp only [Node.step, h.thread, Node.ubossMqPush, hc, hqueue, hpush]
  refine ⟨_, rfl, rfl, rfl, m.enqueue message, rfl, ?_, ?_⟩
  · rw [enqueue_inGlobal, hglobal]
  · rw [contents_enqueue, List.length_append]
    rfl

theorem next (h : x.Filling n) (hn : n + 1 < 2 ^ 30) (message : UbossMessage) :
    ∃ x', x.next (.heldPush 1 message) = some x' ∧ x'.Filling (n + 1) := by
  obtain ⟨node, hnode, hthread, hctx, hmq⟩ := h.node_step message
  obtain ⟨ring, hstep, hinv⟩ := h.inv.step (h.safe hn) hnode
  refine ⟨_, by rw [RingNode.next, hstep]; rfl, hinv, hthread, ?_, hmq⟩
  obtain ⟨c, hc⟩ := h.ctx
  exact ⟨c, by rw [← hc.1, ← hctx], hc.2⟩

theorem overflow (h : x.Filling (2 ^ 30 - 1)) :
    x.step (.heldPush 1 message) = .error (.ring .overflow) := by
  obtain ⟨node, hnode, -⟩ := h.node_step message
  obtain ⟨m, hm, -, hlength⟩ := h.mq
  obtain ⟨r, hr, hfits⟩ := h.inv.exists_ring hm
  have hcap : m.cap = 2 ^ 30 := by
    have hle := hfits.doubled.le
    have hlt : m.ubossMqLength < m.cap := ringLength_lt m.head_lt m.tail_lt
    rw [← length_contents] at hlt
    omega
  have hpush := MessageRing.ubossMqPush_overflow hfits.refines hcap (by omega) message
  rw [RingNode.step, hnode, h.queueCall_eq]
  simp only [callRing, hr, hm, MessageRing.answer, hpush]
  rfl

theorem run (message : UbossMessage) {n : ℕ} (hn : n < 2 ^ 30) : ∃ acts x,
    Run RingNode.next FreshHandle (RingNode.init (Fin 2) 1) acts x ∧ x.Filling n := by
  induction n with
  | zero =>
    have hrun : Run RingNode.next Safe (RingNode.init (Fin 2) 1)
        ([] ++ [.launch 0] ++ [.reserve 1 0]) _ :=
      ((Run.nil _).snoc ⟨(fun _ _ _ _ _ h => nomatch h), fun _ _ h => nomatch h⟩ rfl).snoc
        ⟨trivial, fun _ _ h => nomatch h⟩ rfl
    have hinv := hrun.invariant (inv_init 1) fun hsafe hnext h => h.next hsafe hnext
    exact ⟨_, _, hrun.mono fun _ _ h => h.1, hinv, rfl, ⟨_, rfl, rfl⟩, _, rfl, rfl, rfl⟩
  | succ n ih =>
    obtain ⟨acts, x, hrun, hx⟩ := ih (by omega)
    obtain ⟨x', hnext, hx'⟩ := hx.next hn message
    exact ⟨_, _, hrun.snoc (a := NodeAct.heldPush 1 message) trivial hnext, hx'⟩

end Filling

/-- A service is given `2 ^ 30` messages before it runs: for the last of them the capacity would
be `2 ^ 31`. -/
theorem push_overflow : ∃ (acts : List (NodeAct (Fin 2))) (x : RingNode (Fin 2)),
    Run next FreshHandle (init (Fin 2) 1) acts x ∧
      x.step (.heldPush 1 ⟨7, 1, 0, 0⟩) = .error (.ring .overflow) := by
  obtain ⟨acts, x, hrun, hx⟩ := Filling.run ⟨7, 1, 0, 0⟩ (by decide : 2 ^ 30 - 1 < 2 ^ 30)
  exact ⟨acts, x, hrun, hx.overflow⟩

end RingNode

end Uboss.Core
