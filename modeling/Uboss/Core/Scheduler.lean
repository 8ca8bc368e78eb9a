import Uboss.Core.HandleRegistry
import Uboss.Core.MessageQueue

/-!
# The scheduler

The threads of a node: workers running `uboss_context_message_dispatch`, senders running
`uboss_context_push`, threads inside `uboss_context_new`, and threads that retire handles or
hold on to a context. A step is one lock-protected section or one atomic operation, with the
thread-local code around it; where a thread is between two steps is its `Pc`.

Service code (a callback, a module's init or release function) can call back into all of
these functions. Such a call is a step of another thread of the model, so a run of the model
may return from a callback while a call made by it is still under way; the program has fewer
interleavings. The registration of a new context, the assignment of its `handle` and the
creation of its queue are one step: no other thread knows the handle before.

Contexts and queues are allocated at fresh addresses and freed memory is `none`. The one
access that does not fault on a freed context is the assignment `ctx->init = true` of
`uboss_context_new`, which writes through a pointer that is no longer counted.
-/

namespace Uboss.Core

open Math

/-- The fields of `struct uboss_context` that the scheduler uses; `cb` says whether the
callback is set. The `handle` field is kept with the handle storage. -/
structure Context where
  queue : QueueId
  ref : ℕ
  init : Bool
  cb : Bool
  deriving DecidableEq, Repr

/-- What became of a message taken from a queue. -/
inductive Fate
  /-- Handed to the callback. -/
  | delivered
  /-- Freed because no callback was set. -/
  | freed
  /-- Passed to `drop_message`. -/
  | dropped
  deriving DecidableEq, Repr

/-- The code after the call of a function that is called in several places. -/
inductive Cont
  /-- Nothing more to do. -/
  | idle
  /-- `return uboss_globalmq_pop()`. -/
  | globalPop
  /-- Return `q` to `thread_worker`. -/
  | between (q : QueueId)
  /-- The rest of `uboss_context_new` after a failed init. -/
  | failRetire (q : QueueId) (handle : ℕ)
  /-- Its last part. -/
  | mqRelease (q : QueueId)
  /-- The rest of `uboss_context_new` when the new context is already gone. -/
  | publish (q : QueueId)
  deriving DecidableEq, Repr

/-- Where a thread is between two steps, with its local variables. -/
inductive Pc
  /-- Outside; a worker with `q == NULL`. -/
  | idle
  /-- `thread_worker`: the last dispatch returned `q`. -/
  | between (q : QueueId)
  /-- `uboss_context_message_dispatch`: before `uboss_handle_grab`. -/
  | grab (q : QueueId) (weight : ℤ)
  /-- In the loop, before `uboss_mq_pop`. -/
  | pop (q : QueueId) (c : CtxId) (weight : ℤ) (i n : ℕ)
  /-- In the first round, before `uboss_mq_length`. -/
  | length (q : QueueId) (c : CtxId) (weight : ℤ) (msg : UbossMessage)
  /-- Before `dispatch_message`. -/
  | call (q : QueueId) (c : CtxId) (weight : ℤ) (i n : ℕ) (msg : UbossMessage)
  /-- In the callback. -/
  | calling (q : QueueId) (c : CtxId) (weight : ℤ) (i n : ℕ)
  /-- After the loop. -/
  | yield (q : QueueId) (c : CtxId)
  /-- Before pushing `q` back. -/
  | pushBack (q nq : QueueId) (c : CtxId)
  /-- Before `return uboss_globalmq_pop()`. -/
  | globalPop
  /-- Before `uboss_mq_release`. -/
  | mqRelease (q : QueueId) (k : Cont)
  /-- In the loop of `_drop_queue`. -/
  | drop (q : QueueId) (k : Cont)
  /-- Before `drop_func`. -/
  | dropMsg (q : QueueId) (msg : UbossMessage) (k : Cont)
  /-- Before `_release`. -/
  | free (q : QueueId) (k : Cont)
  /-- Before `uboss_context_release`. -/
  | release (c : CtxId) (k : Cont)
  /-- In `delete_context`. -/
  | delete (c : CtxId) (k : Cont)
  /-- `uboss_context_push`: before `uboss_mq_push`. -/
  | push (c : CtxId) (msg : UbossMessage)
  /-- Holding a reference: a command handler, or the harbor. -/
  | held (c : CtxId)
  /-- `uboss_context_new`: in the init function of the module. -/
  | init (q : QueueId) (c : CtxId)
  /-- After a successful init, before `uboss_context_release`. -/
  | launched (q : QueueId) (c : CtxId)
  /-- Before `ctx->init = true`. -/
  | setInit (q : QueueId) (c : CtxId)
  /-- Before `uboss_globalmq_push`. -/
  | publish (q : QueueId)
  /-- After a failed init, before `uboss_handle_retire`. -/
  | failRetire (q : QueueId) (handle : ℕ)
  deriving DecidableEq, Repr

/-- Where a thread goes on after the call. -/
def Cont.pc : Cont → Pc
  | .idle => .idle
  | .globalPop => .globalPop
  | .between q => .between q
  | .failRetire q handle => .failRetire q handle
  | .mqRelease q => .mqRelease q .idle
  | .publish q => .publish q

/-- The state of a node, and for every queue the messages pushed into it and the fates of
those removed, oldest first. -/
structure Node (Tid : Type) where
  registry : Registry
  ctx : CtxId → Option Context
  queues : Queues
  nextQueue : QueueId
  thread : Tid → Pc
  sent : QueueId → List UbossMessage
  fate : QueueId → List (UbossMessage × Fate)

/-- The steps. `run` is the next step of a thread inside a function; the others say which
function an idle thread enters, or what service code does. -/
inductive NodeAct (Tid : Type)
  | dispatch (t : Tid) (weight : ℤ)
  | run (t : Tid)
  | launch (t : Tid)
  | initReturn (t : Tid) (ok : Bool)
  | callback (t : Tid) (cb : Bool)
  | send (t : Tid) (handle : ℕ) (msg : UbossMessage)
  | retire (t : Tid) (handle : ℕ)
  | grab (t : Tid) (handle : ℕ)
  | reserve (t u : Tid)
  | heldPush (t : Tid) (msg : UbossMessage)
  | heldRelease (t : Tid)
  deriving DecidableEq, Repr

namespace Node

variable {Tid : Type}

/-- After `uboss_handle_init` and `uboss_mq_init`, with all threads outside. -/
def init (Tid : Type) (harbor : ℕ) : Node Tid where
  registry := Registry.init harbor
  ctx := fun _ => none
  queues := Queues.ubossMqInit
  nextQueue := 0
  thread := fun _ => .idle
  sent := fun _ => []
  fate := fun _ => []

section Step

variable [DecidableEq Tid] (s : Node Tid) (t : Tid)

/-- Move a thread on. -/
def goto (p : Pc) : Node Tid := { s with thread := Function.update s.thread t p }

/-- Replace the queues. -/
def setQueues (Q : Queues) : Node Tid := { s with queues := Q }

/-- Write a context. -/
def setCtx (c : CtxId) (x : Option Context) : Node Tid :=
  { s with ctx := Function.update s.ctx c x }

def ubossContextGrab (c : CtxId) : Except SchedulerFault (Node Tid) :=
  match s.ctx c with
  | none => .error .dangling
  | some x => .ok (s.setCtx c (some { x with ref := x.ref + 1 }))

/-- `uboss_handle_grab`, followed by `p` with the context that was found or by `p'`. -/
def ubossHandleGrab (handle : ℕ) (p : CtxId → Pc) (p' : Pc) : Except SchedulerFault (Node Tid) :=
  match s.registry.grab handle with
  | none => .ok (s.goto t p')
  | some c => (s.ubossContextGrab c).map fun s' => s'.goto t (p c)

/-- `uboss_context_release`, up to `delete_context` if this was the last reference and to `p`
otherwise. -/
def ubossContextRelease (c : CtxId) (p : Pc) (k : Cont) : Except SchedulerFault (Node Tid) :=
  match s.ctx c with
  | none => .error .dangling
  | some x =>
    .ok ((s.setCtx c (some { x with ref := x.ref - 1 })).goto t
      (if x.ref - 1 = 0 then .delete c k else p))

def deleteContext (c : CtxId) (k : Cont) : Except SchedulerFault (Node Tid) :=
  match s.ctx c with
  | none => .error .dangling
  | some x => (s.queues.ubossMqMarkRelease x.queue).map fun Q =>
      ((s.setQueues Q).setCtx c none).goto t k.pc

/-- `uboss_handle_retire`, up to its `uboss_context_release`, followed by `k`. -/
def ubossHandleRetire (handle : ℕ) (k : Cont) : Node Tid :=
  goto { s with registry := s.registry.retire handle } t
    (match s.registry.grab handle with
    | none => k.pc
    | some c => .release c k)

/-- `uboss_globalmq_pop`, followed by `p` with the queue or by `p'`. -/
def ubossGlobalmqPop (p : QueueId → Pc) (p' : Pc) : Except SchedulerFault (Node Tid) :=
  s.queues.ubossGlobalmqPop.map fun r =>
    (s.setQueues r.2).goto t (match r.1 with
      | none => p'
      | some q => p q)

def ubossGlobalmqPush (q : QueueId) (p : Pc) : Except SchedulerFault (Node Tid) :=
  (s.queues.ubossGlobalmqPush q).map fun Q => (s.setQueues Q).goto t p

/-- `uboss_mq_push` to the queue of a context. -/
def ubossMqPush (c : CtxId) (msg : UbossMessage) (p : Pc) : Except SchedulerFault (Node Tid) :=
  match s.ctx c with
  | none => .error .dangling
  | some x => (s.queues.ubossMqPush x.queue msg).map fun Q =>
      goto { s.setQueues Q with
        sent := Function.update s.sent x.queue (s.sent x.queue ++ [msg]) } t p

/-- `uboss_mq_pop`, followed by `p` with the message or by `p'`. -/
def ubossMqPop (q : QueueId) (p : UbossMessage → Pc) (p' : Pc) : Except SchedulerFault (Node Tid) :=
  match s.queues.mq q with
  | none => .error .dangling
  | some m =>
    .ok ((s.setQueues (s.queues.set q m.ubossMqPop.2)).goto t
      (match m.ubossMqPop.1 with
      | none => p'
      | some msg => p msg))

/-- `uboss_mq_release`, up to `_drop_queue`. -/
def ubossMqRelease (q : QueueId) (k : Cont) : Except SchedulerFault (Node Tid) :=
  match s.queues.mq q with
  | none => .error .dangling
  | some m => if m.release then .ok (s.goto t (.drop q k)) else s.ubossGlobalmqPush t q k.pc

/-- Record what became of a message. -/
def settle (q : QueueId) (msg : UbossMessage) (f : Fate) : Node Tid :=
  { s with fate := Function.update s.fate q (s.fate q ++ [(msg, f)]) }

/-- From `uboss_mq_overload` to the callback. -/
def dispatchMessage (q : QueueId) (c : CtxId) (msg : UbossMessage) (p : Pc) :
    Except SchedulerFault (Node Tid) :=
  match s.queues.mq q, s.ctx c with
  | some m, some x =>
    if x.cb ∧ ¬ x.init then .error .notInit
    else
      .ok (((s.setQueues (s.queues.set q m.ubossMqOverload.2)).settle q msg
        (if x.cb then .delivered else .freed)).goto t p)
  | _, _ => .error .dangling

/-- The registration of a new context and the creation of its queue in `uboss_context_new`. -/
def launch (handle : ℕ) (storage : HandleStorage) : Node Tid :=
  goto { s with
    registry := s.registry.publish handle storage
    ctx := Function.update s.ctx s.registry.next (some ⟨s.nextQueue, 2, false, false⟩)
    queues := s.queues.set s.nextQueue (ubossMqCreate handle)
    nextQueue := s.nextQueue + 1 } t (.init s.nextQueue s.registry.next)

/-- The next step of a thread. -/
def run : Except SchedulerFault (Node Tid) :=
  match s.thread t with
  | .grab q weight =>
    match s.queues.mq q with
    | none => .error .dangling
    | some m => s.ubossHandleGrab t m.handle (fun c => .pop q c weight 0 1)
        (.mqRelease q .globalPop)
  | .pop q c weight i n =>
    s.ubossMqPop t q (fun msg => if i = 0 ∧ 0 ≤ weight then .length q c weight msg
        else .call q c weight i n msg)
      (.release c .globalPop)
  | .length q c weight msg =>
    match s.queues.mq q with
    | none => .error .dangling
    | some m => .ok (s.goto t (.call q c weight 0 (m.ubossMqLength >>> weight.toNat) msg))
  | .call q c weight i n msg => s.dispatchMessage t q c msg (.calling q c weight i n)
  | .calling q c weight i n =>
    .ok (s.goto t (if i + 1 < n then .pop q c weight (i + 1) n else .yield q c))
  | .yield q c =>
    match s.ctx c with
    | none => .error .dangling
    | some x =>
      if x.queue ≠ q then .error .queueMismatch
      else s.ubossGlobalmqPop t (fun nq => .pushBack q nq c) (.release c (.between q))
  | .pushBack q nq c => s.ubossGlobalmqPush t q (.release c (.between nq))
  | .globalPop => s.ubossGlobalmqPop t .between .idle
  | .mqRelease q k => s.ubossMqRelease t q k
  | .drop q k => s.ubossMqPop t q (fun msg => .dropMsg q msg k) (.free q k)
  | .dropMsg q msg k => .ok ((s.settle q msg .dropped).goto t (.drop q k))
  | .free q k => (s.queues.release q).map fun Q => (s.setQueues Q).goto t k.pc
  | .release c k => s.ubossContextRelease t c k.pc k
  | .delete c k => s.deleteContext t c k
  | .push c msg => s.ubossMqPush t c msg (.release c .idle)
  | .launched q c => s.ubossContextRelease t c (.setInit q c) (.publish q)
  | .setInit q c =>
    .ok ((s.setCtx c ((s.ctx c).map fun x => { x with init := true })).goto t (.publish q))
  | .publish q => s.ubossGlobalmqPush t q .idle
  | .failRetire q handle => .ok (s.ubossHandleRetire t handle (.mqRelease q))
  | _ => .error .disabled

/-- The context whose service code a thread is running. -/
def running : Pc → Option CtxId
  | .calling _ c _ _ _ => some c
  | .init _ c => some c
  | _ => none

/-- One step. -/
def step : NodeAct Tid → Except SchedulerFault (Node Tid)
  | .dispatch t weight =>
    match s.thread t with
    | .idle => s.ubossGlobalmqPop t (fun q => .grab q weight) .idle
    | .between q => .ok (s.goto t (.grab q weight))
    | _ => .error .disabled
  | .run t => s.run t
  | .launch t =>
    match s.thread t, s.registry.register with
    | .idle, .ok (handle, storage) => .ok (s.launch t handle storage)
    | _, _ => .error .disabled
  | .initReturn t ok =>
    match s.thread t with
    | .init q c =>
      .ok (s.goto t (if ok then .launched q c
        else .release c (.failRetire q (s.registry.handleOf c))))
    | _ => .error .disabled
  | .callback t cb =>
    match running (s.thread t) with
    | none => .error .disabled
    | some c =>
      match s.ctx c with
      | none => .error .dangling
      | some x => .ok (s.setCtx c (some { x with cb := cb }))
  | .send t handle msg =>
    match s.thread t with
    | .idle => s.ubossHandleGrab t handle (fun c => .push c msg) .idle
    | _ => .error .disabled
  | .retire t handle =>
    match s.thread t with
    | .idle => .ok (s.ubossHandleRetire t handle .idle)
    | _ => .error .disabled
  | .grab t handle =>
    match s.thread t with
    | .idle => s.ubossHandleGrab t handle .held .idle
    | _ => .error .disabled
  | .reserve t u =>
    match s.thread t, running (s.thread u) with
    | .idle, some c => (s.ubossContextGrab c).map fun s' => s'.goto t (.held c)
    | _, _ => .error .disabled
  | .heldPush t msg =>
    match s.thread t with
    | .held c => s.ubossMqPush t c msg (.held c)
    | _ => .error .disabled
  | .heldRelease t =>
    match s.thread t with
    | .held c => .ok (s.goto t (.release c .idle))
    | _ => .error .disabled

/-- The steps that have a result, as a transition function. -/
def next (a : NodeAct Tid) : Option (Node Tid) := (s.step a).toOption

/-- Handles are not recycled: a launch gets a handle that no allocated queue carries. -/
def FreshHandle : NodeAct Tid → Prop
  | .launch _ => ∀ handle storage, s.registry.register = .ok (handle, storage) →
      ∀ q m, s.queues.mq q = some m → m.handle ≠ handle
  | _ => True

end Step

end Node

end Uboss.Core
