import Mathlib.Data.List.Perm.Basic
import Uboss.Math.Transition

/-!
# The scheduler of a Lua service

`uboss.lua`. The main thread of a service takes its messages one by one, and resumes the coroutines
that wait for them. `suspend` looks at what a coroutine has yielded, and goes on with
`dispatch_wakeup` and `dispatch_error_queue`, each of which may resume a coroutine and call
`suspend` again. What a coroutine does between two yields, and what the main thread does between two
coroutines, is a sequence of small steps.

A handler can do anything at any time. Code that it gives away is either run by a coroutine of its
own, or is the packing function of a response closure, which may do anything too. The hooks for
unknown requests and responses are those of the library, which raise an error.
-/

namespace Uboss.Framework

open Math Option Function

/-! ## Requests and their answers -/

/-- What an answer needs. The messages that may be answered are numbered. -/
structure Ticket (Address : Type) where
  request : ℕ
  session : ℕ
  address : Address
  deriving DecidableEq

inductive ReplyKind
  /-- `PTYPE_RESPONSE` -/
  | response
  /-- `PTYPE_ERROR` -/
  | error
  deriving DecidableEq

structure ServiceReply (Address : Type) where
  kind : ReplyKind
  ticket : Ticket Address
  deriving DecidableEq

/-- `session_coroutine_id[co]` and `session_coroutine_address[co]`. -/
structure Handler (Co Address : Type) where
  co : Co
  ticket : Ticket Address
  deriving DecidableEq

/-- The variable `f` of a response closure. -/
inductive ClosureFun
  | pack
  /-- `false`, after a failed `TEST`. -/
  | discarded
  /-- `nil` -/
  | used
  deriving DecidableEq

/-- What `uboss.response` returns. It is in `unresponse` as long as it has its packing function. -/
structure Closure (Address : Type) where
  ticket : Ticket Address
  f : ClosureFun
  /-- How many of its calls have come to the packing function and not gone on. -/
  packing : ℕ
  deriving DecidableEq

/-- What the service knows of its requests. -/
structure Requests (Co Address : Type) where
  handlers : List (Handler Co Address)
  /-- `session_response[co]` -/
  sessionResponse : Co → Bool
  closures : List (Closure Address)
  /-- The session and the source of each message that may be answered. -/
  received : List (ℕ × Address)
  /-- What was sent as an answer. -/
  replies : List (ServiceReply Address)

namespace Requests

variable {Co Address : Type} [DecidableEq Co] (q : Requests Co Address) (co : Co)

/-- The request that a coroutine handles. -/
def handler : Option (Handler Co Address) := q.handlers.find? fun h => h.co = co

def reply (kind : ReplyKind) (t : Ticket Address) : Requests Co Address :=
  { q with replies := q.replies ++ [⟨kind, t⟩] }

/-- `session_coroutine_id[co] = nil` and `session_coroutine_address[co] = nil`. -/
def clear : Requests Co Address := { q with handlers := q.handlers.filter fun h => h.co ≠ co }

/-- A message comes in. -/
def record (session : ℕ) (source : Address) : Requests Co Address :=
  { q with received := q.received ++ [(session, source)] }

/-- The ticket of the next message. -/
def ticket (session : ℕ) (source : Address) : Ticket Address := ⟨q.received.length, session, source⟩

/-- A coroutine is to handle a message. -/
def receive (session : ℕ) (source : Address) : Requests Co Address :=
  { (q.clear co).record session source with
    handlers := ⟨co, q.ticket session source⟩ :: (q.clear co).handlers }

/-- There is no protocol for a message. -/
def reject (session : ℕ) (source : Address) : Requests Co Address :=
  if session = 0 then q.record session source
  else (q.record session source).reply .error (q.ticket session source)

/-- A coroutine has raised an error. -/
def fail : Requests Co Address :=
  match q.handler co with
  | none => q
  | some h => if h.ticket.session = 0 then q.clear co else (q.clear co).reply .error h.ticket

/-- `session_response[co] = true`. -/
def markAnswered : Requests Co Address :=
  { q with sessionResponse := update q.sessionResponse co true }

/-- A new response closure. -/
def promise (t : Ticket Address) : Requests Co Address :=
  { q.markAnswered co with closures := q.closures ++ [⟨t, .pack, 0⟩] }

/-- `"EXIT"` -/
def finish : Requests Co Address :=
  { q.clear co with sessionResponse := update q.sessionResponse co false }

def setClosure (i : ℕ) (c : Closure Address) : Requests Co Address :=
  { q with closures := q.closures.set i c }

/-- The sources of the requests that are still handled are told that the service exits. -/
def abandon : Requests Co Address :=
  { q with
    replies := q.replies ++
      (q.handlers.filter fun h => h.ticket.session ≠ 0).map fun h => ⟨.error, h.ticket⟩ }

/-- The closures in `unresponse`. -/
def unresponse : List (Closure Address) := q.closures.filter fun c => c.f = .pack

/-- `resp(false)` for all closures in `unresponse`. -/
def refuseAll (dead : Address → Bool) : Requests Co Address :=
  { q with
    closures := q.closures.map fun c => if c.f = .pack then { c with f := .used } else c
    replies := q.replies ++
      (q.unresponse.filter fun c => ¬dead c.ticket.address).map fun c => ⟨.error, c.ticket⟩ }

end Requests

/-! ## The state of a service -/

/-- What is in `session_id_coroutine`. -/
inductive SessionEntry (Co : Type)
  | coroutine (co : Co)
  /-- `"BREAK"` -/
  | broken
  deriving DecidableEq

inductive CoStatus (Co : Type)
  /-- It does not exist, or is in `coroutine_pool`. -/
  | free
  /-- It is in `coroutine_pool`, but was resumed there, and what it will call is no function. -/
  | spoilt
  /-- Made by `co_create`, and not resumed since. -/
  | created
  | running
  /-- In `yield_call`. The calls are numbered. -/
  | call (session call : ℕ)
  /-- In `uboss.sleep`. -/
  | sleep (session : ℕ)
  /-- In `uboss.wait`, with the coroutine that it was given. -/
  | wait (session : ℕ) (target : Co)
  /-- In another yield that `suspend` does not come back to. -/
  | parked
  | dead
  deriving DecidableEq

/-- Where the main thread is. `frames` counts the calls of `suspend` that are in `dispatch_wakeup`
and will call `dispatch_error_queue`. -/
inductive MainPc (Co : Type)
  /-- Between two messages. -/
  | idle
  | running (co : Co) (frames : ℕ)
  /-- `suspend` is about to call `dispatch_wakeup`. -/
  | wakeups (frames : ℕ)
  /-- `suspend` is about to call `dispatch_error_queue`. -/
  | errors (frames : ℕ)
  /-- In the loop of `dispatch_message`. -/
  | forks
  deriving DecidableEq

/-- `watching_session[session] = address`, and the call that it is for. -/
structure Watch (Address : Type) where
  session : ℕ
  address : Address
  call : ℕ
  deriving DecidableEq

/-- Why a coroutine is resumed. -/
inductive Resumer
  | request
  | fork
  | response (session : ℕ)
  /-- By `dispatch_error_queue`. -/
  | failure (session : ℕ)
  | wakeup
  deriving DecidableEq

/-- The tables of `uboss.lua` and what the main thread does. -/
structure LuaService (Co Address : Type) where
  pc : MainPc Co
  status : Co → CoStatus Co
  sessionIdCoroutine : ℕ → Option (SessionEntry Co)
  requests : Requests Co Address
  /-- The keys of `wakeup_session`. -/
  wakeupSession : List Co
  sleepSession : Co → Option ℕ
  /-- `watching_service`, with 0 for `nil`. -/
  watchingService : Address → ℕ
  watchingSession : List (Watch Address)
  deadService : Address → Bool
  errorQueue : List ℕ
  forkQueue : List Co
  /-- `c.command("EXIT")` was called, and there is no further message. -/
  exited : Bool
  /-- The sessions of the calls. -/
  calls : List ℕ
  /-- The calls that an error message, or `uboss.term`, has failed. -/
  failed : List ℕ
  /-- The ends of `yield_call`. -/
  resumed : List (ℕ × Resumer)
  /-- `dispatch_error_queue` has found no coroutine. -/
  missing : Bool

/-! ## Steps -/

/-- A message for `dispatch_message`. -/
inductive ServiceMessage (Co Address : Type)
  | response (session : ℕ)
  /-- For a protocol with a dispatch function. -/
  | request (co : Co) (session : ℕ) (source : Address)
  /-- The same, but its unpack function raises an error. -/
  | malformed (co : Co) (session : ℕ) (source : Address)
  /-- For a protocol without a dispatch function. -/
  | undispatched (session : ℕ) (source : Address)
  /-- For no protocol. -/
  | unknown (session : ℕ) (source : Address)
  /-- An error message, with the order in which `pairs` goes through `watching_session`. -/
  | error (co : Co) (session : ℕ) (source : Address) (order : List ℕ)

/-- What a coroutine does without yielding. -/
inductive ServiceCall (Co Address : Type)
  | timeout (session : ℕ) (co : Co)
  | fork (co : Co)
  | wakeup (co : Co)
  | term (service : Address) (order : List ℕ)
  /-- A response closure, up to its packing function. -/
  | response (i : ℕ) (ok : Bool)
  /-- The rest, when `c.send` has taken the message or has refused it. -/
  | packed (i : ℕ) (sent : Bool)
  /-- A response closure with `"TEST"`. -/
  | test (i : ℕ)

/-- What the main chunk of a service may do too. -/
def ServiceCall.ofMain {Co Address : Type} : ServiceCall Co Address → Bool
  | .timeout _ _ | .fork _ => true
  | _ => false

/-- What `c.send` does with a response. -/
inductive SendResult
  | sent
  /-- It returns `nil`. -/
  | refused
  /-- It raises an error. -/
  | invalid
  deriving DecidableEq

/-- What a coroutine yields, or its end. -/
inductive ServiceYield (Co Address : Type)
  | call (service : Address) (session : ℕ)
  | sleep (session : ℕ)
  | wait (session : ℕ) (target : Co)
  | ret (r : SendResult)
  | response
  | exit
  /-- The coroutine has come to its end. -/
  | finish
  /-- Nothing, by the debugger. -/
  | trace
  /-- `"USER"`, or something else that `suspend` does not know. -/
  | unknown
  /-- The coroutine has raised an error. -/
  | raise

/-- What the main thread does between two coroutines, with what `next` has found. -/
inductive ServiceDispatch (Co : Type)
  | wakeup (co : Option Co)
  | errorQueue
  | fork (co : Option Co)

/-- What happens next in the service. -/
inductive ServiceAct (Co Address : Type)
  | message (m : ServiceMessage Co Address)
  | call (c : ServiceCall Co Address)
  | yield (y : ServiceYield Co Address)
  | dispatch (d : ServiceDispatch Co)

namespace LuaService

variable {Co Address : Type}

def init (Co Address : Type) : LuaService Co Address where
  pc := .idle
  status _ := .free
  sessionIdCoroutine _ := none
  requests := ⟨[], fun _ => false, [], [], []⟩
  wakeupSession := []
  sleepSession _ := none
  watchingService _ := 0
  watchingSession := []
  deadService _ := false
  errorQueue := []
  forkQueue := []
  exited := false
  calls := []
  failed := []
  resumed := []
  missing := false

/-- The return from a call of `suspend`. -/
def unwind : ℕ → MainPc Co
  | 0 => .forks
  | frames + 1 => .errors frames

/-- The coroutine that waits for a session. -/
def waiter (s : LuaService Co Address) (session : ℕ) : Option Co :=
  match s.sessionIdCoroutine session with
  | some (.coroutine co) => some co
  | _ => none

/-- `watching_session[session]` is set. -/
def Watched (s : LuaService Co Address) (session : ℕ) : Prop :=
  ∃ w ∈ s.watchingSession, w.session = session

instance (s : LuaService Co Address) (session : ℕ) : Decidable (s.Watched session) :=
  inferInstanceAs (Decidable (∃ w ∈ s.watchingSession, w.session = session))

/-- The core gives no session twice, as long as it is in use. -/
def Unused (s : LuaService Co Address) (session : ℕ) : Prop :=
  session ≠ 0 ∧ s.sessionIdCoroutine session = none ∧ ¬s.Watched session ∧ session ∉ s.errorQueue

instance [DecidableEq Co] (s : LuaService Co Address) (session : ℕ) :
    Decidable (s.Unused session) :=
  inferInstanceAs (Decidable (_ ∧ _ ∧ _ ∧ _))

section Coroutines

variable [DecidableEq Co] (s : LuaService Co Address) (co : Co)

def setStatus (status : CoStatus Co) : LuaService Co Address :=
  { s with status := update s.status co status }

/-- `session_id_coroutine[session] = entry`. -/
def setSession (session : ℕ) (entry : Option (SessionEntry Co)) : LuaService Co Address :=
  { s with sessionIdCoroutine := update s.sessionIdCoroutine session entry }

/-- `co_create`, for a coroutine that does not exist or is in the pool. -/
def coCreate : Option (LuaService Co Address) :=
  match s.status co with
  | .free => some (s.setStatus co .created)
  | .spoilt => some (s.setStatus co .dead)
  | _ => none

variable {s co} in
theorem coCreate_cases {s' : LuaService Co Address} (h : s.coCreate co = some s') :
    s.status co = .free ∧ s' = s.setStatus co .created ∨
      s.status co = .spoilt ∧ s' = s.setStatus co .dead := by
  unfold coCreate at h
  split at h
  · next hfree => exact .inl ⟨hfree, (some_inj.mp h).symm⟩
  · next hspoilt => exact .inr ⟨hspoilt, (some_inj.mp h).symm⟩
  · cases h

/-- `suspend` raises an error itself, and all calls of `suspend` are left. -/
def cut : LuaService Co Address := { s.setStatus co .parked with pc := .forks }

/-- `suspend` is called for a coroutine that has raised an error. -/
def raise : LuaService Co Address :=
  { s.setStatus co .dead with pc := .forks, requests := s.requests.fail co }

/-- A coroutine is resumed, and goes on to its next yield. -/
def resume (frames : ℕ) (resumer : Resumer) : LuaService Co Address :=
  let s' := { s.setStatus co .running with pc := .running co frames }
  match s.status co with
  | .created | .running | .parked => s'
  | .call session call =>
    { s' with
      watchingSession := s.watchingSession.filter fun w => w.session ≠ session
      resumed := s.resumed ++ [(call, resumer)] }
  | .sleep _ => { s' with sleepSession := update s.sleepSession co none }
  | .wait session target =>
    { s'.setSession session none with
      sleepSession := update s.sleepSession target none }
  -- it takes what it is given for a function, and yields nothing
  | .free => { s.setStatus co .spoilt with pc := unwind frames }
  | .spoilt | .dead => s.raise co

section Resume

variable {s co} {frames session call : ℕ} {resumer : Resumer} {target : Co}

theorem resume_created (h : s.status co = .created) :
    s.resume co frames resumer = { s.setStatus co .running with pc := .running co frames } := by
  unfold resume
  rw [h]

theorem resume_call (h : s.status co = .call session call) : s.resume co frames resumer =
      { s.setStatus co .running with
        pc := .running co frames
        watchingSession := s.watchingSession.filter fun w => w.session ≠ session
        resumed := s.resumed ++ [(call, resumer)] } := by
  unfold resume
  rw [h]

theorem resume_sleep (h : s.status co = .sleep session) : s.resume co frames resumer =
      { s.setStatus co .running with
        pc := .running co frames
        sleepSession := update s.sleepSession co none } := by
  unfold resume
  rw [h]

theorem resume_wait (h : s.status co = .wait session target) : s.resume co frames resumer =
      { (s.setStatus co .running).setSession session none with
        pc := .running co frames
        sleepSession := update s.sleepSession target none } := by
  unfold resume
  rw [h]
  rfl

end Resume

/-- Sessions are put into `error_queue`. -/
def pushErrors (sessions : List ℕ) : LuaService Co Address :=
  { s with
    errorQueue := s.errorQueue ++ sessions
    failed := s.failed ++
      (s.watchingSession.filter fun w => w.session ∈ sessions).map Watch.call }

end Coroutines

variable [DecidableEq Co] [DecidableEq Address] (s : LuaService Co Address) (co : Co)

def releaseWatching (address : Address) : LuaService Co Address :=
  { s with
    watchingService := update s.watchingService address (s.watchingService address - 1) }

def watch (address : Address) : LuaService Co Address :=
  { s with
    watchingService := update s.watchingService address (s.watchingService address + 1) }

/-- The sessions of the calls to a service. -/
def watchedOf (service : Address) : List ℕ :=
  (s.watchingSession.filter fun w => w.address = service).map Watch.session

/-- `_error_dispatch`. The order is that of `pairs`. -/
def errorDispatch (session : ℕ) (source : Address) (order : List ℕ) :
    Option (LuaService Co Address) :=
  if session = 0 then
    if order.Perm (s.watchedOf source) then
      some <| { s with
        deadService :=
          if s.watchingService source = 0 then s.deadService
          else update s.deadService source true }.pushErrors order
    else none
  else some (if s.Watched session then s.pushErrors [session] else s)

omit [DecidableEq Co] in
variable {s} in
theorem errorDispatch_cases {s' : LuaService Co Address} {session : ℕ} {source : Address}
    {order : List ℕ} (h : s.errorDispatch session source order = some s') :
    (order.Perm (s.watchedOf source) ∧
        ∃ deadService, s' = { s with deadService }.pushErrors order) ∨
      (session ≠ 0 ∧ s.Watched session ∧ s' = s.pushErrors [session]) ∨ s' = s := by
  unfold errorDispatch at h
  by_cases hsession : session = 0
  · rw [if_pos hsession] at h
    by_cases horder : order.Perm (s.watchedOf source)
    · rw [if_pos horder] at h
      exact .inl ⟨horder, _, (some_inj.mp h).symm⟩
    · rw [if_neg horder] at h
      cases h
  · rw [if_neg hsession] at h
    obtain rfl := some_inj.mp h
    by_cases hwatched : s.Watched session
    · exact .inr (.inl ⟨hsession, hwatched, if_pos hwatched⟩)
    · exact .inr (.inr (if_neg hwatched))

/-- A coroutine for a message. -/
def register (session : ℕ) (source : Address) : Option (LuaService Co Address) :=
  (s.coCreate co).map fun s =>
    { s.watch source with requests := s.requests.receive co session source }

/-- `suspend` with `"EXIT"`, up to `dispatch_wakeup`. -/
def finish (frames : ℕ) : LuaService Co Address :=
  { (match s.requests.handler co with
      | none => s
      | some h => s.releaseWatching h.ticket.address).setStatus co .free with
    pc := .wakeups frames
    requests := s.requests.finish co }

/-- `raw_dispatch_message`, up to the first yield of a coroutine. -/
def dispatchMessage : ServiceMessage Co Address → Option (LuaService Co Address)
  | .response session =>
    match s.sessionIdCoroutine session with
    | some (.coroutine co) => some ((s.setSession session none).resume co 0 (.response session))
    | some .broken => some { s.setSession session none with pc := .forks }
    | none => some { s with pc := .forks }
  | .request co session source =>
    (s.register co session source).map fun s => s.resume co 0 .request
  | .malformed co session source =>
    (s.register co session source).map fun s => { s with pc := .forks }
  | .undispatched session source =>
    some { s with pc := .forks, requests := s.requests.record session source }
  | .unknown session source =>
    some { s with pc := .forks, requests := s.requests.reject session source }
  | .error co session source order =>
    (s.register co session source).bind fun s =>
      match s.status co with
      | .created => (s.errorDispatch session source order).map fun s => s.finish co 0
      | _ => some (s.raise co)

/-- The end of a call of a response closure. -/
def closeClosure (i : ℕ) (c : Closure Address) : LuaService Co Address :=
  { s.releaseWatching c.ticket.address with
    requests := s.requests.setClosure i { c with f := .used } }

/-- `response(ok)`, up to the packing function. -/
def callResponse (i : ℕ) (c : Closure Address) (ok : Bool) : LuaService Co Address :=
  match c.f with
  | .used => s
  | .discarded => { s with requests := s.requests.setClosure i { c with f := .used } }
  | .pack =>
    if s.deadService c.ticket.address then s.closeClosure i c
    else if ok then
      { s with requests := s.requests.setClosure i { c with packing := c.packing + 1 } }
    else { s with requests := s.requests.reply .error c.ticket }.closeClosure i c

/-- `response(true)`, from the return of the packing function. -/
def callPacked (i : ℕ) (c : Closure Address) (sent : Bool) : LuaService Co Address :=
  { s with
    requests := s.requests.reply (if sent then .response else .error) c.ticket }.closeClosure i
    { c with packing := c.packing - 1 }

/-- `response "TEST"`. -/
def callTest (i : ℕ) (c : Closure Address) : LuaService Co Address :=
  if s.deadService c.ticket.address then
    { s.releaseWatching c.ticket.address with
      requests := s.requests.setClosure i { c with f := .discarded } }
  else s

/-- What a coroutine does without yielding. -/
def perform : ServiceCall Co Address → Option (LuaService Co Address)
  | .timeout session co =>
    if s.Unused session then
      (s.coCreate co).map fun s => s.setSession session (some (.coroutine co))
    else none
  | .fork co => (s.coCreate co).map fun s => { s with forkQueue := s.forkQueue ++ [co] }
  | .wakeup co =>
    some (if (s.sleepSession co).isSome ∧ co ∉ s.wakeupSession then
      { s with wakeupSession := s.wakeupSession ++ [co] }
    else s)
  | .term service order => s.errorDispatch 0 service order
  | .response i ok => s.requests.closures[i]?.map fun c => s.callResponse i c ok
  | .packed i sent =>
    s.requests.closures[i]?.bind fun c =>
      if c.packing = 0 then none else some (s.callPacked i c sent)
  | .test i => s.requests.closures[i]?.map fun c => s.callTest i c

/-- `suspend` with `"SLEEP"`. -/
def sleep (frames session : ℕ) (status : CoStatus Co) : LuaService Co Address :=
  { (s.setStatus co status).setSession session (some (.coroutine co)) with
    pc := .wakeups frames
    sleepSession := update s.sleepSession co (some session) }

/-- `suspend` with `"RETURN"`, up to the next yield. -/
def ret (r : SendResult) : LuaService Co Address :=
  if s.requests.sessionResponse co then s.cut co
  else
    let requests := s.requests.markAnswered co
    match s.requests.handler co with
    -- there is no address to send to
    | none => { s.cut co with requests }
    | some h =>
      if s.deadService h.ticket.address then { s with requests }
      else
        match r with
        | .sent => { s with requests := requests.reply .response h.ticket }
        | .refused => { s with requests := requests.reply .error h.ticket }
        | .invalid => { s.cut co with requests }

/-- `suspend` with `"RESPONSE"`, up to the next yield. -/
def response : LuaService Co Address :=
  if s.requests.sessionResponse co then s.cut co
  else
    match s.requests.handler co with
    | none => s.cut co
    | some h =>
      if s.watchingService h.ticket.address = 0 then s.cut co
      else
        { s.watch h.ticket.address with requests := s.requests.promise co h.ticket }

/-- `uboss.exit`, and `suspend` with `"QUIT"`. -/
def exit (frames : ℕ) : LuaService Co Address :=
  { (s.requests.unresponse.foldl (fun s c => s.releaseWatching c.ticket.address) s).setStatus
      co .parked with
    pc := unwind frames
    requests := s.requests.abandon.refuseAll s.deadService
    forkQueue := []
    exited := true }

/-- `suspend`, for the coroutine that has run. -/
def suspend (frames : ℕ) : ServiceYield Co Address → Option (LuaService Co Address)
  | .call service session =>
    if s.Unused session then
      some { (s.setStatus co (.call session s.calls.length)).setSession session
          (some (.coroutine co)) with
        pc := .wakeups frames
        watchingSession := ⟨session, service, s.calls.length⟩ :: s.watchingSession
        calls := s.calls ++ [session] }
    else none
  | .sleep session =>
    if s.Unused session then some (s.sleep co frames session (.sleep session)) else none
  | .wait session target =>
    if s.Unused session then some (s.sleep co frames session (.wait session target)) else none
  | .ret r => some (s.ret co r)
  | .response => some (s.response co)
  | .exit => some (s.exit co frames)
  | .finish => some (s.finish co frames)
  | .trace => some { s.setStatus co .parked with pc := unwind frames }
  | .unknown => some (s.cut co)
  | .raise => some (s.raise co)

/-- `dispatch_wakeup` has found a coroutine. -/
def dispatchWakeup (frames : ℕ) : LuaService Co Address :=
  let s := { s with wakeupSession := s.wakeupSession.filter fun c => c ≠ co }
  match s.sleepSession co with
  | none => { s with pc := .errors frames }
  | some session => (s.setSession session (some .broken)).resume co (frames + 1) .wakeup

def dispatchErrorQueue (frames : ℕ) : LuaService Co Address :=
  match s.errorQueue with
  | [] => { s with pc := unwind frames }
  | session :: errorQueue =>
    let s' := { s.setSession session none with errorQueue }
    match s.sessionIdCoroutine session with
    | some (.coroutine co) => s'.resume co frames (.failure session)
    -- there is nothing that can be resumed
    | _ => { s' with pc := .forks, missing := true }

/-- What the main thread does between two coroutines. -/
def dispatch : ServiceDispatch Co → Option (LuaService Co Address)
  | .wakeup co =>
    match s.pc, co with
    | .wakeups frames, none =>
      if s.wakeupSession = [] then some { s with pc := .errors frames } else none
    | .wakeups frames, some co =>
      if co ∈ s.wakeupSession then some (s.dispatchWakeup co frames) else none
    | _, _ => none
  | .errorQueue =>
    match s.pc with
    | .errors frames => some (s.dispatchErrorQueue frames)
    | _ => none
  | .fork co =>
    match s.pc, co with
    | .forks, none => if s.forkQueue = [] then some { s with pc := .idle } else none
    | .forks, some co =>
      if co ∈ s.forkQueue then
        some ({ s with forkQueue := s.forkQueue.erase co }.resume co 0 .fork)
      else none
    | _, _ => none

/-- One step. -/
def step : ServiceAct Co Address → Option (LuaService Co Address)
  | .message m =>
    match s.pc with
    | .idle => if s.exited then none else s.dispatchMessage m
    | _ => none
  | .call c =>
    match s.pc with
    | .running _ _ => s.perform c
    | .idle => if c.ofMain then s.perform c else none
    | _ => none
  | .yield y =>
    match s.pc with
    | .running co frames => s.suspend co frames y
    | _ => none
  | .dispatch d => s.dispatch d

section Cases

variable {s} {s' : LuaService Co Address}

/-- What the main thread does between two coroutines, by what it finds. -/
inductive Dispatched (s : LuaService Co Address) : ServiceDispatch Co → LuaService Co Address → Prop
  | drained {frames : ℕ} :
      s.pc = .wakeups frames → s.wakeupSession = [] →
      s.Dispatched (.wakeup none) { s with pc := .errors frames }
  | wakeup {co : Co} {frames : ℕ} :
      s.pc = .wakeups frames → co ∈ s.wakeupSession →
      s.Dispatched (.wakeup (some co)) (s.dispatchWakeup co frames)
  | errors {frames : ℕ} :
      s.pc = .errors frames → s.Dispatched .errorQueue (s.dispatchErrorQueue frames)
  | idle : s.pc = .forks → s.forkQueue = [] → s.Dispatched (.fork none) { s with pc := .idle }
  | fork {co : Co} :
      s.pc = .forks → co ∈ s.forkQueue →
      s.Dispatched (.fork (some co))
        ({ s with forkQueue := s.forkQueue.erase co }.resume co 0 .fork)

omit [DecidableEq Address] in
theorem dispatched {d : ServiceDispatch Co} (h : s.dispatch d = some s') : s.Dispatched d s' := by
  cases d with
  | wakeup picked =>
    simp only [dispatch] at h
    split at h
    · next hpc =>
      obtain ⟨hempty, ⟨⟩⟩ := ite_none_right_eq_some.mp h
      exact .drained hpc hempty
    · next hpc =>
      obtain ⟨hmem, ⟨⟩⟩ := ite_none_right_eq_some.mp h
      exact .wakeup hpc hmem
    · cases h
  | errorQueue =>
    simp only [dispatch] at h
    split at h
    · next hpc =>
      obtain rfl := some_inj.mp h
      exact .errors hpc
    · cases h
  | fork picked =>
    simp only [dispatch] at h
    split at h
    · next hpc =>
      obtain ⟨hempty, ⟨⟩⟩ := ite_none_right_eq_some.mp h
      exact .idle hpc hempty
    · next hpc =>
      obtain ⟨hmem, ⟨⟩⟩ := ite_none_right_eq_some.mp h
      exact .fork hpc hmem
    · cases h

/-- Which part of the service takes a step, and in which state of the main thread. -/
inductive Stepped (s s' : LuaService Co Address) : ServiceAct Co Address → Prop
  | message {m : ServiceMessage Co Address} :
      s.pc = .idle → s.dispatchMessage m = some s' → s.Stepped s' (.message m)
  | call {c : ServiceCall Co Address} :
      (∃ co frames, s.pc = .running co frames) ∨ s.pc = .idle ∧ c.ofMain →
      s.perform c = some s' → s.Stepped s' (.call c)
  | yield {y : ServiceYield Co Address} {co : Co} {frames : ℕ} :
      s.pc = .running co frames → s.suspend co frames y = some s' → s.Stepped s' (.yield y)
  | dispatch {d : ServiceDispatch Co} : s.Dispatched d s' → s.Stepped s' (.dispatch d)

theorem stepped {a : ServiceAct Co Address} (h : s.step a = some s') : s.Stepped s' a := by
  cases a with
  | message m =>
    simp only [step] at h
    split at h
    · next hpc =>
      split_ifs at h
      exact .message hpc h
    · cases h
  | call c =>
    simp only [step] at h
    split at h
    · next co frames hpc => exact .call (.inl ⟨co, frames, hpc⟩) h
    · next hpc =>
      split_ifs at h with hmain
      exact .call (.inr ⟨hpc, hmain⟩) h
    · cases h
  | yield y =>
    simp only [step] at h
    split at h
    · next hpc => exact .yield hpc h
    · cases h
  | dispatch d => exact .dispatch (dispatched h)

end Cases

end LuaService

end Uboss.Framework
