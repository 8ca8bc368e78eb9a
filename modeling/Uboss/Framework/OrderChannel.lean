import Uboss.Framework.SessionChannel

/-!
# Channels without sessions

`socketchannel.lua` for a channel without a response function of its own. Every request brings a
function that reads its response, and a dispatch thread calls these functions one after the other.
A thread is forked for each new socket. The coroutines of a service run one at a time, and what one
of them does between two yields is a step. The calls of `socket.close` yield, so that what stands
behind them is a step of its own.

Who connects, and when, is left open: the channel gets a new socket in any state without one.
-/

namespace Uboss.Framework

open Math Function

/-- What a response function returns. -/
structure OrderResponse (Data : Type) where
  ok : Bool
  data : Data
  padding : Bool

/-- `__result` and `__result_data`, and the waits of those who have made requests. -/
structure Requesters (Co Data : Type) where
  result : Co → Option ChannelResult
  resultData : Co → Option (ResultData Data)
  /-- `sleep_session[co]` is set. -/
  asleep : Co → Bool
  /-- `wakeup_session[co]` is set. -/
  woken : Co → Bool
  /-- The ends of `wait_for_response`. -/
  returned : List (Co × ChannelOutcome Data)

/-- A request that waits for its response, and the socket it was made on. -/
structure Asked (Co : Type) where
  co : Co
  origin : ℕ
  deriving DecidableEq

/-- Where a dispatch thread is. -/
inductive DispatchPc (Co Data : Type)
  /-- It has not been forked, or has come to its end. -/
  | ended
  | forked
  /-- In the `uboss.wait` of `pop_response`. -/
  | waiting (woken : Bool)
  /-- In the response function, which was given `self.__sock`. -/
  | reading (a : Asked Co) (sock : Option ℕ)
  /-- The function has raised an error, and the thread is in `close_channel_socket`. -/
  | closing (a : Asked Co) (errmsg : Option Data)
  deriving DecidableEq

/-- The other calls that are in `close_channel_socket`. -/
inductive BlockedCall (Co Thread : Type)
  /-- `request`, after a write to the socket that has failed. -/
  | request (co : Co) (sock : ℕ)
  /-- `close`, with the dispatch thread that it has found. -/
  | close (thread : Option Thread)

/-- A channel. Its sockets are numbered. The entries of `__request` and `__thread` are kept
together, with nothing for the close signal. -/
structure OrderChannel (Co Thread Data : Type) where
  sock : Option ℕ
  closed : Bool
  queue : List (Option (Asked Co))
  requesters : Requesters Co Data
  waitResponse : Option Thread
  dispatchThread : Option Thread
  pc : Thread → DispatchPc Co Data
  blocked : List (BlockedCall Co Thread)
  /-- How many sockets there have been. -/
  opened : ℕ
  /-- The socket that a thread was forked for. -/
  home : Thread → ℕ
  /-- Who has made requests on a socket, in order. -/
  asked : ℕ → List Co
  /-- Who was given the responses that were read from a socket, in order. -/
  answered : ℕ → List Co
  /-- The socket of a dispatch thread, and that of a request which it has failed. -/
  failed : List (ℕ × ℕ)
  /-- The socket of a dispatch thread, and one which it has closed. -/
  shut : List (ℕ × ℕ)

/-- What happens on a channel in order mode. -/
inductive OrderAct (Co Thread Data : Type)
  /-- `connect_once` has a socket. -/
  | connect (t : Thread)
  /-- The `__auth` function has raised an error in `connect_once`. -/
  | authFailed
  /-- `channel:connect` of a closed channel without a dispatch thread. -/
  | reopen
  /-- `channel:request` with a response function, when the channel is connected, or
  `channel:response`. -/
  | request (co : Co)
  /-- `channel:request` whose write fails. -/
  | requestFailed (co : Co)
  | close
  | changehost
  /-- `socket.close` returns to one of the blocked calls. -/
  | unblock (i : ℕ)
  /-- The first turn of a dispatch thread, or the one after it was woken. -/
  | run (t : Thread)
  /-- The response function returns. -/
  | respond (t : Thread) (r : OrderResponse Data)
  /-- The response function raises an error, with nothing for `socket_error`. -/
  | raise (t : Thread) (errmsg : Option Data)
  /-- `socket.close` returns to a dispatch thread. -/
  | unblockThread (t : Thread)
  /-- `dispatch_wakeup` has picked a coroutine that has made a request. -/
  | resume (co : Co)

namespace Requesters

variable {Co Data : Type} [DecidableEq Co] (q : Requesters Co Data)

/-- `self.__result[co]` and `self.__result_data[co]` are assigned, and `co` is woken. -/
def finish (co : Co) (result : ChannelResult) (data : Option (ResultData Data)) :
    Requesters Co Data :=
  { q with
    result := update q.result co (some result)
    resultData := update q.resultData co data
    woken := if q.asleep co then update q.woken co true else q.woken }

/-- What `wakeup_all` does to the requesters. -/
def failAll (errmsg : Option Data) (cos : List Co) : Requesters Co Data :=
  cos.foldl (fun q co => q.finish co .socketError (errmsg.map .one)) q

/-- What the response function has returned goes to `co`. -/
def deliver (co : Co) (r : OrderResponse Data) : Except ChannelFault (Requesters Co Data) :=
  if r.padding ∧ r.ok then
    (SessionChannel.insertPart (q.resultData co) r.data).map fun data =>
      { q with resultData := update q.resultData co (some data) }
  else
    (SessionChannel.lastData (q.resultData co) r.ok r.data).map fun data =>
      q.finish co (.done r.ok) (some data)

/-- The wait of `wait_for_response` begins. -/
def sleep (co : Co) : Requesters Co Data := { q with asleep := update q.asleep co true }

/-- `wait_for_response`, from the end of the wait. -/
def resume (co : Co) : Requesters Co Data where
  asleep := update q.asleep co false
  woken := update q.woken co false
  result := update q.result co none
  resultData := update q.resultData co none
  returned := q.returned ++ [(co, SessionChannel.outcome (q.result co) (q.resultData co))]

end Requesters

namespace OrderChannel

variable {Co Thread Data : Type}

/-- `socket_channel.channel`. -/
def init (Co Thread Data : Type) : OrderChannel Co Thread Data where
  sock := none
  closed := false
  queue := []
  requesters := ⟨fun _ => none, fun _ => none, fun _ => false, fun _ => false, []⟩
  waitResponse := none
  dispatchThread := none
  pc _ := .ended
  blocked := []
  opened := 0
  home _ := 0
  asked _ := []
  answered _ := []
  failed := []
  shut := []

/-- The requests of a queue. -/
def requests (queue : List (Option (Asked Co))) : List (Asked Co) := queue.filterMap id

variable [DecidableEq Co] [DecidableEq Thread] (s : OrderChannel Co Thread Data) (t : Thread)

def setPc (pc : DispatchPc Co Data) : OrderChannel Co Thread Data :=
  { s with pc := update s.pc t pc }

/-- `uboss.wakeup` of a dispatch thread in `pop_response`. -/
def wakeThread : OrderChannel Co Thread Data :=
  match s.pc t with
  | .waiting _ => s.setPc t (.waiting true)
  | _ => s

/-- Who waits in `pop_response` is woken. -/
def wakeWaiting : OrderChannel Co Thread Data :=
  match s.waitResponse with
  | none => s
  | some t => { s.wakeThread t with waitResponse := none }

def pushResponse (a : Option (Asked Co)) : OrderChannel Co Thread Data :=
  { s with queue := s.queue ++ [a] }.wakeWaiting

def wakeupAll (errmsg : Option Data) : OrderChannel Co Thread Data :=
  { s with
    queue := []
    requesters := s.requesters.failAll errmsg ((requests s.queue).map Asked.co) }

/-- `wakeup_all`, called by a dispatch thread. -/
def threadWakeupAll (errmsg : Option Data) : OrderChannel Co Thread Data :=
  { s.wakeupAll errmsg with
    failed := s.failed ++ (requests s.queue).map fun a => (s.home t, a.origin) }

def exitThread : OrderChannel Co Thread Data :=
  { s.setPc t .ended with
    dispatchThread := if s.dispatchThread = some t then none else s.dispatchThread }

/-- `pop_response`, and the call of the function that it has found. -/
def popResponse : OrderChannel Co Thread Data :=
  match s.queue with
  | [] => { s.setPc t (.waiting false) with waitResponse := some t }
  | none :: queue => ({ s with queue }.threadWakeupAll t none).exitThread t
  | some a :: queue => { s with queue }.setPc t (.reading a s.sock)

/-- The loop of `dispatch_by_order`, from its test on. -/
def dispatchByOrder : OrderChannel Co Thread Data :=
  match s.sock with
  | none => s.exitThread t
  | some _ => s.popResponse t

/-- One step. -/
def step : OrderAct Co Thread Data → Except ChannelFault (OrderChannel Co Thread Data)
  | .connect t =>
    match s.sock, s.pc t with
    | none, .ended =>
      .ok { s.setPc t .forked with
        sock := some s.opened
        dispatchThread := some t
        opened := s.opened + 1
        home := update s.home t s.opened }
    | _, _ => .error .disabled
  | .authFailed => .ok { s with sock := none }
  | .reopen =>
    if s.closed ∧ s.dispatchThread = none then .ok { s with closed := false } else .error .disabled
  | .request co =>
    match s.sock with
    | some k =>
      if s.requesters.asleep co then .error .disabled
      else .ok ({ s with
        requesters := s.requesters.sleep co
        asked := update s.asked k (s.asked k ++ [co]) }.pushResponse (some ⟨co, k⟩))
    | none => .error .disabled
  | .requestFailed co =>
    match s.sock with
    | some k => .ok { s with sock := none, blocked := s.blocked ++ [.request co k] }
    | none => .error .disabled
  | .close =>
    .ok (if s.closed then s
      else
        { s with
          closed := true, sock := none, blocked := s.blocked ++ [.close s.dispatchThread] })
  | .changehost => .ok (if s.closed then s else { s with sock := none })
  | .unblock i =>
    match s.blocked[i]? with
    | some (.request _ _) => .ok ({ s with blocked := s.blocked.eraseIdx i }.wakeupAll none)
    | some (.close thread) =>
      let s := { s with blocked := s.blocked.eraseIdx i }
      .ok (if thread.isSome ∧ s.dispatchThread = thread then s.pushResponse none else s)
    | none => .error .disabled
  | .run t =>
    match s.pc t with
    | .forked => .ok (s.dispatchByOrder t)
    | .waiting true => .ok (s.popResponse t)
    | _ => .error .disabled
  | .respond t r =>
    match s.pc t with
    | .reading a (some k) =>
      (s.requesters.deliver a.co r).map fun requesters =>
        { s with
          requesters
          answered := update s.answered k (s.answered k ++ [a.co]) }.dispatchByOrder t
    | _ => .error .disabled
  | .raise t errmsg =>
    match s.pc t with
    | .reading a _ =>
      .ok { s.setPc t (.closing a errmsg) with
        sock := none
        shut := s.shut ++ (s.sock.map fun k => (s.home t, k)).toList }
    | _ => .error .disabled
  | .unblockThread t =>
    match s.pc t with
    | .closing a errmsg =>
      .ok (({ s with
        requesters := s.requesters.finish a.co .socketError (errmsg.map .one)
        failed := s.failed ++ [(s.home t, a.origin)] }.threadWakeupAll t errmsg).dispatchByOrder t)
    | _ => .error .disabled
  | .resume co =>
    if s.requesters.asleep co ∧ s.requesters.woken co then
      .ok { s with requesters := s.requesters.resume co }
    else .error .disabled

/-- The steps that can be taken. -/
def next (s : OrderChannel Co Thread Data) (a : OrderAct Co Thread Data) :
    Option (OrderChannel Co Thread Data) := (s.step a).toOption

end OrderChannel

end Uboss.Framework
