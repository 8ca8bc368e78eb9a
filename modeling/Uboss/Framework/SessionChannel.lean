import Mathlib.Data.List.AList
import Uboss.Math.Transition

/-!
# Channels with sessions

`socketchannel.lua` for a channel with a response function, from `push_response` on, on one socket.
The coroutines of a service run one at a time, and a coroutine that is woken goes on later: one turn
of the dispatch thread is one step, and so is what a requester does when it goes on.
-/

namespace Uboss.Framework

open Math Function

/-- What the response function returns. -/
structure SessionResponse (Data : Type) where
  session : UInt32
  ok : Bool
  data : Data
  padding : Bool

/-- An entry of `__result`. -/
inductive ChannelResult
  | socketError
  | done (ok : Bool)

/-- An entry of `__result_data`: a table if there are several parts. -/
inductive ResultData (Data : Type)
  | one (data : Data)
  | parts (datas : List Data)

/-- The error of `wait_for_response`. -/
inductive ChannelError (Data : Type)
  | socket
  | raised (data : Option (ResultData Data))

/-- What `wait_for_response` returns or raises. -/
abbrev ChannelOutcome (Data : Type) := Except (ChannelError Data) (Option (ResultData Data))

/-- A channel in session mode. -/
structure SessionChannel (Co Data : Type) where
  /-- There is a `__sock`. -/
  sock : Bool
  /-- What has not been read from it. -/
  input : List UInt8
  thread : AList fun _ : UInt32 => Co
  result : Co → Option ChannelResult
  resultData : Co → Option (ResultData Data)
  /-- `sleep_session[co]` is set. -/
  asleep : Co → Bool
  /-- `wakeup_session[co]` is set. -/
  woken : Co → Bool
  /-- The calls of `uboss.wakeup` that have done something. -/
  wakeups : List Co
  /-- The ends of `wait_for_response`. -/
  returned : List (Co × ChannelOutcome Data)

/-- A step that cannot be made, or an error. -/
inductive ChannelFault
  | disabled
  /-- `table.insert` of something that is not a table. -/
  | notTable
  deriving DecidableEq, Repr

/-- What happens on a channel in session mode. -/
inductive ChannelAct (Co : Type)
  /-- A turn of the dispatch thread. -/
  | read
  /-- `dispatch_wakeup` has picked the coroutine. -/
  | resume (co : Co)

/-- `self.__response`, called for what is in the socket: what it returns, or the error it raises
unless this is `socket_error`, and what is left. There is nothing while it is blocked. -/
abbrev ResponseFunction (Data : Type) :=
  List UInt8 → Option (Except (Option Data) (SessionResponse Data) × List UInt8)

namespace SessionChannel

variable {Co Data : Type}

/-- After `connect_once`, with what comes in from now on. -/
def connected (Co Data : Type) (input : List UInt8) : SessionChannel Co Data where
  sock := true
  input := input
  thread := ∅
  result _ := none
  resultData _ := none
  asleep _ := false
  woken _ := false
  wakeups := []
  returned := []

variable [DecidableEq Co] (s : SessionChannel Co Data)

/-- `wait_for_response`, up to the wait. -/
def waitForResponse (session : UInt32) (co : Co) : SessionChannel Co Data :=
  { s with
    thread := s.thread.insert session co
    asleep := update s.asleep co true }

/-- `uboss.wakeup`. -/
def wakeup (co : Co) : SessionChannel Co Data :=
  if s.asleep co ∧ s.woken co = false then
    { s with woken := update s.woken co true, wakeups := s.wakeups ++ [co] }
  else s

/-- `self.__result_data[co]` is assigned. -/
def setData (co : Co) (data : Option (ResultData Data)) : SessionChannel Co Data :=
  { s with resultData := update s.resultData co data }

/-- `self.__result[co]` is assigned. -/
def setResult (co : Co) (result : Option ChannelResult) : SessionChannel Co Data :=
  { s with result := update s.result co result }

def wakeupAll (errmsg : Option Data) : SessionChannel Co Data := s.thread.entries.foldl
    (fun s e => ((s.setResult e.2 (some .socketError)).setData e.2 (errmsg.map .one)).wakeup e.2)
    { s with thread := ∅ }

/-- `table.insert`, with a new table if there is none. -/
def insertPart (old : Option (ResultData Data)) (data : Data) :
    Except ChannelFault (ResultData Data) :=
  match old with
  | none => .ok (.parts [data])
  | some (.parts datas) => .ok (.parts (datas ++ [data]))
  | some (.one _) => .error .notTable

/-- What the last part makes of the entry. -/
def lastData (old : Option (ResultData Data)) (ok : Bool) (data : Data) :
    Except ChannelFault (ResultData Data) :=
  if ok ∧ old.isSome then insertPart old data else .ok (.one data)

/-- A turn of `dispatch_by_session`, when the response function has returned a session. -/
def dispatch (r : SessionResponse Data) : Except ChannelFault (SessionChannel Co Data) :=
  match s.thread.lookup r.session with
  | some co =>
    if r.padding ∧ r.ok then
      (insertPart (s.resultData co) r.data).map fun data => s.setData co (some data)
    else
      (lastData (s.resultData co) r.ok r.data).map fun data =>
        ((({ s with thread := s.thread.erase r.session }).setResult co
          (some (.done r.ok))).setData co (some data)).wakeup co
  | none => .ok { s with thread := s.thread.erase r.session }

/-- What `wait_for_response` makes of the entries. -/
def outcome (result : Option ChannelResult) (data : Option (ResultData Data)) :
    ChannelOutcome Data :=
  match result with
  | some .socketError => .error (data.elim .socket fun d => .raised (some d))
  | some (.done true) => .ok data
  | some (.done false) | none => .error (.raised data)

/-- `wait_for_response`, from the end of the wait. -/
def resume (co : Co) : SessionChannel Co Data :=
  { s with
    asleep := update s.asleep co false
    woken := update s.woken co false
    result := update s.result co none
    resultData := update s.resultData co none
    returned := s.returned ++ [(co, outcome (s.result co) (s.resultData co))] }

/-- One step. -/
def step (response : ResponseFunction Data) :
    ChannelAct Co → Except ChannelFault (SessionChannel Co Data)
  | .read =>
    if s.sock then
      match response s.input with
      | some (.ok r, rest) => { s with input := rest }.dispatch r
      | some (.error errmsg, rest) =>
        -- `close_channel_socket`
        .ok ({ s with sock := false, input := rest }.wakeupAll errmsg)
      | none => .error .disabled
    else .error .disabled
  | .resume co => if s.asleep co ∧ s.woken co then .ok (s.resume co) else .error .disabled

/-- The steps that can be taken. -/
def next (response : ResponseFunction Data) (s : SessionChannel Co Data) (a : ChannelAct Co) :
    Option (SessionChannel Co Data) := (s.step response a).toOption

end SessionChannel

end Uboss.Framework
