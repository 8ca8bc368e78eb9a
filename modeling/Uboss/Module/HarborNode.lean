import Uboss.Math.Transition
import Uboss.Module.HarborName
import Uboss.Module.HarborSocket

/-!
# The harbor service

`module_harbor.c` as a whole: the names, the slaves with their queues, and `mainloop`, which takes
the data of the sockets, the commands of the slave service and the messages to other harbors.

The memory blocks for the messages, for the data of the sockets and for the receive buffers are
numbered as they come. What the module does is recorded in the order in which it does it: its calls,
with the message they are for, and what becomes of the blocks. A message carries along what its
sender has asked for.
-/

namespace Uboss.Module

open Math

def ptypeText : UInt32 := 0

/-- The bytes of a text. -/
def text (s : String) : List UInt8 := s.toList.map Char.toUInt8

/-- The harbor of a handle. -/
def harborOf (handle : UInt32) : Fin remoteMax := ⟨(handle >>> handleRemoteShift).toNat, by
    have hlt := handle.toNat_lt
    rw [UInt32.toNat_shiftRight, Nat.shiftRight_eq_div_pow]
    exact Nat.div_lt_of_lt_mul hlt⟩

/-- Where a message goes: to a handle, or to a name that was not known, which has become a handle
once it was bound. -/
inductive Target
  | handle (destination : UInt32)
  | name (name : GlobalName) (bound : Option UInt32)
  deriving DecidableEq

/-- What the sender of a message has asked for. -/
structure Origin where
  source : UInt32
  target : Target
  type : UInt8
  session : Int32
  data : List UInt8
  deriving DecidableEq

/-- `struct harbor_msg`, with the number of the block that `buffer` points to and what is in it.
`origin` is not part of it. -/
structure NodeMsg where
  header : RemoteMessageHeader
  block : ℕ
  data : List UInt8
  origin : Origin
  deriving DecidableEq

/-- `struct slave`. The queue is the list of its messages. -/
structure NodeSlave where
  fd : ℕ
  queue : Option (List NodeMsg)
  status : SlaveStatus
  length : ℕ
  read : ℕ
  size : List UInt8
  recvBuffer : Option (ℕ × List UInt8)

/-- Reports with `uboss_error` that are not in `HarborError`. -/
inductive NodeError
  /-- `Drop message to %s (in harbor %d)` -/
  | dropName (name : GlobalName) (harborId : ℕ)
  /-- `Invalid global name %s` -/
  | invalidGlobalName (msg : List UInt8)
  /-- `Invalid command %c %s` -/
  | invalidCommand (msg : List UInt8)
  /-- `Harbor %d alreay exist` -/
  | alreadyExist (id : ℕ)
  /-- `Unknown command %s` -/
  | unknownCommand (msg : List UInt8)
  /-- `Unkown fd (%d) closed` -/
  | unknownFd (fd : ℕ)
  /-- `message havn't send to Harbor (%d) reach %d K` -/
  | notSent (id ud : ℕ)
  /-- `recv invalid socket message type %d` -/
  | invalidSocketType
  deriving DecidableEq

/-- What the module does. -/
inductive HarborEvent
  /-- A call into the framework, and the message it is made for. -/
  | call (c : HarborCall) (m : Option NodeMsg)
  | error (e : NodeError)
  /-- `uboss_socket_start`. -/
  | start (fd : ℕ)
  /-- `uboss_free`. -/
  | free (block : ℕ)
  /-- The block belongs to `uboss_send` now. -/
  | hand (block : ℕ)
  /-- `remote_send_handle` has got a message for another harbor. -/
  | route (m : NodeMsg)
  deriving DecidableEq

/-- `struct harbor`, the number of blocks so far and the record. -/
structure HarborNode where
  id : ℕ
  slave : UInt32
  map : NameMap NodeMsg
  s : Fin remoteMax → NodeSlave
  next : ℕ
  log : List HarborEvent
  released : Bool

namespace NodeMsg

/-- `m->header.destination |= handle & HANDLE_MASK`. -/
def complete (handle : UInt32) (m : NodeMsg) : NodeMsg :=
  { m with header.destination := m.header.destination ||| (handle &&& handleMask) }

/-- The message is for a name that is bound to the handle. -/
def bind (handle : UInt32) (m : NodeMsg) : NodeMsg :=
  match m.origin.target with
  | .handle _ => m
  | .name name _ => { m with origin.target := .name name (some handle) }

end NodeMsg

/-- A message to a handle. -/
def directMsg (source destination : UInt32) (type : UInt8) (session : Int32) (block : ℕ)
    (data : List UInt8) : NodeMsg where
  header :=
    { source := source
      destination := (destination &&& handleMask) ||| (type.toUInt32 <<< handleRemoteShift)
      session := session.toUInt32 }
  block := block
  data := data
  origin := ⟨source, .handle destination, type, session, data⟩

/-- A message to a name that is not known. -/
def namedMsg (source : UInt32) (name : GlobalName) (type : UInt8) (session : Int32) (block : ℕ)
    (data : List UInt8) : NodeMsg where
  header :=
    { source := source
      destination := type.toUInt32 <<< handleRemoteShift
      session := session.toUInt32 }
  block := block
  data := data
  origin := ⟨source, .name name none, type, session, data⟩

/-- `send_remote`. -/
def remoteCall (fd : ℕ) (m : NodeMsg) : HarborEvent :=
  if m.data.length + headerCookieLength > uint32Max then
    .call (.ubossError (.remoteTooLarge m.header.source m.header.destination)) (some m)
  else
    .call (.ubossSocketSend fd (remoteFrame m.data m.header)
      (Int.bmod (m.data.length + headerCookieLength + 4) (2 ^ 32))) (some m)

/-- One message of a queue that is sent to a socket. -/
def sendEvents (fd : ℕ) (m : NodeMsg) : List HarborEvent := [remoteCall fd m, .free m.block]

/-- One message of a queue that is delivered here. -/
def deliverEvents (handle : UInt32) (m : NodeMsg) : List HarborEvent := [.call (.ubossSend
    { source := m.header.source
      destination := handle
      type := (m.header.destination >>> handleRemoteShift) ||| ptypeTagDontcopy
      session := m.header.session.toInt32
      data := m.data }) (some m), .hand m.block]

def releaseQueue (queue : Option (List NodeMsg)) : List HarborEvent :=
  (queue.getD []).map fun m => .free m.block

/-- A slave before there is a link. -/
def NodeSlave.init : NodeSlave := ⟨0, none, .wait, 0, 0, [0, 0, 0, 0], none⟩

namespace HarborNode

/-- `harbor_create` and `harbor_init`. -/
def create (id : ℕ) (slave : UInt32) : HarborNode where
  id := id
  slave := slave
  map _ := []
  s _ := .init
  next := 0
  log := []
  released := false

section Functions

variable (h : HarborNode)

/-- Record some events. -/
def emit (es : List HarborEvent) : HarborNode := { h with log := h.log ++ es }

def setSlave (i : Fin remoteMax) (s : NodeSlave) : HarborNode :=
  { h with s := Function.update h.s i s }

/-- `uboss_malloc`, or a block that comes with a message. -/
def alloc : HarborNode := { h with next := h.next + 1 }

/-- The calls into the framework. -/
def calls : List HarborCall := h.log.filterMap fun
    | .call c _ => some c
    | _ => none

/-- What `close_harbor` does for a slave. -/
def closeEvents (s : NodeSlave) : List HarborEvent :=
  (if s.fd ≠ 0 then [.call (.ubossSocketClose s.fd) none] else []) ++ releaseQueue s.queue

def closeHarbor (i : Fin remoteMax) : HarborNode :=
  (h.setSlave i { h.s i with status := .down, queue := none }).emit (closeEvents (h.s i))

/-- What `harbor_release` does: the links that are not down are closed, and the table of the names
is deleted. -/
def releaseEvents : List HarborEvent := ((List.finRange remoteMax).flatMap fun i =>
    if 0 < i.val ∧ (h.s i).fd ≠ 0 ∧ (h.s i).status ≠ .down then closeEvents (h.s i) else []) ++
  (List.finRange hashSize).flatMap fun b =>
    (h.map b).flatMap fun node => releaseQueue node.queue

/-- `harbor_release`. What is not freed here is lost with the `struct harbor`. -/
def harborRelease : HarborNode :=
  { h.emit h.releaseEvents with
    map := fun _ => []
    s := fun _ => .init
    released := true }

def dispatchQueue (i : Fin remoteMax) : Except HarborFault HarborNode :=
  if (h.s i).fd = 0 then .error .assertFd
  else
    match (h.s i).queue with
    | none => .ok h
    | some queue =>
      .ok ((h.setSlave i { h.s i with queue := none }).emit (queue.flatMap (sendEvents (h.s i).fd)))

/-- `dispatch_name_queue` with the `release_queue` after it. -/
def dispatchNameQueue (name : GlobalName) (handle : UInt32) (queue : List NodeMsg) : HarborNode :=
  let i := harborOf handle
  let s := h.s i
  let queue := queue.map (NodeMsg.bind handle)
  if s.fd = 0 then
    if s.status = .down then
      h.emit (.error (.dropName name i) :: releaseQueue (some queue))
    else if i = harborOf h.slave then
      -- the harbor is local
      (h.setSlave i { s with queue := none }).emit
        ((s.queue.getD [] ++ queue).flatMap (deliverEvents handle))
    else h.setSlave i { s with queue := some (s.queue.getD [] ++ queue) }
  else h.emit ((queue.map (NodeMsg.complete handle)).flatMap (sendEvents s.fd))

def updateName (name : GlobalName) (handle : UInt32) : HarborNode :=
  let bound : HarborNode :=
    { h with
      map := hashUpdate h.map name fun node => { node with value := handle, queue := none } }
  match (hashSearch h.map name).bind KeyValue.queue with
  | none => bound
  | some queue => bound.dispatchNameQueue name handle queue

/-- `remote_send_handle`. The second component is its result: whether the block is still in use. -/
def remoteSendHandle (source destination : UInt32) (type : UInt8) (session : Int32) (block : ℕ)
    (data : List UInt8) : HarborNode × Bool :=
  let i := harborOf destination
  let s := h.s i
  let m := directMsg source destination type session block data
  if i.val = h.id then
    (h.emit [.call (.ubossSend
      ⟨source, destination, type.toUInt32 ||| ptypeTagDontcopy, session, data⟩) (some m),
      .hand block], true)
  else if s.fd = 0 ∨ s.status = .handshake then
    if s.status = .down then
      (h.emit [.route m, .call (.ubossSend ⟨destination, source, ptypeError, 0, []⟩) none,
        .call (.ubossError (.dropMessage i source destination session data.length)) none], false)
    else
      ((h.setSlave i { s with queue := some (s.queue.getD [] ++ [m]) }).emit [.route m], true)
  else (h.emit [.route m, remoteCall s.fd m], false)

/-- The text that asks the slave service for a name. -/
def queryText (name : GlobalName) : List UInt8 := text "Q " ++ name.string

/-- The value of a name, or 0. -/
def nameValue (name : GlobalName) : UInt32 :=
  ((hashSearch h.map name).getD (newNode NodeMsg name)).value

def remoteSendName (source : UInt32) (name : GlobalName) (type : UInt8) (session : Int32)
    (block : ℕ) (data : List UInt8) : HarborNode × Bool :=
  if h.nameValue name = 0 then
    ({ h with
        map := hashUpdate h.map name fun node =>
          { node with
            queue := some (node.queue.getD [] ++ [namedMsg source name type session block data]) }
        log := h.log ++ [.call (.ubossSend ⟨0, h.slave, ptypeText, 0, queryText name⟩) none] },
      true)
  else h.remoteSendHandle source (h.nameValue name) type session block data

end Functions

/-! ### Data of a socket -/

section Receive

variable (refused : List HarborCall → Bool)

def forwardLocalMesssage (h : HarborNode) (block : ℕ) (msg : List UInt8) (sz : ℕ) :
    Except HarborFault HarborNode :=
  let m := localMessage h.id msg sz
  let sent := h.emit [.call (.ubossSend { m with type := m.type ||| ptypeTagDontcopy }) none,
    .hand block]
  if sz < headerCookieLength then .error .cookieBounds
  else if refused sent.calls then
    let reported :=
      if m.type ≠ ptypeError then
        sent.emit [.call (.ubossSend
          { source := m.destination, destination := m.source, type := ptypeError,
            session := m.session, data := [] }) none]
      else sent
    .ok (reported.emit
      [.call (.ubossError (.unknownDestination m.destination m.source m.type)) none])
  else .ok sent

/-- `case STATUS_CONTENT`. `again` is the next round of the `for (;;)`. -/
def pushContent (again : HarborNode → List UInt8 → Except HarborFault HarborNode)
    (i : Fin remoteMax) (h : HarborNode) (buffer : List UInt8) : Except HarborFault HarborNode :=
  let s := h.s i
  let need := s.length - s.read
  match s.recvBuffer with
  | none => .error .copyBounds
  | some (block, recv) => do
    if buffer.length < need then
      let recv ← memcpy recv s.read buffer
      return h.setSlave i
        { s with recvBuffer := some (block, recv), read := s.read + buffer.length }
    else
      let recv ← memcpy recv s.read (buffer.take need)
      let h ← forwardLocalMesssage refused h block recv s.length
      let h := h.setSlave i { s with length := 0, read := 0, recvBuffer := none, status := .header }
      if buffer.drop need = [] then return h
      else again h (buffer.drop need)

/-- `case STATUS_HEADER`, which goes through to `case STATUS_CONTENT`. -/
def pushHeader (again : HarborNode → List UInt8 → Except HarborFault HarborNode)
    (i : Fin remoteMax) (h : HarborNode) (buffer : List UInt8) : Except HarborFault HarborNode := do
  let s := h.s i
  let need := 4 - s.read
  if buffer.length < need then
    let size ← memcpy s.size s.read buffer
    return h.setSlave i { s with size := size, read := s.read + buffer.length }
  else
    let size ← memcpy s.size s.read (buffer.take need)
    if size.getD 0 0 ≠ 0 then
      return ((h.setSlave i { s with size := size }).emit
        [.call (.ubossError (.messageTooLong i)) none]).closeHarbor i
    else
      let h := h.alloc.setSlave i
        { s with
          size := size
          length := frameLength size
          read := 0
          recvBuffer := some (h.next, List.replicate (frameLength size) 0)
          status := .content }
      if buffer.drop need = [] then return h
      else pushContent refused again i h (buffer.drop need)

/-- `case STATUS_HANDSHAKE`, which goes through to `case STATUS_HEADER` when bytes are left. -/
def pushHandshake (again : HarborNode → List UInt8 → Except HarborFault HarborNode)
    (i : Fin remoteMax) (h : HarborNode) (buffer : List UInt8) : Except HarborFault HarborNode := do
  match buffer with
  | [] => throw .emptyMessage
  | remoteId :: buffer =>
    if remoteId.toNat ≠ i.val then
      let reported := h.emit [.call (.ubossError (.invalidShakehandId i (h.s i).fd remoteId)) none]
      return reported.closeHarbor i
    else
      let h ← (h.setSlave i { h.s i with status := .header }).dispatchQueue i
      if buffer = [] then again h buffer
      else pushHeader refused again i h buffer

/-- The `for (;;)` of `push_socket_data`, at most `fuel` rounds of it. -/
def pushLoop (i : Fin remoteMax) : ℕ → HarborNode → List UInt8 → Except HarborFault HarborNode
  | 0, _, _ => .error .outOfFuel
  | fuel + 1, h, buffer =>
    match (h.s i).status with
    | .handshake => pushHandshake refused (pushLoop i fuel) i h buffer
    | .header => pushHeader refused (pushLoop i fuel) i h buffer
    | .content => pushContent refused (pushLoop i fuel) i h buffer
    | .wait => .ok h
    | .down => .ok h

/-- The search for the slave of a socket, also `harbor_id`. -/
def findSlave (h : HarborNode) (fd : ℕ) : Option (Fin remoteMax) :=
  (List.finRange remoteMax).find? fun i => decide (0 < i.val ∧ (h.s i).fd = fd)

def pushSocketData (h : HarborNode) (fd block : ℕ) (buffer : List UInt8) :
    Except HarborFault HarborNode :=
  match h.findSlave fd with
  | none => .ok (h.emit [.free block, .call (.ubossError (.invalidSocketFd fd)) none])
  | some i => pushLoop refused i (buffer.length + 2) h buffer

end Receive

end HarborNode

/-! ### Commands -/

/-- The space characters of `sscanf`. -/
def isSpace (c : UInt8) : Bool := c = 32 || (9 ≤ c && c ≤ 13)

def isDigit (c : UInt8) : Bool := 48 ≤ c && c ≤ 57

/-- `%d` of `sscanf`: a number and what follows it. -/
def scanInt (l : List UInt8) : Option (ℤ × List UInt8) :=
  let value (l : List UInt8) : Option (ℤ × List UInt8) :=
    if l.takeWhile isDigit = [] then none
    else some ((l.takeWhile isDigit).foldl (fun n c => 10 * n + (c.toNat - 48 : ℤ)) 0,
      l.dropWhile isDigit)
  match l.dropWhile isSpace with
  | 45 :: l => (value l).map fun x => (-x.1, x.2)
  | 43 :: l => value l
  | l => value l

/-- `sscanf(buffer, "%d %d", &fd, &id)` with both 0 before. -/
def scanPair (l : List UInt8) : ℤ × ℤ :=
  match scanInt l with
  | none => (0, 0)
  | some (fd, l) => (fd, ((scanInt l).map Prod.fst).getD 0)

/-- What a command asks for. -/
inductive HarborCommand
  | name (name : GlobalName)
  /-- `A`, or `S` if it is not accepted. -/
  | link (accept : Bool) (fd : ℕ) (id : Fin remoteMax)
  | invalidName
  | invalidLink
  | unknown
  /-- The copy of a command that is too short has a negative size. -/
  | outOfBounds
  deriving DecidableEq

/-- The text of a command. An `int` is stored in 32 bits. -/
def parseCommand (msg : List UInt8) : HarborCommand :=
  match msg with
  -- there is a zero behind the text
  | [] => .unknown
  | c :: rest =>
    let name := rest.drop 1
    if c = 'N'.toUInt8 then
      if msg.length ≤ 2 ∨ globalnameLength ≤ msg.length - 2 then .invalidName
      else .name (commandName name)
    else if c = 'S'.toUInt8 ∨ c = 'A'.toUInt8 then
      let fd := ((scanPair name).1 % 2 ^ 32).toNat
      let id := Int.bmod (scanPair name).2 (2 ^ 32)
      if msg.length < 2 then .outOfBounds
      else if fd = 0 ∨ id ≤ 0 then .invalidLink
      else if hid : id.toNat < remoteMax then .link (c = 'A'.toUInt8) fd ⟨id.toNat, hid⟩
      else .invalidLink
    else .unknown

namespace HarborNode

/-- The commands `S` and `A`, with `handshake`. -/
def linkSlave (h : HarborNode) (accept : Bool) (fd : ℕ) (i : Fin remoteMax) :
    Except HarborFault HarborNode :=
  if (h.s i).fd ≠ 0 then .ok (h.emit [.error (.alreadyExist i)])
  else
    let linked (status : SlaveStatus) : HarborNode :=
      (h.setSlave i { h.s i with fd := fd, status := status }).emit
        [.start fd, .call (.ubossSocketSend fd [UInt8.ofNat h.id] 1) none]
    if accept then (linked .header).dispatchQueue i else .ok (linked .handshake)

def harborCommand (h : HarborNode) (msg : List UInt8) (source : UInt32) :
    Except HarborFault HarborNode :=
  match parseCommand msg with
  | .name name => .ok (h.updateName name source)
  | .link accept fd i => h.linkSlave accept fd i
  | .invalidName => .ok (h.emit [.error (.invalidGlobalName msg)])
  | .invalidLink => .ok (h.emit [.error (.invalidCommand msg)])
  | .unknown => .ok (h.emit [.error (.unknownCommand msg)])
  | .outOfBounds => .error .copyBounds

end HarborNode

/-! ### The main loop -/

/-- `struct uboss_socket_message`. -/
inductive SocketInput
  | data (fd : ℕ) (buffer : List UInt8)
  | close (fd : ℕ)
  | error (fd : ℕ)
  | connect (fd : ℕ)
  | warning (fd ud : ℕ)
  | other
  deriving DecidableEq

/-- A message to the harbor service. The last one is a `struct remote_message`; the name counts if
the handle is 0. -/
inductive HarborInput
  | socket (m : SocketInput)
  | harbor (msg : List UInt8) (source : UInt32)
  | remote (source : UInt32) (name : GlobalName) (handle : UInt32) (type : UInt8) (session : Int32)
      (data : List UInt8)

/-- What happens to the service. -/
inductive HarborAct
  | mainloop (input : HarborInput)
  | release

namespace HarborNode

variable (refused : List HarborCall → Bool) (h : HarborNode)

/-- `report_harbor_down`. -/
def downText (i : Fin remoteMax) : List UInt8 := text ("D " ++ toString i.val)

/-- A message of type `PTYPE_SOCKET`. -/
def socketMessage : SocketInput → Except HarborFault HarborNode
  | .data fd buffer =>
    (pushSocketData refused h.alloc fd h.next buffer).map fun h' => h'.emit [.free h.next]
  | .close fd | .error fd =>
    match h.findSlave fd with
    | some i => .ok (h.emit [.call (.ubossSend ⟨0, h.slave, ptypeText, 0, downText i⟩) none])
    | none => .ok (h.emit [.error (.unknownFd fd)])
  | .connect _ => .ok h
  | .warning fd ud =>
    match h.findSlave fd with
    | some i => .ok (h.emit [.error (.notSent i ud)])
    | none => .ok h
  | .other => .ok (h.emit [.error .invalidSocketType])

/-- A message to another harbor. Its block is freed unless it is still in use. -/
def remoteMessage (source : UInt32) (name : GlobalName) (handle : UInt32) (type : UInt8)
    (session : Int32) (data : List UInt8) : HarborNode :=
  let result :=
    if handle = 0 then h.alloc.remoteSendName source name type session h.next data
    else h.alloc.remoteSendHandle source handle type session h.next data
  if result.2 then result.1 else result.1.emit [.free h.next]

def mainloop : HarborInput → Except HarborFault HarborNode
  | .socket m => h.socketMessage refused m
  | .harbor msg source => h.harborCommand msg source
  | .remote source name handle type session data =>
    .ok (h.remoteMessage source name handle type session data)

/-- One step. There is none after `harbor_release`. -/
def step (a : HarborAct) : Option HarborNode :=
  if h.released then none
  else
    match a with
    | .mainloop input => (h.mainloop refused input).toOption
    | .release => some h.harborRelease

end HarborNode

end Uboss.Module
