import Uboss.Core.SocketBuffer
import Uboss.Math.Transition

/-!
# The slots of the socket server

`struct socket_server` with all its slots, the event poll, and the functions of the socket thread
that open, start, flush and close sockets: `ctrl_cmd` for one command of the control pipe and the
part of `socket_server_poll` that handles one event. What the operating system answers is an
argument of these functions.

A descriptor is identified by who has opened it and a number that is not used again: the server
opens one with `socket` or `accept`, the caller of `socket_server_bind` hands over its own. The
caller keeps it open as long as it is bound. `write` and `sendto` fail on the descriptor -1, which
`reserve_id` stores.
-/

namespace Uboss.Core

def maxSocket : ℕ := 2 ^ 16

def hashId (id : ℕ) : Fin maxSocket := ⟨id % maxSocket, Nat.mod_lt id (Nat.two_pow_pos 16)⟩

/-- The descriptors: of the server, and of callers of `socket_server_bind`. -/
inductive Fd
  | server (n : ℕ)
  | caller (n : ℕ)
  deriving DecidableEq, Repr

/-- `struct socket`. The descriptor -1 is `none`. -/
structure Slot (ι : Type) where
  socket : Socket ι
  id : ℕ
  fd : Option Fd

/-- A `force_close` that closes a socket: whether it has called `sp_del`, and whether the
descriptor was registered for the slot. -/
structure CloseRecord where
  deleted : Bool
  registered : Bool
  deriving DecidableEq, Repr

/-- The slots, `alloc_id`, the event poll with the slot given to `sp_add`, and the number of
descriptors opened by the server. The rest is history: the calls of `close`, and those of
`force_close`. -/
structure SocketTable (ι : Type) where
  slot : Fin maxSocket → Slot ι
  allocId : ℕ
  poll : Fd → Option (Fin maxSocket)
  nextFd : ℕ
  closed : List Fd
  records : List CloseRecord

/-- The assertions. -/
inductive TableFault
  /-- The step is not enabled. -/
  | disabled
  /-- An assertion of the functions that work on one socket. -/
  | socket (e : SocketFault)
  /-- `new_fd`: `assert(s->type == SOCKET_TYPE_RESERVE)`. -/
  | notReserved
  /-- `new_fd`: the assertions of `check_wb_list`. -/
  | wbList
  deriving DecidableEq, Repr

/-- The requests in the control pipe. -/
inductive Request (ι : Type)
  /-- `O`. -/
  | open (id : ℕ)
  /-- `L`. -/
  | listen (id fd : ℕ)
  /-- `B`. -/
  | bind (id fd : ℕ)
  /-- `U`. -/
  | udp (id fd : ℕ) (v6 : Bool)
  /-- `K`. -/
  | close (id : ℕ) (shutdown : Bool)
  /-- `S`. -/
  | start (id : ℕ)
  /-- `D`, `P` and, with an address, `A`. -/
  | send (id : ℕ) (p : Packet ι) (priority : Priority) (address : Option UdpAddress)
  /-- `C`. -/
  | setUdp (id : ℕ) (address : UdpAddress)
  /-- `T`. -/
  | setopt (id : ℕ)
  deriving DecidableEq, Repr

/-- What `socket` and `connect` do for one address of `getaddrinfo`. -/
inductive ConnectResult
  | noSocket
  | refused
  | inProgress
  | connected
  deriving DecidableEq, Repr

/-- What the operating system does during a command: the results for the addresses in
`open_socket`, whether `sp_add` succeeds, the results of writes, and whether a worker holds
`dw_lock`. -/
structure CommandOutcome where
  connects : List ConnectResult
  added : Bool
  results : List WriteResult
  locked : Bool
  deriving DecidableEq, Repr

/-- What an event is about, on a socket that is neither connecting nor listening. -/
inductive IoEvent
  /-- `forward_message_tcp` or `forward_message_udp`, which may close the socket. -/
  | read (closes : Bool)
  /-- The same, and the event is dispatched once more: after a datagram, or for its write half. -/
  | readAgain
  | write (locked : Bool) (rs : List WriteResult)
  | error
  deriving DecidableEq, Repr

/-- What the operating system does when an event is handled. -/
structure EventOutcome where
  /-- `getsockopt` reports no error. -/
  connected : Bool
  /-- `accept` returns a descriptor. -/
  accepted : Bool
  io : IoEvent
  deriving DecidableEq, Repr

/-- How a command ends. -/
inductive CommandEnd
  /-- `clear_closed_event` has nothing to do. -/
  | done
  /-- `SOCKET_CLOSE` or `SOCKET_ERR` is returned for the id. -/
  | closed (id : ℕ)
  /-- `new_fd` has failed, and the type of the slot is to be stored once more; then
  `SOCKET_ERR` is returned for the id, if there is one. -/
  | failed (i : Fin maxSocket) (id : Option ℕ)
  deriving DecidableEq, Repr

namespace SocketTable

variable {ι : Type}

section Slots

variable (t : SocketTable ι) (i : Fin maxSocket)

/-- Store a socket in a slot. -/
def put (x : Socket ι) : SocketTable ι :=
  { t with slot := Function.update t.slot i { t.slot i with socket := x } }

/-- Store the type of a slot. -/
def setType (type : SocketType) : SocketTable ι := t.put i { (t.slot i).socket with type := type }

/-- The id checks of the commands. -/
def Named (id : ℕ) : Prop :=
  (t.slot (hashId id)).socket.type ≠ .invalid ∧ (t.slot (hashId id)).id = id

instance (id : ℕ) : Decidable (t.Named id) := inferInstanceAs (Decidable (_ ∧ _))

/-- Whether `force_close` calls `sp_del`. -/
def deletes (type : SocketType) : Bool := type != .paccept && type != .plisten

def spDel (fd : Option Fd) : Fd → Option (Fin maxSocket) :=
  match fd with
  | none => t.poll
  | some fd => Function.update t.poll fd none

/-- `sp_add`, which fails for a descriptor that is registered already. -/
def spAdd (fd : Option Fd) (added : Bool) : Option (SocketTable ι) :=
  match fd with
  | none => none
  | some fd =>
    if added ∧ t.poll fd = none then
      some { t with poll := Function.update t.poll fd (some i) }
    else none

/-- The descriptor of the slot is registered for it. -/
def Polls : Prop := ∃ fd ∈ (t.slot i).fd, t.poll fd = some i

instance : Decidable (t.Polls i) := inferInstanceAs (Decidable (∃ fd ∈ (t.slot i).fd, _))

/-- `force_close` of an open socket, which leaves the slot with `x`. -/
def release (x : Socket ι) : SocketTable ι :=
  { t.put i x with
    poll := if deletes (t.slot i).socket.type then t.spDel (t.slot i).fd else t.poll
    closed := if (t.slot i).socket.type = .bind then t.closed
      else t.closed ++ (t.slot i).fd.toList
    records := t.records ++ [⟨deletes (t.slot i).socket.type, decide (t.Polls i)⟩] }

def forceClose : Except TableFault (SocketTable ι) :=
  match (t.slot i).socket.type with
  | .invalid => .ok t
  | .reserve => .error (.socket .reserved)
  | _ => .ok (t.release i (t.slot i).socket.freeWbLists.closeFd)

/-- The results of writes to the descriptor of a slot. -/
def writeResults (rs : List WriteResult) : List WriteResult :=
  if (t.slot i).fd = none then [.error] else rs

/-- `send_buffer`. It does nothing while a worker holds the lock, which it takes on an open
socket only. -/
def sendBuffer (soi : SocketObjectInterface) (locked : Bool) (rs : List WriteResult) :
    Except TableFault (SocketTable ι × SocketResult) :=
  if locked ∧ (t.slot i).socket.type ≠ .reserve then .ok (t, .ignore)
  else
    match (t.slot i).socket.sendBuffer soi (t.writeResults i rs) with
    | .error e => .error (.socket e)
    | .ok f => .ok (if f.result = .close then t.release i f.socket else t.put i f.socket, f.result)

end Slots

section Commands

variable (t : SocketTable ι)

/-- The slot of a socket that `new_fd` has opened. -/
def install (i : Fin maxSocket) (id : ℕ) (fd : Fd) (x : Socket ι) : SocketTable ι :=
  { t with slot := Function.update t.slot i ⟨x, id, some fd⟩ }

def checkWbList (l : WbList ι) : Bool := l.chain.isEmpty && l.tail.isNone

/-- `new_fd`; `false` if it fails. -/
def newFd (id : ℕ) (fd : Fd) (protocol : Protocol) (add added : Bool) :
    Except TableFault (SocketTable ι × Bool) :=
  if (t.slot (hashId id)).socket.type ≠ .reserve then .error .notReserved
  else
    match if add then t.spAdd (hashId id) (some fd) added else some t with
    | none => .ok (t.setType (hashId id) .invalid, false)
    | some t' =>
      if checkWbList (t.slot (hashId id)).socket.high ∧
          checkWbList (t.slot (hashId id)).socket.low then
        .ok (t'.install (hashId id) id fd { (t.slot (hashId id)).socket with
          protocol := protocol
          wbSize := 0
          warnSize := 0
          dw := none
          wantWrite := false }, true)
      else .error .wbList

/-- A descriptor that the server opens. -/
def openFd : SocketTable ι := { t with nextFd := t.nextFd + 1 }

/-- `close`. -/
def closeFd (fd : Fd) : SocketTable ι := { t with closed := t.closed ++ [fd] }

/-- The loop of `open_socket`: the descriptor, and whether it is connected at once. -/
def tryConnect : List ConnectResult → SocketTable ι → SocketTable ι × Option (Fd × Bool)
  | [], t => (t, none)
  | .noSocket :: rs, t => tryConnect rs t
  | .refused :: rs, t => tryConnect rs (t.openFd.closeFd (.server t.nextFd))
  | .inProgress :: _, t => (t.openFd, some (.server t.nextFd, false))
  | .connected :: _, t => (t.openFd, some (.server t.nextFd, true))

/-- `open_socket` once it has a descriptor. -/
def openConnected (id : ℕ) (fd : Fd) (connected added : Bool) :
    Except TableFault (SocketTable ι × CommandEnd) :=
  (t.newFd id fd .tcp true added).map fun x =>
    if x.2 then
      (x.1.put (hashId id) { (x.1.slot (hashId id)).socket with
        type := if connected then .connected else .connecting
        wantWrite := !connected }, .done)
    else (x.1.closeFd fd, .failed (hashId id) (some id))

def openSocket (id : ℕ) (rs : List ConnectResult) (added : Bool) :
    Except TableFault (SocketTable ι × CommandEnd) :=
  match tryConnect rs t with
  | (t, none) => .ok (t.setType (hashId id) .invalid, .closed id)
  | (t, some (fd, connected)) => t.openConnected id fd connected added

def listenSocket (id : ℕ) (fd : Fd) : Except TableFault (SocketTable ι × CommandEnd) :=
  (t.newFd id fd .tcp false true).map fun x => (x.1.setType (hashId id) .plisten, .done)

def bindSocket (id : ℕ) (fd : Fd) (added : Bool) : Except TableFault (SocketTable ι × CommandEnd) :=
  (t.newFd id fd .tcp true added).map fun x =>
    if x.2 then (x.1.setType (hashId id) .bind, .done) else (x.1, .closed id)

def addUdpSocket (id : ℕ) (fd : Fd) (v6 added : Bool) :
    Except TableFault (SocketTable ι × CommandEnd) :=
  (t.newFd id fd (if v6 then .udpv6 else .udp) true added).map fun x =>
    if x.2 then
      (x.1.put (hashId id) { (x.1.slot (hashId id)).socket with
        type := .connected
        udpAddress := ⟨.tcp, 0, 0⟩ }, .done)
    else (x.1.closeFd fd, .failed (hashId id) none)

def startSocket (id : ℕ) (added : Bool) : Except TableFault (SocketTable ι × CommandEnd) :=
  let type := (t.slot (hashId id)).socket.type
  if ¬ t.Named id then .ok (t, .closed id)
  else if type = .paccept ∨ type = .plisten then
    match t.spAdd (hashId id) (t.slot (hashId id)).fd added with
    | none => (t.forceClose (hashId id)).map fun t => (t, .closed id)
    | some t =>
      .ok (t.setType (hashId id) (if type = .paccept then .connected else .listen), .done)
  else .ok (t, .done)

/-- The end of `close_socket`. -/
def closeDecide (id : ℕ) (shutdown : Bool) : Except TableFault (SocketTable ι × CommandEnd) :=
  if shutdown ∨ (t.slot (hashId id)).socket.sendBufferEmpty then
    (t.forceClose (hashId id)).map fun t => (t, .closed id)
  else .ok (t.setType (hashId id) .halfclose, .done)

section Interface

variable [DecidableEq ι] (soi : SocketObjectInterface)

omit [DecidableEq ι] in
def closeSocket (id : ℕ) (shutdown : Bool) (o : CommandOutcome) :
    Except TableFault (SocketTable ι × CommandEnd) :=
  if ¬ t.Named id then .ok (t, .closed id)
  else if (t.slot (hashId id)).socket.sendBufferEmpty then t.closeDecide id shutdown
  else
    match t.sendBuffer (hashId id) soi o.locked o.results with
    | .error e => .error e
    | .ok (t, .close) => .ok (t, .closed id)
    | .ok (t, _) => t.closeDecide id shutdown

def sendSocket (id : ℕ) (p : Packet ι) (priority : Priority) (address : Option UdpAddress)
    (rs : List WriteResult) : Except TableFault (SocketTable ι × CommandEnd) :=
  if ¬ t.Named id then .ok (t, .done)
  else
    match (t.slot (hashId id)).socket.sendSocket soi p priority address
        ((t.writeResults (hashId id) rs).headD .again) with
    | .error e => .error (.socket e)
    | .ok x => .ok (t.put (hashId id) x.1, .done)

def setUdpAddress (id : ℕ) (a : UdpAddress) : SocketTable ι × CommandEnd :=
  let x := (t.slot (hashId id)).socket
  if ¬ t.Named id then (t, .done)
  else if a.type ≠ x.protocol then (t, .closed id)
  else (t.put (hashId id)
    { x with udpAddress := a, udpconnecting := (x.udpconnecting + 65535) % 65536 }, .done)

def ctrlCmd (o : CommandOutcome) : Request ι → Except TableFault (SocketTable ι × CommandEnd)
  | .open id => t.openSocket id o.connects o.added
  | .listen id fd => t.listenSocket id (.server fd)
  | .bind id fd => t.bindSocket id (.caller fd) o.added
  | .udp id fd v6 => t.addUdpSocket id (.server fd) v6 o.added
  | .close id shutdown => t.closeSocket soi id shutdown o
  | .start id => t.startSocket id o.added
  | .send id p priority address => t.sendSocket soi id p priority address o.results
  | .setUdp id a => .ok (t.setUdpAddress id a)
  -- only an option of the descriptor is set
  | .setopt _ => .ok (t, .done)

end Interface

end Commands

section Reserve

variable (t : SocketTable ι)

/-- The id that follows `alloc_id`. -/
def nextId (allocId : ℕ) : ℕ := (allocId + 1) % 2 ^ 31

/-- The stores of `reserve_id` after it has got the slot. -/
def nameSlot (id : ℕ) : SocketTable ι :=
  { t with
    slot := Function.update t.slot (hashId id)
      ⟨{ (t.slot (hashId id)).socket with udpconnecting := 0 }, id, none⟩ }

/-- The loop of `reserve_id` with `n` attempts left: `alloc_id`, and the id of a free slot. -/
def tryReserve : ℕ → ℕ → ℕ × Option ℕ
  | 0, allocId => (allocId, none)
  | n + 1, allocId =>
    if (t.slot (hashId (nextId allocId))).socket.type = .invalid then
      (nextId allocId, some (nextId allocId))
    else tryReserve n (nextId allocId)

/-- `reserve_id`, when no other thread interferes. -/
def reserveId : SocketTable ι × Option ℕ :=
  match t.tryReserve maxSocket t.allocId with
  | (allocId, none) => ({ t with allocId := allocId }, none)
  | (allocId, some id) =>
    ((setType { t with allocId := allocId } (hashId id) .reserve).nameSlot id, some id)

end Reserve

section Events

variable (t : SocketTable ι) (i : Fin maxSocket)

def reportConnect (connected : Bool) : Except TableFault (SocketTable ι) :=
  let x := (t.slot i).socket
  if connected then
    .ok (t.put i { x with
      type := .connected
      wantWrite := if x.sendBufferEmpty then false else x.wantWrite })
  else t.forceClose i

def reportAccept (accepted : Bool) : Except TableFault (SocketTable ι) :=
  if accepted then
    match t.openFd.reserveId with
    | (t', none) => .ok (t'.closeFd (.server t.nextFd))
    | (t', some id) =>
      (t'.newFd id (.server t.nextFd) .tcp false true).map fun x =>
        x.1.setType (hashId id) .paccept
  else .ok t

/-- The branch of `socket_server_poll` that reads and writes. -/
def Transfers : Prop := (t.slot i).socket.type ≠ .connecting ∧ (t.slot i).socket.type ≠ .listen ∧
    (t.slot i).socket.type ≠ .invalid

instance : Decidable (t.Transfers i) := inferInstanceAs (Decidable (_ ∧ _))

/-- One event of a slot in `socket_server_poll`. -/
def handleEvent (soi : SocketObjectInterface) (o : EventOutcome) :
    Except TableFault (SocketTable ι) :=
  match (t.slot i).socket.type with
  | .connecting => t.reportConnect i o.connected
  | .listen => t.reportAccept o.accepted
  | .invalid => .ok t
  | _ =>
    match o.io with
    | .read closes => if closes then t.forceClose i else .ok t
    | .readAgain => .ok t
    | .write locked rs => (t.sendBuffer i soi locked rs).map Prod.fst
    | .error => t.forceClose i

end Events

end SocketTable

end Uboss.Core
