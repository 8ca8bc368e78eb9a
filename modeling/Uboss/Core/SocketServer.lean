import Uboss.Core.SocketBuffer
import Uboss.Math.Transition

/-!
# Workers and the socket thread

One socket of the socket server, from the reservation of its id to its closing: any number of
worker threads call the functions of `socket_server.h` on it, and the socket thread executes
the commands of the control pipe and the events of the poll. A step is the code between two
accesses to what other threads change: the tests of `can_direct_write`, the lock operations,
the writes, and for the socket thread one command or event. `close_socket` is split after its
`send_buffer`, `report_connect` after its store of the type, and `force_close` outside the lock
where it waits for `dw_lock`, after it has freed the lists.

A socket that is opened by a command starts with that command in the pipe; an accepted one
behaves as if the socket thread executed it at once. The id is not given to another socket
within a run, and `socket_server_udp_send` is only called on UDP sockets.
-/

namespace Uboss.Core

open Math

/-- Identifies a call of a send function: the caller, the number of the call, and whether it
was `socket_server_send` on a socket that was `CONNECTED` at the time. -/
structure SendTag (Tid : Type) where
  sender : Tid
  serial : ℕ
  ordered : Bool
  deriving DecidableEq, Repr

/-- The commands in the control pipe. -/
inductive Command (Tid : Type)
  /-- `O`, `L`, `B` or `U`. -/
  | open
  /-- `D`, `P` and, with an address, `A`. -/
  | send (p : Packet (SendTag Tid)) (priority : Priority) (address : Option UdpAddress)
  /-- `K`. -/
  | close (shutdown : Bool)
  /-- `S`. -/
  | start
  /-- `C`. -/
  | setUdp (address : UdpAddress)
  deriving DecidableEq, Repr

/-- Where a worker is between two steps. An address is given by `socket_server_udp_send`. -/
inductive Worker (Tid : Type)
  | idle
  /-- Before the first `can_direct_write`. -/
  | entered (p : Packet (SendTag Tid)) (address : Option UdpAddress)
  /-- Before `socket_trylock`. -/
  | tryLock (p : Packet (SendTag Tid)) (address : Option UdpAddress)
  /-- Before the second `can_direct_write`, with the lock. -/
  | locked (p : Packet (SendTag Tid)) (address : Option UdpAddress)
  /-- Before the direct write, with the lock. -/
  | writing (p : Packet (SendTag Tid)) (address : Option UdpAddress)
  /-- Before `send_request`. -/
  | posting (c : Command Tid)
  deriving DecidableEq, Repr

/-- Where the socket thread is between two steps. -/
inductive Poller (Tid : Type)
  /-- Between two commands or events. -/
  | idle
  /-- In `close_socket`, after `send_buffer`. -/
  | deciding (shutdown : Bool)
  /-- In `report_connect`, after the store of the type. -/
  | reporting
  /-- In `force_close`, before `socket_lock`, after it has freed these buffers. -/
  | closing (freed : List (WriteBuffer (SendTag Tid)))
  deriving DecidableEq, Repr

/-- The socket, `dw_lock` with the worker that holds it, the control pipe and the threads. The
rest is history: what was written to the fd, the packets given to the send functions, those
for which 0 was returned while the socket was `CONNECTED` (`kept`), those of them that were
followed by `socket_server_close` (`covered`), and whether a write or read failed or a
shutdown was processed (`broken`). -/
structure SocketServer (Tid : Type) where
  socket : Socket (SendTag Tid)
  lock : Option Tid
  pipe : List (Command Tid)
  worker : Tid → Worker Tid
  poller : Poller Tid
  wire : List (SendTag Tid × ℕ)
  datagrams : List (Datagram (SendTag Tid))
  calls : List (Packet (SendTag Tid))
  kept : List (Packet (SendTag Tid))
  covered : List (Packet (SendTag Tid))
  broken : Bool

/-- What the operating system does during a command: the type the opened socket gets (none if
that fails), the results of writes, and whether `sp_add` succeeds. -/
structure CommandResult where
  opened : Option SocketType
  results : List WriteResult
  added : Bool
  deriving DecidableEq, Repr

/-- The steps. -/
inductive SocketAct (Tid : Type)
  | send (t : Tid) (buffer : ℕ) (sz : ℤ)
  | sendLowpriority (t : Tid) (buffer : ℕ) (sz : ℤ)
  | udpSend (t : Tid) (address : UdpAddress) (buffer : ℕ) (sz : ℤ)
  /-- `getaddrinfo` finds an address or fails. -/
  | udpConnect (t : Tid) (address : Option UdpAddress)
  | close (t : Tid) (shutdown : Bool)
  | start (t : Tid)
  /-- The next step of a worker; a direct write has the result `r`. -/
  | run (t : Tid) (r : WriteResult)
  | command (r : CommandResult)
  | writeEvent (rs : List WriteResult)
  /-- The end of the stream or an error, reported by `read` or by the poll. -/
  | hangup
  | connectEvent (ok : Bool)
  /-- The end of `close_socket`. -/
  | decide
  /-- The end of `report_connect`. -/
  | reported
  /-- The end of `force_close`. -/
  | closed
  deriving DecidableEq, Repr

namespace SocketServer

variable {Tid : Type}

/-- After `reserve_id` and the command that opens the socket. -/
def init (Tid : Type) (protocol : Protocol) : SocketServer Tid where
  socket :=
    { type := .reserve
      protocol := protocol
      high := .empty
      low := .empty
      wbSize := 0
      warnSize := 0
      udpAddress := ⟨.tcp, 0, 0⟩
      udpconnecting := 0
      dw := none
      wantWrite := false }
  lock := none
  pipe := [.open]
  worker := fun _ => .idle
  poller := .idle
  wire := []
  datagrams := []
  calls := []
  kept := []
  covered := []
  broken := false

section Step

variable [DecidableEq Tid] (soi : SocketObjectInterface) (s : SocketServer Tid)

/-- Move a worker on. -/
def goto (t : Tid) (p : Worker Tid) : SocketServer Tid :=
  { s with worker := Function.update s.worker t p }

/-- The packets for which 0 was returned, when it is returned for another one. -/
def keeps (p : Packet (SendTag Tid)) : List (Packet (SendTag Tid)) :=
  if s.socket.type = .connected then s.kept ++ [p] else s.kept

/-- The entry of a send function. It returns -1 if the socket is not open, and goes on to `next`
with the packet otherwise. -/
def enter (t : Tid) (ordered : Bool) (buffer : ℕ) (sz : ℤ)
    (next : Packet (SendTag Tid) → Worker Tid) : Except SocketFault (SocketServer Tid) :=
  match s.worker t with
  | .idle =>
    if s.socket.type = .invalid then .ok s
    else
      let p := ⟨⟨t, s.calls.length, ordered⟩, buffer, sz⟩
      .ok (goto { s with calls := s.calls ++ [p] } t (next p))
  | _ => .error .disabled

/-- `send_request` by a worker that is outside. -/
def request (t : Tid) (c : Command Tid) : Except SocketFault (SocketServer Tid) :=
  match s.worker t with
  | .idle => .ok { s with pipe := s.pipe ++ [c] }
  | _ => .error .disabled

/-- The request for a packet that was not written directly. -/
def sendRequest (p : Packet (SendTag Tid)) (address : Option UdpAddress) : Worker Tid :=
  .posting (.send p .high address)

/-- The number of bytes that a direct write is taken to have written. -/
def directCount (p : Packet (SendTag Tid)) : WriteResult → ℕ
  | .wrote n => min n (p.object soi).sz
  -- an error is left to the socket thread
  | _ => 0

/-- The direct write in `socket_server_send`, up to its return. -/
def directSend (t : Tid) (p : Packet (SendTag Tid)) (r : WriteResult) : SocketServer Tid :=
  goto { s with
    socket := if directCount soi p r = (p.object soi).sz then s.socket
      else { s.socket with dw := some (p, directCount soi p r), wantWrite := true }
    lock := none
    wire := if s.socket.protocol = .tcp then s.wire ++ (p.bytes soi).take (directCount soi p r)
      else s.wire
    datagrams := if s.socket.protocol = .tcp ∨ r = .eintr ∨ r = .again ∨ r = .error
      then s.datagrams
      else s.datagrams ++ [⟨udpSocketAddress s.socket.protocol s.socket.udpAddress,
        (p.bytes soi).take (directCount soi p r)⟩]
    kept := s.keeps p } t .idle

/-- The direct write in `socket_server_udp_send`. If it fails the packet goes to the socket
thread. -/
def directUdpSend (t : Tid) (p : Packet (SendTag Tid)) (address : UdpAddress)
    (r : WriteResult) : SocketServer Tid :=
  match r with
  | .wrote n =>
    goto { s with
      lock := none
      datagrams := s.datagrams ++
        [⟨udpSocketAddress s.socket.protocol address, (p.bytes soi).take n⟩]
      kept := s.keeps p } t .idle
  | _ => goto { s with lock := none } t (sendRequest p (some address))

/-- `send_request` at the end of a worker's call. -/
def post (t : Tid) (c : Command Tid) : SocketServer Tid :=
  goto { s with
    pipe := s.pipe ++ [c]
    kept := match c with
      | .send p _ _ => s.keeps p
      | _ => s.kept } t .idle

/-- The next step of a worker. -/
def run (t : Tid) (r : WriteResult) : Except SocketFault (SocketServer Tid) :=
  match s.worker t with
  | .idle => .error .disabled
  | .entered p a =>
    .ok (s.goto t (if s.socket.canDirectWrite then .tryLock p a else sendRequest p a))
  | .tryLock p a =>
    .ok (match s.lock with
      | none => goto { s with lock := some t } t (.locked p a)
      | some _ => s.goto t (sendRequest p a))
  | .locked p a =>
    .ok (if s.socket.canDirectWrite then s.goto t (.writing p a)
      else goto { s with lock := none } t (sendRequest p a))
  | .writing p none => .ok (s.directSend soi t p r)
  | .writing p (some a) => .ok (s.directUdpSend soi t p a r)
  | .posting c => .ok (s.post t c)

/-- `force_close` without the lock, up to `socket_lock`. -/
def forceClose : Except SocketFault (SocketServer Tid) :=
  match s.socket.type with
  | .invalid => .ok s
  | .reserve => .error .reserved
  | _ => .ok { s with
      socket := s.socket.freeWbLists
      poller := .closing (s.socket.high.chain ++ s.socket.low.chain) }

/-- `send_buffer`, which does nothing while a worker holds the lock. -/
def sendBuffer (rs : List WriteResult) : Except SocketFault (SocketServer Tid × SocketResult) :=
  match s.lock with
  | some _ => .ok (s, .ignore)
  | none => (s.socket.sendBuffer soi rs).map fun f =>
      ({ s with
        socket := f.socket
        wire := s.wire ++ f.written
        datagrams := s.datagrams ++ f.datagrams
        broken := s.broken || f.failed }, f.result)

/-- `close_socket`, up to `send_buffer`. -/
def closeSocket (shutdown : Bool) (rs : List WriteResult) : Except SocketFault (SocketServer Tid) :=
  if s.socket.type = .invalid then .ok s
  else if s.socket.sendBufferEmpty then .ok { s with poller := .deciding shutdown }
  else (s.sendBuffer soi rs).map fun x =>
    if x.2 = .close then x.1 else { x.1 with poller := .deciding shutdown }

/-- The end of `close_socket`. -/
def closeDecide (shutdown : Bool) : Except SocketFault (SocketServer Tid) :=
  if shutdown ∨ s.socket.sendBufferEmpty then
    forceClose { s with broken := s.broken || shutdown, poller := .idle }
  else .ok { s with socket := { s.socket with type := .halfclose }, poller := .idle }

def startSocket (added : Bool) : Except SocketFault (SocketServer Tid) :=
  if s.socket.type = .paccept ∨ s.socket.type = .plisten then
    if added then
      .ok { s with socket := { s.socket with
        type := if s.socket.type = .paccept then .connected else .listen } }
    else s.forceClose
  else .ok s

def setUdpAddress (a : UdpAddress) : SocketServer Tid :=
  if s.socket.type = .invalid then s
  else if a.type ≠ s.socket.protocol then s
  else { s with socket := { s.socket with
    udpAddress := a
    udpconnecting := (s.socket.udpconnecting + 65535) % 65536 } }

/-- `new_fd` and the type that the opened socket gets. -/
def newFd (opened : Option SocketType) : Except SocketFault (SocketServer Tid) :=
  match opened with
  | none => .ok { s with socket := { s.socket with type := .invalid } }
  | some type =>
    if type = .connected ∨ s.socket.protocol = .tcp ∧
        (type = .connecting ∨ type = .paccept ∨ type = .plisten ∨ type = .bind) then
      .ok { s with socket := { s.socket with
        type := type
        wbSize := 0
        warnSize := 0
        dw := none
        wantWrite := decide (type = .connecting) } }
    else .error .disabled

def ctrlCmd (r : CommandResult) : Command Tid → Except SocketFault (SocketServer Tid)
  | .open => s.newFd r.opened
  | .send p priority a =>
    (s.socket.sendSocket soi p priority a (r.results.headD .again)).map fun x =>
      { s with socket := x.1, datagrams := s.datagrams ++ x.2.1 }
  | .close shutdown => s.closeSocket soi shutdown r.results
  | .start => s.startSocket r.added
  | .setUdp a => .ok (s.setUdpAddress a)

/-- The types of the sockets for which the poll reports reads, writes and errors. -/
def Polled (s : SocketServer Tid) : Prop := s.poller = .idle ∧
    (s.socket.type = .connected ∨ s.socket.type = .halfclose ∨ s.socket.type = .bind)

instance : Decidable s.Polled := inferInstanceAs (Decidable (_ ∧ _))

/-- `report_connect`, up to its store of the type. -/
def reportConnect (ok : Bool) : Except SocketFault (SocketServer Tid) :=
  if ok then
    .ok { s with socket := { s.socket with type := .connected }, poller := .reporting }
  else s.forceClose

/-- The rest of `report_connect`, which turns the write event off outside the lock. -/
def reportEnd : SocketServer Tid :=
  { s with
    socket := { s.socket with
      wantWrite := if s.socket.sendBufferEmpty then false else s.socket.wantWrite }
    poller := .idle }

/-- One step. -/
def step : SocketAct Tid → Except SocketFault (SocketServer Tid)
  | .send t buffer sz =>
    s.enter t (decide (s.socket.type = .connected)) buffer sz fun p => .entered p none
  | .sendLowpriority t buffer sz =>
    s.enter t false buffer sz fun p => .posting (.send p .low none)
  | .udpSend t a buffer sz =>
    if s.socket.protocol = .tcp ∨ a.type = .tcp then .error .disabled
    else s.enter t false buffer sz fun p => .entered p (some a)
  | .udpConnect t a =>
    match s.worker t, s.lock with
    | .idle, none =>
      if s.socket.type = .invalid then .ok s
      else
        .ok (goto { s with socket := { s.socket with
            udpconnecting := (s.socket.udpconnecting + 1) % 65536 } } t
          (match a with
          | none => .idle
          | some a => .posting (.setUdp a)))
    | _, _ => .error .disabled
  | .close t shutdown =>
    request { s with covered := if shutdown then s.covered
      else s.covered ++ s.kept.filter (·.tag.sender = t) } t (.close shutdown)
  | .start t => s.request t .start
  | .run t r => s.run soi t r
  | .command r =>
    match s.poller, s.pipe with
    | .idle, c :: pipe => ctrlCmd soi { s with pipe := pipe } r c
    | _, _ => .error .disabled
  | .writeEvent rs => if s.Polled then (s.sendBuffer soi rs).map Prod.fst else .error .disabled
  | .hangup => if s.Polled then forceClose { s with broken := true } else .error .disabled
  | .connectEvent ok =>
    if s.poller = .idle ∧ s.socket.type = .connecting then s.reportConnect ok
    else .error .disabled
  | .decide =>
    match s.poller with
    | .deciding shutdown => s.closeDecide shutdown
    | _ => .error .disabled
  | .reported =>
    match s.poller with
    | .reporting => .ok s.reportEnd
    | _ => .error .disabled
  | .closed =>
    match s.poller, s.lock with
    | .closing _, none => .ok { s with socket := s.socket.closeFd, poller := .idle }
    | _, _ => .error .disabled

/-- The steps that have a result, as a transition function. -/
def next (a : SocketAct Tid) : Option (SocketServer Tid) := (s.step soi a).toOption

end Step

end SocketServer

end Uboss.Core
