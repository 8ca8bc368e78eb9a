import Uboss.Math.StreamQueue
import Mathlib.Data.Int.Order.Basic
import Mathlib.Algebra.BigOperators.Group.List.Basic

/-!
# The write buffers of a socket

`struct socket` with its two write-buffer lists and the direct-write buffer, and the functions
of the socket thread that fill and flush them. The results of `write` and `sendto` come from a
list; when it is used up the call would block.

A byte is identified by the packet it belongs to and its address. The `tail` of a list is a
pointer and so is kept apart from the chain of buffers that starts at `head`; it is given by
the packet of the buffer it points to. Of a buffer that was allocated without an address
(`SIZEOF_TCPBUFFER`) the model does not say what `udp_socket_address` reads behind its end.
-/

namespace Uboss.Core

open Math List

/-- `SOCKET_TYPE_*`. -/
inductive SocketType
  | invalid
  | reserve
  | plisten
  | listen
  | connecting
  | connected
  | halfclose
  | paccept
  | bind
  deriving DecidableEq, Repr

/-- `PROTOCOL_*`. -/
inductive Protocol
  | tcp
  | udp
  | udpv6
  deriving DecidableEq, Repr

/-- `PRIORITY_HIGH` and `PRIORITY_LOW`. -/
inductive Priority
  | high
  | low
  deriving DecidableEq, Repr

/-- The bytes of `udp_address`: the protocol, the port and the address. -/
structure UdpAddress where
  type : Protocol
  port : ℕ
  addr : ℕ
  deriving DecidableEq, Repr

/-- The assertions, and steps that are not possible. -/
inductive SocketFault
  /-- The step is not enabled. -/
  | disabled
  /-- `send_buffer_`: `assert(!list_uncomplete(&s->low))`. -/
  | lowUncomplete
  /-- `send_buffer_`: `assert(send_buffer_empty(s) && s->wb_size == 0)`. -/
  | notEmpty
  /-- `raise_uncomplete`: `assert(high->head == NULL)`. -/
  | highNotEmpty
  /-- `append_sendbuffer_`: `tail` is not the last buffer of the list. -/
  | tail
  /-- `force_close`: `assert(s->type != SOCKET_TYPE_RESERVE)`. -/
  | reserved
  deriving DecidableEq, Repr

/-- What `write` or `sendto` returns. -/
inductive WriteResult
  | wrote (n : ℕ)
  | eintr
  | again
  | error
  deriving DecidableEq, Repr

/-- The return value of the functions of the socket thread. -/
inductive SocketResult
  /-- Return -1. -/
  | ignore
  | close
  | warning (ud : ℤ)
  deriving DecidableEq, Repr

/-- `struct socket_object_interface`, apart from `free`. -/
structure SocketObjectInterface where
  buffer : ℕ → ℕ
  size : ℕ → ℕ

/-- An interface for senders of plain buffers. -/
def noObjects : SocketObjectInterface := ⟨id, fun _ => 0⟩

def warningSize : ℤ := 1024 * 1024

/-- The buffer and size passed to a send function; a negative size marks a user object. The
tag identifies the call. -/
structure Packet (ι : Type) where
  tag : ι
  buffer : ℕ
  sz : ℤ
  deriving DecidableEq, Repr

/-- `struct send_object`, apart from `free_func`. -/
structure SendObject where
  buffer : ℕ
  sz : ℕ
  deriving DecidableEq, Repr

/-- `send_object_init`: the data, and whether it is a user object. -/
def sendObjectInit (soi : SocketObjectInterface) (object : ℕ) (sz : ℤ) : SendObject × Bool :=
  if sz < 0 then (⟨soi.buffer object, soi.size object⟩, true)
  else (⟨object, sz.toNat⟩, false)

section Span

variable {ι : Type}

/-- `n` bytes from the address `ptr` on. -/
def span (tag : ι) (ptr n : ℕ) : List (ι × ℕ) := (List.range' ptr n).map (Prod.mk tag)

@[simp] theorem length_span (tag : ι) (ptr n : ℕ) : (span tag ptr n).length = n := by
  simp [span]

theorem span_add (tag : ι) (ptr m n : ℕ) :
    span tag ptr (m + n) = span tag ptr m ++ span tag (ptr + m) n := by
  rw [span, ← range'_append_1, map_append]
  rfl

theorem fst_of_mem_span {tag : ι} {ptr n : ℕ} {b : ι × ℕ} (h : b ∈ span tag ptr n) : b.1 = tag := by
  obtain ⟨i, -, rfl⟩ := mem_map.mp h
  rfl

end Span

namespace Packet

variable {ι : Type} (soi : SocketObjectInterface) (p : Packet ι)

/-- The data of a packet. -/
def object : SendObject := (sendObjectInit soi p.buffer p.sz).1

/-- Whether it is a user object. -/
def userobject : Bool := (sendObjectInit soi p.buffer p.sz).2

/-- All bytes of a packet. -/
def bytes : List (ι × ℕ) := span p.tag (p.object soi).buffer (p.object soi).sz

end Packet

/-- `struct write_buffer`. -/
structure WriteBuffer (ι : Type) where
  packet : Packet ι
  ptr : ℕ
  sz : ℕ
  userobject : Bool
  udpAddress : Option UdpAddress
  deriving DecidableEq, Repr

namespace WriteBuffer

variable {ι : Type} (soi : SocketObjectInterface)

/-- The bytes still to be sent. -/
def rest (wb : WriteBuffer ι) : List (ι × ℕ) := span wb.packet.tag wb.ptr wb.sz

/-- `tmp->ptr += sz; tmp->sz -= sz`. -/
def advance (wb : WriteBuffer ι) (n : ℕ) : WriteBuffer ι :=
  { wb with ptr := wb.ptr + n, sz := wb.sz - n }

/-- The buffer for a packet of which `offset` bytes have been sent. -/
def ofPacket (p : Packet ι) (offset : ℕ) (udpAddress : Option UdpAddress) : WriteBuffer ι where
  packet := p
  ptr := (p.object soi).buffer + offset
  sz := (p.object soi).sz - offset
  userobject := p.userobject soi
  udpAddress := udpAddress

end WriteBuffer

/-- `struct wb_list`: the buffers reachable from `head`, and `tail`. -/
structure WbList (ι : Type) where
  chain : List (WriteBuffer ι)
  tail : Option ι
  deriving DecidableEq, Repr

/-- One call of `sendto` that succeeded. -/
structure Datagram (ι : Type) where
  address : Option UdpAddress
  payload : List (ι × ℕ)
  deriving DecidableEq, Repr

/-- The fields of `struct socket` that are used for sending. `dw` is the packet in `dw_buffer`
and `dw_size`, with `dw_offset`; `wantWrite` is the last value given to `sp_write`. -/
structure Socket (ι : Type) where
  type : SocketType
  protocol : Protocol
  high : WbList ι
  low : WbList ι
  wbSize : ℤ
  warnSize : ℤ
  udpAddress : UdpAddress
  udpconnecting : ℕ
  dw : Option (Packet ι × ℕ)
  wantWrite : Bool
  deriving DecidableEq, Repr

namespace WbList

variable {ι : Type}

/-- `clear_wb_list`. -/
def empty : WbList ι := ⟨[], none⟩

/-- `list_uncomplete`. -/
def uncomplete (l : WbList ι) : Bool :=
  match l.chain with
  | [] => false
  | wb :: _ => wb.ptr != wb.packet.buffer

/-- The linking part of `append_sendbuffer_`. A `tail` that is null or does not point to the
last buffer fails an assertion or is not a valid pointer. -/
def append [DecidableEq ι] (l : WbList ι) (wb : WriteBuffer ι) : Except SocketFault (WbList ι) :=
  if l.chain = [] then .ok ⟨[wb], some wb.packet.tag⟩
  else if l.tail = l.chain.getLast?.map (·.packet.tag) then
    .ok ⟨l.chain ++ [wb], some wb.packet.tag⟩
  else .error .tail

/-- Insertion before `head` in `send_buffer`. -/
def insert (l : WbList ι) (wb : WriteBuffer ι) : WbList ι :=
  if l.chain = [] then ⟨[wb], some wb.packet.tag⟩ else ⟨wb :: l.chain, l.tail⟩

end WbList

section SendList

variable {ι : Type}

/-- The effect of `send_list` on a list and on `wb_size`, what was sent, the results that were
not used, and whether the socket has to be closed because of an error. -/
structure SendList (ι : Type) where
  list : WbList ι
  wbSize : ℤ
  written : List (ι × ℕ)
  datagrams : List (Datagram ι)
  results : List WriteResult
  failed : Bool
  deriving DecidableEq, Repr

/-- `send_list_tcp`, up to the call of `force_close`. -/
def sendListTcp (tail : Option ι) : List (WriteBuffer ι) → ℤ → List WriteResult → SendList ι
  | [], wbSize, rs => ⟨⟨[], none⟩, wbSize, [], [], rs, false⟩
  | wb :: l, wbSize, [] => ⟨⟨wb :: l, tail⟩, wbSize, [], [], [], false⟩
  | wb :: l, wbSize, .eintr :: rs => sendListTcp tail (wb :: l) wbSize rs
  | wb :: l, wbSize, .again :: rs => ⟨⟨wb :: l, tail⟩, wbSize, [], [], rs, false⟩
  | wb :: l, wbSize, .error :: rs => ⟨⟨wb :: l, tail⟩, wbSize, [], [], rs, true⟩
  | wb :: l, wbSize, .wrote n :: rs =>
    if n < wb.sz then
      ⟨⟨wb.advance n :: l, tail⟩, wbSize - n, span wb.packet.tag wb.ptr n, [], rs, false⟩
    else
      let r := sendListTcp tail l (wbSize - wb.sz) rs
      { r with written := wb.rest ++ r.written }

/-- `udp_socket_address`; no address if the protocols differ. -/
def udpSocketAddress (protocol : Protocol) (a : UdpAddress) : Option UdpAddress :=
  if a.type = protocol then some a else none

def sendListUdp (protocol : Protocol) (tail : Option ι) :
    List (WriteBuffer ι) → ℤ → List WriteResult → SendList ι
  | [], wbSize, rs => ⟨⟨[], none⟩, wbSize, [], [], rs, false⟩
  | wb :: l, wbSize, .wrote n :: rs =>
    let r := sendListUdp protocol tail l (wbSize - wb.sz) rs
    { r with datagrams :=
        ⟨wb.udpAddress.bind (udpSocketAddress protocol), wb.rest.take n⟩ :: r.datagrams }
  | wb :: l, wbSize, rs => ⟨⟨wb :: l, tail⟩, wbSize, [], [], rs.tail, false⟩

def sendList (protocol : Protocol) (l : WbList ι) (wbSize : ℤ) (rs : List WriteResult) :
    SendList ι :=
  if protocol = .tcp then sendListTcp l.tail l.chain wbSize rs
  else sendListUdp protocol l.tail l.chain wbSize rs

end SendList

/-- A flush of a socket: its state afterwards, what was sent, the return value, and whether a
write failed. -/
structure Flush (ι : Type) where
  socket : Socket ι
  written : List (ι × ℕ)
  datagrams : List (Datagram ι)
  result : SocketResult
  failed : Bool
  deriving DecidableEq, Repr

namespace Socket

variable {ι : Type}

def sendBufferEmpty (s : Socket ι) : Bool := s.high.chain.isEmpty && s.low.chain.isEmpty

/-- The lists freed by `force_close`, before it takes the lock. -/
def freeWbLists (s : Socket ι) : Socket ι := { s with high := .empty, low := .empty }

/-- The part of `force_close` under the lock. -/
def closeFd (s : Socket ι) : Socket ι := { s with type := .invalid, dw := none }

/-- `force_close` by a caller that holds the lock. -/
def forceClose (s : Socket ι) : Except SocketFault (Socket ι) :=
  match s.type with
  | .invalid => .ok s
  | .reserve => .error .reserved
  | _ => .ok s.freeWbLists.closeFd

def raiseUncomplete (s : Socket ι) : Except SocketFault (Socket ι) :=
  match s.low.chain with
  | [] => .error .disabled
  | wb :: l =>
    if s.high.chain = [] then
      .ok { s with
        low := ⟨l, if l = [] then none else s.low.tail⟩
        high := ⟨[wb], some wb.packet.tag⟩ }
    else .error .highNotEmpty

/-- Step 4 of `send_buffer_`. -/
def sendBufferDone (s : Socket ι) : Except SocketFault (Socket ι × SocketResult) :=
  if s.sendBufferEmpty ∧ s.wbSize = 0 then
    if s.type = .halfclose then
      (forceClose { s with wantWrite := false }).map fun s' => (s', .close)
    else if 0 < s.warnSize then .ok ({ s with wantWrite := false, warnSize := 0 }, .warning 0)
    else .ok ({ s with wantWrite := false }, .ignore)
  else .error .notEmpty

/-- The socket after `send_list` of the high list. -/
def putHigh (s : Socket ι) (r : SendList ι) : Socket ι :=
  { s with high := r.list, wbSize := r.wbSize }

/-- The socket after `send_list` of the low list. -/
def putLow (s : Socket ι) (r : SendList ι) : Socket ι :=
  { s with low := r.list, wbSize := r.wbSize }

/-- `send_buffer_` after `send_list` of the low list: steps 3 and 4. -/
def lowSent (s : Socket ι) (r : SendList ι) : Except SocketFault (Flush ι) :=
  if r.failed then
    (s.putLow r).forceClose.map fun s' => ⟨s', r.written, r.datagrams, .close, true⟩
  else if r.list.uncomplete then
    (s.putLow r).raiseUncomplete.map fun s' => ⟨s', r.written, r.datagrams, .ignore, false⟩
  else
    (s.putLow r).sendBufferDone.map fun x => ⟨x.1, r.written, r.datagrams, x.2, false⟩

/-- `send_buffer_` after the high list is empty: step 2. -/
def sendBufferLow (s : Socket ι) (rs : List WriteResult) : Except SocketFault (Flush ι) :=
  if s.low.chain = [] then s.sendBufferDone.map fun x => ⟨x.1, [], [], x.2, false⟩
  else s.lowSent (sendList s.protocol s.low s.wbSize rs)

/-- `send_buffer_` after `send_list` of the high list. -/
def highSent (s : Socket ι) (r : SendList ι) : Except SocketFault (Flush ι) :=
  if r.failed then
    (s.putHigh r).forceClose.map fun s' => ⟨s', r.written, r.datagrams, .close, true⟩
  else if r.list.chain = [] then
    ((s.putHigh r).sendBufferLow r.results).map fun f =>
      { f with written := r.written ++ f.written, datagrams := r.datagrams ++ f.datagrams }
  else .ok ⟨s.putHigh r, r.written, r.datagrams, .ignore, false⟩

/-- `send_buffer_`. -/
def sendBuffer_ (s : Socket ι) (rs : List WriteResult) : Except SocketFault (Flush ι) :=
  if s.low.uncomplete then .error .lowUncomplete
  else s.highSent (sendList s.protocol s.high s.wbSize rs)

section Interface

variable (soi : SocketObjectInterface)

/-- Insert a buffer before `high.head`. -/
def pushFront (s : Socket ι) (wb : WriteBuffer ι) : Socket ι :=
  { s with high := s.high.insert wb, wbSize := s.wbSize + wb.sz, dw := none }

/-- Move the direct-write buffer to the front of the high list. -/
def mergeDw (s : Socket ι) : Socket ι :=
  match s.dw with
  | none => s
  | some (p, offset) => s.pushFront (.ofPacket soi p offset none)

/-- `send_buffer`, when it gets the lock. -/
def sendBuffer (s : Socket ι) (rs : List WriteResult) : Except SocketFault (Flush ι) :=
  (s.mergeDw soi).sendBuffer_ rs

/-- The size of the lists is reported. -/
def SizeWarning (s : Socket ι) : Prop := warningSize ≤ s.wbSize ∧ s.warnSize ≤ s.wbSize

instance (s : Socket ι) : Decidable s.SizeWarning := inferInstanceAs (Decidable (_ ∧ _))

/-- The next size to warn at, set at the end of `send_socket`. -/
def warnSend (s : Socket ι) : Socket ι :=
  if s.SizeWarning then
    { s with warnSize := if s.warnSize = 0 then warningSize * 2 else s.warnSize * 2 }
  else s

/-- The return value of `send_socket`. -/
def warnResult (s : Socket ι) : SocketResult :=
  if s.SizeWarning then
    .warning (if s.wbSize % 1024 = 0 then s.wbSize / 1024 else s.wbSize / 1024 + 1)
  else .ignore

variable [DecidableEq ι]

/-- Link a buffer at the end of a list. -/
def link (s : Socket ι) (priority : Priority) (wb : WriteBuffer ι) :
    Except SocketFault (Socket ι) :=
  match priority with
  | .high => (s.high.append wb).map fun l => { s with high := l, wbSize := s.wbSize + wb.sz }
  | .low => (s.low.append wb).map fun l => { s with low := l, wbSize := s.wbSize + wb.sz }

/-- `append_sendbuffer` and its variants, `sp_write` if the lists were empty (`idle`), and the
end of `send_socket`. -/
def appendSendbuffer (s : Socket ι) (p : Packet ι) (priority : Priority)
    (udpAddress : Option UdpAddress) (idle : Bool) (sent : List (Datagram ι)) :
    Except SocketFault (Socket ι × List (Datagram ι) × SocketResult) :=
  (s.link priority (.ofPacket soi p 0 udpAddress)).map fun s' =>
    (warnSend { s' with wantWrite := s'.wantWrite || idle }, sent, warnResult s')

/-- `send_socket`: the socket, the datagram if one was sent, and the return value. The result
`r` is that of the `sendto` on a UDP socket with empty lists. -/
def sendSocket (s : Socket ι) (p : Packet ι) (priority : Priority)
    (udpAddress : Option UdpAddress) (r : WriteResult) :
    Except SocketFault (Socket ι × List (Datagram ι) × SocketResult) :=
  if s.type = .invalid ∨ s.type = .halfclose ∨ s.type = .paccept then .ok (s, [], .ignore)
  else if s.type = .plisten ∨ s.type = .listen then .ok (s, [], .ignore)
  else if s.sendBufferEmpty ∧ s.type = .connected then
    -- on TCP the high list, also for a low priority
    if s.protocol = .tcp then s.appendSendbuffer soi p .high none true []
    else
      match r with
      | .wrote n =>
        if (p.object soi).sz ≤ n then
          .ok (s, [⟨udpSocketAddress s.protocol (udpAddress.getD s.udpAddress),
            p.bytes soi⟩], .ignore)
        else
          s.appendSendbuffer soi p priority (some (udpAddress.getD s.udpAddress)) true
            [⟨udpSocketAddress s.protocol (udpAddress.getD s.udpAddress), (p.bytes soi).take n⟩]
      | _ => s.appendSendbuffer soi p priority (some (udpAddress.getD s.udpAddress)) true []
  else if s.protocol = .tcp then s.appendSendbuffer soi p priority none false []
  else s.appendSendbuffer soi p priority (some (udpAddress.getD s.udpAddress)) false []

end Interface

/-- `can_direct_write`, for the id of the socket. -/
def canDirectWrite (s : Socket ι) : Bool :=
  s.sendBufferEmpty && s.type == .connected && s.dw.isNone && s.udpconnecting == 0

end Socket

end Uboss.Core
