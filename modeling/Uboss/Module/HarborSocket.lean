import Uboss.Module.HarborMessage
import Uboss.Math.Framing

/-!
# Receiving from another harbor

`push_socket_data` takes the bytes that a socket delivers and cuts them into frames. A `slave`
keeps the part of a frame that has arrived: up to three bytes of the length, or the length and
a part of the body. When a body is complete `forward_local_messsage` sends it to its local
destination.

The calls that the module makes are recorded in the order in which it makes them. Whether
`uboss_send` finds the destination is not decided here: `refused` says it for the last call
of a record.
-/

namespace Uboss.Module

/-- The `status` of a slave. -/
inductive SlaveStatus
  | wait
  | handshake
  | header
  | content
  | down
  deriving DecidableEq, Repr

/-- `struct harbor_msg`; its `size` is the length of `buffer`. -/
structure HarborMsg where
  header : RemoteMessageHeader
  buffer : List UInt8
  deriving DecidableEq, Repr

/-- `struct slave`. `queue` lists the messages of the ring buffer from the first to the last
one. -/
structure Slave where
  fd : ℕ
  queue : Option (List HarborMsg)
  status : SlaveStatus
  length : ℕ
  read : ℕ
  size : List UInt8
  recvBuffer : Option (List UInt8)
  deriving DecidableEq, Repr

/-- The arguments of `uboss_send` that a message consists of. -/
structure UbossSend where
  source : UInt32
  destination : UInt32
  type : UInt32
  session : Int32
  data : List UInt8
  deriving DecidableEq

/-- What the module reports with `uboss_error`. -/
inductive HarborError
  /-- `Invalid socket fd (%d) data` -/
  | invalidSocketFd (fd : ℕ)
  /-- `Invalid shakehand id (%d) from fd = %d , harbor = %d` -/
  | invalidShakehandId (id fd : ℕ) (remoteId : UInt8)
  /-- `Message is too long from harbor %d` -/
  | messageTooLong (id : ℕ)
  /-- `Unknown destination :%x from :%x type(%d)` -/
  | unknownDestination (destination source type : UInt32)
  /-- `remote message from :%08x to :%08x is too large.` -/
  | remoteTooLarge (source destination : UInt32)
  /-- `Drop message to harbor %d from %x to %x (session = %d, msgsz = %d)` -/
  | dropMessage (harborId : ℕ) (source destination : UInt32) (session : Int32) (msgsz : ℕ)
  deriving DecidableEq

/-- A call of the module into the framework. The size that `uboss_socket_send` is given is an
`int`. -/
inductive HarborCall
  | ubossSend (message : UbossSend)
  | ubossError (error : HarborError)
  | ubossSocketSend (fd : ℕ) (buffer : List UInt8) (sz : ℤ)
  | ubossSocketClose (fd : ℕ)
  deriving DecidableEq

/-- How a call can end without a result: a copy or a read outside of its buffer, the assertion
of `dispatch_queue`, or more rounds than the model allows. -/
inductive HarborFault
  | copyBounds
  | cookieBounds
  | emptyMessage
  | assertFd
  | outOfFuel
  deriving DecidableEq, Repr

/-- `struct harbor`, with the calls made so far. Only the slaves `s i` with
`0 < i < REMOTE_MAX` are used. -/
structure Harbor where
  id : ℕ
  s : ℕ → Slave
  calls : List HarborCall

/-- A `struct uboss_socket_message` of type `UBOSS_SOCKET_TYPE_DATA`; `ud` is the length of the
buffer. -/
structure SocketMessage where
  id : ℕ
  buffer : List UInt8

/-- Record a call. -/
def Harbor.call (h : Harbor) (c : HarborCall) : Harbor := { h with calls := h.calls ++ [c] }

/-- Write a slave. -/
def Harbor.setSlave (h : Harbor) (id : ℕ) (s : Slave) : Harbor :=
  { h with s := Function.update h.s id s }

/-- `memcpy (dst + off, src, size of src)`. -/
def memcpy (dst : List UInt8) (off : ℕ) (src : List UInt8) : Except HarborFault (List UInt8) :=
  if off + src.length ≤ dst.length then
    .ok (dst.take off ++ src ++ dst.drop (off + src.length))
  else .error .copyBounds

/-- `close_harbor`. -/
def closeHarbor (h : Harbor) (id : ℕ) : Harbor :=
  if (h.s id).fd ≠ 0 then
    (h.setSlave id { h.s id with status := .down, queue := none }).call
      (.ubossSocketClose (h.s id).fd)
  else h.setSlave id { h.s id with status := .down, queue := none }

/-- `send_remote`. The size is converted to `int` in the call of `uboss_socket_send`. -/
def sendRemote (h : Harbor) (fd : ℕ) (buffer : List UInt8) (cookie : RemoteMessageHeader) :
    Harbor :=
  if buffer.length + headerCookieLength > uint32Max then
    h.call (.ubossError (.remoteTooLarge cookie.source cookie.destination))
  else
    h.call (.ubossSocketSend fd (remoteFrame buffer cookie)
      (Int.bmod (buffer.length + headerCookieLength + 4) (2 ^ 32)))

/-- `dispatch_queue`. -/
def dispatchQueue (h : Harbor) (id : ℕ) : Except HarborFault Harbor :=
  if (h.s id).fd = 0 then .error .assertFd
  else
    match (h.s id).queue with
    | none => .ok h
    | some queue =>
      .ok ((queue.foldl (fun acc m => sendRemote acc (h.s id).fd m.buffer m.header) h).setSlave
        id { h.s id with queue := none })

/-- The message that `forward_local_messsage` passes to `uboss_send`, without the tag. -/
def localMessage (harborId : ℕ) (msg : List UInt8) (sz : ℕ) : UbossSend :=
  let header := messageToHeader (msg.drop (sz - headerCookieLength))
  { source := header.source
    destination := (header.destination &&& handleMask) |||
      (UInt32.ofNat harborId <<< handleRemoteShift)
    type := header.destination >>> handleRemoteShift
    session := header.session.toInt32
    data := msg.take (sz - headerCookieLength) }

section Receive

variable (refused : List HarborCall → Bool)

/-- `forward_local_messsage`. -/
def forwardLocalMesssage (h : Harbor) (msg : List UInt8) (sz : ℕ) :
    Except HarborFault Harbor :=
  let m := localMessage h.id msg sz
  let sent := h.call (.ubossSend { m with type := m.type ||| ptypeTagDontcopy })
  if sz < headerCookieLength then .error .cookieBounds
  else if refused sent.calls then
    let reported :=
      if m.type ≠ ptypeError then
        sent.call (.ubossSend
          { source := m.destination, destination := m.source, type := ptypeError,
            session := m.session, data := [] })
      else sent
    .ok (reported.call (.ubossError (.unknownDestination m.destination m.source m.type)))
  else .ok sent

/-- `case STATUS_CONTENT`. `again` is the next round of the `for (;;)`. -/
def pushContent (again : Harbor → List UInt8 → Except HarborFault Harbor) (id : ℕ)
    (h : Harbor) (buffer : List UInt8) : Except HarborFault Harbor :=
  let s := h.s id
  let need := s.length - s.read
  match s.recvBuffer with
  | none => .error .copyBounds
  | some recv => do
    if buffer.length < need then
      let recv ← memcpy recv s.read buffer
      return h.setSlave id { s with recvBuffer := some recv, read := s.read + buffer.length }
    else
      let recv ← memcpy recv s.read (buffer.take need)
      let h ← forwardLocalMesssage refused h recv s.length
      let h := h.setSlave id
        { s with length := 0, read := 0, recvBuffer := none, status := .header }
      if buffer.drop need = [] then return h
      else again h (buffer.drop need)

/-- The length that the bytes `size[1]`, `size[2]`, `size[3]` give. -/
def frameLength (size : List UInt8) : ℕ :=
  (size.getD 1 0).toNat <<< 16 ||| (size.getD 2 0).toNat <<< 8 ||| (size.getD 3 0).toNat

/-- `case STATUS_HEADER`, which goes through to `case STATUS_CONTENT`. -/
def pushHeader (again : Harbor → List UInt8 → Except HarborFault Harbor) (id : ℕ)
    (h : Harbor) (buffer : List UInt8) : Except HarborFault Harbor := do
  let s := h.s id
  let need := 4 - s.read
  if buffer.length < need then
    let size ← memcpy s.size s.read buffer
    return h.setSlave id { s with size := size, read := s.read + buffer.length }
  else
    let size ← memcpy s.size s.read (buffer.take need)
    if size.getD 0 0 ≠ 0 then
      return closeHarbor ((h.setSlave id { s with size := size }).call
        (.ubossError (.messageTooLong id))) id
    else
      let h := h.setSlave id
        { s with
          size := size
          length := frameLength size
          read := 0
          recvBuffer := some (List.replicate (frameLength size) 0)
          status := .content }
      if buffer.drop need = [] then return h
      else pushContent refused again id h (buffer.drop need)

/-- `case STATUS_HANDSHAKE`, which goes through to `case STATUS_HEADER` when bytes are left. -/
def pushHandshake (again : Harbor → List UInt8 → Except HarborFault Harbor) (id : ℕ)
    (h : Harbor) (buffer : List UInt8) : Except HarborFault Harbor := do
  match buffer with
  | [] => throw .emptyMessage
  | remoteId :: buffer =>
    if remoteId.toNat ≠ id then
      return closeHarbor (h.call (.ubossError (.invalidShakehandId id (h.s id).fd remoteId))) id
    else
      let h ← dispatchQueue (h.setSlave id { h.s id with status := .header }) id
      if buffer = [] then again h buffer
      else pushHeader refused again id h buffer

/-- The `for (;;)` of `push_socket_data`, at most `fuel` rounds of it. -/
def pushLoop (id : ℕ) : ℕ → Harbor → List UInt8 → Except HarborFault Harbor
  | 0, _, _ => .error .outOfFuel
  | fuel + 1, h, buffer =>
    match (h.s id).status with
    | .handshake => pushHandshake refused (pushLoop id fuel) id h buffer
    | .header => pushHeader refused (pushLoop id fuel) id h buffer
    | .content => pushContent refused (pushLoop id fuel) id h buffer
    | .wait => .ok h
    | .down => .ok h

/-- The search for the slave of a socket. -/
def Harbor.findSlave (h : Harbor) (fd : ℕ) : Option ℕ :=
  (List.range' 1 (remoteMax - 1)).find? fun i => (h.s i).fd = fd

/-- `push_socket_data`. A round that does not return takes a byte off the buffer, except for
a last round of the handshake and a round that ends an empty body. -/
def pushSocketData (h : Harbor) (message : SocketMessage) : Except HarborFault Harbor :=
  match h.findSlave message.id with
  | none => .ok (h.call (.ubossError (.invalidSocketFd message.id)))
  | some id => pushLoop refused id (message.buffer.length + 2) h message.buffer

end Receive

end Uboss.Module
