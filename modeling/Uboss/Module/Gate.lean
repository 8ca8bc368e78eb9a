import Uboss.Math.Transition
import Uboss.Module.Databuffer

/-!
# The gate

`module_gate.c`: the data of each connection is cut into packets, and a packet is sent to the broker
of the gate, to the agent of the connection or to the watchdog, to the first of them that there is.
The commands come as text, and are taken here as they are understood. The table of the connections
is a partial map, and which packets are found is recorded.
-/

namespace Uboss.Module

open Math

/-- `struct connection`. How many bytes have come is not in the source. -/
structure Connection where
  agent : UInt32
  client : UInt32
  remoteName : List UInt8
  buffer : Databuffer
  received : ℕ

/-- What the watchdog is told. -/
inductive GateReport
  /-- `%d open %d %s:0` -/
  | opened (id : ℕ) (remoteName : List UInt8)
  /-- `%d close` -/
  | closed (id : ℕ)
  /-- `%d data `, and the packet -/
  | data (id : ℕ) (packet : List UInt8)

/-- The calls that the gate makes. -/
inductive GateCall
  /-- `uboss_send` of a packet. -/
  | send (source destination type : UInt32) (packet : List UInt8)
  /-- `uboss_send` of a text. -/
  | report (watchdog : UInt32) (text : GateReport)
  | socketStart (id : ℕ)
  | socketSend (id : ℕ) (buffer : List UInt8)
  | socketClose (id : ℕ)

/-- A packet that was found, and where it starts in the stream of the connection. -/
structure Cut where
  id : ℕ
  position : ℕ
  packet : List UInt8
  deriving DecidableEq

/-- `struct gate`. What is found and which calls are made is not in the source. -/
structure Gate where
  listenId : Option ℕ
  watchdog : UInt32
  broker : UInt32
  clientTag : UInt32
  headerSize : ℕ
  maxConnection : ℕ
  count : ℕ
  conn : ℕ → Option Connection
  mp : MessagePool
  calls : List GateCall
  cuts : List Cut

/-- The messages of the gate. -/
inductive GateInput
  /-- The commands, with the services that `uboss_queryname` and the numbers in them stand for. -/
  | kick (uid : ℕ)
  | forward (id : ℕ) (agent client : UInt32)
  | broker (handle : UInt32)
  | start (uid : ℕ)
  | closeListen
  | unknown
  /-- `PTYPE_CLIENT` -/
  | client (msg : List UInt8)
  /-- `PTYPE_SOCKET` -/
  | data (id : ℕ) (buffer : List UInt8)
  | connect (id : ℕ)
  | close (id : ℕ)
  | error (id : ℕ)
  | accept (id ud : ℕ) (remoteName : List UInt8)
  | warning (id ud : ℕ)

def ptypeClient : UInt32 := 3

namespace Gate

/-- `gate_init`, with what its arguments stand for: there is no watchdog for `!`, and no socket if
`start_listen` fails. -/
def init (header : Char) (watchdog : Option UInt32) (clientTag : UInt32) (max : ℕ)
    (listenId : Option ℕ) : Option Gate :=
  if max = 0 ∨ header ≠ 'S' ∧ header ≠ 'L' ∨ watchdog = some 0 ∨ listenId = none then none
  else some
    { listenId
      watchdog := watchdog.getD 0
      broker := 0
      clientTag := if clientTag = 0 then ptypeClient else clientTag
      headerSize := if header = 'S' then 2 else 4
      maxConnection := max
      count := 0
      conn _ := none
      mp := ⟨0, []⟩
      calls := []
      cuts := [] }

variable (g : Gate) (c : Connection)

/-- A call of the core. -/
def call (a : GateCall) : Gate := { g with calls := g.calls ++ [a] }

def setConn (id : ℕ) (c : Option Connection) : Gate :=
  { g with conn := Function.update g.conn id c }

def report (text : GateReport) : Gate :=
  if g.watchdog = 0 then g else g.call (.report g.watchdog text)

def forwardAgent (fd : ℕ) (agentaddr clientaddr : UInt32) : Gate :=
  match g.conn fd with
  | none => g
  | some c => g.setConn fd (some { c with agent := agentaddr, client := clientaddr })

/-- Who gets a packet of the connection, and how. -/
def receiver (id : ℕ) : Option (List UInt8 → GateCall) :=
  if g.broker ≠ 0 then some (.send 0 g.broker g.clientTag)
  else if c.agent ≠ 0 then some (.send c.client c.agent g.clientTag)
  else if g.watchdog ≠ 0 then some fun packet => .report g.watchdog (.data id packet)
  else none

/-- `_forward`. The packet is read only if somebody gets it. -/
def forward (id size : ℕ) : Option (Gate × Connection) :=
  match g.receiver c id with
  | none => some (g, c)
  | some send => (c.buffer.read g.mp size).map fun r =>
      ({ g with mp := r.2.2 }.call (send r.1), { c with buffer := r.2.1 })

/-- A packet of this size starts with the next byte of the buffer. -/
def mark (id size : ℕ) : Gate :=
  { g with cuts := g.cuts ++ [⟨id, c.received - c.buffer.size, c.buffer.unread.take size⟩] }

/-- A round of the loop of `dispatch_message`, and whether there is another one. -/
def dispatchRound (id : ℕ) : Option (Bool × Gate × Connection) :=
  (c.buffer.readHeader g.mp g.headerSize).bind fun r =>
    let size := r.1
    let c := { c with buffer := r.2.1 }
    let g := { g with mp := r.2.2 }
    if size < 0 then some (false, g, c)
    else if 0 < size then
      if 0x1000000 ≤ size then
        (c.buffer.clear g.mp).map fun r =>
          (false, { g with mp := r.2 }.call (.socketClose id), { c with buffer := r.1 })
      else
        ((g.mark c id size.toNat).forward c id size.toNat).map fun r =>
          (true, r.1, { r.2 with buffer := r.2.buffer.reset })
    else some (true, g.mark c id 0, c)

/-- The loop of `dispatch_message`. -/
def dispatchLoop : ℕ → Gate → Connection → ℕ → Option (Gate × Connection)
  | 0, _, _, _ => none
  | rounds + 1, g, c, id =>
    (g.dispatchRound c id).bind fun r =>
      if r.1 then dispatchLoop rounds r.2.1 r.2.2 id else some r.2

/-- `dispatch_message`. Every round takes a header. -/
def dispatchMessage (id : ℕ) (data : List UInt8) : Option (Gate × Connection) :=
  (c.buffer.push g.mp data).bind fun r =>
    dispatchLoop (r.1.size + g.headerSize + 1) { g with mp := r.2 }
      { c with buffer := r.1, received := c.received + data.length } id

/-- `UBOSS_SOCKET_TYPE_CLOSE` and `UBOSS_SOCKET_TYPE_ERROR`. -/
def closed (id : ℕ) : Option Gate :=
  match g.conn id with
  | none => some g
  | some c => (c.buffer.clear g.mp).map fun r =>
      ({ g with count := g.count - 1, mp := r.2 }.setConn id none).report (.closed id)

/-- `UBOSS_SOCKET_TYPE_ACCEPT`, of a socket that is not in the table. -/
def accept (id ud : ℕ) (remoteName : List UInt8) : Option Gate :=
  if g.listenId ≠ some id then none
  else if g.count = g.maxConnection then some (g.call (.socketClose ud))
  else if (g.conn ud).isSome then none
  else some (({ g with count := g.count + 1 }.setConn ud
    (some ⟨0, 0, remoteName.take 31, .empty, 0⟩)).report (.opened ud (remoteName.take 31)))

/-- `_cb`. -/
def step : GateInput → Option Gate
  | .kick uid => some (if (g.conn uid).isSome then g.call (.socketClose uid) else g)
  | .forward id agent client => some (g.forwardAgent id agent client)
  | .broker handle => some { g with broker := handle }
  | .start uid => some (if (g.conn uid).isSome then g.call (.socketStart uid) else g)
  | .closeListen =>
    match g.listenId with
    | none => some g
    | some id => some ({ g with listenId := none }.call (.socketClose id))
  | .unknown => some g
  | .client msg =>
    let uid := leNat (msg.drop (msg.length - 4))
    some (if msg.length ≤ 4 ∨ g.conn uid = none then g
      else g.call (.socketSend uid (msg.take (msg.length - 4))))
  | .data id buffer =>
    match g.conn id with
    | none => some (g.call (.socketClose id))
    | some c => (g.dispatchMessage c id buffer).map fun r => r.1.setConn id (some r.2)
  | .connect id =>
    some (if g.listenId = some id ∨ (g.conn id).isSome then g else g.call (.socketClose id))
  | .close id => g.closed id
  | .error id => g.closed id
  | .accept id ud remoteName => g.accept id ud remoteName
  | .warning _ _ => some g

end Gate

end Uboss.Module
