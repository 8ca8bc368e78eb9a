import Uboss.Core.SocketMoves

/-!
# Recycling slots

Worker threads that reserve slots and send requests, and the socket thread that executes the
requests and handles events, in all interleavings. `reserve_id` draws an id, swaps the type of the
slot and stores the id in separate steps. The socket thread makes the steps of `SocketTable`; the
calls of `clear_closed_event`, and the second store of the type after `new_fd` has failed, are steps
of their own. Commands and events may follow each other in any order, and an event that is to be
dispatched once more stays the first one.

A slot is used for one socket after the other. Its sockets are told apart by their number, `life`.
The callers of the server know an id once the request that opens the socket is in the pipe, or once
it was accepted, and can use it until they forget it. `reserve_id` as called by the socket thread
for a connection that it accepts is one step: no other code of this thread runs in between.
-/

namespace Uboss.Core

open Math

/-- What a worker reserves a slot for, with the descriptor that it has. -/
inductive Opener
  | connect
  | listen (fd : ℕ)
  | bind (fd : ℕ)
  | udp (fd : ℕ) (v6 : Bool)
  deriving DecidableEq, Repr

/-- The calls that open a socket. The caller hands over the descriptor to bind. -/
inductive OpenCall
  | connect
  | listen
  | bind (fd : ℕ)
  | udp (v6 : Bool)
  deriving DecidableEq, Repr

/-- The request to be sent. -/
def Opener.request {ι : Type} (id : ℕ) : Opener → Request ι
  | .connect => .open id
  | .listen fd => .listen id fd
  | .bind fd => .bind id fd
  | .udp fd v6 => .udp id fd v6

/-- A request, for a certain socket of its slot. -/
structure Issued (ι : Type) where
  life : ℕ
  request : Request ι
  deriving DecidableEq, Repr

namespace Issued

variable {ι : Type}

/-- The id of the socket. -/
def id (p : Issued ι) : ℕ := p.request.id

/-- The slot of the socket. -/
def slot (p : Issued ι) : Fin maxSocket := hashId p.id

/-- The request opens the socket. -/
def opens (p : Issued ι) : Bool := p.request.opens?.isSome

end Issued

/-- What the socket thread does between two commands or events. -/
inductive RecyclePoller
  | idle
  /-- `new_fd` has failed; the type is to be stored again. -/
  | failing (i : Fin maxSocket) (id : Option ℕ)
  /-- Before `clear_closed_event`. -/
  | clearing (id : ℕ)
  deriving DecidableEq, Repr

namespace RecyclePoller

/-- No event of the slot is left that is to be cleared, and the type is not stored again. -/
def Cleared (events : List (Fin maxSocket × ℕ)) (i : Fin maxSocket) : RecyclePoller → Prop
  | .idle => True
  | .failing j _ => (∀ e ∈ events, e.1 ≠ i) ∧ j ≠ i
  | .clearing _ => ∀ e ∈ events, e.1 ≠ i

instance (events : List (Fin maxSocket × ℕ)) (i : Fin maxSocket) : DecidablePred (Cleared events i)
  | .idle => .isTrue trivial
  | .failing .. => inferInstanceAs (Decidable (_ ∧ _))
  | .clearing _ => inferInstanceAs (Decidable (∀ e ∈ events, e.1 ≠ i))

theorem Cleared.cases {events : List (Fin maxSocket × ℕ)} {i : Fin maxSocket} {p : RecyclePoller}
    (h : p.Cleared events i) :
    p = .idle ∨ (∀ e ∈ events, e.1 ≠ i) ∧ ∀ id, p ≠ .failing i id := by
  cases p with
  | idle => exact .inl rfl
  | failing j id => exact .inr ⟨h.1, fun id' heq => h.2 (RecyclePoller.failing.inj heq).1⟩
  | clearing id => exact .inr ⟨h, fun id' heq => by cases heq⟩

end RecyclePoller

/-- The slots, the number of the last socket of each, the workers in `reserve_id` with the id they
have drawn, those that are to store the id or to send the request, the control pipe, the ids and
sockets that callers know, and the events that were fetched. -/
structure SocketRecycle (ι : Type) where
  table : SocketTable ι
  life : Fin maxSocket → ℕ
  trying : List (Opener × Option ℕ)
  swapped : List (Issued ι)
  posting : List (Issued ι)
  pipe : List (Issued ι)
  known : List (ℕ × ℕ)
  events : List (Fin maxSocket × ℕ)
  poller : RecyclePoller

/-- The steps. -/
inductive RecycleAct (ι : Type)
  | call (c : OpenCall)
  /-- `ATOM_INC(&(ss->alloc_id))` by a worker. -/
  | draw (k : ℕ)
  /-- The slot of the id is not free. -/
  | retry (k : ℕ)
  /-- The `ATOM_CAS` succeeds. -/
  | swap (k : ℕ)
  /-- `reserve_id` returns -1. -/
  | giveUp (k : ℕ)
  /-- The stores after the `ATOM_CAS`. -/
  | store (k : ℕ)
  /-- `send_request` of a request that opens a socket. -/
  | post (k : ℕ)
  /-- A caller does not use an id any more. -/
  | forget (k : ℕ)
  /-- `send_request` of any other request, for a socket that a caller knows. -/
  | request (k : ℕ) (r : Request ι)
  /-- The `ATOM_INC` of `socket_server_udp_connect`. -/
  | udpConnect (id : ℕ)
  /-- A write by a worker that is left in `dw_buffer`. -/
  | directWrite (i : Fin maxSocket) (p : Packet ι) (offset : ℕ)
  | command (o : CommandOutcome)
  /-- The second store of the type. -/
  | failed
  /-- `clear_closed_event`. -/
  | clear
  /-- `sp_wait`. -/
  | wait (fds : List Fd)
  | event (o : EventOutcome)

/-- The step ends a call of `reserve_id`. -/
def RecycleAct.stores {ι : Type} : RecycleAct ι → Bool
  | .store _ => true
  | _ => false

/-- The step ends a command. -/
def RecycleAct.finishes {ι : Type} : RecycleAct ι → Bool
  | .failed | .clear => true
  | _ => false

namespace SocketTable

variable {ι : Type} (t : SocketTable ι)

/-- `socket_server_create`; what the fields of `m` hold is not known. -/
def create (m : Fin maxSocket → Slot ι) : SocketTable ι where
  slot i :=
    { m i with socket := { (m i).socket with type := .invalid, high := .empty, low := .empty } }
  allocId := 0
  poll _ := none
  nextFd := 0
  closed := []
  records := []

/-- `ATOM_INC(&s->udpconnecting)`, if the socket is there. -/
def incUdpconnecting (id : ℕ) : SocketTable ι :=
  if t.Named id then
    t.put (hashId id) { (t.slot (hashId id)).socket with
      udpconnecting := ((t.slot (hashId id)).socket.udpconnecting + 1) % 65536 }
  else t

/-- A worker leaves the rest of a packet to the socket thread. -/
def directWrite (i : Fin maxSocket) (p : Packet ι) (offset : ℕ) : SocketTable ι :=
  t.put i { (t.slot i).socket with dw := some (p, offset), wantWrite := true }

end SocketTable

namespace SocketRecycle

variable {ι : Type}

/-- The start. -/
def init (m : Fin maxSocket → Slot ι) : SocketRecycle ι where
  table := .create m
  life _ := 0
  trying := []
  swapped := []
  posting := []
  pipe := []
  known := []
  events := []
  poller := .idle

/-- Memory for the slots, for examples. -/
def blank (_ : Fin maxSocket) : Slot Unit :=
  ⟨⟨.invalid, .tcp, .empty, .empty, 0, 0, ⟨.tcp, 0, 0⟩, 0, none, false⟩, 0, none⟩

section Step

variable (s : SocketRecycle ι)

/-- The beginning of a call, up to `reserve_id`. -/
def call : OpenCall → SocketRecycle ι
  | .connect => { s with trying := s.trying ++ [(.connect, none)] }
  | .listen =>
    { s with
      table := s.table.openFd
      trying := s.trying ++ [(.listen s.table.nextFd, none)] }
  | .bind fd => { s with trying := s.trying ++ [(.bind fd, none)] }
  | .udp v6 =>
    { s with
      table := s.table.openFd
      trying := s.trying ++ [(.udp s.table.nextFd v6, none)] }

/-- The end of a call without a slot: a descriptor that the server has opened is closed. -/
def giveUpTable : Opener → SocketTable ι
  | .listen fd | .udp fd _ => s.table.closeFd (.server fd)
  | .connect | .bind _ => s.table

/-- A slot starts its next life. -/
def newLife (i : Fin maxSocket) : Fin maxSocket → ℕ := Function.update s.life i (s.life i + 1)

/-- The slot gets reserved for a worker. -/
def swap (k id : ℕ) (o : Opener) : SocketRecycle ι :=
  { s with
    table := s.table.setType (hashId id) .reserve
    life := s.newLife (hashId id)
    trying := s.trying.eraseIdx k
    swapped := ⟨s.life (hashId id) + 1, o.request id⟩ :: s.swapped }

/-- What the socket thread does after a command. -/
def ended : CommandEnd → RecyclePoller
  | .done => .idle
  | .closed id => .clearing id
  | .failed i id => .failing i id

/-- What the socket thread does after the second store. -/
def stored : Option ℕ → RecyclePoller
  | none => .idle
  | some id => .clearing id

/-- The test in `clear_closed_event`. -/
def clears (id : ℕ) (e : Fin maxSocket × ℕ) : Bool :=
  decide ((s.table.slot e.1).socket.type = .invalid) && decide ((s.table.slot e.1).id = id)

/-- `sp_wait` returns the slots of some registered descriptors. -/
def fetch (fds : List Fd) : List (Fin maxSocket × ℕ) :=
  (fds.filterMap s.table.poll).map fun i => (i, s.life i)

/-- The state after the first event was handled for good, with the socket that was accepted. -/
def handled (t : SocketTable ι) : Option ℕ → SocketRecycle ι
  | none => { s with table := t, events := s.events.tail }
  | some id =>
    { s with
      table := t
      life := s.newLife (hashId id)
      known := s.known ++ [(id, s.life (hashId id) + 1)]
      events := s.events.tail }

variable [DecidableEq ι] (soi : SocketObjectInterface)

/-- One step. -/
def step : RecycleAct ι → Except TableFault (SocketRecycle ι)
  | .call c => .ok (s.call c)
  | .draw k =>
    match s.trying[k]? with
    | some (o, none) =>
      .ok { s with
        table := { s.table with allocId := SocketTable.nextId s.table.allocId }
        trying := s.trying.set k (o, some (SocketTable.nextId s.table.allocId)) }
    | _ => .error .disabled
  | .retry k =>
    match s.trying[k]? with
    | some (o, some id) =>
      if (s.table.slot (hashId id)).socket.type ≠ .invalid then
        .ok { s with trying := s.trying.set k (o, none) }
      else .error .disabled
    | _ => .error .disabled
  | .swap k =>
    match s.trying[k]? with
    | some (o, some id) =>
      if (s.table.slot (hashId id)).socket.type = .invalid then .ok (s.swap k id o)
      else .error .disabled
    | _ => .error .disabled
  | .giveUp k =>
    match s.trying[k]? with
    | some (o, none) => .ok { s with table := s.giveUpTable o, trying := s.trying.eraseIdx k }
    | _ => .error .disabled
  | .store k =>
    match s.swapped[k]? with
    | some p =>
      .ok { s with
        table := s.table.nameSlot p.id
        swapped := s.swapped.eraseIdx k
        posting := p :: s.posting }
    | none => .error .disabled
  | .post k =>
    match s.posting[k]? with
    | some p =>
      .ok { s with
        posting := s.posting.eraseIdx k
        pipe := s.pipe ++ [p]
        known := s.known ++ [(p.id, p.life)] }
    | none => .error .disabled
  | .forget k => .ok { s with known := s.known.eraseIdx k }
  | .request k r =>
    match s.known[k]? with
    | some (id, life) =>
      if r.opens? = none ∧ r.id = id then .ok { s with pipe := s.pipe ++ [⟨life, r⟩] }
      else .error .disabled
    | none => .error .disabled
  | .udpConnect id => .ok { s with table := s.table.incUdpconnecting id }
  | .directWrite i p offset =>
    if (s.table.slot i).socket.canDirectWrite then
      .ok { s with table := s.table.directWrite i p offset }
    else .error .disabled
  | .command o =>
    match s.poller, s.pipe with
    | .idle, p :: pipe =>
      (s.table.ctrlCmd soi o p.request).map fun x =>
        { s with table := x.1, pipe := pipe, poller := ended x.2 }
    | _, _ => .error .disabled
  | .failed =>
    match s.poller with
    | .failing i id => .ok { s with table := s.table.setType i .invalid, poller := stored id }
    | _ => .error .disabled
  | .clear =>
    match s.poller with
    | .clearing id => .ok { s with events := s.events.eraseP (s.clears id), poller := .idle }
    | _ => .error .disabled
  | .wait fds =>
    if s.poller = .idle ∧ s.events = [] ∧ fds.Nodup then .ok { s with events := s.fetch fds }
    else .error .disabled
  | .event o =>
    match s.poller, s.events with
    | .idle, e :: _ =>
      (s.table.handleEvent e.1 soi o).map fun t =>
        -- `--ss->event_index`
        if s.table.Transfers e.1 ∧ o.io = .readAgain then { s with table := t }
        else s.handled t (s.table.acceptedId e.1 o)
    | _, _ => .error .disabled

/-- The steps that have a result, as a transition function. -/
def next (a : RecycleAct ι) : Option (SocketRecycle ι) := (s.step soi a).toOption

end Step

/-- An event is handled for good, or it stays the first one and nothing has changed. -/
theorem event_cases [DecidableEq ι] {soi : SocketObjectInterface}
    {s s' : SocketRecycle ι} {o : EventOutcome} (h : s.step soi (.event o) = .ok s') :
    s' = s ∨ ∃ e rest t, s.poller = .idle ∧ s.events = e :: rest ∧
      s.table.handleEvent e.1 soi o = .ok t ∧ s' = s.handled t (s.table.acceptedId e.1 o) := by
  simp only [step] at h
  split at h
  next e rest hpoller hevents =>
    obtain ⟨t, hevent, rfl⟩ := map_eq_ok_iff.mp h
    split_ifs with hagain
    · rw [SocketTable.handleEvent_readAgain hagain.1 hagain.2 hevent]
      exact .inl rfl
    · exact .inr ⟨e, rest, t, hpoller, hevents, hevent, rfl⟩
  · cases h

section Property

variable (s : SocketRecycle ι)

/-- The request is applied to its slot. -/
def Applies (p : Issued ι) : Prop := p.opens = true ∨ s.table.Named p.id

/-- A request or an event is applied to the socket that it is for, and a slot that is reserved only
gets the request that opens the socket. -/
def Aims : RecycleAct ι → Prop
  | .command _ => ∀ p ∈ s.pipe.head?, s.Applies p →
      s.life p.slot = p.life ∧ ((s.table.slot p.slot).socket.type = .reserve ↔ p.opens = true)
  | .event _ => ∀ e ∈ s.events.head?, (s.table.slot e.1).socket.type ≠ .invalid →
      s.life e.1 = e.2 ∧ (s.table.slot e.1).socket.type ≠ .reserve
  | _ => True

omit s in
/-- No caller uses the id, and there is no request for it. -/
def Unused (known : List (ℕ × ℕ)) (pipe : List (Issued ι)) (id : ℕ) : Prop :=
  (∀ x ∈ known, x.1 ≠ id) ∧ ∀ p ∈ pipe, p.id ≠ id

/-- The socket thread is done with the slot. -/
def Cleared (i : Fin maxSocket) : Prop := s.poller.Cleared s.events i

/-- The conditions for the steps: a slot is reserved with an id that nobody uses, and by a worker
only when the socket thread is done with it; and a request for a socket is not executed when the
slot is reserved and still has the old id. -/
def Safe : RecycleAct ι → Prop
  | .swap k => ∀ x ∈ s.trying[k]?, ∀ id ∈ x.2, Unused s.known s.pipe id ∧ s.Cleared (hashId id)
  | .command _ => ∀ p ∈ s.pipe.head?, p.opens = false → (s.table.slot p.slot).id = p.id →
      ∀ q ∈ s.swapped, q.slot ≠ p.slot
  | .event o => ∀ e ∈ s.events.head?, ∀ id ∈ s.table.acceptedId e.1 o,
      Unused s.known s.pipe id
  | _ => True

instance (known : List (ℕ × ℕ)) (pipe : List (Issued ι)) (id : ℕ) :
    Decidable (Unused known pipe id) := inferInstanceAs (Decidable (_ ∧ _))

instance (i : Fin maxSocket) : Decidable (s.Cleared i) :=
  inferInstanceAs (Decidable (s.poller.Cleared s.events i))

instance (a : RecycleAct ι) : Decidable (s.Safe a) :=
  match a with
  | .swap k => inferInstanceAs (Decidable (∀ x ∈ s.trying[k]?, _))
  | .command _ => inferInstanceAs (Decidable (∀ p ∈ s.pipe.head?, _))
  | .event _ => inferInstanceAs (Decidable (∀ e ∈ s.events.head?, _))
  | .call _ | .draw _ | .retry _ | .giveUp _ | .store _ | .post _ | .forget _ | .request .. |
    .udpConnect _ | .directWrite .. | .failed | .clear | .wait _ => .isTrue trivial

/-- `reserve_id` is one step, and so is a command or an event. -/
def Atomic (a : RecycleAct ι) : Prop :=
  (s.swapped.isEmpty = true ∨ a.stores = true) ∧ (s.poller = .idle ∨ a.finishes = true)

instance (a : RecycleAct ι) : Decidable (s.Atomic a) := inferInstanceAs (Decidable (_ ∧ _))

end Property

end SocketRecycle

end Uboss.Core
