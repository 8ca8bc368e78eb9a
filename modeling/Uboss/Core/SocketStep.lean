import Uboss.Core.SocketFlush
import Uboss.Core.SocketServer

/-!
# What a step can do

The write-buffer lists of the socket are well formed in every run. Under this invariant the
steps are of the kinds listed by `Change`, from which the other properties are derived.

## Main definitions

* `Inv` — the invariant of all runs
* `Change` — the kinds of steps

## Main results

* `Inv.change` — a step is one of these
* `Inv.step` — the invariant is kept
-/

namespace Uboss.Core

open Math List Socket WbList Function

/-- The two sockets differ in the type, the warning size and the UDP fields only. -/
structure Socket.SameLists {ι : Type} (x y : Socket ι) : Prop where
  protocol : x.protocol = y.protocol
  high : x.high = y.high
  low : x.low = y.low
  wbSize : x.wbSize = y.wbSize
  dw : x.dw = y.dw
  wantWrite : x.wantWrite = y.wantWrite

/-- The type changes when a socket is started or connected. -/
def Socket.Retyped {ι : Type} (x y : Socket ι) : Prop :=
  (y.type = .paccept ∧ x.type = .connected) ∨ (y.type = .plisten ∧ x.type = .listen) ∨
    (y.type = .connecting ∧ x.type = .connected)

/-- The worker is past the first `can_direct_write`, on its way to a direct write. -/
def Worker.Passed {Tid : Type} : Worker Tid → Prop
  | .tryLock _ _ | .locked _ _ | .writing _ _ => True
  | _ => False

/-- The results of the writes of the socket thread in a step. -/
def SocketAct.results {Tid : Type} : SocketAct Tid → List WriteResult
  | .command r => r.results
  | .writeEvent rs => rs
  | _ => []

/-- The address given to `socket_server_udp_send`. -/
def SocketAct.address? {Tid : Type} : SocketAct Tid → Option UdpAddress
  | .udpSend _ a _ _ => some a
  | _ => none

/-- The packet of a send command. -/
def Command.packet? {Tid : Type} : Command Tid → Option (Packet (SendTag Tid))
  | .send p _ _ => some p
  | _ => none

/-- The packet and the address of a send command. -/
def Command.sends? {Tid : Type} : Command Tid → Option (Packet (SendTag Tid) × Option UdpAddress)
  | .send p _ a => some (p, a)
  | _ => none

/-- The packet and the address of the send function that the worker is in. -/
def Worker.sends? {Tid : Type} : Worker Tid → Option (Packet (SendTag Tid) × Option UdpAddress)
  | .idle => none
  | .entered p a | .tryLock p a | .locked p a | .writing p a => some (p, a)
  | .posting c => c.sends?

namespace SocketServer

variable {Tid : Type} {soi : SocketObjectInterface} {s s' : SocketServer Tid}

/-- Nothing has happened to the socket yet, and the command that opens it is the next one. -/
structure Reserved (s : SocketServer Tid) : Prop where
  type : s.socket.type = .reserve
  poller : s.poller = .idle
  queued : s.socket.queued = []
  dw : s.socket.dw = none
  worker : ∀ t, ¬ (s.worker t).Passed
  pipe : ∃ pipe, s.pipe = .open :: pipe ∧ .open ∉ pipe

/-- The socket is not opened yet, or the command for it has been executed. -/
def Opening (s : SocketServer Tid) : Prop :=
  s.Reserved ∨ (s.socket.type ≠ .reserve ∧ .open ∉ s.pipe)

/-- The socket thread is in `force_close`. -/
def Closing (s : SocketServer Tid) : Prop := ∃ freed, s.poller = .closing freed

/-- The invariant of all runs. -/
structure Inv (soi : SocketObjectInterface) (s : SocketServer Tid) : Prop where
  socket : s.socket.Inv soi
  counted : ¬ s.Closing → s.socket.IsOpen → s.socket.Counted
  opening : s.Opening
  deciding : ∀ shutdown, s.poller = .deciding shutdown → s.socket.type ≠ .invalid
  closing : s.Closing → s.socket.queued = []
  posting : ∀ t, s.worker t ≠ .posting .open

/-- What the analysis of a step needs of the state before it. -/
structure StepReady (soi : SocketObjectInterface) (s : SocketServer Tid) : Prop where
  socket : s.socket.Inv soi
  counted : ¬ s.Closing → s.socket.IsOpen → s.socket.Counted
  head : ∀ {c : Command Tid} {pipe : List (Command Tid)},
    s.pipe = c :: pipe → c ≠ .open → s.socket.type ≠ .reserve
  deciding : ∀ {shutdown : Bool}, s.poller = .deciding shutdown → s.socket.IsOpen
  posting : ∀ t, s.worker t ≠ .posting .open

variable {c : Command Tid} {pipe : List (Command Tid)} {shutdown : Bool}

theorem directCount_le (p : Packet (SendTag Tid)) (r : WriteResult) :
    directCount soi p r ≤ (p.object soi).sz := by
  cases r with
  | wrote n => exact Nat.min_le_right ..
  | eintr | again | error => exact Nat.zero_le _

/-- An opened socket, if the command at the head of the pipe is not the one that opens it. -/
theorem Inv.isOpen_of_pipe (h : s.Inv soi) (hpipe : s.pipe = c :: pipe) (hc : c ≠ .open)
    (htype : s.socket.type ≠ .invalid) :
    s.socket.IsOpen := by
  rcases h.opening with hres | ⟨hne, -⟩
  · obtain ⟨pipe', hp, -⟩ := hres.pipe
    rw [hpipe] at hp
    exact absurd (cons_eq_cons.mp hp).1 hc
  · exact ⟨htype, hne⟩

theorem StepReady.flush_cases (h : s.StepReady soi) (hclosing : ¬ s.Closing)
    (hopen : s.socket.IsOpen) {rs : List WriteResult} {f : Flush (SendTag Tid)}
    (hf : s.socket.sendBuffer soi rs = .ok f) :
    (s.socket.mergeDw soi).Flushed f ∨ (s.socket.mergeDw soi).FlushClosed f := by
  have hmerged := merged_mergeDw soi s.socket
  exact Socket.flush_cases (hmerged.isOpen hopen) (hmerged.inv h.socket)
    (hmerged.counted (h.counted hclosing hopen)) hf

theorem not_closing_of_idle (h : s.poller = .idle) : ¬ s.Closing := by
  rintro ⟨freed, hfreed⟩
  rw [h] at hfreed
  cases hfreed

theorem not_closing_of_reporting (h : s.poller = .reporting) : ¬ s.Closing := by
  rintro ⟨freed, hfreed⟩
  rw [h] at hfreed
  cases hfreed

theorem Polled.isOpen (h : s.Polled) : s.socket.IsOpen := by
  unfold Socket.IsOpen
  rcases h.2 with h | h | h <;> simp [h]

theorem forceClose_eq (hopen : s.socket.IsOpen) :
    s.forceClose = .ok { s with
      socket := s.socket.freeWbLists
      poller := .closing s.socket.queued } := by
  unfold SocketServer.forceClose
  split
  · exact absurd ‹_› hopen.1
  · exact absurd ‹_› hopen.2
  · rfl

theorem not_closing_of_deciding (h : s.poller = .deciding shutdown) : ¬ s.Closing := by
  rintro ⟨freed, hfreed⟩
  rw [h] at hfreed
  cases hfreed

theorem Inv.isOpen_of_deciding (hs : s.Inv soi) (hpoller : s.poller = .deciding shutdown) :
    s.socket.IsOpen := by
  refine ⟨hs.deciding _ hpoller, fun hreserve => ?_⟩
  rcases hs.opening with hres | ⟨hne, -⟩
  · rw [hres.poller] at hpoller
    cases hpoller
  · exact hne hreserve

theorem Inv.stepReady (hs : s.Inv soi) : s.StepReady soi where
  socket := hs.socket
  counted := hs.counted
  head hpipe hc hreserve := (hs.isOpen_of_pipe hpipe hc (by simp [hreserve])).2 hreserve
  deciding := hs.isOpen_of_deciding
  posting := hs.posting

theorem inv_init (soi : SocketObjectInterface) (protocol : Protocol) :
    (init Tid protocol).Inv soi where
  socket := ⟨wf_empty, wf_empty, by simp [init, empty]⟩
  counted _ _ := rfl
  opening := .inl ⟨rfl, rfl, rfl, rfl, by simp [init, Worker.Passed], [], rfl, by simp⟩
  deciding shutdown h := by cases h
  closing _ := rfl
  posting t := by simp [init]

theorem canDirectWrite_iff {x : Socket (SendTag Tid)} : x.canDirectWrite = true ↔
      x.queued = [] ∧ x.type = .connected ∧ x.dw = none ∧ x.udpconnecting = 0 := by
  simp only [canDirectWrite, Bool.and_eq_true, sendBufferEmpty_iff, beq_iff_eq,
    Option.isNone_iff_eq_none, queued, append_eq_nil_iff]
  tauto

theorem Reserved.concat (h : s.Reserved) {c : Command Tid} (hc : c ≠ .open) :
    ∃ pipe, s.pipe ++ [c] = .open :: pipe ∧ .open ∉ pipe := by
  obtain ⟨pipe, hpipe, hopen⟩ := h.pipe
  exact ⟨pipe ++ [c], by simp [hpipe], by simp [hopen, hc.symm]⟩

theorem socket_inv_congr {x y : Socket (SendTag Tid)} (h : y.Inv soi) (hhigh : x.high = y.high)
    (hlow : x.low = y.low) : x.Inv soi := by
  refine ⟨?_, ?_, ?_⟩
  · rw [hhigh]
    exact h.high_wf
  · rw [hlow]
    exact h.low_wf
  · rw [hlow]
    exact h.low_unsent

theorem socket_inv_queued {x y : Socket (SendTag Tid)} {p : Packet (SendTag Tid)}
    {priority : Priority} (h : y.Inv soi) (hq : Socket.Queued soi y p priority x) :
    x.Inv soi := by
  obtain ⟨wb, rfl, hunsent, -, ⟨hhigh, hlow⟩ | ⟨-, hlow, hhigh⟩⟩ := hq.lists
  · refine ⟨?_, hlow ▸ h.low_wf, hlow ▸ h.low_unsent⟩
    rw [hhigh]
    exact wf_append ..
  · refine ⟨hhigh ▸ h.high_wf, ?_, fun wb' hwb' => ?_⟩
    · rw [hlow]
      exact wf_append ..
    · rw [hlow, mem_append, mem_singleton] at hwb'
      rcases hwb' with hwb' | rfl
      · exact h.low_unsent wb' hwb'
      · exact hunsent

theorem counted_queued {x y : Socket (SendTag Tid)} {p : Packet (SendTag Tid)}
    {priority : Priority} (h : y.Counted) (hq : Socket.Queued soi y p priority x) :
    x.Counted := by
  obtain ⟨wb, -, -, hsize, ⟨hhigh, hlow⟩ | ⟨-, hlow, hhigh⟩⟩ := hq.lists
  all_goals
    simp only [Socket.Counted, size, hhigh, hlow, hsize, map_append, map_cons,
      map_nil, sum_append, sum_cons, sum_nil] at h ⊢
    omega

theorem socket_inv_freeWbLists (x : Socket (SendTag Tid)) : x.freeWbLists.Inv soi :=
  ⟨wf_empty, wf_empty, by simp [freeWbLists, empty]⟩

theorem Inv.queued_of_open (h : s.Inv soi) {pipe : List (Command Tid)}
    (hpipe : s.pipe = .open :: pipe) : s.socket.queued = [] := by
  rcases h.opening with hres | ⟨-, hopen⟩
  · exact hres.queued
  · exact absurd (by simp [hpipe]) hopen

section Change

variable [DecidableEq Tid]

/-- The worker after the entry of a send function with a new packet. -/
structure Entered (s : SocketServer Tid) (t : Tid) (p : Packet (SendTag Tid)) (w : Worker Tid) :
    Prop where
  sender : p.tag.sender = t
  serial : p.tag.serial = s.calls.length
  next : (∃ a, w = .entered p a ∧ (s.socket.protocol = .tcp → a = none)) ∨
    w = .posting (.send p .low none)
  ordered : p.tag.ordered = true → s.socket.type = .connected ∧ w = .entered p none

/-- Where the pipe and the socket thread are after `send_buffer`: in a write event, or in the
first half of `close_socket`. -/
inductive Flushing (s : SocketServer Tid) : List (Command Tid) → Poller Tid → Prop
  | event : s.Polled → Flushing s s.pipe .idle
  | close {shutdown : Bool} {pipe : List (Command Tid)} :
      s.pipe = .close shutdown :: pipe → Flushing s pipe (.deciding shutdown)

/-- The step runs `send_buffer_` with these results: a write event, or a `close_socket` with
something in the lists, when no worker holds the lock. -/
def Flushes (s : SocketServer Tid) : SocketAct Tid → List WriteResult → Prop
  | .writeEvent rs, rs' => rs' = rs ∧ s.Polled ∧ s.lock = none
  | .command r, rs' => rs' = r.results ∧ s.poller = .idle ∧
      (∃ shutdown pipe, s.pipe = .close shutdown :: pipe) ∧ s.socket.type ≠ .invalid ∧
      s.socket.queued ≠ [] ∧ s.lock = none
  | _, _ => False

/-- The kinds of steps. -/
inductive Change (soi : SocketObjectInterface) (s : SocketServer Tid) :
    SocketAct Tid → SocketServer Tid → Prop
  /-- Nothing happens. -/
  | stay (a : SocketAct Tid) : Change soi s a s
  /-- A send function is entered. -/
  | enter {a : SocketAct Tid} {t : Tid} {p : Packet (SendTag Tid)} {w : Worker Tid} :
      s.worker t = .idle → s.socket.type ≠ .invalid → s.Entered t p w →
      w.sends? = some (p, a.address?) →
      Change soi s a (goto { s with calls := s.calls ++ [p] } t w)
  /-- The first test passes. -/
  | test {t : Tid} {r : WriteResult} {p : Packet (SendTag Tid)} {a : Option UdpAddress} :
      s.worker t = .entered p a → s.socket.canDirectWrite = true →
      Change soi s (.run t r) (s.goto t (.tryLock p a))
  /-- The first test or the lock fails. -/
  | refuse {t : Tid} {r : WriteResult} {p : Packet (SendTag Tid)} {a : Option UdpAddress} :
      s.worker t = .entered p a ∨ s.worker t = .tryLock p a →
      Change soi s (.run t r) (s.goto t (sendRequest p a))
  /-- A worker takes the lock. -/
  | lock {t : Tid} {r : WriteResult} {p : Packet (SendTag Tid)} {a : Option UdpAddress} :
      s.worker t = .tryLock p a → s.lock = none →
      Change soi s (.run t r) (goto { s with lock := some t } t (.locked p a))
  /-- The second test passes. -/
  | recheck {t : Tid} {r : WriteResult} {p : Packet (SendTag Tid)} {a : Option UdpAddress} :
      s.worker t = .locked p a → s.socket.canDirectWrite = true →
      Change soi s (.run t r) (s.goto t (.writing p a))
  /-- A worker gives the lock back without having sent its packet: the second test fails, or the
  `sendto` of `socket_server_udp_send`. -/
  | unlock {t : Tid} {r : WriteResult} {p : Packet (SendTag Tid)} {a : Option UdpAddress} :
      s.worker t = .locked p a ∨ s.worker t = .writing p a ∧ a ≠ none →
      Change soi s (.run t r) (goto { s with lock := none } t (sendRequest p a))
  /-- The direct write of `socket_server_send`. -/
  | direct {t : Tid} {r : WriteResult} {p : Packet (SendTag Tid)} {n : ℕ}
      {datagrams : List (Datagram (SendTag Tid))} {x : Socket (SendTag Tid)} :
      s.worker t = .writing p none → n ≤ (p.object soi).sz →
      (n = (p.object soi).sz ∧ x = s.socket ∨
        n < (p.object soi).sz ∧ x = { s.socket with dw := some (p, n), wantWrite := true }) →
      datagrams = (s.directSend soi t p r).datagrams →
      Change soi s (.run t r) (goto { s with
        socket := x
        lock := none
        wire := if s.socket.protocol = .tcp then s.wire ++ (p.bytes soi).take n else s.wire
        datagrams := datagrams
        kept := s.keeps p } t .idle)
  /-- The direct write of `socket_server_udp_send`. -/
  | directUdp {t : Tid} {r : WriteResult} {p : Packet (SendTag Tid)} {a : UdpAddress}
      {datagrams : List (Datagram (SendTag Tid))} :
      s.worker t = .writing p (some a) → datagrams = (s.directUdpSend soi t p a r).datagrams →
      Change soi s (.run t r)
        (goto { s with lock := none, datagrams := datagrams, kept := s.keeps p } t .idle)
  /-- A send function posts its packet. -/
  | postSend {t : Tid} {r : WriteResult} {p : Packet (SendTag Tid)} {priority : Priority}
      {a : Option UdpAddress} :
      s.worker t = .posting (.send p priority a) →
      Change soi s (.run t r)
        (goto { s with pipe := s.pipe ++ [.send p priority a], kept := s.keeps p } t .idle)
  /-- Another command is posted. -/
  | post {t : Tid} {a : SocketAct Tid} {c : Command Tid} {covered : List (Packet (SendTag Tid))} :
      c.packet? = none → c ≠ .open →
      (s.worker t = .idle ∨ s.worker t = .posting c) → covered ⊆ s.covered ++ s.kept →
      Change soi s a (goto { s with pipe := s.pipe ++ [c], covered := covered } t .idle)
  /-- `socket_server_udp_connect` up to `send_request`. -/
  | udpConnect {t : Tid} {a : SocketAct Tid} {n : ℕ} {w : Worker Tid} :
      s.worker t = .idle → (w = .idle ∨ ∃ b, w = .posting (.setUdp b)) →
      Change soi s a (goto { s with socket := { s.socket with udpconnecting := n } } t w)
  /-- The socket is opened, or that fails. -/
  | opened {a : SocketAct Tid} {pipe : List (Command Tid)} {x : Socket (SendTag Tid)} :
      s.poller = .idle → s.pipe = .open :: pipe →
      x.type ≠ .reserve → x.protocol = s.socket.protocol → x.high = s.socket.high →
      x.low = s.socket.low → (x.type ≠ .invalid → x.wbSize = 0) → x.type ≠ .halfclose →
      (x.dw = none ∨ x.dw = s.socket.dw) → (x.type = .connecting → x.wantWrite = true) →
      Change soi s a { s with pipe := pipe, socket := x }
  /-- A packet from the pipe is freed or queued. -/
  | queue {r : CommandResult} {pipe : List (Command Tid)} {p : Packet (SendTag Tid)}
      {priority : Priority} {address : Option UdpAddress} {x : Socket (SendTag Tid)}
      {datagrams : List (Datagram (SendTag Tid))} {result : SocketResult} :
      s.poller = .idle → s.pipe = .send p priority address :: pipe →
      (x = s.socket ∧ (s.socket.protocol = .tcp → Socket.Drops s.socket.type) ∨
        ¬ Socket.Drops s.socket.type ∧ Socket.Queued soi s.socket p priority x) →
      s.socket.sendSocket soi p priority address (r.results.headD .again) =
        .ok (x, datagrams, result) →
      Change soi s (.command r)
        { s with pipe := pipe, socket := x, datagrams := s.datagrams ++ datagrams }
  /-- Another command without an effect on the lists. -/
  | pop {r : CommandResult} {pipe : List (Command Tid)} {c : Command Tid}
      {x : Socket (SendTag Tid)} :
      s.poller = .idle → s.pipe = c :: pipe → c.packet? = none → c ≠ .open →
      x.SameLists s.socket → (x.type = s.socket.type ∨ x.Retyped s.socket) →
      Change soi s (.command r) { s with pipe := pipe, socket := x }
  /-- `close_socket` without `send_buffer`. -/
  | closeCmd {r : CommandResult} {pipe : List (Command Tid)} {shutdown : Bool} :
      s.poller = .idle → s.pipe = .close shutdown :: pipe → s.socket.type ≠ .invalid →
      Change soi s (.command r) { s with pipe := pipe, poller := .deciding shutdown }
  /-- `send_buffer`. -/
  | flush {a : SocketAct Tid} {pipe : List (Command Tid)} {poller : Poller Tid}
      {f : Flush (SendTag Tid)} :
      s.poller = .idle → s.lock = none → s.socket.IsOpen → s.Flushing pipe poller →
      (s.socket.mergeDw soi).Flushed f →
      s.Flushes a a.results ∧ s.socket.sendBuffer soi a.results = .ok f →
      Change soi s a { s with
        pipe := pipe
        poller := poller
        socket := f.socket
        wire := s.wire ++ f.written
        datagrams := s.datagrams ++ f.datagrams }
  /-- `send_buffer` with a `force_close`. -/
  | flushClosed {a : SocketAct Tid} {pipe : List (Command Tid)} {poller : Poller Tid}
      {f : Flush (SendTag Tid)} :
      s.poller = .idle → s.lock = none → s.socket.IsOpen → s.Flushing pipe poller →
      (s.socket.mergeDw soi).FlushClosed f →
      s.Flushes a a.results ∧ s.socket.sendBuffer soi a.results = .ok f →
      Change soi s a { s with
        pipe := pipe
        socket := f.socket
        wire := s.wire ++ f.written
        datagrams := s.datagrams ++ f.datagrams
        broken := s.broken || f.failed }
  /-- `close_socket` leaves the rest to the write events. -/
  | halfclose :
      s.poller = .deciding false → s.socket.queued ≠ [] →
      Change soi s .decide
        { s with socket := { s.socket with type := .halfclose }, poller := .idle }
  /-- `force_close` frees the lists. -/
  | forceClose {a : SocketAct Tid} {pipe : List (Command Tid)} {broken : Bool} :
      ¬ s.Closing → s.socket.IsOpen →
      (pipe = s.pipe ∨ s.pipe = .start :: pipe) →
      (broken = true ∨ broken = s.broken ∧ (s.poller = .deciding false ∧ s.socket.queued = [] ∨
          s.socket.type ≠ .connected ∧ s.socket.type ≠ .halfclose)) →
      Change soi s a { s with
        pipe := pipe
        broken := broken
        socket := s.socket.freeWbLists
        poller := .closing s.socket.queued }
  /-- The connection is established. -/
  | connected {a : SocketAct Tid} {x : Socket (SendTag Tid)} :
      s.poller = .idle → x.SameLists s.socket → x.Retyped s.socket → x.type = .connected →
      Change soi s a { s with socket := x, poller := .reporting }
  /-- The write event is turned off if the lists are empty. -/
  | reported {b : Bool} :
      s.poller = .reporting →
      (s.socket.queued = [] ∧ b = false ∨ b = s.socket.wantWrite) →
      Change soi s .reported { s with socket := { s.socket with wantWrite := b }, poller := .idle }
  /-- `force_close` closes the socket. -/
  | closed {freed : List (WriteBuffer (SendTag Tid))} :
      s.poller = .closing freed → s.lock = none →
      Change soi s .closed { s with socket := s.socket.closeFd, poller := .idle }

section OfStep

variable {t : Tid} {a : SocketAct Tid}

theorem change_enter {ordered : Bool} {buffer : ℕ} {sz : ℤ}
    {next : Packet (SendTag Tid) → Worker Tid}
    (hnext : ∀ p, (∃ b, next p = .entered p b ∧ (s.socket.protocol = .tcp → b = none)) ∨
      next p = .posting (.send p .low none))
    (hordered : ∀ p, ordered = true → s.socket.type = .connected ∧ next p = .entered p none)
    (hsends : ∀ p, (next p).sends? = some (p, a.address?))
    (h : s.enter t ordered buffer sz next = .ok s') : Change soi s a s' := by
  unfold enter at h
  split at h
  next hidle =>
    split_ifs at h with htype
    · cases h
      exact .stay a
    · cases h
      exact .enter hidle htype ⟨rfl, rfl, hnext _, hordered _⟩ (hsends _)
  next => cases h

theorem change_request {covered : List (Packet (SendTag Tid))} (hc : c.packet? = none)
    (hopen : c ≠ .open) (hcovered : covered ⊆ s.covered ++ s.kept)
    (h : request { s with covered := covered } t c = .ok s') : Change soi s a s' := by
  unfold request at h
  split at h
  next hidle =>
    cases h
    have hpost : Change soi s a _ := .post hc hopen (.inl hidle) hcovered
    rwa [goto, show update s.worker t .idle = s.worker from
      update_eq_self_iff.mpr hidle.symm] at hpost
  next => cases h

theorem change_directSend {p : Packet (SendTag Tid)} {r : WriteResult}
    (ht : s.worker t = .writing p none) : Change soi s (.run t r) (s.directSend soi t p r) := by
  refine .direct ht (directCount_le p r) ?_ rfl
  split_ifs with hall
  · exact .inl ⟨hall, rfl⟩
  · exact .inr ⟨Nat.lt_of_le_of_ne (directCount_le p r) hall, rfl⟩

theorem change_run {r : WriteResult} (hposting : ∀ t, s.worker t ≠ .posting .open)
    (h : s.run soi t r = .ok s') : Change soi s (.run t r) s' := by
  unfold run at h
  split at h
  next => cases h
  next p a ht =>
    cases h
    split_ifs with hcan
    · exact .test ht hcan
    · exact .refuse (.inl ht)
  next p a ht =>
    cases h
    split
    next hlock => exact .lock ht hlock
    next => exact .refuse (.inr ht)
  next p a ht =>
    cases h
    split_ifs with hcan
    · exact .recheck ht hcan
    · exact .unlock (.inl ht)
  next p ht =>
    cases h
    exact change_directSend ht
  next p a ht =>
    cases h
    cases r with
    | wrote n => exact .directUdp ht rfl
    | eintr | again | error => exact .unlock (.inr ⟨ht, by simp⟩)
  next c ht =>
    cases h
    cases c with
    | send p priority a => exact .postSend ht
    | «open» => exact absurd ht (hposting t)
    | close shutdown => exact .post rfl (by simp) (.inr ht) (subset_append_left ..)
    | start => exact .post rfl (by simp) (.inr ht) (subset_append_left ..)
    | setUdp b => exact .post rfl (by simp) (.inr ht) (subset_append_left ..)

theorem change_newFd {opened : Option SocketType} (hpoller : s.poller = .idle)
    (hpipe : s.pipe = .open :: pipe) (h : newFd { s with pipe := pipe } opened = .ok s') :
    Change soi s a s' := by
  unfold newFd at h
  split at h
  · cases h
    exact .opened hpoller hpipe (by simp) rfl rfl rfl (by simp) (by simp) (.inr rfl) (by simp)
  · split_ifs at h with htype
    cases h
    refine .opened hpoller hpipe ?_ rfl rfl rfl (fun _ => rfl) ?_ (.inl rfl) (by simp)
    · rintro rfl
      simp at htype
    · rintro rfl
      simp at htype

theorem change_sendSocket (hs : s.StepReady soi) {r : CommandResult} {p : Packet (SendTag Tid)}
    {priority : Priority} {address : Option UdpAddress} (hpoller : s.poller = .idle)
    (hpipe : s.pipe = .send p priority address :: pipe)
    (h : ctrlCmd soi { s with pipe := pipe } r (.send p priority address) = .ok s') :
    Change soi s (.command r) s' := by
  obtain ⟨x, hx, rfl⟩ := map_eq_ok_iff.mp h
  obtain ⟨y, hy, hcases⟩ := sendSocket_cases hs.socket p priority address (r.results.headD .again)
  obtain rfl : x = y := Except.ok.inj (hx.symm.trans hy)
  exact .queue hpoller hpipe hcases hx

theorem change_closeSocket (hs : s.StepReady soi) {r : CommandResult} (hpoller : s.poller = .idle)
    (hpipe : s.pipe = .close shutdown :: pipe)
    (h : closeSocket soi { s with pipe := pipe } shutdown r.results = .ok s') :
    Change soi s (.command r) s' := by
  unfold closeSocket at h
  split_ifs at h with htype hempty
  · cases h
    exact .pop (c := .close shutdown) hpoller hpipe rfl (by simp) ⟨rfl, rfl, rfl, rfl, rfl, rfl⟩
      (.inl rfl)
  · cases h
    exact .closeCmd hpoller hpipe htype
  · obtain ⟨x, hx, rfl⟩ := map_eq_ok_iff.mp h
    unfold sendBuffer at hx
    split at hx
    · cases hx
      exact .closeCmd hpoller hpipe htype
    next hlock =>
      obtain ⟨f, hf, rfl⟩ := map_eq_ok_iff.mp hx
      have hopen : s.socket.IsOpen := ⟨htype, hs.head hpipe (by simp)⟩
      have hflushes : s.Flushes (.command r) r.results := by
        refine ⟨rfl, hpoller, ⟨shutdown, pipe, hpipe⟩, htype, fun hnil => hempty ?_, hlock⟩
        exact sendBufferEmpty_iff.mpr (append_eq_nil_iff.mp hnil)
      rcases hs.flush_cases (not_closing_of_idle hpoller) hopen hf with hflushed | hclosed
      · have hchange : Change soi s (.command r) _ :=
          .flush hpoller hlock hopen (.close hpipe) hflushed ⟨hflushes, hf⟩
        simpa [hflushed.result, hflushed.failed] using hchange
      · have hchange : Change soi s (.command r) _ :=
          .flushClosed hpoller hlock hopen (.close hpipe) hclosed ⟨hflushes, hf⟩
        simpa [hclosed.result] using hchange

theorem change_writeEvent (hs : s.StepReady soi) {rs : List WriteResult}
    {x : SocketServer Tid × SocketResult}
    (hpolled : s.Polled) (h : s.sendBuffer soi rs = .ok x) :
    Change soi s (.writeEvent rs) x.1 := by
  have hpoller := hpolled.1
  have hopen := hpolled.isOpen
  unfold sendBuffer at h
  split at h
  · cases h
    exact .stay _
  next hlock =>
    obtain ⟨f, hf, rfl⟩ := map_eq_ok_iff.mp h
    rcases hs.flush_cases (not_closing_of_idle hpoller) hopen hf with hflushed | hclosed
    · have hchange : Change soi s (.writeEvent rs) _ :=
        .flush hpoller hlock hopen (.event hpolled) hflushed ⟨⟨rfl, hpolled, hlock⟩, hf⟩
      simpa [hflushed.failed, hpoller] using hchange
    · exact .flushClosed hpoller hlock hopen (.event hpolled) hclosed ⟨⟨rfl, hpolled, hlock⟩, hf⟩

theorem change_startSocket {r : CommandResult} (hpoller : s.poller = .idle)
    (hpipe : s.pipe = .start :: pipe) (h : startSocket { s with pipe := pipe } r.added = .ok s') :
    Change soi s (.command r) s' := by
  have hlists : ∀ type, Socket.SameLists { s.socket with type := type } s.socket :=
    fun _ => ⟨rfl, rfl, rfl, rfl, rfl, rfl⟩
  unfold startSocket at h
  split_ifs at h with htype hadded haccept
  · cases h
    refine .pop hpoller hpipe rfl (by simp) (hlists .connected) (.inr ?_)
    exact .inl ⟨haccept, rfl⟩
  · cases h
    refine .pop hpoller hpipe rfl (by simp) (hlists .listen) (.inr ?_)
    exact .inr (.inl ⟨htype.resolve_left haccept, rfl⟩)
  · have htype' : s.socket.type = .paccept ∨ s.socket.type = .plisten := htype
    have hopen : s.socket.IsOpen := by
      unfold Socket.IsOpen
      rcases htype' with h | h <;> simp [h]
    have hclose := forceClose_eq (s := { s with pipe := pipe }) hopen
    rw [hclose] at h
    cases h
    refine .forceClose (not_closing_of_idle hpoller) hopen (.inr hpipe) (.inr ⟨rfl, .inr ?_⟩)
    rcases htype' with h | h <;> simp [h]
  · cases h
    exact .pop hpoller hpipe rfl (by simp) ⟨rfl, rfl, rfl, rfl, rfl, rfl⟩ (.inl rfl)

theorem change_setUdpAddress {r : CommandResult} {b : UdpAddress} (hpoller : s.poller = .idle)
    (hpipe : s.pipe = .setUdp b :: pipe) :
    Change soi s (.command r) (setUdpAddress { s with pipe := pipe } b) := by
  unfold setUdpAddress
  split_ifs
  all_goals exact .pop hpoller hpipe rfl (by simp) ⟨rfl, rfl, rfl, rfl, rfl, rfl⟩ (.inl rfl)

theorem change_ctrlCmd (hs : s.StepReady soi) {r : CommandResult} (hpoller : s.poller = .idle)
    (hpipe : s.pipe = c :: pipe) (h : ctrlCmd soi { s with pipe := pipe } r c = .ok s') :
    Change soi s (.command r) s' := by
  cases c with
  | «open» => exact change_newFd hpoller hpipe h
  | send p priority address => exact change_sendSocket hs hpoller hpipe h
  | close shutdown => exact change_closeSocket hs hpoller hpipe h
  | start => exact change_startSocket hpoller hpipe h
  | setUdp b =>
    cases h
    exact change_setUdpAddress hpoller hpipe

theorem change_decide (hopen : s.socket.IsOpen) (hpoller : s.poller = .deciding shutdown)
    (h : s.closeDecide shutdown = .ok s') :
    Change soi s .decide s' := by
  unfold closeDecide at h
  split_ifs at h with hdecide
  · have hclose := forceClose_eq
      (s := { s with broken := s.broken || shutdown, poller := .idle }) hopen
    rw [hclose] at h
    cases h
    refine .forceClose (not_closing_of_deciding hpoller) hopen (.inl rfl) ?_
    cases shutdown with
    | true => exact .inl (Bool.or_true _)
    | false =>
      have hempty := sendBufferEmpty_iff.mp (hdecide.resolve_left (by simp))
      exact .inr ⟨Bool.or_false _, .inl ⟨hpoller, by simp [queued, hempty]⟩⟩
  · cases h
    rw [not_or] at hdecide
    obtain rfl : shutdown = false := by simpa using hdecide.1
    refine .halfclose hpoller fun hnil => hdecide.2 (sendBufferEmpty_iff.mpr ?_)
    exact append_eq_nil_iff.mp hnil

/-- Every step is of one of the kinds. -/
theorem StepReady.change (hs : s.StepReady soi) (h : s.step soi a = .ok s') :
    Change soi s a s' := by
  cases a with
  | send t buffer sz =>
    exact change_enter (fun p => .inl ⟨none, rfl, fun _ => rfl⟩)
      (fun p hp => ⟨of_decide_eq_true hp, rfl⟩) (fun _ => rfl) h
  | sendLowpriority t buffer sz =>
    exact change_enter (fun p => .inr rfl) (fun p hp => by simp at hp) (fun _ => rfl) h
  | udpSend t address buffer sz =>
    simp only [SocketServer.step] at h
    split_ifs at h with htcp
    exact change_enter (fun p => .inl ⟨some address, rfl, fun h => absurd (.inl h) htcp⟩)
      (fun p hp => by simp at hp) (fun _ => rfl) h
  | udpConnect t address =>
    simp only [SocketServer.step] at h
    split at h
    next hidle _ =>
      split_ifs at h with htype
      · cases h
        exact .stay _
      · cases h
        cases address with
        | none => exact .udpConnect hidle (.inl rfl)
        | some b => exact .udpConnect hidle (.inr ⟨b, rfl⟩)
    next => cases h
  | close t shutdown =>
    refine change_request rfl (by simp) ?_ h
    split_ifs
    · exact subset_append_left ..
    · exact append_subset.mpr ⟨subset_append_left ..,
        List.Subset.trans filter_sublist.subset (subset_append_right ..)⟩
  | start t =>
    have hcovered : s.covered ⊆ s.covered ++ s.kept := subset_append_left ..
    exact change_request rfl (by simp) hcovered h
  | run t r => exact change_run hs.posting h
  | command r =>
    simp only [SocketServer.step] at h
    split at h
    next hpoller hpipe => exact change_ctrlCmd hs hpoller hpipe h
    next => cases h
  | writeEvent rs =>
    simp only [SocketServer.step] at h
    split_ifs at h with hpolled
    obtain ⟨x, hx, rfl⟩ := map_eq_ok_iff.mp h
    exact change_writeEvent hs hpolled hx
  | hangup =>
    simp only [SocketServer.step] at h
    split_ifs at h with hpolled
    rw [forceClose_eq (s := { s with broken := true }) hpolled.isOpen] at h
    cases h
    exact .forceClose (not_closing_of_idle hpolled.1) hpolled.isOpen (.inl rfl) (.inl rfl)
  | connectEvent ok =>
    simp only [SocketServer.step] at h
    split_ifs at h with hpolled
    obtain ⟨hpoller, htype⟩ := hpolled
    unfold reportConnect at h
    split_ifs at h with hok
    · cases h
      exact .connected hpoller ⟨rfl, rfl, rfl, rfl, rfl, rfl⟩ (.inr (.inr ⟨htype, rfl⟩)) rfl
    · have hopen : s.socket.IsOpen := by simp [Socket.IsOpen, htype]
      rw [forceClose_eq hopen] at h
      cases h
      exact .forceClose (not_closing_of_idle hpoller) hopen (.inl rfl)
        (.inr ⟨rfl, .inr (by simp [htype])⟩)
  | decide =>
    simp only [SocketServer.step] at h
    split at h
    next hpoller => exact change_decide (hs.deciding hpoller) hpoller h
    next => cases h
  | reported =>
    simp only [SocketServer.step] at h
    split at h
    next hpoller =>
      cases h
      refine .reported hpoller ?_
      split_ifs with hempty
      · refine .inl ⟨?_, rfl⟩
        exact append_eq_nil_iff.mpr (sendBufferEmpty_iff.mp hempty)
      · exact .inr rfl
    next => cases h
  | closed =>
    simp only [SocketServer.step] at h
    split at h
    next hpoller hlock =>
      cases h
      exact .closed hpoller hlock
    next => cases h

/-- Every step in a run is of one of the kinds. -/
theorem Inv.change (hs : s.Inv soi) (h : s.step soi a = .ok s') : Change soi s a s' :=
  hs.stepReady.change h

end OfStep

section OfChange

variable {a : SocketAct Tid}

theorem passed_update {t : Tid} {w : Worker Tid} (h : ∀ u, ¬ (s.worker u).Passed)
    (hw : ¬ w.Passed) (u : Tid) : ¬ (update s.worker t w u).Passed :=
  (forall_update_iff s.worker (fun _ w => ¬ Worker.Passed w)).mpr ⟨hw, fun u _ => h u⟩ u

theorem opened_change (htype : s.socket.type ≠ .reserve) (hopen : .open ∉ s.pipe)
    (hchange : Change soi s a s') : s'.socket.type ≠ .reserve ∧ .open ∉ s'.pipe := by
  have htail : ∀ {c pipe}, s.pipe = c :: pipe → .open ∉ pipe := by
    intro c pipe hpipe h
    exact hopen (by simp [hpipe, h])
  have hconcat : ∀ {c}, c ≠ .open → .open ∉ s.pipe ++ [c] := by
    intro c hc
    simp [hopen, hc.symm]
  have hflushing : ∀ {pipe poller}, s.Flushing pipe poller → .open ∉ pipe := by
    intro pipe poller h
    cases h with
    | event => exact hopen
    | close hpipe => exact htail hpipe
  cases hchange with
  | postSend => exact ⟨htype, hconcat (by simp)⟩
  | post _ hc => exact ⟨htype, hconcat hc⟩
  | direct _ _ hx =>
    rcases hx with ⟨-, rfl⟩ | ⟨-, rfl⟩
    · exact ⟨htype, hopen⟩
    · exact ⟨htype, hopen⟩
  | opened _ hpipe htype' => exact ⟨htype', htail hpipe⟩
  | queue _ hpipe hx =>
    rcases hx with ⟨rfl, -⟩ | ⟨-, hq⟩
    · exact ⟨htype, htail hpipe⟩
    · exact ⟨hq.same.type ▸ htype, htail hpipe⟩
  | pop _ hpipe _ _ _ hx =>
    refine ⟨?_, htail hpipe⟩
    rcases hx with h | ⟨-, h⟩ | ⟨-, h⟩ | ⟨-, h⟩ <;> simp [h, htype]
  | closeCmd _ hpipe => exact ⟨htype, htail hpipe⟩
  | flush _ _ hisopen hflush hf =>
    refine ⟨?_, hflushing hflush⟩
    rw [show _ = _ from hf.type, (merged_mergeDw soi s.socket).type]
    exact htype
  | flushClosed _ _ _ hflush hf =>
    refine ⟨?_, hflushing hflush⟩
    simp [hf.socket.1]
  | halfclose => exact ⟨by simp, hopen⟩
  | forceClose _ _ hpipe =>
    refine ⟨htype, ?_⟩
    rcases hpipe with rfl | hpipe
    · exact hopen
    · exact htail hpipe
  | connected _ _ hx =>
    refine ⟨?_, hopen⟩
    rcases hx with ⟨-, h⟩ | ⟨-, h⟩ | ⟨-, h⟩ <;> simp [h]
  | closed => exact ⟨by simp [closeFd], hopen⟩
  | _ => exact ⟨htype, hopen⟩

theorem Opening.change (h : s.Opening) (hchange : Change soi s a s') : s'.Opening := by
  rcases h with hres | ⟨htype, hopen⟩
  · -- before the socket is opened only the workers move
    have hnot : ¬ s.socket.IsOpen := fun h => h.2 hres.type
    have hhead : ∀ {c pipe}, s.pipe = c :: pipe → c = .open := by
      intro c pipe hpipe
      obtain ⟨pipe', hpipe', -⟩ := hres.pipe
      rw [hpipe] at hpipe'
      exact (cons_eq_cons.mp hpipe').1
    have hcan : s.socket.canDirectWrite ≠ true := fun h => by
      have := (canDirectWrite_iff.mp h).2.1
      rw [hres.type] at this
      cases this
    have hpassed : ∀ {t w}, s.worker t = w → ¬ w.Passed := fun h => h ▸ hres.worker _
    cases hchange with
    | stay => exact .inl hres
    | enter _ _ hentered =>
      refine .inl ⟨hres.type, hres.poller, hres.queued, hres.dw, passed_update hres.worker ?_,
        hres.pipe⟩
      rcases hentered.next with ⟨b, rfl, -⟩ | rfl <;> simp [Worker.Passed]
    | test _ h => exact absurd h hcan
    | refuse =>
      exact .inl ⟨hres.type, hres.poller, hres.queued, hres.dw,
        passed_update hres.worker (by simp [sendRequest, Worker.Passed]), hres.pipe⟩
    | lock ht => exact absurd trivial (hpassed ht)
    | recheck _ h => exact absurd h hcan
    | unlock ht =>
      rcases ht with ht | ⟨ht, -⟩ <;> exact absurd trivial (hpassed ht)
    | direct ht => exact absurd trivial (hpassed ht)
    | directUdp ht => exact absurd trivial (hpassed ht)
    | postSend ht =>
      exact .inl ⟨hres.type, hres.poller, hres.queued, hres.dw,
        passed_update hres.worker (by simp [Worker.Passed]), hres.concat (by simp)⟩
    | post _ hc =>
      exact .inl ⟨hres.type, hres.poller, hres.queued, hres.dw,
        passed_update hres.worker (by simp [Worker.Passed]), hres.concat hc⟩
    | udpConnect _ hw =>
      refine .inl ⟨hres.type, hres.poller, hres.queued, hres.dw, passed_update hres.worker ?_,
        hres.pipe⟩
      rcases hw with rfl | ⟨b, rfl⟩ <;> simp [Worker.Passed]
    | opened _ hpipe htype =>
      obtain ⟨pipe, hpipe', hopen⟩ := hres.pipe
      rw [hpipe] at hpipe'
      exact .inr ⟨htype, (cons_eq_cons.mp hpipe').2 ▸ hopen⟩
    | queue _ hpipe => cases hhead hpipe
    | pop _ hpipe _ hc => exact absurd (hhead hpipe) hc
    | closeCmd _ hpipe => cases hhead hpipe
    | flush _ _ hopen => exact absurd hopen hnot
    | flushClosed _ _ hopen => exact absurd hopen hnot
    | halfclose hpoller =>
      rw [hres.poller] at hpoller
      cases hpoller
    | forceClose _ hopen => exact absurd hopen hnot
    | connected _ _ hretyped =>
      rcases hretyped with ⟨h, -⟩ | ⟨h, -⟩ | ⟨h, -⟩ <;> rw [hres.type] at h <;> cases h
    | reported hpoller | closed hpoller =>
      rw [hres.poller] at hpoller
      cases hpoller
  · exact .inr (opened_change htype hopen hchange)

theorem socket_inv_change (h : s.socket.Inv soi) (hchange : Change soi s a s') :
    s'.socket.Inv soi := by
  have hmerged := (merged_mergeDw soi s.socket).inv h
  cases hchange with
  | direct _ _ hx =>
    rcases hx with ⟨-, rfl⟩ | ⟨-, rfl⟩
    · exact h
    · exact socket_inv_congr h rfl rfl
  | udpConnect => exact socket_inv_congr h rfl rfl
  | opened _ _ _ _ hhigh hlow => exact socket_inv_congr h hhigh hlow
  | queue _ _ hx =>
    rcases hx with ⟨rfl, -⟩ | ⟨-, hq⟩
    · exact h
    · exact socket_inv_queued h hq
  | pop _ _ _ _ hx => exact socket_inv_congr h hx.high hx.low
  | flush _ _ _ _ hf =>
    exact ⟨hf.high_wf, hf.low_wf, fun wb hwb => hmerged.low_unsent wb (hf.low_suffix.subset hwb)⟩
  | flushClosed _ _ _ _ hf =>
    obtain ⟨-, hhigh, hlow, -⟩ := hf.socket
    exact socket_inv_congr (socket_inv_freeWbLists s.socket) hhigh hlow
  | halfclose => exact socket_inv_congr h rfl rfl
  | forceClose => exact socket_inv_freeWbLists s.socket
  | connected _ hx => exact socket_inv_congr h hx.high hx.low
  | reported => exact socket_inv_congr h rfl rfl
  | closed => exact socket_inv_congr h rfl rfl
  | _ => exact h

/-- `wb_size` stays exact, if the lists are empty when the socket is opened. -/
theorem StepReady.counted_change (h : s.StepReady soi)
    (hnew : ∀ pipe, s.pipe = .open :: pipe → s.socket.queued = []) (hchange : Change soi s a s')
    (hclosing : ¬ s'.Closing) (hopen : s'.socket.IsOpen) : s'.socket.Counted := by
  have htyped : ∀ {x : Socket (SendTag Tid)}, x.IsOpen → x.type = s.socket.type →
      s.socket.IsOpen := fun hx htype => ⟨htype ▸ hx.1, htype ▸ hx.2⟩
  have hretyped : ∀ {x : Socket (SendTag Tid)}, x.Retyped s.socket → s.socket.IsOpen := by
    intro x hx
    unfold Socket.IsOpen
    rcases hx with ⟨heq, -⟩ | ⟨heq, -⟩ | ⟨heq, -⟩ <;> simp [heq]
  cases hchange with
  | direct _ _ hx =>
    rcases hx with ⟨-, rfl⟩ | ⟨-, rfl⟩
    · exact h.counted hclosing hopen
    · exact h.counted hclosing hopen
  | opened hpoller hpipe _ _ hhigh hlow hsize =>
    obtain ⟨hnil, hnil'⟩ := append_eq_nil_iff.mp (hnew _ hpipe)
    simp [Socket.Counted, size, hhigh, hlow, hnil, hnil', hsize hopen.1]
  | queue hpoller _ hx =>
    rcases hx with ⟨rfl, -⟩ | ⟨-, hq⟩
    · exact h.counted hclosing hopen
    · exact counted_queued (h.counted hclosing (htyped hopen hq.same.type)) hq
  | pop hpoller _ _ _ hx hx' =>
    rw [Socket.Counted, hx.wbSize, hx.high, hx.low]
    exact h.counted hclosing (hx'.elim (htyped hopen) hretyped)
  | closeCmd hpoller => exact h.counted (not_closing_of_idle hpoller) hopen
  | flush _ _ _ _ hf => exact hf.counted
  | flushClosed _ _ _ _ hf => exact absurd hf.socket.1 hopen.1
  | halfclose hpoller =>
    exact h.counted (not_closing_of_deciding hpoller) (h.deciding hpoller)
  | forceClose => exact absurd ⟨_, rfl⟩ hclosing
  | connected hpoller hx hx' =>
    rw [Socket.Counted, hx.wbSize, hx.high, hx.low]
    exact h.counted (not_closing_of_idle hpoller) (hretyped hx')
  | reported hpoller => exact h.counted (not_closing_of_reporting hpoller) hopen
  | closed => exact absurd rfl hopen.1
  | _ => exact h.counted hclosing hopen

theorem Inv.deciding_change (h : s.Inv soi) (hchange : Change soi s a s') {shutdown : Bool}
    (hpoller : s'.poller = .deciding shutdown) : s'.socket.type ≠ .invalid := by
  cases hchange with
  | direct _ _ hx =>
    rcases hx with ⟨-, rfl⟩ | ⟨-, rfl⟩
    · exact h.deciding _ hpoller
    · exact h.deciding _ hpoller
  | flush _ _ hopen _ hf =>
    rw [show _ = _ from hf.type, (merged_mergeDw soi s.socket).type]
    exact hopen.1
  | opened hidle | queue hidle | pop hidle | flushClosed hidle =>
    have hpoller' : s.poller = .deciding shutdown := hpoller
    rw [hidle] at hpoller'
    cases hpoller'
  | closeCmd _ _ htype => exact htype
  | halfclose | forceClose | connected | reported | closed => cases hpoller
  | _ => exact h.deciding _ hpoller

theorem closing_change (h : s.Closing → s.socket.queued = []) (hchange : Change soi s a s')
    (hclosing : s'.Closing) : s'.socket.queued = [] := by
  cases hchange with
  | direct _ _ hx =>
    rcases hx with ⟨-, rfl⟩ | ⟨-, rfl⟩
    · exact h hclosing
    · exact h hclosing
  | opened hidle | queue hidle | pop hidle | flushClosed hidle =>
    exact absurd hclosing (not_closing_of_idle hidle)
  | flush _ _ _ hflushing =>
    obtain ⟨freed, hfreed⟩ := hclosing
    cases hflushing with
    | event => cases hfreed
    | close => cases hfreed
  | forceClose => rfl
  | closeCmd | halfclose | connected | reported | closed =>
    obtain ⟨freed, hfreed⟩ := hclosing
    cases hfreed
  | _ => exact h hclosing

theorem posting_change (h : ∀ t, s.worker t ≠ .posting .open) (hchange : Change soi s a s')
    (t : Tid) : s'.worker t ≠ .posting .open := by
  have hgoto : ∀ {u w}, w ≠ .posting .open → update s.worker u w t ≠ .posting .open := fun hw =>
    (forall_update_iff s.worker (fun _ w => w ≠ Worker.posting .open)).mpr ⟨hw, fun u _ => h u⟩ t
  cases hchange with
  | enter _ _ hentered =>
    apply hgoto
    rcases hentered.next with ⟨b, rfl, -⟩ | rfl <;> simp
  | test | lock | recheck => exact hgoto (by simp)
  | refuse | unlock => exact hgoto (by simp [sendRequest])
  | direct | directUdp | postSend | post => exact hgoto (by simp)
  | udpConnect _ hw =>
    apply hgoto
    rcases hw with rfl | ⟨b, rfl⟩ <;> simp
  | _ => exact h t

theorem protocol_change (hchange : Change soi s a s') : s'.socket.protocol = s.socket.protocol := by
  cases hchange with
  | direct _ _ hx => rcases hx with ⟨-, rfl⟩ | ⟨-, rfl⟩ <;> rfl
  | opened _ _ _ hprotocol => exact hprotocol
  | queue _ _ hx =>
    rcases hx with ⟨rfl, -⟩ | ⟨-, hq⟩
    · rfl
    · exact hq.same.protocol
  | pop _ _ _ _ hx => exact hx.protocol
  | flush _ _ _ _ hf => exact hf.protocol.trans (merged_mergeDw soi s.socket).protocol
  | flushClosed _ _ _ _ hf => exact hf.protocol.trans (merged_mergeDw soi s.socket).protocol
  | connected _ hx => exact hx.protocol
  | _ => rfl

theorem Inv.of_change (h : s.Inv soi) (hchange : Change soi s a s') : s'.Inv soi :=
  ⟨socket_inv_change h.socket hchange,
    h.stepReady.counted_change (fun _ => h.queued_of_open) hchange, h.opening.change hchange,
    fun _ => h.deciding_change hchange, closing_change h.closing hchange,
    posting_change h.posting hchange⟩

/-- The invariant is kept by every step. -/
theorem Inv.step (h : s.Inv soi) (hstep : s.step soi a = .ok s') : s'.Inv soi :=
  h.of_change (h.change hstep)

theorem inv_of_reachable {protocol : Protocol}
    (h : Reachable (next soi) (init Tid protocol) s) : s.Inv soi :=
  h.invariant (inv_init soi protocol) fun hnext hs => hs.step (toOption_eq_some_iff.mp hnext)

end OfChange

end Change

end SocketServer

end Uboss.Core
