import Uboss.Core.SocketLives

/-!
# Requests to connect a UDP socket

`socket_server_udp_connect` raises `udpconnecting` under `dw_lock`, looks the address up and sends a
request, and the socket thread lowers the counter when it has stored the address. While the counter
is not zero nothing is written directly.

A call takes four steps here, between which the other threads run: the test with the lock, the
`ATOM_INC` with the unlock, `getaddrinfo`, and `send_request`. It may outlive the socket it is for.
Everything else is as in `SocketLives`: the socket thread, the other functions of the workers, and
`reserve_id`, which does not take the lock and resets the counter. A request for an earlier socket
is dropped by the comparison of the ids, and so it is left out.
-/

namespace Uboss.Core

open Math List Nat SocketServer

/-- What `getaddrinfo` returns: an error, or the first address of the list. -/
inductive AddrInfo
  | failed
  | inet (port addr : ℕ)
  | inet6 (port addr : ℕ)
  /-- An address of another family. -/
  | other
  deriving DecidableEq, Repr

/-- The address of the request, by `gen_udp_address`. -/
def AddrInfo.udpAddress : AddrInfo → Option UdpAddress
  | .inet port addr => some ⟨.udp, port, addr⟩
  | .inet6 port addr => some ⟨.udpv6, port, addr⟩
  | .failed | .other => none

/-- Where a call of `socket_server_udp_connect` is between two steps. -/
inductive ConnectCall
  /-- Before the `ATOM_INC`, with the lock. -/
  | tested
  /-- Before `getaddrinfo`. -/
  | raised
  /-- Before `send_request`. -/
  | posting (address : UdpAddress)
  deriving DecidableEq, Repr

/-- The slot, the number of its socket, and the calls, each with the number of the socket that it is
for. -/
structure SocketConnecting (Tid : Type) where
  lives : SocketLives Tid
  life : ℕ
  calls : List (ℕ × ConnectCall)

/-- The steps. -/
inductive ConnectAct (Tid : Type)
  /-- A step of any other function. -/
  | slot (a : LifeAct Tid)
  /-- `socket_server_udp_connect` up to the second test. -/
  | connect (t : Tid)
  | raise (k : ℕ)
  | resolve (k : ℕ) (info : AddrInfo)
  | post (k : ℕ)
  deriving DecidableEq, Repr

/-- The command is a request to connect. -/
def Command.setsUdp {Tid : Type} : Command Tid → Bool
  | .setUdp _ => true
  | _ => false

/-- The step is made by `socket_server_udp_connect`. -/
def LifeAct.connects {Tid : Type} : LifeAct Tid → Bool
  | .act (.udpConnect ..) => true
  | _ => false

/-- The step is `reserve_id`. -/
def LifeAct.reserves {Tid : Type} : LifeAct Tid → Bool
  | .reserve _ => true
  | _ => false

namespace SocketConnecting

variable {Tid : Type}

/-- The start. -/
def create (memory : Socket (SendTag Tid)) : SocketConnecting Tid where
  lives := .create memory
  life := 0
  calls := []

section Step

variable (s : SocketConnecting Tid)

/-- The socket in the slot. -/
abbrev server : SocketServer Tid := s.lives.server

/-- The socket and its pipe are changed. -/
def setServer (server : SocketServer Tid) : SocketConnecting Tid :=
  { s with lives := { s.lives with server := server } }

/-- `ATOM_INC(&s->udpconnecting)` and `socket_unlock`, on whatever socket the slot has. -/
def raiseServer : SocketServer Tid :=
  { s.server with
    socket := { s.server.socket with
      udpconnecting := (s.server.socket.udpconnecting + 1) % 65536 }
    lock := none }

/-- `send_request`, for a certain socket of the slot. -/
def postServer (life : ℕ) (a : UdpAddress) : SocketServer Tid :=
  if life = s.life then { s.server with pipe := s.server.pipe ++ [.setUdp a] } else s.server

variable [DecidableEq Tid] (soi : SocketObjectInterface)

/-- One step. -/
def step : ConnectAct Tid → Except SocketFault (SocketConnecting Tid)
  | .slot a =>
    if a.connects then .error .disabled
    else (s.lives.step soi a).map fun lives =>
      { s with lives := lives, life := if a.reserves then s.life + 1 else s.life }
  | .connect t =>
    if s.server.socket.type = .invalid then .ok s
    else
      match s.server.lock with
      | some _ => .error .disabled
      | none => .ok { s.setServer { s.server with lock := some t } with
          calls := s.calls ++ [(s.life, .tested)] }
  | .raise k =>
    match s.calls[k]? with
    | some (life, .tested) =>
      .ok { s.setServer s.raiseServer with calls := s.calls.set k (life, .raised) }
    | _ => .error .disabled
  | .resolve k info =>
    match s.calls[k]? with
    | some (life, .raised) =>
      .ok { s with calls :=
        match info.udpAddress with
        -- the counter stays as it is
        | none => s.calls.eraseIdx k
        | some a => s.calls.set k (life, .posting a) }
    | _ => .error .disabled
  | .post k =>
    match s.calls[k]? with
    | some (life, .posting a) =>
      .ok { s.setServer (s.postServer life a) with calls := s.calls.eraseIdx k }
    | _ => .error .disabled

end Step

/-- The steps that have a result, as a transition function. -/
def next [DecidableEq Tid] (soi : SocketObjectInterface) (s : SocketConnecting Tid)
    (a : ConnectAct Tid) : Option (SocketConnecting Tid) :=
  (s.step soi a).toOption

section Property

variable (s : SocketConnecting Tid)

/-- The number of requests in the pipe. -/
def pending : ℕ := s.server.pipe.countP Command.setsUdp

/-- While no call is running the counter of the socket is the number of requests in the pipe; once
these are executed nothing but the socket itself decides whether a packet is written directly. -/
def CountsRequests : Prop := s.calls = [] → s.server.socket.type ≠ .invalid →
    s.server.socket.udpconnecting = s.pending ∧
      (s.pending = 0 → (s.server.socket.canDirectWrite = true ↔
        s.server.socket.queued = [] ∧ s.server.socket.type = .connected ∧
          s.server.socket.dw = none))

/-- The conditions for the steps: the counter of another socket is not raised, nor by more than 16
bits hold, and `getaddrinfo` finds an address of the socket's own family. -/
def Settles : ConnectAct Tid → Prop
  | .raise k => ∀ c ∈ s.calls[k]?, c.1 = s.life ∧ s.server.socket.udpconnecting + 1 < 65536
  | .resolve k info => ∀ c ∈ s.calls[k]?, c.1 = s.life →
      ∃ a ∈ info.udpAddress, a.type = s.server.socket.protocol
  | _ => True

instance (a : ConnectAct Tid) : Decidable (s.Settles a) :=
  match a with
  | .raise k => inferInstanceAs (Decidable (∀ c ∈ s.calls[k]?, _))
  | .resolve k info => inferInstanceAs (Decidable (∀ c ∈ s.calls[k]?, c.1 = s.life →
      ∃ a ∈ info.udpAddress, _))
  | .slot _ | .connect _ | .post _ => .isTrue trivial

end Property

end SocketConnecting

/-! ## The other functions -/

namespace SocketServer

variable {Tid : Type} {soi : SocketObjectInterface} {s s' : SocketServer Tid}

/-- The counter and the requests stay, and a socket that is closed stays so. -/
structure Keeps (s s' : SocketServer Tid) : Prop where
  type : s.socket.type = .invalid → s'.socket.type = .invalid
  protocol : s'.socket.protocol = s.socket.protocol
  udpconnecting : s'.socket.udpconnecting = s.socket.udpconnecting
  pipe : s'.pipe.filter Command.setsUdp = s.pipe.filter Command.setsUdp
  worker : ∀ t b, s'.worker t = .posting (.setUdp b) → s.worker t = .posting (.setUdp b)

theorem Keeps.refl (s : SocketServer Tid) : s.Keeps s := ⟨id, rfl, rfl, rfl, fun _ _ => id⟩

theorem Keeps.trans {u : SocketServer Tid} (h : s.Keeps s') (h' : s'.Keeps u) : s.Keeps u where
  type := h'.type ∘ h.type
  protocol := h'.protocol.trans h.protocol
  udpconnecting := h'.udpconnecting.trans h.udpconnecting
  pipe := h'.pipe.trans h.pipe
  worker t b hu := h.worker t b (h'.worker t b hu)

/-- The socket is closed. -/
structure Closes (s s' : SocketServer Tid) : Prop where
  type : s'.socket.type = .invalid
  worker : s'.worker = s.worker

/-- The next request is executed. -/
structure Executes (s s' : SocketServer Tid) (b : UdpAddress) : Prop where
  pipe : s.pipe = .setUdp b :: s'.pipe
  socket : s'.socket = (s.setUdpAddress b).socket
  worker : s'.worker = s.worker

/-- What a step of another function can do to the counter. -/
def Effect (s s' : SocketServer Tid) : Prop := s.Closes s' ∨ s.Keeps s' ∨ ∃ b, s.Executes s' b

theorem filter_concat {c : Command Tid} (hc : c.setsUdp = false) (pipe : List (Command Tid)) :
    (pipe ++ [c]).filter Command.setsUdp = pipe.filter Command.setsUdp := by
  rw [filter_append, filter_cons_of_neg (by simp [hc]), filter_nil, append_nil]

theorem keeps_forceClose (h : s.forceClose = .ok s') : s.Keeps s' := by
  unfold forceClose at h
  split at h
  · cases h
    exact .refl s
  · cases h
  · cases h
    exact ⟨id, rfl, rfl, rfl, fun _ _ => id⟩

theorem keeps_request {c : Command Tid} {covered : List (Packet (SendTag Tid))}
    (hc : c.setsUdp = false) (h : request { s with covered := covered } t c = .ok s') :
    s.Keeps s' := by
  unfold request at h
  split at h
  · cases h
    exact ⟨id, rfl, rfl, filter_concat hc _, fun _ _ => id⟩
  · cases h

section Tid

variable [DecidableEq Tid] {t : Tid}

theorem Keeps.goto {u : SocketServer Tid} {w : Worker Tid} (h : s.Keeps u)
    (hw : ∀ b, w ≠ .posting (.setUdp b)) : s.Keeps (u.goto t w) where
  type := h.type
  protocol := h.protocol
  udpconnecting := h.udpconnecting
  pipe := h.pipe
  worker v b hv := by
    unfold SocketServer.goto at hv
    dsimp only at hv
    by_cases hvt : v = t
    · subst hvt
      rw [Function.update_self] at hv
      exact absurd hv (hw b)
    · rw [Function.update_of_ne hvt] at hv
      exact h.worker v b hv

theorem keeps_enter {ordered : Bool} {buffer : ℕ} {sz : ℤ}
    {next : Packet (SendTag Tid) → Worker Tid} (hnext : ∀ p b, next p ≠ .posting (.setUdp b))
    (h : s.enter t ordered buffer sz next = .ok s') : s.Keeps s' := by
  unfold enter at h
  split at h
  · split_ifs at h
    · cases h
      exact .refl s
    · cases h
      have hcalls : ∀ calls, s.Keeps { s with calls := calls } := fun _ =>
        ⟨id, rfl, rfl, rfl, fun _ _ => id⟩
      exact (hcalls _).goto (hnext _)
  · cases h

/-- The next step of a worker that is not in `socket_server_udp_connect`. -/
theorem keeps_run (hworker : ∀ b, s.worker t ≠ .posting (.setUdp b)) {r : WriteResult}
    (h : s.run soi t r = .ok s') : s.Keeps s' := by
  have hsend : ∀ p a b, sendRequest p a ≠ (.posting (.setUdp b) : Worker Tid) := by
    intro p a b heq
    cases heq
  have hlock : ∀ lock, s.Keeps { s with lock := lock } := fun _ =>
    ⟨id, rfl, rfl, rfl, fun _ _ => id⟩
  unfold run at h
  split at h
  · cases h
  · cases h
    refine (Keeps.refl s).goto fun b => ?_
    split_ifs
    · exact nofun
    · exact hsend _ _ b
  · cases h
    split
    · exact (hlock _).goto nofun
    · exact (Keeps.refl s).goto (hsend _ _)
  · cases h
    split_ifs
    · exact (Keeps.refl s).goto nofun
    · exact (hlock _).goto (hsend _ _)
  next p hwriting =>
    cases h
    have hwritten : ∀ lock wire datagrams kept, s.Keeps { s with
        socket := if directCount soi p r = (p.object soi).sz then s.socket
          else { s.socket with dw := some (p, directCount soi p r), wantWrite := true }
        lock := lock
        wire := wire
        datagrams := datagrams
        kept := kept } := fun _ _ _ _ => by
      split_ifs <;> exact ⟨id, rfl, rfl, rfl, fun _ _ => id⟩
    exact (hwritten _ _ _ _).goto nofun
  next p b hwriting =>
    cases h
    unfold directUdpSend
    split
    · have hsent : ∀ lock datagrams kept,
          s.Keeps { s with lock := lock, datagrams := datagrams, kept := kept } :=
        fun _ _ _ => ⟨id, rfl, rfl, rfl, fun _ _ => id⟩
      exact (hsent _ _ _).goto nofun
    · exact (hlock _).goto (hsend _ _)
  next c hposting =>
    cases h
    have hc : c.setsUdp = false := by
      cases c with
      | setUdp b => exact absurd hposting (hworker b)
      | _ => rfl
    have hposted : ∀ kept, s.Keeps { s with pipe := s.pipe ++ [c], kept := kept } :=
      fun _ => ⟨id, rfl, rfl, filter_concat hc _, fun _ _ => id⟩
    exact (hposted _).goto nofun

end Tid

theorem flush_effect (hs : s.StepReady soi) (hclosing : ¬ s.Closing) (hopen : s.socket.IsOpen)
    {rs : List WriteResult} {f : Flush (SendTag Tid)}
    (h : s.socket.sendBuffer soi rs = .ok f) :
    f.socket.type = .invalid ∨ f.socket.type = s.socket.type ∧
      f.socket.protocol = s.socket.protocol ∧ f.socket.udpconnecting = s.socket.udpconnecting := by
  have hmerged := Socket.merged_mergeDw soi s.socket
  rcases hs.flush_cases hclosing hopen h with hf | hf
  · exact .inr ⟨hf.type.trans hmerged.type, hf.protocol.trans hmerged.protocol,
      hf.udpconnecting.trans hmerged.udpconnecting⟩
  · exact .inl hf.socket.1

section Poller

variable {pipe : List (Command Tid)}

theorem effect_sendBuffer (hs : s.StepReady soi) (hclosing : ¬ s.Closing) (hopen : s.socket.IsOpen)
    (hpipe : pipe.filter Command.setsUdp = s.pipe.filter Command.setsUdp)
    {rs : List WriteResult} {x : SocketServer Tid × SocketResult}
    (h : sendBuffer soi { s with pipe := pipe } rs = .ok x) :
    s.Closes x.1 ∨ s.Keeps x.1 := by
  unfold sendBuffer at h
  split at h
  · cases h
    exact .inr ⟨id, rfl, rfl, hpipe, fun _ _ => id⟩
  · obtain ⟨f, hf, rfl⟩ := map_eq_ok_iff.mp h
    rcases flush_effect hs hclosing hopen hf with hinvalid | ⟨htype, hprotocol, hudp⟩
    · exact .inl ⟨hinvalid, rfl⟩
    · exact .inr ⟨fun h => htype.trans h, hprotocol, hudp, hpipe, fun _ _ => id⟩

variable [DecidableEq Tid]

theorem effect_ctrlCmd (hs : s.StepReady soi) {c : Command Tid} (hpipe : s.pipe = c :: pipe)
    (hpoller : s.poller = .idle) (hopening : c = .open → s.socket.type ≠ .invalid)
    {r : CommandResult}
    (h : ctrlCmd soi { s with pipe := pipe } r c = .ok s') : s.Effect s' := by
  have hfilter : c.setsUdp = false →
      pipe.filter Command.setsUdp = s.pipe.filter Command.setsUdp := fun hc => by
    rw [hpipe, filter_cons_of_neg (by simp [hc])]
  cases c with
  | setUdp b =>
    cases h
    refine .inr (.inr ⟨b, ?_, ?_, ?_⟩)
    · rw [hpipe]
      unfold setUdpAddress
      split_ifs <;> rfl
    · unfold setUdpAddress
      split_ifs <;> rfl
    · unfold setUdpAddress
      split_ifs <;> rfl
  | «open» =>
    have hpipe' := hfilter rfl
    change newFd { s with pipe := pipe } r.opened = .ok s' at h
    unfold newFd at h
    split at h
    · cases h
      exact .inl ⟨rfl, rfl⟩
    · split_ifs at h
      cases h
      exact .inr (.inl ⟨fun h => absurd h (hopening rfl), rfl, rfl, hpipe', fun _ _ => id⟩)
  | send p priority address =>
    have hpipe' := hfilter rfl
    obtain ⟨x, hx, rfl⟩ := map_eq_ok_iff.mp h
    obtain ⟨y, hy, hcases⟩ := Socket.sendSocket_cases hs.socket p priority address
      (r.results.headD .again)
    obtain rfl := Except.ok.inj (hx.symm.trans hy)
    refine .inr (.inl ?_)
    rcases hcases with ⟨hsame, -⟩ | ⟨-, hqueued⟩
    · refine ⟨?_, ?_, ?_, hpipe', fun _ _ => id⟩ <;> dsimp only <;> rw [hsame]
      exact id
    · exact ⟨fun h => hqueued.same.type.trans h, hqueued.same.protocol,
        hqueued.same.udpconnecting, hpipe', fun _ _ => id⟩
  | close shutdown =>
    have hpipe' := hfilter rfl
    change closeSocket soi { s with pipe := pipe } shutdown r.results = .ok s' at h
    unfold closeSocket at h
    split_ifs at h with hinvalid hempty
    · cases h
      exact .inl ⟨hinvalid, rfl⟩
    · cases h
      exact .inr (.inl ⟨id, rfl, rfl, hpipe', fun _ _ => id⟩)
    · obtain ⟨x, hx, rfl⟩ := map_eq_ok_iff.mp h
      have hopen : s.socket.IsOpen := ⟨hinvalid, hs.head hpipe (by simp)⟩
      rcases effect_sendBuffer hs (not_closing_of_idle hpoller) hopen hpipe' hx with hx | hx
      · left
        dsimp only
        split_ifs
        · exact hx
        · exact ⟨hx.type, hx.worker⟩
      · refine .inr (.inl ?_)
        dsimp only
        split_ifs
        · exact hx
        · exact ⟨hx.type, hx.protocol, hx.udpconnecting, hx.pipe, hx.worker⟩
  | start =>
    have hpipe' := hfilter rfl
    have hpop : s.Keeps { s with pipe := pipe } := ⟨id, rfl, rfl, hpipe', fun _ _ => id⟩
    refine .inr (.inl (hpop.trans ?_))
    change startSocket { s with pipe := pipe } r.added = .ok s' at h
    unfold startSocket at h
    have hopen : s.socket.type = .paccept ∨ s.socket.type = .plisten →
        s.socket.type ≠ .invalid := by
      rintro (hw | hw) <;> rw [hw] <;> exact nofun
    split_ifs at h with hwaiting hadded haccept
    · cases h
      exact ⟨fun hinvalid => absurd hinvalid (hopen hwaiting), rfl, rfl, rfl, fun _ _ => id⟩
    · cases h
      exact ⟨fun hinvalid => absurd hinvalid (hopen hwaiting), rfl, rfl, rfl, fun _ _ => id⟩
    · exact keeps_forceClose h
    · cases h
      exact .refl _

/-- A step of another function than `socket_server_udp_connect`. -/
theorem step_effect (hs : s.Accounted soi) {a : SocketAct Tid}
    (hworker : ∀ t b, s.worker t ≠ .posting (.setUdp b)) (ha : ∀ t b, a ≠ .udpConnect t b)
    (h : s.step soi a = .ok s') : s.Effect s' := by
  have hready := hs.stepReady
  cases a with
  | udpConnect t b => exact absurd rfl (ha t b)
  | send t buffer sz =>
    simp only [SocketServer.step] at h
    refine .inr (.inl (keeps_enter (fun p b heq => ?_) h))
    cases heq
  | sendLowpriority t buffer sz =>
    simp only [SocketServer.step] at h
    refine .inr (.inl (keeps_enter (fun p b heq => ?_) h))
    cases heq
  | udpSend t address buffer sz =>
    simp only [SocketServer.step] at h
    split_ifs at h
    refine .inr (.inl (keeps_enter (fun p b heq => ?_) h))
    cases heq
  | close t shutdown => exact .inr (.inl (keeps_request rfl h))
  | start t =>
    have hrequest : request { s with covered := s.covered } t .start = .ok s' := h
    exact .inr (.inl (keeps_request rfl hrequest))
  | run t r => exact .inr (.inl (keeps_run (hworker t) h))
  | command r =>
    simp only [SocketServer.step] at h
    split at h
    next c pipe hpoller hpipe =>
      refine effect_ctrlCmd hready hpipe hpoller (fun hc => ?_) h
      rw [hs.type_of_open (hc ▸ hpipe)]
      intro hinvalid
      cases hinvalid
    next => cases h
  | writeEvent rs =>
    simp only [SocketServer.step] at h
    split_ifs at h with hpolled
    obtain ⟨x, hx, rfl⟩ := map_eq_ok_iff.mp h
    have hflush : sendBuffer soi { s with pipe := s.pipe } rs = .ok x := hx
    rcases effect_sendBuffer hready (not_closing_of_idle hpolled.1) hpolled.isOpen rfl hflush with
      hcloses | hkeeps
    · exact .inl hcloses
    · exact .inr (.inl hkeeps)
  | hangup =>
    simp only [SocketServer.step] at h
    split_ifs at h
    have hbroken : s.Keeps { s with broken := true } := ⟨id, rfl, rfl, rfl, fun _ _ => id⟩
    exact .inr (.inl (hbroken.trans (keeps_forceClose h)))
  | connectEvent ok =>
    simp only [SocketServer.step] at h
    split_ifs at h with hpolled
    unfold reportConnect at h
    split_ifs at h
    · cases h
      refine .inr (.inl ⟨fun hinvalid => ?_, rfl, rfl, rfl, fun _ _ => id⟩)
      cases hinvalid.symm.trans hpolled.2
    · exact .inr (.inl (keeps_forceClose h))
  | decide =>
    simp only [SocketServer.step] at h
    split at h
    next shutdown hpoller =>
      unfold closeDecide at h
      split_ifs at h
      · have hbroken : s.Keeps { s with broken := s.broken || shutdown, poller := .idle } :=
          ⟨id, rfl, rfl, rfl, fun _ _ => id⟩
        exact .inr (.inl (hbroken.trans (keeps_forceClose h)))
      · cases h
        have hopen := hready.deciding hpoller
        exact .inr (.inl ⟨fun h => absurd h hopen.1, rfl, rfl, rfl, fun _ _ => id⟩)
    next => cases h
  | reported =>
    simp only [SocketServer.step] at h
    split at h
    · cases h
      exact .inr (.inl ⟨id, rfl, rfl, rfl, fun _ _ => id⟩)
    · cases h
  | closed =>
    simp only [SocketServer.step] at h
    split at h
    · cases h
      exact .inl ⟨rfl, rfl⟩
    · cases h

end Poller

end SocketServer

/-! ## Runs -/

namespace SocketConnecting

variable {Tid : Type} {soi : SocketObjectInterface} {s s' : SocketConnecting Tid}

/-- The call is for the socket `life`, and it has raised the counter. -/
def raises (life : ℕ) (c : ℕ × ConnectCall) : Bool := decide (c.1 = life) && decide (c.2 ≠ .tested)

/-- What holds of a socket until it is closed: the counter is the number of requests that are in the
pipe or still to be sent, all of them with an address of the socket's family. -/
structure Counted (s : SocketConnecting Tid) : Prop where
  count : s.server.socket.udpconnecting = s.pending + s.calls.countP (raises s.life)
  small : s.server.socket.udpconnecting < 65536
  pipe : ∀ b, .setUdp b ∈ s.server.pipe → b.type = s.server.socket.protocol
  posting : ∀ b, (s.life, .posting b) ∈ s.calls → b.type = s.server.socket.protocol

/-- The invariant of the runs whose steps meet the condition. -/
structure Inv (soi : SocketObjectInterface) (s : SocketConnecting Tid) : Prop where
  accounted : s.server.Accounted soi
  worker : ∀ t b, s.server.worker t ≠ .posting (.setUdp b)
  lives : ∀ c ∈ s.calls, c.1 ≤ s.life
  counted : s.server.socket.type ≠ .invalid → s.Counted

section

variable {u v : SocketServer Tid}
  (h : u.pipe.filter Command.setsUdp = v.pipe.filter Command.setsUdp)
include h

theorem pending_eq_of_filter : u.pipe.countP Command.setsUdp = v.pipe.countP Command.setsUdp := by
  rw [countP_eq_length_filter, countP_eq_length_filter, h]

theorem mem_pipe_of_filter {b : UdpAddress} (hb : .setUdp b ∈ u.pipe) : .setUdp b ∈ v.pipe := by
  have hmem : Command.setUdp b ∈ u.pipe.filter Command.setsUdp := mem_filter.mpr ⟨hb, rfl⟩
  rw [h] at hmem
  exact (mem_filter.mp hmem).1

end

theorem inv_create (soi : SocketObjectInterface) (memory : Socket (SendTag Tid)) :
    (create memory).Inv soi where
  accounted := SocketLives.accounted_create soi memory
  worker _ _ := nofun
  lives := nofun
  counted h := absurd rfl h

namespace Counted

/-- The socket and its pipe have changed as by another function. -/
theorem of_effect {lives : SocketLives Tid} (h : s.server.socket.type ≠ .invalid → s.Counted)
    (heffect : s.server.Effect lives.server) (hopen : lives.server.socket.type ≠ .invalid) :
    Counted { s with lives := lives } := by
  rcases heffect with hcloses | hkeeps | ⟨b, hexec⟩
  · exact absurd hcloses.type hopen
  · obtain ⟨hcount, hsmall, hpipe, hposting⟩ := h fun hinvalid => hopen (hkeeps.type hinvalid)
    have hpending : pending { s with lives := lives } = s.pending :=
      pending_eq_of_filter hkeeps.pipe
    refine ⟨?_, ?_, fun b hb => ?_, fun b hb => ?_⟩
    · rw [hpending]
      exact hkeeps.udpconnecting.trans hcount
    · exact hkeeps.udpconnecting.trans_lt hsmall
    · exact (hpipe b (mem_pipe_of_filter hkeeps.pipe hb)).trans hkeeps.protocol.symm
    · exact (hposting b hb).trans hkeeps.protocol.symm
  · have htype : (s.server.setUdpAddress b).socket.type = s.server.socket.type := by
      unfold setUdpAddress
      split_ifs <;> rfl
    rw [hexec.socket, htype] at hopen
    obtain ⟨hcount, hsmall, hpipe, hposting⟩ := h hopen
    have hfamily := hpipe b (by rw [hexec.pipe]; exact mem_cons_self)
    have hsocket : lives.server.socket = { s.server.socket with
        udpAddress := b
        udpconnecting := (s.server.socket.udpconnecting + 65535) % 65536 } := by
      rw [hexec.socket, setUdpAddress, if_neg hopen, if_neg (not_not.mpr hfamily)]
    have hpending : s.pending = pending { s with lives := lives } + 1 := by
      rw [pending, hexec.pipe, countP_cons_of_pos rfl]
      rfl
    refine ⟨?_, ?_, fun b hb => ?_, fun b hb => ?_⟩
    · -- the counter was not zero, since the request was counted
      change lives.server.socket.udpconnecting = _
      rw [hsocket]
      dsimp only
      omega
    · change lives.server.socket.udpconnecting < _
      rw [hsocket]
      exact mod_lt _ (by decide)
    · change b.type = lives.server.socket.protocol
      rw [hsocket]
      exact hpipe b (by rw [hexec.pipe]; exact mem_cons_of_mem _ hb)
    · change b.type = lives.server.socket.protocol
      rw [hsocket]
      exact hposting b hb

end Counted

theorem worker_of_effect {u v : SocketServer Tid} (h : u.Effect v) {t : Tid} {b : UdpAddress}
    (hv : v.worker t = .posting (.setUdp b)) : u.worker t = .posting (.setUdp b) := by
  rcases h with hcloses | hkeeps | ⟨b', hexec⟩
  · rwa [← hcloses.worker]
  · exact hkeeps.worker t b hv
  · rwa [← hexec.worker]

theorem effect_initLock {u : SocketServer Tid} (h : s.server.Effect u) :
    s.server.Effect (s.lives.initLock u) := by
  unfold SocketLives.initLock
  split_ifs
  · rcases h with hcloses | hkeeps | ⟨b, hexec⟩
    · exact .inl ⟨hcloses.type, hcloses.worker⟩
    · exact .inr (.inl ⟨hkeeps.type, hkeeps.protocol, hkeeps.udpconnecting, hkeeps.pipe,
        hkeeps.worker⟩)
    · exact .inr (.inr ⟨b, hexec.pipe, hexec.socket, hexec.worker⟩)
  · exact h

section Slot

variable [DecidableEq Tid] {lives : SocketLives Tid}

theorem keeps_formerRun {t : Tid} {r : WriteResult} (h : s.lives.formerRun soi t r = .ok lives) :
    s.server.Keeps lives.server := by
  have hlock : ∀ lock, s.server.Keeps { s.server with lock := lock } := fun _ =>
    ⟨id, rfl, rfl, rfl, fun _ _ => id⟩
  unfold SocketLives.formerRun at h
  split at h
  · cases h
  · cases h
    exact .refl _
  · cases h
    exact .refl _
  · cases h
    split
    · exact hlock _
    · exact .refl _
  · cases h
    exact hlock _
  next p _ =>
    cases h
    unfold SocketLives.goto directSend SocketServer.goto
    dsimp only
    refine ⟨?_, ?_, ?_, rfl, fun _ _ => id⟩ <;> dsimp only <;> split_ifs <;> first | rfl | exact id
  · cases h
    unfold SocketLives.goto directUdpSend
    dsimp only
    split <;> exact ⟨id, rfl, rfl, rfl, fun _ _ => id⟩

theorem slot_effect (hs : s.Inv soi) {a : LifeAct Tid} (ha : a.connects = false)
    (hreserve : a.reserves = false) (h : s.lives.step soi a = .ok lives) :
    s.server.Effect lives.server := by
  cases a with
  | reserve protocol => cases hreserve
  | former t r => exact .inr (.inl (keeps_formerRun h))
  | act a =>
    have hother : ∀ t b, a ≠ .udpConnect t b := by
      rintro t b rfl
      cases ha
    simp only [SocketLives.step] at h
    split at h
    · obtain ⟨u, hu, rfl⟩ := map_eq_ok_iff.mp h
      exact effect_initLock (SocketServer.step_effect hs.accounted hs.worker hother hu)
    · obtain ⟨u, hu, rfl⟩ := map_eq_ok_iff.mp h
      exact effect_initLock (SocketServer.step_effect hs.accounted hs.worker hother hu)
    · cases h

theorem Inv.slot (hs : s.Inv soi) {a : LifeAct Tid} (ha : a.connects = false)
    (h : s.lives.step soi a = .ok lives) :
    Inv soi { s with lives := lives, life := if a.reserves then s.life + 1 else s.life } := by
  have haccounted := SocketLives.accounted_step hs.accounted h
  cases hreserve : a.reserves with
  | false =>
    have heffect := slot_effect hs ha hreserve h
    exact {
      accounted := haccounted
      worker := fun t b hb => hs.worker t b (worker_of_effect heffect hb)
      lives := hs.lives
      counted := Counted.of_effect hs.counted heffect }
  | true =>
    -- the counter is reset, and no call is for the new socket
    cases a with
    | act a => cases hreserve
    | former t r => cases hreserve
    | reserve protocol =>
      simp only [SocketLives.step] at h
      split_ifs at h
      obtain rfl := Except.ok.inj h
      have hold : ∀ c ∈ s.calls, c.1 ≠ s.life + 1 := fun c hc => by
        have := hs.lives c hc
        omega
      have hcalls : s.calls.countP (raises (s.life + 1)) = 0 := by
        refine countP_eq_zero.mpr fun c hc => ?_
        simp [raises, hold c hc]
      have hworker : ∀ t b, (s.lives.reserve protocol).server.worker t ≠ .posting (.setUdp b) := by
        intro t b hposting
        cases hposting
      refine ⟨haccounted, hworker, fun c hc => ?_, fun _ => ⟨?_, ?_, ?_, ?_⟩⟩
      · exact (hs.lives c hc).trans (le_succ _)
      · change 0 = 0 + s.calls.countP (raises (s.life + 1))
        rw [hcalls]
      · exact Nat.two_pow_pos 16
      · intro b hb
        cases mem_singleton.mp hb
      · exact fun b hb => absurd rfl (hold _ hb)

end Slot

/-! ### `socket_server_udp_connect` -/

section Connect

variable {k life : ℕ} {c d : ℕ × ConnectCall} {a : UdpAddress} {info : AddrInfo}

theorem calls_perm (h : s.calls[k]? = some c) : s.calls.Perm (c :: s.calls.eraseIdx k) := by
  obtain ⟨hk, rfl⟩ := List.getElem?_eq_some_iff.mp h
  exact (getElem_cons_eraseIdx_perm hk).symm

theorem set_perm (h : s.calls[k]? = some c) (d : ℕ × ConnectCall) :
    (s.calls.set k d).Perm (d :: s.calls.eraseIdx k) := by
  obtain ⟨hk, -⟩ := List.getElem?_eq_some_iff.mp h
  exact set_perm_cons_eraseIdx hk d

theorem accounted_raise (h : s.server.Accounted soi) : s.raiseServer.Accounted soi where
  socket := socket_inv_congr h.socket rfl rfl
  counted := h.counted
  unopened := h.unopened
  opening := h.opening
  opened := h.opened
  closing := h.closing
  posting := h.posting

theorem accounted_post (h : s.server.Accounted soi) : (s.postServer life a).Accounted soi := by
  unfold postServer
  split_ifs
  · refine ⟨h.socket, h.counted, h.unopened, fun htype => ?_, fun htype => ?_, h.closing, h.posting⟩
    · obtain ⟨pipe, hpipe, hopen⟩ := h.opening htype
      exact ⟨pipe ++ [.setUdp a], by rw [hpipe]; rfl, by simpa using hopen⟩
    · simpa using h.opened htype
  · exact h

variable (hs : s.Inv soi)
include hs

theorem Inv.connect (lock : Option Tid) :
    Inv soi { s.setServer { s.server with lock := lock } with
      calls := s.calls ++ [(s.life, .tested)] } where
  accounted := hs.accounted.congr ⟨_, _, rfl⟩ rfl rfl rfl
  worker := hs.worker
  lives c hc := by
    rcases mem_append.mp hc with hc | hc
    · exact hs.lives c hc
    · rw [mem_singleton.mp hc]
      exact le_rfl
  counted hopen := by
    obtain ⟨hcount, hsmall, hpipe, hposting⟩ := hs.counted hopen
    refine ⟨?_, hsmall, hpipe, fun b hb => ?_⟩
    · change s.server.socket.udpconnecting =
        s.pending + (s.calls ++ [(s.life, ConnectCall.tested)]).countP (raises s.life)
      rw [countP_append, hcount]
      simp [raises]
    · rcases mem_append.mp hb with hb | hb
      · exact hposting b hb
      · cases mem_singleton.mp hb

/-- The counter is raised for a call that is counted from now on. -/
theorem Inv.raise (hk : s.calls[k]? = some (life, .tested)) (hguard : s.Settles (.raise k)) :
    Inv soi { s.setServer s.raiseServer with calls := s.calls.set k (life, .raised) } where
  accounted := accounted_raise hs.accounted
  worker := hs.worker
  lives c hc := by
    rcases mem_or_eq_of_mem_set hc with hc | rfl
    · exact hs.lives c hc
    · exact hs.lives (life, .tested) (mem_of_getElem? hk)
  counted hopen := by
    obtain ⟨hcount, hsmall, hpipe, hposting⟩ := hs.counted hopen
    obtain ⟨rfl, hbits⟩ : life = s.life ∧ s.server.socket.udpconnecting + 1 < 65536 := hguard _ hk
    refine ⟨?_, mod_lt _ (by decide), hpipe, fun b hb => ?_⟩
    · change (s.server.socket.udpconnecting + 1) % 65536 =
        s.pending + (s.calls.set k (s.life, .raised)).countP (raises s.life)
      rw [(calls_perm hk).countP_eq, countP_cons_of_neg (by simp [raises])] at hcount
      rw [(set_perm hk _).countP_eq, countP_cons_of_pos (by simp [raises])]
      omega
    · rcases mem_or_eq_of_mem_set hb with hb | hb
      · exact hposting b hb
      · cases hb

/-- An address is found, or the call was for an earlier socket. -/
theorem Inv.resolve (hk : s.calls[k]? = some (life, .raised))
    (hguard : s.Settles (.resolve k info)) : Inv soi { s with calls :=
      match info.udpAddress with
      | none => s.calls.eraseIdx k
      | some a => s.calls.set k (life, .posting a) } := by
  have hlife : life ≤ s.life := hs.lives _ (mem_of_getElem? hk)
  have hguard : life = s.life → ∃ a ∈ info.udpAddress, a.type = s.server.socket.protocol :=
    hguard _ hk
  cases haddress : info.udpAddress with
  | none =>
    have hold : life ≠ s.life := fun h => by
      obtain ⟨a, ha, -⟩ := hguard h
      rw [haddress] at ha
      cases ha
    refine ⟨hs.accounted, hs.worker, fun c hc => hs.lives c (mem_of_mem_eraseIdx hc),
      fun hopen => ?_⟩
    obtain ⟨hcount, hsmall, hpipe, hposting⟩ := hs.counted hopen
    refine ⟨?_, hsmall, hpipe, fun b hb => hposting b (mem_of_mem_eraseIdx hb)⟩
    rwa [(calls_perm hk).countP_eq, countP_cons_of_neg (by simp [raises, hold])] at hcount
  | some a =>
    refine ⟨hs.accounted, hs.worker, fun c hc => ?_, fun hopen => ?_⟩
    · rcases mem_or_eq_of_mem_set hc with hc | rfl
      · exact hs.lives c hc
      · exact hlife
    · obtain ⟨hcount, hsmall, hpipe, hposting⟩ := hs.counted hopen
      have hsame : raises s.life (life, .posting a) = raises s.life (life, .raised) := rfl
      refine ⟨?_, hsmall, hpipe, fun b hb => ?_⟩
      · change s.server.socket.udpconnecting =
          s.pending + (s.calls.set k (life, .posting a)).countP (raises s.life)
        rw [(set_perm hk _).countP_eq, countP_cons, hsame, ← countP_cons,
          ← (calls_perm hk).countP_eq]
        exact hcount
      · rcases mem_or_eq_of_mem_set hb with hb | hb
        · exact hposting b hb
        · obtain ⟨hnow, hb⟩ := Prod.mk.inj hb
          obtain ⟨a', ha', hfamily⟩ := hguard hnow.symm
          rw [haddress] at ha'
          rw [ConnectCall.posting.inj hb, Option.some.inj ha']
          exact hfamily

theorem Inv.post (hk : s.calls[k]? = some (life, .posting a)) :
    Inv soi { s.setServer (s.postServer life a) with calls := s.calls.eraseIdx k } := by
  refine ⟨accounted_post hs.accounted, ?_,
    fun c hc => hs.lives c (mem_of_mem_eraseIdx hc), fun hopen => ?_⟩
  · unfold postServer
    split_ifs <;> exact hs.worker
  · by_cases hlife : life = s.life
    · subst hlife
      have hserver : s.postServer s.life a =
          { s.server with pipe := s.server.pipe ++ [.setUdp a] } := if_pos rfl
      rw [hserver] at hopen ⊢
      obtain ⟨hcount, hsmall, hpipe, hposting⟩ := hs.counted hopen
      refine ⟨?_, hsmall, fun b hb => ?_, fun b hb => hposting b (mem_of_mem_eraseIdx hb)⟩
      · change s.server.socket.udpconnecting =
          (s.server.pipe ++ [Command.setUdp a]).countP Command.setsUdp +
            (s.calls.eraseIdx k).countP (raises s.life)
        rw [(calls_perm hk).countP_eq, countP_cons_of_pos (by simp [raises])] at hcount
        rw [countP_append, countP_cons_of_pos rfl, countP_nil, hcount, pending]
        omega
      · rcases mem_append.mp hb with hb | hb
        · exact hpipe b hb
        · rw [Command.setUdp.inj (mem_singleton.mp hb)]
          exact hposting a (mem_of_getElem? hk)
    · have hserver : s.postServer life a = s.server := if_neg hlife
      rw [hserver] at hopen ⊢
      obtain ⟨hcount, hsmall, hpipe, hposting⟩ := hs.counted hopen
      refine ⟨?_, hsmall, hpipe, fun b hb => hposting b (mem_of_mem_eraseIdx hb)⟩
      rwa [(calls_perm hk).countP_eq, countP_cons_of_neg (by simp [raises, hlife])] at hcount

end Connect

/-- Without a running call nothing is counted but the requests in the pipe. -/
theorem Inv.countsRequests (hs : s.Inv soi) : s.CountsRequests := by
  intro hcalls hopen
  have hcount := (hs.counted hopen).count
  rw [hcalls, countP_nil, Nat.add_zero] at hcount
  refine ⟨hcount, fun hpending => ?_⟩
  rw [hpending] at hcount
  rw [canDirectWrite_iff]
  constructor
  · rintro ⟨hqueued, htype, hdw, -⟩
    exact ⟨hqueued, htype, hdw⟩
  · rintro ⟨hqueued, htype, hdw⟩
    exact ⟨hqueued, htype, hdw, hcount⟩

section Run

variable [DecidableEq Tid] {a : ConnectAct Tid}

/-- A step that meets the condition. -/
theorem Inv.step (hs : s.Inv soi) (hguard : s.Settles a) (h : s.step soi a = .ok s') :
    s'.Inv soi := by
  cases a with
  | slot a =>
    unfold SocketConnecting.step at h
    dsimp only at h
    by_cases hconnects : a.connects = true
    · rw [if_pos hconnects] at h
      cases h
    · rw [if_neg hconnects] at h
      obtain ⟨lives, hlives, rfl⟩ := map_eq_ok_iff.mp h
      exact hs.slot (Bool.eq_false_iff.mpr hconnects) hlives
  | connect t =>
    unfold SocketConnecting.step at h
    dsimp only at h
    split_ifs at h
    · cases h
      exact hs
    · split at h
      · cases h
      · cases h
        exact hs.connect _
  | raise k =>
    simp only [SocketConnecting.step] at h
    split at h
    next hk =>
      cases h
      exact hs.raise hk hguard
    next => cases h
  | resolve k info =>
    simp only [SocketConnecting.step] at h
    split at h
    next hk =>
      cases h
      exact hs.resolve hk hguard
    next => cases h
  | post k =>
    simp only [SocketConnecting.step] at h
    split at h
    next hk =>
      cases h
      exact hs.post hk
    next => cases h

/-- In every run whose steps meet the condition, whenever no call is running the counter of the
socket is the number of requests in the pipe. -/
theorem countsRequests_of_settles (soi : SocketObjectInterface) (memory : Socket (SendTag Tid))
    (acts : List (ConnectAct Tid)) (s : SocketConnecting Tid)
    (hrun : Run (next soi) Settles (create memory) acts s) : s.CountsRequests := by
  have hs : s.Inv soi := hrun.invariant (inv_create soi memory) fun hguard hnext h =>
    h.step hguard (toOption_eq_some_iff.mp hnext)
  exact hs.countsRequests

end Run

/-- Two calls, one of them while a request is in the pipe. -/
def connectTwiceRun : List (ConnectAct ℕ) :=
  [.slot (.reserve .udp), .slot (.act (.command ⟨some .connected, [], true⟩)), .connect 0,
    .raise 0, .resolve 0 (.inet 80 1), .post 0, .connect 1, .raise 0, .resolve 0 (.inet 90 2),
    .slot (.act (.command ⟨none, [], true⟩)), .post 0]

theorem countsRequests_of_settles_twice :
    ∃ s, Run (next noObjects) Settles (create (SocketServer.init ℕ .udp).socket) connectTwiceRun s ∧
      s.server.socket.type = .connected ∧ s.server.socket.udpconnecting = 1 ∧
      s.CountsRequests := by
  obtain ⟨s, hexec⟩ : ∃ s, exec (guarded (next noObjects) Settles)
      (create (SocketServer.init ℕ .udp).socket) connectTwiceRun = some s := ⟨_, rfl⟩
  have hend : (exec (guarded (next noObjects) Settles)
      (create (SocketServer.init ℕ .udp).socket) connectTwiceRun).map
      (fun s => (s.server.socket.type, s.server.socket.udpconnecting)) =
        some (.connected, 1) := by decide
  rw [hexec, Option.map_some, Option.some_inj, Prod.mk.injEq] at hend
  have hrun := run_of_exec_guarded hexec
  exact ⟨s, hrun, hend.1, hend.2, countsRequests_of_settles noObjects _ _ s hrun⟩

/-- The one call fails in `getaddrinfo`. -/
def unresolvedRun : List (ConnectAct ℕ) :=
  [.slot (.reserve .udp), .slot (.act (.command ⟨some .connected, [], true⟩)), .connect 0,
    .raise 0, .resolve 0 .failed]

/-- A call that fails leaves the counter raised, although it sends no request. -/
theorem unresolved_not_counted :
    ¬ ∀ (soi : SocketObjectInterface) (memory : Socket (SendTag ℕ)) (s : SocketConnecting ℕ),
      Reachable (next soi) (create memory) s → s.CountsRequests := by
  intro hclaim
  obtain ⟨s, hexec⟩ : ∃ s, exec (next noObjects)
      (create (SocketServer.init ℕ .udp).socket) unresolvedRun = some s := ⟨_, rfl⟩
  have hend : (exec (next noObjects) (create (SocketServer.init ℕ .udp).socket)
      unresolvedRun).map (fun s => (s.calls, s.server.socket.type,
        s.server.socket.udpconnecting, s.pending)) = some ([], .connected, 1, 0) := by decide
  rw [hexec, Option.map_some, Option.some_inj, Prod.mk.injEq, Prod.mk.injEq, Prod.mk.injEq] at hend
  obtain ⟨hcalls, htype, hcount, hpending⟩ := hend
  have hopen : s.server.socket.type ≠ .invalid := by
    rw [htype]
    exact nofun
  obtain ⟨heq, -⟩ := hclaim noObjects _ s (reachable_of_exec hexec) hcalls hopen
  rw [hcount, hpending] at heq
  cases heq

end SocketConnecting

end Uboss.Core
