import Uboss.Core.SocketStep

/-!
# The lives of a slot

A slot of the socket server is used by one socket after the other. `reserve_id` takes a slot whose
type is `INVALID`, with `wb_size`, `warn_size` and the fields of the direct write as the last
socket left them, and `new_fd` sets them again. Here a slot goes through any number of sockets.

A worker may still be in a call for an earlier socket. Its id is not the id of the slot any more,
so it can do nothing but take and give back `dw_lock`, which `new_fd` initialises meanwhile, or
finish a direct write. The commands for an earlier socket are dropped by the comparison of the
ids and so are left out. The reservation is one step.
-/

namespace Uboss.Core

open Math SocketServer

/-- The thread whose step it is, if it is not the socket thread. -/
def SocketAct.thread? {Tid : Type} : SocketAct Tid → Option Tid
  | .send t _ _ | .sendLowpriority t _ _ | .udpSend t _ _ _ | .udpConnect t _ | .close t _
  | .start t | .run t _ => some t
  | _ => none

/-- The socket that the slot holds, and the workers that are in a call for an earlier one. -/
structure SocketLives (Tid : Type) where
  server : SocketServer Tid
  former : Tid → Worker Tid

/-- The steps. -/
inductive LifeAct (Tid : Type)
  | act (a : SocketAct Tid)
  /-- The next step of a worker in a call for an earlier socket. -/
  | former (t : Tid) (r : WriteResult)
  /-- `reserve_id`, and the command that opens the socket. -/
  | reserve (protocol : Protocol)
  deriving DecidableEq, Repr

namespace SocketLives

variable {Tid : Type}

/-- The slot after `socket_server_create`, which only sets the type and the lists. -/
def create (memory : Socket (SendTag Tid)) : SocketLives Tid where
  server := { init Tid memory.protocol with
    socket := { memory with type := .invalid, high := .empty, low := .empty }
    pipe := [] }
  former := fun _ => .idle

section Step

variable [DecidableEq Tid] (soi : SocketObjectInterface) (s : SocketLives Tid)

/-- A worker in a call for an earlier socket moves on. -/
def goto (t : Tid) (p : Worker Tid) (server : SocketServer Tid) : SocketLives Tid :=
  ⟨server, Function.update s.former t p⟩

/-- The next step of a worker in a call for an earlier socket. The tests of `can_direct_write`
fail, since the ids differ. -/
def formerRun (t : Tid) (r : WriteResult) : Except SocketFault (SocketLives Tid) :=
  match s.former t with
  | .idle => .error .disabled
  | .entered _ _ | .posting _ => .ok (s.goto t .idle s.server)
  | .tryLock p a =>
    .ok (match s.server.lock with
      | none => s.goto t (.locked p a) { s.server with lock := some t }
      | some _ => s.goto t .idle s.server)
  | .locked _ _ => .ok (s.goto t .idle { s.server with lock := none })
  | .writing p none => .ok (s.goto t .idle
      { s.server.directSend soi t p r with worker := s.server.worker })
  | .writing p (some a) => .ok (s.goto t .idle
      { s.server.directUdpSend soi t p a r with worker := s.server.worker })

/-- `new_fd` initialises the lock. -/
def initLock (server : SocketServer Tid) : SocketServer Tid :=
  if s.server.socket.type = .reserve ∧ server.socket.type ≠ .reserve ∧
      server.socket.type ≠ .invalid then { server with lock := none }
  else server

/-- `reserve_id`. The workers in a call stay in it. -/
def reserve (protocol : Protocol) : SocketLives Tid where
  server := { s.server with
    socket := { s.server.socket with
      type := .reserve
      protocol := protocol
      udpconnecting := 0 }
    pipe := [.open]
    worker := fun _ => .idle }
  former := fun t =>
    match s.former t with
    | .idle => s.server.worker t
    | w => w

/-- One step. -/
def step : LifeAct Tid → Except SocketFault (SocketLives Tid)
  | .act a =>
    match a.thread?.map s.former with
    | none | some .idle => (s.server.step soi a).map fun server => ⟨s.initLock server, s.former⟩
    | some _ => .error .disabled
  | .former t r => s.formerRun soi t r
  | .reserve protocol =>
    if s.server.socket.type = .invalid then .ok (s.reserve protocol) else .error .disabled

/-- The steps that have a result, as a transition function. -/
def next (a : LifeAct Tid) : Option (SocketLives Tid) := (s.step soi a).toOption

end Step

end SocketLives

namespace SocketServer

variable {Tid : Type} {soi : SocketObjectInterface} {s s' : SocketServer Tid}

/-- The invariant of all lives: before a socket is opened the lists are empty, but `wb_size` can
be anything. -/
structure Accounted (soi : SocketObjectInterface) (s : SocketServer Tid) : Prop where
  socket : s.socket.Inv soi
  counted : ¬ s.Closing → s.socket.IsOpen → s.socket.Counted
  unopened : ¬ s.socket.IsOpen → s.socket.queued = [] ∧ s.poller = .idle
  opening : s.socket.type = .reserve → ∃ pipe, s.pipe = .open :: pipe ∧ .open ∉ pipe
  opened : s.socket.type ≠ .reserve → .open ∉ s.pipe
  closing : s.Closing → s.socket.queued = []
  posting : ∀ t, s.worker t ≠ .posting .open

namespace Accounted

theorem stepReady (h : s.Accounted soi) : s.StepReady soi where
  socket := h.socket
  counted := h.counted
  head hpipe hc hreserve := by
    obtain ⟨pipe, hopen, -⟩ := h.opening hreserve
    rw [hpipe] at hopen
    exact hc (List.cons_eq_cons.mp hopen).1
  deciding hpoller := by
    by_contra hopen
    rw [(h.unopened hopen).2] at hpoller
    cases hpoller
  posting := h.posting

/-- The socket is reserved when the command that opens it is executed. -/
theorem type_of_open (h : s.Accounted soi) {pipe : List (Command Tid)}
    (hpipe : s.pipe = .open :: pipe) : s.socket.type = .reserve := by
  by_contra hne
  exact h.opened hne (by simp [hpipe])

theorem queued_of_open (h : s.Accounted soi) {pipe : List (Command Tid)}
    (hpipe : s.pipe = .open :: pipe) : s.socket.queued = [] :=
  (h.unopened fun hopen => hopen.2 (h.type_of_open hpipe)).1

section Change

variable [DecidableEq Tid] {a : SocketAct Tid}

variable (h : s.Accounted soi)
include h

theorem unopened_change (hchange : Change soi s a s') (hopen : ¬ s'.socket.IsOpen) :
    s'.socket.queued = [] ∧ s'.poller = .idle := by
  cases hchange with
  | direct _ _ hx =>
    rcases hx with ⟨-, rfl⟩ | ⟨-, rfl⟩
    · exact h.unopened hopen
    · exact h.unopened hopen
  | opened hpoller hpipe _ _ hhigh hlow =>
    refine ⟨?_, hpoller⟩
    rw [Socket.queued, hhigh, hlow]
    exact h.queued_of_open hpipe
  | queue hpoller hpipe hx =>
    rcases hx with ⟨rfl, -⟩ | ⟨hdrops, hq⟩
    · exact h.unopened hopen
    · -- a packet is queued on an open socket only
      refine absurd ?_ hopen
      have hne : s.socket.type ≠ .invalid := fun hinvalid => hdrops (.inl hinvalid)
      exact ⟨hq.same.type ▸ hne, hq.same.type ▸ h.stepReady.head hpipe (by simp)⟩
  | pop hpoller _ _ _ hx hretyped =>
    refine ⟨?_, hpoller⟩
    rw [Socket.queued, hx.high, hx.low]
    rcases hretyped with heq | ⟨-, heq⟩ | ⟨-, heq⟩ | ⟨-, heq⟩
    · exact (h.unopened fun h => hopen ⟨heq ▸ h.1, heq ▸ h.2⟩).1
    all_goals exact absurd (by simp [Socket.IsOpen, heq]) hopen
  | closeCmd hpoller hpipe htype =>
    exact absurd ⟨htype, h.stepReady.head hpipe (by simp)⟩ hopen
  | flush _ _ hopen' _ hf =>
    have htype := hf.type.trans (Socket.merged_mergeDw soi s.socket).type
    exact absurd ⟨htype ▸ hopen'.1, htype ▸ hopen'.2⟩ hopen
  | flushClosed hpoller _ _ _ hf =>
    obtain ⟨-, hhigh, hlow, -⟩ := hf.socket
    exact ⟨by simp [Socket.queued, hhigh, hlow, WbList.empty], hpoller⟩
  | halfclose => exact absurd (by simp [Socket.IsOpen]) hopen
  | forceClose _ hopen' => exact absurd hopen' hopen
  | connected _ _ _ htype => exact absurd (by simp [Socket.IsOpen, htype]) hopen
  | reported hpoller =>
    rw [(h.unopened hopen).2] at hpoller
    cases hpoller
  | closed hpoller => exact ⟨h.closing ⟨_, hpoller⟩, rfl⟩
  | _ => exact h.unopened hopen

/-- A reserved slot waits for the command that opens the socket. -/
theorem reserve_change (htype : s.socket.type = .reserve) (hchange : Change soi s a s') :
    (s'.socket.type = .reserve ∧ ∃ pipe, s'.pipe = .open :: pipe ∧ .open ∉ pipe) ∨
      (s'.socket.type ≠ .reserve ∧ .open ∉ s'.pipe) := by
  have hnot : ¬ s.socket.IsOpen := fun hopen => hopen.2 htype
  have hidle := (h.unopened hnot).2
  obtain ⟨pipe, hpipe, hopen⟩ := h.opening htype
  have hhead : ∀ {c pipe'}, s.pipe = c :: pipe' → c ≠ .open → False := fun hp hc =>
    h.stepReady.head hp hc htype
  have hconcat : ∀ {c}, c ≠ .open → ∃ pipe, s.pipe ++ [c] = .open :: pipe ∧ .open ∉ pipe :=
    fun {c} hc => ⟨pipe ++ [c], by simp [hpipe], by simp [hopen, hc.symm]⟩
  cases hchange with
  | direct _ _ hx =>
    rcases hx with ⟨-, rfl⟩ | ⟨-, rfl⟩
    · exact .inl ⟨htype, pipe, hpipe, hopen⟩
    · exact .inl ⟨htype, pipe, hpipe, hopen⟩
  | postSend => exact .inl ⟨htype, hconcat (by simp)⟩
  | post _ hc => exact .inl ⟨htype, hconcat hc⟩
  | opened _ hpipe' htype' =>
    rw [hpipe] at hpipe'
    exact .inr ⟨htype', (List.cons_eq_cons.mp hpipe').2 ▸ hopen⟩
  | queue _ hp => exact (hhead hp (by simp)).elim
  | pop _ hp _ hc => exact (hhead hp hc).elim
  | closeCmd _ hp => exact (hhead hp (by simp)).elim
  | flush _ _ hisopen => exact absurd hisopen hnot
  | flushClosed _ _ hisopen => exact absurd hisopen hnot
  | forceClose _ hisopen => exact absurd hisopen hnot
  | connected _ _ hretyped =>
    rcases hretyped with ⟨h, -⟩ | ⟨h, -⟩ | ⟨h, -⟩ <;> rw [htype] at h <;> cases h
  | halfclose hpoller | reported hpoller | closed hpoller =>
    rw [hidle] at hpoller
    cases hpoller
  | _ => exact .inl ⟨htype, pipe, hpipe, hopen⟩

theorem of_change (hchange : Change soi s a s') : s'.Accounted soi := by
  have hopen : (s'.socket.type = .reserve ∧ ∃ pipe, s'.pipe = .open :: pipe ∧ .open ∉ pipe) ∨
      (s'.socket.type ≠ .reserve ∧ .open ∉ s'.pipe) := by
    by_cases htype : s.socket.type = .reserve
    · exact h.reserve_change htype hchange
    · exact .inr (opened_change htype (h.opened htype) hchange)
  exact {
    socket := socket_inv_change h.socket hchange
    counted := h.stepReady.counted_change (fun _ => h.queued_of_open) hchange
    unopened := h.unopened_change hchange
    opening := fun htype => (hopen.resolve_right fun h => h.1 htype).2
    opened := fun htype => (hopen.resolve_left fun h => htype h.1).2
    closing := closing_change h.closing hchange
    posting := posting_change h.posting hchange }

theorem step (hstep : s.step soi a = .ok s') : s'.Accounted soi :=
  h.of_change (h.stepReady.change hstep)

end Change

/-- The lock, the write event, the direct-write buffer and what is logged do not matter. -/
theorem congr (h : s.Accounted soi) (hsocket : ∃ dw wantWrite,
      s'.socket = { s.socket with dw := dw, wantWrite := wantWrite })
    (hpipe : s'.pipe = s.pipe) (hpoller : s'.poller = s.poller) (hworker : s'.worker = s.worker) :
    s'.Accounted soi := by
  obtain ⟨dw, wantWrite, hsocket⟩ := hsocket
  refine ⟨?_, ?_, ?_, ?_, ?_, ?_, ?_⟩
  · rw [hsocket]
    exact socket_inv_congr h.socket rfl rfl
  · rw [Closing, hpoller, hsocket]
    exact h.counted
  · rw [hsocket, hpoller]
    exact h.unopened
  · rw [hsocket, hpipe]
    exact h.opening
  · rw [hsocket, hpipe]
    exact h.opened
  · rw [Closing, hpoller, hsocket]
    exact h.closing
  · rw [hworker]
    exact h.posting

end Accounted

end SocketServer

namespace SocketLives

variable {Tid : Type} [DecidableEq Tid] {soi : SocketObjectInterface} {s s' : SocketLives Tid}

omit [DecidableEq Tid] in
theorem accounted_create (soi : SocketObjectInterface) (memory : Socket (SendTag Tid)) :
    (create memory).server.Accounted soi where
  socket := ⟨WbList.wf_empty, WbList.wf_empty, by simp [create, WbList.empty]⟩
  counted _ hopen := absurd rfl hopen.1
  unopened _ := ⟨rfl, rfl⟩
  opening h := by cases h
  opened _ := by simp [create]
  closing h := by
    obtain ⟨freed, hfreed⟩ := h
    cases hfreed
  posting t := by simp [create, init]

omit [DecidableEq Tid] in
theorem accounted_initLock {server : SocketServer Tid} (h : server.Accounted soi) :
    (s.initLock server).Accounted soi := by
  unfold initLock
  split_ifs
  · exact h.congr ⟨_, _, rfl⟩ rfl rfl rfl
  · exact h

theorem accounted_formerRun (h : s.server.Accounted soi) {t : Tid} {r : WriteResult}
    (hrun : s.formerRun soi t r = .ok s') : s'.server.Accounted soi := by
  unfold formerRun at hrun
  split at hrun
  · cases hrun
  · cases hrun
    exact h
  · cases hrun
    exact h
  · cases hrun
    split
    · exact h.congr ⟨_, _, rfl⟩ rfl rfl rfl
    · exact h
  · cases hrun
    exact h.congr ⟨_, _, rfl⟩ rfl rfl rfl
  next p _ =>
    cases hrun
    refine h.congr ?_ rfl rfl rfl
    by_cases hall : directCount soi p r = (p.object soi).sz
    · exact ⟨s.server.socket.dw, s.server.socket.wantWrite, if_pos hall⟩
    · exact ⟨some (p, directCount soi p r), true, if_neg hall⟩
  · cases hrun
    unfold directUdpSend
    split
    · exact h.congr ⟨_, _, rfl⟩ rfl rfl rfl
    · exact h.congr ⟨_, _, rfl⟩ rfl rfl rfl

omit [DecidableEq Tid] in
theorem accounted_reserve (h : s.server.Accounted soi) (htype : s.server.socket.type = .invalid)
    (protocol : Protocol) : (s.reserve protocol).server.Accounted soi := by
  obtain ⟨hqueued, hpoller⟩ := h.unopened fun hopen => hopen.1 htype
  exact {
    socket := socket_inv_congr h.socket rfl rfl
    counted := fun _ hopen => absurd rfl hopen.2
    unopened := fun _ => ⟨hqueued, hpoller⟩
    opening := fun _ => ⟨[], rfl, by simp⟩
    opened := fun hne => absurd rfl hne
    closing := fun hclosing => absurd hclosing (not_closing_of_idle hpoller)
    posting := fun t => by simp [reserve] }

theorem accounted_step (h : s.server.Accounted soi) {a : LifeAct Tid}
    (hstep : s.step soi a = .ok s') : s'.server.Accounted soi := by
  cases a with
  | act a =>
    simp only [step] at hstep
    split at hstep
    · obtain ⟨server, hserver, rfl⟩ := map_eq_ok_iff.mp hstep
      exact accounted_initLock (h.step hserver)
    · obtain ⟨server, hserver, rfl⟩ := map_eq_ok_iff.mp hstep
      exact accounted_initLock (h.step hserver)
    · cases hstep
  | former t r => exact accounted_formerRun h hstep
  | reserve protocol =>
    simp only [step] at hstep
    split_ifs at hstep with htype
    cases hstep
    exact accounted_reserve h htype protocol

/-- Between two steps of the socket thread, `wb_size` of an open socket is the number of unsent
bytes in its two lists, which are well formed, whatever sockets the slot was used for before. -/
theorem wbSize_eq_of_reachable (soi : SocketObjectInterface) (memory : Socket (SendTag Tid))
    (s : SocketLives Tid) (h : Reachable (next soi) (create memory) s)
    (hpoller : s.server.poller = .idle) (hopen : s.server.socket.IsOpen) :
    s.server.socket.wbSize =
        ((s.server.socket.high.chain ++ s.server.socket.low.chain).map (·.sz)).sum ∧
      0 ≤ s.server.socket.wbSize ∧ s.server.socket.high.WF ∧ s.server.socket.low.WF := by
  have hs : s.server.Accounted soi := h.invariant (accounted_create soi memory)
    fun hnext h => accounted_step h (toOption_eq_some_iff.mp hnext)
  have hcount := hs.counted (SocketServer.not_closing_of_idle hpoller) hopen
  have hsum : s.server.socket.wbSize =
      ((s.server.socket.high.chain ++ s.server.socket.low.chain).map (·.sz)).sum := by
    rw [hcount, List.map_append, List.sum_append, Int.natCast_add]
    rfl
  refine ⟨hsum, ?_, hs.socket.high_wf, hs.socket.low_wf⟩
  rw [hsum]
  exact Int.natCast_nonneg _

/-- A socket is shut down with three bytes left, and the slot is used for a UDP socket, on which a
datagram is queued. -/
def recycleRun : List (LifeAct ℕ) :=
  [.reserve .tcp, .act (.command ⟨some .connected, [], true⟩), .act (.sendLowpriority 0 1000 4),
    .act (.run 0 .again), .act (.command ⟨none, [], true⟩), .act (.writeEvent [.wrote 1]),
    .act (.send 1 3000 2), .act (.close 0 true), .act (.command ⟨none, [.again], true⟩),
    .act .decide, .act .closed, .reserve .udp, .former 1 .again,
    .act (.command ⟨some .connected, [], true⟩), .act (.sendLowpriority 0 2000 5),
    .act (.run 0 .again), .act (.command ⟨none, [.again], true⟩)]

theorem wbSize_eq_of_reachable_recycled :
    ∃ s, Reachable (next noObjects) (create (SocketServer.init ℕ .tcp).socket) s ∧
      s.server.poller = .idle ∧ s.server.socket.type = .connected ∧
      s.server.socket.wbSize = 5 ∧
      s.server.socket.wbSize =
        ((s.server.socket.high.chain ++ s.server.socket.low.chain).map (·.sz)).sum := by
  obtain ⟨s, hs⟩ : ∃ s, exec (next noObjects) (create (SocketServer.init ℕ .tcp).socket)
      recycleRun = some s := ⟨_, rfl⟩
  have hend : (exec (next noObjects) (create (SocketServer.init ℕ .tcp).socket) recycleRun).map
      (fun s => (s.server.poller, s.server.socket.type, s.server.socket.wbSize)) =
        some (.idle, .connected, 5) := by decide
  rw [hs, Option.map_some, Option.some_inj, Prod.mk.injEq, Prod.mk.injEq] at hend
  obtain ⟨hpoller, htype, hsize⟩ := hend
  have hopen : s.server.socket.IsOpen := by simp [Socket.IsOpen, htype]
  exact ⟨s, reachable_of_exec hs, hpoller, htype, hsize,
    (wbSize_eq_of_reachable noObjects _ s (reachable_of_exec hs) hpoller hopen).1⟩

end SocketLives

end Uboss.Core
