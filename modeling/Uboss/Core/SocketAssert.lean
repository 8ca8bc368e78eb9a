import Uboss.Core.SocketStep

/-!
# The assertions on the write buffers

Since the lists are well formed and `wb_size` is right in every run, of the assertions only the
two of `send_buffer_` can fail. They do when a flush stops in the low list at the start of a
packet, and when a user object whose data is not at its own address is the head of the low list.
-/

namespace Uboss.Core

open Math SocketServer

namespace SocketServer

variable {Tid : Type} {soi : SocketObjectInterface} {s s' : SocketServer Tid}
  {a : SocketAct Tid} {e : SocketFault}

/-- If the step flushes, the head of the low list is not a user object with its data elsewhere,
and the results do not stop the flush in the low list at the address of a packet. -/
def SafeFlush (soi : SocketObjectInterface) (s : SocketServer Tid) (a : SocketAct Tid) : Prop :=
  ∀ rs, s.Flushes a rs → (∀ wb ∈ s.socket.low.chain.head?, ¬ wb.packet.Displaced soi) ∧
      ¬ (s.socket.mergeDw soi).StopsInLow rs

theorem sendBuffer_error_iff (hclosing : ¬ s.Closing) (hs : s.Inv soi)
    (hopen : s.socket.IsOpen) {rs : List WriteResult} :
    s.socket.sendBuffer soi rs = .error e ↔
      e = .lowUncomplete ∧ (∃ wb ∈ s.socket.low.chain.head?, wb.packet.Displaced soi) ∨
      e = .notEmpty ∧ (¬ ∃ wb ∈ s.socket.low.chain.head?, wb.packet.Displaced soi) ∧
        (s.socket.mergeDw soi).StopsInLow rs := by
  have hmerged := Socket.merged_mergeDw soi s.socket
  rw [Socket.sendBuffer, Socket.flush_error_iff (hmerged.isOpen hopen) (hmerged.inv hs.socket)
    (hmerged.counted (hs.counted hclosing hopen)), hmerged.low]

theorem request_error {t : Tid} {c : Command Tid} (h : s.request t c = .error e) :
    e = .disabled := by
  unfold request at h
  split at h <;> cases h
  rfl

/-- `send_buffer` under the lock fails exactly as the flush of the socket does. -/
theorem sendBuffer_eq_error_iff {rs : List WriteResult} :
    s.sendBuffer soi rs = .error e ↔ s.lock = none ∧ s.socket.sendBuffer soi rs = .error e := by
  unfold sendBuffer
  split
  next hlock => simp [hlock]
  next hlock => simp [hlock, map_eq_error_iff]

theorem closeSocket_error_iff {shutdown : Bool} {rs : List WriteResult} :
    s.closeSocket soi shutdown rs = .error e ↔
      s.socket.type ≠ .invalid ∧ s.socket.queued ≠ [] ∧ s.lock = none ∧
        s.socket.sendBuffer soi rs = .error e := by
  have hempty : s.socket.sendBufferEmpty = true ↔ s.socket.queued = [] := by
    rw [Socket.sendBufferEmpty_iff, Socket.queued, List.append_eq_nil_iff]
  unfold closeSocket
  split_ifs with htype hnil
  · simp [htype]
  · simp [hempty.mp hnil]
  · rw [map_eq_error_iff, sendBuffer_eq_error_iff]
    have hne : s.socket.queued ≠ [] := fun h => hnil (hempty.mpr h)
    simp [htype, hne]

section Step

variable [DecidableEq Tid]

theorem enter_error {t : Tid} {ordered : Bool} {buffer : ℕ} {sz : ℤ}
    {next : Packet (SendTag Tid) → Worker Tid} (h : s.enter t ordered buffer sz next = .error e) :
    e = .disabled := by
  unfold enter at h
  split at h
  · split_ifs at h
  · cases h
    rfl

theorem run_error {t : Tid} {r : WriteResult} (h : s.run soi t r = .error e) : e = .disabled := by
  unfold run at h
  split at h <;> cases h
  rfl

theorem ctrlCmd_error (hs : s.Inv soi) {r : CommandResult} {c : Command Tid}
    {pipe : List (Command Tid)} (hc : ∀ shutdown, c ≠ .close shutdown)
    (h : ctrlCmd soi { s with pipe := pipe } r c = .error e) : e = .disabled := by
  cases c with
  | «open» =>
    change newFd { s with pipe := pipe } r.opened = _ at h
    unfold newFd at h
    split at h
    · cases h
    · split_ifs at h
      cases h
      rfl
  | send p priority address =>
    obtain ⟨x, hx, -⟩ :=
      Socket.sendSocket_cases hs.socket p priority address (r.results.headD .again)
    have herror := map_eq_error_iff.mp h
    rw [hx] at herror
    cases herror
  | close shutdown => exact absurd rfl (hc shutdown)
  | start =>
    change startSocket { s with pipe := pipe } r.added = _ at h
    unfold startSocket at h
    split_ifs at h with htype hadded
    have htype' : s.socket.type = .paccept ∨ s.socket.type = .plisten := htype
    have hopen : s.socket.IsOpen := by
      unfold Socket.IsOpen
      rcases htype' with h | h <;> simp [h]
    rw [forceClose_eq (s := { s with pipe := pipe }) hopen] at h
    cases h
  | setUdp b => cases h

theorem step_of_flush_error {rs : List WriteResult} (hflush : s.Flushes a rs)
    (h : s.socket.sendBuffer soi rs = .error e) : s.step soi a = .error e := by
  cases a with
  | command r =>
    obtain ⟨rfl, hpoller, ⟨shutdown, pipe, hpipe⟩, htype, hne, hlock⟩ := hflush
    simp only [step, hpoller, hpipe, ctrlCmd]
    exact closeSocket_error_iff.mpr ⟨htype, hne, hlock, h⟩
  | writeEvent rs' =>
    obtain ⟨rfl, hpolled, hlock⟩ := hflush
    simp only [step, if_pos hpolled]
    exact map_eq_error_iff.mpr (sendBuffer_eq_error_iff.mpr ⟨hlock, h⟩)
  | _ => exact hflush.elim

theorem step_error (hs : s.Inv soi) (h : s.step soi a = .error e) :
    e = .disabled ∨ ∃ rs, s.Flushes a rs ∧ s.socket.sendBuffer soi rs = .error e := by
  cases a with
  | send t buffer sz | sendLowpriority t buffer sz =>
    simp only [step] at h
    exact .inl (enter_error h)
  | udpSend t address buffer sz =>
    simp only [step] at h
    split_ifs at h with htcp
    · cases h
      exact .inl rfl
    · exact .inl (enter_error h)
  | udpConnect t address =>
    simp only [step] at h
    split at h
    · split_ifs at h
    · cases h
      exact .inl rfl
  | close t shutdown => exact .inl (request_error h)
  | start t => exact .inl (request_error h)
  | run t r => exact .inl (run_error h)
  | command r =>
    simp only [step] at h
    split at h
    next c pipe hpoller hpipe =>
      by_cases hc : ∃ shutdown, c = .close shutdown
      · obtain ⟨shutdown, rfl⟩ := hc
        obtain ⟨htype, hne, hlock, herror⟩ := closeSocket_error_iff.mp h
        exact .inr ⟨_, ⟨rfl, hpoller, ⟨shutdown, pipe, hpipe⟩, htype, hne, hlock⟩, herror⟩
      · exact .inl (ctrlCmd_error hs (fun shutdown heq => hc ⟨shutdown, heq⟩) h)
    next =>
      cases h
      exact .inl rfl
  | writeEvent rs =>
    simp only [step] at h
    split_ifs at h with hpolled
    · obtain ⟨hlock, herror⟩ := sendBuffer_eq_error_iff.mp (map_eq_error_iff.mp h)
      exact .inr ⟨rs, ⟨rfl, hpolled, hlock⟩, herror⟩
    · cases h
      exact .inl rfl
  | hangup =>
    simp only [step] at h
    split_ifs at h with hpolled
    · rw [forceClose_eq (s := { s with broken := true }) hpolled.isOpen] at h
      cases h
    · cases h
      exact .inl rfl
  | connectEvent ok =>
    simp only [step] at h
    split_ifs at h with hpolled
    · unfold reportConnect at h
      have hopen : s.socket.IsOpen := by simp [Socket.IsOpen, hpolled.2]
      rw [forceClose_eq hopen] at h
      split_ifs at h
    · cases h
      exact .inl rfl
  | decide =>
    simp only [step] at h
    split at h
    next shutdown hpoller =>
      rw [closeDecide, forceClose_eq
        (s := { s with broken := s.broken || shutdown, poller := .idle })
        (hs.isOpen_of_deciding hpoller)] at h
      split_ifs at h
    next =>
      cases h
      exact .inl rfl
  | reported =>
    simp only [step] at h
    split at h <;> cases h
    exact .inl rfl
  | closed =>
    simp only [step] at h
    split at h <;> cases h
    exact .inl rfl

/-- No assertion fails in the step. -/
def AssertionsHold (soi : SocketObjectInterface) (s : SocketServer Tid) (a : SocketAct Tid) :
    Prop :=
  ∀ e, s.step soi a = .error e → e = .disabled

omit [DecidableEq Tid] in
theorem Flushes.isOpen (hs : s.Inv soi) {rs : List WriteResult} (h : s.Flushes a rs) :
    s.socket.IsOpen ∧ ¬ s.Closing := by
  cases a with
  | command r =>
    obtain ⟨-, hpoller, ⟨shutdown, pipe, hpipe⟩, htype, -⟩ := h
    exact ⟨hs.isOpen_of_pipe hpipe (by simp) htype, not_closing_of_idle hpoller⟩
  | writeEvent rs' => exact ⟨h.2.1.isOpen, not_closing_of_idle h.2.1.1⟩
  | _ => exact h.elim

/-- In every run, on TCP and on UDP, a step fails no assertion if and only if it does not flush
into one of the two situations; the assertions of `append_sendbuffer_` and `raise_uncomplete`
never fail. -/
theorem assertions_hold_iff (soi : SocketObjectInterface) (protocol : Protocol)
    (s : SocketServer Tid) (hreach : Reachable (next soi) (init Tid protocol) s)
    (a : SocketAct Tid) :
    (s.AssertionsHold soi a ↔ s.SafeFlush soi a) ∧
      s.step soi a ≠ .error .tail ∧ s.step soi a ≠ .error .highNotEmpty := by
  have hs := inv_of_reachable hreach
  have hkind : ∀ e, s.step soi a = .error e →
      e = .disabled ∨ e = .lowUncomplete ∨ e = .notEmpty := by
    intro e h
    rcases step_error hs h with rfl | ⟨rs, hflush, herror⟩
    · exact .inl rfl
    · obtain ⟨hopen, hclosing⟩ := hflush.isOpen hs
      rcases (sendBuffer_error_iff hclosing hs hopen).mp herror with ⟨he, -⟩ | ⟨he, -⟩
      · exact .inr (.inl he)
      · exact .inr (.inr he)
  refine ⟨⟨fun hhold rs hflush => ?_, fun hsafe e h => ?_⟩, fun h => ?_, fun h => ?_⟩
  · obtain ⟨hopen, hclosing⟩ := hflush.isOpen hs
    have herror : ∀ e, e ≠ .disabled → s.socket.sendBuffer soi rs ≠ .error e := fun e he h =>
      he (hhold e (step_of_flush_error hflush h))
    have hlow : ¬ ∃ wb ∈ s.socket.low.chain.head?, wb.packet.Displaced soi := fun h =>
      herror .lowUncomplete (by simp) ((sendBuffer_error_iff hclosing hs hopen).mpr (.inl ⟨rfl, h⟩))
    refine ⟨fun wb hwb h => hlow ⟨wb, hwb, h⟩, fun hstop => ?_⟩
    exact herror .notEmpty (by simp)
      ((sendBuffer_error_iff hclosing hs hopen).mpr (.inr ⟨rfl, hlow, hstop⟩))
  · rcases step_error hs h with he | ⟨rs, hflush, herror⟩
    · exact he
    · obtain ⟨hopen, hclosing⟩ := hflush.isOpen hs
      obtain ⟨hlow, hstop⟩ := hsafe rs hflush
      rcases (sendBuffer_error_iff hclosing hs hopen).mp herror with ⟨-, wb, hwb, h⟩ | ⟨-, -, h⟩
      · exact absurd h (hlow wb hwb)
      · exact absurd h hstop
  · rcases hkind _ h with h | h | h <;> cases h
  · rcases hkind _ h with h | h | h <;> cases h

end Step

/-- Two packets of low priority on a connected socket. The first goes to the high list, since
the lists are empty, and the second to the low list. -/
def twoLowPackets : List (SocketAct ℕ) := [.command ⟨some .connected, [], true⟩,
    .sendLowpriority 0 1000 4, .run 0 .again, .sendLowpriority 0 2000 4, .run 0 .again,
    .command ⟨none, [], true⟩, .command ⟨none, [], true⟩]

/-- A flush that sends the first packet and one byte of the second is safe. -/
theorem assertions_hold_partial : ∃ s, exec (next noObjects) (init ℕ .tcp) twoLowPackets = some s ∧
      s.AssertionsHold noObjects (.writeEvent [.wrote 4, .wrote 1]) := by
  obtain ⟨s, hs⟩ : ∃ s, exec (next noObjects) (init ℕ .tcp) twoLowPackets = some s := ⟨_, rfl⟩
  have hlists : (exec (next noObjects) (init ℕ .tcp) twoLowPackets).map
      (fun s => (s.socket.mergeDw noObjects).high.chain) =
        some [⟨⟨⟨0, 0, false⟩, 1000, 4⟩, 1000, 4, false, none⟩] ∧
      (exec (next noObjects) (init ℕ .tcp) twoLowPackets).map
        (fun s => (s.socket.mergeDw noObjects).low.chain) =
          some [⟨⟨⟨0, 1, false⟩, 2000, 4⟩, 2000, 4, false, none⟩] ∧
      (exec (next noObjects) (init ℕ .tcp) twoLowPackets).map
        (fun s => (s.socket.mergeDw noObjects).protocol) = some .tcp := by decide
  simp only [hs, Option.map_some, Option.some_inj] at hlists
  obtain ⟨hhigh, hlow, htcp⟩ := hlists
  refine ⟨s, hs, (assertions_hold_iff noObjects .tcp s (reachable_of_exec hs) _).1.mpr ?_⟩
  rintro rs ⟨rfl, -⟩
  refine ⟨?_, ?_⟩
  · rw [← (Socket.merged_mergeDw noObjects s.socket).low, hlow]
    simp [Packet.Displaced]
  · rintro ⟨rs₂, hpass, hstop⟩
    rw [htcp, hhigh] at hpass
    rw [htcp, hlow] at hstop
    simp only [effective, if_true, List.filter, ne_eq, reduceCtorEq, not_false_eq_true, decide_true,
      passesAll_cons_cons, passesAll_nil] at hpass
    rw [← hpass.2, stopsAtPacket_cons_cons] at hstop
    simp [StopsAtBuffer, not_stopsAtPacket_nil] at hstop

/-- A flush that sends the first packet and finds the fd full fails the assertion of step 4. -/
theorem assertion_fails_at_packet_boundary :
    ¬ ∀ (soi : SocketObjectInterface) (protocol : Protocol) (s : SocketServer ℕ),
      Reachable (next soi) (init ℕ protocol) s → ∀ a, s.AssertionsHold soi a := by
  intro hclaim
  obtain ⟨s, hs⟩ : ∃ s, exec (next noObjects) (init ℕ .tcp) twoLowPackets = some s := ⟨_, rfl⟩
  have hfail : (exec (next noObjects) (init ℕ .tcp) twoLowPackets).map
      (fun s => match s.step noObjects (.writeEvent [.wrote 4, .again]) with
        | .error e => some e
        | .ok _ => none) = some (some .notEmpty) := by decide
  rw [hs, Option.map_some, Option.some_inj] at hfail
  have hhold := hclaim noObjects .tcp s (reachable_of_exec hs) (.writeEvent [.wrote 4, .again])
  cases hstep : s.step noObjects (.writeEvent [.wrote 4, .again]) with
  | ok s' => simp [hstep] at hfail
  | error e =>
    rw [hstep] at hfail
    have he := hhold e hstep
    rw [he] at hfail
    cases hfail

end SocketServer

end Uboss.Core
