import Uboss.Core.SocketStep

/-!
# The write event

Data that is still to be sent is sent by a write event, so the event has to be enabled as long as
there is any. `open_socket`, `send_socket` and the direct write enable it, and `send_buffer_` and
`report_connect` disable it. The last one does so without the lock, and `send_socket` does not
enable it for a bound fd.
-/

namespace Uboss.Core

open Math Socket

/-- There is data to be sent: in one of the lists, or left from a direct write. -/
def Socket.Pending {ι : Type} (x : Socket ι) : Prop := x.queued ≠ [] ∨ x.dw ≠ none

instance {ι : Type} [DecidableEq ι] (x : Socket ι) : Decidable x.Pending :=
  inferInstanceAs (Decidable (_ ∨ _))

namespace SocketServer

variable {Tid : Type} {soi : SocketObjectInterface} {s s' : SocketServer Tid}

/-- Between two steps of the socket thread, the write event of a socket that can send is enabled
if there is data to be sent. -/
def WriteEnabled (s : SocketServer Tid) : Prop := s.poller = .idle →
    s.socket.type = .connected ∨ s.socket.type = .halfclose ∨ s.socket.type = .bind →
      s.socket.Pending → s.socket.wantWrite = true

instance [DecidableEq Tid] (s : SocketServer Tid) : Decidable s.WriteEnabled :=
  inferInstanceAs (Decidable (_ → _ → _ → _))

/-- The condition on a step: no packet from the pipe is queued on a bound fd, and when
`report_connect` disables the write event nothing is left from a direct write. -/
def SafeWake (s : SocketServer Tid) (a : SocketAct Tid) : Prop :=
  (∀ r p priority address pipe, a = .command r → s.pipe = .send p priority address :: pipe →
    s.socket.type ≠ .bind) ∧
  (a = .reported → s.socket.queued = [] → s.socket.dw = none)

/-- The invariant of the runs whose steps meet the condition. A socket that is being connected
has the write event for the connection, until a flush by `close_socket` has sent everything, and
then it is closed at once. -/
structure Waking (soi : SocketObjectInterface) (s : SocketServer Tid) : Prop where
  inv : s.Inv soi
  enabled : ¬ s.Closing → s.socket.type ≠ .invalid → s.socket.Pending → s.socket.wantWrite = true
  connecting : s.socket.type = .connecting → ¬ s.Closing → s.socket.wantWrite = true ∨
    s.socket.queued = [] ∧ ∃ shutdown, s.poller = .deciding shutdown
  reporting : s.poller = .reporting → s.socket.type = .connected

theorem waking_init (soi : SocketObjectInterface) (protocol : Protocol) :
    (init Tid protocol).Waking soi where
  inv := inv_init soi protocol
  enabled _ _ h := by
    rcases h with h | h
    · exact absurd rfl h
    · exact absurd rfl h
  connecting h := by cases h
  reporting h := by cases h

theorem pending_of_sameLists {x y : Socket (SendTag Tid)} (hx : x.SameLists y) :
    x.Pending ↔ y.Pending := by
  rw [Socket.Pending, queued, hx.high, hx.low, hx.dw]
  rfl

theorem pending_of_flushed {f : Flush (SendTag Tid)} (hf : (s.socket.mergeDw soi).Flushed f)
    (h : f.socket.queued ≠ []) : s.socket.Pending := by
  have hmerged := merged_mergeDw soi s.socket
  by_contra hnone
  simp only [Socket.Pending, not_or, not_not] at hnone
  obtain ⟨hqueued, hdw⟩ := hnone
  obtain ⟨hhigh, hlow⟩ := List.append_eq_nil_iff.mp hqueued
  have hnil : (s.socket.mergeDw soi).queued = [] := by
    rw [queued, hmerged.high, hmerged.low, pending_of_dw hdw, hhigh, hlow]
    rfl
  obtain ⟨w, -, hsent⟩ := hf.sent
  rw [hnil] at hsent
  generalize f.socket.queued = l at hsent h
  cases hsent
  exact h rfl

section Change

variable [DecidableEq Tid] {a : SocketAct Tid}

/-- A step keeps the write event as long as there is data to be sent. -/
theorem Waking.enabled_change (h : s.Waking soi) (hguard : s.SafeWake a)
    (hchange : Change soi s a s') (hclosing : ¬ s'.Closing) (htype : s'.socket.type ≠ .invalid)
    (hpending : s'.socket.Pending) : s'.socket.wantWrite = true := by
  cases hchange with
  | direct _ _ hx =>
    rcases hx with ⟨-, rfl⟩ | ⟨-, rfl⟩
    · exact h.enabled hclosing htype hpending
    · rfl
  | opened _ hpipe _ _ hhigh hlow _ _ hdw =>
    -- the socket was reserved, with nothing to be sent
    rcases h.inv.opening with hres | ⟨-, hopen⟩
    · rcases hpending with hqueued | hsome
      · rw [queued, hhigh, hlow] at hqueued
        exact absurd hres.queued hqueued
      · exact absurd (hdw.elim id fun h => h.trans hres.dw) hsome
    · exact absurd (by simp [hpipe]) hopen
  | @queue r pipe p priority address x _ _ hpoller hpipe hx =>
    rcases hx with ⟨rfl, -⟩ | ⟨hdrops, hq⟩
    · exact h.enabled hclosing htype hpending
    · rcases hq.wantWrite with hwant | ⟨hwant, hbusy⟩
      · exact hwant
      -- `sp_write` was not called, so the socket is not connected or there was data before
      · change x.wantWrite = true
        rw [hwant]
        have hclosing' := not_closing_of_idle hpoller
        have hreserve := h.inv.stepReady.head hpipe (by simp)
        have hbind := hguard.1 r p priority address pipe rfl hpipe
        cases htype' : s.socket.type with
        | connected =>
          refine h.enabled hclosing' (by simp [htype']) (.inl fun hnil => ?_)
          exact hbusy ⟨hnil, htype'⟩
        | connecting =>
          refine (h.connecting htype' hclosing').resolve_right ?_
          rintro ⟨-, shutdown, hdeciding⟩
          rw [hpoller] at hdeciding
          cases hdeciding
        | reserve => exact absurd htype' hreserve
        | bind => exact absurd htype' hbind
        | invalid | plisten | listen | halfclose | paccept =>
          exact absurd (by simp [Socket.Drops, htype']) hdrops
  | pop hpoller _ _ _ hx hretyped =>
    have hpending' := (pending_of_sameLists hx).mp hpending
    change _ = true
    rw [hx.wantWrite]
    refine h.enabled (not_closing_of_idle hpoller) ?_ hpending'
    rcases hretyped with heq | ⟨heq, -⟩ | ⟨heq, -⟩ | ⟨heq, -⟩
    · rwa [← heq]
    all_goals simp [heq]
  | closeCmd hpoller => exact h.enabled (not_closing_of_idle hpoller) htype hpending
  | flush hpoller _ hopen _ hf =>
    have hmerged := merged_mergeDw soi s.socket
    have hqueued := hpending.resolve_right (by simp [hf.dw, hmerged.dw])
    rcases hf.wantWrite with hnil | hwant
    · exact absurd hnil hqueued
    · change _ = true
      rw [hwant, hmerged.wantWrite]
      exact h.enabled (not_closing_of_idle hpoller) hopen.1 (pending_of_flushed hf hqueued)
  | flushClosed _ _ _ _ hf => exact absurd hf.socket.1 htype
  | halfclose hpoller =>
    exact h.enabled (not_closing_of_deciding hpoller) (h.inv.deciding _ hpoller) hpending
  | forceClose => exact absurd ⟨_, rfl⟩ hclosing
  | connected hpoller hx hretyped =>
    have hpending' := (pending_of_sameLists hx).mp hpending
    change _ = true
    rw [hx.wantWrite]
    refine h.enabled (not_closing_of_idle hpoller) ?_ hpending'
    rcases hretyped with ⟨heq, -⟩ | ⟨heq, -⟩ | ⟨heq, -⟩ <;> simp [heq]
  | reported hpoller hb =>
    rcases hb with ⟨hnil, rfl⟩ | rfl
    · rcases hpending with hqueued | hdw
      · exact absurd hnil hqueued
      · exact absurd (hguard.2 rfl hnil) hdw
    · exact h.enabled (not_closing_of_reporting hpoller) htype hpending
  | closed => exact absurd rfl htype
  | _ => exact h.enabled hclosing htype hpending

/-- A step leaves a socket that is being connected with the write event. -/
theorem Waking.connecting_change (h : s.Waking soi) (hchange : Change soi s a s')
    (htype : s'.socket.type = .connecting) (hclosing : ¬ s'.Closing) :
    s'.socket.wantWrite = true ∨
      s'.socket.queued = [] ∧ ∃ shutdown, s'.poller = .deciding shutdown := by
  -- between two commands or events it is enabled
  have hidle : s.poller = .idle → s.socket.type = .connecting → s.socket.wantWrite = true := by
    intro hpoller htype
    refine (h.connecting htype (not_closing_of_idle hpoller)).resolve_right ?_
    rintro ⟨-, shutdown, hdeciding⟩
    rw [hpoller] at hdeciding
    cases hdeciding
  cases hchange with
  | direct _ _ hx =>
    rcases hx with ⟨-, rfl⟩ | ⟨-, rfl⟩
    · exact h.connecting htype hclosing
    · exact .inl rfl
  | opened _ _ _ _ _ _ _ _ _ hwant => exact .inl (hwant htype)
  | queue hpoller _ hx =>
    rcases hx with ⟨rfl, -⟩ | ⟨-, hq⟩
    · exact .inl (hidle hpoller htype)
    · rcases hq.wantWrite with hwant | ⟨hwant, -⟩
      · exact .inl hwant
      · exact .inl (hwant.trans (hidle hpoller (hq.same.type.symm.trans htype)))
  | pop hpoller _ _ _ hx hretyped =>
    rcases hretyped with heq | ⟨-, heq⟩ | ⟨-, heq⟩ | ⟨-, heq⟩
    · exact .inl (hx.wantWrite.trans (hidle hpoller (heq.symm.trans htype)))
    all_goals
      rw [show _ = _ from heq] at htype
      cases htype
  | closeCmd hpoller => exact .inl (hidle hpoller htype)
  | flush hpoller _ _ hflushing hf =>
    have hmerged := merged_mergeDw soi s.socket
    have htype' : s.socket.type = .connecting := (hf.type.trans hmerged.type).symm.trans htype
    rcases hf.wantWrite with hnil | hwant
    · cases hflushing with
      | event hpolled => rcases hpolled.2 with h | h | h <;> rw [h] at htype' <;> cases htype'
      | close => exact .inr ⟨hnil, _, rfl⟩
    · exact .inl ((hwant.trans hmerged.wantWrite).trans (hidle hpoller htype'))
  | flushClosed _ _ _ _ hf =>
    rw [show _ = _ from hf.socket.1] at htype
    cases htype
  | halfclose | closed => cases htype
  | forceClose => exact absurd ⟨_, rfl⟩ hclosing
  | connected _ _ _ heq =>
    rw [show _ = _ from heq] at htype
    cases htype
  | reported hpoller =>
    rw [show _ = _ from h.reporting hpoller] at htype
    cases htype
  | _ => exact h.connecting htype hclosing

/-- The type does not change in `report_connect` after it was stored. -/
theorem Waking.reporting_change (h : s.Waking soi) (hchange : Change soi s a s')
    (hreporting : s'.poller = .reporting) : s'.socket.type = .connected := by
  cases hchange with
  | direct _ _ hx =>
    rcases hx with ⟨-, rfl⟩ | ⟨-, rfl⟩
    · exact h.reporting hreporting
    · exact h.reporting hreporting
  | opened hidle | queue hidle | pop hidle | flushClosed hidle =>
    have hpoller : s.poller = .reporting := hreporting
    rw [hidle] at hpoller
    cases hpoller
  | flush _ _ _ hflushing => cases hflushing <;> cases hreporting
  | closeCmd | halfclose | forceClose | reported | closed => cases hreporting
  | connected _ _ _ htype => exact htype
  | _ => exact h.reporting hreporting

theorem Waking.step (h : s.Waking soi) (hguard : s.SafeWake a) (hstep : s.step soi a = .ok s') :
    s'.Waking soi := by
  have hchange := h.inv.change hstep
  exact ⟨h.inv.of_change hchange, h.enabled_change hguard hchange, h.connecting_change hchange,
    h.reporting_change hchange⟩

/-- In every run whose steps meet the condition, pending data has the write event. -/
theorem writeEnabled_of_safeWake (soi : SocketObjectInterface) (protocol : Protocol)
    (acts : List (SocketAct Tid)) (s : SocketServer Tid)
    (hrun : Run (next soi) SafeWake (init Tid protocol) acts s) : s.WriteEnabled := by
  have hs : s.Waking soi := hrun.invariant (waking_init soi protocol)
    fun hguard hnext h => h.step hguard (toOption_eq_some_iff.mp hnext)
  intro hpoller htype hpending
  refine hs.enabled (not_closing_of_idle hpoller) ?_ hpending
  rcases htype with h | h | h <;> simp [h]

end Change

/-- A socket is connected, a worker writes a part of its packet directly, and the socket thread
sends the rest and gets another packet. -/
def wakeRun : List (SocketAct ℕ) :=
  [.command ⟨some .connecting, [], true⟩, .connectEvent true, .reported, .send 0 1000 4,
    .run 0 .again, .run 0 .again, .run 0 .again, .run 0 (.wrote 3), .writeEvent [.wrote 1],
    .sendLowpriority 1 2000 4, .run 1 .again, .command ⟨none, [], true⟩]

theorem writeEnabled_of_safeWake_queued :
    ∃ s, Run (next noObjects) SafeWake (init ℕ .tcp) wakeRun s ∧
      s.poller = .idle ∧ s.socket.type = .connected ∧ s.socket.Pending ∧ s.WriteEnabled := by
  obtain ⟨s, hs⟩ : ∃ s, exec (guarded (next noObjects) fun s a =>
      s.socket.type ≠ .bind ∧ (a = .reported → s.socket.dw = none)) (init ℕ .tcp) wakeRun =
        some s := ⟨_, rfl⟩
  have hrun : Run (next noObjects) SafeWake (init ℕ .tcp) wakeRun s :=
    (run_of_exec_guarded hs).mono fun _ _ h =>
      ⟨fun _ _ _ _ _ _ _ => h.1, fun ha _ => h.2 ha⟩
  have hend : (exec (guarded (next noObjects) fun s a =>
      s.socket.type ≠ .bind ∧ (a = .reported → s.socket.dw = none)) (init ℕ .tcp) wakeRun).map
      (fun s => (s.poller, s.socket.type, decide s.socket.Pending)) =
        some (.idle, .connected, true) := by decide
  rw [hs, Option.map_some, Option.some_inj, Prod.mk.injEq, Prod.mk.injEq,
    decide_eq_true_iff] at hend
  obtain ⟨hpoller, htype, hpending⟩ := hend
  exact ⟨s, hrun, hpoller, htype, hpending, writeEnabled_of_safeWake noObjects .tcp wakeRun s hrun⟩

/-- A packet is queued on a bound fd. -/
def bindSendRun : List (SocketAct ℕ) :=
  [.command ⟨some .bind, [], true⟩, .sendLowpriority 0 1000 4, .run 0 .again,
    .command ⟨none, [], true⟩]

/-- A worker writes a part of its packet directly after the type has become `CONNECTED`, and
before `report_connect` disables the write event. -/
def connectWriteRun : List (SocketAct ℕ) :=
  [.command ⟨some .connecting, [], true⟩, .connectEvent true, .send 0 1000 4, .run 0 .again,
    .run 0 .again, .run 0 .again, .run 0 (.wrote 3), .reported]

/-- Pending data is left without the write event on a bound fd, and after a direct write during
`report_connect`. -/
theorem pending_without_write_event :
    (∃ s, Run (next noObjects) anyAction (init ℕ .tcp) bindSendRun s ∧ ¬ s.WriteEnabled) ∧
      ∃ s, Run (next noObjects) anyAction (init ℕ .tcp) connectWriteRun s ∧ ¬ s.WriteEnabled := by
  constructor
  · obtain ⟨s, hs⟩ : ∃ s, exec (next noObjects) (init ℕ .tcp) bindSendRun = some s := ⟨_, rfl⟩
    have hend : (exec (next noObjects) (init ℕ .tcp) bindSendRun).map
        (fun s => decide s.WriteEnabled) = some false := by decide
    rw [hs, Option.map_some, Option.some_inj, decide_eq_false_iff_not] at hend
    exact ⟨s, run_of_exec hs, hend⟩
  · obtain ⟨s, hs⟩ : ∃ s, exec (next noObjects) (init ℕ .tcp) connectWriteRun = some s := ⟨_, rfl⟩
    have hend : (exec (next noObjects) (init ℕ .tcp) connectWriteRun).map
        (fun s => decide s.WriteEnabled) = some false := by decide
    rw [hs, Option.map_some, Option.some_inj, decide_eq_false_iff_not] at hend
    exact ⟨s, run_of_exec hs, hend⟩

end SocketServer

end Uboss.Core
