import Uboss.Module.HarborEffect

/-!
# Links in the handshake, and links that are down

The head of `module_harbor.c` says what has to happen on a link that was opened with `S`: the own id
is sent, the id of the peer is received and checked, and only then the queue is sent. This is what
the module does, with one exception: `dispatch_name_queue` looks at the socket of a slave and not at
its status, and writes to a link in the handshake what was waiting for a name.

A link that is down keeps its socket, so that `remote_send_handle` never finds the slave without a
socket and down, and never reports an error to the source of a message.
-/

namespace Uboss.Module

open Math List

/-- What an event writes to a socket. -/
def HarborEvent.sent (fd : ℕ) : HarborEvent → Option (List UInt8)
  | .call (.ubossSocketSend fd' buffer _) _ => if fd' = fd then some buffer else none
  | _ => none

/-- What some events write to a socket. -/
def sent (fd : ℕ) (es : List HarborEvent) : List (List UInt8) := es.filterMap (HarborEvent.sent fd)

section Sent

variable {fd fd' : ℕ} {es : List HarborEvent}

theorem sent_append (fd : ℕ) (es fs : List HarborEvent) :
    sent fd (es ++ fs) = sent fd es ++ sent fd fs :=
  filterMap_append

theorem sent_eq_nil_iff : sent fd es = [] ↔ ∀ e ∈ es, e.sent fd = none := filterMap_eq_nil_iff

theorem HarborEvent.Quiet.sent_eq_none {e : HarborEvent} (he : e.Quiet) : e.sent fd = none := by
  cases e with
  | call c m =>
    cases c with
    | ubossSocketSend => exact he.elim
    | _ => rfl
  | _ => rfl

theorem sent_of_quiet (hes : ∀ e ∈ es, e.Quiet) : sent fd es = [] :=
  sent_eq_nil_iff.mpr fun e he => (hes e he).sent_eq_none

theorem sent_remoteCall_of_ne {m : NodeMsg} (hfd : fd' ≠ fd) :
    (remoteCall fd' m).sent fd = none := by
  unfold remoteCall
  split_ifs with hlarge
  · rfl
  · exact if_neg hfd

theorem sent_sendEvents_of_ne {queue : List NodeMsg} (hfd : fd' ≠ fd) :
    sent fd (queue.flatMap (sendEvents fd')) = [] := by
  refine sent_eq_nil_iff.mpr fun e he => ?_
  obtain ⟨m, -, he⟩ := mem_flatMap.mp he
  rcases mem_pair.mp he with rfl | rfl
  · exact sent_remoteCall_of_ne hfd
  · rfl

theorem sent_deliverEvents {handle : UInt32} {queue : List NodeMsg} :
    sent fd (queue.flatMap (deliverEvents handle)) = [] := by
  refine sent_eq_nil_iff.mpr fun e he => ?_
  obtain ⟨m, -, he⟩ := mem_flatMap.mp he
  rcases mem_pair.mp he with rfl | rfl
  · rfl
  · rfl

theorem sent_releaseQueue {queue : Option (List NodeMsg)} : sent fd (releaseQueue queue) = [] := by
  refine sent_eq_nil_iff.mpr fun e he => ?_
  obtain ⟨m, -, rfl⟩ := mem_map.mp he
  rfl

end Sent

namespace HarborNode

variable {h h' : HarborNode} {i : Fin remoteMax} {a : HarborAct} {refused : List HarborCall → Bool}

variable {fd : ℕ} {s : NodeSlave} {id : ℕ} {slave : UInt32}

/-- What was written to a socket so far. -/
def sends (h : HarborNode) (fd : ℕ) : List (List UInt8) := sent fd h.log

@[simp] theorem sends_setSlave (h : HarborNode) (i : Fin remoteMax) (s : NodeSlave) (fd : ℕ) :
    (h.setSlave i s).sends fd = h.sends fd := rfl

theorem sends_emit (h : HarborNode) (es : List HarborEvent) (fd : ℕ) :
    (h.emit es).sends fd = h.sends fd ++ sent fd es :=
  sent_append fd h.log es

theorem sends_emit_of_nil {es : List HarborEvent} (hes : sent fd es = []) :
    (h.emit es).sends fd = h.sends fd := by
  rw [sends_emit, hes, append_nil]

theorem sends_flushed_of_ne (hfd : s.fd ≠ fd) : (h.flushed i s).sends fd = h.sends fd := by
  rw [flushed, sends_emit_of_nil (sent_sendEvents_of_ne hfd), sends_setSlave]

theorem sent_closeEvents : sent fd (closeEvents s) = [] := by
  rw [closeEvents, sent_append, sent_releaseQueue, append_nil]
  split_ifs <;> rfl

theorem sends_closeHarbor (h : HarborNode) (i : Fin remoteMax) (fd : ℕ) :
    (h.closeHarbor i).sends fd = h.sends fd := by
  rw [closeHarbor, sends_emit_of_nil sent_closeEvents, sends_setSlave]

theorem sends_linked_self (h : HarborNode) (i : Fin remoteMax) (status : SlaveStatus) (fd : ℕ) :
    (h.linked fd i status).sends fd = h.sends fd ++ [[UInt8.ofNat h.id]] := by
  have hsent : sent fd [.start fd, .call (.ubossSocketSend fd [UInt8.ofNat h.id] 1) none] =
      [[UInt8.ofNat h.id]] := by
    simp [sent, HarborEvent.sent, filterMap_cons]
  rw [linked, sends_emit, hsent, sends_setSlave]

theorem sends_linked_of_ne {status : SlaveStatus} {fd fd' : ℕ} (hfd : fd' ≠ fd) :
    (h.linked fd i status).sends fd' = h.sends fd' := by
  have hsent :
      sent fd' [.start fd, .call (.ubossSocketSend fd [UInt8.ofNat h.id] 1) none] = [] := by
    simp [sent, HarborEvent.sent, filterMap_cons, hfd.symm]
  rw [linked, sends_emit_of_nil hsent, sends_setSlave]

/-! ### The handshake -/

/-- A step that writes nothing else to a link in the handshake: no name is bound to a handle there
while messages wait for it, and a new link does not have the socket of another one. -/
def Gated (h : HarborNode) : HarborAct → Prop
  | .mainloop (.harbor msg source) =>
    (∀ name, parseCommand msg = .name name → (h.s (harborOf source)).status = .handshake →
      h.nameQueue name = none) ∧
    ∀ accept fd i, parseCommand msg = .link accept fd i → (h.s i).fd = 0 → ∀ j, (h.s j).fd ≠ fd
  | _ => True

/-- What the gate rests on. -/
structure Gate (h : HarborNode) : Prop where
  fd_inj : ∀ {i j}, (h.s i).fd ≠ 0 → (h.s i).fd = (h.s j).fd → i = j
  handshake : ∀ {i}, (h.s i).status = .handshake → h.sends (h.s i).fd = [[UInt8.ofNat h.id]]
  unused : ∀ {fd}, fd ≠ 0 → (∀ i, (h.s i).fd ≠ fd) → h.sends fd = []

theorem gate_create : Gate (create id slave) where
  fd_inj hfd _ := absurd rfl hfd
  handshake hstatus := by cases hstatus
  unused _ _ := rfl

/-- The gate is kept if the links stay, and what is written goes to links that are not in the
handshake. -/
theorem Gate.of_sends (hh : Gate h) (hshape : Shape h) (hid : h'.id = h.id)
    (hfd : ∀ i, (h'.s i).fd = (h.s i).fd)
    (hstatus : ∀ i, (h'.s i).status = .handshake → (h.s i).status = .handshake)
    (hsends : ∀ fd, h'.sends fd = h.sends fd ∨
      ∃ i, (h.s i).fd = fd ∧ (h'.s i).status ≠ .handshake) : Gate h' where
  fd_inj := by
    intro i j hi hij
    rw [hfd i] at hi hij
    rw [hfd j] at hij
    exact hh.fd_inj hi hij
  handshake := by
    intro i hi
    have hne : (h.s i).fd ≠ 0 := by simp [(hshape i).fd_eq_zero_iff, hstatus i hi]
    rw [hfd i, hid]
    rcases hsends (h.s i).fd with heq | ⟨j, hj, hopen⟩
    · rw [heq]
      exact hh.handshake (hstatus i hi)
    · obtain rfl := hh.fd_inj hne hj.symm
      exact absurd hi hopen
  unused := by
    intro fd hne hunused
    rcases hsends fd with heq | ⟨j, hj, -⟩
    · rw [heq]
      exact hh.unused hne fun i => hfd i ▸ hunused i
    · exact absurd ((hfd j).trans hj) (hunused j)

theorem Gate.of_link (hh : Gate h) (hid : h'.id = h.id) (hfree : (h.s i).fd = 0)
    (hnew : ∀ j, (h.s j).fd ≠ fd) (hfd : (h'.s i).fd = fd) (hother : ∀ j, j ≠ i → h'.s j = h.s j)
    (hhandshake : (h'.s i).status = .handshake → h'.sends fd = [[UInt8.ofNat h.id]])
    (hsends : ∀ fd', fd' ≠ fd → h'.sends fd' = h.sends fd') : Gate h' where
  fd_inj := by
    intro j k hj hjk
    by_cases hji : j = i
    · by_cases hki : k = i
      · rw [hji, hki]
      · rw [hji, hfd, hother k hki] at hjk
        exact absurd hjk.symm (hnew k)
    · rw [hother j hji] at hj hjk
      by_cases hki : k = i
      · rw [hki, hfd] at hjk
        exact absurd hjk (hnew j)
      · rw [hother k hki] at hjk
        exact hh.fd_inj hj hjk
  handshake := by
    intro j hj
    by_cases hji : j = i
    · subst hji
      rw [hfd, hid]
      exact hhandshake hj
    · rw [hother j hji] at hj ⊢
      rw [hsends _ (hnew j), hid]
      exact hh.handshake hj
  unused := by
    intro fd' hne' hunused
    have hfd' : fd' ≠ fd := fun heq => hunused i (hfd.trans heq.symm)
    rw [hsends fd' hfd']
    refine hh.unused hne' fun j hj => ?_
    by_cases hji : j = i
    · rw [hji, hfree] at hj
      exact hne' hj.symm
    · exact hunused j (by rw [hother j hji, hj])

/-- A slave is changed that is not in the handshake afterwards unless it was before. -/
theorem status_setSlave {P : SlaveStatus → Prop} (hs : P s.status → P (h.s i).status)
    (j : Fin remoteMax) :
    P ((h.setSlave i s).s j).status → P (h.s j).status := by
  by_cases hj : j = i
  · subst hj
    rwa [setSlave_self]
  · rw [setSlave_of_ne _ _ _ hj]
    exact fun hs => hs

theorem Gate.move (hmove : Move i h h') (hh : Shape h ∧ Gate h) : Shape h' ∧ Gate h' := by
  refine ⟨hh.1.move hmove, ?_⟩
  cases hmove with
  | quiet hes =>
    exact hh.2.of_sends hh.1 rfl (fun _ => rfl) (fun _ hs => hs) fun fd =>
      .inl (sends_emit_of_nil (sent_of_quiet hes))
  | fill hstatus =>
    exact hh.2.of_sends hh.1 rfl (setSlave_fd rfl)
      (status_setSlave (P := (· = .handshake)) fun hs => hs) fun fd => .inl rfl
  | greet hstatus hfd =>
    refine hh.2.of_sends hh.1 rfl (setSlave_fd rfl)
      (status_setSlave (P := (· = .handshake)) fun hs => hstatus) fun fd => ?_
    by_cases hi : (h.s i).fd = fd
    · refine .inr ⟨i, hi, ?_⟩
      rw [flushed, emit_s, setSlave_self]
      exact fun hs => by cases hs
    · exact .inl (sends_flushed_of_ne hi)
  | close hstatus =>
    refine hh.2.of_sends hh.1 rfl (setSlave_fd rfl)
      (status_setSlave (P := (· = .handshake)) fun hs => ?_) fun fd =>
        .inl (sends_closeHarbor h i fd)
    cases hs
  | alloc hstatus =>
    refine hh.2.of_sends hh.1 rfl (setSlave_fd (h := h.alloc) rfl)
      (status_setSlave (h := h.alloc) (P := (· = .handshake)) fun hs => ?_) fun fd => .inl rfl
    cases hs
  | load hstatus hrecv =>
    exact hh.2.of_sends hh.1 rfl (setSlave_fd rfl)
      (status_setSlave (P := (· = .handshake)) fun hs => hs) fun fd => .inl rfl
  | forward hstatus hrecv hes =>
    refine hh.2.of_sends hh.1 rfl (setSlave_fd rfl)
      (status_setSlave (P := (· = .handshake)) fun hs => ?_) fun fd => .inl ?_
    · cases hs
    · rw [sends_setSlave]
      have hnone : ∀ fd, sent fd _ = [] := fun fd => sent_of_quiet hes
      exact sends_emit_of_nil (hnone fd)

theorem Gate.effect (heffect : Effect h a h') (hguard : Gated h a) (hshape : Shape h)
    (hh : Gate h) (hlive : h'.released = false) : Gate h' := by
  cases heffect with
  | quiet hes =>
    exact hh.of_sends hshape rfl (fun _ => rfl) (fun _ hs => hs) fun fd =>
      .inl (sends_emit_of_nil (sent_of_quiet hes))
  | stray _ | deliver _ _ | reject _ _ _ _ =>
    exact hh.of_sends hshape rfl (fun _ => rfl) (fun _ hs => hs) fun fd =>
      .inl (sends_emit_of_nil (h := h.alloc) rfl)
  | query _ =>
    exact hh.of_sends hshape rfl (fun _ => rfl) (fun _ hs => hs) fun fd =>
      .inl (sends_emit_of_nil (h := h.alloc.awaiting _ _) rfl)
  | bind _ _ =>
    exact hh.of_sends hshape rfl (fun _ => rfl) (fun _ hs => hs) fun fd => .inl rfl
  | data hfind hmoves =>
    have hmoved := hmoves.invariant (P := fun h => Shape h ∧ Gate h) ⟨hshape, ?_⟩ Gate.move
    · exact hmoved.2.of_sends hmoved.1 rfl (fun _ => rfl) (fun _ hs => hs) fun fd =>
        .inl (sends_emit_of_nil rfl)
    · exact hh.of_sends hshape rfl (fun _ => rfl) (fun _ hs => hs) fun fd => .inl rfl
  | connect hmsg hfree =>
    have hnew := hguard.2 _ _ _ hmsg hfree
    refine hh.of_link rfl hfree hnew (by rw [linked, emit_s, setSlave_self]) (fun j hj => ?_)
      (fun _ => ?_) fun fd' hfd' => ?_
    · rw [linked, emit_s, setSlave_of_ne _ _ _ hj]
    · rw [sends_linked_self, hh.unused (parseCommand_eq_link hmsg).1 hnew, nil_append]
    · exact sends_linked_of_ne hfd'
  | accept hmsg hfree =>
    have hnew := hguard.2 _ _ _ hmsg hfree
    refine hh.of_link rfl hfree hnew (by rw [flushed, emit_s, setSlave_self]) (fun j hj => ?_)
      (fun hs => ?_) fun fd' hfd' => ?_
    · rw [flushed, linked, emit_s, setSlave_of_ne _ _ _ hj, emit_s, setSlave_of_ne _ _ _ hj]
    · rw [flushed, emit_s, setSlave_self] at hs
      cases hs
    · exact (sends_flushed_of_ne hfd'.symm).trans (sends_linked_of_ne hfd')
  | bindDrop _ _ _ _ =>
    exact hh.of_sends hshape rfl (fun _ => rfl) (fun _ hs => hs) fun fd =>
      .inl (sends_emit_of_nil (h := h.bound _ _) sent_releaseQueue)
  | bindLocal _ _ _ _ _ =>
    exact hh.of_sends hshape rfl (setSlave_fd (h := h.bound _ _) rfl)
      (status_setSlave (h := h.bound _ _) (P := (· = .handshake)) fun hs => hs) fun fd =>
        .inl (sends_emit_of_nil sent_deliverEvents)
  | bindWait _ _ _ _ _ =>
    exact hh.of_sends hshape rfl (setSlave_fd (h := h.bound _ _) rfl)
      (status_setSlave (h := h.bound _ _) (P := (· = .handshake)) fun hs => hs) fun fd => .inl rfl
  | @bindSend msg source name queue hmsg hqueue hfd =>
    -- messages wait for the name, so that the link is not in the handshake
    refine hh.of_sends hshape rfl (fun _ => rfl) (fun _ hs => hs) fun fd => ?_
    by_cases hi : (h.s (harborOf source)).fd = fd
    · refine .inr ⟨_, hi, fun hs => ?_⟩
      rw [hguard.1 _ hmsg hs] at hqueue
      cases hqueue
    · exact .inl (sends_emit_of_nil (h := h.bound _ _) (sent_sendEvents_of_ne hi))
  | wait _ _ _ _ =>
    exact hh.of_sends hshape rfl (setSlave_fd (h := h.alloc) rfl)
      (status_setSlave (h := h.alloc) (P := (· = .handshake)) fun hs => hs) fun fd =>
        .inl (sends_emit_of_nil (h := h.alloc.waiting _ _) rfl)
  | @send source handle destination name type session data _ _ hfd hopen =>
    refine hh.of_sends hshape rfl (fun _ => rfl) (fun _ hs => hs) fun fd => ?_
    by_cases hi : (h.s (harborOf destination)).fd = fd
    · exact .inr ⟨_, hi, hopen⟩
    · refine .inl (sends_emit_of_nil (h := h.alloc) (sent_eq_nil_iff.mpr fun e he => ?_))
      simp only [mem_cons, not_mem_nil, or_false] at he
      rcases he with rfl | rfl | rfl
      · rfl
      · exact sent_remoteCall_of_ne hi
      · rfl
  | release => cases hlive

theorem gate_of_run {w : List HarborAct} (hrun : Run (step refused) Gated (create id slave) w h) :
    Shape h ∧ h.id = id ∧ (h.released = false → Gate h) := by
  refine hrun.invariant (P := fun h => Shape h ∧ h.id = id ∧ (h.released = false → Gate h))
    ⟨shape_create, rfl, fun _ => gate_create⟩ ?_
  intro h a h' hguard hstep ⟨hshape, hid, hgate⟩
  obtain ⟨hlive, heffect⟩ := effect_step hstep
  exact ⟨hshape.effect heffect, heffect.ids.1.trans hid, (hgate hlive).effect heffect hguard hshape⟩

theorem Effect.handshake (heffect : Effect h a h') (hstatus : (h.s i).status = .handshake)
    (hshape : Shape h) :
    ((h'.s i).status = .handshake ∧ (h'.s i).fd = (h.s i).fd) ∨ h' = h.harborRelease ∨
      ∃ fd buffer, a = .mainloop (.socket (.data fd buffer)) ∧ h.findSlave fd = some i := by
  have hset : ∀ {g : HarborNode} {j s}, g.s i = h.s i →
      (j = i → s.status = .handshake ∧ s.fd = (h.s i).fd) →
        ((g.setSlave j s).s i).status = .handshake ∧ ((g.setSlave j s).s i).fd = (h.s i).fd := by
    intro g j s hg hs
    by_cases hj : j = i
    · subst hj
      rw [setSlave_self]
      exact hs rfl
    · rw [setSlave_of_ne _ _ _ (Ne.symm hj), hg]
      exact ⟨hstatus, rfl⟩
  have hfree : ∀ {j}, (h.s j).fd = 0 → j ≠ i := by
    intro j hj hji
    rw [hji, (hshape i).fd_eq_zero_iff, hstatus] at hj
    cases hj
  cases heffect with
  | quiet _ | stray _ | bind _ _ | bindDrop _ _ _ _ | bindSend _ _ _ | deliver _ _
  | reject _ _ _ _ | send _ _ _ _ | query _ => exact .inl ⟨hstatus, rfl⟩
  | @data fd buffer j h₁ hfind hmoves =>
    by_cases hj : j = i
    · exact .inr (.inr ⟨fd, buffer, rfl, hj ▸ hfind⟩)
    · rw [emit_s, hmoves.slave_of_ne (Ne.symm hj)]
      exact .inl ⟨hstatus, rfl⟩
  | connect _ hfd => exact .inl (hset rfl fun hj => absurd hj (hfree hfd))
  | @accept msg source fd j _ hfd =>
    refine .inl (hset ?_ fun hj => absurd hj (hfree hfd))
    rw [linked, emit_s, setSlave_of_ne _ _ _ (hfree hfd).symm]
  | bindLocal _ _ hfd _ _ => exact .inl (hset rfl fun hj => absurd hj (hfree hfd))
  | bindWait _ _ hfd _ _ => exact .inl (hset rfl fun hj => absurd hj (hfree hfd))
  | wait _ _ _ _ =>
    refine .inl (hset rfl fun hj => ?_)
    subst hj
    exact ⟨hstatus, rfl⟩
  | release => exact .inr (.inl rfl)

theorem sends_harborRelease (h : HarborNode) (fd : ℕ) : h.harborRelease.sends fd = h.sends fd := by
  refine sends_emit_of_nil (sent_eq_nil_iff.mpr fun e he => ?_)
  rcases mem_releaseEvents he with ⟨i, he⟩ | ⟨queue, he⟩
  · exact sent_eq_nil_iff.mp sent_closeEvents e he
  · exact sent_eq_nil_iff.mp sent_releaseQueue e he

theorem step_of_empty (hlive : h.released = false) (hstatus : (h.s i).status = .handshake)
    (hfind : h.findSlave fd = some i) :
    h.step refused (.mainloop (.socket (.data fd []))) = none := by
  have hpush : pushSocketData refused h.alloc fd h.next [] = .error .emptyMessage := by
    have hfind' : h.alloc.findSlave fd = some i := hfind
    have hstatus' : (h.alloc.s i).status = .handshake := hstatus
    simp only [pushSocketData, hfind', pushLoop, hstatus', pushHandshake]
    rfl
  simp only [step, hlive, mainloop, socketMessage, hpush]
  rfl

theorem sends_of_wrong_id {remoteId : UInt8} {buffer : List UInt8}
    (hstatus : (h.s i).status = .handshake) (hfind : h.findSlave fd = some i)
    (hwrong : remoteId.toNat ≠ i.val)
    (hstep : h.step refused (.mainloop (.socket (.data fd (remoteId :: buffer)))) = some h') :
    h'.sends fd = h.sends fd := by
  have hpush : pushSocketData refused h.alloc fd h.next (remoteId :: buffer) =
      .ok ((h.alloc.emit [.call (.ubossError
        (.invalidShakehandId i (h.s i).fd remoteId)) none]).closeHarbor i) := by
    have hfind' : h.alloc.findSlave fd = some i := hfind
    have hstatus' : (h.alloc.s i).status = .handshake := hstatus
    simp only [pushSocketData, hfind', pushLoop, hstatus', pushHandshake, if_pos hwrong]
    rfl
  unfold step mainloop socketMessage at hstep
  split_ifs at hstep with hreleased
  simp only [hpush, Except.map, Except.toOption, Option.some_inj] at hstep
  rw [← hstep, sends_emit_of_nil rfl, sends_closeHarbor, sends_emit_of_nil rfl]
  rfl

/-- While a slave is in the handshake, the own id is all that was written to its socket, and
nothing more is until the first byte of the peer is its id: in every run in which no name is bound
to a handle behind a link in the handshake while messages wait for it, and no two links have the
same socket. -/
theorem sends_of_handshake (refused : List HarborCall → Bool) (id : ℕ) (slave : UInt32)
    (w : List HarborAct) (h : HarborNode) (hrun : Run (step refused) Gated (create id slave) w h)
    (i : Fin remoteMax) (hstatus : (h.s i).status = .handshake) :
    h.sends (h.s i).fd = [[UInt8.ofNat id]] ∧ ∀ a h', Gated h a → h.step refused a = some h' →
        h'.sends (h.s i).fd = [[UInt8.ofNat id]] ∨
          ∃ buffer, a = .mainloop (.socket (.data (h.s i).fd (UInt8.ofNat i :: buffer))) := by
  obtain ⟨hshape, rfl, hgate⟩ := gate_of_run hrun
  have hlive : h.released = false := by
    refine released_eq_false (i := i) hrun.reachable fun hinit => ?_
    rw [hinit] at hstatus
    cases hstatus
  have hsends := (hgate hlive).handshake hstatus
  refine ⟨hsends, fun a h' hguard hstep => ?_⟩
  obtain ⟨-, heffect⟩ := effect_step hstep
  rcases heffect.released_eq with hreleased | rfl
  · rcases heffect.handshake hstatus hshape with ⟨hstatus', hfd⟩ | rfl | ⟨fd, buffer, rfl, hfind⟩
    · have hgate' := (hgate hlive).effect heffect hguard hshape (hreleased.trans hlive)
      rw [← hfd, ← heffect.ids.1]
      exact .inl (hgate'.handshake hstatus')
    · rw [sends_harborRelease]
      exact .inl hsends
    · obtain rfl := findSlave_eq_some hfind
      cases buffer with
      | nil =>
        -- there is no first byte to look at
        rw [step_of_empty hlive hstatus hfind] at hstep
        cases hstep
      | cons remoteId buffer =>
        by_cases hright : remoteId.toNat = i.val
        · have hbyte : remoteId = UInt8.ofNat i := by rw [← hright, UInt8.ofNat_toNat]
          exact .inr ⟨buffer, by rw [hbyte]⟩
        · rw [sends_of_wrong_id hstatus hfind hright hstep]
          exact .inl hsends
  · rw [sends_harborRelease]
    exact .inl hsends

/-- The link to the harbor 2 after `S`. -/
theorem sends_of_handshake_two : ∃ h, Run (step fun _ => false) Gated (create 1 0x01000001)
        [.mainloop (.harbor (text "S 5 2") 0x01000001)] h ∧
      h.sends 5 = [[1]] := by
  let h := (create 1 0x01000001).linked 5 ⟨2, by decide⟩ .handshake
  have hguard : Gated (create 1 0x01000001) (.mainloop (.harbor (text "S 5 2") 0x01000001)) := by
    refine ⟨fun name hname => ?_, fun accept fd i hlink _ j => ?_⟩
    · have hparse : parseCommand (text "S 5 2") = .link false 5 ⟨2, by decide⟩ := by decide
      rw [hparse] at hname
      cases hname
    · exact (parseCommand_eq_link hlink).1.symm
  have hrun : Run (step fun _ => false) Gated (create 1 0x01000001)
      [.mainloop (.harbor (text "S 5 2") 0x01000001)] h :=
    (Run.nil _).snoc hguard rfl
  have hfd : (h.s ⟨2, by decide⟩).fd = 5 := rfl
  have hsends := (sends_of_handshake _ 1 _ _ h hrun ⟨2, by decide⟩ rfl).1
  rw [hfd] at hsends
  exact ⟨h, hrun, hsends⟩

/-- A message waits for the name `x`, which becomes known during the handshake. -/
def bindInHandshake : List HarborAct :=
  [.mainloop (.remote 0x01000005 (copyName (text "x")) 0 0 7 [1, 2]),
    .mainloop (.harbor (text "S 5 2") 0x01000001),
    .mainloop (.harbor (text "N x") 0x02000009)]

/-- The message is written to the link in the handshake. -/
theorem frame_in_handshake : ¬ ∀ h, Reachable (step fun _ => false) (create 1 0x01000001) h →
      ∀ i, (h.s i).status = .handshake → h.sends (h.s i).fd = [[1]] := by
  intro hall
  have hexec : (exec (step fun _ => false) (create 1 0x01000001) bindInHandshake).map
      (fun h => ((h.s ⟨2, by decide⟩).status, h.sends (h.s ⟨2, by decide⟩).fd)) = some (.handshake,
          [[1], [0, 0, 0, 14, 1, 2, 1, 0, 0, 5, 0, 0, 0, 9, 0, 0, 0, 7]]) := by
    decide +kernel
  obtain ⟨h, hh, hstate⟩ := Option.map_eq_some_iff.mp hexec
  obtain ⟨hstatus, hsends⟩ := Prod.mk.inj hstate
  rw [hall h (reachable_of_exec hh) _ hstatus] at hsends
  exact absurd hsends (by decide)

/-! ### Links that are down -/

/-- An error for the source of a message. -/
def isErrorFor (source : UInt32) : HarborEvent → Bool
  | .call (.ubossSend u) none => u.destination = source && u.type = ptypeError
  | _ => false

/-- The source of a message gets one error, and nothing is written to the socket. -/
def ReportsDown (source : UInt32) (fd : ℕ) (es : List HarborEvent) : Prop :=
  es.countP (isErrorFor source) = 1 ∧ sent fd es = []

theorem isErrorFor_remoteCall {source : UInt32} {m : NodeMsg} :
    isErrorFor source (remoteCall fd m) = false := by
  unfold remoteCall
  split_ifs <;> rfl

/-- No message to a harbor whose link is down is reported to its source: the slave keeps its
socket, and this is where the message goes. -/
theorem not_reportsDown (refused : List HarborCall → Bool) (id : ℕ) (slave : UInt32)
    (h : HarborNode) (hreach : Reachable (step refused) (create id slave) h) (i : Fin remoteMax)
    (hstatus : (h.s i).status = .down) (source handle destination : UInt32) (name : GlobalName)
    (type : UInt8) (session : Int32) (data : List UInt8)
    (hto : h.Addressed name handle destination) (hi : harborOf destination = i) :
    ∃ h', h.step refused (.mainloop (.remote source name handle type session data)) = some h' ∧
      ¬ ReportsDown source (h.s i).fd (h'.log.drop h.log.length) := by
  subst hi
  have hshape : Shape h :=
    hreach.invariant shape_create fun hstep hshape => hshape.effect (effect_step hstep).2
  have hfd : (h.s (harborOf destination)).fd ≠ 0 := by
    simp [(hshape _).fd_eq_zero_iff, hstatus]
  have hlive : h.released = false := by
    refine released_eq_false (i := harborOf destination) hreach fun hinit => ?_
    rw [hinit] at hstatus
    cases hstatus
  refine ⟨_, by rw [step, if_neg (by simp [hlive])]; rfl, fun hreport => ?_⟩
  have hcount := hreport.1
  rw [remoteMessage_eq hto] at hcount
  by_cases hlocal : (harborOf destination).val = h.id
  · -- the message is delivered here
    rw [remoteSendHandle_of_local (h := h.alloc) hlocal, if_pos rfl, emit_log, alloc_log,
      List.drop_left] at hcount
    simp [isErrorFor] at hcount
  · have hopen : ¬ ((h.s (harborOf destination)).fd = 0 ∨
        (h.s (harborOf destination)).status = .handshake) := by simp [hfd, hstatus]
    rw [remoteSendHandle_of_open (h := h.alloc) hlocal hopen, if_neg Bool.false_ne_true,
      emit_emit, emit_log, alloc_log, List.drop_left] at hcount
    simp only [List.cons_append, List.nil_append, List.countP_cons, isErrorFor_remoteCall] at hcount
    simp [isErrorFor] at hcount

/-- The peer of the link to the harbor 2 has another id. -/
def closeInHandshake : List HarborAct :=
  [.mainloop (.harbor (text "S 5 2") 0x01000001), .mainloop (.socket (.data 5 [3]))]

theorem exec_closeInHandshake :
    ∃ h, exec (step fun _ => false) (create 1 0x01000001) closeInHandshake = some h ∧
      (h.s (harborOf 0x02000009)).status = .down := by
  have hexec : (exec (step fun _ => false) (create 1 0x01000001) closeInHandshake).map
      (fun h => (h.s (harborOf 0x02000009)).status) = some .down := by
    decide +kernel
  exact Option.map_eq_some_iff.mp hexec

theorem not_reportsDown_two : ∃ h h', Reachable (step fun _ => false) (create 1 0x01000001) h ∧
      h.step (fun _ => false)
        (.mainloop (.remote 0x01000005 (copyName []) 0x02000009 0 7 [1, 2])) = some h' ∧
      ¬ ReportsDown 0x01000005 (h.s (harborOf 0x02000009)).fd (h'.log.drop h.log.length) := by
  obtain ⟨h, hexec, hstatus⟩ := exec_closeInHandshake
  have hreach := reachable_of_exec hexec
  obtain ⟨h', hstep, hreport⟩ := not_reportsDown (fun _ => false) 1 0x01000001 h hreach _ hstatus
    0x01000005 0x02000009 0x02000009 (copyName []) 0 7 [1, 2] ⟨by decide, .inl rfl⟩ rfl
  exact ⟨h, h', hreach, hstep, hreport⟩

/-- A message to the harbor 2 is written to the socket that was closed. -/
theorem send_to_down : ¬ ∀ h, Reachable (step fun _ => false) (create 1 0x01000001) h →
      ∀ i, (h.s i).status = .down → ∀ destination, harborOf destination = i →
        ∀ h', h.step (fun _ => false)
            (.mainloop (.remote 0x01000005 (copyName []) destination 0 7 [1, 2])) = some h' →
          ReportsDown 0x01000005 (h.s i).fd (h'.log.drop h.log.length) := by
  intro hall
  obtain ⟨h, hexec, hstatus⟩ := exec_closeInHandshake
  have hsent : ((exec (step fun _ => false) (create 1 0x01000001) closeInHandshake).bind
      fun h => (h.step (fun _ => false)
        (.mainloop (.remote 0x01000005 (copyName []) 0x02000009 0 7 [1, 2]))).map
          fun h' => sent (h.s (harborOf 0x02000009)).fd (h'.log.drop h.log.length)) =
      some [[0, 0, 0, 14, 1, 2, 1, 0, 0, 5, 0, 0, 0, 9, 0, 0, 0, 7]] := by
    decide +kernel
  rw [hexec, Option.bind_some] at hsent
  obtain ⟨h', hstep, hframe⟩ := Option.map_eq_some_iff.mp hsent
  have hreport := hall h (reachable_of_exec hexec) _ hstatus _ rfl h' hstep
  rw [hreport.2] at hframe
  cases hframe

end HarborNode

end Uboss.Module
