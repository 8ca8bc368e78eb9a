import Uboss.Core.SocketCalls

/-!
# The order of one sender

The packets that one thread gives to `socket_server_send` pass through the control pipe, the
high list and the direct-write buffer. As long as a direct write does not overtake a packet of
the same thread in the pipe, they form one queue. `can_direct_write` does not look at the pipe.
-/

namespace Uboss.Core

open Math Function List WriteBuffer Socket Packet Command

namespace SocketServer

variable {Tid : Type} [DecidableEq Tid] {soi : SocketObjectInterface}
  {s s' : SocketServer Tid} {a : SocketAct Tid} {t : Tid}

/-- The packets that the thread gave to `socket_server_send` while the socket was connected. -/
def orderedCalls (s : SocketServer Tid) (t : Tid) : List (Packet (SendTag Tid)) :=
  s.calls.filter fun p => p.tag.sender = t ∧ p.tag.ordered = true

/-- No byte of a packet is written before the last byte of an earlier packet of the same
thread. -/
def InOrder (soi : SocketObjectInterface) (s : SocketServer Tid) : Prop :=
  ∀ t p q, [p, q].Sublist (s.orderedCalls t) →
    ∀ before b behind, s.wire = before ++ b :: behind → b.1 = q.tag → p.bytes soi ⊆ before

/-- The bytes of the packets of one thread. -/
def lane (t : Tid) (l : List (SendTag Tid × ℕ)) : List (SendTag Tid × ℕ) :=
  l.filter fun b => b.1.sender = t ∧ b.1.ordered = true

@[simp] theorem lane_nil : lane t [] = [] := rfl

@[simp] theorem lane_append (l m : List (SendTag Tid × ℕ)) :
    lane t (l ++ m) = lane t l ++ lane t m := filter_append ..

theorem lane_eq_nil {l : List (SendTag Tid × ℕ)}
    (h : ∀ b ∈ l, b.1.sender = t → b.1.ordered = false) : lane t l = [] := by
  rw [lane, filter_eq_nil_iff]
  intro b hb hlane
  simp only [decide_eq_true_eq] at hlane
  simp [h b hb hlane.1] at hlane

theorem lane_eq_self {l : List (SendTag Tid × ℕ)}
    (h : ∀ b ∈ l, b.1.sender = t ∧ b.1.ordered = true) : lane t l = l := by
  rw [lane, filter_eq_self]
  intro b hb
  simpa using h b hb

/-- The packet is one of those of the thread. -/
def Mine (t : Tid) (tag : SendTag Tid) : Prop := tag.sender = t ∧ tag.ordered = true

theorem lane_bytes_of_not_mine {p : Packet (SendTag Tid)} (h : ¬ Mine t p.tag) :
    lane t (p.bytes soi) = [] := by
  refine lane_eq_nil fun b hb hsender => ?_
  rw [fst_of_mem_span hb] at hsender ⊢
  simpa [Mine, hsender] using h

theorem lane_bytes_of_mine {p : Packet (SendTag Tid)} (h : Mine t p.tag) :
    lane t (p.bytes soi) = p.bytes soi := by
  refine lane_eq_self fun b hb => ?_
  rw [fst_of_mem_span hb]
  exact h

/-- What the thread has sent. -/
def sentBytes (soi : SocketObjectInterface) (s : SocketServer Tid) (t : Tid) :
    List (SendTag Tid × ℕ) :=
  lane t (s.calls.flatMap (bytes soi))

/-- Of it: written or queued. -/
def queuedBytes (soi : SocketObjectInterface) (s : SocketServer Tid) (t : Tid) :
    List (SendTag Tid × ℕ) :=
  lane t s.wire ++ lane t ((s.socket.pending soi).flatMap rest)

/-- In the pipe. -/
def pipeBytes (soi : SocketObjectInterface) (s : SocketServer Tid) (t : Tid) :
    List (SendTag Tid × ℕ) :=
  lane t ((s.pipe.filterMap packet?).flatMap (bytes soi))

/-- Still with the thread. -/
def workerBytes (soi : SocketObjectInterface) (s : SocketServer Tid) (t : Tid) :
    List (SendTag Tid × ℕ) :=
  lane t ((s.worker t).packet?.toList.flatMap (bytes soi))

/-- `force_close` has freed a packet of the thread and still waits for the lock. -/
def Lost (s : SocketServer Tid) (t : Tid) : Prop :=
  ∃ freed, s.poller = .closing freed ∧ ∃ wb ∈ freed, Mine t wb.packet.tag

/-- Nothing of the thread is dropped. -/
def Flowing (s : SocketServer Tid) (t : Tid) : Prop :=
  s.socket.type ≠ .halfclose ∧ s.socket.type ≠ .invalid ∧ ¬ s.Lost t

/-- The queue of one thread. -/
structure Lane (soi : SocketObjectInterface) (s : SocketServer Tid) (t : Tid) : Prop where
  written : s.queuedBytes soi t <+: s.sentBytes soi t
  flowing : s.Flowing t →
    s.queuedBytes soi t ++ s.pipeBytes soi t ++ s.workerBytes soi t = s.sentBytes soi t
  writes : (s.worker t).Writes → ∀ p, (s.worker t).packet? = some p → Mine t p.tag →
    lane t s.wire ++ p.bytes soi = s.sentBytes soi t ∧
      lane t ((s.socket.pending soi).flatMap rest) = [] ∧ s.pipeBytes soi t = []

/-- The packets for which the order matters are only made on a connected socket and are not of
low priority. -/
structure OrderedPackets (s : SocketServer Tid) : Prop where
  type : ∀ p ∈ s.calls, p.tag.ordered = true → s.Connected
  low : ∀ wb ∈ s.socket.low.chain, wb.packet.tag.ordered = false
  pipe : ∀ p address, .send p .low address ∈ s.pipe → p.tag.ordered = false
  worker : ∀ t p address, s.worker t = .posting (.send p .low address) → p.tag.ordered = false

namespace OrderedPackets

variable (h : s.OrderedPackets)
include h

theorem type_change (hinv : s.Inv soi) (hchange : Change soi s a s') :
    ∀ p ∈ s'.calls, p.tag.ordered = true → s'.Connected := by
  intro p hp hordered
  have hcase : s.Connected := by
    rcases carried_change hchange with ⟨hcalls, -⟩ | ⟨t, q, w, -, hentered, rfl⟩
    · rw [hcalls] at hp
      exact h.type p hp hordered
    · rcases mem_append.mp hp with hold | hnew
      · exact h.type p hold hordered
      · obtain rfl := mem_singleton.mp hnew
        exact .inl (hentered.ordered hordered).1
  exact hcase.change hinv hchange

theorem low_change (hchange : Change soi s a s') :
    ∀ wb ∈ s'.socket.low.chain, wb.packet.tag.ordered = false := by
  cases hchange with
  | direct _ _ hx => rcases hx with ⟨-, rfl⟩ | ⟨-, rfl⟩ <;> exact h.low
  | opened _ _ _ _ _ hlow =>
    rw [hlow]
    exact h.low
  | queue _ hpipe hx =>
    rcases hx with ⟨rfl, -⟩ | ⟨-, hq⟩
    · exact h.low
    · obtain ⟨wb, rfl, -, -, ⟨-, hlow⟩ | ⟨rfl, hlow, -⟩⟩ := hq.lists
      · rw [hlow]
        exact h.low
      · rw [hlow]
        intro wb' hwb'
        rcases mem_append.mp hwb' with hmem | hmem
        · exact h.low wb' hmem
        · obtain rfl := mem_singleton.mp hmem
          exact h.pipe _ _ (by rw [hpipe]; exact mem_cons_self ..)
  | pop _ _ _ _ hx =>
    rw [hx.low]
    exact h.low
  | flush _ _ _ _ hf =>
    intro wb hwb
    have hmem := hf.low_suffix.subset hwb
    rw [(merged_mergeDw soi s.socket).low] at hmem
    exact h.low wb hmem
  | flushClosed _ _ _ _ hf =>
    rw [hf.socket.2.2.1]
    simp [WbList.empty]
  | forceClose => simp [freeWbLists, WbList.empty]
  | connected _ hx =>
    rw [hx.low]
    exact h.low
  | _ => exact h.low

theorem pipe_change (hchange : Change soi s a s') :
    ∀ p address, .send p .low address ∈ s'.pipe → p.tag.ordered = false := by
  have htail : ∀ {c pipe}, s.pipe = c :: pipe →
      ∀ p address, .send p .low address ∈ pipe → p.tag.ordered = false :=
    fun hpipe p address hmem => h.pipe p address (by rw [hpipe]; exact mem_cons_of_mem _ hmem)
  cases hchange with
  | postSend ht =>
    intro p address hmem
    rcases mem_append.mp hmem with hold | hnew
    · exact h.pipe p address hold
    · rw [← mem_singleton.mp hnew] at ht
      exact h.worker _ p address ht
  | post hc =>
    intro p address hmem
    rcases mem_append.mp hmem with hold | hnew
    · exact h.pipe p address hold
    · rw [← mem_singleton.mp hnew] at hc
      cases hc
  | opened _ hpipe => exact htail hpipe
  | queue _ hpipe => exact htail hpipe
  | pop _ hpipe => exact htail hpipe
  | closeCmd _ hpipe => exact htail hpipe
  | flush _ _ _ hflushing =>
    cases hflushing with
    | event => exact h.pipe
    | close hpipe => exact htail hpipe
  | flushClosed _ _ _ hflushing =>
    cases hflushing with
    | event => exact h.pipe
    | close hpipe => exact htail hpipe
  | forceClose _ _ hpipe =>
    rcases hpipe with rfl | hpipe
    · exact h.pipe
    · exact htail hpipe
  | _ => exact h.pipe

theorem worker_change (hchange : Change soi s a s') :
    ∀ t p address, s'.worker t = .posting (.send p .low address) → p.tag.ordered = false := by
  have hgoto : ∀ {u w}, (∀ p address, w = .posting (.send p .low address) → p.tag.ordered = false) →
      ∀ t p address, update s.worker u w t = .posting (.send p .low address) →
        p.tag.ordered = false := fun hw =>
    (Function.forall_update_iff s.worker (fun _ w => ∀ p address,
      w = Worker.posting (.send p .low address) → p.tag.ordered = false)).mpr
        ⟨hw, fun t _ => h.worker t⟩
  cases hchange with
  | @enter _ t p w _ _ hentered =>
    refine hgoto fun q address hw => ?_
    cases hordered : p.tag.ordered with
    | true =>
      rw [(hentered.ordered hordered).2] at hw
      cases hw
    | false =>
      have hpacket := hentered.packet?
      rw [hw] at hpacket
      obtain rfl := Option.some_inj.mp hpacket
      exact hordered
  | test | lock | recheck | direct | directUdp | postSend | post =>
    exact hgoto fun _ _ hw => by cases hw
  | refuse | unlock => exact hgoto fun _ _ hw => by cases hw
  | udpConnect _ hw =>
    refine hgoto fun _ _ hw' => ?_
    rcases hw with rfl | ⟨b, rfl⟩ <;> cases hw'
  | _ => exact h.worker

theorem of_change (hinv : s.Inv soi) (hchange : Change soi s a s') : s'.OrderedPackets :=
  ⟨h.type_change hinv hchange, h.low_change hchange, h.pipe_change hchange, h.worker_change hchange⟩

end OrderedPackets

/-- The condition on a step: the second test of `can_direct_write` does not pass for a packet of a
thread while an earlier one is in the pipe, or was freed by a `force_close` that still waits for
the lock. -/
def SafeOvertake (s : SocketServer Tid) (a : SocketAct Tid) : Prop :=
  ∀ t r p b, a = .run t r → s.worker t = .locked p b → s.socket.canDirectWrite = true →
    p.tag.ordered = true → (∀ q ∈ s.pipe.filterMap packet?, ¬ Mine t q.tag) ∧ ¬ s.Lost t

/-! ## One step of a lane -/

theorem pipeBytes_eq_nil (h : ∀ q ∈ s.pipe.filterMap packet?, ¬ Mine t q.tag) :
    s.pipeBytes soi t = [] := by
  refine lane_eq_nil fun b hb hsender => ?_
  obtain ⟨q, hq, hmem⟩ := mem_flatMap.mp hb
  rw [fst_of_mem_span hmem] at hsender ⊢
  simpa [Mine, hsender] using h q hq

omit [DecidableEq Tid] in
theorem not_lost_of_idle (h : s.poller = .idle) : ¬ s.Lost t := by
  rintro ⟨freed, hfreed, -⟩
  rw [h] at hfreed
  cases hfreed

theorem Flowing.of_change (hinv : s.Inv soi) (hchange : Change soi s a s') (h : s'.Flowing t) :
    s.Flowing t := by
  cases hchange with
  | direct _ _ hx => rcases hx with ⟨-, rfl⟩ | ⟨-, rfl⟩ <;> exact h
  | opened hpoller hpipe =>
    rcases hinv.opening with hres | ⟨-, hopen⟩
    · exact ⟨by simp [hres.type], by simp [hres.type], not_lost_of_idle hpoller⟩
    · exact absurd (by simp [hpipe]) hopen
  | queue _ _ hx =>
    rcases hx with ⟨rfl, -⟩ | ⟨-, hq⟩
    · exact h
    · obtain ⟨hhalf, hinvalid, hlost⟩ := h
      rw [show _ = s.socket.type from hq.same.type] at hhalf hinvalid
      exact ⟨hhalf, hinvalid, hlost⟩
  | pop hpoller _ _ _ _ hx =>
    rcases hx with htype | hx
    · obtain ⟨hhalf, hinvalid, hlost⟩ := h
      rw [show _ = s.socket.type from htype] at hhalf hinvalid
      exact ⟨hhalf, hinvalid, hlost⟩
    · refine ⟨?_, ?_, not_lost_of_idle hpoller⟩ <;> rcases hx with ⟨hx, -⟩ | ⟨hx, -⟩ | ⟨hx, -⟩ <;>
        simp [hx]
  | closeCmd hpoller => exact ⟨h.1, h.2.1, not_lost_of_idle hpoller⟩
  | reported hpoller =>
    exact ⟨h.1, h.2.1, fun ⟨freed, hfreed, _⟩ => not_closing_of_reporting hpoller ⟨freed, hfreed⟩⟩
  | flush hpoller _ _ _ hf =>
    obtain ⟨hhalf, hinvalid, -⟩ := h
    rw [show _ = s.socket.type from
      hf.type.trans (merged_mergeDw soi s.socket).type] at hhalf hinvalid
    exact ⟨hhalf, hinvalid, not_lost_of_idle hpoller⟩
  | flushClosed _ _ _ _ hf => exact absurd hf.socket.1 h.2.1
  | halfclose => exact absurd rfl h.1
  | forceClose hclosing =>
    exact ⟨h.1, h.2.1, fun ⟨freed, hfreed, _⟩ => hclosing ⟨freed, hfreed⟩⟩
  | connected hpoller _ hx =>
    refine ⟨?_, ?_, not_lost_of_idle hpoller⟩ <;> rcases hx with ⟨hx, -⟩ | ⟨hx, -⟩ | ⟨hx, -⟩ <;>
      simp [hx]
  | closed => exact absurd rfl h.2.1
  | _ => exact h

namespace Lane

variable {p : Packet (SendTag Tid)} {u : Tid} {w : Worker Tid}

variable {address : Option UdpAddress} {priority : Priority} {pipe : List (Command Tid)}
  {f : Flush (SendTag Tid)}

omit [DecidableEq Tid] in
theorem not_mine_of_ne (h : p.tag.sender = u) (hne : t ≠ u) : ¬ Mine t p.tag :=
  fun hmine => hne (hmine.1.symm.trans h)

theorem mono (h : s.Lane soi t) (hsent : s'.sentBytes soi t = s.sentBytes soi t)
    (hworker : s'.workerBytes soi t = s.workerBytes soi t)
    (hwrites : (s'.worker t).Writes → s'.worker t = s.worker t)
    (hwire : lane t s'.wire = lane t s.wire)
    (hpending : lane t ((s'.socket.pending soi).flatMap rest) =
      lane t ((s.socket.pending soi).flatMap rest))
    (hpipe : s'.pipeBytes soi t = s.pipeBytes soi t)
    (hflowing : s'.Flowing t → s.Flowing t) : s'.Lane soi t where
  written := by
    rw [queuedBytes, hwire, hpending, hsent]
    exact h.written
  flowing hflow := by
    rw [queuedBytes, hwire, hpending, hsent, hpipe, hworker]
    exact h.flowing (hflowing hflow)
  writes hw p hp hmine := by
    have hsame := hwrites hw
    rw [hsame] at hw hp
    rw [hwire, hpending, hsent, hpipe]
    exact h.writes hw p hp hmine

/-- What a thread still has when a worker moves on with its packet. -/
theorem workerBytes_goto {w₀ : Worker Tid} (hu : s.worker u = w₀) (hw : w.packet? = w₀.packet?) :
    lane t ((update s.worker u w t).packet?.toList.flatMap (bytes soi)) = s.workerBytes soi t := by
  rw [workerBytes]
  by_cases htu : t = u
  · subst htu
    rw [update_self, hw, hu]
  · rw [update_of_ne htu]

theorem eq_of_writes_update (hw : ¬ w.Writes) (h : (update s.worker u w t).Writes) :
    update s.worker u w t = s.worker t := by
  by_cases htu : t = u
  · subst htu
    rw [update_self] at h
    exact absurd h hw
  · rw [update_of_ne htu]

section

variable (h : s.Lane soi t)
include h

/-- A worker moves on with its packet, before the direct write. -/
theorem goto {w₀ : Worker Tid} {lock : Option Tid} (hu : s.worker u = w₀)
    (hw : w.packet? = w₀.packet?) (hwrites : ¬ w.Writes) :
    (SocketServer.goto { s with lock := lock } u w).Lane soi t :=
  h.mono rfl (workerBytes_goto hu hw) (eq_of_writes_update hwrites) rfl rfl rfl id

theorem enter (hu : s.worker u = .idle) (hentered : s.Entered u p w) :
    (SocketServer.goto { s with calls := s.calls ++ [p] } u w).Lane soi t := by
  have hsent : lane t ((s.calls ++ [p]).flatMap (bytes soi)) =
      s.sentBytes soi t ++ lane t (p.bytes soi) := by
    simp [sentBytes]
  have hwrites : ¬ w.Writes := by
    rcases hentered.next with ⟨b, rfl, -⟩ | rfl <;> exact id
  by_cases htu : t = u
  · subst htu
    refine ⟨?_, fun hflow => ?_, fun hw => ?_⟩
    · change s.queuedBytes soi t <+: lane t ((s.calls ++ [p]).flatMap (bytes soi))
      rw [hsent]
      exact h.written.trans (prefix_append ..)
    · -- the new packet is with the worker, which had none before
      have hall := h.flowing hflow
      have hold : s.workerBytes soi t = [] := by simp [workerBytes, hu, Worker.packet?]
      change s.queuedBytes soi t ++ s.pipeBytes soi t ++ lane t
        ((update s.worker t w t).packet?.toList.flatMap _) =
          lane t ((s.calls ++ [p]).flatMap (bytes soi))
      rw [hold, append_nil] at hall
      rw [hsent, update_self, hentered.packet?, hall]
      simp
    · change (update s.worker t w t).Writes at hw
      rw [update_self] at hw
      exact absurd hw hwrites
  · -- a packet of another thread
    refine h.mono ?_ ?_ (eq_of_writes_update hwrites) rfl rfl rfl id
    · change lane t ((s.calls ++ [p]).flatMap (bytes soi)) = _
      rw [hsent, lane_bytes_of_not_mine (not_mine_of_ne hentered.sender htu), append_nil]
    · change lane t ((update s.worker u w t).packet?.toList.flatMap _) = _
      rw [update_of_ne htu, workerBytes]

/-- The second test passes: by then everything before the packet has been written. -/
theorem recheck (hu : s.worker u = .locked p address) (hcan : s.socket.canDirectWrite = true)
    (hpipe : u = t → Mine t p.tag → s.pipeBytes soi t = [] ∧ ¬ s.Lost t) :
    (s.goto u (.writing p address)).Lane soi t := by
  by_cases htu : t = u
  · subst htu
    have hworker : lane t ((update s.worker t (.writing p address) t).packet?.toList.flatMap
        (bytes soi)) = s.workerBytes soi t := workerBytes_goto hu rfl
    refine ⟨h.written, fun hflow => ?_, fun _ q hq hmine => ?_⟩
    · have hall := h.flowing hflow
      rw [← hworker] at hall
      exact hall
    · change (update s.worker t _ t).packet? = some q at hq
      rw [update_self] at hq
      obtain rfl := Option.some_inj.mp hq
      obtain ⟨hnil, hlost⟩ := hpipe rfl hmine
      obtain ⟨hqueued, htype, hdw, -⟩ := canDirectWrite_iff.mp hcan
      have hpending : s.socket.pending soi = [] := by
        rw [pending_of_dw hdw]
        exact (append_eq_nil_iff.mp hqueued).1
      have hall := h.flowing ⟨by simp [htype], by simp [htype], hlost⟩
      have hbytes : s.workerBytes soi t = p.bytes soi := by
        rw [workerBytes, hu]
        simpa [Worker.packet?] using lane_bytes_of_mine hmine
      rw [queuedBytes, hpending, hnil, hbytes, append_nil, flatMap_nil, lane_nil,
        append_nil] at hall
      refine ⟨hall, ?_, hnil⟩
      change lane t ((s.socket.pending soi).flatMap _) = []
      rw [hpending]
      rfl
  · refine h.mono rfl (workerBytes_goto hu rfl) (fun _ => ?_) rfl rfl rfl id
    exact update_of_ne htu ..

theorem direct (hlocking : s.Locking soi) (hcalls : s.Calls) (htcp : s.socket.protocol = .tcp)
    (hu : s.worker u = .writing p none) {n : ℕ} (hn : n ≤ (p.object soi).sz)
    {datagrams : List (Datagram (SendTag Tid))} {x : Socket (SendTag Tid)}
    (hx : n = (p.object soi).sz ∧ x = s.socket ∨
      n < (p.object soi).sz ∧ x = { s.socket with dw := some (p, n), wantWrite := true }) :
    (SocketServer.goto { s with
      socket := x
      lock := none
      wire := if s.socket.protocol = .tcp then s.wire ++ (p.bytes soi).take n else s.wire
      datagrams := datagrams
      kept := s.keeps p } u .idle).Lane soi t := by
  have hwrites : (s.worker u).Writes := by rw [hu]; trivial
  have hcarried : (s.worker u).packet? = some p := by rw [hu]; rfl
  have hdw := hlocking.dw u hwrites
  -- together the stream and the queue get the bytes of the packet
  have hpending : ∃ rest, (p.bytes soi).take n ++ rest = p.bytes soi ∧
      (x.pending soi).flatMap WriteBuffer.rest =
        rest ++ (s.socket.pending soi).flatMap WriteBuffer.rest := by
    rcases hx with ⟨hall, rfl⟩ | ⟨hlt, rfl⟩
    · refine ⟨[], ?_, rfl⟩
      rw [append_nil, take_of_length_le]
      simp [bytes, hall]
    · refine ⟨_, take_append_rest_ofPacket p none hn, ?_⟩
      rw [pending_of_dw hdw]
      rfl
  obtain ⟨rest, hrest, hpending⟩ := hpending
  have hflow : ∀ {s'' : SocketServer Tid}, s''.socket = x → s''.poller = s.poller →
      s''.Flowing t → s.Flowing t := by
    intro s'' hsocket hpoller
    rcases hx with ⟨-, rfl⟩ | ⟨-, rfl⟩ <;> rw [Flowing, Lost, hsocket, hpoller] <;> exact id
  have hsplit : lane t ((p.bytes soi).take n) ++ lane t rest = lane t (p.bytes soi) := by
    rw [← lane_append, hrest]
  by_cases hmine : u = t ∧ Mine t p.tag
  · obtain ⟨rfl, hmine⟩ := hmine
    obtain ⟨hwire, hqueue, hpipe⟩ := h.writes hwrites p hcarried hmine
    have hall : lane u (s.wire ++ (p.bytes soi).take n) ++
        lane u ((x.pending soi).flatMap WriteBuffer.rest) = s.sentBytes soi u := by
      rw [hpending, lane_append, lane_append, hqueue, append_nil, append_assoc, hsplit,
        lane_bytes_of_mine hmine, hwire]
    refine ⟨?_, fun _ => ?_, fun hw => ?_⟩
    · change lane u (if s.socket.protocol = .tcp then _ else _) ++
        lane u ((x.pending soi).flatMap _) <+: s.sentBytes soi u
      rw [if_pos htcp]
      exact ⟨[], by rw [append_nil, hall]⟩
    · change lane u (if s.socket.protocol = .tcp then _ else _) ++
        lane u ((x.pending soi).flatMap _) ++ s.pipeBytes soi u ++
          lane u ((update s.worker u _ u).packet?.toList.flatMap _) = s.sentBytes soi u
      rw [if_pos htcp, hall, hpipe, update_self]
      simp [Worker.packet?]
    · exact absurd hw (hlocking.not_writes_update id hwrites.hasLock)
  · have hother : ¬ Mine t p.tag := fun hm =>
      hmine ⟨(hcalls.carried u p hcarried).2.symm.trans hm.1, hm⟩
    rw [lane_bytes_of_not_mine hother, append_eq_nil_iff] at hsplit
    refine h.mono rfl ?_ (eq_of_writes_update id) ?_ ?_ rfl (hflow rfl rfl)
    · change lane t ((update s.worker u _ t).packet?.toList.flatMap _) = _
      by_cases htu : t = u
      · subst htu
        rw [update_self, workerBytes, hcarried]
        simp [Worker.packet?, lane_bytes_of_not_mine hother]
      · rw [update_of_ne htu, workerBytes]
    · change lane t (if s.socket.protocol = .tcp then _ else _) = _
      rw [if_pos htcp, lane_append, hsplit.1, append_nil]
    · change lane t ((x.pending soi).flatMap _) = _
      rw [hpending, lane_append, hsplit.2, nil_append]

theorem post (hcalls : s.Calls) (hu : s.worker u = .posting (.send p priority address)) :
    (SocketServer.goto { s with
      pipe := s.pipe ++ [.send p priority address]
      kept := s.keeps p } u .idle).Lane soi t := by
  have hcarried : (s.worker u).packet? = some p := by rw [hu]; rfl
  have hpipe : lane t (((s.pipe ++ [send p priority address]).filterMap
      packet?).flatMap (bytes soi)) = s.pipeBytes soi t ++ lane t (p.bytes soi) := by
    simp [pipeBytes, filterMap_append, packet?]
  by_cases htu : t = u
  · subst htu
    refine ⟨h.written, fun hflow => ?_, fun hw => ?_⟩
    · have hall := h.flowing hflow
      rw [workerBytes, hcarried, append_assoc] at hall
      change s.queuedBytes soi t ++ lane t (((s.pipe ++ [_]).filterMap packet?).flatMap _)
        ++ lane t ((update s.worker t _ t).packet?.toList.flatMap _) = s.sentBytes soi t
      rw [hpipe, ← hall, update_self]
      simp [Worker.packet?]
    · change (update s.worker t .idle t).Writes at hw
      rw [update_self] at hw
      exact hw.elim
  · refine h.mono rfl ?_ (eq_of_writes_update id) rfl rfl ?_ id
    · change lane t ((update s.worker u _ t).packet?.toList.flatMap _) = _
      rw [update_of_ne htu, workerBytes]
    · change lane t (((s.pipe ++ [_]).filterMap packet?).flatMap _) = _
      rw [hpipe, lane_bytes_of_not_mine (not_mine_of_ne (hcalls.carried u p hcarried).2 htu),
        append_nil]

end

omit [DecidableEq Tid] in
/-- A packet of the thread is only freed when nothing more of the thread is sent. -/
theorem not_mine_of_drops (hordered : s.OrderedPackets) (hcalls : s.Calls)
    (hpipe : s.pipe = .send p priority address :: pipe) (hdrops : Socket.Drops s.socket.type)
    (hflow : s.Flowing t) : ¬ Mine t p.tag := by
  intro hmine
  have hmem : p ∈ s.calls := hcalls.piped p (by rw [hpipe]; exact mem_cons_self ..)
  obtain ⟨hhalf, hinvalid, -⟩ := hflow
  rcases hordered.type p hmem hmine.2 with htype | htype | htype
  · simp [Socket.Drops, htype] at hdrops
  · exact hhalf htype
  · exact hinvalid htype

theorem queue (h : s.Lane soi t) (hordered : s.OrderedPackets) (hcalls : s.Calls)
    (htcp : s.socket.protocol = .tcp) (hpoller : s.poller = .idle)
    (hpipe : s.pipe = .send p priority address :: pipe) {x : Socket (SendTag Tid)}
    (hx : x = s.socket ∧ (s.socket.protocol = .tcp → Socket.Drops s.socket.type) ∨
      ¬ Socket.Drops s.socket.type ∧ Socket.Queued soi s.socket p priority x)
    (datagrams : List (Datagram (SendTag Tid))) :
    Lane soi { s with pipe := pipe, socket := x, datagrams := datagrams } t := by
  have hhead : s.pipeBytes soi t = lane t (p.bytes soi) ++
      lane t ((pipe.filterMap packet?).flatMap (bytes soi)) := by
    rw [pipeBytes, hpipe, ← lane_append]
    rfl
  rcases hx with ⟨rfl, hdrops⟩ | ⟨hdrops, hq⟩
  · refine ⟨h.written, fun hflow => ?_, fun hw q hq hmine => ?_⟩
    · have hall := h.flowing hflow
      rw [hhead, lane_bytes_of_not_mine
        (not_mine_of_drops hordered hcalls hpipe (hdrops htcp) hflow)] at hall
      exact hall
    · obtain ⟨hwire, hqueue, hnil⟩ := h.writes hw q hq hmine
      rw [hhead, append_eq_nil_iff] at hnil
      exact ⟨hwire, hqueue, hnil.2⟩
  · -- a packet that is not freed goes to the end of the queue
    have hpending : lane t ((x.pending soi).flatMap rest) =
        lane t ((s.socket.pending soi).flatMap rest) ++ lane t (p.bytes soi) := by
      obtain ⟨wb, rfl, hunsent, -, ⟨hhigh, -⟩ | ⟨rfl, -, hhigh⟩⟩ := hq.lists
      · simp [pending, dwBuffer, hq.same.dw, hhigh, hunsent.rest_eq]
      · have hlow : wb.packet.tag.ordered = false :=
          hordered.pipe _ address (by rw [hpipe]; exact mem_cons_self ..)
        rw [pending_congr hq.same.dw hhigh, lane_bytes_of_not_mine, append_nil]
        intro hmine
        rw [hmine.2] at hlow
        cases hlow
    have hflow : s.Flowing t := by
      refine ⟨fun htype => hdrops ?_, fun htype => hdrops ?_, not_lost_of_idle hpoller⟩ <;>
        simp [Socket.Drops, htype]
    have hall := h.flowing hflow
    rw [hhead, queuedBytes] at hall
    have hall' : lane t s.wire ++ lane t ((x.pending soi).flatMap rest) ++
        lane t ((pipe.filterMap packet?).flatMap (bytes soi)) ++
          s.workerBytes soi t = s.sentBytes soi t := by
      rw [← hall, hpending]
      simp
    refine ⟨?_, fun _ => hall', fun hw q hq hmine => ?_⟩
    · change lane t s.wire ++ lane t ((x.pending soi).flatMap rest) <+: _
      rw [append_assoc] at hall'
      exact ⟨_, hall'⟩
    · obtain ⟨hwire, hqueue, hnil⟩ := h.writes hw q hq hmine
      rw [hhead, append_eq_nil_iff] at hnil
      refine ⟨hwire, ?_, hnil.2⟩
      change lane t ((x.pending soi).flatMap rest) = []
      rw [hpending, hqueue, hnil.1]
      rfl

section

variable {l : List (WriteBuffer (SendTag Tid))} (hordered : s.OrderedPackets)
include hordered

theorem lane_low (hl : l ⊆ s.socket.low.chain) : lane t (l.flatMap rest) = [] := by
  refine lane_eq_nil fun b hb _ => ?_
  obtain ⟨wb, hwb, hmem⟩ := mem_flatMap.mp hb
  rw [fst_of_mem_span hmem]
  exact hordered.low wb (hl hwb)

/-- What is written from the lists, of the packets of the thread. -/
theorem sent (htcp : s.socket.protocol = .tcp) (hsent : (s.socket.mergeDw soi).SentFrom f l) :
    lane t (s.wire ++ f.written) ++ lane t (l.flatMap rest) = s.queuedBytes soi t := by
  have hall := congrArg (lane t) (hsent.of_tcp htcp).flatMap_rest
  rw [flatMap_append, lane_append, lane_append, lane_low hordered (List.Subset.refl _),
    append_nil] at hall
  rw [lane_append, append_assoc, hall, queuedBytes]

end

variable (h : s.Lane soi t)
include h

theorem flush (hlocking : s.Locking soi) (hordered : s.OrderedPackets)
    (htcp : s.socket.protocol = .tcp) (hlock : s.lock = none) {poller : Poller Tid}
    (hflushing : s.Flushing pipe poller) (hf : (s.socket.mergeDw soi).Flushed f)
    (hflowing : Flowing { s with
      pipe := pipe
      poller := poller
      socket := f.socket
      wire := s.wire ++ f.written
      datagrams := s.datagrams ++ f.datagrams } t → s.Flowing t) :
    Lane soi { s with
      pipe := pipe
      poller := poller
      socket := f.socket
      wire := s.wire ++ f.written
      datagrams := s.datagrams ++ f.datagrams } t := by
  have hmerged := merged_mergeDw soi s.socket
  have hpending : f.socket.pending soi = f.socket.high.chain :=
    pending_of_dw (hf.dw.trans hmerged.dw)
  have hlow := hf.low_suffix.subset
  rw [hmerged.low] at hlow
  have hqueued : lane t (s.wire ++ f.written) ++
      lane t ((f.socket.pending soi).flatMap rest) = s.queuedBytes soi t := by
    rw [← sent hordered htcp hf.sent, hpending, queued, flatMap_append,
      lane_append (f.socket.high.chain.flatMap _), lane_low hordered hlow, append_nil]
  refine ⟨?_, fun hflow => ?_, fun hw => absurd hw (hlocking.not_writes_of_lock hlock t)⟩
  · change lane t (s.wire ++ f.written) ++ _ <+: _
    rw [hqueued]
    exact h.written
  · have hall := h.flowing (hflowing hflow)
    rw [← hqueued, pipeBytes, ← hflushing.packets] at hall
    exact hall

theorem flushClosed (hlocking : s.Locking soi) (hordered : s.OrderedPackets)
    (htcp : s.socket.protocol = .tcp) (hlock : s.lock = none)
    (hf : (s.socket.mergeDw soi).FlushClosed f) :
    Lane soi { s with
      pipe := pipe
      socket := f.socket
      wire := s.wire ++ f.written
      datagrams := s.datagrams ++ f.datagrams
      broken := s.broken || f.failed } t := by
  obtain ⟨htype, hhigh, -, hdw⟩ := hf.socket
  obtain ⟨l, hsent, -⟩ := hf.sent
  refine ⟨?_, fun hflow => absurd htype hflow.2.1,
    fun hw => absurd hw (hlocking.not_writes_of_lock hlock t)⟩
  change lane t (s.wire ++ f.written) ++ lane t ((f.socket.pending soi).flatMap _) <+: _
  rw [pending_of_dw hdw, hhigh]
  refine List.IsPrefix.trans ?_ h.written
  rw [← sent hordered htcp hsent]
  simp [WbList.empty]

theorem forceClose {broken : Bool} (hpipe : pipe = s.pipe ∨ s.pipe = .start :: pipe)
    (hflowing : Flowing { s with
      pipe := pipe
      broken := broken
      socket := s.socket.freeWbLists
      poller := .closing s.socket.queued } t → s.Flowing t) :
    Lane soi { s with
      pipe := pipe
      broken := broken
      socket := s.socket.freeWbLists
      poller := .closing s.socket.queued } t := by
  have hfreed : s.socket.freeWbLists.pending soi = s.socket.dwBuffer soi := by
    simp [pending, freeWbLists, WbList.empty, dwBuffer]
  have hqueued : s.queuedBytes soi t =
      lane t s.wire ++ lane t ((s.socket.freeWbLists.pending soi).flatMap rest) ++
        lane t (s.socket.high.chain.flatMap rest) := by
    rw [queuedBytes, hfreed, pending, flatMap_append, lane_append, append_assoc]
  refine ⟨?_, fun hflow => ?_, fun hw p hp hmine => ?_⟩
  · refine List.IsPrefix.trans ⟨_, hqueued.symm⟩ h.written
  · -- none of the freed packets is one of the thread
    have hnone : lane t (s.socket.high.chain.flatMap rest) = [] := by
      refine lane_eq_nil fun b hb hsender => ?_
      obtain ⟨wb, hwb, hmem⟩ := mem_flatMap.mp hb
      rw [fst_of_mem_span hmem] at hsender ⊢
      by_contra hordered
      rw [Bool.not_eq_false] at hordered
      exact hflow.2.2 ⟨_, rfl, wb, mem_append_left _ hwb, hsender, hordered⟩
    have hall := h.flowing (hflowing hflow)
    rw [hqueued, hnone, append_nil, pipeBytes, ← packets_of_start hpipe] at hall
    exact hall
  · obtain ⟨hwire, hqueue, hnil⟩ := h.writes hw p hp hmine
    rw [pending, flatMap_append, lane_append, append_eq_nil_iff] at hqueue
    rw [pipeBytes, ← packets_of_start hpipe] at hnil
    refine ⟨hwire, ?_, hnil⟩
    change lane t ((s.socket.freeWbLists.pending soi).flatMap _) = []
    rw [hfreed]
    exact hqueue.1

/-- Every step keeps the lane of a thread, if a direct write does not overtake. -/
theorem of_change (hinv : s.Inv soi) (hlocking : s.Locking soi) (hcalls : s.Calls)
    (hordered : s.OrderedPackets) (htcp : s.socket.protocol = .tcp) (hguard : s.SafeOvertake a)
    (hchange : Change soi s a s') : s'.Lane soi t := by
  have hflowing : s'.Flowing t → s.Flowing t := Flowing.of_change hinv hchange
  cases hchange with
  | stay => exact h
  | enter hu _ hentered => exact h.enter hu hentered
  | test hu => exact h.goto hu rfl id
  | refuse hu => rcases hu with hu | hu <;> exact h.goto hu rfl id
  | lock hu => exact h.goto hu rfl id
  | recheck hu hcan =>
    refine h.recheck hu hcan fun htu hmine => ?_
    subst htu
    obtain ⟨hpipe, hlost⟩ := hguard _ _ _ _ rfl hu hcan hmine.2
    exact ⟨pipeBytes_eq_nil hpipe, hlost⟩
  | unlock hu => rcases hu with hu | ⟨hu, -⟩ <;> exact h.goto hu rfl id
  | direct hu hn hx => exact h.direct hlocking hcalls htcp hu hn hx
  | directUdp hu =>
    have haddress := hlocking.address htcp
    have hnone := hu ▸ haddress _
    cases hnone
  | postSend hu => exact h.post hcalls hu
  | post hc _ hu =>
    refine h.mono rfl ?_ (eq_of_writes_update id) rfl rfl ?_ id
    · rcases hu with hu | hu
      · exact workerBytes_goto hu rfl
      · exact workerBytes_goto hu hc.symm
    · rw [pipeBytes, pipeBytes]
      change lane t (((s.pipe ++ [_]).filterMap packet?).flatMap _) = _
      rw [filterMap_append, filterMap_cons_none hc, filterMap_nil, append_nil]
  | udpConnect hu hw =>
    rcases hw with rfl | ⟨b, rfl⟩
    · exact h.mono rfl (workerBytes_goto hu rfl) (eq_of_writes_update id) rfl rfl rfl id
    · exact h.mono rfl (workerBytes_goto hu rfl) (eq_of_writes_update id) rfl rfl rfl id
  | opened _ hpipe _ _ hhigh _ _ _ hdw =>
    rcases hinv.opening with hres | ⟨-, hopen⟩
    · have hpending : pending soi _ = s.socket.pending soi :=
        pending_congr (hdw.elim (fun h => h.trans hres.dw.symm) id) hhigh
      refine h.mono rfl rfl (fun _ => rfl) rfl (by rw [hpending]) ?_ hflowing
      rw [pipeBytes, pipeBytes, packets_of_pop hpipe rfl]
    · exact absurd (by simp [hpipe]) hopen
  | queue hpoller hpipe hx => exact h.queue hordered hcalls htcp hpoller hpipe hx _
  | pop _ hpipe hc _ hx =>
    refine h.mono rfl rfl (fun _ => rfl) rfl (by rw [pending_congr hx.dw hx.high]) ?_ hflowing
    rw [pipeBytes, pipeBytes, packets_of_pop hpipe hc]
  | closeCmd _ hpipe =>
    refine h.mono rfl rfl (fun _ => rfl) rfl rfl ?_ hflowing
    rw [pipeBytes, pipeBytes, packets_of_pop hpipe rfl]
  | flush _ hlock _ hflushing hf =>
    exact h.flush hlocking hordered htcp hlock hflushing hf hflowing
  | flushClosed _ hlock _ _ hf => exact h.flushClosed hlocking hordered htcp hlock hf
  | halfclose =>
    exact ⟨h.written, fun hflow => absurd rfl hflow.1, h.writes⟩
  | forceClose _ _ hpipe => exact h.forceClose hpipe hflowing
  | connected _ hx =>
    exact h.mono rfl rfl (fun _ => rfl) rfl (by rw [pending_congr hx.dw hx.high]) rfl hflowing
  | reported => exact h.mono rfl rfl (fun _ => rfl) rfl rfl rfl hflowing
  | closed hpoller hlock =>
    refine ⟨?_, fun hflow => absurd rfl hflow.2.1,
      fun hw => absurd hw (hlocking.not_writes_of_lock hlock t)⟩
    -- the lists are empty by now, and the direct-write buffer is dropped
    have hhigh := (append_eq_nil_iff.mp (hinv.closing ⟨_, hpoller⟩)).1
    refine List.IsPrefix.trans ?_ h.written
    change lane t s.wire ++ lane t ((s.socket.closeFd.pending soi).flatMap _) <+: _
    rw [pending_of_dw (show s.socket.closeFd.dw = none from rfl),
      show s.socket.closeFd.high.chain = [] from hhigh, flatMap_nil, lane_nil, append_nil]
    exact prefix_append ..

end Lane

/-! ## Runs -/

/-- The invariant of all threads. -/
structure OrderInv (soi : SocketObjectInterface) (s : SocketServer Tid) : Prop where
  inv : s.Inv soi
  locking : s.Locking soi
  calls : s.Calls
  ordered : s.OrderedPackets
  tcp : s.socket.protocol = .tcp
  lanes : ∀ t, s.Lane soi t

theorem OrderInv.step (h : s.OrderInv soi) (hguard : s.SafeOvertake a)
    (hstep : s.step soi a = .ok s') : s'.OrderInv soi := by
  have hchange := h.inv.change hstep
  exact ⟨h.inv.of_change hchange, h.locking.of_change hchange, h.calls.of_change hchange,
    h.ordered.of_change h.inv hchange, (protocol_change hchange).trans h.tcp,
    fun t => (h.lanes t).of_change h.inv h.locking h.calls h.ordered h.tcp hguard hchange⟩

theorem orderInv_init (soi : SocketObjectInterface) : (init Tid .tcp).OrderInv soi where
  inv := inv_init soi .tcp
  locking := locking_init soi .tcp
  calls := calls_init .tcp
  ordered := by constructor <;> simp [init, WbList.empty]
  tcp := rfl
  lanes t := ⟨prefix_refl _, fun _ => rfl, fun hw => hw.elim⟩

theorem sentBytes_eq (s : SocketServer Tid) (t : Tid) :
    s.sentBytes soi t = (s.orderedCalls t).flatMap (bytes soi) := by
  unfold sentBytes orderedCalls
  induction s.calls with
  | nil => rfl
  | cons p l ih =>
    rw [flatMap_cons, lane_append, ih]
    by_cases hmine : Mine t p.tag
    · rw [lane_bytes_of_mine hmine, filter_cons_of_pos (by simpa [Mine] using hmine), flatMap_cons]
    · rw [lane_bytes_of_not_mine hmine, filter_cons_of_neg (by simpa [Mine] using hmine),
        nil_append]

/-- The stream of a thread is a prefix of what it has sent, so a packet only starts when the
earlier ones are complete. -/
theorem OrderInv.inOrder (h : s.OrderInv soi) : s.InOrder soi := by
  intro t p q hpq before b behind hwire hb
  have hmem : q ∈ s.orderedCalls t := hpq.subset (by simp)
  have hmine : Mine t q.tag := by simpa [Mine] using (mem_filter.mp hmem).2
  -- the packets up to `p` and those behind it
  obtain ⟨l, m, hcalls, hp, hq⟩ := cons_sublist_iff.mp hpq
  rw [singleton_sublist] at hq
  obtain ⟨l₁, l₂, rfl⟩ := append_of_mem hp
  have hnodup : ((s.orderedCalls t).map (·.tag)).Nodup :=
    h.calls.nodup.sublist (filter_sublist.map _)
  rw [hcalls, map_append, nodup_append] at hnodup
  have hprefix : lane t (before ++ [b]) <+:
      (l₁ ++ p :: l₂).flatMap (bytes soi) ++ m.flatMap (bytes soi) := by
    rw [← flatMap_append, ← hcalls, ← sentBytes_eq]
    refine List.IsPrefix.trans ?_ (h.lanes t).written
    rw [queuedBytes, hwire, append_cons before b behind, lane_append (before ++ [b]) behind,
      append_assoc]
    exact prefix_append ..
  have hlast : lane t [b] = [b] := lane_eq_self (by simpa [hb, Mine] using hmine)
  rw [lane_append, hlast] at hprefix
  have hbefore := isPrefix_of_concat_isPrefix hprefix fun hin => by
    obtain ⟨r, hr, hbyte⟩ := mem_flatMap.mp hin
    rw [fst_of_mem_span hbyte] at hb
    exact hnodup.2.2 _ (mem_map_of_mem hr) _ (mem_map_of_mem hq) hb
  intro c hc
  have hlane : c ∈ lane t before := hbefore.subset (mem_flatMap.mpr ⟨p, by simp, hc⟩)
  exact (mem_filter.mp hlane).1

/-- In every run of a TCP socket in which no direct write overtakes a packet of the same thread,
the packets of a thread are written in the order in which they were sent. -/
theorem inOrder_of_safeOvertake (soi : SocketObjectInterface) (acts : List (SocketAct Tid))
    (s : SocketServer Tid) (hrun : Run (next soi) SafeOvertake (init Tid .tcp) acts s) :
    s.InOrder soi := by
  have hs : s.OrderInv soi := hrun.invariant (orderInv_init soi)
    fun hguard hnext h => h.step hguard (toOption_eq_some_iff.mp hnext)
  exact hs.inOrder

/-- Two packets of one thread, the first one written in two parts. -/
def twoPacketsRun : List (SocketAct ℕ) :=
  [.command ⟨some .connected, [], true⟩, .send 0 1000 4, .run 0 .again, .run 0 .again,
    .run 0 .again, .run 0 (.wrote 3), .writeEvent [.wrote 1],
    .send 0 2000 4, .run 0 .again, .run 0 .again, .run 0 .again, .run 0 (.wrote 4)]

omit [DecidableEq Tid] in
theorem safeOvertake_of_quiet
    (h : s.pipe.filterMap packet? = [] ∧ s.poller = .idle) : s.SafeOvertake a := by
  intro t r p b _ _ _ _
  exact ⟨by simp [h.1], not_lost_of_idle h.2⟩

theorem inOrder_two_packets : ∃ s, Run (next noObjects) SafeOvertake (init ℕ .tcp) twoPacketsRun s ∧
      s.wire.length = 8 ∧ s.InOrder noObjects := by
  obtain ⟨s, hs⟩ : ∃ s, exec (guarded (next noObjects) fun s _ =>
      s.pipe.filterMap Command.packet? = [] ∧ s.poller = .idle) (init ℕ .tcp) twoPacketsRun =
        some s := ⟨_, rfl⟩
  have hrun : Run (next noObjects) SafeOvertake _ _ s :=
    (run_of_exec_guarded hs).mono fun _ _ hquiet => safeOvertake_of_quiet hquiet
  have hlength : (exec (guarded (next noObjects) fun s _ =>
      s.pipe.filterMap Command.packet? = [] ∧ s.poller = .idle) (init ℕ .tcp) twoPacketsRun).map
        (fun s => s.wire.length) = some 8 := by decide
  rw [hs, Option.map_some, Option.some_inj] at hlength
  exact ⟨s, hrun, hlength, inOrder_of_safeOvertake noObjects twoPacketsRun s hrun⟩

/-- The first packet of the thread goes through the pipe because another one is queued; that is
flushed, and the second packet is written directly while the first is still in the pipe. -/
def overtakeRun : List (SocketAct ℕ) :=
  [.command ⟨some .connected, [], true⟩, .sendLowpriority 1 1000 4, .run 1 .again,
    .command ⟨none, [], true⟩, .send 0 2000 4, .run 0 .again, .run 0 .again,
    .writeEvent [.wrote 4], .send 0 3000 4, .run 0 .again, .run 0 .again, .run 0 .again,
    .run 0 (.wrote 4)]

/-- A direct write overtakes a packet of the same thread in the pipe. -/
theorem direct_write_overtakes :
    ¬ ∀ (soi : SocketObjectInterface) (acts : List (SocketAct ℕ)) (s : SocketServer ℕ),
      Run (next soi) anyAction (init ℕ .tcp) acts s → s.InOrder soi := by
  intro hclaim
  obtain ⟨s, hs⟩ : ∃ s, exec (next noObjects) (init ℕ .tcp) overtakeRun = some s := ⟨_, rfl⟩
  have hwire : (exec (next noObjects) (init ℕ .tcp) overtakeRun).map
      (fun s => (s.wire, s.orderedCalls 0)) =
        some (span ⟨1, 0, false⟩ 1000 4 ++ span ⟨0, 2, true⟩ 3000 4,
          [⟨⟨0, 1, true⟩, 2000, 4⟩, ⟨⟨0, 2, true⟩, 3000, 4⟩]) := by decide
  rw [hs, Option.map_some, Option.some_inj, Prod.mk.injEq] at hwire
  obtain ⟨hwire, hcalls⟩ := hwire
  have hbefore := hclaim noObjects overtakeRun s (run_of_exec hs) 0 ⟨⟨0, 1, true⟩, 2000, 4⟩
    ⟨⟨0, 2, true⟩, 3000, 4⟩ (by rw [hcalls])
    (span ⟨1, 0, false⟩ 1000 4) (⟨0, 2, true⟩, 3000) (span ⟨0, 2, true⟩ 3001 3) hwire rfl
  revert hbefore
  decide

end SocketServer

end Uboss.Core
