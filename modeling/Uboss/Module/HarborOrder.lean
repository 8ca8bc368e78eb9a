import Uboss.Math.Relay
import Uboss.Module.HarborCustody

/-!
# The order of the messages to a harbor

Messages to a handle in another harbor wait in the queue of the slave until the link is usable, and
are written to it at once afterwards. They are written in the order in which they were accepted,
each of them once, unless the link goes down.

`send_remote` does not write a message whose size does not fit into its header.
-/

namespace Uboss.Module

open Math List Option Nat

/-- The message was addressed to a handle in the harbor. -/
def NodeMsg.goesTo (i : Fin remoteMax) (m : NodeMsg) : Bool :=
  match m.origin.target with
  | .handle destination => harborOf destination = i
  | .name _ _ => false

/-- The test of `send_remote`. -/
def NodeMsg.fits (m : NodeMsg) : Bool := m.data.length + headerCookieLength ≤ uint32Max

/-- The message to the harbor that was accepted. -/
def HarborEvent.routed (i : Fin remoteMax) : HarborEvent → Option NodeMsg
  | .route m => if m.goesTo i then some m else none
  | _ => none

/-- The message to the harbor that was written to a socket. -/
def HarborEvent.passed (i : Fin remoteMax) : HarborEvent → Option NodeMsg
  | .call (.ubossSocketSend _ _ _) (some m) => if m.goesTo i then some m else none
  | _ => none

section Events

variable {i : Fin remoteMax} {es : List HarborEvent} {fd : ℕ}

theorem HarborEvent.Quiet.routed_eq {e : HarborEvent} (he : e.Quiet) : e.routed i = none := by
  cases e with
  | route m => exact he.elim
  | _ => rfl

theorem HarborEvent.Quiet.passed_eq {e : HarborEvent} (he : e.Quiet) : e.passed i = none := by
  cases e with
  | call c m =>
    cases c with
    | ubossSocketSend => exact he.elim
    | _ => rfl
  | _ => rfl

theorem routed_remoteCall {m : NodeMsg} : (remoteCall fd m).routed i = none := by
  unfold remoteCall
  split_ifs <;> rfl

theorem passed_remoteCall {m : NodeMsg} :
    (remoteCall fd m).passed i = if m.fits ∧ m.goesTo i then some m else none := by
  unfold remoteCall
  by_cases hlarge : m.data.length + headerCookieLength > uint32Max
  · have hfits : ¬ m.fits = true := by simpa [NodeMsg.fits] using hlarge
    rw [if_pos hlarge, if_neg fun h => hfits h.1]
    rfl
  · have hfits : m.fits = true := by simpa [NodeMsg.fits] using hlarge
    simp [hlarge, hfits, HarborEvent.passed]

theorem routed_sendEvents {queue : List NodeMsg} :
    (queue.flatMap (sendEvents fd)).filterMap (HarborEvent.routed i) = [] := by
  refine filterMap_eq_nil_iff.mpr fun e he => ?_
  obtain ⟨m, -, he⟩ := mem_flatMap.mp he
  rcases mem_pair.mp he with rfl | rfl
  · exact routed_remoteCall
  · rfl

theorem passed_sendEvents {queue : List NodeMsg} :
    (queue.flatMap (sendEvents fd)).filterMap (HarborEvent.passed i) =
      (queue.filter (NodeMsg.goesTo i)).filter NodeMsg.fits := by
  induction queue with
  | nil => rfl
  | cons m queue ih =>
    rw [flatMap_cons, filterMap_append, ih, sendEvents, filterMap_cons, passed_remoteCall]
    by_cases hgoes : m.goesTo i = true
    · by_cases hfits : m.fits = true
      · simp [hgoes, hfits, HarborEvent.passed]
      · simp [hgoes, hfits, HarborEvent.passed]
    · simp [hgoes, HarborEvent.passed]

theorem routed_of_quiet (hes : ∀ e ∈ es, e.Quiet) : es.filterMap (HarborEvent.routed i) = [] :=
  filterMap_eq_nil_iff.mpr fun e he => (hes e he).routed_eq

theorem passed_of_quiet (hes : ∀ e ∈ es, e.Quiet) : es.filterMap (HarborEvent.passed i) = [] :=
  filterMap_eq_nil_iff.mpr fun e he => (hes e he).passed_eq

theorem routed_releaseQueue {queue : Option (List NodeMsg)} :
    (releaseQueue queue).filterMap (HarborEvent.routed i) = [] := by
  refine filterMap_eq_nil_iff.mpr fun e he => ?_
  obtain ⟨m, -, rfl⟩ := mem_map.mp he
  rfl

theorem passed_releaseQueue {queue : Option (List NodeMsg)} :
    (releaseQueue queue).filterMap (HarborEvent.passed i) = [] := by
  refine filterMap_eq_nil_iff.mpr fun e he => ?_
  obtain ⟨m, -, rfl⟩ := mem_map.mp he
  rfl

end Events

/-- The phase of the link. -/
def SlaveStatus.phase : SlaveStatus → Phase
  | .wait | .handshake => .waiting
  | .header | .content => .opened
  | .down => .down

namespace HarborNode

variable {h h' : HarborNode} {i j : Fin remoteMax} {a : HarborAct}
  {refused : List HarborCall → Bool}

/-- The messages to the harbor that were accepted so far. -/
def routed (h : HarborNode) (i : Fin remoteMax) : List NodeMsg :=
  h.log.filterMap (HarborEvent.routed i)

/-- The messages to the harbor that were written to a socket so far. -/
def passed (h : HarborNode) (i : Fin remoteMax) : List NodeMsg :=
  h.log.filterMap (HarborEvent.passed i)

/-- The link to a harbor as a relay for the messages to its handles. -/
def relay (h : HarborNode) (i : Fin remoteMax) : Relay NodeMsg where
  phase := (h.s i).status.phase
  held := ((h.s i).queue.getD []).filter (NodeMsg.goesTo i)
  taken := h.routed i
  passed := h.passed i

/-- Events that neither accept nor write a message to the harbor. -/
def Silent (i : Fin remoteMax) (es : List HarborEvent) : Prop :=
  es.filterMap (HarborEvent.routed i) = [] ∧ es.filterMap (HarborEvent.passed i) = []

section Relay

variable {es : List HarborEvent} {s : NodeSlave}

theorem silent_of_quiet (hes : ∀ e ∈ es, e.Quiet) : Silent i es :=
  ⟨routed_of_quiet hes, passed_of_quiet hes⟩

theorem Silent.append {fs : List HarborEvent} (hes : Silent i es) (hfs : Silent i fs) :
    Silent i (es ++ fs) := by
  simp [Silent, hes.1, hes.2, hfs.1, hfs.2]

theorem silent_forward {u : UbossSend} {block : ℕ} (hes : ∀ e ∈ es, e.Quiet) :
    Silent i (.call (.ubossSend u) none :: .hand block :: es) := by
  have hhead : Silent i [.call (.ubossSend u) none, .hand block] := ⟨rfl, rfl⟩
  exact hhead.append (silent_of_quiet hes)

theorem silent_closeEvents : Silent i (closeEvents s) := by
  refine Silent.append ?_ ⟨routed_releaseQueue, passed_releaseQueue⟩
  split_ifs
  · exact ⟨rfl, rfl⟩
  · exact ⟨rfl, rfl⟩

theorem silent_sendEvents {queue : List NodeMsg} {fd : ℕ}
    (hqueue : ∀ m ∈ queue, m.goesTo i = false) : Silent i (queue.flatMap (sendEvents fd)) := by
  refine ⟨routed_sendEvents, ?_⟩
  have hnone : queue.filter (NodeMsg.goesTo i) = [] :=
    filter_eq_nil_iff.mpr fun m hm => by simp [hqueue m hm]
  rw [passed_sendEvents, hnone, filter_nil]

theorem relay_emit (h : HarborNode) (es : List HarborEvent) : (h.emit es).relay i =
      { h.relay i with
        taken := h.routed i ++ es.filterMap (HarborEvent.routed i)
        passed := h.passed i ++ es.filterMap (HarborEvent.passed i) } := by
  simp [relay, routed, passed]

theorem relay_emit_of_silent (hes : Silent i es) : (h.emit es).relay i = h.relay i := by
  rw [relay_emit, hes.1, hes.2, append_nil, append_nil]
  rfl

theorem relay_setSlave_of_ne (hj : i ≠ j) : (h.setSlave j s).relay i = h.relay i := by
  rw [relay, setSlave_of_ne _ _ _ hj]
  rfl

theorem relay_setSlave_self : (h.setSlave i s).relay i =
      { h.relay i with
        phase := s.status.phase
        held := (s.queue.getD []).filter (NodeMsg.goesTo i) } := by
  rw [relay, setSlave_self]
  rfl

theorem relay_setSlave (hphase : s.status.phase = (h.s j).status.phase)
    (hqueue : s.queue = (h.s j).queue) : (h.setSlave j s).relay i = h.relay i := by
  by_cases hij : i = j
  · subst hij
    rw [relay_setSlave_self, hphase, hqueue]
    rfl
  · exact relay_setSlave_of_ne hij

theorem relay_flushed_self : (h.flushed i s).relay i =
      { h.relay i with
        phase := s.status.phase
        held := []
        passed := h.passed i ++
          ((s.queue.getD []).filter (NodeMsg.goesTo i)).filter NodeMsg.fits } := by
  rw [flushed, relay_emit, routed_sendEvents, passed_sendEvents, relay_setSlave_self]
  simp only [append_nil]
  rfl

theorem relay_flushed_of_ne (hij : i ≠ j) (hqueue : ∀ m ∈ s.queue.getD [], m.goesTo i = false) :
    (h.flushed j s).relay i = h.relay i := by
  rw [flushed, relay_emit_of_silent (silent_sendEvents hqueue), relay_setSlave_of_ne hij]

theorem silent_deliverEvents {queue : List NodeMsg} {handle : UInt32} :
    Silent i (queue.flatMap (deliverEvents handle)) := by
  have hnone : ∀ {f : HarborEvent → Option NodeMsg}, (∀ u m, f (.call (.ubossSend u) m) = none) →
      (∀ b, f (.hand b) = none) → (queue.flatMap (deliverEvents handle)).filterMap f = [] := by
    intro f hcall hhand
    refine filterMap_eq_nil_iff.mpr fun e he => ?_
    obtain ⟨m, -, he⟩ := mem_flatMap.mp he
    rcases mem_pair.mp he with rfl | rfl
    · exact hcall _ _
    · exact hhand _
  exact ⟨hnone (fun _ _ => rfl) fun _ => rfl, hnone (fun _ _ => rfl) fun _ => rfl⟩

end Relay

/-! ### Messages and harbors -/

theorem goesTo_eq_false {m : NodeMsg} (hm : m.harbor = some j) (hij : i ≠ j) :
    m.goesTo i = false := by
  rw [NodeMsg.harbor] at hm
  rw [NodeMsg.goesTo]
  cases htarget : m.origin.target with
  | handle destination =>
    rw [htarget] at hm
    exact decide_eq_false fun heq => hij (heq.symm.trans (some_inj.mp hm))
  | name name bound => rfl

theorem goesTo_directMsg (source destination : UInt32) (type : UInt8) (session : Int32) (block : ℕ)
    (data : List UInt8) :
    (directMsg source destination type session block data).goesTo i =
      decide (harborOf destination = i) := rfl

theorem goesTo_bind {m : NodeMsg} (hm : m.Unbound) (handle : UInt32) :
    (m.bind handle).goesTo i = false := by
  obtain ⟨name, hbind⟩ := hm.bind_eq handle
  rw [hbind]
  rfl

/-! ### The link is a relay -/

theorem steps_move (hplaced : Placed h) (hmove : Move j h h') :
    Relay.Steps NodeMsg.fits (h.relay i) (h'.relay i) := by
  cases hmove with
  | quiet hes =>
    rw [relay_emit_of_silent (silent_of_quiet hes)]
  | fill _ | load _ _ =>
    rw [relay_setSlave]
    · rfl
    · rfl
  | greet hstatus _ =>
    by_cases hij : i = j
    · subst hij
      rw [relay_flushed_self]
      refine .single (.openUp ?_)
      rw [relay, hstatus]
      rfl
    · rw [relay_flushed_of_ne hij]
      exact fun m hm => goesTo_eq_false (hplaced.slaves j m hm) hij
  | close _ =>
    rw [closeHarbor, relay_emit_of_silent silent_closeEvents]
    by_cases hij : i = j
    · subst hij
      rw [relay_setSlave_self]
      exact .single .goDown
    · rw [relay_setSlave_of_ne hij]
  | alloc hstatus =>
    rw [relay_setSlave]
    · exact .refl
    · rw [alloc_s, hstatus]
      rfl
    · rfl
  | forward hstatus _ hes =>
    rw [relay_setSlave, relay_emit_of_silent (silent_forward hes)]
    · rw [emit_s, hstatus]
      rfl
    · rfl

/-- A message that was just accepted is new. -/
def Fresh (h : HarborNode) (i : Fin remoteMax) : Prop := ∀ m ∈ h.routed i, m.block < h.next

section Accepted

variable {source destination : UInt32} {type : UInt8} {session : Int32} {data : List UInt8} {fd : ℕ}

theorem Fresh.not_mem (hfresh : Fresh h i) :
    directMsg source destination type session h.next data ∉ (h.relay i).taken :=
  fun hm => lt_irrefl _ (hfresh _ hm)

theorem routed_route (m : NodeMsg) :
    [HarborEvent.route m].filterMap (HarborEvent.routed i) = [m].filter (NodeMsg.goesTo i) := by
  by_cases hgoes : m.goesTo i = true
  · simp [HarborEvent.routed, hgoes]
  · simp [HarborEvent.routed, hgoes]

theorem relay_route (h : HarborNode) (m : NodeMsg) : (h.emit [.route m]).relay i =
      { h.relay i with taken := h.routed i ++ [m].filter (NodeMsg.goesTo i) } := by
  rw [relay_emit, routed_route]
  exact Relay.ext rfl rfl rfl (append_nil _)

theorem relay_send (h : HarborNode) (m : NodeMsg) :
    (h.emit (.route m :: [m].flatMap (sendEvents fd))).relay i =
      { h.relay i with
        taken := h.routed i ++ [m].filter (NodeMsg.goesTo i)
        passed := h.passed i ++ ([m].filter (NodeMsg.goesTo i)).filter NodeMsg.fits } := by
  rw [relay_emit, ← singleton_append, filterMap_append, filterMap_append,
    routed_route, routed_sendEvents, passed_sendEvents, append_nil]
  rfl

theorem steps_wait (hfresh : Fresh h i)
    (hphase : (h.s (harborOf destination)).status.phase = .waiting) :
    Relay.Steps NodeMsg.fits (h.relay i) (((h.alloc.waiting (harborOf destination)
        [directMsg source destination type session h.next data]).emit
          [.route (directMsg source destination type session h.next data)]).relay i) := by
  have hgoes := goesTo_directMsg (i := i) source destination type session h.next data
  rw [relay_route]
  by_cases hij : i = harborOf destination
  · subst hij
    rw [decide_eq_true rfl] at hgoes
    rw [filter_cons_of_pos hgoes, filter_nil, waiting, relay_setSlave_self,
      getD_some, filter_append, filter_cons_of_pos hgoes, filter_nil]
    exact .single (.hold hphase hfresh.not_mem)
  · rw [decide_eq_false (Ne.symm hij)] at hgoes
    rw [filter_cons_of_neg (by simp [hgoes]), filter_nil, append_nil, waiting,
      relay_setSlave_of_ne hij]
    exact .refl

theorem steps_send (hfresh : Fresh h i)
    (hphase : (h.s (harborOf destination)).status.phase ≠ .waiting) :
    Relay.Steps NodeMsg.fits (h.relay i)
      ((h.alloc.emit (.route (directMsg source destination type session h.next data) ::
        [directMsg source destination type session h.next data].flatMap (sendEvents fd))).relay
          i) := by
  have hgoes := goesTo_directMsg (i := i) source destination type session h.next data
  rw [relay_send]
  by_cases hij : i = harborOf destination
  · subst hij
    rw [decide_eq_true rfl] at hgoes
    rw [filter_cons_of_pos hgoes, filter_nil]
    cases hopen : (h.s (harborOf destination)).status.phase with
    | waiting => exact absurd hopen hphase
    | opened => exact .single (.pass hopen hfresh.not_mem)
    | down => exact .single (.late hopen hfresh.not_mem filter_sublist)
  · rw [decide_eq_false (Ne.symm hij)] at hgoes
    rw [filter_cons_of_neg (by simp [hgoes]), filter_nil, append_nil, filter_nil, append_nil]
    exact .refl

end Accepted

theorem steps_effect (hplaced : Placed h) (hshape : Shape h) (hnames : NamesUnbound h)
    (hid : (harborOf h.slave).val = h.id) (hi : i.val ≠ h.id) (hfresh : Fresh h i)
    (heffect : Effect h a h') (hlive : h'.released = false) :
    Relay.Steps NodeMsg.fits (h.relay i) (h'.relay i) := by
  cases heffect with
  | quiet hes => rw [relay_emit_of_silent (silent_of_quiet hes)]
  | stray _ => rw [relay_emit_of_silent ⟨rfl, rfl⟩]; exact .refl
  | data _ hmoves =>
    rw [relay_emit_of_silent ⟨rfl, rfl⟩]
    have hmoved := hmoves.invariant
      (P := fun g => Placed g ∧ Relay.Steps NodeMsg.fits (h.relay i) (g.relay i))
      ⟨hplaced.alloc (lawful_placed h.slave), .refl⟩ fun hmove hg =>
        ⟨hg.1.move (lawful_placed h.slave) hmove, hg.2.trans (steps_move hg.1 hmove)⟩
    exact hmoved.2
  | @connect msg source fd j hmsg hfree =>
    have hwait := (hshape j).fd_eq_zero_iff.mp hfree
    rw [linked, relay_emit_of_silent ⟨rfl, rfl⟩, relay_setSlave]
    · rw [hwait]
      rfl
    · rfl
  | @accept msg source fd j hmsg hfree =>
    have hwait := (hshape j).fd_eq_zero_iff.mp hfree
    by_cases hij : i = j
    · subst hij
      have hlinked : (h.linked fd i .header).relay i = { h.relay i with phase := .opened } := by
        rw [linked, relay_emit_of_silent ⟨rfl, rfl⟩, relay_setSlave_self]
        rfl
      have hpassed : (h.linked fd i .header).passed i = h.passed i := congrArg Relay.passed hlinked
      rw [relay_flushed_self, hlinked, hpassed]
      refine .single (.openUp ?_)
      rw [relay, hwait]
      rfl
    · rw [relay_flushed_of_ne hij, linked, relay_emit_of_silent ⟨rfl, rfl⟩,
        relay_setSlave_of_ne hij]
      exact fun m hm => goesTo_eq_false (hplaced.slaves j m hm) hij
  | bind _ _ => exact .refl
  | bindDrop _ _ hfree hdown =>
    rw [(hshape _).fd_eq_zero_iff.mp hfree] at hdown
    cases hdown
  | @bindLocal msg source name queue _ _ _ _ hlocal =>
    have hij : i ≠ harborOf source := fun heq => hi (by rw [heq, hlocal, hid])
    rw [relay_emit_of_silent silent_deliverEvents, relay_setSlave_of_ne hij]
    exact .refl
  | @bindWait msg source name queue _ hqueue _ _ _ =>
    -- messages to names do not count
    have hnone : (queue.map (NodeMsg.bind source)).filter (NodeMsg.goesTo i) = [] := by
      refine filter_eq_nil_iff.mpr fun m' hm' => ?_
      obtain ⟨m, hm, rfl⟩ := mem_map.mp hm'
      simp [goesTo_bind (hnames.nameQueue hqueue m hm)]
    by_cases hij : i = harborOf source
    · subst hij
      rw [waiting, relay_setSlave_self, bound_s, getD_some, filter_append, hnone, append_nil]
      exact .refl
    · rw [waiting, relay_setSlave_of_ne hij]
      exact .refl
  | @bindSend msg source name queue _ hqueue _ =>
    rw [relay_emit_of_silent (silent_sendEvents fun m hm => ?_)]
    · exact .refl
    · obtain ⟨m₁, hm₁, rfl⟩ := mem_map.mp hm
      obtain ⟨m₂, hm₂, rfl⟩ := mem_map.mp hm₁
      exact goesTo_bind (hnames.nameQueue hqueue m₂ hm₂) source
  | deliver _ _ => rw [relay_emit_of_silent ⟨rfl, rfl⟩]; exact .refl
  | @reject source handle destination _ _ _ _ _ _ hfree hdown =>
    rw [(hshape _).fd_eq_zero_iff.mp hfree] at hdown
    cases hdown
  | @wait source handle destination _ _ _ _ _ _ hwait _ =>
    refine steps_wait hfresh ?_
    rcases hwait with hfree | hstatus
    · rw [(hshape _).fd_eq_zero_iff.mp hfree]
      rfl
    · rw [hstatus]
      rfl
  | @send source handle destination _ _ _ _ _ _ hfd hopen =>
    refine steps_send hfresh fun hphase => ?_
    cases hstatus : (h.s (harborOf destination)).status with
    | wait => exact hfd ((hshape _).fd_eq_zero_iff.mpr hstatus)
    | handshake => exact hopen hstatus
    | header | content | down =>
      rw [hstatus] at hphase
      cases hphase
  | query _ => rw [relay_emit_of_silent ⟨rfl, rfl⟩]; exact .refl
  | release => cases hlive

/-! ### Runs -/

theorem routed_emit_of_nil {es : List HarborEvent}
    (hes : es.filterMap (HarborEvent.routed i) = []) : (h.emit es).routed i = h.routed i := by
  rw [routed, emit_log, filterMap_append, hes, append_nil, routed]

theorem relay_harborRelease (h : HarborNode) :
    h.harborRelease.routed i = h.routed i ∧ h.harborRelease.passed i = h.passed i := by
  have hnone : ∀ {f : HarborEvent → Option NodeMsg},
      (∀ s, (closeEvents s).filterMap f = []) → (∀ queue, (releaseQueue queue).filterMap f = []) →
        h.releaseEvents.filterMap f = [] := by
    intro f hclose hqueue
    refine filterMap_eq_nil_iff.mpr fun e he => ?_
    rcases mem_releaseEvents he with ⟨j, he⟩ | ⟨queue, he⟩
    · exact filterMap_eq_nil_iff.mp (hclose (h.s j)) e he
    · exact filterMap_eq_nil_iff.mp (hqueue queue) e he
  have hsilent : Silent i h.releaseEvents :=
    ⟨hnone (fun _ => silent_closeEvents.1) fun _ => routed_releaseQueue,
      hnone (fun _ => silent_closeEvents.2) fun _ => passed_releaseQueue⟩
  exact ⟨congrArg Relay.taken (relay_emit_of_silent (h := h) hsilent),
    congrArg Relay.passed (relay_emit_of_silent (h := h) hsilent)⟩

theorem Fresh.of_le (hfresh : Fresh h i) (hrouted : h'.routed i = h.routed i)
    (hnext : h.next ≤ h'.next) : Fresh h' i := by
  intro m hm
  rw [hrouted] at hm
  exact lt_of_lt_of_le (hfresh m hm) hnext

theorem Fresh.of_route (hfresh : Fresh h i) {m : NodeMsg} (hblock : m.block = h.next)
    (hrouted : h'.routed i = h.routed i ++ [m].filter (NodeMsg.goesTo i))
    (hnext : h'.next = h.next + 1) : Fresh h' i := by
  intro m' hm'
  rw [hrouted, mem_append] at hm'
  rw [hnext]
  rcases hm' with hm' | hm'
  · exact lt_succ_of_lt (hfresh m' hm')
  · rw [mem_singleton.mp (mem_of_mem_filter hm'), hblock]
    exact lt_succ_self _

theorem Fresh.move (hmove : Move j h h') (hfresh : Fresh h i) : Fresh h' i := by
  cases hmove with
  | quiet hes => exact hfresh.of_le (routed_emit_of_nil (routed_of_quiet hes)) le_rfl
  | fill _ | load _ _ => exact hfresh
  | greet _ _ =>
    exact hfresh.of_le (routed_emit_of_nil (h := h.setSlave _ _) routed_sendEvents) le_rfl
  | close _ =>
    exact hfresh.of_le (routed_emit_of_nil (h := h.setSlave _ _) silent_closeEvents.1) le_rfl
  | alloc _ => exact hfresh.of_le rfl (le_succ _)
  | forward _ _ hes =>
    exact hfresh.of_le (routed_emit_of_nil (silent_forward hes).1) le_rfl

theorem Fresh.effect (heffect : Effect h a h') (hfresh : Fresh h i) : Fresh h' i := by
  have halloc : Fresh h.alloc i := hfresh.of_le rfl (le_succ _)
  cases heffect with
  | quiet hes => exact hfresh.of_le (routed_emit_of_nil (routed_of_quiet hes)) le_rfl
  | stray _ | deliver _ _ => exact halloc.of_le (routed_emit_of_nil rfl) le_rfl
  | query _ => exact halloc.of_le (routed_emit_of_nil (h := h.alloc.awaiting _ _) rfl) le_rfl
  | data _ hmoves =>
    exact (hmoves.invariant halloc Fresh.move).of_le (routed_emit_of_nil rfl) le_rfl
  | connect _ _ => exact hfresh.of_le (routed_emit_of_nil (h := h.setSlave _ _) rfl) le_rfl
  | accept _ _ =>
    refine hfresh.of_le ?_ le_rfl
    exact (routed_emit_of_nil (h := (h.linked _ _ _).setSlave _ _) routed_sendEvents).trans
      (routed_emit_of_nil (h := h.setSlave _ _) rfl)
  | bind _ _ => exact hfresh
  | bindDrop _ _ _ _ =>
    exact hfresh.of_le (routed_emit_of_nil (h := h.bound _ _) routed_releaseQueue) le_rfl
  | bindLocal _ _ _ _ _ =>
    exact hfresh.of_le (routed_emit_of_nil (h := (h.bound _ _).setSlave _ _)
      silent_deliverEvents.1) le_rfl
  | bindWait _ _ _ _ _ => exact hfresh
  | bindSend _ _ _ =>
    exact hfresh.of_le (routed_emit_of_nil (h := h.bound _ _) routed_sendEvents) le_rfl
  | @reject source handle destination name type session data _ _ _ _ =>
    refine hfresh.of_route (m := directMsg source destination type session h.next data) rfl ?_ rfl
    rw [routed, emit_log, filterMap_append, ← singleton_append, filterMap_append, routed_route]
    exact congrArg (h.routed i ++ ·) (append_nil _)
  | wait _ _ _ _ =>
    exact hfresh.of_route rfl (congrArg Relay.taken (relay_route (h.alloc.waiting _ _) _)) rfl
  | send _ _ _ _ =>
    exact hfresh.of_route rfl (congrArg Relay.taken (relay_send h.alloc _)) rfl
  | release => exact hfresh.of_le (relay_harborRelease h).1 le_rfl

/-- The link is in order until the service is released, and what was done stays as it was. -/
theorem inOrder_of_reachable {id : ℕ} {slave : UInt32} (hid : (harborOf slave).val = id)
    (hi : i.val ≠ id) (hreach : Reachable (step refused) (create id slave) h) :
    ∃ h₀ : HarborNode, Relay.InOrder NodeMsg.fits (h₀.relay i) ∧
      (h = h₀ ∨ h = h₀.harborRelease) := by
  have hinvariant : Reachable (step refused) (create id slave) h ∧ Shape h ∧ h.id = id ∧ Fresh h i ∧
      ∃ h₀ : HarborNode, Relay.InOrder NodeMsg.fits (h₀.relay i) ∧
        (h = h₀ ∨ h = h₀.harborRelease) := by
    refine hreach.invariant (P := fun h => Reachable (step refused) (create id slave) h ∧ Shape h ∧
      h.id = id ∧ Fresh h i ∧ ∃ h₀ : HarborNode, Relay.InOrder NodeMsg.fits (h₀.relay i) ∧
        (h = h₀ ∨ h = h₀.harborRelease))
      ⟨.refl _, shape_create, rfl, (fun m hm => by cases hm), _, Relay.inOrder_empty, .inl rfl⟩ ?_
    intro h a h' hstep ⟨hreach, hshape, hhid, hfresh, h₀, horder, hh₀⟩
    obtain ⟨hlive, heffect⟩ := effect_step hstep
    refine ⟨hreach.tail hstep, hshape.effect heffect, heffect.ids.1.trans hhid,
      hfresh.effect heffect, ?_⟩
    rcases hh₀ with rfl | rfl
    · rcases heffect.released_eq with hreleased | rfl
      · obtain ⟨hslave, hnames, hplaced⟩ := placed_of_reachable hreach
        refine ⟨h', horder.steps ?_, .inl rfl⟩
        exact steps_effect hplaced hshape hnames (by rw [hslave, hhid, hid]) (by rwa [hhid]) hfresh
          heffect (hreleased.trans hlive)
      · exact ⟨h, horder, .inr rfl⟩
    · cases hlive
  exact hinvariant.2.2.2.2

/-- Messages to the handles of another harbor, in every state of the service: what is written to
its link was accepted, in the same order and no message twice, and as long as the link is usable
all of it was written that fits into a frame. It is written to the socket of this harbor. -/
theorem passed_of_reachable (refused : List HarborCall → Bool) (id : ℕ) (slave : UInt32)
    (hid : (harborOf slave).val = id) (h : HarborNode)
    (hreach : Reachable (step refused) (create id slave) h) (i : Fin remoteMax) (hi : i.val ≠ id) :
    (h.routed i).Nodup ∧ (h.passed i).Sublist (h.routed i) ∧
      ((h.s i).status = .header ∨ (h.s i).status = .content →
        h.passed i = (h.routed i).filter NodeMsg.fits) ∧
      ∀ fd buffer sz m, .call (.ubossSocketSend fd buffer sz) (some m) ∈ h.log →
        m.goesTo i = true → h.released = false → (h.s i).fd = fd := by
  obtain ⟨h₀, horder, hh₀⟩ := inOrder_of_reachable hid hi hreach
  have hplaced := (placed_of_reachable hreach).2.2
  have hlog : h.routed i = h₀.routed i ∧ h.passed i = h₀.passed i := by
    rcases hh₀ with rfl | rfl
    · exact ⟨rfl, rfl⟩
    · exact relay_harborRelease h₀
  refine ⟨hlog.1 ▸ horder.nodup, hlog.1 ▸ hlog.2 ▸ horder.sublist, fun hstatus => ?_, ?_⟩
  · rcases hh₀ with rfl | rfl
    · refine horder.opened ?_
      rcases hstatus with hstatus | hstatus
      · rw [relay, hstatus]
        rfl
      · rw [relay, hstatus]
        rfl
    · -- there is no link after the release
      rcases hstatus with hstatus | hstatus
      · cases hstatus
      · cases hstatus
  · intro fd buffer sz m hcall hgoes hlive
    obtain ⟨-, j, hj, hfd⟩ := hplaced.log _ hcall
    obtain rfl : i = j := by
      by_contra hij
      rw [goesTo_eq_false hj hij] at hgoes
      cases hgoes
    exact hfd hlive

/-- The first message to the harbor 2. -/
def firstMsg (data : List UInt8) : NodeMsg := directMsg 0x01000005 0x02000009 0 7 0 data

/-- The harbor 2 has connected, and a message goes to one of its services. -/
theorem passed_of_reachable_two : ∃ h, Reachable (step fun _ => false) (create 1 0x01000001) h ∧
      h.passed (harborOf 0x02000009) = [firstMsg [1, 2]] := by
  have hexec : (exec (step fun _ => false) (create 1 0x01000001)
      [.mainloop (.harbor (text "A 5 2") 0x01000001),
        .mainloop (.remote 0x01000005 (copyName []) 0x02000009 0 7 [1, 2])]).map
          (fun h => ((h.s (harborOf 0x02000009)).status, h.routed (harborOf 0x02000009))) =
        some (.header, [firstMsg [1, 2]]) := by
    decide +kernel
  obtain ⟨h, hh, hstate⟩ := Option.map_eq_some_iff.mp hexec
  obtain ⟨hstatus, hrouted⟩ := Prod.mk.inj hstate
  have hreach := reachable_of_exec hh
  have hpassed := (passed_of_reachable (fun _ => false) 1 0x01000001 (by decide) h hreach
    (harborOf 0x02000009) (by decide)).2.2.1 (.inl hstatus)
  rw [hrouted] at hpassed
  exact ⟨h, hreach, hpassed.trans (by decide)⟩

/-- A message whose size does not fit into the header is accepted and not written. -/
theorem large_not_passed : ¬ ∀ h, Reachable (step fun _ => false) (create 1 0x01000001) h →
      ∀ i : Fin remoteMax, i.val ≠ 1 → (h.s i).status = .header →
        ∀ m ∈ h.routed i, m ∈ h.passed i := by
  intro hall
  have hexec : (exec (step fun _ => false) (create 1 0x01000001)
      [.mainloop (.harbor (text "A 5 2") 0x01000001)]).map
          (fun h => ((h.s (harborOf 0x02000009)).status, (h.s (harborOf 0x02000009)).fd, h.id,
            h.released, h.next, h.passed (harborOf 0x02000009))) =
        some (.header, 5, 1, false, 0, []) := by
    rfl
  obtain ⟨h, hh, hstate⟩ := Option.map_eq_some_iff.mp hexec
  simp only [Prod.mk.injEq] at hstate
  obtain ⟨hstatus, hfd, hid, hreleased, hnext, hpassed⟩ := hstate
  let data : List UInt8 := List.replicate 4294967284 0
  have hfits : (firstMsg data).fits = false := by
    have hlen : data.length = 4294967284 := List.length_replicate ..
    exact decide_eq_false (by rw [firstMsg, directMsg, hlen]; decide)
  -- the message comes after the link was opened
  let h' := h.alloc.emit (.route (firstMsg data) :: [firstMsg data].flatMap (sendEvents 5))
  have hto : h.Addressed (copyName []) 0x02000009 0x02000009 := ⟨by decide, .inl rfl⟩
  have hremote : h.remoteMessage 0x01000005 (copyName []) 0x02000009 0 7 data = h' := by
    have hopen : ¬ ((h.s (harborOf 0x02000009)).fd = 0 ∨
        (h.s (harborOf 0x02000009)).status = .handshake) := by simp [hfd, hstatus]
    have hlocal : (harborOf 0x02000009).val ≠ h.alloc.id := by
      rw [show h.alloc.id = 1 from hid]
      decide
    rw [remoteMessage_eq hto, remoteSendHandle_of_open hlocal hopen, if_neg Bool.false_ne_true,
      emit_emit, alloc_s, hfd, hnext]
    rfl
  have hstep : h.step (fun _ => false)
      (.mainloop (.remote 0x01000005 (copyName []) 0x02000009 0 7 data)) = some h' := by
    rw [← hremote, step, if_neg (by simp [hreleased])]
    rfl
  have hrelay : h'.relay (harborOf 0x02000009) = _ := relay_send h.alloc (firstMsg data)
  have hgoes : (firstMsg data).goesTo (harborOf 0x02000009) = true := rfl
  rw [List.filter_cons_of_pos hgoes, List.filter_nil,
    List.filter_cons_of_neg (by simp [hfits]), List.filter_nil] at hrelay
  have hrouted : h'.routed (harborOf 0x02000009) =
      h.routed (harborOf 0x02000009) ++ [firstMsg data] :=
    congrArg Relay.taken hrelay
  have hnone : h'.passed (harborOf 0x02000009) = h.passed (harborOf 0x02000009) ++ [] :=
    congrArg Relay.passed hrelay
  have hmem := hall h' ((reachable_of_exec hh).tail hstep) (harborOf 0x02000009) (by decide) hstatus
    (firstMsg data) (by rw [hrouted]; exact List.mem_append_right _ (List.mem_singleton_self _))
  rw [hnone, hpassed] at hmem
  cases hmem

end HarborNode

end Uboss.Module
