import Uboss.Module.HarborEffect

/-!
# What is known of the messages

A rule for invariants of the harbor service: something holds for every message in the queue of a
slave, and something holds for everything that was done. It is enough to look at the places where a
message enters a queue and where a call is made for it.

The first use of the rule: a message in the queue of a slave is for this harbor, and a frame is
written to the socket of the harbor that the message is for.
-/

namespace Uboss.Module

open Math List

namespace NodeMsg

/-- The harbor that the message is for, once this is known. -/
def harbor (m : NodeMsg) : Option (Fin remoteMax) :=
  match m.origin.target with
  | .handle destination => some (harborOf destination)
  | .name _ bound => bound.map harborOf

/-- A message that waits for its name. -/
structure Unbound (m : NodeMsg) : Prop where
  target : ∃ name, m.origin.target = .name name none
  header : m.header =
    ⟨m.origin.source, m.origin.type.toUInt32 <<< handleRemoteShift, m.origin.session.toUInt32⟩
  data : m.data = m.origin.data

variable {m : NodeMsg}

theorem unbound_namedMsg (source : UInt32) (name : GlobalName) (type : UInt8) (session : Int32)
    (block : ℕ) (data : List UInt8) : Unbound (namedMsg source name type session block data) where
  target := ⟨name, rfl⟩
  header := rfl
  data := rfl

theorem Unbound.bind_eq (hm : Unbound m) (handle : UInt32) :
    ∃ name, m.bind handle = { m with origin.target := .name name (some handle) } := by
  obtain ⟨name, htarget⟩ := hm.target
  refine ⟨name, ?_⟩
  rw [bind, htarget]

theorem Unbound.harbor_bind (hm : Unbound m) (handle : UInt32) :
    (m.bind handle).harbor = some (harborOf handle) := by
  obtain ⟨name, hbind⟩ := hm.bind_eq handle
  rw [hbind]
  rfl

end NodeMsg

namespace HarborNode

variable {h h' : HarborNode} {i : Fin remoteMax} {a : HarborAct} {refused : List HarborCall → Bool}

/-! ### The queues of the names -/

/-- What waits for a name has no destination yet. -/
def NamesUnbound (h : HarborNode) : Prop :=
  ∀ b, ∀ node ∈ h.map b, ∀ m ∈ node.queue.getD [], m.Unbound

section Names

variable {name : GlobalName}

theorem namesUnbound_create {id : ℕ} {slave : UInt32} : NamesUnbound (create id slave) :=
  fun b node hnode => by cases hnode

theorem NamesUnbound.hashUpdate {f : KeyValue NodeMsg → KeyValue NodeMsg} (hh : NamesUnbound h)
    (hf : ∀ node, (∀ m ∈ node.queue.getD [], m.Unbound) → ∀ m ∈ (f node).queue.getD [], m.Unbound) :
    ∀ b, ∀ node ∈ hashUpdate h.map name f b, ∀ m ∈ node.queue.getD [], m.Unbound := by
  intro b node hnode
  rcases mem_hashUpdate hnode with hnode | rfl
  · exact hh b node hnode
  · apply hf
    cases hsearch : hashSearch h.map name with
    | none => exact fun m hm => by cases hm
    | some node => exact hh _ node (mem_of_hashSearch hsearch)

theorem NamesUnbound.nameQueue (hh : NamesUnbound h) {queue : List NodeMsg}
    (hqueue : h.nameQueue name = some queue) : ∀ m ∈ queue, m.Unbound := by
  intro m hm
  obtain ⟨node, hsearch, hnode⟩ := Option.bind_eq_some_iff.mp hqueue
  refine hh _ node (mem_of_hashSearch hsearch) m ?_
  rw [hnode]
  exact hm

theorem NamesUnbound.effect (heffect : Effect h a h') (hh : NamesUnbound h) : NamesUnbound h' := by
  have hbound : ∀ {name handle}, NamesUnbound (h.bound name handle) :=
    hh.hashUpdate fun node _ m hm => by cases hm
  cases heffect with
  | data _ hmoves =>
    refine hmoves.invariant (P := NamesUnbound) hh fun hmove hnames => ?_
    cases hmove <;> exact hnames
  | bind _ _ | bindDrop _ _ _ _ | bindLocal _ _ _ _ _ | bindWait _ _ _ _ _ | bindSend _ _ _ =>
    exact hbound
  | query _ =>
    refine hh.hashUpdate fun node hnode m hm => ?_
    rcases mem_append.mp hm with hm | hm
    · exact hnode m hm
    · rw [mem_singleton.mp hm]
      exact NodeMsg.unbound_namedMsg ..
  | release => exact fun b node hnode => by cases hnode
  | _ => exact hh

end Names

/-! ### The rule -/

/-- The sockets of `h` are still there in `h'`, unless the service was released. -/
def Stays (h h' : HarborNode) : Prop :=
  h'.released = false → h.released = false ∧ ∀ i, (h.s i).fd ≠ 0 → (h'.s i).fd = (h.s i).fd

/-- `P` holds for the messages in the queues of the slaves, and `Q` for what was done. -/
structure Custody (P : Fin remoteMax → NodeMsg → Prop) (Q : HarborNode → HarborEvent → Prop)
    (h : HarborNode) : Prop where
  slaves : ∀ i, ∀ m ∈ (h.s i).queue.getD [], P i m
  log : ∀ e ∈ h.log, Q h e

/-- What the rule needs, in a service with the given slave service. -/
structure Lawful (P : Fin remoteMax → NodeMsg → Prop) (Q : HarborNode → HarborEvent → Prop)
    (slave : UInt32) : Prop where
  stays : ∀ {h h' e}, Q h e → Stays h h' → Q h' e
  /-- An event that is no call for a message. -/
  plain : ∀ {h e}, (∀ c m, e ≠ .call c (some m)) → Q h e
  direct : ∀ {source destination type session block data},
    P (harborOf destination) (directMsg source destination type session block data)
  /-- A message to a handle is delivered at once. -/
  deliver : ∀ {h u source destination type session block data},
    Q h (.call (.ubossSend u) (some (directMsg source destination type session block data)))
  send : ∀ {h i m}, P i m → (h.s i).fd ≠ 0 → Q h (remoteCall (h.s i).fd m)
  /-- What is in the queue of the own harbor. -/
  own : ∀ {h m handle}, P (harborOf slave) m → ∀ e ∈ deliverEvents handle m, Q h e

/-- What the rule needs of a message when its name is bound to the handle. -/
structure Binds (P : Fin remoteMax → NodeMsg → Prop) (Q : HarborNode → HarborEvent → Prop)
    (h : HarborNode) (handle : UInt32) (m : NodeMsg) : Prop where
  wait : (h.s (harborOf handle)).fd = 0 → harborOf handle ≠ harborOf h.slave →
    P (harborOf handle) (m.bind handle)
  send : ∀ {h'}, (h'.s (harborOf handle)).fd ≠ 0 →
    Q h' (remoteCall (h'.s (harborOf handle)).fd ((m.bind handle).complete handle))
  deliver : ∀ {h'}, ∀ e ∈ deliverEvents handle (m.bind handle), Q h' e

section Rule

variable {P : Fin remoteMax → NodeMsg → Prop} {Q : HarborNode → HarborEvent → Prop}
  {slave : UInt32} {es : List HarborEvent} {s : NodeSlave}

theorem custody_create {id : ℕ} : Custody P Q (create id slave) where
  slaves i m hm := by cases hm
  log e he := by cases he

section

variable (hL : Lawful P Q slave)
include hL

theorem Lawful.quiet (hes : ∀ e ∈ es, e.Quiet) : ∀ e ∈ es, Q h e := by
  refine fun e he => hL.plain fun c m hcall => ?_
  have hquiet := hes e he
  rw [hcall] at hquiet
  cases c <;> exact hquiet

theorem Lawful.releaseQueue {queue : Option (List NodeMsg)} : ∀ e ∈ releaseQueue queue, Q h e := by
  intro e he
  obtain ⟨m, -, rfl⟩ := mem_map.mp he
  exact hL.plain fun c m hcall => by cases hcall

theorem Lawful.closeEvents : ∀ e ∈ closeEvents s, Q h e := by
  intro e he
  rcases mem_append.mp he with he | he
  · split_ifs at he
    · rw [mem_singleton.mp he]
      exact hL.plain fun c m hcall => by cases hcall
    · cases he
  · exact hL.releaseQueue e he

theorem Lawful.sendEvents {queue : List NodeMsg} {fd : ℕ}
    (hqueue : ∀ m ∈ queue, Q h (remoteCall fd m)) : ∀ e ∈ queue.flatMap (sendEvents fd), Q h e := by
  intro e he
  obtain ⟨m, hm, he⟩ := mem_flatMap.mp he
  rcases mem_pair.mp he with rfl | rfl
  · exact hqueue m hm
  · exact hL.plain fun c m hcall => by cases hcall

end

section

variable (hh : Custody P Q h) (hL : Lawful P Q slave)
include hh hL

theorem Custody.emit (hes : ∀ e ∈ es, Q h e) :
    Custody P Q (h.emit es) where
  slaves := hh.slaves
  log e he := by
    have he' : Q h e := (mem_append.mp he).elim (hh.log e) (hes e)
    exact hL.stays he' fun hlive => ⟨hlive, fun _ _ => rfl⟩

theorem Custody.setSlave (hfd : (h.s i).fd ≠ 0 → s.fd = (h.s i).fd)
    (hs : ∀ m ∈ s.queue.getD [], P i m) :
    Custody P Q (h.setSlave i s) where
  slaves := by
    intro j m hm
    by_cases hj : j = i
    · subst hj
      rw [setSlave_self] at hm
      exact hs m hm
    · rw [setSlave_of_ne _ _ _ hj] at hm
      exact hh.slaves j m hm
  log e he := by
    refine hL.stays (hh.log e he) fun hlive => ⟨hlive, fun j hj => ?_⟩
    by_cases hji : j = i
    · subst hji
      rw [setSlave_self]
      exact hfd hj
    · rw [setSlave_of_ne _ _ _ hji]

theorem Custody.congr (hs : h'.s = h.s) (hlog : h'.log = h.log)
    (hreleased : h'.released = h.released) : Custody P Q h' where
  slaves := hs ▸ hh.slaves
  log e he := by
    rw [hlog] at he
    exact hL.stays (hh.log e he) fun hlive => ⟨hreleased ▸ hlive, fun j _ => by rw [hs]⟩

theorem Custody.alloc : Custody P Q h.alloc := hh.congr hL rfl rfl rfl

theorem Custody.bound (name : GlobalName) (handle : UInt32) : Custody P Q (h.bound name handle) :=
  hh.congr hL rfl rfl rfl

theorem Custody.flushed (hfd : (h.s i).fd ≠ 0 → s.fd = (h.s i).fd) (hne : s.fd ≠ 0)
    (hs : s.queue = (h.s i).queue) : Custody P Q (h.flushed i s) := by
  have hset : Custody P Q (h.setSlave i { s with queue := none }) :=
    hh.setSlave hL hfd fun m hm => by cases hm
  have hself : (h.setSlave i { s with queue := none }).s i = { s with queue := none } :=
    setSlave_self ..
  refine hset.emit hL (hL.sendEvents fun m hm => ?_)
  have hsend := hL.send (h := h.setSlave i { s with queue := none }) (hh.slaves i m (hs ▸ hm))
  rw [hself] at hsend
  exact hsend hne

theorem Custody.linked {fd : ℕ} {status : SlaveStatus} (hfree : (h.s i).fd = 0) :
    Custody P Q (h.linked fd i status) := by
  have hset : Custody P Q (h.setSlave i { h.s i with fd := fd, status := status }) :=
    hh.setSlave hL (fun hne => absurd hfree hne) (hh.slaves i)
  refine hset.emit hL fun e he => hL.plain fun c m hcall => ?_
  simp [hcall] at he

theorem Custody.waiting {queue : List NodeMsg} (hqueue : ∀ m ∈ queue, P i m) :
    Custody P Q (h.waiting i queue) := by
  refine hh.setSlave hL (fun _ => rfl) fun m hm => ?_
  rcases mem_append.mp hm with hm | hm
  · exact hh.slaves i m hm
  · exact hqueue m hm

end

theorem Custody.move (hL : Lawful P Q slave) (hmove : Move i h h') (hh : Custody P Q h) :
    Custody P Q h' := by
  cases hmove with
  | quiet hes => exact hh.emit hL (hL.quiet hes)
  | fill _ | load _ _ => exact hh.setSlave hL (fun _ => rfl) (hh.slaves i)
  | greet _ hfd => exact hh.flushed hL (fun _ => rfl) hfd rfl
  | close _ =>
    have hset : Custody P Q (h.setSlave i { h.s i with status := .down, queue := none }) :=
      hh.setSlave hL (fun _ => rfl) fun m hm => by cases hm
    exact hset.emit hL hL.closeEvents
  | alloc _ => exact (hh.alloc hL).setSlave hL (fun _ => rfl) (hh.slaves i)
  | forward _ _ hes =>
    refine (hh.emit hL fun e he => ?_).setSlave hL (fun _ => rfl) (hh.slaves i)
    rcases mem_cons.mp he with rfl | he
    · exact hL.plain fun c m hcall => by cases hcall
    · rcases mem_cons.mp he with rfl | he
      · exact hL.plain fun c m hcall => by cases hcall
      · exact hL.quiet hes e he

/-- Every step keeps a custody, if those do that bind a name with waiting messages. -/
theorem Custody.effect (hL : Lawful P Q slave) (hslave : h.slave = slave) (heffect : Effect h a h')
    (hbinds : ∀ {msg source name queue}, a = .mainloop (.harbor msg source) →
      parseCommand msg = .name name → h.nameQueue name = some queue →
      ∀ m ∈ queue, Binds P Q h source m)
    (hh : Custody P Q h) : Custody P Q h' := by
  cases heffect with
  | quiet hes => exact hh.emit hL (hL.quiet hes)
  | stray _ | reject _ _ _ _ =>
    refine (hh.alloc hL).emit hL fun e he => hL.plain fun c m hcall => ?_
    simp [hcall] at he
  | data _ hmoves =>
    refine (hmoves.invariant (hh.alloc hL) (Custody.move hL)).emit hL fun e he => ?_
    rw [mem_singleton.mp he]
    exact hL.plain fun c m hcall => by cases hcall
  | connect _ hfree => exact hh.linked hL hfree
  | @accept msg source fd i hmsg hfree =>
    have hi : ((h.linked fd i .header).s i) = { h.s i with fd := fd, status := .header } := by
      rw [HarborNode.linked, emit_s, setSlave_self]
    exact (hh.linked hL hfree).flushed hL (fun _ => by rw [hi]) (parseCommand_eq_link hmsg).1
      (by rw [hi])
  | bind _ _ => exact hh.bound hL _ _
  | bindDrop _ _ _ _ =>
    refine (hh.bound hL _ _).emit hL fun e he => ?_
    rcases mem_cons.mp he with rfl | he
    · exact hL.plain fun c m hcall => by cases hcall
    · exact hL.releaseQueue e he
  | @bindLocal msg source name queue hmsg hqueue _ _ hlocal =>
    have hset : Custody P Q ((h.bound name source).setSlave (harborOf source)
        { h.s (harborOf source) with queue := none }) :=
      (hh.bound hL name source).setSlave hL (fun _ => rfl) fun m hm => by cases hm
    refine hset.emit hL fun e he => ?_
    rw [flatMap_append, mem_append] at he
    rcases he with he | he
    · obtain ⟨m, hm, he⟩ := mem_flatMap.mp he
      have hm' := hh.slaves _ m hm
      rw [hlocal, hslave] at hm'
      exact hL.own hm' e he
    · obtain ⟨m', hm', he⟩ := mem_flatMap.mp he
      obtain ⟨m, hm, rfl⟩ := mem_map.mp hm'
      exact (hbinds rfl hmsg hqueue m hm).deliver e he
  | bindWait hmsg hqueue hfd _ hlocal =>
    refine (hh.bound hL _ _).waiting hL fun m' hm' => ?_
    obtain ⟨m, hm, rfl⟩ := mem_map.mp hm'
    exact (hbinds rfl hmsg hqueue m hm).wait hfd hlocal
  | bindSend hmsg hqueue hfd =>
    refine (hh.bound hL _ _).emit hL (hL.sendEvents fun m hm => ?_)
    obtain ⟨m₁, hm₁, rfl⟩ := mem_map.mp hm
    obtain ⟨m₂, hm₂, rfl⟩ := mem_map.mp hm₁
    exact (hbinds rfl hmsg hqueue m₂ hm₂).send hfd
  | deliver _ _ =>
    refine (hh.alloc hL).emit hL fun e he => ?_
    rcases mem_pair.mp he with rfl | rfl
    · exact hL.deliver
    · exact hL.plain fun c m hcall => by cases hcall
  | wait _ _ _ _ =>
    refine ((hh.alloc hL).waiting hL fun m hm => ?_).emit hL fun e he => ?_
    · rw [mem_singleton.mp hm]
      exact hL.direct
    · rw [mem_singleton.mp he]
      exact hL.plain fun c m hcall => by cases hcall
  | send _ _ hfd _ =>
    refine (hh.alloc hL).emit hL fun e he => ?_
    simp only [mem_cons, not_mem_nil, or_false] at he
    rcases he with rfl | rfl | rfl
    · exact hL.plain fun c m hcall => by cases hcall
    · exact hL.send (h := h.alloc) hL.direct hfd
    · exact hL.plain fun c m hcall => by cases hcall
  | query _ =>
    refine Custody.emit (h := h.alloc.awaiting _ _) (hh.congr hL rfl rfl rfl) hL fun e he => ?_
    rw [mem_singleton.mp he]
    exact hL.plain fun c m hcall => by cases hcall
  | release =>
    refine ⟨fun i m hm => (by cases hm), fun e he => ?_⟩
    have he' : Q h e := by
      rcases mem_append.mp he with he | he
      · exact hh.log e he
      · rcases mem_releaseEvents he with ⟨i, he⟩ | ⟨queue, he⟩
        · exact hL.closeEvents e he
        · exact hL.releaseQueue e he
    exact hL.stays he' fun hlive => by cases hlive

end Rule

/-! ### Every message in its place -/

/-- A frame is written to the socket of the harbor that the message is for. -/
def OnLink (h : HarborNode) : HarborEvent → Prop
  | .call (.ubossSocketSend fd _ _) (some m) =>
    fd ≠ 0 ∧ ∃ i, m.harbor = some i ∧ (h.released = false → (h.s i).fd = fd)
  | _ => True

/-- A message in the queue of a slave is for its harbor, and frames are on their links. -/
abbrev Placed : HarborNode → Prop := Custody (fun i m => m.harbor = some i) OnLink

theorem OnLink.stays {e : HarborEvent} (he : OnLink h e) (hstays : Stays h h') : OnLink h' e := by
  cases e with
  | call c m =>
    cases m with
    | none => cases c <;> trivial
    | some m =>
      cases c with
      | ubossSocketSend fd buffer sz =>
        obtain ⟨hne, i, hi, hfd⟩ := he
        refine ⟨hne, i, hi, fun hlive => ?_⟩
        obtain ⟨hlive', hsame⟩ := hstays hlive
        have hfd' := hfd hlive'
        rw [hsame i (hfd' ▸ hne), hfd']
      | _ => trivial
  | _ => trivial

theorem onLink_of_no_message {e : HarborEvent} (he : ∀ c m, e ≠ .call c (some m)) :
    OnLink h e := by
  cases e with
  | call c m =>
    cases m with
    | none => cases c <;> trivial
    | some m => exact absurd rfl (he c m)
  | _ => trivial

theorem lawful_placed (slave : UInt32) :
    Lawful (fun i m => m.harbor = some i) OnLink slave where
  stays := OnLink.stays
  plain := onLink_of_no_message
  direct := rfl
  deliver := trivial
  send := by
    intro h i m hm hne
    unfold remoteCall
    split_ifs
    · trivial
    · exact ⟨hne, i, hm, fun _ => rfl⟩
  own := by
    intro h m handle _ e he
    rcases mem_pair.mp he with rfl | rfl
    · trivial
    · trivial

/-- Every message is in its place, in every state. -/
theorem placed_of_reachable {id : ℕ} {slave : UInt32}
    (hreach : Reachable (step refused) (create id slave) h) :
    h.slave = slave ∧ NamesUnbound h ∧ Placed h := by
  refine hreach.invariant (P := fun h => h.slave = slave ∧ NamesUnbound h ∧ Placed h)
    ⟨rfl, namesUnbound_create, custody_create⟩ ?_
  intro h a h' hstep ⟨hslave, hnames, hplaced⟩
  have heffect := (effect_step hstep).2
  refine ⟨heffect.ids.2.trans hslave, hnames.effect heffect,
    hplaced.effect (lawful_placed slave) hslave heffect ?_⟩
  intro msg source name queue _ _ hqueue m hm
  have hharbor := (hnames.nameQueue hqueue m hm).harbor_bind source
  refine ⟨fun _ _ => hharbor, (lawful_placed slave).send hharbor, fun e he => ?_⟩
  rcases mem_pair.mp he with rfl | rfl
  · trivial
  · trivial

end HarborNode

end Uboss.Module
