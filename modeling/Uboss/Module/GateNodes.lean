import Uboss.Math.NodePool
import Uboss.Module.GateRouting

/-!
# The nodes of a gate

The connections of a gate share one pool of nodes. A chunk takes a node from it, and every node goes
back when its chunk has been read or its connection is closed.
-/

namespace Uboss.Module

open Math Function List Option

/-! ### The nodes of a buffer -/

def Databuffer.nodes (db : Databuffer) : List ℕ := db.head.map Message.node

/-- The nodes have only changed their place between a buffer and the pool. -/
def SameNodes (nodes : List ℕ) (mp : MessagePool) (nodes' : List ℕ) (mp' : MessagePool) : Prop :=
  mp'.pool = mp.pool ∧ (mp'.freelist ++ nodes').Perm (mp.freelist ++ nodes)

namespace SameNodes

variable {nodes nodes' nodes'' : List ℕ} {mp mp' mp'' : MessagePool}

theorem refl (nodes : List ℕ) (mp : MessagePool) : SameNodes nodes mp nodes mp := ⟨rfl, .refl _⟩

theorem trans (h : SameNodes nodes mp nodes' mp') (h' : SameNodes nodes' mp' nodes'' mp'') :
    SameNodes nodes mp nodes'' mp'' :=
  ⟨h'.1.trans h.1, h'.2.trans h.2⟩

end SameNodes

/-- The pool from which a node is taken: it has a new block if there was no node left. -/
def MessagePool.filled (mp : MessagePool) : MessagePool :=
  if mp.freelist = [] then ⟨mp.pool + 1, List.range' (mp.pool * messagePool) messagePool⟩ else mp

theorem MessagePool.filled_freelist (mp : MessagePool) :
    mp.filled.freelist = mp.take.1 :: mp.take.2.freelist ∧ mp.filled.pool = mp.take.2.pool := by
  obtain ⟨pool, freelist⟩ := mp
  cases freelist with
  | nil =>
    refine ⟨?_, rfl⟩
    show List.range' (pool * messagePool) (1022 + 1) = _
    rw [range'_succ]
    rfl
  | cons node freelist => exact ⟨rfl, rfl⟩

namespace Databuffer

variable {db db' : Databuffer} {mp mp' : MessagePool} {bytes : List UInt8}

theorem returnMessage_nodes (h : db.returnMessage mp = some (db', mp')) :
    SameNodes db.nodes mp db'.nodes mp' := by
  obtain ⟨header, offset, size, head, tail⟩ := db
  unfold returnMessage at h
  cases head with
  | nil => cases h
  | cons m ms =>
    cases ms with
    | nil =>
      simp only at h
      split_ifs at h
      obtain ⟨rfl, rfl⟩ := Prod.mk.inj (some.inj h)
      exact ⟨rfl, perm_middle.symm⟩
    | cons n ms =>
      obtain ⟨rfl, rfl⟩ := Prod.mk.inj (some.inj h)
      exact ⟨rfl, perm_middle.symm⟩

/-- By induction on the rounds: each of them keeps the chunk it reads from or gives its node back.
-/
theorem readLoop_nodes {rounds sz : ℕ} {buffer : List UInt8}
    (h : readLoop rounds db mp buffer sz = some (bytes, db', mp')) :
    SameNodes db.nodes mp db'.nodes mp' := by
  induction rounds generalizing db mp buffer sz with
  | zero => cases h
  | succ rounds ih =>
    obtain ⟨header, offset, size, head, tail⟩ := db
    unfold readLoop at h
    cases head with
    | nil => cases h
    | cons m ms =>
      simp only at h
      split_ifs at h
      · obtain ⟨-, hrest⟩ := Prod.mk.inj (some.inj h)
        obtain ⟨rfl, rfl⟩ := Prod.mk.inj hrest
        exact .refl _ _
      · obtain ⟨⟨db₁, mp₁⟩, hreturn, heq⟩ := map_eq_some_iff.mp h
        obtain ⟨-, hrest⟩ := Prod.mk.inj heq
        obtain ⟨rfl, rfl⟩ := Prod.mk.inj hrest
        have hnodes := returnMessage_nodes hreturn
        exact hnodes
      · obtain ⟨⟨db₁, mp₁⟩, hreturn, hloop⟩ := bind_eq_some_iff.mp h
        have hnodes := returnMessage_nodes hreturn
        have hnodes' := ih hloop
        exact hnodes.trans hnodes'

theorem read_nodes {sz : ℕ} (h : db.read mp sz = some (bytes, db', mp')) :
    SameNodes db.nodes mp db'.nodes mp' := by
  unfold read at h
  split_ifs at h
  have hnodes := readLoop_nodes h
  exact hnodes

theorem readHeader_nodes {headerSize : ℕ} {size : ℤ}
    (h : db.readHeader mp headerSize = some (size, db', mp')) :
    SameNodes db.nodes mp db'.nodes mp' := by
  unfold readHeader at h
  split_ifs at h
  · obtain ⟨-, hrest⟩ := Prod.mk.inj (some.inj h)
    obtain ⟨rfl, rfl⟩ := Prod.mk.inj hrest
    exact .refl _ _
  · obtain ⟨⟨plen, db₁, mp₁⟩, hread, heq⟩ := map_eq_some_iff.mp h
    obtain ⟨-, hrest⟩ := Prod.mk.inj heq
    obtain ⟨rfl, rfl⟩ := Prod.mk.inj hrest
    have hnodes := read_nodes hread
    exact hnodes
  · obtain ⟨-, hrest⟩ := Prod.mk.inj (some.inj h)
    obtain ⟨rfl, rfl⟩ := Prod.mk.inj hrest
    exact .refl _ _

theorem clearLoop_nodes {rounds : ℕ} (h : clearLoop rounds db mp = some mp') :
    SameNodes db.nodes mp [] mp' := by
  have hempty : ∀ {db : Databuffer} {mp : MessagePool}, db.head = [] →
      SameNodes db.nodes mp [] mp := by
    intro db mp hhead
    rw [nodes, hhead]
    exact .refl _ _
  induction rounds generalizing db mp with
  | zero =>
    unfold clearLoop at h
    split_ifs at h with hhead
    obtain rfl := some.inj h
    exact hempty hhead
  | succ rounds ih =>
    unfold clearLoop at h
    split_ifs at h with hhead
    · obtain rfl := some.inj h
      exact hempty hhead
    · obtain ⟨⟨db₁, mp₁⟩, hreturn, hloop⟩ := bind_eq_some_iff.mp h
      exact (returnMessage_nodes hreturn).trans (ih hloop)

theorem clear_nodes (h : db.clear mp = some (db', mp')) :
    db' = .empty ∧ SameNodes db.nodes mp [] mp' := by
  obtain ⟨mp₁, hloop, heq⟩ := map_eq_some_iff.mp h
  obtain ⟨rfl, rfl⟩ := Prod.mk.inj heq
  exact ⟨rfl, clearLoop_nodes hloop⟩

theorem push_nodes {data : List UInt8} (h : db.push mp data = some (db', mp')) :
    SameNodes db.nodes mp.filled db'.nodes mp' := by
  unfold push at h
  split_ifs at h
  obtain ⟨rfl, rfl⟩ := Prod.mk.inj (some.inj h)
  obtain ⟨hfreelist, hpool⟩ := mp.filled_freelist
  refine ⟨hpool.symm, ?_⟩
  rw [hfreelist, nodes, nodes, map_append, cons_append, ← append_assoc]
  exact perm_append_singleton _ _

end Databuffer

/-! ### The nodes of a gate -/

namespace Gate

/-- The nodes in the buffer of a connection. -/
def nodes (g : Gate) (id : ℕ) : List ℕ := ((g.conn id).map fun c => c.buffer.nodes).getD []

/-- Each node of the pool is free or in one buffer. -/
def Kept (g : Gate) : Prop :=
  Conserved (fun node => node < g.mp.pool * messagePool) g.mp.freelist g.nodes

variable {g g' : Gate} {c c' : Connection} {id : ℕ} {m : GateInput}

theorem forward_nodes {size : ℕ} (h : g.forward c id size = some (g', c')) :
    SameNodes c.buffer.nodes g.mp c'.buffer.nodes g'.mp ∧ g'.conn = g.conn := by
  unfold forward at h
  cases hreceiver : g.receiver c id with
  | none =>
    rw [hreceiver] at h
    obtain ⟨rfl, rfl⟩ := Prod.mk.inj (some.inj h)
    exact ⟨.refl _ _, rfl⟩
  | some send =>
    rw [hreceiver] at h
    obtain ⟨⟨bytes, db, mp⟩, hread, heq⟩ := map_eq_some_iff.mp h
    obtain ⟨rfl, rfl⟩ := Prod.mk.inj heq
    exact ⟨Databuffer.read_nodes hread, rfl⟩

theorem dispatchRound_nodes {again : Bool} (h : g.dispatchRound c id = some (again, g', c')) :
    SameNodes c.buffer.nodes g.mp c'.buffer.nodes g'.mp ∧ g'.conn = g.conn := by
  obtain ⟨⟨size, db, mp⟩, hread, hrest⟩ := bind_eq_some_iff.mp h
  have hnodes := Databuffer.readHeader_nodes hread
  simp only at hrest
  split_ifs at hrest
  · obtain ⟨-, hrest⟩ := Prod.mk.inj (some.inj hrest)
    obtain ⟨rfl, rfl⟩ := Prod.mk.inj hrest
    exact ⟨hnodes, rfl⟩
  · obtain ⟨⟨db', mp'⟩, hclear, heq⟩ := map_eq_some_iff.mp hrest
    obtain ⟨-, heq⟩ := Prod.mk.inj heq
    obtain ⟨rfl, rfl⟩ := Prod.mk.inj heq
    obtain ⟨rfl, hcleared⟩ := Databuffer.clear_nodes hclear
    exact ⟨hnodes.trans hcleared, rfl⟩
  · obtain ⟨⟨g₁, c₁⟩, hforward, heq⟩ := map_eq_some_iff.mp hrest
    obtain ⟨-, heq⟩ := Prod.mk.inj heq
    obtain ⟨rfl, rfl⟩ := Prod.mk.inj heq
    obtain ⟨hforwarded, hconn⟩ := forward_nodes hforward
    exact ⟨hnodes.trans hforwarded, hconn⟩
  · obtain ⟨-, hrest⟩ := Prod.mk.inj (some.inj hrest)
    obtain ⟨rfl, rfl⟩ := Prod.mk.inj hrest
    exact ⟨hnodes, rfl⟩

theorem dispatchLoop_nodes {rounds : ℕ} (h : g.dispatchLoop rounds c id = some (g', c')) :
    SameNodes c.buffer.nodes g.mp c'.buffer.nodes g'.mp ∧ g'.conn = g.conn := by
  induction rounds generalizing g c with
  | zero => cases h
  | succ rounds ih =>
    obtain ⟨⟨again, g₁, c₁⟩, hround, hrest⟩ := bind_eq_some_iff.mp h
    obtain ⟨hnodes, hconn⟩ := dispatchRound_nodes hround
    simp only at hrest
    split_ifs at hrest
    · obtain ⟨hnodes', hconn'⟩ := ih hrest
      exact ⟨hnodes.trans hnodes', hconn'.trans hconn⟩
    · obtain ⟨rfl, rfl⟩ := Prod.mk.inj (some.inj hrest)
      exact ⟨hnodes, hconn⟩

theorem dispatchMessage_nodes {data : List UInt8}
    (h : g.dispatchMessage c id data = some (g', c')) :
    SameNodes c.buffer.nodes g.mp.filled c'.buffer.nodes g'.mp ∧ g'.conn = g.conn := by
  obtain ⟨⟨db, mp⟩, hpush, hloop⟩ := bind_eq_some_iff.mp h
  obtain ⟨hnodes, hconn⟩ := dispatchLoop_nodes hloop
  exact ⟨(Databuffer.push_nodes hpush).trans hnodes, hconn⟩

/-! ### Steps of the gate -/

theorem Kept.filled (h : g.Kept) : ({ g with mp := g.mp.filled } : Gate).Kept := by
  unfold MessagePool.filled
  split_ifs with hfree
  · have hfresh : ∀ node ∈ List.range' (g.mp.pool * messagePool) messagePool,
        ¬ node < g.mp.pool * messagePool := by
      intro node hnode hold
      rw [mem_range'_1] at hnode
      omega
    have hmem : ∀ node, node < (g.mp.pool + 1) * messagePool ↔
        node ∈ List.range' (g.mp.pool * messagePool) messagePool ∨
          node < g.mp.pool * messagePool := by
      intro node
      rw [mem_range'_1, Nat.add_mul, Nat.one_mul]
      omega
    have hgrow := Conserved.grow h nodup_range' hfresh hmem
    rw [hfree, append_nil] at hgrow
    exact hgrow
  · exact h

/-- The steps of the gate, by what becomes of the connections. -/
inductive Moved (g : Gate) : GateInput → Gate → Prop
  | same {m : GateInput} {g' : Gate} :
      g'.conn = g.conn → g'.mp = g.mp → g'.headerSize = g.headerSize → g.Moved m g'
  | data {id : ℕ} {buffer : List UInt8} {c c' : Connection} {g' : Gate} :
      g.conn id = some c → g.dispatchMessage c id buffer = some (g', c') →
      g.Moved (.data id buffer) (g'.setConn id (some c'))
  | closed {m : GateInput} {id : ℕ} {c : Connection} {r : Databuffer × MessagePool}
      {text : GateReport} :
      m = .close id ∨ m = .error id → g.conn id = some c → c.buffer.clear g.mp = some r →
      g.Moved m (({ g with count := g.count - 1, mp := r.2 }.setConn id none).report text)
  | accepted {listen ud : ℕ} {remoteName name : List UInt8} {text : GateReport} :
      g.conn ud = none →
      g.Moved (.accept listen ud remoteName)
        (({ g with count := g.count + 1 }.setConn ud (some ⟨0, 0, name, .empty, 0⟩)).report text)
  | forwarded {fd : ℕ} {agent client : UInt32} {c : Connection} :
      g.conn fd = some c →
      g.Moved (.forward fd agent client) (g.setConn fd (some { c with agent, client }))

theorem moved_of_closed (hm : m = .close id ∨ m = .error id) (hclosed : g.closed id = some g') :
    g.Moved m g' := by
  unfold Gate.closed at hclosed
  cases hconn : g.conn id with
  | none =>
    rw [hconn] at hclosed
    obtain rfl := some.inj hclosed
    exact .same rfl rfl rfl
  | some c =>
    rw [hconn] at hclosed
    obtain ⟨r, hclear, rfl⟩ := map_eq_some_iff.mp hclosed
    exact .closed hm hconn hclear

theorem moved_of_step (hstep : g.step m = some g') : g.Moved m g' := by
  unfold step at hstep
  cases m with
  | data id buffer =>
    cases hconn : g.conn id with
    | none =>
      simp only [hconn] at hstep
      obtain rfl := some.inj hstep
      exact .same rfl rfl rfl
    | some c =>
      simp only [hconn] at hstep
      obtain ⟨⟨g₁, c₁⟩, hdispatch, rfl⟩ := map_eq_some_iff.mp hstep
      exact .data hconn hdispatch
  | close id => exact moved_of_closed (.inl rfl) hstep
  | error id => exact moved_of_closed (.inr rfl) hstep
  | accept id ud remoteName =>
    simp only [accept] at hstep
    split_ifs at hstep with hlisten hfull hpresent
    · obtain rfl := some.inj hstep
      exact .same rfl rfl rfl
    · obtain rfl := some.inj hstep
      exact .accepted (not_isSome_iff_eq_none.mp hpresent)
  | forward id agent client =>
    obtain rfl := some.inj hstep
    unfold forwardAgent
    cases hconn : g.conn id with
    | none => exact .same rfl rfl rfl
    | some c => exact .forwarded hconn
  | closeListen =>
    cases hlisten : g.listenId with
    | none =>
      simp only [hlisten] at hstep
      obtain rfl := some.inj hstep
      exact .same rfl rfl rfl
    | some id =>
      simp only [hlisten] at hstep
      obtain rfl := some.inj hstep
      exact .same rfl rfl rfl
  | broker handle | unknown | warning =>
    obtain rfl := some.inj hstep
    exact .same rfl rfl rfl
  | kick uid | start uid | connect id | client msg =>
    obtain rfl := some.inj hstep
    split_ifs
    all_goals exact .same rfl rfl rfl

@[simp] theorem conn_report (g : Gate) (text : GateReport) : (g.report text).conn = g.conn := by
  unfold report
  split_ifs <;> rfl

@[simp] theorem headerSize_report (g : Gate) (text : GateReport) :
    (g.report text).headerSize = g.headerSize := by
  unfold report
  split_ifs <;> rfl

theorem conn_setConn (c : Option Connection) : (g.setConn id c).conn = update g.conn id c := rfl

theorem Kept.setConn (h : g.Kept) {c : Option Connection} (hconn : g'.conn = g.conn)
    (hnodes : SameNodes (g.nodes id) g.mp ((c.map fun c => c.buffer.nodes).getD []) g'.mp) :
    (g'.setConn id c).Kept := by
  have hmove := Conserved.move h hnodes.2
  rw [← hnodes.1] at hmove
  refine hmove.of_eq fun id' => ?_
  unfold nodes
  by_cases hid : id' = id
  · subst hid
    rw [update_self, conn_setConn, update_self]
  · rw [update_of_ne hid, conn_setConn, update_of_ne hid, hconn]

theorem Kept.of_init {header : Char} {watchdog : Option UInt32} {clientTag : UInt32} {max : ℕ}
    {listenId : Option ℕ} (h : init header watchdog clientTag max listenId = some g) : g.Kept := by
  unfold init at h
  split at h
  · cases h
  obtain rfl := some.inj h
  apply Conserved.empty
  intro node hnode
  rw [Nat.zero_mul] at hnode
  exact absurd hnode (Nat.not_lt_zero node)

theorem Kept.congr (h : g.Kept) (hmp : g'.mp = g.mp) (hconn : g'.conn = g.conn) : g'.Kept := by
  have hnodes : g'.nodes = g.nodes := by
    funext id
    rw [nodes, hconn]
    rfl
  rw [Kept, hmp, hnodes]
  exact h

theorem Kept.report (h : g.Kept) (text : GateReport) : (g.report text).Kept := by
  unfold Gate.report
  split_ifs
  · exact h
  · exact h.congr rfl rfl

theorem Kept.data (h : g.Kept) (hconn : g.conn id = some c) {data : List UInt8}
    (hdispatch : g.dispatchMessage c id data = some (g', c')) :
    (g'.setConn id (some c')).Kept := by
  obtain ⟨hnodes, hsame⟩ := dispatchMessage_nodes hdispatch
  apply h.filled.setConn hsame
  rw [show Gate.nodes { g with mp := g.mp.filled } id = c.buffer.nodes from
    congrArg (fun c => (c.map fun c : Connection => c.buffer.nodes).getD []) hconn]
  exact hnodes

/-- Every message keeps the nodes. -/
theorem step_kept (h : g.Kept) (hstep : g.step m = some g') : g'.Kept := by
  cases moved_of_step hstep with
  | same hconn hmp => exact h.congr hmp hconn
  | data hconn hdispatch => exact h.data hconn hdispatch
  | @closed _ id _ r _ _ hconn hclear =>
    apply Kept.report
    have hsame : ({ g with count := g.count - 1, mp := r.2 } : Gate).conn = g.conn := rfl
    apply h.setConn hsame
    rw [nodes, hconn]
    exact (Databuffer.clear_nodes hclear).2
  | accepted hfree =>
    apply Kept.report
    have hsame : ({ g with count := g.count + 1 } : Gate).conn = g.conn := rfl
    apply h.setConn hsame
    rw [nodes, hfree]
    exact .refl [] g.mp
  | forwarded hconn =>
    have hsame : g.conn = g.conn := rfl
    apply h.setConn hsame
    rw [nodes, hconn]
    exact .refl _ g.mp

end Gate

end Uboss.Module
