import Mathlib.Algebra.BigOperators.Fin
import Uboss.Math.ThreadSum
import Uboss.Module.HarborEffect

/-!
# Who owns the memory of the harbor service

The blocks of memory for the payloads of messages, for the data of sockets and for receive buffers
are counted: how often a block is in a queue or is a receive buffer, and how often it was freed or
handed to `uboss_send`. Together this is once for every block, with two exceptions: the data of an
unknown socket is freed twice, and `harbor_release` forgets the queues of slaves without a link and
the receive buffers.
-/

namespace Uboss.Module

open Math List Nat

/-- The event disposes of the block. -/
def HarborEvent.disposes (b : ℕ) : HarborEvent → Bool
  | .free block | .hand block => block = b
  | _ => false

/-- How often some events dispose of the block. -/
def disposals (b : ℕ) (es : List HarborEvent) : ℕ := es.countP (HarborEvent.disposes b)

/-- How often the block is in a queue. -/
def queueCount (b : ℕ) (queue : List NodeMsg) : ℕ := (queue.map NodeMsg.block).count b

/-- How often the block is in the queue or the receive buffer of a slave. -/
def NodeSlave.count (b : ℕ) (s : NodeSlave) : ℕ :=
  queueCount b (s.queue.getD []) + if s.recvBuffer.map Prod.fst = some b then 1 else 0

/-- How often the block is in the queue of a node. -/
def KeyValue.count (b : ℕ) (node : KeyValue NodeMsg) : ℕ := queueCount b (node.queue.getD [])

section Counting

variable {b : ℕ} {es : List HarborEvent}

@[simp] theorem disposals_nil (b : ℕ) : disposals b [] = 0 := rfl

theorem disposals_cons (b : ℕ) (e : HarborEvent) (es : List HarborEvent) :
    disposals b (e :: es) = disposals b es + if e.disposes b then 1 else 0 :=
  countP_cons ..

@[simp] theorem disposals_append (b : ℕ) (es fs : List HarborEvent) :
    disposals b (es ++ fs) = disposals b es + disposals b fs :=
  countP_append ..

theorem disposals_eq_zero (hes : ∀ e ∈ es, e.disposes b = false) : disposals b es = 0 :=
  countP_eq_zero.mpr fun e he => by simp [hes e he]

theorem disposals_of_quiet (hes : ∀ e ∈ es, e.Quiet) : disposals b es = 0 := by
  refine disposals_eq_zero fun e he => ?_
  have hquiet := hes e he
  cases e with
  | free block => exact hquiet.elim
  | hand block => exact hquiet.elim
  | _ => rfl

@[simp] theorem queueCount_nil (b : ℕ) : queueCount b [] = 0 := rfl

theorem queueCount_cons (b : ℕ) (m : NodeMsg) (queue : List NodeMsg) :
    queueCount b (m :: queue) = queueCount b queue + if m.block = b then 1 else 0 := by
  simp [queueCount, count_cons]

@[simp] theorem queueCount_append (b : ℕ) (queue queue' : List NodeMsg) :
    queueCount b (queue ++ queue') = queueCount b queue + queueCount b queue' := by
  simp [queueCount]

theorem count_clear (b : ℕ) (s : NodeSlave) :
    NodeSlave.count b { s with queue := none } + queueCount b (s.queue.getD []) = s.count b := by
  simp only [NodeSlave.count, Option.getD_none, queueCount_nil]
  omega

/-- Messages keep their blocks when they are bound or completed. -/
theorem queueCount_map {f : NodeMsg → NodeMsg} (hf : ∀ m, (f m).block = m.block)
    (queue : List NodeMsg) : queueCount b (queue.map f) = queueCount b queue := by
  rw [queueCount, queueCount, map_map]
  exact congrArg (List.count b) (map_congr_left fun m _ => hf m)

theorem block_bind (handle : UInt32) (m : NodeMsg) : (m.bind handle).block = m.block := by
  unfold NodeMsg.bind
  split <;> rfl

theorem disposals_flatMap {f : NodeMsg → List HarborEvent}
    (hf : ∀ m, disposals b (f m) = if m.block = b then 1 else 0) (queue : List NodeMsg) :
    disposals b (queue.flatMap f) = queueCount b queue := by
  induction queue with
  | nil => rfl
  | cons m queue ih =>
    rw [flatMap_cons, disposals_append, ih, hf, queueCount_cons, add_comm]

theorem disposes_remoteCall {fd : ℕ} {m : NodeMsg} : (remoteCall fd m).disposes b = false := by
  unfold remoteCall
  split_ifs <;> rfl

theorem disposals_sendEvents (fd : ℕ) (queue : List NodeMsg) :
    disposals b (queue.flatMap (sendEvents fd)) = queueCount b queue := by
  refine disposals_flatMap (fun m => ?_) queue
  rw [sendEvents, disposals_cons, disposes_remoteCall, disposals_cons]
  simp [HarborEvent.disposes]

theorem disposals_deliverEvents (handle : UInt32) (queue : List NodeMsg) :
    disposals b (queue.flatMap (deliverEvents handle)) = queueCount b queue := by
  refine disposals_flatMap (fun m => ?_) queue
  rw [deliverEvents, disposals_cons, disposals_cons]
  simp [HarborEvent.disposes]

theorem disposals_releaseQueue (queue : Option (List NodeMsg)) :
    disposals b (releaseQueue queue) = queueCount b (queue.getD []) := by
  rw [releaseQueue, map_eq_flatMap]
  refine disposals_flatMap (fun m => ?_) _
  rw [disposals_cons]
  simp [HarborEvent.disposes]

end Counting

namespace HarborNode

variable {h h' : HarborNode} {i : Fin remoteMax} {a : HarborAct} {b : ℕ}
  {refused : List HarborCall → Bool}

/-- How often a block is in a queue or a receive buffer. -/
def holds (h : HarborNode) (b : ℕ) : ℕ :=
  (∑ i, (h.s i).count b) + ∑ k, ((h.map k).map (KeyValue.count b)).sum

/-- How often a block was disposed of. -/
def disposed (h : HarborNode) (b : ℕ) : ℕ := disposals b h.log

/-- The account of a block. -/
def account (h : HarborNode) (b : ℕ) : ℕ := h.holds b + h.disposed b

section Account

variable (h : HarborNode)

theorem account_emit (es : List HarborEvent) :
    (h.emit es).account b = h.account b + disposals b es := by
  rw [account, account, disposed, emit_log, disposals_append, ← disposed]
  exact (add_assoc _ _ _).symm

theorem account_alloc : h.alloc.account b = h.account b := rfl

theorem account_setSlave (s : NodeSlave) :
    (h.setSlave i s).account b + (h.s i).count b = h.account b + s.count b := by
  have hsum : (∑ j, ((h.setSlave i s).s j).count b) + (h.s i).count b =
      (∑ j, (h.s j).count b) + s.count b :=
    sum_update_add (NodeSlave.count b) h.s i s
  have hmap : (h.setSlave i s).map = h.map := rfl
  have hlog : (h.setSlave i s).disposed b = h.disposed b := rfl
  rw [account, account, holds, holds, hmap, hlog]
  omega

theorem account_setSlave_add {s : NodeSlave} {n : ℕ} (hs : s.count b = (h.s i).count b + n) :
    (h.setSlave i s).account b = h.account b + n := by
  have hset := account_setSlave (i := i) (b := b) h s
  omega

theorem account_setSlave_sub {s : NodeSlave} {n : ℕ} (hs : s.count b + n = (h.s i).count b) :
    (h.setSlave i s).account b + n = h.account b := by
  have hset := account_setSlave (i := i) (b := b) h s
  omega

theorem account_setSlave_of_eq {s : NodeSlave} (hs : s.count b = (h.s i).count b) :
    (h.setSlave i s).account b = h.account b := by
  have hset := account_setSlave (i := i) (b := b) h s
  omega

theorem count_nameQueue (name : GlobalName) :
    ((hashSearch h.map name).getD (newNode NodeMsg name)).count b =
      queueCount b ((h.nameQueue name).getD []) := by
  rw [nameQueue]
  cases hashSearch h.map name with
  | none => rfl
  | some node => rfl

theorem account_hashUpdate (name : GlobalName) {f : KeyValue NodeMsg → KeyValue NodeMsg}
    (hmap : h'.map = hashUpdate h.map name f) (hs : h'.s = h.s) (hlog : h'.log = h.log) :
    h'.account b + queueCount b ((h.nameQueue name).getD []) =
      h.account b + (f ((hashSearch h.map name).getD (newNode NodeMsg name))).count b := by
  have hsum : (∑ k, ((h'.map k).map (KeyValue.count b)).sum) +
      ((h.map (nameBucket name)).map (KeyValue.count b)).sum =
        (∑ k, ((h.map k).map (KeyValue.count b)).sum) +
          ((upsertFirst (KeyValue.matches name) f (newNode NodeMsg name)
            (h.map (nameBucket name))).map (KeyValue.count b)).sum := by
    rw [hmap]
    exact sum_update_add (fun l => (List.map (KeyValue.count b) l).sum) h.map (nameBucket name) _
  have hnode : ((upsertFirst (KeyValue.matches name) f (newNode NodeMsg name)
      (h.map (nameBucket name))).map (KeyValue.count b)).sum +
        ((hashSearch h.map name).getD (newNode NodeMsg name)).count b =
      ((h.map (nameBucket name)).map (KeyValue.count b)).sum +
        (f ((hashSearch h.map name).getD (newNode NodeMsg name))).count b :=
    sum_upsertFirst (KeyValue.count b) rfl
  rw [count_nameQueue] at hnode
  rw [account, account, holds, holds, disposed, disposed, hs, hlog]
  omega

theorem account_bound (name : GlobalName) (handle : UInt32) :
    (h.bound name handle).account b + queueCount b ((h.nameQueue name).getD []) = h.account b := by
  have hupdate : (h.bound name handle).account b + queueCount b ((h.nameQueue name).getD []) = _ :=
    account_hashUpdate h name rfl rfl rfl
  rw [hupdate, KeyValue.count, Option.getD_none, queueCount_nil, add_zero]

theorem account_awaiting (name : GlobalName) (m : NodeMsg) :
    (h.awaiting name m).account b = h.account b + if m.block = b then 1 else 0 := by
  have hupdate : (h.awaiting name m).account b + queueCount b ((h.nameQueue name).getD []) = _ :=
    account_hashUpdate h name rfl rfl rfl
  have hold := count_nameQueue (b := b) h name
  rw [KeyValue.count] at hupdate hold
  rw [Option.getD_some, queueCount_append, hold, queueCount_cons, queueCount_nil] at hupdate
  omega

theorem account_waiting (queue : List NodeMsg) :
    (h.waiting i queue).account b = h.account b + queueCount b queue := by
  refine account_setSlave_add h ?_
  simp only [NodeSlave.count, Option.getD_some, queueCount_append]
  omega

theorem account_flushed {s : NodeSlave} (hs : s.count b = (h.s i).count b) :
    (h.flushed i s).account b = h.account b := by
  rw [flushed, account_emit, disposals_sendEvents]
  refine account_setSlave_sub h ?_
  rw [← hs]
  exact count_clear b s

theorem account_linked (fd : ℕ) (i : Fin remoteMax) (status : SlaveStatus) :
    (h.linked fd i status).account b = h.account b := by
  have hnone :
      disposals b [.start fd, .call (.ubossSocketSend fd [UInt8.ofNat h.id] 1) none] = 0 := rfl
  rw [linked, account_emit, hnone, add_zero]
  apply account_setSlave_of_eq
  rfl

theorem disposals_closeEvents (s : NodeSlave) :
    disposals b (closeEvents s) = queueCount b (s.queue.getD []) := by
  rw [closeEvents, disposals_append, disposals_releaseQueue]
  split_ifs
  · exact zero_add _
  · exact zero_add _

theorem account_closeHarbor : (h.closeHarbor i).account b = h.account b := by
  rw [closeHarbor, account_emit, disposals_closeEvents]
  exact account_setSlave_sub h (count_clear b (h.s i))

end Account

/-! ### The ledger -/

/-- Every block so far is in one place: held, disposed of, or one of those that `mainloop` still
owes. -/
def Ledger (owed : List ℕ) (h : HarborNode) : Prop :=
  ∀ b, h.account b + owed.count b = if b < h.next then 1 else 0

/-- A step that keeps the account: the data of a socket is for a slave, and when the service is
released no slave without a link has messages and no frame is incomplete. -/
def Owned (h : HarborNode) : HarborAct → Prop
  | .mainloop (.socket (.data fd _)) => h.findSlave fd ≠ none
  | .release =>
    (∀ i : Fin remoteMax, i.val = 0 ∨ (h.s i).fd = 0 → (h.s i).queue.getD [] = []) ∧
      ∀ i, (h.s i).recvBuffer = none
  | _ => True

section Ledger

variable {owed : List ℕ}

theorem ite_lt_succ (b n : ℕ) :
    (if b < n + 1 then 1 else 0) = (if b < n then 1 else 0) + if n = b then 1 else 0 := by
  split_ifs <;> omega

theorem Ledger.of_account (hh : Ledger owed h) (haccount : ∀ b, h'.account b = h.account b)
    (hnext : h'.next = h.next) : Ledger owed h' := by
  intro b
  rw [haccount b, hnext]
  exact hh b

theorem Ledger.of_alloc (hh : Ledger owed h)
    (haccount : ∀ b, h'.account b = h.account b + if h.next = b then 1 else 0)
    (hnext : h'.next = h.next + 1) : Ledger owed h' := by
  intro b
  have hb := hh b
  rw [haccount b, hnext, ite_lt_succ]
  omega

theorem Ledger.move (hshape : Shape h) (hmove : Move i h h') (hh : Ledger owed h) :
    Ledger owed h' := by
  cases hmove with
  | quiet hes =>
    refine hh.of_account (fun b => ?_) rfl
    rw [account_emit, disposals_of_quiet hes, add_zero]
  | fill _ =>
    refine hh.of_account (fun b => ?_) rfl
    apply account_setSlave_of_eq
    rfl
  | greet _ _ =>
    refine hh.of_account (fun b => ?_) rfl
    apply account_flushed
    rfl
  | close _ => exact hh.of_account (fun b => account_closeHarbor h) rfl
  | alloc hstatus =>
    have hrecv := (hshape i).recvBuffer_eq_none (ne_of_eq_of_ne hstatus (by decide))
    refine hh.of_alloc (fun b => ?_) rfl
    rw [← account_alloc h]
    apply account_setSlave_add
    simp [NodeSlave.count, hrecv]
  | load hstatus hrecv =>
    refine hh.of_account (fun b => ?_) rfl
    apply account_setSlave_of_eq
    simp [NodeSlave.count, hrecv]
  | @forward block recv u es hstatus hrecv hes =>
    refine hh.of_account (fun b => ?_) rfl
    have hdisposed : disposals b (.call (.ubossSend u) none :: .hand block :: es) =
        if block = b then 1 else 0 := by
      rw [disposals_cons, disposals_cons, disposals_of_quiet hes]
      simp [HarborEvent.disposes]
    have hemit := account_emit (b := b) h (.call (.ubossSend u) none :: .hand block :: es)
    have hset : ((h.emit (.call (.ubossSend u) none :: .hand block :: es)).setSlave i
        { h.s i with length := 0, read := 0, recvBuffer := none, status := .header }).account b +
          (if block = b then 1 else 0) =
        (h.emit (.call (.ubossSend u) none :: .hand block :: es)).account b := by
      apply account_setSlave_sub
      simp [NodeSlave.count, hrecv]
    rw [hdisposed] at hemit
    exact add_right_cancel (hset.trans hemit)

theorem Ledger.free {n : ℕ} (hh : Ledger [n] h) : Ledger [] (h.emit [.free n]) := by
  intro b
  have hb := hh b
  have hfree : disposals b [.free n] = [n].count b := by
    rw [disposals_cons]
    simp [HarborEvent.disposes, count_singleton]
  rw [account_emit, hfree, count_nil, add_zero]
  exact hb

theorem Ledger.alloc (hh : Ledger [] h) : Ledger [h.next] h.alloc := by
  intro b
  have hb := hh b
  rw [count_nil] at hb
  rw [account_alloc, alloc_next, ite_lt_succ, ← hb, count_singleton]
  simp

theorem Ledger.moves (hmoves : Moves i h h') (hshape : Shape h) (hh : Ledger owed h) :
    Ledger owed h' :=
  (hmoves.invariant (P := fun g => Shape g ∧ Ledger owed g) ⟨hshape, hh⟩
    fun hmove hg => ⟨hg.1.move hmove, hg.2.move hg.1 hmove⟩).2

theorem Ledger.of_bound {name : GlobalName} {queue : List NodeMsg} (handle : UInt32)
    (hh : Ledger [] h) (hqueue : h.nameQueue name = some queue)
    (haccount : ∀ b, h'.account b =
      (h.bound name handle).account b + queueCount b (queue.map (NodeMsg.bind handle)))
    (hnext : h'.next = h.next) : Ledger [] h' := by
  refine hh.of_account (fun b => ?_) hnext
  have hbound := account_bound (b := b) h name handle
  rw [hqueue, Option.getD_some] at hbound
  rw [haccount b, queueCount_map (block_bind handle), hbound]

theorem holds_eq_zero (hs : ∀ i, h.s i = .init) (hmap : ∀ k, h.map k = []) (b : ℕ) :
    h.holds b = 0 := by
  have hslaves : ∑ i, (h.s i).count b = 0 := Finset.sum_eq_zero fun i _ => by
    rw [hs i]
    rfl
  have hnames : ∑ k, ((h.map k).map (KeyValue.count b)).sum = 0 := Finset.sum_eq_zero fun k _ => by
    rw [hmap k]
    rfl
  rw [holds, hslaves, hnames]

theorem disposals_finRange {n : ℕ} (f : Fin n → List HarborEvent) :
    disposals b ((List.finRange n).flatMap f) = ∑ i, disposals b (f i) := by
  rw [disposals, countP_flatMap, Fin.sum_univ_def]
  rfl

/-- `harbor_release` disposes of what is held, if the links are as they should be. -/
theorem disposals_releaseEvents (hguard : Owned h .release) (hshape : Shape h) :
    disposals b h.releaseEvents = h.holds b := by
  have hslave : ∀ i : Fin remoteMax,
      disposals b (if 0 < i.val ∧ (h.s i).fd ≠ 0 ∧ (h.s i).status ≠ .down then
        closeEvents (h.s i) else []) = (h.s i).count b := by
    intro i
    have hcount : (h.s i).count b = queueCount b ((h.s i).queue.getD []) := by
      rw [NodeSlave.count, hguard.2 i]
      rfl
    rw [hcount]
    split_ifs with hopen
    · exact disposals_closeEvents (h.s i)
    · have hempty : (h.s i).queue.getD [] = [] := by
        by_cases hfree : i.val = 0 ∨ (h.s i).fd = 0
        · exact hguard.1 i hfree
        · -- the link is down
          rw [not_or] at hfree
          have hdown : (h.s i).status = .down := by
            by_contra hne
            exact hopen ⟨pos_of_ne_zero hfree.1, hfree.2, hne⟩
          rw [hshape.queue_eq_none hfree.2 (ne_of_eq_of_ne hdown (by decide)), Option.getD_none]
      rw [hempty]
      rfl
  have hname : ∀ k, disposals b ((h.map k).flatMap fun node => releaseQueue node.queue) =
      ((h.map k).map (KeyValue.count b)).sum := by
    intro k
    rw [disposals, countP_flatMap]
    exact congrArg List.sum (map_congr_left fun node _ => disposals_releaseQueue node.queue)
  rw [releaseEvents, disposals_append, disposals_finRange, disposals_finRange, holds]
  exact congrArg₂ (· + ·) (Finset.sum_congr rfl fun i _ => hslave i)
    (Finset.sum_congr rfl fun k _ => hname k)

theorem Ledger.effect (heffect : Effect h a h') (hguard : Owned h a) (hshape : Shape h)
    (hh : Ledger [] h) : Ledger [] h' := by
  cases heffect with
  | quiet hes =>
    refine hh.of_account (fun b => ?_) rfl
    rw [account_emit, disposals_of_quiet hes, add_zero]
  | stray hfind => exact absurd hfind hguard
  | data _ hmoves => exact (hh.alloc.moves hmoves hshape).free
  | connect _ _ => exact hh.of_account (fun b => account_linked h _ _ _) rfl
  | @accept msg source fd i _ _ =>
    refine hh.of_account (fun b => ?_) rfl
    rw [account_flushed, account_linked]
    rw [linked, emit_s, setSlave_self]
  | @bind msg source name _ hqueue =>
    refine hh.of_account (fun b => ?_) rfl
    have hbound := account_bound (b := b) h name source
    rw [hqueue, Option.getD_none, queueCount_nil, add_zero] at hbound
    exact hbound
  | @bindDrop msg source name queue _ hqueue _ _ =>
    refine hh.of_bound source hqueue (fun b => ?_) rfl
    have hdisposed : disposals b (.error (.dropName name (harborOf source)) ::
        releaseQueue (some (queue.map (NodeMsg.bind source)))) =
          queueCount b (queue.map (NodeMsg.bind source)) := disposals_releaseQueue _
    rw [account_emit, hdisposed]
  | @bindLocal msg source name queue _ hqueue _ _ _ =>
    refine hh.of_bound source hqueue (fun b => ?_) rfl
    rw [account_emit, disposals_deliverEvents, queueCount_append, ← add_assoc]
    refine congrArg (· + queueCount b (queue.map (NodeMsg.bind source))) ?_
    exact account_setSlave_sub (h.bound name source) (count_clear b (h.s (harborOf source)))
  | bindWait _ hqueue _ _ _ =>
    exact hh.of_bound _ hqueue (fun b => account_waiting _ _) rfl
  | @bindSend msg source name queue _ hqueue _ =>
    refine hh.of_bound source hqueue (fun b => ?_) rfl
    rw [account_emit, disposals_sendEvents, queueCount_map]
    exact fun m => rfl
  | deliver _ _ =>
    refine hh.of_alloc (fun b => ?_) rfl
    rw [account_emit, account_alloc, disposals_cons, disposals_cons]
    simp [HarborEvent.disposes]
  | reject _ _ _ _ =>
    refine hh.of_alloc (fun b => ?_) rfl
    rw [account_emit, account_alloc, disposals_cons, disposals_cons, disposals_cons, disposals_cons]
    simp [HarborEvent.disposes]
  | wait _ _ _ _ =>
    refine hh.of_alloc (fun b => ?_) rfl
    have hroute : ∀ m, disposals b [.route m] = 0 := fun m => rfl
    rw [account_emit, hroute, add_zero, account_waiting, account_alloc, queueCount_cons,
      queueCount_nil, zero_add]
    rfl
  | send _ _ _ _ =>
    refine hh.of_alloc (fun b => ?_) rfl
    rw [account_emit, account_alloc, disposals_cons, disposals_cons, disposes_remoteCall,
      disposals_cons]
    simp [HarborEvent.disposes]
  | query _ =>
    refine hh.of_alloc (fun b => ?_) rfl
    have hcall : ∀ u, disposals b [.call (.ubossSend u) none] = 0 := fun u => rfl
    rw [account_emit, hcall, add_zero, account_awaiting, account_alloc]
    rfl
  | release =>
    refine hh.of_account (fun b => ?_) rfl
    have hlog : h.harborRelease.disposed b = h.disposed b + disposals b h.releaseEvents :=
      disposals_append b h.log h.releaseEvents
    have hholds : h.harborRelease.holds b = 0 := holds_eq_zero (fun _ => rfl) (fun _ => rfl) b
    rw [account, account, hlog, disposals_releaseEvents hguard hshape, hholds]
    omega

end Ledger

/-! ### Runs -/

theorem Ledger.account_le_one (hh : Ledger [] h) (b : ℕ) : h.account b ≤ 1 := by
  have hb := hh b
  split_ifs at hb <;> omega

theorem disposals_pos {es : List HarborEvent} (hfree : .free b ∈ es) : 0 < disposals b es :=
  countP_pos_iff.mpr ⟨_, hfree, decide_eq_true rfl⟩

theorem free_mem_of_data {fd : ℕ} {buffer : List UInt8}
    (hstep : h.step refused (.mainloop (.socket (.data fd buffer))) = some h') :
    .free h.next ∈ h'.log := by
  unfold step mainloop socketMessage at hstep
  split_ifs at hstep
  obtain ⟨g, -, rfl⟩ := map_eq_ok_iff.mp (toOption_eq_some_iff.mp hstep)
  exact mem_append_right _ (mem_singleton_self _)

/-- Every block is in one place, in every run without data of unknown sockets, and in which the
service is released only if no slave without a link has messages and no frame is incomplete. The
data of a socket is freed by the step that gets it, and nothing is left after the release. -/
theorem ledger_of_run (refused : List HarborCall → Bool) (id : ℕ) (slave : UInt32)
    (w : List HarborAct) (h : HarborNode) (hrun : Run (step refused) Owned (create id slave) w h) :
    (∀ b, h.holds b + h.disposed b = if b < h.next then 1 else 0) ∧
      (h.released = true → ∀ b < h.next, h.disposed b = 1) ∧
      ∀ fd buffer h', h.findSlave fd ≠ none →
        h.step refused (.mainloop (.socket (.data fd buffer))) = some h' →
          .free h.next ∈ h'.log ∧ h'.disposed h.next = 1 := by
  have hinvariant : Shape h ∧ Ledger [] h ∧ (h.released = true → ∀ b, h.holds b = 0) := by
    refine hrun.invariant
      (P := fun h => Shape h ∧ Ledger [] h ∧ (h.released = true → ∀ b, h.holds b = 0))
      ⟨shape_create, fun b => ?_, fun hreleased => by cases hreleased⟩ ?_
    · have hholds : (create id slave).holds b = 0 := holds_eq_zero (fun _ => rfl) (fun _ => rfl) b
      rw [account, hholds]
      rfl
    · intro h a h' hguard hstep ⟨hshape, hledger, _⟩
      obtain ⟨hlive, heffect⟩ := effect_step hstep
      refine ⟨hshape.effect heffect, hledger.effect heffect hguard hshape, fun hreleased => ?_⟩
      rcases heffect.released_eq with heq | rfl
      · rw [heq, hlive] at hreleased
        cases hreleased
      · exact holds_eq_zero (fun _ => rfl) fun _ => rfl
  obtain ⟨hshape, hledger, hreleased⟩ := hinvariant
  refine ⟨fun b => ?_, fun hrel b hb => ?_, fun fd buffer h' hfind hstep => ?_⟩
  · have haccount := hledger b
    rwa [account, List.count_nil, Nat.add_zero] at haccount
  · have haccount := hledger b
    rw [account, hreleased hrel b, if_pos hb, List.count_nil] at haccount
    omega
  · obtain ⟨-, heffect⟩ := effect_step hstep
    have hledger' := hledger.effect heffect hfind hshape
    have hfree := free_mem_of_data hstep
    have hle := hledger'.account_le_one h.next
    have hpos : 0 < h'.disposed h.next := disposals_pos hfree
    rw [account] at hle
    exact ⟨hfree, by omega⟩

/-- Some data of the harbor 2, and the service is released. -/
theorem ledger_of_run_release : ∃ h, Run (step fun _ => false) Owned (create 1 0x01000001)
        [.mainloop (.harbor (text "A 5 2") 0x01000001), .mainloop (.socket (.data 5 [0])),
          .release] h ∧
      h.disposed 0 = 1 := by
  let h₁ := (create 1 0x01000001).linked 5 (harborOf 0x02000000) .header
  have hdata : (h₁.step (fun _ => false) (.mainloop (.socket (.data 5 [0])))).map
      (fun h => (h.released, h.next,
        decide ((∀ i : Fin remoteMax, i.val = 0 ∨ (h.s i).fd = 0 → (h.s i).queue.getD [] = []) ∧
          ∀ i, (h.s i).recvBuffer = none))) = some (false, 1, true) := by
    decide +kernel
  obtain ⟨h₂, hstep, hstate⟩ := Option.map_eq_some_iff.mp hdata
  simp only [Prod.mk.injEq, decide_eq_true_eq] at hstate
  obtain ⟨hreleased, hnext, hguard⟩ := hstate
  have hfind : h₁.findSlave 5 ≠ none := by decide +kernel
  have hrelease : h₂.step (fun _ => false) .release = some h₂.harborRelease := by
    rw [step, if_neg (by simp [hreleased])]
  have hrun : Run (step fun _ => false) Owned (create 1 0x01000001)
      [.mainloop (.harbor (text "A 5 2") 0x01000001), .mainloop (.socket (.data 5 [0])),
        .release] h₂.harborRelease :=
    (((Run.nil _).snoc trivial (by rfl : _ = some h₁)).snoc hfind hstep).snoc hguard hrelease
  have hdisposed := (ledger_of_run _ _ _ _ _ hrun).2.1 rfl 0
  exact ⟨_, hrun, hdisposed (by rw [show h₂.harborRelease.next = 1 from hnext]; decide)⟩

/-- The data of an unknown socket is freed twice. -/
theorem stray_data_freed_twice : ¬ ∀ h, Reachable (step fun _ => false) (create 1 0x01000001) h →
      ∀ b, h.holds b + h.disposed b = if b < h.next then 1 else 0 := by
  intro hall
  have hexec : (exec (step fun _ => false) (create 1 0x01000001)
      [.mainloop (.socket (.data 5 [0]))]).map (fun h => (h.next, h.disposed 0)) = some (1, 2) := by
    decide +kernel
  obtain ⟨h, hh, hstate⟩ := Option.map_eq_some_iff.mp hexec
  obtain ⟨hnext, hdisposed⟩ := Prod.mk.inj hstate
  have hone := hall h (reachable_of_exec hh) 0
  rw [hnext, hdisposed, if_pos Nat.zero_lt_one] at hone
  omega

end HarborNode

end Uboss.Module
