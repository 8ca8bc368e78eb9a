import Uboss.Core.SchedulerInv

/-!
# Safety of the scheduler

Every step of a node keeps the invariant and passes the assertions of the source.

## Main results

* `Node.Inv.step` — one step
* `scheduler_ownership` — a queue has at most one owner, and no assertion fails
* `Inv.delivery` — no lost wakeup, every message removed in order
-/

namespace Uboss.Core.Node

open Math Function List Option MessageQueue

/-- From `p` to `p'` a thread keeps its references, the message in hand and the context it is
preparing. -/
structure Moves (p p' : Pc) : Prop where
  refs : p'.refs = p.refs
  deletes : p'.deletes = p.deletes
  msg : p'.msg = p.msg
  preparing : p.preparing = none ∨ p'.preparing = p.preparing

variable {Tid : Type} [Fintype Tid] [DecidableEq Tid] {harbor : ℕ} {s : Node Tid}
  {L L' : List QueueId} {t : Tid} {p₀ p p' : Pc} {q : QueueId} {c : CtxId} {k : Cont}

variable {handle : ℕ} {msg : UbossMessage} {weight : ℤ}

theorem Moves.keeps (h : Moves p p') (x : Context) (hprep : p.preparing = some x.queue) :
    x.init = true ∨ p'.preparing = some x.queue := by
  rcases h.preparing with hnone | hsame
  · rw [hnone] at hprep
    cases hprep
  · exact .inr (hsame.trans hprep)

/-- The invariant of a state in which the queues have changed and a thread has moved. -/
theorem Inv.of_parts {Q : Queues} {mq : QueueId → Option MessageQueue} (hmq : Q.mq = mq)
    (hcounted : Counted harbor s.registry s.ctx (update s.thread t p))
    (howned : Owned Q L (update s.thread t p))
    (hbound : Bound s.registry.handleOf s.ctx mq s.nextQueue)
    (hready : Ready s.registry s.ctx mq (update s.thread t p))
    (hfifo : Fifo mq (update s.thread t p) s.sent s.fate) :
    ((s.setQueues Q).goto t p).Inv harbor L := by
  subst hmq
  exact ⟨hcounted, howned, hbound, hready, hfifo⟩

/-! ### The steps of a thread -/

section

variable (hs : s.Inv harbor L)
include hs

section

variable (hpc : s.thread t = p₀)
include hpc

omit [DecidableEq Tid] in
theorem Inv.pcOk : PcOk s.ctx s.queues.mq p₀ := hpc ▸ hs.ready.pc_ok t

theorem Inv.goto (hmove : Moves p₀ p) (howned : p.owned = p₀.owned)
    (hok : PcOk s.ctx s.queues.mq p) : (s.goto t p).Inv harbor L := by
  subst hpc
  exact ⟨hs.counted.goto hmove.refs hmove.deletes, hs.owned.goto howned, hs.bound,
      hs.ready.goto hok fun _ x _ _ => hmove.keeps x, hs.fifo.goto hmove.msg⟩

theorem Inv.globalmqPush (hmove : Moves p₀ p) (howned : p₀.owned = q :: p.owned)
    (hok : PcOk s.ctx s.queues.mq p) : Good harbor (s.ubossGlobalmqPush t q p) := by
  subst hpc
  obtain ⟨Q', hpush, hmq, hown⟩ := hs.owned.push howned
  rw [ubossGlobalmqPush, hpush]
  exact ⟨_, .of_parts hmq (hs.counted.goto hmove.refs hmove.deletes) hown hs.bound
    (hs.ready.goto hok fun _ x _ _ => hmove.keeps x) (hs.fifo.goto hmove.msg)⟩

theorem Inv.globalmqPop {next : QueueId → Pc} (hmove : Moves p₀ p) (howned : p.owned = p₀.owned)
    (hok : PcOk s.ctx s.queues.mq p) (hmove' : ∀ q, Moves p₀ (next q))
    (howned' : ∀ q, (next q).owned.Perm (q :: p₀.owned))
    (hok' : ∀ q, PcOk s.ctx s.queues.mq (next q)) : Good harbor (s.ubossGlobalmqPop t next p) := by
  subst hpc
  cases L with
  | nil =>
    rw [ubossGlobalmqPop, Queues.globalmqPop_nil hs.owned.global]
    exact ⟨[], hs.goto rfl hmove howned hok⟩
  | cons q L =>
    obtain ⟨Q', hpop, hmq, hown⟩ := hs.owned.pop (howned' q)
    rw [ubossGlobalmqPop, hpop]
    exact ⟨L, .of_parts hmq (hs.counted.goto (hmove' q).refs (hmove' q).deletes) hown hs.bound
      (hs.ready.goto (hok' q) fun _ x _ _ => (hmove' q).keeps x) (hs.fifo.goto (hmove' q).msg)⟩

theorem Inv.contextGrab {x : Context} (hx : s.ctx c = some x) (hpos : 0 < x.ref)
    (hrefs : p.refs = c :: p₀.refs) (hdeletes : p.deletes = p₀.deletes)
    (howned : p.owned = p₀.owned) (hmsg : p.msg = p₀.msg) (hprep : p₀.preparing = none)
    (hok : PcOk s.ctx s.queues.mq p) :
    Good harbor ((s.ubossContextGrab c).map fun s' => s'.goto t p) := by
  subst hpc
  simp only [ubossContextGrab, hx]
  refine ⟨L, hs.counted.grab hx hpos hrefs hdeletes, hs.owned.goto howned,
    hs.bound.setCtx hx rfl, ?_, hs.fifo.goto hmsg⟩
  exact (hs.ready.goto hok fun _ y _ _ h => by rw [hprep] at h; cases h).setCtx hx rfl id

theorem Inv.handleGrab {next : CtxId → Pc} (hmove : Moves p₀ p) (howned : p.owned = p₀.owned)
    (hok : PcOk s.ctx s.queues.mq p)
    (hnext : ∀ c, (next c).refs = c :: p₀.refs ∧
      (next c).deletes = p₀.deletes ∧ (next c).owned = p₀.owned ∧
      (next c).msg = p₀.msg) (hprep : p₀.preparing = none)
    (hok' : ∀ c, s.registry.grab handle = some c → PcOk s.ctx s.queues.mq (next c)) :
    Good harbor (s.ubossHandleGrab t handle next p) := by
  subst hpc
  cases hgrab : s.registry.grab handle with
  | none =>
    simp only [ubossHandleGrab, hgrab]
    exact ⟨L, hs.goto rfl hmove howned hok⟩
  | some c =>
    obtain ⟨hreg, -⟩ := (Registry.grab_eq_some_iff_registered hs.counted.registry).mp hgrab
    obtain ⟨x, hx, hpos⟩ := hs.counted.ctx_of_registered hreg
    obtain ⟨hrefs, hdeletes, howned', hmsg⟩ := hnext c
    simp only [ubossHandleGrab, hgrab]
    exact hs.contextGrab rfl hx hpos hrefs hdeletes howned' hmsg hprep (hok' c hgrab)

/-- `uboss_context_release` by a thread whose only reference it is. -/
theorem Inv.contextRelease (hrefs : p₀.refs = [c]) (hdeletes : p₀.deletes = [])
    (hmsg : p₀.msg = none) (hp : p.refs = [] ∧ p.deletes = [] ∧ p.msg = none)
    (howned : p.owned = p₀.owned) (hk : k.owned = p₀.owned) (hok : PcOk s.ctx s.queues.mq p)
    (hok' : ContOk s.queues.mq k)
    (hprep : ∀ x, s.ctx c = some x → ∀ d y, s.ctx d = some y →
      s.registry.storage.Registered d → p₀.preparing = some y.queue →
      y.init = true ∨ (if x.ref - 1 = 0 then Pc.delete c k else p).preparing = some y.queue) :
    Good harbor (s.ubossContextRelease t c p k) := by
  subst hpc
  obtain ⟨x, hx, -⟩ := hs.counted.ctx_of_refs (t := t) (c := c) (by simp [hrefs])
  obtain ⟨hprefs, hpdeletes, hpmsg⟩ := hp
  simp only [ubossContextRelease, hx]
  refine ⟨L, hs.counted.release hx hrefs hdeletes ?_ ?_, hs.owned.goto ?_,
    hs.bound.setCtx hx rfl, (hs.ready.goto ?_ (hprep x hx)).setCtx hx rfl id, hs.fifo.goto ?_⟩
  · split_ifs
    · rfl
    · exact hprefs
  · split_ifs
    · rfl
    · exact hpdeletes
  · split_ifs
    · exact hk
    · exact howned
  · split_ifs
    · exact hok'
    · exact hok
  · rw [hmsg]
    split_ifs
    · rfl
    · exact hpmsg

end

theorem Inv.deleteContext (hpc : s.thread t = .delete c k) :
    Good harbor (s.deleteContext t c k) := by
  have hdeletes : (s.thread t).deletes = [c] := by rw [hpc]; rfl
  obtain ⟨x, hx, -, -, hzero⟩ := hs.counted.of_deletes hdeletes
  obtain ⟨m, hm, hrelease, -⟩ := hs.bound.queue c x hx
  obtain ⟨Q', L', hmark, hmq, hown⟩ := hs.owned.markRelease hm hrelease
  have hnoref : ∀ u, c ∉ (s.thread u).refs := by
    intro u hu
    have := count_refs_le s.registry s.thread u c
    have := count_pos_iff.mpr hu
    omega
  have hcont : ContOk s.queues.mq k := by
    have := hs.ready.pc_ok t
    rwa [hpc] at this
  have hcont' : ContOk Q'.mq k := by
    refine hcont.mono fun q _ n hn => ?_
    rw [hmq]
    by_cases hq : q = x.queue
    · subst hq
      obtain rfl : m = n := some.inj (hm.symm.trans hn)
      exact ⟨_, update_self .., rfl⟩
    · exact ⟨n, (update_of_ne hq ..).trans hn, rfl⟩
  simp only [Node.deleteContext, hx, hmark]
  refine ⟨L', hs.counted.delete_context hdeletes ?_ k.deletes_pc, hown.goto ?_, ?_, ?_, ?_⟩
  · rw [hpc]
    exact k.refs_pc
  · rw [hpc]
    exact k.owned_pc
  · change Bound _ _ Q'.mq _
    rw [hmq]
    exact hs.bound.delete hx hm rfl
  · change Ready _ _ Q'.mq _
    rw [hmq] at hcont' ⊢
    refine hs.ready.delete hnoref (hs.counted.not_registered_of_deletes hdeletes) hm rfl hrelease
      (PcOk.cont hcont') ?_
    rw [hpc]
    exact k.preparing_pc.symm
  · change Fifo Q'.mq _ _ _
    rw [hmq]
    refine (hs.fifo.setMq (by rw [hm]; rfl) fun n hn hglobal => ?_).goto ?_
    · cases hn
      exact hs.fifo.empty _ m hm hglobal
    · rw [hpc]
      exact k.msg_pc

theorem Inv.handleRetire (hpc : s.thread t = p₀) (hrefs : p₀.refs = []) (hdeletes : p₀.deletes = [])
    (hmsg : p₀.msg = none) (howned : k.owned = p₀.owned) (hok : ContOk s.queues.mq k)
    (hprep : ∀ d y, s.ctx d = some y → (s.registry.retire handle).storage.Registered d →
      p₀.preparing = some y.queue → y.init = true ∨ k.preparing = some y.queue) :
    (s.ubossHandleRetire t handle k).Inv harbor L := by
  subst hpc
  have hshrink := fun c hc => ((hs.counted.registry.retire_registered handle c).mp hc).1
  cases hgrab : s.registry.grab handle with
  | none =>
    simp only [Node.ubossHandleRetire, hgrab]
    refine ⟨(hs.counted.retire_none hgrab).goto ?_ ?_, hs.owned.goto ?_, hs.bound,
      (hs.ready.registry hshrink).goto (PcOk.cont hok) ?_, hs.fifo.goto ?_⟩
    · rw [hrefs]
      exact k.refs_pc
    · rw [hdeletes]
      exact k.deletes_pc
    · exact k.owned_pc.trans howned
    · rw [k.preparing_pc]
      exact hprep
    · rw [hmsg]
      exact k.msg_pc
  | some c =>
    simp only [Node.ubossHandleRetire, hgrab]
    refine ⟨hs.counted.retire_some hgrab ?_ ?_, hs.owned.goto howned, hs.bound,
      (hs.ready.registry hshrink).goto hok hprep, hs.fifo.goto ?_⟩
    · rw [hrefs]
      rfl
    · rw [hdeletes]
      rfl
    · rw [hmsg]
      rfl

theorem Inv.mqPush (hpc : s.thread t = p₀) (hc : c ∈ p₀.refs) (hmove : Moves p₀ p)
    (howned : p.owned = p₀.owned) (hok : ∀ ctx mq, PcOk ctx mq p) :
    Good harbor (s.ubossMqPush t c msg p) := by
  subst hpc
  obtain ⟨x, hx, -⟩ := hs.counted.ctx_of_refs hc
  obtain ⟨m, hm, hrelease, -⟩ := hs.bound.queue c x hx
  obtain ⟨Q', L', m', hpush, hmq, hcontents, hglobal, hhandle, hrelease', hown⟩ :=
    hs.owned.mqPush hm hrelease msg
  simp only [Node.ubossMqPush, hx, hpush]
  refine ⟨L', hs.counted.goto hmove.refs hmove.deletes, hown.goto howned, ?_, ?_, ?_⟩
  · change Bound _ _ Q'.mq _
    rw [hmq]
    exact hs.bound.setMq hm hhandle fun _ _ _ _ => hrelease'
  · change Ready _ _ Q'.mq _
    rw [hmq]
    refine hs.ready.setMq hm hhandle (fun u _ _ h => ?_) (hok _ _) fun _ x _ _ => hmove.keeps x
    rw [hrelease] at h
    cases h
  · change Fifo Q'.mq _ _ _
    rw [hmq]
    exact (hs.fifo.push hm hcontents hglobal).goto hmove.msg

theorem Inv.notMem_owned (hq : q ∈ (s.thread t).owned) (u : Tid) (hu : u ≠ t) :
    q ∉ (s.thread u).owned :=
  fun h => hu (hs.owned.eq_of_owned h hq)

theorem Inv.msg_ne (hq : q ∈ (s.thread t).owned) (u : Tid) (hu : u ≠ t) (msg : UbossMessage) :
    (s.thread u).msg ≠ some (q, msg) :=
  fun h => hs.notMem_owned hq u hu (Pc.mem_owned_of_msg h)

/-- The thread `t` writes a queue that it holds and moves on, without a change of what the
queue asks for. -/
theorem Inv.writeQueue (hpc : s.thread t = p₀) {m m' : MessageQueue} (hm : s.queues.mq q = some m)
    (hq : q ∈ p₀.owned) (hmove : Moves p₀ p) (howned : p.owned = p₀.owned)
    (hcontents : m'.contents = m.contents) (hhandle : m'.handle = m.handle)
    (hrelease : m'.release = m.release) (hdue : ownDue (some m') = ownDue (some m))
    (hempty : m'.inGlobal = false → m'.contents = [])
    (hok : PcOk s.ctx (update s.queues.mq q (some m')) p) :
    ((s.setQueues (s.queues.set q m')).goto t p).Inv harbor L := by
  subst hpc
  exact .of_parts rfl (hs.counted.goto hmove.refs hmove.deletes)
      ((hs.owned.setMq (hdue.trans (congrArg ownDue hm.symm))).goto howned)
      (hs.bound.setMq hm hhandle fun _ _ _ _ => hrelease)
      (hs.ready.setMq hm hhandle (fun u hu h => absurd h (hs.notMem_owned hq u hu)) hok
        fun _ x _ _ => hmove.keeps x)
      ((hs.fifo.setMq (by rw [hm]; exact hcontents)
        fun n hn hglobal => by cases hn; exact hempty hglobal).goto hmove.msg)

theorem Inv.mqPop (hpc : s.thread t = p₀) {next : UbossMessage → Pc} (hq : q ∈ p₀.owned)
    (hmsg : p₀.msg = none) (hprep : p₀.preparing = none)
    (hnext : ∀ msg, (next msg).refs = p₀.refs ∧
      (next msg).deletes = p₀.deletes ∧ (next msg).owned = p₀.owned ∧
      (next msg).msg = some (q, msg))
    (hok : ∀ msg m m', s.queues.mq q = some m → m'.release = m.release → m'.handle = m.handle →
      PcOk s.ctx (update s.queues.mq q (some m')) (next msg))
    (hempty : ∀ m, s.queues.mq q = some m → m.contents = [] → ((s.setQueues (s.queues.set q
        { m with overloadThreshold := mqOverload, inGlobal := false })).goto t p).Inv harbor L) :
    Good harbor (s.ubossMqPop t q next p) := by
  subst hpc
  obtain ⟨⟨m, hm, -⟩, -, -⟩ := hs.owned.of_owned hq
  by_cases hnil : m.contents = []
  · simp only [Node.ubossMqPop, hm, ubossMqPop_of_contents_eq_nil hnil]
    exact ⟨L, hempty m hm hnil⟩
  · obtain ⟨msg, m', hpop, hcontents, hhandle, hrelease, hglobal⟩ :=
      ubossMqPop_of_contents_ne_nil hnil
    obtain ⟨hrefs, hdeletes, howned, hmsg'⟩ := hnext msg
    simp only [Node.ubossMqPop, hm, hpop]
    refine ⟨L, .of_parts rfl (hs.counted.goto hrefs hdeletes)
      ((hs.owned.setMq ?_).goto howned) (hs.bound.setMq hm hhandle fun _ _ _ _ => hrelease)
      (hs.ready.setMq hm hhandle (fun u hu h => absurd h (hs.notMem_owned hq u hu))
        (hok msg m m' hm hrelease hhandle) fun _ x _ _ h => ?_)
      (hs.fifo.pop hm hcontents hglobal hmsg hmsg' (hs.msg_ne hq))⟩
    · rw [hm, ownDue, ownDue, hrelease, hglobal]
    · rw [hprep] at h
      cases h

end

section

variable (hs : s.Inv harbor L)
include hs

omit [DecidableEq Tid] in
/-- The queue of a context that a worker serves is not marked for release. -/
theorem Inv.serving_release (hserve : Serving s.ctx q c) {m : MessageQueue}
    (hm : s.queues.mq q = some m) : m.release = false := by
  obtain ⟨x, hx, rfl, -⟩ := hserve
  obtain ⟨n, hn, hrelease, -⟩ := hs.bound.queue c x hx
  obtain rfl : m = n := some.inj (hm.symm.trans hn)
  exact hrelease

/-- A worker finds the queue empty: it is not scheduled any more and has no owner. -/
theorem Inv.giveUp (hpc : s.thread t = p₀) {m : MessageQueue} (hm : s.queues.mq q = some m)
    (hrelease : m.release = false) (hnil : m.contents = []) (hmove : Moves p₀ p)
    (howned : p₀.owned = q :: p.owned) (hok : ∀ mq, PcOk s.ctx mq p) :
    ((s.setQueues (s.queues.set q
      { m with overloadThreshold := mqOverload, inGlobal := false })).goto t p).Inv harbor L := by
  subst hpc
  have hq : q ∈ (s.thread t).owned := howned ▸ mem_cons_self
  exact .of_parts rfl (hs.counted.goto hmove.refs hmove.deletes)
    (hs.owned.giveUp howned (by simp [ownDue, hrelease]))
    (hs.bound.setMq hm rfl fun _ _ _ _ => rfl)
    (hs.ready.setMq hm rfl (fun u hu h => absurd h (hs.notMem_owned hq u hu)) (hok _)
      fun _ x _ _ => hmove.keeps x)
    ((hs.fifo.setMq (by rw [hm]; rfl) fun n hn _ => by cases hn; exact hnil).goto hmove.msg)

theorem Inv.run_pop {i n : ℕ} (hpc : s.thread t = .pop q c weight i n) : Good harbor (s.run t) := by
  have hserve : Serving s.ctx q c := hs.pcOk hpc
  simp only [run, hpc]
  refine hs.mqPop hpc mem_cons_self rfl rfl (fun msg => ?_) (fun msg _ _ _ _ _ => ?_)
    fun m hm hnil => ?_
  · split_ifs
    · exact ⟨rfl, rfl, rfl, rfl⟩
    · exact ⟨rfl, rfl, rfl, rfl⟩
  · split_ifs
    · exact hserve
    · exact hserve
  · exact hs.giveUp hpc hm (hs.serving_release hserve hm) hnil ⟨rfl, rfl, rfl, .inl rfl⟩ rfl
      fun _ => trivial

theorem Inv.run_drop (hpc : s.thread t = .drop q k) : Good harbor (s.run t) := by
  obtain ⟨⟨m, hm, hrelease⟩, hcont⟩ : Released s.queues.mq q ∧ ContOk s.queues.mq k := hs.pcOk hpc
  have hcont' : ∀ m', m'.handle = m.handle → ContOk (update s.queues.mq q (some m')) k := by
    intro m' hhandle
    refine hcont.mono fun p _ n hn => ?_
    by_cases hp : p = q
    · subst hp
      obtain rfl : m = n := some.inj (hm.symm.trans hn)
      exact ⟨m', update_self .., hhandle⟩
    · exact ⟨n, (update_of_ne hp ..).trans hn, rfl⟩
  simp only [run, hpc]
  refine hs.mqPop hpc mem_cons_self rfl rfl (fun msg => ⟨rfl, rfl, rfl, rfl⟩)
    (fun msg n m' hn hrel hhandle => ?_) fun n hn hnil => ?_
  · obtain rfl : m = n := some.inj (hm.symm.trans hn)
    exact ⟨⟨m', update_self .., hrel.trans hrelease⟩, hcont' m' hhandle⟩
  · obtain rfl : m = n := some.inj (hm.symm.trans hn)
    exact hs.writeQueue hpc hm mem_cons_self ⟨rfl, rfl, rfl, .inl rfl⟩ rfl rfl rfl rfl
      (by simp [ownDue, hrelease]) (fun _ => hnil)
      ⟨⟨_, update_self .., hrelease, hnil⟩, hcont' _ rfl⟩

theorem Inv.run_free (hpc : s.thread t = .free q k) : Good harbor (s.run t) := by
  obtain ⟨⟨m, hm, hrelease, hnil⟩, hcont⟩ :
      (∃ m, s.queues.mq q = some m ∧ m.release = true ∧ m.contents = []) ∧
        ContOk s.queues.mq k := hs.pcOk hpc
  have howned : (s.thread t).owned = q :: k.pc.owned := by
    rw [hpc, k.owned_pc]
    rfl
  have hq : q ∈ (s.thread t).owned := howned ▸ mem_cons_self
  have hcont' : ContOk (update s.queues.mq q none) k := by
    refine hcont.mono fun p hp n hn => ⟨n, (update_of_ne ?_ ..).trans hn, rfl⟩
    -- the code after the call holds other queues
    rintro rfl
    have hone := (hs.owned.of_owned hq).2.2
    rw [howned, k.owned_pc, count_cons_self] at hone
    have := count_pos_iff.mpr hp
    omega
  obtain ⟨hfree, hown⟩ := hs.owned.free howned
  simp only [run, hpc, hfree]
  refine ⟨L, .of_parts rfl (hs.counted.goto ?_ ?_) hown (hs.bound.free hm hrelease)
    (hs.ready.free (hs.notMem_owned hq) (PcOk.cont hcont') ?_)
    ((hs.fifo.setMq (o := none) (by rw [hm]; exact hnil.symm) nofun).goto ?_)⟩
  · rw [hpc]
    exact k.refs_pc
  · rw [hpc]
    exact k.deletes_pc
  · rw [hpc]
    rfl
  · rw [hpc]
    exact k.msg_pc

theorem Inv.run_grab (hpc : s.thread t = .grab q weight) : Good harbor (s.run t) := by
  have hq : q ∈ (s.thread t).owned := by simp [hpc, Pc.owned]
  obtain ⟨⟨m, hm, -⟩, -, -⟩ := hs.owned.of_owned hq
  simp only [run, hpc, hm]
  refine hs.handleGrab hpc ⟨rfl, rfl, rfl, .inl rfl⟩ rfl trivial
    (fun c => ⟨rfl, rfl, rfl, rfl⟩) rfl fun c hgrab => ?_
  -- the context of this handle has this queue, and is no longer being prepared
  obtain ⟨hreg, hhandle⟩ := (Registry.grab_eq_some_iff_registered hs.counted.registry).mp hgrab
  obtain ⟨x, hx, -⟩ := hs.counted.ctx_of_registered hreg
  obtain ⟨n, hn, -, hhandle'⟩ := hs.bound.queue c x hx
  have hqueue := hs.bound.handle_inj _ _ _ _ hn hm (hhandle'.trans hhandle)
  refine ⟨x, hx, hqueue, (hs.ready.init c x hx hreg).resolve_right ?_⟩
  rintro ⟨u, hu⟩
  rw [hqueue] at hu
  obtain rfl := hs.owned.eq_of_owned hq (Pc.mem_owned_of_preparing hu)
  rw [hpc] at hu
  cases hu

theorem Inv.run_call {i n : ℕ} (hpc : s.thread t = .call q c weight i n msg) :
    Good harbor (s.run t) := by
  have hserve : Serving s.ctx q c := hs.pcOk hpc
  obtain ⟨x, hx, -, hinit⟩ := id hserve
  have hq : q ∈ (s.thread t).owned := by simp [hpc, Pc.owned]
  obtain ⟨⟨m, hm, -⟩, -, -⟩ := hs.owned.of_owned hq
  have hassert : ¬ (x.cb = true ∧ ¬ x.init = true) := by simp [hinit]
  simp only [run, hpc, dispatchMessage, hm, hx, if_neg hassert]
  refine ⟨L, hs.counted.goto (by rw [hpc]; rfl) (by rw [hpc]; rfl),
    (hs.owned.setMq (by simp [hm, ownDue])).goto (by rw [hpc]; rfl),
    hs.bound.setMq hm overload_handle fun _ _ _ _ => overload_release,
    hs.ready.setMq hm overload_handle
      (fun u hu h => absurd h (hs.notMem_owned hq u hu)) hserve fun _ y _ _ h => ?_,
    (hs.fifo.setMq ?_ fun n hn hglobal => ?_).settle (by rw [hpc]; rfl) rfl (hs.msg_ne hq)⟩
  · rw [hpc] at h
    cases h
  · rw [hm]
    exact overload_contents
  · cases hn
    rw [overload_contents]
    exact hs.fifo.empty q m hm (overload_inGlobal.symm.trans hglobal)

theorem Inv.run_dropMsg (hpc : s.thread t = .dropMsg q msg k) : Good harbor (s.run t) := by
  have hok : PcOk s.ctx s.queues.mq (.dropMsg q msg k) := hs.pcOk hpc
  simp only [run, hpc]
  refine ⟨L, hs.counted.goto (by rw [hpc]; rfl) (by rw [hpc]; rfl),
    hs.owned.goto (by rw [hpc]; rfl), hs.bound, hs.ready.goto hok fun _ x _ _ h => ?_,
    hs.fifo.settle (by rw [hpc]; rfl) rfl (hs.msg_ne (by simp [hpc, Pc.owned]))⟩
  rw [hpc] at h
  cases h

theorem Inv.run_mqRelease (hpc : s.thread t = .mqRelease q k) : Good harbor (s.run t) := by
  have hcont : ContOk s.queues.mq k := hs.pcOk hpc
  obtain ⟨⟨m, hm, -⟩, -, -⟩ := hs.owned.of_owned (t := t) (q := q) (by simp [hpc, Pc.owned])
  simp only [run, hpc, ubossMqRelease, hm]
  split_ifs with hrelease
  · exact ⟨L, hs.goto hpc ⟨rfl, rfl, rfl, .inl rfl⟩ rfl ⟨⟨m, hm, hrelease⟩, hcont⟩⟩
  · exact hs.globalmqPush hpc ⟨k.refs_pc, k.deletes_pc, k.msg_pc, .inl rfl⟩
      (by rw [k.owned_pc]; rfl) (PcOk.cont hcont)

theorem Inv.run_release (hpc : s.thread t = .release c k) : Good harbor (s.run t) := by
  have hcont : ContOk s.queues.mq k := hs.pcOk hpc
  simp only [run, hpc]
  refine hs.contextRelease hpc rfl rfl rfl ⟨k.refs_pc, k.deletes_pc, k.msg_pc⟩
    k.owned_pc rfl (PcOk.cont hcont) hcont fun x _ d y _ _ hprep => .inr ?_
  split_ifs
  · exact hprep
  · rw [k.preparing_pc]
    exact hprep

/-- The launching thread drops its reference. If that was the last one the context has been
retired, and no one will dispatch it. -/
theorem Inv.run_launched (hpc : s.thread t = .launched q c) : Good harbor (s.run t) := by
  obtain ⟨x, hx, hqueue⟩ : ∃ x, s.ctx c = some x ∧ x.queue = q := hs.pcOk hpc
  have hunique : ∀ d y, s.ctx d = some y → y.queue = q → d = c := fun d y hy hyq =>
    hs.bound.queue_inj d c y x hy hx (hyq.trans hqueue.symm)
  simp only [run, hpc]
  refine hs.contextRelease hpc rfl rfl rfl ⟨rfl, rfl, rfl⟩ rfl rfl hunique trivial
    fun z hz d y hy hd hprep => ?_
  have hyq : y.queue = q := (some.inj hprep).symm
  split_ifs with hlast
  · obtain rfl := hunique d y hy hyq
    have href := hs.counted.ref d
    rw [hz, refField, refTotal, slotRef_of_registered hd] at href
    have hle := le_sum_thread (fun p : Pc => p.refs.count d) s.thread t
    have hone : (s.thread t).refs.count d = 1 := by
      rw [hpc]
      exact count_singleton_self
    omega
  · rw [hyq]
    exact .inr rfl

theorem Inv.run_setInit (hpc : s.thread t = .setInit q c) : Good harbor (s.run t) := by
  have hunique : ∀ d y, s.ctx d = some y → y.queue = q → d = c := hs.pcOk hpc
  have hcounted := hs.counted.goto (t := t) (p := .publish q) (by rw [hpc]; rfl) (by rw [hpc]; rfl)
  have howned := hs.owned.goto (t := t) (p := .publish q) (by rw [hpc]; rfl)
  have hfifo := hs.fifo.goto (t := t) (p := .publish q) (by rw [hpc]; rfl)
  simp only [run, hpc]
  cases hx : s.ctx c with
  | none =>
    have hsame : update s.ctx c none = s.ctx := by
      rw [← hx, update_eq_self]
    refine ⟨L, ?_⟩
    simp only [setCtx, map_none, hsame]
    refine ⟨hcounted, howned, hs.bound, hs.ready.goto trivial fun d y hy _ hprep => ?_, hfifo⟩
    rw [hpc] at hprep
    obtain rfl := hunique d y hy (some.inj hprep).symm
    rw [hx] at hy
    cases hy
  | some x =>
    refine ⟨L, hcounted.setCtx hx rfl, howned, hs.bound.setCtx hx rfl,
      (hs.ready.setCtx hx (y := { x with init := true }) rfl fun _ => rfl).goto trivial
        fun d y hy _ hprep => ?_, hfifo⟩
    rcases update_some_eq_some_iff.mp hy with ⟨-, rfl⟩ | ⟨hd, hy⟩
    · exact .inl rfl
    · rw [hpc] at hprep
      exact absurd (hunique d y hy (some.inj hprep).symm) hd

theorem Inv.run_failRetire (hpc : s.thread t = .failRetire q handle) : Good harbor (s.run t) := by
  obtain ⟨m, hm, hhandle⟩ : ∃ m, s.queues.mq q = some m ∧ m.handle = handle := hs.pcOk hpc
  simp only [run, hpc]
  refine ⟨L, hs.handleRetire hpc rfl rfl rfl rfl trivial fun d y hy hd hprep => ?_⟩
  -- the context of this queue was registered under the retired handle
  have hyq : y.queue = q := (some.inj hprep).symm
  obtain ⟨hreg, hgone⟩ := (hs.counted.registry.retire_registered handle d).mp hd
  obtain ⟨n, hn, -, hhandle'⟩ := hs.bound.queue d y hy
  rw [hyq] at hn
  obtain rfl : m = n := some.inj (hm.symm.trans hn)
  exact absurd ((Registry.grab_eq_some_iff_registered hs.counted.registry).mpr
    ⟨hreg, hhandle'.symm.trans hhandle⟩) hgone

theorem Inv.run_yield (hpc : s.thread t = .yield q c) : Good harbor (s.run t) := by
  obtain ⟨x, hx, hqueue, -⟩ : Serving s.ctx q c := hs.pcOk hpc
  have hassert : ¬ x.queue ≠ q := not_not.mpr hqueue
  simp only [run, hpc, hx, if_neg hassert]
  exact hs.globalmqPop hpc ⟨rfl, rfl, rfl, .inl rfl⟩ rfl trivial
    (fun nq => ⟨rfl, rfl, rfl, .inl rfl⟩) (fun nq => List.Perm.swap nq q []) fun _ => trivial

theorem Inv.run_calling {i n : ℕ} (hpc : s.thread t = .calling q c weight i n) :
    Good harbor (s.run t) := by
  have hserve : Serving s.ctx q c := hs.pcOk hpc
  simp only [run, hpc]
  refine ⟨L, ?_⟩
  split_ifs
  · exact hs.goto hpc ⟨rfl, rfl, rfl, .inl rfl⟩ rfl hserve
  · exact hs.goto hpc ⟨rfl, rfl, rfl, .inl rfl⟩ rfl hserve

theorem Inv.run_length (hpc : s.thread t = .length q c weight msg) : Good harbor (s.run t) := by
  have hserve : Serving s.ctx q c := hs.pcOk hpc
  obtain ⟨⟨m, hm, -⟩, -, -⟩ := hs.owned.of_owned (t := t) (q := q) (by simp [hpc, Pc.owned])
  simp only [run, hpc, hm]
  exact ⟨L, hs.goto hpc ⟨rfl, rfl, rfl, .inl rfl⟩ rfl hserve⟩

theorem Inv.run (t : Tid) : Good harbor (s.run t) := by
  cases hpc : s.thread t with
  | grab q weight => exact hs.run_grab hpc
  | pop q c weight i n => exact hs.run_pop hpc
  | length q c weight msg => exact hs.run_length hpc
  | call q c weight i n msg => exact hs.run_call hpc
  | calling q c weight i n => exact hs.run_calling hpc
  | yield q c => exact hs.run_yield hpc
  | pushBack q nq c =>
    simp only [Node.run, hpc]
    exact hs.globalmqPush hpc ⟨rfl, rfl, rfl, .inl rfl⟩ rfl trivial
  | globalPop =>
    simp only [Node.run, hpc]
    exact hs.globalmqPop hpc ⟨rfl, rfl, rfl, .inl rfl⟩ rfl trivial
      (fun q => ⟨rfl, rfl, rfl, .inl rfl⟩) (fun q => List.Perm.refl _) fun _ => trivial
  | mqRelease q k => exact hs.run_mqRelease hpc
  | drop q k => exact hs.run_drop hpc
  | dropMsg q msg k => exact hs.run_dropMsg hpc
  | free q k => exact hs.run_free hpc
  | release c k => exact hs.run_release hpc
  | delete c k =>
    simp only [Node.run, hpc]
    exact hs.deleteContext hpc
  | push c msg =>
    simp only [Node.run, hpc]
    exact hs.mqPush hpc mem_cons_self ⟨rfl, rfl, rfl, .inl rfl⟩ rfl fun _ _ => trivial
  | launched q c => exact hs.run_launched hpc
  | setInit q c => exact hs.run_setInit hpc
  | publish q =>
    simp only [Node.run, hpc]
    exact hs.globalmqPush hpc ⟨rfl, rfl, rfl, .inl rfl⟩ rfl trivial
  | failRetire q handle => exact hs.run_failRetire hpc
  | _ =>
    simp only [Node.run, hpc]
    rfl

/-! ### The steps of a node -/

theorem Inv.launch (hpc : s.thread t = .idle) {storage : HandleStorage}
    (hok : s.registry.register = .ok (handle, storage))
    (hfresh : ∀ q m, s.queues.mq q = some m → m.handle ≠ handle) :
    (s.launch t handle storage).Inv harbor L := by
  have hnone := hs.counted.next_eq_none
  have hqnone := hs.bound.nextQueue_eq_none
  refine ⟨hs.counted.launch hok rfl (by rw [hpc]; rfl) (by rw [hpc]; rfl),
    hs.owned.create hqnone rfl (by rw [hpc]; rfl),
    hs.bound.launch hnone hfresh rfl rfl rfl,
    hs.ready.launch hnone hqnone (fun u hu => ?_) rfl
      (fun d hd => (hs.counted.registry.publish_registered hok d).mp hd) (by rw [hpc]; rfl),
    (hs.fifo.setMq (by rw [hqnone]; rfl) fun n hn hglobal => ?_).goto (by rw [hpc]; rfl)⟩
  · obtain ⟨⟨m, hm, -⟩, -, -⟩ := hs.owned.of_owned hu
    rw [hqnone] at hm
    cases hm
  · cases hn
    cases hglobal

theorem Inv.initReturn (hpc : s.thread t = .init q c) (ok : Bool) :
    (s.goto t (if ok then .launched q c
      else .release c (.failRetire q (s.registry.handleOf c)))).Inv harbor L := by
  obtain ⟨x, hx, hqueue⟩ : ∃ x, s.ctx c = some x ∧ x.queue = q := hs.pcOk hpc
  obtain ⟨m, hm, -, hhandle⟩ := hs.bound.queue c x hx
  rw [hqueue] at hm
  split_ifs
  · exact hs.goto hpc ⟨rfl, rfl, rfl, .inr rfl⟩ rfl ⟨x, hx, hqueue⟩
  · exact hs.goto hpc ⟨rfl, rfl, rfl, .inr rfl⟩ rfl ⟨m, hm, hhandle⟩

end

omit [Fintype Tid] [DecidableEq Tid] in
theorem mem_refs_of_running (h : running p = some c) : c ∈ p.refs := by
  cases p <;> simp_all [running, Pc.refs]

omit [DecidableEq Tid] in
theorem Inv.callback (hs : s.Inv harbor L) {x : Context} {cb : Bool} (hx : s.ctx c = some x) :
    (s.setCtx c (some { x with cb := cb })).Inv harbor L :=
  ⟨hs.counted.setCtx hx rfl, hs.owned, hs.bound.setCtx hx rfl, hs.ready.setCtx hx rfl id, hs.fifo⟩

/-- A step from a state with the invariant leads to such a state, or is not enabled. -/
theorem Inv.step (hs : s.Inv harbor L) {a : NodeAct Tid} (hfresh : s.FreshHandle a) :
    Good harbor (s.step a) := by
  cases a with
  | dispatch t weight =>
    rw [Node.step]
    split
    · exact hs.globalmqPop ‹_› ⟨rfl, rfl, rfl, .inl rfl⟩ rfl trivial
        (fun q => ⟨rfl, rfl, rfl, .inl rfl⟩) (fun q => List.Perm.refl _) fun _ => trivial
    · rename_i hpc
      exact ⟨L, hs.goto hpc ⟨rfl, rfl, rfl, .inl rfl⟩ rfl trivial⟩
    · rfl
  | run t => exact hs.run t
  | launch t =>
    rw [Node.step]
    split
    · exact ⟨L, hs.launch ‹_› ‹_› (hfresh _ _ ‹_›)⟩
    · rfl
  | initReturn t ok =>
    rw [Node.step]
    split
    · exact ⟨L, hs.initReturn ‹_› ok⟩
    · rfl
  | callback t cb =>
    rw [Node.step]
    cases hrun : running (s.thread t) with
    | none => rfl
    | some c =>
      obtain ⟨x, hx, -⟩ := hs.counted.ctx_of_refs (mem_refs_of_running hrun)
      simp only [hx]
      exact ⟨L, hs.callback hx⟩
  | send t handle msg =>
    rw [Node.step]
    split
    · exact hs.handleGrab ‹_› ⟨rfl, rfl, rfl, .inl rfl⟩ rfl trivial
        (fun c => ⟨rfl, rfl, rfl, rfl⟩) rfl fun _ _ => trivial
    · rfl
  | retire t handle =>
    rw [Node.step]
    split
    · rename_i hpc
      exact ⟨L, hs.handleRetire hpc rfl rfl rfl rfl trivial fun _ _ _ _ h => nomatch h⟩
    · rfl
  | grab t handle =>
    rw [Node.step]
    split
    · exact hs.handleGrab ‹_› ⟨rfl, rfl, rfl, .inl rfl⟩ rfl trivial
        (fun c => ⟨rfl, rfl, rfl, rfl⟩) rfl fun _ _ => trivial
    · rfl
  | reserve t u =>
    rw [Node.step]
    split
    · rename_i c hpc hrun
      obtain ⟨x, hx, hpos⟩ := hs.counted.ctx_of_refs (mem_refs_of_running hrun)
      exact hs.contextGrab hpc hx hpos rfl rfl rfl rfl rfl trivial
    · rfl
  | heldPush t msg =>
    rw [Node.step]
    split
    · exact hs.mqPush ‹_› mem_cons_self ⟨rfl, rfl, rfl, .inl rfl⟩ rfl fun _ _ => trivial
    · rfl
  | heldRelease t =>
    rw [Node.step]
    split
    · rename_i hpc
      exact ⟨L, hs.goto hpc ⟨rfl, rfl, rfl, .inl rfl⟩ rfl trivial⟩
    · rfl

/-! ### Ownership and delivery -/

theorem Inv.next (hs : ∃ L, s.Inv harbor L) {a : NodeAct Tid} {s' : Node Tid}
    (hfresh : s.FreshHandle a) (hnext : s.next a = some s') : ∃ L, s'.Inv harbor L := by
  obtain ⟨L, hs⟩ := hs
  have hgood := hs.step hfresh
  rw [Node.next] at hnext
  cases hstep : s.step a with
  | error e =>
    rw [hstep] at hnext
    cases hnext
  | ok s'' =>
    rw [hstep] at hnext hgood
    cases hnext
    exact hgood

/-- Every run in which handles are not recycled keeps the invariant. -/
theorem inv_of_run {acts : List (NodeAct Tid)}
    (hrun : Run next FreshHandle (init Tid harbor) acts s) : ∃ L, s.Inv harbor L :=
  hrun.invariant ⟨[], inv_init harbor⟩ fun hfresh hnext hs => Inv.next hs hfresh hnext

/-- The context that a worker is dispatching. -/
def dispatching : Pc → Option CtxId
  | .pop _ c _ _ _ => some c
  | .length _ c _ _ => some c
  | .call _ c _ _ _ _ => some c
  | .calling _ c _ _ _ => some c
  | .yield _ c => some c
  | _ => none

omit [Fintype Tid] [DecidableEq Tid] in
theorem serving_of_dispatching {ctx : CtxId → Option Context}
    {mq : QueueId → Option MessageQueue} (hok : PcOk ctx mq p) (h : dispatching p = some c) :
    ∃ q ∈ p.owned, Serving ctx q c := by
  cases p with
  | pop q d weight i n => cases h; exact ⟨q, by simp [Pc.owned], hok⟩
  | length q d weight msg => cases h; exact ⟨q, by simp [Pc.owned], hok⟩
  | call q d weight i n msg => cases h; exact ⟨q, by simp [Pc.owned], hok⟩
  | calling q d weight i n => cases h; exact ⟨q, by simp [Pc.owned], hok⟩
  | yield q d => cases h; exact ⟨q, by simp [Pc.owned], hok⟩
  | _ => cases h

/-- Who owns the queues in one state, and what follows from it for the next step. -/
structure Ownership (s : Node Tid) : Prop where
  /-- The global queue is a list, every queue is in it at most once, and the list and the
  threads together own it at most once. -/
  one_owner : ∃ L, Linked s.queues.next s.queues.head s.queues.tail L ∧
    ∀ q, L.count q ≤ 1 ∧ ownTotal L s.thread q ≤ 1 ∧
      (s.queues.mq q = none → ownTotal L s.thread q = 0)
  /-- No two workers dispatch the same service. -/
  one_worker : ∀ t u c, dispatching (s.thread t) = some c → dispatching (s.thread u) = some c →
    t = u
  /-- No assertion fails in the next step and no freed queue or context is used by it. -/
  no_fault : ∀ a, s.FreshHandle a → ∀ e, s.step a = .error e → e = .disabled

theorem Inv.ownership (hs : s.Inv harbor L) : s.Ownership := by
  refine ⟨⟨L, hs.owned.global.linked, fun q => ⟨?_, ?_, fun hq => ?_⟩⟩, fun t u c ht hu => ?_,
    fun a hfresh e he => ?_⟩
  · exact nodup_iff_count_le_one.mp hs.owned.global.nodup q
  · rw [hs.owned.own]
    exact ownDue_le_one _
  · rw [hs.owned.own, hq]
    rfl
  · obtain ⟨q, hq, x, hx, rfl, -⟩ := serving_of_dispatching (hs.ready.pc_ok t) ht
    obtain ⟨q', hq', y, hy, rfl, -⟩ := serving_of_dispatching (hs.ready.pc_ok u) hu
    obtain rfl : x = y := some.inj (hx.symm.trans hy)
    exact hs.owned.eq_of_owned hq hq'
  · have hgood := hs.step hfresh
    rw [he] at hgood
    exact hgood

/-- For every number of threads and every interleaving in which handles are not recycled, a
queue has at most one owner in every state that is reached, no two workers dispatch the same
service, and no assertion of the scheduler fails. -/
theorem scheduler_ownership (Tid : Type) [Fintype Tid] [DecidableEq Tid] (harbor : ℕ)
    (acts : List (NodeAct Tid)) (s : Node Tid)
    (hrun : Run next FreshHandle (init Tid harbor) acts s) : s.Ownership := by
  obtain ⟨L, hs⟩ := inv_of_run hrun
  exact hs.ownership

/-- A launch by one thread. -/
theorem scheduler_ownership_launch : ∃ acts s,
    Run next FreshHandle (init (Fin 2) 1) acts s ∧ s.Ownership := by
  have hrun : Run next FreshHandle (init (Fin 2) 1)
      ([] ++ [.launch 0] ++ [.initReturn 0 true] ++ [.run 0] ++ [.run 0] ++ [.run 0]) _ :=
    (((((Run.nil _).snoc (fun _ _ _ _ _ h => nomatch h) rfl).snoc trivial rfl).snoc trivial
      rfl).snoc trivial rfl).snoc trivial rfl
  exact ⟨_, _, hrun, scheduler_ownership _ _ _ _ hrun⟩

/-- The messages of the queues in one state. -/
structure Delivery (s : Node Tid) : Prop where
  /-- A queue with messages is in the global queue or held by a thread. -/
  scheduled : ∃ L, Linked s.queues.next s.queues.head s.queues.tail L ∧
    ∀ q m, s.queues.mq q = some m → m.contents ≠ [] → q ∈ L ∨ ∃ t, q ∈ (s.thread t).owned
  /-- The messages pushed are, in this order, those delivered, freed or dropped, at most one
  that a thread has just popped, and those in the queue. -/
  once : ∀ q, ∃ inHand : List UbossMessage,
    s.sent q = (s.fate q).map Prod.fst ++ inHand ++ contentsOf (s.queues.mq q) ∧
      inHand.length ≤ 1 ∧ ∀ msg ∈ inHand, ∃ t, (s.thread t).msg = some (q, msg)

omit [DecidableEq Tid] in
theorem Inv.delivery (hs : s.Inv harbor L) : s.Delivery := by
  refine ⟨⟨L, hs.owned.global.linked, fun q m hm hne => ?_⟩, fun q => ?_⟩
  · by_contra hno
    rw [not_or, not_exists] at hno
    obtain ⟨hL, hthread⟩ := hno
    -- without an owner the queue is not scheduled, and then it is empty
    have hzero : ownTotal L s.thread q = 0 := by
      rw [ownTotal, count_eq_zero_of_not_mem hL, Nat.zero_add]
      exact Finset.sum_eq_zero fun t _ => count_eq_zero_of_not_mem (hthread t)
    rw [hs.owned.own, hm, ownDue] at hzero
    split_ifs at hzero with hflag
    rw [not_or] at hflag
    exact hne (hs.fifo.empty q m hm (by simpa using hflag.1))
  · by_cases hand : ∃ t msg, (s.thread t).msg = some (q, msg)
    · obtain ⟨t, msg, ht⟩ := hand
      refine ⟨[msg], ?_, le_rfl, fun msg' hmem => ⟨t, ?_⟩⟩
      · rw [hs.fifo.inHand t q msg ht, append_assoc]
        rfl
      · rw [mem_singleton.mp hmem, ht]
    · push Not at hand
      refine ⟨[], ?_, Nat.zero_le _, fun _ h => absurd h not_mem_nil⟩
      rw [append_nil]
      exact hs.fifo.atRest q hand

end Uboss.Core.Node
