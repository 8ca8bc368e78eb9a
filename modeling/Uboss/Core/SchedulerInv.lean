import Uboss.Core.SchedulerCount

/-!
# The invariant of the scheduler

Beside the counts of references and owners, the invariant says which context belongs to
which queue, what a thread may rely on where it is, and that the messages of a queue are
those pushed less those removed.
-/

namespace Uboss.Core

open Math Function List Option

/-! ### Contexts and their queues -/

/-- The queue of a context exists, is not marked for release and carries its handle; queues
are not shared and have different handles. -/
structure Bound (handleOf : CtxId → ℕ) (ctx : CtxId → Option Context)
    (mq : QueueId → Option MessageQueue) (nextQueue : QueueId) : Prop where
  lt_next : ∀ q m, mq q = some m → q < nextQueue
  queue : ∀ c x, ctx c = some x →
    ∃ m, mq x.queue = some m ∧ m.release = false ∧ m.handle = handleOf c
  queue_inj : ∀ c d x y, ctx c = some x → ctx d = some y → x.queue = y.queue → c = d
  handle_inj : ∀ p q m n, mq p = some m → mq q = some n → m.handle = n.handle → p = q

namespace Bound

variable {handleOf : CtxId → ℕ} {ctx : CtxId → Option Context}
  {mq : QueueId → Option MessageQueue} {nextQueue q : QueueId} {c : CtxId} {x y : Context}
  {m m' : MessageQueue}

theorem setCtx (h : Bound handleOf ctx mq nextQueue) (hx : ctx c = some x)
    (hy : y.queue = x.queue) : Bound handleOf (update ctx c (some y)) mq nextQueue := by
  have hold : ∀ d z, update ctx c (some y) d = some z →
      ∃ z', ctx d = some z' ∧ z'.queue = z.queue := by
    intro d z hz
    rcases update_some_eq_some_iff.mp hz with ⟨rfl, rfl⟩ | ⟨-, hz⟩
    · exact ⟨x, hx, hy.symm⟩
    · exact ⟨z, hz, rfl⟩
  refine ⟨h.lt_next, fun d z hz => ?_, fun d e z w hz hw hzw => ?_, h.handle_inj⟩
  · obtain ⟨z', hz', hqueue⟩ := hold d z hz
    rw [← hqueue]
    exact h.queue d z' hz'
  · obtain ⟨z', hz', hqueue⟩ := hold d z hz
    obtain ⟨w', hw', hqueue'⟩ := hold e w hw
    exact h.queue_inj d e z' w' hz' hw' (by rw [hqueue, hqueue', hzw])

/-- A change of a queue that keeps its handle, as far as the queues alone are concerned. -/
theorem mq_of_update (hq : mq q = some m) (hhandle : m'.handle = m.handle) {p : QueueId}
    {n : MessageQueue} (hn : update mq q (some m') p = some n) :
    ∃ n', mq p = some n' ∧ n'.handle = n.handle := by
  rcases update_some_eq_some_iff.mp hn with ⟨rfl, rfl⟩ | ⟨-, hn⟩
  · exact ⟨m, hq, hhandle.symm⟩
  · exact ⟨n, hn, rfl⟩

variable (h : Bound handleOf ctx mq nextQueue)
include h

/-- A change of a queue that keeps its handle, and the flag if the queue has a context. -/
theorem setMq (hq : mq q = some m) (hhandle : m'.handle = m.handle)
    (hrelease : ∀ c x, ctx c = some x → x.queue = q → m'.release = m.release) :
    Bound handleOf ctx (update mq q (some m')) nextQueue := by
  refine ⟨fun p n hn => ?_, fun d z hz => ?_, h.queue_inj, fun p p' n n' hn hn' heq => ?_⟩
  · obtain ⟨n', hn', -⟩ := mq_of_update hq hhandle hn
    exact h.lt_next p n' hn'
  · obtain ⟨n, hn, hrel, hhan⟩ := h.queue d z hz
    by_cases hp : z.queue = q
    · have hsame := hrelease d z hz hp
      rw [hp] at hn ⊢
      obtain rfl : m = n := some.inj (hq.symm.trans hn)
      exact ⟨m', update_self .., hsame.trans hrel, hhandle.trans hhan⟩
    · exact ⟨n, (update_of_ne hp ..).trans hn, hrel, hhan⟩
  · obtain ⟨k, hk, hke⟩ := mq_of_update hq hhandle hn
    obtain ⟨k', hk', hke'⟩ := mq_of_update hq hhandle hn'
    exact h.handle_inj p p' k k' hk hk' (by rw [hke, hke', heq])

theorem eraseCtx : Bound handleOf (update ctx c none) mq nextQueue := by
  have hold : ∀ d z, update ctx c none d = some z → ctx d = some z :=
    fun d z hz => (update_none_eq_some_iff.mp hz).2
  exact ⟨h.lt_next, fun d z hz => h.queue d z (hold d z hz),
    fun d e z w hz hw => h.queue_inj d e z w (hold d z hz) (hold e w hw), h.handle_inj⟩

theorem delete (hx : ctx c = some x) (hq : mq x.queue = some m) (hhandle : m'.handle = m.handle) :
    Bound handleOf (update ctx c none) (update mq x.queue (some m'))
      nextQueue := by
  refine h.eraseCtx.setMq hq hhandle fun d z hz heq => ?_
  obtain ⟨hd, hz⟩ := update_none_eq_some_iff.mp hz
  exact absurd (h.queue_inj d c z x hz hx heq) hd

theorem queue_ne_of_release (hq : mq q = some m) (hrelease : m.release = true)
    (hx : ctx c = some x) : x.queue ≠ q := by
  rintro rfl
  obtain ⟨n, hn, hrel, -⟩ := h.queue c x hx
  obtain rfl : m = n := some.inj (hq.symm.trans hn)
  exact absurd (hrel.symm.trans hrelease) Bool.false_ne_true

theorem free (hq : mq q = some m) (hrelease : m.release = true) :
    Bound handleOf ctx (update mq q none) nextQueue := by
  have hold : ∀ p n, update mq q none p = some n → mq p = some n :=
    fun p n hn => (update_none_eq_some_iff.mp hn).2
  refine ⟨fun p n hn => h.lt_next p n (hold p n hn), fun d z hz => ?_, h.queue_inj,
    fun p p' n n' hn hn' => h.handle_inj p p' n n' (hold p n hn) (hold p' n' hn')⟩
  obtain ⟨n, hn, hrel, hhan⟩ := h.queue d z hz
  have hne := h.queue_ne_of_release hq hrelease hz
  exact ⟨n, (update_of_ne hne ..).trans hn, hrel, hhan⟩

theorem nextQueue_eq_none : mq nextQueue = none := by
  cases hm : mq nextQueue with
  | none => rfl
  | some m => exact absurd (h.lt_next _ m hm) (lt_irrefl _)

/-- A new context with a new queue, under a handle that no queue carries. -/
theorem launch {handle : ℕ} (hc : ctx c = none) (hfresh : ∀ q m, mq q = some m → m.handle ≠ handle)
    (hx : x.queue = nextQueue) (hhandle : m.handle = handle) (hrelease : m.release = false) :
    Bound (update handleOf c handle) (update ctx c (some x))
      (update mq nextQueue (some m)) (nextQueue + 1) := by
  have hlt : ∀ d z, ctx d = some z → z.queue ≠ nextQueue := by
    intro d z hz heq
    obtain ⟨n, hn, -, -⟩ := h.queue d z hz
    exact absurd (h.lt_next _ n hn) (by simp [heq])
  refine ⟨fun p n hn => ?_, fun d z hz => ?_, fun d e z w hz hw heq => ?_,
    fun p p' n n' hn hn' heq => ?_⟩
  · rcases update_some_eq_some_iff.mp hn with ⟨rfl, -⟩ | ⟨-, hn⟩
    · exact Nat.lt_succ_self p
    · exact Nat.lt_succ_of_lt (h.lt_next p n hn)
  · rcases update_some_eq_some_iff.mp hz with ⟨rfl, rfl⟩ | ⟨hd, hz⟩
    · rw [hx]
      exact ⟨m, update_self .., hrelease, by rw [update_self, hhandle]⟩
    · obtain ⟨n, hn, hrel, hhan⟩ := h.queue d z hz
      refine ⟨n, (update_of_ne (hlt d z hz) ..).trans hn, hrel, ?_⟩
      rw [update_of_ne hd, hhan]
  · rcases update_some_eq_some_iff.mp hz with ⟨rfl, rfl⟩ | ⟨-, hd⟩ <;>
      rcases update_some_eq_some_iff.mp hw with ⟨rfl, rfl⟩ | ⟨-, he⟩
    · rfl
    · exact absurd (heq.symm.trans hx) (hlt e w he)
    · exact absurd (heq.trans hx) (hlt d z hd)
    · exact h.queue_inj d e z w hd he heq
  · rcases update_some_eq_some_iff.mp hn with ⟨rfl, rfl⟩ | ⟨-, hp⟩ <;>
      rcases update_some_eq_some_iff.mp hn' with ⟨rfl, rfl⟩ | ⟨-, hp'⟩
    · rfl
    · exact absurd (heq.symm.trans hhandle) (hfresh p' n' hp')
    · exact absurd (heq.trans hhandle) (hfresh p n hp)
    · exact h.handle_inj p p' n n' hp hp' heq

end Bound

/-! ### What the threads rely on -/

/-- The queue of a context that is still being prepared by the code after a call. -/
def Cont.preparing : Cont → Option QueueId
  | .failRetire q _ => some q
  | _ => none

/-- The queue of a context that a thread is still preparing: it may not be dispatched. -/
def Pc.preparing : Pc → Option QueueId
  | .init q _ => some q
  | .launched q _ => some q
  | .setInit q _ => some q
  | .failRetire q _ => some q
  | .release _ k => k.preparing
  | .delete _ k => k.preparing
  | _ => none

@[simp] theorem Cont.preparing_pc (k : Cont) : k.pc.preparing = k.preparing := by cases k <;> rfl

theorem Pc.mem_owned_of_preparing {p : Pc} {q : QueueId} (h : p.preparing = some q) :
    q ∈ p.owned := by
  cases p with
  | release c k => cases k <;> simp_all [Pc.preparing, Cont.preparing, Pc.owned, Cont.owned]
  | delete c k => cases k <;> simp_all [Pc.preparing, Cont.preparing, Pc.owned, Cont.owned]
  | _ => simp_all [Pc.preparing, Pc.owned]

section

variable (ctx : CtxId → Option Context) (mq : QueueId → Option MessageQueue)

/-- The queue is that of the context, which may be dispatched. -/
def Serving (q : QueueId) (c : CtxId) : Prop := ∃ x, ctx c = some x ∧ x.queue = q ∧ x.init = true

/-- The queue is marked for release. -/
def Released (q : QueueId) : Prop := ∃ m, mq q = some m ∧ m.release = true

/-- What the code after a call relies on. -/
def ContOk : Cont → Prop
  | .failRetire q handle => ∃ m, mq q = some m ∧ m.handle = handle
  | _ => True

/-- What a thread relies on. -/
def PcOk : Pc → Prop
  | .pop q c _ _ _ => Serving ctx q c
  | .length q c _ _ => Serving ctx q c
  | .call q c _ _ _ _ => Serving ctx q c
  | .calling q c _ _ _ => Serving ctx q c
  | .yield q c => Serving ctx q c
  | .mqRelease _ k => ContOk mq k
  | .drop q k => Released mq q ∧ ContOk mq k
  | .dropMsg q _ k => Released mq q ∧ ContOk mq k
  | .free q k => (∃ m, mq q = some m ∧ m.release = true ∧ m.contents = []) ∧ ContOk mq k
  | .release _ k => ContOk mq k
  | .delete _ k => ContOk mq k
  | .init q c => ∃ x, ctx c = some x ∧ x.queue = q
  | .launched q c => ∃ x, ctx c = some x ∧ x.queue = q
  | .setInit q c => ∀ d x, ctx d = some x → x.queue = q → d = c
  | .failRetire q handle => ∃ m, mq q = some m ∧ m.handle = handle
  | _ => True

end

theorem PcOk.cont {ctx : CtxId → Option Context} {mq : QueueId → Option MessageQueue} {k : Cont}
    (h : ContOk mq k) : PcOk ctx mq k.pc := by
  cases k <;> exact h

section

variable {ctx ctx' : CtxId → Option Context} {mq mq' : QueueId → Option MessageQueue} {p : Pc}

theorem ContOk.mono {k : Cont} (h : ContOk mq k)
    (hmq : ∀ q ∈ k.owned, ∀ m, mq q = some m → ∃ m', mq' q = some m' ∧ m'.handle = m.handle) :
    ContOk mq' k := by
  cases k with
  | failRetire q handle =>
    obtain ⟨m, hm, rfl⟩ := h
    exact hmq q (by simp [Cont.owned]) m hm
  | _ => trivial

/-- A thread keeps what it relies on, as long as the contexts it refers to stay and the
queues it holds are not touched once they are marked for release. -/
theorem PcOk.mono (h : PcOk ctx mq p) (hctx : ∀ c ∈ p.refs, ∀ x, ctx c = some x →
      ∃ x', ctx' c = some x' ∧ x'.queue = x.queue ∧ (x.init = true → x'.init = true))
    (hback : ∀ q ∈ p.owned, ∀ d x', ctx' d = some x' → x'.queue = q →
      ∃ x, ctx d = some x ∧ x.queue = q)
    (hmq : ∀ q ∈ p.owned, ∀ m, mq q = some m →
      ∃ m', mq' q = some m' ∧ m'.handle = m.handle ∧ (m.release = true → m' = m)) :
    PcOk ctx' mq' p := by
  have hserve : ∀ q c, c ∈ p.refs → Serving ctx q c → Serving ctx' q c := by
    rintro q c hc ⟨x, hx, hq, hinit⟩
    obtain ⟨x', hx', hqueue, hinit'⟩ := hctx c hc x hx
    exact ⟨x', hx', hqueue.trans hq, hinit' hinit⟩
  have hown : ∀ q c, c ∈ p.refs → (∃ x, ctx c = some x ∧ x.queue = q) →
      ∃ x, ctx' c = some x ∧ x.queue = q := by
    rintro q c hc ⟨x, hx, hq⟩
    obtain ⟨x', hx', hqueue, -⟩ := hctx c hc x hx
    exact ⟨x', hx', hqueue.trans hq⟩
  have hrel : ∀ q, q ∈ p.owned → Released mq q → Released mq' q := by
    rintro q hq ⟨m, hm, hrelease⟩
    obtain ⟨m', hm', -, hsame⟩ := hmq q hq m hm
    obtain rfl := hsame hrelease
    exact ⟨m', hm', hrelease⟩
  have hcont : ∀ k : Cont, (∀ q ∈ k.owned, q ∈ p.owned) → ContOk mq k → ContOk mq' k := by
    intro k hk hok
    refine hok.mono fun q hq m hm => ?_
    obtain ⟨m', hm', hhandle, -⟩ := hmq q (hk q hq) m hm
    exact ⟨m', hm', hhandle⟩
  cases p with
  | pop q c weight i n => exact hserve q c (by simp [Pc.refs]) h
  | length q c weight msg => exact hserve q c (by simp [Pc.refs]) h
  | call q c weight i n msg => exact hserve q c (by simp [Pc.refs]) h
  | calling q c weight i n => exact hserve q c (by simp [Pc.refs]) h
  | yield q c => exact hserve q c (by simp [Pc.refs]) h
  | mqRelease q k => exact hcont k (fun p hp => mem_cons_of_mem _ hp) h
  | drop q k =>
    exact ⟨hrel q (by simp [Pc.owned]) h.1, hcont k (fun p hp => mem_cons_of_mem _ hp) h.2⟩
  | dropMsg q msg k =>
    exact ⟨hrel q (by simp [Pc.owned]) h.1, hcont k (fun p hp => mem_cons_of_mem _ hp) h.2⟩
  | free q k =>
    obtain ⟨⟨m, hm, hrelease, hnil⟩, hk⟩ := h
    obtain ⟨m', hm', -, hsame⟩ := hmq q (by simp [Pc.owned]) m hm
    obtain rfl := hsame hrelease
    exact ⟨⟨m', hm', hrelease, hnil⟩, hcont k (fun p hp => mem_cons_of_mem _ hp) hk⟩
  | release c k => exact hcont k (fun p hp => hp) h
  | delete c k => exact hcont k (fun p hp => hp) h
  | init q c => exact hown q c (by simp [Pc.refs]) h
  | launched q c => exact hown q c (by simp [Pc.refs]) h
  | setInit q c =>
    intro d x hx hq
    obtain ⟨x', hx', hq'⟩ := hback q (by simp [Pc.owned]) d x hx hq
    exact h d x' hx' hq'
  | failRetire q handle => exact hcont (.failRetire q handle) (fun p hp => hp) h
  | _ => trivial

end

/-- Every thread has what it relies on, and a registered context that may not be dispatched
yet is being prepared by some thread. -/
structure Ready {Tid : Type} (r : Registry) (ctx : CtxId → Option Context)
    (mq : QueueId → Option MessageQueue) (pc : Tid → Pc) : Prop where
  pc_ok : ∀ t, PcOk ctx mq (pc t)
  init : ∀ c x, ctx c = some x → r.storage.Registered c →
    x.init = true ∨ ∃ t, (pc t).preparing = some x.queue

namespace Ready

variable {Tid : Type} {r r' : Registry} {ctx : CtxId → Option Context}
  {mq : QueueId → Option MessageQueue} {pc : Tid → Pc} {t : Tid} {p : Pc} {c : CtxId}
  {q : QueueId} {x y : Context} {m m' : MessageQueue}

theorem registry (h : Ready r ctx mq pc)
    (hreg : ∀ c, r'.storage.Registered c → r.storage.Registered c) : Ready r' ctx mq pc :=
  ⟨h.pc_ok, fun c x hx hc => h.init c x hx (hreg c hc)⟩

theorem setCtx (h : Ready r ctx mq pc) (hx : ctx c = some x) (hqueue : y.queue = x.queue)
    (hinit : x.init = true → y.init = true) :
    Ready r (update ctx c (some y)) mq pc := by
  refine ⟨fun u => (h.pc_ok u).mono (fun d _ z hz => ?_) (fun p _ d z hz hp => ?_)
    (fun p _ n hn => ⟨n, hn, rfl, fun _ => rfl⟩), fun d z hz hd => ?_⟩
  · by_cases hdc : d = c
    · subst hdc
      obtain rfl : x = z := some.inj (hx.symm.trans hz)
      exact ⟨y, update_self .., hqueue, hinit⟩
    · exact ⟨z, (update_of_ne hdc ..).trans hz, rfl, id⟩
  · rcases update_some_eq_some_iff.mp hz with ⟨rfl, rfl⟩ | ⟨-, hz⟩
    · exact ⟨x, hx, hqueue.symm.trans hp⟩
    · exact ⟨z, hz, hp⟩
  · rcases update_some_eq_some_iff.mp hz with ⟨rfl, rfl⟩ | ⟨-, hz⟩
    · rw [hqueue]
      exact (h.init d x hx hd).imp_left hinit
    · exact h.init d z hz hd

variable [DecidableEq Tid]

/-- After a step of the thread `t`: its new place, the other threads, and the contexts that
are still being prepared. -/
theorem move {ctx' : CtxId → Option Context} {mq' : QueueId → Option MessageQueue}
    (hok : PcOk ctx' mq' p) (hother : ∀ u, u ≠ t → PcOk ctx' mq' (pc u))
    (hinit : ∀ d x, ctx' d = some x → r'.storage.Registered d → x.init = true ∨
      (∃ u, u ≠ t ∧ (pc u).preparing = some x.queue) ∨ p.preparing = some x.queue) :
    Ready r' ctx' mq' (update pc t p) := by
  refine ⟨fun u => ?_, fun d x hx hd => ?_⟩
  · by_cases hu : u = t
    · rw [hu, update_self]
      exact hok
    · rw [update_of_ne hu]
      exact hother u hu
  · refine (hinit d x hx hd).imp_right ?_
    rintro (⟨u, hu, hprep⟩ | hprep)
    · exact ⟨u, by rw [update_of_ne hu, hprep]⟩
    · exact ⟨t, by rw [update_self, hprep]⟩

variable (h : Ready r ctx mq pc)
include h

/-- The contexts that are being prepared when `t` moves to `p`. If it stops preparing one,
that one may be dispatched. -/
theorem init_move (hprep : ∀ d x, ctx d = some x → r.storage.Registered d →
      (pc t).preparing = some x.queue → x.init = true ∨ p.preparing = some x.queue) (d : CtxId)
    (x : Context) (hx : ctx d = some x) (hd : r.storage.Registered d) :
    x.init = true ∨ (∃ u, u ≠ t ∧ (pc u).preparing = some x.queue) ∨
      p.preparing = some x.queue := by
  rcases h.init d x hx hd with hinit | ⟨u, hu⟩
  · exact .inl hinit
  · by_cases hut : u = t
    · subst hut
      exact (hprep d x hx hd hu).imp_right .inr
    · exact .inr (.inl ⟨u, hut, hu⟩)

theorem goto (hok : PcOk ctx mq p) (hprep : ∀ d x, ctx d = some x → r.storage.Registered d →
      (pc t).preparing = some x.queue → x.init = true ∨ p.preparing = some x.queue) :
    Ready r ctx mq (update pc t p) :=
  move hok (fun u _ => h.pc_ok u) (h.init_move hprep)

/-- A thread changes a queue and moves on. The others do not hold the queue, or it is not
marked for release. -/
theorem setMq (hq : mq q = some m) (hhandle : m'.handle = m.handle)
    (hother : ∀ u, u ≠ t → q ∈ (pc u).owned → m.release = true → m' = m)
    (hok : PcOk ctx (update mq q (some m')) p)
    (hprep : ∀ d x, ctx d = some x → r.storage.Registered d →
      (pc t).preparing = some x.queue → x.init = true ∨ p.preparing = some x.queue) :
    Ready r ctx (update mq q (some m')) (update pc t p) := by
  refine move hok (fun u hu => (h.pc_ok u).mono (fun d _ z hz => ⟨z, hz, rfl, id⟩)
    (fun p _ d z hz hp => ⟨z, hz, hp⟩) fun p hp n hn => ?_) (h.init_move hprep)
  by_cases hpq : p = q
  · subst hpq
    obtain rfl : m = n := some.inj (hq.symm.trans hn)
    exact ⟨m', update_self .., hhandle, hother u hu hp⟩
  · exact ⟨n, (update_of_ne hpq ..).trans hn, rfl, fun _ => rfl⟩

/-- `delete_context`, when nothing refers to the context any more. -/
theorem delete (hc : ∀ u, c ∉ (pc u).refs) (hreg : ¬ r.storage.Registered c) (hq : mq q = some m)
    (hhandle : m'.handle = m.handle) (hrelease : m.release = false)
    (hok : PcOk (update ctx c none) (update mq q (some m')) p)
    (hprep : (pc t).preparing = p.preparing) :
    Ready r (update ctx c none) (update mq q (some m')) (update pc t p) := by
  refine move hok (fun u _ => (h.pc_ok u).mono (fun d hd z hz => ?_) (fun p _ d z hz hp => ?_)
    fun p _ n hn => ?_) fun d x hx hd => ?_
  · have hdc : d ≠ c := by
      rintro rfl
      exact hc u hd
    exact ⟨z, (update_of_ne hdc ..).trans hz, rfl, id⟩
  · exact ⟨z, (update_none_eq_some_iff.mp hz).2, hp⟩
  · by_cases hpq : p = q
    · subst hpq
      obtain rfl : m = n := some.inj (hq.symm.trans hn)
      exact ⟨m', update_self .., hhandle, fun hrel => by simp [hrelease] at hrel⟩
    · exact ⟨n, (update_of_ne hpq ..).trans hn, rfl, fun _ => rfl⟩
  · exact h.init_move (fun d x _ _ hp => .inr (hprep ▸ hp)) d x (update_none_eq_some_iff.mp hx).2 hd

theorem free (hq : ∀ u, u ≠ t → q ∉ (pc u).owned) (hok : PcOk ctx (update mq q none) p)
    (hprep : (pc t).preparing = none) : Ready r ctx (update mq q none) (update pc t p) := by
  refine move hok (fun u hu => (h.pc_ok u).mono (fun d _ z hz => ⟨z, hz, rfl, id⟩)
    (fun p _ d z hz hp => ⟨z, hz, hp⟩) fun p hp n hn => ?_)
    (h.init_move fun d x _ _ hp => by rw [hprep] at hp; cases hp)
  have hpq : p ≠ q := by
    rintro rfl
    exact hq u hu hp
  exact ⟨n, (update_of_ne hpq ..).trans hn, rfl, fun _ => rfl⟩

theorem launch (hc : ctx c = none) (hq : mq q = none) (hother : ∀ u, q ∉ (pc u).owned)
    (hx : x.queue = q) (hreg : ∀ d, r'.storage.Registered d → d = c ∨ r.storage.Registered d)
    (hold : (pc t).preparing = none) :
    Ready r' (update ctx c (some x)) (update mq q (some m)) (update pc t (.init q c)) := by
  refine move ⟨x, update_self .., hx⟩ (fun u _ => (h.pc_ok u).mono (fun d _ z hz => ?_)
    (fun p hp d z hz hzp => ?_) fun p _ n hn => ?_) fun d z hz hd => ?_
  · have hdc : d ≠ c := by
      rintro rfl
      rw [hc] at hz
      cases hz
    exact ⟨z, (update_of_ne hdc ..).trans hz, rfl, id⟩
  · rcases update_some_eq_some_iff.mp hz with ⟨rfl, rfl⟩ | ⟨-, hz⟩
    · exact absurd (hzp.symm.trans hx ▸ hp) (hother u)
    · exact ⟨z, hz, hzp⟩
  · have hpq : p ≠ q := by
      rintro rfl
      rw [hq] at hn
      cases hn
    exact ⟨n, (update_of_ne hpq ..).trans hn, rfl, fun _ => rfl⟩
  · rcases update_some_eq_some_iff.mp hz with ⟨rfl, rfl⟩ | ⟨hdc, hz⟩
    · exact .inr (.inr (congrArg some hx.symm))
    · exact h.init_move (fun d x _ _ hp => by rw [hold] at hp; cases hp) d z hz
        ((hreg d hd).resolve_left hdc)

end Ready

/-! ### The messages -/

/-- The message that a thread has taken from a queue and not yet disposed of. -/
def Pc.msg : Pc → Option (QueueId × UbossMessage)
  | .length q _ _ msg => some (q, msg)
  | .call q _ _ _ _ msg => some (q, msg)
  | .dropMsg q msg _ => some (q, msg)
  | _ => none

@[simp] theorem Cont.msg_pc (k : Cont) : k.pc.msg = none := by cases k <;> rfl

theorem Pc.mem_owned_of_msg {p : Pc} {q : QueueId} {msg : UbossMessage}
    (h : p.msg = some (q, msg)) : q ∈ p.owned := by
  cases p <;> simp_all [Pc.msg, Pc.owned]

/-- The messages in a queue; a freed queue has none. -/
def contentsOf : Option MessageQueue → List UbossMessage
  | none => []
  | some m => m.contents

/-- A queue that is not scheduled is empty, and what was pushed into a queue is what was
removed from it, the message that a thread has in hand, and what is still there. -/
structure Fifo {Tid : Type} (mq : QueueId → Option MessageQueue) (pc : Tid → Pc)
    (sent : QueueId → List UbossMessage) (fate : QueueId → List (UbossMessage × Fate)) :
    Prop where
  empty : ∀ q m, mq q = some m → m.inGlobal = false → m.contents = []
  inHand : ∀ t q msg, (pc t).msg = some (q, msg) →
    sent q = (fate q).map Prod.fst ++ msg :: contentsOf (mq q)
  atRest : ∀ q, (∀ t msg, (pc t).msg ≠ some (q, msg)) →
    sent q = (fate q).map Prod.fst ++ contentsOf (mq q)

namespace Fifo

variable {Tid : Type} {mq : QueueId → Option MessageQueue} {pc : Tid → Pc} {t : Tid} {p : Pc}
  {sent : QueueId → List UbossMessage} {fate : QueueId → List (UbossMessage × Fate)}
  {q : QueueId} {m m' : MessageQueue} {msg : UbossMessage}

theorem setMq {o : Option MessageQueue} (h : Fifo mq pc sent fate)
    (hcontents : contentsOf o = contentsOf (mq q))
    (hempty : ∀ m, o = some m → m.inGlobal = false → m.contents = []) :
    Fifo (update mq q o) pc sent fate := by
  have hsame : ∀ p, contentsOf (update mq q o p) = contentsOf (mq p) := by
    intro p
    by_cases hp : p = q
    · rw [hp, update_self, hcontents]
    · rw [update_of_ne hp]
  refine ⟨fun p n hn hglobal => ?_, fun u p msg hu => ?_, fun p hp => ?_⟩
  · rcases update_eq_some_iff.mp hn with ⟨-, ho⟩ | ⟨-, hn⟩
    · exact hempty n ho hglobal
    · exact h.empty p n hn hglobal
  · rw [hsame]
    exact h.inHand u p msg hu
  · rw [hsame]
    exact h.atRest p hp

theorem push (h : Fifo mq pc sent fate) (hq : mq q = some m)
    (hcontents : m'.contents = m.contents ++ [msg])
    (hglobal : m'.inGlobal = true) :
    Fifo (update mq q (some m')) pc (update sent q (sent q ++ [msg])) fate := by
  refine ⟨fun p n hn hfalse => ?_, fun u p msg' hu => ?_, fun p hp => ?_⟩
  · rcases update_some_eq_some_iff.mp hn with ⟨-, rfl⟩ | ⟨-, hn⟩
    · exact absurd (hfalse.symm.trans hglobal) Bool.false_ne_true
    · exact h.empty p n hn hfalse
  · have hold := h.inHand u p msg' hu
    by_cases hpq : p = q
    · subst hpq
      rw [hq] at hold
      rw [update_self, update_self, hold]
      simp [contentsOf, hcontents]
    · rwa [update_of_ne hpq, update_of_ne hpq]
  · have hold := h.atRest p hp
    by_cases hpq : p = q
    · subst hpq
      rw [hq] at hold
      rw [update_self, update_self, hold]
      simp [contentsOf, hcontents]
    · rwa [update_of_ne hpq, update_of_ne hpq]

variable [DecidableEq Tid]

variable (h : Fifo mq pc sent fate)
include h

theorem goto (hmsg : p.msg = (pc t).msg) : Fifo mq (update pc t p) sent fate := by
  have hsame : ∀ u, (update pc t p u).msg = (pc u).msg := by
    intro u
    by_cases hu : u = t
    · rw [hu, update_self, hmsg]
    · rw [update_of_ne hu]
  refine ⟨h.empty, fun u q msg hu => h.inHand u q msg (hsame u ▸ hu), fun q hq => ?_⟩
  exact h.atRest q fun u msg => hsame u ▸ hq u msg

/-- `uboss_mq_pop`: the message goes to the thread, which is the only one at the queue. -/
theorem pop (hq : mq q = some m) (hcontents : m.contents = msg :: m'.contents)
    (hglobal : m'.inGlobal = m.inGlobal) (hold : (pc t).msg = none) (hnew : p.msg = some (q, msg))
    (hother : ∀ u, u ≠ t → ∀ msg, (pc u).msg ≠ some (q, msg)) :
    Fifo (update mq q (some m')) (update pc t p) sent fate := by
  have hnone : ∀ u msg, (pc u).msg ≠ some (q, msg) := by
    intro u msg
    by_cases hu : u = t
    · rw [hu, hold]
      simp
    · exact hother u hu msg
  have hrest := h.atRest q hnone
  rw [hq, contentsOf, hcontents] at hrest
  refine ⟨fun p n hn hfalse => ?_, fun u p' msg' hu => ?_, fun p' hp' => ?_⟩
  · rcases update_some_eq_some_iff.mp hn with ⟨-, rfl⟩ | ⟨-, hn⟩
    · have hnil := h.empty q m hq (hglobal ▸ hfalse)
      rw [hcontents] at hnil
      cases hnil
    · exact h.empty p n hn hfalse
  · by_cases hut : u = t
    · rw [hut, update_self, hnew] at hu
      cases hu
      rw [update_self]
      exact hrest
    · rw [update_of_ne hut] at hu
      have hpq : p' ≠ q := by
        rintro rfl
        exact hnone u msg' hu
      rw [update_of_ne hpq]
      exact h.inHand u p' msg' hu
  · have hpq : p' ≠ q := by
      rintro rfl
      exact hp' t msg (by rw [update_self, hnew])
    rw [update_of_ne hpq]
    refine h.atRest p' fun u msg' => ?_
    by_cases hut : u = t
    · rw [hut, hold]
      simp
    · have := hp' u msg'
      rwa [update_of_ne hut] at this

/-- The message in hand is handed to the callback, freed or dropped. -/
theorem settle {f : Fate} (hold : (pc t).msg = some (q, msg)) (hnew : p.msg = none)
    (hother : ∀ u, u ≠ t → ∀ msg, (pc u).msg ≠ some (q, msg)) :
    Fifo mq (update pc t p) sent (update fate q (fate q ++ [(msg, f)])) := by
  have hhand := h.inHand t q msg hold
  refine ⟨h.empty, fun u p' msg' hu => ?_, fun p' hp' => ?_⟩
  · have hut : u ≠ t := by
      rintro rfl
      rw [update_self, hnew] at hu
      cases hu
    rw [update_of_ne hut] at hu
    have hpq : p' ≠ q := by
      rintro rfl
      exact hother u hut msg' hu
    rw [update_of_ne hpq]
    exact h.inHand u p' msg' hu
  · by_cases hpq : p' = q
    · subst hpq
      rw [update_self, hhand, map_append, append_assoc]
      rfl
    · rw [update_of_ne hpq]
      refine h.atRest p' fun u msg' => ?_
      by_cases hut : u = t
      · rw [hut, hold]
        simp [Ne.symm hpq]
      · have := hp' u msg'
        rwa [update_of_ne hut] at this

end Fifo

/-! ### The whole invariant -/

namespace Node

variable {Tid : Type} [Fintype Tid]

/-- The invariant of a node whose global queue is the list `L`. -/
structure Inv (harbor : ℕ) (L : List QueueId) (s : Node Tid) : Prop where
  counted : Counted harbor s.registry s.ctx s.thread
  owned : Owned s.queues L s.thread
  bound : Bound s.registry.handleOf s.ctx s.queues.mq s.nextQueue
  ready : Ready s.registry s.ctx s.queues.mq s.thread
  fifo : Fifo s.queues.mq s.thread s.sent s.fate

/-- A step that is not enabled, or that leads to a state with the invariant: no assertion
fails and no freed memory is used. -/
def Good (harbor : ℕ) : Except SchedulerFault (Node Tid) → Prop
  | .ok s => ∃ L, s.Inv harbor L
  | .error e => e = .disabled

theorem inv_init (harbor : ℕ) : (init Tid harbor).Inv harbor [] := by
  refine ⟨⟨Registry.inv_init harbor, fun c => ?_, fun c => ?_, nofun⟩,
    ⟨Queues.globalList_init, fun q => ?_⟩, ⟨nofun, nofun, nofun, nofun⟩,
    ⟨fun _ => trivial, nofun⟩, ⟨nofun, nofun, fun _ _ => rfl⟩⟩
  · have hreg : ¬ (Registry.init harbor).storage.Registered c := by
      rintro ⟨i, -, h⟩
      cases h
    simp [refTotal, init, slotRef_of_not_registered hreg, Pc.refs, refField]
  · simp [deleteTotal, init, Pc.deletes, deleteDue]
  · simp [ownTotal, init, Pc.owned, ownDue, Queues.ubossMqInit]

end Node

end Uboss.Core
