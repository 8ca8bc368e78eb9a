import Uboss.Core.HandleSlots
import Uboss.Core.Scheduler
import Uboss.Math.ThreadSum

/-!
# Reference counts and ownership

What the threads of a node hold: references to contexts, the duty to delete a context, and
message queues. The reference count of a context is the number of its holders, and a queue
has one owner exactly while it is scheduled or marked for release. Neither is stored in the
program; both are sums over the threads, the slot array and the global queue.
-/

namespace Uboss.Core

open Math Function List Queues MessageQueue

/-- The queues that the code after a call still holds. -/
def Cont.owned : Cont → List QueueId
  | .between q => [q]
  | .failRetire q _ => [q]
  | .mqRelease q => [q]
  | .publish q => [q]
  | _ => []

namespace Pc

/-- The references to contexts that a thread holds. -/
def refs : Pc → List CtxId
  | .pop _ c _ _ _ => [c]
  | .length _ c _ _ => [c]
  | .call _ c _ _ _ _ => [c]
  | .calling _ c _ _ _ => [c]
  | .yield _ c => [c]
  | .pushBack _ _ c => [c]
  | .release c _ => [c]
  | .push c _ => [c]
  | .held c => [c]
  | .init _ c => [c]
  | .launched _ c => [c]
  | _ => []

/-- The contexts that a thread is about to free. -/
def deletes : Pc → List CtxId
  | .delete c _ => [c]
  | _ => []

/-- The queues that a thread holds. -/
def owned : Pc → List QueueId
  | .between q => [q]
  | .grab q _ => [q]
  | .pop q _ _ _ _ => [q]
  | .length q _ _ _ => [q]
  | .call q _ _ _ _ _ => [q]
  | .calling q _ _ _ _ => [q]
  | .yield q _ => [q]
  | .pushBack q nq _ => [q, nq]
  | .mqRelease q k => q :: k.owned
  | .drop q k => q :: k.owned
  | .dropMsg q _ k => q :: k.owned
  | .free q k => q :: k.owned
  | .release _ k => k.owned
  | .delete _ k => k.owned
  | .init q _ => [q]
  | .launched q _ => [q]
  | .setInit q _ => [q]
  | .publish q => [q]
  | .failRetire q _ => [q]
  | _ => []

end Pc

@[simp] theorem Cont.refs_pc (k : Cont) : k.pc.refs = [] := by cases k <;> rfl

@[simp] theorem Cont.deletes_pc (k : Cont) : k.pc.deletes = [] := by cases k <;> rfl

@[simp] theorem Cont.owned_pc (k : Cont) : k.pc.owned = k.owned := by cases k <;> rfl

section Totals

open Classical in
/-- The reference that the slot of a registered context is. -/
noncomputable def slotRef (r : Registry) (c : CtxId) : ℕ :=
  if r.storage.Registered c then 1 else 0

theorem slotRef_of_registered {r : Registry} {c : CtxId} (h : r.storage.Registered c) :
    slotRef r c = 1 := if_pos h

theorem slotRef_of_not_registered {r : Registry} {c : CtxId} (h : ¬ r.storage.Registered c) :
    slotRef r c = 0 := if_neg h

theorem slotRef_congr {r r' : Registry} {c : CtxId}
    (h : r'.storage.Registered c ↔ r.storage.Registered c) : slotRef r' c = slotRef r c := by
  by_cases hc : r.storage.Registered c
  · rw [slotRef_of_registered hc, slotRef_of_registered (h.mpr hc)]
  · rw [slotRef_of_not_registered hc, slotRef_of_not_registered fun h' => hc (h.mp h')]

variable {Tid : Type} [Fintype Tid]

/-- The number of references to a context: its slot and the threads that hold it. -/
noncomputable def refTotal (r : Registry) (pc : Tid → Pc) (c : CtxId) : ℕ :=
  slotRef r c + ∑ t, (pc t).refs.count c

/-- The number of threads that are about to free a context. -/
def deleteTotal (pc : Tid → Pc) (c : CtxId) : ℕ := ∑ t, (pc t).deletes.count c

/-- The number of owners of a queue: its places in the global queue and the threads that
hold it. -/
def ownTotal (L : List QueueId) (pc : Tid → Pc) (q : QueueId) : ℕ :=
  L.count q + ∑ t, (pc t).owned.count q

variable (r : Registry) (L L' : List QueueId) (pc : Tid → Pc) (t : Tid)

theorem count_refs_le (c : CtxId) : (pc t).refs.count c ≤ refTotal r pc c :=
  (le_sum_thread (fun p : Pc => p.refs.count c) pc t).trans (Nat.le_add_left ..)

theorem count_owned_le (q : QueueId) : L.count q + (pc t).owned.count q ≤ ownTotal L pc q :=
  Nat.add_le_add_left (le_sum_thread (fun p : Pc => p.owned.count q) pc t) _

variable [DecidableEq Tid] (p : Pc)

theorem refTotal_update (c : CtxId) : refTotal r (update pc t p) c + (pc t).refs.count c =
      refTotal r pc c + p.refs.count c := by
  have := sum_update_add (fun p : Pc => p.refs.count c) pc t p
  unfold refTotal
  omega

theorem deleteTotal_update (c : CtxId) : deleteTotal (update pc t p) c + (pc t).deletes.count c =
      deleteTotal pc c + p.deletes.count c :=
  sum_update_add (fun p : Pc => p.deletes.count c) pc t p

theorem ownTotal_update (q : QueueId) :
    ownTotal L' (update pc t p) q + L.count q + (pc t).owned.count q =
      ownTotal L pc q + L'.count q + p.owned.count q := by
  have := sum_update_add (fun p : Pc => p.owned.count q) pc t p
  unfold ownTotal
  omega

end Totals

/-! ### Reference counts -/

/-- The field `ref` of a context, 0 when it is freed. -/
def refField : Option Context → ℕ
  | none => 0
  | some x => x.ref

/-- A context whose count is 0 has one thread that frees it. -/
def deleteDue : Option Context → ℕ
  | none => 0
  | some x => if x.ref = 0 then 1 else 0

/-- The reference counts are the numbers of references. -/
structure Counted {Tid : Type} [Fintype Tid] (harbor : ℕ) (r : Registry)
    (ctx : CtxId → Option Context) (pc : Tid → Pc) : Prop where
  registry : r.Inv harbor
  ref : ∀ c, refTotal r pc c = refField (ctx c)
  delete : ∀ c, deleteTotal pc c = deleteDue (ctx c)
  lt_next : ∀ c x, ctx c = some x → c < r.next

namespace Counted

variable {Tid : Type} [Fintype Tid] {harbor : ℕ} {r : Registry}
  {ctx : CtxId → Option Context} {pc : Tid → Pc} {t : Tid} {p : Pc} {c : CtxId} {x : Context}

section

variable (h : Counted harbor r ctx pc)
include h

theorem ctx_of_refs (hc : c ∈ (pc t).refs) : ∃ x, ctx c = some x ∧ 0 < x.ref := by
  have hle := count_refs_le r pc t c
  have hpos := count_pos_iff.mpr hc
  have href := h.ref c
  cases hx : ctx c with
  | none =>
    rw [hx, refField] at href
    omega
  | some x =>
    rw [hx, refField] at href
    exact ⟨x, rfl, by omega⟩

theorem ctx_of_registered (hc : r.storage.Registered c) : ∃ x, ctx c = some x ∧ 0 < x.ref := by
  have href := h.ref c
  rw [refTotal, slotRef_of_registered hc] at href
  cases hx : ctx c with
  | none =>
    rw [hx, refField] at href
    omega
  | some x =>
    rw [hx, refField] at href
    exact ⟨x, rfl, by omega⟩

theorem of_deletes (hc : (pc t).deletes = [c]) :
    ∃ x, ctx c = some x ∧ x.ref = 0 ∧ deleteTotal pc c = 1 ∧ refTotal r pc c = 0 := by
  have hle := le_sum_thread (fun p : Pc => p.deletes.count c) pc t
  have hdel := h.delete c
  have href := h.ref c
  simp only [hc, count_singleton_self] at hle
  unfold deleteTotal at *
  cases hx : ctx c with
  | none =>
    rw [hx, deleteDue] at hdel
    omega
  | some x =>
    rw [hx, deleteDue] at hdel
    rw [hx, refField] at href
    split_ifs at hdel with h0
    · exact ⟨x, rfl, h0, hdel, href.trans h0⟩
    · omega

theorem not_registered_of_deletes (hc : (pc t).deletes = [c]) : ¬ r.storage.Registered c := by
  obtain ⟨x, -, -, -, href⟩ := h.of_deletes hc
  intro hreg
  rw [refTotal, slotRef_of_registered hreg] at href
  omega

theorem next_eq_none : ctx r.next = none := by
  cases hx : ctx r.next with
  | none => rfl
  | some x => exact absurd (h.lt_next _ x hx) (lt_irrefl _)

theorem setCtx {y : Context} (hx : ctx c = some x) (hy : y.ref = x.ref) :
    Counted harbor r (update ctx c (some y)) pc := by
  refine ⟨h.registry, fun d => ?_, fun d => ?_, fun d z hz => ?_⟩
  · rw [h.ref]
    by_cases hd : d = c
    · rw [hd, update_self, hx, refField, refField, hy]
    · rw [update_of_ne hd]
  · rw [h.delete]
    by_cases hd : d = c
    · rw [hd, update_self, hx, deleteDue, deleteDue, hy]
    · rw [update_of_ne hd]
  · by_cases hd : d = c
    · exact hd ▸ h.lt_next c x hx
    · exact h.lt_next d z (by rwa [update_of_ne hd] at hz)

theorem retire_none {handle : ℕ} (hgrab : r.grab handle = none) :
    Counted harbor (r.retire handle) ctx pc := by
  refine ⟨h.registry.retire_step handle, fun c => ?_, h.delete, h.lt_next⟩
  rw [← h.ref, refTotal, refTotal, slotRef_congr]
  rw [h.registry.retire_registered, hgrab]
  simp

end

variable [DecidableEq Tid]

variable (h : Counted harbor r ctx pc)
include h

theorem goto (hrefs : p.refs = (pc t).refs) (hdeletes : p.deletes = (pc t).deletes) :
    Counted harbor r ctx (update pc t p) := by
  refine ⟨h.registry, fun c => ?_, fun c => ?_, h.lt_next⟩
  · rw [← h.ref]
    have := refTotal_update r pc t p c
    rw [hrefs] at this
    omega
  · rw [← h.delete]
    have := deleteTotal_update pc t p c
    rw [hdeletes] at this
    omega

/-- A thread, the count of a context and its slot change together. -/
theorem change {r' : Registry} {o : Option Context} (c : CtxId) (hr : r'.Inv harbor)
    (hle : r.next ≤ r'.next) (hnext : ∀ x, o = some x → c < r'.next)
    (href : refField o + slotRef r c + (pc t).refs.count c =
      refField (ctx c) + slotRef r' c + p.refs.count c)
    (hdelete : deleteDue o + (pc t).deletes.count c = deleteDue (ctx c) + p.deletes.count c)
    (hother : ∀ d ≠ c, slotRef r' d = slotRef r d ∧ p.refs.count d = (pc t).refs.count d ∧
      p.deletes.count d = (pc t).deletes.count d) :
    Counted harbor r' (update ctx c o) (update pc t p) := by
  refine ⟨hr, fun d => ?_, fun d => ?_, fun d x hd => ?_⟩
  · have hd := h.ref d
    have hsum := sum_update_add (fun p : Pc => p.refs.count d) pc t p
    rw [refTotal] at hd ⊢
    by_cases hdc : d = c
    · subst hdc
      rw [update_self]
      omega
    · obtain ⟨hslot, hcount, -⟩ := hother d hdc
      rw [update_of_ne hdc, hslot]
      omega
  · have hd := h.delete d
    have hsum := deleteTotal_update pc t p d
    by_cases hdc : d = c
    · subst hdc
      rw [update_self]
      omega
    · rw [update_of_ne hdc]
      have hcount := (hother d hdc).2.2
      omega
  · by_cases hdc : d = c
    · subst hdc
      exact hnext x (by rwa [update_self] at hd)
    · exact (h.lt_next d x (by rwa [update_of_ne hdc] at hd)).trans_le hle

theorem grab (hx : ctx c = some x) (hpos : 0 < x.ref) (hrefs : p.refs = c :: (pc t).refs)
    (hdeletes : p.deletes = (pc t).deletes) :
    Counted harbor r (update ctx c (some { x with ref := x.ref + 1 })) (update pc t p) := by
  refine h.change c h.registry (le_refl _) (fun _ _ => h.lt_next c x hx) ?_ ?_ fun d hd =>
    ⟨rfl, by rw [hrefs, count_cons_of_ne (Ne.symm hd)], by rw [hdeletes]⟩
  · rw [hx, hrefs, count_cons_self, refField, refField]
    dsimp only
    omega
  · rw [hx, hdeletes, deleteDue, deleteDue, if_neg (by simp), if_neg (by omega)]

/-- `uboss_handle_retire`: the reference of the slot goes to the thread. -/
theorem retire_some {handle : ℕ} (hgrab : r.grab handle = some c)
    (hrefs : p.refs = c :: (pc t).refs) (hdeletes : p.deletes = (pc t).deletes) :
    Counted harbor (r.retire handle) ctx (update pc t p) := by
  have hreg := ((Registry.grab_eq_some_iff_registered h.registry).mp hgrab).1
  have hslot := h.registry.retire_registered handle
  rw [← update_eq_self c ctx]
  refine h.change c (h.registry.retire_step handle) (le_refl _) (h.lt_next c) ?_
    (by rw [hdeletes]) fun d hd =>
    ⟨?_, by rw [hrefs, count_cons_of_ne (Ne.symm hd)], by rw [hdeletes]⟩
  · rw [hrefs, count_cons_self, slotRef_of_registered hreg,
      slotRef_of_not_registered fun h => ((hslot c).mp h).2 hgrab]
    omega
  · exact slotRef_congr ((hslot d).trans (and_iff_left (by simp [hgrab, Ne.symm hd])))

/-- `uboss_context_release`: the last reference makes the thread delete the context. -/
theorem release (hx : ctx c = some x) (hold : (pc t).refs = [c]) (hold' : (pc t).deletes = [])
    (hrefs : p.refs = []) (hdeletes : p.deletes = if x.ref - 1 = 0 then [c] else []) :
    Counted harbor r (update ctx c (some { x with ref := x.ref - 1 })) (update pc t p) := by
  obtain ⟨y, hy, hpos⟩ := h.ctx_of_refs (t := t) (c := c) (by simp [hold])
  obtain rfl : x = y := Option.some.inj (hx.symm.trans hy)
  refine h.change c h.registry (le_refl _) (fun _ _ => h.lt_next c x hx) ?_ ?_ fun d hd =>
    ⟨rfl, by rw [hrefs, hold, count_cons_of_ne (Ne.symm hd)], ?_⟩
  · rw [hx, hrefs, hold, count_singleton_self, count_nil, refField, refField]
    dsimp only
    omega
  · rw [hx, hold', hdeletes, deleteDue, deleteDue, if_neg hpos.ne']
    split_ifs
    · rw [count_singleton_self]
      rfl
    · rfl
  · rw [hdeletes, hold']
    split_ifs
    · exact count_cons_of_ne (Ne.symm hd)
    · rfl

theorem delete_context (hold : (pc t).deletes = [c]) (hrefs : p.refs = (pc t).refs)
    (hdeletes : p.deletes = []) : Counted harbor r (update ctx c none) (update pc t p) := by
  obtain ⟨x, hx, hzero, -⟩ := h.of_deletes hold
  refine h.change c h.registry (le_refl _) nofun ?_ ?_ fun d hd =>
    ⟨rfl, by rw [hrefs], by rw [hold, hdeletes, count_cons_of_ne (Ne.symm hd)]⟩
  · rw [hrefs, hx, refField, refField, hzero]
  · rw [hx, hold, hdeletes, count_singleton_self, deleteDue, deleteDue, if_pos hzero]
    rfl

/-- A new context is referred to by its slot and by the thread that creates it. -/
theorem launch {handle : ℕ} {storage : HandleStorage} (hok : r.register = .ok (handle, storage))
    (href : x.ref = 2) (hrefs : p.refs = r.next :: (pc t).refs)
    (hdeletes : p.deletes = (pc t).deletes) :
    Counted harbor (r.publish handle storage) (update ctx r.next (some x)) (update pc t p) := by
  have hnone := h.next_eq_none
  have hslot := h.registry.publish_registered hok
  refine h.change r.next (h.registry.register_step hok) (Nat.le_succ _)
    (fun _ _ => Nat.lt_succ_self r.next) ?_ ?_ fun d hd =>
    ⟨?_, by rw [hrefs, count_cons_of_ne (Ne.symm hd)], by rw [hdeletes]⟩
  · rw [hnone, hrefs, count_cons_self, refField, refField, href,
      slotRef_of_not_registered h.registry.next_not_registered,
      slotRef_of_registered ((hslot r.next).mpr (.inl rfl))]
    omega
  · rw [hnone, hdeletes, deleteDue, deleteDue, if_neg (by omega)]
  · exact slotRef_congr ((hslot d).trans (or_iff_right hd))

end Counted

/-! ### Ownership of queues -/

/-- How many owners a queue has to have: one while it is scheduled or marked for release. -/
def ownDue : Option MessageQueue → ℕ
  | none => 0
  | some m => if m.inGlobal ∨ m.release then 1 else 0

/-- The global queue is the list `L`, and every queue has the owners it should have. -/
structure Owned {Tid : Type} [Fintype Tid] (Q : Queues) (L : List QueueId) (pc : Tid → Pc) :
    Prop where
  global : Q.GlobalList L
  own : ∀ q, ownTotal L pc q = ownDue (Q.mq q)

theorem ownDue_le_one (o : Option MessageQueue) : ownDue o ≤ 1 := by
  unfold ownDue
  split <;> [skip; split_ifs] <;> omega

namespace Owned

variable {Tid : Type} [Fintype Tid] {Q : Queues} {L : List QueueId} {pc : Tid → Pc} {t : Tid}
  {p : Pc} {q : QueueId} {m m' : MessageQueue}

section

variable (h : Owned Q L pc)
include h

/-- A queue that a thread holds is allocated and not in the global queue, and the thread
holds it once. -/
theorem of_owned (hq : q ∈ (pc t).owned) :
    (∃ m, Q.mq q = some m ∧ (m.inGlobal ∨ m.release)) ∧ q ∉ L ∧ (pc t).owned.count q = 1 := by
  have hle := count_owned_le L pc t q
  have hpos := count_pos_iff.mpr hq
  have hown := h.own q
  have hone := ownDue_le_one (Q.mq q)
  refine ⟨?_, ?_, by omega⟩
  · cases hm : Q.mq q with
    | none =>
      rw [hm, ownDue] at hown
      omega
    | some m =>
      rw [hm, ownDue] at hown
      split_ifs at hown with hflag
      · exact ⟨m, rfl, hflag⟩
      · omega
  · intro hmem
    have := count_pos_iff.mpr hmem
    omega

theorem eq_of_owned [DecidableEq Tid] {u : Tid} (ht : q ∈ (pc t).owned) (hu : q ∈ (pc u).owned) :
    t = u := by
  by_contra hne
  have hle := add_le_sum_thread (fun p : Pc => p.owned.count q) pc hne
  have hpos := count_pos_iff.mpr ht
  have hpos' := count_pos_iff.mpr hu
  have hown := h.own q
  have hone := ownDue_le_one (Q.mq q)
  unfold ownTotal at hown
  omega

/-- A change of a queue that asks for the same number of owners. -/
theorem setMq (hdue : ownDue (some m') = ownDue (Q.mq q)) : Owned (Q.set q m') L pc := by
  refine ⟨h.global.set, fun d => ?_⟩
  rw [h.own]
  by_cases hd : d = q
  · rw [hd, set_mq_self, hdue]
  · rw [set_mq_of_ne hd]

/-- A queue without owner that comes to need one is given to the global queue. -/
theorem push_set (m' : MessageQueue) (hold : ownDue (Q.mq q) = 0) (hnew : ownDue (some m') = 1) :
    ∃ Q', (Q.set q m').ubossGlobalmqPush q = .ok Q' ∧
      Q'.mq = update Q.mq q (some m') ∧ Owned Q' (L ++ [q]) pc := by
  have hown := h.own q
  have hmem : q ∉ L := by
    intro hmem
    have := count_pos_iff.mpr hmem
    unfold ownTotal at hown
    omega
  obtain ⟨Q', hok, hmq, hglobal⟩ := globalmqPush_ok (m := m')
    (h.global.set (q := q) (m := m')) set_mq_self hmem
  refine ⟨Q', hok, hmq, hglobal, fun d => ?_⟩
  have hd := h.own d
  rw [ownTotal] at hd hown
  rw [hmq, ownTotal, count_append, count_cons, count_nil]
  change _ = ownDue (update Q.mq q (some m') d)
  by_cases hdq : d = q
  · subst hdq
    rw [update_self, hnew]
    simp only [beq_self_eq_true, if_true]
    omega
  · rw [update_of_ne hdq, ← hd]
    simp only [beq_iff_eq, Ne.symm hdq, if_false]
    omega

theorem markRelease (hq : Q.mq q = some m) (hrelease : m.release = false) :
    ∃ Q' L', Q.ubossMqMarkRelease q = .ok Q' ∧
      Q'.mq = update Q.mq q (some { m with release := true }) ∧ Owned Q' L' pc := by
  have hnot : ¬ m.release = true := by simp [hrelease]
  by_cases hglobal : m.inGlobal = false
  · obtain ⟨Q', hok, hmq, hown⟩ := h.push_set (q := q) { m with release := true }
      (by simp [hq, ownDue, hrelease, hglobal]) (by simp [ownDue])
    refine ⟨Q', L ++ [q], ?_, hmq, hown⟩
    simp only [ubossMqMarkRelease, hq, if_neg hnot, if_pos hglobal, hok]
  · refine ⟨Q.set q { m with release := true }, L, ?_, rfl, h.setMq ?_⟩
    · simp only [ubossMqMarkRelease, hq, if_neg hnot, if_neg hglobal]
    · simp_all [ownDue]

theorem mqPush (hq : Q.mq q = some m) (hrelease : m.release = false) (msg : UbossMessage) :
    ∃ Q' L' m', Q.ubossMqPush q msg = .ok Q' ∧ Q'.mq = update Q.mq q (some m') ∧
      m'.contents = m.contents ++ [msg] ∧ m'.inGlobal = true ∧ m'.handle = m.handle ∧
      m'.release = m.release ∧ Owned Q' L' pc := by
  by_cases hglobal : m.inGlobal = false
  · obtain ⟨Q', hok, hmq, hown⟩ := h.push_set (q := q) { m.enqueue msg with inGlobal := true }
      (by simp [hq, ownDue, hrelease, hglobal]) (by simp [ownDue])
    refine ⟨Q', L ++ [q], _, ?_, hmq, contents_enqueue, rfl, enqueue_handle, enqueue_release, hown⟩
    simp only [ubossMqPush, hq, if_pos hglobal, hok]
  · refine ⟨Q.set q (m.enqueue msg), L, m.enqueue msg, ?_, rfl, contents_enqueue,
      by simp [hglobal], enqueue_handle, enqueue_release, h.setMq ?_⟩
    · simp only [ubossMqPush, hq, if_neg hglobal]
    · simp [ownDue, hq]

end

variable [DecidableEq Tid]

theorem goto (h : Owned Q L pc) (howned : p.owned = (pc t).owned) : Owned Q L (update pc t p) := by
  refine ⟨h.global, fun q => ?_⟩
  rw [← h.own]
  have := ownTotal_update L L pc t p q
  rw [howned] at this
  omega

/-- A thread, a queue and the global queue change together. -/
theorem change {Q' : Queues} {L' : List QueueId} (h : Owned Q L pc) (q : QueueId)
    (hglobal : Q'.GlobalList L') (hmq : ∀ d ≠ q, Q'.mq d = Q.mq d)
    (hdue : ownDue (Q'.mq q) + L.count q + (pc t).owned.count q =
      ownDue (Q.mq q) + L'.count q + p.owned.count q)
    (hother : ∀ d ≠ q, L'.count d + p.owned.count d = L.count d + (pc t).owned.count d) :
    Owned Q' L' (update pc t p) := by
  refine ⟨hglobal, fun d => ?_⟩
  have hd := h.own d
  have hsum := ownTotal_update L L' pc t p d
  by_cases hdq : d = q
  · subst hdq
    omega
  · have hcount := hother d hdq
    rw [hmq d hdq]
    omega

theorem push (h : Owned Q L pc) (howned : (pc t).owned = q :: p.owned) :
    ∃ Q', Q.ubossGlobalmqPush q = .ok Q' ∧ Q'.mq = Q.mq ∧ Owned Q' (L ++ [q]) (update pc t p) := by
  obtain ⟨⟨m, hm, -⟩, hmem, -⟩ := h.of_owned (t := t) (q := q) (by simp [howned])
  obtain ⟨Q', hok, hmq, hglobal⟩ := globalmqPush_ok h.global hm hmem
  refine ⟨Q', hok, hmq, hglobal, fun d => ?_⟩
  rw [hmq, ← h.own]
  have := ownTotal_update L (L ++ [q]) pc t p d
  rw [howned, count_append, count_cons, count_cons, count_nil] at this
  omega

theorem pop {L' : List QueueId} (h : Owned Q (q :: L') pc)
    (howned : p.owned.Perm (q :: (pc t).owned)) :
    ∃ Q', Q.ubossGlobalmqPop = .ok (some q, Q') ∧ Q'.mq = Q.mq ∧ Owned Q' L' (update pc t p) := by
  obtain ⟨Q', hok, hmq, hglobal⟩ := globalmqPop_cons h.global
  refine ⟨Q', hok, hmq, hglobal, fun d => ?_⟩
  rw [hmq, ← h.own]
  have := ownTotal_update (q :: L') L' pc t p d
  rw [howned.count_eq, count_cons, count_cons] at this
  omega

/-- A thread takes leave of a queue that needs no owner any more. -/
theorem giveUp (h : Owned Q L pc) (howned : (pc t).owned = q :: p.owned)
    (hnew : ownDue (some m') = 0) : Owned (Q.set q m') L (update pc t p) := by
  obtain ⟨⟨m, hm, hflag⟩, -, -⟩ := h.of_owned (t := t) (q := q) (by simp [howned])
  refine h.change q h.global.set (fun d hd => set_mq_of_ne hd) ?_ fun d hd => by
    rw [howned, count_cons_of_ne (Ne.symm hd)]
  rw [set_mq_self, hnew, hm, ownDue, if_pos hflag, howned, count_cons_self]
  omega

theorem free (h : Owned Q L pc) (howned : (pc t).owned = q :: p.owned) :
    Q.release q = .ok { Q with mq := update Q.mq q none } ∧
      Owned { Q with mq := update Q.mq q none } L (update pc t p) := by
  obtain ⟨⟨m, hm, hflag⟩, hmem, -⟩ := h.of_owned (t := t) (q := q) (by simp [howned])
  obtain ⟨hok, hglobal⟩ := release_ok h.global hm hmem
  refine ⟨hok, h.change q hglobal (fun d hd => update_of_ne hd _ _) ?_ fun d hd => by
    rw [howned, count_cons_of_ne (Ne.symm hd)]⟩
  simp only [update_self]
  rw [hm, ownDue, ownDue, if_pos hflag, howned, count_cons_self]
  omega

theorem create (h : Owned Q L pc) (hnone : Q.mq q = none) (hnew : ownDue (some m') = 1)
    (howned : p.owned = q :: (pc t).owned) : Owned (Q.set q m') L (update pc t p) := by
  refine h.change q h.global.set (fun d hd => set_mq_of_ne hd) ?_ fun d hd => by
    rw [howned, count_cons_of_ne (Ne.symm hd)]
  rw [set_mq_self, hnone, hnew, ownDue, howned, count_cons_self]
  omega

end Owned

end Uboss.Core
