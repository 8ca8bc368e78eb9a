import Uboss.Core.Timer
import Uboss.Math.Transition

/-!
# Exactness of the timer

The timer thread runs `timer_update` while other threads call `timer_add`. The lock is held
for the whole of `timer_add` and between the windows in which `timer_execute` dispatches a
list, so a step is one locked section or the dispatch of one node, and additions may come
between any two steps.

The invariant is that every list holds, in the order of their addition, exactly the nodes
not yet due that `add_node` would put there now.
-/

namespace Uboss.Core

open Math List Nat

/-- A call of `timer_add`: the node, the number of `timer_shift` calls and the value of
`T->time` at the call, and its argument. -/
structure AddedTimer where
  node : TimerNode
  tick : ℕ
  now : ℕ
  delay : ℕ
  deriving DecidableEq, Repr

/-- The number of the tick at which the node has to be dispatched. -/
def AddedTimer.due (a : AddedTimer) : ℕ := a.tick + a.delay

/-- A dispatch: the node, the number of the running `timer_update` and `T->time`. -/
structure DispatchedTimer where
  node : TimerNode
  update : ℕ
  time : ℕ
  deriving DecidableEq, Repr

/-- Where the timer thread is when it does not hold the lock: outside `timer_update`, or in
`dispatch_list` of the first or the second `timer_execute` with the rest of its list. -/
inductive TimerPc
  | idle
  | first (rest : List TimerNode)
  | second (rest : List TimerNode)
  deriving DecidableEq, Repr

/-- The nodes taken from the wheel and not yet dispatched. -/
def TimerPc.inFlight : TimerPc → List TimerNode
  | .idle => []
  | .first rest => rest
  | .second rest => rest

/-- The wheel, the timer thread, the numbers of `timer_update` and `timer_shift` calls, and
the histories of additions and dispatches. -/
structure TimerRun where
  timer : Timer
  pc : TimerPc
  updates : ℕ
  ticks : ℕ
  added : List AddedTimer
  log : List DispatchedTimer

/-- The steps: a call of `timer_add`, the start of `timer_update`, the dispatch of the next
node, and the return of `timer_execute` to its loop. -/
inductive TimerAct
  | add (time : ℕ) (event : TimerEvent)
  | update
  | dispatch
  | relock
  deriving DecidableEq, Repr

namespace TimerRun

/-- An empty wheel at any time. -/
def init (time : ℕ) : TimerRun where
  timer := { list := fun _ => [], time := time }
  pc := .idle
  updates := 0
  ticks := 0
  added := []
  log := []

/-- The name of `T->near[T->time & TIME_NEAR_MASK]`. -/
def nearNow (T : Timer) : WheelList := .near (T.time &&& timeNearMask)

/-- From the loop test of the second `timer_execute`: take the near list and drop the lock,
or return. -/
def enterSecond (s : TimerRun) : TimerRun :=
  match s.timer.list (nearNow s.timer) with
  | [] => { s with pc := .idle }
  | node :: rest =>
    { s with timer := s.timer.linkClear (nearNow s.timer), pc := .second (node :: rest) }

/-- From the loop test of the first `timer_execute`: take the near list and drop the lock,
or shift and go on. -/
def enterFirst (s : TimerRun) : TimerRun :=
  match s.timer.list (nearNow s.timer) with
  | [] => enterSecond { s with timer := timerShift s.timer, ticks := s.ticks + 1 }
  | node :: rest =>
    { s with timer := s.timer.linkClear (nearNow s.timer), pc := .first (node :: rest) }

/-- `timer_add` with a positive `int` argument. -/
def add (s : TimerRun) (time : ℕ) (event : TimerEvent) : TimerRun :=
  { s with
    timer := timerAdd s.timer s.added.length event time
    added := s.added ++ [{
      node := ⟨s.added.length, (time + s.timer.time) % 2 ^ 32, event⟩
      tick := s.ticks
      now := s.timer.time
      delay := time }] }

/-- Dispatch one node. -/
def dispatch (s : TimerRun) (node : TimerNode) (pc : TimerPc) : TimerRun :=
  { s with pc := pc, log := s.log ++ [⟨node, s.updates, s.timer.time⟩] }

/-- One step. -/
def step (s : TimerRun) : TimerAct → Option TimerRun
  | .add time event => if 1 ≤ time ∧ time < 2 ^ 31 then some (s.add time event) else none
  | .update =>
    match s.pc with
    | .idle => some (enterFirst { s with updates := s.updates + 1 })
    | _ => none
  | .dispatch =>
    match s.pc with
    | .first (node :: rest) => some (s.dispatch node (.first rest))
    | .second (node :: rest) => some (s.dispatch node (.second rest))
    | _ => none
  | .relock =>
    match s.pc with
    | .first [] => some s.enterFirst
    | .second [] => some s.enterSecond
    | _ => none

/-! ### The invariant -/

/-- The nodes of tick `u`, as they are dispatched. -/
def dueAt (start : ℕ) (added : List AddedTimer) (u : ℕ) : List DispatchedTimer :=
  (added.filter fun a => a.due = u).map fun a => ⟨a.node, u, (start + u) % 2 ^ 32⟩

/-- The nodes of all ticks up to `n`, in the order of their ticks. -/
def dueUpTo (start : ℕ) (added : List AddedTimer) (n : ℕ) : List DispatchedTimer :=
  (List.range (n + 1)).flatMap (dueAt start added)

/-- The nodes that are filed in the list `l` at time `time`, among those due after `n`. -/
def filed (added : List AddedTimer) (n time : ℕ) (l : WheelList) : List TimerNode :=
  ((added.filter fun a => n < a.due).filter fun a => listFor a.node.expire time = l).map
    AddedTimer.node

/-- What was recorded of an addition. -/
structure AddedOk (start ticks count : ℕ) (a : AddedTimer) : Prop where
  tick_le : a.tick ≤ ticks
  delay_pos : 1 ≤ a.delay
  delay_lt : a.delay < 2 ^ 31
  now_eq : a.now = (start + a.tick) % 2 ^ 32
  expire_eq : a.node.expire = (a.now + a.delay) % 2 ^ 32
  id_lt : a.node.id < count

/-- The invariant of all runs from an empty wheel at time `start`. -/
structure Inv (start : ℕ) (s : TimerRun) : Prop where
  time_eq : s.timer.time = (start + s.ticks) % 2 ^ 32
  updates_eq : s.updates = s.ticks
  pc_ne_first : ∀ rest, s.pc ≠ .first rest
  added_ok : ∀ a ∈ s.added, AddedOk start s.ticks s.added.length a
  sorted : s.added.Pairwise fun a b => a.node.id < b.node.id ∧ a.tick ≤ b.tick
  lists : ∀ l, s.timer.list l = filed s.added s.ticks s.timer.time l
  log_eq : s.log ++ s.pc.inFlight.map (fun n => ⟨n, s.ticks, s.timer.time⟩) =
    dueUpTo start s.added s.ticks

variable {start : ℕ} {s s' : TimerRun}

variable {added : List AddedTimer}

theorem inv_init (hstart : start < 2 ^ 32) : (init start).Inv start where
  time_eq := (mod_eq_of_lt hstart).symm
  updates_eq := rfl
  pc_ne_first _ h := nomatch h
  added_ok a ha := absurd ha (by simp [init])
  sorted := List.Pairwise.nil
  lists l := rfl
  log_eq := rfl

section

variable {ticks count : ℕ} {a : AddedTimer} (ha : AddedOk start ticks count a)
include ha

theorem AddedOk.expire_eq_due : a.node.expire = (start + a.due) % 2 ^ 32 := by
  rw [ha.expire_eq, ha.now_eq, AddedTimer.due, mod_add_mod, Nat.add_assoc]

theorem AddedOk.ahead (hdue : ticks < a.due) :
    a.node.expire = ((start + ticks) % 2 ^ 32 + (a.due - ticks)) % 2 ^ 32 ∧
      1 ≤ a.due - ticks ∧ a.due - ticks < 2 ^ 31 := by
  have htick := ha.tick_le
  have hdelay := ha.delay_lt
  refine ⟨?_, by omega, ?_⟩
  · rw [ha.expire_eq_due, mod_add_mod]
    congr 1
    omega
  · rw [AddedTimer.due] at hdue ⊢
    omega

theorem AddedOk.expire_ne_time (hdue : ticks < a.due) :
    a.node.expire ≠ (start + ticks) % 2 ^ 32 := by
  obtain ⟨he, hpos, hlt⟩ := ha.ahead hdue
  omega

end

theorem filed_nearNow {ticks count : ℕ} (hok : ∀ a ∈ added, AddedOk start ticks count a) {T : Timer}
    (htime : T.time = (start + ticks) % 2 ^ 32) :
    filed added ticks T.time (nearNow T) = [] := by
  simp only [filed, map_eq_nil_iff, filter_eq_nil_iff, mem_filter,
    decide_eq_true_eq, nearNow, listFor_eq_near_iff]
  rintro a ⟨ha, hdue⟩ he
  exact (hok a ha).expire_ne_time hdue (he.trans htime)

theorem Inv.near_empty (hs : s.Inv start) : s.timer.list (nearNow s.timer) = [] := by
  rw [hs.lists]
  exact filed_nearNow hs.added_ok hs.time_eq

/-! ### Adding -/

theorem dueUpTo_concat {a : AddedTimer} {n : ℕ} (h : n < a.due) :
    dueUpTo start (added ++ [a]) n = dueUpTo start added n := by
  unfold dueUpTo
  refine flatMap_congr fun u hu => ?_
  have hne : a.due ≠ u := by
    have := mem_range.mp hu
    omega
  simp [dueAt, hne]

theorem filed_concat {a : AddedTimer} {n time : ℕ} (h : n < a.due) (l : WheelList) :
    filed (added ++ [a]) n time l =
      filed added n time l ++ if listFor a.node.expire time = l then [a.node] else [] := by
  by_cases hl : listFor a.node.expire time = l <;> simp [filed, h, hl]

theorem Inv.add (hs : s.Inv start) {time : ℕ} (hpos : 1 ≤ time) (hlt : time < 2 ^ 31)
    (event : TimerEvent) : (s.add time event).Inv start := by
  have hdue : s.ticks < AddedTimer.due {
      node := ⟨s.added.length, (time + s.timer.time) % 2 ^ 32, event⟩
      tick := s.ticks, now := s.timer.time, delay := time } := by
    simp only [AddedTimer.due]
    omega
  refine ⟨hs.time_eq, hs.updates_eq, hs.pc_ne_first, fun a ha => ?_, ?_, fun l => ?_, ?_⟩
  · rcases mem_append.mp ha with hold | hnew
    · have hok := hs.added_ok a hold
      exact ⟨hok.tick_le, hok.delay_pos, hok.delay_lt, hok.now_eq, hok.expire_eq,
        hok.id_lt.trans_le (by simp [TimerRun.add])⟩
    · obtain rfl := mem_singleton.mp hnew
      exact ⟨le_rfl, hpos, hlt, hs.time_eq, by simp only [Nat.add_comm], by simp [TimerRun.add]⟩
  · refine pairwise_append.mpr ⟨hs.sorted, pairwise_singleton _ _, fun a ha b hb => ?_⟩
    obtain rfl := mem_singleton.mp hb
    exact ⟨(hs.added_ok a ha).id_lt, (hs.added_ok a ha).tick_le⟩
  · change (addNode s.timer _).list l = filed _ _ s.timer.time l
    rw [addNode_list, hs.lists]
    exact (filed_concat hdue l).symm
  · change s.log ++ _ = dueUpTo start (s.added ++ [_]) s.ticks
    rw [dueUpTo_concat hdue]
    exact hs.log_eq

/-! ### Ticking -/

/-- The nodes that are due at a tick are the ones in the near list of the new time. -/
theorem filed_due {n count : ℕ} (hok : ∀ a ∈ added, AddedOk start n count a) {T : Timer}
    (htime : T.time = (start + (n + 1)) % 2 ^ 32) (l : WheelList) :
    filed added n T.time l =
      if l = nearNow T then (added.filter fun a => a.due = n + 1).map AddedTimer.node
      else filed added (n + 1) T.time l := by
  have hiff : ∀ a ∈ added, n < a.due → (a.due = n + 1 ↔ a.node.expire = T.time) := by
    intro a ha hdue
    obtain ⟨he, -, hlt⟩ := (hok a ha).ahead hdue
    rw [he, htime]
    omega
  unfold filed
  split_ifs with hl
  · subst hl
    rw [filter_filter]
    congr 1
    refine filter_congr fun a ha => ?_
    simp only [nearNow, listFor_eq_near_iff]
    by_cases hdue : n < a.due
    · simp [hdue, hiff a ha hdue]
    · have hne : a.due ≠ n + 1 := by omega
      simp [hdue, hne]
  · rw [filter_filter, filter_filter]
    congr 1
    refine filter_congr fun a ha => ?_
    by_cases hfile : listFor a.node.expire T.time = l
    · -- a node due now would be in the near list
      have hne : a.due ≠ n + 1 := by
        intro hdue
        have he := (hiff a ha (by omega)).mp hdue
        exact hl (hfile.symm.trans (listFor_eq_near_iff.mpr he))
      have hlt : n < a.due ↔ n + 1 < a.due := by omega
      simp [hfile, hlt]
    · simp [hfile]

/-- After `timer_shift` every node that was not due before it is filed by the new time. -/
theorem Inv.shift_lists (hs : s.Inv start) (l : WheelList) : (timerShift s.timer).list l =
      filed s.added s.ticks (timerShift s.timer).time l := by
  have ho : s.timer.time < 2 ^ 32 := by
    rw [hs.time_eq]
    exact mod_lt _ (by decide)
  have hahead : ∀ a ∈ s.added.filter fun a => s.ticks < a.due,
      a.node.expire = (s.timer.time + (a.due - s.ticks)) % 2 ^ 32 ∧
        1 ≤ a.due - s.ticks ∧ a.due - s.ticks < 2 ^ 31 := by
    intro a ha
    obtain ⟨hmem, hdue⟩ := mem_filter.mp ha
    rw [hs.time_eq]
    exact (hs.added_ok a hmem).ahead (of_decide_eq_true hdue)
  rw [timerShift_eq s.timer ho]
  cases hlist : listFor ((s.timer.time + 1) % 2 ^ 32) s.timer.time with
  | near j =>
    -- nothing is refiled, and nothing has to be
    change s.timer.list l = filed s.added s.ticks ((s.timer.time + 1) % 2 ^ 32) l
    rw [hs.lists, filed, filed]
    congr 1
    refine filter_congr fun a ha => ?_
    obtain ⟨he, hpos, hlt⟩ := hahead a ha
    rw [listFor_next_eq ho he hpos hlt fun hrank => absurd (by rw [hlist]; rfl) hrank]
  | level i j =>
    have hrank : (listFor ((s.timer.time + 1) % 2 ^ 32) s.timer.time).rank ≠ 0 := by
      rw [hlist]
      exact succ_ne_zero i
    dsimp only
    rw [moveList_list, moveList_time]
    change (if l = _ then [] else s.timer.list l) ++ List.filter _ (s.timer.list _) =
      filed s.added s.ticks ((s.timer.time + 1) % 2 ^ 32) l
    have hrefile := filter_refile (s.added.filter fun a => s.ticks < a.due)
      (fun a => listFor a.node.expire s.timer.time)
      (fun a => listFor a.node.expire ((s.timer.time + 1) % 2 ^ 32)) (.level i j)
      (fun a ha hne => by
        obtain ⟨he, hpos, hlt⟩ := hahead a ha
        exact listFor_next_eq ho he hpos hlt fun _ => hlist ▸ hne)
      (fun a ha b hb hmoved _ hsame => by
        obtain ⟨he, hpos, hlt⟩ := hahead a ha
        obtain ⟨he', hpos', hlt'⟩ := hahead b hb
        have hdown := rank_listFor_next_lt ho he hrank (hmoved.trans hlist.symm)
        have hup := rank_listFor_next_le ho he' hpos' hlt'
        rw [hsame] at hdown
        omega) l
    rw [filed, ← hrefile, map_append, hs.lists, hs.lists, filed, filed, filter_map]
    congr 1
    split_ifs <;> rfl

theorem timerShift_time (T : Timer) (ho : T.time < 2 ^ 32) :
    (timerShift T).time = (T.time + 1) % 2 ^ 32 := by
  rw [timerShift_eq T ho]
  cases listFor ((T.time + 1) % 2 ^ 32) T.time with
  | near j => rfl
  | level i j => exact moveList_time _ _

theorem dueUpTo_succ (added : List AddedTimer) (n : ℕ) :
    dueUpTo start added (n + 1) = dueUpTo start added n ++ dueAt start added (n + 1) := by
  simp [dueUpTo, range_succ]

/-- A whole `timer_update` up to its first dispatch, from the invariant. -/
theorem Inv.update (hs : s.Inv start) (hidle : s.pc = .idle) :
    (enterFirst { s with updates := s.updates + 1 }).Inv start := by
  have ho : s.timer.time < 2 ^ 32 := by
    rw [hs.time_eq]
    exact mod_lt _ (by decide)
  have htime : (timerShift s.timer).time = (start + (s.ticks + 1)) % 2 ^ 32 := by
    rw [timerShift_time _ ho, hs.time_eq, mod_add_mod, Nat.add_assoc]
  have hlists := fun l => (hs.shift_lists l).trans (filed_due hs.added_ok htime l)
  have hok : ∀ a ∈ s.added, AddedOk start (s.ticks + 1) s.added.length a := fun a ha =>
    ⟨(hs.added_ok a ha).tick_le.trans (le_succ _), (hs.added_ok a ha).delay_pos,
      (hs.added_ok a ha).delay_lt, (hs.added_ok a ha).now_eq, (hs.added_ok a ha).expire_eq,
      (hs.added_ok a ha).id_lt⟩
  have hlog : s.log = dueUpTo start s.added s.ticks := by
    have := hs.log_eq
    rw [hidle] at this
    simpa [TimerPc.inFlight] using this
  have hdue : ∀ nodes, (timerShift s.timer).list (nearNow (timerShift s.timer)) = nodes →
      s.log ++ nodes.map (fun n => ⟨n, s.ticks + 1, (timerShift s.timer).time⟩) =
        dueUpTo start s.added (s.ticks + 1) := by
    rintro nodes rfl
    rw [hlists, if_pos rfl, dueUpTo_succ, hlog, map_map, dueAt, htime]
    rfl
  simp only [enterFirst, hs.near_empty, enterSecond]
  cases hnear : (timerShift s.timer).list (nearNow (timerShift s.timer)) with
  | nil =>
    refine ⟨htime, by simp [hs.updates_eq], by simp, hok, hs.sorted, fun l => ?_, hdue _ hnear⟩
    change (timerShift s.timer).list l = _
    by_cases hl : l = nearNow (timerShift s.timer)
    · subst hl
      rw [hnear]
      exact (filed_nearNow hok htime).symm
    · rw [hlists, if_neg hl]
  | cons node rest =>
    refine ⟨htime, by simp [hs.updates_eq], by simp, hok, hs.sorted, fun l => ?_, hdue _ hnear⟩
    change Function.update (timerShift s.timer).list _ [] l = _
    by_cases hl : l = nearNow (timerShift s.timer)
    · subst hl
      rw [Function.update_self]
      exact (filed_nearNow hok htime).symm
    · rw [Function.update_of_ne hl, hlists, if_neg hl]
      rfl

theorem Inv.dispatch (hs : s.Inv start) {node : TimerNode} {rest : List TimerNode}
    (hpc : s.pc = .second (node :: rest)) : (s.dispatch node (.second rest)).Inv start := by
  refine ⟨hs.time_eq, hs.updates_eq, by simp [TimerRun.dispatch], hs.added_ok, hs.sorted,
    hs.lists, ?_⟩
  have hlog := hs.log_eq
  rw [hpc] at hlog
  simp only [TimerRun.dispatch, hs.updates_eq, TimerPc.inFlight, append_assoc]
  exact hlog

theorem Inv.step (hs : s.Inv start) {a : TimerAct} (hstep : s.step a = some s') : s'.Inv start := by
  cases a with
  | add time event =>
    rw [TimerRun.step] at hstep
    split_ifs at hstep with hrange
    cases hstep
    exact hs.add hrange.1 hrange.2 event
  | update =>
    rw [TimerRun.step] at hstep
    split at hstep
    · cases hstep
      exact hs.update ‹_›
    · cases hstep
  | dispatch =>
    rw [TimerRun.step] at hstep
    split at hstep
    · exact absurd ‹_› (hs.pc_ne_first _)
    · cases hstep
      exact hs.dispatch ‹_›
    · cases hstep
  | relock =>
    rw [TimerRun.step] at hstep
    split at hstep
    · exact absurd ‹_› (hs.pc_ne_first _)
    · cases hstep
      -- additions in the window never go to the list that is being dispatched
      rename_i hpc
      have hlog := hs.log_eq
      rw [hpc] at hlog
      simp only [enterSecond, hs.near_empty]
      exact ⟨hs.time_eq, hs.updates_eq, by simp, hs.added_ok, hs.sorted, hs.lists, hlog⟩
    · cases hstep

/-! ### Exactness -/

theorem added_total (hsorted : added.Pairwise fun a b => a.node.id < b.node.id ∧ a.tick ≤ b.tick)
    {a b : AddedTimer} (ha : a ∈ added) (hb : b ∈ added) (hab : a ≠ b) :
    (a.node.id < b.node.id ∧ a.tick ≤ b.tick) ∨ (b.node.id < a.node.id ∧ b.tick ≤ a.tick) := by
  have hsymm : Std.Symm fun a b : AddedTimer => (a.node.id < b.node.id ∧ a.tick ≤ b.tick) ∨
      (b.node.id < a.node.id ∧ b.tick ≤ a.tick) := ⟨fun _ _ h => h.symm⟩
  have hpair : added.Pairwise fun a b : AddedTimer =>
      (a.node.id < b.node.id ∧ a.tick ≤ b.tick) ∨ (b.node.id < a.node.id ∧ b.tick ≤ a.tick) :=
    hsorted.imp Or.inl
  exact hpair.forall ha hb hab

/-- No two dispatches are of one node, and of two nodes with the same expiry the one added
first is dispatched first. -/
theorem pairwise_dueUpTo {ticks count n : ℕ} (hok : ∀ a ∈ added, AddedOk start ticks count a)
    (hsorted : added.Pairwise fun a b => a.node.id < b.node.id ∧ a.tick ≤ b.tick) :
    (dueUpTo start added n).Pairwise fun d d' =>
      d.node.id ≠ d'.node.id ∧ (d.node.expire = d'.node.expire → d.node.id < d'.node.id) := by
  refine pairwise_flatMap.mpr ⟨fun u _ => ?_, ?_⟩
  · refine pairwise_map.mpr ((hsorted.filter _).imp ?_)
    rintro a b ⟨hid, -⟩
    exact ⟨hid.ne, fun _ => hid⟩
  · refine pairwise_lt_range.imp ?_
    rintro u v huv d hd d' hd'
    simp only [dueAt, mem_map, mem_filter, decide_eq_true_eq] at hd hd'
    obtain ⟨a, ⟨ha, rfl⟩, rfl⟩ := hd
    obtain ⟨b, ⟨hb, rfl⟩, rfl⟩ := hd'
    have hab : a ≠ b := by
      rintro rfl
      exact lt_irrefl _ huv
    have horder : (a.node.id < b.node.id ∧ a.tick ≤ b.tick) ∨
        (b.node.id < a.node.id ∧ b.tick ≤ a.tick) :=
      added_total hsorted ha hb hab
    refine ⟨?_, fun hexpire => ?_⟩
    · rcases horder with h | h
      · exact h.1.ne
      · exact h.1.ne'
    · rcases horder with h | h
      · exact h.1
      · -- equal expiries of different ticks lie a whole round of the clock apart
        rw [(hok a ha).expire_eq_due, (hok b hb).expire_eq_due] at hexpire
        have hdelay := (hok b hb).delay_lt
        have hpos := (hok a ha).delay_pos
        simp only [AddedTimer.due] at hexpire huv
        omega

theorem mem_dueUpTo {n : ℕ} {d : DispatchedTimer} : d ∈ dueUpTo start added n ↔
      ∃ a ∈ added, a.due ≤ n ∧ d = ⟨a.node, a.due, (start + a.due) % 2 ^ 32⟩ := by
  simp only [dueUpTo, dueAt, mem_flatMap, mem_range, mem_map, mem_filter, decide_eq_true_eq]
  constructor
  · rintro ⟨u, hu, a, ⟨ha, rfl⟩, rfl⟩
    exact ⟨a, ha, by omega, rfl⟩
  · rintro ⟨a, ha, hdue, rfl⟩
    exact ⟨a.due, by omega, a, ⟨ha, rfl⟩, rfl⟩

/-- The exactness of the timer in one state of a run from an empty wheel at time `start`.
The tick `u` is the `timer_shift` of the `u`-th `timer_update`, and `start + u` is the time
it sets. -/
structure Exact (start : ℕ) (s : TimerRun) : Prop where
  /-- The clock, and the one shift of every update. -/
  clock : s.timer.time = (start + s.ticks) % 2 ^ 32 ∧ s.updates = s.ticks
  /-- What `timer_add` computes from the time of the call. -/
  expire : ∀ a ∈ s.added, a.tick ≤ s.ticks ∧ a.now = (start + a.tick) % 2 ^ 32 ∧
    a.node.expire = (a.now + a.delay) % 2 ^ 32
  /-- The due tick is the first one after the call that sets the time to the expiry. -/
  due : ∀ a ∈ s.added, (start + a.due) % 2 ^ 32 = a.node.expire ∧
    ∀ u, a.tick < u → u < a.due → (start + u) % 2 ^ 32 ≠ a.node.expire
  /-- Nothing is dispatched early or late, or that was not added. -/
  on_time : ∀ d ∈ s.log, ∃ a ∈ s.added, d = ⟨a.node, a.due, a.node.expire⟩
  /-- Nothing is missed: a node is dispatched before its update returns. -/
  complete : ∀ a ∈ s.added, a.due < s.ticks ∨ a.due = s.ticks ∧ s.pc = .idle →
    ⟨a.node, a.due, a.node.expire⟩ ∈ s.log
  /-- Nothing is dispatched twice. -/
  added_nodup : s.added.Pairwise fun a b => a.node.id < b.node.id
  log_nodup : s.log.Pairwise fun d d' => d.node.id ≠ d'.node.id
  /-- Equal expiries are dispatched in the order of their addition. -/
  order : s.log.Pairwise fun d d' => d.node.expire = d'.node.expire → d.node.id < d'.node.id
  /-- The loop of `timer_execute` ends with the list it is dispatching. -/
  loop_ends : s.timer.list (nearNow s.timer) = []

theorem Inv.first_reach (hs : s.Inv start) {a : AddedTimer} (ha : a ∈ s.added) {u : ℕ}
    (hlt : a.tick < u) (hdue : u < a.due) : (start + u) % 2 ^ 32 ≠ a.node.expire := by
  have hok := hs.added_ok a ha
  have hdelay := hok.delay_lt
  rw [hok.expire_eq_due]
  simp only [AddedTimer.due] at hdue ⊢
  omega

theorem Inv.complete (hs : s.Inv start) {a : AddedTimer} (ha : a ∈ s.added)
    (hdue : a.due < s.ticks ∨ a.due = s.ticks ∧ s.pc = .idle) :
    ⟨a.node, a.due, a.node.expire⟩ ∈ s.log := by
  have hle : a.due ≤ s.ticks := hdue.elim le_of_lt fun h => h.1.le
  have hmem : ⟨a.node, a.due, a.node.expire⟩ ∈ dueUpTo start s.added s.ticks :=
    mem_dueUpTo.mpr ⟨a, ha, hle, by rw [(hs.added_ok a ha).expire_eq_due]⟩
  rw [← hs.log_eq, mem_append] at hmem
  rcases hmem with hlog | hflight
  · exact hlog
  · -- what is in flight belongs to the running update
    obtain ⟨n, hn, heq⟩ := mem_map.mp hflight
    have hticks : s.ticks = a.due := congrArg DispatchedTimer.update heq
    rcases hdue with hlt | ⟨-, hidle⟩
    · omega
    · rw [hidle] at hn
      exact absurd hn not_mem_nil

theorem Inv.exact (hs : s.Inv start) : s.Exact start := by
  have hpair := pairwise_dueUpTo (n := s.ticks) hs.added_ok hs.sorted
  rw [← hs.log_eq] at hpair
  have hlog := (pairwise_append.mp hpair).1
  refine ⟨⟨hs.time_eq, hs.updates_eq⟩, fun a ha => ?_, fun a ha => ?_, fun d hd => ?_,
    fun a ha => hs.complete ha, hs.sorted.imp And.left, hlog.imp And.left, hlog.imp And.right,
    hs.near_empty⟩
  · have hok := hs.added_ok a ha
    exact ⟨hok.tick_le, hok.now_eq, hok.expire_eq⟩
  · exact ⟨(hs.added_ok a ha).expire_eq_due.symm, fun u => hs.first_reach ha⟩
  · have hmem : d ∈ dueUpTo start s.added s.ticks := by
      rw [← hs.log_eq]
      exact mem_append_left _ hd
    obtain ⟨a, ha, -, rfl⟩ := mem_dueUpTo.mp hmem
    exact ⟨a, ha, by rw [(hs.added_ok a ha).expire_eq_due]⟩

/-- For every start of the clock and every order of `timer_add` calls, updates and
dispatches, every event is dispatched once, by the update whose shift makes the time equal
to its expiry, and events of equal expiry in the order of their addition. -/
theorem timer_exact (start : ℕ) (hstart : start < 2 ^ 32) (acts : List TimerAct)
    (s : TimerRun) (hrun : Run step anyAction (init start) acts s) : s.Exact start :=
  (hrun.invariant (inv_init hstart) fun _ hnext hs => hs.step hnext).exact

/-- An event that expires when the clock wraps. -/
theorem timer_exact_wrap :
    ∃ s, exec step (init (2 ^ 32 - 1)) [.add 1 ⟨7, 3⟩, .update, .dispatch, .relock] = some s ∧
      s.log = [⟨⟨0, 0, ⟨7, 3⟩⟩, 1, 0⟩] ∧ s.Exact (2 ^ 32 - 1) := by
  obtain ⟨s, hs, hlog⟩ : ∃ s, exec step (init (2 ^ 32 - 1))
      [.add 1 ⟨7, 3⟩, .update, .dispatch, .relock] = some s ∧
      s.log = [⟨⟨0, 0, ⟨7, 3⟩⟩, 1, 0⟩] := ⟨_, rfl, rfl⟩
  exact ⟨s, hs, hlog, timer_exact _ (by decide) _ s (run_of_exec hs)⟩

end TimerRun

end Uboss.Core
