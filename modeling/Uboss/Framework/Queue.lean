import Mathlib.Data.Int.Notation
import Mathlib.Data.List.Nodup
import Uboss.Math.Transition

/-!
# The critical section of a service

`uboss.queue` of `queue.lua`, with as much of `uboss.wait` and `uboss.wakeup` as it rests on. The
coroutines of a service run one at a time, so what a coroutine does between two yields is one step:
a call of the queue function up to the first instruction of `f` or to the wait, the rest of the
call when the wait ends, and everything from the end of `f`. A coroutine that is inside `f` may
yield at any point, which is a step of another coroutine.
-/

namespace Uboss.Framework

open Math Function List Option Nat

/-- Who has called `uboss.wakeup`. -/
inductive Waker
  | queue
  | other
  deriving DecidableEq, Repr

/-- `sleep_session[co]` is set when a coroutine is not `running`. It is `waiting` in the
`uboss.wait` of the queue function and `asleep` in any other one. -/
inductive Wait
  | running
  | waiting
  | asleep
  deriving DecidableEq, Repr

/-- The variables of a queue function, and where the coroutines are. -/
structure QueueState (Co : Type) where
  currentThread : Option Co
  ref : ℤ
  threadQueue : List Co
  /-- The calls of `f` on the stack of a coroutine. -/
  depth : Co → ℕ
  wait : Co → Wait
  wakeupSession : Co → Option Waker
  /-- The calls by a coroutine that was not inside, in their order. -/
  calls : List Co
  /-- Those that have come to `f`. -/
  entries : List Co

/-- What the coroutines do. -/
inductive QueueAct (Co : Type)
  /-- The queue function is called. -/
  | call (t : Co)
  /-- `f` returns, or raises an error. -/
  | ret (t : Co) (ok : Bool)
  /-- `uboss.wait` or `uboss.sleep` anywhere else. -/
  | sleep (t : Co)
  /-- `uboss.wakeup` from anywhere else. -/
  | wakeup (t : Co)
  /-- The response that ends a `uboss.sleep`. -/
  | timer (t : Co)
  /-- `dispatch_wakeup` has picked the coroutine. -/
  | dispatch (t : Co)

/-- A step that cannot be made. -/
inductive QueueFault
  | disabled
  /-- `assert(ref == 0)` fails. -/
  | assertion
  deriving DecidableEq, Repr

namespace QueueState

variable {Co : Type}

/-- After `uboss.queue()`. -/
def init (Co : Type) : QueueState Co where
  currentThread := none
  ref := 0
  threadQueue := []
  depth _ := 0
  wait _ := .running
  wakeupSession _ := none
  calls := []
  entries := []

section Step

variable [DecidableEq Co] (s : QueueState Co) (t : Co)

/-- `current_thread = thread` and `ref = ref + 1`, up to `f`. -/
def enter : QueueState Co :=
  { s with
    currentThread := some t
    ref := s.ref + 1
    depth := update s.depth t (s.depth t + 1)
    wait := update s.wait t .running
    entries := if s.depth t = 0 then s.entries ++ [t] else s.entries }

/-- A call by a coroutine that was not inside is noted. -/
def noteCall : QueueState Co :=
  { s with calls := if s.depth t = 0 then s.calls ++ [t] else s.calls }

/-- The queue function up to `f`, or to `uboss.wait`. -/
def call : QueueState Co :=
  if s.currentThread.any (· ≠ t) then
    { s.noteCall t with
      threadQueue := s.threadQueue ++ [t]
      wait := update s.wait t .waiting }
  else (s.noteCall t).enter t

/-- `uboss.wakeup`, called by `w`. -/
def wakeup (w : Waker) : QueueState Co :=
  if s.wait t ≠ .running ∧ s.wakeupSession t = none then
    { s with wakeupSession := update s.wakeupSession t (some w) }
  else s

/-- The section is handed to the first one that waits. -/
def handOver : QueueState Co :=
  match s.threadQueue with
  | [] => { s with currentThread := none }
  | u :: rest => wakeup { s with currentThread := some u, threadQueue := rest } u .queue

/-- `xpcall_ret`. The error of `f` is raised again at the end. -/
def xpcallRet : QueueState Co :=
  let s := { s with ref := s.ref - 1, depth := update s.depth t (s.depth t - 1) }
  if s.ref = 0 then s.handOver else s

/-- `dispatch_wakeup` for one coroutine: it goes on if it is asleep. -/
def dispatchWakeup : Except QueueFault (QueueState Co) :=
  let s := { s with wakeupSession := update s.wakeupSession t none }
  match s.wait t with
  | .running => .ok s
  | .asleep => .ok { s with wait := update s.wait t .running }
  | .waiting => if s.ref = 0 then .ok (s.enter t) else .error .assertion

/-- One step. -/
def step : QueueAct Co → Except QueueFault (QueueState Co)
  | .call t => if s.wait t = .running then .ok (s.call t) else .error .disabled
  | .ret t _ =>
    if s.wait t = .running ∧ 0 < s.depth t then .ok (s.xpcallRet t) else .error .disabled
  | .sleep t =>
    if s.wait t = .running then .ok { s with wait := update s.wait t .asleep }
    else .error .disabled
  | .wakeup t => .ok (s.wakeup t .other)
  | .timer t =>
    if s.wait t = .asleep then .ok { s with wait := update s.wait t .running }
    else .error .disabled
  | .dispatch t => if s.wakeupSession t = none then .error .disabled else s.dispatchWakeup t

/-- The steps that are enabled and meet their assertions. -/
def next (s : QueueState Co) (a : QueueAct Co) : Option (QueueState Co) := (s.step a).toOption

/-- A coroutine that waits for the section goes on because the queue has woken it. -/
def OnlyQueueWakes (s : QueueState Co) : QueueAct Co → Prop
  | .dispatch t => s.wait t = .waiting → s.wakeupSession t = some .queue
  | _ => True

instance (s : QueueState Co) : DecidablePred s.OnlyQueueWakes
  | .dispatch _ => inferInstanceAs (Decidable (_ → _))
  | .call _ | .ret .. | .sleep _ | .wakeup _ | .timer _ => .isTrue trivial

/-- What the section is for. -/
structure FairMutex (s : QueueState Co) : Prop where
  /-- One coroutine at most is inside `f`. -/
  exclusive : ∀ t u, 0 < s.depth t → 0 < s.depth u → t = u
  /-- It enters again without blocking. -/
  reenters : ∀ t, 0 < s.depth t → s.wait t = .running →
    ∃ s', s.step (.call t) = .ok s' ∧ s'.depth t = s.depth t + 1 ∧ s'.wait t = .running
  /-- The coroutines come in in the order of their calls: what has come in is a prefix of what
  has called, and the others wait. -/
  fifo : ∃ line, s.calls = s.entries ++ line ∧ ∀ t, t ∈ line ↔ s.wait t = .waiting
  /-- The assertion holds for whom the queue wakes. -/
  asserted : ∀ a, s.OnlyQueueWakes a → s.step a ≠ .error .assertion
  /-- When no one is inside, the first one that waits has been woken. -/
  handed : (∀ t, s.depth t = 0) → ∀ t, s.wait t = .waiting →
    ∃ u, s.currentThread = some u ∧ s.wait u = .waiting ∧ s.wakeupSession u ≠ none
  /-- When no one is inside and no one waits, the section is free. -/
  free : (∀ t, s.depth t = 0 ∧ s.wait t ≠ .waiting) →
    s.currentThread = none ∧ s.ref = 0 ∧ s.threadQueue = []

end Step

/-! ### The line -/

section Line

variable (s : QueueState Co)

/-- The coroutine that the section was handed to and that has not gone on yet. -/
def handed : List Co := s.currentThread.toList.filter (s.depth · = 0)

/-- The coroutines that wait, in the order in which they will come in. -/
def line : List Co := s.handed ++ s.threadQueue

/-- The invariant. -/
structure Inv (s : QueueState Co) : Prop where
  /-- Who is inside is the current thread, and `ref` is the number of its calls. -/
  inside : ∀ t, 0 < s.depth t → s.currentThread = some t ∧ s.ref = s.depth t
  outside : (∀ t, s.depth t = 0) → s.ref = 0
  free : s.currentThread = none → s.threadQueue = []
  nodup : s.line.Nodup
  waiting : ∀ t, t ∈ s.line ↔ s.wait t = .waiting
  depth_eq : ∀ t ∈ s.line, s.depth t = 0
  history : s.calls = s.entries ++ s.line
  woken : ∀ t, s.currentThread = some t → s.depth t = 0 → s.wakeupSession t ≠ none
  byQueue : ∀ t, s.wakeupSession t = some .queue → s.wait t = .waiting ∧ s.currentThread = some t

variable {s : QueueState Co} {t : Co}

section

variable (hcurrent : s.currentThread = some t)
include hcurrent

theorem mem_line (hdepth : s.depth t = 0) : t ∈ s.line := by
  rw [line, handed, hcurrent]
  exact mem_append_left _ (mem_filter.mpr ⟨mem_singleton_self t, by simpa⟩)

theorem line_of_depth (hdepth : 0 < s.depth t) : s.line = s.threadQueue := by
  rw [line, handed, hcurrent, toList_some, filter_cons_of_neg, filter_nil, nil_append]
  simpa using Nat.pos_iff_ne_zero.mp hdepth

theorem line_of_handed (hdepth : s.depth t = 0) : s.line = t :: s.threadQueue := by
  rw [line, handed, hcurrent, toList_some, filter_cons_of_pos, filter_nil, singleton_append]
  simpa using hdepth

end

theorem Inv.line_of_none (hs : s.Inv) (hcurrent : s.currentThread = none) : s.line = [] := by
  rw [line, handed, hcurrent, hs.free hcurrent]
  rfl

theorem inv_init : (init Co).Inv where
  inside _ ht := absurd ht (Nat.lt_irrefl 0)
  outside _ := rfl
  free _ := rfl
  nodup := nodup_nil
  waiting t := iff_of_false not_mem_nil fun h => by cases h
  depth_eq _ ht := absurd ht not_mem_nil
  history := rfl
  woken _ ht := by cases ht
  byQueue _ ht := by cases ht

theorem Inv.depth_eq_zero (hs : s.Inv) (hcurrent : s.currentThread ≠ some t) : s.depth t = 0 := by
  by_contra hdepth
  exact hcurrent (hs.inside t (Nat.pos_of_ne_zero hdepth)).1

theorem Inv.depth_pos (hs : s.Inv) (hcurrent : s.currentThread = some t)
    (hrunning : s.wait t = .running) : 0 < s.depth t := by
  refine Nat.pos_of_ne_zero fun hdepth => ?_
  have hwaiting := (hs.waiting t).mp (mem_line hcurrent hdepth)
  rw [hrunning] at hwaiting
  cases hwaiting

theorem Inv.mem_threadQueue (hs : s.Inv) (hcurrent : s.currentThread = some t) (u : Co) :
    u ∈ s.threadQueue ↔ u ≠ t ∧ s.wait u = .waiting := by
  have hwaiting := hs.waiting u
  rcases Nat.eq_zero_or_pos (s.depth t) with hdepth | hdepth
  · have hnodup := hs.nodup
    rw [line_of_handed hcurrent hdepth] at hnodup hwaiting
    rw [← hwaiting, mem_cons]
    have hnot := (nodup_cons.mp hnodup).1
    constructor
    · exact fun hu => ⟨fun hut => hnot (hut ▸ hu), .inr hu⟩
    · exact fun ⟨hne, hu⟩ => hu.resolve_left hne
  · rw [line_of_depth hcurrent hdepth] at hwaiting
    rw [hwaiting, iff_and_self]
    rintro hu rfl
    have hzero := hs.depth_eq u ((line_of_depth hcurrent hdepth) ▸ hwaiting.mpr hu)
    exact Nat.ne_of_gt hdepth hzero

end Line

section Steps

variable {s s' : QueueState Co} {t : Co}

theorem Inv.elsewhere (hs : s.Inv) {wait : Co → Wait} {wakeupSession : Co → Option Waker}
    (hwait : ∀ u, wait u = .waiting ↔ s.wait u = .waiting)
    (hqueue : ∀ u, wakeupSession u = some .queue → s.wakeupSession u = some .queue)
    (hwoken : ∀ u, s.wait u = .waiting → s.wakeupSession u ≠ none → wakeupSession u ≠ none) :
    Inv { s with wait := wait, wakeupSession := wakeupSession } where
  inside := hs.inside
  outside := hs.outside
  free := hs.free
  nodup := hs.nodup
  waiting u := (hs.waiting u).trans (hwait u).symm
  depth_eq := hs.depth_eq
  history := hs.history
  woken u hcurrent hdepth :=
    hwoken u ((hs.waiting u).mp (mem_line hcurrent hdepth)) (hs.woken u hcurrent hdepth)
  byQueue u hu := (hs.byQueue u (hqueue u hu)).imp_left (hwait u).mpr

theorem inv_handed {u : Co} {rest : List Co} {wakeupSession : Co → Option Waker}
    (hdepth : ∀ v, s.depth v = 0) (href : s.ref = 0) (hnodup : (u :: rest).Nodup)
    (hwaiting : ∀ v, v ∈ u :: rest ↔ s.wait v = .waiting)
    (hhistory : s.calls = s.entries ++ u :: rest) (hwoken : wakeupSession u ≠ none)
    (hqueue : ∀ v, wakeupSession v = some .queue → v = u) :
    Inv { s with
      currentThread := some u, threadQueue := rest, wakeupSession := wakeupSession } := by
  have hline : line { s with
      currentThread := some u, threadQueue := rest, wakeupSession := wakeupSession } = u :: rest :=
    line_of_handed rfl (hdepth u)
  refine ⟨fun v hv => ?_, fun _ => href, nofun, ?_, fun v => ?_, fun v _ => hdepth v, ?_,
    fun v hv _ => ?_, fun v hv => ?_⟩
  · exact absurd (hdepth v) (Nat.ne_of_gt hv)
  · rw [hline]
    exact hnodup
  · rw [hline]
    exact hwaiting v
  · rw [hline]
    exact hhistory
  · obtain rfl := some_inj.mp hv
    exact hwoken
  · obtain rfl := hqueue v hv
    exact ⟨(hwaiting v).mp mem_cons_self, rfl⟩

theorem inv_leave (hdepth : ∀ v, s.depth v = 0) (href : s.ref = 0) (hempty : s.threadQueue = [])
    (hwaiting : ∀ v, s.wait v ≠ .waiting) (hhistory : s.calls = s.entries)
    (hqueue : ∀ v, s.wakeupSession v ≠ some .queue) : Inv { s with currentThread := none } := by
  have hline : line { s with currentThread := none } = [] := hempty
  refine ⟨fun v hv => ?_, fun _ => href, fun _ => hempty, ?_, fun v => ?_, fun v _ => hdepth v, ?_,
    nofun, fun v hv => absurd hv (hqueue v)⟩
  · exact absurd (hdepth v) (Nat.ne_of_gt hv)
  · rw [hline]
    exact nodup_nil
  · rw [hline]
    exact iff_of_false not_mem_nil (hwaiting v)
  · rw [hline, append_nil]
    exact hhistory

variable [DecidableEq Co]

/-- The wait of one coroutine changes, and it is not in the line. -/
theorem waiting_update {w : Wait} (hold : s.wait t ≠ .waiting) (hnew : w ≠ .waiting) (u : Co) :
    update s.wait t w u = .waiting ↔ s.wait u = .waiting := by
  by_cases hu : u = t
  · rw [hu, update_self]
    exact iff_of_false hnew hold
  · rw [update_of_ne hu]

/-- A mark that `uboss.wakeup` has made is cleared, and the coroutine is not in the line. -/
theorem Inv.clear (hs : s.Inv) {wait : Co → Wait}
    (hwait : ∀ u, wait u = .waiting ↔ s.wait u = .waiting) (hnot : s.wait t ≠ .waiting) :
    Inv { s with wait := wait, wakeupSession := update s.wakeupSession t none } := by
  refine hs.elsewhere hwait (fun u hu => ?_) fun u hwaits hu => ?_
  · by_cases hut : u = t
    · rw [hut, update_self] at hu
      cases hu
    · rwa [update_of_ne hut] at hu
  · rw [update_of_ne]
    · exact hu
    · rintro rfl
      exact hnot hwaits

theorem Inv.wakeup (hs : s.Inv) (t : Co) : (s.wakeup t .other).Inv := by
  unfold QueueState.wakeup
  split_ifs with h
  · refine hs.elsewhere (fun u => Iff.rfl) (fun u hu => ?_) fun u _ hu => ?_
    · by_cases hut : u = t
      · rw [hut, update_self] at hu
        cases hu
      · rwa [update_of_ne hut] at hu
    · by_cases hut : u = t
      · exact absurd h.2 (hut ▸ hu)
      · rwa [update_of_ne hut]
  · exact hs

theorem enter_depth_self : (s.enter t).depth t = s.depth t + 1 := update_self ..

theorem enter_depth_of_ne {u : Co} (hu : u ≠ t) : (s.enter t).depth u = s.depth u := by
  simp [enter, update_of_ne hu]

theorem enter_waiting_iff (u : Co) :
    (s.enter t).wait u = .waiting ↔ u ≠ t ∧ s.wait u = .waiting := by
  change update s.wait t .running u = _ ↔ _
  by_cases hu : u = t
  · rw [hu, update_self]
    exact iff_of_false (fun h => by cases h) fun h => h.1 rfl
  · rw [update_of_ne hu]
    exact (and_iff_right hu).symm

theorem inv_enter (hothers : ∀ u, u ≠ t → s.depth u = 0) (href : s.ref = s.depth t)
    (hnodup : s.threadQueue.Nodup)
    (hwaiting : ∀ u, u ∈ s.threadQueue ↔ u ≠ t ∧ s.wait u = .waiting)
    (hhistory : s.calls = (s.enter t).entries ++ s.threadQueue)
    (hqueue : ∀ u, s.wakeupSession u ≠ some .queue) :
    (s.enter t).Inv := by
  have hline : (s.enter t).line = s.threadQueue :=
    line_of_depth (t := t) rfl (by rw [enter_depth_self]; exact succ_pos _)
  refine ⟨fun u hu => ?_, fun hall => ?_, fun hnone => ?_, ?_, fun u => ?_, fun u hu => ?_, ?_,
    fun u hu hzero => ?_, fun u hu => absurd hu (hqueue u)⟩
  · have hut : u = t := by
      by_contra hut
      rw [enter_depth_of_ne hut, hothers u hut] at hu
      exact Nat.lt_irrefl 0 hu
    subst hut
    refine ⟨rfl, ?_⟩
    rw [enter_depth_self]
    exact congrArg (· + 1) href
  · have hzero := hall t
    rw [enter_depth_self] at hzero
    cases hzero
  · cases hnone
  · rw [hline]
    exact hnodup
  · rw [hline, enter_waiting_iff]
    exact hwaiting u
  · rw [hline, hwaiting] at hu
    rw [enter_depth_of_ne hu.1]
    exact hothers u hu.1
  · rw [hline]
    exact hhistory
  · obtain rfl := some_inj.mp hu
    rw [enter_depth_self] at hzero
    cases hzero

theorem Inv.call_enters (hs : s.Inv) (hrunning : s.wait t = .running)
    (hcurrent : s.currentThread = none ∨ s.currentThread = some t) :
    ((s.noteCall t).enter t).Inv := by
  rcases hcurrent with hcurrent | hcurrent
  · have hdepth (u : Co) : s.depth u = 0 := hs.depth_eq_zero (by rw [hcurrent]; nofun)
    have hline := hs.line_of_none hcurrent
    have hnone : s.threadQueue = [] := hs.free hcurrent
    refine inv_enter (fun u _ => hdepth u) ?_ ?_ (fun u => ?_) ?_ fun u hu => ?_
    · rw [noteCall, hs.outside hdepth, hdepth t]
      rfl
    · rw [noteCall, hnone]
      exact nodup_nil
    · have hwaiting := hs.waiting u
      rw [hline] at hwaiting
      rw [noteCall, hnone, ← hwaiting]
      simp
    · have hhistory := hs.history
      rw [hline, append_nil] at hhistory
      simp [noteCall, enter, hdepth t, hnone, hhistory]
    · have hwho := (hs.byQueue u hu).2
      rw [hcurrent] at hwho
      cases hwho
  · have hdepth := hs.depth_pos hcurrent hrunning
    have hline := line_of_depth hcurrent hdepth
    refine inv_enter (fun u hu => ?_) (hs.inside t hdepth).2 ?_ (hs.mem_threadQueue hcurrent) ?_
      fun u hu => ?_
    · refine hs.depth_eq_zero fun hu' => hu ?_
      rw [hcurrent] at hu'
      exact (some_inj.mp hu').symm
    · have hnodup := hs.nodup
      rwa [hline] at hnodup
    · have hhistory := hs.history
      rw [hline] at hhistory
      simp only [noteCall, enter, if_neg (Nat.ne_of_gt hdepth), hhistory]
    · obtain ⟨hwaits, hwho⟩ := hs.byQueue u hu
      rw [hcurrent] at hwho
      obtain rfl := some_inj.mp hwho
      rw [hrunning] at hwaits
      cases hwaits

theorem Inv.call_waits (hs : s.Inv) (hrunning : s.wait t = .running) {c : Co}
    (hcurrent : s.currentThread = some c) (hct : c ≠ t) :
    Inv { s.noteCall t with
      threadQueue := s.threadQueue ++ [t]
      wait := update s.wait t .waiting } := by
  have hdepth : s.depth t = 0 := by
    refine hs.depth_eq_zero fun h => hct ?_
    rw [hcurrent] at h
    exact some_inj.mp h
  have hout : t ∉ s.line := by
    rw [hs.waiting, hrunning]
    nofun
  have hline : line { s.noteCall t with
      threadQueue := s.threadQueue ++ [t]
      wait := update s.wait t .waiting } = s.line ++ [t] :=
    (append_assoc ..).symm
  refine ⟨hs.inside, hs.outside, fun hnone => ?_, ?_, fun u => ?_, fun u hu => ?_, ?_,
    fun u hu hzero => hs.woken u hu hzero, fun u hu => ?_⟩
  · rw [noteCall, hcurrent] at hnone
    cases hnone
  · rw [hline]
    exact hs.nodup.append (nodup_singleton t) (disjoint_singleton.mpr hout)
  · rw [hline, mem_append, mem_singleton, hs.waiting]
    change _ ↔ update s.wait t .waiting u = _
    by_cases hu : u = t
    · simp [hu]
    · simp [hu]
  · rw [hline, mem_append, mem_singleton] at hu
    rcases hu with hu | rfl
    · exact hs.depth_eq u hu
    · exact hdepth
  · rw [hline]
    simp only [noteCall, hdepth, if_true]
    rw [hs.history, append_assoc]
  · obtain ⟨hwaits, hwho⟩ := hs.byQueue u hu
    refine ⟨?_, hwho⟩
    change update s.wait t .waiting u = _
    by_cases hut : u = t
    · rw [hut, update_self]
    · rw [update_of_ne hut]
      exact hwaits

theorem Inv.call (hs : s.Inv) (hrunning : s.wait t = .running) : (s.call t).Inv := by
  unfold QueueState.call
  cases hcurrent : s.currentThread with
  | none => exact hs.call_enters hrunning (.inl hcurrent)
  | some c =>
    by_cases hct : c = t
    · rw [if_neg (by simp [hct])]
      exact hs.call_enters hrunning (.inr (hct ▸ hcurrent))
    · rw [if_pos (by simp [hct])]
      exact hs.call_waits hrunning hcurrent hct

theorem Inv.admit (hs : s.Inv) (hwaits : s.wait t = .waiting)
    (hqueue : s.wakeupSession t = some .queue) :
    s.ref = 0 ∧ (enter { s with wakeupSession := update s.wakeupSession t none } t).Inv := by
  have hcurrent := (hs.byQueue t hqueue).2
  have hmem := (hs.waiting t).mpr hwaits
  have hdepth := hs.depth_eq t hmem
  have hline := line_of_handed hcurrent hdepth
  have hothers (u : Co) (hu : u ≠ t) : s.depth u = 0 := by
    refine hs.depth_eq_zero fun hu' => hu ?_
    rw [hcurrent] at hu'
    exact (some_inj.mp hu').symm
  have href : s.ref = 0 := by
    apply hs.outside
    intro u
    by_cases hu : u = t
    · rw [hu, hdepth]
    · exact hothers u hu
  refine ⟨href, inv_enter hothers ?_ ?_ (hs.mem_threadQueue hcurrent) ?_ fun u hu => ?_⟩
  · rw [href, hdepth]
    rfl
  · have hnodup := hs.nodup
    rw [hline] at hnodup
    exact (nodup_cons.mp hnodup).2
  · have hhistory := hs.history
    rw [hline, append_cons] at hhistory
    simp [enter, hdepth, hhistory]
  · change update s.wakeupSession t none u = _ at hu
    by_cases hut : u = t
    · rw [hut, update_self] at hu
      cases hu
    · rw [update_of_ne hut] at hu
      have hwho := (hs.byQueue u hu).2
      rw [hcurrent] at hwho
      exact hut (some_inj.mp hwho).symm

theorem inv_handOver (hdepth : ∀ v, s.depth v = 0) (href : s.ref = 0) (hnodup : s.threadQueue.Nodup)
    (hwaiting : ∀ v, v ∈ s.threadQueue ↔ s.wait v = .waiting)
    (hhistory : s.calls = s.entries ++ s.threadQueue)
    (hqueue : ∀ v, s.wakeupSession v ≠ some .queue) : s.handOver.Inv := by
  unfold handOver
  split
  next hempty =>
    rw [hempty] at hhistory hwaiting
    exact inv_leave hdepth href hempty (fun u hu => not_mem_nil ((hwaiting u).mpr hu))
      (hhistory.trans (append_nil _)) hqueue
  next u rest hempty =>
    rw [hempty] at hhistory hwaiting hnodup
    unfold QueueState.wakeup
    split_ifs with hwake
    · refine inv_handed hdepth href hnodup hwaiting hhistory ?_ fun v hv => ?_
      · rw [update_self]
        nofun
      · by_contra hvu
        rw [update_of_ne hvu] at hv
        exact hqueue v hv
    · -- it is marked already
      refine inv_handed hdepth href hnodup hwaiting hhistory (fun hnone => hwake ⟨?_, hnone⟩)
        fun v hv => absurd hv (hqueue v)
      rw [(hwaiting u).mp mem_cons_self]
      nofun

theorem Inv.xpcallRet (hs : s.Inv) (hrunning : s.wait t = .running) (hdepth : 0 < s.depth t) :
    (s.xpcallRet t).Inv := by
  obtain ⟨hcurrent, href⟩ := hs.inside t hdepth
  have hline := line_of_depth hcurrent hdepth
  have hothers (u : Co) (hu : u ≠ t) : update s.depth t (s.depth t - 1) u = 0 := by
    rw [update_of_ne hu]
    refine hs.depth_eq_zero fun hu' => hu ?_
    rw [hcurrent] at hu'
    exact (some_inj.mp hu').symm
  -- only the current thread can carry a mark of the queue, and that one runs
  have hqueue (u : Co) : s.wakeupSession u ≠ some .queue := by
    intro hu
    obtain ⟨hwaits, hwho⟩ := hs.byQueue u hu
    rw [hcurrent] at hwho
    rw [← some_inj.mp hwho, hrunning] at hwaits
    cases hwaits
  have hnodup := hs.nodup
  have hwaiting := hs.waiting
  have hhistory := hs.history
  simp only [hline] at hnodup hwaiting hhistory
  unfold QueueState.xpcallRet
  dsimp only
  split_ifs with hzero
  · refine inv_handOver (fun u => ?_) hzero hnodup hwaiting hhistory hqueue
    by_cases hu : u = t
    · rw [hu]
      simp only [update_self]
      omega
    · exact hothers u hu
  · -- an inner call returns
    have hpos : 0 < update s.depth t (s.depth t - 1) t := by
      rw [update_self]
      omega
    have hline' : line { s with
        ref := s.ref - 1, depth := update s.depth t (s.depth t - 1) } = s.threadQueue :=
      line_of_depth hcurrent hpos
    refine ⟨fun u hu => ?_, fun hall => absurd (hall t) (Nat.ne_of_gt hpos), hs.free, ?_,
      fun u => ?_, fun u hu => ?_, ?_, fun u hu hzero => ?_, fun u hu => absurd hu (hqueue u)⟩
    · have hut : u = t := by
        by_contra hut
        exact Nat.ne_of_gt hu (hothers u hut)
      subst hut
      refine ⟨hcurrent, ?_⟩
      simp only [update_self]
      omega
    · rw [hline']
      exact hnodup
    · rw [hline']
      exact hwaiting u
    · rw [hline'] at hu
      apply hothers
      rintro rfl
      rw [(hwaiting u).mp hu] at hrunning
      cases hrunning
    · rw [hline']
      exact hhistory
    · have hut : t = u := by
        simpa [hcurrent] using hu
      rw [← hut] at hzero
      exact absurd hzero (Nat.ne_of_gt hpos)

theorem Inv.dispatchWakeup (hs : s.Inv)
    (hguard : s.wait t = .waiting → s.wakeupSession t = some .queue) :
    ∃ s', s.dispatchWakeup t = .ok s' ∧ s'.Inv := by
  unfold QueueState.dispatchWakeup
  dsimp only
  cases hwait : s.wait t with
  | running => exact ⟨_, rfl, hs.clear (fun _ => Iff.rfl) (by rw [hwait]; nofun)⟩
  | asleep =>
    have hnot : s.wait t ≠ .waiting := by
      rw [hwait]
      nofun
    exact ⟨_, rfl, hs.clear (waiting_update hnot (by nofun)) hnot⟩
  | waiting =>
    obtain ⟨href, hinv⟩ := hs.admit hwait (hguard hwait)
    exact ⟨_, if_pos href, hinv⟩

theorem Inv.step (hs : s.Inv) {a : QueueAct Co} (hguard : s.OnlyQueueWakes a)
    (hstep : s.step a = .ok s') : s'.Inv := by
  cases a with
  | call t =>
    simp only [QueueState.step] at hstep
    split_ifs at hstep with hrunning
    cases hstep
    exact hs.call hrunning
  | ret t ok =>
    simp only [QueueState.step] at hstep
    split_ifs at hstep with hret
    cases hstep
    exact hs.xpcallRet hret.1 hret.2
  | sleep t =>
    simp only [QueueState.step] at hstep
    split_ifs at hstep with hrunning
    cases hstep
    exact hs.elsewhere (waiting_update (by rw [hrunning]; nofun) (by nofun)) (fun _ => id)
      fun _ _ => id
  | wakeup t =>
    cases hstep
    exact hs.wakeup t
  | timer t =>
    simp only [QueueState.step] at hstep
    split_ifs at hstep with hasleep
    cases hstep
    exact hs.elsewhere (waiting_update (by rw [hasleep]; nofun) (by nofun)) (fun _ => id)
      fun _ _ => id
  | dispatch t =>
    simp only [QueueState.step] at hstep
    split_ifs at hstep
    obtain ⟨s'', hs'', hinv⟩ := hs.dispatchWakeup hguard
    rw [hs''] at hstep
    cases hstep
    exact hinv

theorem Inv.asserted (hs : s.Inv) {a : QueueAct Co} (hguard : s.OnlyQueueWakes a) :
    s.step a ≠ .error .assertion := by
  cases a with
  | call t | ret t ok | sleep t | timer t =>
    simp only [QueueState.step]
    split_ifs <;> nofun
  | wakeup t => nofun
  | dispatch t =>
    simp only [QueueState.step]
    split_ifs
    · nofun
    · obtain ⟨s', hs', -⟩ := hs.dispatchWakeup hguard
      rw [hs']
      nofun

theorem Inv.fairMutex (hs : s.Inv) : s.FairMutex where
  exclusive t u ht hu := by
    have hthread := (hs.inside t ht).1
    rw [(hs.inside u hu).1] at hthread
    exact (some_inj.mp hthread).symm
  reenters t ht hrunning := by
    have hcall : s.call t = (s.noteCall t).enter t := if_neg (by simp [(hs.inside t ht).1])
    refine ⟨_, if_pos hrunning, ?_, ?_⟩
    · rw [hcall, enter_depth_self, noteCall]
    · rw [hcall, enter]
      exact update_self ..
  fifo := ⟨s.line, hs.history, hs.waiting⟩
  asserted _ hguard := hs.asserted hguard
  handed hall t hwaits := by
    cases hcurrent : s.currentThread with
    | none =>
      have hmem := (hs.waiting t).mpr hwaits
      rw [hs.line_of_none hcurrent] at hmem
      cases hmem
    | some u =>
      exact ⟨u, rfl, (hs.waiting u).mp (mem_line hcurrent (hall u)), hs.woken u hcurrent (hall u)⟩
  free hall := by
    have hnone : s.currentThread = none := by
      cases hcurrent : s.currentThread with
      | none => rfl
      | some u => exact absurd ((hs.waiting u).mp (mem_line hcurrent (hall u).1)) (hall u).2
    exact ⟨hnone, hs.outside fun t => (hall t).1, hs.free hnone⟩

end Steps

end QueueState

end Uboss.Framework
