import Mathlib.Data.Fintype.BigOperators
import Uboss.Math.ThreadSum
import Uboss.Math.Transition

/-!
# The worker threads

`thread_worker`, `thread_timer` and `wakeup` in `uboss_start.c`: workers that find no message sleep
at the condition variable, other threads wake them, and the timer thread ends them all. Every
access of a worker to `quit` and `sleep` is one step, as is a call of `wakeup` or of
`uboss_context_message_dispatch`. `pthread_cond_wait` may return at any time, and a signal wakes one
of the threads that wait.
-/

namespace Uboss.Core

open Math Function Option Finset

/-- Where a worker is in `thread_worker`. -/
inductive WorkerPc
  /-- Before `while (!m->quit)`. -/
  | test
  | dispatch
  /-- Before `pthread_mutex_lock`. -/
  | lock
  /-- Before `++ m->sleep`. -/
  | count
  /-- Before `if (!m->quit)`. -/
  | check
  | waiting
  /-- In `pthread_cond_wait`, woken, and without the mutex. -/
  | relock
  /-- Before `-- m->sleep`. -/
  | uncount
  | unlock
  | done
  deriving DecidableEq, Repr

namespace WorkerPc

/-- The worker is counted in `sleep`. -/
def sleeps : WorkerPc → ℕ
  | .check | .waiting | .relock | .uncount => 1
  | _ => 0

/-- The worker has the mutex. -/
def holds : WorkerPc → ℕ
  | .count | .check | .uncount | .unlock => 1
  | _ => 0

/-- The steps to the end of the thread once `quit` is set. -/
def rank : WorkerPc → ℕ
  | .dispatch => 7
  | .lock => 6
  | .count => 5
  | .check | .relock | .waiting => 4
  | .uncount => 3
  | .unlock => 2
  | .test => 1
  | .done => 0

end WorkerPc

/-- Where the timer thread is in `thread_timer`. -/
inductive TickerPc
  /-- Before `uboss_updatetime` and `CHECK_ABORT`. -/
  | update
  | wakeup
  | lock
  /-- Before `m->quit = 1`. -/
  | quit
  | broadcast
  | unlock
  | done
  deriving DecidableEq, Repr

namespace TickerPc

/-- The timer thread has the mutex. -/
def holds : TickerPc → ℕ
  | .quit | .broadcast | .unlock => 1
  | _ => 0

/-- The timer thread has set `quit`. -/
def quits : TickerPc → Bool
  | .broadcast | .unlock | .done => true
  | _ => false

end TickerPc

/-- The part of `struct monitor` that the threads share, and the threads. -/
structure Workers (Tid : Type) where
  sleep : ℤ
  quit : Bool
  mutex : Bool
  worker : Tid → WorkerPc
  timer : TickerPc

/-- The steps: the next one of a worker, which may find a queue, the next one of the timer thread,
which may find no service and may wake a worker, a `wakeup` by the socket thread, and a worker that
is woken by nobody. -/
inductive WorkersAct (Tid : Type)
  | work (t : Tid) (found : Bool)
  | tick (abort : Bool) (woken : Option Tid)
  | poll (woken : Option Tid)
  | spurious (t : Tid)
  deriving DecidableEq, Repr

namespace WorkersAct

/-- The step is one of the worker `t`. -/
def isWork {Tid : Type} [DecidableEq Tid] (t : Tid) : WorkersAct Tid → Bool
  | .work u _ => u = t
  | _ => false

end WorkersAct

namespace Workers

variable {Tid : Type}

/-- The threads as `start` creates them. -/
def start : Workers Tid where
  sleep := 0
  quit := false
  mutex := false
  worker _ := .test
  timer := .update

section Steps

variable [DecidableEq Tid] (s : Workers Tid)

/-- The worker goes on. -/
def goto (t : Tid) (p : WorkerPc) : Workers Tid := { s with worker := Function.update s.worker t p }

/-- The next step of `thread_worker`. -/
def work (t : Tid) (found : Bool) : Option (Workers Tid) :=
  match s.worker t with
  | .test => some (s.goto t (if s.quit then .done else .dispatch))
  | .dispatch => some (s.goto t (if found then .test else .lock))
  | .lock => if s.mutex then none else some ({ s with mutex := true }.goto t .count)
  | .count => some ({ s with sleep := s.sleep + 1 }.goto t .check)
  | .check =>
    if s.quit then some (s.goto t .uncount)
    else some ({ s with mutex := false }.goto t .waiting)
  | .waiting => none
  | .relock => if s.mutex then none else some ({ s with mutex := true }.goto t .uncount)
  | .uncount => some ({ s with sleep := s.sleep - 1 }.goto t .unlock)
  | .unlock => some ({ s with mutex := false }.goto t .test)
  | .done => none

/-- A worker leaves the condition variable. -/
def wake (t : Tid) : Option (Workers Tid) :=
  if s.worker t = .waiting then some (s.goto t .relock) else none

end Steps

section Signals

variable [Fintype Tid] [DecidableEq Tid] (s : Workers Tid)

/-- `wakeup`: the signal wakes a worker that waits, if there is one. -/
def wakeup (busy : ℤ) (woken : Option Tid) : Option (Workers Tid) :=
  if s.sleep ≥ Fintype.card Tid - busy then
    match woken with
    | some t => s.wake t
    | none => if ∀ t, s.worker t ≠ .waiting then some s else none
  else some s

/-- The next step of `thread_timer`. -/
def tick (abort : Bool) (woken : Option Tid) : Option (Workers Tid) :=
  match s.timer with
  | .update => some { s with timer := if abort then .lock else .wakeup }
  | .wakeup => (s.wakeup (Fintype.card Tid - 1) woken).map fun s => { s with timer := .update }
  | .lock => if s.mutex then none else some { s with mutex := true, timer := .quit }
  | .quit => some { s with quit := true, timer := .broadcast }
  | .broadcast =>
    some { s with
      worker := fun t => if s.worker t = .waiting then .relock else s.worker t
      timer := .unlock }
  | .unlock => some { s with mutex := false, timer := .done }
  | .done => none

/-- A step. -/
def step : WorkersAct Tid → Option (Workers Tid)
  | .work t found => s.work t found
  | .tick abort woken => s.tick abort woken
  | .poll woken => s.wakeup 0 woken
  | .spurious t => s.wake t

end Signals

/-- What the step of one worker changes. -/
structure Moved [DecidableEq Tid] (s : Workers Tid) (t : Tid) (p : WorkerPc) (s' : Workers Tid) :
    Prop where
  worker : s'.worker = Function.update s.worker t p
  timer : s'.timer = s.timer
  quit : s'.quit = s.quit
  sleep : s'.sleep + (s.worker t).sleeps = s.sleep + p.sleeps
  mutex : s'.mutex.toNat + (s.worker t).holds = s.mutex.toNat + p.holds
  waits : p = .waiting → s.quit = false

/-- What `sleep`, the mutex and `quit` say about the threads. -/
structure Inv [Fintype Tid] (s : Workers Tid) : Prop where
  counted : s.sleep = (∑ t, (s.worker t).sleeps : ℕ)
  locked : ∑ t, (s.worker t).holds + s.timer.holds = s.mutex.toNat
  quit_eq : s.quit = s.timer.quits
  awake : s.timer = .unlock ∨ s.timer = .done → ∀ t, s.worker t ≠ .waiting

section Invariant

variable [DecidableEq Tid] {s s' : Workers Tid} {t : Tid} {p : WorkerPc}

theorem Moved.goto {old : WorkerPc} {sleep : ℤ} {mutex : Bool} (hpc : s.worker t = old)
    (hsleep : sleep + old.sleeps = s.sleep + p.sleeps)
    (hmutex : mutex.toNat + old.holds = s.mutex.toNat + p.holds)
    (hwaits : p = .waiting → s.quit = false) :
    s.Moved t p ({ s with sleep := sleep, mutex := mutex }.goto t p) :=
  ⟨rfl, rfl, rfl, by rwa [hpc], by rwa [hpc], hwaits⟩

theorem moved_of_wake (h : s.wake t = some s') : s.Moved t .relock s' := by
  obtain ⟨hpc, heq⟩ := ite_none_right_eq_some.mp h
  cases heq
  exact .goto hpc rfl rfl nofun

/-- A worker that unlocks the mutex has it. -/
theorem moved_of_work {found : Bool} (hheld : (s.worker t).holds ≤ s.mutex.toNat)
    (h : s.work t found = some s') :
    ∃ p, s.Moved t p s' ∧ (s.quit = true → p.rank < (s.worker t).rank) := by
  unfold work at h
  cases hpc : s.worker t <;> rw [hpc] at h hheld <;> dsimp only at h
  case waiting | done => cases h
  case test =>
    cases h
    cases hquit : s.quit
    · exact ⟨.dispatch, .goto hpc rfl rfl nofun, nofun⟩
    · exact ⟨.done, .goto hpc rfl rfl nofun, fun _ => by decide⟩
  case dispatch =>
    cases h
    cases found
    · exact ⟨.lock, .goto hpc rfl rfl nofun, fun _ => by decide⟩
    · exact ⟨.test, .goto hpc rfl rfl nofun, fun _ => by decide⟩
  case lock | relock =>
    split_ifs at h with hfree
    cases h
    exact ⟨_, .goto hpc rfl (by rw [Bool.eq_false_iff.mpr hfree]; rfl) nofun, fun _ => by decide⟩
  case count =>
    cases h
    exact ⟨.check, .goto hpc (add_assoc ..) rfl nofun, fun _ => by decide⟩
  case check =>
    have hmutex : s.mutex.toNat = 1 := le_antisymm (Bool.toNat_le _) hheld
    split_ifs at h with hquit <;> cases h
    · exact ⟨.uncount, .goto hpc rfl rfl nofun, fun _ => by decide⟩
    · exact ⟨.waiting, .goto hpc rfl hmutex.symm fun _ => Bool.eq_false_iff.mpr hquit,
        fun h => absurd h hquit⟩
  case uncount =>
    cases h
    exact ⟨.unlock, .goto hpc ((sub_add_cancel ..).trans (add_zero _).symm) rfl nofun,
      fun _ => by decide⟩
  case unlock =>
    cases h
    have hmutex : s.mutex.toNat = 1 := le_antisymm (Bool.toNat_le _) hheld
    exact ⟨.test, .goto hpc rfl hmutex.symm nofun, fun _ => by decide⟩

variable [Fintype Tid]

omit [DecidableEq Tid] in
theorem inv_start : (start : Workers Tid).Inv where
  counted := (congrArg Nat.cast sum_const_zero).symm
  locked := sum_const_zero
  quit_eq := rfl
  awake h := by rcases h with h | h <;> cases h

theorem Inv.moved (h : s.Inv) (hmove : s.Moved t p s') : s'.Inv where
  counted := by
    have hsum := sum_update_add WorkerPc.sleeps s.worker t p
    have hsleep := hmove.sleep
    rw [h.counted] at hsleep
    rw [hmove.worker]
    omega
  locked := by
    have hsum := sum_update_add WorkerPc.holds s.worker t p
    have hmutex := hmove.mutex
    rw [← h.locked] at hmutex
    rw [hmove.worker, hmove.timer]
    omega
  quit_eq := by rw [hmove.quit, hmove.timer, h.quit_eq]
  awake hend u := by
    rw [hmove.timer] at hend
    rw [hmove.worker]
    by_cases hu : u = t
    · rw [hu, update_self]
      intro hp
      have hquit := h.quit_eq.symm.trans (hmove.waits hp)
      rcases hend with hend | hend <;> rw [hend] at hquit <;> cases hquit
    · rw [update_of_ne hu]
      exact h.awake hend u

theorem Inv.work {found : Bool} (h : s.Inv) (hstep : s.work t found = some s') :
    ∃ p, s.Moved t p s' ∧ (s.quit = true → p.rank < (s.worker t).rank) := by
  refine moved_of_work ?_ hstep
  have hle := le_sum_thread WorkerPc.holds s.worker t
  have hlocked := h.locked
  omega

theorem wakeup_cases {busy : ℤ} {woken : Option Tid} (h : s.wakeup busy woken = some s') :
    s' = s ∨ ∃ t, s.wake t = some s' := by
  unfold wakeup at h
  split at h
  · cases woken with
    | some t => exact .inr ⟨t, h⟩
    | none => exact .inl (some_inj.mp (ite_none_right_eq_some.mp h).2).symm
  · exact .inl (some_inj.mp h).symm

theorem Inv.wakeup {busy : ℤ} {woken : Option Tid} (h : s.Inv)
    (hstep : s.wakeup busy woken = some s') : s'.Inv ∧ s'.timer = s.timer := by
  obtain rfl | ⟨t, hwake⟩ := wakeup_cases hstep
  · exact ⟨h, rfl⟩
  · have hmove := moved_of_wake hwake
    exact ⟨h.moved hmove, hmove.timer⟩

omit [DecidableEq Tid] in
/-- The timer thread goes on. -/
theorem Inv.timer {q : TickerPc} {quit mutex : Bool} (h : s.Inv)
    (hlocked : mutex.toNat + s.timer.holds = s.mutex.toNat + q.holds) (hquit : quit = q.quits)
    (hawake : q ≠ .unlock ∧ q ≠ .done ∨ ∀ t, s.worker t ≠ .waiting) :
    ({ s with quit := quit, mutex := mutex, timer := q } : Workers Tid).Inv where
  counted := h.counted
  locked := by
    have hold := h.locked
    dsimp only
    omega
  quit_eq := hquit
  awake hend := hawake.resolve_left fun hne => hend.elim hne.1 hne.2

omit [DecidableEq Tid] in
theorem Inv.broadcast (h : s.Inv) (htimer : s.timer = .broadcast) :
    ({ s with
      worker := fun t => if s.worker t = .waiting then .relock else s.worker t
      timer := .unlock } : Workers Tid).Inv where
  counted := by
    refine h.counted.trans (congrArg Nat.cast (sum_congr rfl fun t _ => ?_))
    dsimp only
    split_ifs with hwait
    · rw [hwait]
      rfl
    · rfl
  locked := by
    refine Eq.trans ?_ h.locked
    rw [htimer]
    refine congrArg (· + 1) (sum_congr rfl fun t _ => ?_)
    dsimp only
    split_ifs with hwait
    · rw [hwait]
      rfl
    · rfl
  quit_eq := by
    rw [h.quit_eq, htimer]
    rfl
  awake _ t := by
    dsimp only
    split_ifs with hwait
    · nofun
    · exact hwait

theorem Inv.tick {abort : Bool} {woken : Option Tid} (h : s.Inv)
    (hstep : s.tick abort woken = some s') : s'.Inv := by
  have hquit := h.quit_eq
  have hmutex : s.timer.holds ≤ s.mutex.toNat := h.locked ▸ Nat.le_add_left ..
  unfold Workers.tick at hstep
  cases htimer : s.timer <;> rw [htimer] at hstep hquit hmutex <;> dsimp only at hstep
  case update =>
    cases hstep
    cases abort <;> exact h.timer (by rw [htimer]; rfl) hquit (.inl (by decide))
  case wakeup =>
    obtain ⟨u, hwake, rfl⟩ := map_eq_some_iff.mp hstep
    obtain ⟨hu, hsame⟩ := h.wakeup hwake
    refine hu.timer ?_ ?_ (.inl (by decide))
    · rw [hsame, htimer]
      rfl
    · rw [hu.quit_eq, hsame, htimer]
      rfl
  case lock =>
    split_ifs at hstep with hfree
    cases hstep
    refine h.timer ?_ hquit (.inl (by decide))
    rw [htimer, Bool.eq_false_iff.mpr hfree]
    rfl
  case quit =>
    cases hstep
    exact h.timer (by rw [htimer]; rfl) rfl (.inl (by decide))
  case broadcast =>
    cases hstep
    exact h.broadcast htimer
  case unlock =>
    cases hstep
    refine h.timer ?_ hquit (.inr (h.awake (.inl htimer)))
    rw [htimer]
    exact le_antisymm hmutex (Bool.toNat_le _)
  case done => cases hstep

theorem Inv.step {a : WorkersAct Tid} (h : s.Inv) (hstep : s.step a = some s') : s'.Inv := by
  cases a with
  | work t found =>
    obtain ⟨p, hmove, -⟩ := h.work hstep
    exact h.moved hmove
  | tick abort woken => exact h.tick hstep
  | poll woken => exact (h.wakeup hstep).1
  | spurious t => exact h.moved (moved_of_wake hstep)

theorem inv_of_run {acts : List (WorkersAct Tid)} (hrun : Run step anyAction start acts s) :
    s.Inv :=
  hrun.invariant inv_start fun _ hnext hs => hs.step hnext

end Invariant

section Shutdown

variable [Fintype Tid] [DecidableEq Tid] {s s' : Workers Tid} {t : Tid} {p : WorkerPc}

/-- Once all have been woken, a step of a worker is progress, and the others change nothing. -/
theorem Inv.progress {a : WorkersAct Tid} (h : s.Inv) (hdone : s.timer = .done)
    (hstep : s.step a = some s') :
    s'.timer = .done ∧ ∀ t, (s'.worker t).rank + (a.isWork t).toNat ≤ (s.worker t).rank := by
  have hasleep : ∀ t, s.wake t ≠ some s' := fun t hwake =>
    h.awake (.inr hdone) t (ite_none_right_eq_some.mp hwake).1
  cases a with
  | work t found =>
    obtain ⟨p, hmove, hrank⟩ := h.work hstep
    have hquit : s.quit = true := by
      rw [h.quit_eq, hdone]
      rfl
    refine ⟨hmove.timer.trans hdone, fun u => ?_⟩
    rw [hmove.worker]
    by_cases hu : u = t
    · subst hu
      rw [update_self, WorkersAct.isWork, decide_eq_true rfl]
      exact hrank hquit
    · rw [update_of_ne hu, WorkersAct.isWork, decide_eq_false (Ne.symm hu)]
      exact le_rfl
  | tick abort woken =>
    rw [Workers.step, Workers.tick, hdone] at hstep
    cases hstep
  | poll woken =>
    obtain rfl | ⟨t, hwake⟩ := wakeup_cases hstep
    · exact ⟨hdone, fun _ => le_rfl⟩
    · exact absurd hwake (hasleep t)
  | spurious t => exact absurd hstep (hasleep t)

theorem Inv.progress_run {acts : List (WorkersAct Tid)} (h : s.Inv) (hdone : s.timer = .done)
    (hrun : Run Workers.step anyAction s acts s') :
    s'.Inv ∧ s'.timer = .done ∧
      ∀ t, (s'.worker t).rank + acts.countP (·.isWork t) ≤ (s.worker t).rank := by
  induction hrun with
  | nil => exact ⟨h, hdone, fun _ => le_rfl⟩
  | snoc _ _ hnext ih =>
    obtain ⟨hinv, hend, hle⟩ := ih
    obtain ⟨hlast, hless⟩ := hinv.progress hend hnext
    refine ⟨hinv.step hnext, hlast, fun t => ?_⟩
    have hle := hle t
    have hless := hless t
    rw [Bool.toNat, Bool.cond_eq_ite] at hless
    rw [List.countP_append, List.countP_singleton]
    omega

omit [Fintype Tid] in
theorem stuck_cases (h : ∀ found, s.work t found = none) :
    s.worker t = .waiting ∨ s.worker t = .done ∨ (s.worker t).holds = 0 ∧ s.mutex = true := by
  have hnone := h true
  unfold work at hnone
  cases hpc : s.worker t <;> rw [hpc] at hnone <;> dsimp only at hnone
  case waiting => exact .inl rfl
  case done => exact .inr (.inl rfl)
  case lock | relock =>
    split_ifs at hnone with hmutex
    exact .inr (.inr ⟨rfl, hmutex⟩)
  case check => split_ifs at hnone
  all_goals cases hnone

/-- A worker with the mutex can go on, and without one the mutex is free. -/
theorem Inv.done_of_stuck (h : s.Inv) (hdone : s.timer = .done)
    (hstuck : ∀ t found, s.work t found = none) (t : Tid) : s.worker t = .done := by
  have hasleep := h.awake (.inr hdone)
  obtain hpc | hpc | ⟨-, hmutex⟩ := stuck_cases (hstuck t)
  · exact absurd hpc (hasleep t)
  · exact hpc
  · have hlocked := h.locked
    rw [hdone, hmutex] at hlocked
    have hne : ∑ u, (s.worker u).holds ≠ 0 := ne_of_eq_of_ne hlocked Nat.one_ne_zero
    obtain ⟨u, -, hu⟩ := exists_ne_zero_of_sum_ne_zero hne
    obtain hpc | hpc | ⟨hpc, -⟩ := stuck_cases (hstuck u)
    · exact absurd hpc (hasleep u)
    · exact absurd (congrArg WorkerPc.holds hpc) hu
    · exact absurd hpc hu

omit [DecidableEq Tid] in
theorem Inv.sleep_pos (h : s.Inv) (hwait : s.worker t = .waiting) : 1 ≤ s.sleep := by
  have hle := le_sum_thread WorkerPc.sleeps s.worker t
  rw [hwait] at hle
  rw [h.counted]
  exact_mod_cast hle

/-- A signal that is sent wakes a worker that waits. -/
theorem wakes_of_wakeup {busy : ℤ} {woken : Option Tid} (hwait : s.worker t = .waiting)
    (hsleep : Fintype.card Tid - busy ≤ s.sleep) (hwakeup : s.wakeup busy woken = some s') :
    ∃ u, s.worker u = .waiting ∧ s' = s.goto u .relock := by
  unfold wakeup at hwakeup
  rw [if_pos hsleep] at hwakeup
  cases woken with
  | some u =>
    obtain ⟨hu, heq⟩ := ite_none_right_eq_some.mp hwakeup
    exact ⟨u, hu, (some_inj.mp heq).symm⟩
  | none => exact absurd hwait ((ite_none_right_eq_some.mp hwakeup).1 t)

/-- In every run `sleep` counts the workers that sleep; a call of `wakeup` by the timer thread wakes
one of those that wait, if there is one, and a call by the socket thread does if all of them wait.
Once the timer thread has ended, whatever the order of the steps, no worker waits, each worker takes
at most seven more steps, and they have all ended when none has a step. -/
theorem shutdown_of_run {acts : List (WorkersAct Tid)} (hrun : Run step anyAction start acts s) :
    s.sleep = (∑ t, (s.worker t).sleeps : ℕ) ∧ (∀ busy woken s', s.wakeup busy woken = some s' →
        (busy = Fintype.card Tid - 1 ∧ ∃ t, s.worker t = .waiting) ∨
          (busy = 0 ∧ Nonempty Tid ∧ ∀ t, s.worker t = .waiting) →
        ∃ t, s.worker t = .waiting ∧ s' = s.goto t .relock) ∧
      (s.timer = .done → (∀ t, s.worker t ≠ .waiting) ∧ ∀ acts' s', Run step anyAction s acts' s' →
          (∀ t, acts'.countP (·.isWork t) ≤ 7) ∧
            ((∀ t found, s'.work t found = none) → ∀ t, s'.worker t = .done)) := by
  have h := inv_of_run hrun
  refine ⟨h.counted, ?_, fun hdone => ⟨h.awake (.inr hdone), ?_⟩⟩
  · rintro busy woken s' hwakeup (⟨rfl, t, hwait⟩ | ⟨rfl, ⟨t⟩, hall⟩)
    · have hpos := h.sleep_pos hwait
      exact wakes_of_wakeup hwait (by omega) hwakeup
    · have hsleep : s.sleep = Fintype.card Tid := by
        rw [h.counted]
        simp [hall, WorkerPc.sleeps]
      exact wakes_of_wakeup (hall t) (by omega) hwakeup
  · intro acts' s' hrest
    obtain ⟨hinv, hend, hle⟩ := h.progress_run hdone hrest
    refine ⟨fun t => ?_, hinv.done_of_stuck hend⟩
    have hseven : (s.worker t).rank ≤ 7 := by cases s.worker t <;> decide
    exact (Nat.le_add_left ..).trans ((hle t).trans hseven)

end Shutdown

/-- One of two workers goes to sleep, and the timer thread ends. -/
def lastSleep : List (WorkersAct Bool) :=
  [.work false true, .work false false, .work false false, .work false false, .work false false,
    .tick true none, .tick true none, .tick true none, .tick true none, .tick true none]

theorem shutdown_of_run_one : ∃ s, exec step start lastSleep = some s ∧ s.timer = .done ∧
    ∀ acts s', Run step anyAction s acts s' → ∀ t, acts.countP (·.isWork t) ≤ 7 :=
  have hrun : Run step anyAction start lastSleep _ := run_of_exec rfl
  ⟨_, rfl, rfl, fun acts s' hrest => ((shutdown_of_run hrun).2.2 rfl).2 acts s' hrest |>.1⟩

end Workers

end Uboss.Core
