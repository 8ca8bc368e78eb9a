import Mathlib.Data.Fintype.Basic
import Uboss.Framework.ServiceCalls

/-!
# Broken sleeps

`uboss.wakeup` puts a coroutine that sleeps into `wakeup_session`, and a later call of
`dispatch_wakeup` takes it out again and breaks the sleep. When the calls of `suspend` are left by
an error in between, the coroutine stays there. Its timer ends the sleep, and if it then sleeps
again, that sleep is broken.

The timer of a broken sleep finds `"BREAK"` in `session_id_coroutine`, which keeps its session from
all other uses.
-/

namespace Uboss.Framework

open Math Function List Option CoStatus

variable {Co Address : Type}

/-- A call of `uboss.sleep`. -/
structure SleepCall where
  session : ℕ
  /-- The coroutine was in `wakeup_session` when it began. -/
  pending : Bool
  /-- `uboss.wakeup` has returned `true` for the coroutine since. -/
  woken : Bool
  deriving DecidableEq

namespace LuaService

/-- What an observer knows of the sleeps. Only a timer responds to the session of a sleep. -/
structure SleepLog (Co : Type) where
  /-- The last sleep of each coroutine. -/
  last : Co → SleepCall
  /-- The sessions of the sleeps for which the timer has not responded yet. -/
  timers : List ℕ
  /-- Those of sleeps that were broken. -/
  stale : List ℕ
  /-- The sleeps that have returned `"BREAK"`. -/
  broken : List SleepCall

section Log

variable [DecidableEq Co] (log : SleepLog Co) (co : Co)

namespace SleepLog

def init (Co : Type) : SleepLog Co := ⟨fun _ => ⟨0, false, false⟩, [], [], []⟩

/-- A sleep begins. -/
def begin (session : ℕ) (pending : Bool) : SleepLog Co :=
  { log with
    last := Function.update log.last co ⟨session, pending, false⟩
    timers := session :: log.timers }

/-- `uboss.wakeup` returns `true`. -/
def wake : SleepLog Co :=
  { log with last := Function.update log.last co { log.last co with woken := true } }

/-- A sleep returns `"BREAK"`. -/
def interrupt (session : ℕ) : SleepLog Co :=
  { log with
    stale := if session ∈ log.timers then session :: log.stale else log.stale
    broken := log.last co :: log.broken }

/-- A timer responds. -/
def respond (session : ℕ) : SleepLog Co :=
  { log with
    timers := log.timers.filter fun n => n ≠ session
    stale := log.stale.filter fun n => n ≠ session }

/-- `dispatch_wakeup` has found a coroutine. -/
def deliver (s : LuaService Co Address) : SleepLog Co :=
  match s.status co, s.sleepSession co with
  | .sleep session, some _ => log.interrupt co session
  | _, _ => log

/-- What the observer sees of a step. -/
def next (s : LuaService Co Address) : ServiceAct Co Address → SleepLog Co
  | .yield (.sleep session) =>
    match s.pc with
    | .running co _ => log.begin co session (decide (co ∈ s.wakeupSession))
    | _ => log
  | .call (.wakeup co) =>
    if (s.sleepSession co).isSome ∧ co ∉ s.wakeupSession then log.wake co else log
  | .dispatch (.wakeup (some co)) => log.deliver co s
  | .message (.response session) => log.respond session
  | _ => log

end SleepLog

/-- The service and its observer. -/
def observedStep [DecidableEq Address] (p : LuaService Co Address × SleepLog Co)
    (a : ServiceAct Co Address) : Option (LuaService Co Address × SleepLog Co) :=
  (p.1.step a).map fun s => (s, p.2.next p.1 a)

def observed (Co Address : Type) : LuaService Co Address × SleepLog Co :=
  (.init Co Address, .init Co)

/-- The core gives no session twice, as long as it is in use: that of a coroutine in `uboss.wait` is
in use until it comes back. -/
def Numbered (p : LuaService Co Address × SleepLog Co) : ServiceAct Co Address → Prop
  | .yield (.sleep session) => ∀ co target, p.1.status co ≠ .wait session target
  | _ => True

/-- A coroutine that begins to sleep is not in `wakeup_session`. -/
def Awaited (p : LuaService Co Address × SleepLog Co) : ServiceAct Co Address → Prop
  | .yield (.sleep _) => p.1.pc.Ensures fun co _ => co ∉ p.1.wakeupSession
  | _ => True

instance [Fintype Co] (p : LuaService Co Address × SleepLog Co) :
    ∀ a : ServiceAct Co Address, Decidable (Numbered p a)
  | .yield (.sleep session) =>
    inferInstanceAs (Decidable (∀ co target, p.1.status co ≠ .wait session target))
  | .yield (.call _ _) | .yield (.wait _ _) | .yield (.ret _) | .yield .response | .yield .exit
  | .yield .finish | .yield .trace | .yield .unknown | .yield .raise | .message _ | .call _
  | .dispatch _ => .isTrue trivial

instance (p : LuaService Co Address × SleepLog Co) :
    ∀ a : ServiceAct Co Address, Decidable (Awaited p a)
  | .yield (.sleep _) =>
    inferInstanceAs (Decidable (p.1.pc.Ensures fun co _ => co ∉ p.1.wakeupSession))
  | .yield (.call _ _) | .yield (.wait _ _) | .yield (.ret _) | .yield .response | .yield .exit
  | .yield .finish | .yield .trace | .yield .unknown | .yield .raise | .message _ | .call _
  | .dispatch _ => .isTrue trivial

end Log

variable {s s' s'' : LuaService Co Address} {co : Co} {session frames n : ℕ}

/-! ### Steps in which nobody begins to wait -/

/-- No coroutine begins to sleep or to wait. The tables lose entries only, and the entry of a
session in `session_id_coroutine` changes only when a coroutine comes back from `uboss.wait`. -/
structure Quiet (s s' : LuaService Co Address) : Prop where
  status : ∀ co, s'.status co = s.status co ∨
    (∀ session, s'.status co ≠ .sleep session) ∧
      ∀ session target, s'.status co ≠ .wait session target
  entry : ∀ session, (∀ co target, s.status co ≠ .wait session target) →
    s'.sessionIdCoroutine session = s.sessionIdCoroutine session
  sleepSession : ∀ co, s'.sleepSession co = s.sleepSession co ∨ s'.sleepSession co = none
  wakeup : s'.wakeupSession = s.wakeupSession
  watched : ∀ session, s'.Watched session → s.Watched session
  errors : ∀ session ∈ s'.errorQueue, session ∈ s.errorQueue ∨ s.Watched session

namespace Quiet

theorem refl (s : LuaService Co Address) : Quiet s s where
  status _ := .inl rfl
  entry _ _ := rfl
  sleepSession _ := .inl rfl
  wakeup := rfl
  watched _ h := h
  errors _ h := .inl h

theorem trans (h : Quiet s s') (h' : Quiet s' s'') : Quiet s s'' where
  status co := by
    rcases h'.status co with heq | hno
    · rw [heq]
      exact h.status co
    · exact .inr hno
  entry session hno := by
    refine (h'.entry session fun co target hwait => ?_).trans (h.entry session hno)
    rcases h.status co with heq | ⟨-, hother⟩
    · exact hno co target (heq.symm.trans hwait)
    · exact hother session target hwait
  sleepSession co := by
    rcases h'.sleepSession co with heq | hnone
    · rw [heq]
      exact h.sleepSession co
    · exact .inr hnone
  wakeup := h'.wakeup.trans h.wakeup
  watched session hw := h.watched session (h'.watched session hw)
  errors session hsession := by
    rcases h'.errors session hsession with hin | hw
    · exact h.errors session hin
    · exact .inr (h.watched session hw)

variable [DecidableEq Co]

theorem setStatus (s : LuaService Co Address) (co : Co) {status : CoStatus Co}
    (hsleep : ∀ session, status ≠ .sleep session)
    (hwait : ∀ session target, status ≠ .wait session target) :
    Quiet s (s.setStatus co status) := by
  refine { refl s with status := fun co' => ?_ }
  by_cases hco : co' = co
  · subst hco
    refine .inr ⟨fun session => ?_, fun session target => ?_⟩
    · rw [show (s.setStatus co' status).status co' = status from update_self ..]
      exact hsleep session
    · rw [show (s.setStatus co' status).status co' = status from update_self ..]
      exact hwait session target
  · exact .inl (update_of_ne hco _ _)

theorem cut (s : LuaService Co Address) (co : Co) : Quiet s (s.cut co) := by
  have h : Quiet s (s.setStatus co .parked) :=
    setStatus s co (fun _ h => by cases h) fun _ _ h => by cases h
  exact { h with }

theorem raise (s : LuaService Co Address) (co : Co) : Quiet s (s.raise co) := by
  have h : Quiet s (s.setStatus co .dead) :=
    setStatus s co (fun _ h => by cases h) fun _ _ h => by cases h
  exact { h with }

theorem coCreate (h : s.coCreate co = some s') : Quiet s s' := by
  rcases coCreate_cases h with ⟨-, rfl⟩ | ⟨-, rfl⟩
  · exact setStatus s co (fun _ h => by cases h) fun _ _ h => by cases h
  · exact setStatus s co (fun _ h => by cases h) fun _ _ h => by cases h

/-- A coroutine that is resumed comes back from wherever it was. -/
theorem resume (s : LuaService Co Address) (co : Co) (frames : ℕ) (resumer : Resumer) :
    Quiet s (s.resume co frames resumer) := by
  have hrunning : Quiet s (s.setStatus co .running) :=
    setStatus s co (fun _ h => by cases h) fun _ _ h => by cases h
  have hclear : ∀ co c, update s.sleepSession co none c = s.sleepSession c ∨
      update s.sleepSession co none c = none := by
    intro co c
    by_cases hc : c = co
    · subst hc
      exact .inr (update_self ..)
    · exact .inl (update_of_ne hc ..)
  unfold LuaService.resume
  cases hstatus : s.status co with
  | free =>
    have h : Quiet s (s.setStatus co .spoilt) :=
      setStatus s co (fun _ h => by cases h) fun _ _ h => by cases h
    exact { h with }
  | spoilt => exact raise s co
  | created => exact { hrunning with }
  | running => exact { hrunning with }
  | call session call =>
    refine { hrunning with watched := fun n hn => ?_ }
    obtain ⟨w, hw, hsession⟩ := hn
    exact ⟨w, (mem_filter.mp hw).1, hsession⟩
  | sleep session => exact { hrunning with sleepSession := hclear co }
  | wait session target =>
    refine { hrunning with entry := fun n hn => ?_, sleepSession := hclear target }
    have hne : n ≠ session := by
      rintro rfl
      exact hn co target hstatus
    exact update_of_ne hne _ _
  | parked => exact { hrunning with }
  | dead => exact raise s co

omit [DecidableEq Co] in
theorem pushErrors (s : LuaService Co Address) {sessions : List ℕ}
    (h : ∀ session ∈ sessions, s.Watched session) : Quiet s (s.pushErrors sessions) := by
  refine { refl s with errors := fun session hsession => ?_ }
  rcases mem_append.mp hsession with hold | hnew
  · exact .inl hold
  · exact .inr (h session hnew)

variable [DecidableEq Address]

theorem register {source : Address} (h : s.register co session source = some s') : Quiet s s' := by
  obtain ⟨u, hu, rfl⟩ := map_eq_some_iff.mp h
  exact { coCreate hu with }

omit [DecidableEq Co] in
theorem errorDispatch {source : Address} {order : List ℕ}
    (h : s.errorDispatch session source order = some s') : Quiet s s' := by
  rcases errorDispatch_cases h with ⟨horder, dead, rfl⟩ | ⟨-, hwatched, rfl⟩ | rfl
  · have hpush : Quiet s (s.pushErrors order) := by
      apply pushErrors
      intro n hn
      obtain ⟨w, hw, hsession⟩ := mem_map.mp (horder.mem_iff.mp hn)
      exact ⟨w, (mem_filter.mp hw).1, hsession⟩
    exact { hpush with }
  · apply pushErrors
    intro n hn
    obtain rfl := mem_singleton.mp hn
    exact hwatched
  · exact refl _

theorem finish (s : LuaService Co Address) (co : Co) (frames : ℕ) :
    Quiet s (s.finish co frames) := by
  have h : ∀ u : LuaService Co Address, Quiet u (u.setStatus co .free) := fun u =>
    setStatus u co (fun _ h => by cases h) fun _ _ h => by cases h
  unfold LuaService.finish
  cases s.requests.handler co with
  | none => exact { h s with }
  | some handler => exact { h s with }

theorem message {m : ServiceMessage Co Address} (hm : ∀ session, m ≠ .response session)
    (h : s.dispatchMessage m = some s') : Quiet s s' := by
  cases m with
  | response session => exact absurd rfl (hm session)
  | request co session source =>
    obtain ⟨u, hu, rfl⟩ := map_eq_some_iff.mp h
    exact (register hu).trans (resume u co 0 .request)
  | malformed co session source =>
    obtain ⟨u, hu, rfl⟩ := map_eq_some_iff.mp h
    exact { register hu with }
  | undispatched session source =>
    obtain rfl := some_inj.mp h
    exact { refl s with }
  | unknown session source =>
    obtain rfl := some_inj.mp h
    exact { refl s with }
  | error co session source order =>
    obtain ⟨u, hu, hrest⟩ := bind_eq_some_iff.mp h
    apply (register hu).trans
    split at hrest
    · obtain ⟨v, hv, rfl⟩ := map_eq_some_iff.mp hrest
      exact (errorDispatch hv).trans (finish v co 0)
    · obtain rfl := some_inj.mp hrest
      exact raise u co

/-- The response to a session, once it is no longer in `session_id_coroutine`. -/
theorem response_message (h : s.dispatchMessage (.response session) = some s') :
    (∃ co, s.sessionIdCoroutine session = some (.coroutine co) ∧
        s' = (s.setSession session none).resume co 0 (.response session)) ∨
      (∀ co, s.sessionIdCoroutine session ≠ some (.coroutine co)) ∧
        s' = { s.setSession session none with pc := .forks } := by
  unfold dispatchMessage at h
  dsimp only at h
  split at h
  · next co hco =>
    obtain rfl := some_inj.mp h
    exact .inl ⟨co, hco, rfl⟩
  · next hbroken =>
    obtain rfl := some_inj.mp h
    refine .inr ⟨fun co hco => ?_, rfl⟩
    rw [hbroken] at hco
    cases hco
  · next hnone =>
    obtain rfl := some_inj.mp h
    refine .inr ⟨fun co hco => ?_, ?_⟩
    · rw [hnone] at hco
      cases hco
    · have hsame : update s.sessionIdCoroutine session none = s.sessionIdCoroutine := by
        rw [← hnone, update_eq_self]
      rw [setSession, hsame]

theorem perform {c : ServiceCall Co Address} (htimeout : ∀ session co, c ≠ .timeout session co)
    (hwakeup : ∀ co, c ≠ .wakeup co) (h : s.perform c = some s') : Quiet s s' := by
  cases c with
  | timeout session co => exact absurd rfl (htimeout session co)
  | fork co =>
    obtain ⟨u, hu, rfl⟩ := map_eq_some_iff.mp h
    exact { coCreate hu with }
  | wakeup co => exact absurd rfl (hwakeup co)
  | term service order => exact errorDispatch h
  | response i ok =>
    obtain ⟨c, -, rfl⟩ := map_eq_some_iff.mp h
    obtain ⟨requests, watchingService, heq⟩ := callResponse_frame (s := s) i c ok
    rw [heq]
    exact { refl s with }
  | packed i sent =>
    obtain ⟨c, -, hrest⟩ := bind_eq_some_iff.mp h
    split_ifs at hrest
    obtain rfl := some_inj.mp hrest
    exact { refl s with }
  | test i =>
    obtain ⟨c, -, rfl⟩ := map_eq_some_iff.mp h
    unfold callTest
    split_ifs
    · exact { refl s with }
    · exact refl s

/-- A yield of a coroutine that does not begin to wait. -/
theorem suspend {y : ServiceYield Co Address} (hcall : ∀ service session, y ≠ .call service session)
    (hsleep : ∀ session, y ≠ .sleep session) (hwait : ∀ session target, y ≠ .wait session target)
    (h : s.suspend co frames y = some s') : Quiet s s' := by
  have hpark : Quiet s (s.setStatus co .parked) :=
    setStatus s co (fun _ h => by cases h) fun _ _ h => by cases h
  cases y with
  | call service session => exact absurd rfl (hcall service session)
  | sleep session => exact absurd rfl (hsleep session)
  | wait session target => exact absurd rfl (hwait session target)
  | ret r =>
    obtain rfl := some_inj.mp h
    unfold ret
    split_ifs
    · exact cut s co
    · dsimp only
      split
      · exact { cut s co with }
      · split_ifs
        · exact { refl s with }
        · cases r with
          | sent => exact { refl s with }
          | refused => exact { refl s with }
          | invalid => exact { cut s co with }
  | response =>
    obtain rfl := some_inj.mp h
    unfold response
    split_ifs
    · exact cut s co
    · split
      · exact cut s co
      · split_ifs
        · exact cut s co
        · exact { refl s with }
  | exit =>
    obtain rfl := some_inj.mp h
    obtain ⟨watchingService, heq⟩ := foldl_releaseWatching s.requests.unresponse s
    unfold exit
    rw [heq]
    exact { hpark with }
  | finish =>
    obtain rfl := some_inj.mp h
    exact finish s co frames
  | trace =>
    obtain rfl := some_inj.mp h
    exact { hpark with }
  | unknown =>
    obtain rfl := some_inj.mp h
    exact cut s co
  | raise =>
    obtain rfl := some_inj.mp h
    exact raise s co

end Quiet

/-! ### The invariant -/

/-- No step but the response to the session takes it out of `session_id_coroutine`. -/
structure Retained (s : LuaService Co Address) (session : ℕ) : Prop where
  entry : s.sessionIdCoroutine session ≠ none
  watched : ¬s.Watched session
  errors : session ∉ s.errorQueue
  wait : ∀ co target, s.status co ≠ .wait session target

/-- What the observer knows of a coroutine that sleeps. -/
structure Slept (s : LuaService Co Address) (co : Co) (session : ℕ) (k : SleepCall) : Prop where
  same : k.session = session
  sleepSession : s.sleepSession co = none ∨ s.sleepSession co = some session
  wakeup : co ∈ s.wakeupSession → k.pending = true ∨ k.woken = true
  pending : k.pending = true → co ∈ s.wakeupSession ∨ s.sleepSession co = none
  woken : k.woken = true → k.pending = false

/-- The log agrees with the tables of the service. -/
structure SleepInv (s : LuaService Co Address) (log : SleepLog Co) : Prop where
  slept : ∀ co session, s.status co = .sleep session → Slept s co session (log.last co)
  timers : ∀ session ∈ log.timers, s.Retained session
  stale : ∀ session ∈ log.stale, s.Retained session ∧ s.sessionIdCoroutine session = some .broken
  broken : ∀ k ∈ log.broken, k.woken = true ↔ k.pending = false

theorem Retained.quiet (h : s.Retained n) (hquiet : Quiet s s') :
    s'.Retained n ∧ s'.sessionIdCoroutine n = s.sessionIdCoroutine n := by
  have hentry := hquiet.entry n h.wait
  refine ⟨⟨hentry ▸ h.entry, fun hw => h.watched (hquiet.watched n hw), fun hn => ?_,
    fun co target hwait => ?_⟩, hentry⟩
  · exact (hquiet.errors n hn).elim h.errors h.watched
  · rcases hquiet.status co with heq | ⟨-, hother⟩
    · exact h.wait co target (heq.symm.trans hwait)
    · exact hother n target hwait

theorem Retained.ne_of_unused (h : s.Retained n) (hunused : s.Unused session) : n ≠ session := by
  rintro rfl
  exact h.entry hunused.2.1

variable {log : SleepLog Co}

theorem sleepInv_init : SleepInv (init Co Address) (.init Co) where
  slept co session h := by cases h
  timers session h := absurd h not_mem_nil
  stale session h := absurd h not_mem_nil
  broken k h := absurd h not_mem_nil

theorem SleepInv.quiet (h : SleepInv s log) (hquiet : Quiet s s') : SleepInv s' log where
  slept co session hstatus := by
    rcases hquiet.status co with heq | ⟨hother, -⟩
    · have hslept := h.slept co session (heq.symm.trans hstatus)
      refine ⟨hslept.same, ?_, ?_, fun hpending => ?_, hslept.woken⟩
      · rcases hquiet.sleepSession co with heq | hnone
        · rw [heq]
          exact hslept.sleepSession
        · exact .inl hnone
      · rw [hquiet.wakeup]
        exact hslept.wakeup
      · rw [hquiet.wakeup]
        rcases hquiet.sleepSession co with heq | hnone
        · rw [heq]
          exact hslept.pending hpending
        · exact .inr hnone
    · exact absurd hstatus (hother session)
  timers session hsession := ((h.timers session hsession).quiet hquiet).1
  stale session hsession := by
    obtain ⟨hretained, hbroken⟩ := h.stale session hsession
    obtain ⟨hretained', hentry⟩ := hretained.quiet hquiet
    exact ⟨hretained', hentry.trans hbroken⟩
  broken := h.broken

section Steps

theorem SleepInv.setSession (h : SleepInv s log) (session : ℕ) (entry : Option (SessionEntry Co))
    (hentry : (session ∉ log.timers ∧ session ∉ log.stale) ∨ entry = some .broken) :
    SleepInv (s.setSession session entry) log := by
  have hkeep : ∀ n, s.Retained n → n ≠ session ∨ entry = some .broken →
      (s.setSession session entry).Retained n := by
    intro n hn hor
    refine { hn with entry := ?_ }
    show update s.sessionIdCoroutine session entry n ≠ none
    by_cases hsession : n = session
    · subst hsession
      rw [update_self, hor.resolve_left fun hne => hne rfl]
      exact some_ne_none _
    · rw [update_of_ne hsession]
      exact hn.entry
  have hother : ∀ l : List ℕ, (session ∉ l) ∨ entry = some .broken → ∀ n ∈ l,
      n ≠ session ∨ entry = some .broken := by
    intro l hor n hn
    refine hor.imp_left fun hnot => ?_
    rintro rfl
    exact hnot hn
  constructor
  · exact fun co n hstatus => { h.slept co n hstatus with }
  · intro n hn
    exact hkeep n (h.timers n hn) (hother _ (hentry.imp_left And.left) n hn)
  · intro n hn
    obtain ⟨hretained, hbroken⟩ := h.stale n hn
    have hor := hother _ (hentry.imp_left And.right) n hn
    refine ⟨hkeep n hretained hor, ?_⟩
    show update s.sessionIdCoroutine session entry n = some .broken
    by_cases hsession : n = session
    · subst hsession
      rw [update_self, hor.resolve_left fun hne => hne rfl]
    · rw [update_of_ne hsession, hbroken]
  · exact h.broken

theorem SleepInv.setUnused (h : SleepInv s log) (hunused : s.Unused session)
    (entry : Option (SessionEntry Co)) : SleepInv (s.setSession session entry) log := by
  refine h.setSession session entry (.inl ⟨fun hn => ?_, fun hn => ?_⟩)
  · exact (h.timers session hn).ne_of_unused hunused rfl
  · exact (h.stale session hn).1.ne_of_unused hunused rfl

theorem SleepInv.respond (h : SleepInv s log) (session : ℕ) :
    SleepInv (s.setSession session none) (log.respond session) := by
  have hrespond : SleepInv s (log.respond session) :=
    { h with
      timers := fun n hn => h.timers n (mem_filter.mp hn).1
      stale := fun n hn => h.stale n (mem_filter.mp hn).1 }
  have hnot : ∀ l : List ℕ, session ∉ l.filter fun n => n ≠ session := by
    intro l hn
    exact of_decide_eq_true (mem_filter.mp hn).2 rfl
  exact hrespond.setSession session none (.inl ⟨hnot _, hnot _⟩)

theorem SleepLog.deliver_of_none (h : s.sleepSession co = none) : log.deliver co s = log := by
  rw [deliver, h]
  cases s.status co <;> rfl

theorem SleepLog.deliver_of_sleep (h : s.sleepSession co = some session)
    (hstatus : s.status co = .sleep n) : log.deliver co s = log.interrupt co n := by
  rw [deliver, h, hstatus]

theorem SleepLog.deliver_of_ne (h : ∀ n, s.status co ≠ .sleep n) : log.deliver co s = log := by
  rw [deliver]
  cases hstatus : s.status co with
  | sleep n => exact absurd hstatus (h n)
  | free | spoilt | created | running | call _ _ | wait _ _ | parked | dead =>
    cases s.sleepSession co <;> rfl

variable [DecidableEq Co]

/-- A coroutine begins to call, to sleep or to wait, with a new session. -/
theorem Retained.begin (h : s.Retained n) (hunused : s.Unused session) (co : Co)
    {status : CoStatus Co} (hstatus : ∀ target, status ≠ .wait n target) :
    ((s.setStatus co status).setSession session (some (.coroutine co))).Retained n ∧
      ((s.setStatus co status).setSession session (some (.coroutine co))).sessionIdCoroutine n =
        s.sessionIdCoroutine n := by
  have hentry : update s.sessionIdCoroutine session (some (.coroutine co)) n =
      s.sessionIdCoroutine n := update_of_ne (h.ne_of_unused hunused) _ _
  refine ⟨⟨?_, h.watched, h.errors, fun co' target => ?_⟩, hentry⟩
  · exact fun hnone => h.entry (hentry.symm.trans hnone)
  · show update s.status co status co' ≠ _
    by_cases hco : co' = co
    · subst hco
      rw [update_self]
      exact hstatus target
    · rw [update_of_ne hco]
      exact h.wait co' target

section

variable (h : SleepInv s log)
include h

theorem SleepInv.sleptOther {co' : Co} (hco : co' ≠ co) {status : CoStatus Co}
    (hstatus : (s.sleep co frames session status).status co' = .sleep n) :
    Slept (s.sleep co frames session status) co' n (log.last co') := by
  have hold : s.status co' = .sleep n := (update_of_ne hco _ _).symm.trans hstatus
  have hslept := h.slept co' n hold
  have hsession : (s.sleep co frames session status).sleepSession co' = s.sleepSession co' :=
    update_of_ne hco _ _
  refine ⟨hslept.same, ?_, hslept.wakeup, fun hpending => ?_, hslept.woken⟩
  · rw [hsession]
    exact hslept.sleepSession
  · rw [hsession]
    exact hslept.pending hpending

theorem SleepInv.startSleep (hunused : s.Unused session)
    (hno : ∀ co target, s.status co ≠ .wait session target) (co : Co) :
    SleepInv (s.sleep co frames session (.sleep session))
      (log.begin co session (decide (co ∈ s.wakeupSession))) := by
  have hnot : ∀ n target, CoStatus.sleep session ≠ CoStatus.wait n (target : Co) := by
    intro n target heq
    cases heq
  constructor
  · intro co' n hstatus
    by_cases hco : co' = co
    · -- the sleep that begins
      subst hco
      have hlast : (log.begin co' session (decide (co' ∈ s.wakeupSession))).last co' = _ :=
        update_self ..
      have hsession :
          (s.sleep co' frames session (.sleep session)).sleepSession co' = some session :=
        update_self ..
      rw [show (s.sleep co' frames session (.sleep session)).status co' = .sleep session from
        update_self ..] at hstatus
      obtain rfl := sleep.inj hstatus
      rw [hlast]
      refine ⟨rfl, .inr hsession, fun hin => .inl (decide_eq_true hin), fun hpending => ?_,
        fun hwoken => ?_⟩
      · exact .inl (of_decide_eq_true hpending)
      · cases hwoken
    · rw [show (log.begin co session _).last co' = log.last co' from update_of_ne hco _ _]
      exact h.sleptOther hco hstatus
  · intro n hn
    rcases mem_cons.mp hn with rfl | hold
    · refine ⟨?_, hunused.2.2.1, hunused.2.2.2, fun co' target => ?_⟩
      · show update s.sessionIdCoroutine n _ n ≠ none
        rw [update_self]
        exact some_ne_none _
      · show update s.status co (.sleep n) co' ≠ _
        by_cases hco : co' = co
        · subst hco
          rw [update_self]
          exact hnot n target
        · rw [update_of_ne hco]
          exact hno co' target
    · have hkeep := ((h.timers n hold).begin hunused co (hnot n)).1
      exact { hkeep with }
  · intro n hn
    obtain ⟨hretained, hbroken⟩ := h.stale n hn
    obtain ⟨hkeep, hentry⟩ := hretained.begin hunused co (hnot n)
    exact ⟨{ hkeep with }, hentry.trans hbroken⟩
  · exact h.broken

theorem SleepInv.startWait (hunused : s.Unused session) (co target : Co) :
    SleepInv (s.sleep co frames session (.wait session target)) log := by
  have hnot : ∀ n, s.Retained n → ∀ t, wait session target ≠ .wait n t := by
    intro n hn t heq
    obtain ⟨hsession, -⟩ := wait.inj heq
    exact hn.ne_of_unused hunused hsession.symm
  constructor
  · intro co' n hstatus
    have hco : co' ≠ co := by
      rintro rfl
      rw [show (s.sleep co' frames session (.wait session target)).status co' = _ from
        update_self ..] at hstatus
      cases hstatus
    exact h.sleptOther hco hstatus
  · intro n hn
    have hkeep := ((h.timers n hn).begin hunused co (hnot n (h.timers n hn))).1
    exact { hkeep with }
  · intro n hn
    obtain ⟨hretained, hbroken⟩ := h.stale n hn
    obtain ⟨hkeep, hentry⟩ := hretained.begin hunused co (hnot n hretained)
    exact ⟨{ hkeep with }, hentry.trans hbroken⟩
  · exact h.broken

theorem SleepInv.startCall [DecidableEq Address] {service : Address} (hunused : s.Unused session)
    (hstep : s.suspend co frames (.call service session) = some s') : SleepInv s' log := by
  have hnot : ∀ n t, call session s.calls.length ≠ wait n (t : Co) := by
    intro n t heq
    cases heq
  unfold suspend at hstep
  dsimp only at hstep
  rw [if_pos hunused] at hstep
  obtain rfl := some_inj.mp hstep
  have hwatched : ∀ n, s.Retained n → ¬∃ w ∈ (⟨session, service, s.calls.length⟩ : Watch Address) ::
      s.watchingSession, w.session = n := by
    rintro n hn ⟨w, hw, hsession⟩
    rcases mem_cons.mp hw with rfl | hold
    · exact hn.ne_of_unused hunused hsession.symm
    · exact hn.watched ⟨w, hold, hsession⟩
  constructor
  · intro co' n hstatus
    have hco : co' ≠ co := by
      rintro rfl
      have hself : update s.status co' (.call session s.calls.length) co' = .sleep n := hstatus
      rw [update_self] at hself
      cases hself
    have hold : s.status co' = .sleep n := (update_of_ne hco _ _).symm.trans hstatus
    exact { h.slept co' n hold with }
  · intro n hn
    have hkeep := ((h.timers n hn).begin hunused co (hnot n)).1
    exact { hkeep with watched := hwatched n (h.timers n hn) }
  · intro n hn
    obtain ⟨hretained, hbroken⟩ := h.stale n hn
    obtain ⟨hkeep, hentry⟩ := hretained.begin hunused co (hnot n)
    exact ⟨{ hkeep with watched := hwatched n hretained }, hentry.trans hbroken⟩
  · exact h.broken

/-- `uboss.wakeup`. -/
theorem SleepInv.wakeup (hsleep : (s.sleepSession co).isSome) (hnew : co ∉ s.wakeupSession) :
    SleepInv { s with wakeupSession := s.wakeupSession ++ [co] } (log.wake co) := by
  refine { h with slept := fun co' n hstatus => ?_, timers := ?_, stale := ?_ }
  · have hslept := h.slept co' n hstatus
    by_cases hco : co' = co
    · subst hco
      have hpending : (log.last co').pending = false := by
        rw [Bool.eq_false_iff]
        intro hpending
        rcases hslept.pending hpending with hin | hnone
        · exact hnew hin
        · rw [hnone] at hsleep
          cases hsleep
      rw [show (log.wake co').last co' = { log.last co' with woken := true } from
        update_self ..]
      refine ⟨hslept.same, hslept.sleepSession, fun _ => .inr rfl, fun htrue => ?_,
        fun _ => hpending⟩
      exact .inl (mem_append_right _ (mem_singleton_self co'))
    · rw [show (log.wake co).last co' = log.last co' from update_of_ne hco _ _]
      refine { hslept with wakeup := fun hin => ?_, pending := fun hpending => ?_ }
      · rcases mem_append.mp hin with hold | hself
        · exact hslept.wakeup hold
        · exact absurd (mem_singleton.mp hself) hco
      · exact (hslept.pending hpending).imp_left (mem_append_left _)
  · exact fun n hn => { h.timers n hn with }
  · exact fun n hn => ⟨{ (h.stale n hn).1 with }, (h.stale n hn).2⟩

/-- A coroutine that is not in a sleep that can be broken is taken out of `wakeup_session`. -/
theorem SleepInv.dropWakeup (hco : s.sleepSession co = none ∨ ∀ n, s.status co ≠ .sleep n) :
    SleepInv { s with wakeupSession := s.wakeupSession.filter fun c => c ≠ co } log := by
  refine { h with slept := fun co' n hstatus => ?_, timers := ?_, stale := ?_ }
  · have hslept := h.slept co' n hstatus
    refine { hslept with wakeup := fun hin => ?_, pending := fun hpending => ?_ }
    · exact hslept.wakeup (mem_filter.mp hin).1
    · rcases hslept.pending hpending with hin | hnone
      · by_cases hself : co' = co
        · subst hself
          exact .inr (hco.resolve_right fun hno => hno n hstatus)
        · exact .inl (mem_filter.mpr ⟨hin, decide_eq_true hself⟩)
      · exact .inr hnone
  · exact fun n hn => { h.timers n hn with }
  · exact fun n hn => ⟨{ (h.stale n hn).1 with }, (h.stale n hn).2⟩

end

theorem resume_status {resumer : Resumer} :
    (s.resume co frames resumer).status co ≠ .sleep session := by
  have hself : ∀ status : CoStatus Co, update s.status co status co = status :=
    fun status => update_self co status s.status
  intro hsleep
  unfold resume at hsleep
  cases hstatus : s.status co <;> rw [hstatus] at hsleep <;>
    exact absurd ((hself _).symm.trans hsleep) (fun h => by cases h)

theorem resume_wakeupSession (s : LuaService Co Address) {resumer : Resumer} (l : List Co) :
    resume { s with wakeupSession := l } co frames resumer =
      { s.resume co frames resumer with wakeupSession := l } := by
  unfold resume
  cases hstatus : s.status co <;> rfl

theorem dispatchWakeup_none (h : s.sleepSession co = none) : s.dispatchWakeup co frames =
      { s with
        wakeupSession := s.wakeupSession.filter fun c => c ≠ co
        pc := .errors frames } := by
  unfold dispatchWakeup
  dsimp only
  rw [h]

theorem dispatchWakeup_some (h : s.sleepSession co = some session) : s.dispatchWakeup co frames =
      { (s.setSession session (some .broken)).resume co (frames + 1) .wakeup with
        wakeupSession := s.wakeupSession.filter fun c => c ≠ co } := by
  rw [← resume_wakeupSession]
  unfold dispatchWakeup
  dsimp only
  rw [h]
  rfl

theorem SleepInv.dispatchWakeup (h : SleepInv s log) (hco : co ∈ s.wakeupSession) :
    SleepInv (s.dispatchWakeup co frames) (log.deliver co s) := by
  cases hsession : s.sleepSession co with
  | none =>
    have hdrop := h.dropWakeup (.inl hsession)
    rw [SleepLog.deliver_of_none hsession, dispatchWakeup_none hsession]
    exact hdrop.quiet { Quiet.refl _ with }
  | some session =>
    have hset := h.setSession session (some .broken) (.inr rfl)
    have hquiet := Quiet.resume (s.setSession session (some .broken)) co (frames + 1) .wakeup
    have hdrop := (hset.quiet hquiet).dropWakeup (.inr fun n => resume_status)
    rw [hquiet.wakeup] at hdrop
    rw [dispatchWakeup_some hsession]
    by_cases hsleep : ∃ n, s.status co = .sleep n
    · obtain ⟨n, hn⟩ := hsleep
      have hslept := h.slept co n hn
      rw [SleepLog.deliver_of_sleep hsession hn]
      refine { hdrop with stale := fun m hm => ?_, broken := fun k hk => ?_ }
      · have hstale : m = n ∧ n ∈ log.timers ∨ m ∈ log.stale := by
          rw [SleepLog.interrupt] at hm
          dsimp only at hm
          split_ifs at hm with htimer
          · exact (mem_cons.mp hm).imp_left fun heq => ⟨heq, htimer⟩
          · exact .inr hm
        rcases hstale with ⟨rfl, htimer⟩ | hold
        · -- the timer of this sleep has not responded yet
          obtain rfl : session = m := by
            rcases hslept.sleepSession with hnone | hsome
            · rw [hsession] at hnone
              cases hnone
            · rw [hsession] at hsome
              exact some_inj.mp hsome
          obtain ⟨hretained, hentry⟩ := (hset.timers session htimer).quiet hquiet
          exact ⟨{ hretained with }, hentry.trans (update_self ..)⟩
        · exact hdrop.stale m hold
      · rcases mem_cons.mp hk with rfl | hold
        · refine ⟨hslept.woken, fun hpending => ?_⟩
          exact (hslept.wakeup hco).resolve_left (Bool.eq_false_iff.mp hpending)
        · exact h.broken k hold
    · rw [SleepLog.deliver_of_ne fun n hn => hsleep ⟨n, hn⟩]
      exact hdrop

theorem SleepInv.dispatchErrorQueue (h : SleepInv s log) :
    SleepInv (s.dispatchErrorQueue frames) log := by
  unfold LuaService.dispatchErrorQueue
  split
  · exact h.quiet { Quiet.refl s with }
  · next session rest hqueue =>
    have hin : session ∈ s.errorQueue := by
      rw [hqueue]
      exact mem_cons_self
    have hset := h.setSession session none (.inl ⟨fun hn => (h.timers session hn).errors hin,
        fun hn => (h.stale session hn).1.errors hin⟩)
    have hrest : Quiet (s.setSession session none)
        { s.setSession session none with errorQueue := rest } := by
      refine { Quiet.refl (s.setSession session none) with errors := fun n hn => .inl ?_ }
      show n ∈ s.errorQueue
      rw [hqueue]
      exact mem_cons_of_mem session hn
    have hpop := hset.quiet hrest
    dsimp only
    split
    · exact hpop.quiet (Quiet.resume _ _ _ _)
    · exact hpop.quiet { Quiet.refl _ with }

variable [DecidableEq Address]

theorem sleepInv_call {c : ServiceCall Co Address} (h : SleepInv s log)
    (hstep : s.perform c = some s') : SleepInv s' (log.next s (.call c)) := by
  by_cases htimeout : ∃ session co, c = .timeout session co
  · obtain ⟨session, co, rfl⟩ := htimeout
    unfold perform at hstep
    dsimp only at hstep
    split_ifs at hstep with hunused
    obtain ⟨u, hu, rfl⟩ := map_eq_some_iff.mp hstep
    have hcreate := Quiet.coCreate hu
    -- the new coroutine changes nothing in the tables for sessions
    have hunused' : u.Unused session := by
      rcases coCreate_cases hu with ⟨-, rfl⟩ | ⟨-, rfl⟩
      · exact hunused
      · exact hunused
    exact (h.quiet hcreate).setUnused hunused' _
  · by_cases hwakeup : ∃ co, c = .wakeup co
    · obtain ⟨co, rfl⟩ := hwakeup
      obtain rfl := some_inj.mp hstep
      rw [SleepLog.next]
      split_ifs with hwake
      · exact h.wakeup hwake.1 hwake.2
      · exact h
    · have hquiet := Quiet.perform (fun session co heq => htimeout ⟨session, co, heq⟩)
        (fun co heq => hwakeup ⟨co, heq⟩) hstep
      have hlog : log.next s (.call c) = log := by
        cases c with
        | wakeup co => exact absurd ⟨co, rfl⟩ hwakeup
        | timeout _ _ | fork _ | term _ _ | response _ _ | packed _ _ | test _ => rfl
      rw [hlog]
      exact h.quiet hquiet

theorem sleepInv_yield {y : ServiceYield Co Address} (h : SleepInv s log)
    (hnumbered : Numbered (s, log) (.yield y)) (hpc : s.pc = .running co frames)
    (hstep : s.suspend co frames y = some s') : SleepInv s' (log.next s (.yield y)) := by
  cases y with
  | sleep session =>
    obtain ⟨hunused, ⟨⟩⟩ := ite_none_right_eq_some.mp hstep
    rw [SleepLog.next, hpc]
    exact h.startSleep hunused hnumbered co
  | wait session target =>
    obtain ⟨hunused, ⟨⟩⟩ := ite_none_right_eq_some.mp hstep
    exact h.startWait hunused co target
  | call service session =>
    have hunused : s.Unused session := by
      by_contra hnot
      unfold suspend at hstep
      dsimp only at hstep
      rw [if_neg hnot] at hstep
      cases hstep
    exact h.startCall hunused hstep
  | ret _ | response | exit | finish | trace | unknown | raise =>
    refine h.quiet (Quiet.suspend (fun _ _ heq => ?_) (fun _ heq => ?_) (fun _ _ heq => ?_) hstep)
    · cases heq
    · cases heq
    · cases heq

theorem sleepInv_message {m : ServiceMessage Co Address} (h : SleepInv s log)
    (hstep : s.dispatchMessage m = some s') : SleepInv s' (log.next s (.message m)) := by
  by_cases hresponse : ∃ session, m = .response session
  · obtain ⟨session, rfl⟩ := hresponse
    have hrespond := h.respond session
    rcases Quiet.response_message hstep with ⟨co, -, rfl⟩ | ⟨-, rfl⟩
    · exact hrespond.quiet (Quiet.resume _ _ _ _)
    · exact hrespond.quiet { Quiet.refl _ with }
  · have hquiet := Quiet.message (fun session heq => hresponse ⟨session, heq⟩) hstep
    have hlog : log.next s (.message m) = log := by
      cases m with
      | response session => exact absurd ⟨session, rfl⟩ hresponse
      | request _ _ _ | malformed _ _ _ | undispatched _ _ | unknown _ _ | error _ _ _ _ => rfl
    rw [hlog]
    exact h.quiet hquiet

omit [DecidableEq Address] in
theorem sleepInv_dispatch {d : ServiceDispatch Co} (h : SleepInv s log)
    (hstep : s.Dispatched d s') : SleepInv s' (log.next s (.dispatch d)) := by
  cases hstep with
  | drained | idle => exact h.quiet { Quiet.refl s with }
  | wakeup _ hmem => exact h.dispatchWakeup hmem
  | errors => exact h.dispatchErrorQueue
  | @fork co =>
    have hfork : Quiet s { s with forkQueue := s.forkQueue.erase co } := { Quiet.refl s with }
    exact h.quiet (hfork.trans (Quiet.resume _ _ _ _))

theorem sleepInv_step {p p' : LuaService Co Address × SleepLog Co} {a : ServiceAct Co Address}
    (hnumbered : Numbered p a) (hstep : observedStep p a = some p') (h : SleepInv p.1 p.2) :
    SleepInv p'.1 p'.2 := by
  obtain ⟨s, log⟩ := p
  obtain ⟨s', hs, rfl⟩ := map_eq_some_iff.mp hstep
  cases stepped hs with
  | message _ hmessage => exact sleepInv_message h hmessage
  | call _ hcall => exact sleepInv_call h hcall
  | yield hpc hyield => exact sleepInv_yield h hnumbered hpc hyield
  | dispatch hdispatch => exact sleepInv_dispatch h hdispatch

/-! ### Runs -/

variable {w : List (ServiceAct Co Address)} {p p' : LuaService Co Address × SleepLog Co}

/-- Whether a broken sleep was broken by a wakeup of its own: exactly if the coroutine was not in
`wakeup_session` when it began. -/
theorem woken_iff (hrun : Run observedStep Numbered (observed Co Address) w p) :
    ∀ k ∈ p.2.broken, k.woken = true ↔ k.pending = false := by
  have hinv : SleepInv p.1 p.2 := hrun.invariant (P := fun p => SleepInv p.1 p.2) sleepInv_init
    fun hnumbered hstep h => sleepInv_step hnumbered hstep h
  exact hinv.broken

/-- No sleep began with a wakeup that was still to be delivered. -/
structure NonePending (log : SleepLog Co) : Prop where
  last : ∀ co, (log.last co).pending = false
  broken : ∀ k ∈ log.broken, k.pending = false

omit [DecidableEq Address] in
theorem nonePending_next {a : ServiceAct Co Address} (h : NonePending log)
    (hawaited : Awaited (s, log) a) : NonePending (log.next s a) := by
  have hlast : ∀ (co : Co) (k : SleepCall), k.pending = false → ∀ c,
      (update log.last co k c).pending = false := by
    intro co k hk c
    by_cases hc : c = co
    · subst hc
      rw [update_self]
      exact hk
    · rw [update_of_ne hc]
      exact h.last c
  cases a with
  | yield y =>
    cases y with
    | sleep session =>
      rw [SleepLog.next]
      cases hpc : s.pc with
      | running co frames =>
        have hnot : co ∉ s.wakeupSession := by
          have hensures : s.pc.Ensures fun co _ => co ∉ s.wakeupSession := hawaited
          rw [hpc] at hensures
          exact hensures
        exact { h with last := hlast co _ (decide_eq_false hnot) }
      | idle | wakeups _ | errors _ | forks => exact h
    | call _ _ | wait _ _ | ret _ | response | exit | finish | trace | unknown | raise => exact h
  | call c =>
    cases c with
    | wakeup co =>
      rw [SleepLog.next]
      split_ifs
      · exact { h with last := hlast co _ (h.last co) }
      · exact h
    | timeout _ _ | fork _ | term _ _ | response _ _ | packed _ _ | test _ => exact h
  | dispatch d =>
    cases d with
    | wakeup picked =>
      cases picked with
      | none => exact h
      | some co =>
        show NonePending (log.deliver co s)
        cases hsession : s.sleepSession co with
        | none =>
          rw [SleepLog.deliver_of_none hsession]
          exact h
        | some session =>
          by_cases hsleep : ∃ n, s.status co = .sleep n
          · obtain ⟨n, hn⟩ := hsleep
            rw [SleepLog.deliver_of_sleep hsession hn]
            refine { h with broken := fun k hk => ?_ }
            rcases mem_cons.mp hk with rfl | hold
            · exact h.last co
            · exact h.broken k hold
          · rw [SleepLog.deliver_of_ne fun n hn => hsleep ⟨n, hn⟩]
            exact h
    | errorQueue | fork _ => exact h
  | message m =>
    cases m with
    | response session => exact { h with }
    | request _ _ _ | malformed _ _ _ | undispatched _ _ | unknown _ _ | error _ _ _ _ => exact h

/-- As long as no coroutine begins to sleep with a wakeup that is still to be delivered, a sleep is
broken only by a wakeup of its own, and the timer of a broken sleep resumes nobody. -/
theorem broken_by_own_wakeup
    (hrun : Run observedStep (fun p a => Numbered p a ∧ Awaited p a) (observed Co Address) w p) :
    (∀ k ∈ p.2.broken, k.woken = true) ∧
      ∀ session ∈ p.2.stale, p.1.sessionIdCoroutine session = some .broken := by
  have hinv : SleepInv p.1 p.2 ∧ NonePending p.2 := by
    refine hrun.invariant (P := fun p => SleepInv p.1 p.2 ∧ NonePending p.2) ⟨sleepInv_init, ?_⟩ ?_
    · exact ⟨fun co => rfl, fun k hk => absurd hk List.not_mem_nil⟩
    · intro p a p' hguard hstep h
      refine ⟨sleepInv_step hguard.1 hstep h.1, ?_⟩
      obtain ⟨s', -, rfl⟩ := Option.map_eq_some_iff.mp hstep
      exact nonePending_next h.2 hguard.2
  refine ⟨fun k hk => ?_, fun session hsession => (hinv.1.stale session hsession).2⟩
  exact (hinv.1.broken k hk).mpr (hinv.2.broken k hk)

/-- A coroutine sleeps, and another one wakes it up and comes to its end. -/
theorem broken_by_own_wakeup_two : ∃ p : LuaService (Fin 2) ℕ × SleepLog (Fin 2),
    exec observedStep (observed (Fin 2) ℕ) [.message (.request 0 7 1), .yield (.sleep 100),
      .dispatch (.wakeup none), .dispatch .errorQueue, .dispatch (.fork none),
      .message (.request 1 8 1), .call (.wakeup 0), .yield .finish, .dispatch (.wakeup (some 0))] =
        some p ∧ p.2.broken = [⟨100, false, true⟩] ∧ (∀ k ∈ p.2.broken, k.woken = true) ∧
      ∀ session ∈ p.2.stale, p.1.sessionIdCoroutine session = some .broken :=
  have hexec : (exec (guarded observedStep fun p a => Numbered p a ∧ Awaited p a)
      (observed (Fin 2) ℕ) [.message (.request 0 7 1), .yield (.sleep 100),
        .dispatch (.wakeup none), .dispatch .errorQueue, .dispatch (.fork none),
        .message (.request 1 8 1), .call (.wakeup 0), .yield .finish,
        .dispatch (.wakeup (some 0))]).isSome := by decide
  have hrun := run_of_exec_guarded (Option.some_get hexec).symm
  ⟨_, by rfl, by rfl, broken_by_own_wakeup hrun⟩

/-- The coroutine that wakes the other one raises an error. The timer of the sleep ends it, and the
next sleep is broken, though nobody has called `uboss.wakeup` since it began. -/
theorem old_wakeup : ∃ (w : List (ServiceAct (Fin 2) ℕ))
    (p : LuaService (Fin 2) ℕ × SleepLog (Fin 2)),
    Run observedStep Numbered (observed (Fin 2) ℕ) w p ∧ p.2.broken = [⟨101, true, false⟩] ∧
      ¬∀ k ∈ p.2.broken, k.woken = true := by
  have hexec : ∃ p, exec (guarded observedStep Numbered) (observed (Fin 2) ℕ)
      [.message (.request 0 7 1), .yield (.sleep 100), .dispatch (.wakeup none),
        .dispatch .errorQueue, .dispatch (.fork none), .message (.request 1 8 1),
        .call (.wakeup 0), .yield .raise, .dispatch (.fork none), .message (.response 100),
        .yield (.sleep 101), .dispatch (.wakeup (some 0))] = some p ∧
      p.2.broken = [⟨101, true, false⟩] := ⟨_, by rfl, by rfl⟩
  obtain ⟨p, hp, hbroken⟩ := hexec
  refine ⟨_, p, run_of_exec_guarded hp, hbroken, fun hall => ?_⟩
  have hwoken := hall ⟨101, true, false⟩ (by rw [hbroken]; exact List.mem_singleton_self _)
  cases hwoken

end Steps

end LuaService

end Uboss.Framework
