import Mathlib.Data.List.Nodup
import Mathlib.Order.Nat
import Uboss.Framework.LuaService
import Uboss.Math.PartialMap

/-!
# Blocked calls

A call waits in `session_id_coroutine` and in `watching_session`. An error message puts its session
into `error_queue`, and `suspend` takes the sessions out of it again, one after the other. Where the
recursion of `suspend` is cut short by an error, the rest of the queue is left to a later message,
unless a forked coroutine still has its turn.
-/

namespace Uboss.Framework

open Math Function List Option

variable {Co Address : Type}

/-- The coroutine sleeps, and will not wake another one. -/
def CoStatus.Sleeps (status : CoStatus Co) (co : Co) (session : ℕ) : Prop :=
  status = .sleep session ∨ status = .wait session co

/-- The coroutine can be registered for the session. -/
def CoStatus.Waits (status : CoStatus Co) (co : Co) (session : ℕ) : Prop :=
  status = .created ∨ (∃ call, status = .call session call) ∨ status.Sleeps co session

/-- What holds of the coroutine that runs. -/
def MainPc.Ensures (P : Co → ℕ → Prop) : MainPc Co → Prop
  | .running co frames => P co frames
  | _ => True

instance {P : Co → ℕ → Prop} [∀ co frames, Decidable (P co frames)] :
    ∀ pc : MainPc Co, Decidable (pc.Ensures P)
  | .running co frames => inferInstanceAs (Decidable (P co frames))
  | .idle | .wakeups _ | .errors _ | .forks => .isTrue trivial

namespace LuaService

/-- What a service owes to those who call others. -/
structure CallsEnd (s : LuaService Co Address) : Prop where
  /-- A call ends at most once, -/
  once : (s.resumed.map Prod.fst).Nodup
  /-- with the response to its session, or its failure. -/
  cause : ∀ p ∈ s.resumed, ∃ session, s.calls[p.1]? = some session ∧
    (p.2 = .response session ∨ p.2 = .failure session)
  /-- When `dispatch_message` returns, the queue is empty, and all failed calls have ended. -/
  returned : s.pc = .idle → s.errorQueue = [] ∧ ∀ call ∈ s.failed, call ∈ s.resumed.map Prod.fst
  /-- `dispatch_error_queue` always finds a coroutine. -/
  found : s.missing = false

section Guard

variable [DecidableEq Co] (s : LuaService Co Address) (co : Co)

/-- `suspend` raises an error because of what the coroutine has yielded. -/
def Refuses : ServiceYield Co Address → Prop
  | .ret r => s.requests.sessionResponse co = true ∨
      ∀ h ∈ s.requests.handler co, s.deadService h.ticket.address = false ∧ r = .invalid
  | .response => s.requests.sessionResponse co = true ∨
      ∀ h ∈ s.requests.handler co, s.watchingService h.ticket.address = 0
  | .unknown | .raise => True
  | _ => False

/-- A coroutine does not leave a session in the queue. It raises an error, or exits, or stops for
the debugger, only when the queue is empty, or when a later turn of `suspend` goes on with it: one
for a forked coroutine or, where no error is raised, one that is in `dispatch_wakeup`. And it waits
with itself. -/
def MayYield (frames : ℕ) : ServiceYield Co Address → Prop
  | .exit => s.errorQueue = [] ∨ frames ≠ 0
  | .trace => s.errorQueue = [] ∨ frames ≠ 0 ∨ s.forkQueue ≠ []
  | .wait _ target => target = co
  | y => s.Refuses co y → s.errorQueue = [] ∨ s.forkQueue ≠ []

/-- No session is left in the queue, and none gets into it twice. -/
def Drains : ServiceAct Co Address → Prop
  | .yield y => s.pc.Ensures fun co frames => s.MayYield co frames y
  | .call (.term service _) =>
    ∀ w ∈ s.watchingSession, w.address = service → w.session ∉ s.errorQueue
  | _ => True

instance : ∀ y : ServiceYield Co Address, Decidable (s.Refuses co y)
  | .ret r => inferInstanceAs (Decidable (s.requests.sessionResponse co = true ∨
      ∀ h ∈ s.requests.handler co, s.deadService h.ticket.address = false ∧ r = .invalid))
  | .response => inferInstanceAs (Decidable (s.requests.sessionResponse co = true ∨
      ∀ h ∈ s.requests.handler co, s.watchingService h.ticket.address = 0))
  | .unknown | .raise => .isTrue trivial
  | .call _ _ | .sleep _ | .wait _ _ | .exit | .finish | .trace => .isFalse id

instance (frames : ℕ) : ∀ y : ServiceYield Co Address, Decidable (s.MayYield co frames y)
  | .exit => inferInstanceAs (Decidable (s.errorQueue = [] ∨ frames ≠ 0))
  | .trace => inferInstanceAs (Decidable (s.errorQueue = [] ∨ frames ≠ 0 ∨ s.forkQueue ≠ []))
  | .wait _ target => inferInstanceAs (Decidable (target = co))
  | .call _ _ | .sleep _ | .ret _ | .response | .finish | .unknown | .raise =>
    inferInstanceAs (Decidable (s.Refuses co _ → s.errorQueue = [] ∨ s.forkQueue ≠ []))

instance [DecidableEq Address] : ∀ a : ServiceAct Co Address, Decidable (s.Drains a)
  | .yield y => inferInstanceAs
      (Decidable (s.pc.Ensures fun co frames => s.MayYield co frames y))
  | .call (.term service _) => inferInstanceAs (Decidable
      (∀ w ∈ s.watchingSession, w.address = service → w.session ∉ s.errorQueue))
  | .call (.timeout _ _) | .call (.fork _) | .call (.wakeup _) | .call (.response _ _)
  | .call (.packed _ _) | .call (.test _) | .message _ | .dispatch _ => .isTrue trivial

end Guard

/-- A coroutine will be resumed. -/
def Used (s : LuaService Co Address) (co : Co) : Prop :=
  co ∈ s.forkQueue ∨ ∃ session, s.sessionIdCoroutine session = some (.coroutine co)

/-- The tables go together. -/
structure CallTables (s : LuaService Co Address) : Prop where
  entry : ∀ session co, s.sessionIdCoroutine session = some (.coroutine co) →
    (s.status co).Waits co session
  unique : ∀ session session' co, s.sessionIdCoroutine session = some (.coroutine co) →
    s.sessionIdCoroutine session' = some (.coroutine co) → session = session'
  fork : ∀ co ∈ s.forkQueue, s.status co = .created ∧
    ∀ session, s.sessionIdCoroutine session ≠ some (.coroutine co)
  forks : s.forkQueue.Nodup
  call : ∀ co session call, s.status co = .call session call →
    s.sessionIdCoroutine session = some (.coroutine co) ∧ s.calls[call]? = some session ∧
      call ∉ s.resumed.map Prod.fst
  watch : ∀ w ∈ s.watchingSession, ∃ co, s.status co = .call w.session w.call
  watches : (s.watchingSession.map Watch.session).Nodup
  queued : ∀ session ∈ s.errorQueue, s.Watched session
  queue : s.errorQueue.Nodup
  sleep : ∀ co session, s.sleepSession co = some session →
    s.sessionIdCoroutine session = some (.coroutine co) ∧ (s.status co).Sleeps co session
  failed : ∀ call ∈ s.failed, call ∈ s.resumed.map Prod.fst ∨
    ∃ w ∈ s.watchingSession, w.call = call ∧ w.session ∈ s.errorQueue
  once : (s.resumed.map Prod.fst).Nodup
  cause : ∀ p ∈ s.resumed, ∃ session, s.calls[p.1]? = some session ∧
    (p.2 = .response session ∨ p.2 = .failure session)
  unspoilt : ∀ co, s.status co ≠ .spoilt
  found : s.missing = false

/-- What holds between two steps. -/
structure CallInv (s : LuaService Co Address) : Prop where
  tables : s.CallTables
  running : ∀ co frames, s.pc = .running co frames → s.status co = .running
  idle : s.pc = .idle → s.errorQueue = []
  forks : s.pc = .forks → s.errorQueue = [] ∨ s.forkQueue ≠ []

variable {s s' : LuaService Co Address} {co co' : Co} {session call frames : ℕ}
  {status : Co → CoStatus Co} {service : Address}

theorem callInv_init : CallInv (init Co Address) where
  tables := {
    entry session co h := by cases h
    unique session session' co h := by cases h
    fork co h := by cases h
    forks := .nil
    call co session call h := by cases h
    watch w h := by cases h
    watches := .nil
    queued session h := by cases h
    queue := .nil
    sleep co session h := by cases h
    failed call h := by cases h
    once := .nil
    cause p h := by cases h
    unspoilt co h := by cases h
    found := rfl }
  running co frames h := by cases h
  idle _ := rfl
  forks h := by cases h

theorem CallInv.callsEnd (h : s.CallInv) : s.CallsEnd where
  once := h.tables.once
  cause := h.tables.cause
  returned hpc := by
    have hempty := h.idle hpc
    refine ⟨hempty, fun call hcall => ?_⟩
    rcases h.tables.failed call hcall with hended | ⟨w, -, -, hqueue⟩
    · exact hended
    · rw [hempty] at hqueue
      cases hqueue
  found := h.tables.found

namespace CallTables

/-! ### Facts -/

section

variable (h : s.CallTables)
include h

theorem watch_entry {w : Watch Address} (hw : w ∈ s.watchingSession) :
    ∃ co, s.sessionIdCoroutine w.session = some (.coroutine co) ∧
      s.status co = .call w.session w.call := by
  obtain ⟨co, hco⟩ := h.watch w hw
  exact ⟨co, (h.call co _ _ hco).1, hco⟩

/-- A call that is watched is the one of the coroutine that waits for its session. -/
theorem watch_call {w : Watch Address} (hw : w ∈ s.watchingSession)
    (hco : s.sessionIdCoroutine w.session = some (.coroutine co)) :
    s.status co = .call w.session w.call := by
  obtain ⟨co', hentry, hstatus⟩ := h.watch_entry hw
  rw [hco] at hentry
  cases hentry
  exact hstatus

theorem not_used (hstatus : s.status co = .free ∨ s.status co = .running) : ¬s.Used co := by
  rintro (hfork | ⟨session, hentry⟩)
  · have hcreated := (h.fork co hfork).1
    rcases hstatus with hstatus | hstatus <;> simp [hstatus] at hcreated
  · rcases h.entry session co hentry with hw | ⟨call, hw⟩ | hw | hw <;>
      rcases hstatus with hstatus | hstatus <;> simp [hstatus] at hw

/-! ### Steps -/

/-- Whoever will not be resumed may do anything but begin a call. -/
theorem congr_status (hused : ∀ co, s.Used co → status co = s.status co)
    (hcall : ∀ co session call, status co = .call session call → s.status co = .call session call)
    (hspoilt : ∀ co, status co ≠ .spoilt) : CallTables { s with status } where
  entry session co hentry := by
    show (status co).Waits co session
    rw [hused co (.inr ⟨session, hentry⟩)]
    exact h.entry session co hentry
  unique := h.unique
  fork co hco := ⟨(hused co (.inl hco)).trans (h.fork co hco).1, (h.fork co hco).2⟩
  forks := h.forks
  call co session call hco := h.call co session call (hcall co session call hco)
  watch w hw := by
    obtain ⟨co, hentry, hstatus⟩ := h.watch_entry hw
    exact ⟨co, (hused co (.inr ⟨_, hentry⟩)).trans hstatus⟩
  watches := h.watches
  queued := h.queued
  queue := h.queue
  sleep co session hsleep := by
    obtain ⟨hentry, hsleeps⟩ := h.sleep co session hsleep
    refine ⟨hentry, ?_⟩
    show (status co).Sleeps co session
    rwa [hused co (.inr ⟨session, hentry⟩)]
  failed := h.failed
  once := h.once
  cause := h.cause
  unspoilt := hspoilt
  found := h.found

theorem setSession (session : ℕ) (entry : Option (SessionEntry Co))
    (hold : ∀ co, s.sessionIdCoroutine session = some (.coroutine co) →
      (∀ call, s.status co ≠ .call session call) ∧ s.sleepSession co ≠ some session)
    (hentry : ∀ co, entry ≠ some (.coroutine co)) : (s.setSession session entry).CallTables := by
  have hkeep : ∀ {session' co}, (s.setSession session entry).sessionIdCoroutine session' =
      some (.coroutine co) → s.sessionIdCoroutine session' = some (.coroutine co) := by
    intro session' co hco
    rcases update_eq_some_iff.mp hco with ⟨-, hco⟩ | ⟨-, hco⟩
    · exact absurd hco (hentry co)
    · exact hco
  have hother : ∀ {session' co}, session' ≠ session →
      s.sessionIdCoroutine session' = some (.coroutine co) →
      (s.setSession session entry).sessionIdCoroutine session' = some (.coroutine co) :=
    fun hne hco => (update_of_ne hne _ _).trans hco
  refine { h with
    entry := fun session' co hco => h.entry session' co (hkeep hco)
    unique := fun x y co hx hy => h.unique x y co (hkeep hx) (hkeep hy)
    fork := fun co hco => ⟨(h.fork co hco).1, fun x hx => (h.fork co hco).2 x (hkeep hx)⟩
    call := fun co x call hco => ?_
    sleep := fun co x hco => ?_ }
  · obtain ⟨hx, hrest⟩ := h.call co x call hco
    refine ⟨hother (fun heq => ?_) hx, hrest⟩
    subst heq
    exact (hold co hx).1 call hco
  · obtain ⟨hx, hsleeps⟩ := h.sleep co x hco
    refine ⟨hother (fun heq => ?_) hx, hsleeps⟩
    subst heq
    exact (hold co hx).2 hco

theorem register (hsession : s.sessionIdCoroutine session = none) (hused : ¬s.Used co)
    (hwaits : (s.status co).Waits co session) :
    (s.setSession session (some (.coroutine co))).CallTables := by
  have hcases : ∀ {x c}, (s.setSession session (some (.coroutine co))).sessionIdCoroutine x =
      some (.coroutine c) →
      x = session ∧ c = co ∨ s.sessionIdCoroutine x = some (.coroutine c) := by
    intro x c hc
    rcases update_some_eq_some_iff.mp hc with ⟨hx, hc⟩ | ⟨-, hc⟩
    · cases hc
      exact .inl ⟨hx, rfl⟩
    · exact .inr hc
  have hother : ∀ {x c}, s.sessionIdCoroutine x = some (.coroutine c) →
      (s.setSession session (some (.coroutine co))).sessionIdCoroutine x = some (.coroutine c) := by
    intro x c hx
    have hne : x ≠ session := by
      rintro rfl
      rw [hsession] at hx
      cases hx
    exact (update_of_ne hne _ _).trans hx
  refine { h with
    entry := fun x c hc => ?_
    unique := fun x y c hx hy => ?_
    fork := fun c hc => ⟨(h.fork c hc).1, fun x hx => ?_⟩
    call := fun c x call hc => ⟨hother (h.call c x call hc).1, (h.call c x call hc).2⟩
    sleep := fun c x hc => ⟨hother (h.sleep c x hc).1, (h.sleep c x hc).2⟩ }
  · rcases hcases hc with ⟨rfl, rfl⟩ | hc
    · exact hwaits
    · exact h.entry x c hc
  · rcases hcases hx with ⟨rfl, rfl⟩ | hx'
    · rcases hcases hy with ⟨rfl, -⟩ | hy'
      · rfl
      · exact absurd (.inr ⟨y, hy'⟩) hused
    · rcases hcases hy with ⟨rfl, rfl⟩ | hy'
      · exact absurd (.inr ⟨x, hx'⟩) hused
      · exact h.unique x y c hx' hy'
  · rcases hcases hx with ⟨-, rfl⟩ | hx'
    · exact hused (.inl hc)
    · exact (h.fork c hc).2 x hx'

theorem pushErrors (sessions : List ℕ) (hwatched : ∀ x ∈ sessions, s.Watched x)
    (hnodup : sessions.Nodup) (hnew : ∀ x ∈ sessions, x ∉ s.errorQueue) :
    (s.pushErrors sessions).CallTables := by
  refine { h with
    queued := fun x hx => ?_
    queue := ?_
    failed := fun call hcall => ?_ }
  · rcases mem_append.mp hx with hx | hx
    · exact h.queued x hx
    · exact hwatched x hx
  · apply nodup_append'.mpr
    exact ⟨h.queue, hnodup, fun x hx hx' => hnew x hx' hx⟩
  · rcases mem_append.mp hcall with hcall | hcall
    · rcases h.failed call hcall with hended | ⟨w, hw, hwcall, hqueue⟩
      · exact .inl hended
      · exact .inr ⟨w, hw, hwcall, mem_append_left _ hqueue⟩
    · obtain ⟨w, hw, rfl⟩ := mem_map.mp hcall
      obtain ⟨hw, hsession⟩ := mem_filter.mp hw
      exact .inr ⟨w, hw, rfl, mem_append_right _ (of_decide_eq_true hsession)⟩

theorem pushFork (hcreated : s.status co = .created) (hused : ¬s.Used co) :
    CallTables { s with forkQueue := s.forkQueue ++ [co] } := by
  refine { h with
    fork := fun c hc => ?_
    forks := ?_ }
  · rcases mem_append.mp hc with hc | hc
    · exact h.fork c hc
    · obtain rfl := mem_singleton.mp hc
      exact ⟨hcreated, fun x hx => hused (.inr ⟨x, hx⟩)⟩
  · apply nodup_append'.mpr
    refine ⟨h.forks, nodup_singleton co, fun c hc hc' => ?_⟩
    obtain rfl := mem_singleton.mp hc'
    exact hused (.inl hc)

theorem sublistFork (forkQueue : List Co) (hsub : forkQueue.Sublist s.forkQueue) :
    CallTables { s with forkQueue } :=
  { h with
    fork := fun c hc => h.fork c (hsub.subset hc)
    forks := h.forks.sublist hsub }

theorem resumed_lt (hcall : call ∈ s.resumed.map Prod.fst) : call < s.calls.length := by
  obtain ⟨p, hp, rfl⟩ := mem_map.mp hcall
  obtain ⟨session, hsession, -⟩ := h.cause p hp
  exact (List.getElem?_eq_some_iff.mp hsession).1

end

variable [DecidableEq Co]

variable (h : s.CallTables)
include h

theorem setStatus {st : CoStatus Co} (hused : ¬s.Used co)
    (hcall : ∀ session call, st ≠ .call session call) (hspoilt : st ≠ .spoilt) :
    (s.setStatus co st).CallTables := by
  apply h.congr_status
  · intro co' hco'
    have hne : co' ≠ co := fun heq => hused (heq ▸ hco')
    exact update_of_ne hne _ _
  · intro co' session call hco'
    by_cases hne : co' = co
    · subst hne
      rw [update_self] at hco'
      exact absurd hco' (hcall session call)
    · rwa [update_of_ne hne] at hco'
  · intro co'
    by_cases hne : co' = co
    · subst hne
      rw [update_self]
      exact hspoilt
    · rw [update_of_ne hne]
      exact h.unspoilt co'

theorem sleepSession_none (co : Co) :
    CallTables { s with sleepSession := update s.sleepSession co none } :=
  { h with
    sleep := fun c x hc => by
      exact h.sleep c x (update_none_eq_some_iff.mp hc).2 }

theorem sleepSession_some (hentry : s.sessionIdCoroutine session = some (.coroutine co))
    (hsleeps : (s.status co).Sleeps co session) :
    CallTables { s with sleepSession := update s.sleepSession co (some session) } :=
  { h with
    sleep := fun c x hc => by
      rcases update_some_eq_some_iff.mp hc with ⟨rfl, rfl⟩ | ⟨-, hc⟩
      · exact ⟨hentry, hsleeps⟩
      · exact h.sleep c x hc }

theorem startSleep {st : CoStatus Co} (hsession : s.sessionIdCoroutine session = none)
    (hused : ¬s.Used co) (hst : st.Sleeps co session) :
    (s.sleep co frames session st).CallTables := by
  have hstatus : (s.setStatus co st).CallTables := by
    apply h.setStatus hused
    · rintro x call rfl
      rcases hst with hst | hst <;> cases hst
    · rintro rfl
      rcases hst with hst | hst <;> cases hst
  have hself : (s.setStatus co st).status co = st := by simp [LuaService.setStatus]
  have hsleeps : ((s.setStatus co st).status co).Sleeps co session := by rwa [hself]
  have hregister := hstatus.register hsession hused (.inr (.inr hsleeps))
  have hentry : ((s.setStatus co st).setSession session (some (.coroutine co))).sessionIdCoroutine
      session = some (.coroutine co) := by simp [LuaService.setSession]
  exact { hregister.sleepSession_some hentry hsleeps with }

/-- A coroutine that is registered for a session begins a call. -/
theorem beginCall (service : Address) (hco : s.sessionIdCoroutine session = some (.coroutine co))
    (hcreated : s.status co = .created) (hwatched : ¬s.Watched session) :
    CallTables { s.setStatus co (.call session s.calls.length) with
      watchingSession := ⟨session, service, s.calls.length⟩ :: s.watchingSession
      calls := s.calls ++ [session] } := by
  have hcalls : ∀ {call x : ℕ}, s.calls[call]? = some x →
      (s.calls ++ [session])[call]? = some x := fun hx =>
    (getElem?_append_left (List.getElem?_eq_some_iff.mp hx).1).trans hx
  have hself : update s.status co (.call session s.calls.length) co =
      .call session s.calls.length := update_self _ _ _
  have hother : ∀ {c}, c ≠ co → update s.status co (.call session s.calls.length) c = s.status c :=
    fun hne => update_of_ne hne _ _
  refine { h with
    entry := fun x c hc => ?_
    fork := fun c hc => ⟨?_, (h.fork c hc).2⟩
    call := fun c x call hc => ?_
    watch := fun w hw => ?_
    watches := ?_
    queued := fun x hx => ?_
    sleep := fun c x hc => ?_
    failed := fun call hcall => ?_
    cause := fun p hp => ?_
    unspoilt := fun c hc => ?_ }
  · show (update s.status co _ c).Waits c x
    by_cases hne : c = co
    · subst hne
      obtain rfl := h.unique x session c hc hco
      exact .inr (.inl ⟨_, hself⟩)
    · rw [hother hne]
      exact h.entry x c hc
  · have hne : c ≠ co := by
      rintro rfl
      exact (h.fork c hc).2 session hco
    exact (hother hne).trans (h.fork c hc).1
  · by_cases hne : c = co
    · subst hne
      cases hself.symm.trans hc
      refine ⟨hco, by simp, fun hended => ?_⟩
      exact absurd (h.resumed_lt hended) (Nat.lt_irrefl _)
    · obtain ⟨hx, hcall, hended⟩ := h.call c x call ((hother hne).symm.trans hc)
      exact ⟨hx, hcalls hcall, hended⟩
  · rcases mem_cons.mp hw with rfl | hw
    · exact ⟨co, hself⟩
    · obtain ⟨c, hc⟩ := h.watch w hw
      have hne : c ≠ co := by
        rintro rfl
        simp [hcreated] at hc
      exact ⟨c, (hother hne).trans hc⟩
  · refine nodup_cons.mpr ⟨fun hmem => ?_, h.watches⟩
    obtain ⟨w, hw, heq⟩ := mem_map.mp hmem
    exact hwatched ⟨w, hw, heq⟩
  · obtain ⟨w, hw, rfl⟩ := h.queued x hx
    exact ⟨w, mem_cons_of_mem _ hw, rfl⟩
  · obtain ⟨hx, hsleeps⟩ := h.sleep c x hc
    have hne : c ≠ co := by
      rintro rfl
      rcases hsleeps with hs | hs <;> simp [hcreated] at hs
    refine ⟨hx, ?_⟩
    show (update s.status co _ c).Sleeps c x
    rwa [hother hne]
  · rcases h.failed call hcall with hended | ⟨w, hw, hrest⟩
    · exact .inl hended
    · exact .inr ⟨w, mem_cons_of_mem _ hw, hrest⟩
  · obtain ⟨x, hx, hcause⟩ := h.cause p hp
    exact ⟨x, hcalls hx, hcause⟩
  · by_cases hne : c = co
    · subst hne
      cases hself.symm.trans hc
    · exact h.unspoilt c ((hother hne).symm.trans hc)

theorem startCall (hunused : s.Unused session) (hused : ¬s.Used co) :
    CallTables {
      (s.setStatus co (.call session s.calls.length)).setSession session (some (.coroutine co)) with
      pc := .wakeups frames
      watchingSession := ⟨session, service, s.calls.length⟩ :: s.watchingSession
      calls := s.calls ++ [session] } := by
  -- as if it were registered first
  have hcreated : (s.setStatus co .created).status co = .created := update_self co _ _
  have htables : (s.setStatus co .created).CallTables := h.setStatus hused nofun nofun
  have hregister := htables.register hunused.2.1 hused (.inl hcreated)
  have hbegin := hregister.beginCall service (update_self session _ _) hcreated hunused.2.2.1
  have hstatus : update (update s.status co .created) co (.call session s.calls.length) =
      update s.status co (.call session s.calls.length) := by
    rw [update_idem]
  unfold LuaService.setStatus LuaService.setSession at hbegin ⊢
  dsimp only at hbegin
  rw [hstatus] at hbegin
  exact { hbegin with }

theorem endCall (hstatus : s.status co = .call session call) {resumer : Resumer}
    (hcause : resumer = .response session ∨ resumer = .failure session) {errorQueue : List ℕ}
    (hqueue : ∀ x, x ∈ errorQueue ↔ x ∈ s.errorQueue ∧ x ≠ session) (hnodup : errorQueue.Nodup) :
    CallTables { (s.setStatus co .running).setSession session none with
      watchingSession := s.watchingSession.filter fun w => w.session ≠ session
      resumed := s.resumed ++ [(call, resumer)]
      errorQueue } := by
  obtain ⟨hco, hcall, hnew⟩ := h.call co session call hstatus
  have hentries : ∀ {x c}, update s.sessionIdCoroutine session none x = some (.coroutine c) →
        x ≠ session ∧ c ≠ co ∧ s.sessionIdCoroutine x = some (.coroutine c) := by
    intro x c hc
    obtain ⟨hne, hx⟩ := update_none_eq_some_iff.mp hc
    refine ⟨hne, ?_, hx⟩
    rintro rfl
    exact hne (h.unique x session c hx hco)
  have hother : ∀ {c}, c ≠ co → update s.status co .running c = s.status c :=
    fun hne => update_of_ne hne _ _
  have hkeep : ∀ {x c}, c ≠ co → s.sessionIdCoroutine x = some (.coroutine c) →
      update s.sessionIdCoroutine session none x = some (.coroutine c) := by
    intro x c hne hx
    have hx' : x ≠ session := by
      rintro rfl
      rw [hco] at hx
      cases hx
      exact hne rfl
    exact (update_of_ne hx' _ _).trans hx
  have hended : ∀ {c}, c ∈ (s.resumed ++ [(call, resumer)]).map Prod.fst ↔
      c ∈ s.resumed.map Prod.fst ∨ c = call := by
    intro c
    simp
  refine { h with
    entry := fun x c hc => ?_
    unique := fun x y c hx hy => h.unique x y c (hentries hx).2.2 (hentries hy).2.2
    fork := fun c hc => ⟨?_, fun x hx => (h.fork c hc).2 x (hentries hx).2.2⟩
    call := fun c x k hc => ?_
    watch := fun w hw => ?_
    watches := h.watches.sublist (filter_sublist.map _)
    queued := fun x hx => ?_
    queue := hnodup
    sleep := fun c x hc => ?_
    failed := fun k hk => ?_
    once := ?_
    cause := fun p hp => ?_
    unspoilt := fun c => ?_ }
  · obtain ⟨-, hne, hx⟩ := hentries hc
    show (update s.status co _ c).Waits c x
    rw [hother hne]
    exact h.entry x c hx
  · have hne : c ≠ co := by
      rintro rfl
      exact (h.fork c hc).2 session hco
    exact (hother hne).trans (h.fork c hc).1
  · have hne : c ≠ co := by
      rintro rfl
      have heq : update s.status c .running c = .call x k := hc
      rw [update_self] at heq
      cases heq
    have hold : s.status c = .call x k := (hother hne).symm.trans hc
    obtain ⟨hx, hk, hknew⟩ := h.call c x k hold
    refine ⟨hkeep hne hx, hk, fun hmem => ?_⟩
    rcases hended.mp hmem with hmem | rfl
    · exact hknew hmem
    · -- the session of a call is that of the coroutine in it
      obtain rfl := some_inj.mp (hk.symm.trans hcall)
      rw [hco] at hx
      cases hx
      exact hne rfl
  · obtain ⟨hw, hsession⟩ := mem_filter.mp hw
    obtain ⟨c, hc, hwcall⟩ := h.watch_entry hw
    have hne : c ≠ co := by
      rintro rfl
      exact of_decide_eq_true hsession (h.unique _ _ c hc hco)
    exact ⟨c, (hother hne).trans hwcall⟩
  · obtain ⟨hx, hne⟩ := (hqueue x).mp hx
    obtain ⟨w, hw, rfl⟩ := h.queued x hx
    exact ⟨w, mem_filter.mpr ⟨hw, decide_eq_true hne⟩, rfl⟩
  · obtain ⟨hx, hsleeps⟩ := h.sleep c x hc
    have hne : c ≠ co := by
      rintro rfl
      rcases hsleeps with hs | hs <;> simp [hstatus] at hs
    refine ⟨hkeep hne hx, ?_⟩
    show (update s.status co _ c).Sleeps c x
    rwa [hother hne]
  · rcases h.failed k hk with hmem | ⟨w, hw, rfl, hwqueue⟩
    · exact .inl (hended.mpr (.inl hmem))
    · by_cases hne : w.session = session
      · -- the call that ends now
        have hw' := h.watch_call hw (hne ▸ hco)
        rw [hstatus] at hw'
        cases hw'
        exact .inl (hended.mpr (.inr rfl))
      · exact .inr ⟨w, mem_filter.mpr ⟨hw, decide_eq_true hne⟩, rfl, (hqueue _).mpr ⟨hwqueue, hne⟩⟩
  · show ((s.resumed ++ [(call, resumer)]).map Prod.fst).Nodup
    rw [map_append]
    apply nodup_append'.mpr
    refine ⟨h.once, nodup_singleton _, fun k hk hk' => ?_⟩
    obtain rfl := mem_singleton.mp hk'
    exact hnew hk
  · rcases mem_append.mp hp with hp | hp
    · exact h.cause p hp
    · obtain rfl := mem_singleton.mp hp
      exact ⟨session, hcall, hcause⟩
  · by_cases hne : c = co
    · subst hne
      show update s.status c .running c ≠ _
      rw [update_self]
      nofun
    · show update s.status co .running c ≠ _
      rw [hother hne]
      exact h.unspoilt c

end CallTables

/-! ## The steps -/

section Steps

variable {requests : Requests Co Address} {watchingService : Address → ℕ}

theorem CallInv.frame (h : s.CallInv) : CallInv { s with requests, watchingService } :=
  ⟨{ h.tables with }, h.running, h.idle, h.forks⟩

theorem CallTables.running (h : s.CallTables) (hpc : s.pc = .running co frames)
    (hstatus : s.status co = .running) : s.CallInv where
  tables := h
  running co' frames' hpc' := by
    rw [hpc] at hpc'
    cases hpc'
    exact hstatus
  idle hpc' := by simp [hpc] at hpc'
  forks hpc' := by simp [hpc] at hpc'

theorem CallTables.draining (h : s.CallTables)
    (hpc : s.pc = .wakeups frames ∨ s.pc = .errors frames) : s.CallInv where
  tables := h
  running co' frames' hpc' := by rcases hpc with hpc | hpc <;> simp [hpc] at hpc'
  idle hpc' := by rcases hpc with hpc | hpc <;> simp [hpc] at hpc'
  forks hpc' := by rcases hpc with hpc | hpc <;> simp [hpc] at hpc'

theorem CallTables.forking (h : s.CallTables) (hpc : s.pc = .forks)
    (hqueue : s.errorQueue = [] ∨ s.forkQueue ≠ []) : s.CallInv where
  tables := h
  running co' frames' hpc' := by simp [hpc] at hpc'
  idle hpc' := by simp [hpc] at hpc'
  forks _ := hqueue

theorem CallTables.unwinding (h : s.CallTables) (hpc : s.pc = unwind frames)
    (hqueue : frames = 0 → s.errorQueue = [] ∨ s.forkQueue ≠ []) : s.CallInv := by
  cases frames with
  | zero => exact h.forking hpc (hqueue rfl)
  | succ frames => exact h.draining (.inr hpc)

variable [DecidableEq Co]

theorem CallTables.stop (h : s.CallTables) (hrunning : s.status co = .running)
    {st : CoStatus Co} (hst : st = .free ∨ st = .parked ∨ st = .dead) :
    (s.setStatus co st).CallTables := by
  apply h.setStatus (h.not_used (.inr hrunning))
  · rintro session call rfl
    rcases hst with hst | hst | hst <;> cases hst
  · rintro rfl
    rcases hst with hst | hst | hst <;> cases hst

theorem CallInv.cut (h : s.CallInv) (hrunning : s.status co = .running)
    (hqueue : s.errorQueue = [] ∨ s.forkQueue ≠ []) : CallInv { s.cut co with requests } :=
  CallTables.forking { h.tables.stop hrunning (.inr (.inl rfl)) with } rfl hqueue

section

variable (h : s.CallTables)
include h

theorem CallTables.start (hcreated : s.status co = .created) (hused : ¬s.Used co)
    {resumer : Resumer} : (s.resume co frames resumer).CallInv := by
  rw [resume_created hcreated]
  have htables : (s.setStatus co .running).CallTables := h.setStatus hused nofun nofun
  exact CallTables.running { htables with } rfl (update_self co _ _)

/-- A coroutine is resumed that is registered but not in a call. -/
theorem CallTables.wake (hco : s.sessionIdCoroutine session = some (.coroutine co))
    (hstatus : s.status co = .created ∨ (s.status co).Sleeps co session)
    (entry : Option (SessionEntry Co)) (hentry : ∀ co, entry ≠ some (.coroutine co)) :
    CallTables { (s.setSession session entry).setStatus co .running with
      sleepSession := update s.sleepSession co none } := by
  have hasleep := h.sleepSession_none co
  have hclear : CallTables { s.setSession session entry with
      sleepSession := update s.sleepSession co none } := by
    refine hasleep.setSession session entry (fun co' hco' => ?_) hentry
    rw [show s.sessionIdCoroutine session = _ from hco'] at hco
    cases hco
    refine ⟨fun call hcall => ?_, ?_⟩
    · have hcall : s.status co = .call session call := hcall
      rw [hcall] at hstatus
      rcases hstatus with hcreated | hs | hs
      · cases hcreated
      · cases hs
      · cases hs
    · show update s.sleepSession co none co ≠ _
      rw [update_self]
      nofun
  refine hclear.setStatus ?_ nofun nofun
  rintro (hfork | ⟨session', hentry'⟩)
  · exact (h.fork co hfork).2 session hco
  · rcases update_eq_some_iff.mp hentry' with ⟨-, heq⟩ | ⟨hne, hold⟩
    · exact hentry co heq
    · exact hne (h.unique session' session co hold hco)

/-- The coroutine that waits for a session is resumed by `dispatch_wakeup`, or with the response of
its timer. -/
theorem CallTables.resume (hco : s.sessionIdCoroutine session = some (.coroutine co))
    (hstatus : s.status co = .created ∨ (s.status co).Sleeps co session) {resumer : Resumer}
    {entry : Option (SessionEntry Co)} (hentry : ∀ co, entry ≠ some (.coroutine co)) :
    ((s.setSession session entry).resume co frames resumer).CallInv := by
  have hself : update s.status co .running co = .running := update_self co _ _
  rcases hstatus with hcreated | hsleep | hwait
  · have htables := h.wake hco (.inl hcreated) entry hentry
    have hnone : s.sleepSession co = none := by
      cases hsession : s.sleepSession co with
      | none => rfl
      | some x =>
        rcases (h.sleep co x hsession).2 with hs | hs <;> simp [hcreated] at hs
    rw [← hnone, update_eq_self] at htables
    rw [resume_created (s := s.setSession session entry) hcreated]
    exact CallTables.running { htables with } rfl hself
  · have htables := h.wake hco (.inr (.inl hsleep)) entry hentry
    rw [resume_sleep (s := s.setSession session entry) hsleep]
    exact CallTables.running { htables with } rfl hself
  · -- `uboss.wait` clears the entry again
    have htables := h.wake hco (.inr (.inr hwait)) none nofun
    have hidem : update (update s.sessionIdCoroutine session entry) session none =
        update s.sessionIdCoroutine session none := by
      rw [update_idem]
    rw [resume_wait (s := s.setSession session entry) hwait]
    suffices htables' : CallTables { (s.setSession session entry).setStatus co .running with
      sessionIdCoroutine := update (update s.sessionIdCoroutine session entry) session none
      pc := .running co frames
      sleepSession := update s.sleepSession co none } from htables'.running rfl hself
    rw [hidem]
    exact { htables with }

theorem CallTables.resumeCall (hstatus : s.status co = .call session call) {resumer : Resumer}
    (hcause : resumer = .response session ∨ resumer = .failure session) (errorQueue : List ℕ)
    (hqueue : ∀ x, x ∈ errorQueue ↔ x ∈ s.errorQueue ∧ x ≠ session) (hnodup : errorQueue.Nodup) :
    ({ s.setSession session none with errorQueue }.resume co frames resumer).CallInv := by
  rw [resume_call (s := { s.setSession session none with errorQueue }) hstatus]
  exact CallTables.running { h.endCall hstatus hcause hqueue hnodup with } rfl (update_self co _ _)

theorem CallTables.create (hcreate : s.coCreate co = some s') :
    s' = s.setStatus co .created ∧ s'.CallTables ∧ ¬s'.Used co ∧ s.status co = .free := by
  rcases coCreate_cases hcreate with ⟨hfree, rfl⟩ | ⟨hspoilt, -⟩
  · have hused := h.not_used (.inl hfree)
    exact ⟨rfl, h.setStatus hused nofun nofun, hused, hfree⟩
  · exact absurd hspoilt (h.unspoilt co)

end

variable [DecidableEq Address]

theorem CallTables.message (h : s.CallTables) {source : Address}
    (hregister : s.register co session source = some s') :
    s'.CallTables ∧ ¬s'.Used co ∧ s'.status co = .created ∧ s'.errorQueue = s.errorQueue := by
  obtain ⟨u, hu, rfl⟩ := map_eq_some_iff.mp hregister
  obtain ⟨rfl, htables, hused, -⟩ := h.create hu
  exact ⟨{ htables with }, hused, update_self co _ _, rfl⟩

omit [DecidableEq Co] in
theorem CallTables.errorDispatch (h : s.CallTables) {source : Address} {order : List ℕ}
    (hnew : ∀ w ∈ s.watchingSession, session ≠ 0 ∨ w.address = source → w.session ∉ s.errorQueue)
    (hdispatch : s.errorDispatch session source order = some s') :
    s'.CallTables ∧ s'.pc = s.pc ∧ s'.status = s.status ∧ s'.Used = s.Used := by
  rcases errorDispatch_cases hdispatch with ⟨horder, deadService, rfl⟩ |
    ⟨hsession, hwatched, rfl⟩ | rfl
  · have hmem : ∀ x ∈ order, ∃ w ∈ s.watchingSession, w.address = source ∧ w.session = x := by
      intro x hx
      obtain ⟨w, hw, rfl⟩ := mem_map.mp (horder.mem_iff.mp hx)
      obtain ⟨hw, haddress⟩ := mem_filter.mp hw
      exact ⟨w, hw, of_decide_eq_true haddress, rfl⟩
    have htables := h.pushErrors order (fun x hx => by
        obtain ⟨w, hw, -, hsession⟩ := hmem x hx
        exact ⟨w, hw, hsession⟩)
      (horder.nodup_iff.mpr (h.watches.sublist (filter_sublist.map _)))
      (fun x hx => by
        obtain ⟨w, hw, haddress, rfl⟩ := hmem x hx
        exact hnew w hw (.inr haddress))
    exact ⟨{ htables with }, rfl, rfl, rfl⟩
  · have htables := h.pushErrors [session] (fun x hx => by
        obtain rfl := mem_singleton.mp hx
        exact hwatched)
      (nodup_singleton session)
      (fun x hx => by
        obtain rfl := mem_singleton.mp hx
        obtain ⟨w, hw, rfl⟩ := hwatched
        exact hnew w hw (.inl hsession))
    exact ⟨htables, rfl, rfl, rfl⟩
  · exact ⟨h, rfl, rfl, rfl⟩

theorem CallTables.finish (h : s.CallTables) (hused : ¬s.Used co) :
    (s.finish co frames).CallInv := by
  have htables : (s.setStatus co .free).CallTables := h.setStatus hused nofun nofun
  suffices htables' : (s.finish co frames).CallTables from htables'.draining (.inl rfl)
  unfold LuaService.finish
  split
  · exact { htables with }
  · exact { htables with }

theorem callInv_message {m : ServiceMessage Co Address} (h : s.CallInv) (hpc : s.pc = .idle)
    (hstep : s.dispatchMessage m = some s') : s'.CallInv := by
  have hempty := h.idle hpc
  cases m with
  | response session =>
    unfold dispatchMessage at hstep
    dsimp only at hstep
    split at hstep
    · next co hco =>
      obtain rfl := some_inj.mp hstep
      rcases h.tables.entry session co hco with hcreated | ⟨call, hcall⟩ | hsleeps
      · exact h.tables.resume hco (.inl hcreated) nofun
      · refine h.tables.resumeCall hcall (.inl rfl) s.errorQueue (fun x => ?_) h.tables.queue
        simp [hempty]
      · exact h.tables.resume hco (.inr hsleeps) nofun
    · next hbroken =>
      obtain rfl := some_inj.mp hstep
      have htables := h.tables.setSession session none
        (fun co hco => by rw [hbroken] at hco; cases hco) nofun
      exact CallTables.forking { htables with } rfl (.inl hempty)
    · obtain rfl := some_inj.mp hstep
      exact CallTables.forking { h.tables with } rfl (.inl hempty)
  | request co session source =>
    obtain ⟨u, hu, rfl⟩ := map_eq_some_iff.mp hstep
    obtain ⟨htables, hused, hcreated, -⟩ := h.tables.message hu
    exact htables.start hcreated hused
  | malformed co session source =>
    obtain ⟨u, hu, rfl⟩ := map_eq_some_iff.mp hstep
    obtain ⟨htables, -, -, hqueue⟩ := h.tables.message hu
    exact CallTables.forking { htables with } rfl (.inl (hqueue.trans hempty))
  | undispatched session source =>
    obtain rfl := some_inj.mp hstep
    exact CallTables.forking { h.tables with } rfl (.inl hempty)
  | unknown session source =>
    obtain rfl := some_inj.mp hstep
    exact CallTables.forking { h.tables with } rfl (.inl hempty)
  | error co session source order =>
    obtain ⟨u, hu, hu'⟩ := bind_eq_some_iff.mp hstep
    obtain ⟨htables, hused, hcreated, hqueue⟩ := h.tables.message hu
    rw [hcreated] at hu'
    obtain ⟨v, hv, rfl⟩ := map_eq_some_iff.mp hu'
    have hnew : ∀ w ∈ u.watchingSession, session ≠ 0 ∨ w.address = source →
        w.session ∉ u.errorQueue := by
      intro w _ _ hw
      rw [hqueue, hempty] at hw
      cases hw
    obtain ⟨htables', -, -, hused'⟩ := htables.errorDispatch hnew hv
    exact htables'.finish (hused' ▸ hused)

/-! ### What a coroutine does -/

omit [DecidableEq Co] in
theorem callResponse_frame (i : ℕ) (c : Closure Address) (ok : Bool) : ∃ requests watchingService,
      s.callResponse i c ok = { s with requests, watchingService } := by
  unfold callResponse
  split
  · exact ⟨_, _, rfl⟩
  · exact ⟨_, _, rfl⟩
  · split_ifs
    · exact ⟨_, _, rfl⟩
    · exact ⟨_, _, rfl⟩
    · exact ⟨_, _, rfl⟩

theorem callInv_call {a : ServiceCall Co Address} (h : s.CallInv) (hguard : s.Drains (.call a))
    (hpc : (∃ co frames, s.pc = .running co frames) ∨ s.pc = .idle ∧ a.ofMain)
    (hstep : s.perform a = some s') : s'.CallInv := by
  cases a with
  | timeout session co =>
    unfold perform at hstep
    dsimp only at hstep
    split_ifs at hstep with hunused
    obtain ⟨u, hu, rfl⟩ := map_eq_some_iff.mp hstep
    obtain ⟨rfl, htables, hused, hfree⟩ := h.tables.create hu
    have hcreated : (s.setStatus co .created).status co = .created := update_self co _ _
    refine ⟨htables.register hunused.2.1 hused (.inl hcreated), fun co' frames hpc' => ?_, h.idle,
      h.forks⟩
    have hrunning := h.running co' frames hpc'
    have hne : co' ≠ co := by
      rintro rfl
      simp [hfree] at hrunning
    exact (update_of_ne hne _ _).trans hrunning
  | fork co =>
    obtain ⟨u, hu, rfl⟩ := map_eq_some_iff.mp hstep
    obtain ⟨rfl, htables, hused, hfree⟩ := h.tables.create hu
    have hcreated : (s.setStatus co .created).status co = .created := update_self co _ _
    refine ⟨htables.pushFork hcreated hused, fun co' frames hpc' => ?_, h.idle,
      fun _ => .inr (by simp)⟩
    have hrunning := h.running co' frames hpc'
    have hne : co' ≠ co := by
      rintro rfl
      simp [hfree] at hrunning
    exact (update_of_ne hne _ _).trans hrunning
  | wakeup co =>
    obtain rfl := some_inj.mp hstep
    split_ifs
    · exact ⟨{ h.tables with }, h.running, h.idle, h.forks⟩
    · exact h
  | term service order =>
    rcases hpc with ⟨co, frames, hpc⟩ | ⟨-, hmain⟩
    · have hnew : ∀ w ∈ s.watchingSession, 0 ≠ 0 ∨ w.address = service →
          w.session ∉ s.errorQueue := by
        intro w hw hservice
        exact hguard w hw (hservice.resolve_left fun hne => hne rfl)
      obtain ⟨htables, hpc', hstatus, -⟩ := h.tables.errorDispatch hnew hstep
      exact htables.running (hpc'.trans hpc) (hstatus ▸ h.running co frames hpc)
    · cases hmain
  | response i ok =>
    obtain ⟨c, -, rfl⟩ := map_eq_some_iff.mp hstep
    obtain ⟨requests, watchingService, heq⟩ := callResponse_frame (s := s) i c ok
    rw [heq]
    exact h.frame
  | packed i sent =>
    obtain ⟨c, -, hstep⟩ := bind_eq_some_iff.mp hstep
    split_ifs at hstep
    obtain rfl := some_inj.mp hstep
    exact h.frame
  | test i =>
    obtain ⟨c, -, rfl⟩ := map_eq_some_iff.mp hstep
    unfold callTest
    split_ifs
    · exact h.frame
    · exact h

/-! ### Yields -/

omit [DecidableEq Address] in
theorem callInv_ret {r : SendResult} (h : s.CallInv) (hrunning : s.status co = .running)
    (hguard : s.Refuses co (.ret r) → s.errorQueue = [] ∨ s.forkQueue ≠ []) :
    (s.ret co r).CallInv := by
  unfold ret
  split_ifs with hresponse
  · exact h.cut hrunning (hguard (.inl hresponse))
  · dsimp only
    split
    · next hnone =>
      refine h.cut hrunning (hguard (.inr fun handler hhandler => ?_))
      rw [hnone] at hhandler
      cases hhandler
    · next handler hhandler =>
      split_ifs with hdead
      · exact h.frame
      · cases r with
        | sent => exact h.frame
        | refused => exact h.frame
        | invalid =>
          refine h.cut hrunning (hguard (.inr fun handler' hhandler' => ?_))
          rw [hhandler] at hhandler'
          cases hhandler'
          exact ⟨Bool.eq_false_iff.mpr hdead, rfl⟩

theorem callInv_response (h : s.CallInv) (hrunning : s.status co = .running)
    (hguard : s.Refuses co .response → s.errorQueue = [] ∨ s.forkQueue ≠ []) :
    (s.response co).CallInv := by
  unfold response
  split_ifs with hresponse
  · exact h.cut hrunning (hguard (.inl hresponse))
  · split
    · next hnone =>
      refine h.cut hrunning (hguard (.inr fun handler hhandler => ?_))
      rw [hnone] at hhandler
      cases hhandler
    · next handler hhandler =>
      split_ifs with hwatching
      · refine h.cut hrunning (hguard (.inr fun handler' hhandler' => ?_))
        rw [hhandler] at hhandler'
        cases hhandler'
        exact hwatching
      · exact h.frame

omit [DecidableEq Co] in
theorem foldl_releaseWatching (closures : List (Closure Address)) (s : LuaService Co Address) :
    ∃ watchingService, closures.foldl (fun s c => s.releaseWatching c.ticket.address) s =
      { s with watchingService } := by
  induction closures generalizing s with
  | nil => exact ⟨_, rfl⟩
  | cons c closures ih =>
    obtain ⟨watchingService, heq⟩ := ih (s.releaseWatching c.ticket.address)
    exact ⟨watchingService, heq⟩

theorem CallTables.exit (h : s.CallTables) (hrunning : s.status co = .running)
    (hqueue : s.errorQueue = [] ∨ frames ≠ 0) : (s.exit co frames).CallInv := by
  obtain ⟨watchingService, heq⟩ := foldl_releaseWatching s.requests.unresponse s
  have htables := (h.stop hrunning (.inr (.inl rfl))).sublistFork [] (nil_sublist _)
  unfold LuaService.exit
  rw [heq]
  exact CallTables.unwinding { htables with } (by rfl) fun hframes =>
    .inl (hqueue.resolve_right fun hne => hne hframes)

theorem callInv_yield {y : ServiceYield Co Address} (h : s.CallInv)
    (hpc : s.pc = .running co frames) (hguard : s.MayYield co frames y)
    (hstep : s.suspend co frames y = some s') : s'.CallInv := by
  have hrunning := h.running co frames hpc
  have hused := h.tables.not_used (.inr hrunning)
  cases y with
  | call service session =>
    obtain ⟨hunused, ⟨⟩⟩ := ite_none_right_eq_some.mp hstep
    exact CallTables.draining (h.tables.startCall hunused hused) (.inl rfl)
  | sleep session =>
    obtain ⟨hunused, ⟨⟩⟩ := ite_none_right_eq_some.mp hstep
    exact CallTables.draining (h.tables.startSleep hunused.2.1 hused (.inl rfl)) (.inl rfl)
  | wait session target =>
    obtain ⟨hunused, ⟨⟩⟩ := ite_none_right_eq_some.mp hstep
    obtain rfl : target = co := hguard
    exact CallTables.draining (h.tables.startSleep hunused.2.1 hused (.inr rfl)) (.inl rfl)
  | ret r =>
    obtain rfl := some_inj.mp hstep
    exact callInv_ret h hrunning hguard
  | response =>
    obtain rfl := some_inj.mp hstep
    exact callInv_response h hrunning hguard
  | exit =>
    obtain rfl := some_inj.mp hstep
    exact h.tables.exit hrunning hguard
  | finish =>
    obtain rfl := some_inj.mp hstep
    exact h.tables.finish hused
  | trace =>
    obtain rfl := some_inj.mp hstep
    refine CallTables.unwinding { h.tables.stop hrunning (.inr (.inl rfl)) with } (by rfl)
      fun hframes => ?_
    rcases hguard with hempty | hne | hforks
    · exact .inl hempty
    · exact absurd hframes hne
    · exact .inr hforks
  | unknown =>
    obtain rfl := some_inj.mp hstep
    exact h.cut hrunning (hguard trivial)
  | raise =>
    obtain rfl := some_inj.mp hstep
    exact CallTables.forking { h.tables.stop hrunning (.inr (.inr rfl)) with } rfl (hguard trivial)

/-! ### The main thread -/

omit [DecidableEq Address] in
theorem callInv_dispatchErrorQueue (h : s.CallInv) : (s.dispatchErrorQueue frames).CallInv := by
  unfold dispatchErrorQueue
  split
  · next hempty =>
    exact CallTables.unwinding { h.tables with } (by rfl) fun _ => .inl hempty
  · next session rest hqueue =>
    -- whatever is in the queue is watched, so that there is a coroutine
    obtain ⟨w, hw, rfl⟩ := h.tables.queued session (by simp [hqueue])
    obtain ⟨co, hco, hcall⟩ := h.tables.watch_entry hw
    have hnodup := h.tables.queue
    rw [hqueue, nodup_cons] at hnodup
    rw [hco]
    refine h.tables.resumeCall hcall (.inr rfl) rest (fun x => ?_) hnodup.2
    rw [hqueue, mem_cons]
    constructor
    · intro hx
      exact ⟨.inr hx, fun heq => hnodup.1 (heq ▸ hx)⟩
    · rintro ⟨rfl | hx, hne⟩
      · exact absurd rfl hne
      · exact hx

omit [DecidableEq Address] in
theorem callInv_dispatchWakeup (h : s.CallInv) : (s.dispatchWakeup co frames).CallInv := by
  unfold dispatchWakeup
  dsimp only
  split
  · exact CallTables.draining { h.tables with } (.inr (by rfl))
  · next session hsession =>
    obtain ⟨hco, hsleeps⟩ := h.tables.sleep co session hsession
    have htables : CallTables { s with
        wakeupSession := s.wakeupSession.filter fun c => c ≠ co } := { h.tables with }
    exact htables.resume hco (.inr hsleeps) nofun

omit [DecidableEq Address] in
theorem callInv_dispatch {d : ServiceDispatch Co} (h : s.CallInv)
    (hstep : s.Dispatched d s') : s'.CallInv := by
  cases hstep with
  | drained => exact CallTables.draining { h.tables with } (.inr rfl)
  | wakeup => exact callInv_dispatchWakeup h
  | errors => exact callInv_dispatchErrorQueue h
  | idle hpc hforks =>
    refine ⟨{ h.tables with }, nofun, fun _ => ?_, nofun⟩
    exact (h.forks hpc).resolve_right fun hne => hne hforks
  | @fork co _ hmem =>
    obtain ⟨hcreated, hentry⟩ := h.tables.fork co hmem
    have htables := h.tables.sublistFork (s.forkQueue.erase co) erase_sublist
    refine htables.start hcreated ?_
    rintro (hfork | ⟨session, hsession⟩)
    · exact (h.tables.forks.mem_erase_iff.mp hfork).1 rfl
    · exact hentry session hsession

theorem callInv_step {a : ServiceAct Co Address} (hguard : s.Drains a)
    (hstep : s.step a = some s') (h : s.CallInv) : s'.CallInv := by
  cases stepped hstep with
  | message hpc hmessage => exact callInv_message h hpc hmessage
  | call hpc hcall => exact callInv_call h hguard hpc hcall
  | yield hpc hyield =>
    unfold Drains at hguard
    rw [hpc] at hguard
    exact callInv_yield h hpc hguard hyield
  | dispatch hdispatch => exact callInv_dispatch h hdispatch

/-- Two requests whose handlers call service 9. -/
def callTwo : List (ServiceAct ℕ ℕ) :=
  [.message (.request 0 7 1), .yield (.call 9 100), .dispatch (.wakeup none),
    .dispatch .errorQueue, .dispatch (.fork none), .message (.request 1 8 1),
    .yield (.call 9 101), .dispatch (.wakeup none), .dispatch .errorQueue, .dispatch (.fork none)]

end Steps

end LuaService

end Uboss.Framework
