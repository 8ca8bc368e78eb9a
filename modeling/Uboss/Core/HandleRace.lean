import Uboss.Core.Handle
import Uboss.Math.History

/-!
# Registration against concurrent growth

`uboss_context_new` publishes its context in the slot array inside `uboss_handle_register`
and stores the returned value in `ctx->handle` afterwards. In between the context is in the
table with the handle 0, and a registration by another thread that doubles the table moves
it to the slot of that 0. Here the two are separate steps of any number of threads.
-/

namespace Uboss.Core

open Math HandleStorage Function

/-- What happened to the handles: a thread stored `ctx->handle`, or a handle was retired. -/
inductive LaunchEvent
  | stored (c : CtxId) (handle : ℕ)
  | retired (handle : ℕ)
  deriving DecidableEq, Repr

/-- The storage, the `handle` fields, and for every thread the context it has published and
the handle it was given, as long as the two are not yet connected by the store. `issued` is
the value that `uboss_handle_register` returned for a context; the program does not keep it. -/
structure Launch (Tid : Type) where
  storage : HandleStorage
  handleOf : CtxId → ℕ
  issued : CtxId → ℕ
  thread : Tid → Option (CtxId × ℕ)
  next : CtxId
  log : List LaunchEvent

/-- The steps of the threads. -/
inductive LaunchAct (Tid : Type)
  | register (t : Tid)
  | store (t : Tid)
  | retire (handle : ℕ)
  | grab (handle : ℕ)
  deriving DecidableEq, Repr

namespace Launch

variable {Tid : Type}

/-- After `uboss_handle_init`, with every thread outside `uboss_context_new`. -/
def init (Tid : Type) (harbor : ℕ) : Launch Tid where
  storage := ubossHandleInit harbor
  handleOf := fun _ => 0
  issued := fun _ => 0
  thread := fun _ => none
  next := 0
  log := []

/-- `uboss_handle_register(ctx)` of a new context, after `ctx->handle = 0`. -/
def register (st : Launch Tid) : Except HandleFault (ℕ × HandleStorage) :=
  ubossHandleRegister (update st.handleOf st.next 0) st.storage st.next

/-- `uboss_handle_grab`. -/
def grab (st : Launch Tid) (handle : ℕ) : Option CtxId :=
  ubossHandleGrab st.handleOf st.storage handle

/-- Some thread has published `c` and not yet stored its handle. -/
def Pending (st : Launch Tid) (c : CtxId) (handle : ℕ) : Prop := ∃ t, st.thread t = some (c, handle)

section Step

variable [DecidableEq Tid]

/-- One step. A thread that is between its two steps cannot register again. -/
def step (st : Launch Tid) : LaunchAct Tid → Option (Launch Tid)
  | .register t =>
    match st.thread t, st.register with
    | none, .ok (handle, storage) =>
      some { st with
        storage := storage
        handleOf := update st.handleOf st.next 0
        issued := update st.issued st.next handle
        thread := update st.thread t (some (st.next, handle))
        next := st.next + 1 }
    | _, _ => none
  | .store t =>
    match st.thread t with
    | some (c, handle) =>
      some { st with
        handleOf := update st.handleOf c handle
        thread := update st.thread t none
        log := st.log ++ [.stored c handle] }
    | none => none
  | .retire handle =>
    some { st with
      storage := (ubossHandleRetire st.handleOf st.storage handle).2
      log := st.log ++ [.retired handle] }
  | .grab _ => some st

end Step

/-- The condition on a step: a registration that has to double the table finds no pending
context in it, except one whose handle belongs in slot 0 of the doubled array anyway; and
the handle 0 is not retired while slot 0 holds a pending context. -/
def SafeAct (st : Launch Tid) : LaunchAct Tid → Prop
  | .register _ => (∀ i < st.storage.slotSize, st.storage.slot i ≠ none) →
      ∀ c handle, st.Pending c handle → handle &&& (st.storage.slotSize * 2 - 1) = 0
  | .retire handle => handle = 0 → ∀ c h, st.Pending c h → st.storage.slot 0 ≠ some c
  | _ => True

/-- The invariant of the safe runs. -/
structure Inv (st : Launch Tid) : Prop where
  placed : st.storage.Placed st.issued
  lt_next : ∀ c, st.storage.Registered c → c < st.next
  pending : ∀ c handle, st.Pending c handle →
    st.storage.Registered c ∧ st.issued c = handle ∧ st.handleOf c = 0
  pending_unique : ∀ t t' c h h', st.thread t = some (c, h) → st.thread t' = some (c, h') → t = t'
  stored : ∀ c, st.storage.Registered c → (∃ h, st.Pending c h) ∨ st.handleOf c = st.issued c
  live : ∀ c handle, OpenSince (.stored c handle) (.retired handle) st.log →
    st.storage.Registered c ∧ st.handleOf c = handle ∧ st.issued c = handle

variable {st st' : Launch Tid} {harbor : ℕ}

theorem inv_init (harbor : ℕ) : (init Tid harbor).Inv where
  placed := init_placed harbor _
  lt_next c hc := by
    obtain ⟨i, -, h⟩ := hc
    cases h
  pending c handle h := by
    obtain ⟨t, ht⟩ := h
    cases ht
  pending_unique t t' c h h' ht := by cases ht
  stored c hc := by
    obtain ⟨i, -, h⟩ := hc
    cases h
  live c handle h := absurd h (by simp [init])

theorem Inv.next_not_registered (hst : st.Inv) : ¬ st.storage.Registered st.next :=
  fun h => absurd (hst.lt_next _ h) (lt_irrefl _)

/-- A safe registration rehashes every context to where its issued handle belongs. -/
theorem Inv.rehashAgrees (hst : st.Inv) {t : Tid} (hsafe : st.SafeAct (.register t))
    (hfull : ∀ i < st.storage.slotSize, st.storage.slot i ≠ none) :
    st.storage.RehashAgrees st.issued (update st.handleOf st.next 0) := by
  intro c hc
  rw [update_of_ne (ne_of_lt (hst.lt_next c hc))]
  rcases hst.stored c hc with ⟨h, hpend⟩ | heq
  · obtain ⟨-, hissued, hzero⟩ := hst.pending c h hpend
    have hmask := hsafe hfull c h hpend
    rw [hst.placed.and_double] at hmask
    rw [hzero, hissued, hmask, Nat.zero_mod]
  · rw [heq]

theorem Inv.retire_step (hst : st.Inv) {handle : ℕ} (hsafe : st.SafeAct (.retire handle)) :
    Inv { st with
      storage := (ubossHandleRetire st.handleOf st.storage handle).2
      log := st.log ++ [.retired handle] } := by
  obtain ⟨hplaced, hreg⟩ := retire_placed st.handleOf handle hst.placed
  refine ⟨hplaced, fun c hc => hst.lt_next c ((hreg c).mp hc).1, ?_, hst.pending_unique,
    fun c hc => hst.stored c ((hreg c).mp hc).1, fun c h hlive => ?_⟩
  · intro c h hpend
    obtain ⟨hc, hissued, hzero⟩ := hst.pending c h hpend
    refine ⟨(hreg c).mpr ⟨hc, fun hgrab => ?_⟩, hissued, hzero⟩
    -- a pending context answers to the handle 0 only
    obtain ⟨hslot, hhandle⟩ := (grab_eq_some_iff hst.placed).mp hgrab
    have h0 : handle = 0 := hhandle.symm.trans hzero
    rw [h0, Nat.zero_mod] at hslot
    exact hsafe h0 c h hpend hslot
  · rcases openSince_concat.mp hlive with heq | ⟨hold, hne⟩
    · cases heq
    · obtain ⟨hc, hhandle, hissued⟩ := hst.live c h hold
      refine ⟨(hreg c).mpr ⟨hc, fun hgrab => hne ?_⟩, hhandle, hissued⟩
      rw [← ((grab_eq_some_iff hst.placed).mp hgrab).2, hhandle]

variable [DecidableEq Tid]

theorem Inv.register_step (hst : st.Inv) {t : Tid} (hsafe : st.SafeAct (.register t))
    (hidle : st.thread t = none) {handle : ℕ} {storage : HandleStorage}
    (hok : st.register = .ok (handle, storage)) :
    Inv { st with
      storage := storage
      handleOf := update st.handleOf st.next 0
      issued := update st.issued st.next handle
      thread := update st.thread t (some (st.next, handle))
      next := st.next + 1 } := by
  obtain ⟨hplaced, hreg⟩ :=
    register_spec hst.placed hst.next_not_registered (hst.rehashAgrees hsafe) hok
  have hne : ∀ {c}, st.storage.Registered c → c ≠ st.next := fun hc => ne_of_lt (hst.lt_next _ hc)
  have hthread : ∀ {t' c h}, update st.thread t (some (st.next, handle)) t' = some (c, h) →
        (t' = t ∧ c = st.next ∧ h = handle) ∨ (t' ≠ t ∧ st.thread t' = some (c, h)) := by
    intro t' c h ht'
    by_cases htt : t' = t
    · rw [htt, update_self] at ht'
      cases ht'
      exact .inl ⟨htt, rfl, rfl⟩
    · rw [update_of_ne htt] at ht'
      exact .inr ⟨htt, ht'⟩
  refine ⟨hplaced, fun c hc => ?_, ?_, ?_, fun c hc => ?_, fun c h hlive => ?_⟩
  · rcases (hreg c).mp hc with rfl | hold
    · exact Nat.lt_succ_self _
    · exact (hst.lt_next c hold).trans (Nat.lt_succ_self _)
  · rintro c h ⟨t', ht'⟩
    rcases hthread ht' with ⟨-, rfl, rfl⟩ | ⟨-, hold⟩
    · exact ⟨(hreg _).mpr (.inl rfl), update_self .., update_self ..⟩
    · obtain ⟨hc, hissued, hzero⟩ := hst.pending c h ⟨t', hold⟩
      exact ⟨(hreg c).mpr (.inr hc), (update_of_ne (hne hc) ..).trans hissued,
        (update_of_ne (hne hc) ..).trans hzero⟩
  · intro t₁ t₂ c h₁ h₂ ht₁ ht₂
    rcases hthread ht₁ with ⟨rfl, rfl, -⟩ | ⟨-, hold₁⟩ <;>
      rcases hthread ht₂ with ⟨rfl, hc, -⟩ | ⟨-, hold₂⟩
    · rfl
    · exact absurd rfl (hne (hst.pending _ _ ⟨t₂, hold₂⟩).1)
    · exact absurd hc (hne (hst.pending _ _ ⟨t₁, hold₁⟩).1)
    · exact hst.pending_unique t₁ t₂ c h₁ h₂ hold₁ hold₂
  · rcases (hreg c).mp hc with rfl | hold
    · exact .inl ⟨handle, t, update_self ..⟩
    · rcases hst.stored c hold with ⟨h, t', ht'⟩ | heq
      · have htt : t' ≠ t := by
          rintro rfl
          rw [hidle] at ht'
          cases ht'
        exact .inl ⟨h, t', by rw [← ht']; exact update_of_ne htt ..⟩
      · exact .inr ((update_of_ne (hne hold) ..).trans
          (heq.trans (update_of_ne (hne hold) ..).symm))
  · obtain ⟨hc, hhandle, hissued⟩ := hst.live c h hlive
    exact ⟨(hreg c).mpr (.inr hc), (update_of_ne (hne hc) ..).trans hhandle,
      (update_of_ne (hne hc) ..).trans hissued⟩

theorem Inv.store_step (hst : st.Inv) {t : Tid} {c : CtxId} {handle : ℕ}
    (ht : st.thread t = some (c, handle)) :
    Inv { st with
      handleOf := update st.handleOf c handle
      thread := update st.thread t none
      log := st.log ++ [.stored c handle] } := by
  obtain ⟨hc, hissued, -⟩ := hst.pending c handle ⟨t, ht⟩
  have hthread : ∀ {t' d h}, update st.thread t none t' = some (d, h) →
      t' ≠ t ∧ st.thread t' = some (d, h) := by
    intro t' d h ht'
    by_cases htt : t' = t
    · rw [htt, update_self] at ht'
      cases ht'
    · rw [update_of_ne htt] at ht'
      exact ⟨htt, ht'⟩
  refine ⟨hst.placed, hst.lt_next, ?_, ?_, fun d hd => ?_, fun d h hlive => ?_⟩
  · rintro d h ⟨t', ht'⟩
    obtain ⟨htt, hold⟩ := hthread ht'
    obtain ⟨hd, hissued', hzero⟩ := hst.pending d h ⟨t', hold⟩
    have hdc : d ≠ c := by
      rintro rfl
      exact htt (hst.pending_unique t' t d h handle hold ht)
    exact ⟨hd, hissued', (update_of_ne hdc ..).trans hzero⟩
  · intro t₁ t₂ d h₁ h₂ ht₁ ht₂
    exact hst.pending_unique t₁ t₂ d h₁ h₂ (hthread ht₁).2 (hthread ht₂).2
  · by_cases hdc : d = c
    · subst hdc
      exact .inr ((update_self ..).trans hissued.symm)
    · rcases hst.stored d hd with ⟨h, t', ht'⟩ | heq
      · have htt : t' ≠ t := by
          rintro rfl
          rw [ht] at ht'
          cases ht'
          exact hdc rfl
        exact .inl ⟨h, t', by rw [← ht']; exact update_of_ne htt ..⟩
      · exact .inr ((update_of_ne hdc ..).trans heq)
  · rcases openSince_concat.mp hlive with heq | ⟨hold, -⟩
    · cases heq
      exact ⟨hc, update_self .., hissued⟩
    · obtain ⟨hd, hhandle, hissued'⟩ := hst.live d h hold
      refine ⟨hd, ?_, hissued'⟩
      by_cases hdc : d = c
      · subst hdc
        exact (update_self ..).trans (hissued.symm.trans hissued')
      · exact (update_of_ne hdc ..).trans hhandle

theorem Inv.step (hst : st.Inv) {a : LaunchAct Tid} (hsafe : st.SafeAct a)
    (hstep : st.step a = some st') : st'.Inv := by
  cases a with
  | register t =>
    rw [Launch.step] at hstep
    split at hstep
    · cases hstep
      exact hst.register_step hsafe ‹_› ‹_›
    · cases hstep
  | store t =>
    rw [Launch.step] at hstep
    split at hstep
    · cases hstep
      exact hst.store_step ‹_›
    · cases hstep
  | retire handle =>
    cases hstep
    exact hst.retire_step hsafe
  | grab handle =>
    cases hstep
    exact hst

/-- What the launching threads rely on: a stored handle finds its context until it is
retired, and no registration fails the assertion of the doubling loop. -/
structure Safe (st : Launch Tid) : Prop where
  grab_stored : ∀ c handle, OpenSince (.stored c handle) (.retired handle) st.log →
    st.grab handle = some c
  no_collision : ∀ t, st.SafeAct (.register t) → st.register ≠ .error .slotCollision

/-- In every run whose registrations double the table only when no pending context can be
misplaced by it, every stored handle finds its context and the doubling assertion holds. -/
theorem launch_safe_of_safeAct (harbor : ℕ) (acts : List (LaunchAct Tid)) (st : Launch Tid)
    (hrun : Run step SafeAct (init Tid harbor) acts st) : st.Safe := by
  have hst : st.Inv := hrun.invariant (inv_init harbor) fun hsafe hstep h => h.step hsafe hstep
  refine ⟨fun c handle hlive => ?_, fun t hsafe => ?_⟩
  · obtain ⟨hc, hhandle, hissued⟩ := hst.live c handle hlive
    rw [grab, grab_eq_some_iff hst.placed]
    refine ⟨?_, hhandle⟩
    rw [← hissued]
    exact hst.placed.slot_of_registered hc
  · exact register_ne_slotCollision hst.placed hst.next_not_registered (hst.rehashAgrees hsafe)

/-- One launch into the empty table. -/
theorem launch_safe_first :
    ∃ st, exec step (init (Fin 2) 1) [.register 0, .store 0] = some st ∧ st.Safe := by
  refine ⟨_, rfl, launch_safe_of_safeAct 1 ([] ++ [.register 0] ++ [.store 0]) _ ?_⟩
  refine ((Run.nil _).snoc (fun hfull => ?_) rfl).snoc trivial rfl
  exact absurd rfl (hfull 0 (by decide))

/-- Four launches fill the table while thread 0 has not stored its handle; the fifth doubles
it and moves the first context to slot 0. -/
def lostContextRun : List (LaunchAct ℕ) :=
  [.register 0, .register 1, .store 1, .register 2, .store 2, .register 3, .store 3,
    .register 4, .store 0]

/-- The same with threads 0 and 1 both pending, before the fifth launch. -/
def collisionRun : List (LaunchAct ℕ) :=
  [.register 0, .register 1, .register 2, .store 2, .register 3, .store 3]

/-- Without the condition both parts fail: a stored handle that nobody retired finds no
context, and the assertion of the doubling loop fails. -/
theorem launch_race : ¬ (∀ (harbor : ℕ) (acts : List (LaunchAct ℕ)) (st : Launch ℕ),
        Run step anyAction (init ℕ harbor) acts st →
        ∀ c handle, OpenSince (.stored c handle) (.retired handle) st.log →
          st.grab handle = some c) ∧
    ¬ (∀ (harbor : ℕ) (acts : List (LaunchAct ℕ)) (st : Launch ℕ),
        Run step anyAction (init ℕ harbor) acts st →
        st.register ≠ .error .slotCollision) := by
  constructor
  · intro hclaim
    obtain ⟨st, hexec⟩ : ∃ st, exec step (init ℕ 1) lostContextRun = some st := ⟨_, rfl⟩
    have hlog : (exec step (init ℕ 1) lostContextRun).map log =
        some [.stored 1 0x01000002, .stored 2 0x01000003, .stored 3 0x01000004,
          .stored 0 0x01000001] := by decide
    have hgrab : (exec step (init ℕ 1) lostContextRun).map (grab · 0x01000001) = some none := by
      decide
    rw [hexec] at hlog hgrab
    have hfound := hclaim 1 lostContextRun st (run_of_exec hexec) 0 0x01000001
      ⟨[.stored 1 0x01000002, .stored 2 0x01000003, .stored 3 0x01000004], [],
        Option.some_inj.mp hlog, by simp⟩
    have hnone : st.grab 0x01000001 = none := Option.some_inj.mp hgrab
    rw [hnone] at hfound
    cases hfound
  · intro hclaim
    obtain ⟨st, hexec⟩ : ∃ st, exec step (init ℕ 1) collisionRun = some st := ⟨_, rfl⟩
    have hfail : (exec step (init ℕ 1) collisionRun).map
        (fun st => match st.register with | .error .slotCollision => true | _ => false) =
          some true := by decide
    rw [hexec, Option.map_some, Option.some_inj] at hfail
    have hne := hclaim 1 collisionRun st (run_of_exec hexec)
    cases hreg : st.register with
    | ok res => simp [hreg] at hfail
    | error fault =>
      cases fault with
      | slotCollision => exact hne hreg
      | slotLimit => simp [hreg] at hfail
      | nullContext => simp [hreg] at hfail
      | outOfFuel => simp [hreg] at hfail

end Launch

end Uboss.Core
