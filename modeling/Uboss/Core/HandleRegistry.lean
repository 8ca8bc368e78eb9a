import Uboss.Core.Handle
import Uboss.Math.History

/-!
# Histories of the handle storage

The handle storage under any sequence of registrations, retirements and grabs, with the
registration and the assignment to `ctx->handle` in `uboss_context_new` taken as one step.
The history of the calls is kept beside the state, so that "registered and not yet
retired" is a statement about what was called and not about the table.
-/

namespace Uboss.Core

open Math HandleStorage

/-- What happened to the handle storage. -/
inductive HandleEvent
  | registered (c : CtxId) (handle : ℕ)
  | retired (handle : ℕ)
  deriving DecidableEq, Repr

/-- The handle storage with the `handle` fields of the contexts. Contexts are allocated at
fresh addresses, `next` being the first unused one. -/
structure Registry where
  storage : HandleStorage
  handleOf : CtxId → ℕ
  next : CtxId
  log : List HandleEvent

/-- The calls. -/
inductive HandleOp
  | register
  | retire (handle : ℕ)
  | grab (handle : ℕ)
  deriving DecidableEq, Repr

namespace Registry

/-- After `uboss_handle_init`. -/
def init (harbor : ℕ) : Registry where
  storage := ubossHandleInit harbor
  handleOf := fun _ => 0
  next := 0
  log := []

/-- `uboss_handle_register` of the new context, whose `handle` field is still 0. -/
def register (r : Registry) : Except HandleFault (ℕ × HandleStorage) :=
  ubossHandleRegister (Function.update r.handleOf r.next 0) r.storage r.next

/-- `uboss_handle_grab`. -/
def grab (r : Registry) (handle : ℕ) : Option CtxId := ubossHandleGrab r.handleOf r.storage handle

/-- The new context has its handle stored. -/
def publish (r : Registry) (handle : ℕ) (storage : HandleStorage) : Registry where
  storage := storage
  handleOf := Function.update r.handleOf r.next handle
  next := r.next + 1
  log := r.log ++ [.registered r.next handle]

/-- `uboss_handle_retire`, up to the release of the context that `uboss_handle_grab` would
have found. -/
def retire (r : Registry) (handle : ℕ) : Registry :=
  { r with
    storage := (ubossHandleRetire r.handleOf r.storage handle).2
    log := r.log ++ [.retired handle] }

/-- One call. A failed assertion has no successor. -/
def step (r : Registry) : HandleOp → Option Registry
  | .register =>
    match r.register with
    | .ok (handle, storage) => some (r.publish handle storage)
    | .error _ => none
  | .retire handle => some (r.retire handle)
  | .grab _ => some r

/-- The context `c` was registered under `handle`, which has not been retired since. -/
def Live (r : Registry) (c : CtxId) (handle : ℕ) : Prop :=
  OpenSince (.registered c handle) (.retired handle) r.log

/-- The invariant of the calls: the table is placed by the stored handles, uses allocated
contexts only, and holds exactly what the history says is live. -/
structure Inv (harbor : ℕ) (r : Registry) : Prop where
  placed : r.storage.Placed r.handleOf
  harbor_eq : r.storage.harbor = harbor % 2 ^ 8 * 2 ^ 24
  lt_next : ∀ c, r.storage.Registered c → c < r.next
  live_iff : ∀ c handle, r.Live c handle ↔ r.storage.Registered c ∧ r.handleOf c = handle

variable {r r' : Registry} {harbor : ℕ}

variable {handle : ℕ} {s : HandleStorage} {issued : CtxId → ℕ}

theorem inv_init (harbor : ℕ) : (init harbor).Inv harbor where
  placed := init_placed harbor _
  harbor_eq := by
    change (harbor &&& (2 ^ 8 - 1)) <<< 24 = _
    rw [Nat.and_two_pow_sub_one_eq_mod, Nat.shiftLeft_eq]
  lt_next c hc := by
    obtain ⟨i, -, h⟩ := hc
    cases h
  live_iff c handle := by
    simp only [Live, init, not_openSince_nil, false_iff, not_and]
    rintro ⟨i, -, h⟩
    cases h

theorem Inv.next_not_registered (hr : r.Inv harbor) : ¬ r.storage.Registered r.next :=
  fun h => absurd (hr.lt_next _ h) (lt_irrefl _)

/-- The `handle` fields that the doubling loop reads are the issued handles. -/
theorem Inv.rehashAgrees (hr : r.Inv harbor) :
    r.storage.RehashAgrees r.handleOf (Function.update r.handleOf r.next 0) := by
  intro c hc
  rw [Function.update_of_ne (ne_of_lt (hr.lt_next c hc))]

theorem grab_eq_some_iff_registered (hr : r.Inv harbor) {c : CtxId} :
    r.grab handle = some c ↔ r.storage.Registered c ∧ r.handleOf c = handle := by
  rw [grab, grab_eq_some_iff hr.placed]
  constructor
  · rintro ⟨hslot, hc⟩
    exact ⟨hr.placed.registered hslot, hc⟩
  · rintro ⟨hreg, rfl⟩
    exact ⟨hr.placed.slot_of_registered hreg, rfl⟩

theorem register_harbor {handleOf : CtxId → ℕ} {c : CtxId} {s s' : HandleStorage} {fuel : ℕ}
    (h : registerLoop handleOf c fuel s = .ok (handle, s')) :
    s'.harbor = s.harbor := by
  induction fuel generalizing s with
  | zero => cases h
  | succ fuel ih =>
    rw [registerLoop] at h
    split at h
    · cases h
      rfl
    · split_ifs at h
      split at h
      · cases h
      · have hgrown := ih h
        exact hgrown

section

variable (hr : r.Inv harbor)
include hr

theorem Inv.publish_registered {storage : HandleStorage} (hok : r.register = .ok (handle, storage))
    (c : CtxId) :
    (r.publish handle storage).storage.Registered c ↔ c = r.next ∨ r.storage.Registered c :=
  (register_spec hr.placed hr.next_not_registered (fun _ => hr.rehashAgrees) hok).2 c

/-- A retirement removes the context of the handle from the table. -/
theorem Inv.retire_registered (handle : ℕ) (c : CtxId) :
    (r.retire handle).storage.Registered c ↔ r.storage.Registered c ∧ r.grab handle ≠ some c :=
  (retire_placed r.handleOf handle hr.placed).2 c

theorem Inv.register_step {storage : HandleStorage} (hok : r.register = .ok (handle, storage)) :
    (r.publish handle storage).Inv harbor := by
  obtain ⟨hplaced, hreg⟩ :=
    register_spec hr.placed hr.next_not_registered (fun _ => hr.rehashAgrees) hok
  refine ⟨hplaced, (register_harbor hok).trans hr.harbor_eq, fun c hc => ?_, fun c h => ?_⟩
  · rcases (hreg c).mp hc with rfl | hold
    · exact Nat.lt_succ_self _
    · exact (hr.lt_next c hold).trans (Nat.lt_succ_self _)
  · change OpenSince _ _ (r.log ++ [_]) ↔ storage.Registered c ∧
      Function.update r.handleOf r.next handle c = h
    rw [openSince_concat, hreg]
    have hlive := hr.live_iff c h
    rw [Live] at hlive
    simp only [HandleEvent.registered.injEq, ne_eq, reduceCtorEq, not_false_eq_true, and_true]
    rw [hlive]
    by_cases hc : c = r.next
    · subst hc
      simp [hr.next_not_registered]
    · simp [hc, Ne.symm hc]

theorem Inv.retire_step (handle : ℕ) : (r.retire handle).Inv harbor := by
  obtain ⟨hplaced, hreg⟩ := retire_placed r.handleOf handle hr.placed
  refine ⟨hplaced, ?_, fun c hc => hr.lt_next c ((hreg c).mp hc).1, fun c h => ?_⟩
  · change (ubossHandleRetire r.handleOf r.storage handle).2.harbor = _
    cases hg : ubossHandleGrab r.handleOf r.storage handle with
    | none => rw [retire_of_grab_none hg]; exact hr.harbor_eq
    | some c => rw [retire_of_grab_some hr.placed hg]; exact hr.harbor_eq
  · change OpenSince _ _ (r.log ++ [_]) ↔
      (ubossHandleRetire r.handleOf r.storage handle).2.Registered c ∧ r.handleOf c = h
    have hlive := hr.live_iff c h
    rw [Live] at hlive
    have hfound : ubossHandleGrab r.handleOf r.storage handle = some c ↔
        r.storage.Registered c ∧ r.handleOf c = handle := grab_eq_some_iff_registered hr
    rw [openSince_concat, hreg, hlive]
    simp only [ne_eq, hfound, reduceCtorEq, false_or, HandleEvent.retired.injEq]
    constructor
    · rintro ⟨⟨hc, rfl⟩, hne⟩
      exact ⟨⟨hc, fun h => hne h.2.symm⟩, rfl⟩
    · rintro ⟨⟨hc, hne⟩, rfl⟩
      exact ⟨⟨hc, rfl⟩, fun h => hne ⟨hc, h.symm⟩⟩

theorem Inv.step {op : HandleOp} (hstep : r.step op = some r') : r'.Inv harbor := by
  cases op with
  | register =>
    rw [Registry.step] at hstep
    split at hstep
    · cases hstep
      exact hr.register_step ‹_›
    · cases hstep
  | retire handle =>
    cases hstep
    exact hr.retire_step handle
  | grab handle =>
    cases hstep
    exact hr

end

theorem inv_of_reachable (hreach : Reachable step (init harbor) r) : r.Inv harbor :=
  hreach.invariant (inv_init harbor) fun hstep hr => hr.step hstep

/-- What the handle storage promises in one state. -/
structure TableSpec (harbor : ℕ) (r : Registry) : Prop where
  /-- The slot array is a power of two that divides `2 ^ 24`. -/
  slotSize_pow : (∃ k, r.storage.slotSize = 2 ^ k) ∧ r.storage.slotSize ∣ 2 ^ 24
  /-- An occupied slot holds a context whose handle carries the harbor in its top byte and
  the slot number in its low bits. -/
  slot_handle : ∀ i c, i < r.storage.slotSize → r.storage.slot i = some c →
    r.handleOf c < 2 ^ 32 ∧ r.handleOf c >>> handleRemoteShift = harbor &&& 0xff ∧
      r.handleOf c &&& (r.storage.slotSize - 1) = i
  /-- Live contexts have distinct handles. -/
  handle_injective : ∀ c d, r.storage.Registered c → r.storage.Registered d →
    r.handleOf c = r.handleOf d → c = d
  /-- `uboss_handle_grab` finds exactly the registered, not yet retired context. -/
  grab_iff : ∀ handle c, r.grab handle = some c ↔ r.Live c handle
  /-- Registration succeeds while there is room. -/
  register_succeeds : (∃ i < r.storage.slotSize, r.storage.slot i = none) ∨
    r.storage.slotSize * 2 - 1 ≤ handleMask → ∃ handle storage, r.register = .ok (handle, storage)
  /-- The assertion `new_slot[hash] == NULL` holds. -/
  no_collision : r.register ≠ .error .slotCollision

/-- Every sequence of registrations, retirements and grabs from `uboss_handle_init` keeps
the handle table a faithful map from handles to the contexts registered under them. -/
theorem handle_table_invariant (harbor : ℕ) (ops : List HandleOp) (r : Registry)
    (hrun : Run step anyAction (init harbor) ops r) : r.TableSpec harbor := by
  have hr := inv_of_reachable hrun.reachable
  refine ⟨⟨?_, hr.placed.slotSize_dvd⟩, fun i c hi hc => ?_, ?_, fun handle c => ?_, ?_, ?_⟩
  · obtain ⟨k, -, -, hk⟩ := hr.placed.size
    exact ⟨k, hk⟩
  · obtain ⟨low, hlow, hhandle⟩ := hr.placed.handle_low i c hc
    have hb : harbor % 2 ^ 8 < 2 ^ 8 := Nat.mod_lt _ (by decide)
    rw [hr.harbor_eq] at hhandle
    refine ⟨by omega, ?_, ?_⟩
    · change _ = harbor &&& (2 ^ 8 - 1)
      rw [Nat.and_two_pow_sub_one_eq_mod, Nat.shiftRight_eq_div_pow, handleRemoteShift, hhandle]
      omega
    · rw [hr.placed.and_slotSize]
      exact hr.placed.slot_mod i c hc
  · exact fun c d hc hd h => hr.placed.eq_of_issued_eq hc hd h
  · rw [grab_eq_some_iff_registered hr, hr.live_iff]
  · intro hroom
    obtain ⟨handle, storage, hok, -⟩ :=
      register_ok hr.placed hr.next_not_registered (fun _ => hr.rehashAgrees) hroom
    exact ⟨handle, storage, hok⟩
  · exact register_ne_slotCollision hr.placed hr.next_not_registered fun _ => hr.rehashAgrees

/-- Two services. -/
theorem handle_table_two_launches :
    ∃ r, exec step (init 1) [.register, .register] = some r ∧ r.TableSpec 1 := by
  obtain ⟨r, hr⟩ : ∃ r, exec step (init 1) [.register, .register] = some r := ⟨_, rfl⟩
  exact ⟨r, hr, handle_table_invariant 1 _ r (run_of_exec hr)⟩

/-! ### The reserved handle

`handle_index` starts at 1, the low bits 0 being reserved, but it is never kept away from 0
when it wraps past 24 bits. -/

/-- Some registered context occupies the slot of `x` in an array of `size` slots. -/
def Taken (r : Registry) (size x : ℕ) : Prop :=
  ∃ c, r.storage.Registered c ∧ r.handleOf c % size = x % size

/-- The size of the array in which the next registration finds its slot: the present one,
or the doubled one when every slot is taken. -/
def probedSize (r : Registry) : ℕ :=
  if ∀ i < r.storage.slotSize, r.storage.slot i ≠ none then r.storage.slotSize * 2
  else r.storage.slotSize

/-- The array to be probed exists, its slot 0 is free, and every index from `handle_index`
up to the last 24-bit one falls into a taken slot. -/
def WrapsToZero (r : Registry) : Prop := r.probedSize - 1 ≤ handleMask ∧ ¬ r.Taken r.probedSize 0 ∧
    ∀ x, r.storage.handleIndex ≤ x → x < 2 ^ 24 → r.Taken r.probedSize x

theorem taken_iff (hs : s.Placed r.handleOf) (hsame : ∀ c, s.Registered c ↔ r.storage.Registered c)
    (x : ℕ) :
    r.Taken s.slotSize x ↔ s.slot (x % s.slotSize) ≠ none := by
  constructor
  · rintro ⟨c, hc, hx⟩
    rw [← hx, hs.slot_of_registered ((hsame c).mpr hc)]
    simp
  · intro hne
    obtain ⟨c, hc⟩ := Option.ne_none_iff_exists'.mp hne
    exact ⟨c, (hsame c).mp (hs.registered hc), hs.slot_mod _ c hc⟩

/-- The probe ends at 0 exactly when it finds nothing before it wraps and slot 0 is free. -/
theorem probe_eq_zero_iff (hs : s.Placed issued) (hprobe : s.probe = some handle) :
    handle = 0 ↔ s.slot 0 = none ∧
      ∀ x, s.handleIndex ≤ x → x < 2 ^ 24 → s.slot (x % s.slotSize) ≠ none := by
  obtain ⟨i, hi, hhandle, hfree, hbefore⟩ := hs.probe_eq_some_iff.mp hprobe
  have hsize : s.slotSize ≤ 2 ^ 24 := Nat.le_of_dvd (by decide) hs.slotSize_dvd
  have hpos := hs.index_pos
  have hle := hs.index_le
  constructor
  · rintro rfl
    have hwrap : i + s.handleIndex = 2 ^ 24 := by omega
    refine ⟨by simpa using hfree, fun x hx hlt => ?_⟩
    have := hbefore (x - s.handleIndex) (by omega)
    rwa [show x - s.handleIndex + s.handleIndex = x by omega] at this
  · rintro ⟨hzero, htaken⟩
    by_contra hne
    by_cases hlt : i + s.handleIndex < 2 ^ 24
    · rw [Nat.mod_eq_of_lt hlt] at hhandle
      exact htaken handle (by omega) (by omega) hfree
    · have := hbefore (2 ^ 24 - s.handleIndex) (by omega)
      rw [show 2 ^ 24 - s.handleIndex + s.handleIndex = 2 ^ 24 by omega,
        Nat.mod_eq_zero_of_dvd hs.slotSize_dvd] at this
      exact this hzero

theorem or_harbor_and_mask (hs : s.Placed issued) (hlow : handle < 2 ^ 24) :
    (handle ||| s.harbor) &&& handleMask = handle := by
  obtain ⟨b, -, hb⟩ := hs.harbor
  rw [and_handleMask, or_harbor hs hlow, hb]
  omega

theorem probe_lt (hs : s.Placed issued) (hprobe : s.probe = some handle) : handle < 2 ^ 24 := by
  obtain ⟨i, -, hhandle, -⟩ := hs.probe_eq_some_iff.mp hprobe
  rw [hhandle]
  exact Nat.mod_lt _ (by decide)

/-- A registration probes one array: the present one, or the doubled one. -/
theorem Inv.register_probe (hr : r.Inv harbor) (hroom : r.probedSize - 1 ≤ handleMask) :
    ∃ (s : HandleStorage) (handle : ℕ), s.Placed r.handleOf ∧
      (∀ c, s.Registered c ↔ r.storage.Registered c) ∧ s.slotSize = r.probedSize ∧
      s.handleIndex = r.storage.handleIndex ∧ s.probe = some handle ∧
      r.register = .ok (handle ||| s.harbor, s.place r.next handle) := by
  cases hprobe : r.storage.probe with
  | some handle =>
    have hfree : ¬ ∀ i < r.storage.slotSize, r.storage.slot i ≠ none := by
      rw [← hr.placed.probe_eq_none_iff, hprobe]
      simp
    exact ⟨r.storage, handle, hr.placed, fun _ => Iff.rfl, (if_neg hfree).symm, rfl, hprobe,
      register_of_probe hprobe⟩
  | none =>
    have hfull := hr.placed.probe_eq_none_iff.mp hprobe
    have hsize : r.probedSize = r.storage.slotSize * 2 := if_pos hfull
    obtain ⟨newSlot, hrehash, hgrown, hsame, i, hi, hfree⟩ :=
      hr.placed.grow hfull (hsize ▸ hroom) hr.rehashAgrees
    cases hprobe' : (r.storage.grow newSlot).probe with
    | none => exact absurd hfree (hgrown.probe_eq_none_iff.mp hprobe' i hi)
    | some handle =>
      exact ⟨_, handle, hgrown, hsame, hsize.symm, rfl, hprobe',
        register_of_grow hprobe (hsize ▸ hroom) hrehash hprobe'⟩

/-- In every reachable state, the handle that a registration returns has non-zero low bits
unless the probe finds every slot taken up to the end of the 24-bit range and slot 0 free. -/
theorem registered_handle_low_ne_zero_iff (harbor : ℕ) (ops : List HandleOp) (r : Registry)
    (hrun : Run step anyAction (init harbor) ops r) :
    (∀ handle storage, r.register = .ok (handle, storage) → handle &&& handleMask ≠ 0) ↔
      ¬ r.WrapsToZero := by
  have hr := inv_of_reachable hrun.reachable
  by_cases hroom : r.probedSize - 1 ≤ handleMask
  · obtain ⟨s, handle, hs, hsame, hsize, hindex, hprobe, hok⟩ := hr.register_probe hroom
    have htaken := taken_iff hs hsame
    have hzero := probe_eq_zero_iff hs hprobe
    have hwraps : r.WrapsToZero ↔ handle = 0 := by
      rw [hzero, WrapsToZero, ← hsize, ← hindex]
      simp only [htaken, Nat.zero_mod, not_not]
      rw [hsize]
      exact and_iff_right hroom
    rw [hwraps, hok]
    constructor
    · intro h
      have := h _ _ rfl
      rwa [or_harbor_and_mask hs (probe_lt hs hprobe)] at this
    · intro hne handle' storage heq
      cases heq
      rwa [or_harbor_and_mask hs (probe_lt hs hprobe)]
  · refine iff_of_true (fun handle storage hok => ?_) fun h => hroom h.1
    have hfull : ∀ i < r.storage.slotSize, r.storage.slot i ≠ none := by
      by_contra hfree
      have hsize : r.probedSize = r.storage.slotSize := if_neg hfree
      have := Nat.le_of_dvd (by decide) hr.placed.slotSize_dvd
      rw [hsize, handleMask] at hroom
      omega
    rw [show r.probedSize = r.storage.slotSize * 2 from if_pos hfull] at hroom
    rw [register, register_of_limit (hr.placed.probe_eq_none_iff.mpr hfull) hroom] at hok
    cases hok

/-- The first launch. -/
theorem first_handle_low_ne_zero :
    (∀ handle storage, (init 1).register = .ok (handle, storage) → handle &&& handleMask ≠ 0) ↔
      ¬ (init 1).WrapsToZero :=
  registered_handle_low_ne_zero_iff 1 [] (init 1) (.nil _)

theorem probe_of_empty (hempty : ∀ i, s.slot i = none) (hpos : 0 < s.slotSize) :
    s.probe = some (s.handleIndex &&& handleMask) := by
  obtain ⟨n, hn⟩ := Nat.exists_eq_succ_of_ne_zero hpos.ne'
  simp [probe, hempty, hn, List.range_succ_eq_map]

/-- On an empty table a launch and its retirement move the index on by one. -/
theorem exists_retired_launch {harbor n : ℕ} {r : Registry}
    (hreach : Reachable step (init harbor) r) (hempty : ∀ i, r.storage.slot i = none)
    (hindex : r.storage.handleIndex = n) (hn : n < 2 ^ 24) :
    ∃ r', Reachable step (init harbor) r' ∧ (∀ i, r'.storage.slot i = none) ∧
      r'.storage.handleIndex = n + 1 := by
  have hr := inv_of_reachable hreach
  have hprobe : r.storage.probe = some n := by
    rw [probe_of_empty hempty hr.placed.slotSize_pos, hindex, and_handleMask, Nat.mod_eq_of_lt hn]
  have hok : r.register = .ok (n ||| r.storage.harbor, r.storage.place r.next n) :=
    register_of_probe hprobe
  have hstep : r.step .register = some (r.publish (n ||| r.storage.harbor)
      (r.storage.place r.next n)) := by
    simp only [step, hok]
  generalize hr₁ : r.publish _ _ = r₁ at hstep
  have hreach₁ := hreach.tail hstep
  have hinv₁ := inv_of_reachable hreach₁
  -- the new service is the only one of the table
  have hreg₁ : ∀ c, r₁.storage.Registered c ↔ c = r.next := by
    intro c
    rw [← hr₁, hr.publish_registered hok, or_iff_left]
    rintro ⟨i, -, hi⟩
    rw [hempty] at hi
    cases hi
  have hgrab : r₁.grab (n ||| r.storage.harbor) = some r.next := by
    rw [grab_eq_some_iff_registered hinv₁, hreg₁]
    exact ⟨rfl, by simp [← hr₁, publish]⟩
  obtain ⟨hplaced, hreg⟩ := retire_placed r₁.handleOf (n ||| r.storage.harbor) hinv₁.placed
  refine ⟨_, hreach₁.tail (a := .retire (n ||| r.storage.harbor)) rfl, fun i => ?_, ?_⟩
  · by_contra hne
    obtain ⟨c, hc⟩ := Option.ne_none_iff_exists'.mp hne
    obtain ⟨hc₁, hout⟩ := (hreg c).mp (hplaced.registered hc)
    rw [(hreg₁ c).mp hc₁] at hout
    exact hout hgrab
  · change (ubossHandleRetire r₁.handleOf r₁.storage _).2.handleIndex = _
    rw [retire_of_grab_some hinv₁.placed hgrab, ← hr₁]
    rfl

/-- Launching and retiring one service after the other moves the index through its range. -/
theorem exists_reachable_index (harbor n : ℕ) (hn : n < 2 ^ 24) :
    ∃ r, Reachable step (init harbor) r ∧ (∀ i, r.storage.slot i = none) ∧
      r.storage.handleIndex = n + 1 := by
  induction n with
  | zero => exact ⟨init harbor, .refl _, fun _ => rfl, rfl⟩
  | succ n ih =>
    obtain ⟨r, hreach, hempty, hindex⟩ := ih (by omega)
    exact exists_retired_launch hreach hempty hindex hn

/-- After enough launches the reserved handle is handed out. -/
theorem register_returns_reserved_handle : ¬ ∀ (harbor : ℕ) (ops : List HandleOp) (r : Registry),
      Run step anyAction (init harbor) ops r →
      ∀ handle storage, r.register = .ok (handle, storage) → handle &&& handleMask ≠ 0 := by
  intro hclaim
  obtain ⟨r, ⟨ops, hrun⟩, hempty, hindex⟩ := exists_reachable_index 1 (2 ^ 24 - 1) (by decide)
  have hr := inv_of_reachable hrun.reachable
  have hprobe : r.storage.probe = some 0 := by
    rw [probe_of_empty hempty hr.placed.slotSize_pos, hindex, and_handleMask]
    simp
  refine hclaim 1 ops r hrun _ _ (register_of_probe hprobe) ?_
  exact or_harbor_and_mask hr.placed (by decide)

end Registry

end Uboss.Core
