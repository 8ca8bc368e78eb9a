import Uboss.Core.HandleSlots
import Uboss.Math.ThreadSum

/-!
# Reference counts of contexts

A context is shared by the slot array, by the threads that have grabbed it, by the thread that
launches it and by the harbor. `ctx->ref` counts them, and `uboss_context_release` deletes the
context with the last reference. Registering a context and storing its handle are two steps
here, as are the two halves of `uboss_handle_grab` under the read lock and the two halves of
`uboss_handle_retire`, which drops the reference of the table behind its lock. Service code can
call all of this again; such a call is a step of another thread of the model.
-/

namespace Uboss.Core

open Math Function Option List

/-- Where a thread is between two steps. The `Option ℕ` says which handle the thread has to
retire afterwards. -/
inductive RefPc
  | idle
  /-- `uboss_context_new`: `uboss_handle_register` has returned `handle`. -/
  | registered (c : CtxId) (handle : ℕ)
  /-- In the init function of the module. -/
  | init (c : CtxId)
  /-- `uboss_harbor_start`, called from there: before `REMOTE = ctx`. -/
  | reserved (c : CtxId)
  /-- `uboss_handle_grab`: the slot has been read, under the read lock. -/
  | looking (c : CtxId)
  /-- Using a context that it has grabbed. -/
  | held (c : CtxId)
  /-- Before `uboss_context_release`. -/
  | release (c : CtxId) (next : Option ℕ)
  /-- In `delete_context`. -/
  | delete (c : CtxId) (next : Option ℕ)
  /-- `uboss_context_new` after a failed init: before `uboss_handle_retire`. -/
  | retire (handle : ℕ)
  deriving DecidableEq, Repr

/-- What happened to the contexts. -/
inductive RefEvent
  /-- `uboss_handle_retire` has found the context by this handle. -/
  | retired (c : CtxId) (handle : ℕ)
  | deleted (c : CtxId)
  deriving DecidableEq, Repr

/-- The contexts of a node. `reservations` counts the references that `uboss_harbor_start` has
taken and `uboss_harbor_exit` has not taken back; the program knows only the last one. -/
structure Contexts (Tid : Type) where
  storage : HandleStorage
  handleOf : CtxId → ℕ
  ref : CtxId → ℤ
  remote : Option CtxId
  reservations : CtxId → ℕ
  thread : Tid → RefPc
  next : CtxId
  log : List RefEvent

/-- The steps of the threads. -/
inductive RefAct (Tid : Type)
  | launch (t : Tid)
  | store (t : Tid)
  | harborStart (t : Tid)
  | harborStore (t : Tid)
  | initReturn (t : Tid) (ok : Bool)
  | harborExit (t : Tid)
  | lookup (t : Tid) (handle : ℕ)
  | grab (t : Tid)
  | put (t : Tid)
  | retire (t : Tid) (handle : ℕ)
  | failRetire (t : Tid)
  | release (t : Tid)
  | delete (t : Tid)
  deriving DecidableEq, Repr

namespace RefPc

/-- Where a thread goes on after `uboss_context_release`. -/
def after : Option ℕ → RefPc
  | none => .idle
  | some handle => .retire handle

/-- The references to `c` that a thread has: that of the launch, that of a grab, that of a
reservation on its way to `REMOTE`, or one that it is about to drop. -/
def holds (c : CtxId) : RefPc → ℕ
  | .registered d _ => if d = c then 1 else 0
  | .init d => if d = c then 1 else 0
  | .reserved d => if d = c then 2 else 0
  | .held d => if d = c then 1 else 0
  | .release d _ => if d = c then 1 else 0
  | _ => 0

/-- The read lock is held. -/
def IsLooking (p : RefPc) : Prop := ∃ c, p = .looking c

instance : DecidablePred IsLooking
  | .looking c => isTrue ⟨c, rfl⟩
  | .idle | .registered .. | .init _ | .reserved _ | .held _ | .release .. | .delete .. |
    .retire _ => isFalse (by rintro ⟨c, ⟨⟩⟩)

@[simp] theorem holds_after (c : CtxId) (next : Option ℕ) : (after next).holds c = 0 := by
  cases next <;> rfl

end RefPc

namespace Contexts

variable {Tid : Type}

/-- After `uboss_handle_init`, with every thread outside. -/
def init (Tid : Type) (harbor : ℕ) : Contexts Tid where
  storage := ubossHandleInit harbor
  handleOf := fun _ => 0
  ref := fun _ => 0
  remote := none
  reservations := fun _ => 0
  thread := fun _ => .idle
  next := 0
  log := []

section Step

variable [DecidableEq Tid] (s : Contexts Tid) (t : Tid)

/-- Move a thread on. -/
def goto (p : RefPc) : Contexts Tid := { s with thread := update s.thread t p }

/-- `ATOM_INC (&ctx->ref)`. -/
def incRef (c : CtxId) : Contexts Tid := { s with ref := update s.ref c (s.ref c + 1) }

/-- `ATOM_DEC (&ctx->ref)`. -/
def decRef (c : CtxId) : Contexts Tid := { s with ref := update s.ref c (s.ref c - 1) }

/-- `uboss_context_release`, up to `delete_context`. -/
def ubossContextRelease (c : CtxId) (next : Option ℕ) : Contexts Tid :=
  if s.ref c - 1 = 0 then
    goto { s.decRef c with log := s.log ++ [.deleted c] } t (.delete c next)
  else (s.decRef c).goto t (.after next)

/-- The locked section of `uboss_handle_retire`. -/
def ubossHandleRetire (handle : ℕ) : Contexts Tid :=
  match Core.ubossHandleRetire s.handleOf s.storage handle with
  | (none, storage) => goto { s with storage := storage } t .idle
  | (some c, storage) =>
    goto { s with storage := storage, log := s.log ++ [.retired c handle] } t (.release c none)

/-- `uboss_context_new`, up to the return of `uboss_handle_register`. -/
def launch (handle : ℕ) (storage : HandleStorage) : Contexts Tid :=
  goto { s with
    storage := storage
    handleOf := update s.handleOf s.next 0
    ref := update s.ref s.next 2
    next := s.next + 1 } t (.registered s.next handle)

/-- `REMOTE = ctx`, which hands the reservation to the harbor. -/
def setRemote (c : CtxId) : Contexts Tid :=
  { s with
    remote := some c
    reservations := update s.reservations c (s.reservations c + 1) }

/-- `REMOTE = NULL`, which takes the reservation back. -/
def clearRemote (c : CtxId) : Contexts Tid :=
  { s with
    remote := none
    reservations := update s.reservations c (s.reservations c - 1) }

/-- One step. The write lock of `uboss_handle_register` and `uboss_handle_retire` waits for the
readers. -/
def step [Fintype Tid] (s : Contexts Tid) : RefAct Tid → Option (Contexts Tid)
  | .launch t =>
    match s.thread t,
      ubossHandleRegister (update s.handleOf s.next 0) s.storage s.next with
    | .idle, .ok (handle, storage) =>
      if ∃ u, (s.thread u).IsLooking then none else some (s.launch t handle storage)
    | _, _ => none
  | .store t =>
    match s.thread t with
    | .registered c handle =>
      some (goto { s with handleOf := update s.handleOf c handle } t (.init c))
    | _ => none
  | .harborStart t =>
    match s.thread t with
    | .init c => some ((s.incRef c).goto t (.reserved c))
    | _ => none
  | .harborStore t =>
    match s.thread t with
    | .reserved c => some ((s.setRemote c).goto t (.init c))
    | _ => none
  | .initReturn t ok =>
    match s.thread t with
    | .init c => some (s.goto t (.release c (if ok then none else some (s.handleOf c))))
    | _ => none
  | .harborExit t =>
    match s.thread t, s.remote with
    | .idle, some c => some ((s.clearRemote c).goto t (.release c none))
    | _, _ => none
  | .lookup t handle =>
    match s.thread t with
    | .idle =>
      some (s.goto t (match ubossHandleGrab s.handleOf s.storage handle with
        | none => .idle
        | some c => .looking c))
    | _ => none
  | .grab t =>
    match s.thread t with
    | .looking c => some ((s.incRef c).goto t (.held c))
    | _ => none
  | .put t =>
    match s.thread t with
    | .held c => some (s.goto t (.release c none))
    | _ => none
  | .retire t handle =>
    if s.thread t = .idle ∧ ¬ ∃ u, (s.thread u).IsLooking then
      some (s.ubossHandleRetire t handle)
    else none
  | .failRetire t =>
    match s.thread t with
    | .retire handle =>
      if ∃ u, (s.thread u).IsLooking then none else some (s.ubossHandleRetire t handle)
    | _ => none
  | .release t =>
    match s.thread t with
    | .release c next => some (s.ubossContextRelease t c next)
    | _ => none
  | .delete t =>
    match s.thread t with
    | .delete _ next => some (s.goto t (.after next))
    | _ => none

end Step

section Ledger

variable [Fintype Tid]

/-- The references to a context: its slot, those of the threads and those of the harbor. The
reference of a slot that `uboss_handle_retire` has emptied is held by the retiring thread until
it drops it. -/
def references (s : Contexts Tid) (c : CtxId) : ℕ :=
  (if s.storage.Registered c then 1 else 0) + (∑ t, (s.thread t).holds c) + s.reservations c

/-- The number of calls of `delete_context`. -/
def deletions (s : Contexts Tid) (c : CtxId) : ℕ := s.log.count (.deleted c)

/-- The ledger of a state. -/
structure Ledger (s : Contexts Tid) : Prop where
  /-- The count is the number of references. -/
  ref_eq : ∀ c < s.next, s.ref c = s.references c
  /-- A context has been deleted once when it has no references left, and not before. -/
  deletions_eq : ∀ c < s.next, s.deletions c = if s.references c = 0 then 1 else 0
  /-- Its handle was retired before. -/
  retired : ∀ c, .deleted c ∈ s.log → ∃ handle, .retired c handle ∈ s.log
  /-- No thread has or is about to have a deleted context. -/
  not_grabbed : ∀ c, .deleted c ∈ s.log →
    ∀ t, (s.thread t).holds c = 0 ∧ s.thread t ≠ .looking c
  /-- What is found by its handle has not been deleted. -/
  grab_alive : ∀ handle c, ubossHandleGrab s.handleOf s.storage handle = some c →
    .deleted c ∉ s.log

/-- The invariant behind it. -/
structure Inv (s : Contexts Tid) : Prop where
  slots : s.storage.Slotted
  ref_eq : ∀ c < s.next, s.ref c = s.references c
  fresh : ∀ c, s.next ≤ c → s.references c = 0
  deletions_eq : ∀ c, s.deletions c = if c < s.next ∧ s.references c = 0 then 1 else 0
  looking : ∀ t c, s.thread t = .looking c → s.storage.Registered c
  remote : ∀ c, s.remote = some c → 1 ≤ s.reservations c
  retired : ∀ c < s.next, s.storage.Registered c ∨ ∃ handle, .retired c handle ∈ s.log

variable {s s' : Contexts Tid} {t : Tid} {c : CtxId} {p : RefPc}

theorem references_of_registered (h : s.storage.Registered c) : 1 ≤ s.references c := by
  rw [references, if_pos h]
  omega

theorem holds_le_references (s : Contexts Tid) (t : Tid) (c : CtxId) :
    (s.thread t).holds c ≤ s.references c := by
  have hle := le_sum_thread (RefPc.holds c) s.thread t
  rw [references]
  omega

section

variable (hs : s.Inv)
include hs

theorem Inv.lt_next (h : 1 ≤ s.references c) : c < s.next := by
  by_contra hge
  have := hs.fresh c (Nat.le_of_not_lt hge)
  omega

theorem Inv.deletions_eq_zero (h : 1 ≤ s.references c) : s.deletions c = 0 := by
  rw [hs.deletions_eq, if_neg (by omega)]

theorem Inv.not_deleted (h : 1 ≤ s.references c) : .deleted c ∉ s.log :=
  count_eq_zero.mp (hs.deletions_eq_zero h)

theorem Inv.references_of_deleted (h : .deleted c ∈ s.log) : c < s.next ∧ s.references c = 0 := by
  by_contra hne
  have hzero := hs.deletions_eq c
  rw [if_neg hne] at hzero
  exact count_eq_zero.mp hzero h

theorem Inv.ledger : s.Ledger where
  ref_eq := hs.ref_eq
  deletions_eq := by
    intro c hc
    rw [hs.deletions_eq]
    simp [hc]
  retired := by
    intro c hdeleted
    obtain ⟨hlt, hzero⟩ := hs.references_of_deleted hdeleted
    rcases hs.retired c hlt with hregistered | hretired
    · have := references_of_registered hregistered
      omega
    · exact hretired
  not_grabbed := by
    intro c hdeleted t
    obtain ⟨-, hzero⟩ := hs.references_of_deleted hdeleted
    refine ⟨Nat.le_zero.mp (hzero ▸ holds_le_references s t c), ?_⟩
    intro hlooking
    have := references_of_registered (hs.looking t c hlooking)
    omega
  grab_alive := by
    intro handle c hgrab
    exact hs.not_deleted (references_of_registered (hs.slots.registered_of_grab hgrab))

/-! ### Steps -/

/-- What one step has to keep: the count changes with the references, only the last reference
is followed by a deletion, and nobody takes a reference to a context that has none. -/
theorem Inv.change (hnext : s'.next = s.next) (hslots : s'.storage.Slotted)
    (href : ∀ c < s.next, s'.ref c + s.references c = s.ref c + s'.references c)
    (hdead : ∀ c, s.references c = 0 → s'.references c = 0)
    (hdeletions : ∀ c, s'.deletions c = s.deletions c +
      if s.references c ≠ 0 ∧ s'.references c = 0 then 1 else 0)
    (hlooking : ∀ t c, s'.thread t = .looking c → s'.storage.Registered c)
    (hremote : ∀ c, s'.remote = some c → 1 ≤ s'.reservations c)
    (hretired : ∀ c < s.next, s'.storage.Registered c ∨ ∃ handle, .retired c handle ∈ s'.log) :
    s'.Inv where
  slots := hslots
  ref_eq := by
    intro c hc
    rw [hnext] at hc
    have := href c hc
    have := hs.ref_eq c hc
    omega
  fresh := by
    intro c hc
    rw [hnext] at hc
    exact hdead c (hs.fresh c hc)
  deletions_eq := by
    intro c
    rw [hnext, hdeletions, hs.deletions_eq]
    by_cases hc : c < s.next
    · have := hdead c
      by_cases h0 : s.references c = 0
      · simp [hc, h0, this h0]
      · simp [hc, h0]
    · have h0 := hs.fresh c (Nat.le_of_not_lt hc)
      simp [hc, h0]
  looking := hlooking
  remote := hremote
  retired := by
    intro c hc
    exact hretired c (hnext ▸ hc)

/-- A reference changes hands: from the thread to the harbor, back, or from the table to the
thread that retires. -/
theorem Inv.transfer (hsame : ∀ c, s'.references c = s.references c) (hnext : s'.next = s.next)
    (href : s'.ref = s.ref) (hslots : s'.storage.Slotted)
    (hdeletions : ∀ c, s'.deletions c = s.deletions c)
    (hlooking : ∀ t c, s'.thread t = .looking c → s'.storage.Registered c)
    (hremote : ∀ c, s'.remote = some c → 1 ≤ s'.reservations c)
    (hretired : ∀ c < s.next, s'.storage.Registered c ∨ ∃ handle, .retired c handle ∈ s'.log) :
    s'.Inv := by
  refine hs.change hnext hslots ?_ ?_ ?_ hlooking hremote hretired
  · intro c _
    rw [hsame, href]
  · intro c hc
    rw [hsame, hc]
  · intro c
    rw [hsame, hdeletions, if_neg (by tauto)]
    rfl

end

theorem inv_init (harbor : ℕ) : (init Tid harbor).Inv := by
  have hnone (c : CtxId) : ¬ (init Tid harbor).storage.Registered c := by
    rintro ⟨i, -, hi⟩
    cases hi
  have hzero (c : CtxId) : (init Tid harbor).references c = 0 := by
    rw [references, if_neg (hnone c)]
    simp [init, RefPc.holds]
  refine ⟨HandleStorage.init_slotted harbor, ?_, ?_, ?_, ?_, ?_, ?_⟩
  · intro c hc
    cases hc
  · exact fun c _ => hzero c
  · intro c
    simp [deletions, init]
  · intro t c ht
    cases ht
  · intro c hc
    cases hc
  · intro c hc
    cases hc

section Steps

variable [DecidableEq Tid]

omit [Fintype Tid] in
@[simp] theorem goto_reservations (s : Contexts Tid) (t : Tid) (p : RefPc) :
    (s.goto t p).reservations = s.reservations := rfl

omit [Fintype Tid] [DecidableEq Tid] in
@[simp] theorem setRemote_reservations (s : Contexts Tid) (c : CtxId) :
    (s.setRemote c).reservations = update s.reservations c (s.reservations c + 1) := rfl

omit [Fintype Tid] [DecidableEq Tid] in
@[simp] theorem clearRemote_reservations (s : Contexts Tid) (c : CtxId) :
    (s.clearRemote c).reservations = update s.reservations c (s.reservations c - 1) := rfl

theorem references_update (s s' : Contexts Tid)
    (hthread : s'.thread = update s.thread t p) (c : CtxId) :
    s'.references c + (s.thread t).holds c + (if s.storage.Registered c then 1 else 0) +
        s.reservations c =
      s.references c + p.holds c + (if s'.storage.Registered c then 1 else 0) +
        s'.reservations c := by
  have hsum := sum_update_add (RefPc.holds c) s.thread t p
  rw [references, references, hthread]
  omega

theorem Inv.looking_update (hs : s.Inv) (hthread : s'.thread = update s.thread t p)
    (hp : ∀ c, p = .looking c → s.storage.Registered c) :
    ∀ u c, s'.thread u = .looking c → s.storage.Registered c := by
  intro u c hu
  rw [hthread] at hu
  by_cases hut : u = t
  · rw [hut, update_self] at hu
    exact hp c hu
  · rw [update_of_ne hut] at hu
    exact hs.looking u c hu

theorem references_harbor (s s' : Contexts Tid)
    (hthread : s'.thread = update s.thread t p) (hstorage : s'.storage = s.storage)
    (c : CtxId) :
    s'.references c + (s.thread t).holds c + s.reservations c =
      s.references c + p.holds c + s'.reservations c := by
  have hupdate := references_update s s' hthread c
  rw [hstorage] at hupdate
  omega

theorem references_move (s s' : Contexts Tid) (hthread : s'.thread = update s.thread t p)
    (hstorage : s'.storage = s.storage) (hreservations : s'.reservations = s.reservations)
    (c : CtxId) : s'.references c + (s.thread t).holds c = s.references c + p.holds c := by
  have hupdate := references_harbor s s' hthread hstorage c
  rw [hreservations] at hupdate
  omega

section

variable (hs : s.Inv)
include hs

theorem Inv.goto (handleOf : CtxId → ℕ) (hholds : ∀ c, p.holds c = (s.thread t).holds c)
    (hp : ∀ c, p = .looking c → s.storage.Registered c) :
    (Contexts.goto { s with handleOf := handleOf } t p).Inv := by
  have href (c : CtxId) :
      (Contexts.goto { s with handleOf := handleOf } t p).references c = s.references c := by
    have hmove := references_move s (Contexts.goto { s with handleOf := handleOf } t p) rfl rfl
      rfl c
    have := hholds c
    omega
  refine hs.change rfl hs.slots ?_ ?_ ?_ ?_ hs.remote hs.retired
  · intro c _
    rw [href]
    rfl
  · intro c hc
    rw [href, hc]
  · intro c
    rw [href, if_neg (by tauto)]
    rfl
  · exact hs.looking_update rfl hp

theorem Inv.incRef (halive : 1 ≤ s.references c)
    (hholds : ∀ d, p.holds d = (s.thread t).holds d + if c = d then 1 else 0)
    (hp : ∀ d, p ≠ .looking d) : ((s.incRef c).goto t p).Inv := by
  have href (d : CtxId) : ((s.incRef c).goto t p).references d =
      s.references d + if c = d then 1 else 0 := by
    have hmove := references_move s ((s.incRef c).goto t p) rfl rfl rfl d
    have := hholds d
    omega
  refine hs.change rfl hs.slots ?_ ?_ ?_ ?_ hs.remote hs.retired
  · intro d _
    rw [href]
    by_cases hd : d = c
    · subst hd
      simp [Contexts.goto, Contexts.incRef]
      omega
    · simp [Contexts.goto, Contexts.incRef, hd, Ne.symm hd]
  · intro d hd
    rw [href, hd, if_neg]
    rintro rfl
    omega
  · intro d
    rw [href, if_neg (by omega)]
    rfl
  · exact hs.looking_update rfl fun d hd => absurd hd (hp d)

theorem Inv.ubossHandleRetire (hholds : ∀ c, (s.thread t).holds c = 0)
    (hunlocked : ¬ ∃ u, (s.thread u).IsLooking) (handle : ℕ) :
    (s.ubossHandleRetire t handle).Inv := by
  obtain ⟨hslots, hcases⟩ := hs.slots.retire s.handleOf handle
  rw [Contexts.ubossHandleRetire]
  generalize Core.ubossHandleRetire s.handleOf s.storage handle = r at hslots hcases
  obtain ⟨found, storage⟩ := r
  rcases hcases with ⟨hnone, hsame⟩ | ⟨c, hsome, -, hregistered, htable⟩
  · dsimp only at hnone hsame
    subst hnone hsame
    exact hs.goto s.handleOf (fun c => (hholds c).symm) fun c hc => by cases hc
  · dsimp only at hsome htable
    subst hsome
    dsimp only
    refine hs.transfer ?_ rfl rfl hslots ?_ ?_ hs.remote ?_
    · -- the reference of the slot is now the thread's
      intro d
      have hmove : _ + _ + _ + s.reservations d =
          _ + _ + (if storage.Registered d then 1 else 0) + s.reservations d :=
        references_update s (Contexts.goto
          { s with storage := storage, log := s.log ++ [.retired c handle] } t
          (.release c none)) rfl d
      rw [hholds] at hmove
      by_cases hd : d = c
      · subst hd
        rw [if_pos hregistered, if_neg (by simp [htable])] at hmove
        simp only [RefPc.holds, if_true] at hmove
        omega
      · simp only [htable, hd, ne_eq, not_false_eq_true, true_and, RefPc.holds, Ne.symm hd,
          if_false] at hmove
        omega
    · intro d
      simp [deletions, Contexts.goto]
    · intro u d hu
      by_cases hut : u = t
      · simp [Contexts.goto, hut] at hu
      · simp only [Contexts.goto, update_of_ne hut] at hu
        exact absurd ⟨u, d, hu⟩ hunlocked
    · intro d hd
      by_cases hdc : d = c
      · exact .inr ⟨handle, by simp [Contexts.goto, hdc]⟩
      · rcases hs.retired d hd with hreg | ⟨h, hmem⟩
        · exact .inl ((htable d).mpr ⟨hdc, hreg⟩)
        · exact .inr ⟨h, mem_append_left _ hmem⟩

/-- A thread drops its reference; the last one deletes the context. -/
theorem Inv.ubossContextRelease {next : Option ℕ} (hthread : s.thread t = .release c next) :
    (s.ubossContextRelease t c next).Inv := by
  have halive : 1 ≤ s.references c := by
    have hle := holds_le_references s t c
    simpa [hthread, RefPc.holds] using hle
  have hcount := hs.ref_eq c (hs.lt_next halive)
  -- in both cases one reference is gone and the count is one less
  have hgone (s' : Contexts Tid) (p : RefPc) (hp : ∀ d, p.holds d = 0)
      (hupdate : s'.thread = update s.thread t p) (hstorage : s'.storage = s.storage)
      (hreservations : s'.reservations = s.reservations) (d : CtxId) :
      s'.references d + (if d = c then 1 else 0) = s.references d := by
    have hmove := references_move s s' hupdate hstorage hreservations d
    rw [hthread, hp] at hmove
    simpa [RefPc.holds, eq_comm] using hmove
  have hdec {s' : Contexts Tid} {d : CtxId}
      (hone : s'.references d + (if d = c then 1 else 0) = s.references d)
      (hdecRef : s'.ref = (s.decRef c).ref) :
      s'.ref d + s.references d = s.ref d + s'.references d := by
    rw [hdecRef]
    by_cases hd : d = c
    · subst hd
      simp only [Contexts.decRef, update_self, if_true] at hone ⊢
      omega
    · simp only [Contexts.decRef, update_of_ne hd, if_neg hd] at hone ⊢
      omega
  rw [Contexts.ubossContextRelease]
  split
  · rename_i hlast
    have href := hgone (Contexts.goto { s.decRef c with log := s.log ++ [.deleted c] } t
      (.delete c next)) _ (fun _ => rfl) rfl rfl rfl
    refine hs.change rfl hs.slots ?_ ?_ ?_ ?_ hs.remote ?_
    · intro d _
      exact hdec (href d) rfl
    · intro d hd
      have := href d
      omega
    · intro d
      have hone := href d
      by_cases hd : d = c
      · subst hd
        rw [if_pos rfl] at hone
        rw [if_pos (by omega)]
        simp [deletions, Contexts.goto, Contexts.decRef]
      · rw [if_neg hd] at hone
        rw [if_neg (by omega)]
        simp [deletions, Contexts.goto, Contexts.decRef, Ne.symm hd]
    · exact hs.looking_update rfl fun d hd => by cases hd
    · intro d hd
      exact (hs.retired d hd).imp_right fun ⟨h, hmem⟩ => ⟨h, mem_append_left _ hmem⟩
  · rename_i hmore
    have href := hgone ((s.decRef c).goto t (.after next)) _ (fun _ => RefPc.holds_after _ next)
      rfl rfl rfl
    refine hs.change rfl hs.slots ?_ ?_ ?_ ?_ hs.remote hs.retired
    · intro d _
      exact hdec (href d) rfl
    · intro d hd
      have := href d
      omega
    · intro d
      have hone := href d
      rw [if_neg]
      · rfl
      · rintro ⟨hpos, hzero⟩
        split at hone
        · rename_i hd
          subst hd
          omega
        · omega
    · refine hs.looking_update rfl fun d hd => ?_
      cases next <;> cases hd

theorem Inv.launch {handle : ℕ} {storage : HandleStorage} (hthread : s.thread t = .idle)
    (hunlocked : ¬ ∃ u, (s.thread u).IsLooking)
    (hok : ubossHandleRegister (update s.handleOf s.next 0) s.storage s.next =
      .ok (handle, storage)) : (s.launch t handle storage).Inv := by
  have hfresh := hs.fresh s.next le_rfl
  have hnew : ¬ s.storage.Registered s.next := by
    intro hregistered
    have := references_of_registered hregistered
    omega
  obtain ⟨hslots, htable⟩ := hs.slots.register hnew hok
  have hupdate (d : CtxId) : (s.launch t handle storage).references d +
      (if s.storage.Registered d then 1 else 0) = s.references d +
        (if s.next = d then 1 else 0) + (if storage.Registered d then 1 else 0) := by
    have hmove : (s.launch t handle storage).references d + _ + _ + s.reservations d =
        s.references d + _ + (if storage.Registered d then 1 else 0) + s.reservations d :=
      references_update s (s.launch t handle storage) rfl d
    rw [hthread] at hmove
    simp only [RefPc.holds] at hmove
    omega
  have hnext : (s.launch t handle storage).references s.next = 2 := by
    have hmove := hupdate s.next
    rw [if_neg hnew, if_pos rfl, if_pos ((htable _).mpr (.inl rfl)), hfresh] at hmove
    exact hmove
  have hold (d : CtxId) (hd : d ≠ s.next) :
      (s.launch t handle storage).references d = s.references d := by
    have hmove := hupdate d
    have hsame : storage.Registered d ↔ s.storage.Registered d := by
      rw [htable]
      exact or_iff_right hd
    simp only [hsame, if_neg (Ne.symm hd)] at hmove
    omega
  refine ⟨hslots, ?_, ?_, ?_, ?_, hs.remote, ?_⟩
  · intro d hd
    rcases Nat.lt_succ_iff_lt_or_eq.mp hd with hlt | rfl
    · have hne : d ≠ s.next := hlt.ne
      rw [hold d hne]
      simp only [Contexts.launch, Contexts.goto, update_of_ne hne]
      exact hs.ref_eq d hlt
    · rw [hnext]
      simp [Contexts.launch, Contexts.goto]
  · intro d hd
    have hgt : s.next < d := hd
    rw [hold d hgt.ne']
    exact hs.fresh d hgt.le
  · intro d
    have hdeletions : (s.launch t handle storage).deletions d = s.deletions d := rfl
    rw [hdeletions, hs.deletions_eq]
    by_cases hd : d = s.next
    · rw [hd, hnext, if_neg (by simp), if_neg (by simp)]
    · rw [hold d hd]
      have hlt : d < (s.launch t handle storage).next ↔ d < s.next :=
        Nat.lt_succ_iff_lt_or_eq.trans (or_iff_left hd)
      simp only [hlt]
  · intro u d hu
    by_cases hut : u = t
    · simp [Contexts.launch, Contexts.goto, hut] at hu
    · simp only [Contexts.launch, Contexts.goto, update_of_ne hut] at hu
      exact absurd ⟨u, d, hu⟩ hunlocked
  · intro d hd
    rcases Nat.lt_succ_iff_lt_or_eq.mp hd with hlt | rfl
    · exact (hs.retired d hlt).imp_left fun hreg => (htable d).mpr (.inr hreg)
    · exact .inl ((htable s.next).mpr (.inl rfl))

theorem Inv.setRemote (hthread : s.thread t = .reserved c) :
    ((s.setRemote c).goto t (.init c)).Inv := by
  refine hs.transfer ?_ rfl rfl hs.slots (fun d => rfl)
    (hs.looking_update rfl fun d hd => by cases hd) ?_ hs.retired
  · intro d
    have hmove := references_harbor s ((s.setRemote c).goto t (.init c)) rfl rfl d
    rw [hthread, goto_reservations] at hmove
    by_cases hd : d = c
    · subst hd
      simp only [RefPc.holds, setRemote_reservations, if_true, update_self] at hmove
      omega
    · simp only [RefPc.holds, setRemote_reservations, Ne.symm hd, if_false,
        update_of_ne hd] at hmove
      omega
  · intro d hd
    obtain rfl := some_inj.mp hd
    simp

/-- A thread that holds nothing takes the reservation of the harbor back. -/
theorem Inv.clearRemote (hthread : s.thread t = .idle) (hremote : s.remote = some c) :
    ((s.clearRemote c).goto t (.release c none)).Inv := by
  have hpos := hs.remote c hremote
  refine hs.transfer ?_ rfl rfl hs.slots (fun d => rfl)
    (hs.looking_update rfl fun d hd => by cases hd) (fun d hd => by cases hd) hs.retired
  intro d
  have hmove := references_harbor s ((s.clearRemote c).goto t (.release c none)) rfl rfl d
  rw [hthread, goto_reservations] at hmove
  by_cases hd : d = c
  · subst hd
    simp only [RefPc.holds, clearRemote_reservations, if_true, update_self] at hmove
    omega
  · simp only [RefPc.holds, clearRemote_reservations, Ne.symm hd, if_false,
      update_of_ne hd] at hmove
    omega

theorem Inv.step {a : RefAct Tid} (hstep : s.step a = some s') : s'.Inv := by
  cases a with
  | launch t =>
    simp only [Contexts.step] at hstep
    split at hstep
    · rename_i hthread hok
      split at hstep
      · cases hstep
      · rename_i hunlocked
        obtain rfl := some_inj.mp hstep
        exact hs.launch hthread hunlocked hok
    · cases hstep
  | store t =>
    simp only [Contexts.step] at hstep
    split at hstep
    · rename_i c handle hthread
      obtain rfl := some_inj.mp hstep
      exact hs.goto _ (fun d => by rw [hthread]; rfl) fun d hd => by cases hd
    · cases hstep
  | harborStart t =>
    simp only [Contexts.step] at hstep
    split at hstep
    · rename_i c hthread
      obtain rfl := some_inj.mp hstep
      have halive : 1 ≤ s.references c := by
        have hle := holds_le_references s t c
        simpa [hthread, RefPc.holds] using hle
      refine hs.incRef halive (fun d => ?_) fun d hd => by cases hd
      rw [hthread]
      simp only [RefPc.holds]
      split <;> rfl
    · cases hstep
  | harborStore t =>
    simp only [Contexts.step] at hstep
    split at hstep
    · rename_i c hthread
      obtain rfl := some_inj.mp hstep
      exact hs.setRemote hthread
    · cases hstep
  | initReturn t ok =>
    simp only [Contexts.step] at hstep
    split at hstep
    · rename_i c hthread
      obtain rfl := some_inj.mp hstep
      exact hs.goto s.handleOf (fun d => by rw [hthread]; rfl) fun d hd => by cases hd
    · cases hstep
  | harborExit t =>
    simp only [Contexts.step] at hstep
    split at hstep
    · rename_i c hthread hremote
      obtain rfl := some_inj.mp hstep
      exact hs.clearRemote hthread hremote
    · cases hstep
  | lookup t handle =>
    simp only [Contexts.step] at hstep
    split at hstep
    · rename_i hthread
      obtain rfl := some_inj.mp hstep
      split
      · exact hs.goto s.handleOf (fun d => by rw [hthread]) fun d hd => by cases hd
      · rename_i c hgrab
        refine hs.goto s.handleOf (fun d => by rw [hthread]; rfl) fun d hd => ?_
        obtain rfl := RefPc.looking.inj hd
        exact hs.slots.registered_of_grab hgrab
    · cases hstep
  | grab t =>
    simp only [Contexts.step] at hstep
    split at hstep
    · rename_i c hthread
      obtain rfl := some_inj.mp hstep
      refine hs.incRef (references_of_registered (hs.looking t c hthread)) (fun d => ?_)
        fun d hd => by cases hd
      rw [hthread]
      simp [RefPc.holds]
    · cases hstep
  | put t =>
    simp only [Contexts.step] at hstep
    split at hstep
    · rename_i c hthread
      obtain rfl := some_inj.mp hstep
      exact hs.goto s.handleOf (fun d => by rw [hthread]; rfl) fun d hd => by cases hd
    · cases hstep
  | retire t handle =>
    simp only [Contexts.step] at hstep
    split at hstep
    · rename_i hidle
      obtain rfl := some_inj.mp hstep
      exact hs.ubossHandleRetire (fun c => by rw [hidle.1]; rfl) hidle.2 handle
    · cases hstep
  | failRetire t =>
    simp only [Contexts.step] at hstep
    split at hstep
    · rename_i handle hthread
      split at hstep
      · cases hstep
      · rename_i hunlocked
        obtain rfl := some_inj.mp hstep
        exact hs.ubossHandleRetire (fun c => by rw [hthread]; rfl) hunlocked handle
    · cases hstep
  | release t =>
    simp only [Contexts.step] at hstep
    split at hstep
    · rename_i c next hthread
      obtain rfl := some_inj.mp hstep
      exact hs.ubossContextRelease hthread
    · cases hstep
  | delete t =>
    simp only [Contexts.step] at hstep
    split at hstep
    · rename_i c next hthread
      obtain rfl := some_inj.mp hstep
      refine hs.goto s.handleOf (fun d => by rw [hthread, RefPc.holds_after]; rfl) fun d hd => ?_
      cases next <;> cases hd
    · cases hstep

end

/-- In every state that any number of threads can reach, the count of a context is the number
of its references, and it is deleted once, with the last of them: after its handle was retired,
with no thread holding it, and never to be found again. -/
theorem ledger_of_reachable (harbor : ℕ) (s : Contexts Tid)
    (hreach : Reachable step (init Tid harbor) s) : s.Ledger :=
  (hreach.invariant (inv_init harbor) fun hstep hs => hs.step hstep).ledger

/-- A context that is retired while another thread holds it. -/
def sharedRun : List (RefAct (Fin 2)) :=
  [.launch 0, .store 0, .lookup 1 0x1000001, .grab 1, .initReturn 0 true, .release 0,
    .retire 0 0x1000001, .release 0, .put 1, .release 1, .delete 1]

theorem ledger_of_reachable_shared : ∃ s : Contexts (Fin 2), Reachable step (init (Fin 2) 1) s ∧
      s.log = [.retired 0 0x1000001, .deleted 0] ∧ s.Ledger := by
  have hrun : (exec step (init (Fin 2) 1) sharedRun).map (·.log) =
      some [.retired 0 0x1000001, .deleted 0] := by decide
  obtain ⟨s, hs, hlog⟩ := Option.map_eq_some_iff.mp hrun
  exact ⟨s, reachable_of_exec hs, hlog, ledger_of_reachable 1 s (reachable_of_exec hs)⟩

end Steps

end Ledger

end Contexts

end Uboss.Core
