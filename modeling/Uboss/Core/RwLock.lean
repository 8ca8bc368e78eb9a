import Mathlib.Data.Fintype.BigOperators
import Uboss.Math.ThreadSum
import Uboss.Math.Transition

/-!
# Reader-writer locks

`struct rwlock` and the threads that use it. Every access to `write` and `read` is one step, and
the steps of the threads follow each other in any order. `read` is an `int` that wraps: the builtin
functions for atomic access do not overflow.

A thread calls a function of the lock when it is in none, and unlocks what it has locked.
-/

namespace Uboss.Core

open Math Function Option Finset Int32

/-- Where a thread is. -/
inductive RwPc
  | idle
  /-- `rwlock_rlock`: before `while(lock->write)`. -/
  | readerWait
  /-- Before `__sync_add_and_fetch`. -/
  | readerAdd
  /-- Before `if (lock->write)`. -/
  | readerCheck
  /-- Before `__sync_sub_and_fetch`. -/
  | readerBack
  /-- Inside the read section. -/
  | reading
  /-- `rwlock_wlock`: before `__sync_lock_test_and_set`. -/
  | writerSet
  /-- Before `while(lock->read)`. -/
  | writerWait
  /-- Inside the write section. -/
  | writing
  deriving DecidableEq, Repr

namespace RwPc

/-- The thread is counted in `read`. -/
def reads : RwPc → ℕ
  | .readerCheck | .readerBack | .reading => 1
  | _ => 0

/-- The thread has set `write`. -/
def holds : RwPc → ℕ
  | .writerWait | .writing => 1
  | _ => 0

end RwPc

/-- `struct rwlock`, and the threads. -/
structure RwLock (Tid : Type) where
  write : Int32
  read : Int32
  pc : Tid → RwPc

/-- The steps: the calls, and the next access of a thread that is in `rwlock_rlock` or
`rwlock_wlock`. -/
inductive RwAct (Tid : Type)
  | rlock (t : Tid)
  | runlock (t : Tid)
  | wlock (t : Tid)
  | wunlock (t : Tid)
  | access (t : Tid)
  deriving DecidableEq, Repr

namespace RwLock

variable {Tid : Type}

/-- `rwlock_init`. -/
def init : RwLock Tid := ⟨0, 0, fun _ => .idle⟩

section Steps

variable [DecidableEq Tid] (s : RwLock Tid)

/-- The thread goes on. -/
def goto (t : Tid) (p : RwPc) : RwLock Tid := { s with pc := Function.update s.pc t p }

/-- The next access in `rwlock_rlock` and `rwlock_wlock`. -/
def access (t : Tid) : Option (RwLock Tid) :=
  match s.pc t with
  | .readerWait => if s.write ≠ 0 then some s else some (s.goto t .readerAdd)
  | .readerAdd => some ({ s with read := s.read + 1 }.goto t .readerCheck)
  | .readerCheck => if s.write ≠ 0 then some (s.goto t .readerBack) else some (s.goto t .reading)
  | .readerBack => some ({ s with read := s.read - 1 }.goto t .readerWait)
  | .writerSet =>
    if s.write ≠ 0 then some { s with write := 1 }
    else some ({ s with write := 1 }.goto t .writerWait)
  | .writerWait => if s.read ≠ 0 then some s else some (s.goto t .writing)
  | _ => none

/-- A step. -/
def step : RwAct Tid → Option (RwLock Tid)
  | .rlock t => if s.pc t = .idle then some (s.goto t .readerWait) else none
  | .runlock t =>
    if s.pc t = .reading then some ({ s with read := s.read - 1 }.goto t .idle) else none
  | .wlock t => if s.pc t = .idle then some (s.goto t .writerSet) else none
  | .wunlock t => if s.pc t = .writing then some ({ s with write := 0 }.goto t .idle) else none
  | .access t => s.access t

end Steps

/-- No other thread is inside with a thread that is inside the write section. -/
def Exclusive (s : RwLock Tid) : Prop :=
  ∀ t u, t ≠ u → s.pc t = .writing → s.pc u ≠ .writing ∧ s.pc u ≠ .reading

section Counts

variable [Fintype Tid] (s : RwLock Tid)

/-- The readers inside, and those between their increment and the check or the decrement. -/
def readers : ℕ := ∑ t, (s.pc t).reads

/-- The writers inside, and those that wait for the readers. -/
def holders : ℕ := ∑ t, (s.pc t).holds

end Counts

/-- What a step of the thread `t` changes. -/
inductive Moves [DecidableEq Tid] (s : RwLock Tid) (t : Tid) : RwLock Tid → Prop
  | spin : Moves s t s
  | again (hwrite : s.write ≠ 0) : Moves s t { s with write := 1 }
  | walk (p : RwPc) (hreads : p.reads = (s.pc t).reads) (hholds : p.holds = (s.pc t).holds)
      (hout : p ≠ .reading ∧ p ≠ .writing) : Moves s t (s.goto t p)
  | count (hpc : s.pc t = .readerAdd) :
      Moves s t ({ s with read := s.read + 1 }.goto t .readerCheck)
  | enter (hpc : s.pc t = .readerCheck) (hwrite : s.write = 0) : Moves s t (s.goto t .reading)
  | leave (p : RwPc) (hpc : s.pc t = .readerBack ∨ s.pc t = .reading)
      (hp : p = .readerWait ∨ p = .idle) : Moves s t ({ s with read := s.read - 1 }.goto t p)
  | seize (hpc : s.pc t = .writerSet) (hwrite : s.write = 0) :
      Moves s t ({ s with write := 1 }.goto t .writerWait)
  | write (hpc : s.pc t = .writerWait) (hread : s.read = 0) : Moves s t (s.goto t .writing)
  | release (hpc : s.pc t = .writing) : Moves s t ({ s with write := 0 }.goto t .idle)

section Inversion

variable [DecidableEq Tid] {s s' : RwLock Tid} {a : RwAct Tid} {t : Tid}

theorem moves_of_access (h : s.access t = some s') : s.Moves t s' := by
  unfold access at h
  split at h
  case h_1 hpc =>
    split at h <;> cases h
    · exact .spin
    · exact .walk .readerAdd (by rw [hpc]; rfl) (by rw [hpc]; rfl) (by decide)
  case h_2 hpc =>
    cases h
    exact .count hpc
  case h_3 hpc =>
    split at h
    · cases h
      exact .walk .readerBack (by rw [hpc]; rfl) (by rw [hpc]; rfl) (by decide)
    · next hwrite =>
      cases h
      exact .enter hpc (not_not.mp hwrite)
  case h_4 hpc =>
    cases h
    exact .leave .readerWait (.inl hpc) (.inl rfl)
  case h_5 hpc =>
    split at h
    · next hwrite =>
      cases h
      exact .again hwrite
    · next hwrite =>
      cases h
      exact .seize hpc (not_not.mp hwrite)
  case h_6 hpc =>
    split at h
    · cases h
      exact .spin
    · next hread =>
      cases h
      exact .write hpc (not_not.mp hread)
  case h_7 => cases h

theorem moves_of_step (h : s.step a = some s') : ∃ t, s.Moves t s' := by
  cases a with
  | rlock t =>
    obtain ⟨hpc, heq⟩ := ite_none_right_eq_some.mp h
    cases heq
    exact ⟨t, .walk .readerWait (by rw [hpc]; rfl) (by rw [hpc]; rfl) (by decide)⟩
  | runlock t =>
    obtain ⟨hpc, heq⟩ := ite_none_right_eq_some.mp h
    cases heq
    exact ⟨t, .leave .idle (.inr hpc) (.inr rfl)⟩
  | wlock t =>
    obtain ⟨hpc, heq⟩ := ite_none_right_eq_some.mp h
    cases heq
    exact ⟨t, .walk .writerSet (by rw [hpc]; rfl) (by rw [hpc]; rfl) (by decide)⟩
  | wunlock t =>
    obtain ⟨hpc, heq⟩ := ite_none_right_eq_some.mp h
    cases heq
    exact ⟨t, .release hpc⟩
  | access t => exact ⟨t, moves_of_access h⟩

end Inversion

/-- What `read` and `write` say about the threads. -/
structure Inv [Fintype Tid] (s : RwLock Tid) : Prop where
  read_eq : s.read = ofNat s.readers
  write_eq : s.write = 0 ∧ s.holders = 0 ∨ s.write = 1 ∧ s.holders = 1

section Invariant

variable [Fintype Tid] {s s' : RwLock Tid} {t u : Tid}

theorem inv_init : (init : RwLock Tid).Inv where
  read_eq := by
    have hnone : (init : RwLock Tid).readers = 0 := sum_const_zero
    rw [hnone]
    rfl
  write_eq := .inl ⟨rfl, sum_const_zero⟩

theorem reads_le_readers (s : RwLock Tid) (t : Tid) : (s.pc t).reads ≤ s.readers :=
  le_sum_thread RwPc.reads s.pc t

theorem holds_le_holders (s : RwLock Tid) (t : Tid) : (s.pc t).holds ≤ s.holders :=
  le_sum_thread RwPc.holds s.pc t

theorem Inv.holders_le (h : s.Inv) : s.holders ≤ 1 := by
  obtain ⟨-, hholders⟩ | ⟨-, hholders⟩ := h.write_eq <;> omega

theorem Inv.write_ne_zero (h : s.Inv) (ht : s.pc t = .writing) : s.write ≠ 0 := by
  have hle := s.holds_le_holders t
  rw [ht] at hle
  obtain ⟨-, hholders⟩ | ⟨hwrite, -⟩ := h.write_eq
  · rw [hholders] at hle
    exact absurd hle (by decide)
  · rw [hwrite]
    decide

theorem Inv.writer_alone (h : s.Inv) (hne : t ≠ u) (ht : s.pc t = .writing) :
    s.pc u ≠ .writing := by
  classical
  intro hu
  have hle : (s.pc t).holds + (s.pc u).holds ≤ s.holders := add_le_sum_thread RwPc.holds s.pc hne
  have hone := h.holders_le
  rw [ht, hu, RwPc.holds] at hle
  omega

variable [DecidableEq Tid]

theorem readers_goto (s : RwLock Tid) (t : Tid) (p : RwPc) :
    (s.goto t p).readers + (s.pc t).reads = s.readers + p.reads :=
  sum_update_add RwPc.reads s.pc t p

theorem holders_goto (s : RwLock Tid) (t : Tid) (p : RwPc) :
    (s.goto t p).holders + (s.pc t).holds = s.holders + p.holds :=
  sum_update_add RwPc.holds s.pc t p

theorem Inv.goto {w r : Int32} {p : RwPc} (hread : r = ofNat (s.goto t p).readers)
    (hwrite : w = 0 ∧ (s.goto t p).holders = 0 ∨ w = 1 ∧ (s.goto t p).holders = 1) :
    (({ s with write := w, read := r } : RwLock Tid).goto t p).Inv :=
  ⟨hread, hwrite⟩

theorem Inv.moves (h : s.Inv) (hmove : s.Moves t s') : s'.Inv := by
  have hreaders (p : RwPc) := s.readers_goto t p
  have hholders (p : RwPc) := s.holders_goto t p
  cases hmove with
  | spin => exact h
  | again hwrite =>
    obtain ⟨hzero, -⟩ | ⟨-, hone⟩ := h.write_eq
    · exact absurd hzero hwrite
    · exact ⟨h.read_eq, .inr ⟨rfl, hone⟩⟩
  | walk p hreads hholds hout =>
    have hsame : (s.goto t p).readers = s.readers := by
      have hsum := hreaders p
      omega
    have hsame' : (s.goto t p).holders = s.holders := by
      have hsum := hholders p
      omega
    exact .goto (hsame ▸ h.read_eq) (hsame' ▸ h.write_eq)
  | count hpc =>
    simp only [hpc] at hreaders hholders
    have hmore : (s.goto t .readerCheck).readers = s.readers + 1 := hreaders .readerCheck
    have hsame : (s.goto t .readerCheck).holders = s.holders := hholders .readerCheck
    refine .goto ?_ (hsame ▸ h.write_eq)
    rw [hmore, ofNat_add, ← h.read_eq]
    rfl
  | enter hpc hwrite =>
    simp only [hpc] at hreaders hholders
    have hsame : (s.goto t .reading).readers = s.readers := Nat.add_right_cancel (hreaders .reading)
    have hsame' : (s.goto t .reading).holders = s.holders := hholders .reading
    exact .goto (hsame ▸ h.read_eq) (hsame' ▸ h.write_eq)
  | leave p hpc hp =>
    have hless : (s.goto t p).readers + 1 = s.readers := by
      have hsum := hreaders p
      rcases hpc with hpc | hpc <;> rcases hp with rfl | rfl <;> rwa [hpc] at hsum
    have hsame : (s.goto t p).holders = s.holders := by
      have hsum := hholders p
      rcases hpc with hpc | hpc <;> rcases hp with rfl | rfl <;> rwa [hpc] at hsum
    refine .goto ?_ (hsame ▸ h.write_eq)
    rw [h.read_eq, ← hless, ofNat_add]
    exact Int32.add_sub_cancel _ _
  | seize hpc hwrite =>
    simp only [hpc] at hreaders hholders
    have hsame : (s.goto t .writerWait).readers = s.readers := hreaders .writerWait
    have hmore : (s.goto t .writerWait).holders = s.holders + 1 := hholders .writerWait
    refine .goto (hsame ▸ h.read_eq) (.inr ⟨rfl, ?_⟩)
    obtain ⟨-, hzero⟩ | ⟨hone, -⟩ := h.write_eq
    · rw [hmore, hzero]
    · rw [hwrite] at hone
      exact absurd hone (by decide)
  | write hpc hread =>
    simp only [hpc] at hreaders hholders
    have hsame : (s.goto t .writing).readers = s.readers := hreaders .writing
    have hsame' : (s.goto t .writing).holders = s.holders :=
      Nat.add_right_cancel (hholders .writing)
    exact .goto (hsame ▸ h.read_eq) (hsame' ▸ h.write_eq)
  | release hpc =>
    simp only [hpc] at hreaders hholders
    have hsame : (s.goto t .idle).readers = s.readers := hreaders .idle
    have hless : (s.goto t .idle).holders + 1 = s.holders := hholders .idle
    have hone := h.holders_le
    exact .goto (hsame ▸ h.read_eq) (.inl ⟨rfl, by omega⟩)

end Invariant

/-- No thread is in the read section while one is in the write section. -/
def NoReader (s : RwLock Tid) : Prop := ∀ t u, s.pc t = .writing → s.pc u ≠ .reading

/-- Fewer than `2 ^ 32` readers are counted. -/
def Few [Fintype Tid] (s : RwLock Tid) (_ : RwAct Tid) : Prop := s.readers < 2 ^ 32

section Exclusion

variable [Fintype Tid] [DecidableEq Tid] {s s' : RwLock Tid} {t u : Tid} {a : RwAct Tid}

omit [Fintype Tid] in
theorem goto_eq {p q : RwPc} (h : (s.goto t p).pc u = q) (hne : p ≠ q) : u ≠ t ∧ s.pc u = q := by
  change update s.pc t p u = q at h
  by_cases hu : u = t
  · rw [hu, update_self] at h
    exact absurd h hne
  · rw [update_of_ne hu] at h
    exact ⟨hu, h⟩

omit [Fintype Tid] in
theorem NoReader.goto {p : RwPc} (h : s.NoReader) (hread : p ≠ .reading) (hwrite : p ≠ .writing) :
    (s.goto t p).NoReader :=
  fun u v hu hv => h u v (goto_eq hu hwrite).2 (goto_eq hv hread).2

/-- A reader gets in while `write` is 0, and a writer while `read` is. -/
theorem NoReader.moves (h : s.NoReader) (hinv : s.Inv) (hfew : s.readers < 2 ^ 32)
    (hmove : s.Moves t s') : s'.NoReader := by
  cases hmove with
  | spin => exact h
  | again hwrite => exact h
  | walk p hreads hholds hout => exact h.goto hout.1 hout.2
  | count hpc => exact NoReader.goto (s := { s with read := s.read + 1 }) h (by decide) (by decide)
  | enter hpc hwrite =>
    intro u v hu _
    have hwriting := (goto_eq hu (by decide)).2
    exact hinv.write_ne_zero hwriting hwrite
  | leave p hpc hp =>
    refine NoReader.goto (s := { s with read := s.read - 1 }) h ?_ ?_ <;>
      rcases hp with rfl | rfl <;> decide
  | seize hpc hwrite => exact NoReader.goto (s := { s with write := 1 }) h (by decide) (by decide)
  | write hpc hread =>
    -- No reader is counted, so none is inside.
    have hnone : s.readers = 0 := by
      have hmod : 0 = s.readers % 2 ^ 32 :=
        congrArg (fun r : Int32 => r.toBitVec.toNat) (hread.symm.trans hinv.read_eq)
      omega
    intro u v _ hv
    have hreading := (goto_eq hv (by decide)).2
    have hle := s.reads_le_readers v
    rw [hreading, hnone] at hle
    exact absurd hle (by decide)
  | release hpc => exact NoReader.goto (s := { s with write := 0 }) h (by decide) (by decide)

theorem inv_of_run {acts : List (RwAct Tid)} {guard : RwLock Tid → RwAct Tid → Prop}
    (hrun : Run step guard init acts s) : s.Inv :=
  hrun.invariant inv_init fun _ hnext hs => by
    obtain ⟨t, hmove⟩ := moves_of_step hnext
    exact hs.moves hmove

theorem noReader_of_run {acts : List (RwAct Tid)} (hrun : Run step Few init acts s) :
    s.NoReader := by
  have hboth : s.Inv ∧ s.NoReader := by
    refine hrun.invariant (P := fun s => s.Inv ∧ s.NoReader) ⟨inv_init, fun _ _ h => by cases h⟩ ?_
    rintro s a s' hfew hnext ⟨hinv, hs⟩
    obtain ⟨t, hmove⟩ := moves_of_step hnext
    exact ⟨hinv.moves hmove, hs.moves hinv hfew hmove⟩
  exact hboth.2

/-- In every run `read` is the number of the readers that are counted, modulo `2 ^ 32`, and the
writers exclude each other; a thread in the write section is alone if there were never `2 ^ 32`
such readers. -/
theorem exclusive_of_run {acts : List (RwAct Tid)} (hrun : Run step anyAction init acts s) :
    s.read = Int32.ofNat s.readers ∧ (s.readers < 2 ^ 31 → s.read.toInt = s.readers) ∧
      (∀ t u, t ≠ u → s.pc t = .writing → s.pc u ≠ .writing) ∧
      (Run step Few init acts s → s.Exclusive) := by
  have hinv := inv_of_run hrun
  refine ⟨hinv.read_eq, fun hsmall => ?_, fun t u hne ht => hinv.writer_alone hne ht,
    fun hfew t u hne ht => ⟨hinv.writer_alone hne ht, noReader_of_run hfew t u ht⟩⟩
  rw [hinv.read_eq, Int32.toInt_ofNat_of_lt hsmall]

omit [DecidableEq Tid] in
theorem readers_le_card (s : RwLock Tid) : s.readers ≤ Fintype.card Tid := by
  have hone (t : Tid) : (s.pc t).reads ≤ 1 := by cases s.pc t <;> decide
  have hle : s.readers ≤ ∑ _t : Tid, 1 := sum_le_sum fun t _ => hone t
  rwa [sum_const, card_univ, Nat.nsmul_eq_mul, Nat.mul_one] at hle

end Exclusion

/-- A reader is inside, and a writer waits for it. -/
def readerFirst : List (RwAct Bool) :=
  [.rlock false, .access false, .access false, .access false, .wlock true, .access true,
    .access true]

theorem exclusive_of_readerFirst : ∃ s : RwLock Bool, exec step init readerFirst = some s ∧
    s.read = Int32.ofNat s.readers ∧ s.read.toInt = s.readers ∧ s.Exclusive := by
  have hexec : exec step (init : RwLock Bool) readerFirst = some _ := rfl
  have hfew (s : RwLock Bool) : s.readers < 2 ^ 31 := s.readers_le_card.trans_lt (by decide)
  obtain ⟨hread, hexact, -, hexclusive⟩ := exclusive_of_run (run_of_exec hexec)
  exact ⟨_, hexec, hread, hexact (hfew _),
    hexclusive ((run_of_exec hexec).mono fun s _ _ => (hfew s).trans (by decide))⟩

/-! ### Too many readers -/

section Wrapped

variable [DecidableEq Tid] {s : RwLock Tid} {t : Tid}

theorem reachable_reading (h : Reachable step init s) (hpc : s.pc t = .idle)
    (hwrite : s.write = 0) :
    Reachable step init ({ s with read := s.read + 1 }.goto t .reading) := by
  have hcall : s.step (.rlock t) = some (s.goto t .readerWait) := if_pos hpc
  have hwait : (s.goto t .readerWait).step (.access t) = some (s.goto t .readerAdd) := by
    simp [step, access, goto, hwrite]
  have hadd : (s.goto t .readerAdd).step (.access t) =
      some ({ s with read := s.read + 1 }.goto t .readerCheck) := by
    simp [step, access, goto]
  have hcheck : ({ s with read := s.read + 1 }.goto t .readerCheck).step (.access t) =
      some ({ s with read := s.read + 1 }.goto t .reading) := by
    simp [step, access, goto, hwrite]
  exact (((h.tail hcall).tail hwait).tail hadd).tail hcheck

theorem reachable_writing (h : Reachable step init s) (hpc : s.pc t = .idle)
    (hwrite : s.write = 0) (hread : s.read = 0) :
    Reachable step init ({ s with write := 1 }.goto t .writing) := by
  have hcall : s.step (.wlock t) = some (s.goto t .writerSet) := if_pos hpc
  have hset : (s.goto t .writerSet).step (.access t) =
      some ({ s with write := 1 }.goto t .writerWait) := by
    simp [step, access, goto, hwrite]
  have hwait : ({ s with write := 1 }.goto t .writerWait).step (.access t) =
      some ({ s with write := 1 }.goto t .writing) := by
    simp [step, access, goto, hread]
  exact ((h.tail hcall).tail hset).tail hwait

theorem exists_reading {κ : Type} [DecidableEq κ] (S : Finset κ) :
    ∃ s : RwLock (Option κ), Reachable step init s ∧ s.write = 0 ∧ s.read = ofNat S.card ∧
      s.pc none = .idle ∧ ∀ k, s.pc (some k) = if k ∈ S then .reading else .idle := by
  induction S using Finset.induction_on with
  | empty => exact ⟨init, .refl _, rfl, rfl, rfl, fun k => by simp [init]⟩
  | insert k S hk ih =>
    obtain ⟨s, hreach, hwrite, hread, hnone, hpc⟩ := ih
    have hidle : s.pc (some k) = .idle := by rw [hpc, if_neg hk]
    refine ⟨_, reachable_reading hreach hidle hwrite, hwrite, ?_, ?_, fun l => ?_⟩
    · change s.read + 1 = _
      rw [hread, card_insert_of_notMem hk, ofNat_add]
      rfl
    · change update s.pc (some k) .reading none = _
      rw [update_of_ne (some_ne_none k).symm, hnone]
    · change update s.pc (some k) .reading (some l) = _
      by_cases hl : l = k
      · rw [hl, update_self, if_pos (mem_insert_self k S)]
      · rw [update_of_ne (by simpa using hl), hpc]
        simp [hl]

/-- With so many readers that `read` is 0 a writer goes in as well. -/
theorem exists_wrapped {n : ℕ} (hn : ofNat n = 0) (k : Fin n) :
    ∃ s : RwLock (Option (Fin n)), Reachable step init s ∧ ¬ s.Exclusive ∧
      s.read.toInt ≠ s.readers := by
  obtain ⟨s, hreach, hwrite, hread, hnone, hpc⟩ := exists_reading (Finset.univ : Finset (Fin n))
  rw [card_univ, Fintype.card_fin, hn] at hread
  have hreading : ({ s with write := 1 }.goto none .writing : RwLock (Option (Fin n))).pc (some k)
      = .reading := by
    change update s.pc none .writing (some k) = _
    rw [update_of_ne (some_ne_none k), hpc, if_pos (mem_univ k)]
  have hwriting : ({ s with write := 1 }.goto none .writing : RwLock (Option (Fin n))).pc none
      = .writing := by
    change update s.pc none .writing none = _
    rw [update_self]
  refine ⟨_, reachable_writing hreach hnone hwrite hread, fun hexclusive => ?_, fun heq => ?_⟩
  · exact (hexclusive none (some k) (some_ne_none k).symm hwriting).2 hreading
  · have hle := reads_le_readers ({ s with write := 1 }.goto none .writing) (some k)
    rw [hreading] at hle
    have hzero : s.read.toInt = 0 := by rw [hread, toInt_zero]
    change s.read.toInt = _ at heq
    rw [hzero] at heq
    rw [RwPc.reads] at hle
    omega

/-- `2 ^ 32` readers, and a writer. -/
theorem wrapped_read : ∃ s : RwLock (Option (Fin (2 ^ 32))), Reachable step init s ∧
    ¬ s.Exclusive ∧ s.read.toInt ≠ s.readers :=
  exists_wrapped (by decide) ⟨0, Nat.two_pow_pos 32⟩

end Wrapped

end RwLock

end Uboss.Core
