import Uboss.Lib.StmRefs

/-!
# Objects are freed once and never used afterwards

The counts are exact in every state, so that a thread that gives up the last reference is the only
one that still has the object or the copy. The exception is `stm_releasereader`: it unlocks the
object after it has given up its reference, and another reader may have freed it by then. As long
as this does not happen nothing is used after it was freed.
-/

namespace Uboss.Lib

open Math Function List Nat StmShared StmReader

section Local

variable {sh sh' : StmShared} {x y : StmReader} {pc : ReaderPc} {w w' : WriterPc} {c : ℕ}

/-- A reader without a reference to the object and without its lock does not use it. -/
theorem ReaderPc.touchesObject_eq_false (hrefs : pc.refs = 0) (hlocks : pc.locks = 0) :
    pc.touchesObject = false := by
  cases pc with
  | grab g => cases g <;> cases hrefs
  | absent | idle | drop d why | resume why | gone => rfl
  | releaseFree | releaseUnlock => cases hlocks
  | _ => cases hrefs

/-- Without a reference to the object `stm_release` is at its end. -/
theorem WriterPc.reset_of_refs (hrefs : w.refs = 0) : w.reset = true := by
  cases w with
  | grab g => cases g <;> cases hrefs
  | releaseUnlock | releaseFree | gone => rfl
  | _ => cases hrefs

theorem WriterPc.eq_gone (hrefs : w.refs = 0) (hwriting : w.writing = false) : w = .gone := by
  cases w with
  | grab g => cases g <;> cases hrefs
  | gone => rfl
  | releaseUnlock | releaseFree => cases hwriting
  | _ => cases hrefs

/-- The writer does not hold the read lock together with the write lock. -/
theorem WriterPc.locks_eq_zero (hwriting : w.writing = true) : w.locks = 0 := by
  cases w with
  | grab g => cases hwriting
  | _ => rfl

/-- Outside `stm_release` the writer leaves `obj->copy` its reference. -/
theorem WriterPc.holds_pos (hwriting : w.writing = false) : 0 < w.holds c (some c) := by
  cases w with
  | drop d why =>
    cases why with
    | updated => simp [WriterPc.holds]
    | released => cases hwriting
  | releaseReset => cases hwriting
  | _ => simp [WriterPc.holds]

/-- The copy that `stm_releasecopy` works on has a reference left, or it is being freed. -/
theorem DropPc.holds_or_freeing (d : DropPc) :
    0 < d.holds d.copy ∨ 0 < d.freeing (.copy d.copy) := by
  cases d <;> simp [DropPc.holds, DropPc.freeing, DropPc.copy]

theorem WriterPc.holds_or_freeing (copy : Option ℕ) (h : w.touchesCopy = some c) :
    0 < w.holds c copy ∨ 0 < w.freeing (.copy c) := by
  cases w with
  | drop d why =>
    cases h
    rw [WriterPc.holds_drop]
    exact d.holds_or_freeing.imp (fun h => by omega) id
  | _ => cases h

theorem ReaderPc.holds_or_freeing (last : Option ℕ) (h : pc.touchesCopy = some c) :
    pc = .copyInc c ∨ 0 < pc.holds c last ∨ 0 < pc.freeing (.copy c) := by
  cases pc with
  | copyInc c' =>
    cases h
    exact .inl rfl
  | drop d why =>
    cases h
    rw [ReaderPc.holds_drop]
    exact .inr (d.holds_or_freeing.imp (fun h => by omega) id)
  | resume why =>
    cases why with
    | replace copy =>
      have hcopy : copy = some c := h
      simp [ReaderPc.holds, hcopy]
    | _ => cases h
  | _ => cases h

theorem StmShared.grab_error {g : GrabPc} {e : StmError} (hg : ∀ ref, g = .unlock ref → 0 < ref)
    (he : sh.grab g = .error e) : e = .disabled := by
  cases g with
  | lock =>
    simp only [grab, rlock] at he
    split at he <;> cases he
    rfl
  | inc => cases he
  | unlock ref =>
    simp only [grab, if_pos (hg ref rfl)] at he
    cases he

/-- A count that is zero is not touched. -/
theorem ref_drop_of_zero {d : DropPc} (hd : d.holds c = 0) (href : sh.ref c = 0) :
    (sh.drop d).1.ref c = 0 := by
  cases d with
  | dec c' =>
    have hne : c ≠ c' := by
      rintro rfl
      simp [DropPc.holds] at hd
    exact (update_of_ne hne ..).trans href
  | freeMsg c' => exact href
  | freeCopy c' => exact href

namespace ReaderMove

section

variable (h : ReaderMove sh x pc sh' y)
include h

theorem locks_pos (hlocks : 0 < y.pc.locks) :
    0 < pc.locks ∨ sh.write = false ∧ pc.touchesObject = true := by
  cases h with
  | grab hg =>
    cases hg with
    | lock hwrite => exact .inr ⟨hwrite, rfl⟩
    | inc => exact .inl one_pos
    | unlock => exact .inl one_pos
  | copyLock hwrite => exact .inr ⟨hwrite, rfl⟩
  | releaseLock hwrite => exact .inr ⟨hwrite, rfl⟩
  | drop d why =>
    have hnone : ((sh.drop d).2.elim (ReaderPc.resume why) (.drop · why)).locks = 0 := by
      cases (sh.drop d).2 <;> rfl
    exact absurd hlocks (by rw [goto, hnone]; omega)
  | same | replace | deleted => cases hlocks
  | _ => exact .inl one_pos

theorem object_mem (hmem : .object ∈ sh'.log) : .object ∈ sh.log ∨ pc = .releaseFree := by
  cases h with
  | grab hg =>
    rw [hg.frame.2.2.2.2.1] at hmem
    exact .inl hmem
  | drop d why => cases d <;> simpa [StmShared.drop, StmShared.free] using hmem
  | releaseFree => exact .inr rfl
  | _ => exact .inl hmem

theorem log_prefix : sh.log <+: sh'.log := by
  cases h with
  | grab hg => rw [hg.frame.2.2.2.2.1]
  | drop d why =>
    cases d with
    | dec c => exact prefix_rfl
    | _ => exact prefix_append ..
  | releaseFree => exact prefix_append ..
  | _ => exact prefix_rfl

/-- A reader that does not use the object begins to only in a new call. -/
theorem touchesObject (hpc : pc.touchesObject = false) : y.pc.touchesObject = false := by
  cases h with
  | drop d why => cases hnext : (sh.drop d).2 <;> rfl
  | same | replace | deleted => rfl
  | _ => cases hpc

end

theorem ref_eq_zero (h : ReaderMove sh x x.pc sh' y) (href : sh.ref c = 0) (hx : x.holds c = 0) :
    sh'.ref c = 0 := by
  unfold StmReader.holds at hx
  generalize x.pc = pc at h hx
  cases h with
  | grab hg =>
    rw [hg.frame.2.2.1]
    exact href
  | copyInc c' hpos =>
    have hne : c ≠ c' := by
      rintro rfl
      omega
    exact (update_of_ne hne ..).trans href
  | drop d why =>
    refine ref_drop_of_zero ?_ href
    rw [ReaderPc.holds_drop] at hx
    omega
  | _ => exact href

theorem inc (h : ReaderMove sh x pc sh' y) (hy : y.pc = .copyInc c) : sh.copy = some c := by
  cases h with
  | grab hg => cases hg <;> cases hy
  | copyLoad =>
    cases hcopy : sh.copy with
    | none =>
      rw [hcopy] at hy
      cases hy
    | some c' =>
      rw [hcopy] at hy
      cases hy
      rfl
  | copySame | copyOther | releaseFree | releaseUnlock =>
    cases hlast : x.lastcopy <;> rw [hlast] at hy <;> cases hy
  | drop d why => cases hnext : (sh.drop d).2 <;> rw [hnext] at hy <;> cases hy
  | releaseDec =>
    simp only [goto] at hy
    split at hy <;> cases hy
  | _ => cases hy

theorem grabbed (h : ReaderMove sh x pc sh' y) {ref : ℤ} (hy : y.pc = .grab (.unlock ref)) :
    ref = sh.reference ∧ 0 < pc.refs := by
  cases h with
  | grab hg =>
    cases hg with
    | inc =>
      cases hy
      exact ⟨rfl, one_pos⟩
    | _ => cases hy
  | copyLoad => cases hcopy : sh.copy <;> rw [hcopy] at hy <;> cases hy
  | copySame | copyOther | releaseFree | releaseUnlock =>
    cases hlast : x.lastcopy <;> rw [hlast] at hy <;> cases hy
  | drop d why => cases hnext : (sh.drop d).2 <;> rw [hnext] at hy <;> cases hy
  | releaseDec =>
    simp only [goto] at hy
    split at hy <;> cases hy
  | _ => cases hy

end ReaderMove

namespace WriterMove

variable (h : WriterMove sh w sh' w')
include h

theorem object_mem (hmem : .object ∈ sh'.log) : .object ∈ sh.log ∨ w = .releaseFree := by
  cases h with
  | grab hg =>
    rw [hg.frame.2.2.2.2.1] at hmem
    exact .inl hmem
  | drop d why => cases d <;> simpa [StmShared.drop, StmShared.free] using hmem
  | releaseFree => exact .inr rfl
  | _ => exact .inl hmem

theorem log_prefix : sh.log <+: sh'.log := by
  cases h with
  | grab hg => rw [hg.frame.2.2.2.2.1]
  | drop d why =>
    cases d with
    | dec c => exact prefix_rfl
    | _ => exact prefix_append ..
  | releaseFree => exact prefix_append ..
  | _ => exact prefix_rfl

theorem touchesObject (hrefs : w.refs = 0) : w.touchesObject = true := by
  cases h with
  | drop d why => cases hrefs
  | _ => rfl

theorem ref_eq_zero (href : sh.ref c = 0) (hw : w.holds c sh.copy = 0) : sh'.ref c = 0 := by
  cases h with
  | grab hg =>
    rw [hg.frame.2.2.1]
    exact href
  | drop d why =>
    refine ref_drop_of_zero ?_ href
    rw [WriterPc.holds_drop] at hw
    omega
  | _ => exact href

theorem store {new : ℕ} {old : Option ℕ} (hw : w' = .updateStore new old) : old = sh'.copy := by
  cases h with
  | grab hg => cases hg <;> cases hw
  | updateLoad copy =>
    cases hw
    rfl
  | updateUnlock old => cases old <;> cases hw
  | drop d why => cases hnext : (sh.drop d).2 <;> rw [hnext] at hw <;> cases why <;> cases hw
  | releaseLoad => cases hcopy : sh.copy <;> rw [hcopy] at hw <;> cases hw
  | releaseDec => split at hw <;> cases hw
  | _ => cases hw

theorem grabbed {ref : ℤ} (hw : w' = .grab (.unlock ref)) : ref = sh.reference ∧ 0 < w.refs := by
  cases h with
  | grab hg =>
    cases hg with
    | inc =>
      cases hw
      exact ⟨rfl, one_pos⟩
    | _ => cases hw
  | updateUnlock old => cases old <;> cases hw
  | drop d why => cases hnext : (sh.drop d).2 <;> rw [hnext] at hw <;> cases why <;> cases hw
  | releaseLoad => cases hcopy : sh.copy <;> rw [hcopy] at hw <;> cases hw
  | releaseDec => split at hw <;> cases hw
  | _ => cases hw

end WriterMove

end Local

namespace Stm

section Inv

variable {R : Type} [Fintype R] (s : Stm R)

/-- Who has a reference to what is to be freed: for the object the writer, the readers and the
pointers that were handed out, for a copy and its message the object and the threads. -/
def holders : StmFree → ℕ
  | .object => s.shared.handed + s.writer.refs + ∑ r, (s.reader r).pc.refs
  | .msg c | .copy c => s.writer.holds c s.shared.copy + ∑ r, (s.reader r).holds c

/-- The thread that has given up the last reference and has still to call `uboss_free`. -/
def freeing (f : StmFree) : ℕ := s.writer.freeing f + ∑ r, (s.reader r).pc.freeing f

/-- The shares of the read lock. -/
def readLocks : ℕ := s.writer.locks + ∑ r, (s.reader r).pc.locks

/-- The object, or a copy that was made. -/
def Made : StmFree → Prop
  | .object => True
  | .msg c | .copy c => c < s.shared.next

instance : DecidablePred s.Made
  | .object => .isTrue trivial
  | .msg _ | .copy _ => inferInstanceAs (Decidable (_ < _))

/-- The counts, the lock and what was freed. -/
structure Inv : Prop where
  reference : s.shared.reference = s.holders .object
  ref : ∀ c, s.shared.ref c = s.holders (.copy c)
  fresh : ∀ c, s.shared.next ≤ c → s.shared.ref c = 0
  freed : ∀ f, s.shared.log.count f + s.freeing f = s.shared.due f
  read : .object ∉ s.shared.log → s.shared.read = s.readLocks
  write : .object ∉ s.shared.log → s.shared.write = s.writer.writing
  exclusive : s.writer.writing = true → s.readLocks = 0
  quiet : .object ∈ s.shared.log →
    s.writer.touchesObject = false ∧ ∀ r, (s.reader r).pc.touchesObject = false
  reset : s.shared.copy = none ↔ s.writer.reset = true
  store : ∀ new old, s.writer = .updateStore new old → old = s.shared.copy
  inc : ∀ r c, (s.reader r).pc = .copyInc c → s.shared.copy = some c
  grabW : ∀ ref, s.writer = .grab (.unlock ref) → 0 < ref
  grabR : ∀ r ref, (s.reader r).pc = .grab (.unlock ref) → 0 < ref

variable {s} {r : R} {sh' : StmShared} {y : StmReader} {c : ℕ}

namespace Inv

variable {w' : WriterPc} {a : StmAction R} {e : StmError}

theorem reference_pos (h : s.Inv) (hheld : 0 < s.writer.refs) : 0 < s.shared.reference := by
  have hcount := h.reference
  simp only [holders] at hcount
  omega

theorem reference_pos_of_reader (h : s.Inv) (hheld : 0 < (s.reader r).pc.refs) :
    0 < s.shared.reference := by
  have hreader := le_sum_thread (fun x : StmReader => x.pc.refs) s.reader r
  have hcount := h.reference
  simp only [holders] at hcount
  omega

theorem made_of_holders (h : s.Inv) (hheld : 0 < s.holders (.copy c)) :
    c < s.shared.next ∧ 0 < s.shared.ref c := by
  have hcount := h.ref c
  have hpos : 0 < s.shared.ref c := by omega
  refine ⟨?_, hpos⟩
  by_contra hle
  have hzero := h.fresh c (not_lt.mp hle)
  omega

theorem made_of_holds (h : s.Inv) (hheld : 0 < s.writer.holds c s.shared.copy) :
    c < s.shared.next ∧ 0 < s.shared.ref c :=
  h.made_of_holders (Nat.lt_of_lt_of_le hheld (Nat.le_add_right ..))

theorem ref_pos (h : s.Inv) (hheld : 0 < (s.reader r).holds c) :
    c < s.shared.next ∧ 0 < s.shared.ref c := by
  have hreader := le_sum_thread (holds c) s.reader r
  apply h.made_of_holders
  simp only [holders]
  omega

theorem not_freed (h : s.Inv) (hpos : 0 < s.shared.ref c) : .copy c ∉ s.shared.log := by
  intro hmem
  have hfreed := h.freed (.copy c)
  have hcount := count_pos_iff.mpr hmem
  rw [due, if_neg fun h => hpos.ne' h.2] at hfreed
  omega

theorem not_freed_of_freeing (h : s.Inv) {f : StmFree} (hpos : 0 < s.freeing f) :
    f ∉ s.shared.log := by
  intro hmem
  have hfreed := h.freed f
  have hcount := count_pos_iff.mpr hmem
  have hdue : s.shared.due f ≤ 1 := by
    cases f <;> simp only [due] <;> split <;> omega
  omega

/-- When the object was freed or is being freed, nobody has a reference to it. -/
theorem unreferenced (h : s.Inv) (hdue : 0 < s.shared.log.count .object + s.freeing .object) :
    s.shared.reference = 0 ∧ s.writer.refs = 0 ∧ (∀ r, (s.reader r).pc.refs = 0) ∧
      s.shared.handed = 0 := by
  have hzero : s.shared.reference = 0 := by
    have hfreed := h.freed .object
    simp only [due] at hfreed
    split at hfreed
    · assumption
    · omega
  have hcount := h.reference
  simp only [holders] at hcount
  refine ⟨hzero, by omega, fun r => ?_, by omega⟩
  have hreader := le_sum_thread (fun x : StmReader => x.pc.refs) s.reader r
  omega

theorem live (h : s.Inv) (hpos : 0 < s.shared.reference) : .object ∉ s.shared.log := by
  intro hmem
  have hcount := count_pos_iff.mpr hmem
  have hzero := (h.unreferenced (Nat.lt_of_lt_of_le hcount (Nat.le_add_right ..))).1
  omega

/-- While a reader has a share of the lock, the writer does not write. -/
theorem not_writing (h : s.Inv) (hlocks : 0 < (s.reader r).pc.locks) :
    s.writer.writing = false := by
  by_contra hwriting
  have hzero := h.exclusive (Bool.not_eq_false _ ▸ hwriting)
  have hreader := le_sum_thread (fun x : StmReader => x.pc.locks) s.reader r
  simp only [readLocks] at hzero
  omega

/-- While a reader counts its reference to the current copy, the copy has one already. -/
theorem ref_pos_of_inc (h : s.Inv) (hpc : (s.reader r).pc = .copyInc c) :
    c < s.shared.next ∧ 0 < s.shared.ref c := by
  have hwriting := h.not_writing (r := r) (by rw [hpc]; exact one_pos)
  apply h.made_of_holds
  rw [h.inc r c hpc]
  exact WriterPc.holds_pos hwriting

theorem setWriter (h : s.Inv) (sh' : StmShared)
    (hrefs : sh'.reference + s.writer.refs + s.shared.handed =
      s.shared.reference + w'.refs + sh'.handed)
    (hholds : ∀ c, sh'.ref c + s.writer.holds c s.shared.copy =
      s.shared.ref c + w'.holds c sh'.copy)
    (hfreeing : ∀ f, sh'.log.count f + w'.freeing f + s.shared.due f =
      s.shared.log.count f + s.writer.freeing f + sh'.due f)
    (hmem : .object ∉ sh'.log → .object ∉ s.shared.log)
    (hlocks : sh'.read + s.writer.locks = s.shared.read + w'.locks)
    (hwrite : .object ∉ sh'.log → sh'.write = w'.writing)
    (hfresh : ∀ c, sh'.next ≤ c → sh'.ref c = 0) (hexclusive : w'.writing = true → s.readLocks = 0)
    (hquiet : .object ∈ sh'.log → w'.touchesObject = false ∧
      ∀ r, (s.reader r).pc.touchesObject = false) (hreset : sh'.copy = none ↔ w'.reset = true)
    (hstore : ∀ new old, w' = .updateStore new old → old = sh'.copy)
    (hinc : ∀ r c, (s.reader r).pc = .copyInc c → sh'.copy = some c)
    (hgrab : ∀ ref, w' = .grab (.unlock ref) → 0 < ref) :
    Inv { s with shared := sh', writer := w' } where
  reference := by
    have hcount := h.reference
    simp only [holders] at hcount ⊢
    omega
  ref c := by
    have hcount := h.ref c
    have hchange := hholds c
    simp only [holders] at hcount ⊢
    omega
  fresh := hfresh
  freed f := by
    have hcount := h.freed f
    have hchange := hfreeing f
    simp only [freeing] at hcount ⊢
    omega
  read hobject := by
    have hcount := h.read (hmem hobject)
    show sh'.read = ((w'.locks + ∑ r, (s.reader r).pc.locks : ℕ) : ℤ)
    simp only [readLocks] at hcount
    omega
  write := hwrite
  exclusive hwriting := by
    have hzero := hexclusive hwriting
    have hw : w'.locks = 0 := WriterPc.locks_eq_zero hwriting
    simp only [readLocks] at hzero ⊢
    omega
  quiet := hquiet
  reset := hreset
  store := hstore
  inc := hinc
  grabW := hgrab
  grabR := h.grabR

/-- A step of the writer. It frees the object only when no reader is left. -/
theorem writer (h : s.Inv) (hvalid : s.shared.Valid s.writer.touchesObject s.writer.touchesCopy)
    (hmove : WriterMove s.shared s.writer sh' w') :
    Inv { s with shared := sh', writer := w' } := by
  obtain ⟨hnext, hcopy⟩ := hmove.frame
  have hobject : 0 < s.writer.refs → 0 < s.shared.reference := h.reference_pos
  have hheld := fun c => h.made_of_holds (c := c)
  have hwriting : .object ∉ sh'.log → s.shared.write = s.writer.writing :=
    fun hobject' => h.write fun hmem => hobject' (hmove.log_prefix.subset hmem)
  apply h.setWriter sh' hmove.refs (hmove.holds h.store) (hmove.freeing hobject hheld)
  · exact fun hobject' hmem => hobject' (hmove.log_prefix.subset hmem)
  · exact hmove.locks
  · intro hobject'
    apply hmove.writing (hwriting hobject')
    intro hw
    rw [hw] at hmove
    cases hmove
    exact hobject' (mem_append_right _ (mem_singleton_self _))
  · intro c hc
    apply hmove.ref_eq_zero (h.fresh c (hnext ▸ hc))
    by_contra hpos
    have hmade := (hheld c (pos_of_ne_zero hpos)).1
    omega
  · intro hafter
    by_cases hbefore : s.writer.writing = true
    · exact h.exclusive hbefore
    · -- the writer has just got the lock
      have hfalse : s.writer.writing = false := Bool.eq_false_iff.mpr hbefore
      obtain ⟨hzero, htouch⟩ := hmove.read_eq_zero hfalse hafter
      have hread := h.read (hvalid.1 htouch)
      omega
  · intro hmem
    rcases hmove.object_mem hmem with hold | hw
    · have hcount := count_pos_iff.mpr hold
      obtain ⟨-, hrefs, -⟩ := h.unreferenced (Nat.lt_of_lt_of_le hcount (Nat.le_add_right ..))
      have htouch := hmove.touchesObject hrefs
      rw [(h.quiet hold).1] at htouch
      cases htouch
    · have hzero := h.exclusive (by rw [hw]; rfl)
      have hfree : 0 < s.freeing .object := by
        rw [freeing, hw]
        exact Nat.lt_of_lt_of_le Nat.one_pos (Nat.le_add_right ..)
      obtain ⟨-, -, hreaders, -⟩ := h.unreferenced (Nat.lt_of_lt_of_le hfree (Nat.le_add_left ..))
      refine ⟨?_, fun r => ?_⟩
      · rw [hw] at hmove
        cases hmove
        rfl
      · apply ReaderPc.touchesObject_eq_false (hreaders r)
        have hsum := le_sum_thread (fun x : StmReader => x.pc.locks) s.reader r
        simp only [readLocks] at hzero
        omega
  · exact hmove.reset h.reset
  · exact fun new old hw => hmove.store hw
  · intro r c hpc
    rw [hcopy (h.not_writing (r := r) (by rw [hpc]; exact one_pos))]
    exact h.inc r c hpc
  · intro ref hw
    obtain ⟨rfl, hrefs⟩ := hmove.grabbed hw
    exact hobject hrefs

theorem newWriter : (newWriter : Stm R).Inv where
  reference := by simp [Stm.newWriter, holders, WriterPc.refs, ReaderPc.refs]
  ref c := by
    by_cases hc : c = 0
    · simp [Stm.newWriter, holders, WriterPc.holds, holds, ReaderPc.holds, hc]
    · simp [Stm.newWriter, holders, WriterPc.holds, holds, ReaderPc.holds, hc, Ne.symm hc]
  fresh c hc := if_neg (one_le_iff_ne_zero.mp hc)
  freed f := by
    cases f with
    | object => simp [Stm.newWriter, freeing, due, WriterPc.freeing, ReaderPc.freeing]
    | msg c | copy c =>
      -- the one copy that was made has its reference
      have hnone : ¬ (c < (Stm.newWriter : Stm R).shared.next ∧
          (Stm.newWriter : Stm R).shared.ref c = 0) := by
        rintro ⟨hlt, href⟩
        obtain rfl : c = 0 := lt_one_iff.mp hlt
        cases href
      rw [due, if_neg hnone]
      simp [Stm.newWriter, freeing, WriterPc.freeing, ReaderPc.freeing]
  read _ := by simp [Stm.newWriter, readLocks, WriterPc.locks, ReaderPc.locks]
  write _ := rfl
  exclusive h := by cases h
  quiet h := by cases h
  reset := by simp [Stm.newWriter, WriterPc.reset]
  store _ _ h := by cases h
  inc _ _ h := by cases h
  grabW _ h := by cases h
  grabR _ _ h := by cases h

theorem callWriter (h : s.Inv) (hidle : s.writer = .idle)
    (hw : w' = .grab .lock ∨ w' = .releaseAssert) : Inv { s with writer := w' } := by
  have hlive := h.live (h.reference_pos (by rw [hidle]; exact one_pos))
  have hreset := h.reset
  have hwrite := h.write hlive
  rw [hidle] at hreset hwrite
  apply h.setWriter s.shared
  · rcases hw with rfl | rfl <;> rw [hidle] <;> rfl
  · intro c
    rcases hw with rfl | rfl <;> rw [hidle] <;> rfl
  · intro f
    rcases hw with rfl | rfl <;> rw [hidle] <;> cases f <;> rfl
  · exact id
  · rcases hw with rfl | rfl <;> rw [hidle] <;> rfl
  · rcases hw with rfl | rfl <;> exact fun _ => hwrite
  · exact h.fresh
  · rcases hw with rfl | rfl <;> exact fun h => by cases h
  · exact fun hmem => absurd hmem hlive
  · rcases hw with rfl | rfl <;> exact hreset
  · rcases hw with rfl | rfl <;> exact fun _ _ h => by cases h
  · exact h.inc
  · rcases hw with rfl | rfl <;> exact fun _ h => by cases h

theorem newcopy (h : s.Inv) (hidle : s.writer = .idle) : s.newcopy.Inv := by
  have hlive := h.live (h.reference_pos (by rw [hidle]; exact one_pos))
  have hzero := h.fresh s.shared.next le_rfl
  have hreset := h.reset
  have hwrite := h.write hlive
  rw [hidle] at hreset hwrite
  have hself : update s.shared.ref s.shared.next 1 s.shared.next = 1 := update_self ..
  have hother : ∀ c, c ≠ s.shared.next → update s.shared.ref s.shared.next 1 c = s.shared.ref c :=
    fun c hc => update_of_ne hc ..
  unfold Stm.newcopy
  apply h.setWriter
  · rw [hidle]
    rfl
  · intro c
    rw [hidle]
    dsimp only
    simp only [WriterPc.holds]
    by_cases hc : c = s.shared.next
    · subst hc
      rw [hself, hzero, if_pos rfl]
      omega
    · rw [hother c hc, if_neg (Ne.symm hc), add_zero]
  · intro f
    rw [hidle]
    cases f with
    | object => rfl
    | msg c | copy c =>
      simp only [due, WriterPc.freeing]
      by_cases hc : c = s.shared.next
      · subst hc
        simp
      · have hlt : c < s.shared.next + 1 ↔ c < s.shared.next := by omega
        simp [hother c hc, hlt]
  · exact id
  · rw [hidle]
    rfl
  · exact fun _ => hwrite
  · intro c hc
    have hne : c ≠ s.shared.next := by
      dsimp only at hc
      omega
    exact (hother c hne).trans (h.fresh c (le_of_succ_le hc))
  · exact fun h => by cases h
  · exact fun hmem => absurd hmem hlive
  · exact hreset
  · exact fun _ _ h => by cases h
  · exact h.inc
  · exact fun _ h => by cases h

theorem valid_writer (h : s.Inv) : s.shared.Valid s.writer.touchesObject s.writer.touchesCopy := by
  refine ⟨fun htouch hmem => ?_, fun c hc => ?_⟩
  · rw [(h.quiet hmem).1] at htouch
    cases htouch
  · rcases WriterPc.holds_or_freeing s.shared.copy hc with hheld | hfree
    · exact h.not_freed (h.made_of_holds hheld).2
    · exact h.not_freed_of_freeing (Nat.lt_of_lt_of_le hfree (Nat.le_add_right ..))

theorem valid_reader (h : s.Inv) (r : R) :
    s.shared.Valid (s.reader r).pc.touchesObject (s.reader r).pc.touchesCopy := by
  refine ⟨fun htouch hmem => ?_, fun c hc => ?_⟩
  · rw [(h.quiet hmem).2 r] at htouch
    cases htouch
  · rcases ReaderPc.holds_or_freeing (s.reader r).lastcopy hc with hinc | hheld | hfree
    · exact h.not_freed (h.ref_pos_of_inc hinc).2
    · exact h.not_freed (h.ref_pos hheld).2
    · have hsum := le_sum_thread (fun x : StmReader => x.pc.freeing (.copy c)) s.reader r
      apply h.not_freed_of_freeing
      simp only [freeing]
      omega

theorem writer_error (h : s.Inv) (he : s.writer.step s.shared = .error e) : e = .disabled := by
  generalize hw : s.writer = w at he
  cases w with
  | idle | gone =>
    cases he
    rfl
  | grab g =>
    exact StmShared.grab_error (fun ref hg => h.grabW ref (hg ▸ hw)) (map_eq_error_iff.mp he)
  | updateLock copy | releaseLock =>
    have hlock := map_eq_error_iff.mp he
    unfold wlock at hlock
    split at hlock <;> cases hlock
    rfl
  | releaseAssert =>
    have hcopy : s.shared.copy ≠ none := by
      rw [ne_eq, h.reset, hw]
      decide
    simp only [WriterPc.step, if_neg hcopy] at he
    cases he
  | _ => cases he

theorem reader_error (h : s.Inv) (he : (s.reader r).step s.shared = .error e) : e = .disabled := by
  unfold StmReader.step at he
  generalize hpc : (s.reader r).pc = pc at he
  cases pc with
  | absent | idle | gone =>
    cases he
    rfl
  | grab g =>
    exact StmShared.grab_error (fun ref hg => h.grabR r ref (hg ▸ hpc)) (map_eq_error_iff.mp he)
  | copyLock | releaseLock =>
    have hlock := map_eq_error_iff.mp he
    unfold rlock at hlock
    split at hlock <;> cases hlock
    rfl
  | copyInc c =>
    simp only [if_pos (h.ref_pos_of_inc hpc).2] at he
    cases he
  | releaseFree =>
    -- no reference is left: the writer was released
    have hsum := le_sum_thread (fun x : StmReader => x.pc.freeing .object) s.reader r
    rw [hpc] at hsum
    have hfree : 0 < s.freeing .object := lt_of_lt_of_le one_pos (le_add_left_of_le hsum)
    obtain ⟨-, hrefs, -⟩ := h.unreferenced (Nat.lt_of_lt_of_le hfree (Nat.le_add_left ..))
    simp only [if_pos (h.reset.mpr (WriterPc.reset_of_refs hrefs))] at he
    cases he
  | resume why => cases why <;> cases he
  | _ => cases he

/-- What was made is freed once, when no holder is left and the last one has called `uboss_free`. -/
theorem count_log (h : s.Inv) (f : StmFree) :
    s.shared.log.count f = if s.Made f ∧ s.holders f = 0 ∧ s.freeing f = 0 then 1 else 0 := by
  have hfreed := h.freed f
  have hdue : s.shared.due f = if s.Made f ∧ s.holders f = 0 then 1 else 0 := by
    cases f with
    | object =>
      have hcount : s.shared.reference = 0 ↔ s.holders .object = 0 := by
        rw [h.reference, Int.natCast_eq_zero]
      simp [due, Made, hcount]
    | msg c | copy c =>
      have hcount : s.shared.ref c = 0 ↔ s.holders (.copy c) = 0 := by
        rw [h.ref c, Int.natCast_eq_zero]
      simp only [due, Made, hcount]
      rfl
  rw [hdue] at hfreed
  by_cases hgone : s.Made f ∧ s.holders f = 0
  · rw [if_pos hgone] at hfreed
    split <;> rename_i hrest
    · omega
    · have hpos : s.freeing f ≠ 0 := fun hzero => hrest ⟨hgone.1, hgone.2, hzero⟩
      omega
  · rw [if_neg hgone] at hfreed
    rw [if_neg fun hrest => hgone ⟨hrest.1, hrest.2.1⟩]
    omega

variable [DecidableEq R]

/-- A reader changes, and the memory with it: what it gains or gives up is counted. -/
theorem setReader (h : s.Inv) (hrefs : sh'.reference + (s.reader r).pc.refs + s.shared.handed =
      s.shared.reference + y.pc.refs + sh'.handed)
    (hholds : ∀ c, sh'.ref c + (s.reader r).holds c = s.shared.ref c + y.holds c)
    (hfreeing : ∀ f, sh'.log.count f + y.pc.freeing f + s.shared.due f =
      s.shared.log.count f + (s.reader r).pc.freeing f + sh'.due f)
    (hframe : sh'.copy = s.shared.copy ∧ sh'.write = s.shared.write ∧ sh'.next = s.shared.next)
    (hmem : .object ∉ sh'.log → .object ∉ s.shared.log)
    (hlocks : .object ∉ sh'.log → sh'.read + (s.reader r).pc.locks = s.shared.read + y.pc.locks)
    (hfresh : ∀ c, s.shared.next ≤ c → sh'.ref c = 0)
    (hexclusive : s.writer.writing = true → y.pc.locks = 0)
    (hquiet : .object ∈ sh'.log → s.writer.touchesObject = false ∧ y.pc.touchesObject = false ∧
      ∀ r' ≠ r, (s.reader r').pc.touchesObject = false)
    (hinc : ∀ c, y.pc = .copyInc c → s.shared.copy = some c)
    (hgrab : ∀ ref, y.pc = .grab (.unlock ref) → 0 < ref) :
    (s.setReader r sh' y).Inv := by
  obtain ⟨hcopy, hwrite, hnext⟩ := hframe
  have hself : (s.setReader r sh' y).reader r = y := update_self ..
  have hother : ∀ r' ≠ r, (s.setReader r sh' y).reader r' = s.reader r' :=
    fun r' hr => update_of_ne hr ..
  constructor
  · have hsum := sum_update_add (fun x : StmReader => x.pc.refs) s.reader r y
    have hcount := h.reference
    simp only [holders] at hcount ⊢
    show sh'.reference = ((sh'.handed + s.writer.refs +
      ∑ u, (update s.reader r y u).pc.refs : ℕ) : ℤ)
    omega
  · intro c
    have hsum := sum_update_add (holds c) s.reader r y
    have hcount := h.ref c
    have hchange := hholds c
    simp only [holders] at hcount ⊢
    show sh'.ref c = ((s.writer.holds c sh'.copy + ∑ u, (update s.reader r y u).holds c : ℕ) : ℤ)
    rw [hcopy]
    omega
  · exact fun c hc => hfresh c (hnext ▸ hc)
  · intro f
    have hsum := sum_update_add (fun x : StmReader => x.pc.freeing f) s.reader r y
    have hcount := h.freed f
    have hchange := hfreeing f
    show sh'.log.count f + (s.writer.freeing f +
      ∑ u, (update s.reader r y u).pc.freeing f) = sh'.due f
    simp only [freeing] at hcount
    omega
  · intro hobject
    have hsum := sum_update_add (fun x : StmReader => x.pc.locks) s.reader r y
    have hcount := h.read (hmem hobject)
    have hchange := hlocks hobject
    show sh'.read = ((s.writer.locks + ∑ u, (update s.reader r y u).pc.locks : ℕ) : ℤ)
    simp only [readLocks] at hcount
    omega
  · exact fun hobject => hwrite.trans (h.write (hmem hobject))
  · intro hwriting
    have hsum := sum_update_add (fun x : StmReader => x.pc.locks) s.reader r y
    have hzero := h.exclusive hwriting
    have hy := hexclusive hwriting
    show s.writer.locks + ∑ u, (update s.reader r y u).pc.locks = 0
    simp only [readLocks] at hzero
    omega
  · intro hobject
    obtain ⟨hw, hy, hrest⟩ := hquiet hobject
    refine ⟨hw, fun r' => ?_⟩
    by_cases hr : r' = r
    · rw [hr, hself]
      exact hy
    · rw [hother r' hr]
      exact hrest r' hr
  · exact (iff_of_eq (congrArg (· = none) hcopy)).trans h.reset
  · exact fun new old hw => (h.store new old hw).trans hcopy.symm
  · intro r' c hpc
    refine hcopy.trans ?_
    by_cases hr : r' = r
    · rw [hr, hself] at hpc
      exact hinc c hpc
    · rw [hother r' hr] at hpc
      exact h.inc r' c hpc
  · exact h.grabW
  · intro r' ref hpc
    by_cases hr : r' = r
    · rw [hr, hself] at hpc
      exact hgrab ref hpc
    · rw [hother r' hr] at hpc
      exact h.grabR r' ref hpc

/-- The reader that frees the object has the lock for itself, and there is no reference left: nobody
is about to use the object. -/
theorem quiet_of_free (h : s.Inv) (hvalid : s.shared.Valid (s.reader r).pc.touchesObject
      (s.reader r).pc.touchesCopy)
    (hguard : (s.reader r).pc = .releaseFree → s.shared.read = 1)
    (hpc : (s.reader r).pc = .releaseFree)
    (hmove : ReaderMove s.shared (s.reader r) (s.reader r).pc sh' y) :
    s.writer.touchesObject = false ∧ y.pc.touchesObject = false ∧
      ∀ r' ≠ r, (s.reader r').pc.touchesObject = false := by
  have hfree : 0 < s.freeing .object := by
    have hsum := le_sum_thread (fun x : StmReader => x.pc.freeing .object) s.reader r
    rw [hpc] at hsum
    exact lt_of_lt_of_le one_pos (le_add_left_of_le hsum)
  obtain ⟨-, hw, hreaders, -⟩ := h.unreferenced (Nat.lt_of_lt_of_le hfree (Nat.le_add_left ..))
  have hlive : .object ∉ s.shared.log := hvalid.1 (by rw [hpc]; rfl)
  have hread := h.read hlive
  rw [hguard hpc, readLocks] at hread
  have hone : (s.reader r).pc.locks = 1 := by
    rw [hpc]
    rfl
  refine ⟨?_, ?_, fun r' hr => ?_⟩
  · have hwriting := h.not_writing (r := r) (by omega)
    rw [WriterPc.eq_gone hw hwriting]
    rfl
  · rw [hpc] at hmove
    cases hmove
    exact ReaderPc.touchesObject_releasecopy ..
  · apply ReaderPc.touchesObject_eq_false (hreaders r')
    have hsum := add_le_sum_thread (fun x : StmReader => x.pc.locks) s.reader hr
    omega

/-- A step of a reader that does not free the object under the lock of another one. -/
theorem reader (h : s.Inv) (hvalid : s.shared.Valid (s.reader r).pc.touchesObject
      (s.reader r).pc.touchesCopy)
    (hguard : (s.reader r).pc = .releaseFree → s.shared.read = 1)
    (hmove : ReaderMove s.shared (s.reader r) (s.reader r).pc sh' y) :
    (s.setReader r sh' y).Inv := by
  obtain ⟨hcopy, hwrite, hnext, -⟩ := hmove.frame
  have hobject : 0 < (s.reader r).pc.refs → 0 < s.shared.reference := h.reference_pos_of_reader
  have hfreeing := hmove.freeing hobject fun c hc => h.ref_pos hc
  apply h.setReader hmove.refs hmove.holds hfreeing ⟨hcopy, hwrite, hnext⟩
  · -- nothing is taken out of the log
    intro hobject' hmem
    exact hobject' (hmove.log_prefix.subset hmem)
  · intro hobject'
    apply hmove.locks
    intro hpc
    rw [hpc] at hmove
    cases hmove
    exact hobject' (mem_append_right _ (mem_singleton_self _))
  · intro c hc
    apply hmove.ref_eq_zero (h.fresh c hc)
    by_contra hpos
    have hmade := (h.ref_pos (pos_of_ne_zero hpos)).1
    omega
  · intro hwriting
    by_contra hpos
    rcases hmove.locks_pos (pos_of_ne_zero hpos) with hlocks | ⟨hwrite', htouch⟩
    · rw [h.not_writing hlocks] at hwriting
      cases hwriting
    · rw [h.write (hvalid.1 htouch), hwriting] at hwrite'
      cases hwrite'
  · intro hmem
    rcases hmove.object_mem hmem with hold | hpc
    · obtain ⟨hw, hreaders⟩ := h.quiet hold
      exact ⟨hw, hmove.touchesObject (hreaders r), fun r' _ => hreaders r'⟩
    · exact h.quiet_of_free hvalid hguard hpc hmove
  · exact fun c hpc => hmove.inc hpc
  · intro ref hpc
    obtain ⟨rfl, hrefs⟩ := hmove.grabbed hpc
    exact hobject hrefs

theorem enter (h : s.Inv) (hidle : (s.reader r).pc = .idle)
    (hpc : y.pc = .grab .lock ∨ y.pc = .copyLock ∨ y.pc = .releaseLock)
    (hlast : y.lastcopy = (s.reader r).lastcopy) : (s.setReader r s.shared y).Inv := by
  have hlive := h.live (h.reference_pos_of_reader (r := r) (by rw [hidle]; exact one_pos))
  apply h.setReader
  · rw [hidle]
    rcases hpc with hpc | hpc | hpc <;> rw [hpc] <;> rfl
  · intro c
    unfold holds
    rw [hidle, hlast]
    rcases hpc with hpc | hpc | hpc <;> rw [hpc] <;> rfl
  · intro f
    rw [hidle]
    rcases hpc with hpc | hpc | hpc <;> rw [hpc] <;> cases f <;> rfl
  · exact ⟨rfl, rfl, rfl⟩
  · exact id
  · rw [hidle]
    rcases hpc with hpc | hpc | hpc <;> rw [hpc] <;> exact fun _ => rfl
  · exact h.fresh
  · rcases hpc with hpc | hpc | hpc <;> rw [hpc] <;> exact fun _ => rfl
  · exact fun hmem => absurd hmem hlive
  · rcases hpc with hpc | hpc | hpc <;> rw [hpc] <;> exact fun _ h => by cases h
  · rcases hpc with hpc | hpc | hpc <;> rw [hpc] <;> exact fun _ h => by cases h

/-- `lnewreader` takes the reference that came with the pointer. -/
theorem newReader (h : s.Inv) (habsent : (s.reader r).pc = .absent) (hpos : 0 < s.shared.handed) :
    (s.setReader r { s.shared with handed := s.shared.handed - 1 }
      ((s.reader r).goto .idle)).Inv := by
  have hlive : .object ∉ s.shared.log := by
    have hcount := h.reference
    simp only [holders] at hcount
    exact h.live (by omega)
  apply h.setReader
  · rw [habsent]
    simp only [goto, ReaderPc.refs]
    omega
  · intro c
    unfold holds
    rw [habsent]
    rfl
  · intro f
    rw [habsent]
    cases f <;> rfl
  · exact ⟨rfl, rfl, rfl⟩
  · exact id
  · rw [habsent]
    exact fun _ => rfl
  · exact h.fresh
  · exact fun _ => rfl
  · exact fun hmem => absurd hmem hlive
  · exact fun _ h => by cases h
  · exact fun _ h => by cases h

/-- Every step but that of a reader that frees the object under the lock of another one. -/
theorem step (h : s.Inv) {s' : Stm R} (hguard : s.Unlocked a) (hstep : s.step a = .ok s') :
    s'.Inv := by
  cases a with
  | copy =>
    simp only [Stm.step] at hstep
    split at hstep <;> cases hstep
    exact h.callWriter ‹_› (.inl rfl)
  | update =>
    simp only [Stm.step] at hstep
    split at hstep <;> cases hstep
    exact h.newcopy ‹_›
  | deleteWriter =>
    simp only [Stm.step] at hstep
    split at hstep <;> cases hstep
    exact h.callWriter ‹_› (.inr rfl)
  | writer =>
    simp only [Stm.step] at hstep
    split at hstep
    · obtain ⟨p, hp, rfl⟩ := map_eq_ok_iff.mp hstep
      exact h.writer ‹_› (writer_move hp)
    · cases hstep
  | newReader r =>
    simp only [Stm.step] at hstep
    split at hstep <;> cases hstep
    rename_i hnew
    exact h.newReader hnew.1 hnew.2
  | copyReader r =>
    simp only [Stm.step, Stm.enter] at hstep
    split at hstep <;> cases hstep
    exact h.enter ‹_› (.inl rfl) rfl
  | read r =>
    simp only [Stm.step, Stm.enter] at hstep
    split at hstep <;> cases hstep
    exact h.enter ‹_› (.inr (.inl rfl)) rfl
  | deleteReader r =>
    simp only [Stm.step, Stm.enter] at hstep
    split at hstep <;> cases hstep
    exact h.enter ‹_› (.inr (.inr rfl)) rfl
  | reader r =>
    simp only [Stm.step] at hstep
    split at hstep
    · obtain ⟨p, hp, rfl⟩ := map_eq_ok_iff.mp hstep
      exact h.reader ‹_› hguard (reader_move hp)
    · cases hstep

/-- No step uses freed memory and no assertion fails. -/
theorem error (h : s.Inv) (he : s.step a = .error e) : e = .disabled := by
  cases a with
  | writer =>
    simp only [Stm.step, if_pos h.valid_writer] at he
    exact h.writer_error (map_eq_error_iff.mp he)
  | reader r =>
    simp only [Stm.step, if_pos (h.valid_reader r)] at he
    exact h.reader_error (map_eq_error_iff.mp he)
  | copy | update | deleteWriter | newReader r =>
    simp only [Stm.step] at he
    split at he <;> cases he
    rfl
  | copyReader r | read r | deleteReader r =>
    simp only [Stm.step, Stm.enter] at he
    split at he <;> cases he
    rfl

end Inv

end Inv

end Stm

end Uboss.Lib
