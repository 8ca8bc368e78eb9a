import Uboss.Lib.Stm
import Uboss.Math.ThreadSum
import Mathlib.Algebra.Order.Ring.Int

/-!
# What the counts of an object and its copies stand for

Where a thread is determines which references, which share of the lock and which copies it has,
and which calls of `uboss_free` it still has to make. A step changes the counts by what the
thread gains or gives up.
-/

namespace Uboss.Lib

open Math Function StmReader StmShared

namespace GrabPc

/-- The references of the thread: its own, and the one that it will hand out. -/
def refs : GrabPc → ℕ
  | .unlock _ => 2
  | _ => 1

def locks : GrabPc → ℕ
  | .lock => 0
  | _ => 1

end GrabPc

namespace DropPc

/-- The reference to the copy that `stm_releasecopy` gives up. -/
def holds (c : ℕ) : DropPc → ℕ
  | .dec c' => if c' = c then 1 else 0
  | _ => 0

/-- What it will free. -/
def freeing (f : StmFree) : DropPc → ℕ
  | .dec _ => 0
  | .freeMsg c => if f = .msg c ∨ f = .copy c then 1 else 0
  | .freeCopy c => if f = .copy c then 1 else 0

end DropPc

namespace WriterPc

/-- The references to the object. -/
def refs : WriterPc → ℕ
  | .grab pc => pc.refs
  | .releaseUnlock | .releaseFree | .gone => 0
  | _ => 1

/-- The read locks. -/
def locks : WriterPc → ℕ
  | .grab pc => pc.locks
  | _ => 0

/-- The write lock. -/
def writing : WriterPc → Bool
  | .updateLoad _ | .updateStore .. | .updateUnlock _ | .drop _ .released | .releaseLoad |
    .releaseReset | .releaseDec | .releaseUnlock | .releaseFree => true
  | _ => false

/-- `obj->copy` is `NULL`. -/
def reset : WriterPc → Bool
  | .releaseDec | .releaseUnlock | .releaseFree | .gone => true
  | _ => false

/-- The references of the writer to a copy, with that of `obj->copy`: in `stm_release` this is the
one that is given up. -/
def holds (c : ℕ) (copy : Option ℕ) : WriterPc → ℕ
  | .updateLock new | .updateLoad new | .updateStore new _ =>
    (if copy = some c then 1 else 0) + if new = c then 1 else 0
  | .updateUnlock old => (if copy = some c then 1 else 0) + if old = some c then 1 else 0
  | .drop pc .updated => (if copy = some c then 1 else 0) + pc.holds c
  | .drop pc .released => pc.holds c
  | .releaseReset => 0
  | _ => if copy = some c then 1 else 0

def freeing (f : StmFree) : WriterPc → ℕ
  | .drop pc _ => pc.freeing f
  | .releaseFree => if f = .object then 1 else 0
  | _ => 0

end WriterPc

namespace ReaderPc

def refs : ReaderPc → ℕ
  | .grab pc => pc.refs
  | .absent | .drop _ .deleted | .resume .deleted | .releaseFree | .releaseUnlock | .gone => 0
  | _ => 1

def locks : ReaderPc → ℕ
  | .grab pc => pc.locks
  | .copyLoad | .copyInc _ | .copyUnlock _ | .releaseDec | .releaseFree | .releaseUnlock => 1
  | _ => 0

/-- The references of a reader to a copy: `lastcopy`, or what is given up in its place, and the
copy that `lread` has just got. -/
def holds (c : ℕ) (lastcopy : Option ℕ) : ReaderPc → ℕ
  | .copyUnlock ret => (if lastcopy = some c then 1 else 0) + if ret = some c then 1 else 0
  | .drop pc .same => (if lastcopy = some c then 1 else 0) + pc.holds c
  | .drop pc (.replace copy) => (if copy = some c then 1 else 0) + pc.holds c
  | .drop pc .deleted => pc.holds c
  | .resume (.replace copy) => if copy = some c then 1 else 0
  | .resume .deleted => 0
  | _ => if lastcopy = some c then 1 else 0

def freeing (f : StmFree) : ReaderPc → ℕ
  | .drop pc _ => pc.freeing f
  | .releaseFree => if f = .object then 1 else 0
  | _ => 0

end ReaderPc

namespace StmReader

/-- The references of a reader to a copy. -/
def holds (c : ℕ) (x : StmReader) : ℕ := x.pc.holds c x.lastcopy

end StmReader

namespace StmShared

/-- With these counts something is freed, or it is about to be. -/
def due (sh : StmShared) : StmFree → ℕ
  | .object => if sh.reference = 0 then 1 else 0
  | .msg c | .copy c => if c < sh.next ∧ sh.ref c = 0 then 1 else 0

end StmShared

section Moves

variable {sh sh' : StmShared} {x y : StmReader} {pc pc' : WriterPc}

theorem rlock_eq_ok :
    sh.rlock = .ok sh' ↔ sh.write = false ∧ { sh with read := sh.read + 1 } = sh' := by
  unfold rlock
  cases sh.write <;> simp

theorem wlock_eq_ok :
    sh.wlock = .ok sh' ↔ sh.write = false ∧ sh.read = 0 ∧ { sh with write := true } = sh' := by
  unfold wlock
  cases sh.write <;> by_cases h : sh.read = 0 <;> simp [h]

/-- What `stm_grab` can do. -/
inductive GrabMove (sh : StmShared) : GrabPc → StmShared → Option GrabPc → Prop
  | lock (h : sh.write = false) : GrabMove sh .lock { sh with read := sh.read + 1 } (some .inc)
  | inc : GrabMove sh .inc { sh with reference := sh.reference + 1 } (some (.unlock sh.reference))
  | unlock (ref : ℤ) : GrabMove sh (.unlock ref) { sh.runlock with handed := sh.handed + 1 } none

theorem grab_move {g : GrabPc} {p : StmShared × Option GrabPc} (h : sh.grab g = .ok p) :
    GrabMove sh g p.1 p.2 := by
  cases g with
  | lock =>
    obtain ⟨sh', hlock, rfl⟩ := map_eq_ok_iff.mp h
    obtain ⟨hwrite, rfl⟩ := rlock_eq_ok.mp hlock
    exact .lock hwrite
  | inc =>
    cases h
    exact .inc
  | unlock ref =>
    simp only [grab] at h
    split at h <;> cases h
    exact .unlock ref

/-- What a step of a reader can do. -/
inductive ReaderMove (sh : StmShared) (x : StmReader) : ReaderPc → StmShared → StmReader → Prop
  | grab {g : GrabPc} {sh' : StmShared} {g' : Option GrabPc} (h : GrabMove sh g sh' g') :
    ReaderMove sh x (.grab g) sh' (x.goto (g'.elim .idle .grab))
  | copyLock (h : sh.write = false) :
    ReaderMove sh x .copyLock { sh with read := sh.read + 1 } (x.goto .copyLoad)
  | copyLoad : ReaderMove sh x .copyLoad sh (x.goto (sh.copy.elim (.copyUnlock none) .copyInc))
  | copyInc (c : ℕ) (h : 0 < sh.ref c) :
    ReaderMove sh x (.copyInc c) { sh with ref := Function.update sh.ref c (sh.ref c + 1) }
      (x.goto (.copyUnlock (some c)))
  | copySame : ReaderMove sh x (.copyUnlock x.lastcopy) sh.runlock
      (x.goto (.releasecopy x.lastcopy .same))
  | copyOther (copy : Option ℕ) (h : copy ≠ x.lastcopy) :
    ReaderMove sh x (.copyUnlock copy) sh.runlock (x.goto (.releasecopy x.lastcopy (.replace copy)))
  | drop (d : DropPc) (why : ReaderDrop) :
    ReaderMove sh x (.drop d why) (sh.drop d).1
      (x.goto ((sh.drop d).2.elim (.resume why) (.drop · why)))
  | same : ReaderMove sh x (.resume .same) sh (x.ret sh none)
  | replace (copy : Option ℕ) :
    ReaderMove sh x (.resume (.replace copy)) sh ({ x with lastcopy := copy }.ret sh copy)
  | deleted : ReaderMove sh x (.resume .deleted) sh ({ x with lastcopy := none }.goto .gone)
  | releaseLock (h : sh.write = false) :
    ReaderMove sh x .releaseLock { sh with read := sh.read + 1 } (x.goto .releaseDec)
  | releaseDec : ReaderMove sh x .releaseDec { sh with reference := sh.reference - 1 }
      (x.goto (if sh.reference - 1 = 0 then .releaseFree else .releaseUnlock))
  | releaseFree (h : sh.copy = none) :
    ReaderMove sh x .releaseFree (sh.free .object) (x.goto (.releasecopy x.lastcopy .deleted))
  | releaseUnlock :
    ReaderMove sh x .releaseUnlock sh.runlock (x.goto (.releasecopy x.lastcopy .deleted))

theorem reader_move (h : x.step sh = .ok (sh', y)) : ReaderMove sh x x.pc sh' y := by
  unfold step at h
  generalize x.pc = pc at h ⊢
  split at h
  · cases h
  · cases h
  · cases h
  · obtain ⟨p, hp, heq⟩ := map_eq_ok_iff.mp h
    cases heq
    exact .grab (grab_move hp)
  · obtain ⟨sh₁, hlock, heq⟩ := map_eq_ok_iff.mp h
    obtain ⟨hwrite, rfl⟩ := rlock_eq_ok.mp hlock
    cases heq
    exact .copyLock hwrite
  · cases h
    exact .copyLoad
  · split at h <;> cases h
    exact .copyInc _ ‹_›
  · cases h
    split
    · rename_i heq
      subst heq
      exact .copySame
    · exact .copyOther _ ‹_›
  · cases h
    exact .drop ..
  · cases h
    exact .same
  · cases h
    exact .replace _
  · cases h
    exact .deleted
  · obtain ⟨sh₁, hlock, heq⟩ := map_eq_ok_iff.mp h
    obtain ⟨hwrite, rfl⟩ := rlock_eq_ok.mp hlock
    cases heq
    exact .releaseLock hwrite
  · cases h
    exact .releaseDec
  · split at h <;> cases h
    exact .releaseFree ‹_›
  · cases h
    exact .releaseUnlock

/-- What a step of the writer can do. -/
inductive WriterMove (sh : StmShared) : WriterPc → StmShared → WriterPc → Prop
  | grab {g : GrabPc} {sh' : StmShared} {g' : Option GrabPc} (h : GrabMove sh g sh' g') :
    WriterMove sh (.grab g) sh' (g'.elim .idle .grab)
  | updateLock (copy : ℕ) (hwrite : sh.write = false) (hread : sh.read = 0) :
    WriterMove sh (.updateLock copy) { sh with write := true } (.updateLoad copy)
  | updateLoad (copy : ℕ) : WriterMove sh (.updateLoad copy) sh (.updateStore copy sh.copy)
  | updateStore (copy : ℕ) (old : Option ℕ) :
    WriterMove sh (.updateStore copy old) (sh.setCopy (some copy)) (.updateUnlock old)
  | updateUnlock (old : Option ℕ) :
    WriterMove sh (.updateUnlock old) sh.wunlock (.releasecopy old .updated)
  | drop (d : DropPc) (why : WriterDrop) :
    WriterMove sh (.drop d why) (sh.drop d).1 ((sh.drop d).2.elim (.dropped why) (.drop · why))
  | releaseAssert (h : sh.copy ≠ none) : WriterMove sh .releaseAssert sh .releaseLock
  | releaseLock (hwrite : sh.write = false) (hread : sh.read = 0) :
    WriterMove sh .releaseLock { sh with write := true } .releaseLoad
  | releaseLoad : WriterMove sh .releaseLoad sh (.releasecopy sh.copy .released)
  | releaseReset : WriterMove sh .releaseReset (sh.setCopy none) .releaseDec
  | releaseDec : WriterMove sh .releaseDec { sh with reference := sh.reference - 1 }
      (if 0 < sh.reference - 1 then .releaseUnlock else .releaseFree)
  | releaseUnlock : WriterMove sh .releaseUnlock sh.wunlock .gone
  | releaseFree : WriterMove sh .releaseFree (sh.free .object) .gone

theorem writer_move (h : pc.step sh = .ok (sh', pc')) : WriterMove sh pc sh' pc' := by
  unfold WriterPc.step at h
  split at h
  · cases h
  · cases h
  · obtain ⟨p, hp, heq⟩ := map_eq_ok_iff.mp h
    cases heq
    exact .grab (grab_move hp)
  · obtain ⟨sh₁, hlock, heq⟩ := map_eq_ok_iff.mp h
    obtain ⟨hwrite, hread, rfl⟩ := wlock_eq_ok.mp hlock
    cases heq
    exact .updateLock _ hwrite hread
  · cases h
    exact .updateLoad _
  · cases h
    exact .updateStore ..
  · cases h
    exact .updateUnlock _
  · cases h
    exact .drop ..
  · split at h <;> cases h
    exact .releaseAssert ‹_›
  · obtain ⟨sh₁, hlock, heq⟩ := map_eq_ok_iff.mp h
    obtain ⟨hwrite, hread, rfl⟩ := wlock_eq_ok.mp hlock
    cases heq
    exact .releaseLock hwrite hread
  · cases h
    exact .releaseLoad
  · cases h
    exact .releaseReset
  · cases h
    exact .releaseDec
  · cases h
    exact .releaseUnlock
  · cases h
    exact .releaseFree

end Moves

section Drops

variable (c : ℕ) (f : StmFree) (o : Option ℕ) (d : DropPc)

namespace ReaderPc

variable (why : ReaderDrop) (last : Option ℕ)

/-- `stm_releasecopy` changes nothing but the copy that it gives up. -/
@[simp] theorem refs_drop : (drop d why).refs = (resume why).refs := by cases why <;> rfl

@[simp] theorem holds_drop : (drop d why).holds c last = (resume why).holds c last + d.holds c := by
  cases why <;> simp [holds]

@[simp] theorem refs_releasecopy : (releasecopy o why).refs = (resume why).refs := by
  cases o <;> cases why <;> rfl

@[simp] theorem locks_releasecopy : (releasecopy o why).locks = 0 := by cases o <;> rfl

@[simp] theorem holds_releasecopy : (releasecopy o why).holds c last =
    (resume why).holds c last + if o = some c then 1 else 0 := by
  cases o with
  | none => rfl
  | some c' => simp [releasecopy, DropPc.holds]

@[simp] theorem freeing_releasecopy : (releasecopy o why).freeing f = 0 := by cases o <;> rfl

@[simp] theorem touchesObject_releasecopy : (releasecopy o why).touchesObject = false := by
  cases o <;> rfl

end ReaderPc

namespace WriterPc

variable (why : WriterDrop) (copy : Option ℕ)

@[simp] theorem refs_drop : (drop d why).refs = 1 := rfl

@[simp] theorem refs_dropped : (dropped why).refs = 1 := by cases why <;> rfl

@[simp] theorem holds_drop :
    (drop d why).holds c copy = (dropped why).holds c copy + d.holds c := by
  cases why <;> simp [holds, dropped]

@[simp] theorem refs_releasecopy : (releasecopy o why).refs = 1 := by
  cases o <;> cases why <;> rfl

@[simp] theorem locks_dropped : (dropped why).locks = 0 := by cases why <;> rfl

@[simp] theorem locks_releasecopy : (releasecopy o why).locks = 0 := by
  cases o <;> cases why <;> rfl

@[simp] theorem holds_releasecopy : (releasecopy o why).holds c copy =
    (dropped why).holds c copy + if o = some c then 1 else 0 := by
  cases o with
  | none => rfl
  | some c' => simp [releasecopy, DropPc.holds]

@[simp] theorem freeing_dropped : (dropped why).freeing f = 0 := by cases why <;> rfl

@[simp] theorem freeing_releasecopy : (releasecopy o why).freeing f = 0 := by
  cases o <;> cases why <;> rfl

end WriterPc

end Drops

section Counts

variable {sh sh' : StmShared} {x y : StmReader} {pc : ReaderPc} {w w' : WriterPc} {g : GrabPc}
  {g' : Option GrabPc}

theorem GrabMove.refs (h : GrabMove sh g sh' g') :
    sh'.reference + g.refs + sh.handed = sh.reference + g'.elim 1 GrabPc.refs + sh'.handed := by
  cases h <;> simp [GrabPc.refs, runlock] <;> omega

theorem GrabMove.locks (h : GrabMove sh g sh' g') :
    sh'.read + g.locks = sh.read + g'.elim 0 GrabPc.locks := by
  cases h <;> simp [GrabPc.locks, runlock]

theorem GrabMove.frame (h : GrabMove sh g sh' g') :
    sh'.copy = sh.copy ∧ sh'.write = sh.write ∧ sh'.ref = sh.ref ∧ sh'.next = sh.next ∧
      sh'.log = sh.log ∧ sh'.currents = sh.currents := by
  cases h <;> exact ⟨rfl, rfl, rfl, rfl, rfl, rfl⟩

theorem ref_drop (sh : StmShared) (d : DropPc) (c : ℕ) :
    (sh.drop d).1.ref c + d.holds c = sh.ref c + (sh.drop d).2.elim 0 (DropPc.holds c) := by
  cases d with
  | dec c' =>
    have hend : (sh.drop (.dec c')).2.elim 0 (DropPc.holds c) = 0 := by
      simp only [drop]
      split <;> rfl
    rw [hend]
    by_cases hc : c = c'
    · subst hc
      simp [drop, DropPc.holds]
    · simp [drop, DropPc.holds, hc, Ne.symm hc]
  | freeMsg c' => simp [drop, DropPc.holds, free]
  | freeCopy c' => simp [drop, DropPc.holds, free]

theorem drop_frame (sh : StmShared) (d : DropPc) :
    (sh.drop d).1.reference = sh.reference ∧ (sh.drop d).1.handed = sh.handed ∧
      (sh.drop d).1.read = sh.read ∧ (sh.drop d).1.write = sh.write ∧
      (sh.drop d).1.copy = sh.copy ∧ (sh.drop d).1.next = sh.next ∧
      (sh.drop d).1.currents = sh.currents := by
  cases d <;> exact ⟨rfl, rfl, rfl, rfl, rfl, rfl, rfl⟩

theorem count_free (sh : StmShared) (f f' : StmFree) :
    (sh.free f').log.count f = sh.log.count f + if f = f' then 1 else 0 := by
  show (sh.log ++ [f']).count f = _
  rw [List.count_append, List.count_singleton]
  simp only [beq_iff_eq, eq_comm (a := f)]

/-- The call that gives up the last reference has to free the message and the copy. -/
theorem freeing_drop (sh : StmShared) (d : DropPc) (f : StmFree)
    (hpos : ∀ c, d = .dec c → c < sh.next ∧ 0 < sh.ref c) :
    (sh.drop d).1.log.count f + (sh.drop d).2.elim 0 (DropPc.freeing f) + sh.due f =
      sh.log.count f + d.freeing f + (sh.drop d).1.due f := by
  cases d with
  | dec c =>
    obtain ⟨hlt, href⟩ := hpos c rfl
    have hlog : (sh.drop (.dec c)).1.log = sh.log := rfl
    have hdue : (sh.drop (.dec c)).1.due f =
        sh.due f + (sh.drop (.dec c)).2.elim 0 (DropPc.freeing f) := by
      have hother : ∀ c', c' ≠ c → (sh.drop (.dec c)).1.ref c' = sh.ref c' :=
        fun c' hc => update_of_ne hc ..
      have hself : (sh.drop (.dec c)).1.ref c = sh.ref c - 1 := update_self ..
      have hnext : (sh.drop (.dec c)).1.next = sh.next := rfl
      have hreference : (sh.drop (.dec c)).1.reference = sh.reference := rfl
      have hfreeing : (sh.drop (.dec c)).2.elim 0 (DropPc.freeing f) =
          if sh.ref c - 1 = 0 ∧ (f = .msg c ∨ f = .copy c) then 1 else 0 := by
        simp only [drop]
        split <;> rename_i h <;> simp [h, DropPc.freeing]
      rw [hfreeing]
      cases f with
      | object => simp [StmShared.due, hreference]
      | msg c' | copy c' =>
        by_cases hc : c' = c
        · subst hc
          simp [StmShared.due, hself, hnext, hlt, href.ne']
        · simp [StmShared.due, hother c' hc, hnext, hc]
    rw [hlog, hdue]
    simp only [DropPc.freeing]
    omega
  | freeMsg c =>
    have hdue : (sh.drop (.freeMsg c)).1.due f = sh.due f := by cases f <;> rfl
    rw [hdue]
    simp only [drop, count_free, Option.elim, DropPc.freeing]
    by_cases hmsg : f = .msg c <;> by_cases hcopy : f = .copy c <;> simp_all
  | freeCopy c =>
    have hdue : (sh.drop (.freeCopy c)).1.due f = sh.due f := by cases f <;> rfl
    rw [hdue]
    simp only [drop, count_free, Option.elim, DropPc.freeing]
    omega

/-- `stm_grab` frees nothing, and the object has a reference before it and after it. -/
theorem GrabMove.due (h : GrabMove sh g sh' g') (hpos : 0 < sh.reference) (f : StmFree) :
    sh'.due f = sh.due f := by
  cases h with
  | inc =>
    cases f with
    | object =>
      have hnew : sh.reference + 1 ≠ 0 := by omega
      simp [StmShared.due, hpos.ne', hnew]
    | msg c | copy c => rfl
  | _ => cases f <;> rfl

namespace ReaderMove

/-- The count of the object changes by what the reader gains or gives up. -/
theorem refs (h : ReaderMove sh x pc sh' y) :
    sh'.reference + pc.refs + sh.handed = sh.reference + y.pc.refs + sh'.handed := by
  cases h with
  | grab hg =>
    have := hg.refs
    rename_i g'
    cases g' <;> exact this
  | copyLoad => cases hcopy : sh.copy <;> simp [goto, ReaderPc.refs]
  | drop d why =>
    obtain ⟨href, hhanded, -⟩ := drop_frame sh d
    have hrefs : ((sh.drop d).2.elim (ReaderPc.resume why) (.drop · why)).refs =
        (ReaderPc.resume why).refs := by
      cases (sh.drop d).2 <;> simp
    simp only [goto, ReaderPc.refs_drop, hrefs, href, hhanded]
  | releaseDec =>
    simp only [goto]
    split <;> simp [ReaderPc.refs]
  | _ =>
    simp only [goto, ret, ReaderPc.refs_releasecopy]
    simp [ReaderPc.refs, runlock, free]

/-- The count of a copy changes by what the reader gains or gives up. -/
theorem holds (h : ReaderMove sh x x.pc sh' y) (c : ℕ) :
    sh'.ref c + x.holds c = sh.ref c + y.holds c := by
  unfold StmReader.holds
  generalize x.pc = pc at h ⊢
  cases h with
  | grab hg =>
    rename_i g'
    rw [hg.frame.2.2.1]
    cases g' <;> rfl
  | copyLoad =>
    have hholds : (sh.copy.elim (.copyUnlock none) .copyInc : ReaderPc).holds c x.lastcopy =
        ReaderPc.copyLoad.holds c x.lastcopy := by
      cases sh.copy <;> simp [ReaderPc.holds]
    simp only [goto, hholds]
  | copyInc c' _ =>
    have hholds : (ReaderPc.copyUnlock (some c')).holds c x.lastcopy =
        (ReaderPc.copyInc c').holds c x.lastcopy + if c = c' then 1 else 0 := by
      simp [ReaderPc.holds, eq_comm]
    simp only [goto, hholds]
    by_cases hc : c = c'
    · subst hc
      simp only [update_self, if_true]
      omega
    · simp only [update_of_ne hc, if_neg hc, add_zero]
  | drop d why =>
    have href := ref_drop sh d c
    have hholds : ((sh.drop d).2.elim (ReaderPc.resume why) (.drop · why)).holds c x.lastcopy =
        (ReaderPc.resume why).holds c x.lastcopy + (sh.drop d).2.elim 0 (DropPc.holds c) := by
      cases (sh.drop d).2 <;> simp
    simp only [goto, ReaderPc.holds_drop, hholds]
    omega
  | releaseDec =>
    simp only [goto]
    split <;> simp [ReaderPc.holds]
  | _ =>
    simp only [goto, ret, ReaderPc.holds_releasecopy]
    simp [ReaderPc.holds, runlock, free, add_comm]

/-- The read lock changes by the share of the reader, except that the last one keeps it. -/
theorem locks (h : ReaderMove sh x pc sh' y) (hfree : pc ≠ .releaseFree) :
    sh'.read + pc.locks = sh.read + y.pc.locks := by
  cases h with
  | grab hg =>
    have := hg.locks
    rename_i g'
    cases g' <;> exact this
  | copyLoad => cases hcopy : sh.copy <;> simp [goto, ReaderPc.locks]
  | drop d why =>
    obtain ⟨-, -, hread, -⟩ := drop_frame sh d
    rw [hread]
    cases hnext : (sh.drop d).2 <;> simp [goto, ReaderPc.locks]
  | releaseDec =>
    simp only [goto]
    split <;> simp [ReaderPc.locks]
  | releaseFree => exact absurd rfl hfree
  | _ =>
    simp only [goto, ret, ReaderPc.locks_releasecopy]
    simp [ReaderPc.locks, runlock]

theorem frame (h : ReaderMove sh x pc sh' y) :
    sh'.copy = sh.copy ∧ sh'.write = sh.write ∧ sh'.next = sh.next ∧
      sh'.currents = sh.currents := by
  cases h with
  | grab hg =>
    obtain ⟨hcopy, hwrite, -, hnext, -, hcurrents⟩ := hg.frame
    exact ⟨hcopy, hwrite, hnext, hcurrents⟩
  | drop d why =>
    obtain ⟨-, -, -, hwrite, hcopy, hnext, hcurrents⟩ := drop_frame sh d
    exact ⟨hcopy, hwrite, hnext, hcurrents⟩
  | _ => exact ⟨rfl, rfl, rfl, rfl⟩

/-- What is due to be freed is in the hands of the reader that gave up the last reference. -/
theorem freeing (h : ReaderMove sh x x.pc sh' y) (hobject : 0 < x.pc.refs → 0 < sh.reference)
    (hcopy : ∀ c, 0 < x.holds c → c < sh.next ∧ 0 < sh.ref c) (f : StmFree) :
    sh'.log.count f + y.pc.freeing f + sh.due f = sh.log.count f + x.pc.freeing f + sh'.due f := by
  unfold StmReader.holds at hcopy
  generalize x.pc = pc at h hobject hcopy ⊢
  cases h with
  | grab hg =>
    have hpos : 0 < sh.reference := hobject (by cases hg <;> simp [ReaderPc.refs, GrabPc.refs])
    rename_i g'
    rw [hg.due hpos, hg.frame.2.2.2.2.1]
    cases g' <;> rfl
  | copyLoad => cases hcopy : sh.copy <;> simp [goto, ReaderPc.freeing]
  | copyInc c hpos =>
    have hdue : StmShared.due { sh with ref := update sh.ref c (sh.ref c + 1) } f = sh.due f := by
      have hnew : sh.ref c + 1 ≠ 0 := by omega
      cases f with
      | object => rfl
      | msg c' | copy c' =>
        by_cases hc : c' = c
        · subst hc
          simp [StmShared.due, hpos.ne', hnew]
        · simp [StmShared.due, hc]
    rw [hdue]
    simp [goto, ReaderPc.freeing]
  | drop d why =>
    have hpos : ∀ c, d = .dec c → c < sh.next ∧ 0 < sh.ref c := by
      rintro c rfl
      apply hcopy
      simp [DropPc.holds]
    have hdrop := freeing_drop sh d f hpos
    have hnext : ((sh.drop d).2.elim (ReaderPc.resume why) (.drop · why)).freeing f =
        (sh.drop d).2.elim 0 (DropPc.freeing f) := by
      cases (sh.drop d).2 <;> rfl
    simp only [goto, hnext]
    exact hdrop
  | releaseDec =>
    have hpos : 0 < sh.reference := hobject (by decide)
    cases f with
    | object =>
      simp only [goto, StmShared.due, if_neg hpos.ne']
      split <;> simp [ReaderPc.freeing]
    | msg c | copy c =>
      simp only [goto, StmShared.due]
      split <;> simp [ReaderPc.freeing]
  | releaseFree =>
    simp only [goto, ReaderPc.freeing_releasecopy, count_free]
    have hdue : (sh.free .object).due f = sh.due f := by cases f <;> rfl
    rw [hdue]
    rfl
  | _ =>
    simp only [goto, ret, ReaderPc.freeing_releasecopy]
    cases f <;> rfl

end ReaderMove

namespace WriterMove

variable (h : WriterMove sh w sh' w')
include h

/-- The count of the object changes by what the writer gains or gives up. -/
theorem refs : sh'.reference + w.refs + sh.handed = sh.reference + w'.refs + sh'.handed := by
  cases h with
  | grab hg =>
    have := hg.refs
    rename_i g'
    cases g' <;> exact this
  | drop d why =>
    obtain ⟨href, hhanded, -⟩ := drop_frame sh d
    have hrefs : ((sh.drop d).2.elim (WriterPc.dropped why) (.drop · why)).refs = 1 := by
      cases (sh.drop d).2 <;> simp
    simp only [WriterPc.refs_drop, hrefs, href, hhanded]
  | updateUnlock old =>
    rw [WriterPc.refs_releasecopy]
    rfl
  | releaseLoad =>
    rw [WriterPc.refs_releasecopy]
    rfl
  | releaseDec => split <;> simp [WriterPc.refs]
  | _ => rfl

/-- The count of a copy changes by what the writer and `obj->copy` gain or give up. -/
theorem holds (hstore : ∀ new old, w = .updateStore new old → old = sh.copy) (c : ℕ) :
    sh'.ref c + w.holds c sh.copy = sh.ref c + w'.holds c sh'.copy := by
  cases h with
  | grab hg =>
    obtain ⟨hcopy, -, href, -⟩ := hg.frame
    rename_i g'
    rw [hcopy, href]
    cases g' <;> rfl
  | updateStore new old =>
    rw [hstore new old rfl]
    simp only [WriterPc.holds, setCopy, Option.some_inj]
    omega
  | drop d why =>
    have href := ref_drop sh d c
    obtain ⟨-, -, -, -, hcopy, -⟩ := drop_frame sh d
    have hholds : ((sh.drop d).2.elim (WriterPc.dropped why) (.drop · why)).holds c sh.copy =
        (WriterPc.dropped why).holds c sh.copy + (sh.drop d).2.elim 0 (DropPc.holds c) := by
      cases (sh.drop d).2 <;> simp
    rw [hcopy, hholds, WriterPc.holds_drop]
    omega
  | updateUnlock old =>
    rw [WriterPc.holds_releasecopy]
    rfl
  | releaseLoad =>
    rw [WriterPc.holds_releasecopy]
    simp [WriterPc.holds, WriterPc.dropped]
  | releaseReset => simp [WriterPc.holds, setCopy]
  | releaseDec => split <;> rfl
  | _ => rfl

theorem locks : sh'.read + w.locks = sh.read + w'.locks := by
  cases h with
  | grab hg =>
    have := hg.locks
    rename_i g'
    cases g' <;> exact this
  | drop d why =>
    obtain ⟨-, -, hread, -⟩ := drop_frame sh d
    have hlocks : ((sh.drop d).2.elim (WriterPc.dropped why) (.drop · why)).locks = 0 := by
      cases (sh.drop d).2 with
      | none => simp
      | some d' => rfl
    rw [hread, hlocks]
    rfl
  | updateUnlock old =>
    rw [WriterPc.locks_releasecopy]
    rfl
  | releaseLoad =>
    rw [WriterPc.locks_releasecopy]
    rfl
  | releaseDec => split <;> rfl
  | _ => rfl

/-- The write lock is where the writer is, except that `stm_release` keeps it at the end. -/
theorem writing (hwrite : sh.write = w.writing) (hfree : w ≠ .releaseFree) :
    sh'.write = w'.writing := by
  cases h with
  | grab hg =>
    rw [hg.frame.2.1, hwrite]
    rename_i g'
    cases g' <;> rfl
  | updateUnlock old => cases old <;> rfl
  | drop d why =>
    obtain ⟨-, -, -, hsame, -⟩ := drop_frame sh d
    rw [hsame, hwrite]
    cases hnext : (sh.drop d).2 <;> cases why <;> rfl
  | releaseLoad =>
    rw [hwrite]
    cases sh.copy <;> rfl
  | releaseDec =>
    rw [hwrite]
    split <;> rfl
  | releaseFree => exact absurd rfl hfree
  | releaseUnlock => rfl
  | _ => first | rfl | exact hwrite

theorem read_eq_zero (hbefore : w.writing = false) (hafter : w'.writing = true) :
    sh.read = 0 ∧ w.touchesObject = true := by
  cases h with
  | grab hg =>
    rename_i g'
    cases g' <;> cases hafter
  | updateLock copy _ hread => exact ⟨hread, rfl⟩
  | releaseLock _ hread => exact ⟨hread, rfl⟩
  | drop d why =>
    cases why with
    | updated => cases hnext : (sh.drop d).2 <;> rw [hnext] at hafter <;> cases hafter
    | released => cases hbefore
  | releaseAssert => cases hafter
  | _ => cases hbefore

/-- `obj->copy` becomes `NULL` in `stm_release`, and stays `NULL`. -/
theorem reset (hcopy : sh.copy = none ↔ w.reset = true) : sh'.copy = none ↔ w'.reset = true := by
  cases h with
  | grab hg =>
    rw [hg.frame.1, hcopy]
    rename_i g'
    cases g' <;> rfl
  | updateUnlock old =>
    refine hcopy.trans ?_
    cases old <;> rfl
  | drop d why =>
    obtain ⟨-, -, -, -, hsame, -⟩ := drop_frame sh d
    rw [hsame, hcopy]
    cases hnext : (sh.drop d).2 <;> cases why <;> rfl
  | releaseLoad =>
    refine hcopy.trans ?_
    cases sh.copy <;> rfl
  | releaseDec =>
    refine hcopy.trans ?_
    split <;> rfl
  | updateStore => simp [setCopy, WriterPc.reset]
  | releaseReset => simp [setCopy, WriterPc.reset]
  | _ => exact hcopy

theorem frame : sh'.next = sh.next ∧ (w.writing = false → sh'.copy = sh.copy) := by
  cases h with
  | grab hg =>
    obtain ⟨hcopy, -, -, hnext, -⟩ := hg.frame
    exact ⟨hnext, fun _ => hcopy⟩
  | drop d why =>
    obtain ⟨-, -, -, -, hcopy, hnext, -⟩ := drop_frame sh d
    exact ⟨hnext, fun _ => hcopy⟩
  | updateStore => exact ⟨rfl, fun h => by cases h⟩
  | releaseReset => exact ⟨rfl, fun h => by cases h⟩
  | _ => exact ⟨rfl, fun _ => rfl⟩

/-- What is due to be freed is in the hands of the writer that gave up the last reference. -/
theorem freeing (hobject : 0 < w.refs → 0 < sh.reference)
    (hcopy : ∀ c, 0 < w.holds c sh.copy → c < sh.next ∧ 0 < sh.ref c) (f : StmFree) :
    sh'.log.count f + w'.freeing f + sh.due f = sh.log.count f + w.freeing f + sh'.due f := by
  cases h with
  | grab hg =>
    have hpos : 0 < sh.reference := hobject (by cases hg <;> simp [WriterPc.refs, GrabPc.refs])
    rename_i g'
    rw [hg.due hpos, hg.frame.2.2.2.2.1]
    cases g' <;> rfl
  | drop d why =>
    have hpos : ∀ c, d = .dec c → c < sh.next ∧ 0 < sh.ref c := by
      rintro c rfl
      apply hcopy
      simp [DropPc.holds]
    have hdrop := freeing_drop sh d f hpos
    have hnext : ((sh.drop d).2.elim (WriterPc.dropped why) (.drop · why)).freeing f =
        (sh.drop d).2.elim 0 (DropPc.freeing f) := by
      cases (sh.drop d).2 with
      | none => simp
      | some d' => rfl
    rw [hnext]
    exact hdrop
  | releaseDec =>
    have hpos : 0 < sh.reference := hobject (by decide)
    cases f with
    | object =>
      simp only [StmShared.due, if_neg hpos.ne']
      split <;> rename_i hlast
      · simp [WriterPc.freeing, hlast.ne']
      · have hzero : sh.reference - 1 = 0 := by omega
        simp [WriterPc.freeing, hzero]
    | msg c | copy c =>
      simp only [StmShared.due]
      split <;> simp [WriterPc.freeing]
  | releaseFree =>
    have hdue : (sh.free .object).due f = sh.due f := by cases f <;> rfl
    rw [count_free, hdue]
    rfl
  | updateUnlock old =>
    rw [WriterPc.freeing_releasecopy]
    cases f <;> rfl
  | releaseLoad =>
    rw [WriterPc.freeing_releasecopy]
    cases f <;> rfl
  | _ => cases f <;> rfl

end WriterMove

end Counts

end Uboss.Lib
