import Uboss.Math.Transition
import Mathlib.Algebra.BigOperators.Group.Finset.Basic

/-!
# Objects shared between one writer and readers

An `stm_object` holds the current `stm_copy` behind a lock that lies in the object itself. The
writer replaces the copy; a reader in another thread takes the copy that is current and keeps it
until it sees another one. Two counts decide what is freed: `reference` of the object, for the
writer, the readers and the pointers that `lcopy` has handed out, and `reference` of a copy, for
the object and for whoever has it.

Each operation on the lock, each atomic counter operation, each assignment and each call of
`uboss_free` is one step, and the steps of the threads interleave.

## Implementation notes

`currents` is the history of `obj->copy`, and `since` and `seen` are what a call of `lread` starts
with. The program does not read them. The counts are integers: fewer than 2^31 references are
outstanding.
-/

namespace Uboss.Lib

open Math

/-- What stops a step. -/
inductive StmError
  /-- There is no such step, or it waits for the lock. -/
  | disabled
  /-- The object, its lock or a copy is used after it was freed. -/
  | useAfterFree
  /-- An `assert` fails. -/
  | assertion
  deriving DecidableEq, Repr

/-- A call of `uboss_free`. -/
inductive StmFree
  | object
  | msg (copy : ℕ)
  | copy (copy : ℕ)
  deriving DecidableEq, Repr

/-- In `stm_grab`. -/
inductive GrabPc
  | lock
  | inc
  /-- With the count that `ATOM_FINC` has returned. -/
  | unlock (ref : ℤ)
  deriving DecidableEq, Repr

/-- In `stm_releasecopy`. -/
inductive DropPc
  | dec (copy : ℕ)
  | freeMsg (copy : ℕ)
  | freeCopy (copy : ℕ)
  deriving DecidableEq, Repr

/-- Why the writer is in `stm_releasecopy`. -/
inductive WriterDrop
  /-- The end of `stm_update`. -/
  | updated
  /-- In `stm_release`. -/
  | released
  deriving DecidableEq, Repr

/-- The thread of the writer. -/
inductive WriterPc
  | idle
  | grab (pc : GrabPc)
  /-- `stm_update`, with the new copy. -/
  | updateLock (copy : ℕ)
  | updateLoad (copy : ℕ)
  | updateStore (copy : ℕ) (oldcopy : Option ℕ)
  | updateUnlock (oldcopy : Option ℕ)
  | drop (pc : DropPc) (why : WriterDrop)
  /-- `stm_release`. -/
  | releaseAssert
  | releaseLock
  | releaseLoad
  /-- Before `obj->copy = NULL`. -/
  | releaseReset
  | releaseDec
  | releaseUnlock
  | releaseFree
  /-- The writer has been released. -/
  | gone
  deriving DecidableEq, Repr

/-- Why a reader is in `stm_releasecopy`. -/
inductive ReaderDrop
  /-- `lread` has found the copy that it has. -/
  | same
  /-- `lread` has found another copy, or none. -/
  | replace (copy : Option ℕ)
  /-- In `ldeletereader`. -/
  | deleted
  deriving DecidableEq, Repr

/-- The thread of a reader. -/
inductive ReaderPc
  /-- `lnewreader` was not called. -/
  | absent
  | idle
  | grab (pc : GrabPc)
  /-- `stm_copy`, in `lread`. -/
  | copyLock
  | copyLoad
  | copyInc (copy : ℕ)
  | copyUnlock (ret : Option ℕ)
  | drop (pc : DropPc) (why : ReaderDrop)
  /-- `stm_releasecopy` has returned. -/
  | resume (why : ReaderDrop)
  /-- `stm_releasereader`. -/
  | releaseLock
  | releaseDec
  | releaseFree
  | releaseUnlock
  /-- The reader has been released. -/
  | gone
  deriving DecidableEq, Repr

/-- What a call of `lread` has returned: `value` is the copy that it has passed on, or `none` for
`false`. It began with the `since`-th copy as the current one and with `seen` as the last one, and
ended before the `stop`-th copy. -/
structure Reading where
  since : ℕ
  stop : ℕ
  seen : Option ℕ
  value : Option ℕ
  deriving DecidableEq, Repr

/-- A reader, `lastcopy` as in `struct boxreader`. -/
structure StmReader where
  pc : ReaderPc
  lastcopy : Option ℕ
  since : ℕ
  seen : Option ℕ
  reading : Option Reading
  deriving DecidableEq, Repr

/-- The memory that the threads share. A copy has its number from `stm_newcopy`. -/
structure StmShared where
  /-- `obj->lock` -/
  write : Bool
  read : ℤ
  /-- `obj->reference` -/
  reference : ℤ
  /-- `obj->copy` -/
  copy : Option ℕ
  /-- `copy->reference` -/
  ref : ℕ → ℤ
  /-- The number of copies that were made. -/
  next : ℕ
  log : List StmFree
  /-- The pointers that `lcopy` has returned and `lnewreader` has not got. -/
  handed : ℕ
  currents : List (Option ℕ)

/-- One writer and the readers `R`. -/
structure Stm (R : Type) where
  shared : StmShared
  writer : WriterPc
  reader : R → StmReader

/-- A call, or a step within a call. -/
inductive StmAction (R : Type)
  /-- `lcopy` in the thread of the writer. -/
  | copy
  /-- `lupdate`. -/
  | update
  /-- `ldeletewriter`. -/
  | deleteWriter
  | writer
  /-- `lnewreader` with a pointer that was handed out. -/
  | newReader (r : R)
  /-- `lcopy` in the thread of a reader. -/
  | copyReader (r : R)
  /-- `lread`. -/
  | read (r : R)
  /-- `ldeletereader`. -/
  | deleteReader (r : R)
  | reader (r : R)
  deriving DecidableEq, Repr

namespace DropPc

/-- The copy. -/
def copy : DropPc → ℕ
  | .dec c | .freeMsg c | .freeCopy c => c

end DropPc

namespace StmShared

variable (sh : StmShared)

/-- No step of this kind uses memory that was freed. -/
def Valid (object : Bool) (copy : Option ℕ) : Prop :=
  (object = true → .object ∉ sh.log) ∧ ∀ c ∈ copy, .copy c ∉ sh.log

instance (object : Bool) (copy : Option ℕ) : Decidable (sh.Valid object copy) :=
  inferInstanceAs (Decidable (_ ∧ _))

/-- `rwlock_rlock`. -/
def rlock : Except StmError StmShared :=
  if sh.write = true then .error .disabled else .ok { sh with read := sh.read + 1 }

/-- `rwlock_runlock`. -/
def runlock : StmShared := { sh with read := sh.read - 1 }

/-- `rwlock_wlock`. -/
def wlock : Except StmError StmShared :=
  if sh.write = true ∨ sh.read ≠ 0 then .error .disabled else .ok { sh with write := true }

/-- `rwlock_wunlock`. -/
def wunlock : StmShared := { sh with write := false }

/-- `uboss_free`. -/
def free (f : StmFree) : StmShared := { sh with log := sh.log ++ [f] }

/-- `obj->copy = copy`. -/
def setCopy (copy : Option ℕ) : StmShared :=
  { sh with copy := copy, currents := sh.currents ++ [copy] }

/-- A step of `stm_grab`; `none` is its end. -/
def grab : GrabPc → Except StmError (StmShared × Option GrabPc)
  | .lock => sh.rlock.map fun sh => (sh, some .inc)
  | .inc => .ok ({ sh with reference := sh.reference + 1 }, some (.unlock sh.reference))
  | .unlock ref =>
    if 0 < ref then .ok ({ sh.runlock with handed := sh.handed + 1 }, none)
    else .error .assertion

/-- A step of `stm_releasecopy`; `none` is its end. -/
def drop : DropPc → StmShared × Option DropPc
  | .dec c =>
    ({ sh with ref := Function.update sh.ref c (sh.ref c - 1) },
      if sh.ref c - 1 = 0 then some (.freeMsg c) else none)
  | .freeMsg c => (sh.free (.msg c), some (.freeCopy c))
  | .freeCopy c => (sh.free (.copy c), none)

end StmShared

namespace WriterPc

/-- The step uses the object or its lock. -/
def touchesObject : WriterPc → Bool
  | .idle | .drop .. | .gone => false
  | _ => true

/-- The copy that the step uses. -/
def touchesCopy : WriterPc → Option ℕ
  | .drop pc _ => some pc.copy
  | _ => none

/-- After `stm_releasecopy`. -/
def dropped : WriterDrop → WriterPc
  | .updated => .idle
  | .released => .releaseReset

/-- Before `stm_releasecopy (copy)`. -/
def releasecopy (copy : Option ℕ) (why : WriterDrop) : WriterPc :=
  match copy with
  | none => dropped why
  | some c => .drop (.dec c) why

/-- A step of the writer. -/
def step (sh : StmShared) : WriterPc → Except StmError (StmShared × WriterPc)
  | .idle | .gone => .error .disabled
  | .grab pc => (sh.grab pc).map fun p => (p.1, p.2.elim .idle .grab)
  | .updateLock copy => sh.wlock.map fun sh => (sh, .updateLoad copy)
  | .updateLoad copy => .ok (sh, .updateStore copy sh.copy)
  | .updateStore copy oldcopy => .ok (sh.setCopy (some copy), .updateUnlock oldcopy)
  | .updateUnlock oldcopy => .ok (sh.wunlock, releasecopy oldcopy .updated)
  | .drop pc why => .ok ((sh.drop pc).1, (sh.drop pc).2.elim (dropped why) (.drop · why))
  | .releaseAssert => if sh.copy = none then .error .assertion else .ok (sh, .releaseLock)
  | .releaseLock => sh.wlock.map fun sh => (sh, .releaseLoad)
  | .releaseLoad => .ok (sh, releasecopy sh.copy .released)
  | .releaseReset => .ok (sh.setCopy none, .releaseDec)
  | .releaseDec =>
    .ok ({ sh with reference := sh.reference - 1 },
      if 0 < sh.reference - 1 then .releaseUnlock else .releaseFree)
  | .releaseUnlock => .ok (sh.wunlock, .gone)
  | .releaseFree => .ok (sh.free .object, .gone)

end WriterPc

namespace ReaderPc

/-- The step uses the object or its lock. -/
def touchesObject : ReaderPc → Bool
  | .absent | .idle | .drop .. | .resume _ | .gone => false
  | _ => true

/-- The copy that the step uses. After `box->lastcopy = copy`, `lread` reads its message. -/
def touchesCopy : ReaderPc → Option ℕ
  | .copyInc c => some c
  | .drop pc _ => some pc.copy
  | .resume (.replace copy) => copy
  | _ => none

/-- Before `stm_releasecopy (copy)`. -/
def releasecopy (copy : Option ℕ) (why : ReaderDrop) : ReaderPc :=
  match copy with
  | none => .resume why
  | some c => .drop (.dec c) why

end ReaderPc

namespace StmReader

variable (x : StmReader)

/-- The thread goes on. -/
def goto (pc : ReaderPc) : StmReader := { x with pc := pc }

/-- `lread` returns. -/
def ret (sh : StmShared) (value : Option ℕ) : StmReader :=
  { x with
    pc := .idle
    reading := some ⟨x.since, sh.currents.length, x.seen, value⟩ }

/-- A step of a reader. -/
def step (sh : StmShared) : Except StmError (StmShared × StmReader) :=
  match x.pc with
  | .absent | .idle | .gone => .error .disabled
  | .grab pc => (sh.grab pc).map fun p => (p.1, x.goto (p.2.elim .idle .grab))
  | .copyLock => sh.rlock.map fun sh => (sh, x.goto .copyLoad)
  | .copyLoad => .ok (sh, x.goto (sh.copy.elim (.copyUnlock none) .copyInc))
  | .copyInc c =>
    if 0 < sh.ref c then
      .ok ({ sh with ref := Function.update sh.ref c (sh.ref c + 1) },
        x.goto (.copyUnlock (some c)))
    else .error .assertion
  | .copyUnlock copy =>
    .ok (sh.runlock, x.goto (if copy = x.lastcopy then .releasecopy copy .same
      else .releasecopy x.lastcopy (.replace copy)))
  | .drop pc why =>
    .ok ((sh.drop pc).1, x.goto ((sh.drop pc).2.elim (.resume why) (.drop · why)))
  | .resume .same => .ok (sh, x.ret sh none)
  | .resume (.replace copy) => .ok (sh, { x with lastcopy := copy }.ret sh copy)
  | .resume .deleted => .ok (sh, { x with lastcopy := none }.goto .gone)
  | .releaseLock => sh.rlock.map fun sh => (sh, x.goto .releaseDec)
  | .releaseDec =>
    .ok ({ sh with reference := sh.reference - 1 },
      x.goto (if sh.reference - 1 = 0 then .releaseFree else .releaseUnlock))
  | .releaseFree =>
    if sh.copy = none then .ok (sh.free .object, x.goto (.releasecopy x.lastcopy .deleted))
    else .error .assertion
  | .releaseUnlock => .ok (sh.runlock, x.goto (.releasecopy x.lastcopy .deleted))

/-- The call of `lread`. -/
def call (sh : StmShared) : StmReader :=
  { x with pc := .copyLock, since := sh.currents.length - 1, seen := x.lastcopy }

end StmReader

namespace Stm

variable {R : Type}

/-- After `lnewwriter`. -/
def newWriter : Stm R where
  shared :=
    { write := false
      read := 0
      reference := 1
      copy := some 0
      ref := fun c => if c = 0 then 1 else 0
      next := 1
      log := []
      handed := 0
      currents := [some 0] }
  writer := .idle
  reader _ := ⟨.absent, none, 0, none, none⟩

variable [DecidableEq R] (s : Stm R)

/-- `stm_newcopy`, in `stm_update`. -/
def newcopy : Stm R :=
  { s with
    shared := { s.shared with
      ref := Function.update s.shared.ref s.shared.next 1
      next := s.shared.next + 1 }
    writer := .updateLock s.shared.next }

/-- A reader and the memory change. -/
def setReader (r : R) (sh : StmShared) (x : StmReader) : Stm R :=
  { s with shared := sh, reader := Function.update s.reader r x }

/-- A reader that is in no call begins one. -/
def enter (r : R) (x : StmReader) : Except StmError (Stm R) :=
  if (s.reader r).pc = .idle then .ok (s.setReader r s.shared x) else .error .disabled

/-- One step. -/
def step : StmAction R → Except StmError (Stm R)
  | .copy => if s.writer = .idle then .ok { s with writer := .grab .lock } else .error .disabled
  | .update => if s.writer = .idle then .ok s.newcopy else .error .disabled
  | .deleteWriter =>
    if s.writer = .idle then .ok { s with writer := .releaseAssert } else .error .disabled
  | .writer =>
    if s.shared.Valid s.writer.touchesObject s.writer.touchesCopy then
      (s.writer.step s.shared).map fun p => { s with shared := p.1, writer := p.2 }
    else .error .useAfterFree
  | .newReader r =>
    if (s.reader r).pc = .absent ∧ 0 < s.shared.handed then
      .ok (s.setReader r { s.shared with handed := s.shared.handed - 1 } ((s.reader r).goto .idle))
    else .error .disabled
  | .copyReader r => s.enter r ((s.reader r).goto (.grab .lock))
  | .read r => s.enter r ((s.reader r).call s.shared)
  | .deleteReader r => s.enter r ((s.reader r).goto .releaseLock)
  | .reader r =>
    if s.shared.Valid (s.reader r).pc.touchesObject (s.reader r).pc.touchesCopy then
      ((s.reader r).step s.shared).map fun p => s.setReader r p.1 p.2
    else .error .useAfterFree

/-- The steps that do not fail. -/
def next (s : Stm R) (a : StmAction R) : Option (Stm R) := (s.step a).toOption

/-- A reader frees the object only when it alone has the read lock. -/
def Unlocked : StmAction R → Prop
  | .reader r => (s.reader r).pc = .releaseFree → s.shared.read = 1
  | _ => True

instance : DecidablePred s.Unlocked
  | .reader _ => inferInstanceAs (Decidable (_ → _))
  | .copy | .update | .deleteWriter | .writer | .newReader _ | .copyReader _ | .read _ |
    .deleteReader _ => .isTrue trivial

end Stm

end Uboss.Lib
