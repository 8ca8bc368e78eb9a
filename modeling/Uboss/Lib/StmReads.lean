import Uboss.Lib.StmSafe

/-!
# What the readers of an object get

A call of `lread` passes on the copy that was current when it looked, unless the reader has it
already or the writer is gone. Together with the counts this is what an object is for, as long as
no reader frees it while another one is still to unlock it.
-/

namespace Uboss.Lib

open Math List

/-- At some moment of the call the copy that it passes on was current, and it is not the last one
of the reader; or the call returns `false`, and no copy was current, or that last one was. -/
def Reading.Correct (currents : List (Option ℕ)) (rd : Reading) : Prop :=
  ∃ i, rd.since ≤ i ∧ i < rd.stop ∧
    match rd.value with
    | some c => currents[i]? = some (some c) ∧ rd.seen ≠ some c
    | none => currents[i]? = some none ∨ currents[i]? = some rd.seen

/-- Since then this was the current copy for some time. -/
def Saw (currents : List (Option ℕ)) (since : ℕ) (copy : Option ℕ) : Prop :=
  ∃ i, since ≤ i ∧ currents[i]? = some copy

/-- What a reader in `lread` knows. -/
def StmReader.Tracks (currents : List (Option ℕ)) (x : StmReader) : Prop :=
  match x.pc with
  | .copyLock | .copyLoad => x.since < currents.length ∧ x.lastcopy = x.seen
  | .copyInc c => Saw currents x.since (some c) ∧ x.lastcopy = x.seen
  | .copyUnlock ret => Saw currents x.since ret ∧ x.lastcopy = x.seen
  | .drop _ .same | .resume .same => Saw currents x.since x.seen
  | .drop _ (.replace copy) | .resume (.replace copy) =>
    Saw currents x.since copy ∧ copy ≠ x.seen
  | _ => True

section Histories

variable {currents : List (Option ℕ)} {since : ℕ} {copy : Option ℕ} {x y : StmReader}
  {rd : Reading}

theorem getElem?_concat_of_some {i : ℕ} (h : currents[i]? = some copy) (new : Option ℕ) :
    (currents ++ [new])[i]? = some copy := by
  obtain ⟨hlt, -⟩ := List.getElem?_eq_some_iff.mp h
  rw [getElem?_append_left hlt]
  exact h

theorem Saw.concat (h : Saw currents since copy) (new : Option ℕ) :
    Saw (currents ++ [new]) since copy := by
  obtain ⟨i, hi, hcopy⟩ := h
  exact ⟨i, hi, getElem?_concat_of_some hcopy new⟩

theorem Reading.Correct.concat (h : rd.Correct currents) (new : Option ℕ) :
    rd.Correct (currents ++ [new]) := by
  obtain ⟨i, hsince, hstop, hvalue⟩ := h
  refine ⟨i, hsince, hstop, ?_⟩
  cases hval : rd.value with
  | some c =>
    rw [hval] at hvalue
    exact ⟨getElem?_concat_of_some hvalue.1 new, hvalue.2⟩
  | none =>
    rw [hval] at hvalue
    exact hvalue.imp (getElem?_concat_of_some · new) (getElem?_concat_of_some · new)

theorem StmReader.Tracks.concat (h : x.Tracks currents) (new : Option ℕ) :
    x.Tracks (currents ++ [new]) := by
  unfold StmReader.Tracks at h ⊢
  cases hpc : x.pc with
  | copyLock | copyLoad =>
    rw [hpc] at h
    exact ⟨by simpa using Nat.lt_succ_of_lt h.1, h.2⟩
  | copyInc c | copyUnlock ret =>
    rw [hpc] at h
    exact ⟨h.1.concat new, h.2⟩
  | drop d why | resume why =>
    rw [hpc] at h
    cases why with
    | same => exact h.concat new
    | replace copy => exact ⟨h.1.concat new, h.2⟩
    | deleted => trivial
  | _ => trivial

theorem saw_last (hlast : currents.getLast? = some copy) (hlt : since < currents.length) :
    Saw currents since copy := by
  rw [getLast?_eq_getElem?] at hlast
  exact ⟨currents.length - 1, by omega, hlast⟩

variable {sh sh' : StmShared}

theorem ReaderMove.tracks (h : ReaderMove sh x x.pc sh' y) (hx : x.Tracks sh.currents)
    (hlast : sh.currents.getLast? = some sh.copy) : y.Tracks sh.currents := by
  unfold StmReader.Tracks at hx
  generalize x.pc = pc at h hx
  cases h with
  | grab hg => cases hg <;> trivial
  | copyLock => exact hx
  | copyLoad =>
    have hsaw := saw_last hlast hx.1
    cases hcopy : sh.copy <;> exact ⟨hcopy ▸ hsaw, hx.2⟩
  | copyInc c => exact hx
  | copySame =>
    have hsaw : Saw sh.currents x.since x.seen := hx.2 ▸ hx.1
    cases hcopy : x.lastcopy <;> exact hsaw
  | copyOther copy hne =>
    have hsaw : Saw sh.currents x.since copy ∧ copy ≠ x.seen := ⟨hx.1, hx.2 ▸ hne⟩
    cases hcopy : x.lastcopy <;> exact hsaw
  | drop d why => cases hnext : (sh.drop d).2 <;> cases why <;> exact hx
  | releaseDec =>
    simp only [StmReader.goto]
    split <;> trivial
  | releaseFree | releaseUnlock => cases hcopy : x.lastcopy <;> trivial
  | _ => trivial

theorem ReaderMove.correct (h : ReaderMove sh x x.pc sh' y) (hx : x.Tracks sh.currents)
    (hreading : ∀ rd, x.reading = some rd → rd.Correct sh.currents) :
    ∀ rd, y.reading = some rd → rd.Correct sh.currents := by
  unfold StmReader.Tracks at hx
  generalize x.pc = pc at h hx
  cases h with
  | same =>
    rintro rd ⟨rfl⟩
    obtain ⟨i, hi, hseen⟩ := hx
    obtain ⟨hlt, -⟩ := List.getElem?_eq_some_iff.mp hseen
    exact ⟨i, hi, hlt, .inr hseen⟩
  | replace copy =>
    rintro rd ⟨rfl⟩
    obtain ⟨⟨i, hi, hcopy⟩, hne⟩ := hx
    obtain ⟨hlt, -⟩ := List.getElem?_eq_some_iff.mp hcopy
    cases copy with
    | none => exact ⟨i, hi, hlt, .inl hcopy⟩
    | some c => exact ⟨i, hi, hlt, hcopy, hne.symm⟩
  | _ => exact hreading

end Histories

namespace Stm

variable {R : Type} [DecidableEq R]

/-- The history of the copies, and what the readers have seen of it. -/
structure ReadInv (s : Stm R) : Prop where
  last : s.shared.currents.getLast? = some s.shared.copy
  gone : none ∈ s.shared.currents → s.shared.copy = none
  tracks : ∀ r, (s.reader r).Tracks s.shared.currents
  correct : ∀ r rd, (s.reader r).reading = some rd → rd.Correct s.shared.currents

namespace ReadInv

variable {s : Stm R} {sh' : StmShared}

omit [DecidableEq R] in
theorem newWriter : (newWriter : Stm R).ReadInv where
  last := rfl
  gone h := by cases mem_singleton.mp h
  tracks _ := trivial
  correct _ _ h := by cases h

theorem setReader (h : s.ReadInv) {r : R} {y : StmReader} (hcopy : sh'.copy = s.shared.copy)
    (hcurrents : sh'.currents = s.shared.currents) (htracks : y.Tracks s.shared.currents)
    (hcorrect : ∀ rd, y.reading = some rd → rd.Correct s.shared.currents) :
    (s.setReader r sh' y).ReadInv := by
  have hreader : ∀ r', (s.setReader r sh' y).reader r' = y ∨
      (s.setReader r sh' y).reader r' = s.reader r' := by
    intro r'
    by_cases hr : r' = r
    · exact .inl (hr ▸ Function.update_self ..)
    · exact .inr (Function.update_of_ne hr ..)
  have hsame : (s.setReader r sh' y).shared.currents = s.shared.currents := hcurrents
  constructor
  · exact (congrArg _ hcurrents).trans (h.last.trans (congrArg some hcopy.symm))
  · exact fun hmem => hcopy.trans (h.gone (hcurrents ▸ hmem))
  · intro r'
    rw [hsame]
    rcases hreader r' with heq | heq <;> rw [heq]
    · exact htracks
    · exact h.tracks r'
  · intro r' rd
    rw [hsame]
    rcases hreader r' with heq | heq <;> rw [heq]
    · exact hcorrect rd
    · exact h.correct r' rd

omit [DecidableEq R] in
theorem keep (h : s.ReadInv) {w' : WriterPc} (hcopy : sh'.copy = s.shared.copy)
    (hcurrents : sh'.currents = s.shared.currents) :
    ReadInv { s with shared := sh', writer := w' } where
  last := (congrArg _ hcurrents).trans (h.last.trans (congrArg some hcopy.symm))
  gone hmem := hcopy.trans (h.gone (hcurrents ▸ hmem))
  tracks r := hcurrents ▸ h.tracks r
  correct r rd hrd := hcurrents ▸ h.correct r rd hrd

omit [DecidableEq R] in
theorem setCopy (h : s.ReadInv) {w' : WriterPc} (new : Option ℕ)
    (hnew : none ∈ s.shared.currents → new = none) :
    ReadInv { s with shared := s.shared.setCopy new, writer := w' } where
  last := getLast?_concat
  gone hmem := by
    rcases mem_append.mp hmem with hold | hlast
    · exact hnew hold
    · exact (mem_singleton.mp hlast).symm
  tracks r := (h.tracks r).concat new
  correct r rd hrd := (h.correct r rd hrd).concat new

variable [Fintype R]

omit [DecidableEq R] in
theorem writer (h : s.ReadInv) (hinv : s.Inv) {w' : WriterPc}
    (hmove : WriterMove s.shared s.writer sh' w') :
    ReadInv { s with shared := sh', writer := w' } := by
  have hreset := hinv.reset
  generalize s.writer = w at hmove hreset
  cases hmove with
  | grab hg => exact h.keep hg.frame.1 hg.frame.2.2.2.2.2
  | updateStore new old =>
    apply h.setCopy
    intro hmem
    cases hreset.mp (h.gone hmem)
  | releaseReset => exact h.setCopy none fun _ => rfl
  | drop d why =>
    obtain ⟨-, -, -, -, hcopy, -, hcurrents⟩ := drop_frame s.shared d
    exact h.keep hcopy hcurrents
  | _ => exact h.keep rfl rfl

theorem step (h : s.ReadInv) (hinv : s.Inv) {a : StmAction R} {s' : Stm R}
    (hstep : s.step a = .ok s') : s'.ReadInv := by
  cases a with
  | copy | deleteWriter | update =>
    simp only [Stm.step] at hstep
    split at hstep <;> cases hstep
    exact h.keep rfl rfl
  | writer =>
    simp only [Stm.step] at hstep
    split at hstep
    · obtain ⟨p, hp, rfl⟩ := map_eq_ok_iff.mp hstep
      exact h.writer hinv (writer_move hp)
    · cases hstep
  | newReader r =>
    simp only [Stm.step] at hstep
    split at hstep <;> cases hstep
    exact h.setReader rfl rfl trivial (h.correct r)
  | copyReader r | deleteReader r =>
    simp only [Stm.step, Stm.enter] at hstep
    split at hstep <;> cases hstep
    exact h.setReader rfl rfl trivial (h.correct r)
  | read r =>
    simp only [Stm.step, Stm.enter] at hstep
    split at hstep <;> cases hstep
    have hpos : 0 < s.shared.currents.length := by
      apply length_pos_iff.mpr
      intro hnil
      have hlast := h.last
      rw [hnil] at hlast
      cases hlast
    exact h.setReader rfl rfl ⟨Nat.sub_lt hpos Nat.one_pos, rfl⟩ (h.correct r)
  | reader r =>
    simp only [Stm.step] at hstep
    split at hstep
    · obtain ⟨p, hp, rfl⟩ := map_eq_ok_iff.mp hstep
      have hmove := reader_move hp
      obtain ⟨hcopy, -, -, hcurrents⟩ := hmove.frame
      exact h.setReader hcopy hcurrents (hmove.tracks (h.tracks r) h.last)
        (hmove.correct (h.tracks r) (h.correct r))
    · cases hstep

end ReadInv

section Runs

variable [Fintype R] {s : Stm R}

/-- The calls up to the moment when the writer is gone and two readers have the object. -/
def twoReaders : List (StmAction Bool) :=
  [.copy, .writer, .writer, .writer, .copy, .writer, .writer, .writer, .newReader false,
    .newReader true, .deleteWriter, .writer, .writer, .writer, .writer, .writer, .writer, .writer,
    .writer, .writer]

end Runs

end Stm

end Uboss.Lib
