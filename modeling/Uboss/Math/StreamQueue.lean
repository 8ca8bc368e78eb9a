import Mathlib.Data.List.Basic

/-!
# Queues of frames written to a stream

A queue holds entries, each with the frame it was made for and the bytes of that frame that
are still to be written. Writing may stop anywhere, in particular inside an entry, and goes on
there later.
-/

namespace Uboss.Math

open List

variable {α β κ : Type*}

section Prefix

variable {u x y : List β} {b : β}

/-- An element that does not occur in `x` can only stand behind all of `x`. -/
theorem isPrefix_of_concat_isPrefix (h : u ++ [b] <+: x ++ y) (hb : b ∉ x) : x <+: u := by
  rcases List.prefix_or_prefix_of_prefix (prefix_append x y) h with hx | hu
  · rcases prefix_concat_iff.mp hx with heq | hprefix
    · exact absurd (by simp [heq]) hb
    · exact hprefix
  · exact absurd (hu.subset (by simp)) hb

end Prefix

variable (rest : α → List β) (frame : α → κ)

/-- `Advance rest frame l w l'`: writing `w` from the front of the queue `l` leaves `l'`. -/
inductive Advance : List α → List β → List α → Prop
  | nil : Advance [] [] []
  /-- Writing stopped in the head, which keeps its frame. -/
  | part {x y : α} {w : List β} {l : List α} :
      frame y = frame x → rest x = w ++ rest y → Advance (x :: l) w (y :: l)
  /-- The head was written and removed. -/
  | pass {x : α} {w : List β} {l l' : List α} :
      Advance l w l' → Advance (x :: l) (rest x ++ w) l'

namespace Advance

variable {rest frame} {l l' m m' : List α} {w w' : List β} {y : α}

theorem refl (l : List α) : Advance rest frame l [] l := by
  cases l with
  | nil => exact .nil
  | cons x l => exact .part rfl rfl

theorem flatMap_rest (h : Advance rest frame l w l') : w ++ l'.flatMap rest = l.flatMap rest := by
  induction h with
  | nil => rfl
  | part _ hrest => simp [hrest]
  | pass _ ih => simp [← ih]

theorem tail_suffix (h : Advance rest frame l w (y :: l')) : l' <:+ l := by
  generalize hq : y :: l' = q at h
  induction h with
  | nil => cases hq
  | part _ _ =>
    obtain ⟨-, rfl⟩ := cons_eq_cons.mp hq
    exact suffix_cons ..
  | pass _ ih => exact (ih hq).trans (suffix_cons ..)

/-- A queue that was emptied, and the next one. -/
theorem append_nil (h : Advance rest frame l w []) (h' : Advance rest frame m w' m') :
    Advance rest frame (l ++ m) (w ++ w') m' := by
  generalize hnil : ([] : List α) = e at h
  induction h with
  | nil => exact h'
  | part _ _ => cases hnil
  | pass _ ih =>
    rw [append_assoc]
    exact .pass (ih hnil)

/-- More entries behind the queue stay where they are. -/
theorem append_right (h : Advance rest frame l w l') (m : List α) :
    Advance rest frame (l ++ m) w (l' ++ m) := by
  induction h with
  | nil => exact refl m
  | part hframe hrest => exact .part hframe hrest
  | pass _ ih => exact .pass ih

end Advance

variable (whole : κ → List β)

/-- Nothing of the entries has been written. -/
def Fresh (l : List α) : Prop := ∀ x ∈ l, rest x = whole (frame x)

/-- The stream consists of the frames `done`, followed by what has been written of the head
of the queue; the other entries are fresh. -/
def Framed (stream : List β) (done : List κ) : List α → Prop
  | [] => stream = done.flatMap whole
  | x :: l => (∃ part, stream = done.flatMap whole ++ part ∧ part ++ rest x = whole (frame x)) ∧
      Fresh rest frame whole l

section Fresh

variable {rest frame whole} {l m : List α} {x : α}

@[simp] theorem fresh_cons :
    Fresh rest frame whole (x :: l) ↔ rest x = whole (frame x) ∧ Fresh rest frame whole l := by
  simp [Fresh]

@[simp] theorem fresh_append :
    Fresh rest frame whole (l ++ m) ↔ Fresh rest frame whole l ∧ Fresh rest frame whole m := by
  simp only [Fresh, mem_append]
  exact ⟨fun h => ⟨fun x hx => h x (.inl hx), fun x hx => h x (.inr hx)⟩,
    fun h x hx => hx.elim (h.1 x) (h.2 x)⟩

end Fresh

namespace Framed

variable {rest frame whole} {stream w : List β} {done : List κ} {l l' m : List α} {x : α}

theorem of_fresh (hstream : stream = done.flatMap whole) (hl : Fresh rest frame whole l) :
    Framed rest frame whole stream done l := by
  cases l with
  | nil => exact hstream
  | cons x l =>
    rw [fresh_cons] at hl
    exact ⟨⟨[], by simp [hstream], by simp [hl.1]⟩, hl.2⟩

/-- If the whole queue is fresh, the stream ends between two frames. -/
theorem eq_of_fresh (h : Framed rest frame whole stream done l)
    (hl : Fresh rest frame whole l) : stream = done.flatMap whole := by
  cases l with
  | nil => exact h
  | cons x l =>
    obtain ⟨⟨part, hstream, hpart⟩, -⟩ := h
    rw [(fresh_cons.mp hl).1, append_left_eq_self] at hpart
    simpa [hpart] using hstream

theorem append_fresh (h : Framed rest frame whole stream done l)
    (hm : Fresh rest frame whole m) : Framed rest frame whole stream done (l ++ m) := by
  cases l with
  | nil => exact of_fresh h hm
  | cons x l => exact ⟨h.1, fresh_append.mpr ⟨h.2, hm⟩⟩

theorem of_append (h : Framed rest frame whole stream done (l ++ m)) (hne : l = [] → m = []) :
    Framed rest frame whole stream done l := by
  cases l with
  | nil => rwa [hne rfl] at h
  | cons x l => exact ⟨h.1, (fresh_append.mp h.2).1⟩

/-- Writing from the queue completes the frames of the removed entries. -/
theorem advance (h : Framed rest frame whole stream done l) (hadv : Advance rest frame l w l') :
    ∃ passed, l.map frame = passed ++ l'.map frame ∧
      Framed rest frame whole (stream ++ w) (done ++ passed) l' := by
  induction hadv generalizing stream done with
  | nil => exact ⟨[], rfl, by simpa using h⟩
  | @part x y w l hframe hrest =>
    obtain ⟨⟨part, hstream, hpart⟩, hfresh⟩ := h
    refine ⟨[], by simp [hframe], ⟨part ++ w, by simp [hstream], ?_⟩, hfresh⟩
    rw [append_assoc, ← hrest, hpart, hframe]
  | @pass x w l l' _ ih =>
    obtain ⟨⟨part, hstream, hpart⟩, hfresh⟩ := h
    -- the head is finished: the stream now ends between two frames
    have hnext : stream ++ rest x = (done ++ [frame x]).flatMap whole := by
      simp [hstream, hpart]
    obtain ⟨passed, hpassed, hframed⟩ := ih (of_fresh hnext hfresh)
    exact ⟨frame x :: passed, by simp [hpassed], by simpa using hframed⟩

/-- A framed stream is a sequence of frames, followed by at most one part of a frame. -/
theorem exists_prefix (h : Framed rest frame whole stream done l) : stream = done.flatMap whole ∨
      ∃ x ∈ l.head?, ∃ part, part <+: whole (frame x) ∧ stream = done.flatMap whole ++ part := by
  cases l with
  | nil => exact .inl h
  | cons x l =>
    obtain ⟨⟨part, hstream, hpart⟩, -⟩ := h
    exact .inr ⟨x, rfl, part, ⟨rest x, hpart⟩, hstream⟩

end Framed

end Uboss.Math
