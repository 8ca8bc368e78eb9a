import Mathlib.Data.List.Basic

/-!
# Words with an escape letter

A word is written letter by letter. Most letters stand for themselves; the others are written as
the escape letter and one more letter. A letter of what is written is escaped if the escape letter
stands before it and is not escaped itself.
-/

namespace Uboss.Math

open List

variable {α : Type*}

/-- A letter stands for itself, or it is written as the escape letter and another letter, where
`value d` is what the escape letter and `d` stand for. -/
structure EscapeCode (esc : α) (value : α → List α) where
  code : α → List α
  code_eq (c : α) : code c = [c] ∧ c ≠ esc ∨ ∃ d, code c = [esc, d] ∧ value d = [c]

namespace EscapeCode

variable {esc : α} {value : α → List α} (e : EscapeCode esc value)

/-- What is written for a word. -/
def encode (w : List α) : List α := w.flatMap e.code

@[simp] theorem encode_nil : e.encode [] = [] := rfl

@[simp] theorem encode_cons (c : α) (w : List α) : e.encode (c :: w) = e.code c ++ e.encode w :=
  flatMap_cons

theorem length_code (c : α) : e.code c = [c] ∨ (e.code c).length = 2 := by
  obtain ⟨hcode, -⟩ | ⟨d, hcode, -⟩ := e.code_eq c
  · exact .inl hcode
  · exact .inr (congrArg List.length hcode)

theorem length_le_encode (w : List α) : w.length ≤ (e.encode w).length := by
  induction w with
  | nil => exact Nat.le_refl 0
  | cons c w ih =>
    rw [encode_cons, length_append, length_cons]
    obtain hcode | hcode := e.length_code c
    · rw [hcode, length_singleton]
      omega
    · omega

theorem length_encode_le (w : List α) : (e.encode w).length ≤ 2 * w.length := by
  induction w with
  | nil => exact Nat.le_refl 0
  | cons c w ih =>
    rw [encode_cons, length_append, length_cons]
    obtain hcode | hcode := e.length_code c
    · rw [hcode, length_singleton]
      omega
    · omega

/-- A word that does not get longer is not changed. -/
theorem encode_of_length {w : List α} (h : (e.encode w).length = w.length) : e.encode w = w := by
  induction w with
  | nil => rfl
  | cons c w ih =>
    have hle := e.length_le_encode w
    rw [encode_cons, length_append, length_cons] at h
    obtain hcode | hcode := e.length_code c
    · rw [hcode, length_singleton] at h
      rw [encode_cons, hcode, ih (by omega), singleton_append]
    · omega

end EscapeCode

variable [DecidableEq α]

/-- Whether the letter behind a word is escaped, if it is for the empty word. -/
def escapingFrom (esc : α) : Bool → List α → Bool
  | escaped, [] => escaped
  | escaped, c :: w => escapingFrom esc (!escaped && c == esc) w

/-- The letter behind a word is escaped. -/
def isEscaping (esc : α) (w : List α) : Bool := escapingFrom esc false w

/-- The word that is read. -/
def unescape (esc : α) (value : α → List α) : List α → List α
  | [] => []
  | [c] => [c]
  | c :: d :: w =>
    if c = esc then value d ++ unescape esc value w else c :: unescape esc value (d :: w)

section Reading

variable {esc : α} {c d : α} {w : List α} {value : α → List α}

theorem isEscaping_plain (hc : c ≠ esc) : isEscaping esc (c :: w) = isEscaping esc w := by
  rw [isEscaping, escapingFrom, beq_false_of_ne hc, Bool.and_false, isEscaping]

theorem isEscaping_pair : isEscaping esc (esc :: d :: w) = isEscaping esc w := by
  simp [isEscaping, escapingFrom]

theorem isEscaping_single : isEscaping esc [esc] = true := by
  simp [isEscaping, escapingFrom]

theorem unescape_plain (hc : c ≠ esc) :
    unescape esc value (c :: w) = c :: unescape esc value w := by
  cases w with
  | nil => rfl
  | cons d w => rw [unescape, if_neg hc]

theorem unescape_pair : unescape esc value (esc :: d :: w) = value d ++ unescape esc value w := by
  rw [unescape, if_pos rfl]

end Reading

namespace EscapeCode

variable {esc : α} {value : α → List α} (e : EscapeCode esc value)

/-- The letter behind a word is not escaped. -/
theorem isEscaping_encode (w : List α) : isEscaping esc (e.encode w) = false := by
  induction w with
  | nil => rfl
  | cons c w ih =>
    rw [encode_cons]
    obtain ⟨hcode, hc⟩ | ⟨d, hcode, -⟩ := e.code_eq c
    · rw [hcode, singleton_append, isEscaping_plain hc, ih]
    · rw [hcode, cons_append, singleton_append, isEscaping_pair, ih]

/-- Reading gives back what was written. -/
theorem unescape_encode (w : List α) : unescape esc value (e.encode w) = w := by
  induction w with
  | nil => rfl
  | cons c w ih =>
    rw [encode_cons]
    obtain ⟨hcode, hc⟩ | ⟨d, hcode, hvalue⟩ := e.code_eq c
    · rw [hcode, singleton_append, unescape_plain hc, ih]
    · rw [hcode, cons_append, singleton_append, unescape_pair, hvalue, ih, singleton_append]

theorem encode_injective : Function.Injective e.encode :=
  Function.LeftInverse.injective e.unescape_encode

/-- A letter that does not stand for itself occurs only behind an escape letter that is not
escaped. -/
theorem isEscaping_of_encode_eq {q : α} (hq : e.code q ≠ [q]) (hesc : q ≠ esc) {w a b : List α}
    (h : e.encode w = a ++ q :: b) : isEscaping esc a = true := by
  induction w generalizing a with
  | nil => simp at h
  | cons c w ih =>
    rw [encode_cons] at h
    obtain ⟨hcode, hc⟩ | ⟨d, hcode, -⟩ := e.code_eq c
    · rw [hcode, singleton_append] at h
      cases a with
      | nil =>
        obtain ⟨rfl, -⟩ := cons.inj h
        exact absurd hcode hq
      | cons x a =>
        obtain ⟨rfl, hw⟩ := cons.inj h
        rw [isEscaping_plain hc]
        exact ih hw
    · rw [hcode, cons_append, singleton_append] at h
      -- The letter is the escape letter, or the one behind it, or it belongs to a later letter.
      match a with
      | [] => exact absurd (cons.inj h).1.symm hesc
      | [x] =>
        obtain ⟨rfl, -⟩ := cons.inj h
        exact isEscaping_single
      | x :: y :: a =>
        obtain ⟨rfl, hw⟩ := cons.inj h
        rw [isEscaping_pair]
        exact ih (cons.inj hw).2

end EscapeCode

end Uboss.Math
