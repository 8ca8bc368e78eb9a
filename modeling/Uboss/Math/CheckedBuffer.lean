import Uboss.Math.CInt

/-!
# Buffers with a capacity

The elements of a buffer are written one behind the other. An element that is written outside of the
buffer is an error.
-/

namespace Uboss.Math

variable {α ε : Type} {e : ε} {index : ℤ → Except ε ℤ} {capacity i : ℕ} {buffer cs : List α}

/-- `buffer[j] = c`, where `j` is the next index. -/
def writeNext (outOfBounds : ε) (capacity : ℕ) (buffer : List α) (j : ℤ) (c : α) :
    Except ε (List α) :=
  if j = buffer.length ∧ j < capacity then .ok (buffer ++ [c]) else .error outOfBounds

/-- `buffer[j] = …`, `buffer[j+1] = …`, and so on. The computation of an index may fail. -/
def writeList (outOfBounds : ε) (index : ℤ → Except ε ℤ) (capacity : ℕ) :
    List α → ℤ → List α → Except ε (List α)
  | [], _, buffer => .ok buffer
  | c :: cs, j, buffer => do
    let k ← index j
    let buffer ← writeNext outOfBounds capacity buffer k c
    writeList outOfBounds index capacity cs (j + 1) buffer

theorem writeNext_ok {c : α} (hi : i = buffer.length) (hcapacity : i < capacity) :
    writeNext e capacity buffer i c = .ok (buffer ++ [c]) :=
  if_pos ⟨by exact_mod_cast hi, by exact_mod_cast hcapacity⟩

/-- Elements that fit are written one behind the other. -/
theorem writeList_ok (hindex : ∀ k : ℕ, k < i + cs.length → index k = .ok k)
    (hi : i = buffer.length) (hcapacity : i + cs.length ≤ capacity) :
    writeList e index capacity cs i buffer = .ok (buffer ++ cs) := by
  induction cs generalizing i buffer with
  | nil => simp [writeList]
  | cons c cs ih =>
    rw [List.length_cons] at hindex hcapacity
    rw [writeList, hindex i (by omega), ok_bind, writeNext_ok hi (by omega), ok_bind]
    have hnext := @ih (i + 1) (buffer ++ [c]) (fun k hk => hindex k (by omega)) (by simp [hi])
      (by omega)
    rw [List.append_assoc] at hnext
    exact_mod_cast hnext

end Uboss.Math
