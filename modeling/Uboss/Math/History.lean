import Mathlib.Data.List.Basic

/-!
# Histories

A history is the list of events of a run, oldest first. `OpenSince start stop log` says
that `start` occurred and that `stop` did not occur after it: something was opened and is
still open. `Justified P log` says that every event is allowed by what happened before it.
-/

namespace Uboss.Math

open List

variable {ε : Type*} {start stop e : ε} {log : List ε}

/-- `start` occurred in `log`, and `stop` did not occur since. -/
def OpenSince (start stop : ε) (log : List ε) : Prop :=
  ∃ before after, log = before ++ start :: after ∧ stop ∉ after

@[simp] theorem not_openSince_nil : ¬ OpenSince start stop [] := by
  rintro ⟨before, after, h, -⟩
  simp at h

theorem openSince_concat :
    OpenSince start stop (log ++ [e]) ↔ e = start ∨ (OpenSince start stop log ∧ e ≠ stop) := by
  constructor
  · rintro ⟨before, after, h, hstop⟩
    rcases eq_nil_or_concat after with rfl | ⟨front, last, rfl⟩
    · exact .inl (append_inj_right' h rfl |> singleton_inj.mp)
    · rw [concat_eq_append, ← cons_append, ← append_assoc] at h
      obtain ⟨hlog, hlast⟩ := append_inj' h rfl
      obtain rfl := singleton_inj.mp hlast
      simp only [concat_eq_append, mem_append, mem_singleton, not_or] at hstop
      exact .inr ⟨⟨before, front, hlog, hstop.1⟩, Ne.symm hstop.2⟩
  · rintro (rfl | ⟨⟨before, after, rfl, hstop⟩, hne⟩)
    · exact ⟨log, [], rfl, by simp⟩
    · refine ⟨before, after ++ [e], by simp, ?_⟩
      simp only [mem_append, mem_singleton, not_or]
      exact ⟨hstop, Ne.symm hne⟩

/-- Every event of `log` stands in the relation `P` to the events before it. -/
def Justified (P : List ε → ε → Prop) (log : List ε) : Prop :=
  ∀ before e after, log = before ++ e :: after → P before e

namespace Justified

variable {P : List ε → ε → Prop} {es : List ε}

theorem nil : Justified P [] := by
  intro before e after h
  simp at h

theorem concat (h : Justified P log) (he : P log e) : Justified P (log ++ [e]) := by
  intro before d after hlog
  rcases eq_nil_or_concat after with rfl | ⟨front, last, rfl⟩
  · obtain ⟨rfl, hd⟩ := append_inj' hlog rfl
    obtain rfl := singleton_inj.mp hd
    exact he
  · rw [concat_eq_append, ← cons_append, ← append_assoc] at hlog
    exact h before d front (append_inj' hlog rfl).1

/-- More events, each of which is allowed by what happened before all of them. -/
theorem append (hmono : ∀ {l e d}, P l e → P (l ++ [d]) e) (h : Justified P log)
    (hes : ∀ e ∈ es, P log e) : Justified P (log ++ es) := by
  induction es generalizing log with
  | nil => rwa [append_nil]
  | cons e es ih =>
    rw [append_cons]
    apply ih
    · exact h.concat (hes e mem_cons_self)
    · intro d hd
      exact hmono (hes d (mem_cons_of_mem e hd))

end Justified

end Uboss.Math
