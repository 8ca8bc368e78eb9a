import Mathlib.Data.List.Lex

/-!
# Traversals with a bound on the depth

A graph is given by the list of the children of each vertex. From a vertex on, a path is the list of
the positions of the children that are taken, and the paths are ordered as a traversal meets them: a
path comes before its extensions, and before all that lies behind it. A traversal stops at the first
vertex that is not accepted, and where the bound on the depth is passed.
-/

namespace Uboss.Math

open List Option Nat

variable {V E : Type*} {children : V → List V} {bad : V → Option E}

/-- The vertex at the end of a path. -/
def vertexAt (children : V → List V) : V → List ℕ → Option V
  | v, [] => some v
  | v, i :: p => (children v)[i]?.bind fun x => vertexAt children x p

/-- Where a traversal ends. -/
inductive Stop (E : Type*)
  | deep
  | bad (e : E)
  deriving DecidableEq, Repr

/-- The traversal of what lies behind a vertex, with so many levels left. -/
def visit (children : V → List V) (bad : V → Option E) : ℕ → V → Except (Stop E) Unit
  | 0, _ => .error .deep
  | left + 1, v =>
    match bad v with
    | some e => .error (.bad e)
    | none => (children v).forM (visit children bad left)

variable {v x : V} {p q : List ℕ} {left i : ℕ}

theorem vertexAt_cons : vertexAt children v (i :: p) = some x ↔
      ∃ y, (children v)[i]? = some y ∧ vertexAt children y p = some x :=
  bind_eq_some_iff

theorem vertexAt_append {y : V} (h : vertexAt children v p = some y) :
    vertexAt children v (p ++ q) = vertexAt children y q := by
  induction p generalizing v with
  | nil => rw [nil_append, some_inj.mp h]
  | cons i p ih =>
    obtain ⟨z, hz, hp⟩ := vertexAt_cons.mp h
    rw [cons_append, vertexAt, hz]
    exact ih hp

theorem vertexAt_concat (h : vertexAt children v (p ++ [i]) = some x) :
    ∃ y, vertexAt children v p = some y ∧ (children y)[i]? = some x := by
  induction p generalizing v with
  | nil =>
    obtain ⟨y, hy, hx⟩ := vertexAt_cons.mp h
    exact ⟨v, rfl, by rw [hy, ← hx]; rfl⟩
  | cons j p ih =>
    obtain ⟨z, hz, hp⟩ := vertexAt_cons.mp h
    obtain ⟨y, hy, hx⟩ := ih hp
    exact ⟨y, by rw [vertexAt, hz]; exact hy, hx⟩

/-! ### The order of the paths -/

theorem lt_concat (p : List ℕ) (i : ℕ) : p < p ++ [i] := by
  induction p with
  | nil => exact nil_lt_cons i []
  | cons j p ih => exact cons_lt_cons_iff.mpr (.inr ⟨rfl, ih⟩)

theorem le_of_lt_concat_zero (h : q < p ++ [0]) : q ≤ p := by
  induction p generalizing q with
  | nil =>
    cases q with
    | nil => exact le_rfl
    | cons j q =>
      rcases cons_lt_cons_iff.mp h with hlt | ⟨-, hlt⟩
      · exact absurd hlt (Nat.not_lt_zero j)
      · exact absurd hlt (not_lt_nil q)
  | cons i p ih =>
    cases q with
    | nil => exact (nil_lt_cons i p).le
    | cons j q =>
      rcases cons_lt_cons_iff.mp h with hlt | ⟨rfl, hlt⟩
      · exact (cons_lt_cons_iff.mpr (.inl hlt)).le
      · rcases (ih hlt).lt_or_eq with hlt | rfl
        · exact (cons_lt_cons_iff.mpr (.inr ⟨rfl, hlt⟩)).le
        · exact le_rfl

/-! ### Loops -/

section ForM

variable {F : Type*} {f : V → Except F Unit} {l : List V}

theorem forM_cons : (x :: l).forM f = (f x).bind fun _ => l.forM f := rfl

theorem forM_eq_ok_iff : l.forM f = .ok () ↔ ∀ x ∈ l, f x = .ok () := by
  induction l with
  | nil => exact iff_of_true rfl (by simp)
  | cons x l ih =>
    rw [forM_cons, forall_mem_cons, ← ih]
    cases h : f x with
    | error e => exact iff_of_false (fun h => by cases h) (fun h => by cases h.1)
    | ok u => exact (and_iff_right rfl).symm

theorem forM_eq_error_iff {e : F} : l.forM f = .error e ↔
      ∃ (i : ℕ) (x : V), l[i]? = some x ∧ f x = .error e ∧
        ∀ j < i, ∀ y, l[j]? = some y → f y = .ok () := by
  induction l with
  | nil => exact iff_of_false (fun h => by cases h) (by simp)
  | cons x l ih =>
    rw [forM_cons]
    cases hx : f x with
    | error e' =>
      constructor
      · intro h
        refine ⟨0, x, rfl, ?_, fun j hj => absurd hj (Nat.not_lt_zero j)⟩
        rw [hx, Except.error.inj h]
      · rintro ⟨i, y, hy, hfail, hbefore⟩
        cases i with
        | zero =>
          obtain rfl : x = y := some_inj.mp hy
          exact hx.symm.trans hfail
        | succ i =>
          have hok := hbefore 0 (succ_pos i) x rfl
          rw [hx] at hok
          cases hok
    | ok u =>
      refine Iff.trans ih ⟨?_, ?_⟩
      · rintro ⟨i, y, hy, hfail, hbefore⟩
        refine ⟨i + 1, y, hy, hfail, fun j hj z hz => ?_⟩
        cases j with
        | zero =>
          obtain rfl : x = z := some_inj.mp hz
          exact hx
        | succ j => exact hbefore j (by omega) z hz
      · rintro ⟨i, y, hy, hfail, hbefore⟩
        cases i with
        | zero =>
          obtain rfl : x = y := some_inj.mp hy
          rw [hx] at hfail
          cases hfail
        | succ i => exact ⟨i, y, hy, hfail, fun j hj z hz => hbefore (j + 1) (by omega) z hz⟩

end ForM

/-! ### Where a traversal ends -/

/-- A traversal goes through when all paths are short and all vertices accepted. -/
theorem visit_eq_ok_iff : visit children bad left v = .ok () ↔
      ∀ p x, vertexAt children v p = some x → p.length < left ∧ bad x = none := by
  induction left generalizing v with
  | zero =>
    refine iff_of_false (fun h => by cases h) fun h => ?_
    exact absurd (h [] v rfl).1 (Nat.not_lt_zero _)
  | succ left ih =>
    rw [visit]
    cases hbad : bad v with
    | some e =>
      refine iff_of_false (fun h => by cases h) fun h => ?_
      rw [(h [] v rfl).2] at hbad
      cases hbad
    | none =>
      dsimp only
      rw [forM_eq_ok_iff]
      constructor
      · intro h p x hp
        cases p with
        | nil =>
          obtain rfl : v = x := some_inj.mp hp
          exact ⟨succ_pos _, hbad⟩
        | cons i p =>
          obtain ⟨y, hy, hx⟩ := vertexAt_cons.mp hp
          obtain ⟨hlength, haccepted⟩ := ih.mp (h y (mem_of_getElem? hy)) p x hx
          exact ⟨succ_lt_succ hlength, haccepted⟩
      · intro h y hy
        obtain ⟨i, hi⟩ := getElem?_of_mem hy
        refine ih.mpr fun p x hp => ?_
        obtain ⟨hlength, haccepted⟩ := h (i :: p) x (vertexAt_cons.mpr ⟨y, hi, hp⟩)
        exact ⟨lt_of_succ_lt_succ hlength, haccepted⟩

/-- A traversal that ends with a refusal has met a refused node. -/
theorem exists_of_visit_eq_bad {e : E} (h : visit children bad left v = .error (.bad e)) :
    ∃ p x, vertexAt children v p = some x ∧ bad x = some e := by
  induction left generalizing v with
  | zero => cases h
  | succ left ih =>
    rw [visit] at h
    cases hbad : bad v with
    | some e' =>
      rw [hbad] at h
      refine ⟨[], v, rfl, ?_⟩
      rw [hbad, Stop.bad.inj (Except.error.inj h)]
    | none =>
      rw [hbad] at h
      obtain ⟨i, y, hy, hfail, -⟩ := forM_eq_error_iff.mp h
      obtain ⟨p, x, hp, hx⟩ := ih hfail
      exact ⟨i :: p, x, vertexAt_cons.mpr ⟨y, hy, hp⟩, hx⟩

/-- The bound is passed when a long path comes before all vertices that are not accepted. -/
theorem visit_eq_deep_iff : visit children bad left v = .error .deep ↔
      ∃ p x, vertexAt children v p = some x ∧ left ≤ p.length ∧
        ∀ q < p, ∀ y, vertexAt children v q = some y → bad y = none := by
  induction left generalizing v with
  | zero =>
    refine iff_of_true rfl ⟨[], v, rfl, le_rfl, fun q hq => ?_⟩
    exact absurd hq (not_lt_nil q)
  | succ left ih =>
    rw [visit]
    cases hbad : bad v with
    | some e =>
      refine iff_of_false (fun h => by cases h) ?_
      rintro ⟨p, x, hp, hlength, hbefore⟩
      -- the vertex itself comes first
      have hne : ([] : List ℕ) < p := by
        cases p with
        | nil => simp at hlength
        | cons i p => exact nil_lt_cons i p
      rw [hbefore [] hne v rfl] at hbad
      cases hbad
    | none =>
      dsimp only
      rw [forM_eq_error_iff]
      constructor
      · rintro ⟨i, y, hy, hfail, hok⟩
        obtain ⟨p, x, hp, hlength, hbefore⟩ := ih.mp hfail
        refine ⟨i :: p, x, vertexAt_cons.mpr ⟨y, hy, hp⟩, succ_le_succ hlength, ?_⟩
        intro q hq z hz
        cases q with
        | nil =>
          obtain rfl : v = z := some_inj.mp hz
          exact hbad
        | cons j q =>
          obtain ⟨w, hw, hz⟩ := vertexAt_cons.mp hz
          rcases cons_lt_cons_iff.mp hq with hji | ⟨rfl, hqp⟩
          · exact (visit_eq_ok_iff.mp (hok j hji w hw) q z hz).2
          · obtain rfl : y = w := some_inj.mp (hy.symm.trans hw)
            exact hbefore q hqp z hz
      · rintro ⟨p, x, hp, hlength, hbefore⟩
        cases p with
        | nil => simp at hlength
        | cons i p =>
          obtain ⟨y, hy, hx⟩ := vertexAt_cons.mp hp
          have hdeep : visit children bad left y = .error .deep := by
            refine ih.mpr ⟨p, x, hx, le_of_succ_le_succ hlength, fun q hq z hz => ?_⟩
            exact hbefore (i :: q) (cons_lt_cons_iff.mpr (.inr ⟨rfl, hq⟩)) z
              (vertexAt_cons.mpr ⟨y, hy, hz⟩)
          -- the loop fails at the latest here, and earlier only for the same reason
          have hfails : ∃ e, (children v).forM (visit children bad left) = .error e := by
            cases hloop : (children v).forM (visit children bad left) with
            | error e => exact ⟨e, rfl⟩
            | ok u =>
              have hok := forM_eq_ok_iff.mp hloop y (mem_of_getElem? hy)
              rw [hdeep] at hok
              cases hok
          obtain ⟨e, he⟩ := hfails
          obtain ⟨j, w, hw, hfail, hok⟩ := forM_eq_error_iff.mp he
          refine ⟨j, w, hw, ?_, hok⟩
          have hji : j ≤ i := by
            by_contra hlt
            have hok := hok i (by omega) y hy
            rw [hdeep] at hok
            cases hok
          rcases Nat.lt_or_eq_of_le hji with hlt | rfl
          · cases e with
            | deep => exact hfail
            | bad e =>
              obtain ⟨q, z, hz, hzbad⟩ := exists_of_visit_eq_bad hfail
              rw [hbefore (j :: q) (cons_lt_cons_iff.mpr (.inl hlt)) z
                (vertexAt_cons.mpr ⟨w, hw, hz⟩)] at hzbad
              cases hzbad
          · obtain rfl : y = w := some_inj.mp (hy.symm.trans hw)
            exact hdeep

/-! ### Cycles -/

/-- The bound is passed below a vertex at the end of a long path. -/
theorem visit_succ_eq_deep_iff : visit children bad (left + 1) v = .error .deep ↔
      ∃ p x, vertexAt children v p = some x ∧ children x ≠ [] ∧ left ≤ p.length ∧
        ∀ q ≤ p, ∀ y, vertexAt children v q = some y → bad y = none := by
  rw [visit_eq_deep_iff]
  constructor
  · rintro ⟨p, x, hp, hlength, hbefore⟩
    obtain ⟨p, i, rfl⟩ : ∃ p' i, p = p' ++ [i] := by
      refine ⟨p.dropLast, p.getLast ?_, (dropLast_append_getLast _).symm⟩
      apply ne_nil_of_length_pos
      omega
    obtain ⟨y, hy, hx⟩ := vertexAt_concat hp
    rw [length_append, length_singleton] at hlength
    refine ⟨p, y, hy, ?_, by omega, fun q hq => hbefore q (lt_of_le_of_lt hq ?_)⟩
    · apply ne_nil_of_mem
      exact mem_of_getElem? hx
    · exact lt_concat p i
  · rintro ⟨p, x, hp, hne, hlength, hbefore⟩
    obtain ⟨y, hy⟩ : ∃ y, (children x)[0]? = some y :=
      ⟨_, getElem?_eq_getElem (length_pos_of_ne_nil hne)⟩
    refine ⟨p ++ [0], y, ?_, ?_, fun q hq => ?_⟩
    · rw [vertexAt_append hp, vertexAt_cons]
      exact ⟨y, hy, rfl⟩
    · rw [length_append]
      exact succ_le_succ hlength
    · exact hbefore q (le_of_lt_concat_zero hq)

theorem exists_long_path (hq : vertexAt children v q = some v) (hne : q ≠ []) (n : ℕ) :
    ∃ p, n ≤ p.length ∧ vertexAt children v p = some v := by
  induction n with
  | zero => exact ⟨[], le_rfl, rfl⟩
  | succ n ih =>
    obtain ⟨p, hlength, hp⟩ := ih
    have hpos : 0 < q.length := length_pos_of_ne_nil hne
    refine ⟨q ++ p, ?_, ?_⟩
    · rw [length_append]
      omega
    · rw [vertexAt_append hq]
      exact hp

/-- No traversal goes through where a cycle can be reached. -/
theorem visit_ne_ok_of_cycle (hp : vertexAt children v p = some x)
    (hq : vertexAt children x q = some x) (hne : q ≠ []) :
    visit children bad left v ≠ .ok () := by
  intro hok
  obtain ⟨r, hlength, hr⟩ := exists_long_path hq hne left
  have hpr : vertexAt children v (p ++ r) = some x := by
    rw [vertexAt_append hp]
    exact hr
  have hshort := (visit_eq_ok_iff.mp hok _ x hpr).1
  rw [length_append] at hshort
  omega

end Uboss.Math
