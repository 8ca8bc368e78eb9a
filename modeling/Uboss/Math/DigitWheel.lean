import Mathlib.Data.List.Range
import Mathlib.Data.Nat.ModEq

/-!
# Hierarchical timing wheels

A clock counts modulo `B n` through nested blocks of lengths `B 0 ∣ B 1 ∣ … ∣ B n`. A
deadline `e` is filed, as seen from the present time `o`, at the first level at which the
two lie in the same block, under the digit of `e` below that level. When the clock advances,
the only file whose deadlines have to be refiled is the one in which the new time itself
would have been filed.
-/

namespace Uboss.Math

open List Nat

/-- The first level at which `o` and `e` lie in the same block; the last one is `n`. -/
def wheelLevel (B : ℕ → ℕ) (n o e : ℕ) : ℕ :=
  ((List.range n).find? fun i => e / B i = o / B i).getD n

/-- The digit of `e` below level `l`. -/
def wheelDigit (B : ℕ → ℕ) : ℕ → ℕ → ℕ
  | 0, e => e % B 0
  | l + 1, e => e / B l % (B (l + 1) / B l)

section Level

variable {B : ℕ → ℕ} {n o e c : ℕ}

/-- A level is determined by agreement at it and disagreement below it. -/
theorem wheelLevel_eq_iff (htop : e / B n = o / B n) {l : ℕ} :
    wheelLevel B n o e = l ↔ l ≤ n ∧ e / B l = o / B l ∧ ∀ j < l, e / B j ≠ o / B j := by
  unfold wheelLevel
  cases hfind : (List.range n).find? fun i => e / B i = o / B i with
  | none =>
    have hnone : ∀ j < n, e / B j ≠ o / B j := by
      simpa [find?_eq_none] using hfind
    simp only [Option.getD_none]
    constructor
    · rintro rfl
      exact ⟨le_rfl, htop, hnone⟩
    · rintro ⟨hle, heq, -⟩
      by_contra hne
      exact hnone l (by omega) heq
  | some i =>
    rw [find?_range_eq_some] at hfind
    simp only [decide_eq_true_eq, mem_range, Bool.not_eq_true', decide_eq_false_iff_not]
      at hfind
    obtain ⟨heq, hi, hbefore⟩ := hfind
    simp only [Option.getD_some]
    constructor
    · rintro rfl
      exact ⟨by omega, heq, hbefore⟩
    · rintro ⟨hle, heq', hbefore'⟩
      by_contra hne
      rcases lt_or_gt_of_ne hne with hlt | hgt
      · exact hbefore' i hlt heq
      · exact hbefore l hgt heq'

theorem wheelLevel_spec (htop : e / B n = o / B n) :
    wheelLevel B n o e ≤ n ∧ e / B (wheelLevel B n o e) = o / B (wheelLevel B n o e) ∧
      ∀ j < wheelLevel B n o e, e / B j ≠ o / B j :=
  (wheelLevel_eq_iff htop).mp rfl

theorem div_eq_of_le (hdvd : ∀ i, B i ∣ B (i + 1)) {i j x y : ℕ} (hij : i ≤ j)
    (h : x / B i = y / B i) : x / B j = y / B j := by
  induction j, hij using le_induction with
  | base => exact h
  | succ j _ ih =>
    obtain ⟨k, hk⟩ := hdvd j
    rw [hk, ← Nat.div_div_eq_div_mul, ← Nat.div_div_eq_div_mul, ih]

theorem div_eq_of_wheelDigit_eq (hdvd : ∀ i, B i ∣ B (i + 1)) (hpos : ∀ i, 0 < B i)
    {l x y : ℕ} (hblock : x / B (l + 1) = y / B (l + 1))
    (hdigit : wheelDigit B (l + 1) x = wheelDigit B (l + 1) y) : x / B l = y / B l := by
  obtain ⟨k, hk⟩ := hdvd l
  have hquot : B (l + 1) / B l = k := by rw [hk, Nat.mul_div_cancel_left _ (hpos l)]
  simp only [wheelDigit, hquot] at hdigit
  rw [hk, ← Nat.div_div_eq_div_mul, ← Nat.div_div_eq_div_mul] at hblock
  rw [← div_add_mod (x / B l) k, ← div_add_mod (y / B l) k, hblock, hdigit]

/-! ### A tick

`o` is the old time, `c` the new one, and `e` a deadline that is not left behind: whenever
the tick leaves a block, `e` is not in the block that was left. -/

variable (hdvd : ∀ i, B i ∣ B (i + 1)) (hpos : ∀ i, 0 < B i)
  (htop : e / B n = o / B n) (htopc : c / B n = o / B n)
  (hahead : ∀ j < n, c / B j ≠ o / B j → e / B j ≠ o / B j)

include hahead htop htopc in
/-- Nothing ahead of the clock is filed below the file of the new time. -/
theorem wheelLevel_next_le : wheelLevel B n o c ≤ wheelLevel B n o e := by
  obtain ⟨hle, heq, -⟩ := wheelLevel_spec htop
  obtain ⟨hlec, -, hbefore⟩ := wheelLevel_spec htopc
  by_contra hlt
  exact hahead _ (by omega) (hbefore _ (by omega)) heq

include hahead hdvd htop htopc in
/-- A deadline outside the file of the new time keeps its level. -/
theorem wheelLevel_next_eq
    (hfile : wheelLevel B n o e = wheelLevel B n o c → wheelLevel B n o c ≠ 0 →
      wheelDigit B (wheelLevel B n o c) e ≠ wheelDigit B (wheelLevel B n o c) c) :
    wheelLevel B n c e = wheelLevel B n o e := by
  have hle := wheelLevel_next_le htop htopc hahead
  obtain ⟨hn, heq, hbefore⟩ := wheelLevel_spec htop
  obtain ⟨-, heqc, hbeforec⟩ := wheelLevel_spec htopc
  have hsame : ∀ {j}, wheelLevel B n o c ≤ j → c / B j = o / B j :=
    fun hj => div_eq_of_le hdvd hj heqc
  rw [wheelLevel_eq_iff (htop.trans htopc.symm)]
  refine ⟨hn, heq.trans (hsame hle).symm, fun j hj hej => ?_⟩
  by_cases hjc : wheelLevel B n o c ≤ j
  · exact hbefore j hj (hej.trans (hsame hjc))
  · rcases hle.lt_or_eq with hlt | heql
    · exact hbefore _ hlt ((div_eq_of_le hdvd (by omega) hej).trans heqc)
    · obtain ⟨l, hl⟩ := exists_eq_succ_of_ne_zero (show wheelLevel B n o c ≠ 0 by omega)
      refine hfile heql.symm (by omega) ?_
      rw [hl]
      have hblock : e / B l = c / B l := div_eq_of_le hdvd (by omega) hej
      simp only [wheelDigit, hblock]

include hdvd hpos htop htopc in
/-- A deadline in the file of the new time moves to a lower level. -/
theorem wheelLevel_next_lt (hlevel : wheelLevel B n o e = wheelLevel B n o c)
    (hne : wheelLevel B n o c ≠ 0)
    (hdigit : wheelDigit B (wheelLevel B n o c) e = wheelDigit B (wheelLevel B n o c) c) :
    wheelLevel B n c e < wheelLevel B n o c := by
  obtain ⟨l, hl⟩ := exists_eq_succ_of_ne_zero hne
  obtain ⟨-, heq, -⟩ := wheelLevel_spec htop
  obtain ⟨-, heqc, -⟩ := wheelLevel_spec htopc
  rw [hlevel, hl] at heq
  rw [hl] at heqc hdigit
  have hblock : e / B l = c / B l := div_eq_of_wheelDigit_eq hdvd hpos (heq.trans heqc.symm) hdigit
  obtain ⟨-, -, hbefore⟩ := wheelLevel_spec (htop.trans htopc.symm)
  rw [hl]
  by_contra hge
  exact hbefore l (by omega) hblock

end Level

/-- A deadline at most `M - b` ahead of the clock, but not due, is not in a block of length
`b` that the tick leaves. -/
theorem div_ne_of_tick_leaves {M b o r : ℕ} (hb : b ∣ M) (ho : o < M) (hr : 1 ≤ r)
    (hrM : r + b ≤ M) (hleave : (o + 1) % M / b ≠ o / b) : (o + r) % M / b ≠ o / b := by
  have hbpos : 0 < b := by
    rcases Nat.eq_zero_or_pos b with rfl | h
    · simp at hleave
    · exact h
  -- the old time is the last one of its block
  have hlast : o % b = b - 1 := by
    by_contra hne
    have hmod := mod_lt o hbpos
    have hdm := div_add_mod o b
    have hlt : o + 1 < M := by
      obtain ⟨q, rfl⟩ := hb
      have hq : o / b < q := Nat.div_lt_of_lt_mul ho
      have := mul_le_mul_left b (succ_le_of_lt hq)
      rw [mul_succ] at this
      omega
    rw [mod_eq_of_lt hlt] at hleave
    refine hleave (Nat.div_eq_of_lt_le ?_ ?_)
    · rw [Nat.mul_comm]; omega
    · rw [add_mul, one_mul, mul_comm (o / b)]; omega
  intro hsame
  have hmod := mod_lt ((o + r) % M) hbpos
  have hdm := div_add_mod ((o + r) % M) b
  have hdmo := div_add_mod o b
  rw [hsame] at hdm
  by_cases hwrap : o + r < M
  · rw [mod_eq_of_lt hwrap] at hdm hmod
    omega
  · have hback : (o + r) % M = o + r - M := by
      rw [mod_eq_sub_mod (by omega), mod_eq_of_lt (by omega)]
    rw [hback] at hdm hmod
    omega

/-! ### Refiling -/

/-- Items filed by `f` are refiled by `g`: the file `c₀` is emptied and its items are
appended to the files that `g` names. If `g` agrees with `f` on all other items, and no
emptied item goes to a file that holds other ones, every file ends up as if it had been
filed by `g` from the start. -/
theorem filter_refile {α κ : Type*} [DecidableEq κ] (items : List α) (f g : α → κ) (c₀ : κ)
    (hkeep : ∀ a ∈ items, f a ≠ c₀ → g a = f a)
    (hfresh : ∀ a ∈ items, ∀ b ∈ items, f a = c₀ → f b ≠ c₀ → g a ≠ f b) (c : κ) :
    ((if c = c₀ then [] else items.filter fun a => f a = c) ++
      (items.filter fun a => f a = c₀).filter fun a => g a = c) =
      items.filter fun a => g a = c := by
  rw [filter_filter]
  by_cases hc : c = c₀
  · subst hc
    rw [if_pos rfl, nil_append]
    refine filter_congr fun a ha => ?_
    by_cases hf : f a = c
    · simp [hf]
    · simp [hf, hkeep a ha hf]
  · rw [if_neg hc]
    by_cases hmoved : ∃ a ∈ items, f a = c₀ ∧ g a = c
    · obtain ⟨a, ha, hfa, hga⟩ := hmoved
      have hempty : items.filter (fun b => f b = c) = [] := by
        rw [filter_eq_nil_iff]
        intro b hb
        simp only [decide_eq_true_eq]
        rintro rfl
        exact hfresh a ha b hb hfa hc hga
      rw [hempty, nil_append]
      refine filter_congr fun b hb => ?_
      by_cases hf : f b = c₀
      · simp [hf]
      · have hne : f b ≠ c := fun h => hfresh a ha b hb hfa hf (hga.trans h.symm)
        simp [hf, hkeep b hb hf, hne]
    · have hempty : items.filter (fun a => decide (g a = c) && decide (f a = c₀)) = [] := by
        rw [filter_eq_nil_iff]
        intro a ha
        simp only [Bool.and_eq_true, decide_eq_true_eq]
        exact fun h => hmoved ⟨a, ha, h.2, h.1⟩
      rw [hempty, append_nil]
      refine filter_congr fun a ha => ?_
      by_cases hf : f a = c₀
      · have hne : g a ≠ c := fun h => hmoved ⟨a, ha, hf, h⟩
        simp [hf, hne, Ne.symm hc]
      · rw [hkeep a ha hf]

end Uboss.Math
