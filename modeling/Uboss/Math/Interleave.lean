import Mathlib.Data.List.Perm.Basic
import Uboss.Math.Transition

/-!
# Interleavings of lists

Several lists are merged into one. The order of each list is kept, and nothing else is known. Or the
actions of several parties are merged into one run, and one party looks at its own.
-/

namespace Uboss.Math

open List

variable {α β σ ε κ : Type*}

/-- `Interleaves ls l`: the elements of the lists `ls` are taken in the order of `l`. -/
inductive Interleaves : List (List α) → List α → Prop
  | nil {ls : List (List α)} : (∀ xs ∈ ls, xs = []) → Interleaves ls []
  | cons {ls : List (List α)} {i : ℕ} {x : α} {xs l : List α} :
      ls[i]? = some (x :: xs) → Interleaves (ls.set i xs) l → Interleaves ls (x :: l)

namespace Interleaves

variable {ls : List (List α)} {l : List α}

/-- If a property of a state and of what is left of the lists survives every step with the first
element of a list, all elements can be taken. -/
theorem foldlM (step : σ → α → Except ε σ) {P : σ → List (List α) → Prop}
    (hstep : ∀ {s ls i x xs}, P s ls → ls[i]? = some (x :: xs) →
      ∃ s', step s x = .ok s' ∧ P s' (ls.set i xs))
    (h : Interleaves ls l) {s : σ} (hs : P s ls) :
    ∃ s' ls', l.foldlM step s = .ok s' ∧ P s' ls' ∧ ∀ xs ∈ ls', xs = [] := by
  induction h generalizing s with
  | nil hempty => exact ⟨s, _, rfl, hs, hempty⟩
  | cons hx _ ih =>
    obtain ⟨s', hs', hP⟩ := hstep hs hx
    obtain ⟨t, ls', hfold, ht, hempty⟩ := ih hP
    refine ⟨t, ls', ?_, ht, hempty⟩
    rw [foldlM_cons, hs']
    exact hfold

/-- What all lists have in common, the merged list has. -/
theorem forall_mem {P : α → Prop} (h : Interleaves ls l) (hall : ∀ xs ∈ ls, ∀ x ∈ xs, P x) :
    ∀ x ∈ l, P x := by
  induction h with
  | nil _ => exact fun x hx => by cases hx
  | @cons ls i x xs l hx _ ih =>
    have hfirst := hall _ (mem_of_getElem? hx)
    refine forall_mem_cons.mpr ⟨hfirst x mem_cons_self, ih fun zs hzs z hz => ?_⟩
    -- a list that was there before, or the rest of the one that was taken from
    rcases mem_or_eq_of_mem_set hzs with hzs | rfl
    · exact hall zs hzs z hz
    · exact hfirst z (mem_cons_of_mem x hz)

end Interleaves

theorem forall₂_of_not_mem {γ : Type*} {key : γ → κ} {R R' : γ → β → Prop} {as : List γ}
    {bs : List β} {k : κ} (hk : k ∉ as.map key) (h : List.Forall₂ R as bs)
    (hR : ∀ c ∈ as, ∀ d, key c ≠ k → R c d → R' c d) : List.Forall₂ R' as bs := by
  induction h with
  | nil => exact .nil
  | cons hcd _ ih =>
    rw [map_cons, mem_cons, not_or] at hk
    obtain ⟨hfirst, hrest⟩ := forall_mem_cons.mp hR
    exact .cons (hfirst _ (Ne.symm hk.1) hcd) (ih hk.2 hrest)

/-- One list of a family moves on, and those with other keys stay as they are. -/
theorem forall₂_set {γ : Type*} {key : γ → κ} {R : γ → β → Prop} {as : List γ} {bs : List β}
    (hnodup : (as.map key).Nodup) (h : List.Forall₂ R as bs) {i : ℕ} {b : β}
    (hb : bs[i]? = some b) :
    ∃ a ∈ as, R a b ∧ ∀ (R' : γ → β → Prop) (b' : β), R' a b' →
      (∀ c ∈ as, ∀ d, key c ≠ key a → R c d → R' c d) → List.Forall₂ R' as (bs.set i b') := by
  induction h generalizing i with
  | nil => cases hb
  | @cons c d as bs hcd htail ih =>
    obtain ⟨hc, hrest⟩ := nodup_cons.mp hnodup
    cases i with
    | zero =>
      obtain rfl := Option.some_inj.mp hb
      exact ⟨c, mem_cons_self, hcd, fun R' b' hb' hother =>
        .cons hb' (forall₂_of_not_mem hc htail fun e he => hother e (mem_cons_of_mem c he))⟩
    | succ i =>
      obtain ⟨a, ha, hab, hset⟩ := ih hrest hb
      refine ⟨a, mem_cons_of_mem c ha, hab, fun R' b' hb' hother => ?_⟩
      have hne : key c ≠ key a := fun heq => hc (heq ▸ mem_map_of_mem ha)
      exact .cons (hother c mem_cons_self d hne hcd)
        (hset R' b' hb' fun e he => hother e (mem_cons_of_mem c he))

theorem forall₂_left {γ : Type*} {R : γ → β → Prop} {P : γ → Prop} {as : List γ} {bs : List β}
    (h : List.Forall₂ R as bs) (hR : ∀ a b, R a b → P a) : ∀ a ∈ as, P a := by
  induction h with
  | nil => exact fun a ha => by cases ha
  | cons hab _ ih => exact forall_mem_cons.mpr ⟨hR _ _ hab, ih⟩

theorem forall₂_right {γ : Type*} {R : γ → β → Prop} {P : β → Prop} {as : List γ} {bs : List β}
    (h : List.Forall₂ R as bs) (hR : ∀ a b, R a b → P b) : ∀ b ∈ bs, P b :=
  forall₂_left h.flip fun b a => hR a b

theorem forall₂_exists {γ : Type*} {R : γ → β → Prop} {as : List γ} {bs : List β}
    (h : List.Forall₂ R as bs) {a : γ} (ha : a ∈ as) : ∃ b ∈ bs, R a b := by
  induction h with
  | nil => cases ha
  | cons hab _ ih =>
    rcases mem_cons.mp ha with rfl | ha
    · exact ⟨_, mem_cons_self, hab⟩
    · obtain ⟨b, hb, hR⟩ := ih ha
      exact ⟨b, mem_cons_of_mem _ hb, hR⟩

theorem exists_mapM {γ : Type*} {R : γ → β → Prop} {f : γ → Except ε β} {as : List γ}
    (h : ∀ a ∈ as, ∃ b, f a = .ok b ∧ R a b) :
    ∃ bs, as.mapM f = .ok bs ∧ List.Forall₂ R as bs := by
  induction as with
  | nil => exact ⟨[], rfl, .nil⟩
  | cons a as ih =>
    obtain ⟨b, hb, hab⟩ := h a mem_cons_self
    obtain ⟨bs, hbs, hall⟩ := ih fun a' ha' => h a' (mem_cons_of_mem a ha')
    refine ⟨b :: bs, ?_, .cons hab hall⟩
    rw [mapM_cons, hb, hbs]
    rfl

theorem forall₂_nil {γ : Type*} {R : γ → List α → Prop} {as : List γ} {ls : List (List α)}
    (h : List.Forall₂ R as ls) (hempty : ∀ xs ∈ ls, xs = []) : ∀ a ∈ as, R a [] := by
  induction h with
  | nil => exact fun a ha => by cases ha
  | cons hR _ ih =>
    obtain ⟨rfl, htail⟩ := forall_mem_cons.mp hempty
    exact forall_mem_cons.mpr ⟨hR, ih htail⟩

/-- The elements of `m` have different keys, and `l` has the same element for each of them. -/
theorem perm_of_filter [DecidableEq κ] (key : β → κ) {l m : List β} (hnodup : (m.map key).Nodup)
    (honce : ∀ x ∈ m, l.filter (key · = key x) = [x]) (hmem : ∀ y ∈ l, ∃ x ∈ m, key y = key x) :
    l.Perm m := by
  induction m generalizing l with
  | nil =>
    cases l with
    | nil => exact .refl _
    | cons y l =>
      obtain ⟨x, hx, -⟩ := hmem y mem_cons_self
      cases hx
  | cons x m ih =>
    obtain ⟨hx, hm⟩ := nodup_cons.mp hnodup
    have hrest : (l.filter (fun y => !decide (key y = key x))).Perm m := by
      refine ih hm (fun z hz => ?_) fun y hy => ?_
      · have hzx : key z ≠ key x := fun heq => hx (heq ▸ mem_map_of_mem hz)
        rw [filter_filter, ← honce z (mem_cons_of_mem x hz)]
        refine filter_congr fun y _ => ?_
        by_cases hy : key y = key z
        · simp [hy, hzx]
        · simp [hy]
      · obtain ⟨hy, hne⟩ := mem_filter.mp hy
        obtain ⟨z, hz, hkey⟩ := hmem y hy
        rcases mem_cons.mp hz with rfl | hz
        · simp [hkey] at hne
        · exact ⟨z, hz, hkey⟩
    have hsplit := filter_append_perm (fun y => decide (key y = key x)) l
    rw [honce x mem_cons_self] at hsplit
    exact hsplit.symm.trans (hrest.cons x)

/-- If the actions of a party do to `t` what they do to `s`, and those of the others leave the
relation as it is, then the party can act alone. -/
theorem Run.project {step : σ → α → Option σ} {guard : σ → α → Prop} {R : σ → σ → Prop}
    {s s' t : σ} {w : List α} (mine : α → Bool) (hrun : Run step guard s w s') (hR : R s t)
    (hmine : ∀ {s s' t a}, mine a = true → guard s a → step s a = some s' → R s t →
      ∃ t', step t a = some t' ∧ R s' t')
    (hother : ∀ {s s' t a}, mine a = false → guard s a → step s a = some s' → R s t → R s' t) :
    ∃ t', Run step anyAction t (w.filter mine) t' ∧ R s' t' := by
  induction hrun with
  | nil => exact ⟨t, .nil t, hR⟩
  | @snoc u v w a _ hguard hnext ih =>
    obtain ⟨t', hrun', hR'⟩ := ih
    rw [filter_append]
    cases ha : mine a with
    | true =>
      obtain ⟨t'', hnext', hR''⟩ := hmine ha hguard hnext hR'
      rw [filter_cons_of_pos ha, filter_nil]
      exact ⟨t'', hrun'.snoc trivial hnext', hR''⟩
    | false =>
      rw [filter_cons_of_neg (by simp [ha]), filter_nil, append_nil]
      exact ⟨t', hrun', hother ha hguard hnext hR'⟩

/-- If a view of the state changes under the actions of a party as the view alone says, and does not
change under the others, then it is what the actions of the party make of it. -/
theorem Run.exec_view {τ : Type*} {step : σ → α → Option σ} {guard : σ → α → Prop}
    {alone : τ → α → Option τ} {P : σ → Prop} {s s' : σ} {w : List α} (mine : α → Bool)
    (view : σ → τ) (hrun : Run step guard s w s') (hs : P s)
    (hP : ∀ {s a s'}, guard s a → step s a = some s' → P s → P s')
    (hmine : ∀ {s a s'}, mine a = true → guard s a → step s a = some s' → P s →
      alone (view s) a = some (view s'))
    (hother : ∀ {s a s'}, mine a = false → guard s a → step s a = some s' → P s →
      view s' = view s) :
    exec alone (view s) (w.filter mine) = some (view s') := by
  induction hrun with
  | nil => rfl
  | @snoc t u w a hprefix hguard hnext ih =>
    have ht : P t := hprefix.invariant hs hP
    rw [filter_append, exec_append, ih, Option.bind_some]
    cases ha : mine a with
    | true =>
      rw [filter_cons_of_pos ha, filter_nil, exec, hmine ha hguard hnext ht]
      rfl
    | false =>
      rw [filter_cons_of_neg (by simp [ha]), filter_nil, hother ha hguard hnext ht]
      rfl

end Uboss.Math
