import Mathlib.Data.Finset.Card
import Uboss.Math.LinkedList

/-!
# Hash tables that are filled in two passes

A table has as many slots as there are entries, and every entry has a main slot. In the first pass
an entry is put into its main slot if that is free. In the second pass the others are put into any
free slots, and linked behind their main slots. So the links from a main slot lead to the entries
that belong there and to no others.

## Main definitions

* `Scatter` — what the slots hold and how they are linked
* `heads` — a table after the first pass
* `Links` — the second pass

## Main results

* `card_heads_add_countP_le` — there are free slots for the second pass
* `Links.chained` — the links from the main slots
* `Chained.exists_chain` — the links from any slot
* `Links.placed`, `Placed.exists_entry` — every entry has a slot, and every slot an entry
-/

namespace Uboss.Math

open Function List

variable {κ α : Type*}

/-- What the slots hold, and how they are linked. -/
structure Scatter (κ : Type*) where
  slot : ℕ → Option κ
  next : ℕ → Option ℕ

namespace Scatter

/-- An entry in a free slot, without a link. -/
def put (t : Scatter κ) (p : ℕ) (e : κ) : Scatter κ where
  slot := update t.slot p (some e)
  next := update t.next p none

/-- An entry in a free slot, linked behind another one. -/
def link (t : Scatter κ) (p i : ℕ) (e : κ) : Scatter κ where
  slot := update t.slot i (some e)
  next := update (update t.next p (some i)) i (t.next p)

variable {main : κ → ℕ} {key : κ → α} {t t' : Scatter κ} {l l₁ l₂ : List κ} {e e' : κ} {n p i : ℕ}

section Heads

variable (main)

/-- The table after the first pass. -/
def heads (l : List κ) : Scatter κ where
  slot p := l.find? fun e => main e = p
  next _ := none

variable {main}

theorem heads_concat_of_none (h : (heads main l).slot (main e) = none) :
    heads main (l ++ [e]) = (heads main l).put (main e) e := by
  unfold heads put
  congr 1
  · funext p
    rw [find?_append]
    by_cases hp : p = main e
    · subst hp
      rw [update_self]
      change ((heads main l).slot (main e)).or _ = _
      rw [h]
      simp
    · rw [update_of_ne hp, find?_cons_of_neg (by simpa using Ne.symm hp)]
      exact Option.or_none
  · funext p
    by_cases hp : p = main e
    · subst hp
      rw [update_self]
    · rw [update_of_ne hp]

theorem heads_concat_of_some (h : (heads main l).slot (main e) = some e') :
    heads main (l ++ [e]) = heads main l := by
  unfold heads
  congr 1
  funext p
  rw [find?_append]
  by_cases hp : main e = p
  · subst hp
    change ((heads main l).slot (main e)).or _ = (heads main l).slot (main e)
    rw [h]
    rfl
  · rw [find?_cons_of_neg (by simpa using hp)]
    exact Option.or_none

section

variable (h : (heads main l).slot p = some e)
include h

theorem slot_heads_append : (heads main (l ++ l₁)).slot p = some e := by
  change (l ++ l₁).find? _ = _
  rw [find?_append]
  change ((heads main l).slot p).or _ = _
  rw [h]
  rfl

theorem main_of_heads : main e = p := by
  simpa using find?_some h

theorem mem_of_heads : e ∈ l := mem_of_find?_eq_some h

end

theorem exists_head (h : e ∈ l) : ∃ e', (heads main l).slot (main e) = some e' := by
  rw [← Option.isSome_iff_exists]
  exact find?_isSome.mpr ⟨e, h, by simp⟩

end Heads

/-! ### Free slots -/

/-- The slots that hold an entry. -/
def used (t : Scatter κ) (n : ℕ) : Finset ℕ := (Finset.range n).filter fun i => (t.slot i).isSome

theorem exists_free (h : (t.used n).card < n) : ∃ i < n, t.slot i = none := by
  by_contra hfull
  simp only [not_exists, not_and] at hfull
  have hall : t.used n = Finset.range n := by
    refine Finset.filter_true_of_mem fun i hi => ?_
    rw [Option.isSome_iff_ne_none]
    exact hfull i (Finset.mem_range.mp hi)
  rw [hall, Finset.card_range] at h
  exact lt_irrefl n h

theorem card_used_link (hi : i < n) (hfree : t.slot i = none) (p : ℕ) (e : κ) :
    ((t.link p i e).used n).card = (t.used n).card + 1 := by
  have hinsert : (t.link p i e).used n = insert i (t.used n) := by
    ext j
    unfold used link
    simp only [Finset.mem_filter, Finset.mem_range, Finset.mem_insert]
    by_cases hj : j = i
    · subst hj
      simp [hi]
    · simp [hj]
  rw [hinsert, Finset.card_insert_of_notMem]
  simp [used, hfree]

variable (main key) in
/-- The entry is not in its main slot after the first pass, and another key is. -/
def Linked (l : List κ) (e : κ) : Prop :=
  ∃ e', (heads main l).slot (main e) = some e' ∧ key e' ≠ key e

instance [DecidableEq α] : DecidablePred (Linked main key l) := fun e =>
  match h : (heads main l).slot (main e) with
  | none => .isFalse fun ⟨_, he', _⟩ => by
    rw [h] at he'
    cases he'
  | some e' => decidable_of_iff (key e' ≠ key e) ⟨fun hne => ⟨e', h, hne⟩, fun ⟨_, he', hne⟩ => by
    rw [h, Option.some.injEq] at he'
    exact he'.symm ▸ hne⟩

/-- In each main slot there is an entry that is not linked. -/
theorem card_heads_add_countP_le [DecidablePred (Linked main key l)] (n : ℕ) :
    ((heads main l).used n).card + l.countP (Linked main key l) ≤ l.length := by
  have hsub : (heads main l).used n ⊆
      ((l.filter fun e => ¬ Linked main key l e).map main).toFinset := by
    intro p hp
    obtain ⟨e, he⟩ := Option.isSome_iff_exists.mp (Finset.mem_filter.mp hp).2
    rw [mem_toFinset, mem_map]
    refine ⟨e, mem_filter.mpr ⟨mem_of_heads he, ?_⟩, main_of_heads he⟩
    rw [decide_eq_true_eq]
    rintro ⟨e', he', hne⟩
    rw [main_of_heads he, he, Option.some.injEq] at he'
    exact hne (congrArg key he'.symm)
  have hcard := (Finset.card_le_card hsub).trans (toFinset_card_le _)
  rw [length_map, ← countP_eq_length_filter] at hcard
  have hsum := length_eq_countP_add_countP (fun e => decide (Linked main key l e)) (l := l)
  have hnot : l.countP (fun e => decide (¬ Linked main key l e)) =
      l.countP (fun e => decide ¬ (decide (Linked main key l e) = true)) := by
    congr 1
    funext e
    simp
  omega

/-! ### The second pass -/

/-- What there is room for: the first pass is kept, and there are free slots for the entries that
are still to be linked. -/
structure Room (main : κ → ℕ) (key : κ → α) [DecidablePred (Linked main key l)] (n : ℕ)
    (l₂ : List κ) (t : Scatter κ) : Prop where
  heads : ∀ {p e}, (heads main l).slot p = some e → t.slot p = some e
  card : (t.used n).card + l₂.countP (Linked main key l) ≤ n

section Room

variable [DecidablePred (Linked main key l)]

theorem room_heads (hn : l.length ≤ n) : Room (l := l) main key n l (heads main l) :=
  ⟨id, (card_heads_add_countP_le n).trans hn⟩

variable (h : Room (l := l) main key n (e :: l₂) t)
include h

theorem Room.tail : Room (l := l) main key n l₂ t := by
  refine ⟨h.heads, le_trans ?_ h.card⟩
  rw [countP_cons]
  omega

variable (he : Linked main key l e)
include he

theorem Room.card_lt : (t.used n).card + l₂.countP (Linked main key l) + 1 ≤ n := by
  have hcard := h.card
  rw [countP_cons_of_pos (by simpa using he)] at hcard
  omega

theorem Room.exists_free : ∃ i < n, t.slot i = none := by
  have hcard := h.card_lt he
  exact Scatter.exists_free (by omega)

theorem Room.link (hi : i < n) (hfree : t.slot i = none) :
    Room (l := l) main key n l₂ (t.link (main e) i e) := by
  refine ⟨fun {p e'} hp => ?_, ?_⟩
  · have hslot := h.heads hp
    have hne : p ≠ i := by
      rintro rfl
      rw [hfree] at hslot
      cases hslot
    exact (update_of_ne hne _ _).trans hslot
  · rw [card_used_link hi hfree]
    have hcard := h.card_lt he
    omega

end Room

/-- The second pass over a list of entries. -/
inductive Links (main : κ → ℕ) (key : κ → α) (n : ℕ) : Scatter κ → List κ → Scatter κ → Prop
  | nil (t : Scatter κ) : Links main key n t [] t
  | skip {t t' : Scatter κ} {e e' : κ} {l : List κ} : t.slot (main e) = some e' → key e' = key e →
      Links main key n t l t' → Links main key n t (e :: l) t'
  | link {t t' : Scatter κ} {e e' : κ} {l : List κ} {i : ℕ} : t.slot (main e) = some e' →
      key e' ≠ key e → i < n → t.slot i = none → Links main key n (t.link (main e) i e) l t' →
      Links main key n t (e :: l) t'

/-! ### Chains -/

/-- The links from a main slot lead to the entries that belong there. -/
structure Chained (main : κ → ℕ) (t : Scatter κ) : Prop where
  head : ∀ {i e}, t.slot i = some e → ∃ e', t.slot (main e) = some e' ∧ main e' = main e
  chain : ∀ {p e}, t.slot p = some e → main e = p → ∃ c, Chain t.next (some p) (p :: c) ∧
    (p :: c).Nodup ∧ ∀ i, i ∈ p :: c ↔ ∃ e', t.slot i = some e' ∧ main e' = p

theorem chained_heads : Chained main (heads main l) where
  head h := by
    have hmain := main_of_heads h
    exact ⟨_, hmain.symm ▸ h, rfl⟩
  chain {p e} h hmain := by
    refine ⟨[], ⟨rfl, rfl⟩, nodup_singleton p, fun i => ?_⟩
    rw [mem_singleton]
    constructor
    · rintro rfl
      exact ⟨e, h, hmain⟩
    · rintro ⟨e', he', hmain'⟩
      rw [← main_of_heads he', hmain']

theorem Chained.link (h : Chained main t) (hmain : t.slot (main e) = some e')
    (hne : main e' = main e) (hfree : t.slot i = none) : Chained main (t.link (main e) i e) := by
  have hi : i ≠ main e := by
    rintro rfl
    rw [hfree] at hmain
    cases hmain
  -- which slots hold entries for a main slot
  have hslot (p j : ℕ) : (∃ e', (t.link (main e) i e).slot j = some e' ∧ main e' = p) ↔
      (∃ e', t.slot j = some e' ∧ main e' = p) ∨ (j = i ∧ p = main e) := by
    unfold Scatter.link
    by_cases hj : j = i
    · subst hj
      simp [hfree, eq_comm]
    · simp [hj]
  have hold {j : ℕ} (hj : j ≠ i) : (t.link (main e) i e).slot j = t.slot j := update_of_ne hj _ _
  refine ⟨fun {j e₂} hj => ?_, fun {p e₂} hp hp' => ?_⟩
  · by_cases hji : j = i
    · subst hji
      obtain rfl : e = e₂ := by simpa [Scatter.link] using hj
      exact ⟨e', (hold hi.symm).trans hmain, hne⟩
    · rw [hold hji] at hj
      obtain ⟨e₃, he₃, hmain₃⟩ := h.head hj
      refine ⟨e₃, (hold ?_).trans he₃, hmain₃⟩
      intro heq
      rw [heq, hfree] at he₃
      cases he₃
  · have hpi : p ≠ i := by
      rintro rfl
      obtain rfl : e = e₂ := by simpa [Scatter.link] using hp
      exact hi hp'.symm
    rw [hold hpi] at hp
    obtain ⟨c, hchain, hnodup, hmem⟩ := h.chain hp hp'
    have hic : i ∉ p :: c := by
      rw [hmem]
      rintro ⟨e₃, he₃, -⟩
      rw [hfree] at he₃
      cases he₃
    obtain ⟨-, hrest⟩ := hchain
    by_cases hpe : p = main e
    · -- the new entry comes right behind the main slot
      subst hpe
      refine ⟨i :: c, ⟨rfl, ?_, ?_⟩, ?_, fun j => ?_⟩
      · exact (update_of_ne hi.symm _ _).trans (update_self ..)
      · have hlink : (t.link (main e) i e).next i = t.next (main e) := update_self ..
        rw [hlink]
        refine chain_update_of_notMem (fun hc => hic (mem_cons_of_mem _ hc)) ?_
        exact chain_update_of_notMem (nodup_cons.mp hnodup).1 hrest
      · rw [nodup_cons] at hnodup ⊢
        rw [mem_cons, not_or] at hic
        refine ⟨?_, nodup_cons.mpr ⟨hic.2, hnodup.2⟩⟩
        rw [mem_cons, not_or]
        exact ⟨Ne.symm hic.1, hnodup.1⟩
      · rw [hslot, ← hmem, mem_cons, mem_cons, mem_cons]
        tauto
    · refine ⟨c, ⟨rfl, ?_⟩, hnodup, fun j => ?_⟩
      · have hpc : main e ∉ p :: c := by
          rw [hmem]
          rintro ⟨e₃, he₃, hmain₃⟩
          rw [hmain, Option.some.injEq] at he₃
          rw [← he₃, hne] at hmain₃
          exact hpe hmain₃.symm
        have hchain := chain_update_of_notMem (v := t.next (main e)) hic
          (chain_update_of_notMem (v := some i) hpc (p := some p) ⟨rfl, hrest⟩)
        exact hchain.2
      · rw [hslot, ← hmem]
        simp [hpe]

theorem slot_link_of_some {j q : ℕ} (hfree : t.slot i = none) (h : t.slot j = some e') :
    (t.link q i e).slot j = some e' := by
  refine (update_of_ne ?_ _ _).trans h
  rintro rfl
  rw [hfree] at h
  cases h

/-- The links after the second pass. -/
theorem Links.chained (h : Links main key n t l t') (ht : Chained main t)
    (hhead : ∀ e ∈ l, ∃ e', t.slot (main e) = some e' ∧ main e' = main e) : Chained main t' := by
  induction h with
  | nil => exact ht
  | skip _ _ _ ih => exact ih ht fun e he => hhead e (mem_cons_of_mem _ he)
  | @link t _ e _ _ i hmain _ _ hfree _ ih =>
    obtain ⟨e', he', hsame⟩ := hhead e mem_cons_self
    refine ih (ht.link he' hsame hfree) fun e₂ he₂ => ?_
    obtain ⟨e₃, he₃, hmain₃⟩ := hhead e₂ (mem_cons_of_mem _ he₂)
    exact ⟨e₃, slot_link_of_some hfree he₃, hmain₃⟩

/-- The links from a main slot, or from any other one. -/
theorem Chained.exists_chain (h : Chained main t) (he : t.slot p = some e) :
    ∃ c, Chain t.next (some p) c ∧ c.Nodup ∧
      (∀ i ∈ c, ∃ e', t.slot i = some e' ∧ main e' = main e) ∧
      (main e = p → ∀ i e', t.slot i = some e' → main e' = p → i ∈ c) := by
  obtain ⟨e₀, he₀, hmain₀⟩ := h.head he
  obtain ⟨c, hchain, hnodup, hmem⟩ := h.chain he₀ hmain₀
  by_cases hp : main e = p
  · rw [hp] at hchain hnodup hmem
    exact ⟨p :: c, hchain, hnodup, fun i hi => hp.symm ▸ (hmem i).mp hi,
      fun _ i e' hi hmain => (hmem i).mpr ⟨e', hi, hmain⟩⟩
  · obtain ⟨l₁, l₂, hsplit⟩ := append_of_mem ((hmem p).mpr ⟨e, he, rfl⟩)
    rw [hsplit] at hchain hnodup hmem
    exact ⟨p :: l₂, chain_suffix hchain, (nodup_append.mp hnodup).2.1,
      fun i hi => (hmem i).mp (mem_append_right _ hi), fun hmain => absurd hmain hp⟩

/-! ### Distinct keys -/

/-- The table between two steps of the second pass: `l₁` is done, the entries are the ones of `l`.
-/
structure Placed (main : κ → ℕ) (key : κ → α) (n : ℕ) (l l₁ : List κ) (t : Scatter κ) : Prop where
  heads : ∀ {p e}, (heads main l).slot p = some e → t.slot p = some e
  origin : ∀ {i e}, t.slot i = some e → (Scatter.heads main l).slot i = some e ∨ e ∈ l₁
  exists_slot : ∀ e ∈ l₁, ∃ i, t.slot i = some e
  inj : ∀ {i j e}, t.slot i = some e → t.slot j = some e → i = j
  lt : ∀ {i e}, t.slot i = some e → i < n

theorem placed_heads (hmain : ∀ e ∈ l, main e < n) : Placed main key n l [] (heads main l) where
  heads := id
  origin := .inl
  exists_slot _ he := absurd he not_mem_nil
  inj hi hj := (main_of_heads hi).symm.trans (main_of_heads hj)
  lt hi := main_of_heads hi ▸ hmain _ (mem_of_heads hi)

theorem Placed.mem (h : Placed main key n l l₁ t) (hsub : l₁ ⊆ l) (hi : t.slot i = some e) :
    e ∈ l :=
  (h.origin hi).elim mem_of_heads fun he => hsub he

/-- Every entry gets a slot of its own. -/
theorem Links.placed (hnodup : (l.map key).Nodup) (h : Links main key n t l₂ t')
    (ht : Placed main key n l l₁ t) (hsplit : l = l₁ ++ l₂) : Placed main key n l l t' := by
  have hinj {e e' : κ} (he : e ∈ l) (he' : e' ∈ l) (hkey : key e = key e') : e = e' :=
    inj_on_of_nodup_map hnodup he he' hkey
  induction h generalizing l₁ with
  | nil =>
    rw [append_nil] at hsplit
    rwa [← hsplit] at ht
  | @skip t _ e e' l₂ he' hkey _ ih =>
    have hmem : e ∈ l := hsplit ▸ mem_append_right _ mem_cons_self
    obtain rfl : e' = e := hinj (ht.mem (hsplit ▸ subset_append_left l₁ _) he') hmem hkey
    refine ih ⟨ht.heads, fun hi => (ht.origin hi).imp id (mem_append_left _), ?_, ht.inj, ht.lt⟩
      (hsplit.trans (append_cons l₁ e' l₂))
    intro e₂ he₂
    rcases mem_append.mp he₂ with he₂ | he₂
    · exact ht.exists_slot e₂ he₂
    · rw [mem_singleton.mp he₂]
      exact ⟨_, he'⟩
  | @link t _ e e' l₂ i he' hkey hi hfree _ ih =>
    have hout : e ∉ l₁ := by
      have hl : l.Nodup := List.Nodup.of_map key hnodup
      rw [hsplit] at hl
      exact fun he => disjoint_of_nodup_append hl he mem_cons_self
    -- the entry is in no slot yet: its main slot holds another key
    have hnone (j : ℕ) : t.slot j ≠ some e := by
      intro hj
      rcases ht.origin hj with hj | hj
      · have hslot := ht.heads hj
        rw [← main_of_heads hj, he', Option.some.injEq] at hslot
        exact hkey (congrArg key hslot)
      · exact hout hj
    have hslot {j : ℕ} {e₂ : κ} (hj : (t.link (main e) i e).slot j = some e₂) :
        (j = i ∧ e₂ = e) ∨ t.slot j = some e₂ := by
      unfold Scatter.link at hj
      by_cases hji : j = i
      · subst hji
        exact .inl ⟨rfl, by simpa using hj.symm⟩
      · exact .inr (by simpa [hji] using hj)
    refine ih ⟨fun hp => slot_link_of_some hfree (ht.heads hp), fun hj => ?_, fun e₂ he₂ => ?_,
      fun hj hk => ?_, fun hj => ?_⟩ (hsplit.trans (append_cons l₁ e l₂))
    · rcases hslot hj with ⟨-, rfl⟩ | hj
      · exact .inr (mem_append_right _ mem_cons_self)
      · exact (ht.origin hj).imp id (mem_append_left _)
    · rcases mem_append.mp he₂ with he₂ | he₂
      · obtain ⟨j, hj⟩ := ht.exists_slot e₂ he₂
        exact ⟨j, slot_link_of_some hfree hj⟩
      · rw [mem_singleton.mp he₂]
        exact ⟨i, update_self ..⟩
    · rcases hslot hj with ⟨rfl, rfl⟩ | hj'
      · rcases hslot hk with ⟨hk, -⟩ | hk
        · exact hk.symm
        · exact absurd hk (hnone _)
      · rcases hslot hk with ⟨-, rfl⟩ | hk'
        · exact absurd hj' (hnone _)
        · exact ht.inj hj' hk'
    · rcases hslot hj with ⟨rfl, -⟩ | hj
      · exact hi
      · exact ht.lt hj

/-- When there are as many slots as entries, every slot holds one. -/
theorem Placed.exists_entry (h : Placed main key n l l t) (hl : l.Nodup) (hn : l.length = n)
    (hi : i < n) : ∃ e, t.slot i = some e := by
  classical
  choose! f hf using h.exists_slot
  have hnodup : (l.map f).Nodup := by
    refine (nodup_map_iff_inj_on hl).mpr fun e he e' he' heq => ?_
    have hslot := hf e he
    rw [heq, hf e' he', Option.some.injEq] at hslot
    exact hslot.symm
  have hsub : l.map f ⊆ List.range n := by
    intro j hj
    obtain ⟨e, he, rfl⟩ := mem_map.mp hj
    exact mem_range.mpr (h.lt (hf e he))
  have hperm : (l.map f).Perm (List.range n) :=
    (subperm_of_subset hnodup hsub).perm_of_length_le (by simp [hn])
  obtain ⟨e, he, rfl⟩ := mem_map.mp (hperm.mem_iff.mpr (mem_range.mpr hi))
  exact ⟨e, hf e he⟩

end Scatter

end Uboss.Math
