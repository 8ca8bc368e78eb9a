import Uboss.Core.Handle
import Uboss.Math.PartialMap

/-!
# The contents of the slot array

The contexts of the table are those that were registered and not yet retired, whatever the
handles are that a registration reads while it doubles the table: a collision ends the program
and any other move keeps all contexts.
-/

namespace Uboss.Core

open Math Option Nat

namespace HandleStorage

/-- No context has two slots. -/
structure Slotted (s : HandleStorage) : Prop where
  size_pos : 0 < s.slotSize
  inj : ∀ i < s.slotSize, ∀ j < s.slotSize, ∀ c, s.slot i = some c → s.slot j = some c → i = j

variable {s s' : HandleStorage} {handleOf : CtxId → ℕ} {c : CtxId} {handle : ℕ}

instance (s : HandleStorage) (c : CtxId) : Decidable (s.Registered c) :=
  inferInstanceAs (Decidable (∃ i < s.slotSize, s.slot i = some c))

theorem init_slotted (harbor : ℕ) : (ubossHandleInit harbor).Slotted where
  size_pos := zero_lt_succ 3
  inj i _ j _ c hi := by cases hi

theorem and_pred_lt {n : ℕ} (h : 0 < n) (x : ℕ) : x &&& (n - 1) < n :=
  Nat.lt_of_le_of_lt and_le_right (sub_lt h Nat.one_pos)

/-- A successful rehash has put every context into the slot of its stored handle. -/
theorem rehash_spec {newSlot : ℕ → Option CtxId} (h : s.rehash handleOf = .ok newSlot)
    (k : ℕ) (c : CtxId) :
    newSlot k = some c ↔
      ∃ i < s.slotSize, s.slot i = some c ∧ handleOf c &&& (s.slotSize * 2 - 1) = k := by
  refine foldlM_range_inv (P := fun n (newSlot : ℕ → Option CtxId) => ∀ k c, newSlot k = some c ↔
    ∃ i < n, s.slot i = some c ∧ handleOf c &&& (s.slotSize * 2 - 1) = k) h (by simp) ?_ k c
  intro n hn x y hx hmove k c
  rw [moveSlot] at hmove
  split at hmove
  · cases hmove
  · rename_i d hd
    dsimp only at hmove
    split at hmove
    · rename_i hfree
      obtain rfl := Except.ok.inj hmove
      rw [update_some_eq_some_iff, hx]
      constructor
      · rintro (⟨rfl, rfl⟩ | ⟨-, i, hi, hslot, hhash⟩)
        · exact ⟨n, by omega, hd, rfl⟩
        · exact ⟨i, by omega, hslot, hhash⟩
      · rintro ⟨i, hi, hslot, rfl⟩
        rcases Nat.lt_succ_iff_lt_or_eq.mp hi with hlt | rfl
        · refine .inr ⟨?_, i, hlt, hslot, rfl⟩
          rintro heq
          rw [← heq, (hx _ c).mpr ⟨i, hlt, hslot, rfl⟩] at hfree
          cases hfree
        · rw [hd] at hslot
          obtain rfl := some_inj.mp hslot
          exact .inl ⟨rfl, rfl⟩
    · cases hmove

variable (hs : s.Slotted)
include hs

theorem Slotted.grow {newSlot : ℕ → Option CtxId} (h : s.rehash handleOf = .ok newSlot) :
    (s.grow newSlot).Slotted ∧ ∀ c, (s.grow newSlot).Registered c ↔ s.Registered c := by
  have hspec := rehash_spec h
  have hpos : 0 < s.slotSize * 2 := Nat.mul_pos hs.size_pos Nat.two_pos
  constructor
  · refine ⟨hpos, ?_⟩
    intro i _ j _ c hi hj
    obtain ⟨-, -, -, hi⟩ := (hspec i c).mp hi
    obtain ⟨-, -, -, hj⟩ := (hspec j c).mp hj
    rw [← hi, ← hj]
  · intro c
    constructor
    · rintro ⟨k, -, hk⟩
      obtain ⟨i, hi, hslot, -⟩ := (hspec k c).mp hk
      exact ⟨i, hi, hslot⟩
    · rintro ⟨i, hi, hslot⟩
      exact ⟨_, and_pred_lt hpos _, (hspec _ c).mpr ⟨i, hi, hslot, rfl⟩⟩

theorem Slotted.probe_free (hprobe : s.probe = some handle) :
    handle &&& (s.slotSize - 1) < s.slotSize ∧ s.slot (handle &&& (s.slotSize - 1)) = none := by
  obtain ⟨i, -, hfound, -⟩ := findSome?_range_eq_some_iff.mp hprobe
  dsimp only at hfound
  split at hfound
  · rename_i hfree
    obtain rfl := some_inj.mp hfound
    exact ⟨and_pred_lt hs.size_pos _, hfree⟩
  · cases hfound

theorem Slotted.place (hc : ¬ s.Registered c) (hprobe : s.probe = some handle) :
    (s.place c handle).Slotted ∧ ∀ d, (s.place c handle).Registered d ↔ d = c ∨ s.Registered d := by
  obtain ⟨hlt, hfree⟩ := hs.probe_free hprobe
  have hslot (i : ℕ) (d : CtxId) : (s.place c handle).slot i = some d ↔
      (i = handle &&& (s.slotSize - 1) ∧ c = d) ∨
        (i ≠ handle &&& (s.slotSize - 1) ∧ s.slot i = some d) := update_some_eq_some_iff
  constructor
  · refine ⟨hs.size_pos, ?_⟩
    intro i hi j hj d hslotI hslotJ
    -- the new context had no slot, the others keep theirs
    rcases (hslot i d).mp hslotI with ⟨rfl, rfl⟩ | ⟨-, hI⟩
    · rcases (hslot j c).mp hslotJ with ⟨rfl, -⟩ | ⟨-, hJ⟩
      · rfl
      · exact absurd ⟨j, hj, hJ⟩ hc
    · rcases (hslot j d).mp hslotJ with ⟨-, rfl⟩ | ⟨-, hJ⟩
      · exact absurd ⟨i, hi, hI⟩ hc
      · exact hs.inj i hi j hj d hI hJ
  · intro d
    constructor
    · rintro ⟨i, hi, hslotI⟩
      rcases (hslot i d).mp hslotI with ⟨-, rfl⟩ | ⟨-, hI⟩
      · exact .inl rfl
      · exact .inr ⟨i, hi, hI⟩
    · rintro (rfl | ⟨i, hi, hI⟩)
      · exact ⟨_, hlt, (hslot _ d).mpr (.inl ⟨rfl, rfl⟩)⟩
      · refine ⟨i, hi, (hslot i d).mpr (.inr ⟨?_, hI⟩)⟩
        rintro rfl
        rw [hfree] at hI
        cases hI

theorem Slotted.registerLoop {fuel : ℕ} (hc : ¬ s.Registered c)
    (h : registerLoop handleOf c fuel s = .ok (handle, s')) :
    s'.Slotted ∧ ∀ d, s'.Registered d ↔ d = c ∨ s.Registered d := by
  induction fuel generalizing s with
  | zero => cases h
  | succ fuel ih =>
    rw [Core.registerLoop] at h
    split at h
    · rename_i low hprobe
      obtain ⟨-, rfl⟩ := Prod.mk.inj (Except.ok.inj h)
      exact hs.place hc hprobe
    · split at h
      · split at h
        · cases h
        · rename_i newSlot hrehash
          obtain ⟨hgrow, hreg⟩ := hs.grow hrehash
          obtain ⟨hs', hreg'⟩ := ih hgrow (by rwa [hreg]) h
          refine ⟨hs', ?_⟩
          intro d
          rw [hreg', hreg]
      · cases h

/-- A registration adds the new context to the table. -/
theorem Slotted.register (hc : ¬ s.Registered c)
    (h : ubossHandleRegister handleOf s c = .ok (handle, s')) :
    s'.Slotted ∧ ∀ d, s'.Registered d ↔ d = c ∨ s.Registered d :=
  hs.registerLoop hc h

theorem Slotted.registered_of_grab (h : ubossHandleGrab handleOf s handle = some c) :
    s.Registered c := by
  rw [ubossHandleGrab] at h
  split at h
  · cases h
  · rename_i d hd
    split at h
    · obtain rfl := some_inj.mp h
      exact ⟨_, and_pred_lt hs.size_pos _, hd⟩
    · cases h

/-- Retiring a handle takes at most one context out of the table. -/
theorem Slotted.retire (handleOf : CtxId → ℕ) (handle : ℕ) :
    (ubossHandleRetire handleOf s handle).2.Slotted ∧
      ((ubossHandleRetire handleOf s handle).1 = none ∧
          (ubossHandleRetire handleOf s handle).2 = s ∨
        ∃ c, (ubossHandleRetire handleOf s handle).1 = some c ∧ handleOf c = handle ∧
          s.Registered c ∧
          ∀ d, (ubossHandleRetire handleOf s handle).2.Registered d ↔ d ≠ c ∧ s.Registered d) := by
  rw [ubossHandleRetire]
  split
  · exact ⟨hs, .inl ⟨rfl, rfl⟩⟩
  · rename_i c hslot
    have hlt := and_pred_lt hs.size_pos handle
    split
    · rename_i hhandle
      have hclear (i : ℕ) (d : CtxId) : (s.clear (handle &&& (s.slotSize - 1)) handle).slot i =
          some d ↔ i ≠ handle &&& (s.slotSize - 1) ∧ s.slot i = some d := update_none_eq_some_iff
      refine ⟨⟨hs.size_pos, ?_⟩, .inr ⟨c, rfl, hhandle, ⟨_, hlt, hslot⟩, ?_⟩⟩
      · intro i hi j hj d hslotI hslotJ
        exact hs.inj i hi j hj d ((hclear i d).mp hslotI).2 ((hclear j d).mp hslotJ).2
      · intro d
        constructor
        · rintro ⟨i, hi, hslotI⟩
          obtain ⟨hne, hI⟩ := (hclear i d).mp hslotI
          refine ⟨?_, i, hi, hI⟩
          rintro rfl
          exact hne (hs.inj i hi _ hlt d hI hslot)
        · rintro ⟨hne, i, hi, hI⟩
          refine ⟨i, hi, (hclear i d).mpr ⟨?_, hI⟩⟩
          rintro rfl
          rw [hslot] at hI
          exact hne (some_inj.mp hI).symm
    · exact ⟨hs, .inl ⟨rfl, rfl⟩⟩

end HandleStorage

end Uboss.Core
