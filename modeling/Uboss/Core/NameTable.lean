import Uboss.Core.HandleName

/-!
# The name table as a finite map

The entries of the name table stay in the order of their names, so the search by halves finds the
entry of a name, or the place where it belongs. Names are compared as by `strcmp`.
-/

namespace Uboss.Core

open Math List

/-- The names are in strictly increasing order. -/
def SortedNames (L : List HandleName) : Prop := L.Pairwise fun a b => compare a.name b.name = .lt

/-- The handle that is bound to a name. -/
def binding (L : List HandleName) (name : List UInt8) : Option ℕ :=
  (L.find? fun n => n.name = name).map HandleName.handle

variable {L : List HandleName} {a b n : HandleName} {name : List UInt8} {handle : ℕ}

theorem compare_lt_trans {x y z : List UInt8} (h : compare x y = .lt) (h' : compare y z = .lt) :
    compare x z = .lt :=
  Std.TransCmp.lt_trans h h'

theorem ne_of_compare_lt {x y : List UInt8} (h : compare x y = .lt) : x ≠ y := by
  rintro rfl
  have hself : compare x x = .eq := Std.ReflCmp.compare_self
  rw [hself] at h
  cases h

namespace SortedNames

theorem eq_of_name_eq (hs : SortedNames L) (ha : a ∈ L) (hb : b ∈ L) (h : a.name = b.name) :
    a = b := by
  induction L with
  | nil => cases ha
  | cons n L ih =>
    obtain ⟨hn, hs⟩ := pairwise_cons.mp hs
    rcases mem_cons.mp ha with han | ha
    · rcases mem_cons.mp hb with hbn | hb
      · exact han.trans hbn.symm
      · exact absurd (han ▸ h) (ne_of_compare_lt (hn b hb))
    · rcases mem_cons.mp hb with hbn | hb
      · exact absurd (hbn ▸ h).symm (ne_of_compare_lt (hn a ha))
      · exact ih hs ha hb

theorem around {mid : ℕ} (hs : SortedNames L) (hn : L[mid]? = some n) :
    (∀ a ∈ L.take mid, compare a.name n.name = .lt) ∧
      ∀ b ∈ L.drop (mid + 1), compare n.name b.name = .lt := by
  obtain ⟨hmid, rfl⟩ := List.getElem?_eq_some_iff.mp hn
  have hsplit : L = L.take mid ++ L[mid] :: L.drop (mid + 1) := by
    rw [getElem_cons_drop, take_append_drop]
  rw [SortedNames, hsplit, pairwise_append, pairwise_cons] at hs
  exact ⟨fun a ha => hs.2.2 a ha _ mem_cons_self, hs.2.1.1⟩

theorem binding_eq_some_iff (hs : SortedNames L) :
    binding L name = some handle ↔ ⟨name, handle⟩ ∈ L := by
  rw [binding, Option.map_eq_some_iff]
  constructor
  · rintro ⟨n, hfind, rfl⟩
    have hname : n.name = name := by simpa using find?_some hfind
    subst hname
    exact mem_of_find?_eq_some hfind
  · intro hmem
    cases hfind : L.find? fun n => n.name = name with
    | none =>
      have := find?_eq_none.mp hfind _ hmem
      simp at this
    | some n =>
      have hname : n.name = name := by simpa using find?_some hfind
      have heq := hs.eq_of_name_eq (mem_of_find?_eq_some hfind) hmem hname
      exact ⟨n, rfl, by rw [heq]⟩

end SortedNames

theorem binding_eq_none_iff : binding L name = none ↔ ∀ n ∈ L, n.name ≠ name := by
  simp [binding]

/-! ### The search -/

/-- The position `before` divides the entries into those before the name and those behind it. -/
structure Divides (L : List HandleName) (name : List UInt8) (before : ℕ) : Prop where
  le_length : before ≤ L.length
  below : ∀ a ∈ L.take before, compare a.name name = .lt
  above : ∀ b ∈ L.drop before, compare name b.name = .lt

/-- What the search can find. -/
inductive Finds (L : List HandleName) (name : List UInt8) : NameSearch → Prop
  | found (n : HandleName) : n ∈ L → n.name = name → Finds L name (.found n)
  | missing (before : ℕ) : Divides L name before → Finds L name (.missing before)

/-- The entries in front of the range are before the name, and those behind it are behind. -/
theorem searchLoop_spec (hs : SortedNames L) {fuel first stop : ℕ} (hfuel : stop - first < fuel)
    (hle : first ≤ stop) (hstop : stop ≤ L.length)
    (hbelow : ∀ a ∈ L.take first, compare a.name name = .lt)
    (habove : ∀ b ∈ L.drop stop, compare name b.name = .lt) :
    Finds L name (searchLoop L name fuel first stop) := by
  induction fuel generalizing first stop with
  | zero => omega
  | succ fuel ih =>
    rw [searchLoop]
    split_ifs with hlt
    · have hmid : (first + (stop - 1)) / 2 < stop := by omega
      obtain ⟨n, hn⟩ : ∃ n, L[(first + (stop - 1)) / 2]? = some n :=
        ⟨_, getElem?_eq_getElem (hmid.trans_le hstop)⟩
      obtain ⟨hleft, hright⟩ := hs.around hn
      dsimp only
      rw [hn]
      dsimp only
      split
      next heq =>
        exact .found _ (mem_of_getElem? hn) (Std.LawfulEqCmp.eq_of_compare heq)
      next hless =>
        refine ih (by omega) (by omega) hstop (fun a ha => ?_) habove
        rw [take_add_one, hn, mem_append] at ha
        rcases ha with ha | ha
        · exact compare_lt_trans (hleft a ha) hless
        · obtain rfl : a = n := by simpa using ha
          exact hless
      next hgreater =>
        have hgreater := Std.OrientedCmp.gt_iff_lt.mp hgreater
        refine ih (by omega) (by omega) (by omega) hbelow fun b hb => ?_
        rw [drop_eq_getElem?_toList_append, hn, mem_append] at hb
        rcases hb with hb | hb
        · obtain rfl : b = n := by simpa using hb
          exact hgreater
        · exact compare_lt_trans hgreater (hright b hb)
    · obtain rfl : first = stop := by omega
      exact .missing _ ⟨hstop, hbelow, habove⟩

/-- The search by halves finds the name, or its place. -/
theorem searchName_spec {s : HandleStorage} (hs : SortedNames s.name) (name : List UInt8) :
    Finds s.name name (s.searchName name) := by
  refine searchLoop_spec hs (by omega) (Nat.zero_le _) le_rfl (by simp) (by simp)

theorem Divides.binding_eq_none {before : ℕ} (hd : Divides L name before) :
    binding L name = none := by
  rw [binding_eq_none_iff]
  intro n hn hname
  rw [← take_append_drop before L, mem_append] at hn
  rcases hn with hn | hn
  · exact ne_of_compare_lt (hd.below n hn) hname
  · exact ne_of_compare_lt (hd.above n hn) hname.symm

section

variable {s : HandleStorage} (hs : SortedNames s.name)
include hs

theorem searchName_of_bound (hbound : binding s.name name = some handle) :
    s.searchName name = .found ⟨name, handle⟩ := by
  have hspec := searchName_spec hs name
  cases hsearch : s.searchName name with
  | found n =>
    rw [hsearch] at hspec
    obtain ⟨hn, hname⟩ : n ∈ s.name ∧ n.name = name := by
      cases hspec with
      | found _ hn hname => exact ⟨hn, hname⟩
    rw [hs.eq_of_name_eq hn (hs.binding_eq_some_iff.mp hbound) hname]
  | missing before =>
    rw [hsearch] at hspec
    cases hspec with
    | missing _ hd =>
      rw [hd.binding_eq_none] at hbound
      cases hbound

theorem searchName_of_free (hfree : binding s.name name = none) :
    ∃ before, Divides s.name name before ∧ s.searchName name = .missing before := by
  have hspec := searchName_spec hs name
  cases hsearch : s.searchName name with
  | found n =>
    rw [hsearch] at hspec
    cases hspec with
    | found _ hn hname => exact absurd hname (binding_eq_none_iff.mp hfree n hn)
  | missing before =>
    rw [hsearch] at hspec
    cases hspec with
    | missing _ hd => exact ⟨before, hd, rfl⟩

/-! ### The functions -/

/-- `uboss_handle_findname` returns the handle that is bound to the name, or 0. -/
theorem ubossHandleFindname_eq : ubossHandleFindname s name = (binding s.name name).getD 0 := by
  rw [ubossHandleFindname]
  cases hbinding : binding s.name name with
  | none =>
    obtain ⟨before, -, hsearch⟩ := searchName_of_free hs hbinding
    rw [hsearch]
    rfl
  | some handle =>
    rw [searchName_of_bound hs hbinding]
    rfl

end

theorem mem_insertName {before : ℕ} : a ∈ L.take before ++ n :: L.drop before ↔ a = n ∨ a ∈ L := by
  conv_rhs => rw [← take_append_drop before L]
  simp only [mem_append, mem_cons]
  tauto

theorem Divides.sorted_insert {before : ℕ} (hs : SortedNames L) (hd : Divides L name before) :
    SortedNames (L.take before ++ ⟨name, handle⟩ :: L.drop before) := by
  have hsplit := hs
  rw [SortedNames, ← take_append_drop before L, pairwise_append] at hsplit
  obtain ⟨htake, hdrop, hacross⟩ := hsplit
  refine pairwise_append.mpr ⟨htake, pairwise_cons.mpr ⟨hd.above, hdrop⟩, ?_⟩
  intro a ha b hb
  rcases mem_cons.mp hb with rfl | hb
  · exact hd.below a ha
  · exact hacross a ha b hb

/-- The name is bound, and no other name changes. -/
theorem Divides.binding_insert {before : ℕ} (hs : SortedNames L) (hd : Divides L name before) :
    binding (L.take before ++ ⟨name, handle⟩ :: L.drop before) =
      Function.update (binding L) name (some handle) := by
  funext other
  apply Option.ext
  intro k
  rw [(hd.sorted_insert hs).binding_eq_some_iff, mem_insertName]
  by_cases hother : other = name
  · subst hother
    rw [Function.update_self, Option.some_inj, HandleName.mk.injEq]
    have hnot : ⟨other, k⟩ ∉ L := fun hmem =>
      binding_eq_none_iff.mp hd.binding_eq_none _ hmem rfl
    constructor
    · rintro (⟨-, rfl⟩ | hmem)
      · rfl
      · exact absurd hmem hnot
    · rintro rfl
      exact .inl ⟨rfl, rfl⟩
  · rw [Function.update_of_ne hother, hs.binding_eq_some_iff, HandleName.mk.injEq]
    simp [hother]

theorem retireNames_eq (handle : ℕ) (L : List HandleName) :
    retireNames handle L = L.filter fun n => n.handle ≠ handle := by
  induction L with
  | nil => rfl
  | cons n L ih =>
    rw [retireNames, ih, filter_cons]
    split_ifs <;> simp_all

theorem SortedNames.retireNames (hs : SortedNames L) (handle : ℕ) :
    SortedNames (retireNames handle L) := by
  rw [retireNames_eq]
  exact hs.filter _

theorem binding_retireNames (hs : SortedNames L) (name : List UInt8) :
    binding (retireNames handle L) name =
      if binding L name = some handle then none else binding L name := by
  apply Option.ext
  intro k
  rw [(hs.retireNames handle).binding_eq_some_iff, retireNames_eq, mem_filter,
    ← hs.binding_eq_some_iff]
  split_ifs with hbound
  · rw [hbound]
    simp +contextual
  · constructor
    · exact And.left
    · intro hk
      refine ⟨hk, decide_eq_true fun heq => hbound ?_⟩
      rw [hk]
      exact congrArg some heq

end Uboss.Core
