import Mathlib.Data.List.Nodup

/-!
# Pools of nodes

A pool allocates nodes, and each of them is free or belongs to one owner. A node that is taken from
the pool and one that is given back change their place, and a pool that is empty allocates more.
-/

namespace Uboss.Math

open List

variable {κ ν : Type*}

/-- Each node that was allocated is free or belongs to an owner, and it is there only once. -/
structure Conserved (allocated : ν → Prop) (free : List ν) (owned : κ → List ν) : Prop where
  free_nodup : free.Nodup
  owned_nodup : ∀ k, (owned k).Nodup
  free_owned : ∀ {k n}, n ∈ free → n ∉ owned k
  owned_owned : ∀ {k k' n}, n ∈ owned k → n ∈ owned k' → k = k'
  allocated_iff : ∀ {n}, allocated n ↔ n ∈ free ∨ ∃ k, n ∈ owned k

namespace Conserved

variable {allocated allocated' : ν → Prop} {free free' l new : List ν} {owned : κ → List ν} {k : κ}

theorem empty (h : ∀ n, ¬ allocated n) : Conserved allocated [] fun _ : κ => [] where
  free_nodup := nodup_nil
  owned_nodup _ := nodup_nil
  free_owned hn := absurd hn not_mem_nil
  owned_owned hn := absurd hn not_mem_nil
  allocated_iff {n} := by simp [h n]

theorem mem_update_iff [DecidableEq κ] {k' : κ} {n : ν} :
    n ∈ Function.update owned k l k' ↔ k' = k ∧ n ∈ l ∨ k' ≠ k ∧ n ∈ owned k' := by
  by_cases hk : k' = k
  · subst hk
    simp
  · simp [hk]

variable (h : Conserved allocated free owned)
include h

/-- Nodes go from the pool to an owner, or back. -/
theorem move [DecidableEq κ] (hperm : (free' ++ l).Perm (free ++ owned k)) :
    Conserved allocated free' (Function.update owned k l) := by
  have hnodup : (free ++ owned k).Nodup :=
    nodup_append'.mpr ⟨h.free_nodup, h.owned_nodup k, fun _ => h.free_owned⟩
  obtain ⟨hfree, hl, hdisjoint⟩ := nodup_append'.mp (hperm.nodup_iff.mpr hnodup)
  have hmem : ∀ {n}, n ∈ free' ∨ n ∈ l ↔ n ∈ free ∨ n ∈ owned k := fun {n} => by
    rw [← mem_append, ← mem_append]
    exact hperm.mem_iff
  -- what belongs to another owner was neither in the pool nor with this one
  have hother : ∀ {k' n}, k' ≠ k → n ∈ owned k' → ¬ (n ∈ free' ∨ n ∈ l) := by
    intro k' n hne hn hin
    rcases hmem.mp hin with hfree | howned
    · exact h.free_owned hfree hn
    · exact hne (h.owned_owned hn howned)
  constructor
  · exact hfree
  · intro k'
    by_cases hk : k' = k
    · subst hk
      rw [Function.update_self]
      exact hl
    · rw [Function.update_of_ne hk]
      exact h.owned_nodup k'
  · intro k' n hn howned
    rcases mem_update_iff.mp howned with ⟨-, hin⟩ | ⟨hne, hin⟩
    · exact hdisjoint hn hin
    · exact hother hne hin (.inl hn)
  · intro k₁ k₂ n h₁ h₂
    rcases mem_update_iff.mp h₁ with ⟨heq₁, hin₁⟩ | ⟨hne₁, hin₁⟩
    · rcases mem_update_iff.mp h₂ with ⟨heq₂, -⟩ | ⟨hne₂, hin₂⟩
      · exact heq₁.trans heq₂.symm
      · exact absurd (.inr hin₁) (hother hne₂ hin₂)
    · rcases mem_update_iff.mp h₂ with ⟨-, hin₂⟩ | ⟨-, hin₂⟩
      · exact absurd (.inr hin₂) (hother hne₁ hin₁)
      · exact h.owned_owned hin₁ hin₂
  · intro n
    rw [h.allocated_iff]
    constructor
    · intro hin
      -- a node of another owner stays with it
      by_cases hk : n ∈ free ∨ n ∈ owned k
      · refine (hmem.mpr hk).imp_right fun hl => ⟨k, ?_⟩
        exact mem_update_iff.mpr (.inl ⟨rfl, hl⟩)
      · obtain ⟨hnot, hnot'⟩ := not_or.mp hk
        obtain ⟨k', hk'⟩ := hin.resolve_left hnot
        refine .inr ⟨k', mem_update_iff.mpr (.inr ⟨?_, hk'⟩)⟩
        rintro rfl
        exact hnot' hk'
    · rintro (hin | ⟨k', hin⟩)
      · exact (hmem.mp (.inl hin)).imp_right fun hn => ⟨k, hn⟩
      · rcases mem_update_iff.mp hin with ⟨-, hl⟩ | ⟨-, hin⟩
        · exact (hmem.mp (.inr hl)).imp_right fun hn => ⟨k, hn⟩
        · exact .inr ⟨k', hin⟩

theorem of_eq {owned' : κ → List ν} (heq : ∀ k, owned' k = owned k) :
    Conserved allocated free owned' := by
  obtain rfl : owned' = owned := funext heq
  exact h

/-- Nodes are allocated. -/
theorem grow (hnodup : new.Nodup) (hfresh : ∀ n ∈ new, ¬ allocated n)
    (hmem : ∀ n, allocated' n ↔ n ∈ new ∨ allocated n) :
    Conserved allocated' (new ++ free) owned := by
  constructor
  · refine nodup_append'.mpr ⟨hnodup, h.free_nodup, fun n hn hfree => ?_⟩
    exact hfresh n hn (h.allocated_iff.mpr (.inl hfree))
  · exact h.owned_nodup
  · intro k n hn howned
    rcases mem_append.mp hn with hnew | hfree
    · exact hfresh n hnew (h.allocated_iff.mpr (.inr ⟨k, howned⟩))
    · exact h.free_owned hfree howned
  · exact h.owned_owned
  · intro n
    rw [hmem, h.allocated_iff, mem_append, or_assoc]

end Conserved

end Uboss.Math
