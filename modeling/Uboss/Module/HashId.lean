import Mathlib.Data.Finset.Card
import Uboss.Math.LinkedList
import Uboss.Math.Transition

/-!
# The ids of the connections

`hashid.h`: each id has one of the `cap` nodes. A free node is looked for from the id on, and the
nodes of the ids with the same lowest bits form a chain. Numbers are `int`s, and wrap. The nodes and
the chains are arrays, and an index outside of them is an error.
-/

namespace Uboss.Module

open Math Function List Nat Int32

/-- `struct hashid_node`. The next node is given by its index. -/
structure HashNode where
  id : Int32
  next : Option ℕ
  deriving DecidableEq

/-- `struct hashid`. -/
structure HashId where
  hashmod : Int32
  cap : Int32
  count : Int32
  id : ℕ → HashNode
  hash : ℕ → Option ℕ

/-- The ways in which `hashid.h` stops. -/
inductive HashError
  /-- An index that is not in the array. -/
  | badIndex
  | assertFailed
  /-- The model does not go on. -/
  | outOfFuel
  deriving DecidableEq, Repr

namespace HashId

/-- The loop of `hashid_init`, for at most so many rounds. -/
def initLoop (max : Int32) : ℕ → Int32 → Option Int32
  | 0, _ => none
  | rounds + 1, hashcap =>
    if hashcap < max then initLoop max rounds (hashcap * 2) else some hashcap

/-- `hashid_init`. -/
def init (rounds : ℕ) (max : Int32) : Option HashId := (initLoop max rounds 16).map fun hashcap =>
    { hashmod := hashcap - 1
      cap := max
      count := 0
      id _ := ⟨-1, none⟩
      hash _ := none }

variable (hi : HashId) (id : Int32)

/-- `id & hi->hashmod`, as an index. -/
def bucket : Except HashError ℕ :=
  let h := id &&& hi.hashmod
  if 0 ≤ h ∧ h ≤ hi.hashmod then .ok h.toNatClampNeg else .error .badIndex

/-- The loop of `hashid_lookup`. -/
def lookupLoop : ℕ → Option ℕ → Except HashError Int32
  | 0, _ => .error .outOfFuel
  | _ + 1, none => .ok (-1)
  | fuel + 1, some c =>
    if (hi.id c).id = id then .ok (ofNat c) else lookupLoop fuel (hi.id c).next

/-- `hashid_lookup`. -/
def lookup : Except HashError Int32 :=
  (hi.bucket id).bind fun h => lookupLoop hi id (hi.cap.toNatClampNeg + 1) (hi.hash h)

/-- The end of `hashid_remove`. -/
def clearNode (c : ℕ) : Int32 × HashId := (ofNat c,
    { hi with id := update hi.id c ⟨-1, none⟩, count := hi.count - 1 })

/-- The loop of `hashid_remove`. -/
def removeLoop : ℕ → ℕ → Except HashError (Int32 × HashId)
  | 0, _ => .error .outOfFuel
  | fuel + 1, c =>
    match (hi.id c).next with
    | none => .ok (-1, hi)
    | some temp =>
      if (hi.id temp).id = id then
        .ok (clearNode
          { hi with
            id := update hi.id c { hi.id c with next := (hi.id temp).next } } temp)
      else removeLoop fuel temp

/-- `hashid_remove`. -/
def remove : Except HashError (Int32 × HashId) := (hi.bucket id).bind fun h =>
    match hi.hash h with
    | none => .ok (-1, hi)
    | some c =>
      if (hi.id c).id = id then
        .ok (clearNode { hi with hash := update hi.hash h (hi.id c).next } c)
      else removeLoop hi id (hi.cap.toNatClampNeg + 1) c

/-- The loop of `hashid_insert`, for so many rounds, from `i` on. -/
def probe : ℕ → Int32 → Except HashError (Option ℕ)
  | 0, _ => .ok none
  | rounds + 1, i =>
    let index := (i + id) % hi.cap
    if 0 ≤ index ∧ index < hi.cap then
      if (hi.id index.toNatClampNeg).id = -1 then .ok (some index.toNatClampNeg)
      else probe rounds (i + 1)
    else .error .badIndex

/-- `hashid_insert`. -/
def insert : Except HashError (Int32 × HashId) := (probe hi id hi.cap.toNatClampNeg 0).bind fun
    | none => .error .assertFailed
    | some c =>
      if (hi.id c).next ≠ none then .error .assertFailed
      else (hi.bucket id).map fun h =>
        let next := if (hi.hash h).isSome then hi.hash h else (hi.id c).next
        (ofNat c,
          { hi with
            count := hi.count + 1
            id := update hi.id c ⟨id, next⟩
            hash := update hi.hash h (some c) })

/-- `hashid_full`. -/
def full : Bool := hi.count = hi.cap

/-! ### The invariant -/

/-- A node that has an id. -/
def Used (c : ℕ) : Prop := c < hi.cap.toNatClampNeg ∧ (hi.id c).id ≠ -1

instance (c : ℕ) : Decidable (hi.Used c) := inferInstanceAs (Decidable (_ ∧ _))

/-- The nodes that have an id. -/
def used : Finset ℕ := (Finset.range hi.cap.toNatClampNeg).filter hi.Used

/-- Every node with an id is in the chain of this id, and no id is there twice. -/
structure Valid (chains : ℕ → List ℕ) : Prop where
  hashmod : 0 ≤ hi.hashmod
  cap : 0 < hi.cap
  chain : ∀ b, Chain (fun c => (hi.id c).next) (hi.hash b) (chains b)
  nodup : ∀ b, (chains b).Nodup
  mem_iff : ∀ {b c}, c ∈ chains b ↔ hi.Used c ∧ hi.bucket (hi.id c).id = .ok b
  next_eq_none : ∀ c, (hi.id c).id = -1 → (hi.id c).next = none
  injective : ∀ {c d}, hi.Used c → hi.Used d → (hi.id c).id = (hi.id d).id → c = d
  count : hi.count.toInt = hi.used.card

variable {hi id} {chains : ℕ → List ℕ} {b c : ℕ} {l : List ℕ}

theorem exists_bucket (hhashmod : 0 ≤ hi.hashmod) (id : Int32) : ∃ h, hi.bucket id = .ok h := by
  have hmask : (id &&& hi.hashmod).toBitVec.toNat ≤ hi.hashmod.toBitVec.toNat := by
    rw [Int32.toBitVec_and, BitVec.toNat_and]
    exact and_le_right
  have hpos := toNat_toBitVec_of_le hhashmod
  have hlt := hi.hashmod.toNatClampNeg_lt
  have hsmall : 2 * (id &&& hi.hashmod).toBitVec.toNat < 2 ^ 32 := by omega
  have hsmall' : 2 * hi.hashmod.toBitVec.toNat < 2 ^ 32 := by omega
  have hint : (id &&& hi.hashmod).toInt = (id &&& hi.hashmod).toBitVec.toNat :=
    BitVec.toInt_eq_toNat_of_lt hsmall
  have hint' : hi.hashmod.toInt = hi.hashmod.toBitVec.toNat := BitVec.toInt_eq_toNat_of_lt hsmall'
  refine ⟨_, if_pos ⟨?_, ?_⟩⟩
  · rw [le_iff_toInt_le, hint]
    exact Int.natCast_nonneg _
  · rw [le_iff_toInt_le, hint, hint']
    exact_mod_cast hmask

/-! ### Looking for an id -/

/-- By induction on the chain, which ends before the rounds do. -/
theorem lookupLoop_of_chain {p : Option ℕ} {fuel : ℕ}
    (hchain : Chain (fun c => (hi.id c).next) p l) (hfuel : l.length < fuel) :
    lookupLoop hi id fuel p = .ok (((l.find? fun c => (hi.id c).id = id).map ofNat).getD (-1)) := by
  induction l generalizing p fuel with
  | nil =>
    obtain ⟨fuel, rfl⟩ : ∃ n, fuel = n + 1 := ⟨fuel - 1, by omega⟩
    obtain rfl : p = none := hchain
    rfl
  | cons c l ih =>
    obtain ⟨fuel, rfl⟩ : ∃ n, fuel = n + 1 := ⟨fuel - 1, by omega⟩
    obtain ⟨rfl, hrest⟩ := hchain
    rw [lookupLoop]
    by_cases hid : (hi.id c).id = id
    · rw [if_pos hid, find?_cons_of_pos (by simp [hid])]
      rfl
    · rw [if_neg hid, find?_cons_of_neg (by simp [hid])]
      exact ih hrest (lt_of_succ_lt_succ hfuel)

namespace Valid

variable (h : hi.Valid chains)

include h

theorem length_le (b : ℕ) : (chains b).length ≤ hi.cap.toNatClampNeg := by
  have hsub : chains b ⊆ List.range hi.cap.toNatClampNeg := fun c hc =>
    mem_range.mpr (h.mem_iff.mp hc).1.1
  have hle := (subperm_of_subset (h.nodup b) hsub).length_le
  rw [length_range] at hle
  exact hle

theorem find?_eq_some_iff (hb : hi.bucket id = .ok b) :
    (chains b).find? (fun c => (hi.id c).id = id) = some c ↔ hi.Used c ∧ (hi.id c).id = id := by
  constructor
  · intro hfind
    have hid : (hi.id c).id = id := by simpa using find?_some hfind
    exact ⟨(h.mem_iff.mp (mem_of_find?_eq_some hfind)).1, hid⟩
  · rintro ⟨hused, rfl⟩
    have hmem : c ∈ chains b := h.mem_iff.mpr ⟨hused, hb⟩
    cases hfind : (chains b).find? (fun d => (hi.id d).id = (hi.id c).id) with
    | none =>
      have hnot := find?_eq_none.mp hfind c hmem
      simp at hnot
    | some d =>
      have hid : (hi.id d).id = (hi.id c).id := by simpa using find?_some hfind
      have hd := (h.mem_iff.mp (mem_of_find?_eq_some hfind)).1
      rw [h.injective hd hused hid]

/-- `hashid_lookup` finds the index of the id, or nothing. -/
theorem lookup_eq (hb : hi.bucket id = .ok b) : hi.lookup id =
      .ok ((((chains b).find? fun c => (hi.id c).id = id).map ofNat).getD (-1)) := by
  rw [lookup, hb]
  exact lookupLoop_of_chain (h.chain b) (lt_succ_of_le (h.length_le b))

end Valid

/-! ### Taking a node out of its chain -/

theorem bucket_congr {hi' : HashId} (h : hi'.hashmod = hi.hashmod) :
    hi'.bucket id = hi.bucket id := by
  rw [bucket, bucket, h]

theorem next_update (c : ℕ) (node : HashNode) : (fun k => (update hi.id c node k).next) =
      update (fun k => (hi.id k).next) c node.next := by
  funext k
  by_cases hk : k = c
  · subst hk
    rw [update_self, update_self]
  · rw [update_of_ne hk, update_of_ne hk]

theorem card_used_le (hi : HashId) : hi.used.card ≤ hi.cap.toNatClampNeg := by
  have hle := Finset.card_filter_le (Finset.range hi.cap.toNatClampNeg) hi.Used
  rw [Finset.card_range] at hle
  exact hle

namespace Valid

/-- A table in which one node has lost its id and is no longer in its chain. -/
theorem unlinked {hi' : HashId} {l₁ l₂ : List ℕ} (h : hi.Valid chains)
    (hsplit : chains b = l₁ ++ c :: l₂) (hhashmod : hi'.hashmod = hi.hashmod)
    (hcap : hi'.cap = hi.cap) (hcount : hi'.count = hi.count - 1)
    (hid : ∀ k, (hi'.id k).id = if k = c then -1 else (hi.id k).id)
    (hnext : ∀ k, k ∉ l₁ → (hi'.id k).next = if k = c then none else (hi.id k).next)
    (hhash : ∀ b', b' ≠ b → hi'.hash b' = hi.hash b')
    (hchain : Chain (fun k => (hi'.id k).next) (hi'.hash b) (l₁ ++ l₂)) :
    hi'.Valid (update chains b (l₁ ++ l₂)) := by
  have hnodup := h.nodup b
  rw [hsplit] at hnodup
  obtain ⟨hc, hnodup⟩ := nodup_middle.mp hnodup |> nodup_cons.mp
  have hmem : c ∈ chains b := by
    rw [hsplit]
    exact mem_append_right _ mem_cons_self
  obtain ⟨hused, hbucket⟩ := h.mem_iff.mp hmem
  have hused' : ∀ k, hi'.Used k ↔ hi.Used k ∧ k ≠ c := by
    intro k
    rw [Used, Used, hid, hcap]
    by_cases hk : k = c
    · subst hk
      simp
    · simp [hk]
  have hother : ∀ {b' k}, b' ≠ b → k ∈ chains b' → k ∉ chains b := by
    intro b' k hne hk hkb
    have hb' := (h.mem_iff.mp hk).2.symm.trans (h.mem_iff.mp hkb).2
    exact hne (Except.ok.inj hb')
  constructor
  · exact hhashmod ▸ h.hashmod
  · exact hcap ▸ h.cap
  · intro b'
    by_cases hb : b' = b
    · subst hb
      rw [update_self]
      exact hchain
    · rw [update_of_ne hb, hhash b' hb]
      refine chain_congr (fun k hk => ?_) (h.chain b')
      have hnot := hother hb hk
      rw [hsplit, mem_append, mem_cons, not_or, not_or] at hnot
      show (hi'.id k).next = _
      rw [hnext k hnot.1, if_neg hnot.2.1]
  · intro b'
    by_cases hb : b' = b
    · subst hb
      rw [update_self]
      exact hnodup
    · rw [update_of_ne hb]
      exact h.nodup b'
  · intro b' k
    rw [hused', hid, bucket_congr hhashmod]
    by_cases hk : k = c
    · subst hk
      refine iff_of_false (fun hin => ?_) fun hin => hin.1.2 rfl
      by_cases hb : b' = b
      · subst hb
        rw [update_self] at hin
        exact hc hin
      · rw [update_of_ne hb] at hin
        exact hother hb hin hmem
    · rw [if_neg hk, and_iff_left hk, ← h.mem_iff]
      by_cases hb : b' = b
      · subst hb
        rw [update_self, hsplit]
        simp [hk]
      · rw [update_of_ne hb]
  · intro k hk
    by_cases hkc : k = c
    · subst hkc
      rw [hnext k fun hin => hc (mem_append_left _ hin), if_pos rfl]
    · rw [hid, if_neg hkc] at hk
      have hnot : k ∉ chains b := fun hin => (h.mem_iff.mp hin).1.2 hk
      rw [hsplit, mem_append, not_or] at hnot
      rw [hnext k hnot.1, if_neg hkc]
      exact h.next_eq_none k hk
  · intro k k' hk hk' heq
    obtain ⟨hk, hkc⟩ := (hused' k).mp hk
    obtain ⟨hk', hkc'⟩ := (hused' k').mp hk'
    rw [hid, hid, if_neg hkc, if_neg hkc'] at heq
    exact h.injective hk hk' heq
  · have herase : hi'.used = hi.used.erase c := by
      ext k
      simp only [used, Finset.mem_filter, Finset.mem_range, Finset.mem_erase, hused', hcap]
      tauto
    have hin : c ∈ hi.used := Finset.mem_filter.mpr ⟨Finset.mem_range.mpr hused.1, hused⟩
    have hpos := Finset.card_pos.mpr ⟨c, hin⟩
    have hle := hi.card_used_le
    have hlt := hi.cap.toNatClampNeg_lt
    have hone : (1 : Int32).toInt = 1 := rfl
    rw [herase, Finset.card_erase_of_mem hin, hcount, toInt_sub, h.count, hone,
      Int.bmod_eq_of_le_mul_two]
    all_goals omega

end Valid

/-- By induction on the chain behind a node. -/
theorem removeLoop_of_chain {fuel : ℕ}
    (hchain : Chain (fun c => (hi.id c).next) (hi.id c).next l) (hfuel : l.length < fuel) :
    l.find? (fun c => (hi.id c).id = id) = none ∧ removeLoop hi id fuel c = .ok (-1, hi) ∨
      ∃ l₁ d t l₂, l.find? (fun c => (hi.id c).id = id) = some t ∧ c :: l = l₁ ++ d :: t :: l₂ ∧
        removeLoop hi id fuel c = .ok (clearNode
            { hi with
              id := update hi.id d { hi.id d with next := (hi.id t).next } } t) := by
  induction l generalizing c fuel with
  | nil =>
    obtain ⟨fuel, rfl⟩ : ∃ n, fuel = n + 1 := ⟨fuel - 1, by omega⟩
    have hnext : (hi.id c).next = none := hchain
    refine .inl ⟨rfl, ?_⟩
    rw [removeLoop, hnext]
  | cons t l ih =>
    obtain ⟨fuel, rfl⟩ : ∃ n, fuel = n + 1 := ⟨fuel - 1, by omega⟩
    obtain ⟨hnext, hrest⟩ := hchain
    by_cases hid : (hi.id t).id = id
    · refine .inr ⟨[], c, t, l, find?_cons_of_pos (by simp [hid]), rfl, ?_⟩
      rw [removeLoop, hnext]
      exact if_pos hid
    · have hloop : removeLoop hi id (fuel + 1) c = removeLoop hi id fuel t := by
        rw [removeLoop, hnext]
        exact if_neg hid
      rw [find?_cons_of_neg (by simp [hid]), hloop]
      rcases ih hrest (lt_of_succ_lt_succ hfuel) with hnone |
        ⟨l₁, d, t', l₂, hfind, hsplit, hremove⟩
      · exact .inl hnone
      · refine .inr ⟨c :: l₁, d, t', l₂, hfind, ?_, hremove⟩
        rw [hsplit]
        rfl

theorem remove_of_nil (hb : hi.bucket id = .ok b) (hhash : hi.hash b = none) :
    hi.remove id = .ok (-1, hi) := by
  simp only [remove, hb, Except.bind, hhash]

theorem remove_of_cons (hb : hi.bucket id = .ok b) (hhash : hi.hash b = some c) : hi.remove id =
      if (hi.id c).id = id then
        .ok (clearNode { hi with hash := update hi.hash b (hi.id c).next } c)
      else removeLoop hi id (hi.cap.toNatClampNeg + 1) c := by
  simp only [remove, hb, Except.bind, hhash]

/-- An id without a node, or the node of an id. -/
theorem remove_of_valid (h : hi.Valid chains) (hb : hi.bucket id = .ok b) :
    (chains b).find? (fun c => (hi.id c).id = id) = none ∧ hi.remove id = .ok (-1, hi) ∨
      ∃ c hi' chains', (chains b).find? (fun c => (hi.id c).id = id) = some c ∧
        hi.remove id = .ok (ofNat c, hi') ∧ hi'.Valid chains' ∧ hi'.cap = hi.cap ∧
        ∀ k, (hi'.id k).id = if k = c then -1 else (hi.id k).id := by
  have hchain := h.chain b
  have hlength := h.length_le b
  have hnodup := h.nodup b
  cases hl : chains b with
  | nil =>
    rw [hl] at hchain
    exact .inl ⟨rfl, remove_of_nil hb hchain⟩
  | cons c l =>
    rw [hl] at hchain hnodup hlength
    obtain ⟨hhash, hrest⟩ := hchain
    rw [remove_of_cons hb hhash]
    by_cases hid : (hi.id c).id = id
    · -- the first node of the chain
      rw [if_pos hid]
      have hl' : chains b = [] ++ c :: l := hl
      obtain ⟨hc, -⟩ := nodup_cons.mp hnodup
      have hids : ∀ k, (update hi.id c ⟨-1, none⟩ k).id =
          if k = c then -1 else (hi.id k).id := by
        intro k
        rw [update_apply]
        split_ifs <;> rfl
      refine .inr ⟨c, _, _, find?_cons_of_pos (by simp [hid]), rfl,
        h.unlinked hl' rfl rfl rfl hids ?_ ?_ ?_, rfl, hids⟩
      · intro k _
        show (update hi.id c ⟨-1, none⟩ k).next = _
        rw [update_apply]
        split_ifs <;> rfl
      · intro b' hne
        exact update_of_ne hne _ _
      · show Chain (fun k => (update hi.id c ⟨-1, none⟩ k).next)
          (update hi.hash b (hi.id c).next b) l
        rw [next_update, update_self]
        exact chain_update_of_notMem hc hrest
    · -- a node behind the first one, or none
      rw [if_neg hid, find?_cons_of_neg (by simp [hid])]
      have hfuel : l.length < hi.cap.toNatClampNeg + 1 := by
        rw [length_cons] at hlength
        omega
      rcases removeLoop_of_chain hrest hfuel with hnone | ⟨l₁, d, t, l₂, hfind, hsplit, hremove⟩
      · exact .inl hnone
      · rw [hsplit] at hl hnodup
        have hl' : chains b = (l₁ ++ [d]) ++ t :: l₂ := by
          rw [hl, append_assoc]
          rfl
        have hdt : t ≠ d := by
          rintro rfl
          exact (nodup_cons.mp (nodup_append.mp hnodup).2.1).1 mem_cons_self
        have hids : ∀ k, (update (update hi.id d
            { hi.id d with next := (hi.id t).next }) t ⟨-1, none⟩ k).id =
            if k = t then -1 else (hi.id k).id := by
          intro k
          rw [update_apply, update_apply]
          split_ifs with hkt hkd
          · rfl
          · rw [hkd]
          · rfl
        refine .inr ⟨t, _, _, hfind, hremove,
          h.unlinked hl' rfl rfl rfl hids ?_ (fun _ _ => rfl) ?_,
          rfl, hids⟩
        · intro k hk
          have hkd : k ≠ d := fun heq => hk (heq ▸ mem_append_right _ mem_cons_self)
          show (update (update hi.id d _) t ⟨-1, none⟩ k).next = _
          rw [update_apply, update_of_ne hkd]
          split_ifs <;> rfl
        · have hchain' : Chain (fun k => (hi.id k).next) (hi.hash b) (l₁ ++ d :: t :: l₂) := by
            rw [← hl]
            exact h.chain b
          have hunlink := chain_unlink hnodup hchain'
          rw [append_assoc]
          refine chain_congr (fun k _ => ?_) hunlink
          show (update (update hi.id d _) t ⟨-1, none⟩ k).next = _
          rw [update_apply, update_apply]
          by_cases hkt : k = t
          · rw [if_pos hkt, hkt, update_self]
          · rw [if_neg hkt, update_of_ne hkt]
            by_cases hkd : k = d
            · rw [if_pos hkd, hkd, update_self]
            · rw [if_neg hkd, update_of_ne hkd]

end HashId

end Uboss.Module
