import Mathlib.Algebra.Order.Ring.Int
import Mathlib.Data.Nat.Find
import Uboss.Module.HashId

/-!
# A new id

`hashid_insert` looks at the nodes from the id on, modulo `cap`. For the largest ids the sum of the
id and the counter is more than an `int` can hold: it wraps and is negative, and so is the index,
unless it is 0.
-/

namespace Uboss.Module

open Math Function Finset Int Nat Int32

namespace HashId

/-! ### The nodes that are looked at -/

section Probe

variable (hi : HashId) (id : Int32)

/-- The node that is looked at in a round, if nothing wraps. -/
def slot (i : ℕ) : ℕ := (id.toNatClampNeg + i) % hi.cap.toNatClampNeg

/-- A free node is found at an index that does not wrap, or at the index 0, to which the first one
that wraps leads if `cap` divides 2^31. -/
def Reaches : Prop :=
  (∃ i < hi.cap.toNatClampNeg, id.toNatClampNeg + i < 2 ^ 31 ∧ (hi.id (hi.slot id i)).id = -1) ∨
    2 ^ 31 % hi.cap.toNatClampNeg = 0 ∧ (hi.id 0).id = -1

end Probe

variable {hi : HashId} {id : Int32} {i k : ℕ}

theorem toInt_eq_toNatClampNeg {x : Int32} (h : 0 ≤ x) : x.toInt = x.toNatClampNeg :=
  (cast_toNatClampNeg x h).symm

theorem cap_pos (hcap : 0 < hi.cap) : 0 < hi.cap.toNatClampNeg := by
  have hint := lt_iff_toInt_lt.mp hcap
  rw [toInt_eq_toNatClampNeg (Int32.le_of_lt hcap), Int32.toInt_zero] at hint
  exact_mod_cast hint

theorem slot_lt (hcap : 0 < hi.cap) (i : ℕ) : hi.slot id i < hi.cap.toNatClampNeg :=
  mod_lt _ (cap_pos hcap)

theorem index_of_lt (hcap : 0 < hi.cap) (hid : 0 ≤ id) (hlt : id.toNatClampNeg + i < 2 ^ 31) :
    ((Int32.ofNat i + id) % hi.cap).toInt = hi.slot id i := by
  have hi' : (Int32.ofNat i).toInt = i := Int32.toInt_ofNat_of_lt (by omega)
  have hsum : (Int32.ofNat i + id).toInt = ((id.toNatClampNeg + i : ℕ) : ℤ) := by
    rw [toInt_add, hi', toInt_eq_toNatClampNeg hid, bmod_eq_of_le_mul_two]
    all_goals omega
  rw [Int32.toInt_mod, hsum, toInt_eq_toNatClampNeg (Int32.le_of_lt hcap)]
  rfl

theorem index_of_ge (hcap : 0 < hi.cap) (hid : 0 ≤ id) (hi' : i < 2 ^ 31)
    (hge : 2 ^ 31 ≤ id.toNatClampNeg + i) :
    ((Int32.ofNat i + id) % hi.cap).toInt =
      -((2 ^ 32 - (id.toNatClampNeg + i)) % hi.cap.toNatClampNeg : ℕ) := by
  have hint : (Int32.ofNat i).toInt = i := Int32.toInt_ofNat_of_lt hi'
  have hlt := id.toNatClampNeg_lt
  have hsum : (Int32.ofNat i + id).toInt = -((2 ^ 32 - (id.toNatClampNeg + i) : ℕ) : ℤ) := by
    have hmod : ((i : ℤ) + id.toNatClampNeg) % ((2 ^ 32 : ℕ) : ℤ) = i + id.toNatClampNeg :=
      emod_eq_of_lt (by omega) (by omega)
    rw [toInt_add, hint, toInt_eq_toNatClampNeg hid, bmod_neg, hmod]
    all_goals omega
  rw [Int32.toInt_mod, hsum, toInt_eq_toNatClampNeg (Int32.le_of_lt hcap), neg_tmod]
  rfl

theorem ofNat_succ (i : ℕ) : Int32.ofNat i + 1 = Int32.ofNat (i + 1) := by
  rw [ofNat_add]
  rfl

theorem probe_succ {rounds : ℕ} {i : Int32} (hindex : ((i + id) % hi.cap).toInt = k)
    (hk : k < hi.cap.toNatClampNeg) (hcap : 0 < hi.cap) :
    probe hi id (rounds + 1) i =
      if (hi.id k).id = -1 then .ok (some k) else probe hi id rounds (i + 1) := by
  have hnat : ((i + id) % hi.cap).toNatClampNeg = k := by
    rw [← toNat_toInt, hindex, toNat_natCast]
  have hrange : 0 ≤ (i + id) % hi.cap ∧ (i + id) % hi.cap < hi.cap := by
    rw [le_iff_toInt_le, lt_iff_toInt_lt, hindex, toInt_zero,
      toInt_eq_toNatClampNeg (Int32.le_of_lt hcap)]
    omega
  rw [probe]
  rw [if_pos hrange, hnat]

theorem probe_of_neg {rounds : ℕ} {i : Int32} (hindex : ((i + id) % hi.cap).toInt < 0) :
    probe hi id (rounds + 1) i = .error .badIndex := by
  rw [probe]
  rw [if_neg]
  rintro ⟨hle, -⟩
  rw [le_iff_toInt_le, toInt_zero] at hle
  omega

theorem probe_skip {rounds : ℕ} (hcap : 0 < hi.cap) (hid : 0 ≤ id)
    (hused : ∀ j < k, id.toNatClampNeg + j < 2 ^ 31 ∧ (hi.id (hi.slot id j)).id ≠ -1) :
    probe hi id (k + rounds) 0 = probe hi id rounds (ofNat k) := by
  induction k generalizing rounds with
  | zero =>
    rw [Nat.zero_add]
    rfl
  | succ k ih =>
    obtain ⟨hlt, hne⟩ := hused k (lt_succ_self k)
    have hbefore : probe hi id (k + (rounds + 1)) 0 = probe hi id (rounds + 1) (ofNat k) :=
      ih fun j hj => hused j (lt_succ_of_lt hj)
    rw [Nat.add_right_comm, Nat.add_assoc, hbefore,
      probe_succ (index_of_lt hcap hid hlt) (slot_lt hcap k) hcap, if_neg hne, ofNat_succ]

theorem exists_first (h : ∃ i < hi.cap.toNatClampNeg,
      id.toNatClampNeg + i < 2 ^ 31 ∧ (hi.id (hi.slot id i)).id = -1) :
    ∃ i < hi.cap.toNatClampNeg, id.toNatClampNeg + i < 2 ^ 31 ∧
      (hi.id (hi.slot id i)).id = -1 ∧ ∀ j < i, (hi.id (hi.slot id j)).id ≠ -1 := by
  classical
  obtain ⟨hlt, hsmall, hfree⟩ := Nat.find_spec h
  refine ⟨Nat.find h, hlt, hsmall, hfree, fun j hj hj' => ?_⟩
  exact Nat.find_min h hj ⟨lt_trans hj hlt, by omega, hj'⟩

theorem exists_slot (hcap : 0 < hi.cap) (hk : k < hi.cap.toNatClampNeg) (id : Int32) :
    ∃ i < hi.cap.toNatClampNeg, hi.slot id i = k := by
  have hpos := cap_pos hcap
  have hlt := mod_lt id.toNatClampNeg hpos
  refine ⟨(k + (hi.cap.toNatClampNeg - id.toNatClampNeg % hi.cap.toNatClampNeg)) %
    hi.cap.toNatClampNeg, mod_lt _ hpos, ?_⟩
  rw [slot, add_mod_mod]
  have hsum : id.toNatClampNeg % hi.cap.toNatClampNeg +
      (k + (hi.cap.toNatClampNeg - id.toNatClampNeg % hi.cap.toNatClampNeg)) =
      k + hi.cap.toNatClampNeg := by omega
  rw [← mod_add_mod, hsum, add_mod_right, mod_eq_of_lt hk]

/-- A free node is found. -/
theorem probe_of_reaches (hcap : 0 < hi.cap) (hid : 0 ≤ id) (h : hi.Reaches id)
    (hfree : ∃ k < hi.cap.toNatClampNeg, (hi.id k).id = -1) :
    ∃ k, probe hi id hi.cap.toNatClampNeg 0 = .ok (some k) ∧ k < hi.cap.toNatClampNeg ∧
      (hi.id k).id = -1 := by
  by_cases hsmall : ∃ i < hi.cap.toNatClampNeg,
      id.toNatClampNeg + i < 2 ^ 31 ∧ (hi.id (hi.slot id i)).id = -1
  · obtain ⟨i, hlt, hint, hslot, hbefore⟩ := exists_first hsmall
    obtain ⟨rounds, hrounds⟩ : ∃ rounds, hi.cap.toNatClampNeg = i + (rounds + 1) :=
      ⟨hi.cap.toNatClampNeg - i - 1, by omega⟩
    refine ⟨hi.slot id i, ?_, slot_lt hcap i, hslot⟩
    rw [hrounds, probe_skip hcap hid fun j hj => ⟨by omega, hbefore j hj⟩,
      probe_succ (index_of_lt hcap hid hint) (slot_lt hcap i) hcap, if_pos hslot]
  · -- the first index that wraps is 0
    obtain ⟨hdvd, hzero⟩ := h.resolve_left hsmall
    obtain ⟨k, hk, hkfree⟩ := hfree
    obtain ⟨i, hlt, rfl⟩ := exists_slot hcap hk id
    have hwrap : 2 ^ 31 ≤ id.toNatClampNeg + i := by
      by_contra hnot
      exact hsmall ⟨i, hlt, by omega, hkfree⟩
    have hidlt := id.toNatClampNeg_lt
    have hcaplt := hi.cap.toNatClampNeg_lt
    obtain ⟨rounds, hrounds⟩ : ∃ rounds,
        hi.cap.toNatClampNeg = (2 ^ 31 - id.toNatClampNeg) + (rounds + 1) :=
      ⟨hi.cap.toNatClampNeg - (2 ^ 31 - id.toNatClampNeg) - 1, by omega⟩
    have hindex := index_of_ge (i := 2 ^ 31 - id.toNatClampNeg) hcap hid (by omega) (by omega)
    have hlast : 2 ^ 32 - (id.toNatClampNeg + (2 ^ 31 - id.toNatClampNeg)) = 2 ^ 31 := by omega
    rw [hlast, hdvd] at hindex
    refine ⟨0, ?_, cap_pos hcap, hzero⟩
    rw [hrounds, probe_skip hcap hid fun j hj => ⟨by omega, fun hj' => hsmall
        ⟨j, by omega, by omega, hj'⟩⟩, probe_succ hindex (cap_pos hcap) hcap, if_pos hzero]

/-- Or an index is negative. -/
theorem probe_of_not_reaches (hcap : 0 < hi.cap) (hid : 0 ≤ id) (h : ¬ hi.Reaches id)
    (hfree : ∃ k < hi.cap.toNatClampNeg, (hi.id k).id = -1) :
    probe hi id hi.cap.toNatClampNeg 0 = .error .badIndex := by
  obtain ⟨hsmall, hwrapped⟩ := not_or.mp h
  obtain ⟨k, hk, hkfree⟩ := hfree
  obtain ⟨i, hlt, rfl⟩ := exists_slot hcap hk id
  have hwrap : 2 ^ 31 ≤ id.toNatClampNeg + i := by
    by_contra hnot
    exact hsmall ⟨i, hlt, by omega, hkfree⟩
  have hidlt := id.toNatClampNeg_lt
  have hcaplt := hi.cap.toNatClampNeg_lt
  obtain ⟨rounds, hrounds⟩ : ∃ rounds,
      hi.cap.toNatClampNeg = (2 ^ 31 - id.toNatClampNeg) + (rounds + 1) :=
    ⟨hi.cap.toNatClampNeg - (2 ^ 31 - id.toNatClampNeg) - 1, by omega⟩
  have hindex := index_of_ge (i := 2 ^ 31 - id.toNatClampNeg) hcap hid (by omega) (by omega)
  have hlast : 2 ^ 32 - (id.toNatClampNeg + (2 ^ 31 - id.toNatClampNeg)) = 2 ^ 31 := by omega
  rw [hlast] at hindex
  rw [hrounds, probe_skip hcap hid fun j hj => ⟨by omega, fun hj' => hsmall
    ⟨j, by omega, by omega, hj'⟩⟩]
  by_cases hdvd : 2 ^ 31 % hi.cap.toNatClampNeg = 0
  · -- the node 0 is not free, and the next index is negative
    have hzero : (hi.id 0).id ≠ -1 := fun heq => hwrapped ⟨hdvd, heq⟩
    rw [hdvd] at hindex
    rw [probe_succ hindex (cap_pos hcap) hcap, if_neg hzero, ofNat_succ]
    have hne : i ≠ 2 ^ 31 - id.toNatClampNeg := by
      rintro rfl
      apply hzero
      have hsum : id.toNatClampNeg + (2 ^ 31 - id.toNatClampNeg) = 2 ^ 31 := by omega
      rw [slot, hsum, hdvd] at hkfree
      exact hkfree
    obtain ⟨rounds, rfl⟩ : ∃ n, rounds = n + 1 := ⟨rounds - 1, by omega⟩
    apply probe_of_neg
    have hindex' := index_of_ge (i := 2 ^ 31 - id.toNatClampNeg + 1) hcap hid (by omega) (by omega)
    have hlast' : 2 ^ 32 - (id.toNatClampNeg + (2 ^ 31 - id.toNatClampNeg + 1)) = 2 ^ 31 - 1 := by
      omega
    rw [hlast'] at hindex'
    have hpos : (2 ^ 31 - 1) % hi.cap.toNatClampNeg ≠ 0 := by
      intro heq
      have hone := Nat.dvd_sub (dvd_of_mod_eq_zero hdvd) (dvd_of_mod_eq_zero heq)
      have hle := le_of_dvd (by decide) hone
      omega
    omega
  · apply probe_of_neg
    omega

/-! ### Putting a node into a chain -/

section Insert

variable {chains : ℕ → List ℕ} {b c : ℕ}

/-- The table behind `hashid_insert`, for a node without a successor. -/
def linkNode (hi : HashId) (id : Int32) (b c : ℕ) : HashId :=
  { hi with
    count := hi.count + 1
    id := Function.update hi.id c ⟨id, hi.hash b⟩
    hash := Function.update hi.hash b (some c) }

theorem id_linkNode (k : ℕ) :
    ((hi.linkNode id b c).id k).id = if k = c then id else (hi.id k).id := by
  show (update hi.id c ⟨id, hi.hash b⟩ k).id = _
  rw [update_apply]
  split_ifs <;> rfl

theorem used_linkNode (hc : c < hi.cap.toNatClampNeg) (hid : id ≠ -1) (k : ℕ) :
    (hi.linkNode id b c).Used k ↔ k = c ∨ hi.Used k := by
  rw [Used, Used, id_linkNode]
  show k < hi.cap.toNatClampNeg ∧ _ ↔ _
  by_cases hk : k = c
  · subst hk
    simp [hc, hid]
  · simp [hk]

theorem Valid.linked (h : hi.Valid chains) (hb : hi.bucket id = .ok b)
    (hc : c < hi.cap.toNatClampNeg) (hfree : (hi.id c).id = -1) (hid : id ≠ -1)
    (hnew : ∀ k, hi.Used k → (hi.id k).id ≠ id) :
    (hi.linkNode id b c).Valid (update chains b (c :: chains b)) := by
  have hnotused : ¬ hi.Used c := fun hused => hused.2 hfree
  have hnot : ∀ b', c ∉ chains b' := fun b' hin => hnotused (h.mem_iff.mp hin).1
  have hchain : ∀ b',
      Chain (fun k => ((hi.linkNode id b c).id k).next) (hi.hash b') (chains b') := by
    intro b'
    show Chain (fun k => (update hi.id c ⟨id, hi.hash b⟩ k).next) _ _
    rw [next_update]
    exact chain_update_of_notMem (hnot b') (h.chain b')
  constructor
  · exact h.hashmod
  · exact h.cap
  · intro b'
    by_cases hb' : b' = b
    · subst hb'
      rw [update_self]
      refine ⟨update_self .., ?_⟩
      have hlink : ((hi.linkNode id b' c).id c).next = hi.hash b' := by
        show (update hi.id c ⟨id, hi.hash b'⟩ c).next = _
        rw [update_self]
      show Chain _ ((hi.linkNode id b' c).id c).next (chains b')
      rw [hlink]
      exact hchain b'
    · rw [update_of_ne hb']
      show Chain _ (update hi.hash b (some c) b') (chains b')
      rw [update_of_ne hb']
      exact hchain b'
  · intro b'
    by_cases hb' : b' = b
    · subst hb'
      rw [update_self]
      exact List.nodup_cons.mpr ⟨hnot b', h.nodup b'⟩
    · rw [update_of_ne hb']
      exact h.nodup b'
  · intro b' k
    rw [used_linkNode hc hid, id_linkNode, bucket_congr (show (hi.linkNode id b c).hashmod =
      hi.hashmod from rfl)]
    by_cases hk : k = c
    · subst hk
      rw [if_pos rfl, hb]
      by_cases hb' : b' = b
      · subst hb'
        rw [update_self]
        exact iff_of_true List.mem_cons_self ⟨.inl rfl, rfl⟩
      · rw [update_of_ne hb']
        refine iff_of_false (hnot b') fun hin => hb' ?_
        exact (Except.ok.inj hin.2).symm
    · rw [if_neg hk, or_iff_right hk, ← h.mem_iff]
      by_cases hb' : b' = b
      · subst hb'
        rw [update_self, List.mem_cons, or_iff_right hk]
      · rw [update_of_ne hb']
  · intro k hk
    rw [id_linkNode] at hk
    split_ifs at hk with hkc
    · exact absurd hk hid
    · show (update hi.id c ⟨id, hi.hash b⟩ k).next = none
      rw [update_of_ne hkc]
      exact h.next_eq_none k hk
  · intro k k' hk hk' heq
    rw [used_linkNode hc hid] at hk hk'
    rw [id_linkNode, id_linkNode] at heq
    split_ifs at heq with hkc hkc' hkc'
    · exact hkc.trans hkc'.symm
    · exact absurd heq.symm (hnew k' (hk'.resolve_left hkc'))
    · exact absurd heq (hnew k (hk.resolve_left hkc))
    · exact h.injective (hk.resolve_left hkc) (hk'.resolve_left hkc') heq
  · have hinsert : (hi.linkNode id b c).used = Insert.insert c hi.used := by
      ext k
      rw [used, mem_filter, mem_insert, used, mem_filter, mem_range,
        mem_range, used_linkNode hc hid]
      constructor
      · rintro ⟨hlt, heq | hused⟩
        · exact .inl heq
        · exact .inr ⟨hlt, hused⟩
      · rintro (rfl | ⟨hlt, hused⟩)
        · exact ⟨hc, .inl rfl⟩
        · exact ⟨hlt, .inr hused⟩
    have hcnot : c ∉ hi.used := fun hin => hnotused (mem_filter.mp hin).2
    have hle := (hi.linkNode id b c).card_used_le
    rw [hinsert, card_insert_of_notMem hcnot] at hle
    have hlt := hi.cap.toNatClampNeg_lt
    have hle' : hi.used.card + 1 ≤ hi.cap.toNatClampNeg := hle
    show (hi.count + 1).toInt = _
    rw [hinsert, card_insert_of_notMem hcnot, toInt_add, h.count, toInt_one, bmod_eq_of_le_mul_two]
    all_goals omega

theorem Valid.exists_free (h : hi.Valid chains) (hfull : hi.full = false) :
    ∃ k < hi.cap.toNatClampNeg, (hi.id k).id = -1 := by
  by_contra hnone
  have hall : hi.used = Finset.range hi.cap.toNatClampNeg := by
    refine filter_true_of_mem fun k hk => ?_
    have hlt := mem_range.mp hk
    exact ⟨hlt, fun hfree => hnone ⟨k, hlt, hfree⟩⟩
  have hcount := h.count
  rw [hall, card_range, ← toInt_eq_toNatClampNeg (Int32.le_of_lt h.cap)] at hcount
  have hne : hi.count ≠ hi.cap := of_decide_eq_false hfull
  exact hne (toInt.inj hcount)

/-- A new id gets a free node, or an index is negative. -/
theorem insert_of_valid (h : hi.Valid chains) (hfull : hi.full = false) (hid : 0 ≤ id)
    (hnew : ∀ k, hi.Used k → (hi.id k).id ≠ id) :
    hi.Reaches id ∧ (∃ b c, hi.insert id = .ok (ofNat c, hi.linkNode id b c) ∧
        c < hi.cap.toNatClampNeg ∧ (hi.id c).id = -1 ∧
        (hi.linkNode id b c).Valid (update chains b (c :: chains b))) ∨
      ¬ hi.Reaches id ∧ hi.insert id = .error .badIndex := by
  have hfree := h.exists_free hfull
  obtain ⟨b, hb⟩ := exists_bucket h.hashmod id
  have hne : id ≠ -1 := by
    rintro rfl
    exact absurd hid (by decide)
  by_cases hreaches : hi.Reaches id
  · obtain ⟨c, hprobe, hc, hcfree⟩ := probe_of_reaches h.cap hid hreaches hfree
    have hnext := h.next_eq_none c hcfree
    refine .inl ⟨hreaches, b, c, ?_, hc, hcfree, h.linked hb hc hcfree hne hnew⟩
    have hlink : (if (hi.hash b).isSome then hi.hash b else (hi.id c).next) = hi.hash b := by
      rw [hnext]
      cases hi.hash b <;> rfl
    rw [insert, hprobe]
    show (if (hi.id c).next ≠ none then _ else _) = _
    rw [if_neg (not_not.mpr hnext), hb]
    show Except.ok (_, _) = _
    rw [hlink]
    rfl
  · refine .inr ⟨hreaches, ?_⟩
    rw [insert, probe_of_not_reaches h.cap hid hreaches hfree]
    rfl

end Insert

end HashId

end Uboss.Module
