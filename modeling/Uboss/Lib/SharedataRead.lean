import Uboss.Lib.SharedataTree

/-!
# The access to shared data

A table whose keys are strings and integers of 32 bits is read as it was written: the lookup of a
key follows the links from its main slot, and the keys are listed by the array and the slots.
-/

namespace Uboss.Lib.Sharedata

open Math List
open Scatter (heads Linked Links Placed Chained)

/-! ### Keys -/

/-- The keys that a node can hold: strings, and integers of 32 bits. -/
def IsConfKey : LuaScalar → Prop
  | .string _ => True
  | .integer n => -2 ^ 31 ≤ n.toInt ∧ n.toInt < 2 ^ 31
  | _ => False

/-- The key of Lua. -/
def ConfKey.toScalar : ConfKey → LuaScalar
  | .integer key => .integer (Int64.ofInt key)
  | .string str => .string str

variable {n i : ℕ} {k k' : LuaScalar}

/-- A key is an index of the array, or it is looked for in the hash part. -/
theorem place_cases (hk : IsConfKey k) :
    (∃ i < n, k = arrayKey (i + 1) ∧ placeOf n (.scalar k) = .inl (i + 1) ∧
      callKey n k = .ok (.array i)) ∨
    ∃ key : ConfKey, k = key.toScalar ∧ placeOf n (.scalar k) = .inr key ∧
      callKey n k = .ok (.hash key) := by
  cases k with
  | boolean | real | lightuserdata => cases hk
  | string s => exact .inr ⟨.string s, rfl, rfl, rfl⟩
  | integer m =>
    obtain ⟨hlow, hhigh⟩ := hk
    have hkey := toIntKey_eq hlow hhigh
    unfold placeOf callKey
    dsimp only
    rw [hkey]
    by_cases harray : 0 < m.toInt ∧ m.toInt ≤ n
    · rw [if_pos harray, if_pos harray]
      refine .inl ⟨(m.toInt - 1).toNat, by omega, ?_, ?_, rfl⟩
      · have hm : Int64.ofInt m.toInt = m := Int64.ofInt_toInt m
        have hindex : (((m.toInt - 1).toNat + 1 : ℕ) : ℤ) = m.toInt := by omega
        rw [arrayKey, ← Int64.ofInt_eq_ofNat, hindex, hm]
      · congr 1
        omega
    · rw [if_neg harray, if_neg harray]
      exact .inr ⟨.integer m.toInt, by rw [ConfKey.toScalar, Int64.ofInt_toInt], rfl, rfl⟩

theorem callKey_arrayKey (hi : i < n) (hfits : n + 1 < 2 ^ 31) :
    callKey n (arrayKey (i + 1)) = .ok (.array i) := by
  unfold callKey arrayKey
  dsimp only
  rw [toIntKey_ofNat (by omega), if_pos (by omega)]
  congr 2
  omega

theorem placeOf_injective (hk : IsConfKey k) (hk' : IsConfKey k')
    (h : placeOf n (.scalar k) = placeOf n (.scalar k')) : k = k' := by
  rcases place_cases (n := n) hk with ⟨i, -, rfl, hplace, -⟩ | ⟨key, rfl, hplace, -⟩
  · rcases place_cases (n := n) hk' with ⟨i', -, rfl, hplace', -⟩ | ⟨key', rfl, hplace', -⟩
    · rw [hplace, hplace', Sum.inl.injEq] at h
      obtain rfl : i = i' := by omega
      rfl
    · rw [hplace, hplace'] at h
      cases h
  · rcases place_cases (n := n) hk' with ⟨i', -, rfl, hplace', -⟩ | ⟨key', rfl, hplace', -⟩
    · rw [hplace, hplace'] at h
      cases h
    · rw [hplace, hplace', Sum.inr.injEq] at h
      rw [h]

/-! ### The hash part -/

variable {R : List LuaString → Source → ConfValue → Prop} {names : List LuaString}
  {es : LuaEntries ℕ} {l : List HashEntry} {t : Scatter HashEntry} {e : HashEntry}
  {hash : List (Option (Node ConfValue))} {tbl : Table ConfValue} {key : ConfKey}

/-- A hash part whose slots all hold an entry. -/
structure IsFull (R : List LuaString → Source → ConfValue → Prop) (names : List LuaString)
    (hash : List (Option (Node ConfValue))) (l : List HashEntry) (t : Scatter HashEntry) :
    Prop where
  stored : IsHash R names hash t
  chained : Chained (mainSlot hash.length) t
  placed : Placed (mainSlot hash.length) Prod.fst hash.length l l t
  entry : ∀ {i}, i < hash.length → ∃ e, t.slot i = some e

section

variable {sizehash : ℕ} {next : Option ℕ} {node : Node ConfValue}
  (h : IsNode R names sizehash i next e node)
include h

theorem IsNode.isNode_iff :
    isNode (convertStringmap (contextOf names)) key node = true ↔ e.1 = key := by
  unfold isNode
  rw [h.keyhash]
  obtain ⟨ekey, v⟩ := e
  have hkey := h.key
  cases ekey with
  | integer m =>
    obtain ⟨htype, hm⟩ := hkey
    rw [htype, hm]
    cases key with
    | integer m' =>
      simp only [Bool.and_eq_true, beq_iff_eq, ConfKey.integer.injEq, and_iff_right_iff_imp]
      rintro rfl
      rfl
    | string s => simp
  | string s =>
    obtain ⟨htype, j, hj, hindex⟩ := hkey
    rw [htype, hindex]
    cases key with
    | integer m' => simp
    | string s' =>
      dsimp only
      rw [tolstring_eq hj]
      simp only [Bool.and_eq_true, beq_iff_eq, ConfKey.string.injEq]
      constructor
      · exact fun h => h.2.symm
      · rintro rfl
        exact ⟨rfl, rfl⟩

theorem IsNode.pushkey_eq : pushkey (convertStringmap (contextOf names)) node = e.1.toScalar := by
  unfold pushkey
  obtain ⟨ekey, v⟩ := e
  have hkey := h.key
  cases ekey with
  | integer m =>
    obtain ⟨htype, hm⟩ := hkey
    rw [htype, hm]
    rfl
  | string s =>
    obtain ⟨htype, j, hj, hindex⟩ := hkey
    rw [htype, hindex]
    dsimp only
    rw [tolstring_eq hj]
    rfl

end

section Lookup

variable (h : IsFull R names tbl.hash l t)
include h

theorem IsFull.slotAt_eq (hslot : t.slot i = some e) : ∃ node, slotAt tbl i = .ok node ∧
    IsNode R names tbl.hash.length i (t.next i) e node := by
  obtain ⟨node, hnode, hisNode⟩ := h.stored.full (h.placed.lt hslot) hslot
  exact ⟨node, by rw [slotAt, hnode], hisNode⟩

/-- The loop visits the slots of a chain until it finds the key. -/
theorem IsFull.lookupLoop_spec (key : ConfKey) {c : List ℕ} {p visits : ℕ}
    (hchain : Chain t.next (some p) c) (hc : ∀ j ∈ c, ∃ e, t.slot j = some e)
    (hvisits : c.length ≤ visits) :
    ∃ r, lookupLoop (convertStringmap (contextOf names)) tbl key visits p = .ok r ∧
      (∀ j, r = some j → ∃ e, t.slot j = some e ∧ e.1 = key) ∧
      (r = none → ∀ j ∈ c, ∀ e, t.slot j = some e → e.1 ≠ key) := by
  induction c generalizing p visits with
  | nil => cases hchain
  | cons j c ih =>
    obtain ⟨hp, hrest⟩ := hchain
    obtain rfl := Option.some.inj hp
    obtain ⟨visits, rfl⟩ : ∃ m, visits = m + 1 := ⟨visits - 1, by simp at hvisits; omega⟩
    obtain ⟨⟨e, he⟩, hc⟩ := forall_mem_cons.mp hc
    obtain ⟨node, hnode, hisNode⟩ := h.slotAt_eq he
    rw [lookupLoop, hnode, ok_bind]
    by_cases hfound : e.1 = key
    · rw [if_pos (hisNode.isNode_iff.mpr hfound)]
      refine ⟨some p, rfl, fun j hj => ?_, nofun⟩
      obtain rfl := Option.some.inj hj
      exact ⟨e, he, hfound⟩
    · rw [if_neg (mt hisNode.isNode_iff.mp hfound), hisNode.next_eq]
      have hhead : ∀ e', t.slot p = some e' → e'.1 ≠ key := by
        intro e' he'
        rw [he, Option.some.injEq] at he'
        exact he' ▸ hfound
      cases hnext : t.next p with
      | none =>
        rw [hnext] at hrest
        refine ⟨none, rfl, nofun, fun _ => ?_⟩
        cases c with
        | nil => exact forall_mem_singleton.mpr hhead
        | cons => cases hrest.1
      | some p' =>
        rw [hnext] at hrest
        obtain ⟨r, hr, hfind, hmiss⟩ := ih hrest hc (by simpa using hvisits)
        exact ⟨r, hr, hfind, fun hnone => forall_mem_cons.mpr ⟨hhead, hmiss hnone⟩⟩

theorem IsFull.exists_chain {p : ℕ} {e₀ : HashEntry} (he₀ : t.slot p = some e₀) :
    ∃ c, Chain t.next (some p) c ∧ c.length ≤ tbl.hash.length ∧ (∀ j ∈ c, ∃ e, t.slot j = some e) ∧
      ∀ j e, t.slot j = some e → mainSlot tbl.hash.length e = p → j ∈ c := by
  obtain ⟨c, hchain, hnodup, hc, hall⟩ := h.chained.exists_chain he₀
  have hslots : ∀ j ∈ c, ∃ e, t.slot j = some e := fun j hj =>
    (hc j hj).imp fun _ hslot => hslot.1
  refine ⟨c, hchain, ?_, hslots, fun j e he hmain => ?_⟩
  · have hsub : c ⊆ List.range tbl.hash.length := fun j hj => by
      obtain ⟨e, he⟩ := hslots j hj
      exact mem_range.mpr (h.placed.lt he)
    have hlength := (subperm_of_subset hnodup hsub).length_le
    rwa [length_range] at hlength
  · obtain ⟨e', he', hmain'⟩ := h.chained.head he
    rw [hmain, he₀, Option.some.injEq] at he'
    rw [← he', hmain] at hmain'
    exact hall hmain' j e he hmain

theorem IsFull.slot_inj (hnodup : (l.map Prod.fst).Nodup) {j : ℕ} {e' : HashEntry}
    (he : t.slot i = some e) (he' : t.slot j = some e') (hkey : e.1 = e'.1) : i = j := by
  have hmem := h.placed.mem (List.Subset.refl l) he
  have hmem' := h.placed.mem (List.Subset.refl l) he'
  obtain rfl : e = e' := inj_on_of_nodup_map hnodup hmem hmem' hkey
  exact h.placed.inj he he'

/-- The lookup of a key ends, and finds the slot of its entry. -/
theorem IsFull.lookupKey_spec (hnodup : (l.map Prod.fst).Nodup) (key : ConfKey) :
    ∃ r, lookupKey (convertStringmap (contextOf names)) tbl key = .ok r ∧
      ∀ j, r = some j ↔ ∃ e, t.slot j = some e ∧ e.1 = key := by
  unfold lookupKey
  by_cases hempty : tbl.hash.length = 0
  · rw [if_pos hempty]
    refine ⟨none, rfl, fun j => iff_of_false nofun ?_⟩
    rintro ⟨e, he, -⟩
    have hlt := h.placed.lt he
    omega
  · rw [if_neg hempty]
    have hlt : key.keyhash.toNat % tbl.hash.length < tbl.hash.length :=
      Nat.mod_lt _ (Nat.pos_of_ne_zero hempty)
    obtain ⟨e₀, he₀⟩ := h.entry hlt
    obtain ⟨node, hnode, hisNode⟩ := h.slotAt_eq he₀
    obtain ⟨c, hchain, hlength, hslots, hall⟩ := h.exists_chain he₀
    have hmain {e : HashEntry} (hkey : e.1 = key) :
        mainSlot tbl.hash.length e = key.keyhash.toNat % tbl.hash.length := by
      rw [← hkey]
      rfl
    dsimp only
    rw [hnode, ok_bind]
    by_cases hmiss : key.keyhash ≠ node.keyhash ∧ node.nocolliding = true
    · -- the entry of the main slot is the only one that belongs there
      rw [if_pos hmiss]
      refine ⟨none, rfl, fun j => iff_of_false nofun ?_⟩
      rintro ⟨e, he, hkey⟩
      have hj := hall j e he (hmain hkey)
      obtain ⟨-, hnext⟩ := hisNode.nocolliding hmiss.2
      cases c with
      | nil => cases hj
      | cons p c =>
        obtain ⟨hp, hrest⟩ := hchain
        obtain rfl := Option.some.inj hp
        rw [hnext] at hrest
        cases c with
        | cons => cases hrest.1
        | nil =>
          obtain rfl := mem_singleton.mp hj
          rw [he₀, Option.some.injEq] at he
          refine hmiss.1 ?_
          rw [hisNode.keyhash, he, hkey]
    · rw [if_neg hmiss]
      obtain ⟨r, hr, hfound, hnone⟩ := h.lookupLoop_spec key hchain hslots hlength
      refine ⟨r, hr, fun j => ⟨hfound j, ?_⟩⟩
      rintro ⟨e, he, hkey⟩
      cases r with
      | none => exact absurd hkey (hnone rfl j (hall j e he (hmain hkey)) e he)
      | some j' =>
        obtain ⟨e', he', hkey'⟩ := hfound j' rfl
        rw [h.slot_inj hnodup he' he (hkey'.trans hkey.symm)]

end Lookup

/-! ### Tables -/

/-- The entries of a table whose keys are strings and integers of 32 bits. -/
structure IsConfTable (n : ℕ) (es : LuaEntries ℕ) : Prop where
  fits : n + 1 < 2 ^ 31
  keys : ∀ e ∈ es, ∃ k, e.1 = .scalar k ∧ IsConfKey k
  distinct : DistinctKeys es
  filled : ∀ e ∈ es, e.2.isNil = false

theorem IsConfTable.hashEntries_nodup (h : IsConfTable n es) :
    ((hashEntries n es).map Prod.fst).Nodup := by
  unfold hashEntries
  refine pairwise_map.mpr (pairwise_filterMap.mpr ?_)
  refine h.distinct.imp_of_mem fun {e e'} he he' hne b hb b' hb' heq => ?_
  obtain ⟨k, hk, hkey⟩ := h.keys e he
  obtain ⟨k', hk', hkey'⟩ := h.keys e' he'
  rw [hk] at hb
  rw [hk'] at hb'
  rcases place_cases (n := n) hkey with ⟨i, -, -, hplace, -⟩ | ⟨key, -, hplace, -⟩
  · rw [hplace] at hb
    cases hb
  · rcases place_cases (n := n) hkey' with ⟨i, -, -, hplace', -⟩ | ⟨key', -, hplace', -⟩
    · rw [hplace'] at hb'
      cases hb'
    · rw [hplace, Option.some.injEq] at hb
      rw [hplace', Option.some.injEq] at hb'
      rw [← hb, ← hb'] at heq
      have hsame : k = k' :=
        placeOf_injective hkey hkey' (by rw [hplace, hplace']; exact congrArg Sum.inr heq)
      exact hne k hk (hsame ▸ hk')

theorem isArrayKey_iff (hk : IsConfKey k) :
    isArrayKey n (.scalar k) = true ↔ ∃ i, placeOf n (.scalar k) = .inl i := by
  cases k with
  | boolean | real | lightuserdata => cases hk
  | string s => simp [isArrayKey, placeOf]
  | integer m =>
    have hkey := toIntKey_eq hk.1 hk.2
    unfold placeOf isArrayKey
    dsimp only
    rw [hkey]
    split
    · next harray => simp [harray]
    · next harray => simpa using harray

theorem IsConfTable.length_hashEntries (h : IsConfTable n es) :
    (hashEntries n es).length = hashSize n es := by
  unfold hashEntries hashSize
  rw [length_filterMap_eq_countP]
  refine countP_congr fun e he => ?_
  obtain ⟨k, hk, hkey⟩ := h.keys e he
  have harray := isArrayKey_iff (n := n) hkey
  rw [hk]
  cases hplace : placeOf n (.scalar k) with
  | inl i =>
    rw [hplace] at harray
    simp [harray.mpr ⟨i, rfl⟩]
  | inr key =>
    rw [hplace] at harray
    have hnot : ¬ isArrayKey n (.scalar k) = true := fun h => by
      obtain ⟨i, hi⟩ := harray.mp h
      cases hi
    simp [hnot]

theorem IsConfTable.isFull (h : IsConfTable n es) (htbl : IsTable R names n es tbl) :
    ∃ t, IsFull R names tbl.hash (hashEntries n es) t := by
  obtain ⟨t, hlinks, hhash⟩ := htbl.hash
  have hlength : (hashEntries n es).length = tbl.hash.length :=
    h.length_hashEntries.trans htbl.length.symm
  have hmain : ∀ e ∈ hashEntries n es, mainSlot tbl.hash.length e < tbl.hash.length := by
    intro e he
    refine Nat.mod_lt _ ?_
    rw [← hlength]
    exact length_pos_of_mem he
  have hplaced := hlinks.placed h.hashEntries_nodup (Scatter.placed_heads hmain) rfl
  refine ⟨t, hhash, hlinks.chained Scatter.chained_heads fun e he => ?_, hplaced, fun hi =>
    hplaced.exists_entry (List.Nodup.of_map Prod.fst h.hashEntries_nodup) hlength hi⟩
  obtain ⟨e', he'⟩ := @Scatter.exists_head _ (mainSlot tbl.hash.length) _ _ he
  exact ⟨e', he', Scatter.main_of_heads he'⟩

theorem DistinctKeys.rawget_eq {v : Source} (h : DistinctKeys es) (hmem : (.scalar k, v) ∈ es) :
    rawget es k = v := by
  induction es with
  | nil => cases hmem
  | cons e es ih =>
    obtain ⟨hhead, htail⟩ := pairwise_cons.mp h
    rw [rawget_cons]
    rcases mem_cons.mp hmem with rfl | hmem
    · rw [if_pos]
      simp [LuaValue.isKey]
    · rw [if_neg]
      · exact ih htail hmem
      · intro hkey
        exact hhead _ hmem k (LuaValue.eq_of_isKey hkey) rfl

theorem mem_hashEntries_iff : e ∈ hashEntries n es ↔
    ∃ k, (k, e.2) ∈ es ∧ placeOf n k = .inr e.1 := by
  unfold hashEntries
  rw [mem_filterMap]
  obtain ⟨key, v⟩ := e
  constructor
  · rintro ⟨⟨k, v'⟩, he, hplace⟩
    dsimp only at hplace
    cases hk : placeOf n k with
    | inl => rw [hk] at hplace; cases hplace
    | inr key' =>
      rw [hk] at hplace
      obtain ⟨rfl, rfl⟩ := Prod.mk.inj (Option.some.inj hplace)
      exact ⟨k, he, hk⟩
  · rintro ⟨k, he, hplace⟩
    exact ⟨(k, v), he, by rw [hplace]⟩

/-! ### Values -/

section Values

variable {L : Strings} {r : Option ℕ} {node : Node ConfValue}

theorem lindexconf_array (hcall : callKey tbl.array.length k = .ok (.array i)) :
    lindexconf L tbl k = .ok (some (pushvalue L (tbl.array.getD i .nil))) := by
  rw [lindexconf, hcall, ok_bind]
  rfl

variable (hcall : callKey tbl.array.length k = .ok (.hash key))
include hcall

theorem lindexconf_hash_none (hlookup : lookupKey L tbl key = .ok none) :
    lindexconf L tbl k = .ok none := by
  rw [lindexconf, hcall, ok_bind]
  dsimp only
  rw [hlookup, ok_bind]
  rfl

theorem lindexconf_hash_some (hlookup : lookupKey L tbl key = .ok (some i))
    (hnode : slotAt tbl i = .ok node) : lindexconf L tbl k = .ok (some (pushvalue L node.v)) := by
  rw [lindexconf, hcall, ok_bind]
  dsimp only
  rw [hlookup, ok_bind]
  dsimp only
  rw [hnode, ok_bind]
  rfl

end Values

theorem IsConfTable.mem_of_place (h : IsConfTable n es) {k' v : Source} (hk : IsConfKey k)
    (he : (k', v) ∈ es) (hplace : placeOf n k' = placeOf n (.scalar k)) : (.scalar k, v) ∈ es := by
  obtain ⟨k'', hk'', hkey⟩ := h.keys _ he
  dsimp only at hk''
  rw [hk''] at hplace he
  exact placeOf_injective hkey hk hplace ▸ he

/-- The value of a key, or nothing if it is not in the table. -/
theorem IsConfTable.lindexconf_spec (h : IsConfTable n es) (htbl : IsTable R names n es tbl)
    (hk : IsConfKey k) :
    (∃ v cv, (.scalar k, v) ∈ es ∧ R names v cv ∧
      lindexconf (convertStringmap (contextOf names)) tbl k =
        .ok (some (pushvalue (convertStringmap (contextOf names)) cv))) ∨
    (∀ v, (.scalar k, v) ∉ es) ∧ ∃ r,
      lindexconf (convertStringmap (contextOf names)) tbl k = .ok r ∧
        (r = none ∨ r = some .nil) := by
  rcases place_cases (n := n) hk with ⟨i, hi, -, hplace, hcall⟩ | ⟨key, -, hplace, hcall⟩
  · rw [← htbl.array.1] at hcall
    have hindex := lindexconf_array (L := convertStringmap (contextOf names)) hcall
    rw [getD_eq_getElem?_getD] at hindex
    obtain ⟨cv, hcv, ⟨rfl, hnone⟩ | ⟨⟨k', v⟩, he, hplace', hR⟩⟩ := htbl.array.2 i hi
    · rw [hcv] at hindex
      exact .inr ⟨fun v he => hnone _ he hplace, _, hindex, .inr rfl⟩
    · rw [hcv] at hindex
      exact .inl ⟨v, cv, h.mem_of_place hk he (hplace'.trans hplace.symm), hR, hindex⟩
  · rw [← htbl.array.1] at hcall
    obtain ⟨t, hfull⟩ := h.isFull htbl
    obtain ⟨r, hr, hslot⟩ := hfull.lookupKey_spec h.hashEntries_nodup key
    cases r with
    | none =>
      refine .inr ⟨fun v he => ?_, _, lindexconf_hash_none hcall hr, .inl rfl⟩
      obtain ⟨j, hj⟩ := hfull.placed.exists_slot (key, v) (mem_hashEntries_iff.mpr ⟨_, he, hplace⟩)
      exact Option.some_ne_none j ((hslot j).mpr ⟨_, hj, rfl⟩).symm
    | some j =>
      obtain ⟨e, hj, rfl⟩ := (hslot j).mp rfl
      obtain ⟨node, hnode, hisNode⟩ := hfull.slotAt_eq hj
      obtain ⟨k', he, hplace'⟩ := mem_hashEntries_iff.mp (hfull.placed.mem (List.Subset.refl _) hj)
      exact .inl ⟨e.2, node.v, h.mem_of_place hk he (hplace'.trans hplace.symm), hisNode.value,
        lindexconf_hash_some hcall hr hnode⟩

/-! ### The list of the keys -/

/-- What a next key is asked for, from a result on, until there is none. -/
def Enumerates {K ε : Type} (next : K → Except ε (Option K)) : Except ε (Option K) → List K → Prop
  | r, [] => r = .ok none
  | r, k :: ks => r = .ok (some k) ∧ Enumerates next (next k) ks

section Next

variable {L : Strings}

theorem lnextkey_array (hcall : callKey tbl.array.length k = .ok (.array i)) :
    lnextkey L tbl (some k) = nextarray L tbl (i + 1) := by
  cases k with
  | real => cases hcall
  | boolean | integer | string | lightuserdata =>
    rw [lnextkey, hcall, ok_bind]
    exact nofun

theorem lnextkey_hash (hcall : callKey tbl.array.length k = .ok (.hash key))
    (hlookup : lookupKey L tbl key = .ok (some i)) :
    lnextkey L tbl (some k) = if i + 1 = tbl.hash.length then .ok none
      else slotAt tbl (i + 1) >>= fun node => .ok (some (pushkey L node)) := by
  cases k with
  | real => cases hcall
  | boolean | integer | string | lightuserdata =>
    rw [lnextkey, hcall, ok_bind]
    · dsimp only
      rw [hlookup, ok_bind]
      rfl
    · exact nofun

theorem nextarray_length : nextarray L tbl tbl.array.length = pushfirsthash L tbl := by
  rw [nextarray, drop_eq_nil_of_le (by rw [length_range])]
  rfl

theorem drop_range (hi : i < n) : (List.range n).drop i = i :: (List.range n).drop (i + 1) := by
  rw [drop_eq_getElem_cons (by rwa [length_range]), getElem_range]

theorem nextarray_of_some (hi : i < tbl.array.length) (hv : (tbl.array.getD i .nil).isNil = false) :
    nextarray L tbl i = .ok (some (arrayKey (i + 1))) := by
  rw [nextarray, drop_range hi, find?_cons_of_pos (by simp only [hv]; decide)]
  rfl

theorem nextarray_of_nil (hi : i < tbl.array.length) (hv : (tbl.array.getD i .nil).isNil = true) :
    nextarray L tbl i = nextarray L tbl (i + 1) := by
  rw [nextarray, drop_range hi, find?_cons_of_neg (by simp only [hv]; decide)]
  rfl

end Next

/-- The key in a slot. -/
def slotKey (t : Scatter HashEntry) (i : ℕ) : ConfKey := ((t.slot i).map Prod.fst).getD (.integer 0)

theorem slotKey_eq (hslot : t.slot i = some e) : slotKey t i = e.1 := by
  rw [slotKey, hslot]
  rfl

/-- The keys of the hash part, from a slot on. -/
def hashKeys (t : Scatter HashEntry) (i left : ℕ) : List LuaScalar :=
  (List.range' i left).map fun j => (slotKey t j).toScalar

/-- The keys of the array, from an index on. -/
def arrayKeys (array : List ConfValue) (i left : ℕ) : List LuaScalar :=
  ((List.range' i left).filter fun j => !(array.getD j .nil).isNil).map fun j => arrayKey (j + 1)

section Keys

variable (h : IsConfTable n es) (hfull : IsFull R names tbl.hash (hashEntries n es) t)
include h hfull

/-- The key in a slot is one of the table, and is looked for in the hash part. -/
theorem IsConfTable.slotKey_spec (hi : i < tbl.hash.length) :
    ∃ v, (.scalar (slotKey t i).toScalar, v) ∈ es ∧ IsConfKey (slotKey t i).toScalar ∧
      placeOf n (.scalar (slotKey t i).toScalar) = .inr (slotKey t i) ∧
      callKey n (slotKey t i).toScalar = .ok (.hash (slotKey t i)) := by
  obtain ⟨e, hslot⟩ := hfull.entry hi
  obtain ⟨k', he, hplace⟩ := mem_hashEntries_iff.mp (hfull.placed.mem (List.Subset.refl _) hslot)
  obtain ⟨k, hk, hkey⟩ := h.keys _ he
  dsimp only at hk
  rw [hk] at he hplace
  rw [slotKey_eq hslot]
  rcases place_cases (n := n) hkey with ⟨i, -, -, hinl, -⟩ | ⟨key, rfl, hinr, hcall⟩
  · rw [hinl] at hplace
    cases hplace
  · rw [hinr, Sum.inr.injEq] at hplace
    rw [← hplace]
    exact ⟨e.2, he, hkey, hinr, hcall⟩

theorem IsConfTable.lnextkey_slotKey (hsize : tbl.array.length = n) (hi : i < tbl.hash.length) :
    lnextkey (convertStringmap (contextOf names)) tbl (some (slotKey t i).toScalar) =
      .ok (if i + 1 = tbl.hash.length then none else some (slotKey t (i + 1)).toScalar) := by
  obtain ⟨v, -, hkey, -, hcall⟩ := h.slotKey_spec hfull hi
  obtain ⟨e, hslot⟩ := hfull.entry hi
  obtain ⟨r, hr, hfound⟩ := hfull.lookupKey_spec h.hashEntries_nodup (slotKey t i)
  obtain rfl : r = some i := (hfound i).mpr ⟨e, hslot, (slotKey_eq hslot).symm⟩
  rw [← hsize] at hcall
  rw [lnextkey_hash hcall hr]
  split
  · rfl
  · obtain ⟨e', hslot'⟩ := hfull.entry (show i + 1 < tbl.hash.length by omega)
    obtain ⟨node, hnode, hisNode⟩ := hfull.slotAt_eq hslot'
    rw [hnode, ok_bind, hisNode.pushkey_eq, slotKey_eq hslot']

/-- The keys of the hash part are listed in the order of the slots. -/
theorem IsConfTable.enumerates_hashKeys {left : ℕ} (hsize : tbl.array.length = n)
    (hleft : i + left = tbl.hash.length) :
    Enumerates (fun k => lnextkey (convertStringmap (contextOf names)) tbl (some k))
      (.ok (if i = tbl.hash.length then none else some (slotKey t i).toScalar))
      (hashKeys t i left) := by
  induction left generalizing i with
  | zero =>
    rw [if_pos (by omega)]
    rfl
  | succ left ih =>
    rw [if_neg (by omega)]
    refine ⟨rfl, ?_⟩
    dsimp only
    rw [h.lnextkey_slotKey hfull hsize (by omega)]
    exact ih (by omega)

omit h in
theorem IsFull.pushfirsthash_eq : pushfirsthash (convertStringmap (contextOf names)) tbl =
      .ok (if 0 = tbl.hash.length then none else some (slotKey t 0).toScalar) := by
  unfold pushfirsthash
  by_cases hempty : tbl.hash.length = 0
  · rw [if_pos hempty, if_pos hempty.symm]
  · rw [if_neg hempty, if_neg (Ne.symm hempty)]
    obtain ⟨e, hslot⟩ := hfull.entry (Nat.pos_of_ne_zero hempty)
    obtain ⟨node, hnode, hisNode⟩ := hfull.slotAt_eq hslot
    rw [hnode, ok_bind, hisNode.pushkey_eq, slotKey_eq hslot]
    rfl

/-- The keys of the array are listed before the ones of the hash part. -/
theorem IsConfTable.enumerates_arrayKeys {left : ℕ} (hsize : tbl.array.length = n)
    (hleft : i + left = n) :
    Enumerates (fun k => lnextkey (convertStringmap (contextOf names)) tbl (some k))
      (nextarray (convertStringmap (contextOf names)) tbl i)
      (arrayKeys tbl.array i left ++ hashKeys t 0 tbl.hash.length) := by
  induction left generalizing i with
  | zero =>
    obtain rfl : i = tbl.array.length := hleft.trans hsize.symm
    rw [nextarray_length, hfull.pushfirsthash_eq]
    exact h.enumerates_hashKeys hfull hsize (Nat.zero_add _)
  | succ left ih =>
    have hi : i < tbl.array.length := by omega
    unfold arrayKeys
    rw [range'_succ]
    cases hv : (tbl.array.getD i .nil).isNil with
    | true =>
      rw [filter_cons_of_neg (by simp only [hv]; decide), nextarray_of_nil hi hv]
      exact ih (by omega)
    | false =>
      rw [filter_cons_of_pos (by simp only [hv]; decide), nextarray_of_some hi hv]
      refine ⟨rfl, ?_⟩
      dsimp only
      rw [lnextkey_array (callKey_arrayKey hi (hsize.symm ▸ h.fits))]
      exact ih (by omega)

theorem IsConfTable.mem_keys_iff (harray : IsArray R names n es tbl.array)
    (hR : ∀ v cv, R names v cv → cv.isNil = v.isNil) :
    k ∈ arrayKeys tbl.array 0 n ++ hashKeys t 0 tbl.hash.length ↔ ∃ v, (.scalar k, v) ∈ es := by
  unfold arrayKeys hashKeys
  rw [mem_append, mem_map, mem_map]
  simp only [mem_filter, mem_range'_1, Nat.zero_le, true_and, Nat.zero_add]
  constructor
  · rintro (⟨i, ⟨hi, hv⟩, rfl⟩ | ⟨i, hi, rfl⟩)
    · obtain ⟨cv, hcv, ⟨rfl, -⟩ | ⟨⟨k', v⟩, he, hplace, -⟩⟩ := harray.2 i hi
      · rw [getD_eq_getElem?_getD, hcv] at hv
        cases hv
      · obtain ⟨k, hk, hkey⟩ := h.keys _ he
        dsimp only at hk hplace
        rw [hk] at he hplace
        rcases place_cases (n := n) hkey with ⟨j, -, rfl, hinl, -⟩ | ⟨key, rfl, hinr, -⟩
        · rw [hinl, Sum.inl.injEq] at hplace
          obtain rfl : j = i := by omega
          exact ⟨v, he⟩
        · rw [hinr] at hplace
          cases hplace
    · obtain ⟨v, hv, -⟩ := h.slotKey_spec hfull hi
      exact ⟨v, hv⟩
  · rintro ⟨v, he⟩
    obtain ⟨k', hk', hkey⟩ := h.keys _ he
    obtain rfl : k = k' := LuaValue.scalar.inj hk'
    rcases place_cases (n := n) hkey with ⟨i, hi, rfl, hplace, -⟩ | ⟨key, rfl, hplace, -⟩
    · refine .inl ⟨i, ⟨hi, ?_⟩, rfl⟩
      obtain ⟨cv, hcv, ⟨-, hnone⟩ | ⟨e, he', -, hcvR⟩⟩ := harray.2 i hi
      · exact absurd hplace (hnone _ he)
      · rw [getD_eq_getElem?_getD, hcv, Option.getD_some, hR _ _ hcvR, h.filled e he']
        rfl
    · obtain ⟨i, hi⟩ := hfull.placed.exists_slot (key, v) (mem_hashEntries_iff.mpr ⟨_, he, hplace⟩)
      exact .inr ⟨i, hfull.placed.lt hi, by rw [slotKey_eq hi]⟩

theorem IsConfTable.keys_nodup :
    (arrayKeys tbl.array 0 n ++ hashKeys t 0 tbl.hash.length).Nodup := by
  unfold arrayKeys hashKeys
  refine nodup_append.mpr ⟨?_, ?_, ?_⟩
  · refine List.Nodup.map_on (fun i hi j hj heq => ?_) (List.Nodup.filter _ nodup_range')
    have hi' := (mem_range'_1.mp (mem_filter.mp hi).1).2
    have hj' := (mem_range'_1.mp (mem_filter.mp hj).1).2
    have hplace := placeOf_arrayKey (by omega) h.fits (i := i)
    rw [heq, placeOf_arrayKey (by omega) h.fits, Sum.inl.injEq] at hplace
    omega
  · refine List.Nodup.map_on (fun i hi j hj heq => ?_) nodup_range'
    have hi' := (mem_range'_1.mp hi).2
    have hj' := (mem_range'_1.mp hj).2
    obtain ⟨-, -, -, hplace, -⟩ := h.slotKey_spec hfull (i := i) (by omega)
    obtain ⟨-, -, -, hplace', -⟩ := h.slotKey_spec hfull (i := j) (by omega)
    rw [heq, hplace', Sum.inr.injEq] at hplace
    obtain ⟨e, he⟩ := hfull.entry (i := i) (by omega)
    obtain ⟨e', he'⟩ := hfull.entry (i := j) (by omega)
    rw [slotKey_eq he, slotKey_eq he'] at hplace
    exact hfull.slot_inj h.hashEntries_nodup he he' hplace.symm
  · intro k hk k' hk' heq
    obtain ⟨i, hi, rfl⟩ := mem_map.mp hk
    obtain ⟨j, hj, rfl⟩ := mem_map.mp hk'
    have hi' := (mem_range'_1.mp (mem_filter.mp hi).1).2
    have hj' := (mem_range'_1.mp hj).2
    obtain ⟨-, -, -, hplace, -⟩ := h.slotKey_spec hfull (i := j) (by omega)
    rw [← heq, placeOf_arrayKey (by omega) h.fits] at hplace
    cases hplace

end Keys

/-! ### Trees -/

/-- A tree whose keys are strings and integers of 32 bits, with such values. -/
inductive IsTree (leaf : LuaScalar → Prop) : Source → Prop
  | scalar {s : LuaScalar} : leaf s → IsTree leaf (.scalar s)
  | table {rawlen : ℕ} {es : LuaEntries ℕ} : (∀ e ∈ es, ∃ k, e.1 = .scalar k ∧ IsConfKey k) →
      (∀ e ∈ es, IsTree leaf e.2) → IsTree leaf (.table rawlen es)

/-- What is read of a source. A table gives the value of every key and nothing for the others, every
lookup ends, and the keys are listed once. -/
inductive Shows (L : Strings) : Source → Option Pushed → Prop
  | none : Shows L .nil none
  | nil : Shows L .nil (some .nil)
  | scalar (s : LuaScalar) : Shows L (.scalar s) (some (.scalar s))
  | table {rawlen : ℕ} {es : LuaEntries ℕ} {tbl : Table ConfValue} (f : LuaScalar → Option Pushed)
      (ks : List LuaScalar) : (∀ k, IsConfKey k → lindexconf L tbl k = .ok (f k)) →
      (∀ k, IsConfKey k → Shows L (rawget es k) (f k)) →
      (∀ key, ∃ r, lookupKey L tbl key = .ok r) →
      Enumerates (fun k => lnextkey L tbl (some k)) (lnextkey L tbl none) ks → ks.Nodup →
      (∀ k, k ∈ ks ↔ ∃ v, (.scalar k, v) ∈ es) → Shows L (.table rawlen es) (some (.table tbl))

variable {leaf : LuaScalar → Prop} {calls rawlen : ℕ}

theorem IsTree.isConfTable (h : IsTree leaf (.table rawlen es))
    (hsource : IsSource (.table rawlen es)) :
    IsConfTable rawlen es := by
  cases h with
  | table hkeys _ =>
    cases hsource with
    | table hfits _ hdistinct hfilled _ => exact ⟨hfits, hkeys, hdistinct, hfilled⟩

theorem StoresValue.isNil_eq {T : List LuaString → ℕ → LuaEntries ℕ → Table ConfValue → Prop}
    (v : Source) (cv : ConfValue) (h : StoresValue T names v cv) : cv.isNil = v.isNil := by
  cases v with
  | nil =>
    cases cv with
    | nil => rfl
    | real | string | boolean | table | integer => cases h
  | table =>
    cases cv with
    | table => rfl
    | nil | real | string | boolean | integer => cases h
  | scalar s =>
    cases cv with
    | nil => cases s <;> cases h
    | real | string | boolean | table | integer => rfl

/-- A value that is stored is read. -/
theorem StoresValue.shows {T : List LuaString → ℕ → LuaEntries ℕ → Table ConfValue → Prop}
    {v : Source} {cv : ConfValue} (h : StoresValue T names v cv)
    (htable : ∀ rawlen es tbl, v = .table rawlen es → T names rawlen es tbl →
      Shows (convertStringmap (contextOf names)) v (some (.table tbl))) :
    Shows (convertStringmap (contextOf names)) v
      (some (pushvalue (convertStringmap (contextOf names)) cv)) := by
  cases v with
  | nil =>
    cases cv with
    | nil => exact .nil
    | real | string | boolean | table | integer => cases h
  | table rawlen es =>
    cases cv with
    | table tbl => exact htable rawlen es tbl rfl h
    | nil | real | string | boolean | integer => cases h
  | scalar s =>
    cases s with
    | string s =>
      cases cv with
      | string index =>
        obtain ⟨j, hj, rfl⟩ := h
        rw [pushvalue, tolstring_eq hj]
        exact .scalar _
      | nil | real | boolean | table | integer => cases h
    | boolean | integer | real | lightuserdata =>
      cases cv <;> cases h <;> exact .scalar _

/-- A tree that is stored is read. -/
theorem Stores.shows (hsource : IsSource (.table rawlen es))
    (htree : IsTree leaf (.table rawlen es)) (h : Stores calls names rawlen es tbl) :
    Shows (convertStringmap (contextOf names)) (.table rawlen es) (some (.table tbl)) := by
  induction calls generalizing rawlen es tbl with
  | zero => cases h
  | succ calls ih =>
    have hconf := htree.isConfTable hsource
    obtain ⟨t, hfull⟩ := hconf.isFull h
    have hread (k : LuaScalar) (hk : IsConfKey k) :
        ∃ r, lindexconf (convertStringmap (contextOf names)) tbl k = .ok r ∧
          Shows (convertStringmap (contextOf names)) (rawget es k) r := by
      rcases hconf.lindexconf_spec h hk with ⟨v, cv, he, hv, hr⟩ | ⟨hnone, r, hr, hempty⟩
      · refine ⟨_, hr, ?_⟩
        rw [hconf.distinct.rawget_eq he]
        refine StoresValue.shows hv fun rawlen' es' tbl' hv' htbl' => ?_
        cases hsource with
        | table _ _ _ _ hsources =>
          cases htree with
          | table _ htrees =>
            have hsource' := hsources _ he
            have htree' := htrees _ he
            dsimp only at hsource' htree'
            rw [hv'] at hsource' htree' ⊢
            exact ih hsource' htree' htbl'
      · refine ⟨r, hr, ?_⟩
        rw [(rawget_cases es k).resolve_right (hnone _)]
        rcases hempty with rfl | rfl
        · exact .none
        · exact .nil
    choose! f hf using hread
    refine .table f (arrayKeys tbl.array 0 rawlen ++ hashKeys t 0 tbl.hash.length)
      (fun k hk => (hf k hk).1) (fun k hk => (hf k hk).2) (fun key => ?_) ?_
      (hconf.keys_nodup hfull) fun k => hconf.mem_keys_iff hfull h.array StoresValue.isNil_eq
    · obtain ⟨r, hr, -⟩ := hfull.lookupKey_spec hconf.hashEntries_nodup key
      exact ⟨r, hr⟩
    · exact hconf.enumerates_arrayKeys hfull h.array.1 (Nat.zero_add _)

end Uboss.Lib.Sharedata
