import Uboss.Lib.SharedataNames
import Uboss.Math.ScatterTable

/-!
# The conversion of shared data

The two passes over the entries of a table fill the hash part as `Math.Scatter` describes it.
Whether a value is converted depends on the keys before it: an entry whose key is already in its
main slot is passed over.
-/

namespace Uboss.Lib.Sharedata

open Math Function List Int Int64
open Scatter (heads Linked Links Room)

/-- An entry of the hash part. -/
abbrev HashEntry := ConfKey × Source

/-- The entries that are not in the array. -/
def hashEntries (sizearray : ℕ) (es : LuaEntries ℕ) : List HashEntry := es.filterMap fun e =>
    match placeOf sizearray e.1 with
    | .inl _ => none
    | .inr k => some (k, e.2)

/-- `keyhash % sizehash`. -/
def mainSlot (sizehash : ℕ) (e : HashEntry) : ℕ := e.1.keyhash.toNat % sizehash

/-- The values that the first pass converts, when some entries of the hash part are done. -/
def convertedFirst (sizearray sizehash : ℕ) : List HashEntry → LuaEntries ℕ → List Source
  | _, [] => []
  | done, (k, v) :: es =>
    match placeOf sizearray k with
    | .inl _ => v :: convertedFirst sizearray sizehash done es
    | .inr key =>
      let rest := convertedFirst sizearray sizehash (done ++ [(key, v)]) es
      if ((heads (mainSlot sizehash) done).slot (mainSlot sizehash (key, v))).isNone then v :: rest
      else rest

/-- The values that the second pass converts. -/
def convertedThen (sizearray sizehash : ℕ) (all : List HashEntry) : LuaEntries ℕ → List Source
  | [] => []
  | (k, v) :: es =>
    let rest := convertedThen sizearray sizehash all es
    match placeOf sizearray k with
    | .inl _ => rest
    | .inr key => if Linked (mainSlot sizehash) Prod.fst all (key, v) then v :: rest else rest

/-- What is stored stays right when strings are appended. -/
def Persists (R : List LuaString → Source → ConfValue → Prop) : Prop :=
  ∀ ⦃names names' v cv⦄, names <+: names' → R names v cv → R names' v cv

/-- What is known of the conversion of values. -/
structure Converts (S : List LuaString) (P Acc : Source → Prop) (New : Source → LuaString → Prop)
    (R : List LuaString → Source → ConfValue → Prop) (convtable : Converter) : Prop where
  outcome : ∀ {names v}, P v → names.Nodup → names ⊆ S →
    Outcome names (Acc v) (New v) (fun names' cv => R names' v cv ∧ cv.isNil = v.isNil)
      (setvalue convtable v (contextOf names))
  sub : ∀ {v s}, P v → New v s → s ∈ S
  mono : Persists R

variable {S : List LuaString} {P Acc : Source → Prop} {New : Source → LuaString → Prop}
  {R : List LuaString → Source → ConfValue → Prop} {conv : Converter}
  {names names' : List LuaString} {sizearray sizehash : ℕ} {es done : LuaEntries ℕ} {k v : Source}

theorem Grows.sub {new : LuaString → Prop} (h : Grows names names' new) (hsub : names ⊆ S)
    (hnew : ∀ s, new s → s ∈ S) : names' ⊆ S := fun s hs =>
  ((h.mem s).mp hs).elim (fun h => hsub h) (hnew s)

/-! ### Places -/

theorem placeOf_inl {key : ℤ} (h : placeOf sizearray k = .inl key) : 0 < key ∧ key ≤ sizearray := by
  unfold placeOf at h
  split at h
  · dsimp only at h
    split at h
    · next hkey => exact Sum.inl.inj h ▸ hkey
    · cases h
  · dsimp only at h
    split at h
    · next hkey => exact Sum.inl.inj h ▸ hkey
    · cases h
  · cases h
  · cases h

theorem hashEntries_cons_inl {key : ℤ} (h : placeOf sizearray k = .inl key) :
    hashEntries sizearray ((k, v) :: es) = hashEntries sizearray es := by
  unfold hashEntries
  rw [filterMap_cons_none]
  rw [h]

theorem hashEntries_cons_inr {key : ConfKey} (h : placeOf sizearray k = .inr key) :
    hashEntries sizearray ((k, v) :: es) = (key, v) :: hashEntries sizearray es := by
  unfold hashEntries
  rw [filterMap_cons_some]
  rw [h]

theorem hashEntries_append (es es' : LuaEntries ℕ) :
    hashEntries sizearray (es ++ es') = hashEntries sizearray es ++ hashEntries sizearray es' :=
  filterMap_append

/-! ### The array -/

/-- What the array stores of the entries that are done. -/
def IsArray (R : List LuaString → Source → ConfValue → Prop) (names : List LuaString)
    (sizearray : ℕ) (done : LuaEntries ℕ) (array : List ConfValue) : Prop :=
  array.length = sizearray ∧ ∀ i < sizearray, ∃ cv, array[i]? = some cv ∧
    ((cv = .nil ∧ ∀ e ∈ done, placeOf sizearray e.1 ≠ .inl (i + 1)) ∨
      ∃ e ∈ done, placeOf sizearray e.1 = .inl (i + 1) ∧ R names e.2 cv)

theorem isArray_nil : IsArray R names sizearray [] (List.replicate sizearray .nil) := by
  refine ⟨length_replicate, fun i hi => ⟨.nil, ?_, .inl ⟨rfl, nofun⟩⟩⟩
  rw [getElem?_replicate, if_pos hi]

variable {array : List ConfValue}

theorem IsArray.mono (hR : Persists R) (hgrows : names <+: names')
    (h : IsArray R names sizearray done array) : IsArray R names' sizearray done array := by
  refine ⟨h.1, fun i hi => ?_⟩
  obtain ⟨cv, hcv, hnil | ⟨e, he, hplace, hcvR⟩⟩ := h.2 i hi
  · exact ⟨cv, hcv, .inl hnil⟩
  · exact ⟨cv, hcv, .inr ⟨e, he, hplace, hR hgrows hcvR⟩⟩

theorem IsArray.concat_inr {key : ConfKey} (h : IsArray R names sizearray done array)
    (hplace : placeOf sizearray k = .inr key) :
    IsArray R names sizearray (done ++ [(k, v)]) array := by
  refine ⟨h.1, fun i hi => ?_⟩
  obtain ⟨cv, hcv, ⟨hnil, hnone⟩ | ⟨e, he, hplace', hR⟩⟩ := h.2 i hi
  · refine ⟨cv, hcv, .inl ⟨hnil, fun e he => ?_⟩⟩
    rcases mem_append.mp he with he | he
    · exact hnone e he
    · rw [mem_singleton.mp he, hplace]
      exact nofun
  · exact ⟨cv, hcv, .inr ⟨e, mem_append_left _ he, hplace', hR⟩⟩

theorem IsArray.concat_inl {key : ℤ} {cv : ConfValue} (h : IsArray R names sizearray done array)
    (hplace : placeOf sizearray k = .inl key) (hR : R names v cv) :
    IsArray R names sizearray (done ++ [(k, v)]) (array.set (key - 1).toNat cv) := by
  obtain ⟨hpos, hle⟩ := placeOf_inl hplace
  refine ⟨by rw [length_set, h.1], fun i hi => ?_⟩
  by_cases hi' : (key - 1).toNat = i
  · have hkey : key = i + 1 := by omega
    refine ⟨cv, ?_, .inr ⟨(k, v), mem_append_right _ (mem_singleton_self _), ?_, hR⟩⟩
    · rw [hi', getElem?_set_self (by rw [h.1]; exact hi)]
    · rw [hplace, hkey]
  · rw [getElem?_set_ne hi']
    obtain ⟨cv', hcv', ⟨hnil, hnone⟩ | ⟨e, he, hplace', hR'⟩⟩ := h.2 i hi
    · refine ⟨cv', hcv', .inl ⟨hnil, fun e he => ?_⟩⟩
      rcases mem_append.mp he with he | he
      · exact hnone e he
      · rw [mem_singleton.mp he, hplace]
        intro heq
        have := Sum.inl.inj heq
        omega
    · exact ⟨cv', hcv', .inr ⟨e, mem_append_left _ he, hplace', hR'⟩⟩

/-! ### The hash part -/

/-- What a node stores. -/
structure IsNode (R : List LuaString → Source → ConfValue → Prop) (names : List LuaString)
    (sizehash i : ℕ) (next : Option ℕ) (e : HashEntry) (n : Node ConfValue) : Prop where
  key : IsNodeKey names e.1 n.key n.keytype
  keyhash : n.keyhash = e.1.keyhash
  next_eq : n.next = next
  value : R names e.2 n.v
  filled : n.v.isNil = false
  nocolliding : n.nocolliding = true → mainSlot sizehash e = i ∧ next = none

/-- What the hash part stores. -/
structure IsHash (R : List LuaString → Source → ConfValue → Prop) (names : List LuaString)
    (hash : List (Option (Node ConfValue))) (t : Scatter HashEntry) : Prop where
  empty : ∀ {i}, i < hash.length → t.slot i = none → hash[i]? = some none
  full : ∀ {i e}, i < hash.length → t.slot i = some e → ∃ n, hash[i]? = some (some n) ∧
    IsNode R names hash.length i (t.next i) e n

theorem isHash_nil (sizehash : ℕ) :
    IsHash R names (List.replicate sizehash none) (heads (mainSlot sizehash) []) where
  empty hi _ := by
    rw [length_replicate] at hi
    rw [getElem?_replicate, if_pos hi]
  full _ h := by cases h

variable {hash : List (Option (Node ConfValue))} {t t' : Scatter HashEntry} {e e' : HashEntry}
  {n n' : Node ConfValue} {i p : ℕ}

theorem IsNode.mono {next : Option ℕ} (hR : Persists R) (hgrows : names <+: names')
    (h : IsNode R names sizehash i next e n) :
    IsNode R names' sizehash i next e n :=
  { h with key := h.key.mono hgrows, value := hR hgrows h.value }

theorem IsHash.mono (hR : Persists R) (hgrows : names <+: names')
    (h : IsHash R names hash t) : IsHash R names' hash t where
  empty := h.empty
  full hi he := by
    obtain ⟨n, hn, hnode⟩ := h.full hi he
    exact ⟨n, hn, hnode.mono hR hgrows⟩

theorem IsHash.isEmptySlot_iff (h : IsHash R names hash t) {slot : Option (Node ConfValue)}
    (hslot : hash[i]? = some slot) : isEmptySlot slot = true ↔ t.slot i = none := by
  have hi := (List.getElem?_eq_some_iff.mp hslot).1
  cases ht : t.slot i with
  | none =>
    rw [h.empty hi ht, Option.some.injEq] at hslot
    rw [← hslot]
    exact iff_of_true rfl rfl
  | some e =>
    obtain ⟨n, hn, hnode⟩ := h.full hi ht
    rw [hn, Option.some.injEq] at hslot
    rw [← hslot]
    refine iff_of_false ?_ (by simp)
    rw [isEmptySlot, hnode.filled]
    exact Bool.false_ne_true

theorem IsHash.exists_findIdx? (h : IsHash R names hash t)
    (hfree : ∃ i < hash.length, t.slot i = none) :
    ∃ i < hash.length, t.slot i = none ∧ hash.findIdx? isEmptySlot = some i := by
  obtain ⟨i, hi, hslot⟩ := hfree
  have hempty := h.empty hi hslot
  obtain ⟨j, hj⟩ : ∃ j, hash.findIdx? isEmptySlot = some j := by
    rw [← Option.isSome_iff_exists, findIdx?_isSome, any_eq_true]
    exact ⟨none, mem_of_getElem? hempty, rfl⟩
  obtain ⟨hlt, hfound, -⟩ := findIdx?_eq_some_iff_getElem.mp hj
  exact ⟨j, hlt, (h.isEmptySlot_iff (getElem?_eq_getElem hlt)).mp hfound, hj⟩

theorem IsHash.put (h : IsHash R names hash t) (hnode : IsNode R names hash.length p none e n) :
    IsHash R names (hash.set p (some n)) (t.put p e) where
  empty {i} hi hfree := by
    rw [length_set] at hi
    have hne : i ≠ p := by
      rintro rfl
      simp [Scatter.put] at hfree
    rw [getElem?_set_ne hne.symm]
    exact h.empty hi ((update_of_ne hne _ _).symm.trans hfree)
  full {i e'} hi he' := by
    rw [length_set] at hi ⊢
    by_cases hip : i = p
    · subst hip
      obtain rfl : e = e' := by simpa [Scatter.put] using he'
      have hnext : (t.put i e).next i = none := update_self ..
      exact ⟨n, getElem?_set_self hi, hnext ▸ hnode⟩
    · have hslot : t.slot i = some e' := (update_of_ne hip _ _).symm.trans he'
      have hnext : (t.put p e).next i = t.next i := update_of_ne hip _ _
      obtain ⟨n', hn', hnode'⟩ := h.full hi hslot
      exact ⟨n', (getElem?_set_ne (Ne.symm hip)).trans hn', hnext ▸ hnode'⟩

theorem IsHash.link (h : IsHash R names hash t) (hmain : t.slot p = some e')
    (hp : hash[p]? = some (some n')) (hfree : t.slot i = none) (hi : i < hash.length)
    (hnode : IsNode R names hash.length i (t.next p) e n) :
    IsHash R names
      ((hash.set p (some { n' with next := some i, nocolliding := false })).set i (some n))
      (t.link p i e) := by
  have hne : i ≠ p := by
    rintro rfl
    rw [hfree] at hmain
    cases hmain
  refine ⟨fun {j} hj hjfree => ?_, fun {j e₂} hj he₂ => ?_⟩
  · rw [length_set, length_set] at hj
    have hji : j ≠ i := by
      rintro rfl
      simp [Scatter.link] at hjfree
    have hslot : t.slot j = none := (update_of_ne hji _ _).symm.trans hjfree
    have hjp : j ≠ p := by
      rintro rfl
      rw [hslot] at hmain
      cases hmain
    rw [getElem?_set_ne hji.symm, getElem?_set_ne hjp.symm]
    exact h.empty hj hslot
  · rw [length_set, length_set] at hj ⊢
    by_cases hji : j = i
    · subst hji
      obtain rfl : e = e₂ := by simpa [Scatter.link] using he₂
      have hnext : (t.link p j e).next j = t.next p := update_self ..
      exact ⟨n, getElem?_set_self (by rwa [length_set]), hnext ▸ hnode⟩
    · have hslot : t.slot j = some e₂ := (update_of_ne hji _ _).symm.trans he₂
      rw [getElem?_set_ne (Ne.symm hji)]
      by_cases hjp : j = p
      · -- the main slot gets a new link
        subst hjp
        have hnext : (t.link j i e).next j = some i := (update_of_ne hji _ _).trans (update_self ..)
        obtain ⟨n₂, hn₂, hnode₂⟩ := h.full hj hslot
        rw [hp, Option.some.injEq, Option.some.injEq] at hn₂
        subst hn₂
        exact ⟨_, getElem?_set_self hj, hnode₂.key, hnode₂.keyhash, hnext.symm, hnode₂.value,
          hnode₂.filled, fun h => absurd h Bool.false_ne_true⟩
      · have hnext : (t.link p i e).next j = t.next j :=
          (update_of_ne hji _ _).trans (update_of_ne hjp _ _)
        obtain ⟨n₂, hn₂, hnode₂⟩ := h.full hj hslot
        exact ⟨n₂, (getElem?_set_ne (Ne.symm hjp)).trans hn₂, hnext ▸ hnode₂⟩

/-! ### The passes -/

theorem setarray_outcome (hconv : Converts S P Acc New R conv) (hP : P v) (hnodup : names.Nodup)
    (hsub : names ⊆ S) {tbl : Table ConfValue} {key : ℤ}
    (harray : IsArray R names sizearray done tbl.array)
    (hplace : placeOf sizearray k = .inl key) :
    Outcome names (Acc v) (New v)
      (fun names' tbl' => IsArray R names' sizearray (done ++ [(k, v)]) tbl'.array ∧
        tbl'.hash = tbl.hash)
      (setarray conv v key (contextOf names) tbl) := by
  refine (hconv.outcome hP hnodup hsub).map fun names' cv hgrows hcv => ⟨_, rfl, ?_, rfl⟩
  exact (harray.mono hconv.mono hgrows.isPrefix).concat_inl hplace hcv.1

theorem convertedFirst_cons_inl {key : ℤ} {l : List HashEntry}
    (h : placeOf sizearray k = .inl key) : convertedFirst sizearray sizehash l ((k, v) :: es) =
      v :: convertedFirst sizearray sizehash l es := by
  rw [convertedFirst, h]

theorem convertedFirst_cons_inr {key : ConfKey} {l : List HashEntry}
    (h : placeOf sizearray k = .inr key) : convertedFirst sizearray sizehash l ((k, v) :: es) =
      if ((heads (mainSlot sizehash) l).slot (mainSlot sizehash (key, v))).isNone then
        v :: convertedFirst sizearray sizehash (l ++ [(key, v)]) es
      else convertedFirst sizearray sizehash (l ++ [(key, v)]) es := by
  rw [convertedFirst, h]

theorem convertedThen_cons_inl {key : ℤ} {all : List HashEntry}
    (h : placeOf sizearray k = .inl key) : convertedThen sizearray sizehash all ((k, v) :: es) =
      convertedThen sizearray sizehash all es := by
  rw [convertedThen, h]

theorem convertedThen_cons_inr {key : ConfKey} {all : List HashEntry}
    (h : placeOf sizearray k = .inr key) : convertedThen sizearray sizehash all ((k, v) :: es) =
      if Linked (mainSlot sizehash) Prod.fst all (key, v) then
        v :: convertedThen sizearray sizehash all es
      else convertedThen sizearray sizehash all es := by
  rw [convertedThen, h]

theorem mem_of_convertedFirst {l : List HashEntry} {w : Source}
    (hw : w ∈ convertedFirst sizearray sizehash l es) : ∃ e ∈ es, e.2 = w := by
  induction es generalizing l with
  | nil => cases hw
  | cons e es ih =>
    obtain ⟨k, v⟩ := e
    rw [exists_mem_cons_iff]
    cases hplace : placeOf sizearray k with
    | inl key =>
      rw [convertedFirst_cons_inl hplace, mem_cons] at hw
      exact hw.imp Eq.symm ih
    | inr key =>
      rw [convertedFirst_cons_inr hplace] at hw
      split at hw
      · exact (mem_cons.mp hw).imp Eq.symm ih
      · exact .inr (ih hw)

theorem mem_of_convertedThen {all : List HashEntry} {w : Source}
    (hw : w ∈ convertedThen sizearray sizehash all es) : ∃ e ∈ es, e.2 = w := by
  induction es with
  | nil => cases hw
  | cons e es ih =>
    obtain ⟨k, v⟩ := e
    rw [exists_mem_cons_iff]
    cases hplace : placeOf sizearray k with
    | inl key =>
      rw [convertedThen_cons_inl hplace] at hw
      exact .inr (ih hw)
    | inr key =>
      rw [convertedThen_cons_inr hplace] at hw
      split at hw
      · exact (mem_cons.mp hw).imp Eq.symm ih
      · exact .inr (ih hw)

/-- The strings that are met: the keys of entries, and what the conversion of values meets. -/
def Met (New : Source → LuaString → Prop) (sizearray : ℕ) (es : LuaEntries ℕ) (vs : List Source)
    (s : LuaString) : Prop :=
  (∃ e ∈ es, placeOf sizearray e.1 = .inr (.string s)) ∨ ∃ w ∈ vs, New w s

theorem met_cons_entry {e : Source × Source} {vs : List Source} {s : LuaString} :
    Met New sizearray (e :: es) vs s ↔
      placeOf sizearray e.1 = .inr (.string s) ∨ Met New sizearray es vs s := by
  simp [Met, or_assoc]

theorem met_cons_value {vs : List Source} {s : LuaString} :
    Met New sizearray es (v :: vs) s ↔ New v s ∨ Met New sizearray es vs s := by
  simp only [Met, mem_cons, exists_eq_or_imp]
  exact or_left_comm

section Passes

variable (hS : S.length + 1 < 2 ^ 31) (hconv : Converts S P Acc New R conv)
include hS hconv

/-- The first pass. -/
theorem fillnocolliding_outcome {tbl : Table ConfValue} (hP : ∀ e ∈ es, P e.2)
    (hnil : ∀ e ∈ es, e.2.isNil = false)
    (hkeys : ∀ e ∈ es, ∀ s, placeOf sizearray e.1 = .inr (.string s) → s ∈ S)
    (hnodup : names.Nodup) (hsub : names ⊆ S) (hlength : tbl.hash.length = sizehash)
    (hpos : 0 < sizehash) (harray : IsArray R names sizearray done tbl.array)
    (hhash : IsHash R names tbl.hash (heads (mainSlot sizehash) (hashEntries sizearray done))) :
    Outcome names (∀ w ∈ convertedFirst sizearray sizehash (hashEntries sizearray done) es, Acc w)
      (Met New sizearray es (convertedFirst sizearray sizehash (hashEntries sizearray done) es))
      (fun names' tbl' => tbl'.hash.length = sizehash ∧
        IsArray R names' sizearray (done ++ es) tbl'.array ∧
        IsHash R names' tbl'.hash (heads (mainSlot sizehash) (hashEntries sizearray (done ++ es))))
      (fillnocolliding conv es (contextOf names) tbl) := by
  induction es generalizing names done tbl with
  | nil =>
    refine (Outcome.of_ok hnodup ?_).congr ?_ fun _ s => ?_
    · rw [append_nil]
      exact ⟨hlength, harray, hhash⟩
    · simp [convertedFirst]
    · simp [convertedFirst, Met]
  | cons e es ih =>
    obtain ⟨k, v⟩ := e
    rw [forall_mem_cons] at hP hnil hkeys
    rw [fillnocolliding, harray.1]
    refine ((ishashkey_outcome hS hnodup hsub hkeys.1).bind
      (B := ∀ w ∈ convertedFirst sizearray sizehash (hashEntries sizearray done) ((k, v) :: es),
        Acc w)
      (N := Met New sizearray es
        (convertedFirst sizearray sizehash (hashEntries sizearray done) ((k, v) :: es)))
      fun names₁ place hgrows₁ hplace => ?_).congr (iff_of_eq (true_and _))
      fun _ s => met_cons_entry.symm
    have hsub₁ := hgrows₁.sub hsub hkeys.1
    have harray₁ := harray.mono hconv.mono hgrows₁.isPrefix
    have hhash₁ := hhash.mono hconv.mono hgrows₁.isPrefix
    rw [append_cons]
    cases place with
    | array key =>
      rw [convertedFirst_cons_inl hplace]
      have hentries : hashEntries sizearray (done ++ [(k, v)]) = hashEntries sizearray done := by
        rw [hashEntries_append, hashEntries_cons_inl hplace]
        exact append_nil _
      refine ((setarray_outcome hconv hP.1 hgrows₁.nodup hsub₁ harray₁ hplace).bind
        fun names₂ tbl₂ hgrows₂ htbl₂ => ?_).congr forall_mem_cons.symm
        fun _ s => met_cons_value.symm
      rw [← hentries]
      refine ih hP.2 hnil.2 hkeys.2 hgrows₂.nodup (hgrows₂.sub hsub₁ fun s => hconv.sub hP.1) ?_
        htbl₂.1 ?_
      · rw [htbl₂.2, hlength]
      · rw [htbl₂.2, hentries]
        exact hhash₁.mono hconv.mono hgrows₂.isPrefix
    | hash key keyhash keytype =>
      obtain ⟨key', hplace, rfl, hkey⟩ := hplace
      have hentries : hashEntries sizearray (done ++ [(k, v)]) =
          hashEntries sizearray done ++ [(key', v)] := by
        rw [hashEntries_append, hashEntries_cons_inr hplace]
        rfl
      have hlt : key'.keyhash.toNat % sizehash < tbl.hash.length :=
        (Nat.mod_lt _ hpos).trans_eq hlength.symm
      have harray₂ := harray₁.concat_inr (v := v) hplace
      obtain ⟨slot, hslot⟩ : ∃ slot, tbl.hash[key'.keyhash.toNat % sizehash]? = some slot :=
        ⟨_, getElem?_eq_getElem hlt⟩
      rw [convertedFirst_cons_inr hplace]
      dsimp only
      rw [hlength, hslot]
      dsimp only
      cases hhead : (heads (mainSlot sizehash) (hashEntries sizearray done)).slot
          (mainSlot sizehash (key', v)) with
      | some e' =>
        -- another entry is in the main slot
        have hfull : ¬ isEmptySlot slot = true := by
          rw [hhash₁.isEmptySlot_iff hslot]
          exact fun h => Option.some_ne_none _ (hhead.symm.trans h)
        rw [if_neg hfull, if_neg (by simp), ← hentries]
        refine ih hP.2 hnil.2 hkeys.2 hgrows₁.nodup hsub₁ hlength harray₂ ?_
        rw [hentries, Scatter.heads_concat_of_some hhead]
        exact hhash₁
      | none =>
        have hempty : isEmptySlot slot = true := (hhash₁.isEmptySlot_iff hslot).mpr hhead
        rw [if_pos hempty, if_pos (by rfl), ← hentries]
        refine ((hconv.outcome hP.1 hgrows₁.nodup hsub₁).bind
          fun names₂ cv hgrows₂ hcv => ?_).congr forall_mem_cons.symm
          fun _ s => met_cons_value.symm
        refine ih hP.2 hnil.2 hkeys.2 hgrows₂.nodup (hgrows₂.sub hsub₁ fun s => hconv.sub hP.1)
          (by rw [length_set, hlength]) (harray₂.mono hconv.mono hgrows₂.isPrefix) ?_
        rw [hentries, Scatter.heads_concat_of_none hhead]
        refine (hhash₁.mono hconv.mono hgrows₂.isPrefix).put ?_
        exact ⟨hkey.mono hgrows₂.isPrefix, rfl, rfl, hcv.1, hcv.2.trans hnil.1,
          fun _ => ⟨hlength ▸ rfl, rfl⟩⟩

/-- The second pass. -/
theorem fillcolliding_outcome {tbl : Table ConfValue} {all : List HashEntry}
    {t : Scatter HashEntry} (hP : ∀ e ∈ es, P e.2) (hnil : ∀ e ∈ es, e.2.isNil = false)
    (hkeys : ∀ e ∈ es, ∀ s, placeOf sizearray e.1 = .inr (.string s) → s ∈ S)
    (hnodup : names.Nodup) (hsub : names ⊆ S) (hlength : tbl.hash.length = sizehash)
    (hsize : tbl.array.length = sizearray) (hall : hashEntries sizearray es ⊆ all)
    (hroom : Room (l := all) (mainSlot sizehash) Prod.fst sizehash (hashEntries sizearray es) t)
    (hpos : 0 < sizehash) (hhash : IsHash R names tbl.hash t) :
    Outcome names (∀ w ∈ convertedThen sizearray sizehash all es, Acc w)
      (Met New sizearray es (convertedThen sizearray sizehash all es))
      (fun names' tbl' => tbl'.array = tbl.array ∧ tbl'.hash.length = sizehash ∧
        ∃ t', Links (mainSlot sizehash) Prod.fst sizehash t (hashEntries sizearray es) t' ∧
          IsHash R names' tbl'.hash t')
      (fillcolliding conv es (contextOf names) tbl) := by
  induction es generalizing names t tbl with
  | nil =>
    refine (Outcome.of_ok hnodup ?_).congr ?_ fun _ s => ?_
    · exact ⟨rfl, hlength, t, .nil t, hhash⟩
    · simp [convertedThen]
    · simp [convertedThen, Met]
  | cons e es ih =>
    obtain ⟨k, v⟩ := e
    rw [forall_mem_cons] at hP hnil hkeys
    rw [fillcolliding, hsize]
    refine ((ishashkey_outcome hS hnodup hsub hkeys.1).bind
      (B := ∀ w ∈ convertedThen sizearray sizehash all ((k, v) :: es), Acc w)
      (N := Met New sizearray es (convertedThen sizearray sizehash all ((k, v) :: es)))
      fun names₁ place hgrows₁ hplace => ?_).congr (iff_of_eq (true_and _))
      fun _ s => met_cons_entry.symm
    have hsub₁ := hgrows₁.sub hsub hkeys.1
    have hhash₁ := hhash.mono hconv.mono hgrows₁.isPrefix
    cases place with
    | array key =>
      rw [convertedThen_cons_inl hplace, hashEntries_cons_inl hplace] at *
      exact ih hP.2 hnil.2 hkeys.2 hgrows₁.nodup hsub₁ hlength hsize hall hroom hhash₁
    | hash key keyhash keytype =>
      obtain ⟨key', hplace, rfl, hkey⟩ := hplace
      rw [hashEntries_cons_inr hplace] at hall hroom ⊢
      rw [cons_subset] at hall
      rw [convertedThen_cons_inr hplace]
      -- the main slot holds the entry that came first
      obtain ⟨e', he'⟩ := @Scatter.exists_head _ (mainSlot sizehash) _ _ hall.1
      have hmain := hroom.heads he'
      have hlt : key'.keyhash.toNat % sizehash < tbl.hash.length :=
        (Nat.mod_lt _ hpos).trans_eq hlength.symm
      obtain ⟨n, hn, hnode⟩ := hhash₁.full hlt hmain
      dsimp only
      rw [hlength, hn]
      dsimp only
      by_cases hsame : e'.1 = key'
      · rw [if_pos ((hnode.key.eq_iff hgrows₁.nodup hkey).mpr hsame), if_neg]
        · refine (ih hP.2 hnil.2 hkeys.2 hgrows₁.nodup hsub₁ hlength hsize hall.2 hroom.tail
            hhash₁).imp fun names' tbl' _ htbl' => ?_
          obtain ⟨harray, hlength', t', hlinks, ht'⟩ := htbl'
          exact ⟨harray, hlength', t', .skip hmain hsame hlinks, ht'⟩
        · rintro ⟨e₂, he₂, hne⟩
          rw [he', Option.some.injEq] at he₂
          exact hne (he₂ ▸ hsame)
      · have hlinked : Linked (mainSlot sizehash) Prod.fst all (key', v) := ⟨e', he', hsame⟩
        obtain ⟨i, hi, hfree, hfound⟩ :=
          hhash₁.exists_findIdx? (hlength.symm ▸ hroom.exists_free hlinked)
        rw [if_neg (mt (hnode.key.eq_iff hgrows₁.nodup hkey).mp hsame), if_pos hlinked, hfound]
        refine ((hconv.outcome hP.1 hgrows₁.nodup hsub₁).bind
          fun names₂ cv hgrows₂ hcv => ?_).congr forall_mem_cons.symm
          fun _ s => met_cons_value.symm
        have hhash₂ := hhash₁.mono hconv.mono hgrows₂.isPrefix
        have hnew : IsNode R names₂ tbl.hash.length i
            (t.next (mainSlot sizehash (key', v))) (key', v)
            { v := cv, key, next := n.next, keyhash := key'.keyhash, keytype,
              nocolliding := false } :=
          ⟨hkey.mono hgrows₂.isPrefix, rfl, hnode.next_eq, hcv.1, hcv.2.trans hnil.1,
            fun h => absurd h Bool.false_ne_true⟩
        refine Outcome.imp (ih hP.2 hnil.2 hkeys.2 hgrows₂.nodup
          (hgrows₂.sub hsub₁ fun s => hconv.sub hP.1)
          (by rw [length_set, length_set, hlength]) hsize hall.2
          (hroom.link hlinked (hlength ▸ hi) hfree) (hhash₂.link hmain hn hfree hi hnew))
          fun names' tbl' _ htbl' => ?_
        obtain ⟨harray, hlength', t', hlinks, ht'⟩ := htbl'
        exact ⟨harray, hlength', t', .link hmain hsame (hlength ▸ hi) hfree hlinks, ht'⟩

end Passes

/-! ### Sizes -/

/-- The keys that `countsize` accepts. -/
def acceptsKey : Source → Bool
  | .scalar (.integer _) | .scalar (.string _) | .table .. => true
  | _ => false

/-- The keys that `countsize` takes for an index of the array. -/
def isArrayKey (sizearray : ℕ) : Source → Bool
  | .scalar (.integer n) => 0 < n.toInt ∧ n.toInt ≤ sizearray
  | _ => false

/-- The size of the hash part. -/
def hashSize (sizearray : ℕ) (es : LuaEntries ℕ) : ℕ := es.countP fun e => !isArrayKey sizearray e.1

theorem countsize_cons {n : ℕ} (hk : acceptsKey k = true) (hfits : n + 1 < 2 ^ 31) :
    countsize sizearray ((k, v) :: es) n =
      countsize sizearray es ((n + if isArrayKey sizearray k then 0 else 1 : ℕ) : ℤ) := by
  rw [countsize, checkInt_bind (by omega) (by omega)]
  cases k with
  | nil => cases hk
  | table => rfl
  | scalar k =>
    cases k with
    | integer m =>
      by_cases harray : 0 < m.toInt ∧ m.toInt ≤ sizearray
      · simp only [isArrayKey, harray, and_self, decide_true, if_true]
        congr 1
        omega
      · simp only [isArrayKey, harray, decide_false, if_false]
        rfl
    | string s => rfl
    | real | boolean | lightuserdata => cases hk

theorem countsize_cons_raised {n : ℕ} (hk : acceptsKey k = false) (hfits : n + 1 < 2 ^ 31) :
    ∃ e, countsize sizearray ((k, v) :: es) n = .error e ∧ e.IsRaised := by
  rw [countsize, checkInt_bind (by omega) (by omega)]
  cases k with
  | nil => exact ⟨_, rfl, trivial⟩
  | table => cases hk
  | scalar k =>
    cases k with
    | real | boolean | lightuserdata => exact ⟨_, rfl, trivial⟩
    | integer | string => cases hk

theorem countsize_ok {n : ℕ} (hkeys : ∀ e ∈ es, acceptsKey e.1 = true)
    (hlength : n + es.length < 2 ^ 31) :
    countsize sizearray es n = .ok ((n + hashSize sizearray es : ℕ) : ℤ) := by
  induction es generalizing n with
  | nil => rfl
  | cons e es ih =>
    rw [forall_mem_cons] at hkeys
    rw [length_cons] at hlength
    rw [countsize_cons hkeys.1 (by omega), ih hkeys.2 (by split <;> omega)]
    unfold hashSize
    rw [countP_cons]
    congr 2
    cases isArrayKey sizearray e.1 <;> simp
    omega

theorem countsize_raised {n : ℕ} (hkeys : ¬ ∀ e ∈ es, acceptsKey e.1 = true)
    (hlength : n + es.length < 2 ^ 31) :
    ∃ e, countsize sizearray es n = .error e ∧ e.IsRaised := by
  induction es generalizing n with
  | nil => simp at hkeys
  | cons e es ih =>
    rw [length_cons] at hlength
    cases hk : acceptsKey e.1 with
    | false => exact countsize_cons_raised hk (by omega)
    | true =>
      rw [countsize_cons hk (by omega)]
      refine ih (fun hall => hkeys ?_) (by split <;> omega)
      exact forall_mem_cons.mpr ⟨hk, hall⟩

theorem toIntKey_eq {n : Int64} (hlow : -2 ^ 31 ≤ n.toInt) (hhigh : n.toInt < 2 ^ 31) :
    toIntKey n = n.toInt := by
  unfold toIntKey
  rw [toInt_toInt32]
  exact bmod_eq_of_le (by omega) (by omega)

theorem toIntKey_ofNat {i : ℕ} (hi : i < 2 ^ 31) : toIntKey (ofNat i) = i := by
  have hkey : (Int64.ofNat i).toInt = i := Int64.toInt_ofNat_of_lt (by omega)
  rw [toIntKey_eq (by omega) (by omega), hkey]

theorem placeOf_of_isArrayKey (hsize : sizearray < 2 ^ 31) (hk : isArrayKey sizearray k = true) :
    ∃ n : Int64, k = .scalar (.integer n) ∧ placeOf sizearray k = .inl n.toInt := by
  cases k with
  | nil | table => cases hk
  | scalar k =>
    cases k with
    | integer n =>
      have hrange : 0 < n.toInt ∧ n.toInt ≤ sizearray := by simpa [isArrayKey] using hk
      refine ⟨n, rfl, ?_⟩
      have hkey := toIntKey_eq (n := n) (by omega) (by omega)
      unfold placeOf
      dsimp only
      rw [hkey, if_pos hrange]
    | string | real | boolean | lightuserdata => cases hk

/-- There are no more entries for the hash part than were counted. -/
theorem length_hashEntries_le (hsize : sizearray < 2 ^ 31) (es : LuaEntries ℕ) :
    (hashEntries sizearray es).length ≤ hashSize sizearray es := by
  unfold hashSize
  induction es with
  | nil => exact le_rfl
  | cons e es ih =>
    obtain ⟨k, v⟩ := e
    rw [countP_cons]
    cases hplace : placeOf sizearray k with
    | inl key =>
      rw [hashEntries_cons_inl hplace]
      omega
    | inr key =>
      rw [hashEntries_cons_inr hplace, length_cons, if_pos]
      · omega
      · cases hk : isArrayKey sizearray k with
        | false => rfl
        | true =>
          obtain ⟨n, -, hinl⟩ := placeOf_of_isArrayKey hsize hk
          rw [hplace] at hinl
          cases hinl

/-! ### Tables -/

/-- An index of the array. -/
def arrayKey (i : ℕ) : LuaScalar := .integer (ofNat i)

/-- The values of a table that are converted. -/
def converted (sizearray : ℕ) (es : LuaEntries ℕ) : List Source :=
  let sizehash := hashSize sizearray es
  if sizehash ≠ 0 then
    convertedFirst sizearray sizehash [] es ++
      convertedThen sizearray sizehash (hashEntries sizearray es) es
  else (List.range sizearray).map fun i => rawget es (arrayKey (i + 1))

theorem rawget_cases (es : LuaEntries ℕ) (k : LuaScalar) :
    rawget es k = .nil ∨ (.scalar k, rawget es k) ∈ es := by
  unfold rawget
  cases hfind : es.find? fun e => e.1.isKey k with
  | none => exact .inl rfl
  | some e =>
    obtain ⟨k', v⟩ := e
    have hkey : k'.isKey k = true := by
      simpa using find?_some (p := fun e : Source × Source => e.1.isKey k) hfind
    exact .inr (LuaValue.eq_of_isKey hkey ▸ mem_of_find?_eq_some hfind)

theorem placeOf_arrayKey {i : ℕ} (hi : i < sizearray) (hfits : sizearray + 1 < 2 ^ 31) :
    placeOf sizearray (.scalar (arrayKey (i + 1))) = .inl (i + 1) := by
  unfold placeOf arrayKey
  dsimp only
  rw [toIntKey_ofNat (by omega), if_pos (by omega)]
  rfl

/-- A value that is converted is one of the table, or nil where the array has a hole. -/
theorem mem_of_converted {w : Source} (hw : w ∈ converted sizearray es) :
    w = .nil ∨ ∃ e ∈ es, e.2 = w := by
  unfold converted at hw
  dsimp only at hw
  split at hw
  · refine .inr ?_
    rcases mem_append.mp hw with hw | hw
    · exact mem_of_convertedFirst hw
    · exact mem_of_convertedThen hw
  · obtain ⟨i, -, rfl⟩ := mem_map.mp hw
    exact (rawget_cases es _).imp_right fun hmem => ⟨_, hmem, rfl⟩

/-- What a converted table stores. -/
structure IsTable (R : List LuaString → Source → ConfValue → Prop) (names : List LuaString)
    (sizearray : ℕ) (es : LuaEntries ℕ) (tbl : Table ConfValue) : Prop where
  array : IsArray R names sizearray es tbl.array
  length : tbl.hash.length = hashSize sizearray es
  hash : ∃ t, Links (mainSlot tbl.hash.length) Prod.fst tbl.hash.length
    (heads (mainSlot tbl.hash.length) (hashEntries sizearray es)) (hashEntries sizearray es) t ∧
    IsHash R names tbl.hash t

theorem IsTable.mono {tbl : Table ConfValue} (hR : Persists R) (hgrows : names <+: names')
    (h : IsTable R names sizearray es tbl) : IsTable R names' sizearray es tbl where
  array := h.array.mono hR hgrows
  length := h.length
  hash := by
    obtain ⟨t, hlinks, hhash⟩ := h.hash
    exact ⟨t, hlinks, hhash.mono hR hgrows⟩

/-- The values that the loop over an array without a hash part has stored. -/
def IsFilled (R : List LuaString → Source → ConfValue → Prop) (names : List LuaString)
    (es : LuaEntries ℕ) (sizearray i : ℕ) (array : List ConfValue) : Prop :=
  array.length = sizearray ∧ ∀ j < i, ∃ cv, array[j]? = some cv ∧
    R names (rawget es (arrayKey (j + 1))) cv ∧ cv.isNil = (rawget es (arrayKey (j + 1))).isNil

section Tables

variable (hconv : Converts S P Acc New R conv)
include hconv

theorem IsFilled.set {v : Source} {cv : ConfValue} (h : IsFilled R names es sizearray i array)
    (hi : i < sizearray) (hgrows : names <+: names') (hv : rawget es (arrayKey (i + 1)) = v)
    (hR : R names' v cv) (hnil : cv.isNil = v.isNil) :
    IsFilled R names' es sizearray (i + 1) (array.set i cv) := by
  subst hv
  refine ⟨by rw [length_set, h.1], fun j hj => ?_⟩
  by_cases hij : i = j
  · subst hij
    exact ⟨cv, getElem?_set_self (by rw [h.1]; exact hi), hR, hnil⟩
  · obtain ⟨cv', hcv', hR', hnil'⟩ := h.2 j (by omega)
    exact ⟨cv', (getElem?_set_ne hij).trans hcv', hconv.mono hgrows hR', hnil'⟩

theorem fillarray_outcome {tbl : Table ConfValue} {left : ℕ} (hP : ∀ k, P (rawget es k))
    (hnodup : names.Nodup) (hsub : names ⊆ S) (hsize : i + left = sizearray)
    (hfits : sizearray + 1 < 2 ^ 31) (hfilled : IsFilled R names es sizearray i tbl.array) :
    Outcome names (∀ w ∈ (List.range' i left).map fun i => rawget es (arrayKey (i + 1)), Acc w)
      (fun s => ∃ w ∈ (List.range' i left).map fun i => rawget es (arrayKey (i + 1)), New w s)
      (fun names' tbl' => IsFilled R names' es sizearray sizearray tbl'.array ∧
        tbl'.hash = tbl.hash)
      (fillarray conv es left ((i + 1 : ℕ) : ℤ) (contextOf names) tbl) := by
  induction left generalizing names i tbl with
  | zero =>
    obtain rfl : i = sizearray := by omega
    refine (Outcome.of_ok hnodup ⟨hfilled, rfl⟩).congr ?_ fun _ s => ?_
    · simp
    · simp
  | succ left ih =>
    rw [fillarray, range'_succ, map_cons, ofInt_eq_ofNat]
    have hv := hP (arrayKey (i + 1))
    have hset : Outcome names (Acc (rawget es (arrayKey (i + 1))))
        (New (rawget es (arrayKey (i + 1))))
        (fun names' tbl' => IsFilled R names' es sizearray (i + 1) tbl'.array ∧
          tbl'.hash = tbl.hash)
        (setarray conv (rawget es (arrayKey (i + 1))) ((i + 1 : ℕ) : ℤ) (contextOf names) tbl) := by
      refine (hconv.outcome hv hnodup hsub).map fun names' cv hgrows hcv => ⟨_, rfl, ?_, rfl⟩
      have hindex : (((i + 1 : ℕ) : ℤ) - 1).toNat = i := by omega
      rw [hindex]
      exact hfilled.set hconv (by omega) hgrows.isPrefix rfl hcv.1 hcv.2
    refine (hset.bind
      (N := fun s => ∃ w ∈ (List.range' (i + 1) left).map fun i => rawget es (arrayKey (i + 1)),
        New w s)
      fun names₁ tbl₁ hgrows₁ htbl₁ => ?_).congr forall_mem_cons.symm
      fun _ s => (exists_mem_cons_iff (New · s) _ _).symm
    dsimp only
    rw [checkInt_bind (by omega) (by omega), ← htbl₁.2]
    exact ih hgrows₁.nodup (hgrows₁.sub hsub fun s => hconv.sub hv) (by omega) htbl₁.1

end Tables

/-- When no entry belongs to the hash part, all keys are indices of the array. -/
theorem isArrayKey_of_hashSize (hsize : hashSize sizearray es = 0) {e : Source × Source}
    (he : e ∈ es) : isArrayKey sizearray e.1 = true := by
  simpa using countP_eq_zero.mp hsize e he

theorem isKey_arrayKey {n : Int64} (hn : n.toInt = (i : ℤ) + 1) :
    (LuaValue.scalar (.integer n) : Source).isKey (arrayKey (i + 1)) = true := by
  have heq : n = Int64.ofNat (i + 1) := by
    rw [← ofInt_eq_ofNat, ← ofInt_toInt n, hn]
    rfl
  simp [LuaValue.isKey, arrayKey, heq]

theorem rawget_isNil_of_mem (hnil : ∀ e ∈ es, e.2.isNil = false) {k' : LuaScalar}
    {e : Source × Source} (he : e ∈ es) (hkey : e.1.isKey k' = true) :
    (rawget es k').isNil = false := by
  unfold rawget
  cases hfind : es.find? fun e => e.1.isKey k' with
  | none =>
    have hnone := find?_eq_none.mp hfind e he
    exact absurd hkey hnone
  | some e' => exact hnil e' (mem_of_find?_eq_some hfind)

theorem IsFilled.isArray (h : IsFilled R names es sizearray sizearray array)
    (hsize : hashSize sizearray es = 0) (hfits : sizearray + 1 < 2 ^ 31)
    (hnil : ∀ e ∈ es, e.2.isNil = false) : IsArray R names sizearray es array := by
  refine ⟨h.1, fun i hi => ?_⟩
  obtain ⟨cv, hcv, hR, hcvnil⟩ := h.2 i hi
  refine ⟨cv, hcv, ?_⟩
  rcases rawget_cases es (arrayKey (i + 1)) with hnone | hmem
  · refine .inl ⟨?_, fun e he hplace => ?_⟩
    · rw [hnone] at hcvnil
      cases cv with
      | nil => rfl
      | real | string | boolean | table | integer => cases hcvnil
    · obtain ⟨n, hn, hinl⟩ := placeOf_of_isArrayKey (by omega) (isArrayKey_of_hashSize hsize he)
      rw [hplace] at hinl
      have hfound := rawget_isNil_of_mem hnil he (hn ▸ isKey_arrayKey (Sum.inl.inj hinl).symm)
      rw [hnone] at hfound
      cases hfound
  · exact .inr ⟨_, hmem, placeOf_arrayKey hi hfits, hR⟩

theorem isHash_empty : IsHash R names [] t where
  empty hi _ := absurd hi (Nat.not_lt_zero _)
  full hi _ := absurd hi (Nat.not_lt_zero _)

section Body

variable (hS : S.length + 1 < 2 ^ 31) (hconv : Converts S P Acc New R conv)
include hS hconv

/-- The conversion of a table, given the one of its values. -/
theorem convtableBody_outcome (hfits : sizearray + 1 < 2 ^ 31) (hlength : es.length < 2 ^ 31)
    (hP : ∀ e ∈ es, P e.2) (hPnil : P .nil) (hnil : ∀ e ∈ es, e.2.isNil = false)
    (hkeys : ∀ e ∈ es, ∀ s, placeOf sizearray e.1 = .inr (.string s) → s ∈ S)
    (hnodup : names.Nodup) (hsub : names ⊆ S) :
    Outcome names ((∀ e ∈ es, acceptsKey e.1 = true) ∧ ∀ w ∈ converted sizearray es, Acc w)
      (Met New sizearray es (converted sizearray es)) (IsTable R · sizearray es ·)
      (convtableBody conv sizearray es (contextOf names)) := by
  unfold convtableBody
  dsimp only
  rw [castInt_eq (by omega), if_neg (by omega), toNat_natCast]
  by_cases haccepts : ∀ e ∈ es, acceptsKey e.1 = true
  · have hcount := @countsize_ok sizearray es 0 haccepts (by omega)
    rw [Nat.zero_add, Nat.cast_zero] at hcount
    rw [hcount, ok_bind, toNat_natCast]
    refine Outcome.congr ?_ (and_iff_right haccepts).symm fun _ _ => Iff.rfl
    unfold converted
    dsimp only
    by_cases hsize : hashSize sizearray es = 0
    · have hget (k : LuaScalar) : P (rawget es k) := by
        rcases rawget_cases es k with hnone | hmem
        · exact hnone.symm ▸ hPnil
        · exact hP _ hmem
      have hentries : hashEntries sizearray es = [] := eq_nil_of_length_eq_zero
          (Nat.le_zero.mp (hsize ▸ length_hashEntries_le (by omega) es))
      rw [if_neg (by omega), if_neg (by omega), range_eq_range']
      refine ((fillarray_outcome hconv hget hnodup hsub (Nat.zero_add _) hfits
        ⟨length_replicate, nofun⟩).imp fun names' tbl' _ htbl' => ?_).congr Iff.rfl
        fun _ s => ?_
      · obtain ⟨hfilled, hhash⟩ := htbl'
        refine ⟨hfilled.isArray hsize hfits hnil, by rw [hhash, hsize]; rfl, ?_⟩
        rw [hentries, hhash]
        exact ⟨_, .nil _, isHash_empty⟩
      · refine (or_iff_right ?_).symm
        rintro ⟨e, he, hplace⟩
        obtain ⟨n, -, hinl⟩ := placeOf_of_isArrayKey (by omega) (isArrayKey_of_hashSize hsize he)
        rw [hplace] at hinl
        cases hinl
    · rw [if_pos hsize, if_pos (by omega)]
      have hpos := Nat.pos_of_ne_zero hsize
      refine ((fillnocolliding_outcome hS hconv hP hnil hkeys hnodup hsub
        length_replicate hpos isArray_nil (isHash_nil _)).bind
        (B := ∀ w ∈ convertedThen sizearray (hashSize sizearray es) (hashEntries sizearray es) es,
          Acc w)
        (N := Met New sizearray es
          (convertedThen sizearray (hashSize sizearray es) (hashEntries sizearray es) es))
        fun names₁ tbl₁ hgrows₁ htbl₁ => ?_).congr forall_mem_append.symm fun _ s => ?_
      · obtain ⟨hlength₁, harray₁, hhash₁⟩ := htbl₁
        rw [nil_append] at harray₁ hhash₁
        have hsub₁ : names₁ ⊆ S := by
          refine hgrows₁.sub hsub fun s hs => ?_
          rcases hs with ⟨e, he, hplace⟩ | ⟨w, hw, hs⟩
          · exact hkeys e he s hplace
          · obtain ⟨e, he, rfl⟩ := mem_of_convertedFirst hw
            exact hconv.sub (hP e he) hs
        refine (fillcolliding_outcome hS hconv hP hnil hkeys hgrows₁.nodup hsub₁ hlength₁ harray₁.1
          (List.Subset.refl _) (Scatter.room_heads (length_hashEntries_le (by omega) es)) hpos
          hhash₁).imp fun names₂ tbl₂ hgrows₂ htbl₂ => ?_
        obtain ⟨harray₂, hlength₂, t, hlinks, hhash₂⟩ := htbl₂
        refine ⟨harray₂ ▸ harray₁.mono hconv.mono hgrows₂.isPrefix, hlength₂, ?_⟩
        rw [hlength₂]
        exact ⟨t, hlinks, hhash₂⟩
      · unfold Met
        simp only [mem_append, or_and_right, exists_or]
        exact (or_or_distrib_left ..).symm
  · obtain ⟨e, he, hraised⟩ := @countsize_raised sizearray es 0 haccepts (by omega)
    rw [Nat.cast_zero] at he
    rw [he]
    exact ⟨fun h => absurd h.1 haccepts, fun _ => ⟨e, rfl, hraised⟩⟩

end Body

end Uboss.Lib.Sharedata
