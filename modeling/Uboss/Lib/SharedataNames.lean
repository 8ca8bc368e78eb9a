import Mathlib.Data.List.Induction
import Mathlib.Data.List.Nodup
import Mathlib.Data.List.Perm.Subperm
import Uboss.Lib.SharedataConf

/-!
# The strings of shared data

During a conversion every string gets an index when it is met for the first time. The state of the
conversion is the list of the strings so far, and what a step does to it is to append the strings
that are new.
-/

namespace Uboss.Lib.Sharedata

open Math List

variable {names names' names'' : List LuaString} {s : LuaString} {j : ℕ}

/-- The context when these strings have got their indices. -/
def contextOf (names : List LuaString) : Context where
  stringmap := (names.zipIdx.map fun e => (e.1, (e.2 : ℤ) + 2)).reverse
  stringIndex := names.length + 1

theorem contextOf_nil : contextOf [] = {} := rfl

theorem contextOf_concat (names : List LuaString) (s : LuaString) : contextOf (names ++ [s]) =
      { stringmap := (s, (names.length : ℤ) + 2) :: (contextOf names).stringmap
        stringIndex := names.length + 2 } := by
  unfold contextOf
  simp [zipIdx_append, add_assoc]

theorem lookup_contextOf (hnodup : names.Nodup) (hs : names[j]? = some s) :
    (contextOf names).stringmap.lookup s = some ((j : ℤ) + 2) := by
  induction names using List.reverseRecOn generalizing j with
  | nil => simp at hs
  | append_singleton names s' ih =>
    rw [contextOf_concat]
    obtain ⟨hnodup, -, hdisjoint⟩ := nodup_append.mp hnodup
    by_cases hj : j < names.length
    · rw [getElem?_append_left hj] at hs
      have hne : s ≠ s' := hdisjoint s (mem_of_getElem? hs) s' (mem_singleton_self s')
      rw [lookup_cons, beq_false_of_ne hne]
      exact ih hnodup hs
    · rw [getElem?_append_right (not_lt.mp hj)] at hs
      obtain ⟨hlast, hs⟩ := List.getElem?_eq_some_iff.mp hs
      rw [length_singleton] at hlast
      obtain rfl : j = names.length := by omega
      obtain rfl : s' = s := by simpa using hs
      exact lookup_cons_self

theorem lookup_contextOf_of_notMem (hs : s ∉ names) :
    (contextOf names).stringmap.lookup s = none := by
  rw [lookup_eq_none_iff]
  intro e he
  obtain ⟨e', he', rfl⟩ := mem_map.mp (mem_reverse.mp he)
  have hne : s ≠ e'.1 := fun heq => hs (heq ▸ fst_mem_of_mem_zipIdx he')
  exact bne_iff_ne.mpr hne

/-- Strings are appended: the new ones among the ones that are met. -/
structure Grows (names names' : List LuaString) (new : LuaString → Prop) : Prop where
  isPrefix : names <+: names'
  nodup : names'.Nodup
  mem : ∀ s, s ∈ names' ↔ s ∈ names ∨ new s

theorem Grows.refl (hnodup : names.Nodup) : Grows names names fun _ => False :=
  ⟨prefix_rfl, hnodup, by simp⟩

theorem Grows.trans {new new' : LuaString → Prop} (h : Grows names names' new)
    (h' : Grows names' names'' new') : Grows names names'' fun s => new s ∨ new' s :=
  ⟨h.isPrefix.trans h'.isPrefix, h'.nodup, fun s => by rw [h'.mem, h.mem, or_assoc]⟩

theorem Grows.congr {new new' : LuaString → Prop} (h : Grows names names' new)
    (heq : ∀ s, new s ↔ new' s) : Grows names names' new' :=
  ⟨h.isPrefix, h.nodup, fun s => by rw [h.mem, heq]⟩

theorem getElem?_of_isPrefix (h : names <+: names') (hs : names[j]? = some s) :
    names'[j]? = some s := by
  obtain ⟨rest, rfl⟩ := h
  rw [getElem?_append_left (List.getElem?_eq_some_iff.mp hs).1]
  exact hs

section Bounded

-- the strings of a tree, which all have an index
variable {S : List LuaString} (hS : S.length + 1 < 2 ^ 31)
include hS

/-- A string gets an index of its own, and keeps it. -/
theorem stringindex_spec (hnodup : names.Nodup) (hsub : names ⊆ S) (hs : s ∈ S) :
    ∃ names' j, stringindex (contextOf names) s = .ok (contextOf names', (j : ℕ) + 2) ∧
      names'[j]? = some s ∧ Grows names names' (· = s) := by
  unfold stringindex
  by_cases hmem : s ∈ names
  · obtain ⟨j, hj⟩ := mem_iff_getElem?.mp hmem
    rw [lookup_contextOf hnodup hj]
    refine ⟨names, j, rfl, hj, prefix_rfl, hnodup, fun s' => ?_⟩
    exact (or_iff_left_of_imp fun h => h ▸ hmem).symm
  · have hnodup' : (names ++ [s]).Nodup := by
      rw [nodup_append]
      refine ⟨hnodup, nodup_singleton s, fun s₁ h₁ s₂ h₂ heq => ?_⟩
      rw [mem_singleton] at h₂
      exact hmem (h₂ ▸ heq ▸ h₁)
    have hlength : (names ++ [s]).length ≤ S.length := by
      refine (subperm_of_subset hnodup' fun s' hs' => ?_).length_le
      rcases mem_append.mp hs' with h | h
      · exact hsub h
      · exact mem_singleton.mp h ▸ hs
    rw [length_append, length_singleton] at hlength
    rw [lookup_contextOf_of_notMem hmem]
    refine ⟨names ++ [s], names.length, ?_, ?_, ⟨[s], rfl⟩, hnodup', fun s' => by simp⟩
    · change (checkInt ConfError.overflow ((names.length : ℤ) + 1 + 1) >>= _) = _
      rw [checkInt_bind (by omega) (by omega), contextOf_concat]
      rfl
    · rw [getElem?_append_right (le_refl _), Nat.sub_self]
      rfl

end Bounded

/-! ### Keys -/

/-- Where the key of an entry belongs: an index of the array, or a key of the hash part. -/
def placeOf (sizearray : ℕ) (k : Source) : ℤ ⊕ ConfKey :=
  let number (key : ℤ) := if 0 < key ∧ key ≤ sizearray then .inl key else .inr (.integer key)
  match k with
  | .scalar (.integer n) => number (toIntKey n)
  | .scalar (.real x) => number (toIntKey ((realToInteger x).getD 0))
  | .scalar (.string s) => .inr (.string s)
  | _ => .inr (.string [])

/-- The key in a node. -/
def IsNodeKey (names : List LuaString) : ConfKey → ℤ → KeyType → Prop
  | .integer key, key', keytype => keytype = .integer ∧ key' = key
  | .string s, key', keytype => keytype = .string ∧ ∃ j : ℕ, names[j]? = some s ∧ key' = j + 2

theorem IsNodeKey.mono {k : ConfKey} {key : ℤ} {keytype : KeyType} (h : names <+: names')
    (hkey : IsNodeKey names k key keytype) : IsNodeKey names' k key keytype := by
  cases k with
  | integer => exact hkey
  | string s =>
    obtain ⟨hkeytype, j, hj, hindex⟩ := hkey
    exact ⟨hkeytype, j, getElem?_of_isPrefix h hj, hindex⟩

/-- Nodes have the same key if and only if the comparison of the code says so. -/
theorem IsNodeKey.eq_iff (hnodup : names.Nodup) {k k' : ConfKey} {key key' : ℤ}
    {keytype keytype' : KeyType} (h : IsNodeKey names k key keytype)
    (h' : IsNodeKey names k' key' keytype') : keytype = keytype' ∧ key = key' ↔ k = k' := by
  cases k with
  | integer n =>
    obtain ⟨rfl, rfl⟩ := h
    cases k' with
    | integer n' =>
      obtain ⟨rfl, rfl⟩ := h'
      simp
    | string s' =>
      obtain ⟨rfl, -⟩ := h'
      simp
  | string s =>
    obtain ⟨rfl, j, hj, rfl⟩ := h
    cases k' with
    | integer n' =>
      obtain ⟨rfl, rfl⟩ := h'
      simp
    | string s' =>
      obtain ⟨rfl, j', hj', rfl⟩ := h'
      rw [ConfKey.string.injEq]
      constructor
      · rintro ⟨-, heq⟩
        obtain rfl : j = j' := by omega
        exact Option.some.inj (hj.symm.trans hj')
      · rintro rfl
        obtain ⟨hlt, -⟩ := List.getElem?_eq_some_iff.mp hj
        have hindex := (getElem?_inj hlt hnodup).mp (hj.trans hj'.symm)
        exact ⟨rfl, by rw [hindex]⟩

/-! ### Steps -/

/-- What a step of the conversion does: it ends well if and only if `acc`, and then it has met the
strings `new`; or else it raises an error. -/
def Outcome {β : Type} (names : List LuaString) (acc : Prop) (new : LuaString → Prop)
    (good : List LuaString → β → Prop) (result : Except ConfError (Context × β)) : Prop :=
  (acc → ∃ names' b, result = .ok (contextOf names', b) ∧ Grows names names' new ∧ good names' b) ∧
    (¬ acc → ∃ e, result = .error e ∧ e.IsRaised)

section Outcome

variable {β γ : Type} {acc acc' B : Prop} {new new' N : LuaString → Prop}
  {good : List LuaString → β → Prop} {good' : List LuaString → γ → Prop}
  {x : Except ConfError (Context × β)} {f : Context × β → Except ConfError (Context × γ)}

theorem Outcome.of_ok {b : β} (hnodup : names.Nodup) (h : good names b) :
    Outcome names True (fun _ => False) good (.ok (contextOf names, b)) :=
  ⟨fun _ => ⟨names, b, rfl, .refl hnodup, h⟩, fun h => absurd trivial h⟩

theorem Outcome.of_error {e : ConfError} (he : e.IsRaised) :
    Outcome names False new good (.error e) :=
  ⟨False.elim, fun _ => ⟨e, rfl, he⟩⟩

theorem Outcome.congr (h : Outcome names acc new good x) (hacc : acc ↔ acc')
    (hnew : acc' → ∀ s, new s ↔ new' s) : Outcome names acc' new' good x :=
  ⟨fun hacc' => by
    obtain ⟨names', b, hx, hgrows, hgood⟩ := h.1 (hacc.mpr hacc')
    exact ⟨names', b, hx, hgrows.congr (hnew hacc'), hgood⟩,
    fun hnot => h.2 fun h => hnot (hacc.mp h)⟩

theorem Outcome.imp {good₂ : List LuaString → β → Prop} (h : Outcome names acc new good x)
    (hgood : ∀ names' b, Grows names names' new → good names' b → good₂ names' b) :
    Outcome names acc new good₂ x :=
  ⟨fun hacc => by
    obtain ⟨names', b, hx, hgrows, hb⟩ := h.1 hacc
    exact ⟨names', b, hx, hgrows, hgood names' b hgrows hb⟩, h.2⟩

/-- One step after another. -/
theorem Outcome.bind (h : Outcome names acc new good x)
    (hf : ∀ names' b, Grows names names' new → good names' b →
      Outcome names' B N good' (f (contextOf names', b))) :
    Outcome names (acc ∧ B) (fun s => new s ∨ N s) good' (x >>= f) := by
  by_cases hacc : acc
  · obtain ⟨names', b, rfl, hgrows, hgood⟩ := h.1 hacc
    have hnext := hf names' b hgrows hgood
    refine ⟨fun hboth => ?_, fun hnot => hnext.2 fun hB => hnot ⟨hacc, hB⟩⟩
    obtain ⟨names'', c, hc, hgrows', hgood'⟩ := hnext.1 hboth.2
    exact ⟨names'', c, hc, hgrows.trans hgrows', hgood'⟩
  · obtain ⟨e, rfl, he⟩ := h.2 hacc
    exact ⟨fun hboth => absurd hboth.1 hacc, fun _ => ⟨e, rfl, he⟩⟩

theorem Outcome.map (h : Outcome names acc new good x)
    (hf : ∀ names' b, Grows names names' new → good names' b →
      ∃ c, f (contextOf names', b) = .ok (contextOf names', c) ∧ good' names' c) :
    Outcome names acc new good' (x >>= f) := by
  refine (h.bind (B := True) (N := fun _ => False) fun names' b hgrows hb => ?_).congr
    (iff_of_eq (and_true acc)) fun _ s => iff_of_eq (or_false (new s))
  obtain ⟨c, hc, hgood⟩ := hf names' b hgrows hb
  rw [hc]
  exact .of_ok hgrows.nodup hgood

end Outcome

section Bounded

variable {S : List LuaString} (hS : S.length + 1 < 2 ^ 31)
include hS

/-- What `ishashkey` says of a key that belongs to a place. -/
def IsPlace (names : List LuaString) (place : ℤ ⊕ ConfKey) : KeyPlace → Prop
  | .array key => place = .inl key
  | .hash key keyhash keytype =>
    ∃ k, place = .inr k ∧ keyhash = k.keyhash ∧ IsNodeKey names k key keytype

omit hS in
theorem number_outcome (hnodup : names.Nodup) (n : ℕ) (key : ℤ) : Outcome names True
      (fun s => (if 0 < key ∧ key ≤ n then .inl key else .inr (.integer key)) =
        (.inr (.string s) : ℤ ⊕ ConfKey))
      (IsPlace · (if 0 < key ∧ key ≤ n then .inl key else .inr (.integer key)))
      (.ok (contextOf names, if 0 < key ∧ key ≤ n then KeyPlace.array key
        else .hash key (integerHash key) .integer)) := by
  refine (Outcome.of_ok hnodup ?_).congr Iff.rfl fun _ s => ?_
  · split
    · rfl
    · exact ⟨_, rfl, rfl, rfl, rfl⟩
  · split <;> simp

theorem string_outcome (hnodup : names.Nodup) (hsub : names ⊆ S) (hs : s ∈ S) :
    Outcome names True (fun s' => (.inr (.string s) : ℤ ⊕ ConfKey) = .inr (.string s'))
      (IsPlace · (.inr (.string s)))
      (do
        let (ctx, index) ← stringindex (contextOf names) s
        return (ctx, KeyPlace.hash index (calchash s) .string)) := by
  obtain ⟨names', j, hindex, hj, hgrows⟩ := stringindex_spec hS hnodup hsub hs
  rw [hindex]
  refine ⟨fun _ => ⟨names', _, rfl, hgrows.congr fun s' => ?_, _, rfl, rfl, rfl, j, hj, rfl⟩,
    fun h => absurd trivial h⟩
  simp [eq_comm]

/-- The key of an entry is found, or gets an index if it is a new string. -/
theorem ishashkey_outcome {k : Source} {n : ℕ} (hnodup : names.Nodup) (hsub : names ⊆ S)
    (hk : ∀ s, placeOf n k = .inr (.string s) → s ∈ S) :
    Outcome names True (fun s => placeOf n k = .inr (.string s)) (IsPlace · (placeOf n k))
      (ishashkey n k (contextOf names)) := by
  cases k with
  | nil => exact string_outcome hS hnodup hsub (hk [] rfl)
  | table => exact string_outcome hS hnodup hsub (hk [] rfl)
  | scalar k =>
    cases k with
    | integer m => exact number_outcome hnodup n (toIntKey m)
    | real x => exact number_outcome hnodup n _
    | string s => exact string_outcome hS hnodup hsub (hk s rfl)
    | boolean b => exact string_outcome hS hnodup hsub (hk [] rfl)
    | lightuserdata ptr => exact string_outcome hS hnodup hsub (hk [] rfl)

end Bounded

/-! ### The end of a conversion -/

theorem foldl_set_of_notMem {es : List (LuaString × ℤ)} (L : Strings)
    (h : ∀ e ∈ es, (e.2 - 1).toNat ≠ j) :
    (es.foldl (fun L e => L.set (e.2 - 1).toNat (some e.1)) L)[j]? = L[j]? := by
  induction es generalizing L with
  | nil => rfl
  | cons e es ih =>
    rw [forall_mem_cons] at h
    rw [foldl_cons, ih _ h.2, getElem?_set_ne h.1]

theorem snd_lt_of_mem_stringmap {e : LuaString × ℤ} (he : e ∈ (contextOf names).stringmap) :
    (e.2 - 1).toNat < names.length + 1 := by
  obtain ⟨e', he', rfl⟩ := mem_map.mp (mem_reverse.mp he)
  have hlt := snd_lt_of_mem_zipIdx he'
  dsimp only
  omega

theorem foldl_stringmap_getElem? {L : Strings} (hs : names[j]? = some s)
    (hL : names.length < L.length) :
    ((contextOf names).stringmap.foldl (fun L e => L.set (e.2 - 1).toNat (some e.1)) L)[j + 1]? =
      some (some s) := by
  induction names using List.reverseRecOn generalizing j L with
  | nil => simp at hs
  | append_singleton names s' ih =>
    rw [length_append, length_singleton] at hL
    rw [contextOf_concat, foldl_cons]
    by_cases hj : j < names.length
    · rw [getElem?_append_left hj] at hs
      exact ih hs (by rw [length_set]; omega)
    · rw [getElem?_append_right (not_lt.mp hj)] at hs
      obtain ⟨hlast, hs⟩ := List.getElem?_eq_some_iff.mp hs
      rw [length_singleton] at hlast
      obtain rfl : j = names.length := by omega
      obtain rfl : s' = s := by simpa using hs
      have hindex : ((names.length : ℤ) + 2 - 1).toNat = names.length + 1 := by omega
      rw [foldl_set_of_notMem _ fun e he => (snd_lt_of_mem_stringmap he).ne, hindex,
        getElem?_set_self hL]

theorem convertStringmap_getElem? (hs : names[j]? = some s) :
    (convertStringmap (contextOf names))[j + 1]? = some (some s) := by
  refine foldl_stringmap_getElem? hs ?_
  rw [length_replicate]
  change names.length < ((names.length : ℤ) + 1).toNat
  omega

/-- What is read with an index in the end. -/
theorem tolstring_eq (hs : names[j]? = some s) :
    tolstring (convertStringmap (contextOf names)) (j + 2) = s := by
  have hindex : ((j : ℤ) + 2 - 1).toNat = j + 1 := by omega
  unfold tolstring
  rw [hindex, convertStringmap_getElem? hs]
  rfl

end Uboss.Lib.Sharedata
