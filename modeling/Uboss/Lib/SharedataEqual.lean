import Uboss.Lib.SharedataRead

/-!
# Shared data and its source

A tree whose keys fit is converted as a whole, and what is read is the tree. Where a key does not
fit, the conversion may end well with another key in its place.
-/

namespace Uboss.Lib.Sharedata

open Math List
open Scatter (heads Linked)

/-! ### What is converted -/

variable {n sizehash : ℕ} {es : LuaEntries ℕ} {l : List HashEntry} {k v : Source} {key : ConfKey}

theorem mem_convertedFirst_of_inl {i : ℤ} (hplace : placeOf n k = .inl i) (he : (k, v) ∈ es) :
    v ∈ convertedFirst n sizehash l es := by
  induction es generalizing l with
  | nil => cases he
  | cons e es ih =>
    obtain ⟨k', v'⟩ := e
    rcases mem_cons.mp he with heq | hmem
    · obtain ⟨rfl, rfl⟩ := Prod.mk.inj heq
      rw [convertedFirst_cons_inl hplace]
      exact mem_cons_self
    · cases hplace' : placeOf n k' with
      | inl i' =>
        rw [convertedFirst_cons_inl hplace']
        exact mem_cons_of_mem _ (ih hmem)
      | inr key' =>
        rw [convertedFirst_cons_inr hplace']
        split
        · exact mem_cons_of_mem _ (ih hmem)
        · exact ih hmem

/-- An entry whose main slot is free is converted by the first pass. -/
theorem mem_convertedFirst_of_free {before after : LuaEntries ℕ} (hplace : placeOf n k = .inr key)
    (hfree : (heads (mainSlot sizehash) (l ++ hashEntries n before)).slot
      (mainSlot sizehash (key, v)) = none) :
    v ∈ convertedFirst n sizehash l (before ++ (k, v) :: after) := by
  induction before generalizing l with
  | nil =>
    have hnil : hashEntries n [] = [] := rfl
    rw [hnil, append_nil] at hfree
    rw [nil_append, convertedFirst_cons_inr hplace, hfree]
    exact mem_cons_self
  | cons e before ih =>
    obtain ⟨k', v'⟩ := e
    rw [cons_append]
    cases hplace' : placeOf n k' with
    | inl i =>
      rw [hashEntries_cons_inl hplace'] at hfree
      rw [convertedFirst_cons_inl hplace']
      exact mem_cons_of_mem _ (ih hfree)
    | inr key' =>
      rw [hashEntries_cons_inr hplace', append_cons] at hfree
      rw [convertedFirst_cons_inr hplace']
      split
      · exact mem_cons_of_mem _ (ih hfree)
      · exact ih hfree

theorem mem_convertedThen {all : List HashEntry} (hplace : placeOf n k = .inr key)
    (hlinked : Linked (mainSlot sizehash) Prod.fst all (key, v)) (he : (k, v) ∈ es) :
    v ∈ convertedThen n sizehash all es := by
  induction es with
  | nil => cases he
  | cons e es ih =>
    obtain ⟨k', v'⟩ := e
    rcases mem_cons.mp he with heq | hmem
    · obtain ⟨rfl, rfl⟩ := Prod.mk.inj heq
      rw [convertedThen_cons_inr hplace, if_pos hlinked]
      exact mem_cons_self
    · cases hplace' : placeOf n k' with
      | inl i' =>
        rw [convertedThen_cons_inl hplace']
        exact ih hmem
      | inr key' =>
        rw [convertedThen_cons_inr hplace']
        split
        · exact mem_cons_of_mem _ (ih hmem)
        · exact ih hmem

theorem IsConfTable.mem_converted (h : IsConfTable n es) {e : Source × Source} (he : e ∈ es) :
    e.2 ∈ converted n es := by
  obtain ⟨k, v⟩ := e
  obtain ⟨k, rfl, hkey⟩ := h.keys _ he
  unfold converted
  dsimp only
  split
  · rw [mem_append]
    cases hplace : placeOf n (.scalar k) with
    | inl i => exact .inl (mem_convertedFirst_of_inl hplace he)
    | inr key =>
      obtain ⟨before, after, rfl⟩ := append_of_mem he
      cases hhead : (heads (mainSlot (hashSize n (before ++ (.scalar k, v) :: after)))
          (hashEntries n before)).slot (mainSlot _ (key, v)) with
      | none => exact .inl (mem_convertedFirst_of_free (l := []) hplace hhead)
      | some e' =>
        have hnodup := h.hashEntries_nodup
        have hlinked : Linked (mainSlot (hashSize n (before ++ (.scalar k, v) :: after))) Prod.fst
            (hashEntries n (before ++ (.scalar k, v) :: after)) (key, v) := by
          rw [hashEntries_append, hashEntries_cons_inr hplace] at *
          refine ⟨e', Scatter.slot_heads_append hhead, fun heq => ?_⟩
          rw [map_append, map_cons] at hnodup
          refine (nodup_append.mp hnodup).2.2 e'.1 ?_ key mem_cons_self heq
          exact mem_map_of_mem (Scatter.mem_of_heads hhead)
        exact .inr (mem_convertedThen hplace hlinked he)
  · next hsize =>
    have harray := isArrayKey_of_hashSize (not_not.mp hsize) he
    obtain ⟨i, hplace⟩ := (isArrayKey_iff hkey).mp harray
    rcases place_cases (n := n) hkey with ⟨j, hj, rfl, -, -⟩ | ⟨key, -, hinr, -⟩
    · rw [mem_map]
      exact ⟨j, mem_range.mpr hj, h.distinct.rawget_eq he⟩
    · rw [hinr] at hplace
      cases hplace

/-! ### Trees whose keys fit -/

/-- The values that are supported: numbers, strings and booleans. -/
def IsConfValue : LuaScalar → Prop
  | .lightuserdata _ => False
  | _ => True

/-- A tree that is not deeper than so many nested calls. -/
def Within : ℕ → Source → Prop
  | 0, .table .. => False
  | calls + 1, .table _ es => ∀ e ∈ es, Within calls e.2
  | _, _ => True

variable {leaf : LuaScalar → Prop} {calls stack rawlen : ℕ} {S : List LuaString} {s : LuaString}

theorem acceptsKey_of_isConfKey {k : LuaScalar} (hk : IsConfKey k) :
    acceptsKey (.scalar k) = true := by
  cases k with
  | integer | string => rfl
  | boolean | real | lightuserdata => cases hk

theorem accepted_of_isTree (htree : IsTree IsConfValue (.table rawlen es))
    (hcalls : Within calls (.table rawlen es)) : Accepted calls rawlen es := by
  induction calls generalizing rawlen es with
  | zero => cases hcalls
  | succ calls ih =>
    cases htree with
    | table hkeys hvalues =>
      refine ⟨fun e he => ?_, fun w hw => ?_⟩
      · obtain ⟨k, hk, hkey⟩ := hkeys e he
        rw [hk]
        exact acceptsKey_of_isConfKey hkey
      · rcases mem_of_converted hw with rfl | ⟨e, he, rfl⟩
        · trivial
        · have hvalue := hvalues e he
          have hwithin := hcalls e he
          cases hv : e.2 with
          | nil => trivial
          | table rawlen' es' =>
            rw [hv] at hvalue hwithin
            exact ih hvalue hwithin
          | scalar k =>
            rw [hv] at hvalue
            cases hvalue with
            | scalar hleaf =>
              cases k with
              | boolean | integer | real | string => trivial
              | lightuserdata => cases hleaf

theorem seen_iff (hsource : IsSource (.table rawlen es)) (htree : IsTree leaf (.table rawlen es))
    (hacc : Accepted calls rawlen es) : Seen calls rawlen es s ↔ Occurs s (.table rawlen es) := by
  induction calls generalizing rawlen es with
  | zero => cases hacc
  | succ calls ih =>
    have hconf := htree.isConfTable hsource
    have hvalue (e : Source × Source) (he : e ∈ es) :
        SeenValue (Seen calls) e.2 s ↔ Occurs s e.2 := by
      have hacc' := hacc.2 e.2 (hconf.mem_converted he)
      cases hsource with
      | table _ _ _ _ hsources =>
        cases htree with
        | table _ htrees =>
          have hsource' := hsources e he
          have htree' := htrees e he
          cases hv : e.2 with
          | nil =>
            refine iff_of_false id fun h => ?_
            cases h
          | table rawlen' es' =>
            rw [hv] at hsource' htree' hacc'
            exact ih hsource' htree' hacc'
          | scalar k =>
            cases k with
            | string s' =>
              refine ⟨fun h => h ▸ .value, fun h => ?_⟩
              cases h with
              | value => rfl
            | boolean | integer | real | lightuserdata =>
              refine iff_of_false id fun h => ?_
              cases h
    constructor
    · rintro (⟨e, he, hplace⟩ | ⟨w, hw, hs⟩)
      · exact .key he (placeOf_eq_string_iff.mp hplace)
      · rcases mem_of_converted hw with rfl | ⟨e, he, rfl⟩
        · cases hs
        · exact .entry he ((hvalue e he).mp hs)
    · intro h
      cases h with
      | key he hkey => exact .inl ⟨_, he, placeOf_eq_string_iff.mpr hkey⟩
      | entry he hs => exact .inr ⟨_, hconf.mem_converted he, (hvalue _ he).mpr hs⟩

theorem lnewconf_of_isTree (stack : ℕ) (hS : S.length + 4 < 2 ^ 31)
    (hsource : InStrings S (.table rawlen es)) (htree : IsTree IsConfValue (.table rawlen es))
    (hcalls : Within calls (.table rawlen es)) :
    ∃ conf, Shows conf.L (.table rawlen es) (some (.table conf.root)) ∧
      (TooManyStrings stack (Occurs · (.table rawlen es)) →
        lnewconf calls stack (.table rawlen es) = .error (.raised "stack overflow")) ∧
      (¬ TooManyStrings stack (Occurs · (.table rawlen es)) →
        lnewconf calls stack (.table rawlen es) = .ok conf) := by
  have hacc := accepted_of_isTree htree hcalls
  obtain ⟨names, root, hnodup, hseen, hstores, hconf⟩ := lnewconf_of_accepted hS hsource stack hacc
  have hmem (s : LuaString) : s ∈ names ↔ Occurs s (.table rawlen es) :=
    (hseen s).trans (seen_iff hsource.1 htree hacc)
  rw [tooManyStrings_iff hnodup hmem, hconf]
  refine ⟨⟨convertStringmap (contextOf names), root⟩, hstores.shows hsource.1 htree,
    fun hmany => ?_, fun hfits => ?_⟩
  · rw [if_neg (by omega)]
  · rw [if_pos (by omega)]

/-- A tree whose keys fit is read as it is, unless there are more strings than the stack has room
for. -/
theorem lnewconf_shows (hS : S.length + 4 < 2 ^ 31) (hsource : InStrings S (.table rawlen es))
    (htree : IsTree IsConfValue (.table rawlen es)) (hcalls : Within calls (.table rawlen es)) :
    (¬ TooManyStrings stack (Occurs · (.table rawlen es)) →
      ∃ conf, lnewconf calls stack (.table rawlen es) = .ok conf ∧
        Shows conf.L (.table rawlen es) (some (.table conf.root))) ∧
    (TooManyStrings stack (Occurs · (.table rawlen es)) →
      lnewconf calls stack (.table rawlen es) = .error (.raised "stack overflow")) := by
  obtain ⟨conf, hshows, hmany, hfits⟩ := lnewconf_of_isTree stack hS hsource htree hcalls
  exact ⟨fun h => ⟨conf, hfits h, hshows⟩, hmany⟩

theorem lnewconf_shows_pair :
    ∃ conf, lnewconf 1 100 (.table 0 [(.scalar (.string [97]), .scalar (.integer 1))]) = .ok conf ∧
      Shows conf.L (.table 0 [(.scalar (.string [97]), .scalar (.integer 1))])
        (some (.table conf.root)) := by
  have hoccurs (s : LuaString)
      (hs : Occurs s (.table 0 [(.scalar (.string [97]), .scalar (.integer 1))])) : s = [97] := by
    cases hs with
    | key he hkey =>
      rw [List.mem_singleton.mp he] at hkey
      exact (Option.some.inj hkey).symm
    | entry he hvalue =>
      rw [List.mem_singleton.mp he] at hvalue
      cases hvalue
  have hsource : InStrings [[97]] (.table 0 [(.scalar (.string [97]), .scalar (.integer 1))]) :=
    ⟨.table (by decide) (by decide) (List.pairwise_singleton _ _)
      (List.forall_mem_singleton.mpr rfl) (List.forall_mem_singleton.mpr (.scalar _)),
      fun s hs => List.mem_singleton.mpr (hoccurs s hs)⟩
  have htree : IsTree IsConfValue (.table 0 [(.scalar (.string [97]), .scalar (.integer 1))]) :=
    .table (List.forall_mem_singleton.mpr ⟨_, rfl, trivial⟩)
      (List.forall_mem_singleton.mpr (.scalar trivial))
  have hcalls : Within 1 (.table 0 [(.scalar (.string [97]), .scalar (.integer 1))]) :=
    List.forall_mem_singleton.mpr trivial
  refine (lnewconf_shows (by decide) hsource htree hcalls).1 ?_
  rintro ⟨l, hnodup, hl, hlength⟩
  have hsub := (List.subperm_of_subset hnodup fun s hs =>
    List.mem_singleton.mpr (hoccurs s (hl s hs))).length_le
  rw [List.length_singleton] at hsub
  omega

/-- A table with so many strings for its keys. -/
def manyStrings (n : ℕ) : LuaEntries ℕ :=
  (List.range n).map fun i => (.scalar (.string (List.replicate i 0)), .scalar (.boolean true))

theorem isSource_manyStrings (hn : n < 2 ^ 31) : IsSource (.table 0 (manyStrings n)) := by
  unfold manyStrings
  refine .table (by decide) (by simpa using hn) ?_ ?_ ?_
  · refine pairwise_map.mpr (nodup_range.imp fun {i j} hij k hk hk' => hij ?_)
    have heq := LuaScalar.string.inj (LuaValue.scalar.inj (hk.trans hk'.symm))
    simpa using congrArg List.length heq
  · simp [LuaValue.isNil]
  · simp only [mem_map, forall_exists_index, and_imp, forall_apply_eq_imp_iff₂]
    exact fun _ _ => .scalar _

theorem isTree_manyStrings (n : ℕ) : IsTree IsConfValue (.table 0 (manyStrings n)) := by
  unfold manyStrings
  refine .table ?_ ?_
  · simp only [mem_map, forall_exists_index, and_imp, forall_apply_eq_imp_iff₂]
    exact fun _ _ => ⟨_, rfl, trivial⟩
  · simp only [mem_map, forall_exists_index, and_imp, forall_apply_eq_imp_iff₂]
    exact fun _ _ => .scalar trivial

theorem within_manyStrings (calls n : ℕ) : Within (calls + 1) (.table 0 (manyStrings n)) := by
  simp [manyStrings, Within]

theorem occurs_manyStrings_iff :
    Occurs s (.table 0 (manyStrings n)) ↔ s ∈ (List.range n).map fun i => List.replicate i 0 := by
  unfold manyStrings
  constructor
  · intro h
    cases h with
    | key he hkey =>
      obtain ⟨i, hi, rfl⟩ := mem_map.mp he
      obtain rfl := Option.some.inj hkey
      exact mem_map_of_mem hi
    | entry he hvalue =>
      obtain ⟨i, hi, rfl⟩ := mem_map.mp he
      cases hvalue
  · intro h
    obtain ⟨i, hi, rfl⟩ := mem_map.mp h
    exact .key (mem_map_of_mem hi) rfl

/-- There is no room for as many strings as the stack has slots. -/
theorem manyStrings_overflow (hstack : stack + 4 < 2 ^ 31) :
    lnewconf (calls + 1) stack (.table 0 (manyStrings stack)) =
      .error (.raised "stack overflow") := by
  have hsource : InStrings ((List.range stack).map fun i => List.replicate i 0)
      (.table 0 (manyStrings stack)) :=
    ⟨isSource_manyStrings (by omega), fun s hs => occurs_manyStrings_iff.mp hs⟩
  obtain ⟨-, -, hmany, -⟩ := lnewconf_of_isTree stack (by simpa using hstack) hsource
    (isTree_manyStrings stack) (within_manyStrings calls stack)
  refine hmany ⟨_, ?_, fun s hs => occurs_manyStrings_iff.mpr hs, by simp⟩
  refine List.Nodup.map (fun i j heq => ?_) nodup_range
  simpa using congrArg List.length heq

theorem lnewconf_manyStrings : IsSource (.table 0 (manyStrings 1000000)) ∧
    IsTree IsConfValue (.table 0 (manyStrings 1000000)) ∧
    Within 200 (.table 0 (manyStrings 1000000)) ∧
    lnewconf 200 1000000 (.table 0 (manyStrings 1000000)) = .error (.raised "stack overflow") :=
  ⟨isSource_manyStrings (by decide), isTree_manyStrings _, within_manyStrings 199 _,
    manyStrings_overflow (by decide)⟩

/-! ### Keys that do not fit -/

/-- A key that does not fit makes the conversion fail, and an object is what its source is. -/
def RejectsKeys (calls stack : ℕ) (v : Source) : Prop :=
  (¬ IsTree (fun _ => True) v → ∃ e, lnewconf calls stack v = .error e ∧ e.IsRaised) ∧
    ∀ conf, lnewconf calls stack v = .ok conf → Shows conf.L v (some (.table conf.root))

/-- Keys that do not fit are rejected if and only if there are none, or the conversion fails for
another reason. -/
theorem rejectsKeys_iff (hS : S.length + 4 < 2 ^ 31) (hsource : InStrings S (.table rawlen es)) :
    RejectsKeys calls stack (.table rawlen es) ↔
      IsTree (fun _ => True) (.table rawlen es) ∨ ¬ Accepted calls rawlen es ∨
        TooManyStrings stack (Seen calls rawlen es) := by
  rw [← lnewconf_raises_iff hS hsource]
  constructor
  · intro h
    by_cases htree : IsTree (fun _ => True) (.table rawlen es)
    · exact .inl htree
    · exact .inr (h.1 htree)
  · rintro (htree | hraised)
    · refine ⟨fun hnot => absurd htree hnot, fun conf hok => ?_⟩
      by_cases hacc : Accepted calls rawlen es
      · obtain ⟨names, root, -, -, hstores, hconf⟩ := lnewconf_of_accepted hS hsource stack hacc
        rw [hconf] at hok
        split at hok
        · obtain rfl := Except.ok.inj hok
          exact hstores.shows hsource.1 htree
        · cases hok
      · obtain ⟨e, he, -⟩ := lnewconf_of_not_accepted hS hsource stack hacc
        rw [hok] at he
        cases he
    · refine ⟨fun _ => hraised, fun conf hok => ?_⟩
      obtain ⟨e, he, -⟩ := hraised
      rw [hok] at he
      cases he

theorem rejectsKeys_boolean :
    RejectsKeys 1 100 (.table 0 [(.scalar (.boolean true), .scalar (.integer 1))]) := by
  have hstrings (s : LuaString)
      (hs : Occurs s (.table 0 [(.scalar (.boolean true), .scalar (.integer 1))])) : s ∈ [[]] := by
    cases hs with
    | key he hkey =>
      rw [List.mem_singleton.mp he] at hkey
      exact List.mem_singleton.mpr (Option.some.inj hkey).symm
    | entry he hvalue =>
      rw [List.mem_singleton.mp he] at hvalue
      cases hvalue
  have hsource : InStrings [[]] (.table 0 [(.scalar (.boolean true), .scalar (.integer 1))]) :=
    ⟨.table (by decide) (by decide) (List.pairwise_singleton _ _)
      (List.forall_mem_singleton.mpr rfl) (List.forall_mem_singleton.mpr (.scalar _)), hstrings⟩
  refine (rejectsKeys_iff (by decide) hsource).mpr (.inr (.inl fun hacc => ?_))
  exact absurd (hacc.1 _ (List.mem_singleton_self _)) (by decide)

/-- A key with more than 32 bits. -/
def wideKey : LuaEntries ℕ := [(.scalar (.integer 4294967301), .scalar (.boolean true))]

/-- The key is kept as 5. -/
theorem lnewconf_wideKey : IsSource (.table 0 wideKey) ∧
    ¬ RejectsKeys 200 1000000 (.table 0 wideKey) ∧
    ∃ conf, lnewconf 200 1000000 (.table 0 wideKey) = .ok conf ∧
      lindexconf conf.L conf.root (.integer 5) = .ok (some (.scalar (.boolean true))) := by
  have hok : ∃ conf, lnewconf 200 1000000 (.table 0 wideKey) = .ok conf ∧
      lindexconf conf.L conf.root (.integer 5) = .ok (some (.scalar (.boolean true))) :=
    ⟨_, rfl, rfl⟩
  refine ⟨?_, fun h => ?_, hok⟩
  · exact .table (by decide) (by decide) (List.pairwise_singleton _ _)
      (List.forall_mem_singleton.mpr rfl) (List.forall_mem_singleton.mpr (.scalar _))
  · obtain ⟨conf, hconf, -⟩ := hok
    obtain ⟨e, he, -⟩ := h.1 fun htree => by
      cases htree with
      | table hkeys _ =>
        obtain ⟨k, hk, hkey⟩ := hkeys _ (List.mem_singleton_self _)
        obtain rfl := LuaValue.scalar.inj hk
        exact absurd hkey.2 (by decide)
    rw [hconf] at he
    cases he

end Uboss.Lib.Sharedata
