import Uboss.Lib.SharedataBuild

/-!
# Trees of shared data

A table in a table is converted by another call, with the same strings. What is said of the
conversion of a table is lifted to trees, by the number of nested calls.
-/

namespace Uboss.Lib.Sharedata

open Math List

/-! ### Sources -/

/-- The string of a key. `lua_tolstring` gives none for what is neither a string nor a number, which
is then taken for an empty one. -/
def keyString : Source → Option LuaString
  | .scalar (.integer _) | .scalar (.real _) => none
  | .scalar (.string s) => some s
  | _ => some []

/-- A string of a source: a value or a key. -/
inductive Occurs (s : LuaString) : Source → Prop
  | value : Occurs s (.scalar (.string s))
  | key {rawlen : ℕ} {es : LuaEntries ℕ} {e : Source × Source} : e ∈ es → keyString e.1 = some s →
      Occurs s (.table rawlen es)
  | entry {rawlen : ℕ} {es : LuaEntries ℕ} {e : Source × Source} : e ∈ es → Occurs s e.2 →
      Occurs s (.table rawlen es)

/-- No two entries have the same key. Tables that are keys are different. -/
def DistinctKeys (es : LuaEntries ℕ) : Prop :=
  es.Pairwise fun e e' => ∀ k : LuaScalar, e.1 = .scalar k → e'.1 ≠ .scalar k

/-- The tables of a source have different keys and no nil, and their sizes fit into an `int`. -/
inductive IsSource : Source → Prop
  | nil : IsSource .nil
  | scalar (s : LuaScalar) : IsSource (.scalar s)
  | table {rawlen : ℕ} {es : LuaEntries ℕ} : rawlen + 1 < 2 ^ 31 → es.length < 2 ^ 31 →
      DistinctKeys es → (∀ e ∈ es, e.2.isNil = false) → (∀ e ∈ es, IsSource e.2) →
      IsSource (.table rawlen es)

theorem placeOf_eq_string_iff {sizearray : ℕ} {k : Source} {s : LuaString} :
    placeOf sizearray k = .inr (.string s) ↔ keyString k = some s := by
  unfold placeOf keyString
  split
  · dsimp only
    split <;> simp
  · dsimp only
    split <;> simp
  · simp
  · next hint hreal hstring =>
    cases k with
    | nil | table => simp
    | scalar k =>
      cases k with
      | boolean | lightuserdata => simp
      | integer n => exact absurd rfl (hint n)
      | real x => exact absurd rfl (hreal x)
      | string s => exact absurd rfl (hstring s)

/-! ### Levels -/

/-- The values that are converted, given the tables that are. -/
def AcceptsValue (table : ℕ → LuaEntries ℕ → Prop) : Source → Prop
  | .nil => True
  | .scalar (.lightuserdata _) => False
  | .scalar _ => True
  | .table rawlen es => table rawlen es

/-- The tables that are converted with so many nested calls: their keys are accepted, and so are the
values that are converted. -/
def Accepted : ℕ → ℕ → LuaEntries ℕ → Prop
  | 0, _, _ => False
  | calls + 1, rawlen, es => (∀ e ∈ es, acceptsKey e.1 = true) ∧
      ∀ w ∈ converted rawlen es, AcceptsValue (Accepted calls) w

/-- The strings that are met in a value, given the ones in tables. -/
def SeenValue (table : ℕ → LuaEntries ℕ → LuaString → Prop) : Source → LuaString → Prop
  | .scalar (.string s'), s => s = s'
  | .table rawlen es, s => table rawlen es s
  | _, _ => False

/-- The strings that are met with so many nested calls. -/
def Seen : ℕ → ℕ → LuaEntries ℕ → LuaString → Prop
  | 0, _, _, _ => False
  | calls + 1, rawlen, es, s => Met (SeenValue (Seen calls)) rawlen es (converted rawlen es) s

/-- What is stored for a value, given what is stored for tables. -/
def StoresValue (table : List LuaString → ℕ → LuaEntries ℕ → Table ConfValue → Prop)
    (names : List LuaString) : Source → ConfValue → Prop
  | .nil, .nil => True
  | .scalar (.integer d), .integer d' => d' = d
  | .scalar (.real n), .real n' => n' = n
  | .scalar (.boolean b), .boolean b' => b' = b
  | .scalar (.string s), .string index => ∃ j : ℕ, names[j]? = some s ∧ index = j + 2
  | .table rawlen es, .table tbl => table names rawlen es tbl
  | _, _ => False

/-- What is stored for a table that was converted with so many nested calls. -/
def Stores : ℕ → List LuaString → ℕ → LuaEntries ℕ → Table ConfValue → Prop
  | 0, _, _, _, _ => False
  | calls + 1, names, rawlen, es, tbl => IsTable (StoresValue (Stores calls)) names rawlen es tbl

variable {S names names' : List LuaString} {s : LuaString} {rawlen calls stack : ℕ}
  {es : LuaEntries ℕ} {v : Source} {tbl : Table ConfValue}

/-- A source whose strings are in a list. -/
def InStrings (S : List LuaString) (v : Source) : Prop := IsSource v ∧ ∀ s, Occurs s v → s ∈ S

theorem InStrings.entry (h : InStrings S (.table rawlen es)) {e : Source × Source} (he : e ∈ es) :
    InStrings S e.2 := by
  obtain ⟨hsource, hstrings⟩ := h
  cases hsource with
  | table _ _ _ _ hvalues => exact ⟨hvalues e he, fun s hs => hstrings s (.entry he hs)⟩

theorem inStrings_nil : InStrings S .nil := ⟨.nil, fun _ h => by cases h⟩

/-! ### Conversion -/

/-- What is known of the conversion of tables. -/
structure ConvertsTables (S : List LuaString) (Acc : ℕ → LuaEntries ℕ → Prop)
    (New : ℕ → LuaEntries ℕ → LuaString → Prop)
    (R : List LuaString → ℕ → LuaEntries ℕ → Table ConfValue → Prop) (conv : Converter) : Prop where
  outcome : ∀ {names rawlen es}, InStrings S (.table rawlen es) → names.Nodup → names ⊆ S →
    Outcome names (Acc rawlen es) (New rawlen es) (R · rawlen es ·)
      (conv rawlen es (contextOf names))
  sub : ∀ {rawlen es s}, InStrings S (.table rawlen es) → New rawlen es s → s ∈ S
  mono : ∀ {names names' rawlen es tbl}, names <+: names' → R names rawlen es tbl →
    R names' rawlen es tbl

theorem ConvertsTables.converts {Acc : ℕ → LuaEntries ℕ → Prop}
    {New : ℕ → LuaEntries ℕ → LuaString → Prop}
    {R : List LuaString → ℕ → LuaEntries ℕ → Table ConfValue → Prop} {conv : Converter}
    (hS : S.length + 1 < 2 ^ 31) (h : ConvertsTables S Acc New R conv) :
    Converts S (InStrings S) (AcceptsValue Acc) (SeenValue New) (StoresValue R) conv where
  outcome {names v} hv hnodup hnames := by
    cases v with
    | nil => exact (Outcome.of_ok hnodup ⟨trivial, rfl⟩).congr Iff.rfl fun _ _ => Iff.rfl
    | table rawlen es =>
      exact (h.outcome hv hnodup hnames).map fun names' tbl _ htbl => ⟨_, rfl, htbl, rfl⟩
    | scalar k =>
      cases k with
      | boolean b => exact (Outcome.of_ok hnodup ⟨rfl, rfl⟩).congr Iff.rfl fun _ _ => Iff.rfl
      | integer d => exact (Outcome.of_ok hnodup ⟨rfl, rfl⟩).congr Iff.rfl fun _ _ => Iff.rfl
      | real n => exact (Outcome.of_ok hnodup ⟨rfl, rfl⟩).congr Iff.rfl fun _ _ => Iff.rfl
      | lightuserdata ptr => exact Outcome.of_error trivial
      | string s =>
        obtain ⟨names', j, hindex, hj, hgrows⟩ := stringindex_spec hS hnodup hnames (hv.2 s .value)
        refine ⟨fun _ => ⟨names', .string (j + 2), ?_, hgrows, ⟨j, hj, rfl⟩, rfl⟩,
          fun h => absurd trivial h⟩
        rw [setvalue, hindex]
        rfl
  sub {v s} hv hs := by
    cases v with
    | nil => cases hs
    | table rawlen es => exact h.sub hv hs
    | scalar k =>
      cases k with
      | boolean | integer | real | lightuserdata => cases hs
      | string s' => exact hv.2 s (hs.symm ▸ .value)
  mono {names names' v cv} hgrows hR := by
    cases v with
    | nil => cases cv <;> exact hR
    | table rawlen es =>
      cases cv with
      | table tbl => exact h.mono hgrows hR
      | nil | real | string | boolean | integer => exact hR
    | scalar k =>
      cases k with
      | boolean | integer | real | lightuserdata => cases cv <;> exact hR
      | string s =>
        cases cv with
        | string index =>
          obtain ⟨j, hj, hindex⟩ := hR
          exact ⟨j, getElem?_of_isPrefix hgrows hj, hindex⟩
        | nil | real | table | boolean | integer => exact hR

/-- The conversion of tables with so many nested calls. -/
theorem convertsTables (hS : S.length + 1 < 2 ^ 31) (calls : ℕ) :
    ConvertsTables S (Accepted calls) (Seen calls) (Stores calls) (convtable calls) := by
  induction calls with
  | zero => exact ⟨fun _ _ _ => Outcome.of_error trivial, fun _ h => h.elim, fun _ h => h⟩
  | succ calls ih =>
    have hconv := ih.converts hS
    refine ⟨fun {names rawlen es} h hnodup hnames => ?_, fun {rawlen es s} h hs => ?_,
      fun hgrows htbl => htbl.mono hconv.mono hgrows⟩
    · cases h.1 with
      | table hfits hlength _ hnil _ =>
        exact convtableBody_outcome hS hconv hfits hlength (fun e he => h.entry he) inStrings_nil
          hnil (fun e he s hs => h.2 s (.key he (placeOf_eq_string_iff.mp hs))) hnodup hnames
    · rcases hs with ⟨e, he, hplace⟩ | ⟨w, hw, hs⟩
      · exact h.2 s (.key he (placeOf_eq_string_iff.mp hplace))
      · rcases mem_of_converted hw with rfl | ⟨e, he, rfl⟩
        · cases hs
        · exact hconv.sub (h.entry he) hs

/-- There are more strings than the stack has room for. -/
def TooManyStrings (stack : ℕ) (strings : LuaString → Prop) : Prop :=
  ∃ l : List LuaString, l.Nodup ∧ (∀ s ∈ l, strings s) ∧ stack < l.length + 4

theorem tooManyStrings_iff {strings : LuaString → Prop} (hnodup : names.Nodup)
    (hmem : ∀ s, s ∈ names ↔ strings s) :
    TooManyStrings stack strings ↔ stack < names.length + 4 := by
  constructor
  · rintro ⟨l, hl, hstrings, hstack⟩
    have hlength := (subperm_of_subset hl fun s hs => (hmem s).mpr (hstrings s hs)).length_le
    omega
  · exact fun hstack => ⟨names, hnodup, fun s hs => (hmem s).mp hs, hstack⟩

section Newconf

variable (hS : S.length + 4 < 2 ^ 31) (h : InStrings S (.table rawlen es))
include hS h

theorem lnewconf_of_accepted (stack : ℕ) (hacc : Accepted calls rawlen es) :
    ∃ names root, names.Nodup ∧ (∀ s, s ∈ names ↔ Seen calls rawlen es s) ∧
      Stores calls names rawlen es root ∧
      lnewconf calls stack (.table rawlen es) =
        if names.length + 4 ≤ stack then .ok { L := convertStringmap (contextOf names), root }
        else .error (.raised "stack overflow") := by
  obtain ⟨names, root, hroot, hgrows, hstores⟩ :=
    ((convertsTables (by omega) calls).outcome h nodup_nil (nil_subset S)).1 hacc
  have hseen (s : LuaString) : s ∈ names ↔ Seen calls rawlen es s := by
    rw [hgrows.mem, or_iff_right not_mem_nil]
  have hlength : names.length ≤ S.length := (subperm_of_subset hgrows.nodup fun s hs =>
      (convertsTables (by omega) calls).sub h ((hseen s).mp hs)).length_le
  refine ⟨names, root, hgrows.nodup, hseen, hstores, ?_⟩
  have hindex : (contextOf names).stringIndex + 3 = ((names.length + 4 : ℕ) : ℤ) := by
    rw [Nat.cast_add]
    exact add_assoc _ _ _
  rw [contextOf_nil] at hroot
  rw [lnewconf, hroot, ok_bind]
  dsimp only
  rw [hindex, checkInt_bind (by omega) (by omega)]
  simp only [Nat.cast_le]
  rfl

theorem lnewconf_of_not_accepted (stack : ℕ) (hacc : ¬ Accepted calls rawlen es) :
    ∃ e, lnewconf calls stack (.table rawlen es) = .error e ∧ e.IsRaised := by
  obtain ⟨e, he, hraised⟩ :=
    ((convertsTables (by omega) calls).outcome h nodup_nil (nil_subset S)).2 hacc
  rw [contextOf_nil] at he
  exact ⟨e, by rw [lnewconf, he]; rfl, hraised⟩

/-- When the conversion of a tree raises an error. -/
theorem lnewconf_raises_iff :
    (∃ e, lnewconf calls stack (.table rawlen es) = .error e ∧ e.IsRaised) ↔
      ¬ Accepted calls rawlen es ∨ TooManyStrings stack (Seen calls rawlen es) := by
  by_cases hacc : Accepted calls rawlen es
  · obtain ⟨names, root, hnodup, hseen, -, hconf⟩ := lnewconf_of_accepted hS h stack hacc
    rw [hconf, or_iff_right (not_not_intro hacc), tooManyStrings_iff hnodup hseen]
    split
    · next hfits =>
      refine iff_of_false ?_ (by omega)
      rintro ⟨e, he, -⟩
      cases he
    · next hfits => exact iff_of_true ⟨_, rfl, trivial⟩ (by omega)
  · exact iff_of_true (lnewconf_of_not_accepted hS h stack hacc) (.inl hacc)

end Newconf

end Uboss.Lib.Sharedata
