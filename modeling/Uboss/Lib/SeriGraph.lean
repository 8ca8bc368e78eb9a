import Uboss.Lib.Seri
import Uboss.Math.Preorder

/-!
# Packing a graph of tables

The tables of Lua refer to each other, so a table can occur in several places and in itself. Here
`pack_one` follows the references, and it meets values that it does not pack. It counts the tables
on its way in `depth`, as it does in `lua-seri.c`. No table has a metafield `__pairs`.
-/

namespace Uboss.Lib

open Math List Nat

/-- The types that are not packed. -/
inductive UnsupportedType
  | function
  | userdata
  | thread
  deriving DecidableEq, Repr

/-- A value; the tables are numbered by `ι`. -/
inductive GraphValue (ι : Type)
  | nil
  | scalar (s : LuaScalar)
  | table (t : ι)
  | unsupported (type : UnsupportedType)
  deriving DecidableEq, Repr

variable {ι : Type}

/-- The key is this scalar. -/
def GraphValue.isKey (k : LuaScalar) : GraphValue ι → Bool
  | .scalar s => s = k
  | _ => false

/-- The value, if it is neither nil nor a table nor of a type that is not packed. -/
def GraphValue.scalar? : GraphValue ι → Option LuaScalar
  | .scalar s => some s
  | _ => none

/-- The value is not nil. -/
def GraphValue.isSome : GraphValue ι → Bool
  | .nil => false
  | _ => true

/-- `lua_rawgeti`. -/
def graphGet (es : List (GraphValue ι × GraphValue ι)) (i : ℕ) : GraphValue ι :=
  ((es.find? fun e => e.1.isKey (.integer (Int64.ofNat i))).map (·.2)).getD .nil

/-- A table: its entries in the order of `lua_next`, and the result of `lua_rawlen`, which is the
index of one of them or 0. -/
structure GraphTable (ι : Type) where
  rawlen : ℕ
  entries : List (GraphValue ι × GraphValue ι)
  nodup : (entries.map (·.1)).Nodup
  border : rawlen = 0 ∨ (graphGet entries rawlen).isSome

/-- The tables. -/
abbrev LuaGraph (ι : Type) := ι → GraphTable ι

inductive GraphError
  /-- `serialize can't pack too depth table`. -/
  | tooDeep
  /-- `Unsupport type %s to serialize`. -/
  | unsupported (type : UnsupportedType)
  /-- The model does not go on. -/
  | outOfFuel
  deriving DecidableEq, Repr

namespace LuaGraph

/-- `pack_one`, with at most `fuel` calls inside each other. -/
def packOne (g : LuaGraph ι) : ℕ → ℕ → Packer (GraphValue ι) GraphError
  | 0, _ => fun _ _ => .error .outOfFuel
  | fuel + 1, depth => fun v wb =>
    if maxDepth < depth then .error .tooDeep
    else
      match v with
      | .nil => .ok (wbNil wb)
      | .scalar s => .ok (wbScalar wb s)
      | .table t =>
        wbTable wb (packOne g fuel (depth + 1)) (graphGet (g t).entries) GraphValue.scalar?
          (g t).rawlen (g t).entries
      | .unsupported type => .error (.unsupported type)

/-! ### The order of the calls -/

/-- The values that are packed for a table. -/
def elements (t : GraphTable ι) : List (GraphValue ι) :=
  let arraySize := toInt t.rawlen
  (List.range' 1 arraySize.toNat).map (graphGet t.entries) ++
    t.entries.flatMap fun e => if inArray arraySize e.1.scalar? then [] else [e.1, e.2]

/-- The values that are packed for a value. -/
def children (g : LuaGraph ι) : GraphValue ι → List (GraphValue ι)
  | .table t => elements (g t)
  | _ => []

/-- The type of a value that is not packed. -/
def refused : GraphValue ι → Option UnsupportedType
  | .unsupported type => some type
  | _ => none

/-- One value after the other. -/
def packAll (pack : Packer (GraphValue ι) GraphError) :
    List (GraphValue ι) → WriteBlock → Except GraphError WriteBlock
  | [], wb => .ok wb
  | v :: vs, wb => (pack v wb).bind fun wb => packAll pack vs wb

variable {g : LuaGraph ι} {pack : Packer (GraphValue ι) GraphError} {t : GraphTable ι}
  {v : GraphValue ι}
  {wb : WriteBlock} {fuel fuel' depth left : ℕ}

theorem packAll_append (vs vs' : List (GraphValue ι)) (wb : WriteBlock) :
    packAll pack (vs ++ vs') wb = (packAll pack vs wb).bind (packAll pack vs') := by
  induction vs generalizing wb with
  | nil => rfl
  | cons v vs ih =>
    rw [cons_append, packAll, packAll]
    cases pack v wb with
    | error e => rfl
    | ok wb => exact ih wb

theorem wbArrayLoop_eq (es : List (GraphValue ι × GraphValue ι)) (n i : ℕ) (wb : WriteBlock) :
    wbArrayLoop pack (graphGet es) n i wb =
      packAll pack ((List.range' i n).map (graphGet es)) wb := by
  induction n generalizing i wb with
  | zero => rfl
  | succ n ih =>
    rw [wbArrayLoop, range'_succ, map_cons, packAll]
    exact congrArg _ (funext (ih (i + 1)))

theorem wbHashLoop_eq (arraySize : ℤ) (es : List (GraphValue ι × GraphValue ι)) (wb : WriteBlock) :
    wbHashLoop pack GraphValue.scalar? arraySize es wb = packAll pack
      (es.flatMap fun e => if inArray arraySize e.1.scalar? then [] else [e.1, e.2]) wb := by
  induction es generalizing wb with
  | nil => rfl
  | cons e es ih =>
    obtain ⟨k, v⟩ := e
    rw [wbHashLoop, flatMap_cons, packAll_append]
    split_ifs
    · exact ih wb
    · rw [packAll]
      cases pack k wb with
      | error e => rfl
      | ok wb =>
        change (pack v wb).bind _ = ((pack v wb).bind _).bind _
        cases pack v wb with
        | error e => rfl
        | ok wb => exact ih wb

theorem wbTable_eq (pack : Packer (GraphValue ι) GraphError) (t : GraphTable ι) (wb : WriteBlock) :
    wbTable wb pack (graphGet t.entries) GraphValue.scalar? t.rawlen t.entries =
      (packAll pack (elements t) (wbArrayHeader wb (toInt t.rawlen))).map wbNil := by
  rw [wbTable, wbTableArray, elements, packAll_append, wbArrayLoop_eq]
  cases packAll pack _ (wbArrayHeader wb (toInt t.rawlen)) with
  | error e => rfl
  | ok wb => exact congrArg (Except.map wbNil) (wbHashLoop_eq ..)

/-! ### The traversal -/

/-- The errors of a traversal. -/
def stopError : Stop UnsupportedType → GraphError
  | .deep => .tooDeep
  | .bad type => .unsupported type

/-- The result without what is written. -/
def outcome (r : Except GraphError WriteBlock) : Except GraphError Unit := r.map fun _ => ()

theorem outcome_packAll {f : GraphValue ι → Except (Stop UnsupportedType) Unit}
    (hpack : ∀ v wb, outcome (pack v wb) = (f v).mapError stopError) (vs : List (GraphValue ι))
    (wb : WriteBlock) : outcome (packAll pack vs wb) = (vs.forM f).mapError stopError := by
  induction vs generalizing wb with
  | nil => rfl
  | cons v vs ih =>
    rw [packAll, forM_cons]
    have hv := hpack v wb
    cases hresult : pack v wb with
    | error e =>
      rw [hresult] at hv
      cases hf : f v with
      | error e' =>
        rw [hf] at hv
        exact hv
      | ok u =>
        rw [hf] at hv
        cases hv
    | ok wb' =>
      rw [hresult] at hv
      cases hf : f v with
      | error e' =>
        rw [hf] at hv
        cases hv
      | ok u => exact ih wb'

/-- The writer is a traversal with so many levels as are left up to `MAX_DEPTH`. -/
theorem packOne_eq_visit (hdepth : left + depth = maxDepth + 1) (hfuel : left < fuel)
    (v : GraphValue ι) (wb : WriteBlock) :
    outcome (g.packOne fuel depth v wb) = (visit g.children refused left v).mapError stopError := by
  induction left generalizing fuel depth v wb with
  | zero =>
    obtain ⟨fuel, rfl⟩ : ∃ n, fuel = n + 1 := ⟨fuel - 1, by omega⟩
    rw [packOne]
    dsimp only
    rw [if_pos (by omega)]
    rfl
  | succ left ih =>
    obtain ⟨fuel, rfl⟩ : ∃ n, fuel = n + 1 := ⟨fuel - 1, by omega⟩
    rw [packOne, visit]
    dsimp only
    rw [if_neg (by omega)]
    cases v with
    | nil => rfl
    | scalar s => rfl
    | unsupported type => rfl
    | table t =>
      have hdepth' : left + (depth + 1) = maxDepth + 1 := by omega
      have hall := outcome_packAll (ih hdepth' (lt_of_succ_lt_succ hfuel)) (elements (g t))
        (wbArrayHeader wb (toInt (g t).rawlen))
      dsimp only [refused]
      rw [wbTable_eq]
      change _ = Except.mapError stopError ((elements (g t)).forM (visit g.children refused left))
      rw [← hall]
      cases packAll _ _ _ <;> rfl

theorem packOne_fuel (hdepth : left + depth = maxDepth + 1) (hfuel : left < fuel)
    (hfuel' : left < fuel') : g.packOne fuel depth = g.packOne fuel' depth := by
  induction left generalizing fuel fuel' depth with
  | zero =>
    obtain ⟨fuel, rfl⟩ : ∃ n, fuel = n + 1 := ⟨fuel - 1, by omega⟩
    obtain ⟨fuel', rfl⟩ : ∃ n, fuel' = n + 1 := ⟨fuel' - 1, by omega⟩
    funext v wb
    rw [packOne, packOne]
    dsimp only
    rw [if_pos (by omega), if_pos (by omega)]
  | succ left ih =>
    obtain ⟨fuel, rfl⟩ : ∃ n, fuel = n + 1 := ⟨fuel - 1, by omega⟩
    obtain ⟨fuel', rfl⟩ : ∃ n, fuel' = n + 1 := ⟨fuel' - 1, by omega⟩
    have hdepth' : left + (depth + 1) = maxDepth + 1 := by omega
    rw [packOne, packOne, ih hdepth' (lt_of_succ_lt_succ hfuel) (lt_of_succ_lt_succ hfuel')]

/-! ### Chains of tables -/

/-- A table has the other one as a key or a value. -/
def Child (g : LuaGraph ι) (t u : ι) : Prop := ∃ e ∈ (g t).entries, e.1 = .table u ∨ e.2 = .table u

theorem find?_of_mem {es : List (GraphValue ι × GraphValue ι)} (hnodup : (es.map (·.1)).Nodup)
    {k : LuaScalar} {v : GraphValue ι} (hmem : (.scalar k, v) ∈ es) :
    es.find? (fun e => e.1.isKey k) = some (.scalar k, v) := by
  induction es with
  | nil => cases hmem
  | cons e es ih =>
    obtain ⟨hnot, hnodup⟩ := nodup_cons.mp hnodup
    rw [find?_cons]
    rcases mem_cons.mp hmem with rfl | hmem
    · simp [GraphValue.isKey]
    · have hkey : e.1.isKey k = false := by
        cases hkey : e.1 with
        | scalar s =>
          have hne : s ≠ k := by
            rintro rfl
            exact hnot (mem_map.mpr ⟨_, hmem, hkey.symm⟩)
          simp [GraphValue.isKey, hne]
        | _ => rfl
      rw [hkey]
      exact ih hnodup hmem

/-- The key and the value of an entry are packed, but for a key that is an index of the array. -/
theorem mem_elements {e : GraphValue ι × GraphValue ι} (he : e ∈ t.entries) :
    e.2 ∈ elements t ∧ (inArray (toInt t.rawlen) e.1.scalar? = false → e.1 ∈ elements t) := by
  rw [elements]
  cases hindex : inArray (toInt t.rawlen) e.1.scalar? with
  | false =>
    have hhash : ∀ x ∈ [e.1, e.2], x ∈ t.entries.flatMap fun e =>
        if inArray (toInt t.rawlen) e.1.scalar? then [] else [e.1, e.2] := fun x hx =>
      mem_flatMap.mpr ⟨e, he, by rw [hindex]; exact hx⟩
    exact ⟨mem_append_right _ (hhash _ (by simp)), fun _ => mem_append_right _ (hhash _ (by simp))⟩
  | true =>
    refine ⟨mem_append_left _ ?_, fun h => by cases h⟩
    obtain ⟨k, v⟩ := e
    cases k with
    | scalar s =>
      cases s with
      | integer x =>
        obtain ⟨hpos, hle⟩ : 0 < x.toInt ∧ x.toInt ≤ toInt t.rawlen := by
          simpa [inArray, GraphValue.scalar?] using hindex
        have hx : Int64.ofNat x.toInt.toNat = x := by
          rw [← Int64.ofInt_eq_ofNat, Int.toNat_of_nonneg hpos.le, Int64.ofInt_toInt]
        refine mem_map.mpr ⟨x.toInt.toNat, ?_, ?_⟩
        · rw [mem_range'_1]
          omega
        · rw [graphGet, hx, find?_of_mem t.nodup he]
          rfl
      | _ => cases hindex
    | _ => cases hindex

theorem exists_element (he : t.entries ≠ []) : elements t ≠ [] := by
  obtain ⟨e, he⟩ := exists_mem_of_ne_nil _ he
  exact ne_nil_of_mem (mem_elements he).1

theorem entries_ne_nil (hx : v ∈ elements t) : t.entries ≠ [] := by
  intro hnil
  have hrawlen : t.rawlen = 0 := by
    rcases t.border with hzero | hsome
    · exact hzero
    · rw [hnil] at hsome
      cases hsome
  rw [elements, hnil, hrawlen] at hx
  cases hx

theorem vertexAt_child {u : ι} {s : ι} (h : g.Child s u) :
    ∃ i, vertexAt g.children (.table s) [i] = some (.table u) := by
  obtain ⟨e, he, hkey | hvalue⟩ := h
  · have hmem := (mem_elements he).2 (by rw [hkey]; rfl)
    obtain ⟨i, hi⟩ := getElem?_of_mem hmem
    exact ⟨i, vertexAt_cons.mpr ⟨e.1, hi, by rw [hkey]; rfl⟩⟩
  · obtain ⟨i, hi⟩ := getElem?_of_mem (mem_elements he).1
    exact ⟨i, vertexAt_cons.mpr ⟨e.2, hi, by rw [hvalue]; rfl⟩⟩

theorem vertexAt_of_transGen {s u : ι} (h : Relation.TransGen g.Child s u) :
    ∃ p, p ≠ [] ∧ vertexAt g.children (.table s) p = some (.table u) := by
  induction h with
  | single h =>
    obtain ⟨i, hi⟩ := vertexAt_child h
    exact ⟨[i], cons_ne_nil i [], hi⟩
  | tail _ h ih =>
    obtain ⟨p, hne, hp⟩ := ih
    obtain ⟨i, hi⟩ := vertexAt_child h
    refine ⟨p ++ [i], append_ne_nil_of_left_ne_nil hne _, ?_⟩
    rw [vertexAt_append hp]
    exact hi

theorem vertexAt_of_reflTransGen {s u : ι} (h : Relation.ReflTransGen g.Child s u) :
    ∃ p, vertexAt g.children (.table s) p = some (.table u) := by
  rcases Relation.reflTransGen_iff_eq_or_transGen.mp h with rfl | h
  · exact ⟨[], rfl⟩
  · obtain ⟨p, -, hp⟩ := vertexAt_of_transGen h
    exact ⟨p, hp⟩

/-! ### The writer returns -/

theorem outcome_eq_error_iff {r : Except GraphError WriteBlock} {e : GraphError} :
    outcome r = .error e ↔ r = .error e := by
  cases r with
  | error e' =>
    constructor
    · intro h
      rw [Except.error.inj h]
    · intro h
      rw [Except.error.inj h]
      rfl
  | ok wb => exact iff_of_false (fun h => by cases h) (fun h => by cases h)

theorem packOne_outcome (v : GraphValue ι) (wb : WriteBlock) :
    outcome (g.packOne (maxDepth + 2) 0 v wb) =
      (visit g.children refused (maxDepth + 1) v).mapError stopError := by
  have hdepth : maxDepth + 1 + 0 = maxDepth + 1 := Nat.add_zero _
  have hfuel : maxDepth + 1 < maxDepth + 2 := by omega
  exact packOne_eq_visit hdepth hfuel v wb

theorem packOne_eq_tooDeep_iff : g.packOne (maxDepth + 2) 0 v wb = .error .tooDeep ↔
      visit g.children refused (maxDepth + 1) v = .error .deep := by
  rw [← outcome_eq_error_iff, packOne_outcome]
  cases visit g.children refused (maxDepth + 1) v with
  | ok u => exact iff_of_false (fun h => by cases h) (fun h => by cases h)
  | error e =>
    cases e with
    | deep => exact iff_of_true rfl rfl
    | bad type => exact iff_of_false (fun h => by cases h) (fun h => by cases h)

theorem packOne_ne_outOfFuel : g.packOne (maxDepth + 2) 0 v wb ≠ .error .outOfFuel := by
  intro h
  rw [← outcome_eq_error_iff, packOne_outcome] at h
  cases hvisit : visit g.children refused (maxDepth + 1) v with
  | ok u =>
    rw [hvisit] at h
    cases h
  | error e =>
    rw [hvisit] at h
    cases e with
    | deep => cases h
    | bad type => cases h

theorem refused_eq_none_iff {x : GraphValue ι} :
    refused x = none ↔ ∀ type, x ≠ .unsupported type := by
  cases x with
  | unsupported type =>
    exact iff_of_false (fun h => by cases h) (fun h => h type rfl)
  | nil => exact iff_of_true rfl (fun _ h => by cases h)
  | scalar s => exact iff_of_true rfl (fun _ h => by cases h)
  | table t => exact iff_of_true rfl (fun _ h => by cases h)

/-- An element lies behind more than 32 tables, and no value before it is of a type that is not
packed. -/
def TooDeep (g : LuaGraph ι) (v : GraphValue ι) : Prop :=
  ∃ p t e, vertexAt g.children v p = some (.table t) ∧ e ∈ (g t).entries ∧ maxDepth < p.length + 1 ∧
    ∀ q ≤ p, ∀ type, vertexAt g.children v q ≠ some (.unsupported type)

theorem visit_eq_deep_iff_tooDeep :
    visit g.children refused (maxDepth + 1) v = .error .deep ↔ g.TooDeep v := by
  rw [visit_succ_eq_deep_iff]
  constructor
  · rintro ⟨p, x, hp, hne, hlength, hbefore⟩
    cases x with
    | table t =>
      obtain ⟨y, hy⟩ := exists_mem_of_ne_nil _ hne
      obtain ⟨e, he⟩ := exists_mem_of_ne_nil _ (entries_ne_nil hy)
      refine ⟨p, t, e, hp, he, by omega, fun q hq type h => ?_⟩
      exact refused_eq_none_iff.mp (hbefore q hq _ h) type rfl
    | _ => exact absurd rfl hne
  · rintro ⟨p, t, e, hp, he, hlength, hbefore⟩
    refine ⟨p, .table t, hp, exists_element (ne_nil_of_mem he), by omega, ?_⟩
    intro q hq y hy
    apply refused_eq_none_iff.mpr
    rintro type rfl
    exact hbefore q hq type hy

theorem visit_cyclic {s u : ι} (hreach : Relation.ReflTransGen g.Child s u)
    (hcycle : Relation.TransGen g.Child u u) :
    visit g.children refused left (.table s) ≠ .ok () := by
  obtain ⟨p, hp⟩ := vertexAt_of_reflTransGen hreach
  obtain ⟨q, hne, hq⟩ := vertexAt_of_transGen hcycle
  exact visit_ne_ok_of_cycle hp hq hne

/-- `pack_one` returns for all tables, with the depth error exactly where an element lies too deep,
and it returns an error for all tables from which a cycle is reached: the depth error, or the one
for a value that it meets and does not pack. -/
theorem packOne_terminates (g : LuaGraph ι) (v : GraphValue ι) (wb : WriteBlock) :
    ∃ r, r ≠ .error .outOfFuel ∧ (∀ fuel, maxDepth + 2 ≤ fuel → g.packOne fuel 0 v wb = r) ∧
      (r = .error .tooDeep ↔ g.TooDeep v) ∧
      ∀ s u, v = .table s → Relation.ReflTransGen g.Child s u → Relation.TransGen g.Child u u →
        r = .error .tooDeep ∨ ∃ p type, vertexAt g.children v p = some (.unsupported type) ∧
            r = .error (.unsupported type) := by
  refine ⟨g.packOne (maxDepth + 2) 0 v wb, packOne_ne_outOfFuel, ?_, ?_, ?_⟩
  · intro fuel hfuel
    have hdepth : maxDepth + 1 + 0 = maxDepth + 1 := Nat.add_zero _
    have hleft : maxDepth + 1 < maxDepth + 2 := by omega
    rw [packOne_fuel hdepth (lt_of_lt_of_le hleft hfuel) hleft]
  · exact packOne_eq_tooDeep_iff.trans visit_eq_deep_iff_tooDeep
  · rintro s u rfl hreach hcycle
    cases hvisit : visit g.children refused (maxDepth + 1) (.table s) with
    | ok u => exact absurd hvisit (visit_cyclic hreach hcycle)
    | error e =>
      cases e with
      | deep => exact .inl (packOne_eq_tooDeep_iff.mpr hvisit)
      | bad type =>
        obtain ⟨p, x, hp, hx⟩ := exists_of_visit_eq_bad hvisit
        obtain rfl : x = .unsupported type := by
          cases x with
          | unsupported type' => exact congrArg _ (Option.some_inj.mp hx)
          | nil => cases hx
          | scalar s => cases hx
          | table t => cases hx
        refine .inr ⟨p, type, hp, ?_⟩
        rw [← outcome_eq_error_iff, packOne_outcome, hvisit]
        rfl

end LuaGraph

end Uboss.Lib
