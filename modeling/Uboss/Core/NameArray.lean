import Uboss.Core.HandleRegistry
import Uboss.Core.NameTable
import Uboss.Math.CInt

/-!
# The arrays of the name table

`struct handle_storage` keeps its names in an array, and its functions move the entries of that
array in loops. Here they are written with the cells of the array: a cell that is read has to be one
of the first `name_count`, a cell that is written has to lie in the array, and no `int` overflows.
The slots are as in `HandleStorage`.
-/

namespace Uboss.Core

open Math Function List Option Except

/-- Why a function has no result: an `int` overflows, the assertion on `name_cap` fails, a cell
outside of the array is written, a cell not in use is read, or the search does not end. -/
inductive NameFault
  | overflow
  | limit
  | outside
  | unused
  | endless
  deriving DecidableEq, Repr

/-- A block of entries. -/
abbrev NameCells := ℕ → Option HandleName

/-- `struct handle_storage`. -/
structure HandleArrays where
  harbor : ℕ
  handleIndex : ℕ
  slotSize : ℕ
  slot : ℕ → Option CtxId
  nameCap : ℕ
  nameCount : ℕ
  name : NameCells

/-- `uboss_handle_init`. -/
def HandleArrays.init (harbor : ℕ) : HandleArrays where
  harbor := (harbor &&& 0xff) <<< handleRemoteShift
  handleIndex := 1
  slotSize := defaultSlotSize
  slot _ := none
  nameCap := 2
  nameCount := 0
  name _ := none

section Cells

/-- `name[i]`, read while `count` cells are in use. -/
def loadName (name : NameCells) (count i : ℕ) : Except NameFault HandleName :=
  if i < count then
    match name i with
    | some n => .ok n
    | none => .error .unused
  else .error .unused

/-- `name[i] = n` in a block of `cap` cells. -/
def storeName (cap : ℕ) (name : NameCells) (i : ℕ) (n : HandleName) : Except NameFault NameCells :=
  if i < cap then .ok (Function.update name i (some n)) else .error .outside

/-- `for (i=name_count;i>before;i--)`, from `i` on. -/
def shiftNames (cap count before : ℕ) : ℕ → NameCells → Except NameFault NameCells
  | 0, name => .ok name
  | i + 1, name =>
    if before < i + 1 then
      (loadName name count i).bind fun n =>
      (storeName cap name (i + 1) n).bind fun name => shiftNames cap count before i name
    else .ok name

/-- The two loops that copy the entries into a new block, with a gap. -/
def copyNames (cap count before : ℕ) (name : NameCells) : Except NameFault NameCells :=
  ((List.range before).foldlM (fun new i =>
    (loadName name count i).bind fun n => storeName cap new i n) fun _ => none).bind fun new =>
  (List.range (count - before)).foldlM (fun new i =>
    (loadName name count (before + i)).bind fun n => storeName cap new (before + i + 1) n) new

/-- A round of the loop of `uboss_handle_retire`, with its variable `j`. -/
def compactName (cap count handle : ℕ) (x : NameCells × ℕ) (i : ℕ) :
    Except NameFault (NameCells × ℕ) :=
  (loadName x.1 count i).bind fun n =>
    if n.handle = handle then .ok x
    else if i ≠ x.2 then (storeName cap x.1 x.2 n).map fun name => (name, x.2 + 1)
    else .ok (x.1, x.2 + 1)

end Cells

namespace HandleArrays

variable (m : HandleArrays)

/-- The loop of `uboss_handle_findname` and `_insert_name`. The variable `end` is `stop - 1`. -/
def searchLoop (name : List UInt8) : ℕ → ℕ → ℕ → Except NameFault NameSearch
  | 0, _, _ => .error .endless
  | fuel + 1, first, stop =>
    if first < stop then
      (checkInt .overflow (first + (stop - 1))).bind fun sum =>
      (loadName m.name m.nameCount (sum.toNat / 2)).bind fun n =>
      match compare n.name name with
      | .eq => .ok (.found n)
      | .lt => searchLoop name fuel (sum.toNat / 2 + 1) stop
      | .gt => searchLoop name fuel first (sum.toNat / 2)
    else .ok (.missing first)

/-- The search in the whole array. Each round makes the range smaller. -/
def searchName (name : List UInt8) : Except NameFault NameSearch :=
  m.searchLoop name (m.nameCount + 1) 0 m.nameCount

def ubossHandleFindname (name : List UInt8) : Except NameFault ℕ := (m.searchName name).map fun
    | .found n => n.handle
    | .missing _ => 0

def insertNameBefore (name : List UInt8) (handle before : ℕ) : Except NameFault HandleArrays :=
  (if m.nameCap ≤ m.nameCount then
    (checkInt .overflow (m.nameCap * 2)).bind fun cap =>
    if maxSlotSize < cap.toNat then .error .limit
    else (copyNames cap.toNat m.nameCount before m.name).map fun cells => (cap.toNat, cells)
  else (shiftNames m.nameCap m.nameCount before m.nameCount m.name).map fun cells =>
    (m.nameCap, cells)).bind fun x =>
  (storeName x.1 x.2 before ⟨name, handle⟩).map fun cells =>
    { m with nameCap := x.1, nameCount := m.nameCount + 1, name := cells }

def ubossHandleNamehandle (handle : ℕ) (name : List UInt8) :
    Except NameFault (Option (List UInt8) × HandleArrays) :=
  (m.searchName name).bind fun
    | .found _ => .ok (none, m)
    | .missing before => (m.insertNameBefore name handle before).map fun m' => (some name, m')

/-- The loop of `uboss_handle_retire` over the names. -/
def compact (handle : ℕ) : Except NameFault (NameCells × ℕ) :=
  (List.range m.nameCount).foldlM (compactName m.nameCap m.nameCount handle) (m.name, 0)

/-- The locked section of `uboss_handle_retire`. -/
def ubossHandleRetire (handleOf : CtxId → ℕ) (handle : ℕ) :
    Except NameFault (Option CtxId × HandleArrays) :=
  match m.slot (handle &&& (m.slotSize - 1)) with
  | none => .ok (none, m)
  | some c =>
    if handleOf c = handle then
      (m.compact handle).map fun x => (some c, { m with
        slot := Function.update m.slot (handle &&& (m.slotSize - 1)) none
        name := x.1
        nameCount := x.2 })
    else .ok (none, m)

/-- The entries in use. -/
def names : List HandleName := (List.range m.nameCount).filterMap m.name

/-- The storage with its names as a list. -/
def storage : HandleStorage where
  harbor := m.harbor
  handleIndex := m.handleIndex
  slotSize := m.slotSize
  slot := m.slot
  nameCap := m.nameCap
  name := m.names

/-- `uboss_handle_register`, which leaves the names alone. -/
def ubossHandleRegister (handleOf : CtxId → ℕ) (ctx : CtxId) :
    Except HandleFault (ℕ × HandleArrays) :=
  (Core.ubossHandleRegister handleOf m.storage ctx).map fun x => (x.1, { m with
    handleIndex := x.2.handleIndex
    slotSize := x.2.slotSize
    slot := x.2.slot })

end HandleArrays

/-! ### Cells as lists -/

/-- The first cells of a block are the list `L`. -/
def CellsOf (name : NameCells) (L : List HandleName) : Prop := ∀ i < L.length, name i = L[i]?

variable {m m' : HandleArrays} {L : List HandleName} {name : List UInt8} {cells : NameCells}
  {n : HandleName} {cap before handle i : ℕ}

theorem loadName_ok {count : ℕ} (hi : i < count) (hcell : cells i = some n) :
    loadName cells count i = .ok n := by
  rw [loadName, if_pos hi, hcell]

theorem CellsOf.load (h : CellsOf cells L) (hn : L[i]? = some n) :
    loadName cells L.length i = .ok n := by
  have hi := (List.getElem?_eq_some_iff.mp hn).1
  exact loadName_ok hi ((h i hi).trans hn)

theorem storeName_ok (hi : i < cap) : storeName cap cells i n = .ok (update cells i (some n)) :=
  if_pos hi

theorem exists_entry (hi : i < L.length) : ∃ n, L[i]? = some n := ⟨_, getElem?_eq_getElem hi⟩

theorem CellsOf.filterMap (h : CellsOf cells L) : (List.range L.length).filterMap cells = L := by
  induction L using List.reverseRecOn with
  | nil => rfl
  | append_singleton L n ih =>
    have hfront : CellsOf cells L := fun i hi => by
      rw [h i (by rw [length_append]; omega), getElem?_append_left hi]
    have hlast : cells L.length = some n := by
      rw [h L.length (by simp), getElem?_concat_length]
    rw [length_append, length_singleton, range_succ, filterMap_append, ih hfront]
    simp [hlast]

theorem getElem?_insert (hle : before ≤ L.length) (n : HandleName) (i : ℕ) :
    (L.take before ++ n :: L.drop before)[i]? =
      if i < before then L[i]? else if i = before then some n else L[i - 1]? := by
  have hlength : (L.take before).length = before := by rw [length_take]; omega
  split_ifs with hlt heq
  · rw [getElem?_append_left (by omega), getElem?_take_of_lt hlt]
  · subst heq
    rw [getElem?_append_right (by omega), hlength, Nat.sub_self]
    rfl
  · rw [getElem?_append_right (by omega), hlength,
      show i - before = (i - 1 - before) + 1 by omega, getElem?_cons_succ,
      getElem?_drop]
    congr 1
    omega

theorem shiftNames_cells (hcap : L.length < cap) (hbefore : before ≤ L.length)
    (hi : before ≤ i) (hlow : ∀ j < i, cells j = L[j]?)
    (hhigh : ∀ j, i < j → j ≤ L.length → cells j = L[j - 1]?) (hle : i ≤ L.length) :
    ∃ cells', shiftNames cap L.length before i cells = .ok cells' ∧
      (∀ j < before, cells' j = L[j]?) ∧
      ∀ j, before < j → j ≤ L.length → cells' j = L[j - 1]? := by
  induction i generalizing cells with
  | zero =>
    exact ⟨cells, rfl, fun j hj => hlow j (by omega), fun j hj => hhigh j (by omega)⟩
  | succ i ih =>
    rw [shiftNames]
    split_ifs with hlt
    · obtain ⟨n, hn⟩ := exists_entry (L := L) (i := i) (by omega)
      have hload : loadName cells L.length i = .ok n :=
        loadName_ok (by omega) ((hlow i (by omega)).trans hn)
      rw [hload, Except.bind, storeName_ok (by omega), Except.bind]
      refine ih (by omega) (fun j hj => ?_) (fun j hj hjle => ?_) (by omega)
      · rw [update_of_ne (by omega)]
        exact hlow j (by omega)
      · by_cases hji : j = i + 1
        · subst hji
          rw [update_self, ← hn]
          rfl
        · rw [update_of_ne hji]
          exact hhigh j (by omega) hjle
    · obtain rfl : before = i + 1 := by omega
      exact ⟨cells, rfl, hlow, hhigh⟩

theorem copyNames_cells (h : CellsOf cells L) (hcap : L.length < cap)
    (hbefore : before ≤ L.length) :
    ∃ cells', copyNames cap L.length before cells = .ok cells' ∧ (∀ j < before, cells' j = L[j]?) ∧
      ∀ j, before < j → j ≤ L.length → cells' j = L[j - 1]? := by
  obtain ⟨front, hfront, hcopied⟩ : ∃ front, (List.range before).foldlM (fun new i =>
      (loadName cells L.length i).bind fun n => storeName cap new i n) (fun _ => none) =
        .ok front ∧ ∀ j < before, front j = L[j]? := by
    refine foldlM_range_ok (P := fun i (new : NameCells) => ∀ j < i, new j = L[j]?)
      (fun j hj => absurd hj (Nat.not_lt_zero j)) fun i hi new hnew => ?_
    obtain ⟨n, hn⟩ := exists_entry (L := L) (i := i) (by omega)
    refine ⟨update new i (some n), ?_, fun j hj => ?_⟩
    · rw [h.load hn, Except.bind, storeName_ok (by omega)]
    · by_cases hji : j = i
      · rw [hji, update_self, hn]
      · rw [update_of_ne hji]
        exact hnew j (by omega)
  obtain ⟨cells', hback, hlow, hhigh⟩ : ∃ cells', (List.range (L.length - before)).foldlM
      (fun new i => (loadName cells L.length (before + i)).bind fun n =>
        storeName cap new (before + i + 1) n) front = .ok cells' ∧
        (∀ j < before, cells' j = L[j]?) ∧
        ∀ j, before < j → j ≤ before + (L.length - before) → cells' j = L[j - 1]? := by
    refine foldlM_range_ok (P := fun i (new : NameCells) => (∀ j < before, new j = L[j]?) ∧
      ∀ j, before < j → j ≤ before + i → new j = L[j - 1]?)
      ⟨hcopied, fun j hj hj' => absurd hj (by omega)⟩ fun i hi new hnew => ?_
    obtain ⟨n, hn⟩ := exists_entry (L := L) (i := before + i) (by omega)
    refine ⟨update new (before + i + 1) (some n), ?_, fun j hj => ?_, fun j hj hj' => ?_⟩
    · rw [h.load hn, Except.bind, storeName_ok (by omega)]
    · rw [update_of_ne (by omega)]
      exact hnew.1 j hj
    · by_cases hji : j = before + i + 1
      · subst hji
        rw [update_self, ← hn]
        rfl
      · rw [update_of_ne hji]
        exact hnew.2 j hj (by omega)
  refine ⟨cells', ?_, hlow, fun j hj hj' => hhigh j hj (by omega)⟩
  rw [copyNames, hfront, Except.bind, hback]

/-- The compaction leaves the entries of the other handles. -/
theorem compact_cells (h : CellsOf cells L) (hcap : L.length ≤ cap) (handle : ℕ) :
    ∃ cells', (List.range L.length).foldlM (compactName cap L.length handle) (cells, 0) =
        .ok (cells', (retireNames handle L).length) ∧
      CellsOf cells' (retireNames handle L) := by
  -- after `i` rounds the first `j` cells are the entries left of the first `i`, and the cells from
  -- `i` on are as before
  obtain ⟨x, hloop, hlength, hkept, -⟩ : ∃ x, (List.range L.length).foldlM
      (compactName cap L.length handle) (cells, 0) = .ok x ∧
      x.2 = (retireNames handle (L.take L.length)).length ∧
      CellsOf x.1 (retireNames handle (L.take L.length)) ∧
      ∀ k, L.length ≤ k → k < L.length → x.1 k = L[k]? := by
    refine foldlM_range_ok (P := fun i (x : NameCells × ℕ) =>
      x.2 = (retireNames handle (L.take i)).length ∧ CellsOf x.1 (retireNames handle (L.take i)) ∧
        ∀ k, i ≤ k → k < L.length → x.1 k = L[k]?)
      ⟨rfl, fun j hj => absurd hj (Nat.not_lt_zero j), fun k _ hk => h k hk⟩ fun i hi x hx => ?_
    obtain ⟨hlength, hkept, hrest⟩ := hx
    obtain ⟨n, hn⟩ := exists_entry hi
    have hload : loadName x.1 L.length i = .ok n := loadName_ok hi ((hrest i le_rfl hi).trans hn)
    have htake : L.take (i + 1) = L.take i ++ [n] := by rw [take_add_one, hn]; rfl
    have hle : x.2 ≤ i := by
      rw [hlength, retireNames_eq]
      exact (length_filter_le ..).trans (by rw [length_take]; omega)
    rw [compactName, hload, Except.bind, htake, retireNames_eq, filter_append, ← retireNames_eq]
    by_cases hhandle : n.handle = handle
    · rw [if_pos hhandle]
      refine ⟨x, rfl, ?_⟩
      rw [filter_cons_of_neg (by simp [hhandle]), filter_nil, append_nil]
      exact ⟨hlength, hkept, fun k hk => hrest k (by omega)⟩
    · rw [if_neg hhandle, filter_cons_of_pos (by simp [hhandle]), filter_nil]
      -- the entry is kept, in the cell `j`
      have hresult : ∀ cells', cells' x.2 = some n → (∀ k, k ≠ x.2 → cells' k = x.1 k) →
          (cells', x.2 + 1).2 = (retireNames handle (L.take i) ++ [n]).length ∧
            CellsOf (cells', x.2 + 1).1 (retireNames handle (L.take i) ++ [n]) ∧
            ∀ k, i + 1 ≤ k → k < L.length → (cells', x.2 + 1).1 k = L[k]? := by
        intro cells' hself hother
        refine ⟨by simp [hlength], fun j hj => ?_, fun k hk hk' => ?_⟩
        · change cells' j = _
          rw [length_append, length_singleton, ← hlength] at hj
          by_cases hjx : j = x.2
          · rw [hjx, hself, hlength, getElem?_concat_length]
          · rw [hother j hjx, getElem?_append_left (by omega)]
            exact hkept j (by omega)
        · exact (hother k (by omega)).trans (hrest k (by omega) hk')
      split_ifs with hmoved
      · rw [storeName_ok (by omega)]
        exact ⟨_, rfl, hresult _ (update_self ..) fun k hk => update_of_ne hk ..⟩
      · obtain rfl : i = x.2 := by omega
        exact ⟨_, rfl, hresult x.1 ((hrest _ le_rfl hi).trans hn) fun k _ => rfl⟩
  rw [take_length] at hlength hkept
  exact ⟨x.1, by rw [hloop, ← hlength], hkept⟩

/-! ### The functions -/

namespace HandleArrays

/-- The array holds its names, within its capacity, which is a power of two. -/
structure WellFormed (m : HandleArrays) : Prop where
  count : m.names.length = m.nameCount
  cells : CellsOf m.name m.names
  count_le : m.nameCount ≤ m.nameCap
  cap : ∃ k, 1 ≤ k ∧ k ≤ 30 ∧ m.nameCap = 2 ^ k

theorem names_eq (hcells : CellsOf m.name L) (hcount : m.nameCount = L.length) : m.names = L := by
  rw [names, hcount, hcells.filterMap]

theorem WellFormed.of_cells (hcells : CellsOf m.name L) (hcount : m.nameCount = L.length)
    (hle : m.nameCount ≤ m.nameCap) (hcap : ∃ k, 1 ≤ k ∧ k ≤ 30 ∧ m.nameCap = 2 ^ k) :
    m.WellFormed ∧ m.names = L := by
  have hnames := names_eq hcells hcount
  exact ⟨⟨by rw [hnames, hcount], hnames ▸ hcells, hle, hcap⟩, hnames⟩

theorem wellFormed_init (harbor : ℕ) : (init harbor).WellFormed :=
  (WellFormed.of_cells (L := []) (fun i hi => absurd hi (Nat.not_lt_zero i)) rfl
    (Nat.zero_le _) ⟨1, le_rfl, by decide, rfl⟩).1

section

variable (hm : m.WellFormed)
include hm

theorem WellFormed.cap_le : m.nameCap ≤ 2 ^ 30 := by
  obtain ⟨k, -, hk, hcap⟩ := hm.cap
  rw [hcap]
  exact Nat.pow_le_pow_right Nat.two_pos hk

theorem searchLoop_eq {fuel first stop : ℕ} (hfuel : stop - first < fuel)
    (hstop : stop ≤ m.nameCount) :
    m.searchLoop name fuel first stop = .ok (Core.searchLoop m.names name fuel first stop) := by
  have hcap := hm.cap_le
  have hcount := hm.count_le
  induction fuel generalizing first stop with
  | zero => omega
  | succ fuel ih =>
    rw [searchLoop, Core.searchLoop]
    split_ifs with hlt
    · obtain ⟨n, hn⟩ := exists_entry (L := m.names) (i := (first + (stop - 1)) / 2)
        (by rw [hm.count]; omega)
      have hload := hm.cells.load hn
      rw [hm.count] at hload
      have hsum : checkInt NameFault.overflow (first + (stop - 1)) =
          .ok ((first + (stop - 1) : ℕ) : ℤ) := by
        rw [checkInt_ok (by omega) (by omega)]
        congr 1
        omega
      rw [hsum, Except.bind, Int.toNat_natCast, hload, Except.bind]
      dsimp only
      rw [hn]
      dsimp only
      cases compare n.name name with
      | eq => rfl
      | lt => exact ih (by omega) hstop
      | gt => exact ih (by omega) (by omega)
    · rfl

theorem searchName_eq (name : List UInt8) :
    m.searchName name = .ok (m.storage.searchName name) := by
  rw [searchName, searchLoop_eq hm (by omega) le_rfl, HandleStorage.searchName]
  change _ = ok (Core.searchLoop m.names name (m.names.length + 1) 0 m.names.length)
  rw [hm.count]

theorem findname_eq (name : List UInt8) :
    m.ubossHandleFindname name = .ok (Core.ubossHandleFindname m.storage name) := by
  rw [ubossHandleFindname, searchName_eq hm, Core.ubossHandleFindname]
  change ok _ = _
  split <;> simp_all

/-- An entry is put in its place, whether or not the array grows. -/
theorem insertNameBefore_cells (hroom : m.nameCount < 2 ^ 30) (hbefore : before ≤ m.nameCount)
    (name : List UInt8) (handle : ℕ) :
    ∃ m', m.insertNameBefore name handle before = .ok m' ∧ m'.WellFormed ∧
      m'.names = m.names.take before ++ ⟨name, handle⟩ :: m.names.drop before ∧
      m'.slot = m.slot ∧ m'.slotSize = m.slotSize := by
  have hcount := hm.count
  have hcap := hm.cap_le
  -- in either branch there is a gap at `before`, in an array that is large enough
  obtain ⟨cap, cells, hgap, hlow, hhigh, hlt, hpow⟩ : ∃ cap cells, (if m.nameCap ≤ m.nameCount then
        (checkInt NameFault.overflow (m.nameCap * 2)).bind fun cap =>
        if maxSlotSize < cap.toNat then .error .limit
        else (copyNames cap.toNat m.nameCount before m.name).map fun cells => (cap.toNat, cells)
      else (shiftNames m.nameCap m.nameCount before m.nameCount m.name).map fun cells =>
        (m.nameCap, cells)) = .ok (cap, cells) ∧
      (∀ j < before, cells j = m.names[j]?) ∧
      (∀ j, before < j → j ≤ m.names.length → cells j = m.names[j - 1]?) ∧
      m.nameCount < cap ∧ ∃ k, 1 ≤ k ∧ k ≤ 30 ∧ cap = 2 ^ k := by
    obtain ⟨k, hk, hk', hpow⟩ := hm.cap
    have hpos : 0 < m.nameCap := hpow ▸ Nat.two_pow_pos k
    by_cases hfull : m.nameCap ≤ m.nameCount
    · rw [if_pos hfull]
      have hgrown : m.nameCap * 2 = 2 ^ (k + 1) := by rw [hpow, pow_succ]
      have hlt : k < 30 := by
        by_contra hge
        rw [show k = 30 by omega] at hpow
        omega
      have hsmall : m.nameCap * 2 ≤ 2 ^ 30 := hgrown ▸ Nat.pow_le_pow_right Nat.two_pos hlt
      obtain ⟨cells, hcopy, hlow, hhigh⟩ := copyNames_cells hm.cells
        (show m.names.length < m.nameCap * 2 by have := hm.count_le; omega) (hcount ▸ hbefore)
      rw [hcount] at hcopy
      have hcheck : checkInt NameFault.overflow (m.nameCap * 2) =
          .ok ((m.nameCap * 2 : ℕ) : ℤ) := by
        rw [checkInt_ok (by omega) (by omega)]
        rfl
      refine ⟨m.nameCap * 2, cells, ?_, hlow, hhigh, by have := hm.count_le; omega, k + 1,
        by omega, hlt, hgrown⟩
      rw [hcheck, Except.bind, Int.toNat_natCast, if_neg (by rw [maxSlotSize]; omega), hcopy]
      rfl
    · rw [if_neg hfull]
      obtain ⟨cells, hshift, hlow, hhigh⟩ := shiftNames_cells (i := m.names.length)
        (show m.names.length < m.nameCap by omega) (hcount ▸ hbefore) (hcount ▸ hbefore) hm.cells
        (fun j hj hj' => absurd hj (by omega)) le_rfl
      rw [hcount] at hshift
      exact ⟨m.nameCap, cells, by rw [hshift]; rfl, hlow, hhigh, by omega, k, hk, hk', hpow⟩
  have hcells : CellsOf (update cells before (some ⟨name, handle⟩))
      (m.names.take before ++ ⟨name, handle⟩ :: m.names.drop before) := by
    intro i hi
    have hlength : i ≤ m.names.length := by
      rw [length_append, length_take, length_cons, length_drop] at hi
      omega
    rw [getElem?_insert (hcount ▸ hbefore)]
    split_ifs with hlt' heq
    · rw [update_of_ne (by omega)]
      exact hlow i hlt'
    · rw [heq, update_self]
    · rw [update_of_ne heq]
      exact hhigh i (by omega) hlength
  have hnames := WellFormed.of_cells (m := { m with
    nameCap := cap
    nameCount := m.nameCount + 1
    name := update cells before (some ⟨name, handle⟩) }) hcells
    (by rw [length_append, length_take, length_cons, length_drop]
        dsimp only
        omega) hlt hpow
  refine ⟨_, ?_, hnames.1, hnames.2, rfl, rfl⟩
  rw [insertNameBefore, hgap, Except.bind, storeName_ok (by omega)]
  rfl

variable (hs : SortedNames m.names)
include hs

theorem namehandle_bound {k : ℕ} (hbound : binding m.names name = some k) (handle : ℕ) :
    m.ubossHandleNamehandle handle name = .ok (none, m) := by
  have hsearch : m.storage.searchName name = .found ⟨name, k⟩ := searchName_of_bound hs hbound
  rw [ubossHandleNamehandle, searchName_eq hm, hsearch]
  rfl

theorem namehandle_free (hfree : binding m.names name = none) (hroom : m.nameCount < 2 ^ 30)
    (handle : ℕ) :
    ∃ m', m.ubossHandleNamehandle handle name = .ok (some name, m') ∧ m'.WellFormed ∧
      SortedNames m'.names ∧
      binding m'.names = update (binding m.names) name (some handle) ∧
      m'.nameCount = m.nameCount + 1 := by
  obtain ⟨before, hd, hsearch⟩ := searchName_of_free (s := m.storage) hs hfree
  have hle : before ≤ m.nameCount := hm.count ▸ hd.le_length
  obtain ⟨m', hinsert, hm', hnames, -⟩ := insertNameBefore_cells hm hroom hle name handle
  refine ⟨m', ?_, hm', ?_, ?_, ?_⟩
  · rw [ubossHandleNamehandle, searchName_eq hm, hsearch, Except.bind]
    dsimp only
    rw [hinsert]
    rfl
  · rw [hnames]
    exact hd.sorted_insert hs
  · rw [hnames]
    exact hd.binding_insert hs
  · have hcount := hm.count
    rw [← hm'.count, hnames, length_append, length_take, length_cons, length_drop]
    omega

theorem namehandle_full (hfree : binding m.names name = none) (hfull : m.nameCount = 2 ^ 30)
    (handle : ℕ) : m.ubossHandleNamehandle handle name = .error .overflow := by
  obtain ⟨before, -, hsearch⟩ := searchName_of_free (s := m.storage) hs hfree
  have hcap := hm.cap_le
  have hgrow : m.insertNameBefore name handle before = .error .overflow := by
    have hle := hm.count_le
    rw [insertNameBefore, if_pos (by omega), checkInt_error (by omega)]
    rfl
  rw [ubossHandleNamehandle, searchName_eq hm, hsearch, Except.bind]
  dsimp only
  rw [hgrow]
  rfl

end

/-- A context with this handle has a slot. -/
def Alive (m : HandleArrays) (handleOf : CtxId → ℕ) (handle : ℕ) : Prop :=
  ∃ c, m.slot (handle &&& (m.slotSize - 1)) = some c ∧ handleOf c = handle

theorem retire_alive (hm : m.WellFormed) (hs : SortedNames m.names) {handleOf : CtxId → ℕ}
    (halive : m.Alive handleOf handle) :
    ∃ c m', m.ubossHandleRetire handleOf handle = .ok (some c, m') ∧ m'.WellFormed ∧
      SortedNames m'.names ∧ ∀ name, binding m'.names name =
        if binding m.names name = some handle then none else binding m.names name := by
  obtain ⟨c, hslot, hhandle⟩ := halive
  have hcount := hm.count
  obtain ⟨cells, hloop, hcells⟩ := compact_cells hm.cells
    (show m.names.length ≤ m.nameCap from hcount ▸ hm.count_le) handle
  rw [hcount] at hloop
  have hshorter : (retireNames handle m.names).length ≤ m.nameCount := by
    rw [retireNames_eq, ← hcount]
    exact length_filter_le ..
  obtain ⟨hm', hnames⟩ := WellFormed.of_cells (m := { m with
    slot := update m.slot (handle &&& (m.slotSize - 1)) none
    name := cells
    nameCount := (retireNames handle m.names).length }) hcells rfl
    (hshorter.trans hm.count_le) hm.cap
  refine ⟨c, _, ?_, hm', ?_, fun name => ?_⟩
  · rw [ubossHandleRetire, hslot]
    dsimp only
    rw [if_pos hhandle, compact, hloop]
    rfl
  · rw [hnames]
    exact hs.retireNames handle
  · rw [hnames]
    exact binding_retireNames hs name

theorem retire_dead {handleOf : CtxId → ℕ} (hdead : ¬ m.Alive handleOf handle) :
    m.ubossHandleRetire handleOf handle = .ok (none, m) := by
  rw [ubossHandleRetire]
  cases hslot : m.slot (handle &&& (m.slotSize - 1)) with
  | none => rfl
  | some c => exact if_neg fun hhandle => hdead ⟨c, hslot, hhandle⟩

end HandleArrays

/-! ### Runs -/

/-- What happened to the names: a name was bound, or a live handle was retired. -/
inductive NameEvent
  | named (name : List UInt8) (handle : ℕ)
  | retired (handle : ℕ)
  deriving DecidableEq, Repr

/-- The calls. -/
inductive NameCall
  | register
  | namehandle (handle : ℕ) (name : List UInt8)
  | retire (handle : ℕ)
  deriving DecidableEq, Repr

/-- The storage, the fields `handle` of the contexts, the next context and the history. -/
structure NameRun where
  arrays : HandleArrays
  handleOf : CtxId → ℕ
  next : CtxId
  log : List NameEvent

namespace NameRun

/-- After `uboss_handle_init`. -/
def init (harbor : ℕ) : NameRun where
  arrays := .init harbor
  handleOf _ := 0
  next := 0
  log := []

/-- One call. A call that does not return has no successor. -/
def step (r : NameRun) : NameCall → Option NameRun
  | .register =>
    match r.arrays.ubossHandleRegister (Function.update r.handleOf r.next 0) r.next with
    | .ok (handle, arrays) => some { r with
        arrays := arrays
        handleOf := Function.update r.handleOf r.next handle
        next := r.next + 1 }
    | .error _ => none
  | .namehandle handle name =>
    match r.arrays.ubossHandleNamehandle handle name with
    | .ok (some name, arrays) =>
      some { r with arrays := arrays, log := r.log ++ [.named name handle] }
    | .ok (none, arrays) => some { r with arrays := arrays }
    | .error _ => none
  | .retire handle =>
    match r.arrays.ubossHandleRetire r.handleOf handle with
    | .ok (some _, arrays) =>
      some { r with arrays := arrays, log := r.log ++ [.retired handle] }
    | .ok (none, arrays) => some { r with arrays := arrays }
    | .error _ => none

/-- The name table as a finite map. -/
structure NameSpec (r : NameRun) : Prop where
  /-- The first `name_count` cells hold entries, within the array. -/
  cells : r.arrays.names.length = r.arrays.nameCount ∧ r.arrays.nameCount ≤ r.arrays.nameCap
  sorted : SortedNames r.arrays.names
  find : ∀ name, r.arrays.ubossHandleFindname name =
    .ok ((binding r.arrays.names name).getD 0)
  /-- A name that is bound stays so. -/
  bound : ∀ handle name, binding r.arrays.names name ≠ none →
    r.arrays.ubossHandleNamehandle handle name = .ok (none, r.arrays)
  /-- A name that is not bound is bound, and the other bindings stay. -/
  free : ∀ handle name, binding r.arrays.names name = none → r.arrays.nameCount < 2 ^ 30 →
    ∃ m, r.arrays.ubossHandleNamehandle handle name = .ok (some name, m) ∧
      binding m.names = Function.update (binding r.arrays.names) name (some handle)
  /-- There are at most `2 ^ 30` names. -/
  full : r.arrays.nameCount ≤ 2 ^ 30 ∧ (r.arrays.nameCount = 2 ^ 30 → ∀ handle name,
    binding r.arrays.names name = none →
      r.arrays.ubossHandleNamehandle handle name = .error .overflow)
  /-- Retiring a live handle forgets its names and no others. -/
  retire : ∀ handle, ∃ c m, r.arrays.ubossHandleRetire r.handleOf handle = .ok (c, m) ∧
    (c ≠ none ↔ r.arrays.Alive r.handleOf handle) ∧
    ∀ name, binding m.names name =
      if c ≠ none ∧ binding r.arrays.names name = some handle then none
      else binding r.arrays.names name
  /-- A name is bound to the handle it was bound to and that was not retired since. -/
  log : ∀ name handle, binding r.arrays.names name = some handle ↔
    OpenSince (.named name handle) (.retired handle) r.log

/-- The invariant of the calls. -/
structure Inv (r : NameRun) : Prop where
  wellFormed : r.arrays.WellFormed
  sorted : SortedNames r.arrays.names
  log : ∀ name handle, binding r.arrays.names name = some handle ↔
    OpenSince (.named name handle) (.retired handle) r.log

variable {r r' : NameRun} {call : NameCall} {name : List UInt8} {handle : ℕ}

theorem inv_init (harbor : ℕ) : (init harbor).Inv where
  wellFormed := HandleArrays.wellFormed_init harbor
  sorted := List.Pairwise.nil
  log name handle := by
    have hnone : binding (init harbor).arrays.names name = none := rfl
    rw [hnone]
    exact iff_of_false (fun h => by cases h) not_openSince_nil

theorem Inv.namehandle (hr : r.Inv) (hfree : binding r.arrays.names name = none)
    {m : HandleArrays} (hm : m.WellFormed) (hs : SortedNames m.names)
    (hbinding : binding m.names = update (binding r.arrays.names) name (some handle)) :
    Inv { r with arrays := m, log := r.log ++ [.named name handle] } where
  wellFormed := hm
  sorted := hs
  log other k := by
    rw [openSince_concat, ← hr.log, hbinding, NameEvent.named.injEq]
    by_cases hother : other = name
    · subst hother
      rw [update_self, hfree]
      simp
    · rw [update_of_ne hother]
      simp [Ne.symm hother]

theorem Inv.retire (hr : r.Inv) {m : HandleArrays} (hm : m.WellFormed) (hs : SortedNames m.names)
    (hbinding : ∀ name, binding m.names name =
      if binding r.arrays.names name = some handle then none else binding r.arrays.names name) :
    Inv { r with arrays := m, log := r.log ++ [.retired handle] } where
  wellFormed := hm
  sorted := hs
  log other k := by
    rw [openSince_concat, ← hr.log, hbinding]
    split_ifs with hbound
    · rw [hbound]
      simp +contextual
    · constructor
      · intro hk
        refine .inr ⟨hk, fun heq => hbound ?_⟩
        rw [hk, NameEvent.retired.inj heq]
      · rintro (heq | ⟨hk, -⟩)
        · cases heq
        · exact hk

theorem Inv.step (hr : r.Inv) (h : r.step call = some r') : r'.Inv := by
  cases call with
  | register =>
    rw [NameRun.step] at h
    split at h
    next handle arrays hregister =>
      obtain rfl := some_inj.mp h
      obtain ⟨x, -, hx⟩ := map_eq_ok_iff.mp hregister
      obtain ⟨rfl, rfl⟩ := Prod.mk.inj hx
      exact ⟨⟨hr.wellFormed.count, hr.wellFormed.cells, hr.wellFormed.count_le,
        hr.wellFormed.cap⟩, hr.sorted, hr.log⟩
    next => cases h
  | namehandle handle name =>
    rw [NameRun.step] at h
    cases hbound : binding r.arrays.names name with
    | some k =>
      rw [HandleArrays.namehandle_bound hr.wellFormed hr.sorted hbound] at h
      obtain rfl := some_inj.mp h
      exact hr
    | none =>
      by_cases hroom : r.arrays.nameCount < 2 ^ 30
      · obtain ⟨m, hok, hm, hs, hbinding, -⟩ :=
          HandleArrays.namehandle_free hr.wellFormed hr.sorted hbound hroom handle
        rw [hok] at h
        obtain rfl := some_inj.mp h
        exact hr.namehandle hbound hm hs hbinding
      · have hfull : r.arrays.nameCount = 2 ^ 30 := by
          have := hr.wellFormed.count_le
          have := hr.wellFormed.cap_le
          omega
        rw [HandleArrays.namehandle_full hr.wellFormed hr.sorted hbound hfull] at h
        cases h
  | retire handle =>
    rw [NameRun.step] at h
    by_cases halive : r.arrays.Alive r.handleOf handle
    · obtain ⟨c, m, hok, hm, hs, hbinding⟩ :=
        HandleArrays.retire_alive hr.wellFormed hr.sorted halive
      rw [hok] at h
      obtain rfl := some_inj.mp h
      exact hr.retire hm hs hbinding
    · rw [HandleArrays.retire_dead halive] at h
      obtain rfl := some_inj.mp h
      exact hr

theorem Inv.nameSpec (hr : r.Inv) : r.NameSpec where
  cells := ⟨hr.wellFormed.count, hr.wellFormed.count_le⟩
  sorted := hr.sorted
  find name := by
    rw [HandleArrays.findname_eq hr.wellFormed]
    exact congrArg ok (ubossHandleFindname_eq (s := r.arrays.storage) hr.sorted)
  bound handle name hbound := by
    obtain ⟨k, hk⟩ := ne_none_iff_exists'.mp hbound
    exact HandleArrays.namehandle_bound hr.wellFormed hr.sorted hk handle
  free handle name hfree hroom := by
    obtain ⟨m, hok, -, -, hbinding, -⟩ :=
      HandleArrays.namehandle_free hr.wellFormed hr.sorted hfree hroom handle
    exact ⟨m, hok, hbinding⟩
  full := ⟨hr.wellFormed.count_le.trans hr.wellFormed.cap_le, fun hfull handle _ hfree =>
    HandleArrays.namehandle_full hr.wellFormed hr.sorted hfree hfull handle⟩
  retire handle := by
    by_cases halive : r.arrays.Alive r.handleOf handle
    · obtain ⟨c, m, hok, -, -, hbinding⟩ := HandleArrays.retire_alive hr.wellFormed hr.sorted halive
      refine ⟨some c, m, hok, by simp [halive], fun name => ?_⟩
      rw [hbinding]
      simp
    · exact ⟨none, r.arrays, HandleArrays.retire_dead halive, by simp [halive], fun name => by simp⟩
  log := hr.log

/-- After every sequence of registrations, namings and retirements the name table is a finite map:
the array is sorted, `uboss_handle_namehandle` binds exactly the names that are not bound, and
`uboss_handle_findname` returns the handle of the binding that was made and not removed since. -/
theorem name_table_map (harbor : ℕ) (calls : List NameCall) (r : NameRun)
    (hrun : Run (fun r call => r.step call) anyAction (init harbor) calls r) : r.NameSpec := by
  have hr : r.Inv := hrun.invariant (inv_init harbor) fun _ hnext hr => hr.step hnext
  exact hr.nameSpec

/-- Three names, the last of which makes the array grow, of two services, one of which exits. -/
def growRun : List NameCall :=
  [.register, .register, .namehandle 1 [98], .namehandle 2 [99], .namehandle 2 [97],
    .namehandle 1 [97], .retire 2]

theorem name_table_map_grow : ∃ r, Run (fun r call => r.step call) anyAction (init 0) growRun r ∧
      r.arrays.nameCap = 4 ∧ r.arrays.names = [⟨[98], 1⟩] ∧ r.NameSpec := by
  obtain ⟨r, hexec⟩ : ∃ r, exec (fun r call => step r call) (init 0) growRun = some r := ⟨_, rfl⟩
  have hend : (exec (fun r call => step r call) (init 0) growRun).map
      (fun r => (r.arrays.nameCap, r.arrays.names)) = some (4, [⟨[98], 1⟩]) := by decide
  rw [hexec, Option.map_some, Option.some_inj, Prod.mk.injEq] at hend
  have hrun := run_of_exec hexec
  exact ⟨r, hrun, hend.1, hend.2, name_table_map 0 growRun r hrun⟩

/-! ### A table that is full -/

/-- The digits of a number to the base 255, as the four bytes of a name. No byte is 0. -/
def nthName (i : ℕ) : List UInt8 :=
  [i, i / 255, i / 255 ^ 2, i / 255 ^ 3].map fun d => UInt8.ofNat (1 + d % 255)

theorem nthName_inj {i j : ℕ} (hi : i < 255 ^ 4) (hj : j < 255 ^ 4) (h : nthName i = nthName j) :
    i = j := by
  have hdigit {a b : ℕ} (h : UInt8.ofNat (1 + a % 255) = UInt8.ofNat (1 + b % 255)) :
      a % 255 = b % 255 := by
    have hnat := congrArg UInt8.toNat h
    rw [UInt8.toNat_ofNat', UInt8.toNat_ofNat'] at hnat
    omega
  simp only [nthName, map_cons, map_nil, cons.injEq, and_true] at h
  obtain ⟨hzero, hone, htwo, hthree⟩ := h
  have hzero := hdigit hzero
  have hone := hdigit hone
  have htwo := hdigit htwo
  have hthree := hdigit hthree
  omega

/-- So many names are bound one after the other, and the next ones are free. -/
theorem names_fill {n : ℕ} (hn : n ≤ 2 ^ 30) : ∃ calls r,
    Run (fun r call => r.step call) anyAction (init 0) calls r ∧ r.arrays.nameCount = n ∧
      ∀ i, n ≤ i → i < 255 ^ 4 → binding r.arrays.names (nthName i) = none := by
  induction n with
  | zero => exact ⟨[], _, .nil _, rfl, fun _ _ _ => rfl⟩
  | succ n ih =>
    obtain ⟨calls, r, hrun, hcount, hfree⟩ := ih (by omega)
    have hr : r.Inv := hrun.invariant (inv_init 0) fun _ hnext hr => hr.step hnext
    obtain ⟨m, hok, -, -, hbinding, hgrown⟩ := HandleArrays.namehandle_free hr.wellFormed
      hr.sorted (hfree n le_rfl (by omega)) (by omega) 1
    refine ⟨_, { r with arrays := m, log := r.log ++ [.named (nthName n) 1] },
      hrun.snoc (a := .namehandle 1 (nthName n)) trivial (by simp only [NameRun.step, hok]),
      hgrown.trans (by rw [hcount]), fun i hi hlt => ?_⟩
    dsimp only
    rw [hbinding, update_of_ne]
    · exact hfree i (by omega) hlt
    · intro heq
      have := nthName_inj hlt (by omega) heq
      omega

/-- When `2 ^ 30` names are bound, no other name can be: `name_cap` would be `2 ^ 31`. -/
theorem names_overflow : ∃ calls r name,
    Run (fun r call => r.step call) anyAction (init 0) calls r ∧
      binding r.arrays.names name = none ∧
      r.arrays.ubossHandleNamehandle 1 name = .error .overflow := by
  obtain ⟨calls, r, hrun, hcount, hfree⟩ := names_fill le_rfl
  have hr : r.Inv := hrun.invariant (inv_init 0) fun _ hnext hr => hr.step hnext
  have hnext := hfree (2 ^ 30) le_rfl (by decide)
  exact ⟨calls, r, nthName (2 ^ 30), hrun, hnext,
    HandleArrays.namehandle_full hr.wellFormed hr.sorted hnext hcount 1⟩

end NameRun

end Uboss.Core
