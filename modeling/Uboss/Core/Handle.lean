import Mathlib.Data.Nat.Bitwise
import Uboss.Math.Loops
import Uboss.Math.Transition

/-!
# The handle storage

`uboss_handle.c` maps 32-bit handles to service contexts. A handle carries the harbor id
in its top byte and an index in its low 24 bits; the slot array is probed from a wrapping
index, places a context by the low bits of its handle, and is doubled when it is full.

The doubling loop reads `ctx->handle` of every context of the table, so the functions
below take the current contents of that field as an argument `handleOf`. The invariant
`Placed` is stated for a second assignment `issued`, the handles that
`uboss_handle_register` returned: the two agree once a launching thread has stored the
returned value, and only then.
-/

namespace Uboss.Core

open Math Function Option Nat

/-- The address of a `struct uboss_context`. -/
abbrev CtxId := ℕ

def handleMask : ℕ := 0xffffff

def handleRemoteShift : ℕ := 24

def defaultSlotSize : ℕ := 4

/-- An entry of the name table. -/
structure HandleName where
  name : List UInt8
  handle : ℕ
  deriving DecidableEq, Repr

/-- `struct handle_storage`. Only the cells `slot i` with `i < slotSize` belong to the
array; the list `name` holds the first `name_count` entries of the name array. -/
structure HandleStorage where
  harbor : ℕ
  handleIndex : ℕ
  slotSize : ℕ
  slot : ℕ → Option CtxId
  nameCap : ℕ
  name : List HandleName

/-- How `uboss_handle_register` can end without a handle: the two assertions of the
doubling branch, a null pointer read there, or more rounds than the model allows. -/
inductive HandleFault
  | slotLimit
  | slotCollision
  | nullContext
  | outOfFuel
  deriving DecidableEq, Repr

/-- The inner loop of `uboss_handle_register`: the first handle, counted from
`handle_index`, whose slot is free. -/
def HandleStorage.probe (s : HandleStorage) : Option ℕ := (List.range s.slotSize).findSome? fun i =>
    let handle := (i + s.handleIndex) &&& handleMask
    let hash := handle &&& (s.slotSize - 1)
    if s.slot hash = none then some handle else none

/-- One round of the loop that moves the contexts into the doubled slot array. -/
def HandleStorage.moveSlot (s : HandleStorage) (handleOf : CtxId → ℕ)
    (newSlot : ℕ → Option CtxId) (i : ℕ) : Except HandleFault (ℕ → Option CtxId) :=
  match s.slot i with
  | none => .error .nullContext
  | some c =>
    let hash := handleOf c &&& (s.slotSize * 2 - 1)
    if newSlot hash = none then .ok (Function.update newSlot hash (some c))
    else .error .slotCollision

/-- The doubled slot array. -/
def HandleStorage.rehash (s : HandleStorage) (handleOf : CtxId → ℕ) :
    Except HandleFault (ℕ → Option CtxId) :=
  (List.range s.slotSize).foldlM (s.moveSlot handleOf) fun _ => none

/-- Put a context into the free slot that the probe found. -/
def HandleStorage.place (s : HandleStorage) (ctx : CtxId) (handle : ℕ) : HandleStorage :=
  { s with
    slot := Function.update s.slot (handle &&& (s.slotSize - 1)) (some ctx)
    handleIndex := handle + 1 }

/-- Switch to the doubled slot array. -/
def HandleStorage.grow (s : HandleStorage) (newSlot : ℕ → Option CtxId) : HandleStorage :=
  { s with slot := newSlot, slotSize := s.slotSize * 2 }

/-- The `for (;;)` of `uboss_handle_register`, at most `fuel` rounds of it. -/
def registerLoop (handleOf : CtxId → ℕ) (ctx : CtxId) :
    ℕ → HandleStorage → Except HandleFault (ℕ × HandleStorage)
  | 0, _ => .error .outOfFuel
  | fuel + 1, s =>
    match s.probe with
    | some handle => .ok (handle ||| s.harbor, s.place ctx handle)
    | none =>
      if s.slotSize * 2 - 1 ≤ handleMask then
        match s.rehash handleOf with
        | .error fault => .error fault
        | .ok newSlot => registerLoop handleOf ctx fuel (s.grow newSlot)
      else .error .slotLimit

/-- `uboss_handle_register`. The table can be doubled 22 times, so 24 rounds are more
than the loop ever makes. -/
def ubossHandleRegister (handleOf : CtxId → ℕ) (s : HandleStorage) (ctx : CtxId) :
    Except HandleFault (ℕ × HandleStorage) :=
  registerLoop handleOf ctx 24 s

/-- The compaction loop of `uboss_handle_retire` over the name array. -/
def retireNames (handle : ℕ) : List HandleName → List HandleName
  | [] => []
  | n :: rest => if n.handle = handle then retireNames handle rest
      else n :: retireNames handle rest

/-- Empty a slot and forget the names of its handle. -/
def HandleStorage.clear (s : HandleStorage) (hash handle : ℕ) : HandleStorage :=
  { s with
    slot := Function.update s.slot hash none
    name := retireNames handle s.name }

/-- The locked section of `uboss_handle_retire`: the context to release, if any, and the
storage after it. -/
def ubossHandleRetire (handleOf : CtxId → ℕ) (s : HandleStorage) (handle : ℕ) :
    Option CtxId × HandleStorage :=
  let hash := handle &&& (s.slotSize - 1)
  match s.slot hash with
  | none => (none, s)
  | some c =>
    if handleOf c = handle then (some c, s.clear hash handle) else (none, s)

/-- `uboss_handle_grab`, up to the increment of the reference count. -/
def ubossHandleGrab (handleOf : CtxId → ℕ) (s : HandleStorage) (handle : ℕ) :
    Option CtxId :=
  match s.slot (handle &&& (s.slotSize - 1)) with
  | none => none
  | some c => if handleOf c = handle then some c else none

def ubossHandleInit (harbor : ℕ) : HandleStorage where
  harbor := (harbor &&& 0xff) <<< handleRemoteShift
  handleIndex := 1
  slotSize := defaultSlotSize
  slot := fun _ => none
  nameCap := 2
  name := []

theorem and_handleMask (x : ℕ) : x &&& handleMask = x % 2 ^ 24 := and_two_pow_sub_one_eq_mod x 24

namespace HandleStorage

/-- The context `c` occupies a slot. -/
def Registered (s : HandleStorage) (c : CtxId) : Prop := ∃ i < s.slotSize, s.slot i = some c

/-- The table invariant: the slot array is a power of two, the index lies in its 24 bits
(or just behind them), and every registered context sits in the slot that the low bits of
its issued handle name. -/
structure Placed (s : HandleStorage) (issued : CtxId → ℕ) : Prop where
  size : ∃ k, 2 ≤ k ∧ k ≤ 24 ∧ s.slotSize = 2 ^ k
  index_pos : 1 ≤ s.handleIndex
  index_le : s.handleIndex ≤ 2 ^ 24
  harbor : ∃ b < 2 ^ 8, s.harbor = b * 2 ^ 24
  outside : ∀ i, s.slotSize ≤ i → s.slot i = none
  slot_mod : ∀ i c, s.slot i = some c → issued c % s.slotSize = i
  handle_low : ∀ i c, s.slot i = some c → ∃ low < 2 ^ 24, issued c = s.harbor + low

variable {s : HandleStorage} {issued handleOf : CtxId → ℕ}

section

variable (hs : s.Placed issued)
include hs

theorem Placed.slotSize_pos : 0 < s.slotSize := by
  obtain ⟨k, -, -, hk⟩ := hs.size
  rw [hk]
  exact Nat.two_pow_pos k

theorem Placed.slotSize_dvd : s.slotSize ∣ 2 ^ 24 := by
  obtain ⟨k, -, hk, hsize⟩ := hs.size
  rw [hsize]
  exact Nat.pow_dvd_pow 2 hk

/-- Masking by `slot_size - 1` is reduction modulo `slot_size`. -/
theorem Placed.and_slotSize (x : ℕ) : x &&& (s.slotSize - 1) = x % s.slotSize := by
  obtain ⟨k, -, -, hk⟩ := hs.size
  rw [hk, and_two_pow_sub_one_eq_mod]

theorem Placed.and_double (x : ℕ) : x &&& (s.slotSize * 2 - 1) = x % (s.slotSize * 2) := by
  obtain ⟨k, -, -, hk⟩ := hs.size
  rw [hk, ← pow_succ, and_two_pow_sub_one_eq_mod]

theorem Placed.lt_slotSize {i : ℕ} {c : CtxId} (h : s.slot i = some c) : i < s.slotSize := by
  by_contra hge
  rw [hs.outside i (by omega)] at h
  cases h

theorem Placed.registered {i : ℕ} {c : CtxId} (h : s.slot i = some c) : s.Registered c :=
  ⟨i, hs.lt_slotSize h, h⟩

/-- A registered context sits in the slot of its issued handle. -/
theorem Placed.slot_of_registered {c : CtxId} (hc : s.Registered c) :
    s.slot (issued c % s.slotSize) = some c := by
  obtain ⟨i, -, hi⟩ := hc
  rw [hs.slot_mod i c hi]
  exact hi

/-- The issued handles of registered contexts are pairwise distinct. -/
theorem Placed.eq_of_issued_eq {c d : CtxId} (hc : s.Registered c) (hd : s.Registered d)
    (h : issued c = issued d) : c = d := by
  have hslot := hs.slot_of_registered hc
  rw [h, hs.slot_of_registered hd] at hslot
  exact (some_inj.mp hslot).symm

/-! ### The probe -/

/-- What the probe returns: the first index, counted from `handle_index` and wrapping at
24 bits, whose slot is free. -/
theorem Placed.probe_eq_some_iff {handle : ℕ} : s.probe = some handle ↔
      ∃ i < s.slotSize, handle = (i + s.handleIndex) % 2 ^ 24 ∧
        s.slot (handle % s.slotSize) = none ∧
        ∀ j < i, s.slot ((j + s.handleIndex) % s.slotSize) ≠ none := by
  have hmod : ∀ x, x % 2 ^ 24 % s.slotSize = x % s.slotSize :=
    fun x => mod_mod_of_dvd x hs.slotSize_dvd
  simp only [probe, and_handleMask, hs.and_slotSize, hmod, findSome?_range_eq_some_iff]
  constructor
  · rintro ⟨i, hi, hfound, hbefore⟩
    split_ifs at hfound with hfree
    obtain rfl := some_inj.mp hfound
    refine ⟨i, hi, rfl, by rwa [hmod], fun j hj hfreeJ => ?_⟩
    have := hbefore j hj
    rw [if_pos hfreeJ] at this
    cases this
  · rintro ⟨i, hi, rfl, hfree, hbefore⟩
    rw [hmod] at hfree
    exact ⟨i, hi, if_pos hfree, fun j hj => if_neg (hbefore j hj)⟩

end

theorem exists_probe_index {size : ℕ} (hpos : 0 < size) (index : ℕ) {i : ℕ} (hi : i < size) :
    ∃ j < size, (j + index) % size = i := by
  refine ⟨(i + size * index - index) % size, mod_lt _ hpos, ?_⟩
  have hle : index ≤ size * index := Nat.le_mul_of_pos_left index hpos
  rw [mod_add_mod, show i + size * index - index + index = i + size * index by omega,
    add_mul_mod_self_left, mod_eq_of_lt hi]

/-- The probe fails exactly when every slot is taken. -/
theorem Placed.probe_eq_none_iff (hs : s.Placed issued) :
    s.probe = none ↔ ∀ i < s.slotSize, s.slot i ≠ none := by
  have hmod : ∀ x, x % 2 ^ 24 % s.slotSize = x % s.slotSize :=
    fun x => mod_mod_of_dvd x hs.slotSize_dvd
  simp only [probe, and_handleMask, hs.and_slotSize, hmod, List.findSome?_eq_none_iff,
    List.mem_range]
  constructor
  · intro htaken i hi hfree
    obtain ⟨j, hj, rfl⟩ := exists_probe_index hs.slotSize_pos s.handleIndex hi
    have := htaken j hj
    rw [if_pos hfree] at this
    cases this
  · intro htaken j _
    exact if_neg (htaken _ (mod_lt _ hs.slotSize_pos))

/-! ### Doubling -/

/-- Doubling succeeds when the table is full and the stored handles fall into pairwise
distinct slots of the new array; each context is then found in the slot of its handle. -/
theorem rehash_ok (handleOf : CtxId → ℕ) (hfull : ∀ i < s.slotSize, s.slot i ≠ none)
    (hinj : ∀ i < s.slotSize, ∀ j < s.slotSize, ∀ c d, s.slot i = some c → s.slot j = some d →
      handleOf c &&& (s.slotSize * 2 - 1) = handleOf d &&& (s.slotSize * 2 - 1) → i = j) :
    ∃ newSlot, s.rehash handleOf = .ok newSlot ∧ ∀ k c, newSlot k = some c ↔
        ∃ i < s.slotSize, s.slot i = some c ∧ handleOf c &&& (s.slotSize * 2 - 1) = k := by
  refine foldlM_range_ok (P := fun n (newSlot : ℕ → Option CtxId) => ∀ k c, newSlot k = some c ↔
    ∃ i < n, s.slot i = some c ∧ handleOf c &&& (s.slotSize * 2 - 1) = k) (by simp) ?_
  intro n hn newSlot hnew
  obtain ⟨c, hc⟩ := ne_none_iff_exists'.mp (hfull n hn)
  have hfree : newSlot (handleOf c &&& (s.slotSize * 2 - 1)) = none := by
    cases hold : newSlot (handleOf c &&& (s.slotSize * 2 - 1)) with
    | none => rfl
    | some d =>
      obtain ⟨i, hi, hd, hhash⟩ := (hnew _ d).mp hold
      have := hinj i (by omega) n hn d c hd hc hhash
      omega
  refine ⟨update newSlot (handleOf c &&& (s.slotSize * 2 - 1)) (some c), ?_, ?_⟩
  · simp [moveSlot, hc, hfree]
  · intro k d
    by_cases hk : k = handleOf c &&& (s.slotSize * 2 - 1)
    · subst hk
      rw [update_self]
      constructor
      · intro hd
        obtain rfl := some_inj.mp hd
        exact ⟨n, by omega, hc, rfl⟩
      · rintro ⟨i, hi, hd, hhash⟩
        have hin := hinj i (by omega) n hn d c hd hc hhash
        subst hin
        rw [← hc, hd]
    · rw [update_of_ne hk, hnew]
      constructor
      · rintro ⟨i, hi, hd, hhash⟩
        exact ⟨i, by omega, hd, hhash⟩
      · rintro ⟨i, hi, hd, hhash⟩
        rcases Nat.lt_succ_iff_lt_or_eq.mp hi with hlt | rfl
        · exact ⟨i, hlt, hd, hhash⟩
        · rw [hc] at hd
          obtain rfl := some_inj.mp hd
          exact absurd hhash.symm hk

/-- The stored handles of all registered contexts name the same slots of the doubled array
as the issued ones. -/
def RehashAgrees (s : HandleStorage) (issued handleOf : CtxId → ℕ) : Prop :=
  ∀ c, s.Registered c → handleOf c % (s.slotSize * 2) = issued c % (s.slotSize * 2)

variable (hs : s.Placed issued)
include hs

/-- Doubling a full table keeps the invariant, the registered contexts and room for one
more. -/
theorem Placed.grow (hfull : ∀ i < s.slotSize, s.slot i ≠ none)
    (hlimit : s.slotSize * 2 - 1 ≤ handleMask) (hagree : s.RehashAgrees issued handleOf) :
    ∃ newSlot, s.rehash handleOf = .ok newSlot ∧ (s.grow newSlot).Placed issued ∧
      (∀ c, (s.grow newSlot).Registered c ↔ s.Registered c) ∧
      ∃ i < (s.grow newSlot).slotSize, (s.grow newSlot).slot i = none := by
  have hpos := hs.slotSize_pos
  have hdown : ∀ x, x % (s.slotSize * 2) % s.slotSize = x % s.slotSize :=
    fun x => mod_mod_of_dvd x ⟨2, rfl⟩
  have hslot : ∀ c, s.Registered c → s.slot (issued c % (s.slotSize * 2) % s.slotSize) = some c :=
    fun c hc => by rw [hdown]; exact hs.slot_of_registered hc
  obtain ⟨newSlot, hok, hnew⟩ := rehash_ok (s := s) handleOf hfull <| by
    intro i hi j hj c d hc hd hhash
    rw [hs.and_double, hs.and_double, hagree c ⟨i, hi, hc⟩, hagree d ⟨j, hj, hd⟩] at hhash
    rw [← hs.slot_mod i c hc, ← hs.slot_mod j d hd, ← hdown, hhash, hdown]
  have hiff : ∀ k c, newSlot k = some c ↔ s.Registered c ∧ issued c % (s.slotSize * 2) = k := by
    intro k c
    rw [hnew]
    constructor
    · rintro ⟨i, hi, hc, hhash⟩
      rw [hs.and_double, hagree c ⟨i, hi, hc⟩] at hhash
      exact ⟨⟨i, hi, hc⟩, hhash⟩
    · rintro ⟨⟨i, hi, hc⟩, hhash⟩
      refine ⟨i, hi, hc, ?_⟩
      rw [hs.and_double, hagree c ⟨i, hi, hc⟩, hhash]
  have hout : ∀ i, s.slotSize * 2 ≤ i → newSlot i = none := by
    intro i hi
    by_contra hne
    obtain ⟨c, hc⟩ := ne_none_iff_exists'.mp hne
    have := ((hiff i c).mp hc).2
    have := mod_lt (issued c) (show 0 < s.slotSize * 2 by omega)
    omega
  refine ⟨newSlot, hok, ?_, ?_, ?_⟩
  · refine ⟨?_, hs.index_pos, hs.index_le, hs.harbor, hout, fun i c hc => ((hiff i c).mp hc).2,
      fun i c hc => ?_⟩
    · obtain ⟨k, hk, hk24, hsize⟩ := hs.size
      refine ⟨k + 1, by omega, ?_, by simp [HandleStorage.grow, hsize, pow_succ]⟩
      by_contra hge
      have hk' : k = 24 := by omega
      subst hk'
      rw [hsize] at hlimit
      simp [handleMask] at hlimit
    · obtain ⟨j, -, hj⟩ := ((hiff i c).mp hc).1
      exact hs.handle_low j c hj
  · intro c
    constructor
    · rintro ⟨i, -, hc⟩
      exact ((hiff i c).mp hc).1
    · intro hc
      exact ⟨_, mod_lt _ (by simp only [HandleStorage.grow]; omega),
        (hiff (issued c % (s.slotSize * 2)) c).mpr ⟨hc, rfl⟩⟩
  · -- the context of slot 0 moves to one of the slots 0 and `slot_size`; the other is free
    obtain ⟨c, hc⟩ := ne_none_iff_exists'.mp (hfull 0 hpos)
    have hreg : s.Registered c := ⟨0, hpos, hc⟩
    have hzero : issued c % (s.slotSize * 2) % s.slotSize = 0 := by
      rw [hdown]; exact hs.slot_mod 0 c hc
    have hfree : ∀ k, k % s.slotSize = 0 → k ≠ issued c % (s.slotSize * 2) → newSlot k = none := by
      intro k hk hne
      by_contra hsome
      obtain ⟨d, hd⟩ := ne_none_iff_exists'.mp hsome
      obtain ⟨hdreg, hdk⟩ := (hiff k d).mp hd
      have hcd := hslot d hdreg
      rw [hdk, hk, hc] at hcd
      obtain rfl := some_inj.mp hcd
      exact hne hdk.symm
    by_cases h0 : issued c % (s.slotSize * 2) = 0
    · exact ⟨s.slotSize, by simp only [HandleStorage.grow]; omega, hfree _ (mod_self _) (by omega)⟩
    · exact ⟨0, by simp only [HandleStorage.grow]; omega, hfree 0 (zero_mod _) (Ne.symm h0)⟩

/-! ### The operations -/

theorem or_harbor {handle : ℕ} (hlow : handle < 2 ^ 24) :
    handle ||| s.harbor = s.harbor + handle := by
  obtain ⟨b, -, hb⟩ := hs.harbor
  rw [hb, Nat.or_comm, Nat.mul_comm b, ← two_pow_add_eq_or_of_lt hlow]

theorem Placed.place {c : CtxId} (hc : ¬ s.Registered c) {handle : ℕ}
    (hprobe : s.probe = some handle) :
    (s.place c handle).Placed (update issued c (handle ||| s.harbor)) ∧
      ∀ d, (s.place c handle).Registered d ↔ d = c ∨ s.Registered d := by
  obtain ⟨i, -, hhandle, hfree, -⟩ := hs.probe_eq_some_iff.mp hprobe
  have hlow : handle < 2 ^ 24 := by rw [hhandle]; exact mod_lt _ (by decide)
  have hlt : handle % s.slotSize < s.slotSize := mod_lt _ hs.slotSize_pos
  have hharbor : s.harbor % s.slotSize = 0 := by
    obtain ⟨b, -, hb⟩ := hs.harbor
    rw [hb]
    exact mod_eq_zero_of_dvd (hs.slotSize_dvd.mul_left b)
  have hslot : (s.place c handle).slot = update s.slot (handle % s.slotSize) (some c) := by
    simp [HandleStorage.place, hs.and_slotSize]
  have hother : ∀ {k d}, s.slot k = some d → d ≠ c := by
    rintro k d hd rfl
    exact hc (hs.registered hd)
  refine ⟨⟨hs.size, by simp [HandleStorage.place], by simp only [HandleStorage.place]; omega,
    hs.harbor, ?_, ?_, ?_⟩, ?_⟩
  · intro k hk
    have hne : k ≠ handle % s.slotSize := by
      simp only [HandleStorage.place] at hk
      omega
    rw [hslot, update_of_ne hne]
    exact hs.outside k hk
  · intro k d hd
    rw [hslot] at hd
    change _ % s.slotSize = k
    by_cases hk : k = handle % s.slotSize
    · subst hk
      rw [update_self] at hd
      obtain rfl := some_inj.mp hd
      rw [update_self, or_harbor hs hlow, add_mod, hharbor, Nat.zero_add, mod_mod]
    · rw [update_of_ne hk] at hd
      rw [update_of_ne (hother hd)]
      exact hs.slot_mod k d hd
  · intro k d hd
    rw [hslot] at hd
    change ∃ low < 2 ^ 24, _ = s.harbor + low
    by_cases hk : k = handle % s.slotSize
    · subst hk
      rw [update_self] at hd
      obtain rfl := some_inj.mp hd
      rw [update_self]
      exact ⟨handle, hlow, or_harbor hs hlow⟩
    · rw [update_of_ne hk] at hd
      rw [update_of_ne (hother hd)]
      exact hs.handle_low k d hd
  · intro d
    simp only [Registered, hslot]
    constructor
    · rintro ⟨k, hk, hd⟩
      by_cases hk' : k = handle % s.slotSize
      · subst hk'
        rw [update_self] at hd
        exact .inl (some_inj.mp hd).symm
      · rw [update_of_ne hk'] at hd
        exact .inr ⟨k, hk, hd⟩
    · rintro (rfl | ⟨k, hk, hd⟩)
      · exact ⟨_, hlt, update_self ..⟩
      · refine ⟨k, hk, ?_⟩
        rw [update_of_ne, hd]
        rintro rfl
        rw [hfree] at hd
        cases hd

end HandleStorage

open HandleStorage

section Operations

variable {s s' : HandleStorage} {issued handleOf : CtxId → ℕ} {c : CtxId} {handle : ℕ}

theorem register_of_probe (hprobe : s.probe = some handle) :
    ubossHandleRegister handleOf s c = .ok (handle ||| s.harbor, s.place c handle) := by
  rw [ubossHandleRegister, registerLoop]
  simp only [hprobe]

theorem register_of_grow {newSlot : ℕ → Option CtxId} (hprobe : s.probe = none)
    (hlimit : s.slotSize * 2 - 1 ≤ handleMask) (hrehash : s.rehash handleOf = .ok newSlot)
    (hgrown : (s.grow newSlot).probe = some handle) :
    ubossHandleRegister handleOf s c =
      .ok (handle ||| s.harbor, (s.grow newSlot).place c handle) := by
  rw [ubossHandleRegister, registerLoop]
  simp only [hprobe, if_pos hlimit, hrehash]
  rw [registerLoop]
  simp only [hgrown]
  rfl

/-- A full table that cannot be doubled fails the first assertion. -/
theorem register_of_limit (hprobe : s.probe = none) (hlimit : ¬ s.slotSize * 2 - 1 ≤ handleMask) :
    ubossHandleRegister handleOf s c = .error .slotLimit := by
  rw [ubossHandleRegister, registerLoop]
  simp only [hprobe, if_neg hlimit]

section

variable (hs : s.Placed issued)
include hs

/-- Registration of a new context succeeds while a slot is free or the table can be doubled,
and adds exactly this context to the table. -/
theorem register_ok (hc : ¬ s.Registered c)
    (hagree : (∀ i < s.slotSize, s.slot i ≠ none) → s.RehashAgrees issued handleOf)
    (hroom : (∃ i < s.slotSize, s.slot i = none) ∨ s.slotSize * 2 - 1 ≤ handleMask) :
    ∃ handle s', ubossHandleRegister handleOf s c = .ok (handle, s') ∧
      s'.Placed (update issued c handle) ∧
      ∀ d, s'.Registered d ↔ d = c ∨ s.Registered d := by
  cases hprobe : s.probe with
  | some handle =>
    obtain ⟨hplaced, hreg⟩ := hs.place hc hprobe
    exact ⟨_, _, register_of_probe hprobe, hplaced, hreg⟩
  | none =>
    have hfull := hs.probe_eq_none_iff.mp hprobe
    have hlimit : s.slotSize * 2 - 1 ≤ handleMask := by
      rcases hroom with ⟨i, hi, hfree⟩ | hlimit
      · exact absurd hfree (hfull i hi)
      · exact hlimit
    obtain ⟨newSlot, hrehash, hgrown, hsame, i, hi, hfree⟩ := hs.grow hfull hlimit (hagree hfull)
    cases hprobe' : (s.grow newSlot).probe with
    | none => exact absurd hfree (hgrown.probe_eq_none_iff.mp hprobe' i hi)
    | some handle =>
      obtain ⟨hplaced, hreg⟩ := hgrown.place (fun h => hc ((hsame c).mp h)) hprobe'
      refine ⟨_, _, register_of_grow hprobe hlimit hrehash hprobe', hplaced, fun d => ?_⟩
      rw [hreg, hsame]

theorem register_spec (hc : ¬ s.Registered c)
    (hagree : (∀ i < s.slotSize, s.slot i ≠ none) → s.RehashAgrees issued handleOf)
    (hok : ubossHandleRegister handleOf s c = .ok (handle, s')) :
    s'.Placed (update issued c handle) ∧ ∀ d, s'.Registered d ↔ d = c ∨ s.Registered d := by
  have hroom : (∃ i < s.slotSize, s.slot i = none) ∨ s.slotSize * 2 - 1 ≤ handleMask := by
    by_contra hno
    push Not at hno
    rw [register_of_limit (hs.probe_eq_none_iff.mpr hno.1) (by omega)] at hok
    cases hok
  obtain ⟨handle', s'', hok', hspec⟩ := register_ok hs hc hagree hroom
  rw [hok] at hok'
  cases hok'
  exact hspec

/-- The doubling assertion cannot fail when the stored handles agree with the issued ones. -/
theorem register_ne_slotCollision (hc : ¬ s.Registered c)
    (hagree : (∀ i < s.slotSize, s.slot i ≠ none) → s.RehashAgrees issued handleOf) :
    ubossHandleRegister handleOf s c ≠ .error .slotCollision := by
  intro hfail
  by_cases hroom : (∃ i < s.slotSize, s.slot i = none) ∨ s.slotSize * 2 - 1 ≤ handleMask
  · obtain ⟨handle, s', hok, -⟩ := register_ok hs hc hagree hroom
    rw [hok] at hfail
    cases hfail
  · push Not at hroom
    rw [register_of_limit (hs.probe_eq_none_iff.mpr hroom.1) (by omega)] at hfail
    cases hfail

/-- `uboss_handle_grab` returns the context of the slot if its stored handle is the one
asked for. -/
theorem grab_eq_some_iff : ubossHandleGrab handleOf s handle = some c ↔
      s.slot (handle % s.slotSize) = some c ∧ handleOf c = handle := by
  rw [ubossHandleGrab, hs.and_slotSize]
  cases s.slot (handle % s.slotSize) with
  | none => simp
  | some d =>
    by_cases hd : handleOf d = handle
    · simp only [if_pos hd, some_inj]
      exact ⟨fun h => ⟨h, h ▸ hd⟩, And.left⟩
    · simp only [if_neg hd, some_inj]
      exact ⟨fun h => (nomatch h), fun ⟨h, h'⟩ => absurd (h ▸ h') hd⟩

end

theorem retire_of_grab_none (h : ubossHandleGrab handleOf s handle = none) :
    (ubossHandleRetire handleOf s handle).2 = s := by
  simp only [ubossHandleGrab] at h
  simp only [ubossHandleRetire]
  cases hslot : s.slot (handle &&& (s.slotSize - 1)) with
  | none => rfl
  | some c =>
    simp only [hslot] at h
    split_ifs at h with hc
    simp [hc]

theorem retire_of_grab_some (hs : s.Placed issued)
    (h : ubossHandleGrab handleOf s handle = some c) :
    (ubossHandleRetire handleOf s handle).2 = s.clear (handle % s.slotSize) handle := by
  obtain ⟨hslot, hc⟩ := (grab_eq_some_iff hs).mp h
  rw [ubossHandleRetire, hs.and_slotSize]
  simp [hslot, hc]

/-- Retirement keeps the table invariant and takes out exactly the context it found. -/
theorem retire_placed (handleOf : CtxId → ℕ) (handle : ℕ) (hs : s.Placed issued) :
    (ubossHandleRetire handleOf s handle).2.Placed issued ∧
      ∀ d, (ubossHandleRetire handleOf s handle).2.Registered d ↔
        s.Registered d ∧ ubossHandleGrab handleOf s handle ≠ some d := by
  cases h : ubossHandleGrab handleOf s handle with
  | none =>
    rw [retire_of_grab_none h]
    exact ⟨hs, by simp⟩
  | some c =>
    have hslot := ((grab_eq_some_iff hs).mp h).1
    rw [retire_of_grab_some hs h]
    have hkeep : ∀ {i d}, (s.clear (handle % s.slotSize) handle).slot i = some d →
        i ≠ handle % s.slotSize ∧ s.slot i = some d := by
      intro i d hd
      simp only [HandleStorage.clear] at hd
      by_cases hi : i = handle % s.slotSize
      · rw [hi, update_self] at hd
        cases hd
      · rw [update_of_ne hi] at hd
        exact ⟨hi, hd⟩
    refine ⟨⟨hs.size, hs.index_pos, hs.index_le, hs.harbor, fun i hi => ?_,
      fun i d hd => hs.slot_mod i d (hkeep hd).2,
      fun i d hd => hs.handle_low i d (hkeep hd).2⟩, fun d => ?_⟩
    · have hne : i ≠ handle % s.slotSize := by
        have := mod_lt handle hs.slotSize_pos
        simp only [HandleStorage.clear] at hi
        omega
      simp only [HandleStorage.clear, update_of_ne hne]
      exact hs.outside i hi
    · constructor
      · rintro ⟨i, hi, hd⟩
        obtain ⟨hne, hd'⟩ := hkeep hd
        refine ⟨⟨i, hi, hd'⟩, ?_⟩
        rintro ⟨⟩
        exact hne ((hs.slot_mod i c hd').symm.trans (hs.slot_mod _ c hslot))
      · rintro ⟨⟨i, hi, hd⟩, hcd⟩
        refine ⟨i, hi, ?_⟩
        have hne : i ≠ handle % s.slotSize := by
          rintro rfl
          exact hcd (hslot.symm.trans hd)
        simp only [HandleStorage.clear, update_of_ne hne, hd]

theorem init_placed (harbor : ℕ) (issued : CtxId → ℕ) :
    (ubossHandleInit harbor).Placed issued where
  size := ⟨2, le_rfl, by decide, rfl⟩
  index_pos := le_rfl
  index_le := by simp [ubossHandleInit]
  harbor := by
    refine ⟨harbor % 2 ^ 8, mod_lt _ (by decide), ?_⟩
    change (harbor &&& (2 ^ 8 - 1)) <<< 24 = _
    rw [and_two_pow_sub_one_eq_mod, shiftLeft_eq]
  outside _ _ := rfl
  slot_mod _ _ h := nomatch h
  handle_low _ _ h := nomatch h

end Operations

end Uboss.Core
