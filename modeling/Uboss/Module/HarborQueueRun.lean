import Uboss.Module.HarborQueue

/-!
# The queues of the harbor as lists

The functions of several queues are called in any order, and a message may be popped from one queue
and pushed to another one. What they return is what they return on lists, until a list becomes too
long.
-/

namespace Uboss.Module

open Math Function List Option Nat

section Lists

variable {ι β : Type}

/-- The calls. A `move` pushes the message that `pop_queue` has returned for the first queue. -/
inductive QueueOp (ι β : Type)
  | new (i : ι)
  | push (i : ι) (buffer : β) (sz : ℕ) (header : RemoteMessageHeader)
  | pop (i : ι)
  | move (i j : ι)
  | release (i : Option ι)

/-- What comes of a call: the message that the result of `pop_queue` points to, or the buffers that
are freed. -/
inductive QueueOut (β : Type)
  | done
  | popped (m : Option (QueuedMsg β))
  | freed (buffers : List β)

/-- The lists of the queues that are allocated. -/
abbrev QueueLists (ι β : Type) := ι → Option (List (QueuedMsg β))

variable [DecidableEq ι]

/-- A call on the lists. There is no result where the address of a queue is not allocated, or the
one of a new queue is. -/
def QueueOp.onLists (lists : QueueLists ι β) : QueueOp ι β → Option (QueueLists ι β × QueueOut β)
  | .new i =>
    match lists i with
    | none => some (update lists i (some []), .done)
    | some _ => none
  | .push i buffer sz header =>
    (lists i).map fun L =>
      (update lists i (some (L ++ [⟨header, buffer, sz⟩])), .done)
  | .pop i => (lists i).map fun L => (update lists i (some L.tail), .popped L.head?)
  | .move i j =>
    match lists i with
    | none => none
    | some [] => some (lists, .done)
    | some (m :: L) =>
      (update lists i (some L) j).map fun M =>
        (update (update lists i (some L)) j (some (M ++ [m])), .done)
  | .release none => some (lists, .freed [])
  | .release (some i) =>
    (lists i).map fun L => (update lists i none, .freed (L.map QueuedMsg.buffer))

/-- The list that the call makes longer has fewer than `2 ^ 30 - 1` messages. -/
def QueueOp.Small (lists : QueueLists ι β) : QueueOp ι β → Prop
  | .push i _ _ _ => ∀ L, lists i = some L → L.length + 1 < 2 ^ 30
  | .move i j => ∀ m L M, lists i = some (m :: L) →
    update lists i (some L) j = some M → M.length + 1 < 2 ^ 30
  | _ => True

/-- A sequence of calls on the lists, with all that comes of them. -/
def onLists : QueueLists ι β → List (QueueOp ι β) → Option (QueueLists ι β × List (QueueOut β))
  | lists, [] => some (lists, [])
  | lists, a :: ops =>
    (a.onLists lists).bind fun x => (onLists x.1 ops).map fun y => (y.1, x.2 :: y.2)

/-- No queue of `2 ^ 30 - 1` messages gets another one. -/
def SmallRun : QueueLists ι β → List (QueueOp ι β) → Prop
  | _, [] => True
  | lists, a :: ops =>
    a.Small lists ∧ ∀ lists' out, a.onLists lists = some (lists', out) → SmallRun lists' ops

end Lists

namespace HarborHeap

variable {ι β : Type}

section Calls

variable [DecidableEq ι]

/-- A call. -/
def call (w : HarborHeap ι β) : QueueOp ι β → Except HarborQueueFault (HarborHeap ι β × QueueOut β)
  | .new i => .ok (w.newQueue i, .done)
  | .push i buffer sz header => do
    let w ← w.pushQueue i buffer sz header
    .ok (w, .done)
  | .pop i => do
    let (p, w) ← w.popQueue i
    match p with
    | none => .ok (w, .popped none)
    | some p => do
      let m ← w.deref p
      .ok (w, .popped (some m))
  | .move i j => do
    let (p, w) ← w.popQueue i
    match p with
    | none => .ok (w, .done)
    | some p => do
      let w ← w.pushQueueMsg j p
      .ok (w, .done)
  | .release i => do
    let (w, buffers) ← w.releaseQueue i
    .ok (w, .freed buffers)

/-- A sequence of calls. -/
def run : HarborHeap ι β → List (QueueOp ι β) →
    Except HarborQueueFault (HarborHeap ι β × List (QueueOut β))
  | w, [] => .ok (w, [])
  | w, a :: ops => do
    let (w, out) ← w.call a
    let (w, outs) ← run w ops
    .ok (w, out :: outs)

end Calls

/-- Nothing is allocated. -/
def empty : HarborHeap ι β := ⟨fun _ => none, fun _ => none, 0⟩

/-- The queues hold these lists. Every block belongs to exactly one queue. -/
structure Represents (w : HarborHeap ι β) (lists : QueueLists ι β) : Prop where
  none_iff (i : ι) : w.queue i = none ↔ lists i = none
  ring {i q L} : w.queue i = some q → lists i = some L →
    ∃ B size head, w.block q.data = some B ∧ MsgRing q B size head L
  apart {i j q r} : w.queue i = some q → w.queue j = some r → q.data = r.data → i = j
  owned {data B} : w.block data = some B → ∃ i q, w.queue i = some q ∧ q.data = data
  fresh {data} : w.nextBlock ≤ data → w.block data = none

/-- The calls do what is done on lists, and the queues then hold the lists. -/
def Acts [DecidableEq ι] (w : HarborHeap ι β) (lists : QueueLists ι β)
    (ops : List (QueueOp ι β)) : Prop :=
  ∃ w' lists' outs, onLists lists ops = some (lists', outs) ∧ w.run ops = .ok (w', outs) ∧
    w'.Represents lists'

variable {w : HarborHeap ι β} {lists : QueueLists ι β} {i j : ι} {L M : List (QueuedMsg β)}
  {q q' : HarborMsgQueue} {B B' : MsgBlock β} {size head data n : ℕ} {m : QueuedMsg β}

namespace Represents

theorem empty : (empty : HarborHeap ι β).Represents fun _ => none where
  none_iff i := ⟨fun _ => rfl, fun _ => rfl⟩
  ring h := by cases h
  apart h := by cases h
  owned h := by cases h
  fresh _ := rfl

theorem exists_ring (h : w.Represents lists) (hi : lists i = some L) :
    ∃ q B size head, w.queue i = some q ∧ w.block q.data = some B ∧ MsgRing q B size head L := by
  cases hq : w.queue i with
  | none =>
    rw [(h.none_iff i).mp hq] at hi
    cases hi
  | some q =>
    obtain ⟨B, size, head, hB, hring⟩ := h.ring hq hi
    exact ⟨q, B, size, head, rfl, hB, hring⟩

theorem data_lt (h : w.Represents lists) (hq : w.queue i = some q) : q.data < w.nextBlock := by
  obtain ⟨L, hL⟩ := ne_none_iff_exists'.mp
    (mt (h.none_iff i).mpr (by rw [hq]; exact some_ne_none q))
  obtain ⟨B, size, head, hB, -⟩ := h.ring hq hL
  by_contra hge
  rw [h.fresh (Nat.le_of_not_lt hge)] at hB
  cases hB

theorem data_eq_iff (h : w.Represents lists) (hi : w.queue i = some q) {r : HarborMsgQueue}
    (hj : w.queue j = some r) : r.data = q.data ↔ j = i := by
  constructor
  · exact h.apart hj hi
  · rintro rfl
    rw [hi] at hj
    rw [some_inj.mp hj]

variable [DecidableEq ι]

/-- A queue gets another list and maybe another block; `data` is the block it had. -/
theorem put (h : w.Represents lists) (hold : ∀ {j r}, w.queue j = some r → (r.data = data ↔ j = i))
    (hring : MsgRing q' B' size head L) (hnew : q'.data = data ∨ w.nextBlock ≤ q'.data)
    (hn : w.nextBlock ≤ n) (hlt : q'.data < n) :
    Represents ⟨update w.queue i (some q'), update (update w.block data none) q'.data (some B'), n⟩
      (update lists i (some L)) := by
  -- The queues that are not changed have other blocks.
  have hother {k : ι} {r : HarborMsgQueue} (hk : w.queue k = some r) (hne : k ≠ i) :
      r.data ≠ data ∧ r.data ≠ q'.data := by
    have hdata := mt (hold hk).mp hne
    refine ⟨hdata, fun heq => ?_⟩
    have hlt := h.data_lt hk
    omega
  constructor
  case none_iff =>
    intro k
    by_cases hk : k = i
    · subst hk
      simp
    · simp only [update_of_ne hk]
      exact h.none_iff k
  case ring =>
    intro k r K hr hK
    by_cases hk : k = i
    · subst hk
      simp only [update_self, some_inj] at hr hK
      subst hr hK
      exact ⟨B', size, head, update_self .., hring⟩
    · simp only [update_of_ne hk] at hr hK
      obtain ⟨C, size', head', hC, hring'⟩ := h.ring hr hK
      obtain ⟨hdata, hdata'⟩ := hother hr hk
      refine ⟨C, size', head', ?_, hring'⟩
      simp only [update_of_ne hdata', update_of_ne hdata, hC]
  case apart =>
    intro k l r s hr hs heq
    rw [update_some_eq_some_iff] at hr hs
    obtain ⟨rfl, rfl⟩ | ⟨hk, hr⟩ := hr
    · obtain ⟨rfl, rfl⟩ | ⟨hl, hs⟩ := hs
      · rfl
      · exact absurd heq.symm (hother hs hl).2
    · obtain ⟨rfl, rfl⟩ | ⟨hl, hs⟩ := hs
      · exact absurd heq (hother hr hk).2
      · exact h.apart hr hs heq
  case owned =>
    intro d C hC
    rw [update_some_eq_some_iff, update_none_eq_some_iff] at hC
    obtain ⟨rfl, -⟩ | ⟨hd, hdata, hC⟩ := hC
    · exact ⟨i, q', update_self .., rfl⟩
    · obtain ⟨k, r, hr, rfl⟩ := h.owned hC
      have hk : k ≠ i := mt (hold hr).mpr hdata
      exact ⟨k, r, by simp only [update_of_ne hk, hr], rfl⟩
  case fresh =>
    intro d hd
    have hne : d ≠ q'.data := by
      intro heq
      change n ≤ d at hd
      omega
    simp only [update_of_ne hne]
    by_cases hdata : d = data
    · rw [hdata, update_self]
    · rw [update_of_ne hdata]
      exact h.fresh (hn.trans hd)

theorem drop (h : w.Represents lists) (hi : w.queue i = some q) :
    Represents { w with
      queue := update w.queue i none, block := update w.block q.data none }
      (update lists i none) := by
  constructor
  case none_iff =>
    intro k
    by_cases hk : k = i
    · subst hk
      simp
    · simp only [update_of_ne hk]
      exact h.none_iff k
  case ring =>
    intro k r K hr hK
    rw [update_none_eq_some_iff] at hr hK
    obtain ⟨B, size, head, hB, hring⟩ := h.ring hr.2 hK.2
    have hdata := mt (h.data_eq_iff hi hr.2).mp hr.1
    exact ⟨B, size, head, by simp only [update_of_ne hdata, hB], hring⟩
  case apart =>
    intro k l r s hr hs heq
    rw [update_none_eq_some_iff] at hr hs
    exact h.apart hr.2 hs.2 heq
  case owned =>
    intro d C hC
    rw [update_none_eq_some_iff] at hC
    obtain ⟨k, r, hr, rfl⟩ := h.owned hC.2
    have hk : k ≠ i := mt (h.data_eq_iff hi hr).mpr hC.1
    exact ⟨k, r, by simp only [update_of_ne hk, hr], rfl⟩
  case fresh =>
    intro d hd
    dsimp only
    by_cases hdata : d = q.data
    · rw [hdata, update_self]
    · rw [update_of_ne hdata]
      exact h.fresh hd

end Represents

section Functions

variable {p : MsgPtr β}

theorem getQueue_ok (hi : w.queue i = some q) : w.getQueue i = .ok q := by rw [getQueue, hi]

theorem getBlock_ok (hB : w.block data = some B) : w.getBlock data = .ok B := by rw [getBlock, hB]

/-- What `m` points to is not in the block of the queue `j`, unless that has room. -/
def PointsTo (w : HarborHeap ι β) (j : ι) (length : ℕ) (m : QueuedMsg β) : MsgPtr β → Prop
  | .var m' => m' = m
  | .cell data i => ∃ B, w.block data = some B ∧ B.load i = .ok m ∧
    ∀ q, w.queue j = some q → q.data = data → (length : ℤ) + 1 < q.size

theorem PointsTo.deref {length : ℕ} (h : w.PointsTo j length m p) : w.deref p = .ok m := by
  cases p with
  | var m' => exact congrArg Except.ok h
  | cell data i =>
    obtain ⟨B, hB, hload, -⟩ := h
    rw [HarborHeap.deref, getBlock_ok hB, ok_bind, hload]

/-- The message is still there when the ring has been copied to a new block. -/
theorem PointsTo.deref_of_full {length : ℕ} (h : w.PointsTo j length m p)
    (hw : w.Represents lists) (hq : w.queue j = some q) (hfull : q.size = length + 1) :
    HarborHeap.deref { w with
      block := update (update w.block q.data none) w.nextBlock (some B)
      nextBlock := w.nextBlock + 1 } p = .ok m := by
  cases p with
  | var m' => exact congrArg Except.ok h
  | cell data i =>
    obtain ⟨C, hC, hload, hroom⟩ := h
    have hother : data ≠ q.data := by
      rintro rfl
      have hlt := hroom q hq rfl
      omega
    have hold : data ≠ w.nextBlock := by
      rintro rfl
      rw [hw.fresh le_rfl] at hC
      cases hC
    have hC' : update (update w.block q.data none) w.nextBlock (some B) data = some C := by
      rw [update_of_ne hold, update_of_ne hother, hC]
    rw [HarborHeap.deref, getBlock_ok hC', ok_bind, hload]

variable [DecidableEq ι]

theorem newQueue_represents (h : w.Represents lists) (hi : lists i = none) :
    (w.newQueue i).Represents (update lists i (some [])) := by
  have hfree : w.block w.nextBlock = none := h.fresh le_rfl
  have hold {j : ι} {r : HarborMsgQueue} (hj : w.queue j = some r) :
      r.data = w.nextBlock ↔ j = i := by
    constructor
    · intro heq
      have hlt := h.data_lt hj
      omega
    · rintro rfl
      rw [(h.none_iff j).mpr hi] at hj
      cases hj
  have hput := h.put hold (MsgRing.new w.nextBlock) (.inl rfl) (le_succ _) (lt_succ_self _)
  rw [update_idem] at hput
  exact hput

/-- The message is stored, and the queue then holds the longer list. -/
theorem storeMsg_ok (hB : w.block q.data = some B) (hring : MsgRing q B size head L)
    (hroom : L.length + 1 < size) (hp : w.deref p = .ok m) (i : ι) :
    ∃ B', w.storeMsg i q p = .ok { w with
        queue := update w.queue i (some { q with tail := (q.tail + 1).tmod q.size })
        block := update w.block q.data (some B') } ∧
      MsgRing { q with tail := (q.tail + 1).tmod q.size } B' size head (L ++ [m]) := by
  obtain ⟨B', hstore, hring'⟩ := hring.store hroom m
  have htail := hring.tail_lt
  refine ⟨B', ?_, hring'⟩
  rw [storeMsg, hp, ok_bind, getBlock_ok hB, ok_bind, hstore, ok_bind,
    checkInt_ok (by omega) (by omega), ok_bind]

theorem pushQueueMsg_eq {w' : HarborHeap ι β} (hq : w.queue j = some q)
    (hmake : w.makeRoom q = .ok (w', q')) : w.pushQueueMsg j p = w'.storeMsg j q' p := by
  rw [pushQueueMsg, getQueue_ok hq, ok_bind, hmake, ok_bind]

variable (h : w.Represents lists)
include h

theorem pushQueueMsg_ok (hj : lists j = some M) (hp : w.PointsTo j M.length m p)
    (hsmall : M.length + 1 < 2 ^ 30) :
    ∃ w', w.pushQueueMsg j p = .ok w' ∧ w'.Represents (update lists j (some (M ++ [m]))) := by
  obtain ⟨q, B, size, head, hq, hB, hring⟩ := h.exists_ring hj
  have htail := hring.tail_lt
  have hroom := hring.room
  by_cases hfull : M.length + 1 = size
  · obtain ⟨newBuffer, hexpand, hring'⟩ := hring.expand hfull (by omega) hB
    have hmake : w.makeRoom q = w.expand q := by
      rw [makeRoom, checkInt_ok (by omega) (by omega), ok_bind, if_pos (hring.full_iff.mpr hfull)]
    have hderef := hp.deref_of_full (B := newBuffer) h hq (by rw [hring.size_eq, ← hfull]; rfl)
    obtain ⟨B', hstore, hring''⟩ := storeMsg_ok (update_self ..) hring' (by omega) hderef j
    refine ⟨_, (pushQueueMsg_eq hq (hmake.trans hexpand)).trans hstore, ?_⟩
    dsimp only
    rw [update_idem]
    exact h.put (h.data_eq_iff hq) hring'' (.inr le_rfl) (le_succ _) (lt_succ_self _)
  · have hmake : w.makeRoom q = .ok (w, q) := by
      rw [makeRoom, checkInt_ok (by omega) (by omega), ok_bind, if_neg (mt hring.full_iff.mp hfull)]
    obtain ⟨B', hstore, hring'⟩ := storeMsg_ok hB hring (by omega) hp.deref j
    have hlt := h.data_lt hq
    have hput := h.put (h.data_eq_iff hq) hring' (.inl rfl) le_rfl hlt
    rw [update_idem] at hput
    exact ⟨_, (pushQueueMsg_eq hq hmake).trans hstore, hput⟩

theorem pushQueueMsg_overflow (hj : lists j = some M) (hlong : ¬ M.length + 1 < 2 ^ 30) :
    w.pushQueueMsg j p = .error .overflow := by
  obtain ⟨q, B, size, head, hq, hB, hring⟩ := h.exists_ring hj
  have htail := hring.tail_lt
  have hroom := hring.room
  have hle := hring.size_le
  rw [pushQueueMsg, getQueue_ok hq, ok_bind, makeRoom, checkInt_ok (by omega) (by omega), ok_bind,
    if_pos (hring.full_iff.mpr (by omega)), hring.expand_overflow (by omega)]
  rfl

theorem popQueue_nil (hi : lists i = some []) : w.popQueue i = .ok (none, w) := by
  obtain ⟨q, B, size, head, hq, hB, hring⟩ := h.exists_ring hi
  rw [popQueue, getQueue_ok hq, ok_bind, if_pos (hring.head_eq_tail_iff.mpr rfl)]

/-- `pop_queue` returns a pointer to the first message, which stays in its cell until one more
message is stored. -/
theorem popQueue_cons (hi : lists i = some (m :: L)) : ∃ p w', w.popQueue i = .ok (some p, w') ∧
      w'.Represents (update lists i (some L)) ∧
      ∀ {j M}, update lists i (some L) j = some M → w'.PointsTo j M.length m p := by
  obtain ⟨q, B, size, head, hq, hB, hring⟩ := h.exists_ring hi
  have hhead := hring.head_lt
  have hle := hring.size_le
  have hroom := hring.room
  have hlt := h.data_lt hq
  have hput := h.put (h.data_eq_iff hq) hring.pop (.inl rfl) le_rfl hlt
  have hblock : update w.block q.data (some B) = w.block := update_eq_self_iff.mpr hB.symm
  rw [update_idem, hblock] at hput
  refine ⟨.cell q.data q.head, _, ?_, hput, fun {j M} hj => ⟨B, hB, ?_, fun r hr hdata => ?_⟩⟩
  · have hne : q.head ≠ q.tail := mt hring.head_eq_tail_iff.mp (cons_ne_nil m L)
    have heq := hring.head_eq
    rw [popQueue, getQueue_ok hq, ok_bind, if_neg hne, checkInt_ok (by omega) (by omega), ok_bind]
  · have hload := hring.load (i := 0) rfl
    rwa [Nat.add_zero, mod_eq_of_lt hhead, ← hring.head_eq] at hload
  · rw [update_some_eq_some_iff] at hr hj
    obtain ⟨rfl, rfl⟩ | ⟨hne, hr⟩ := hr
    · obtain ⟨-, rfl⟩ | ⟨hne, -⟩ := hj
      · dsimp only
        rw [length_cons] at hroom
        rw [hring.size_eq]
        omega
      · exact absurd rfl hne
    · exact absurd ((h.data_eq_iff hq hr).mp hdata) hne

/-- The loop of `release_queue` frees the buffer of every message once. -/
theorem releaseLoop_ok (hi : lists i = some L) (buffers : List β) (fuel : ℕ)
    (hfuel : L.length < fuel) :
    ∃ w', releaseLoop i fuel w buffers = .ok (w', buffers ++ L.map QueuedMsg.buffer) ∧
      w'.Represents (update lists i (some [])) := by
  induction L generalizing w lists fuel buffers with
  | nil =>
    obtain ⟨fuel, rfl⟩ := Nat.exists_eq_add_of_lt hfuel
    refine ⟨w, ?_, ?_⟩
    · rw [releaseLoop, popQueue_nil h hi, ok_bind, map_nil, append_nil]
    · rwa [update_eq_self_iff.mpr hi.symm]
  | cons m L ih =>
    obtain ⟨fuel, rfl⟩ := Nat.exists_eq_add_of_lt (zero_lt_of_lt hfuel)
    rw [length_cons] at hfuel
    obtain ⟨p, w₁, hpop, hw₁, hp⟩ := popQueue_cons h hi
    have hrest := update_self i (some L) lists
    obtain ⟨w', hloop, hw'⟩ := ih hw₁ hrest (buffers ++ [m.buffer]) (0 + fuel) (by omega)
    rw [update_idem] at hw'
    refine ⟨w', ?_, hw'⟩
    rw [releaseLoop, hpop, ok_bind]
    dsimp only
    rw [(hp hrest).deref, ok_bind, hloop, append_assoc]
    rfl

/-- `release_queue` frees the buffers, the block and the queue. -/
theorem releaseQueue_ok (hi : lists i = some L) :
    ∃ w', w.releaseQueue (some i) = .ok (w', L.map QueuedMsg.buffer) ∧
      w'.Represents (update lists i none) := by
  obtain ⟨q, B, size, head, hq, -, hring⟩ := h.exists_ring hi
  have hroom := hring.room
  obtain ⟨w₁, hloop, hw₁⟩ := releaseLoop_ok h hi [] q.size.toNat
    (by rw [hring.size_eq, Int.toNat_natCast]; exact hroom)
  obtain ⟨r, C, -, -, hr, hC, -⟩ := hw₁.exists_ring (update_self i (some []) lists)
  have hdrop := hw₁.drop hr
  rw [update_idem] at hdrop
  refine ⟨_, ?_, hdrop⟩
  rw [releaseQueue, getQueue_ok hq, ok_bind, hloop, ok_bind, nil_append]
  dsimp only
  rw [getQueue_ok hr, ok_bind, getBlock_ok hC, ok_bind]

end Functions

section Runs

variable [DecidableEq ι] {a : QueueOp ι β} {lists' : QueueLists ι β} {out : QueueOut β}

theorem call_ok (h : w.Represents lists) (ha : a.onLists lists = some (lists', out))
    (hsmall : a.Small lists) : ∃ w', w.call a = .ok (w', out) ∧ w'.Represents lists' := by
  cases a with
  | new i =>
    rw [QueueOp.onLists] at ha
    split at ha
    · next hi =>
      cases ha
      exact ⟨_, rfl, newQueue_represents h hi⟩
    · cases ha
  | push i buffer sz header =>
    obtain ⟨L, hi, heq⟩ := map_eq_some_iff.mp ha
    cases heq
    obtain ⟨w', hpush, hw'⟩ := pushQueueMsg_ok (p := .var ⟨header, buffer, sz⟩) h hi rfl
      (hsmall L hi)
    refine ⟨w', ?_, hw'⟩
    rw [call, pushQueue, hpush, ok_bind]
  | pop i =>
    obtain ⟨L, hi, heq⟩ := map_eq_some_iff.mp ha
    cases heq
    cases L with
    | nil =>
      refine ⟨w, ?_, ?_⟩
      · rw [call, popQueue_nil h hi, ok_bind]
        rfl
      · rwa [tail_nil, update_eq_self_iff.mpr hi.symm]
    | cons m L =>
      obtain ⟨p, w', hpop, hw', hp⟩ := popQueue_cons h hi
      refine ⟨w', ?_, hw'⟩
      rw [call, hpop, ok_bind]
      dsimp only
      rw [(hp (update_self i (some L) lists)).deref, ok_bind]
      rfl
  | move i j =>
    rw [QueueOp.onLists] at ha
    split at ha
    · cases ha
    · next hi =>
      cases ha
      refine ⟨w, ?_, h⟩
      rw [call, popQueue_nil h hi, ok_bind]
    · next m L hi =>
      obtain ⟨M, hj, heq⟩ := map_eq_some_iff.mp ha
      cases heq
      obtain ⟨p, w₁, hpop, hw₁, hp⟩ := popQueue_cons h hi
      obtain ⟨w', hpush, hw'⟩ := pushQueueMsg_ok hw₁ hj (hp hj) (hsmall m L M hi hj)
      refine ⟨w', ?_, hw'⟩
      rw [call, hpop, ok_bind]
      dsimp only
      rw [hpush, ok_bind]
  | release i =>
    cases i with
    | none =>
      cases ha
      exact ⟨w, rfl, h⟩
    | some i =>
      obtain ⟨L, hi, heq⟩ := map_eq_some_iff.mp ha
      cases heq
      obtain ⟨w', hrelease, hw'⟩ := releaseQueue_ok h hi
      refine ⟨w', ?_, hw'⟩
      rw [call, hrelease, ok_bind]

theorem call_overflow (h : w.Represents lists) (hlong : ¬ a.Small lists) :
    w.call a = .error .overflow := by
  cases a with
  | push i buffer sz header =>
    rw [QueueOp.Small] at hlong
    push Not at hlong
    obtain ⟨L, hi, hlong⟩ := hlong
    rw [call, pushQueue, pushQueueMsg_overflow h hi (by omega)]
    rfl
  | move i j =>
    rw [QueueOp.Small] at hlong
    push Not at hlong
    obtain ⟨m, L, M, hi, hj, hlong⟩ := hlong
    obtain ⟨p, w₁, hpop, hw₁, -⟩ := popQueue_cons h hi
    rw [call, hpop, ok_bind]
    dsimp only
    rw [pushQueueMsg_overflow hw₁ hj (by omega)]
    rfl
  | new i => exact absurd trivial hlong
  | pop i => exact absurd trivial hlong
  | release i => exact absurd trivial hlong

variable {ops : List (QueueOp ι β)}

theorem run_ok (h : w.Represents lists) {outs : List (QueueOut β)}
    (hops : onLists lists ops = some (lists', outs)) (hsmall : SmallRun lists ops) :
    ∃ w', w.run ops = .ok (w', outs) ∧ w'.Represents lists' := by
  induction ops generalizing w lists outs with
  | nil =>
    cases hops
    exact ⟨w, rfl, h⟩
  | cons a ops ih =>
    obtain ⟨⟨lists₁, out⟩, ha, hmap⟩ := bind_eq_some_iff.mp hops
    obtain ⟨⟨lists₂, outs₂⟩, hrest, heq⟩ := map_eq_some_iff.mp hmap
    cases heq
    obtain ⟨w₁, hcall, hw₁⟩ := call_ok h ha hsmall.1
    obtain ⟨w', hrun, hw'⟩ := ih hw₁ hrest (hsmall.2 _ _ ha)
    refine ⟨w', ?_, hw'⟩
    rw [run, hcall, ok_bind]
    dsimp only
    rw [hrun, ok_bind]

theorem run_overflow (h : w.Represents lists) (hops : (onLists lists ops).isSome)
    (hlong : ¬ SmallRun lists ops) : w.run ops = .error .overflow := by
  induction ops generalizing w lists with
  | nil => exact absurd trivial hlong
  | cons a ops ih =>
    obtain ⟨x, hx⟩ := isSome_iff_exists.mp hops
    obtain ⟨⟨lists₁, out⟩, ha, hrest⟩ := bind_eq_some_iff.mp hx
    by_cases hsmall : a.Small lists
    · obtain ⟨w₁, hcall, hw₁⟩ := call_ok h ha hsmall
      obtain ⟨y, hy, -⟩ := map_eq_some_iff.mp hrest
      have hlong₁ : ¬ SmallRun lists₁ ops := by
        intro hrun
        refine hlong ⟨hsmall, fun lists' out' ha' => ?_⟩
        rw [ha] at ha'
        cases ha'
        exact hrun
      rw [run, hcall, ok_bind]
      dsimp only
      rw [ih hw₁ (by rw [hy]; rfl) hlong₁]
      rfl
    · rw [run, call_overflow h hsmall]
      rfl

/-- The functions do what is done on lists, if and only if no queue of `2 ^ 30 - 1` messages gets
another one. -/
theorem acts_iff (ops : List (QueueOp ι β)) (hops : (onLists (fun _ => none) ops).isSome) :
    Acts empty (fun _ => none) ops ↔ SmallRun (fun _ => none) ops := by
  constructor
  · rintro ⟨w', lists', outs, -, hrun, -⟩
    by_contra hlong
    rw [run_overflow .empty hops hlong] at hrun
    cases hrun
  · intro hsmall
    obtain ⟨⟨lists', outs⟩, hlists⟩ := Option.isSome_iff_exists.mp hops
    obtain ⟨w', hrun, hw'⟩ := run_ok .empty hlists hsmall
    exact ⟨w', lists', outs, hlists, hrun, hw'⟩

/-- Two queues, and a message that is moved from one to the other. -/
def movedMessage : List (QueueOp Bool ℕ) :=
  [.new false, .new true, .push false 7 16 ⟨1, 2, 3⟩, .move false true, .pop false,
    .release (some true)]

theorem acts_movedMessage :
    Acts empty (fun _ => none) movedMessage ↔ SmallRun (fun _ => none) movedMessage :=
  acts_iff movedMessage rfl

/-! ### A queue that becomes too long -/

/-- The message that is pushed again and again. -/
def pushOnce : QueueOp Unit Unit := .push () () 0 ⟨0, 0, 0⟩

theorem onLists_pushOnce (L : List (QueuedMsg Unit)) : pushOnce.onLists (fun _ => some L) =
      some (fun _ => some (L ++ [⟨⟨0, 0, 0⟩, (), 0⟩]), .done) := by
  change some (update (fun _ => some L) () _, QueueOut.done) = _
  rw [update_eq_const_of_subsingleton]
  rfl

theorem onLists_pushes (n : ℕ) (L : List (QueuedMsg Unit)) :
    (onLists (fun _ => some L) (List.replicate n pushOnce)).isSome := by
  induction n generalizing L with
  | zero => rfl
  | succ n ih =>
    rw [replicate_succ, onLists, onLists_pushOnce, bind_some, isSome_map]
    exact ih _

theorem length_lt_of_smallRun {n : ℕ} {L : List (QueuedMsg Unit)} (hlength : L.length < 2 ^ 30)
    (h : SmallRun (fun _ => some L) (List.replicate n pushOnce)) : L.length + n < 2 ^ 30 := by
  induction n generalizing L with
  | zero => exact hlength
  | succ n ih =>
    obtain ⟨hsmall, hrest⟩ := h
    have hlt := ih (by rw [length_append]; exact hsmall L rfl) (hrest _ _ (onLists_pushOnce L))
    rw [length_append, length_singleton] at hlt
    omega

theorem onLists_new : (QueueOp.new () : QueueOp Unit Unit).onLists (fun _ => none) =
      some (fun _ => some [], .done) := by
  change some (update (fun _ => none) () _, QueueOut.done) = _
  rw [update_eq_const_of_subsingleton]
  rfl

theorem onLists_new_pushes (n : ℕ) :
    (onLists (fun _ => none) (.new () :: List.replicate n pushOnce)).isSome := by
  rw [onLists, onLists_new, bind_some, isSome_map]
  exact onLists_pushes n []

theorem not_smallRun_of_le {n : ℕ} (hn : 2 ^ 30 ≤ n) :
    ¬ SmallRun (fun _ => none) (.new () :: List.replicate n pushOnce) := by
  intro hsmall
  have hlt := length_lt_of_smallRun (L := []) (Nat.two_pow_pos 30) (hsmall.2 _ _ onLists_new)
  rw [length_nil] at hlt
  omega

/-- A queue gets `2 ^ 30` messages. -/
theorem pushes_overflow :
    (onLists (fun _ => none) (.new () :: List.replicate (2 ^ 30) pushOnce)).isSome ∧
      (empty : HarborHeap Unit Unit).run (.new () :: List.replicate (2 ^ 30) pushOnce) =
        .error .overflow :=
  ⟨onLists_new_pushes _, run_overflow .empty (onLists_new_pushes _) (not_smallRun_of_le le_rfl)⟩

end Runs

end HarborHeap

end Uboss.Module
