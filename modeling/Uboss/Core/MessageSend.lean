import Uboss.Core.HandleName
import Uboss.Core.MessageQueue
import Uboss.Math.Blocks

/-!
# Sending a message

`uboss_send` and `uboss_sendname` copy the payload unless `PTYPE_TAG_DONTCOPY` is set, and put it in
the queue of a context or in a remote message, which goes to the queue of the harbor service.

The state has the blocks of memory and the messages that were put in queues. A message in the queue
of a context that is deleted afterwards is freed with the queue. The logging of a message that is
too large is left out.
-/

namespace Uboss.Core

open Math List Except

def ptypeTagDontcopy : UInt32 := 0x10000

def ptypeTagAllocsession : UInt32 := 0x20000

def messageTypeShift : UInt64 := 56

def messageTypeMask : UInt64 := 0xffffffffffffff

def globalnameLength : ℕ := 16

/-- `struct remote_message`. The name is not set for a destination that is a handle. -/
structure RemoteMessage where
  name : Option (List UInt8)
  handle : ℕ
  message : ℕ
  sz : UInt64
  deriving DecidableEq, Repr

/-- `sizeof(struct remote_message)`. -/
def remoteMessageSize : UInt64 := 40

/-- A block: bytes, or a remote message. -/
inductive SendBlock
  | bytes (l : List UInt8)
  | remote (rmsg : RemoteMessage)
  deriving DecidableEq, Repr

/-- Why a call does not return: one of its assertions fails, or a block is used that is not
allocated or too small. -/
inductive SendFault
  | sessionNotZero
  | harborType
  | noRemote
  | noHarbor
  | memory
  deriving DecidableEq, Repr

/-- The state. A null pointer is the address 0. -/
structure SendNode where
  storage : HandleStorage
  handleOf : CtxId → ℕ
  sessionOf : CtxId → ℤ
  /-- `HARBOR` -/
  harbor : ℕ
  /-- `REMOTE` -/
  remote : Option CtxId
  heap : Blocks SendBlock
  /-- The messages that were put in the queues of contexts. -/
  queued : List (CtxId × UbossMessage)

/-- The block is a remote message with the payload `b`. -/
def SendBlock.holds (b : ℕ) : SendBlock → Bool
  | .bytes _ => false
  | .remote r => r.message = b

namespace SendNode

variable (s : SendNode)

/-- `uboss_malloc`, and the initialisation of the block. -/
def ubossMalloc (b : SendBlock) : ℕ × SendNode :=
  (s.heap.length, { s with heap := s.heap ++ [some b] })

def ubossFree (data : ℕ) : Except SendFault SendNode :=
  if data = 0 then .ok s
  else
    match s.heap[data]? with
    | some (some _) => .ok { s with heap := s.heap.set data none }
    | _ => .error .memory

/-- The error paths free the payload if it was not copied. -/
def freeUncopied (type : UInt32) (data : ℕ) : Except SendFault SendNode :=
  if type &&& ptypeTagDontcopy ≠ 0 then s.ubossFree data else .ok s

/-- `uboss_mq_push` on the queue of a context. -/
def ubossMqPush (c : CtxId) (message : UbossMessage) : SendNode :=
  { s with queued := s.queued ++ [(c, message)] }

/-- `uboss_context_push`: no state for the result -1. -/
def ubossContextPush (handle : ℕ) (message : UbossMessage) : Option SendNode :=
  (ubossHandleGrab s.handleOf s.storage handle).map fun c => s.ubossMqPush c message

def ubossContextNewsession (c : CtxId) : ℤ × SendNode :=
  let session := (s.sessionOf c + 1).bmod (2 ^ 32)
  let session := if session ≤ 0 then 1 else session
  (session, { s with sessionOf := Function.update s.sessionOf c session })

/-- The session of `_filter_args`. -/
def filterSession (context : CtxId) (type : UInt32) (session : ℤ) :
    Except SendFault (ℤ × SendNode) :=
  if type &&& ptypeTagAllocsession ≠ 0 then
    if session ≠ 0 then .error .sessionNotZero else .ok (s.ubossContextNewsession context)
  else .ok (session, s)

/-- The copy of `_filter_args`. -/
def filterData (type : UInt32) (data : ℕ) (sz : UInt64) : Except SendFault (ℕ × SendNode) :=
  if type &&& ptypeTagDontcopy = 0 ∧ data ≠ 0 then
    match s.heap[data]? with
    | some (some (.bytes l)) =>
      -- the size of the copy must not be 2^64
      if sz.toNat ≤ l.length ∧ sz + 1 ≠ 0 then
        .ok (s.ubossMalloc (.bytes (l.take sz.toNat ++ [0])))
      else .error .memory
    | _ => .error .memory
  else .ok (data, s)

/-- The size with the type in its top byte. -/
def filterSize (type : UInt32) (sz : UInt64) : UInt64 :=
  sz ||| (type &&& 0xff).toUInt64 <<< messageTypeShift

def ubossHarborMessageIsremote (handle : ℕ) : Except SendFault Bool :=
  if s.harbor = 2 ^ 32 - 1 then .error .noHarbor
  else
    let h := handle &&& 0xff000000
    .ok (h ≠ s.harbor && h ≠ 0)

def ubossHarborSend (rmsg source : ℕ) (session : ℤ) : Except SendFault SendNode :=
  match s.heap[rmsg]? with
  | some (some (.remote r)) =>
    let type := r.sz >>> messageTypeShift
    -- `PTYPE_SYSTEM` and `PTYPE_HARBOR`
    if type = 4 ∨ type = 5 then .error .harborType
    else
      match s.remote with
      | none => .error .noRemote
      | some c =>
        let r' := { r with sz := r.sz &&& messageTypeMask }
        .ok ({ s with heap := s.heap.set rmsg (some (.remote r')) }
          |>.ubossMqPush c ⟨source, session, rmsg,
            (remoteMessageSize ||| type <<< messageTypeShift).toNat⟩)
  | _ => .error .memory

/-- `source`, which is the context itself if it is 0. -/
def sourceOf (context : CtxId) (source : ℕ) : ℕ :=
  if source = 0 then s.handleOf context else source

/-- The branches of `uboss_send` for remote and local destinations, after `_filter_args`. -/
def deliver (source destination : ℕ) (session : ℤ) (data : ℕ) (sz : UInt64) :
    Except SendFault (ℤ × SendNode) :=
  (s.ubossHarborMessageIsremote destination).bind fun remote =>
  if remote then
    let x := s.ubossMalloc (.remote ⟨none, destination, data, sz⟩)
    (x.2.ubossHarborSend x.1 source session).map fun s => (session, s)
  else
    match s.ubossContextPush destination ⟨source, session, data, sz.toNat⟩ with
    | some s => .ok (session, s)
    | none => (s.ubossFree data).map fun s => (-1, s)

def ubossSend (context : CtxId) (source destination : ℕ) (type : UInt32) (session : ℤ)
    (data : ℕ) (sz : UInt64) : Except SendFault (ℤ × SendNode) :=
  if sz &&& messageTypeMask ≠ sz then (s.freeUncopied type data).map fun s => (-1, s)
  else
    (s.filterSession context type session).bind fun x =>
    (x.2.filterData type data sz).bind fun y =>
    if destination = 0 then .ok (x.1, y.2)
    else y.2.deliver (y.2.sourceOf context source) destination x.1 y.1 (filterSize type sz)

/-- `copy_name`: the name is cut, or filled with zeros. -/
def copyName (addr : List UInt8) : List UInt8 :=
  let name := addr.take globalnameLength
  name ++ List.replicate (globalnameLength - name.length) 0

/-- The branch of `uboss_sendname` for a global name. -/
def sendGlobal (context : CtxId) (source : ℕ) (addr : List UInt8) (type : UInt32) (session : ℤ)
    (data : ℕ) (sz : UInt64) : Except SendFault (ℤ × SendNode) :=
  (s.filterSession context type session).bind fun x =>
  (x.2.filterData type data sz).bind fun y =>
  let z := y.2.ubossMalloc (.remote ⟨some (copyName addr), 0, y.1, filterSize type sz⟩)
  (z.2.ubossHarborSend z.1 source x.1).map fun s => (x.1, s)

def ubossSendname (context : CtxId) (source : ℕ) (addr : List UInt8) (type : UInt32)
    (session : ℤ) (data : ℕ) (sz : UInt64) : Except SendFault (ℤ × SendNode) :=
  let source := s.sourceOf context source
  if addr.head? = some ':'.toUInt8 then
    s.ubossSend context source (strtoulHex addr.tail % 2 ^ 32) type session data sz
  else if addr.head? = some '.'.toUInt8 then
    let des := ubossHandleFindname s.storage addr.tail
    if des = 0 then (s.freeUncopied type data).map fun s => (-1, s)
    else s.ubossSend context source des type session data sz
  else s.sendGlobal context source addr type session data sz

/-! ### Owners -/

/-- The number of messages in queues and of remote messages with the payload `b`. -/
def owners (b : ℕ) : ℕ :=
  s.queued.countP (fun x => x.2.data = b) + countBlocks (SendBlock.holds b) s.heap

/-- A call put the block in one queue or one remote message, or it freed the block. -/
def Settled (s s' : SendNode) (b : ℕ) : Prop :=
  Allocated s'.heap b ∧ s'.owners b = s.owners b + 1 ∨ Freed s'.heap b ∧ s'.owners b = s.owners b

/-- A call neither freed the block nor kept it. -/
def Untouched (s s' : SendNode) (b : ℕ) : Prop :=
  s'.heap[b]? = s.heap[b]? ∧ s'.owners b = s.owners b

/-- What became of the payload, of the copy and of the remote message. -/
structure Accounted (s s' : SendNode) (type : UInt32) (data : ℕ) : Prop where
  payload : type &&& ptypeTagDontcopy ≠ 0 → Settled s s' data
  caller : type &&& ptypeTagDontcopy = 0 → Untouched s s' data
  fresh : ∀ b, s.heap.length ≤ b → b < s'.heap.length → Settled s s' b
  others : ∀ b < s.heap.length, b ≠ data → Untouched s s' b

variable {s} {s' u : SendNode} {b p data source destination : ℕ} {l : List UInt8}
  {context : CtxId} {type : UInt32} {session result : ℤ} {sz : UInt64} {addr : List UInt8}

theorem owners_eq (hheap : s'.heap = s.heap) (hqueued : s'.queued = s.queued) (b : ℕ) :
    s'.owners b = s.owners b := by
  rw [owners, owners, hheap, hqueued]

theorem ubossFree_ok (hdata : data ≠ 0) (hblock : s.heap[data]? = some (some (.bytes l))) :
    s.ubossFree data = .ok { s with heap := s.heap.set data none } := by
  rw [ubossFree, if_neg hdata, hblock]

/-- From `s` to `s'` the payload `p` found its place. -/
structure Placed (s s' : SendNode) (p : ℕ) : Prop where
  payload : Settled s s' p
  fresh : ∀ b, s.heap.length ≤ b → b < s'.heap.length → Settled s s' b
  others : ∀ b < s.heap.length, b ≠ p → Untouched s s' b

section

variable (hblock : s.heap[p]? = some (some (.bytes l)))
include hblock

theorem placed_free : Placed s { s with heap := s.heap.set p none } p := by
  have hlt := lt_of_getElem? hblock
  have howners : ∀ b, owners { s with heap := s.heap.set p none } b = s.owners b := by
    intro b
    have hcount := countBlocks_free (p := SendBlock.holds b) hblock
    have hbytes : SendBlock.holds b (.bytes l) = false := rfl
    rw [hbytes] at hcount
    exact congrArg (s.queued.countP (fun x => x.2.data = b) + ·) hcount
  refine ⟨.inr ⟨?_, howners p⟩, fun b hb hb' => ?_, fun b _ hne => ⟨?_, howners b⟩⟩
  · exact getElem?_set_self hlt
  · rw [length_set] at hb'
    omega
  · exact getElem?_set_ne (Ne.symm hne)

theorem placed_push (c : CtxId) {message : UbossMessage} (hmessage : message.data = p) :
    Placed s (s.ubossMqPush c message) p := by
  have howners : ∀ b, (s.ubossMqPush c message).owners b = s.owners b + if p = b then 1 else 0 := by
    intro b
    rw [owners, ubossMqPush, countP_append, countP_singleton, owners]
    simp only [hmessage, decide_eq_true_eq]
    omega
  refine ⟨.inl ⟨⟨_, hblock⟩, ?_⟩, fun b hb hb' => absurd hb' (not_lt.mpr hb),
    fun b _ hne => ⟨rfl, ?_⟩⟩
  · rw [howners, if_pos rfl]
  · rw [howners, if_neg (Ne.symm hne), Nat.add_zero]

/-- The payload is put in a remote message, which is put in a queue. -/
theorem placed_remote {r : RemoteMessage} (hr : r.message = p) {c : CtxId} {message : UbossMessage}
    (hmessage : message.data = s.heap.length) (hheap : s'.heap = s.heap ++ [some (.remote r)])
    (hqueued : s'.queued = s.queued ++ [(c, message)]) : Placed s s' p := by
  have hlt := lt_of_getElem? hblock
  have howners : ∀ b, s'.owners b =
      s.owners b + (if s.heap.length = b then 1 else 0) + if p = b then 1 else 0 := by
    intro b
    rw [owners, hqueued, hheap, countP_append, countP_singleton, countBlocks_malloc, owners]
    simp only [hmessage, SendBlock.holds, hr, decide_eq_true_eq]
    omega
  refine ⟨.inl ⟨⟨.bytes l, ?_⟩, ?_⟩, fun b hb hb' => .inl ?_, fun b hb hne => ⟨?_, ?_⟩⟩
  · rw [hheap, getElem?_malloc_of_lt hlt, hblock]
  · rw [howners, if_neg (by omega), if_pos rfl]
  · rw [hheap, length_append, length_singleton] at hb'
    obtain rfl : b = s.heap.length := by omega
    refine ⟨⟨.remote r, by rw [hheap, getElem?_malloc]⟩, ?_⟩
    rw [howners, if_pos rfl, if_neg (by omega)]
  · rw [hheap, getElem?_malloc_of_lt hb]
  · rw [howners, if_neg (by omega), if_neg (Ne.symm hne), Nat.add_zero]

end

theorem ubossHarborSend_ok {r : RemoteMessage}
    (h : (s.ubossMalloc (.remote r)).2.ubossHarborSend (s.ubossMalloc (.remote r)).1 source
      session = .ok s') :
    ∃ (r' : RemoteMessage) (c : CtxId) (message : UbossMessage), r'.message = r.message ∧
      message.data = s.heap.length ∧ s'.heap = s.heap ++ [some (.remote r')] ∧
      s'.queued = s.queued ++ [(c, message)] := by
  have hblock : (s.ubossMalloc (.remote r)).2.heap[s.heap.length]? = some (some (.remote r)) :=
    getElem?_malloc
  rw [ubossHarborSend] at h
  dsimp only [ubossMalloc] at h hblock
  rw [hblock] at h
  dsimp only at h
  split_ifs at h
  split at h
  · cases h
  · obtain rfl := ok.inj h
    refine ⟨{ r with sz := r.sz &&& messageTypeMask }, _, _, rfl, rfl, ?_, rfl⟩
    rw [ubossMqPush]
    dsimp only
    rw [set_append_right _ _ le_rfl, Nat.sub_self]
    rfl

theorem deliver_placed (hp : p ≠ 0) (hblock : s.heap[p]? = some (some (.bytes l)))
    (h : s.deliver source destination session p sz = .ok (result, s')) : Placed s s' p := by
  obtain ⟨remote, -, h⟩ := bind_eq_ok_iff.mp h
  split_ifs at h
  · obtain ⟨u, hsend, hu⟩ := map_eq_ok_iff.mp h
    obtain ⟨-, rfl⟩ := Prod.mk.inj hu
    obtain ⟨r', c, message, hr, hmessage, hheap, hqueued⟩ := ubossHarborSend_ok hsend
    exact placed_remote hblock hr hmessage hheap hqueued
  · cases hgrab : ubossHandleGrab s.handleOf s.storage destination with
    | none =>
      rw [ubossContextPush, hgrab, Option.map_none, ubossFree_ok hp hblock] at h
      obtain ⟨-, rfl⟩ := Prod.mk.inj (ok.inj h)
      exact placed_free hblock
    | some c =>
      rw [ubossContextPush, hgrab, Option.map_some] at h
      obtain ⟨-, rfl⟩ := Prod.mk.inj (ok.inj h)
      exact placed_push hblock c rfl

/-! ### The arguments -/

/-- `_filter_args` leaves the payload at `p`: the block of the caller, or a copy. -/
structure Filtered (s u : SendNode) (type : UInt32) (data p : ℕ) : Prop where
  queued : u.queued = s.queued
  heap : type &&& ptypeTagDontcopy ≠ 0 ∧ p = data ∧ u.heap = s.heap ∨
    type &&& ptypeTagDontcopy = 0 ∧ p = s.heap.length ∧
      ∃ copy, u.heap = s.heap ++ [some (.bytes copy)]

theorem filterSession_frame (h : s.filterSession context type session = .ok (result, u)) :
    u.heap = s.heap ∧ u.queued = s.queued := by
  unfold filterSession at h
  split_ifs at h
  · obtain ⟨-, rfl⟩ := Prod.mk.inj (ok.inj h)
    exact ⟨rfl, rfl⟩
  · obtain ⟨-, rfl⟩ := Prod.mk.inj (ok.inj h)
    exact ⟨rfl, rfl⟩

theorem session_of_filterSession {x : ℤ × SendNode}
    (h : s.filterSession context type session = .ok x) (htag : type &&& ptypeTagAllocsession ≠ 0) :
    session = 0 := by
  unfold filterSession at h
  by_contra hsession
  rw [if_pos htag, if_pos hsession] at h
  cases h

theorem filterData_filtered (hdata : data ≠ 0) (hblock : s.heap[data]? = some (some (.bytes l)))
    (h : s.filterData type data sz = .ok (p, u)) : Filtered s u type data p := by
  unfold filterData at h
  by_cases hcopy : type &&& ptypeTagDontcopy = 0
  · rw [if_pos ⟨hcopy, hdata⟩, hblock] at h
    dsimp only at h
    split_ifs at h
    obtain ⟨rfl, rfl⟩ := Prod.mk.inj (ok.inj h)
    exact ⟨rfl, .inr ⟨hcopy, rfl, _, rfl⟩⟩
  · rw [if_neg fun h => hcopy h.1] at h
    obtain ⟨rfl, rfl⟩ := Prod.mk.inj (ok.inj h)
    exact ⟨rfl, .inl ⟨hcopy, rfl, rfl⟩⟩

namespace Filtered

variable (hf : Filtered s u type data p)

include hf

theorem owners (b : ℕ) : u.owners b = s.owners b := by
  rcases hf.heap with ⟨-, -, hheap⟩ | ⟨-, -, copy, hheap⟩
  · exact owners_eq hheap hf.queued b
  · rw [SendNode.owners, hheap, hf.queued, countBlocks_malloc]
    rfl

theorem block (hblock : s.heap[data]? = some (some (.bytes l))) :
    ∃ l, u.heap[p]? = some (some (.bytes l)) := by
  rcases hf.heap with ⟨-, rfl, hheap⟩ | ⟨-, rfl, copy, hheap⟩
  · exact ⟨l, by rw [hheap, hblock]⟩
  · exact ⟨copy, by rw [hheap, getElem?_malloc]⟩

theorem ne_zero (hdata : data ≠ 0) (hblock : s.heap[data]? = some (some (.bytes l))) : p ≠ 0 := by
  have hlt := lt_of_getElem? hblock
  rcases hf.heap with ⟨-, rfl, -⟩ | ⟨-, rfl, -⟩
  · exact hdata
  · omega

theorem settled (h : Settled u s' b) : Settled s s' b := by
  rwa [Settled, hf.owners] at h

theorem untouched (hb : b < s.heap.length) (h : Untouched u s' b) : Untouched s s' b := by
  obtain ⟨hblock, howners⟩ := h
  refine ⟨?_, howners.trans (hf.owners b)⟩
  rcases hf.heap with ⟨-, -, hheap⟩ | ⟨-, -, copy, hheap⟩
  · rw [hblock, hheap]
  · rw [hblock, hheap, getElem?_malloc_of_lt hb]

variable (hblock : s.heap[data]? = some (some (.bytes l)))
include hblock

theorem accounted (h : Placed u s' p) : Accounted s s' type data := by
  have hlt := lt_of_getElem? hblock
  rcases hf.heap with ⟨htag, rfl, hheap⟩ | ⟨htag, rfl, copy, hheap⟩
  · have hlength : u.heap.length = s.heap.length := by rw [hheap]
    exact {
      payload := fun _ => hf.settled h.payload
      caller := fun hno => absurd hno htag
      fresh := fun b hb hb' => hf.settled (h.fresh b (hlength ▸ hb) hb')
      others := fun b hb hne => hf.untouched hb (h.others b (hlength ▸ hb) hne) }
  · have hlength : u.heap.length = s.heap.length + 1 := by
      rw [hheap, length_append, length_singleton]
    exact {
      payload := fun hyes => absurd htag hyes
      caller := fun _ => hf.untouched hlt (h.others data (by omega) (by omega))
      fresh := fun b hb hb' => by
        by_cases hcopy : b = s.heap.length
        · exact hf.settled (hcopy ▸ h.payload)
        · exact hf.settled (h.fresh b (by omega) hb')
      others := fun b hb _ => hf.untouched hb (h.others b (by omega) (by omega)) }

theorem not_accounted : ¬ Accounted s u type data := by
  intro haccounted
  have hsettled : Settled s u p := by
    rcases hf.heap with ⟨htag, rfl, -⟩ | ⟨-, rfl, copy, hheap⟩
    · exact haccounted.payload htag
    · refine haccounted.fresh _ le_rfl ?_
      rw [hheap, length_append, length_singleton]
      exact Nat.lt_succ_self _
  obtain ⟨copy, hcopy⟩ := hf.block hblock
  rcases hsettled with ⟨-, howners⟩ | ⟨hfreed, -⟩
  · rw [hf.owners] at howners
    omega
  · exact not_freed_of_allocated ⟨_, hcopy⟩ hfreed

end Filtered

/-! ### The functions -/

section

variable (hdata : data ≠ 0) (hblock : s.heap[data]? = some (some (.bytes l)))
include hdata hblock

theorem freeUncopied_accounted
    (h : (s.freeUncopied type data).map (fun s => ((-1 : ℤ), s)) = .ok (result, s')) :
    Accounted s s' type data := by
  obtain ⟨u, hfree, hu⟩ := map_eq_ok_iff.mp h
  obtain ⟨-, rfl⟩ := Prod.mk.inj hu
  unfold freeUncopied at hfree
  split_ifs at hfree with htag
  · rw [ubossFree_ok hdata hblock] at hfree
    obtain rfl := ok.inj hfree
    have hf : Filtered s s type data data := ⟨rfl, .inl ⟨htag, rfl, rfl⟩⟩
    exact hf.accounted hblock (placed_free hblock)
  · obtain rfl := ok.inj hfree
    exact {
      payload := fun hyes => absurd hyes htag
      caller := fun _ => ⟨rfl, rfl⟩
      fresh := fun b hb hb' => absurd hb' (not_lt.mpr hb)
      others := fun b _ _ => ⟨rfl, rfl⟩ }

theorem filterArgs_filtered {x : ℤ × SendNode} {y : ℕ × SendNode}
    (hsession : s.filterSession context type session = .ok x)
    (hcopy : x.2.filterData type data sz = .ok y) : Filtered s y.2 type data y.1 := by
  obtain ⟨hheap, hqueued⟩ := filterSession_frame hsession
  obtain ⟨hqueued', hheap'⟩ := filterData_filtered hdata (hheap ▸ hblock) hcopy
  rw [hqueued] at hqueued'
  rw [hheap] at hheap'
  exact ⟨hqueued', hheap'⟩

theorem ubossSend_accounted (hdestination : sz &&& messageTypeMask = sz →
      (type &&& ptypeTagAllocsession ≠ 0 → session = 0) → destination ≠ 0)
    (h : s.ubossSend context source destination type session data sz = .ok (result, s')) :
    Accounted s s' type data := by
  unfold ubossSend at h
  by_cases hlarge : sz &&& messageTypeMask ≠ sz
  · rw [if_pos hlarge] at h
    exact freeUncopied_accounted hdata hblock h
  · rw [if_neg hlarge] at h
    obtain ⟨x, hsession, h⟩ := bind_eq_ok_iff.mp h
    obtain ⟨y, hcopy, h⟩ := bind_eq_ok_iff.mp h
    rw [if_neg (hdestination (not_not.mp hlarge) (session_of_filterSession hsession))] at h
    have hf := filterArgs_filtered hdata hblock hsession hcopy
    obtain ⟨copy, hpayload⟩ := hf.block hblock
    exact hf.accounted hblock (deliver_placed (hf.ne_zero hdata hblock) hpayload h)

theorem sendGlobal_accounted
    (h : s.sendGlobal context source addr type session data sz = .ok (result, s')) :
    Accounted s s' type data := by
  unfold sendGlobal at h
  obtain ⟨x, hsession, h⟩ := bind_eq_ok_iff.mp h
  obtain ⟨y, hcopy, h⟩ := bind_eq_ok_iff.mp h
  obtain ⟨u, hsend, hu⟩ := map_eq_ok_iff.mp h
  obtain ⟨-, rfl⟩ := Prod.mk.inj hu
  have hf := filterArgs_filtered hdata hblock hsession hcopy
  obtain ⟨copy, hpayload⟩ := hf.block hblock
  obtain ⟨r', c, message, hr, hmessage, hheap, hqueued⟩ := ubossHarborSend_ok hsend
  exact hf.accounted hblock (placed_remote hpayload hr hmessage hheap hqueued)

end

/-- A call for the destination 0 returns as soon as the payload is copied. -/
theorem ubossSend_zero (context : CtxId) (source : ℕ) (hdata : data ≠ 0)
    (hblock : s.heap[data]? = some (some (.bytes l))) (hsize : sz.toNat ≤ l.length)
    (hfits : sz &&& messageTypeMask = sz)
    (hsession : type &&& ptypeTagAllocsession ≠ 0 → session = 0) :
    ∃ result s', s.ubossSend context source 0 type session data sz = .ok (result, s') ∧
      ¬ Accounted s s' type data := by
  obtain ⟨x, hx⟩ : ∃ x, s.filterSession context type session = .ok x := by
    unfold filterSession
    split_ifs with htag hzero
    · exact absurd (hsession htag) hzero
    · exact ⟨_, rfl⟩
    · exact ⟨_, rfl⟩
  have hnext : sz + 1 ≠ 0 := by
    intro hzero
    obtain rfl : sz = -1 := by
      have := congrArg (· - 1) hzero
      simpa using this
    exact absurd hfits (by decide)
  obtain ⟨y, hy⟩ : ∃ y, x.2.filterData type data sz = .ok y := by
    unfold filterData
    rw [(filterSession_frame hx).1, hblock]
    split_ifs with hcopy
    · dsimp only
      rw [if_pos ⟨hsize, hnext⟩]
      exact ⟨_, rfl⟩
    · exact ⟨_, rfl⟩
  have hf := filterArgs_filtered hdata hblock hx hy
  refine ⟨x.1, y.2, ?_, hf.not_accounted hblock⟩
  rw [ubossSend, if_neg (not_not.mpr hfits), hx, Except.bind, hy, Except.bind, if_pos rfl]

end SendNode

/-- The two functions, with their destination. -/
inductive SendCall
  | send (destination : ℕ)
  | sendname (addr : List UInt8)
  deriving DecidableEq, Repr

namespace SendCall

/-- The call. -/
def run (call : SendCall) (s : SendNode) (context : CtxId) (source : ℕ) (type : UInt32)
    (session : ℤ) (data : ℕ) (sz : UInt64) : Except SendFault (ℤ × SendNode) :=
  match call with
  | send destination => s.ubossSend context source destination type session data sz
  | sendname addr => s.ubossSendname context source addr type session data sz

/-- The destination is 0, given as a handle or in the text of an address. -/
def ToZero : SendCall → Prop
  | send destination => destination = 0
  | sendname addr => addr.head? = some ':'.toUInt8 ∧ strtoulHex addr.tail % 2 ^ 32 = 0

/-- The destination is 0, and the call gets as far as the test of it. -/
structure Strays (call : SendCall) (type : UInt32) (session : ℤ) (sz : UInt64) : Prop where
  zero : call.ToZero
  fits : sz &&& messageTypeMask = sz
  session : type &&& ptypeTagAllocsession ≠ 0 → session = 0

variable {call : SendCall} {s s' : SendNode} {context : CtxId} {source data : ℕ} {type : UInt32}
  {session result : ℤ} {sz : UInt64} {l : List UInt8}

open SendNode

/-- A call that returns has accounted for the block of the message. -/
theorem run_accounted (hdata : data ≠ 0) (hblock : s.heap[data]? = some (some (.bytes l)))
    (hcall : ¬ call.Strays type session sz)
    (h : call.run s context source type session data sz = .ok (result, s')) :
    Accounted s s' type data := by
  cases call with
  | send destination =>
    exact ubossSend_accounted hdata hblock
      (fun hfits hsession hzero => hcall ⟨hzero, hfits, hsession⟩) h
  | sendname addr =>
    rw [run, ubossSendname] at h
    by_cases hcolon : addr.head? = some ':'.toUInt8
    · rw [if_pos hcolon] at h
      exact ubossSend_accounted hdata hblock
        (fun hfits hsession hzero => hcall ⟨⟨hcolon, hzero⟩, hfits, hsession⟩) h
    · rw [if_neg hcolon] at h
      by_cases hdot : addr.head? = some '.'.toUInt8
      · rw [if_pos hdot] at h
        by_cases hdes : ubossHandleFindname s.storage addr.tail = 0
        · rw [if_pos hdes] at h
          exact freeUncopied_accounted hdata hblock h
        · rw [if_neg hdes] at h
          exact ubossSend_accounted hdata hblock (fun _ _ => hdes) h
      · rw [if_neg hdot] at h
        exact sendGlobal_accounted hdata hblock h

/-- A call that returns has left no block behind, one case apart. -/
theorem run_strays (context : CtxId) (source : ℕ) (hdata : data ≠ 0)
    (hblock : s.heap[data]? = some (some (.bytes l))) (hsize : sz.toNat ≤ l.length)
    (hcall : call.Strays type session sz) :
    ∃ result s', call.run s context source type session data sz = .ok (result, s') ∧
      ¬ Accounted s s' type data := by
  cases call with
  | send destination =>
    obtain rfl : destination = 0 := hcall.zero
    exact ubossSend_zero context source hdata hblock hsize hcall.fits hcall.session
  | sendname addr =>
    obtain ⟨hcolon, hzero⟩ := hcall.zero
    obtain ⟨result, s', hsend, hlost⟩ := ubossSend_zero context (s.sourceOf context source)
      hdata hblock hsize hcall.fits hcall.session
    refine ⟨result, s', ?_, hlost⟩
    rw [run, ubossSendname, if_pos hcolon, hzero]
    exact hsend

/-- A call accounts for the payload, unless its destination is 0. -/
theorem accounted_iff (s : SendNode) (call : SendCall) (context : CtxId) (source data : ℕ)
    (type : UInt32) (session : ℤ) (sz : UInt64) (l : List UInt8) (hdata : data ≠ 0)
    (hblock : s.heap[data]? = some (some (.bytes l))) (hsize : sz.toNat ≤ l.length) :
    (∀ result s', call.run s context source type session data sz = .ok (result, s') →
        Accounted s s' type data) ↔
      ¬ call.Strays type session sz := by
  constructor
  · intro hall hstrays
    obtain ⟨result, s', hrun, hlost⟩ := run_strays context source hdata hblock hsize hstrays
    exact hlost (hall result s' hrun)
  · intro hcall result s' hrun
    exact run_accounted hdata hblock hcall hrun

/-- A node with one service, the harbor service, and a block of the caller. -/
def oneService : SendNode where
  storage := { ubossHandleInit 1 with slot := Function.update (fun _ => none) 1 (some 0) }
  handleOf _ := 0x1000001
  sessionOf _ := 0
  harbor := 0x1000000
  remote := some 0
  heap := [none, some (.bytes [104, 105])]
  queued := []

/-- A remote name: the copy is put in a remote message. -/
theorem accounted_iff_global :
    (∃ result s', (sendname [78]).run oneService 0 0 10 7 1 2 = .ok (result, s') ∧
        s'.heap.length = 4) ∧
      ∀ result s', (sendname [78]).run oneService 0 0 10 7 1 2 = .ok (result, s') →
        Accounted oneService s' 10 1 := by
  refine ⟨⟨_, _, rfl, rfl⟩, ?_⟩
  refine (accounted_iff oneService (sendname [78]) 0 0 1 10 7 2 [104, 105] (by decide) rfl
    (by decide)).mpr fun hstrays => ?_
  exact absurd hstrays.zero.1 (by decide)

/-- The copy of a message to the handle 0 is lost. -/
theorem zero_not_accounted :
    ¬ ∀ (s : SendNode) (call : SendCall) (context : CtxId) (source data : ℕ) (type : UInt32)
      (session : ℤ) (sz : UInt64) (l : List UInt8), data ≠ 0 →
      s.heap[data]? = some (some (.bytes l)) → sz.toNat ≤ l.length →
      ∀ result s', call.run s context source type session data sz = .ok (result, s') →
        Accounted s s' type data := by
  intro hclaim
  have hstrays : (send 0).Strays 0 0 2 := ⟨rfl, by decide, fun _ => rfl⟩
  have hblock : oneService.heap[1]? = some (some (.bytes [104, 105])) := rfl
  obtain ⟨result, s', hrun, hlost⟩ := run_strays 0 0 Nat.one_ne_zero hblock (by decide) hstrays
  exact hlost (hclaim oneService (.send 0) 0 0 1 0 0 2 [104, 105] (by decide) rfl (by decide)
    result s' hrun)

end SendCall

end Uboss.Core
