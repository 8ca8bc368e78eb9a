import Mathlib.Data.List.Find
import Uboss.Module.HarborEffect
import Uboss.Module.HarborRemote

/-!
# The two models of a link

`push_socket_data` and `remote_send_handle` stand in the model of the receiver, which only records
the calls, and in that of the whole service, which counts the blocks too and knows what a message is
for. Without the blocks and the origins, the service is the receiver.
-/

namespace Uboss.Module

open Function List Except

/-- What is in a message. -/
def NodeMsg.plain (m : NodeMsg) : HarborMsg := ⟨m.header, m.data⟩

/-- A slave without the numbers of its blocks. -/
def NodeSlave.plain (s : NodeSlave) : Slave where
  fd := s.fd
  queue := s.queue.map fun queue => queue.map NodeMsg.plain
  status := s.status
  length := s.length
  read := s.read
  size := s.size
  recvBuffer := s.recvBuffer.map Prod.snd

namespace HarborNode

/-- The slaves and the calls of the service. -/
def plain (h : HarborNode) : Harbor where
  id := h.id
  s i := if hi : i < remoteMax then (h.s ⟨i, hi⟩).plain else NodeSlave.init.plain
  calls := h.calls

section Plain

variable (h : HarborNode) {i : Fin remoteMax} {refused : List HarborCall → Bool}
  {again : HarborNode → List UInt8 → Except HarborFault HarborNode}
  {again' : Harbor → List UInt8 → Except HarborFault Harbor}

theorem plain_s (i : Fin remoteMax) : h.plain.s i = (h.s i).plain := dif_pos i.isLt

theorem plain_setSlave (i : Fin remoteMax) (s : NodeSlave) :
    (h.setSlave i s).plain = h.plain.setSlave i s.plain := by
  rw [Harbor.setSlave, plain, Harbor.mk.injEq]
  refine ⟨rfl, funext fun j => ?_, rfl⟩
  by_cases hj : j < remoteMax
  · by_cases heq : j = i
    · subst heq
      simp [setSlave, plain]
    · have hne : (⟨j, hj⟩ : Fin remoteMax) ≠ i := fun h => heq (congrArg Fin.val h)
      simp [setSlave, plain, hj, update_of_ne heq, update_of_ne hne]
  · have hne : j ≠ i := fun h => hj (h ▸ i.isLt)
    simp [plain, hj, update_of_ne hne]

theorem plain_call (c : HarborCall) (m : Option NodeMsg) :
    (h.emit [.call c m]).plain = h.plain.call c := by
  rw [plain, Harbor.call, Harbor.mk.injEq]
  exact ⟨rfl, rfl, filterMap_append ..⟩

/-- The events that are no calls leave no trace. -/
theorem plain_silent {es : List HarborEvent} (hes : ∀ e ∈ es, ∀ c m, e ≠ .call c m) :
    (h.emit es).plain = h.plain := by
  have hnone : ({ h with log := es } : HarborNode).calls = [] := by
    refine filterMap_eq_nil_iff.mpr fun e he => ?_
    cases e with
    | call c m => exact absurd rfl (hes _ he c m)
    | error | start | free | hand | route => rfl
  rw [plain, plain, Harbor.mk.injEq]
  refine ⟨rfl, rfl, (filterMap_append ..).trans ?_⟩
  exact (congrArg (h.calls ++ ·) hnone).trans (append_nil _)

theorem plain_releaseQueue (queue : Option (List NodeMsg)) :
    (h.emit (releaseQueue queue)).plain = h.plain := by
  refine h.plain_silent fun e he c m heq => ?_
  obtain ⟨_, -, rfl⟩ := mem_map.mp he
  cases heq

theorem plain_closeHarbor (i : Fin remoteMax) :
    (h.closeHarbor i).plain = Module.closeHarbor h.plain i := by
  rw [closeHarbor, closeEvents, ← emit_emit, plain_releaseQueue, Module.closeHarbor, plain_s]
  by_cases hfd : (h.s i).fd ≠ 0
  · rw [if_pos hfd, plain_call, plain_setSlave, if_pos (show (h.s i).plain.fd ≠ 0 from hfd)]
    rfl
  · rw [if_neg hfd, if_neg (show ¬ (h.s i).plain.fd ≠ 0 from hfd), emit_nil, plain_setSlave]
    rfl

theorem plain_remoteCall (fd : ℕ) (m : NodeMsg) :
    (h.emit [remoteCall fd m]).plain = sendRemote h.plain fd m.data m.header := by
  rw [remoteCall, sendRemote]
  split_ifs <;> exact h.plain_call _ _

/-- The queue is sent in its order. -/
theorem plain_sendEvents (fd : ℕ) (queue : List NodeMsg) :
    (h.emit (queue.flatMap (sendEvents fd))).plain =
      (queue.map NodeMsg.plain).foldl (fun acc m => sendRemote acc fd m.buffer m.header)
        h.plain := by
  induction queue generalizing h with
  | nil => exact congrArg plain h.emit_nil
  | cons m queue ih =>
    have hfree : ((h.emit [remoteCall fd m]).emit [.free m.block]).plain =
        sendRemote h.plain fd m.data m.header := by
      rw [plain_silent _ (by simp), plain_remoteCall]
    rw [flatMap_cons, ← emit_emit, ih, sendEvents, ← singleton_append, ← emit_emit, hfree]
    rfl

theorem plain_dispatchQueue (i : Fin remoteMax) :
    (h.dispatchQueue i).map plain = Module.dispatchQueue h.plain i := by
  rw [dispatchQueue, Module.dispatchQueue, plain_s]
  by_cases hfd : (h.s i).fd = 0
  · rw [if_pos hfd, if_pos (show (h.s i).plain.fd = 0 from hfd)]
    rfl
  · rw [if_neg hfd, if_neg (show ¬ (h.s i).plain.fd = 0 from hfd)]
    cases hqueue : (h.s i).queue with
    | none =>
      have hplain : (h.s i).plain.queue = none := by rw [NodeSlave.plain, hqueue]; rfl
      rw [hplain]
      rfl
    | some queue =>
      have hplain : (h.s i).plain.queue = some (queue.map NodeMsg.plain) := by
        rw [NodeSlave.plain, hqueue]
        rfl
      rw [hplain]
      refine congrArg ok ?_
      change ((h.emit (queue.flatMap (sendEvents (h.s i).fd))).setSlave i _).plain = _
      rw [plain_setSlave, plain_sendEvents]
      rfl

theorem plain_forwardLocalMesssage (block : ℕ) (msg : List UInt8) (sz : ℕ) :
    (h.forwardLocalMesssage refused block msg sz).map plain =
      Module.forwardLocalMesssage refused h.plain msg sz := by
  have hhand (c : HarborCall) : (h.emit [.call c none, .hand block]).plain = h.plain.call c := by
    rw [← singleton_append, ← emit_emit, plain_silent _ (by simp), plain_call]
  have hcalls (c : HarborCall) : (h.emit [.call c none, .hand block]).calls =
      (h.plain.call c).calls := by rw [← hhand]; rfl
  have hid : h.plain.id = h.id := rfl
  rw [forwardLocalMesssage, Module.forwardLocalMesssage, hid]
  dsimp only
  rw [hcalls]
  split_ifs
  · rfl
  · refine congrArg ok ?_
    rw [plain_call, plain_call, hhand]
  · refine congrArg ok ?_
    rw [plain_call, hhand]
  · refine congrArg ok ?_
    rw [hhand]

/-- A step of both, and then the rest of both. -/
theorem plain_bind {α : Type} {x : Except HarborFault α} {f : α → Except HarborFault HarborNode}
    {g : α → Except HarborFault Harbor} (hfg : ∀ a, (f a).map plain = g a) :
    (x >>= f).map plain = x >>= g := by
  cases x with
  | error e => rfl
  | ok a => exact hfg a

theorem plain_bind_node {x : Except HarborFault HarborNode} {y : Except HarborFault Harbor}
    (hxy : x.map plain = y) {f : HarborNode → Except HarborFault HarborNode}
    {g : Harbor → Except HarborFault Harbor} (hfg : ∀ h, (f h).map plain = g h.plain) :
    (x >>= f).map plain = y >>= g := by
  subst hxy
  cases x with
  | error e => rfl
  | ok h => exact hfg h

section Rounds

variable (hagain : ∀ h buffer, (again h buffer).map plain = again' h.plain buffer)
include hagain

theorem plain_pushContent (i : Fin remoteMax) (buffer : List UInt8) :
    (pushContent refused again i h buffer).map plain =
      Module.pushContent refused again' i h.plain buffer := by
  rw [pushContent, Module.pushContent, plain_s]
  cases hrecv : (h.s i).recvBuffer with
  | none =>
    have hplain : (h.s i).plain.recvBuffer = none := by rw [NodeSlave.plain, hrecv]; rfl
    simp only [hplain]
    rfl
  | some p =>
    obtain ⟨block, recv⟩ := p
    have hplain : (h.s i).plain.recvBuffer = some recv := by rw [NodeSlave.plain, hrecv]; rfl
    have hneed : (h.s i).plain.length - (h.s i).plain.read = (h.s i).length - (h.s i).read := rfl
    simp only [hplain, hneed]
    by_cases hshort : buffer.length < (h.s i).length - (h.s i).read
    · rw [if_pos hshort, if_pos hshort]
      refine plain_bind fun recv => congrArg ok ?_
      rw [plain_setSlave]
      rfl
    · rw [if_neg hshort, if_neg hshort]
      refine plain_bind fun recv => plain_bind_node (h.plain_forwardLocalMesssage ..) fun h' => ?_
      by_cases hrest : buffer.drop ((h.s i).length - (h.s i).read) = []
      · rw [if_pos hrest, if_pos hrest]
        refine congrArg ok ?_
        rw [plain_setSlave]
        rfl
      · rw [if_neg hrest, if_neg hrest, hagain, plain_setSlave]
        rfl

theorem plain_pushHeader (i : Fin remoteMax) (buffer : List UInt8) :
    (pushHeader refused again i h buffer).map plain =
      Module.pushHeader refused again' i h.plain buffer := by
  have hread : (h.s i).plain.read = (h.s i).read := rfl
  rw [pushHeader, Module.pushHeader, plain_s]
  simp only [hread]
  by_cases hshort : buffer.length < 4 - (h.s i).read
  · rw [if_pos hshort, if_pos hshort]
    refine plain_bind fun size => congrArg ok ?_
    rw [plain_setSlave]
    rfl
  · rw [if_neg hshort, if_neg hshort]
    refine plain_bind fun size => ?_
    split_ifs
    · refine congrArg ok ?_
      rw [plain_closeHarbor, plain_call, plain_setSlave]
      rfl
    · refine congrArg ok ?_
      rw [plain_setSlave]
      rfl
    · rw [plain_pushContent _ hagain, plain_setSlave]
      rfl

theorem plain_pushHandshake (i : Fin remoteMax) (buffer : List UInt8) :
    (pushHandshake refused again i h buffer).map plain =
      Module.pushHandshake refused again' i h.plain buffer := by
  cases buffer with
  | nil => rfl
  | cons remoteId buffer =>
    rw [pushHandshake, Module.pushHandshake, plain_s]
    by_cases hid : remoteId.toNat ≠ i
    · rw [if_pos hid, if_pos hid]
      refine congrArg ok ?_
      rw [plain_closeHarbor, plain_call]
      rfl
    · rw [if_neg hid, if_neg hid]
      have hqueue := plain_dispatchQueue (h.setSlave i { h.s i with status := .header }) i
      rw [plain_setSlave] at hqueue
      refine plain_bind_node hqueue fun h' => ?_
      by_cases hrest : buffer = []
      · rw [if_pos hrest, if_pos hrest]
        exact hagain h' buffer
      · rw [if_neg hrest, if_neg hrest]
        exact plain_pushHeader h' hagain i buffer

end Rounds

theorem plain_pushLoop (i : Fin remoteMax) (fuel : ℕ) (buffer : List UInt8) :
    (pushLoop refused i fuel h buffer).map plain =
      Module.pushLoop refused i fuel h.plain buffer := by
  induction fuel generalizing h buffer with
  | zero => rfl
  | succ fuel ih =>
    have hstatus : (h.plain.s i).status = (h.s i).status := by rw [plain_s]; rfl
    rw [pushLoop, Module.pushLoop, hstatus]
    cases (h.s i).status with
    | handshake => exact plain_pushHandshake h (fun h buffer => ih h buffer) i buffer
    | header => exact plain_pushHeader h (fun h buffer => ih h buffer) i buffer
    | content => exact plain_pushContent h (fun h buffer => ih h buffer) i buffer
    | wait | down => rfl

theorem plain_findSlave (fd : ℕ) : h.plain.findSlave fd = (h.findSlave fd).map Fin.val := by
  have hrange : (finRange remoteMax).map Fin.val = 0 :: range' 1 (remoteMax - 1) := by
    rw [map_coe_finRange_eq_range, range_eq_range']
    rfl
  have hnode : (fun i : Fin remoteMax => decide (0 < i.val ∧ (h.s i).fd = fd)) =
      (fun n : ℕ => decide (0 < n ∧ (h.plain.s n).fd = fd)) ∘ Fin.val :=
    funext fun i => by rw [comp_apply, plain_s]; rfl
  rw [Harbor.findSlave, findSlave, hnode, ← find?_map, hrange, find?_cons_of_neg (by simp)]
  refine List.find?_congr fun n hn => ?_
  have hpos : 0 < n := (mem_range'_1.mp hn).1
  simp [hpos]

/-- The service takes the data of a socket as the receiver does. -/
theorem plain_pushSocketData (fd block : ℕ) (buffer : List UInt8) :
    (h.pushSocketData refused fd block buffer).map plain =
      Module.pushSocketData refused h.plain ⟨fd, buffer⟩ := by
  rw [pushSocketData, Module.pushSocketData, plain_findSlave]
  cases h.findSlave fd with
  | none =>
    refine congrArg ok ?_
    rw [← singleton_append, ← emit_emit, plain_call, plain_silent _ (by simp)]
  | some i => exact h.plain_pushLoop i _ buffer

/-- The service sends a message as the sender does. -/
theorem plain_remoteSendHandle (source destination : UInt32) (type : UInt8) (session : Int32)
    (block : ℕ) (data : List UInt8) :
    ((h.remoteSendHandle source destination type session block data).1.plain,
        (h.remoteSendHandle source destination type session block data).2) =
      Module.remoteSendHandle h.plain source destination type.toUInt32 session data := by
  have hs : h.plain.s (destination >>> handleRemoteShift).toNat =
      (h.s (harborOf destination)).plain := h.plain_s (harborOf destination)
  have hroute (h : HarborNode) (m : NodeMsg) (es : List HarborEvent) :
      (h.emit (.route m :: es)).plain = (h.emit es).plain := by
    rw [plain, plain, Harbor.mk.injEq]
    refine ⟨rfl, rfl, ?_⟩
    rw [calls, calls, emit, emit, filterMap_append, filterMap_append, filterMap_cons_none rfl]
  rw [remoteSendHandle, Module.remoteSendHandle, hs]
  by_cases hid : (harborOf destination).val = h.id
  · rw [if_pos hid, if_pos (show (destination >>> handleRemoteShift).toNat = h.plain.id from hid),
      ← singleton_append, ← emit_emit, plain_silent _ (by simp), plain_call]
  rw [if_neg hid, if_neg (show ¬ (destination >>> handleRemoteShift).toNat = h.plain.id from hid)]
  by_cases hwait : (h.s (harborOf destination)).fd = 0 ∨
      (h.s (harborOf destination)).status = .handshake
  · rw [if_pos hwait, if_pos (show (h.s (harborOf destination)).plain.fd = 0 ∨
      (h.s (harborOf destination)).plain.status = .handshake from hwait)]
    by_cases hdown : (h.s (harborOf destination)).status = .down
    · rw [if_pos hdown, if_pos (show (h.s (harborOf destination)).plain.status = .down from hdown),
        hroute, ← singleton_append, ← emit_emit, plain_call, plain_call]
      rfl
    · rw [if_neg hdown,
        if_neg (show ¬ (h.s (harborOf destination)).plain.status = .down from hdown), hroute,
        emit_nil, plain_setSlave]
      have hqueue (m : NodeMsg) : NodeSlave.plain { h.s (harborOf destination) with
          queue := some ((h.s (harborOf destination)).queue.getD [] ++ [m]) } =
          { (h.s (harborOf destination)).plain with
            queue := some ((h.s (harborOf destination)).plain.queue.getD [] ++ [m.plain]) } := by
        cases hq : (h.s (harborOf destination)).queue <;> simp [NodeSlave.plain, hq]
      rw [hqueue]
      rfl
  · rw [if_neg hwait, if_neg (show ¬ ((h.s (harborOf destination)).plain.fd = 0 ∨
      (h.s (harborOf destination)).plain.status = .handshake) from hwait), hroute,
      plain_remoteCall]
    rfl

end Plain

end HarborNode

end Uboss.Module
