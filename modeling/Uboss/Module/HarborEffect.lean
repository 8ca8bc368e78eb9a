import Uboss.Module.HarborNode

/-!
# What a step of the harbor service does

The effects of `mainloop` and `harbor_release`, one for each way through the code. What
`push_socket_data` does to the slave of a socket is a sequence of moves.

## Main definitions

* `HarborNode.Move` — one move of `push_socket_data`
* `HarborNode.Effect` — one step of the service
* `HarborNode.Shape` — how the fields of a slave go together

## Main results

* `moves_pushSocketData`, `effect_step` — the functions do nothing else
* `Shape.effect` — every step keeps the shape
-/

namespace Uboss.Module

open Math Function List Except Option

/-- The event is no `uboss_socket_send`, is not made for a message, and concerns no block. -/
def HarborEvent.Quiet : HarborEvent → Prop
  | .call (.ubossSocketSend ..) _ | .call _ (some _) | .free _ | .hand _ | .route _ => False
  | .call _ none | .error _ | .start _ => True

namespace HarborNode

variable {h h' h'' : HarborNode} {i j : Fin remoteMax}

section Fields

variable (h : HarborNode) (i : Fin remoteMax) (s t : NodeSlave) (es fs : List HarborEvent)

@[simp] theorem emit_s : (h.emit es).s = h.s := rfl

@[simp] theorem emit_log : (h.emit es).log = h.log ++ es := rfl

@[simp] theorem alloc_s : h.alloc.s = h.s := rfl

@[simp] theorem alloc_next : h.alloc.next = h.next + 1 := rfl

@[simp] theorem alloc_log : h.alloc.log = h.log := rfl

@[simp] theorem setSlave_self : (h.setSlave i s).s i = s := update_self ..

theorem setSlave_of_ne {j : Fin remoteMax} (hj : j ≠ i) : (h.setSlave i s).s j = h.s j :=
  update_of_ne hj ..

@[simp] theorem emit_emit : (h.emit es).emit fs = h.emit (es ++ fs) := by
  simp [emit, append_assoc]

@[simp] theorem emit_nil : h.emit [] = h := by
  simp [emit]

@[simp] theorem setSlave_setSlave : (h.setSlave i s).setSlave i t = h.setSlave i t := by
  simp [setSlave]

theorem setSlave_emit : (h.emit es).setSlave i s = (h.setSlave i s).emit es := rfl

end Fields

/-- The slave after the queue was sent. -/
def flushed (h : HarborNode) (i : Fin remoteMax) (s : NodeSlave) : HarborNode :=
  (h.setSlave i { s with queue := none }).emit ((s.queue.getD []).flatMap (sendEvents s.fd))

theorem dispatchQueue_eq_ok (hok : h.dispatchQueue i = .ok h') :
    (h.s i).fd ≠ 0 ∧ h' = h.flushed i (h.s i) := by
  unfold dispatchQueue at hok
  split_ifs at hok with hfd
  refine ⟨hfd, ?_⟩
  split at hok
  next hqueue =>
    obtain rfl := ok.inj hok
    have hsame : { h.s i with queue := none } = h.s i := by rw [← hqueue]
    rw [flushed, hqueue, getD_none, flatMap_nil, emit_nil, hsame, setSlave, update_eq_self]
  next queue hqueue =>
    obtain rfl := ok.inj hok
    rw [flushed, hqueue, getD_some]

/-! ### Moves -/

/-- One move of `push_socket_data` on the slave `i`. -/
inductive Move (i : Fin remoteMax) (h : HarborNode) : HarborNode → Prop
  | quiet {es : List HarborEvent} : (∀ e ∈ es, e.Quiet) → Move i h (h.emit es)
  /-- Bytes of the length. -/
  | fill {size : List UInt8} {read : ℕ} :
      (h.s i).status = .header → Move i h (h.setSlave i { h.s i with size := size, read := read })
  /-- The id of the peer is right. -/
  | greet :
      (h.s i).status = .handshake → (h.s i).fd ≠ 0 →
      Move i h (h.flushed i { h.s i with status := .header })
  | close :
      (h.s i).status = .handshake ∨ (h.s i).status = .header → Move i h (h.closeHarbor i)
  /-- A receive buffer for the body. -/
  | alloc {size recv : List UInt8} {length : ℕ} :
      (h.s i).status = .header →
      Move i h (h.alloc.setSlave i { h.s i with
        size := size
        length := length
        read := 0
        recvBuffer := some (h.next, recv)
        status := .content })
  /-- Bytes of the body. -/
  | load {block read : ℕ} {recv recv' : List UInt8} :
      (h.s i).status = .content → (h.s i).recvBuffer = some (block, recv) →
      Move i h (h.setSlave i { h.s i with recvBuffer := some (block, recv'), read := read })
  /-- The body is complete. -/
  | forward {block : ℕ} {recv : List UInt8} {u : UbossSend} {es : List HarborEvent} :
      (h.s i).status = .content → (h.s i).recvBuffer = some (block, recv) →
      (∀ e ∈ es, e.Quiet) →
      Move i h ((h.emit (.call (.ubossSend u) none :: .hand block :: es)).setSlave i
        { h.s i with length := 0, read := 0, recvBuffer := none, status := .header })

/-- Any number of moves. -/
abbrev Moves (i : Fin remoteMax) : HarborNode → HarborNode → Prop := Relation.ReflTransGen (Move i)

theorem Moves.invariant {P : HarborNode → Prop} (hmoves : Moves i h h') (hP : P h)
    (hmove : ∀ {h h'}, Move i h h' → P h → P h') : P h' := by
  induction hmoves with
  | refl => exact hP
  | tail _ hm ih => exact hmove hm ih

section Receive

variable {refused : List HarborCall → Bool}
  {again : HarborNode → List UInt8 → Except HarborFault HarborNode} {buffer : List UInt8}

theorem forwardLocalMesssage_eq_ok {block sz : ℕ} {msg : List UInt8}
    (hok : forwardLocalMesssage refused h block msg sz = .ok h') :
    ∃ u es, (∀ e ∈ es, HarborEvent.Quiet e) ∧
      h' = h.emit (.call (.ubossSend u) none :: .hand block :: es) := by
  unfold forwardLocalMesssage at hok
  dsimp only at hok
  split_ifs at hok with hsz hrefused htype
  · obtain rfl := ok.inj hok
    rw [emit_emit, emit_emit]
    exact ⟨_, _, by simp [HarborEvent.Quiet], rfl⟩
  · obtain rfl := ok.inj hok
    rw [emit_emit]
    exact ⟨_, _, by simp [HarborEvent.Quiet], rfl⟩
  · obtain rfl := ok.inj hok
    exact ⟨_, [], by simp, rfl⟩

section

variable (hagain : ∀ h b h', again h b = .ok h' → Moves i h h')
include hagain

theorem moves_pushContent (hstatus : (h.s i).status = .content)
    (hok : pushContent refused again i h buffer = .ok h') : Moves i h h' := by
  unfold pushContent at hok
  dsimp only at hok
  split at hok
  · cases hok
  next block recv hrecv =>
    simp only [bind, Except.bind, pure, Except.pure] at hok
    by_cases hshort : buffer.length < (h.s i).length - (h.s i).read
    · rw [if_pos hshort] at hok
      split at hok
      · cases hok
      next recv' _ =>
        obtain rfl := ok.inj hok
        exact .single (.load hstatus hrecv)
    · rw [if_neg hshort] at hok
      split at hok
      · cases hok
      next recv' _ =>
        split at hok
        · cases hok
        next h₁ hforward =>
          obtain ⟨u, es, hquiet, rfl⟩ := forwardLocalMesssage_eq_ok hforward
          have hmove := Move.forward (u := u) hstatus hrecv hquiet
          split_ifs at hok
          · obtain rfl := ok.inj hok
            exact .single hmove
          · exact .head hmove (hagain _ _ _ hok)

theorem moves_pushHeader (hstatus : (h.s i).status = .header)
    (hok : pushHeader refused again i h buffer = .ok h') : Moves i h h' := by
  unfold pushHeader at hok
  simp only [bind, Except.bind, pure, Except.pure] at hok
  by_cases hshort : buffer.length < 4 - (h.s i).read
  · rw [if_pos hshort] at hok
    split at hok
    · cases hok
    next size _ =>
      obtain rfl := ok.inj hok
      exact .single (.fill hstatus)
  · rw [if_neg hshort] at hok
    split at hok
    · cases hok
    next size _ =>
      split_ifs at hok with hlong hempty
      · -- the length is too large
        obtain rfl := ok.inj hok
        have hfill : Move i h (h.setSlave i { h.s i with size := size }) := .fill hstatus
        refine .head hfill (.head (.quiet fun e he => ?_) (.single (.close (.inr ?_))))
        · rw [mem_singleton.mp he]
          trivial
        · rw [emit_s, setSlave_self]
          exact hstatus
      · obtain rfl := ok.inj hok
        exact .single (.alloc hstatus)
      · refine .head (.alloc hstatus) (moves_pushContent hagain ?_ hok)
        rw [setSlave_self]

theorem moves_pushHandshake (hstatus : (h.s i).status = .handshake)
    (hok : pushHandshake refused again i h buffer = .ok h') : Moves i h h' := by
  unfold pushHandshake at hok
  cases buffer with
  | nil => cases hok
  | cons remoteId buffer =>
    simp only [bind, Except.bind, pure, Except.pure] at hok
    by_cases hid : remoteId.toNat ≠ i.val
    · rw [if_pos hid] at hok
      obtain rfl := ok.inj hok
      refine .head (.quiet fun e he => ?_) (.single (.close (.inl ?_)))
      · rw [mem_singleton.mp he]
        trivial
      · rw [emit_s]
        exact hstatus
    · rw [if_neg hid] at hok
      split at hok
      · cases hok
      next h₁ hdispatch =>
        obtain ⟨hfd, rfl⟩ := dispatchQueue_eq_ok hdispatch
        rw [setSlave_self] at hfd hok
        have hgreet : (h.setSlave i { h.s i with status := .header }).flushed i
            { h.s i with status := .header } = h.flushed i { h.s i with status := .header } := by
          rw [flushed, setSlave_setSlave, flushed]
        rw [hgreet] at hok
        have hmove : Move i h (h.flushed i { h.s i with status := .header }) := .greet hstatus hfd
        have hheader : ((h.flushed i { h.s i with status := .header }).s i).status = .header := by
          rw [flushed, emit_s, setSlave_self]
        split_ifs at hok
        · exact .head hmove (hagain _ _ _ hok)
        · exact .head hmove (moves_pushHeader hagain hheader hok)

end

theorem moves_pushLoop {fuel : ℕ} (hok : pushLoop refused i fuel h buffer = .ok h') :
    Moves i h h' := by
  induction fuel generalizing h h' buffer with
  | zero => cases hok
  | succ fuel ih =>
    have hagain : ∀ h b h', pushLoop refused i fuel h b = .ok h' → Moves i h h' :=
      fun _ _ _ hnext => ih hnext
    rw [pushLoop] at hok
    cases hstatus : (h.s i).status with
    | handshake =>
      rw [hstatus] at hok
      exact moves_pushHandshake hagain hstatus hok
    | header =>
      rw [hstatus] at hok
      exact moves_pushHeader hagain hstatus hok
    | content =>
      rw [hstatus] at hok
      exact moves_pushContent hagain hstatus hok
    | wait | down =>
      rw [hstatus] at hok
      obtain rfl := ok.inj hok
      exact .refl

end Receive

/-! ### Effects -/

section States

variable (h : HarborNode)

/-- The name is bound to the handle. -/
def bound (name : GlobalName) (handle : UInt32) : HarborNode :=
  { h with map := hashUpdate h.map name fun node => { node with value := handle, queue := none } }

/-- A message waits for the name. -/
def awaiting (name : GlobalName) (m : NodeMsg) : HarborNode :=
  { h with
    map := hashUpdate h.map name fun node =>
      { node with queue := some (node.queue.getD [] ++ [m]) } }

/-- There is a link, and the own id was sent. -/
def linked (fd : ℕ) (i : Fin remoteMax) (status : SlaveStatus) : HarborNode :=
  (h.setSlave i { h.s i with fd := fd, status := status }).emit
    [.start fd, .call (.ubossSocketSend fd [UInt8.ofNat h.id] 1) none]

/-- More messages wait for the link. -/
def waiting (i : Fin remoteMax) (queue : List NodeMsg) : HarborNode :=
  h.setSlave i { h.s i with queue := some ((h.s i).queue.getD [] ++ queue) }

/-- What the name and the handle of a remote message stand for. -/
def Addressed (name : GlobalName) (handle destination : UInt32) : Prop :=
  destination ≠ 0 ∧ (handle = destination ∨ handle = 0 ∧ h.nameValue name = destination)

/-- The messages that wait for the name. -/
def nameQueue (name : GlobalName) : Option (List NodeMsg) :=
  (hashSearch h.map name).bind KeyValue.queue

@[simp] theorem bound_s (name : GlobalName) (handle : UInt32) : (h.bound name handle).s = h.s := rfl

end States

variable {msg : List UInt8} {source : UInt32}

/-- What a step does. -/
inductive Effect (h : HarborNode) : HarborAct → HarborNode → Prop
  | quiet {input : HarborInput} {es : List HarborEvent} :
      (∀ e ∈ es, e.Quiet) → Effect h (.mainloop input) (h.emit es)
  /-- Data of a socket without a slave. -/
  | stray {fd : ℕ} {buffer : List UInt8} :
      h.findSlave fd = none →
      Effect h (.mainloop (.socket (.data fd buffer)))
        (h.alloc.emit [.free h.next, .call (.ubossError (.invalidSocketFd fd)) none, .free h.next])
  | data {fd : ℕ} {buffer : List UInt8} {i : Fin remoteMax} {h₁ : HarborNode} :
      h.findSlave fd = some i → Moves i h.alloc h₁ →
      Effect h (.mainloop (.socket (.data fd buffer))) (h₁.emit [.free h.next])
  | connect {msg : List UInt8} {source : UInt32} {fd : ℕ} {i : Fin remoteMax} :
      parseCommand msg = .link false fd i → (h.s i).fd = 0 →
      Effect h (.mainloop (.harbor msg source)) (h.linked fd i .handshake)
  | accept {msg : List UInt8} {source : UInt32} {fd : ℕ} {i : Fin remoteMax} :
      parseCommand msg = .link true fd i → (h.s i).fd = 0 →
      Effect h (.mainloop (.harbor msg source))
        ((h.linked fd i .header).flushed i { h.s i with fd := fd, status := .header })
  | bind {msg : List UInt8} {source : UInt32} {name : GlobalName} :
      parseCommand msg = .name name → h.nameQueue name = none →
      Effect h (.mainloop (.harbor msg source)) (h.bound name source)
  /-- The messages for the name are dropped. -/
  | bindDrop {msg : List UInt8} {source : UInt32} {name : GlobalName} {queue : List NodeMsg} :
      parseCommand msg = .name name → h.nameQueue name = some queue →
      (h.s (harborOf source)).fd = 0 → (h.s (harborOf source)).status = .down →
      Effect h (.mainloop (.harbor msg source)) ((h.bound name source).emit
        (.error (.dropName name (harborOf source)) ::
          releaseQueue (some (queue.map (NodeMsg.bind source)))))
  | bindLocal {msg : List UInt8} {source : UInt32} {name : GlobalName} {queue : List NodeMsg} :
      parseCommand msg = .name name → h.nameQueue name = some queue →
      (h.s (harborOf source)).fd = 0 → (h.s (harborOf source)).status ≠ .down →
      harborOf source = harborOf h.slave →
      Effect h (.mainloop (.harbor msg source)) (((h.bound name source).setSlave (harborOf source)
          { h.s (harborOf source) with queue := none }).emit
            (((h.s (harborOf source)).queue.getD [] ++ queue.map (NodeMsg.bind source)).flatMap
              (deliverEvents source)))
  /-- The messages for the name wait for the link. -/
  | bindWait {msg : List UInt8} {source : UInt32} {name : GlobalName} {queue : List NodeMsg} :
      parseCommand msg = .name name → h.nameQueue name = some queue →
      (h.s (harborOf source)).fd = 0 → (h.s (harborOf source)).status ≠ .down →
      harborOf source ≠ harborOf h.slave →
      Effect h (.mainloop (.harbor msg source))
        ((h.bound name source).waiting (harborOf source) (queue.map (NodeMsg.bind source)))
  | bindSend {msg : List UInt8} {source : UInt32} {name : GlobalName} {queue : List NodeMsg} :
      parseCommand msg = .name name → h.nameQueue name = some queue →
      (h.s (harborOf source)).fd ≠ 0 →
      Effect h (.mainloop (.harbor msg source)) ((h.bound name source).emit
        (((queue.map (NodeMsg.bind source)).map (NodeMsg.complete source)).flatMap
          (sendEvents (h.s (harborOf source)).fd)))
  | deliver {source handle destination : UInt32} {name : GlobalName} {type : UInt8}
      {session : Int32} {data : List UInt8} :
      h.Addressed name handle destination → (harborOf destination).val = h.id →
      Effect h (.mainloop (.remote source name handle type session data))
        (h.alloc.emit [.call (.ubossSend
          ⟨source, destination, type.toUInt32 ||| ptypeTagDontcopy, session, data⟩)
            (some (directMsg source destination type session h.next data)), .hand h.next])
  | reject {source handle destination : UInt32} {name : GlobalName} {type : UInt8}
      {session : Int32} {data : List UInt8} :
      h.Addressed name handle destination → (harborOf destination).val ≠ h.id →
      (h.s (harborOf destination)).fd = 0 → (h.s (harborOf destination)).status = .down →
      Effect h (.mainloop (.remote source name handle type session data))
        (h.alloc.emit [.route (directMsg source destination type session h.next data),
          .call (.ubossSend ⟨destination, source, ptypeError, 0, []⟩) none,
          .call (.ubossError (.dropMessage (harborOf destination) source destination session
            data.length)) none, .free h.next])
  | wait {source handle destination : UInt32} {name : GlobalName} {type : UInt8}
      {session : Int32} {data : List UInt8} :
      h.Addressed name handle destination → (harborOf destination).val ≠ h.id →
      (h.s (harborOf destination)).fd = 0 ∨ (h.s (harborOf destination)).status = .handshake →
      (h.s (harborOf destination)).status ≠ .down →
      Effect h (.mainloop (.remote source name handle type session data))
        ((h.alloc.waiting (harborOf destination)
          [directMsg source destination type session h.next data]).emit
            [.route (directMsg source destination type session h.next data)])
  | send {source handle destination : UInt32} {name : GlobalName} {type : UInt8}
      {session : Int32} {data : List UInt8} :
      h.Addressed name handle destination → (harborOf destination).val ≠ h.id →
      (h.s (harborOf destination)).fd ≠ 0 → (h.s (harborOf destination)).status ≠ .handshake →
      Effect h (.mainloop (.remote source name handle type session data))
        (h.alloc.emit [.route (directMsg source destination type session h.next data),
          remoteCall (h.s (harborOf destination)).fd
            (directMsg source destination type session h.next data), .free h.next])
  /-- The name is not known. -/
  | query {source : UInt32} {name : GlobalName} {type : UInt8} {session : Int32}
      {data : List UInt8} :
      h.nameValue name = 0 →
      Effect h (.mainloop (.remote source name 0 type session data))
        ((h.alloc.awaiting name (namedMsg source name type session h.next data)).emit
          [.call (.ubossSend ⟨0, h.slave, ptypeText, 0, queryText name⟩) none])
  | release : Effect h .release h.harborRelease

theorem effect_refl {input : HarborInput} : Effect h (.mainloop input) h := by
  have hquiet : Effect h (.mainloop input) (h.emit []) := .quiet fun e he => by cases he
  rwa [emit_nil] at hquiet

/-- There is no link without a socket, and none to the harbor 0. -/
theorem parseCommand_eq_link {accept : Bool} {fd : ℕ} (hmsg : parseCommand msg = .link accept fd i)
    : fd ≠ 0 ∧ 0 < i.val := by
  unfold parseCommand at hmsg
  split at hmsg
  · cases hmsg
  next c rest =>
    dsimp only at hmsg
    split_ifs at hmsg with hname hshort hlink hlength hzero hid
    obtain ⟨_, rfl, rfl⟩ := HarborCommand.link.inj hmsg
    rw [not_or] at hzero
    exact ⟨hzero.1, by simpa using hzero.2⟩

theorem effect_updateName {name : GlobalName} (hmsg : parseCommand msg = .name name) :
    Effect h (.mainloop (.harbor msg source)) (h.updateName name source) := by
  unfold updateName
  dsimp only
  split
  next hqueue => exact .bind hmsg hqueue
  next queue hqueue =>
    unfold dispatchNameQueue
    dsimp only
    split_ifs with hfd hdown hlocal
    · exact .bindDrop hmsg hqueue hfd hdown
    · exact .bindLocal hmsg hqueue hfd hdown hlocal
    · exact .bindWait hmsg hqueue hfd hdown hlocal
    · exact .bindSend hmsg hqueue hfd

theorem effect_linkSlave {accept : Bool} {fd : ℕ} (hmsg : parseCommand msg = .link accept fd i)
    (hok : h.linkSlave accept fd i = .ok h') :
    Effect h (.mainloop (.harbor msg source)) h' := by
  unfold linkSlave at hok
  dsimp only at hok
  split_ifs at hok with hfd haccept
  · obtain rfl := ok.inj hok
    refine .quiet fun e he => ?_
    rw [mem_singleton.mp he]
    trivial
  · obtain ⟨-, rfl⟩ := dispatchQueue_eq_ok hok
    rw [haccept] at hmsg
    rw [emit_s, setSlave_self]
    exact .accept hmsg (not_not.mp hfd)
  · obtain rfl := ok.inj hok
    rw [Bool.not_eq_true] at haccept
    rw [haccept] at hmsg
    exact .connect hmsg (not_not.mp hfd)

theorem effect_harborCommand (hok : h.harborCommand msg source = .ok h') :
    Effect h (.mainloop (.harbor msg source)) h' := by
  unfold harborCommand at hok
  split at hok
  next name hmsg =>
    obtain rfl := ok.inj hok
    exact effect_updateName hmsg
  next accept fd i hmsg => exact effect_linkSlave hmsg hok
  · obtain rfl := ok.inj hok
    exact .quiet (by simp [HarborEvent.Quiet])
  · obtain rfl := ok.inj hok
    exact .quiet (by simp [HarborEvent.Quiet])
  · obtain rfl := ok.inj hok
    exact .quiet (by simp [HarborEvent.Quiet])
  · cases hok

theorem effect_socketMessage {refused : List HarborCall → Bool} {m : SocketInput}
    (hok : h.socketMessage refused m = .ok h') : Effect h (.mainloop (.socket m)) h' := by
  cases m with
  | data fd buffer =>
    rw [socketMessage, pushSocketData] at hok
    split at hok
    next hfind =>
      obtain rfl := ok.inj hok
      dsimp only
      rw [emit_emit]
      exact .stray hfind
    next i hfind =>
      cases hpush : pushLoop refused i (buffer.length + 2) h.alloc buffer with
      | error e =>
        rw [hpush] at hok
        cases hok
      | ok h₁ =>
        rw [hpush] at hok
        obtain rfl := ok.inj hok
        exact .data hfind (moves_pushLoop hpush)
  | close fd | error fd =>
    rw [socketMessage] at hok
    split at hok
    · obtain rfl := ok.inj hok
      exact .quiet (by simp [HarborEvent.Quiet])
    · obtain rfl := ok.inj hok
      exact .quiet (by simp [HarborEvent.Quiet])
  | warning fd ud =>
    rw [socketMessage] at hok
    split at hok
    · obtain rfl := ok.inj hok
      exact .quiet (by simp [HarborEvent.Quiet])
    · obtain rfl := ok.inj hok
      exact effect_refl
  | connect fd =>
    obtain rfl := ok.inj hok
    exact effect_refl
  | other =>
    obtain rfl := ok.inj hok
    exact .quiet (by simp [HarborEvent.Quiet])

section RemoteSend

variable {source handle destination : UInt32} {name : GlobalName} {type : UInt8} {session : Int32}
  {data : List UInt8} {block : ℕ}

theorem remoteSendHandle_of_local (hlocal : (harborOf destination).val = h.id) :
    h.remoteSendHandle source destination type session block data = (h.emit [.call (.ubossSend
        ⟨source, destination, type.toUInt32 ||| ptypeTagDontcopy, session, data⟩)
          (some (directMsg source destination type session block data)), .hand block], true) :=
  if_pos hlocal

theorem remoteSendHandle_of_open (hlocal : (harborOf destination).val ≠ h.id)
    (hopen : ¬ ((h.s (harborOf destination)).fd = 0 ∨
      (h.s (harborOf destination)).status = .handshake)) :
    h.remoteSendHandle source destination type session block data =
      (h.emit [.route (directMsg source destination type session block data),
        remoteCall (h.s (harborOf destination)).fd
          (directMsg source destination type session block data)], false) :=
  (if_neg hlocal).trans (if_neg hopen)

theorem effect_remoteSendHandle (hto : h.Addressed name handle destination) :
    let result := h.alloc.remoteSendHandle source destination type session h.next data
    Effect h (.mainloop (.remote source name handle type session data))
      (if result.2 then result.1 else result.1.emit [.free h.next]) := by
  intro result
  by_cases hlocal : (harborOf destination).val = h.id
  · have hresult : result = _ := remoteSendHandle_of_local (h := h.alloc) hlocal
    rw [hresult]
    exact .deliver hto hlocal
  by_cases hwait : (h.s (harborOf destination)).fd = 0 ∨
      (h.s (harborOf destination)).status = .handshake
  · have hresult : result = _ := (if_neg hlocal).trans (if_pos hwait)
    rw [alloc_s] at hresult
    by_cases hdown : (h.s (harborOf destination)).status = .down
    · have hfd : (h.s (harborOf destination)).fd = 0 := by
        refine hwait.resolve_right fun hshake => ?_
        rw [hdown] at hshake
        cases hshake
      rw [hresult, if_pos hdown, if_neg Bool.false_ne_true, emit_emit]
      exact .reject hto hlocal hfd hdown
    · rw [hresult, if_neg hdown]
      exact .wait hto hlocal hwait hdown
  · have hresult : result = _ := remoteSendHandle_of_open (h := h.alloc) hlocal hwait
    rw [hresult, if_neg Bool.false_ne_true, emit_emit]
    rw [not_or] at hwait
    exact .send hto hlocal hwait.1 hwait.2

theorem remoteMessage_eq (hto : h.Addressed name handle destination) :
    h.remoteMessage source name handle type session data =
      let result := h.alloc.remoteSendHandle source destination type session h.next data
      if result.2 then result.1 else result.1.emit [.free h.next] := by
  obtain ⟨hne, rfl | ⟨rfl, hvalue⟩⟩ := hto
  · rw [remoteMessage, if_neg hne]
  · have hvalue' : h.alloc.nameValue name = destination := hvalue
    rw [remoteMessage, if_pos rfl, remoteSendName, hvalue', if_neg hne]

theorem effect_remoteMessage : Effect h (.mainloop (.remote source name handle type session data))
      (h.remoteMessage source name handle type session data) := by
  by_cases hhandle : handle = 0
  · subst hhandle
    by_cases hvalue : h.nameValue name = 0
    · have hvalue' : h.alloc.nameValue name = 0 := hvalue
      rw [remoteMessage, if_pos rfl, remoteSendName, if_pos hvalue']
      exact .query hvalue
    · have hto : h.Addressed name 0 (h.nameValue name) := ⟨hvalue, .inr ⟨rfl, rfl⟩⟩
      rw [remoteMessage_eq hto]
      exact effect_remoteSendHandle hto
  · have hto : h.Addressed name handle handle := ⟨hhandle, .inl rfl⟩
    rw [remoteMessage_eq hto]
    exact effect_remoteSendHandle hto

end RemoteSend

variable {a : HarborAct} {s : NodeSlave}

/-- Whatever the service does is made of effects. -/
theorem effect_step {refused : List HarborCall → Bool} (hstep : h.step refused a = some h') :
    h.released = false ∧ Effect h a h' := by
  unfold step at hstep
  split_ifs at hstep with hreleased
  refine ⟨Bool.not_eq_true _ ▸ hreleased, ?_⟩
  cases a with
  | release =>
    obtain rfl := some_inj.mp hstep
    exact .release
  | mainloop input =>
    have hok : h.mainloop refused input = .ok h' := toOption_eq_some_iff.mp hstep
    cases input with
    | socket m => exact effect_socketMessage hok
    | harbor msg source => exact effect_harborCommand hok
    | remote source name handle type session data =>
      obtain rfl := ok.inj hok
      exact effect_remoteMessage

theorem mem_releaseEvents {e : HarborEvent} (he : e ∈ h.releaseEvents) :
    (∃ i, e ∈ closeEvents (h.s i)) ∨ ∃ queue, e ∈ releaseQueue queue := by
  rcases mem_append.mp he with he | he
  · obtain ⟨i, -, he⟩ := mem_flatMap.mp he
    split_ifs at he
    · exact .inl ⟨i, he⟩
    · cases he
  · obtain ⟨b, -, he⟩ := mem_flatMap.mp he
    obtain ⟨node, -, he⟩ := mem_flatMap.mp he
    exact .inr ⟨node.queue, he⟩

/-! ### What stays -/

theorem Moves.ids (hmoves : Moves i h h') : h'.id = h.id ∧ h'.slave = h.slave := by
  refine hmoves.invariant (P := fun h' => h'.id = h.id ∧ h'.slave = h.slave) ⟨rfl, rfl⟩ ?_
  intro h₁ h₂ hmove hids
  cases hmove <;> exact hids

theorem Moves.released_eq (hmoves : Moves i h h') : h'.released = h.released := by
  refine hmoves.invariant (P := fun h' => h'.released = h.released) rfl ?_
  intro h₁ h₂ hmove heq
  cases hmove <;> exact heq

theorem Effect.ids (heffect : Effect h a h') : h'.id = h.id ∧ h'.slave = h.slave := by
  cases heffect with
  | data _ hmoves => exact hmoves.ids (h := h.alloc)
  | _ => exact ⟨rfl, rfl⟩

theorem Effect.released_eq (heffect : Effect h a h') :
    h'.released = h.released ∨ h' = h.harborRelease := by
  cases heffect with
  | data _ hmoves => exact .inl (hmoves.released_eq (h := h.alloc))
  | release => exact .inr rfl
  | _ => exact .inl rfl

/-- A service with a slave that has done something is not released. -/
theorem released_eq_false {refused : List HarborCall → Bool} {id : ℕ} {slave : UInt32}
    (hreach : Reachable (step refused) (create id slave) h) (hi : h.s i ≠ .init) :
    h.released = false := by
  have hinit : h.released = true → h.s = fun _ => .init := by
    refine hreach.invariant (P := fun h => h.released = true → h.s = fun _ => .init) ?_ ?_
    · exact fun hreleased => absurd hreleased Bool.false_ne_true
    · intro h a h' hstep _ hreleased
      obtain ⟨hlive, heffect⟩ := effect_step hstep
      rcases heffect.released_eq with heq | rfl
      · rw [heq, hlive] at hreleased
        cases hreleased
      · rfl
  by_contra hreleased
  exact hi (congrFun (hinit (Bool.not_eq_false _ ▸ hreleased)) i)

theorem Moves.slave_of_ne (hmoves : Moves i h h') (hj : j ≠ i) : h'.s j = h.s j := by
  refine hmoves.invariant (P := fun h' => h'.s j = h.s j) rfl ?_
  intro h₁ h₂ hmove heq
  cases hmove with
  | quiet _ => exact heq
  | fill _ | greet _ _ | close _ | alloc _ | load _ _ | forward _ _ _ =>
    exact (update_of_ne hj ..).trans heq

theorem setSlave_fd (hs : s.fd = (h.s i).fd) (j : Fin remoteMax) :
    ((h.setSlave i s).s j).fd = (h.s j).fd := by
  by_cases hj : j = i
  · subst hj
    rwa [setSlave_self]
  · rw [setSlave_of_ne _ _ _ hj]

theorem findSlave_eq_some {fd : ℕ} (hfind : h.findSlave fd = some i) : (h.s i).fd = fd := by
  have hi := find?_some hfind
  exact (of_decide_eq_true hi).2

/-! ### The shape of a slave -/

/-- How the fields of a slave go together. -/
structure SlaveShape (s : NodeSlave) : Prop where
  /-- A slave has a socket as soon as it does not wait for one, and it never loses it. -/
  fd_eq_zero_iff : s.fd = 0 ↔ s.status = .wait
  /-- Messages wait until the peer is known. -/
  queue : s.queue ≠ none → s.status = .wait ∨ s.status = .handshake
  recvBuffer : s.recvBuffer ≠ none ↔ s.status = .content

theorem SlaveShape.recvBuffer_eq_none (hs : SlaveShape s) (hstatus : s.status ≠ .content) :
    s.recvBuffer = none := by
  by_contra hsome
  exact hstatus (hs.recvBuffer.mp hsome)

/-- Every slave is in shape. -/
def Shape (h : HarborNode) : Prop := ∀ i, SlaveShape (h.s i)

theorem shape_init : SlaveShape .init where
  fd_eq_zero_iff := by simp [NodeSlave.init]
  queue := by simp [NodeSlave.init]
  recvBuffer := by simp [NodeSlave.init]

theorem shape_create {id : ℕ} {slave : UInt32} : Shape (create id slave) := fun _ => shape_init

theorem Shape.setSlave (hh : Shape h) (hs : SlaveShape s) : Shape (h.setSlave i s) := by
  intro j
  by_cases hj : j = i
  · subst hj
    rwa [setSlave_self]
  · rw [setSlave_of_ne _ _ _ hj]
    exact hh j

/-- A slave with a link has no queue unless it is in the handshake. -/
theorem Shape.queue_eq_none (hh : Shape h) (hfd : (h.s i).fd ≠ 0)
    (hstatus : (h.s i).status ≠ .handshake) : (h.s i).queue = none := by
  by_contra hqueue
  rcases (hh i).queue hqueue with hwait | hshake
  · exact hfd ((hh i).fd_eq_zero_iff.mpr hwait)
  · exact hstatus hshake

theorem Shape.move (hmove : Move i h h') (hh : Shape h) : Shape h' := by
  have hi := hh i
  cases hmove with
  | quiet _ => exact hh
  | fill hstatus =>
    exact hh.setSlave ⟨hi.fd_eq_zero_iff, hi.queue, hi.recvBuffer⟩
  | greet hstatus hfd =>
    exact hh.setSlave ⟨by simp [hfd], by simp, by simpa [hstatus] using hi.recvBuffer⟩
  | close hstatus =>
    have hfd : (h.s i).fd ≠ 0 := by
      rw [Ne, hi.fd_eq_zero_iff]
      rcases hstatus with hs | hs <;> simp [hs]
    have hrecv := hi.recvBuffer_eq_none (by rcases hstatus with hs | hs <;> simp [hs])
    exact hh.setSlave ⟨by simp [hfd], by simp, by simp [hrecv]⟩
  | alloc hstatus =>
    have hfd : (h.s i).fd ≠ 0 := by simp [hi.fd_eq_zero_iff, hstatus]
    have hqueue := hh.queue_eq_none hfd (by simp [hstatus])
    exact Shape.setSlave (h := h.alloc) hh ⟨by simp [hfd], by simp [hqueue], by simp⟩
  | load hstatus hrecv =>
    exact hh.setSlave ⟨hi.fd_eq_zero_iff, hi.queue, by simp [hstatus]⟩
  | forward hstatus hrecv _ =>
    have hfd : (h.s i).fd ≠ 0 := by simp [hi.fd_eq_zero_iff, hstatus]
    have hqueue := hh.queue_eq_none hfd (by simp [hstatus])
    exact hh.setSlave ⟨by simp [hfd], by simp [hqueue], by simp⟩

/-- Every effect keeps the shape. -/
theorem Shape.effect (heffect : Effect h a h') (hh : Shape h) : Shape h' := by
  cases heffect with
  | quiet _ | stray _ | bind _ _ | bindDrop _ _ _ _ | bindSend _ _ _ | deliver _ _
  | reject _ _ _ _ | send _ _ _ _ | query _ => exact hh
  | data hfind hmoves => exact hmoves.invariant (P := Shape) hh Shape.move
  | connect hmsg hfd =>
    have hfd' := (parseCommand_eq_link hmsg).1
    have hwait := (hh _).fd_eq_zero_iff.mp hfd
    have hrecv := (hh _).recvBuffer_eq_none (ne_of_eq_of_ne hwait (by decide))
    exact hh.setSlave ⟨by simp [hfd'], by simp, by simp [hrecv]⟩
  | accept hmsg hfd =>
    have hfd' := (parseCommand_eq_link hmsg).1
    have hwait := (hh _).fd_eq_zero_iff.mp hfd
    have hrecv := (hh _).recvBuffer_eq_none (ne_of_eq_of_ne hwait (by decide))
    rw [flushed, linked, setSlave_emit, setSlave_setSlave]
    exact hh.setSlave ⟨by simp [hfd'], by simp, by simp [hrecv]⟩
  | bindLocal _ _ hfd _ _ =>
    exact hh.setSlave ⟨(hh _).fd_eq_zero_iff, by simp, (hh _).recvBuffer⟩
  | bindWait _ _ hfd _ _ =>
    exact hh.setSlave ⟨(hh _).fd_eq_zero_iff, fun _ => .inl ((hh _).fd_eq_zero_iff.mp hfd),
      (hh _).recvBuffer⟩
  | wait _ _ hwait _ =>
    exact hh.setSlave ⟨(hh _).fd_eq_zero_iff, fun _ => hwait.imp_left (hh _).fd_eq_zero_iff.mp,
      (hh _).recvBuffer⟩
  | release => exact fun _ => shape_init

end HarborNode

end Uboss.Module
