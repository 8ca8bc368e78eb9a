import Uboss.Core.SocketRecycle

/-!
# Descriptors of the callers

`socket_server_bind` takes a descriptor that remains the caller's. `force_close` does not close it
as long as the type of the socket is `BIND`, but `close_socket` replaces this type by `HALFCLOSE` if
there is something left to be sent. Otherwise no descriptor of a caller is closed, in any
interleaving.
-/

namespace Uboss.Core

open Math List

/-- A descriptor that was handed over by `socket_server_bind`. -/
def Fd.IsCaller : Fd → Prop
  | .server _ => False
  | .caller _ => True

instance : DecidablePred Fd.IsCaller
  | .server _ => .isFalse id
  | .caller _ => .isTrue trivial

namespace SocketTable

variable {ι : Type} {soi : SocketObjectInterface} {t t' : SocketTable ι} {i : Fin maxSocket}

/-- The descriptor of the slot is a caller's. -/
def Borrows (t : SocketTable ι) (i : Fin maxSocket) : Prop := ∃ fd ∈ (t.slot i).fd, fd.IsCaller

instance (t : SocketTable ι) (i : Fin maxSocket) : Decidable (t.Borrows i) :=
  inferInstanceAs (Decidable (∃ fd ∈ (t.slot i).fd, _))

/-- The invariant: an open socket with a descriptor of a caller has the type `BIND`, and none of
these descriptors was closed. -/
structure Lends (t : SocketTable ι) : Prop where
  bound : ∀ i, t.Borrows i → (t.slot i).socket.IsOpen → (t.slot i).socket.type = .bind
  kept : ∀ fd ∈ t.closed, ¬ fd.IsCaller

/-- A flush that closes the socket or leaves nothing to be sent. -/
def leavesNothing (i : Fin maxSocket) : Except TableFault (SocketTable ι × SocketResult) → Bool
  | .ok (t, r) => decide (r = .close) || (t.slot i).socket.sendBufferEmpty
  | .error _ => true

/-- Nothing is left to be sent in `close_socket`, if the descriptor is a caller's. -/
def Drains (t : SocketTable ι) (soi : SocketObjectInterface) (o : CommandOutcome) : Request ι → Prop
  | .close id false => t.Named id → t.Borrows (hashId id) →
      (t.slot (hashId id)).socket.sendBufferEmpty = true ∨
        leavesNothing (hashId id) (t.sendBuffer (hashId id) soi o.locked o.results) = true
  | _ => True

instance (t : SocketTable ι) (o : CommandOutcome) : DecidablePred (t.Drains soi o)
  | .close _ false => inferInstanceAs (Decidable (_ → _ → _ ∨ _))
  | .close _ true | .open _ | .listen .. | .bind .. | .udp .. | .start _ | .send .. | .setUdp .. |
    .setopt _ => .isTrue trivial

namespace Lends

variable {x : Socket ι} {e : CommandEnd}

variable (h : t.Lends)
include h

theorem of_slot (hslot : ∀ j, j ≠ i → t'.slot j = t.slot j)
    (hi : t'.Borrows i → (t'.slot i).socket.IsOpen → (t'.slot i).socket.type = .bind)
    (hclosed : ∀ fd ∈ t'.closed, ¬ fd.IsCaller) : t'.Lends where
  bound j := by
    by_cases hj : j = i
    · exact hj ▸ hi
    · unfold Borrows
      rw [hslot j hj]
      exact h.bound j
  kept := hclosed

theorem put (hx : t.Borrows i → x.IsOpen → x.type = .bind) : (t.put i x).Lends := by
  refine h.of_slot (fun j hj => put_slot_of_ne hj x) ?_ h.kept
  unfold Borrows
  rw [put_slot_self]
  exact hx

theorem put_of_type (hx : x.type = (t.slot i).socket.type) : (t.put i x).Lends := by
  refine h.put fun hborrows hopen => hx.trans (h.bound i hborrows ?_)
  rw [Socket.IsOpen, hx] at hopen
  exact hopen

theorem setType {type : SocketType} (htype : type = .invalid ∨ type = .reserve) :
    (t.setType i type).Lends := by
  refine h.put fun _ hopen => ?_
  rcases htype with rfl | rfl
  · exact absurd rfl hopen.1
  · exact absurd rfl hopen.2

/-- `force_close` of an open socket does not close the descriptor of a caller. -/
theorem release (hopen : (t.slot i).socket.IsOpen) (hx : x.type = .invalid) :
    (t.release i x).Lends := by
  refine h.of_slot (fun j hj => put_slot_of_ne hj x) (fun _ hisOpen => ?_) fun fd hfd => ?_
  · have hself : (t.release i x).slot i = { t.slot i with socket := x } := put_slot_self t i x
    rw [hself] at hisOpen
    exact absurd hx hisOpen.1
  · simp only [SocketTable.release] at hfd
    split_ifs at hfd with hbind
    · exact h.kept fd hfd
    · rcases mem_append.mp hfd with hfd | hfd
      · exact h.kept fd hfd
      · exact fun hcaller => hbind (h.bound i ⟨fd, Option.mem_toList.mp hfd, hcaller⟩ hopen)

theorem forceClose (hclose : t.forceClose i = .ok t') : t'.Lends := by
  unfold SocketTable.forceClose at hclose
  split at hclose
  · cases hclose
    exact h
  · cases hclose
  next hinvalid hreserve =>
    cases hclose
    exact h.release ⟨hinvalid, hreserve⟩ rfl

theorem sendBuffer (hne : (t.slot i).socket.type ≠ .invalid) {locked : Bool} {rs : List WriteResult}
    {r : SocketResult} (hsend : t.sendBuffer i soi locked rs = .ok (t', r)) :
    t'.Lends ∧ (r ≠ .close → t'.slot i = { t.slot i with socket := (t'.slot i).socket } ∧
      (t'.slot i).socket.type = (t.slot i).socket.type) := by
  unfold SocketTable.sendBuffer at hsend
  split_ifs at hsend with hlocked
  · cases hsend
    exact ⟨h, fun _ => ⟨rfl, rfl⟩⟩
  · split at hsend
    · cases hsend
    next f hf =>
      obtain ⟨hclosed, hkept⟩ := Socket.sendBuffer_typed hne hf
      cases hsend
      by_cases hres : f.result = .close
      · obtain ⟨hopen, hinvalid, -⟩ := hclosed hres
        rw [if_pos hres]
        exact ⟨h.release hopen hinvalid, fun hr => absurd hres hr⟩
      · obtain ⟨htype, -⟩ := hkept hres
        rw [if_neg hres, put_slot_self]
        exact ⟨h.put_of_type htype, fun _ => ⟨rfl, htype⟩⟩

theorem closeDecide {id : ℕ} {shutdown : Bool} (hempty : shutdown = false → t.Borrows (hashId id) →
      (t.slot (hashId id)).socket.sendBufferEmpty = true)
    (hclose : t.closeDecide id shutdown = .ok (t', e)) : t'.Lends := by
  unfold SocketTable.closeDecide at hclose
  split_ifs at hclose with hdecide
  · obtain ⟨u, hu, heq⟩ := map_eq_ok_iff.mp hclose
    cases heq
    exact h.forceClose hu
  · cases hclose
    -- the type becomes `HALFCLOSE` only if there is something left
    rw [not_or, Bool.not_eq_true] at hdecide
    exact h.put fun hborrows => absurd (hempty hdecide.1 hborrows) hdecide.2

theorem closeSocket {id : ℕ} {shutdown : Bool} {o : CommandOutcome}
    (hdrains : t.Drains soi o (.close id shutdown))
    (hclose : t.closeSocket soi id shutdown o = .ok (t', e)) : t'.Lends := by
  unfold SocketTable.closeSocket at hclose
  split_ifs at hclose with hnamed hempty
  · exact h.closeDecide (fun _ _ => hempty) hclose
  · split at hclose
    · cases hclose
    next u hu =>
      cases hclose
      exact (h.sendBuffer hnamed.1 hu).1
    next u r hr hu =>
      obtain ⟨hlends, hkept⟩ := h.sendBuffer hnamed.1 hu
      refine hlends.closeDecide (fun hshutdown hborrows => ?_) hclose
      subst hshutdown
      have hbefore : t.Borrows (hashId id) := by
        unfold Borrows at hborrows
        rw [(hkept hr).1] at hborrows
        exact hborrows
      have hflush := (hdrains hnamed hbefore).resolve_left hempty
      rw [hu, leavesNothing, Bool.or_eq_true, decide_eq_true_iff] at hflush
      exact hflush.resolve_left hr
  · cases hclose
    exact h

theorem startSocket {id : ℕ} {added : Bool} (hstart : t.startSocket id added = .ok (t', e)) :
    t'.Lends := by
  cases starts_startSocket hstart with
  | stay _ => exact h
  | failed _ hclose => exact h.forceClose hclose
  | @started fd type hunstarted _ _ _ =>
    have hregister : (t.register (hashId id) fd).Lends := ⟨h.bound, h.kept⟩
    refine hregister.put fun hborrows _ => ?_
    have hbind := h.bound _ hborrows (Socket.isOpen_of_unstarted hunstarted)
    rw [hbind] at hunstarted
    rcases hunstarted with h | h <;> cases h

theorem setUdpAddress {id : ℕ} {a : UdpAddress} (hset : t.setUdpAddress id a = (t', e)) :
    t'.Lends := by
  unfold SocketTable.setUdpAddress at hset
  dsimp only at hset
  split_ifs at hset
  · cases hset
    exact h
  · cases hset
    exact h.put_of_type rfl
  · cases hset
    exact h

theorem install {id : ℕ} {fd : Fd} (hx : fd.IsCaller → x.type = .bind) :
    (t.install i id fd x).Lends := by
  refine h.of_slot (fun j hj => Function.update_of_ne hj ..) ?_ h.kept
  unfold Borrows
  rw [install_slot_self]
  rintro ⟨fd', hfd', hcaller⟩ _
  cases hfd'
  exact hx hcaller

theorem spend (k j : ℕ) : (t.spend k (t.freshFds j)).Lends where
  bound := h.bound
  kept fd hfd := by
    rcases mem_append.mp hfd with hfd | hfd
    · exact h.kept fd hfd
    · obtain ⟨n, -, rfl⟩ := mem_map.mp hfd
      exact id

theorem closeFd (n : ℕ) : (t.closeFd (.server n)).Lends where
  bound := h.bound
  kept fd hfd := by
    rcases mem_append.mp hfd with hfd | hfd
    · exact h.kept fd hfd
    · rw [mem_singleton.mp hfd]
      exact id

theorem opened {r : Request ι} (hopened : Opened t r t' e) : t'.Lends := by
  have hregister : ∀ {u : SocketTable ι} {j fd}, u.Lends → (u.register j fd).Lends :=
    fun hu => ⟨hu.bound, hu.kept⟩
  cases hopened with
  | openFailed _ => exact (h.spend _ _).setType (.inl rfl)
  | opened _ _ =>
    exact (hregister (h.spend _ _)).install False.elim
  | listened _ _ _ => exact h.install False.elim
  | bindFailed => exact h.setType (.inl rfl)
  | bound hx _ => exact (hregister h).install fun _ => hx
  | udpFailed => exact (h.setType (.inl rfl)).closeFd _
  | udpOpened _ _ => exact (hregister h).install False.elim

theorem accepted {id : Option ℕ} (haccepted : Accepted t id t') : t'.Lends := by
  cases haccepted with
  | stay => exact h
  | refused =>
    have hspend := h.spend 1 1
    exact ⟨hspend.bound, hspend.kept⟩
  | @accepted id allocId x _ _ _ _ =>
    have hspend : Lends { t.spend 1 [] with allocId := allocId } := {
      bound := h.bound
      kept := by
        simp only [SocketTable.spend, append_nil]
        exact h.kept }
    exact hspend.install False.elim

theorem handleEvent {o : EventOutcome} (hevent : t.handleEvent i soi o = .ok t') : t'.Lends := by
  by_cases hlisten : (t.slot i).socket.type = .listen
  · exact h.accepted (accepted_handleEvent hlisten hevent)
  unfold SocketTable.handleEvent at hevent
  split at hevent
  next hconnecting =>
    unfold reportConnect at hevent
    split at hevent
    · cases hevent
      refine h.put fun hborrows _ => ?_
      have hbind := h.bound i hborrows (by simp [Socket.IsOpen, hconnecting])
      cases hconnecting.symm.trans hbind
    · exact h.forceClose hevent
  next htype => exact absurd htype hlisten
  · cases hevent
    exact h
  next hinvalid =>
    split at hevent
    · split_ifs at hevent
      · exact h.forceClose hevent
      · cases hevent
        exact h
    · cases hevent
      exact h
    · obtain ⟨⟨u, r⟩, hu, rfl⟩ := map_eq_ok_iff.mp hevent
      exact (h.sendBuffer hinvalid hu).1
    · exact h.forceClose hevent

end Lends

section Commands

variable [DecidableEq ι]

theorem Lends.sendSocket (h : t.Lends) {id : ℕ} {p : Packet ι} {priority : Priority}
    {address : Option UdpAddress} {rs : List WriteResult} {e : CommandEnd}
    (hsend : t.sendSocket soi id p priority address rs = .ok (t', e)) : t'.Lends := by
  unfold SocketTable.sendSocket at hsend
  split_ifs at hsend
  · split at hsend
    · cases hsend
    next x hx =>
      cases hsend
      exact h.put_of_type (Socket.sendSocket_type hx)
  · cases hsend
    exact h

theorem Lends.ctrlCmd (h : t.Lends) {r : Request ι} {o : CommandOutcome} {e : CommandEnd}
    (hdrains : t.Drains soi o r) (hcmd : t.ctrlCmd soi o r = .ok (t', e)) : t'.Lends := by
  cases r with
  | «open» id | listen id fd | bind id fd | udp id fd v6 =>
    exact h.opened (opened_ctrlCmd (by simp [Request.opens?]) hcmd)
  | close id shutdown => exact h.closeSocket hdrains hcmd
  | start id => exact h.startSocket hcmd
  | send id p priority address => exact h.sendSocket hcmd
  | setUdp id a => exact h.setUdpAddress (Except.ok.inj hcmd)
  | setopt id =>
    cases hcmd
    exact h

end Commands

end SocketTable

namespace SocketRecycle

variable {ι : Type}

/-- Nothing is left to be sent when a descriptor of a caller is closed with
`socket_server_close`. -/
def Drained (soi : SocketObjectInterface) (s : SocketRecycle ι) : RecycleAct ι → Prop
  | .command o => ∀ p ∈ s.pipe.head?, s.table.Drains soi o p.request
  | _ => True

instance (soi : SocketObjectInterface) (s : SocketRecycle ι) : DecidablePred (s.Drained soi)
  | .command _ => inferInstanceAs (Decidable (∀ p ∈ s.pipe.head?, _))
  | .call _ | .draw _ | .retry _ | .swap _ | .giveUp _ | .store _ | .post _ | .forget _ |
    .request .. | .udpConnect _ | .directWrite .. | .failed | .clear | .wait _ | .event _ =>
    .isTrue trivial

section Step

variable [DecidableEq ι] {soi : SocketObjectInterface} {s s' : SocketRecycle ι}

theorem lends_step (h : s.table.Lends) {a : RecycleAct ι} (hdrained : s.Drained soi a)
    (hstep : s.step soi a = .ok s') : s'.table.Lends := by
  cases a with
  | command o =>
    simp only [step] at hstep
    split at hstep
    next p rest hpoller hpipe =>
      obtain ⟨⟨t, e⟩, hcmd, rfl⟩ := map_eq_ok_iff.mp hstep
      exact h.ctrlCmd (hdrained p (by rw [hpipe]; rfl)) hcmd
    · cases hstep
  | event o =>
    obtain rfl | ⟨e, rest, t, -, -, hevent, rfl⟩ := event_cases hstep
    · exact h
    · have ht := h.handleEvent hevent
      cases s.table.acceptedId e.1 o with
      | none => exact ht
      | some id => exact ht
  | call c =>
    cases hstep
    cases c with
    | connect | listen | bind fd | udp v6 => exact ⟨h.bound, h.kept⟩
  | giveUp k =>
    simp only [step] at hstep
    split at hstep
    next o _ =>
      cases hstep
      cases o with
      | connect | bind fd => exact h
      | listen fd | udp fd v6 => exact h.closeFd fd
    · cases hstep
  | swap k =>
    simp only [step] at hstep
    split at hstep
    · split_ifs at hstep
      cases hstep
      exact h.setType (.inr rfl)
    · cases hstep
  | store k =>
    simp only [step] at hstep
    split at hstep
    next p _ =>
      cases hstep
      refine h.of_slot (fun j hj => SocketTable.nameSlot_slot_of_ne hj) ?_ h.kept
      unfold SocketTable.Borrows
      rw [SocketTable.nameSlot_slot_self]
      rintro ⟨fd, hfd, -⟩
      cases hfd
    · cases hstep
  | udpConnect id =>
    cases hstep
    unfold SocketTable.incUdpconnecting
    split_ifs
    · exact h.put_of_type rfl
    · exact h
  | directWrite i p offset =>
    simp only [step] at hstep
    split_ifs at hstep
    cases hstep
    exact h.put_of_type rfl
  | failed =>
    simp only [step] at hstep
    split at hstep
    · cases hstep
      exact h.setType (.inl rfl)
    · cases hstep
  | draw k =>
    simp only [step] at hstep
    split at hstep
    · cases hstep
      exact ⟨h.bound, h.kept⟩
    · cases hstep
  | forget k =>
    cases hstep
    exact h
  | retry k | post k | request k r | clear | wait fds =>
    -- the table remains as it is
    simp only [step] at hstep
    repeat' split at hstep
    all_goals
      cases hstep
    all_goals exact h

/-- In every run in which `close_socket` leaves nothing to be sent on a descriptor of a caller, no
such descriptor is closed. -/
theorem caller_fd_not_closed {m : Fin maxSocket → Slot ι} {w : List (RecycleAct ι)}
    (hrun : Run (fun s a => next s soi a) (Drained soi) (init m) w s) (n : ℕ) :
    .caller n ∉ s.table.closed := by
  have hlends : s.table.Lends := by
    refine hrun.invariant (P := fun s => s.table.Lends) ?_ fun hguard hnext hs =>
      lends_step hs hguard (toOption_eq_some_iff.mp hnext)
    exact ⟨fun i _ hopen => absurd rfl hopen.1, fun fd hfd => by cases hfd⟩
  exact fun hmem => hlends.kept _ hmem trivial

/-- A caller binds a descriptor, sends a packet and closes the socket, and the flush writes as `rs`
says. -/
def bindSendClose (rs : List WriteResult) : List (RecycleAct Unit) :=
  [.call (.bind 7), .draw 0, .swap 0, .store 0, .post 0, .command ⟨[], true, [], false⟩,
    .request 0 (.send 1 ⟨(), 0, 5⟩ .high none), .command ⟨[], true, [], false⟩,
    .request 0 (.close 1 false), .command ⟨[], true, rs, false⟩]

theorem caller_fd_not_closed_drained : ∃ s : SocketRecycle Unit,
    Run (fun s a => next s noObjects a) (Drained noObjects) (init blank)
        (bindSendClose [.wrote 5]) s ∧
      (s.table.slot (hashId 1)).fd = some (.caller 7) ∧ .caller 7 ∉ s.table.closed := by
  have heval : (exec (guarded (fun s a => next s noObjects a) (Drained noObjects)) (init blank)
      (bindSendClose [.wrote 5])).any (fun s =>
        decide ((s.table.slot (hashId 1)).fd = some (.caller 7))) = true := by
    decide +kernel
  obtain ⟨s, hs, hfd⟩ := (Option.any_eq_true _ _).mp heval
  have hrun := run_of_exec_guarded hs
  exact ⟨s, hrun, of_decide_eq_true hfd, caller_fd_not_closed hrun 7⟩

/-- The write of the packet would block, and the type becomes `HALFCLOSE`. The descriptor is closed
after the next event. -/
theorem closes_caller_fd : ¬ ∀ s : SocketRecycle Unit,
    Reachable (fun s a => next s noObjects a) (init blank) s → ∀ n, .caller n ∉ s.table.closed := by
  have heval : (exec (fun s a => next s noObjects a) (init blank) (bindSendClose [.again] ++
      [.wait [.caller 7], .event ⟨true, true, .write false [.wrote 5]⟩])).any
        (fun s => decide (.caller 7 ∈ s.table.closed)) = true := by
    decide +kernel
  obtain ⟨s, hs, hmem⟩ := (Option.any_eq_true _ _).mp heval
  exact fun h => h s (reachable_of_exec hs) 7 (of_decide_eq_true hmem)

end Step

end SocketRecycle

end Uboss.Core
