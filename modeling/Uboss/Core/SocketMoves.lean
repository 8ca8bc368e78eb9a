import Uboss.Core.SocketTable
import Uboss.Core.SocketFlush

/-!
# What the socket thread does to the slots

The kinds of changes that a command or an event can make. The properties of the table are derived
from these.

## Main definitions

* `SocketTable.Change` — the changes of one slot by a command for an open socket or an event
* `SocketTable.Opened` — the changes by a command that opens a socket
* `SocketTable.Accepted` — the changes by an event of a listening socket

## Main results

* `change_ctrlCmd`, `opened_ctrlCmd`, `change_handleEvent`, `accepted_handleEvent` — these are all
  of them
-/

namespace Uboss.Core

open Math Function List

/-- The types of the sockets whose descriptor is in the event poll. -/
def SocketType.Registered (type : SocketType) : Prop :=
  type = .listen ∨ type = .connecting ∨ type = .connected ∨ type = .halfclose ∨ type = .bind

/-- The socket waits for `start_socket`. -/
def SocketType.Unstarted (type : SocketType) : Prop := type = .paccept ∨ type = .plisten

/-- The requests that open a socket, with its id. -/
def Request.opens? {ι : Type} : Request ι → Option ℕ
  | .open id | .listen id _ | .bind id _ | .udp id _ _ => some id
  | _ => none

/-- The id of the socket that a request is for. -/
def Request.id {ι : Type} : Request ι → ℕ
  | .open id | .listen id _ | .bind id _ | .udp id _ _ | .close id _ | .start id | .send id _ _ _
  | .setUdp id _ | .setopt id => id

theorem Socket.isOpen_of_registered {ι : Type} {x : Socket ι} (h : x.type.Registered) :
    x.IsOpen := by
  unfold Socket.IsOpen
  cases htype : x.type <;> simp_all [SocketType.Registered]

theorem Socket.isOpen_of_unstarted {ι : Type} {x : Socket ι} (h : x.type.Unstarted) : x.IsOpen := by
  unfold Socket.IsOpen
  rcases h with h | h <;> simp [h]

theorem Socket.IsOpen.registered_iff {ι : Type} {x : Socket ι} (h : x.IsOpen) :
    x.type.Registered ↔ ¬ x.type.Unstarted := by
  obtain ⟨hinvalid, hreserve⟩ := h
  cases htype : x.type <;> simp_all [SocketType.Registered, SocketType.Unstarted]

/-- `x` is stored in the place of `y`. The type can change from `CONNECTING` to `CONNECTED`, and
from any that is registered to `HALFCLOSE`. -/
structure Socket.Kept {ι : Type} (y x : Socket ι) : Prop where
  type : x.type = y.type ∨ y.type = .connecting ∧ x.type = .connected ∨
    y.type.Registered ∧ x.type = .halfclose
  unstarted : y.type.Unstarted → y.queued = [] → y.dw = none → x.queued = [] ∧ x.dw = none
  lists : y.IsOpen ∨ x.high = y.high ∧ x.low = y.low

theorem Socket.type_of_canDirectWrite {ι : Type} {x : Socket ι} (h : x.canDirectWrite = true) :
    x.type = .connected := by
  simp only [canDirectWrite, Bool.and_eq_true, beq_iff_eq] at h
  exact h.1.1.2

namespace Socket.Kept

variable {ι : Type} {y x : Socket ι}

theorem isOpen_iff (h : y.Kept x) : x.IsOpen ↔ y.IsOpen := by
  rcases h.type with heq | ⟨hy, hx⟩ | ⟨hy, hx⟩
  · simp [IsOpen, heq]
  · simp [IsOpen, hy, hx]
  · exact iff_of_true (by simp [IsOpen, hx]) (isOpen_of_registered hy)

theorem registered_iff (h : y.Kept x) : x.type.Registered ↔ y.type.Registered := by
  rcases h.type with heq | ⟨hy, hx⟩ | ⟨hy, hx⟩
  · rw [heq]
  · simp [hy, hx, SocketType.Registered]
  · exact iff_of_true (by simp [hx, SocketType.Registered]) hy

theorem unstarted_of (h : y.Kept x) (hx : x.type.Unstarted) : y.type.Unstarted := by
  rcases h.type with heq | ⟨-, heq⟩ | ⟨-, heq⟩
  · exact heq ▸ hx
  · simp [heq, SocketType.Unstarted] at hx
  · simp [heq, SocketType.Unstarted] at hx

end Socket.Kept

section Send

variable {ι : Type} [DecidableEq ι] {soi : SocketObjectInterface} {s : Socket ι} {p : Packet ι}

variable {priority : Priority} {address : Option UdpAddress}
  {x : Socket ι × List (Datagram ι) × SocketResult} {r : WriteResult}

theorem Socket.appendSendbuffer_type {idle : Bool} {sent : List (Datagram ι)}
    (h : s.appendSendbuffer soi p priority address idle sent = .ok x) : x.1.type = s.type := by
  obtain ⟨y, hy, rfl⟩ := map_eq_ok_iff.mp h
  have htype : y.type = s.type := by
    cases priority with
    | high | low =>
      obtain ⟨l, -, rfl⟩ := map_eq_ok_iff.mp hy
      rfl
  rw [← htype]
  unfold warnSend
  dsimp only
  split_ifs <;> rfl

theorem Socket.sendSocket_type (h : s.sendSocket soi p priority address r = .ok x) :
    x.1.type = s.type := by
  unfold sendSocket at h
  split_ifs at h with hclosed hlisten hidle htcp htcp
  · cases h
    rfl
  · cases h
    rfl
  · exact appendSendbuffer_type h
  · cases r with
    | wrote n =>
      dsimp only at h
      split_ifs at h
      · cases h
        rfl
      · exact appendSendbuffer_type h
    | eintr | again | error => exact appendSendbuffer_type h
  · exact appendSendbuffer_type h
  · exact appendSendbuffer_type h

theorem Socket.sendSocket_of_unstarted (h : s.sendSocket soi p priority address r = .ok x)
    (hs : s.type.Unstarted) : x.1 = s := by
  unfold sendSocket at h
  rcases hs with hs | hs
  · rw [if_pos (.inr (.inr hs))] at h
    cases h
    rfl
  · rw [if_neg (by simp [hs]), if_pos (.inl hs)] at h
    cases h
    rfl

theorem Socket.kept_sendSocket (hopen : s.IsOpen)
    (h : s.sendSocket soi p priority address r = .ok x) : s.Kept x.1 where
  type := .inl (sendSocket_type h)
  unstarted hunstarted hqueued hdw := by
    rw [sendSocket_of_unstarted h hunstarted]
    exact ⟨hqueued, hdw⟩
  lists := .inl hopen

end Send

namespace SocketTable

variable {ι : Type} {soi : SocketObjectInterface} {t t' : SocketTable ι} {i : Fin maxSocket}

section Table

variable (t : SocketTable ι)

/-- `sp_add` that succeeds. -/
def register (i : Fin maxSocket) (fd : Fd) : SocketTable ι :=
  { t with poll := Function.update t.poll fd (some i) }

/-- The next descriptors of the server. -/
def freshFds (k : ℕ) : List Fd := (List.range' t.nextFd k).map .server

/-- The server opens descriptors and closes some. -/
def spend (k : ℕ) (fds : List Fd) : SocketTable ι :=
  { t with nextFd := t.nextFd + k, closed := t.closed ++ fds }

end Table

/-- The changes of slot `i`. -/
inductive Change (t : SocketTable ι) (i : Fin maxSocket) : SocketTable ι → Prop
  | stay : Change t i t
  | put {x : Socket ι} : (t.slot i).socket.Kept x → Change t i (t.put i x)
  /-- The socket is closed. -/
  | release {x : Socket ι} :
      (t.slot i).socket.IsOpen → x.type = .invalid → x.high = .empty → x.low = .empty →
      Change t i (t.release i x)
  /-- The socket is started. -/
  | start {fd : Fd} {type : SocketType} :
      (t.slot i).socket.type.Unstarted → type = .connected ∨ type = .listen →
      (t.slot i).fd = some fd → t.poll fd = none →
      Change t i ((t.register i fd).setType i type)

/-- The slot of the socket `id` is free again. -/
def freed (t : SocketTable ι) (id : ℕ) : SocketTable ι := t.setType (hashId id) .invalid

/-- The socket `id` gets a descriptor that is in the event poll. -/
def started (t : SocketTable ι) (id : ℕ) (fd : Fd) (x : Socket ι) : SocketTable ι :=
  (t.register (hashId id) fd).install (hashId id) id fd x

/-- The changes by the requests that open a socket. -/
inductive Opened (t : SocketTable ι) : Request ι → SocketTable ι → CommandEnd → Prop
  | openFailed {id k : ℕ} {e : CommandEnd} :
      e = .closed id ∨ e = .failed (hashId id) (some id) →
      Opened t (.open id) ((t.spend k (t.freshFds k)).freed id) e
  | opened {id k : ℕ} {x : Socket ι} :
      x.type = .connected ∨ x.type = .connecting → t.poll (.server (t.nextFd + k)) = none →
      Opened t (.open id)
        ((t.spend (k + 1) (t.freshFds k)).started id (.server (t.nextFd + k)) x) .done
  | listened {id fd : ℕ} {x : Socket ι} :
      x.type = .plisten → x.queued = [] → x.dw = none →
      Opened t (.listen id fd) (t.install (hashId id) id (.server fd) x) .done
  | bindFailed {id fd : ℕ} : Opened t (.bind id fd) (t.freed id) (.closed id)
  | bound {id fd : ℕ} {x : Socket ι} :
      x.type = .bind → t.poll (.caller fd) = none →
      Opened t (.bind id fd) (t.started id (.caller fd) x) .done
  | udpFailed {id fd : ℕ} {v6 : Bool} :
      Opened t (.udp id fd v6) ((t.freed id).closeFd (.server fd)) (.failed (hashId id) none)
  | udpOpened {id fd : ℕ} {v6 : Bool} {x : Socket ι} :
      x.type = .connected → t.poll (.server fd) = none →
      Opened t (.udp id fd v6) (t.started id (.server fd) x) .done

/-- The id for which the event reserves a slot. -/
def acceptedId (t : SocketTable ι) (i : Fin maxSocket) (o : EventOutcome) : Option ℕ :=
  if (t.slot i).socket.type = .listen ∧ o.accepted then t.openFd.reserveId.2 else none

/-- The changes by an event of a listening socket. -/
inductive Accepted (t : SocketTable ι) : Option ℕ → SocketTable ι → Prop
  | stay : Accepted t none t
  /-- There is no free slot. -/
  | refused {allocId : ℕ} :
      Accepted t none { t.spend 1 (t.freshFds 1) with allocId := allocId }
  | accepted {id allocId : ℕ} {x : Socket ι} :
      (t.slot (hashId id)).socket.type = .invalid → x.type = .paccept → x.queued = [] →
      x.dw = none →
      Accepted t (some id)
        (install { t.spend 1 [] with allocId := allocId } (hashId id) id (.server t.nextFd) x)

/-- A socket that waits for `start_socket` has nothing to send. -/
def Quiet (t : SocketTable ι) (i : Fin maxSocket) : Prop :=
  (t.slot i).socket.type.Unstarted → (t.slot i).socket.queued = [] ∧ (t.slot i).socket.dw = none

section Slots

@[simp] theorem put_slot_self (t : SocketTable ι) (i : Fin maxSocket) (x : Socket ι) :
    (t.put i x).slot i = { t.slot i with socket := x } := update_self ..

theorem put_slot_of_ne {j : Fin maxSocket} (h : j ≠ i) (x : Socket ι) :
    (t.put i x).slot j = t.slot j := update_of_ne h ..

@[simp] theorem put_put (t : SocketTable ι) (i : Fin maxSocket) (x y : Socket ι) :
    (t.put i x).put i y = t.put i y := by
  simp [put]

theorem put_eq_self : t.put i (t.slot i).socket = t := by
  simp [put]

theorem nameSlot_slot_self (t : SocketTable ι) (id : ℕ) : (t.nameSlot id).slot (hashId id) =
      ⟨{ (t.slot (hashId id)).socket with udpconnecting := 0 }, id, none⟩ := update_self ..

theorem nameSlot_slot_of_ne {id : ℕ} (h : i ≠ hashId id) : (t.nameSlot id).slot i = t.slot i :=
  update_of_ne h ..

theorem nameSlot_type (t : SocketTable ι) (id : ℕ) (i : Fin maxSocket) :
    ((t.nameSlot id).slot i).socket.type = (t.slot i).socket.type := by
  by_cases hi : i = hashId id
  · rw [hi, nameSlot_slot_self]
  · rw [nameSlot_slot_of_ne hi]

/-- A socket whose type did not change is closed in the same way. -/
theorem release_put {x y : Socket ι} (h : y.type = (t.slot i).socket.type) :
    (t.put i y).release i x = t.release i x := by
  have hpolls : (t.put i y).Polls i ↔ t.Polls i := by
    simp [Polls, put]
  simp only [release, put_slot_self, put_put, h, hpolls]
  rfl

end Slots

section OfCommand

variable {id : ℕ} {e : CommandEnd} {added : Bool}

theorem change_forceClose (h : t.forceClose i = .ok t') : Change t i t' := by
  unfold forceClose at h
  split at h
  · cases h
    exact .stay
  · cases h
  next hinvalid hreserve =>
    cases h
    exact .release ⟨hinvalid, hreserve⟩ rfl rfl rfl

theorem kept_refl (x : Socket ι) : x.Kept x :=
  ⟨.inl rfl, fun _ hq hdw => ⟨hq, hdw⟩, .inr ⟨rfl, rfl⟩⟩

/-- `send_buffer` of an open socket closes it, or stores it with the same type. -/
theorem sendBuffer_cases {locked : Bool} {rs : List WriteResult} {r : SocketResult}
    (hopen : (t.slot i).socket.IsOpen) (h : t.sendBuffer i soi locked rs = .ok (t', r)) :
    (r = .close ∧ ∃ x : Socket ι, x.type = .invalid ∧
        x.high = .empty ∧ x.low = .empty ∧ t' = t.release i x) ∨
      (r ≠ .close ∧ ∃ x : Socket ι, x.type = (t.slot i).socket.type ∧
        (t.slot i).socket.Kept x ∧ t' = t.put i x) := by
  unfold sendBuffer at h
  split_ifs at h with hlocked
  · cases h
    exact .inr ⟨by simp, (t.slot i).socket, rfl, kept_refl _, put_eq_self.symm⟩
  · split at h
    · cases h
    next f hf =>
      obtain ⟨hclosed, hkept⟩ := Socket.sendBuffer_typed hopen.1 hf
      cases h
      by_cases hres : f.result = .close
      · obtain ⟨-, hinvalid, hlists⟩ := hclosed hres
        exact .inl ⟨hres, f.socket, hinvalid, hlists.1, hlists.2, if_pos hres⟩
      · obtain ⟨htype, hempty⟩ := hkept hres
        exact .inr ⟨hres, f.socket, htype, ⟨.inl htype, fun _ => hempty, .inl hopen⟩, if_neg hres⟩

/-- How a command for an open socket ends: a slot that becomes free had the id of the command, and
`SOCKET_CLOSE` or `SOCKET_ERR` is returned. -/
structure EndsWell (t : SocketTable ι) (id : ℕ) (t' : SocketTable ι) (e : CommandEnd) : Prop where
  result : e = .closed id ∨ e = .done
  freed : (t'.slot (hashId id)).socket.type = .invalid →
    (t.slot (hashId id)).socket.type = .invalid ∨ e = .closed id ∧ t.Named id

theorem endsWell_stay (h : e = .closed id ∨ e = .done) :
    EndsWell t id t e := ⟨h, .inl⟩

theorem endsWell_closed (h : t.Named id) : EndsWell t id t' (.closed id) :=
  ⟨.inl rfl, fun _ => .inr ⟨rfl, h⟩⟩

theorem change_closeDecide {shutdown : Bool} {y : Socket ι} (hnamed : t.Named id)
    (hopen : (t.slot (hashId id)).socket.IsOpen) (hquiet : t.Quiet (hashId id))
    (hy : y.type = (t.slot (hashId id)).socket.type) (hkept : (t.slot (hashId id)).socket.Kept y)
    (h : (t.put (hashId id) y).closeDecide id shutdown = .ok (t', e)) :
    Change t (hashId id) t' ∧ EndsWell t id t' e := by
  unfold closeDecide at h
  split_ifs at h with hdecide
  · obtain ⟨u, hu, heq⟩ := map_eq_ok_iff.mp h
    cases heq
    refine ⟨?_, endsWell_closed hnamed⟩
    unfold forceClose at hu
    rw [put_slot_self] at hu
    split at hu
    · exact absurd (hy ▸ ‹_›) hopen.1
    · exact absurd (hy ▸ ‹_›) hopen.2
    · cases hu
      rw [release_put hy]
      exact .release hopen rfl rfl rfl
  · cases h
    rw [not_or] at hdecide
    have hqueued : y.queued ≠ [] := fun hnil => hdecide.2 (by
      rw [put_slot_self]
      exact Socket.sendBufferEmpty_iff.mpr (append_eq_nil_iff.mp hnil))
    have hregistered : (t.slot (hashId id)).socket.type.Registered := by
      rw [hopen.registered_iff]
      intro hunstarted
      obtain ⟨hq, hdw⟩ := hquiet hunstarted
      exact hqueued (hkept.unstarted hunstarted hq hdw).1
    rw [setType, put_slot_self, put_put]
    refine ⟨.put ⟨.inr (.inr ⟨hregistered, rfl⟩), fun hunstarted => ?_, .inl hopen⟩, .inr rfl, ?_⟩
    · exact absurd hunstarted (hopen.registered_iff.mp hregistered)
    · rw [put_slot_self]
      intro hinvalid
      cases hinvalid

theorem change_closeSocket {shutdown : Bool} {o : CommandOutcome}
    (hopen : t.Named id → (t.slot (hashId id)).socket.IsOpen) (hquiet : t.Quiet (hashId id))
    (h : t.closeSocket soi id shutdown o = .ok (t', e)) :
    Change t (hashId id) t' ∧ EndsWell t id t' e := by
  unfold closeSocket at h
  split_ifs at h with hnamed hempty
  · rw [← put_eq_self (t := t) (i := hashId id)] at h
    exact change_closeDecide hnamed (hopen hnamed) hquiet rfl (kept_refl _) h
  · split at h
    · cases h
    next u hu =>
      cases h
      rcases sendBuffer_cases (hopen hnamed) hu with ⟨-, x, hinvalid, hhigh, hlow, rfl⟩ | ⟨hne, -⟩
      · exact ⟨.release (hopen hnamed) hinvalid hhigh hlow, endsWell_closed hnamed⟩
      · exact absurd rfl hne
    next u r hr hu =>
      rcases sendBuffer_cases (hopen hnamed) hu with ⟨hclose, -⟩ | ⟨-, y, hy, hkept, rfl⟩
      · exact absurd hclose hr
      · exact change_closeDecide hnamed (hopen hnamed) hquiet hy hkept h
  · cases h
    exact ⟨.stay, endsWell_stay (.inl rfl)⟩

theorem spAdd_eq_some {fd : Option Fd} (h : t.spAdd i fd added = some t') :
    ∃ x, fd = some x ∧ t.poll x = none ∧ t' = t.register i x := by
  unfold spAdd at h
  split at h
  · cases h
  next x =>
    split_ifs at h with hadd
    cases h
    exact ⟨x, rfl, hadd.2, rfl⟩

/-- What `start_socket` does. -/
inductive Starts (t : SocketTable ι) (id : ℕ) : SocketTable ι → CommandEnd → Prop
  | stay {e : CommandEnd} : e = .closed id ∨ e = .done → Starts t id t e
  /-- `sp_add` fails. -/
  | failed {t' : SocketTable ι} :
      t.Named id → t.forceClose (hashId id) = .ok t' → Starts t id t' (.closed id)
  | started {fd : Fd} {type : SocketType} :
      (t.slot (hashId id)).socket.type.Unstarted → type = .connected ∨ type = .listen →
      (t.slot (hashId id)).fd = some fd → t.poll fd = none →
      Starts t id ((t.register (hashId id) fd).setType (hashId id) type) .done

theorem starts_startSocket (h : t.startSocket id added = .ok (t', e)) : Starts t id t' e := by
  unfold startSocket at h
  dsimp only at h
  by_cases hnamed : t.Named id
  · rw [if_neg (not_not_intro hnamed)] at h
    by_cases htype : (t.slot (hashId id)).socket.type = .paccept ∨
        (t.slot (hashId id)).socket.type = .plisten
    · rw [if_pos htype] at h
      split at h
      · obtain ⟨u, hu, heq⟩ := map_eq_ok_iff.mp h
        cases heq
        exact .failed hnamed hu
      next u hu =>
        obtain ⟨fd, hfd, hpoll, rfl⟩ := spAdd_eq_some hu
        cases h
        refine .started htype ?_ hfd hpoll
        split_ifs
        · exact .inl rfl
        · exact .inr rfl
    · rw [if_neg htype] at h
      cases h
      exact .stay (.inr rfl)
  · rw [if_pos hnamed] at h
    cases h
    exact .stay (.inl rfl)

theorem change_startSocket (h : t.startSocket id added = .ok (t', e)) :
    Change t (hashId id) t' ∧ EndsWell t id t' e := by
  cases starts_startSocket h with
  | stay he => exact ⟨.stay, endsWell_stay he⟩
  | failed hnamed hclose => exact ⟨change_forceClose hclose, endsWell_closed hnamed⟩
  | started hunstarted htype hfd hpoll =>
    refine ⟨.start hunstarted htype hfd hpoll, .inr rfl, fun hinvalid => ?_⟩
    rw [setType, put_slot_self] at hinvalid
    rcases htype with rfl | rfl <;> cases hinvalid

theorem endsWell_put {x : Socket ι} (h : (t.slot (hashId id)).socket.Kept x) :
    EndsWell t id (t.put (hashId id) x) .done := by
  refine ⟨.inr rfl, fun hinvalid => .inl ?_⟩
  rw [put_slot_self] at hinvalid
  dsimp only at hinvalid
  rcases h.type with h | ⟨-, h⟩ | ⟨-, h⟩
  · rw [← h, hinvalid]
  · cases h.symm.trans hinvalid
  · cases h.symm.trans hinvalid

theorem change_setUdpAddress {a : UdpAddress} (h : t.setUdpAddress id a = (t', e)) :
    Change t (hashId id) t' ∧ EndsWell t id t' e := by
  unfold setUdpAddress at h
  dsimp only at h
  split_ifs at h with hnamed hprotocol
  · cases h
    exact ⟨.stay, endsWell_stay (.inl rfl)⟩
  · cases h
    have hkept : (t.slot (hashId id)).socket.Kept { (t.slot (hashId id)).socket with
        udpAddress := a
        udpconnecting := ((t.slot (hashId id)).socket.udpconnecting + 65535) % 65536 } :=
      ⟨.inl rfl, fun _ hq hdw => ⟨hq, hdw⟩, .inr ⟨rfl, rfl⟩⟩
    exact ⟨.put hkept, endsWell_put hkept⟩
  · cases h
    exact ⟨.stay, endsWell_stay (.inr rfl)⟩

variable [DecidableEq ι]

theorem change_sendSocket {id : ℕ} {p : Packet ι} {priority : Priority}
    {address : Option UdpAddress} {rs : List WriteResult} {e : CommandEnd}
    (hopen : t.Named id → (t.slot (hashId id)).socket.IsOpen)
    (h : t.sendSocket soi id p priority address rs = .ok (t', e)) :
    Change t (hashId id) t' ∧ EndsWell t id t' e := by
  unfold sendSocket at h
  split_ifs at h with hnamed
  · split at h
    · cases h
    next x hx =>
      cases h
      have hkept := Socket.kept_sendSocket (hopen hnamed) hx
      exact ⟨.put hkept, endsWell_put hkept⟩
  · cases h
    exact ⟨.stay, endsWell_stay (.inr rfl)⟩

/-- A command for a socket changes its slot only. -/
theorem change_ctrlCmd {r : Request ι} {o : CommandOutcome} {e : CommandEnd}
    (hr : r.opens? = none) (hopen : t.Named r.id → (t.slot (hashId r.id)).socket.IsOpen)
    (hquiet : t.Quiet (hashId r.id)) (h : t.ctrlCmd soi o r = .ok (t', e)) :
    Change t (hashId r.id) t' ∧ EndsWell t r.id t' e := by
  cases r with
  | «open» id | listen id fd | bind id fd | udp id fd v6 => cases hr
  | close id shutdown => exact change_closeSocket hopen hquiet h
  | start id => exact change_startSocket h
  | send id p priority address => exact change_sendSocket hopen h
  | setUdp id a => exact change_setUdpAddress (Except.ok.inj h)
  | setopt id =>
    cases h
    exact ⟨.stay, endsWell_stay (.inr rfl)⟩

end OfCommand

section OfOpening

variable {id : ℕ} {e : CommandEnd}

theorem spend_spend (t : SocketTable ι) (j k m : ℕ) :
    (t.spend j (t.freshFds j)).spend k ((t.spend j (t.freshFds j)).freshFds m) =
      t.spend (j + k) (t.freshFds (j + m)) := by
  simp [spend, freshFds, ← map_append, range'_append_1, Nat.add_assoc]

/-- The loop of `open_socket` closes all descriptors that it opens, except the one it returns. -/
theorem tryConnect_cases (rs : List ConnectResult) (t : SocketTable ι) :
    ∃ k, tryConnect rs t = (t.spend k (t.freshFds k), none) ∨ ∃ connected, tryConnect rs t =
        (t.spend (k + 1) (t.freshFds k), some (.server (t.nextFd + k), connected)) := by
  induction rs generalizing t with
  | nil => exact ⟨0, .inl (by simp [tryConnect, spend, freshFds])⟩
  | cons r rs ih =>
    cases r with
    | noSocket => exact ih t
    | refused =>
      have hfirst : t.openFd.closeFd (.server t.nextFd) = t.spend 1 (t.freshFds 1) := rfl
      rw [tryConnect, hfirst]
      obtain ⟨k, hnone | ⟨connected, hsome⟩⟩ := ih (t.spend 1 (t.freshFds 1))
      · refine ⟨1 + k, .inl ?_⟩
        rw [hnone, spend_spend]
      · refine ⟨1 + k, .inr ⟨connected, ?_⟩⟩
        rw [hsome, spend_spend, ← Nat.add_assoc, ← Nat.add_assoc]
        rfl
    | inProgress =>
      exact ⟨0, .inr ⟨false, by simp [tryConnect, spend, freshFds, openFd]⟩⟩
    | connected =>
      exact ⟨0, .inr ⟨true, by simp [tryConnect, spend, freshFds, openFd]⟩⟩

theorem added_of_newFd {fd : Fd} {add added : Bool}
    (h : (if add then t.spAdd i (some fd) added else some t) = some t') :
    (add = true → t.poll fd = none) ∧ t' = if add then t.register i fd else t := by
  cases add with
  | false =>
    cases h
    exact ⟨fun h => (by cases h), rfl⟩
  | true =>
    rw [if_pos rfl] at h
    obtain ⟨x, hx, hpoll, rfl⟩ := spAdd_eq_some h
    cases hx
    exact ⟨fun _ => hpoll, rfl⟩

theorem newFd_cases {fd : Fd} {protocol : Protocol} {add added b : Bool}
    (h : t.newFd id fd protocol add added = .ok (t', b)) :
    (b = false ∧ add = true ∧ t' = t.freed id) ∨
      (b = true ∧ ∃ x : Socket ι, x.type = .reserve ∧ x.queued = [] ∧ x.dw = none ∧
        (add = true → t.poll fd = none) ∧
        t' = (if add then t.register (hashId id) fd else t).install (hashId id) id fd x) := by
  unfold newFd at h
  by_cases htype : (t.slot (hashId id)).socket.type = .reserve
  · rw [if_neg (not_not_intro htype)] at h
    split at h
    next hnone =>
      cases h
      refine .inl ⟨rfl, ?_, rfl⟩
      by_contra hadd
      rw [if_neg hadd] at hnone
      cases hnone
    next u hu =>
      split_ifs at h with hlists
      cases h
      obtain ⟨hadd, rfl⟩ := added_of_newFd hu
      have hqueued : (t.slot (hashId id)).socket.queued = [] := by
        simp only [checkWbList, Bool.and_eq_true, List.isEmpty_iff] at hlists
        exact append_eq_nil_iff.mpr ⟨hlists.1.1, hlists.2.1⟩
      refine .inr ⟨rfl, _, ?_, ?_, ?_, hadd, rfl⟩
      · exact htype
      · exact hqueued
      · rfl
  · rw [if_pos htype] at h
    cases h

theorem exists_newFd (fd : Fd) (protocol : Protocol) (add added : Bool)
    (htype : (t.slot (hashId id)).socket.type = .reserve)
    (hhigh : (t.slot (hashId id)).socket.high = .empty)
    (hlow : (t.slot (hashId id)).socket.low = .empty) :
    ∃ x, t.newFd id fd protocol add added = .ok x := by
  unfold newFd
  rw [if_neg (not_not_intro htype)]
  split
  · exact ⟨_, rfl⟩
  · rw [hhigh, hlow, if_pos ⟨rfl, rfl⟩]
    exact ⟨_, rfl⟩

theorem install_put (t : SocketTable ι) (i : Fin maxSocket) (id : ℕ) (fd : Fd) (x y : Socket ι) :
    (t.install i id fd x).put i y = t.install i id fd y := by
  simp [install, put]

theorem install_slot_self (t : SocketTable ι) (i : Fin maxSocket) (id : ℕ) (fd : Fd)
    (x : Socket ι) : (t.install i id fd x).slot i = ⟨x, id, some fd⟩ := update_self ..

theorem opened_openSocket {rs : List ConnectResult} {added : Bool}
    (h : t.openSocket id rs added = .ok (t', e)) : Opened t (.open id) t' e := by
  unfold openSocket at h
  obtain ⟨k, hnone | ⟨connected, hsome⟩⟩ := tryConnect_cases rs t
  · rw [hnone] at h
    cases h
    exact .openFailed (.inl rfl)
  · rw [hsome] at h
    obtain ⟨⟨u, b⟩, hu, heq⟩ := map_eq_ok_iff.mp h
    rcases newFd_cases hu with ⟨rfl, -, rfl⟩ | ⟨rfl, x, -, -, -, hpoll, rfl⟩
    · cases heq
      have hspend : ((t.spend (k + 1) (t.freshFds k)).freed id).closeFd (.server (t.nextFd + k)) =
          (t.spend (k + 1) (t.freshFds (k + 1))).freed id := by
        simp [freed, setType, put, closeFd, spend, freshFds, range'_1_concat]
      rw [hspend]
      exact .openFailed (.inr rfl)
    · dsimp only at heq
      rw [if_pos rfl, if_pos rfl, install_put, install_slot_self] at heq
      cases heq
      exact .opened (by dsimp only; split_ifs <;> simp) (hpoll rfl)

theorem opened_listenSocket {id fd : ℕ} (h : t.listenSocket id (.server fd) = .ok (t', e)) :
    Opened t (.listen id fd) t' e := by
  obtain ⟨⟨u, b⟩, hu, heq⟩ := map_eq_ok_iff.mp h
  rcases newFd_cases hu with ⟨-, hadd, -⟩ | ⟨rfl, x, -, hqueued, hdw, -, rfl⟩
  · cases hadd
  · rw [setType, if_neg Bool.false_ne_true, install_put, install_slot_self] at heq
    cases heq
    exact .listened rfl hqueued hdw

theorem opened_bindSocket {id fd : ℕ} {added : Bool}
    (h : t.bindSocket id (.caller fd) added = .ok (t', e)) : Opened t (.bind id fd) t' e := by
  obtain ⟨⟨u, b⟩, hu, heq⟩ := map_eq_ok_iff.mp h
  rcases newFd_cases hu with ⟨rfl, -, rfl⟩ | ⟨rfl, x, -, -, -, hpoll, rfl⟩
  · cases heq
    exact .bindFailed
  · rw [if_pos rfl, if_pos rfl, setType, install_put, install_slot_self] at heq
    cases heq
    exact .bound rfl (hpoll rfl)

theorem opened_addUdpSocket {id fd : ℕ} {v6 added : Bool}
    (h : t.addUdpSocket id (.server fd) v6 added = .ok (t', e)) :
    Opened t (.udp id fd v6) t' e := by
  obtain ⟨⟨u, b⟩, hu, heq⟩ := map_eq_ok_iff.mp h
  rcases newFd_cases hu with ⟨rfl, -, rfl⟩ | ⟨rfl, x, -, -, -, hpoll, rfl⟩
  · cases heq
    exact .udpFailed
  · rw [if_pos rfl, if_pos rfl, install_put, install_slot_self] at heq
    cases heq
    exact .udpOpened rfl (hpoll rfl)

/-- What a command opens and closes. -/
theorem opened_ctrlCmd [DecidableEq ι] {r : Request ι} {o : CommandOutcome} (hr : r.opens? ≠ none)
    (h : t.ctrlCmd soi o r = .ok (t', e)) : Opened t r t' e := by
  cases r with
  | «open» id => exact opened_openSocket h
  | listen id fd => exact opened_listenSocket h
  | bind id fd => exact opened_bindSocket h
  | udp id fd v6 => exact opened_addUdpSocket h
  | close id shutdown | start id | send id p priority address | setUdp id a | setopt id =>
    exact absurd rfl hr

end OfOpening

section OfEvent

theorem tryReserve_invalid (n allocId : ℕ) {a id : ℕ} (h : t.tryReserve n allocId = (a, some id)) :
    (t.slot (hashId id)).socket.type = .invalid := by
  induction n generalizing allocId with
  | zero => cases h
  | succ n ih =>
    unfold tryReserve at h
    split_ifs at h with hfree
    · cases h
      exact hfree
    · exact ih _ h

/-- The slot that `reserve_id` returns with its id. -/
def reserved (t : SocketTable ι) (allocId id : ℕ) : SocketTable ι :=
  (setType { t with allocId := allocId } (hashId id) .reserve).nameSlot id

theorem reserveId_cases (t : SocketTable ι) : (∃ a, t.reserveId = ({ t with allocId := a }, none)) ∨
      ∃ a id, (t.slot (hashId id)).socket.type = .invalid ∧
        t.reserveId = (t.reserved a id, some id) := by
  unfold reserveId
  rcases h : t.tryReserve maxSocket t.allocId with ⟨a, id⟩
  cases id with
  | none => exact .inl ⟨a, rfl⟩
  | some id => exact .inr ⟨a, id, tryReserve_invalid _ _ h, rfl⟩

theorem accepted_reportAccept (htype : (t.slot i).socket.type = .listen)
    {o : EventOutcome} (h : t.reportAccept o.accepted = .ok t') :
    Accepted t (t.acceptedId i o) t' := by
  unfold reportAccept at h
  unfold acceptedId
  by_cases hacc : o.accepted = true
  · rw [if_pos hacc] at h
    rw [if_pos ⟨htype, hacc⟩]
    rcases reserveId_cases t.openFd with ⟨a, hnone⟩ | ⟨a, id, hfree, hsome⟩
    · rw [hnone] at h ⊢
      cases h
      exact .refused
    · rw [hsome] at h ⊢
      obtain ⟨⟨u, b⟩, hu, rfl⟩ := map_eq_ok_iff.mp h
      rcases newFd_cases hu with ⟨-, hadd, -⟩ | ⟨rfl, x, -, hqueued, hdw, -, rfl⟩
      · cases hadd
      · rw [if_neg Bool.false_ne_true, setType, install_put, install_slot_self]
        have heq : ∀ y : Socket ι,
            (t.openFd.reserved a id).install (hashId id) id (.server t.nextFd) y =
              install { t.spend 1 [] with allocId := a } (hashId id) id (.server t.nextFd) y := by
          intro y
          simp [install, reserved, nameSlot, setType, put, openFd, spend]
        rw [heq]
        exact .accepted hfree rfl hqueued hdw
  · rw [if_neg hacc] at h
    rw [if_neg fun h => hacc h.2]
    cases h
    exact .stay

/-- An event is one of the changes of a socket. -/
theorem change_handleEvent {o : EventOutcome} (hopen : (t.slot i).socket.IsOpen)
    (hlisten : (t.slot i).socket.type ≠ .listen) (h : t.handleEvent i soi o = .ok t') :
    Change t i t' := by
  unfold handleEvent at h
  split at h
  next hconnecting =>
    unfold reportConnect at h
    split at h
    · cases h
      refine .put ⟨.inr (.inl ⟨hconnecting, rfl⟩), fun hunstarted => ?_, .inl hopen⟩
      rcases hunstarted with h | h <;> cases hconnecting.symm.trans h
    · exact change_forceClose h
  next htype => exact absurd htype hlisten
  next htype => exact absurd htype hopen.1
  next =>
    split at h
    · split_ifs at h
      · exact change_forceClose h
      · cases h
        exact .stay
    · cases h
      exact .stay
    · obtain ⟨⟨u, r⟩, hu, rfl⟩ := map_eq_ok_iff.mp h
      rcases sendBuffer_cases hopen hu with
        ⟨-, x, hinvalid, hhigh, hlow, rfl⟩ | ⟨-, y, -, hkept, rfl⟩
      · exact .release hopen hinvalid hhigh hlow
      · exact .put hkept
    · exact change_forceClose h

/-- An event that is dispatched once more has changed nothing. -/
theorem handleEvent_readAgain {o : EventOutcome} (htransfers : t.Transfers i)
    (hagain : o.io = .readAgain) (h : t.handleEvent i soi o = .ok t') : t' = t := by
  unfold handleEvent at h
  rw [hagain] at h
  split at h
  next hconnecting => exact absurd hconnecting htransfers.1
  next hlisten => exact absurd hlisten htransfers.2.1
  all_goals exact (Except.ok.inj h).symm

/-- Only an event of a listening socket opens a descriptor. -/
theorem accepted_handleEvent {o : EventOutcome} (htype : (t.slot i).socket.type = .listen)
    (h : t.handleEvent i soi o = .ok t') : Accepted t (t.acceptedId i o) t' := by
  unfold handleEvent at h
  rw [htype] at h
  exact accepted_reportAccept htype h

end OfEvent

end SocketTable

/-! ## The assertions about reserved slots -/

/-- The assertions of `force_close` and `new_fd`. -/
def TableFault.OfReserve (e : TableFault) : Prop :=
  e = .socket .reserved ∨ e = .notReserved ∨ e = .wbList

instance : DecidablePred TableFault.OfReserve := fun _ => inferInstanceAs (Decidable (_ ∨ _))

namespace Socket

variable {ι : Type} {soi : SocketObjectInterface} {s : Socket ι} {rs : List WriteResult}

section

variable (h : s.type ≠ .reserve)
include h

theorem forceClose_ne_error (e : SocketFault) : s.forceClose ≠ .error e := by
  unfold forceClose
  split <;> simp_all

theorem sendBufferDone_ne_reserved : s.sendBufferDone ≠ .error .reserved := by
  unfold sendBufferDone
  split_ifs with hempty hhalf hwarn
  · rw [Ne, map_eq_error_iff]
    exact forceClose_ne_error (s := { s with wantWrite := false }) h .reserved
  all_goals simp

theorem sendBufferLow_ne_reserved : s.sendBufferLow rs ≠ .error .reserved := by
  unfold sendBufferLow lowSent
  split_ifs with hnil hfailed hunc
  all_goals rw [Ne, map_eq_error_iff]
  · exact sendBufferDone_ne_reserved h
  · exact forceClose_ne_error (s := s.putLow _) h .reserved
  · unfold raiseUncomplete
    split
    · simp
    · split_ifs <;> simp
  · exact sendBufferDone_ne_reserved (s := s.putLow _) h

theorem sendBuffer_ne_reserved : s.sendBuffer soi rs ≠ .error .reserved := by
  have htype : (s.mergeDw soi).type = s.type := by
    unfold mergeDw
    split <;> rfl
  rw [← htype] at h
  unfold sendBuffer sendBuffer_ highSent
  split_ifs with hunc hfailed hnil
  · simp
  · rw [Ne, map_eq_error_iff]
    exact forceClose_ne_error (s := putHigh _ _) h .reserved
  · rw [Ne, map_eq_error_iff]
    exact sendBufferLow_ne_reserved (s := putHigh _ _) h
  · simp

end

variable [DecidableEq ι] {p : Packet ι} {priority : Priority} {address : Option UdpAddress}

theorem appendSendbuffer_ne_reserved {idle : Bool} {sent : List (Datagram ι)} :
    s.appendSendbuffer soi p priority address idle sent ≠ .error .reserved := by
  have happend : ∀ (l : WbList ι) (wb : WriteBuffer ι), l.append wb ≠ .error .reserved := by
    intro l wb
    unfold WbList.append
    split_ifs <;> simp
  unfold appendSendbuffer link
  cases priority with
  | high | low =>
    rw [Ne, map_eq_error_iff, map_eq_error_iff]
    exact happend _ _

theorem sendSocket_ne_reserved {r : WriteResult} :
    s.sendSocket soi p priority address r ≠ .error .reserved := by
  unfold sendSocket
  split_ifs with hclosed hlisten hidle htcp htcp
  · simp
  · simp
  · exact appendSendbuffer_ne_reserved
  · cases r with
    | wrote n =>
      dsimp only
      split_ifs
      · simp
      · exact appendSendbuffer_ne_reserved
    | eintr | again | error => exact appendSendbuffer_ne_reserved
  · exact appendSendbuffer_ne_reserved
  · exact appendSendbuffer_ne_reserved

end Socket

namespace SocketTable

variable {ι : Type} {soi : SocketObjectInterface} {t : SocketTable ι} {i : Fin maxSocket}
  {e : TableFault}

theorem forceClose_ne_error (h : (t.slot i).socket.type ≠ .reserve) (e : TableFault) :
    t.forceClose i ≠ .error e := by
  unfold forceClose
  split <;> simp_all

theorem sendBuffer_error (h : (t.slot i).socket.type ≠ .reserve) {locked : Bool}
    {rs : List WriteResult} (herr : t.sendBuffer i soi locked rs = .error e) :
    ¬ e.OfReserve := by
  unfold sendBuffer at herr
  split_ifs at herr
  split at herr
  next e' he' =>
    cases herr
    have hne : e' ≠ .reserved := fun heq => Socket.sendBuffer_ne_reserved h (heq ▸ he')
    simp [TableFault.OfReserve, hne]
  · cases herr

theorem closeDecide_ne_error {id : ℕ} {shutdown : Bool}
    (h : (t.slot (hashId id)).socket.type ≠ .reserve) (e : TableFault) :
    t.closeDecide id shutdown ≠ .error e := by
  unfold closeDecide
  split_ifs
  · rw [Ne, map_eq_error_iff]
    exact forceClose_ne_error h e
  · simp

section

variable {id : ℕ} (hopen : t.Named id → (t.slot (hashId id)).socket.IsOpen)
include hopen

theorem closeSocket_error {shutdown : Bool} {o : CommandOutcome}
    (herr : t.closeSocket soi id shutdown o = .error e) : ¬ e.OfReserve := by
  unfold closeSocket at herr
  split_ifs at herr with hnamed hempty
  · exact absurd herr (closeDecide_ne_error (hopen hnamed).2 e)
  · split at herr
    next e' he' =>
      cases herr
      exact sendBuffer_error (hopen hnamed).2 he'
    · cases herr
    next u r hr hu =>
      -- a socket that is not closed by the flush keeps its type
      rcases sendBuffer_cases (hopen hnamed) hu with ⟨hclose, -⟩ | ⟨-, y, hy, -, rfl⟩
      · exact absurd hclose hr
      · have htype : ((t.put (hashId id) y).slot (hashId id)).socket.type ≠ .reserve := by
          rw [put_slot_self]
          exact hy ▸ (hopen hnamed).2
        exact absurd herr (closeDecide_ne_error htype e)

theorem startSocket_error {added : Bool} (e : TableFault) : t.startSocket id added ≠ .error e := by
  unfold startSocket
  dsimp only
  by_cases hnamed : t.Named id
  · rw [if_neg (not_not_intro hnamed)]
    split
    · split
      · rw [Ne, map_eq_error_iff]
        exact forceClose_ne_error (hopen hnamed).2 e
      · simp
    · simp
  · rw [if_pos hnamed]
    simp

end

section Commands

variable [DecidableEq ι] {r : Request ι} {o : CommandOutcome}

theorem sendSocket_error {id : ℕ} {p : Packet ι} {priority : Priority}
    {address : Option UdpAddress} {rs : List WriteResult}
    (herr : t.sendSocket soi id p priority address rs = .error e) : ¬ e.OfReserve := by
  unfold sendSocket at herr
  split_ifs at herr
  split at herr
  next e' he' =>
    cases herr
    have hne : e' ≠ .reserved := fun heq => Socket.sendSocket_ne_reserved (heq ▸ he')
    simp [TableFault.OfReserve, hne]
  · cases herr

/-- The assertions do not fail in a command for an open socket. -/
theorem ctrlCmd_error (hr : r.opens? = none)
    (hopen : t.Named r.id → (t.slot (hashId r.id)).socket.IsOpen)
    (herr : t.ctrlCmd soi o r = .error e) : ¬ e.OfReserve := by
  cases r with
  | «open» id | listen id fd | bind id fd | udp id fd v6 => cases hr
  | close id shutdown => exact closeSocket_error hopen herr
  | start id => exact absurd herr (startSocket_error hopen e)
  | send id p priority address => exact sendSocket_error herr
  | setUdp id a | setopt id => cases herr

/-- They do not fail in a command for a slot that is reserved with empty lists. -/
theorem exists_ctrlCmd (hr : r.opens? ≠ none)
    (htype : (t.slot (hashId r.id)).socket.type = .reserve)
    (hhigh : (t.slot (hashId r.id)).socket.high = .empty)
    (hlow : (t.slot (hashId r.id)).socket.low = .empty) : ∃ x, t.ctrlCmd soi o r = .ok x := by
  cases r with
  | «open» id =>
    unfold ctrlCmd openSocket
    obtain ⟨k, hnone | ⟨connected, hsome⟩⟩ := tryConnect_cases o.connects t
    · rw [hnone]
      exact ⟨_, rfl⟩
    · rw [hsome]
      exact exists_map_eq_ok (exists_newFd (t := t.spend _ _) _ _ _ _ htype hhigh hlow)
  | listen id fd | bind id fd | udp id fd v6 =>
    exact exists_map_eq_ok (exists_newFd _ _ _ _ htype hhigh hlow)
  | close id shutdown | start id | send id p priority address | setUdp id a | setopt id =>
    exact absurd rfl hr

end Commands

theorem reportAccept_ne_error {accepted : Bool} (hfree : ∀ j, (t.slot j).socket.type = .invalid →
      (t.slot j).socket.high = .empty ∧ (t.slot j).socket.low = .empty) (e : TableFault) :
    t.reportAccept accepted ≠ .error e := by
  unfold reportAccept
  split_ifs
  · rcases reserveId_cases t.openFd with ⟨a, hnone⟩ | ⟨a, id, hinvalid, hsome⟩
    · rw [hnone]
      simp
    · obtain ⟨hhigh, hlow⟩ := hfree _ hinvalid
      have hslot : ((t.openFd.reserved a id).slot (hashId id)).socket =
          { (t.slot (hashId id)).socket with type := .reserve, udpconnecting := 0 } := by
        simp [reserved, nameSlot, setType, put, openFd]
      obtain ⟨x, hx⟩ := exists_newFd (t := t.openFd.reserved a id) (.server t.nextFd) .tcp false
        true (by rw [hslot]) (by rw [hslot, hhigh]) (by rw [hslot, hlow])
      rw [hsome]
      dsimp only
      rw [hx]
      simp [Except.map]
  · simp

theorem handleEvent_error {o : EventOutcome} (hopen : (t.slot i).socket.IsOpen)
    (hfree : ∀ j, (t.slot j).socket.type = .invalid →
      (t.slot j).socket.high = .empty ∧ (t.slot j).socket.low = .empty)
    (herr : t.handleEvent i soi o = .error e) : ¬ e.OfReserve := by
  unfold handleEvent at herr
  split at herr
  · unfold reportConnect at herr
    split at herr
    · cases herr
    · exact absurd herr (forceClose_ne_error hopen.2 e)
  · exact absurd herr (reportAccept_ne_error hfree e)
  · cases herr
  · split at herr
    · split_ifs at herr
      exact absurd herr (forceClose_ne_error hopen.2 e)
    · cases herr
    · rw [map_eq_error_iff] at herr
      exact sendBuffer_error hopen.2 herr
    · exact absurd herr (forceClose_ne_error hopen.2 e)

end SocketTable

end Uboss.Core
