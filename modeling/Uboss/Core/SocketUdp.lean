import Uboss.Core.SocketStep
import Uboss.Math.History

/-!
# UDP sockets

A datagram is sent by the worker in its call, by the socket thread when it executes the command,
or by a later flush. `socket_server_udp_send` names the address; for `socket_server_send` it is
the address the socket is connected to, which is stored in the write buffer when the command is
executed. A direct `sendto` that fails leaves the packet in `dw_buffer`, and for that
`send_buffer` makes a write buffer without room for an address.

The calls, the connected addresses and the datagrams of a run are kept as a list of events. Of
`sendto` the proofs use that it sends a datagram as a whole or fails, and that it fails without
an address.
-/

namespace Uboss.Core

open Math List SocketServer Socket

/-! ## One flush -/

section Flush

variable {ι : Type}

/-- The results are possible for calls of `sendto` with the buffers: each sends the whole buffer
or fails, and it fails without an address. -/
def SendtoResults (protocol : Protocol) : List (WriteBuffer ι) → List WriteResult → Prop
  | wb :: l, .wrote n :: rs =>
    wb.sz ≤ n ∧ (∀ a ∈ wb.udpAddress, a.type = protocol) ∧ SendtoResults protocol l rs
  | _, _ => True

instance decidableSendtoResults (protocol : Protocol) : (l : List (WriteBuffer ι)) →
    (rs : List WriteResult) → Decidable (SendtoResults protocol l rs)
  | wb :: l, .wrote n :: rs =>
    haveI := decidableSendtoResults protocol l rs
    inferInstanceAs (Decidable (wb.sz ≤ n ∧ (∀ a ∈ wb.udpAddress, a.type = protocol) ∧
      SendtoResults protocol l rs))
  | [], _ | _ :: _, [] | _ :: _, .eintr :: _ | _ :: _, .again :: _ | _ :: _, .error :: _ =>
    isTrue trivial

/-- The datagram is one of the buffers, sent to the address in it. -/
def Transmitted (l : List (WriteBuffer ι)) (d : Datagram ι) : Prop :=
  ∃ wb ∈ l, d.payload = wb.rest ∧ ∀ a, wb.udpAddress = some a → d.address = some a

theorem Transmitted.mono {l m : List (WriteBuffer ι)} {d : Datagram ι} (h : Transmitted l d)
    (hsub : l ⊆ m) : Transmitted m d := by
  obtain ⟨wb, hwb, hd⟩ := h
  exact ⟨wb, hsub hwb, hd⟩

theorem sendListUdp_suffix (protocol : Protocol) (tail : Option ι) (l : List (WriteBuffer ι))
    (wbSize : ℤ) (rs : List WriteResult) :
    (sendListUdp protocol tail l wbSize rs).list.chain <:+ l := by
  fun_induction sendListUdp protocol tail l wbSize rs with
  | case1 => exact suffix_rfl
  | case2 wb l wbSize n rs r ih => exact List.IsSuffix.trans ih (suffix_cons wb l)
  | case3 => exact suffix_rfl

/-- What `send_list_udp` sends, and the results it leaves for the next list. -/
theorem sendListUdp_transmitted (protocol : Protocol) (tail : Option ι)
    (l m : List (WriteBuffer ι)) (wbSize : ℤ) (rs : List WriteResult)
    (h : SendtoResults protocol (l ++ m) rs) :
    (∀ d ∈ (sendListUdp protocol tail l wbSize rs).datagrams, Transmitted l d) ∧
      ((sendListUdp protocol tail l wbSize rs).list.chain = [] →
        SendtoResults protocol m (sendListUdp protocol tail l wbSize rs).results) := by
  fun_induction sendListUdp protocol tail l wbSize rs with
  | case1 => exact ⟨by simp, fun _ => h⟩
  | case2 wb l wbSize n rs r ih =>
    obtain ⟨hsz, htype, hrest⟩ := h
    obtain ⟨hsent, hleft⟩ := ih hrest
    refine ⟨fun d hd => ?_, hleft⟩
    rcases mem_cons.mp hd with rfl | hd
    · refine ⟨wb, mem_cons_self, ?_, fun a ha => ?_⟩
      · exact take_of_length_le (by simpa [WriteBuffer.rest] using hsz)
      · simp [ha, udpSocketAddress, htype a ha]
    · exact (hsent d hd).mono (subset_cons_self wb l)
  | case3 => exact ⟨by simp, by simp⟩

namespace Socket

variable {s : Socket ι} {f : Flush ι} {r : SendList ι} {rs : List WriteResult}

/-- Steps 3 and 4 move nothing into the lists, and send nothing more. -/
theorem lowSent_udp (hhigh : s.high.chain = []) (hsub : r.list.chain ⊆ s.low.chain)
    (hfailed : r.failed = false) (h : s.lowSent r = .ok f) :
    f.socket.queued ⊆ s.queued ∧ f.datagrams = r.datagrams := by
  unfold lowSent at h
  split_ifs at h with hfail hunc
  · simp [hfailed] at hfail
  · obtain ⟨wb, hwb, -⟩ := WbList.uncomplete_eq_true_iff.mp hunc
    obtain ⟨l, hl⟩ := head?_eq_some_iff.mp hwb
    rw [raiseUncomplete_eq (s := s.putLow r) hhigh hl] at h
    cases h
    refine ⟨?_, rfl⟩
    change [wb] ++ l ⊆ s.high.chain ++ s.low.chain
    rw [hhigh, singleton_append, ← hl]
    exact hsub
  · obtain ⟨x, hx, rfl⟩ := map_eq_ok_iff.mp h
    rw [(queued_of_sendBufferDone hx).2]
    exact ⟨nil_subset _, rfl⟩

/-- A flush of a UDP socket takes buffers out of the lists and sends them as they are. -/
theorem sendBuffer_udp (hudp : s.protocol ≠ .tcp) (h : s.sendBuffer_ rs = .ok f) :
    f.socket.queued ⊆ s.queued ∧
      (SendtoResults s.protocol s.queued rs → ∀ d ∈ f.datagrams, Transmitted s.queued d) := by
  unfold sendBuffer_ at h
  split_ifs at h with hunc
  rw [sendList, if_neg hudp] at h
  have hsub := (sendListUdp_suffix s.protocol s.high.tail s.high.chain s.wbSize rs).subset
  have hsent := sendListUdp_transmitted s.protocol s.high.tail s.high.chain s.low.chain s.wbSize rs
  have hfailed := sendListUdp_failed s.protocol s.high.tail s.high.chain s.wbSize rs
  generalize sendListUdp s.protocol s.high.tail s.high.chain s.wbSize rs = r at h hsub hsent hfailed
  have hhigh := subset_append_left s.high.chain s.low.chain
  unfold highSent at h
  split_ifs at h with hfail hnil
  · simp [hfailed] at hfail
  · -- the high list is empty now, and the low list is sent
    obtain ⟨g, hg, rfl⟩ := map_eq_ok_iff.mp h
    have hlow := subset_append_right s.high.chain s.low.chain
    have hqueued : (s.putHigh r).queued = s.low.chain := by
      change r.list.chain ++ s.low.chain = _
      rw [hnil, nil_append]
    unfold sendBufferLow at hg
    split_ifs at hg with hempty
    · obtain ⟨x, hx, rfl⟩ := map_eq_ok_iff.mp hg
      refine ⟨?_, fun hres d hd => ?_⟩
      · change x.1.queued ⊆ _
        rw [(queued_of_sendBufferDone hx).2]
        exact nil_subset _
      · rw [show _ = _ from append_nil r.datagrams] at hd
        exact ((hsent hres).1 d hd).mono hhigh
    · rw [sendList, show (s.putHigh r).protocol = s.protocol from rfl, if_neg hudp] at hg
      have hsub' := (sendListUdp_suffix s.protocol s.low.tail s.low.chain r.wbSize r.results).subset
      obtain ⟨hq, hd'⟩ := lowSent_udp (s := s.putHigh r) hnil hsub' (sendListUdp_failed ..) hg
      refine ⟨?_, fun hres d hd => ?_⟩
      · rw [hqueued] at hq
        exact List.Subset.trans hq hlow
      · rcases mem_append.mp hd with hd | hd
        · exact ((hsent hres).1 d hd).mono hhigh
        · rw [hd'] at hd
          have hleft := (hsent hres).2 hnil
          rw [← append_nil s.low.chain] at hleft
          exact ((sendListUdp_transmitted _ _ _ [] _ _ hleft).1 d hd).mono hlow
  · cases h
    refine ⟨?_, fun hres d hd => ((hsent hres).1 d hd).mono hhigh⟩
    change r.list.chain ++ s.low.chain ⊆ _
    exact append_subset.mpr ⟨List.Subset.trans hsub hhigh, subset_append_right ..⟩

/-! ## One packet -/

section Send

variable [DecidableEq ι] {soi : SocketObjectInterface} {s' : Socket ι} {p : Packet ι}
  {priority : Priority} {address : Option UdpAddress} {datagrams : List (Datagram ι)}
  {result : SocketResult}

theorem queued_of_append {l l' : WbList ι} {wb : WriteBuffer ι} (h : l.append wb = .ok l') :
    ∀ x ∈ l'.chain, x ∈ l.chain ∨ x = wb := by
  unfold WbList.append at h
  split_ifs at h with hnil htail
  · cases h
    intro x hx
    exact .inr (mem_singleton.mp hx)
  · cases h
    intro x hx
    exact (mem_append.mp hx).imp_right mem_singleton.mp

theorem queued_of_link {wb : WriteBuffer ι} (h : s.link priority wb = .ok s') :
    ∀ x ∈ s'.queued, x ∈ s.queued ∨ x = wb := by
  unfold link at h
  intro x hx
  cases priority with
  | high =>
    obtain ⟨l, hl, rfl⟩ := map_eq_ok_iff.mp h
    rcases mem_append.mp hx with hx | hx
    · exact (queued_of_append hl x hx).imp_left (mem_append_left _)
    · exact .inl (mem_append_right _ hx)
  | low =>
    obtain ⟨l, hl, rfl⟩ := map_eq_ok_iff.mp h
    rcases mem_append.mp hx with hx | hx
    · exact .inl (mem_append_left _ hx)
    · exact (queued_of_append hl x hx).imp_left (mem_append_right _)

omit [DecidableEq ι] in
theorem queued_warnSend (s : Socket ι) : s.warnSend.queued = s.queued := by
  unfold warnSend
  split_ifs <;> rfl

theorem appendSendbuffer_udp {idle : Bool} {sent : List (Datagram ι)}
    (h : s.appendSendbuffer soi p priority address idle sent = .ok (s', datagrams, result)) :
    (∀ x ∈ s'.queued, x ∈ s.queued ∨ x = .ofPacket soi p 0 address) ∧ datagrams = sent := by
  obtain ⟨y, hy, heq⟩ := map_eq_ok_iff.mp h
  rw [Prod.mk.injEq, Prod.mk.injEq] at heq
  obtain ⟨rfl, rfl, -⟩ := heq
  refine ⟨fun x hx => ?_, rfl⟩
  rw [queued_warnSend] at hx
  exact queued_of_link hy x hx

/-- `send_socket` on a UDP socket sends the packet to the address given, or to the one the socket
is connected to, or queues it with this address. -/
theorem sendSocket_udp (hudp : s.protocol ≠ .tcp) {r : WriteResult}
    (h : s.sendSocket soi p priority address r = .ok (s', datagrams, result)) :
    (∀ x ∈ s'.queued, x ∈ s.queued ∨ x = .ofPacket soi p 0 (some (address.getD s.udpAddress))) ∧
      ∀ d ∈ datagrams, ∃ n, r = .wrote n ∧
        d = ⟨udpSocketAddress s.protocol (address.getD s.udpAddress), (p.bytes soi).take n⟩ := by
  unfold sendSocket at h
  split_ifs at h with h₁ h₂ hidle
  · cases h
    exact ⟨fun x hx => .inl hx, by simp⟩
  · cases h
    exact ⟨fun x hx => .inl hx, by simp⟩
  · cases r with
    | wrote n =>
      dsimp only at h
      split_ifs at h with hsz
      · cases h
        refine ⟨fun x hx => .inl hx, fun d hd => ⟨n, rfl, ?_⟩⟩
        rw [take_of_length_le (by simpa [Packet.bytes] using hsz)]
        exact mem_singleton.mp hd
      · obtain ⟨hq, rfl⟩ := appendSendbuffer_udp h
        exact ⟨hq, fun d hd => ⟨n, rfl, mem_singleton.mp hd⟩⟩
    | eintr | again | error =>
      obtain ⟨hq, rfl⟩ := appendSendbuffer_udp h
      exact ⟨hq, by simp⟩
  · obtain ⟨hq, rfl⟩ := appendSendbuffer_udp h
    exact ⟨hq, by simp⟩

end Send

end Socket

end Flush

/-! ## The events of a run -/

/-- An event: a call of a send function with the address given, a change of the address that the
socket is connected to, or a datagram. -/
inductive UdpEvent (Tid : Type)
  | call (p : Packet (SendTag Tid)) (address : Option UdpAddress)
  | connect (a : UdpAddress)
  | sent (d : Datagram (SendTag Tid))
  deriving DecidableEq, Repr

section Events

variable {Tid : Type} {soi : SocketObjectInterface} {log events : List (UdpEvent Tid)}
  {p : Packet (SendTag Tid)} {a : UdpAddress} {e : UdpEvent Tid}

/-- The connected address after one more event. -/
def UdpEvent.connects (a : UdpAddress) : UdpEvent Tid → UdpAddress
  | .connect b => b
  | _ => a

/-- The connected address after these events; `add_udp_socket` sets it to zeros. -/
def presentAddress (log : List (UdpEvent Tid)) : UdpAddress :=
  log.foldl UdpEvent.connects ⟨.tcp, 0, 0⟩

/-- The socket was connected to the address at some moment since `socket_server_send` was called
with the packet. -/
def ConnectedSince (log : List (UdpEvent Tid)) (p : Packet (SendTag Tid)) (a : UdpAddress) : Prop :=
  ∃ before after, log = before ++ .call p none :: after ∧
    (presentAddress before = a ∨ .connect a ∈ after)

/-- The packet was to be sent to this address. -/
def Addressed (log : List (UdpEvent Tid)) (p : Packet (SendTag Tid)) (a : UdpAddress) : Prop :=
  .call p (some a) ∈ log ∨ ConnectedSince log p a

/-- The datagram is a whole packet that was to be sent to its address. -/
def Delivered (soi : SocketObjectInterface) (log : List (UdpEvent Tid))
    (d : Datagram (SendTag Tid)) : Prop :=
  ∃ p a, d.payload = p.bytes soi ∧ d.address = some a ∧ Addressed log p a

theorem Addressed.append (h : Addressed log p a) (events : List (UdpEvent Tid)) :
    Addressed (log ++ events) p a := by
  rcases h with h | ⟨before, after, rfl, h⟩
  · exact .inl (mem_append_left _ h)
  · refine .inr ⟨before, after ++ events, by simp, ?_⟩
    exact h.imp_right (mem_append_left _)

theorem Delivered.append {d : Datagram (SendTag Tid)} (h : Delivered soi log d)
    (events : List (UdpEvent Tid)) : Delivered soi (log ++ events) d := by
  obtain ⟨p, a, hpayload, haddress, h⟩ := h
  exact ⟨p, a, hpayload, haddress, h.append events⟩

/-- The connected address is an old one or was set by one of the events. -/
theorem foldl_connects (a : UdpAddress) (log : List (UdpEvent Tid)) :
    log.foldl UdpEvent.connects a = a ∨ .connect (log.foldl UdpEvent.connects a) ∈ log := by
  induction log generalizing a with
  | nil => exact .inl rfl
  | cons e log ih =>
    rw [foldl_cons]
    rcases ih (e.connects a) with h | h
    · rw [h]
      cases e with
      | connect b => exact .inr mem_cons_self
      | call | sent => exact .inl rfl
    · exact .inr (mem_cons_of_mem e h)

/-- The present address is one the socket was connected to since the call. -/
theorem connectedSince_present (h : .call p none ∈ log) :
    ConnectedSince log p (presentAddress log) := by
  obtain ⟨before, after, rfl⟩ := append_of_mem h
  refine ⟨before, after, rfl, ?_⟩
  have hpresent : presentAddress (before ++ .call p none :: after) =
      after.foldl UdpEvent.connects (presentAddress before) := foldl_append ..
  rw [hpresent]
  exact (foldl_connects (presentAddress before) after).imp_left Eq.symm

/-- The address that a send function uses: the one given, or the present one. -/
theorem addressed_getD {address : Option UdpAddress} (h : .call p address ∈ log) :
    Addressed log p (address.getD (presentAddress log)) := by
  cases address with
  | none => exact .inr (connectedSince_present h)
  | some a => exact .inl h

theorem foldl_connects_map {α : Type} (f : α → UdpEvent Tid) (hf : ∀ x a, (f x).connects a = a)
    (l : List α) (a : UdpAddress) : (l.map f).foldl UdpEvent.connects a = a := by
  induction l with
  | nil => rfl
  | cons x l ih => rw [map_cons, foldl_cons, hf, ih]

end Events

/-- A UDP socket and the events so far. -/
structure UdpHistory (Tid : Type) where
  server : SocketServer Tid
  log : List (UdpEvent Tid)

namespace UdpHistory

variable {Tid : Type}

/-- Nothing has happened. -/
def init (Tid : Type) (protocol : Protocol) : UdpHistory Tid := ⟨SocketServer.init Tid protocol, []⟩

/-- The events of a step from `s` to `s'`. -/
def events (s : SocketServer Tid) (a : SocketAct Tid) (s' : SocketServer Tid) :
    List (UdpEvent Tid) :=
  (s'.calls.drop s.calls.length).map (.call · a.address?) ++
    (if s'.socket.udpAddress = s.socket.udpAddress then [] else [.connect s'.socket.udpAddress]) ++
    (s'.datagrams.drop s.datagrams.length).map .sent

section Step

variable [DecidableEq Tid] (soi : SocketObjectInterface)

/-- The steps, with their events. -/
def next (h : UdpHistory Tid) (a : SocketAct Tid) : Option (UdpHistory Tid) :=
  (h.server.next soi a).map fun s => ⟨s, h.log ++ events h.server a s⟩

end Step

/-- The buffers for which `sendto` is called in a step, and its results. -/
def sendtos (soi : SocketObjectInterface) (s : SocketServer Tid) :
    SocketAct Tid → List (WriteBuffer (SendTag Tid)) × List WriteResult
  | .run t r =>
    match s.worker t with
    | .writing p address =>
      ([.ofPacket soi p 0 (some (address.getD s.socket.udpAddress))], [r])
    | _ => ([], [])
  | .command r =>
    match s.pipe with
    | .send p _ address :: _ =>
      ([.ofPacket soi p 0 (some (address.getD s.socket.udpAddress))], r.results)
    | .close _ :: _ => ((s.socket.mergeDw soi).queued, r.results)
    | _ => ([], [])
  | .writeEvent rs => ((s.socket.mergeDw soi).queued, rs)
  | _ => ([], [])

/-- The results of the calls of `sendto` in a step are possible. -/
def SendtoPossible (soi : SocketObjectInterface) (h : UdpHistory Tid) (a : SocketAct Tid) : Prop :=
  SendtoResults h.server.socket.protocol (sendtos soi h.server a).1 (sendtos soi h.server a).2

instance (soi : SocketObjectInterface) (h : UdpHistory Tid) (a : SocketAct Tid) :
    Decidable (SendtoPossible soi h a) :=
  decidableSendtoResults ..

/-- The condition on a step: `send_buffer` does not find a packet that a direct `sendto` has left
in `dw_buffer`. -/
def FlushSafe (h : UdpHistory Tid) (a : SocketAct Tid) : Prop :=
  h.server.Flushes a a.results → h.server.socket.dw = none

/-- The invariant: everything that is to be sent belongs to a call, and a write buffer has an
address that its packet may be sent to. -/
structure Inv (soi : SocketObjectInterface) (h : UdpHistory Tid) : Prop where
  server : h.server.Inv soi
  udp : h.server.socket.protocol ≠ .tcp
  present : presentAddress h.log = h.server.socket.udpAddress
  worker : ∀ t, ∀ x ∈ (h.server.worker t).sends?, .call x.1 x.2 ∈ h.log
  pipe : ∀ c ∈ h.server.pipe, ∀ x ∈ c.sends?, .call x.1 x.2 ∈ h.log
  queued : ∀ wb ∈ h.server.socket.queued,
    wb.Unsent soi ∧ ∃ a, wb.udpAddress = some a ∧ Addressed h.log wb.packet a
  sent : Justified (fun log e => ∀ d, e = .sent d → Delivered soi log d) h.log

section Inv

variable {soi : SocketObjectInterface} {h : UdpHistory Tid} {s' : SocketServer Tid}
  {a : SocketAct Tid}

theorem inv_init (soi : SocketObjectInterface) {protocol : Protocol} (hudp : protocol ≠ .tcp) :
    (init Tid protocol).Inv soi where
  server := SocketServer.inv_init soi protocol
  udp := hudp
  present := rfl
  worker t x hx := by simp [init, SocketServer.init, Worker.sends?] at hx
  pipe c hc x hx := by
    obtain rfl := mem_singleton.mp hc
    simp [Command.sends?] at hx
  queued wb hwb := by simp [init, SocketServer.init, queued, WbList.empty] at hwb
  sent := .nil

theorem presentAddress_events (hpresent : presentAddress h.log = h.server.socket.udpAddress) :
    presentAddress (h.log ++ events h.server a s') = s'.socket.udpAddress := by
  have happend : presentAddress (h.log ++ events h.server a s') =
      (events h.server a s').foldl UdpEvent.connects (presentAddress h.log) :=
    foldl_append ..
  rw [happend, hpresent, events, foldl_append, foldl_append,
    foldl_connects_map _ (fun _ _ => rfl), foldl_connects_map _ (fun _ _ => rfl)]
  split_ifs with heq
  · exact heq.symm
  · rfl

/-- A `sendto` with one packet that succeeds sends it as a whole to its address. -/
theorem delivered_of_sendto (hs : h.Inv soi) {p : Packet (SendTag Tid)}
    {address : Option UdpAddress} (hcall : .call p address ∈ h.log) {n : ℕ} {rs : List WriteResult}
    (hres : SendtoResults h.server.socket.protocol
      [.ofPacket soi p 0 (some (address.getD h.server.socket.udpAddress))] (.wrote n :: rs)) :
    Delivered soi h.log
      ⟨udpSocketAddress h.server.socket.protocol (address.getD h.server.socket.udpAddress),
        (p.bytes soi).take n⟩ := by
  obtain ⟨hsz, htype, -⟩ := hres
  refine ⟨p, address.getD h.server.socket.udpAddress, ?_, ?_, ?_⟩
  · exact take_of_length_le (by simpa [Packet.bytes, WriteBuffer.ofPacket] using hsz)
  · rw [udpSocketAddress, if_pos (htype _ rfl)]
  · rw [← hs.present]
    exact addressed_getD hcall

theorem delivered_of_flush (hs : h.Inv soi) (hdw : h.server.socket.dw = none)
    {rs : List WriteResult} {f : Flush (SendTag Tid)}
    (hf : h.server.socket.sendBuffer soi rs = .ok f)
    (hres : SendtoResults h.server.socket.protocol h.server.socket.queued rs)
    {d : Datagram (SendTag Tid)} (hd : d ∈ f.datagrams) : Delivered soi h.log d := by
  have hmerge : h.server.socket.mergeDw soi = h.server.socket := by
    rw [Socket.mergeDw, hdw]
  rw [Socket.sendBuffer, hmerge] at hf
  obtain ⟨wb, hwb, hpayload, haddress⟩ := (Socket.sendBuffer_udp hs.udp hf).2 hres d hd
  obtain ⟨hunsent, b, hb, haddressed⟩ := hs.queued wb hwb
  exact ⟨wb.packet, b, hpayload.trans hunsent.rest_eq, haddress b hb, haddressed⟩

section Change

variable [DecidableEq Tid]

omit [DecidableEq Tid] in
/-- The results of a flush, when no packet is left in `dw_buffer`. -/
theorem sendtoResults_of_flushes (hdw : h.server.socket.dw = none)
    (hflushes : h.server.Flushes a a.results) (hres : SendtoPossible soi h a) :
    SendtoResults h.server.socket.protocol h.server.socket.queued a.results := by
  have hmerge : h.server.socket.mergeDw soi = h.server.socket := by
    rw [mergeDw, hdw]
  cases a with
  | writeEvent rs =>
    simp only [SendtoPossible, sendtos, hmerge] at hres
    exact hres
  | command r =>
    obtain ⟨-, -, ⟨shutdown, pipe, hpipe⟩, -⟩ := hflushes
    simp only [SendtoPossible, sendtos, hpipe, hmerge] at hres
    exact hres
  | _ => exact hflushes.elim

section

variable (hs : h.Inv soi)
include hs

theorem Inv.datagrams_change (hres : SendtoPossible soi h a) (hsafe : h.FlushSafe a)
    (hchange : h.server.Change soi a s') :
    ∀ d ∈ s'.datagrams.drop h.server.datagrams.length, Delivered soi h.log d := by
  intro d hd
  cases hchange with
  | @direct t r p n datagrams x ht _ _ heq =>
    have hcall := hs.worker t (p, none) (by rw [ht]; exact rfl)
    rw [show _ = _ from heq] at hd
    cases r with
    | wrote m =>
      simp only [directSend, goto, hs.udp, false_or, reduceCtorEq,
        if_false, drop_left, mem_singleton] at hd
      simp only [SendtoPossible, sendtos, ht] at hres
      have hsz : (p.object soi).sz ≤ m := by simpa [WriteBuffer.ofPacket] using hres.1
      rw [hd, directCount, Nat.min_eq_right hsz]
      have hall := delivered_of_sendto hs hcall hres
      have hlength : (p.bytes soi).length = (p.object soi).sz := by simp [Packet.bytes]
      rw [← hlength, take_length]
      rwa [take_of_length_le (hlength.symm ▸ hsz)] at hall
    | eintr | again | error => simp [directSend, goto] at hd
  | @directUdp t r p b datagrams ht heq =>
    have hcall := hs.worker t (p, some b) (by rw [ht]; exact rfl)
    rw [show _ = _ from heq] at hd
    cases r with
    | wrote m =>
      simp only [directUdpSend, goto, drop_left, mem_singleton] at hd
      simp only [SendtoPossible, sendtos, ht] at hres
      rw [hd]
      exact delivered_of_sendto hs hcall hres
    | eintr | again | error => simp [directUdpSend, goto] at hd
  | @queue r pipe p priority address x datagrams _ _ hpipe _ hsend =>
    simp only [drop_left] at hd
    obtain ⟨n, hn, rfl⟩ := (Socket.sendSocket_udp hs.udp hsend).2 d hd
    have hcall := hs.pipe (.send p priority address) (by simp [hpipe]) (p, address) rfl
    simp only [SendtoPossible, sendtos, hpipe] at hres
    cases hrs : r.results with
    | nil => simp [hrs] at hn
    | cons r' rs =>
      obtain rfl : r' = .wrote n := by simpa [hrs] using hn
      rw [hrs] at hres
      exact delivered_of_sendto hs hcall hres
  | flush _ _ _ _ _ hf =>
    simp only [drop_left] at hd
    have hdw := hsafe hf.1
    exact delivered_of_flush hs hdw hf.2 (sendtoResults_of_flushes hdw hf.1 hres) hd
  | flushClosed _ _ _ _ _ hf =>
    simp only [drop_left] at hd
    have hdw := hsafe hf.1
    exact delivered_of_flush hs hdw hf.2 (sendtoResults_of_flushes hdw hf.1 hres) hd
  | _ => simp [goto] at hd

theorem Inv.worker_change (hchange : h.server.Change soi a s') (t : Tid) :
    ∀ x ∈ (s'.worker t).sends?, .call x.1 x.2 ∈ h.log ++ events h.server a s' := by
  have hold : ∀ t, ∀ x ∈ (h.server.worker t).sends?,
      .call x.1 x.2 ∈ h.log ++ events h.server a s' := fun t x hx =>
    mem_append_left _ (hs.worker t x hx)
  have hgoto : ∀ {u w}, (∀ x ∈ w.sends?, .call x.1 x.2 ∈ h.log ++ events h.server a s') →
      ∀ x ∈ (Function.update h.server.worker u w t).sends?,
        .call x.1 x.2 ∈ h.log ++ events h.server a s' := fun hw =>
    (Function.forall_update_iff h.server.worker (fun _ w => ∀ x ∈ w.sends?,
      UdpEvent.call x.1 x.2 ∈ h.log ++ events h.server a s')).mpr ⟨hw, fun u _ => hold u⟩ t
  have hmove : ∀ {u w w'}, h.server.worker u = w → w'.sends? = w.sends? →
      ∀ x ∈ (Function.update h.server.worker u w' t).sends?,
        .call x.1 x.2 ∈ h.log ++ events h.server a s' := by
    intro u w w' hu hw
    refine hgoto fun x hx => hold u x ?_
    rwa [hu, ← hw]
  cases hchange with
  | @enter _ u p w _ _ _ hsends =>
    refine hgoto fun x hx => mem_append_right _ ?_
    rw [hsends] at hx
    obtain rfl := Option.some_inj.mp hx
    simp [events, goto]
  | test hu | lock hu | recheck hu => exact hmove hu rfl
  | refuse hu => rcases hu with hu | hu <;> exact hmove hu rfl
  | unlock hu => rcases hu with hu | ⟨hu, -⟩ <;> exact hmove hu rfl
  | direct | directUdp | postSend | post => exact hgoto fun x hx => by cases hx
  | udpConnect _ hw =>
    refine hgoto fun x hx => ?_
    rcases hw with rfl | ⟨b, rfl⟩ <;> cases hx
  | _ => exact hold t

theorem Inv.pipe_change (hchange : h.server.Change soi a s') :
    ∀ c ∈ s'.pipe, ∀ x ∈ c.sends?, .call x.1 x.2 ∈ h.log := by
  have htail : ∀ {c pipe}, h.server.pipe = c :: pipe → ∀ c ∈ pipe, ∀ x ∈ c.sends?,
      .call x.1 x.2 ∈ h.log := fun hpipe c hc => hs.pipe c (by simp [hpipe, hc])
  have hconcat : ∀ {c}, (∀ x ∈ c.sends?, .call x.1 x.2 ∈ h.log) →
      ∀ c' ∈ h.server.pipe ++ [c], ∀ x ∈ c'.sends?, .call x.1 x.2 ∈ h.log := by
    intro c hc c' hc'
    rcases mem_append.mp hc' with hc' | hc'
    · exact hs.pipe c' hc'
    · obtain rfl := mem_singleton.mp hc'
      exact hc
  have hflushing : ∀ {pipe poller}, h.server.Flushing pipe poller → ∀ c ∈ pipe, ∀ x ∈ c.sends?,
      .call x.1 x.2 ∈ h.log := by
    intro pipe poller h
    cases h with
    | event => exact hs.pipe
    | close hpipe => exact htail hpipe
  cases hchange with
  | @postSend t _ p priority b ht =>
    exact hconcat fun x hx => hs.worker t x (by rw [ht]; exact hx)
  | @post t _ c _ hc =>
    refine hconcat fun x hx => ?_
    cases c with
    | send => cases hc
    | _ => cases hx
  | opened _ hpipe => exact htail hpipe
  | queue _ hpipe => exact htail hpipe
  | pop _ hpipe => exact htail hpipe
  | closeCmd _ hpipe => exact htail hpipe
  | flush _ _ _ hflush => exact hflushing hflush
  | flushClosed _ _ _ hflush => exact hflushing hflush
  | forceClose _ _ hpipe =>
    rcases hpipe with rfl | hpipe
    · exact hs.pipe
    · exact htail hpipe
  | _ => exact hs.pipe

theorem Inv.queued_change (hsafe : h.FlushSafe a) (hchange : h.server.Change soi a s') :
    ∀ wb ∈ s'.socket.queued,
      wb.Unsent soi ∧ ∃ b, wb.udpAddress = some b ∧ Addressed h.log wb.packet b := by
  cases hchange with
  | direct _ _ hx =>
    rcases hx with ⟨-, rfl⟩ | ⟨-, rfl⟩
    · exact hs.queued
    · exact hs.queued
  | opened _ _ _ _ hhigh hlow =>
    intro wb hwb
    rw [Socket.queued, hhigh, hlow] at hwb
    exact hs.queued wb hwb
  | @queue r pipe p priority address x datagrams _ _ hpipe _ hsend =>
    intro wb hwb
    rcases (Socket.sendSocket_udp hs.udp hsend).1 wb hwb with hwb | rfl
    · exact hs.queued wb hwb
    · refine ⟨WriteBuffer.unsent_ofPacket p _, _, rfl, ?_⟩
      have hcall := hs.pipe (.send p priority address) (by simp [hpipe]) (p, address) rfl
      rw [← hs.present]
      exact addressed_getD hcall
  | pop _ _ _ _ hx =>
    intro wb hwb
    rw [Socket.queued, hx.high, hx.low] at hwb
    exact hs.queued wb hwb
  | flush _ _ _ _ _ hf =>
    intro wb hwb
    have hmerge : h.server.socket.mergeDw soi = h.server.socket := by
      rw [mergeDw, hsafe hf.1]
    have hsend := hf.2
    rw [Socket.sendBuffer, hmerge] at hsend
    exact hs.queued wb ((Socket.sendBuffer_udp hs.udp hsend).1 hwb)
  | flushClosed _ _ _ _ hf =>
    obtain ⟨-, hhigh, hlow, -⟩ := hf.socket
    intro wb hwb
    simp [Socket.queued, hhigh, hlow, WbList.empty] at hwb
  | forceClose => simp [Socket.queued, Socket.freeWbLists, WbList.empty]
  | connected _ hx =>
    intro wb hwb
    rw [Socket.queued, hx.high, hx.low] at hwb
    exact hs.queued wb hwb
  | _ => exact hs.queued

theorem Inv.step (hres : SendtoPossible soi h a) (hsafe : h.FlushSafe a) {h' : UdpHistory Tid}
    (hnext : next soi h a = some h') : h'.Inv soi := by
  obtain ⟨s', hs', rfl⟩ := Option.map_eq_some_iff.mp hnext
  have hchange := hs.server.change (toOption_eq_some_iff.mp hs')
  have hsent := hs.datagrams_change hres hsafe hchange
  exact {
    server := hs.server.of_change hchange
    udp := fun htcp => hs.udp ((protocol_change hchange).symm.trans htcp)
    present := presentAddress_events hs.present
    worker := hs.worker_change hchange
    pipe := fun c hc x hx => mem_append_left _ (hs.pipe_change hchange c hc x hx)
    queued := fun wb hwb => by
      obtain ⟨hunsent, b, hb, haddressed⟩ := hs.queued_change hsafe hchange wb hwb
      exact ⟨hunsent, b, hb, haddressed.append _⟩
    sent := by
      refine hs.sent.append (fun hl d hd => (hl d hd).append _) fun e he d hd => ?_
      subst hd
      simp only [events, mem_append, mem_map, reduceCtorEq, and_false, exists_false,
        false_or, UdpEvent.sent.injEq, exists_eq_right] at he
      rcases he with he | he
      · split_ifs at he
        · cases he
        · simp at he
      · exact hsent d he }

end

/-- In every run of a UDP socket whose steps meet the condition, each datagram is a whole packet
that was to be sent to its address: the one given to `socket_server_udp_send`, or one to which the
socket was connected since `socket_server_send` was called. -/
theorem delivered_of_flushSafe (soi : SocketObjectInterface) (protocol : Protocol)
    (hudp : protocol ≠ .tcp) (acts : List (SocketAct Tid)) (h : UdpHistory Tid)
    (hrun : Run (next soi) (fun h a => SendtoPossible soi h a ∧ h.FlushSafe a)
      (init Tid protocol) acts h)
    (before after : List (UdpEvent Tid)) (d : Datagram (SendTag Tid))
    (hlog : h.log = before ++ .sent d :: after) : Delivered soi before d := by
  have hs : h.Inv soi := hrun.invariant (inv_init soi hudp)
    fun hguard hnext h => h.step hguard.1 hguard.2 hnext
  exact hs.sent before (.sent d) after hlog d rfl

end Change

end Inv

/-- The socket is connected and a packet is sent directly. For a second one an address is given;
it is refused twice and sent by a flush. -/
def udpRun : List (SocketAct ℕ) :=
  [.command ⟨some .connected, [], true⟩, .udpConnect 0 (some ⟨.udp, 80, 1⟩), .run 0 .again,
    .command ⟨none, [], true⟩, .send 1 1000 4, .run 1 .again, .run 1 .again, .run 1 .again,
    .run 1 (.wrote 4), .udpSend 2 ⟨.udp, 90, 2⟩ 2000 5, .run 2 .again, .run 2 .again, .run 2 .again,
    .run 2 .again, .run 2 .again, .command ⟨none, [.again], true⟩, .writeEvent [.wrote 5]]

theorem delivered_of_flushSafe_two :
    ∃ h, Run (next noObjects) (fun h a => SendtoPossible noObjects h a ∧ h.FlushSafe a)
        (init ℕ .udp) udpRun h ∧
      ∃ before d after, h.log = before ++ .sent d :: after ∧ d.address = some ⟨.udp, 90, 2⟩ ∧
        d.payload.length = 5 ∧ Delivered noObjects before d := by
  obtain ⟨h, hexec⟩ : ∃ h, exec (guarded (next noObjects) fun h a =>
      SendtoPossible noObjects h a ∧ h.server.socket.dw = none) (init ℕ .udp) udpRun = some h :=
    ⟨_, rfl⟩
  have hrun : Run (next noObjects) (fun h a => SendtoPossible noObjects h a ∧ h.FlushSafe a)
      (init ℕ .udp) udpRun h :=
    (run_of_exec_guarded hexec).mono fun _ _ hguard => ⟨hguard.1, fun _ => hguard.2⟩
  have hlog : (exec (guarded (next noObjects) fun h a =>
      SendtoPossible noObjects h a ∧ h.server.socket.dw = none) (init ℕ .udp) udpRun).map
      UdpHistory.log = some ([.connect ⟨.udp, 80, 1⟩, .call ⟨⟨1, 0, true⟩, 1000, 4⟩ none,
          .sent ⟨some ⟨.udp, 80, 1⟩, span ⟨1, 0, true⟩ 1000 4⟩,
          .call ⟨⟨2, 1, false⟩, 2000, 5⟩ (some ⟨.udp, 90, 2⟩)] ++
          .sent ⟨some ⟨.udp, 90, 2⟩, span ⟨2, 1, false⟩ 2000 5⟩ :: []) := by decide
  rw [hexec, Option.map_some, Option.some_inj] at hlog
  refine ⟨h, hrun, _, _, [], hlog, rfl, rfl, ?_⟩
  exact delivered_of_flushSafe noObjects .udp (by decide) udpRun h hrun _ [] _ hlog

/-- The socket is connected, but the direct `sendto` fails. -/
def directFailureRun : List (SocketAct ℕ) :=
  [.command ⟨some .connected, [], true⟩, .udpConnect 0 (some ⟨.udp, 80, 1⟩), .run 0 .again,
    .command ⟨none, [], true⟩, .send 1 1000 4, .run 1 .again, .run 1 .again, .run 1 .again,
    .run 1 .again, .writeEvent [.wrote 4]]

/-- The packet of a direct `sendto` that failed is sent later from a write buffer without an
address. -/
theorem direct_failure_not_delivered :
    ¬ ∀ (soi : SocketObjectInterface) (acts : List (SocketAct ℕ)) (h : UdpHistory ℕ),
      Run (next soi) (SendtoPossible soi) (init ℕ .udp) acts h →
        ∀ before d after, h.log = before ++ .sent d :: after → Delivered soi before d := by
  intro hclaim
  obtain ⟨h, hexec⟩ : ∃ h, exec (guarded (next noObjects) (SendtoPossible noObjects))
      (init ℕ .udp) directFailureRun = some h := ⟨_, rfl⟩
  have hlog : (exec (guarded (next noObjects) (SendtoPossible noObjects)) (init ℕ .udp)
      directFailureRun).map UdpHistory.log = some
        ([.connect ⟨.udp, 80, 1⟩, .call ⟨⟨1, 0, true⟩, 1000, 4⟩ none] ++
          .sent ⟨none, span ⟨1, 0, true⟩ 1000 4⟩ :: []) := by decide
  rw [hexec, Option.map_some, Option.some_inj] at hlog
  obtain ⟨p, a, -, haddress, -⟩ :=
    hclaim noObjects directFailureRun h (run_of_exec_guarded hexec) _ _ [] hlog
  cases haddress

end UdpHistory

end Uboss.Core
