import Uboss.Core.SocketCalls

/-!
# Graceful close

`socket_server_close` without a shutdown leaves what is queued to the socket thread, which
closes the socket when the lists are empty. What is still in the control pipe or in the
direct-write buffer then is lost.
-/

namespace Uboss.Core

open Math List List.Subset Socket WriteBuffer Command

namespace SocketServer

variable {Tid : Type} {soi : SocketObjectInterface} {s s' : SocketServer Tid} {a : SocketAct Tid}
  {b : SendTag Tid × ℕ}

/-- The fd is not closed before the packets that a thread has sent before its
`socket_server_close` are written, unless an error, the end of the stream or a shutdown came
before. -/
def ClosedComplete (soi : SocketObjectInterface) (s : SocketServer Tid) : Prop :=
  s.socket.type = .invalid → s.broken = false → ∀ p ∈ s.covered, p.bytes soi ⊆ s.wire

/-- The bytes in the lists and in the direct-write buffer. -/
def waiting (soi : SocketObjectInterface) (x : Socket (SendTag Tid)) : List (SendTag Tid × ℕ) :=
  (x.pending soi ++ x.low.chain).flatMap rest

/-- The bytes in the pipe. -/
def piped (soi : SocketObjectInterface) (pipe : List (Command Tid)) : List (SendTag Tid × ℕ) :=
  (pipe.filterMap packet?).flatMap (Packet.bytes soi)

/-- The byte is written or it waits. What is in the pipe when the socket is half closed will be
dropped. -/
def Secured (soi : SocketObjectInterface) (s : SocketServer Tid) (b : SendTag Tid × ℕ) : Prop :=
  b ∈ s.wire ∨ s.socket.type ≠ .invalid ∧
    (b ∈ waiting soi s.socket ∨ s.socket.type ≠ .halfclose ∧ b ∈ piped soi s.pipe)

/-- The packet is not one for which 0 was returned. -/
def NotKept (s : SocketServer Tid) (p : Packet (SendTag Tid)) : Prop := p.tag ∉ s.kept.map (·.tag)

/-- The condition on a step. When `close_socket` leaves the lists to the write events, no packet
for which 0 was returned is in the pipe; when `force_close` closes the socket after a close
request, none is in the pipe or in the direct-write buffer. -/
def SafeClose (s : SocketServer Tid) (a : SocketAct Tid) : Prop :=
  (a = .decide → s.poller = .deciding false → s.socket.sendBufferEmpty = false →
    ∀ p ∈ s.pipe.filterMap packet?, s.NotKept p) ∧
  (a = .closed → s.broken = false → (∀ p ∈ s.pipe.filterMap packet?, s.NotKept p) ∧
      ∀ p offset, s.socket.dw = some (p, offset) → s.NotKept p)

/-- The invariant of closing. -/
structure CloseInv (soi : SocketObjectInterface) (s : SocketServer Tid) : Prop where
  inv : s.Inv soi
  locking : s.Locking soi
  tcp : s.socket.protocol = .tcp
  covered : s.covered ⊆ s.kept
  connected : s.kept ≠ [] → s.Connected
  secured : s.broken = false → ∀ p ∈ s.kept, ∀ b ∈ p.bytes soi, s.Secured soi b

theorem CloseInv.closedComplete (h : s.CloseInv soi) : s.ClosedComplete soi := by
  intro htype hbroken p hp b hb
  rcases h.secured hbroken p (h.covered hp) b hb with hwire | ⟨hopen, -⟩
  · exact hwire
  · exact absurd htype hopen

theorem waiting_congr {x y : Socket (SendTag Tid)} (hdw : x.dw = y.dw) (hhigh : x.high = y.high)
    (hlow : x.low = y.low) : waiting soi x = waiting soi y := by
  rw [waiting, waiting, pending_congr hdw hhigh, hlow]

theorem exists_packet_of_mem_piped {pipe : List (Command Tid)} (h : b ∈ piped soi pipe) :
    ∃ p ∈ pipe.filterMap packet?, p.tag = b.1 := by
  obtain ⟨p, hp, hb⟩ := mem_flatMap.mp h
  exact ⟨p, hp, (fst_of_mem_span hb).symm⟩

theorem piped_concat (pipe : List (Command Tid)) (p : Packet (SendTag Tid)) (priority : Priority)
    (address : Option UdpAddress) :
    piped soi (pipe ++ [.send p priority address]) = piped soi pipe ++ p.bytes soi := by
  simp [piped, filterMap_append, packet?]

theorem mem_keeps {p q : Packet (SendTag Tid)} (h : q ∈ s.keeps p) :
    q ∈ s.kept ∨ q = p ∧ s.socket.type = .connected := by
  unfold keeps at h
  split_ifs at h with htype
  · rcases mem_append.mp h with hold | hnew
    · exact .inl hold
    · exact .inr ⟨mem_singleton.mp hnew, htype⟩
  · exact .inl h

theorem kept_subset_keeps (p : Packet (SendTag Tid)) : s.kept ⊆ s.keeps p := by
  unfold keeps
  split_ifs
  · exact subset_append_left ..
  · exact refl _

namespace Secured

variable {pipe : List (Command Tid)} {f : Flush (SendTag Tid)}

/-- A step that only adds bytes to the stream, the lists and the pipe. -/
theorem mono (h : s.Secured soi b) (hwire : s.wire ⊆ s'.wire)
    (htype : s'.socket.type = s.socket.type)
    (hwaiting : waiting soi s.socket ⊆ waiting soi s'.socket)
    (hpipe : piped soi s.pipe ⊆ piped soi s'.pipe) : s'.Secured soi b := by
  rw [Secured, htype]
  rcases h with h | ⟨hopen, h | ⟨hhalf, h⟩⟩
  · exact .inl (hwire h)
  · exact .inr ⟨hopen, .inl (hwaiting h)⟩
  · exact .inr ⟨hopen, .inr ⟨hhalf, hpipe h⟩⟩

theorem queue (h : s.Secured soi b) (hconnected : s.Connected) (htcp : s.socket.protocol = .tcp)
    {p : Packet (SendTag Tid)} {priority : Priority} {address : Option UdpAddress}
    (hpipe : s.pipe = .send p priority address :: pipe) {x : Socket (SendTag Tid)}
    (hx : x = s.socket ∧ (s.socket.protocol = .tcp → Socket.Drops s.socket.type) ∨
      ¬ Socket.Drops s.socket.type ∧ Socket.Queued soi s.socket p priority x)
    (datagrams : List (Datagram (SendTag Tid))) :
    Secured soi { s with pipe := pipe, socket := x, datagrams := datagrams } b := by
  rcases hx with ⟨rfl, hdrops⟩ | ⟨-, hq⟩
  · -- a connected socket does not drop packets, and in the other cases the pipe does not count
    rcases h with h | ⟨hopen, h | ⟨hhalf, -⟩⟩
    · exact .inl h
    · exact .inr ⟨hopen, .inl h⟩
    · rcases hconnected with htype | htype | htype
      · simpa [Socket.Drops, htype] using hdrops htcp
      · exact absurd htype hhalf
      · exact absurd htype hopen
  · have hhead : piped soi s.pipe = p.bytes soi ++ piped soi pipe := by
      rw [piped, hpipe]
      rfl
    have hwaiting : waiting soi s.socket ⊆ waiting soi x ∧ p.bytes soi ⊆ waiting soi x := by
      obtain ⟨wb, rfl, hunsent, -, ⟨hhigh, hlow⟩ | ⟨-, hlow, hhigh⟩⟩ := hq.lists
      · simp only [waiting, pending, dwBuffer, hq.same.dw, hhigh, hlow,
          flatMap_append, flatMap_cons, flatMap_nil, hunsent.rest_eq]
        grind
      · simp only [waiting, pending, dwBuffer, hq.same.dw, hhigh, hlow,
          flatMap_append, flatMap_cons, flatMap_nil, hunsent.rest_eq]
        grind
    have htype : x.type = s.socket.type := hq.same.type
    rcases h with h | ⟨hopen, h⟩
    · exact .inl h
    · refine .inr ⟨htype ▸ hopen, ?_⟩
      rcases h with h | ⟨hhalf, h⟩
      · exact .inl (hwaiting.1 h)
      · rw [hhead] at h
        rcases mem_append.mp h with h | h
        · exact .inl (hwaiting.2 h)
        · exact .inr ⟨htype ▸ hhalf, h⟩

theorem sent (htcp : s.socket.protocol = .tcp) {l : List (WriteBuffer (SendTag Tid))}
    (hsent : (s.socket.mergeDw soi).SentFrom f l) (h : b ∈ waiting soi s.socket) :
    b ∈ f.written ∨ b ∈ l.flatMap rest := by
  rw [waiting, ← (hsent.of_tcp htcp).flatMap_rest] at h
  exact mem_append.mp h

variable (h : s.Secured soi b)
include h

theorem flush (htcp : s.socket.protocol = .tcp) {poller : Poller Tid}
    (hflushing : s.Flushing pipe poller) (hf : (s.socket.mergeDw soi).Flushed f) :
    Secured soi { s with
      pipe := pipe
      poller := poller
      socket := f.socket
      wire := s.wire ++ f.written
      datagrams := s.datagrams ++ f.datagrams } b := by
  have hmerged := merged_mergeDw soi s.socket
  have hpipe : piped soi pipe = piped soi s.pipe := by rw [piped, hflushing.packets, piped]
  have hqueued : waiting soi f.socket = f.socket.queued.flatMap rest := by
    rw [waiting, pending_of_dw (hf.dw.trans hmerged.dw), queued]
  have htype : f.socket.type = s.socket.type := hf.type.trans hmerged.type
  rcases h with h | ⟨hopen, h | ⟨hhalf, h⟩⟩
  · exact .inl (mem_append_left _ h)
  · rcases sent htcp hf.sent h with h | h
    · exact .inl (mem_append_right _ h)
    · exact .inr ⟨htype ▸ hopen, .inl (hqueued ▸ h)⟩
  · exact .inr ⟨htype ▸ hopen, .inr ⟨htype ▸ hhalf, hpipe ▸ h⟩⟩

/-- A flush that closes the socket without an error: it was half closed and everything is
written. -/
theorem flushClosed (htcp : s.socket.protocol = .tcp) (hf : (s.socket.mergeDw soi).FlushClosed f)
    (hfailed : f.failed = false) :
    Secured soi { s with
      pipe := pipe
      socket := f.socket
      wire := s.wire ++ f.written
      datagrams := s.datagrams ++ f.datagrams
      broken := s.broken || f.failed } b := by
  obtain ⟨l, hsent, hend⟩ := hf.sent
  rw [hfailed] at hend
  obtain ⟨rfl, hhalf⟩ := hend.resolve_left (by simp)
  rw [(merged_mergeDw soi s.socket).type] at hhalf
  rcases h with h | ⟨-, h | ⟨hne, -⟩⟩
  · exact .inl (mem_append_left _ h)
  · rcases sent htcp hsent h with h | h
    · exact .inl (mem_append_right _ h)
    · cases h
  · exact absurd hhalf hne

/-- `close_socket` leaves the lists to the write events, and the byte is not in the pipe. -/
theorem halfclose (hpipe : b ∉ piped soi s.pipe) (poller : Poller Tid) :
    Secured soi { s with
      socket := { s.socket with type := .halfclose }
      poller := poller } b := by
  rcases h with h | ⟨-, h | ⟨-, h⟩⟩
  · exact .inl h
  · exact .inr ⟨by simp, .inl h⟩
  · exact absurd h hpipe

theorem forceClose {broken : Bool} (hpipe : pipe = s.pipe ∨ s.pipe = .start :: pipe)
    (hqueued : s.socket.queued = []) :
    Secured soi { s with
      pipe := pipe
      broken := broken
      socket := s.socket.freeWbLists
      poller := .closing s.socket.queued } b := by
  obtain ⟨hhigh, hlow⟩ := append_eq_nil_iff.mp hqueued
  refine h.mono (refl _) rfl ?_ ?_
  · simp [waiting, pending, dwBuffer, freeWbLists, WbList.empty, hhigh, hlow]
  · rw [piped, ← packets_of_start hpipe]
    exact refl _

/-- The socket is closed, and the byte is neither in the pipe nor in the direct-write buffer. -/
theorem wire_of_closed (hqueued : s.socket.queued = []) (hpipe : b ∉ piped soi s.pipe)
    (hdw : b ∉ (s.socket.dwBuffer soi).flatMap rest) : b ∈ s.wire := by
  obtain ⟨hhigh, hlow⟩ := append_eq_nil_iff.mp hqueued
  rcases h with h | ⟨-, h | ⟨-, h⟩⟩
  · exact h
  · rw [waiting, pending, hhigh, hlow, append_nil, append_nil] at h
    exact absurd h hdw
  · exact absurd h hpipe

end Secured

/-- A byte of a packet for which 0 was returned is not in a pipe without such packets. -/
theorem not_mem_piped {p : Packet (SendTag Tid)} (hp : p ∈ s.kept) (hb : b ∈ p.bytes soi)
    (h : ∀ q ∈ s.pipe.filterMap packet?, s.NotKept q) : b ∉ piped soi s.pipe := by
  intro hmem
  obtain ⟨q, hq, htag⟩ := exists_packet_of_mem_piped hmem
  rw [fst_of_mem_span hb] at htag
  exact h q hq (htag ▸ mem_map_of_mem hp)

theorem not_mem_dwBuffer {p : Packet (SendTag Tid)} (hp : p ∈ s.kept) (hb : b ∈ p.bytes soi)
    (h : ∀ q offset, s.socket.dw = some (q, offset) → s.NotKept q) :
    b ∉ (s.socket.dwBuffer soi).flatMap rest := by
  intro hmem
  rw [dwBuffer] at hmem
  split at hmem
  next => cases hmem
  next q offset hdw =>
    rw [flatMap_singleton] at hmem
    have htag := (fst_of_mem_span hmem).symm
    rw [fst_of_mem_span hb] at htag
    exact h q offset hdw (htag ▸ mem_map_of_mem hp)

namespace CloseInv

variable [DecidableEq Tid]

theorem covered_change (h : s.CloseInv soi) (hchange : Change soi s a s') :
    s'.covered ⊆ s'.kept := by
  cases hchange with
  | direct | directUdp | postSend => exact List.Subset.trans h.covered (kept_subset_keeps _)
  | post _ _ _ hcovered =>
    intro p hp
    rcases mem_append.mp (hcovered hp) with hold | hnew
    · exact h.covered hold
    · exact hnew
  | _ => exact h.covered

/-- 0 is returned for a packet while the socket is connected only. -/
theorem connected_change (h : s.CloseInv soi) (hchange : Change soi s a s')
    (hkept : s'.kept ≠ []) : s'.Connected := by
  have hkeeps : ∀ {p}, s.keeps p ≠ [] → s.Connected := by
    intro p hne
    obtain ⟨q, hq⟩ := exists_mem_of_ne_nil _ hne
    rcases mem_keeps hq with hold | ⟨-, htype⟩
    · exact h.connected (ne_nil_of_mem hold)
    · exact .inl htype
  have hold : s.Connected := by
    cases hchange with
    | direct | directUdp | postSend => exact hkeeps hkept
    | _ => exact h.connected hkept
  exact hold.change h.inv hchange

omit [DecidableEq Tid] in
/-- A socket on which 0 was returned for a packet is not waiting to be connected. -/
theorem not_retyped (h : s.CloseInv soi) {p : Packet (SendTag Tid)} (hp : p ∈ s.kept)
    {x : Socket (SendTag Tid)} : ¬ x.Retyped s.socket := by
  intro hx
  rcases h.connected (ne_nil_of_mem hp) with htype | htype | htype <;>
    simp [Socket.Retyped, htype] at hx

omit [DecidableEq Tid] in
theorem waiting_direct (h : s.CloseInv soi) {t : Tid} {p : Packet (SendTag Tid)}
    (ht : s.worker t = .writing p none) {n : ℕ} (hn : n ≤ (p.object soi).sz)
    {x : Socket (SendTag Tid)}
    (hx : n = (p.object soi).sz ∧ x = s.socket ∨
      n < (p.object soi).sz ∧ x = { s.socket with dw := some (p, n), wantWrite := true }) :
    waiting soi s.socket ⊆ waiting soi x ∧
      ∀ b ∈ p.bytes soi, b ∈ (p.bytes soi).take n ∨ b ∈ waiting soi x := by
  have hdw := h.locking.dw t (by rw [ht]; trivial)
  rcases hx with ⟨hall, rfl⟩ | ⟨-, rfl⟩
  · refine ⟨refl _, fun b hb => .inl ?_⟩
    rwa [take_of_length_le (by simp [Packet.bytes, hall])]
  · refine ⟨fun b hb => ?_, fun b hb => ?_⟩
    · rw [waiting, pending_of_dw hdw] at hb
      exact mem_append_right _ hb
    · rw [← take_append_rest_ofPacket p none hn] at hb
      exact (mem_append.mp hb).imp_right (mem_append_left _)

theorem secured_change (h : s.CloseInv soi) (hguard : s.SafeClose a)
    (hchange : Change soi s a s') (hbroken : s'.broken = false) :
    ∀ p ∈ s'.kept, ∀ b ∈ p.bytes soi, s'.Secured soi b := by
  cases hchange with
  | @direct t r p n datagrams x ht hn hx =>
    obtain ⟨hwaiting, hnew⟩ := h.waiting_direct ht hn hx
    have htype : x.type = s.socket.type := by
      rcases hx with ⟨-, rfl⟩ | ⟨-, rfl⟩ <;> rfl
    intro q hq b hb
    rcases mem_keeps hq with hold | ⟨rfl, hconnected⟩
    · refine (h.secured hbroken q hold b hb).mono ?_ htype hwaiting (refl _)
      change s.wire ⊆ if s.socket.protocol = .tcp then _ else _
      rw [if_pos h.tcp]
      exact subset_append_left ..
    · rcases hnew b hb with hb | hb
      · refine .inl ?_
        change b ∈ if s.socket.protocol = .tcp then _ else _
        rw [if_pos h.tcp]
        exact mem_append_right _ hb
      · exact .inr ⟨by simp [goto, htype, hconnected], .inl hb⟩
  | directUdp ht =>
    have haddress := h.locking.address h.tcp
    have hnone := ht ▸ haddress _
    cases hnone
  | postSend ht =>
    intro q hq b hb
    rcases mem_keeps hq with hold | ⟨rfl, hconnected⟩
    · refine (h.secured hbroken q hold b hb).mono (refl _) rfl (refl _) ?_
      rw [goto, piped_concat]
      exact subset_append_left ..
    · refine .inr ⟨by simp [goto, hconnected], .inr ⟨by simp [goto, hconnected], ?_⟩⟩
      rw [goto, piped_concat]
      exact mem_append_right _ hb
  | post hc =>
    intro q hq b hb
    refine (h.secured hbroken q hq b hb).mono (refl _) rfl (refl _) ?_
    rw [goto, piped, piped, filterMap_append, flatMap_append]
    exact subset_append_left ..
  | opened _ hpipe =>
    rcases h.inv.opening with hres | ⟨-, hopen⟩
    · intro q hq
      rcases h.connected (ne_nil_of_mem hq) with htype | htype | htype <;>
        · rw [hres.type] at htype
          cases htype
    · exact absurd (by simp [hpipe]) hopen
  | queue _ hpipe hx =>
    intro q hq b hb
    exact (h.secured hbroken q hq b hb).queue (h.connected (ne_nil_of_mem hq)) h.tcp hpipe hx _
  | pop _ hpipe hc _ hx hretyped =>
    intro q hq b hb
    have htype := hretyped.resolve_right (h.not_retyped hq)
    refine (h.secured hbroken q hq b hb).mono (refl _) htype ?_ ?_
    · rw [waiting_congr hx.dw hx.high hx.low]
      exact refl _
    · rw [piped, piped, packets_of_pop hpipe hc]
      exact refl _
  | closeCmd _ hpipe =>
    intro q hq b hb
    refine (h.secured hbroken q hq b hb).mono (refl _) rfl (refl _) ?_
    rw [piped, piped, packets_of_pop hpipe rfl]
    exact refl _
  | flush _ _ _ hflushing hf =>
    exact fun q hq b hb => (h.secured hbroken q hq b hb).flush h.tcp hflushing hf
  | flushClosed _ _ _ _ hf =>
    obtain ⟨hbroken', hfailed⟩ := Bool.or_eq_false_iff.mp hbroken
    exact fun q hq b hb => (h.secured hbroken' q hq b hb).flushClosed h.tcp hf hfailed
  | halfclose hpoller hqueued =>
    intro q hq b hb
    refine (h.secured hbroken q hq b hb).halfclose (not_mem_piped hq hb ?_) _
    refine hguard.1 rfl hpoller ?_
    rw [Bool.eq_false_iff]
    intro hempty
    exact hqueued (by simp [queued, sendBufferEmpty_iff.mp hempty])
  | forceClose _ hopen hpipe hwhy =>
    intro q hq b hb
    rcases hwhy with rfl | ⟨rfl, ⟨-, hqueued⟩ | ⟨hconnected, hhalf⟩⟩
    · cases hbroken
    · exact (h.secured hbroken q hq b hb).forceClose hpipe hqueued
    · rcases h.connected (ne_nil_of_mem hq) with htype | htype | htype
      · exact absurd htype hconnected
      · exact absurd htype hhalf
      · exact absurd htype hopen.1
  | connected _ _ hretyped => exact fun q hq => absurd hretyped (h.not_retyped hq)
  | closed hpoller =>
    intro q hq b hb
    obtain ⟨hpipe, hdw⟩ := hguard.2 rfl hbroken
    exact .inl ((h.secured hbroken q hq b hb).wire_of_closed (h.inv.closing ⟨_, hpoller⟩)
      (not_mem_piped hq hb hpipe) (not_mem_dwBuffer hq hb hdw))
  | _ => exact h.secured hbroken

theorem step (h : s.CloseInv soi) (hguard : s.SafeClose a) (hstep : s.step soi a = .ok s') :
    s'.CloseInv soi := by
  have hchange := h.inv.change hstep
  exact ⟨h.inv.of_change hchange, h.locking.of_change hchange,
    (protocol_change hchange).trans h.tcp, h.covered_change hchange, h.connected_change hchange,
    h.secured_change hguard hchange⟩

end CloseInv

theorem closeInv_init (soi : SocketObjectInterface) : (init Tid .tcp).CloseInv soi where
  inv := inv_init soi .tcp
  locking := locking_init soi .tcp
  tcp := rfl
  covered := refl _
  connected h := absurd rfl h
  secured _ p hp := by cases hp

/-- A packet is written directly in part; another one makes the socket half closed, and the write
event closes it. -/
def halfcloseRun : List (SocketAct ℕ) :=
  [.command ⟨some .connected, [], true⟩, .send 0 1000 4, .run 0 .again, .run 0 .again,
    .run 0 .again, .run 0 (.wrote 3), .send 0 2000 4, .run 0 .again, .run 0 .again,
    .command ⟨none, [], true⟩, .close 0 false, .command ⟨none, [.again], true⟩, .decide,
    .writeEvent [.wrote 1, .wrote 4]]

theorem safeClose_of_quiet (h : s.pipe.filterMap packet? = [] ∧ s.socket.dw = none ∨
    a ≠ .decide ∧ a ≠ .closed) : s.SafeClose a := by
  rcases h with ⟨hpipe, hdw⟩ | ⟨hdecide, hclosed⟩
  · exact ⟨by simp [hpipe], by simp [hpipe, hdw]⟩
  · exact ⟨fun h => absurd h hdecide, fun h => absurd h hclosed⟩

/-- Three of four bytes are written directly, and the socket is closed. -/
def closeRun : List (SocketAct ℕ) :=
  [.command ⟨some .connected, [], true⟩, .send 0 1000 4, .run 0 .again, .run 0 .again,
    .run 0 .again, .run 0 (.wrote 3), .close 0 false, .command ⟨none, [], true⟩, .decide, .closed]

end SocketServer

end Uboss.Core
