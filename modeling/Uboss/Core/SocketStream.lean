import Uboss.Core.SocketCalls

/-!
# The byte stream of a TCP socket

Partial writes happen on three paths: directly by a worker, from the high list and from the
low list. In every run the half written packet is the next one that is written, except that
`force_close` frees it before it takes the lock; a worker that then still writes directly
splices its packet into it.
-/

namespace Uboss.Core

open Math List Socket WriteBuffer Command

namespace SocketServer

variable {Tid : Type} {soi : SocketObjectInterface} {s s' : SocketServer Tid} {a : SocketAct Tid}
  {ps : List (Packet (SendTag Tid))}

/-- The packets that wait to be written. -/
def placed (soi : SocketObjectInterface) (s : SocketServer Tid) : List (Packet (SendTag Tid)) :=
  (s.socket.pending soi).map (·.packet) ++ s.socket.low.chain.map (·.packet) ++
    s.pipe.filterMap packet?

/-- The bytes written so far are the packets `ps` and what was written of the next one. -/
structure Streaming (soi : SocketObjectInterface) (s : SocketServer Tid)
    (ps : List (Packet (SendTag Tid))) : Prop where
  placed : Placed s.calls s.worker (ps ++ s.placed soi)
  framed : Framed rest packet (Packet.bytes soi) s.wire ps
    (s.socket.pending soi)

/-- `force_close` has freed a half written packet and still waits for the lock. -/
def Torn (soi : SocketObjectInterface) (s : SocketServer Tid) : Prop :=
  ∃ freed, s.poller = .closing freed ∧ ∃ wb ∈ freed, ¬ wb.Unsent soi

/-- The byte stream is a concatenation of whole packets that were given to the send functions,
each at most once, followed by at most one prefix of another packet. -/
def Unspliced (soi : SocketObjectInterface) (s : SocketServer Tid) : Prop :=
  ∃ ps : List (Packet (SendTag Tid)), (ps.map (·.tag)).Nodup ∧ (∀ p ∈ ps, p ∈ s.calls) ∧
    (s.wire = ps.flatMap (Packet.bytes soi) ∨ ∃ q ∈ s.calls, q.tag ∉ ps.map (·.tag) ∧
        ∃ part, part <+: q.bytes soi ∧ s.wire = ps.flatMap (Packet.bytes soi) ++ part)

/-- Nothing is written any more. -/
structure Stopped (soi : SocketObjectInterface) (s : SocketServer Tid) : Prop where
  dead : s.socket.type = .invalid ∨ s.Torn soi
  writes : ∀ t, ¬ (s.worker t).Writes
  unspliced : s.Unspliced soi

/-- The invariant of the stream. -/
structure StreamInv (soi : SocketObjectInterface) (s : SocketServer Tid) : Prop where
  inv : s.Inv soi
  locking : s.Locking soi
  calls : s.Calls
  tcp : s.socket.protocol = .tcp
  stream : (∃ ps, s.Streaming soi ps) ∨ s.Stopped soi

theorem Unspliced.mono (h : s.Unspliced soi) (hwire : s'.wire = s.wire)
    (hcalls : s.calls ⊆ s'.calls) : s'.Unspliced soi := by
  obtain ⟨ps, hnodup, hmem, hw⟩ := h
  refine ⟨ps, hnodup, fun p hp => hcalls (hmem p hp), ?_⟩
  rw [hwire]
  rcases hw with hw | ⟨q, hq, htag, hpart⟩
  · exact .inl hw
  · exact .inr ⟨q, hcalls hq, htag, hpart⟩

/-- A framed stream, with the queue `l` next, consists of whole packets and at most one part. -/
theorem unspliced_of_framed {l : List (WriteBuffer (SendTag Tid))} {r : List (Packet (SendTag Tid))}
    (hplaced : Placed s.calls s.worker (ps ++ l.map (·.packet) ++ r))
    (hframed : Framed rest packet (Packet.bytes soi) s.wire ps l) :
    s.Unspliced soi := by
  have hnodup := hplaced.nodup
  rw [append_assoc, map_append, nodup_append] at hnodup
  refine ⟨ps, hnodup.1, fun p hp => hplaced.mem p (by simp [hp]), ?_⟩
  rcases hframed.exists_prefix with hwire | ⟨wb, hwb, part, hpart, hwire⟩
  · exact .inl hwire
  · have hmem : wb.packet ∈ l.map (·.packet) := mem_map_of_mem (mem_of_mem_head? hwb)
    refine .inr ⟨wb.packet, hplaced.mem _ (by simp [hmem]), fun htag => ?_, part, hpart, hwire⟩
    exact hnodup.2.2 _ htag wb.packet.tag (mem_map_of_mem (mem_append_left _ hmem)) rfl

theorem Streaming.unspliced (h : s.Streaming soi ps) : s.Unspliced soi := by
  have hplaced := h.placed
  rw [SocketServer.placed, append_assoc, ← append_assoc] at hplaced
  exact unspliced_of_framed hplaced h.framed

theorem StreamInv.unspliced (h : s.StreamInv soi) : s.Unspliced soi := by
  rcases h.stream with ⟨ps, hstream⟩ | hstopped
  · exact hstream.unspliced
  · exact hstopped.unspliced

theorem Streaming.mono (h : s.Streaming soi ps) (hcalls : s'.calls = s.calls)
    (hworker : ∀ t p, (s'.worker t).packet? = some p → (s.worker t).packet? = some p)
    (hwire : s'.wire = s.wire) (hpending : s'.socket.pending soi = s.socket.pending soi)
    (hplaced : (s'.placed soi).Subperm (s.placed soi)) : s'.Streaming soi ps where
  placed := by
    rw [hcalls]
    exact h.placed.mono ((subperm_append_left ps).mpr hplaced) hworker
  framed := by
    rw [hwire, hpending]
    exact h.framed

section Change

variable {t : Tid} {p : Packet (SendTag Tid)}

variable {pipe : List (Command Tid)} {f : Flush (SendTag Tid)}

variable {l : List (WriteBuffer (SendTag Tid))} {priority : Priority} {address : Option UdpAddress}
  {x : Socket (SendTag Tid)}

theorem fresh_of_unsent (h : ∀ wb ∈ l, wb.Unsent soi) : Fresh rest packet (Packet.bytes soi) l :=
  fun wb hwb => (h wb hwb).rest_eq

theorem placed_subperm (hdw : s'.socket.dw = s.socket.dw) (hhigh : s'.socket.high = s.socket.high)
    (hlow : s'.socket.low = s.socket.low)
    (hpipe : (s'.pipe.filterMap packet?).Sublist (s.pipe.filterMap packet?)) :
    (s'.placed soi).Subperm (s.placed soi) := by
  rw [SocketServer.placed, SocketServer.placed, pending_congr hdw hhigh, hlow]
  exact (subperm_append_left _).mpr hpipe.subperm

theorem sublist_of_pop {c : Command Tid} (hpipe : s.pipe = c :: pipe) :
    (pipe.filterMap packet?).Sublist (s.pipe.filterMap packet?) := by
  rw [hpipe]
  exact List.Sublist.filterMap _ (sublist_cons_self ..)

theorem Streaming.queue (h : s.Streaming soi ps) (hpipe : s.pipe = .send p priority address :: pipe)
    (hq : Socket.Queued soi s.socket p priority x) (datagrams : List (Datagram (SendTag Tid))) :
    Streaming soi { s with pipe := pipe, socket := x, datagrams := datagrams } ps := by
  have hold : s.placed soi = (s.socket.pending soi).map (·.packet) ++
      s.socket.low.chain.map (·.packet) ++ p :: pipe.filterMap packet? := by
    rw [SocketServer.placed, hpipe]
    rfl
  obtain ⟨wb, rfl, hunsent, -, ⟨hhigh, hlow⟩ | ⟨-, hlow, hhigh⟩⟩ := hq.lists
  · have hpending : x.pending soi = s.socket.pending soi ++ [wb] := by
      simp [pending, dwBuffer, hq.same.dw, hhigh]
    refine ⟨h.placed.mono (List.Perm.subperm ?_) fun _ _ => id, ?_⟩
    · refine List.Perm.append_left ps ?_
      change ((x.pending soi).map _ ++ x.low.chain.map _ ++ _).Perm _
      rw [hold, hpending, hlow, map_append, append_assoc, append_assoc, append_assoc]
      refine List.Perm.append_left _ ?_
      change (wb.packet :: (_ ++ pipe.filterMap packet?)).Perm _
      exact perm_middle.symm
    · change Framed _ _ _ s.wire ps (x.pending soi)
      rw [hpending]
      exact h.framed.append_fresh (fresh_of_unsent (by simpa using hunsent))
  · have hpending : x.pending soi = s.socket.pending soi := pending_congr hq.same.dw hhigh
    refine ⟨h.placed.mono (List.Perm.subperm ?_) fun _ _ => id, ?_⟩
    · refine List.Perm.append_left ps (.of_eq ?_)
      change (x.pending soi).map _ ++ x.low.chain.map _ ++ _ = _
      rw [hold, hpending, hlow]
      simp
    · change Framed _ _ _ s.wire ps (x.pending soi)
      rw [hpending]
      exact h.framed

theorem Streaming.sent (h : s.Streaming soi ps) (hinv : s.Inv soi) (htcp : s.socket.protocol = .tcp)
    (hsent : (s.socket.mergeDw soi).SentFrom f l) :
    ∃ passed, (s.socket.pending soi).map (·.packet) ++ s.socket.low.chain.map (·.packet) =
        passed ++ l.map (·.packet) ∧
      Framed rest packet (Packet.bytes soi) (s.wire ++ f.written) (ps ++ passed) l := by
  have hframed := h.framed.append_fresh (fresh_of_unsent hinv.socket.low_unsent)
  obtain ⟨passed, hpassed, hframed'⟩ := hframed.advance (hsent.of_tcp htcp)
  exact ⟨passed, by rw [← map_append]; exact hpassed, hframed'⟩

theorem Streaming.flush (h : s.Streaming soi ps) (hinv : s.Inv soi)
    (htcp : s.socket.protocol = .tcp) {poller : Poller Tid} (hflushing : s.Flushing pipe poller)
    (hf : (s.socket.mergeDw soi).Flushed f) :
    ∃ ps', Streaming soi { s with
      pipe := pipe
      poller := poller
      socket := f.socket
      wire := s.wire ++ f.written
      datagrams := s.datagrams ++ f.datagrams } ps' := by
  obtain ⟨passed, hpassed, hframed⟩ := h.sent hinv htcp hf.sent
  have hpipe := hflushing.packets
  have hpending : f.socket.pending soi = f.socket.high.chain :=
    pending_of_dw (hf.dw.trans (merged_mergeDw soi s.socket).dw)
  refine ⟨ps ++ passed, ?_, ?_⟩
  · have hplaced := h.placed
    rw [SocketServer.placed, hpassed] at hplaced
    change Placed s.calls s.worker (ps ++ passed ++
      ((f.socket.pending soi).map _ ++ f.socket.low.chain.map _ ++ _))
    rw [hpending, hpipe, ← map_append]
    simpa [queued] using hplaced
  · change Framed _ _ _ (s.wire ++ f.written) (ps ++ passed) (f.socket.pending soi)
    rw [hpending]
    exact hframed.of_append hf.low_of_high

theorem Streaming.flushClosed (h : s.Streaming soi ps) (hinv : s.Inv soi) (hlocking : s.Locking soi)
    (htcp : s.socket.protocol = .tcp) (hlock : s.lock = none)
    (hf : (s.socket.mergeDw soi).FlushClosed f) :
    Stopped soi { s with
      pipe := pipe
      socket := f.socket
      wire := s.wire ++ f.written
      datagrams := s.datagrams ++ f.datagrams
      broken := s.broken || f.failed } := by
  obtain ⟨l, hsent, -⟩ := hf.sent
  obtain ⟨passed, hpassed, hframed⟩ := h.sent hinv htcp hsent
  refine ⟨.inl hf.socket.1, hlocking.not_writes_of_lock hlock, ?_⟩
  have hplaced := h.placed
  rw [SocketServer.placed, hpassed, ← append_assoc, ← append_assoc] at hplaced
  exact unspliced_of_framed hplaced hframed

/-- `force_close` frees the lists: either a half written packet is lost, or the stream ends
between two packets or in the direct-write buffer. -/
theorem Streaming.forceClose (h : s.Streaming soi ps) (hinv : s.Inv soi) (hlocking : s.Locking soi)
    {broken : Bool} (hpipe : pipe = s.pipe ∨ s.pipe = .start :: pipe) :
    (∃ ps', Streaming soi { s with
      pipe := pipe
      broken := broken
      socket := s.socket.freeWbLists
      poller := .closing s.socket.queued } ps') ∨
    Stopped soi { s with
      pipe := pipe
      broken := broken
      socket := s.socket.freeWbLists
      poller := .closing s.socket.queued } := by
  by_cases htorn : ∃ wb ∈ s.socket.queued, ¬ wb.Unsent soi
  · obtain ⟨wb, hwb, hsent⟩ := htorn
    refine .inr ⟨.inr ⟨_, rfl, wb, hwb, hsent⟩, fun t hwrites => ?_, h.unspliced.mono rfl
      (List.Subset.refl _)⟩
    rcases mem_append.mp hwb with hhigh | hlow
    · exact hsent (hlocking.high t hwrites wb hhigh)
    · exact hsent (hinv.socket.low_unsent wb hlow)
  · have hunsent : ∀ wb ∈ s.socket.high.chain, wb.Unsent soi := fun wb hwb =>
      not_not.mp fun hsent => htorn ⟨wb, mem_append_left _ hwb, hsent⟩
    have hpending : s.socket.freeWbLists.pending soi = s.socket.dwBuffer soi := by
      simp [pending, freeWbLists, WbList.empty, dwBuffer]
    refine .inl ⟨ps, h.placed.mono ((subperm_append_left ps).mpr ?_) fun _ _ => id, ?_⟩
    · change ((s.socket.freeWbLists.pending soi).map _ ++ [] ++ pipe.filterMap _).Subperm
        (((s.socket.dwBuffer soi) ++ s.socket.high.chain).map _ ++ _ ++ _)
      rw [hpending, append_nil, map_append, append_assoc, append_assoc]
      refine (subperm_append_left _).mpr ?_
      rw [packets_of_start hpipe, ← append_assoc]
      exact (sublist_append_right ..).subperm
    · change Framed _ _ _ s.wire ps (s.socket.freeWbLists.pending soi)
      rw [hpending]
      by_cases hnil : s.socket.dwBuffer soi = []
      · have hframed := h.framed
        rw [pending, hnil, nil_append] at hframed
        rw [hnil]
        exact hframed.eq_of_fresh (fresh_of_unsent hunsent)
      · exact Framed.of_append h.framed fun h => absurd h hnil

theorem Torn.poller_ne (h : s.Torn soi) :
    s.poller ≠ .idle ∧ ∀ shutdown, s.poller ≠ .deciding shutdown := by
  obtain ⟨freed, hpoller, -⟩ := h
  simp [hpoller]

theorem Stopped.mono (h : s.Stopped soi) (htype : s'.socket.type = s.socket.type)
    (hpoller : s'.poller = s.poller) (hwrites : ∀ u, (s'.worker u).Writes → (s.worker u).Writes)
    (hwire : s'.wire = s.wire) (hcalls : s.calls ⊆ s'.calls) : s'.Stopped soi := by
  refine ⟨?_, fun u hu => h.writes u (hwrites u hu), h.unspliced.mono hwire hcalls⟩
  rw [htype, Torn, hpoller]
  exact h.dead

theorem streamInv_init (soi : SocketObjectInterface) : (init Tid .tcp).StreamInv soi where
  inv := inv_init soi .tcp
  locking := locking_init soi .tcp
  calls := calls_init .tcp
  tcp := rfl
  stream := by
    have hnil : (init Tid .tcp).placed soi = [] := rfl
    refine .inl ⟨[], ⟨?_, ?_, ?_⟩, rfl⟩ <;> simp [hnil]

variable [DecidableEq Tid]

theorem Streaming.enter (h : s.Streaming soi ps) (hcalls : s.Calls) {w : Worker Tid}
    (hentered : s.Entered t p w) :
    (goto { s with calls := s.calls ++ [p] } t w).Streaming soi ps :=
  ⟨h.placed.enter (hcalls.not_mem_of_serial hentered.serial) hentered.packet?, h.framed⟩

theorem Streaming.post (h : s.Streaming soi ps) (hcalls : s.Calls)
    (ht : s.worker t = .posting (.send p priority address)) :
    (goto { s with
      pipe := s.pipe ++ [.send p priority address]
      kept := s.keeps p } t .idle).Streaming soi ps := by
  refine ⟨h.placed.take hcalls.carried (by rw [ht]; rfl) rfl ?_, h.framed⟩
  change (ps ++ ((s.socket.pending soi).map _ ++ s.socket.low.chain.map _ ++
    (s.pipe ++ [_]).filterMap packet?)).Perm (p :: (ps ++ (_ ++ _ ++ _)))
  rw [filterMap_append]
  exact .trans (.of_eq (by simp [packet?])) (perm_append_singleton p _)

theorem Streaming.direct (h : s.Streaming soi ps) (hlocking : s.Locking soi) (hcalls : s.Calls)
    (htcp : s.socket.protocol = .tcp) (ht : s.worker t = .writing p none) {n : ℕ}
    (hn : n ≤ (p.object soi).sz) {datagrams : List (Datagram (SendTag Tid))}
    (hx : n = (p.object soi).sz ∧ x = s.socket ∨
      n < (p.object soi).sz ∧ x = { s.socket with dw := some (p, n), wantWrite := true }) :
    ∃ ps', (goto { s with
      socket := x
      lock := none
      wire := if s.socket.protocol = .tcp then s.wire ++ (p.bytes soi).take n else s.wire
      datagrams := datagrams
      kept := s.keeps p } t .idle).Streaming soi ps' := by
  have hwrites : (s.worker t).Writes := by rw [ht]; trivial
  have hdw := hlocking.dw t hwrites
  have hfresh := fresh_of_unsent (hlocking.high t hwrites)
  have hcarried : (s.worker t).packet? = some p := by rw [ht]; rfl
  have hframed := h.framed
  rw [pending_of_dw hdw] at hframed
  -- the lists are untouched, so the stream ends between two packets
  have hwire := hframed.eq_of_fresh hfresh
  have hplaced : s.placed soi = s.socket.high.chain.map (·.packet) ++
      s.socket.low.chain.map (·.packet) ++ s.pipe.filterMap packet? := by
    rw [SocketServer.placed, pending_of_dw hdw]
  rcases hx with ⟨hall, rfl⟩ | ⟨hlt, rfl⟩
  · refine ⟨ps ++ [p], ?_, ?_⟩
    · refine h.placed.take hcalls.carried hcarried rfl ?_
      exact .trans (.of_eq (append_assoc ..)) perm_middle
    · change Framed _ _ _ (if s.socket.protocol = .tcp then _ else _) _ (s.socket.pending soi)
      rw [if_pos htcp, pending_of_dw hdw]
      refine Framed.of_fresh ?_ hfresh
      have hbytes : (p.bytes soi).take n = p.bytes soi :=
        take_of_length_le (by simp [Packet.bytes, hall])
      simp [hwire, hbytes]
  · refine ⟨ps, ?_, ?_⟩
    · refine h.placed.take hcalls.carried hcarried rfl ?_
      rw [hplaced]
      exact perm_middle
    · change Framed _ _ _ (if s.socket.protocol = .tcp then _ else _) _
        (ofPacket soi p n none :: s.socket.high.chain)
      rw [if_pos htcp, hwire]
      exact ⟨⟨_, rfl, take_append_rest_ofPacket p none hn⟩, hfresh⟩

theorem Streaming.change (h : s.Streaming soi ps) (hinv : s.Inv soi) (hlocking : s.Locking soi)
    (hcalls : s.Calls) (htcp : s.socket.protocol = .tcp) (hchange : Change soi s a s') :
    (∃ ps', s'.Streaming soi ps') ∨ s'.Stopped soi := by
  rcases carried_change hchange with ⟨hsame, hworker⟩ | ⟨t, p, w, -, hentered, rfl⟩
  swap
  · exact .inl ⟨ps, h.enter hcalls hentered⟩
  cases hchange with
  | stay => exact .inl ⟨ps, h⟩
  | enter => simp [goto] at hsame
  | direct ht hn hx => exact .inl (h.direct hlocking hcalls htcp ht hn hx)
  | directUdp ht =>
    have haddress := hlocking.address htcp
    have hnone := ht ▸ haddress _
    cases hnone
  | postSend ht => exact .inl ⟨ps, h.post hcalls ht⟩
  | post hc =>
    refine .inl ⟨ps, h.mono rfl hworker rfl rfl (placed_subperm rfl rfl rfl ?_)⟩
    change ((s.pipe ++ [_]).filterMap _).Sublist _
    simp [filterMap_append, hc]
  | udpConnect => exact .inl ⟨ps, h.mono rfl hworker rfl rfl (.refl _)⟩
  | opened _ hpipe _ _ hhigh hlow _ _ hdw =>
    rcases hinv.opening with hres | ⟨-, hopen⟩
    · have hdw' := hdw.elim (fun h => h.trans hres.dw.symm) id
      exact .inl ⟨ps, h.mono rfl hworker rfl (pending_congr hdw' hhigh)
        (placed_subperm hdw' hhigh hlow (sublist_of_pop hpipe))⟩
    · exact absurd (by simp [hpipe]) hopen
  | queue _ hpipe hx =>
    rcases hx with ⟨rfl, -⟩ | ⟨-, hq⟩
    · exact .inl ⟨ps, h.mono rfl hworker rfl rfl
        (placed_subperm rfl rfl rfl (sublist_of_pop hpipe))⟩
    · exact .inl ⟨ps, h.queue hpipe hq _⟩
  | pop _ hpipe _ _ hx =>
    exact .inl ⟨ps, h.mono rfl hworker rfl (pending_congr hx.dw hx.high)
      (placed_subperm hx.dw hx.high hx.low (sublist_of_pop hpipe))⟩
  | closeCmd _ hpipe =>
    exact .inl ⟨ps, h.mono rfl hworker rfl rfl (placed_subperm rfl rfl rfl (sublist_of_pop hpipe))⟩
  | flush _ _ _ hflushing hf => exact .inl (h.flush hinv htcp hflushing hf)
  | flushClosed _ hlock _ _ hf => exact .inr (h.flushClosed hinv hlocking htcp hlock hf)
  | forceClose _ _ hpipe => exact h.forceClose hinv hlocking hpipe
  | connected _ hx =>
    exact .inl ⟨ps, h.mono rfl hworker rfl (pending_congr hx.dw hx.high)
      (placed_subperm hx.dw hx.high hx.low (.refl _))⟩
  | closed _ hlock =>
    exact .inr ⟨.inl rfl, hlocking.not_writes_of_lock hlock,
      h.unspliced.mono rfl (List.Subset.refl _)⟩
  | _ => exact .inl ⟨ps, h.mono rfl hworker rfl rfl (.refl _)⟩

/-- The condition on a step: the second test of `can_direct_write` does not pass while
`force_close` has freed a half written packet and still waits for the lock. -/
def SafeRecheck (soi : SocketObjectInterface) (s : SocketServer Tid) (a : SocketAct Tid) : Prop :=
  ∀ t r p b, a = .run t r → s.worker t = .locked p b → s.socket.canDirectWrite = true → ¬ s.Torn soi

/-- The socket thread does nothing more with a stopped stream than to close the socket. -/
theorem Stopped.change (h : s.Stopped soi) (hinv : s.Inv soi) (hguard : s.SafeRecheck soi a)
    (hchange : Change soi s a s') : s'.Stopped soi := by
  have hclosed : s.poller = .idle → s.socket.type = .invalid := fun hpoller =>
    h.dead.resolve_right fun htorn => htorn.poller_ne.1 hpoller
  have hsub := List.Subset.refl s.calls
  cases hchange with
  | stay => exact h
  | enter _ _ hentered =>
    refine h.mono rfl rfl (fun u hu => Locking.writes_update ?_ hu) rfl (subset_append_left ..)
    rcases hentered.next with ⟨b, rfl, -⟩ | rfl <;> exact id
  | test | refuse | lock | unlock =>
    exact h.mono rfl rfl (fun u hu => Locking.writes_update id hu) rfl hsub
  | recheck ht hcan =>
    rcases h.dead with hinvalid | htorn
    · rw [(canDirectWrite_iff.mp hcan).2.1] at hinvalid
      cases hinvalid
    · exact absurd htorn (hguard _ _ _ _ rfl ht hcan)
  | direct ht => exact absurd (by rw [ht]; trivial) (h.writes _)
  | directUdp ht => exact absurd (by rw [ht]; trivial) (h.writes _)
  | postSend | post => exact h.mono rfl rfl (fun u hu => Locking.writes_update id hu) rfl hsub
  | udpConnect _ hw =>
    refine h.mono rfl rfl (fun u hu => Locking.writes_update ?_ hu) rfl hsub
    rcases hw with rfl | ⟨b, rfl⟩ <;> exact id
  | opened hpoller hpipe =>
    rcases hinv.opening with hres | ⟨-, hopen⟩
    · exact absurd (hclosed hpoller) (by simp [hres.type])
    · exact absurd (by simp [hpipe]) hopen
  | queue hpoller _ hx =>
    rcases hx with ⟨rfl, -⟩ | ⟨hdrops, -⟩
    · exact h.mono rfl rfl (fun _ => id) rfl hsub
    · exact absurd (.inl (hclosed hpoller)) hdrops
  | pop hpoller _ _ _ _ hx =>
    rcases hx with htype | hretyped
    · exact h.mono htype rfl (fun _ => id) rfl hsub
    · simp [Socket.Retyped, hclosed hpoller] at hretyped
  | closeCmd hpoller _ htype => exact absurd (hclosed hpoller) htype
  | flush hpoller _ hopen => exact absurd (hclosed hpoller) hopen.1
  | flushClosed hpoller _ hopen => exact absurd (hclosed hpoller) hopen.1
  | halfclose hpoller =>
    rcases h.dead with hinvalid | htorn
    · exact absurd hinvalid (hinv.deciding _ hpoller)
    · exact absurd hpoller (htorn.poller_ne.2 _)
  | forceClose hclosing hopen =>
    rcases h.dead with hinvalid | ⟨freed, hpoller, -⟩
    · exact absurd hinvalid hopen.1
    · exact absurd ⟨freed, hpoller⟩ hclosing
  | connected hpoller _ hretyped => simp [Socket.Retyped, hclosed hpoller] at hretyped
  | reported hpoller =>
    refine ⟨.inl (h.dead.resolve_right ?_), h.writes, h.unspliced.mono rfl hsub⟩
    rintro ⟨freed, hfreed, -⟩
    exact not_closing_of_reporting hpoller ⟨freed, hfreed⟩
  | closed => exact ⟨.inl rfl, h.writes, h.unspliced.mono rfl hsub⟩

theorem StreamInv.step (h : s.StreamInv soi) (hguard : s.SafeRecheck soi a)
    (hstep : s.step soi a = .ok s') : s'.StreamInv soi := by
  have hchange := h.inv.change hstep
  refine ⟨h.inv.of_change hchange, h.locking.of_change hchange, h.calls.of_change hchange,
    (protocol_change hchange).trans h.tcp, ?_⟩
  rcases h.stream with ⟨ps, hstream⟩ | hstopped
  · exact hstream.change h.inv h.locking h.calls h.tcp hchange
  · exact .inr (hstopped.change h.inv hguard hchange)

/-- In every run of a TCP socket in which no worker starts a direct write into a torn stream,
the bytes written are whole packets, each at most once, and at most one prefix of a packet. -/
theorem unspliced_of_safeRecheck (soi : SocketObjectInterface) (acts : List (SocketAct Tid))
    (s : SocketServer Tid)
    (hrun : Run (next soi) (SafeRecheck soi) (init Tid .tcp) acts s) : s.Unspliced soi := by
  have hs : s.StreamInv soi := hrun.invariant (streamInv_init soi)
    fun hguard hnext h => h.step hguard (toOption_eq_some_iff.mp hnext)
  exact hs.unspliced

omit [DecidableEq Tid] in
/-- Nothing is torn while the socket thread is not in `force_close`. -/
theorem safeRecheck_of_idle (h : s.poller = .idle) : s.SafeRecheck soi a :=
  fun _ _ _ _ _ _ _ htorn => htorn.poller_ne.1 h

end Change

/-- A worker writes three bytes of its packet directly, and the socket thread the last one. -/
def directPartialRun : List (SocketAct ℕ) :=
  [.command ⟨some .connected, [], true⟩, .send 0 1000 4, .run 0 .again, .run 0 .again,
    .run 0 .again, .run 0 (.wrote 3), .writeEvent [.wrote 1]]

theorem unspliced_direct_partial :
    ∃ s, Run (next noObjects) (SafeRecheck noObjects) (init ℕ .tcp) directPartialRun s ∧
      s.wire.length = 4 ∧ s.Unspliced noObjects := by
  obtain ⟨s, hs⟩ : ∃ s, exec (guarded (next noObjects) fun s _ => s.poller = .idle) (init ℕ .tcp)
      directPartialRun = some s := ⟨_, rfl⟩
  have hrun : Run (next noObjects) (SafeRecheck noObjects) _ _ s :=
    (run_of_exec_guarded hs).mono fun _ _ hidle => safeRecheck_of_idle hidle
  have hlength : (exec (guarded (next noObjects) fun s _ => s.poller = .idle) (init ℕ .tcp)
      directPartialRun).map (fun s => s.wire.length) = some 4 := by decide
  rw [hs, Option.map_some, Option.some_inj] at hlength
  exact ⟨s, hrun, hlength, unspliced_of_safeRecheck noObjects directPartialRun s hrun⟩

/-- A packet is queued and half written, the stream ends, and before `force_close` gets the lock
another worker writes directly. -/
def spliceRun : List (SocketAct ℕ) :=
  [.command ⟨some .connected, [], true⟩, .sendLowpriority 0 1000 4, .run 0 .again,
    .command ⟨none, [], true⟩, .writeEvent [.wrote 1], .hangup,
    .send 1 2000 4, .run 1 .again, .run 1 .again, .run 1 .again, .run 1 (.wrote 4)]

/-- A direct write into a torn stream splices two packets. -/
theorem direct_write_splices :
    ¬ ∀ (soi : SocketObjectInterface) (acts : List (SocketAct ℕ)) (s : SocketServer ℕ),
      Run (next soi) anyAction (init ℕ .tcp) acts s → s.Unspliced soi := by
  intro hclaim
  obtain ⟨s, hs⟩ : ∃ s, exec (next noObjects) (init ℕ .tcp) spliceRun = some s := ⟨_, rfl⟩
  have hwire : (exec (next noObjects) (init ℕ .tcp) spliceRun).map (fun s => (s.wire, s.calls)) =
      some ([(⟨0, 0, false⟩, 1000), (⟨1, 1, true⟩, 2000), (⟨1, 1, true⟩, 2001),
        (⟨1, 1, true⟩, 2002), (⟨1, 1, true⟩, 2003)],
        [⟨⟨0, 0, false⟩, 1000, 4⟩, ⟨⟨1, 1, true⟩, 2000, 4⟩]) := by decide
  rw [hs, Option.map_some, Option.some_inj, Prod.mk.injEq] at hwire
  obtain ⟨hwire, hcalls⟩ := hwire
  obtain ⟨ps, -, hmem, hps⟩ := hclaim noObjects spliceRun s (run_of_exec hs)
  cases ps with
  | nil =>
    -- two packets have written, so the stream is not a part of one
    rcases hps with hnil | ⟨q, -, -, part, hpart, hw⟩
    · rw [hwire] at hnil
      cases hnil
    · rw [List.flatMap_nil, List.nil_append] at hw
      have htag : ∀ b ∈ s.wire, b.1 = q.tag := fun b hb =>
        fst_of_mem_span (hpart.subset (hw ▸ hb))
      rw [hwire] at htag
      have h₀ := htag (⟨0, 0, false⟩, 1000) (by simp)
      have h₁ := htag (⟨1, 1, true⟩, 2000) (by simp)
      rw [← h₁] at h₀
      cases h₀
  | cons x ps =>
    -- the first packet is not whole
    have hprefix : x.bytes noObjects <+: s.wire := by
      rcases hps with hw | ⟨q, -, -, part, -, hw⟩
      · exact ⟨_, hw.symm⟩
      · exact ⟨_, (List.append_assoc ..).symm.trans hw.symm⟩
    have hx := hmem x (by simp)
    rw [hcalls] at hx
    rw [hwire] at hprefix
    simp only [List.mem_cons, List.not_mem_nil, or_false] at hx
    rcases hx with rfl | rfl
    · revert hprefix
      decide
    · revert hprefix
      decide

end SocketServer

end Uboss.Core
