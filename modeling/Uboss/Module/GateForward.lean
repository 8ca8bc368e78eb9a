import Uboss.Module.GateNodes

/-!
# The packets that a gate sends

What `dispatch_message` sends for the chunks of a connection. The connection has a receiver whenever
a chunk of it comes, though not always the same one, and what else the gate does in between plays no
part.
-/

namespace Uboss.Module

open Math Function List

/-! ### The bytes of packets -/

section Frames

variable (headerSize : ℕ)

/-- A packet behind its header. -/
def packetFrame (packet : List UInt8) : List UInt8 :=
  (leBytes headerSize packet.length).reverse ++ packet

/-- The length that a header announces. -/
def announced (stream : List UInt8) : ℕ := leNat (stream.take headerSize).reverse

/-- Part of a packet of less than 16M. -/
def Incomplete (stream : List UInt8) : Prop :=
  headerSize ≤ stream.length → announced headerSize stream < 0x1000000 ∧
    stream.length < headerSize + announced headerSize stream

instance (stream : List UInt8) : Decidable (Incomplete headerSize stream) :=
  inferInstanceAs (Decidable (_ → _))

end Frames

variable {headerSize : ℕ} {stream packet rest : List UInt8}

section

variable (hk : headerSize = 2 ∨ headerSize = 4)
include hk

theorem frontSize_eq (h : announced headerSize stream < 2 ^ 31) :
    frontSize headerSize stream = announced headerSize stream := by
  rw [frontSize, headerOf]
  rcases hk with rfl | rfl
  · rfl
  · rw [if_neg (by decide)]
    show Int.bmod (announced 4 stream) (2 ^ 32) = announced 4 stream
    rw [Int.bmod_eq_of_le_mul_two]
    all_goals omega

theorem Incomplete.cutPacket_eq_none (h : Incomplete headerSize stream) :
    cutPacket headerSize stream = none ∧ ¬ Oversized headerSize stream := by
  by_cases hle : headerSize ≤ stream.length
  · obtain ⟨hsmall, hlength⟩ := h hle
    have hsigned : announced headerSize stream < 2 ^ 31 := by omega
    have hsize := frontSize_eq hk hsigned
    have hbody : (stream.drop headerSize).length = stream.length - headerSize := length_drop
    refine ⟨if_neg fun hc => ?_, fun hc => ?_⟩
    · rw [hsize, hbody] at hc
      omega
    · rw [Oversized, hsize, hbody] at hc
      omega
  · exact ⟨if_neg fun hc => hle hc.1, fun hc => hle hc.1⟩

theorem cutPacket_packetFrame (hsmall : packet.length < 0x1000000)
    (hheader : packet.length < 2 ^ (8 * headerSize)) (rest : List UInt8) :
    cutPacket headerSize (packetFrame headerSize packet ++ rest) = some (packet, rest) := by
  have hlength : (leBytes headerSize packet.length).reverse.length = headerSize := by
    rw [length_reverse, length_leBytes]
  have htake : (packetFrame headerSize packet ++ rest).take headerSize =
      (leBytes headerSize packet.length).reverse := by
    rw [packetFrame, append_assoc]
    exact take_left' hlength
  have hdrop : (packetFrame headerSize packet ++ rest).drop headerSize = packet ++ rest := by
    rw [packetFrame, append_assoc]
    exact drop_left' hlength
  have hannounced : announced headerSize (packetFrame headerSize packet ++ rest) =
      packet.length := by
    rw [announced, htake, reverse_reverse, leNat_leBytes_of_lt hheader]
  have hsize : frontSize headerSize (packetFrame headerSize packet ++ rest) = packet.length := by
    rw [frontSize_eq hk (by omega), hannounced]
  have hle : headerSize ≤ (packetFrame headerSize packet ++ rest).length := by
    rw [packetFrame, append_assoc, length_append, hlength]
    exact Nat.le_add_right _ _
  have hbody : ((packetFrame headerSize packet ++ rest).drop headerSize).length =
      packet.length + rest.length := by
    rw [hdrop, length_append]
  rw [cutPacket, hsize, hbody, if_pos (by omega), hdrop, Int.toNat_natCast, take_left, drop_left]

end

theorem prefixStable_cutPacket (headerSize : ℕ) : PrefixStable (cutPacket headerSize) := by
  intro stream rest packet hcut more
  unfold cutPacket at hcut
  simp only at hcut
  split_ifs at hcut with hc
  obtain ⟨hle, hnonneg, hsmall, hsize⟩ := hc
  obtain ⟨rfl, rfl⟩ := Prod.mk.inj (Option.some.inj hcut)
  have hfront : frontSize headerSize (stream ++ more) = frontSize headerSize stream := by
    rw [frontSize, take_append_of_le_length hle]
    rfl
  have hdrop : (stream ++ more).drop headerSize = stream.drop headerSize ++ more :=
    drop_append_of_le_length hle
  have hnat : (frontSize headerSize stream).toNat ≤ (stream.drop headerSize).length := by omega
  rw [cutPacket, hfront, hdrop, length_append, length_append, if_pos (by omega),
    take_append_of_le_length hnat, drop_append_of_le_length hnat]

theorem Oversized.append (h : Oversized headerSize stream) (more : List UInt8) :
    Oversized headerSize (stream ++ more) ∧ cutPacket headerSize (stream ++ more) = none := by
  obtain ⟨hle, hlarge, hsize⟩ := h
  have hfront : frontSize headerSize (stream ++ more) = frontSize headerSize stream := by
    rw [frontSize, take_append_of_le_length hle]
    rfl
  have hover : Oversized headerSize (stream ++ more) := by
    rw [Oversized, hfront, drop_append_of_le_length hle, length_append, length_append]
    omega
  refine ⟨hover, if_neg fun hc => ?_⟩
  rw [hfront] at hc
  omega

variable {id : ℕ}

/-! ### Runs -/

/-- What the input brings for a connection. -/
def GateInput.chunkOf (id : ℕ) : GateInput → List UInt8
  | .data id' buffer => if id' = id then buffer else []
  | _ => []

namespace Gate

/-- The calls that are made for a chunk of the connection, with the receiver of its packets. -/
def callsFor (id : ℕ) (g : Gate) : GateInput → List (Option (List UInt8 → GateCall) × GateCall)
  | .data id' buffer =>
    match g.step (.data id' buffer) with
    | none => []
    | some g' =>
      if id' = id then
        (g'.calls.drop g.calls.length).map fun call => ((g.conn id).bind (g.receiver · id), call)
      else []
  | _ => []

/-- The calls that are made for the chunks of a connection in a run. -/
def sentFor (id : ℕ) : Gate → List GateInput → List (Option (List UInt8 → GateCall) × GateCall)
  | _, [] => []
  | g, m :: w =>
    match g.step m with
    | none => []
    | some g' => g.callsFor id m ++ sentFor id g' w

/-- The packet is sent to the receiver. -/
def Sends (e : Option (List UInt8 → GateCall) × GateCall) (packet : List UInt8) : Prop :=
  ∃ send, e.1 = some send ∧ e.2 = send packet

/-- The connection is not closed by its socket, and has a receiver when a chunk comes for it: a
broker of the gate, its agent or a watchdog. -/
def served (id : ℕ) (g : Gate) : GateInput → Bool
  | .data id' _ => id' ≠ id ∨ ((g.conn id).bind (g.receiver · id)).isSome
  | .close id' => id' ≠ id
  | .error id' => id' ≠ id
  | _ => true

variable {g g' : Gate} {c c' : Connection} {m : GateInput} {w : List GateInput}

theorem sentFor_append (hexec : exec step g w = some g') (v : List GateInput) :
    sentFor id g (w ++ v) = sentFor id g w ++ sentFor id g' v := by
  induction w generalizing g with
  | nil =>
    obtain rfl := Option.some.inj hexec
    rfl
  | cons m w ih =>
    obtain ⟨g₁, hstep, hexec⟩ := Option.bind_eq_some_iff.mp hexec
    rw [cons_append, sentFor, sentFor, hstep]
    simp only
    rw [ih hexec, append_assoc]

theorem sentFor_singleton (hstep : g.step m = some g') : sentFor id g [m] = g.callsFor id m := by
  rw [sentFor, hstep]
  exact append_nil _

theorem conn_of_step (h : g.Sound) (hconn : g.conn id = some c) (hserved : g.served id m = true)
    (hdata : ∀ buffer, m ≠ .data id buffer) (hstep : g.step m = some g') :
    ∃ c', g'.conn id = some c' ∧ c'.buffer = c.buffer ∧ g'.headerSize = g.headerSize := by
  cases moved_of_step hstep with
  | same hsame _ hheader => exact ⟨c, (congrFun hsame id).trans hconn, rfl, hheader⟩
  | @data id' buffer c' c₁ g₁ hold hdispatch =>
    have hne : id ≠ id' := by
      rintro rfl
      exact hdata buffer rfl
    obtain ⟨packets, rest, mp, cuts, db, calls, houtcome, -⟩ :=
      dispatchMessage_outcome h.headerSize (h.conn hold) id' buffer
    cases hdispatch.symm.trans houtcome
    exact ⟨c, (update_of_ne hne _ _).trans hconn, rfl, rfl⟩
  | @closed _ id' _ _ _ hm =>
    have hne : id ≠ id' := by
      rintro rfl
      rcases hm with rfl | rfl
      · exact of_decide_eq_true hserved rfl
      · exact of_decide_eq_true hserved rfl
    rw [conn_report, headerSize_report]
    exact ⟨c, (update_of_ne hne _ _).trans hconn, rfl, rfl⟩
  | @accepted _ ud _ _ _ hfree =>
    have hne : id ≠ ud := by
      rintro rfl
      cases hconn.symm.trans hfree
    rw [conn_report, headerSize_report]
    exact ⟨c, (update_of_ne hne _ _).trans hconn, rfl, rfl⟩
  | @forwarded fd _ _ c₁ hold =>
    by_cases hid : id = fd
    · subst hid
      obtain rfl : c₁ = c := Option.some.inj (hold.symm.trans hconn)
      exact ⟨_, update_self .., rfl, rfl⟩
    · exact ⟨c, (update_of_ne hid _ _).trans hconn, rfl, rfl⟩

theorem callsFor_of_ne (hdata : ∀ buffer, m ≠ .data id buffer) :
    g.callsFor id m = [] ∧ m.chunkOf id = [] := by
  cases m with
  | data id' buffer =>
    have hne : id' ≠ id := by
      rintro rfl
      exact hdata buffer rfl
    refine ⟨?_, if_neg hne⟩
    rw [callsFor]
    cases g.step (.data id' buffer) with
    | none => rfl
    | some g' => exact if_neg hne
  | _ => exact ⟨rfl, rfl⟩

theorem sends_spec {send : List UInt8 → GateCall} (hreceiver : g.receiver c id = some send)
    (packets : List (List UInt8)) :
    packets.flatMap (g.sends c id) = (packets.filter (· ≠ [])).map send := by
  induction packets with
  | nil => rfl
  | cons packet packets ih =>
    rw [flatMap_cons, ih, sends, hreceiver]
    by_cases hempty : packet = []
    · rw [filter_cons_of_neg (by simp [hempty])]
      exact congrArg (· ++ _) (if_pos hempty)
    · rw [filter_cons_of_pos (by simp [hempty])]
      exact congrArg (· ++ _) (if_neg hempty)

theorem sent_of_data (h : g.Sound) (hconn : g.conn id = some c) {buffer : List UInt8}
    (hserved : g.served id (.data id buffer) = true)
    (hstep : g.step (.data id buffer) = some g') :
    ∃ packets rest c', Cuts (cutPacket g.headerSize)
        (c.buffer.pending g.headerSize ++ buffer) packets rest ∧
      cutPacket g.headerSize rest = none ∧ g'.headerSize = g.headerSize ∧
      g'.conn id = some c' ∧
      (Oversized g.headerSize rest ∨
        List.Forall₂ Sends (g.callsFor id (.data id buffer)) (packets.filter (· ≠ [])) ∧
        c'.buffer.pending g.headerSize = rest) := by
  have hreceiver : (g.receiver c id).isSome := by
    rcases of_decide_eq_true hserved with hne | hsome
    · exact absurd rfl hne
    · rw [hconn] at hsome
      exact hsome
  obtain ⟨send, hsend⟩ := Option.isSome_iff_exists.mp hreceiver
  obtain ⟨packets, rest, mp, cuts, db, calls, hdispatch, -, hcuts, hnone, -, hend⟩ :=
    dispatchMessage_outcome h.headerSize (h.conn hconn) id buffer
  have hcalls : g.callsFor id (.data id buffer) =
      (g'.calls.drop g.calls.length).map fun call => (some send, call) := by
    rw [callsFor, hstep]
    simp [hconn, hsend]
  rw [step, hconn] at hstep
  simp only at hstep
  rw [hdispatch] at hstep
  obtain rfl := Option.some.inj hstep
  -- the receiver does not depend on what has come
  have hsend' : g.receiver { c with received := c.received + buffer.length } id = some send := hsend
  rw [hsend', Option.isSome_some, roundCut_true] at hcuts
  refine ⟨packets, rest, _, hcuts, hnone, rfl, update_self .., ?_⟩
  rcases hend with ⟨hover, -⟩ | ⟨-, hsent, -, hpending, -⟩
  · exact .inl hover
  · refine .inr ⟨?_, hpending⟩
    rw [hcalls]
    show List.Forall₂ Sends ((calls.drop g.calls.length).map _) _
    rw [hsent, drop_left, sends_spec hsend', map_map, List.forall₂_map_left_iff]
    exact List.forall₂_same.mpr fun packet _ => ⟨send, rfl, rfl⟩

/-- By induction on the run. The bytes behind the last packet are pending, until there is a packet
that is too large. -/
theorem sentFor_of_run (h : g.Sound) (hconn : g.conn id = some c)
    (hnone : cutPacket g.headerSize (c.buffer.pending g.headerSize) = none)
    (hrun : Run step (fun g m => g.served id m = true) g w g') :
    ∃ packets rest c', Cuts (cutPacket g.headerSize)
        (c.buffer.pending g.headerSize ++ w.flatMap (GateInput.chunkOf id)) packets rest ∧
      cutPacket g.headerSize rest = none ∧ g'.Sound ∧ g'.headerSize = g.headerSize ∧
      g'.conn id = some c' ∧
      (Oversized g.headerSize rest ∨ List.Forall₂ Sends (sentFor id g w) (packets.filter (· ≠ [])) ∧
        c'.buffer.pending g.headerSize = rest) := by
  induction hrun with
  | nil =>
    refine ⟨[], _, c, ?_, hnone, h, rfl, hconn, .inr ⟨.nil, rfl⟩⟩
    rw [flatMap_nil, append_nil]
    exact .nil _
  | @snoc t u w m hrun hserved hnext ih =>
    obtain ⟨packets, rest, c', hcuts, hnone', hsound, hheader, hconn', hend⟩ := ih
    have hsound' := (step_spec hsound hnext).1
    have hsent : sentFor id g (w ++ [m]) = sentFor id g w ++ t.callsFor id m := by
      rw [sentFor_append hrun.exec_eq, sentFor_singleton hnext]
    rw [flatMap_append, flatMap_singleton, ← append_assoc, hsent]
    have hcuts' := hcuts.append_stream (prefixStable_cutPacket _) (m.chunkOf id)
    by_cases hdata : ∃ buffer, m = .data id buffer
    · obtain ⟨buffer, rfl⟩ := hdata
      have hchunk : (GateInput.data id buffer).chunkOf id = buffer := if_pos rfl
      obtain ⟨packets', rest', c₁, hcuts₁, hnone₁, hheader₁, hconn₁, hend₁⟩ :=
        sent_of_data hsound hconn' hserved hnext
      rw [hheader] at hcuts₁ hnone₁ hend₁
      rw [hchunk] at hcuts' ⊢
      rcases hend with hover | ⟨hall, hpending⟩
      · obtain ⟨hover', hnone''⟩ := hover.append buffer
        exact ⟨packets, rest ++ buffer, c₁, hcuts', hnone'', hsound', hheader₁.trans hheader,
          hconn₁, .inl hover'⟩
      · rw [hpending] at hcuts₁
        refine ⟨packets ++ packets', rest', c₁, hcuts'.append_frames hcuts₁, hnone₁, hsound',
          hheader₁.trans hheader, hconn₁, hend₁.imp_right fun ⟨hall₁, hpending₁⟩ => ?_⟩
        refine ⟨?_, hpending₁⟩
        rw [filter_append]
        exact rel_append hall hall₁
    · have hdata' : ∀ buffer, m ≠ .data id buffer := fun buffer heq => hdata ⟨buffer, heq⟩
      obtain ⟨hcalls, hchunk⟩ := callsFor_of_ne (g := t) hdata'
      obtain ⟨c₁, hconn₁, hbuffer, hheader₁⟩ := conn_of_step hsound hconn' hserved hdata' hnext
      rw [hcalls, hchunk, append_nil, append_nil]
      refine ⟨packets, rest, c₁, hcuts, hnone', hsound', hheader₁.trans hheader, hconn₁, ?_⟩
      rw [hbuffer]
      exact hend

/-- Only a new connection can fail: all other functions have a result. -/
theorem accept_of_step_eq_none (h : g.Sound) (hfail : g.step m = none) :
    ∃ id ud remoteName, m = .accept id ud remoteName := by
  have hclosed : ∀ id, g.closed id ≠ none := by
    intro id hnone
    unfold closed at hnone
    cases hconn : g.conn id with
    | none =>
      rw [hconn] at hnone
      cases hnone
    | some c =>
      obtain ⟨mp, hclear⟩ := (h.conn hconn).valid.clear g.mp
      rw [hconn] at hnone
      simp only at hnone
      rw [hclear] at hnone
      cases hnone
  cases m with
  | accept id ud remoteName => exact ⟨id, ud, remoteName, rfl⟩
  | data id buffer =>
    obtain ⟨g', hstep, -⟩ := data_spec h id buffer
    rw [hstep] at hfail
    cases hfail
  | close id => exact absurd hfail (hclosed id)
  | error id => exact absurd hfail (hclosed id)
  | closeListen =>
    unfold step at hfail
    cases hlisten : g.listenId with
    | none =>
      rw [hlisten] at hfail
      cases hfail
    | some id =>
      rw [hlisten] at hfail
      cases hfail
  | _ => cases hfail

/-- What a packet needs to have a header. -/
def Announceable (headerSize : ℕ) (packet : List UInt8) : Prop :=
  packet.length < 0x1000000 ∧ packet.length < 2 ^ (8 * headerSize)

instance (headerSize : ℕ) (packet : List UInt8) : Decidable (Announceable headerSize packet) :=
  inferInstanceAs (Decidable (_ ∧ _))

theorem cuts_packetFrames {packets : List (List UInt8)} (hk : headerSize = 2 ∨ headerSize = 4)
    (hpackets : ∀ packet ∈ packets, Announceable headerSize packet) (rest : List UInt8) :
    Cuts (cutPacket headerSize) (packets.flatMap (packetFrame headerSize) ++ rest) packets
      rest := by
  induction packets with
  | nil => exact .nil rest
  | cons packet packets ih =>
    obtain ⟨hfirst, hothers⟩ := forall_mem_cons.mp hpackets
    rw [flatMap_cons, append_assoc]
    exact .cons (cutPacket_packetFrame hk hfirst.1 hfirst.2 _) (ih hothers)

/-- In every state of every run of a gate, the nodes of the pool are free or in one buffer, the
sizes are those of the unread bytes, and only the assertions about new connections can fail. From
then on, the packets that are not empty are sent in their order for every connection which has a
receiver, whatever its chunks are, and what follows them is pending. -/
theorem forwards_packets {header : Char} {watchdog : Option UInt32} {clientTag : UInt32} {max : ℕ}
    {listenId : Option ℕ} {g₀ g : Gate}
    (hinit : init header watchdog clientTag max listenId = some g₀)
    (hreach : Reachable step g₀ g) :
    g.Kept ∧
    (∀ id c, g.conn id = some c → c.buffer.size = c.buffer.unread.length) ∧
    (∀ m, g.step m = none → ∃ id ud remoteName, m = .accept id ud remoteName) ∧
    ∀ id c w g' (packets : List (List UInt8)) rest, g.conn id = some c →
      c.buffer.pending g.headerSize = [] →
      Run step (fun g m => g.served id m = true) g w g' →
      w.flatMap (GateInput.chunkOf id) = packets.flatMap (packetFrame g.headerSize) ++ rest →
      (∀ packet ∈ packets, Announceable g.headerSize packet) → Incomplete g.headerSize rest →
      List.Forall₂ Sends (sentFor id g w) (packets.filter (· ≠ [])) ∧
        ∃ c', g'.conn id = some c' ∧ c'.buffer.pending g.headerSize = rest := by
  have hsound : g.Sound :=
    hreach.invariant (Sound.of_init hinit) fun hstep h => (step_spec h hstep).1
  refine ⟨hreach.invariant (Kept.of_init hinit) fun hstep h => step_kept h hstep,
    fun id c hconn => (hsound.conn hconn).valid.size, fun m hfail => ?_, ?_⟩
  · exact accept_of_step_eq_none hsound hfail
  · intro id c w g' packets rest hconn hpending hrun hstream hpackets hrest
    have hempty : cutPacket g.headerSize (c.buffer.pending g.headerSize) = none := by
      rw [hpending]
      apply cutPacket_of_short
      rcases hsound.headerSize with hk | hk
      all_goals
        rw [hk]
        exact Nat.succ_pos _
    obtain ⟨packets', rest', c', hcuts, hnone, -, -, hconn', hend⟩ :=
      sentFor_of_run hsound hconn hempty hrun
    rw [hpending, List.nil_append, hstream] at hcuts
    obtain ⟨hstop, hnot⟩ := hrest.cutPacket_eq_none hsound.headerSize
    obtain ⟨rfl, rfl⟩ :=
      (cuts_packetFrames hsound.headerSize hpackets rest).unique hcuts hstop hnone
    obtain ⟨hsent, hrest⟩ := hend.resolve_left hnot
    exact ⟨hsent, c', hconn', hrest⟩

/-- A header that is split, an empty packet and part of a packet. -/
theorem forwards_packets_split : ∃ g₀ g g' c,
    init 'S' (some 1) 0 1 (some 0) = some g₀ ∧ exec step g₀ [.accept 0 5 []] = some g ∧
    g.conn 5 = some c ∧
    Run step (fun g m => g.served 5 m = true) g
      [.data 5 [0], .broker 7, .data 5 [2, 65, 66, 0, 0, 0], .data 5 [1, 67, 0]] g' ∧
    g.Kept ∧ List.Forall₂ Sends
      (sentFor 5 g [.data 5 [0], .broker 7, .data 5 [2, 65, 66, 0, 0, 0], .data 5 [1, 67, 0]])
      [[65, 66], [67]] := by
  have hinit : init 'S' (some 1) 0 1 (some 0) = some ((init 'S' (some 1) 0 1 (some 0)).get rfl) :=
    rfl
  obtain ⟨g, hexec, c, hconn, hpending, hheader⟩ : ∃ g,
      exec step ((init 'S' (some 1) 0 1 (some 0)).get rfl) [.accept 0 5 []] = some g ∧
      ∃ c, g.conn 5 = some c ∧ c.buffer.pending g.headerSize = [] ∧ g.headerSize = 2 :=
    ⟨_, rfl, _, rfl, rfl, rfl⟩
  obtain ⟨g', hexec'⟩ : ∃ g', ((init 'S' (some 1) 0 1 (some 0)).bind fun g =>
      (exec step g [.accept 0 5 []]).bind fun g =>
        exec (guarded step fun g m => g.served 5 m = true) g
          [.data 5 [0], .broker 7, .data 5 [2, 65, 66, 0, 0, 0], .data 5 [1, 67, 0]]) = some g' :=
    ⟨_, rfl⟩
  rw [hinit, Option.bind_some, hexec, Option.bind_some] at hexec'
  have hrun := run_of_exec_guarded hexec'
  obtain ⟨hkept, -, -, hframing⟩ := forwards_packets hinit (reachable_of_exec hexec)
  rw [hheader] at hframing hpending
  have hsent := hframing 5 c _ g' [[65, 66], [], [67]] [0] hconn hpending hrun (by decide)
    (by decide) (by decide)
  exact ⟨_, g, g', c, hinit, hexec, hconn, hrun, hkept, hsent.1⟩

end Gate

end Uboss.Module
