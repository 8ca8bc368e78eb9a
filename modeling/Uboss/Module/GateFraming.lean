import Uboss.Math.Framing
import Uboss.Module.Gate

/-!
# The packets of a connection

What `dispatch_message` finds in a chunk: the packets of the stream of the connection, if each of
them that is not empty has a receiver.
-/

namespace Uboss.Module

open Math List Option Databuffer

/-! ### Streams -/

section Packets

variable (headerSize : ℕ) (stream : List UInt8)

/-- The value of the header that a stream starts with. -/
def frontSize : ℤ := headerOf headerSize (stream.take headerSize)

/-- The first packet of a stream, if it is complete, and what follows it. -/
def cutPacket : Option (List UInt8 × List UInt8) :=
  let size := frontSize headerSize stream
  let body := stream.drop headerSize
  if headerSize ≤ stream.length ∧ 0 ≤ size ∧ size < 0x1000000 ∧ size ≤ body.length then
    some (body.take size.toNat, body.drop size.toNat)
  else none

/-- The first packet is complete and too large. -/
def Oversized : Prop := headerSize ≤ stream.length ∧ 0x1000000 ≤ frontSize headerSize stream ∧
    frontSize headerSize stream ≤ (stream.drop headerSize).length

instance : Decidable (Oversized headerSize stream) := inferInstanceAs (Decidable (_ ∧ _ ∧ _))

/-- The packets of a stream that goes on at `position`, with the places where they start. -/
def marks (id : ℕ) : ℕ → List (List UInt8) → List Cut
  | _, [] => []
  | position, packet :: packets =>
    ⟨id, position + headerSize, packet⟩ :: marks id (position + headerSize + packet.length) packets

end Packets

/-! ### The packets of a chunk -/

section Loop

variable {headerSize : ℕ} {stream : List UInt8}

theorem cutPacket_of_short (h : stream.length < headerSize) : cutPacket headerSize stream = none :=
  if_neg fun hc => absurd hc.1 (Nat.not_le.mpr h)

theorem length_lt_of_cutPacket {packet rest : List UInt8} (hk : 0 < headerSize)
    (h : cutPacket headerSize stream = some (packet, rest)) : rest.length < stream.length := by
  unfold cutPacket at h
  simp only at h
  split_ifs at h with hc
  obtain ⟨-, rfl⟩ := Prod.mk.inj (some.inj h)
  have hle := hc.1
  rw [length_drop, length_drop]
  omega

/-- What holds of a connection at all times. -/
structure Connection.Ready (headerSize : ℕ) (c : Connection) : Prop where
  valid : c.buffer.Valid
  headed : c.buffer.Headed headerSize
  received : (c.buffer.pending headerSize).length ≤ c.received

variable {id received : ℕ} {packet rest : List UInt8} {packets : List (List UInt8)}

theorem marks_cons (hlength : stream.length = headerSize + packet.length + rest.length)
    (hreceived : stream.length ≤ received) :
    marks headerSize id (received - stream.length) (packet :: packets) =
      ⟨id, received - (packet.length + rest.length), packet⟩ ::
        marks headerSize id (received - rest.length) packets := by
  have hstart : received - stream.length + headerSize =
    received - (packet.length + rest.length) := by omega
  have hnext : received - (packet.length + rest.length) + packet.length =
    received - rest.length := by omega
  rw [marks, hstart, hnext]

variable {g : Gate} {c : Connection}

theorem forward_spec (id : ℕ) {size : ℕ} (hvalid : c.buffer.Valid) (hpos : 0 < size)
    (hsize : size ≤ c.buffer.size) :
    g.receiver c id = none ∧ g.forward c id size = some (g, c) ∨
      ∃ send mp buffer, g.receiver c id = some send ∧ g.forward c id size = some
          ({ g with mp, calls := g.calls ++ [send (c.buffer.unread.take size)] },
            { c with buffer }) ∧
        buffer.Valid ∧ buffer.unread = c.buffer.unread.drop size := by
  unfold Gate.forward
  cases hreceiver : g.receiver c id with
  | none => exact .inl ⟨rfl, rfl⟩
  | some send =>
    obtain ⟨db, mp, hread, hvalid', hunread, -⟩ := hvalid.read g.mp hpos hsize
    refine .inr ⟨send, mp, db, rfl, ?_, hvalid', hunread⟩
    simp only
    rw [hread, map_some]
    rfl

/-- What is sent for a packet. -/
def Gate.sends (g : Gate) (c : Connection) (id : ℕ) (packet : List UInt8) : List GateCall :=
  match g.receiver c id with
  | none => []
  | some send => if packet = [] then [] else [send packet]

/-- The bytes behind a header, when its packet was looked at. A packet is taken out of the buffer if
it is empty or somebody gets it. -/
def behind (routed : Bool) (packet rest : List UInt8) : List UInt8 :=
  if packet = [] ∨ routed then rest else packet ++ rest

/-- What a round makes of a stream and of the calls. It stops where no packet can be taken off, and
closes the connection if the packet is too large. -/
def RoundOutcome (g : Gate) (c : Connection) (id : ℕ) (stream : List UInt8) : Prop :=
  (∃ mp calls buffer, g.dispatchRound c id = some (false, { g with mp, calls }, { c with buffer }) ∧
    buffer.Valid ∧ cutPacket g.headerSize stream = none ∧
    (Oversized g.headerSize stream ∧ calls = g.calls ++ [.socketClose id] ∧ buffer = .empty ∨
      ¬ Oversized g.headerSize stream ∧ calls = g.calls ∧ buffer.Headed g.headerSize ∧
      buffer.pending g.headerSize = stream ∧
      buffer.header =
        if g.headerSize ≤ stream.length then frontSize g.headerSize stream else 0)) ∨
  ∃ packet rest mp buffer, g.dispatchRound c id = some (true,
      { g with
        mp
        calls := g.calls ++ g.sends c id packet
        cuts := g.cuts ++ [⟨id, c.received - (packet.length + rest.length), packet⟩] },
      { c with buffer }) ∧
    buffer.Valid ∧ buffer.header = 0 ∧ cutPacket g.headerSize stream = some (packet, rest) ∧
    stream.length = g.headerSize + packet.length + rest.length ∧
    buffer.unread = behind (g.receiver c id).isSome packet rest

theorem roundOutcome_of_header {db : Databuffer} {mp : MessagePool}
    (hk : g.headerSize = 2 ∨ g.headerSize = 4) (hle : g.headerSize ≤ stream.length)
    (hread : c.buffer.readHeader g.mp g.headerSize = some (db.awaitBody mp)) (hvalid : db.Valid)
    (hheader : db.header = frontSize g.headerSize stream)
    (hunread : db.unread = stream.drop g.headerSize) : RoundOutcome g c id stream := by
  have hbody : (stream.drop g.headerSize).length = db.size := by
    rw [← hunread, hvalid.size]
  have hlength : stream.length = g.headerSize + db.size := by
    rw [← hbody, length_drop]
    omega
  rw [RoundOutcome, Gate.dispatchRound, hread, bind_some]
  unfold awaitBody
  simp only
  by_cases hwait : (db.size : ℤ) < db.header ∨ db.header < 0
  · -- the packet is not complete, or has a negative size
    have hne : db.header ≠ 0 := by omega
    have hsize : (if (db.size : ℤ) < db.header then -1 else db.header) < 0 := by
      split_ifs <;> omega
    obtain ⟨hheaded, hpending⟩ := pending_of_header hk hle hheader hunread hne
    have hnone : cutPacket g.headerSize stream = none := if_neg fun h => by
        rw [← hheader, hbody] at h
        omega
    have hnot : ¬ Oversized g.headerSize stream := fun h => by
      rw [Oversized, ← hheader, hbody] at h
      omega
    exact .inl ⟨mp, g.calls, db, if_pos hsize, hvalid, hnone,
      .inr ⟨hnot, rfl, hheaded, hpending, hheader.trans (if_pos hle).symm⟩⟩
  obtain ⟨hcomplete, hnonneg⟩ := not_or.mp hwait
  rw [if_neg hcomplete, if_neg hnonneg]
  by_cases hlarge : 0x1000000 ≤ db.header
  · -- the packet is too large
    have hpos : 0 < db.header := by omega
    have hnone : cutPacket g.headerSize stream = none := if_neg fun h => by
        rw [← hheader] at h
        omega
    have hover : Oversized g.headerSize stream := by
      rw [Oversized, ← hheader, hbody]
      omega
    obtain ⟨mp', hclear⟩ := hvalid.clear mp
    rw [if_pos hpos, if_pos hlarge, hclear, map_some]
    exact .inl ⟨mp', g.calls ++ [.socketClose id], .empty, rfl, .empty, hnone,
      .inl ⟨hover, rfl, rfl⟩⟩
  have hcut : cutPacket g.headerSize stream =
      some (db.unread.take db.header.toNat, db.unread.drop db.header.toNat) := by
    rw [cutPacket, ← hheader, hbody, if_pos (by omega), ← hunread]
  have hsplit : (db.unread.take db.header.toNat).length +
      (db.unread.drop db.header.toNat).length = db.size := by
    rw [← length_append, take_append_drop, hvalid.size]
  by_cases hempty : db.header = 0
  · -- the packet is empty
    have hnil : db.unread.take db.header.toNat = [] := by
      rw [hempty]
      rfl
    have hsends : g.sends c id [] = [] := by
      unfold Gate.sends
      cases g.receiver c id <;> rfl
    rw [if_neg (by omega)]
    refine .inr ⟨_, _, mp, db, ?_, hvalid, hempty, hcut, by omega, ?_⟩
    · rw [hsplit, hnil, hsends, append_nil]
      rfl
    · rw [behind, if_pos (.inl hnil), hempty]
      rfl
  · have hpos : 0 < db.header.toNat := by omega
    have hsize : db.header.toNat ≤ db.size := by omega
    have hne : db.unread.take db.header.toNat ≠ [] := fun hnil => by
      have hzero := congrArg List.length hnil
      rw [length_take, ← hvalid.size, Nat.min_eq_left hsize, length_nil] at hzero
      omega
    rw [if_pos (by omega), if_neg hlarge]
    rcases forward_spec id (g := { g with mp }.mark { c with buffer := db } id
      db.header.toNat) (c := { c with buffer := db }) hvalid hpos hsize with
      ⟨hreceiver, hforward⟩ | ⟨send, mp', buffer, hreceiver, hforward, hvalid', hunread'⟩
    · -- the packet stays in the buffer
      have hreceiver' : g.receiver c id = none := hreceiver
      have hsends : g.sends c id (db.unread.take db.header.toNat) = [] := by
        rw [Gate.sends, hreceiver']
      rw [hforward, map_some]
      refine .inr ⟨_, _, mp, db.reset, ?_, hvalid.reset, rfl, hcut, by omega, ?_⟩
      · rw [hsplit, hsends, append_nil]
        rfl
      · rw [behind, if_neg (by simp [hne, hreceiver']), take_append_drop]
        rfl
    · have hreceiver' : g.receiver c id = some send := hreceiver
      have hsends : g.sends c id (db.unread.take db.header.toNat) =
          [send (db.unread.take db.header.toNat)] := by
        rw [Gate.sends, hreceiver']
        exact if_neg hne
      rw [hforward, map_some]
      refine .inr ⟨_, _, mp', buffer.reset, ?_, hvalid'.reset, rfl, hcut, by omega, ?_⟩
      · rw [hsplit, hsends]
        rfl
      · rw [behind, hreceiver', if_pos (.inr rfl)]
        exact hunread'

/-- A round. -/
theorem roundOutcome (id : ℕ) (hk : g.headerSize = 2 ∨ g.headerSize = 4) (hvalid : c.buffer.Valid)
    (hheaded : c.buffer.Headed g.headerSize) :
    RoundOutcome g c id (c.buffer.pending g.headerSize) := by
  rcases hvalid.readHeader g.mp hheaded hk with ⟨hshort, hheader, hread⟩ |
    ⟨hle, db, mp, hread, hvalid, hheader, hunread, -⟩
  · -- there is no header yet
    refine .inl ⟨g.mp, g.calls, c.buffer, ?_, hvalid, cutPacket_of_short hshort, .inr ?_⟩
    · rw [Gate.dispatchRound, hread, bind_some]
      rfl
    · exact ⟨fun h => absurd h.1 (Nat.not_le.mpr hshort), rfl, hheaded, rfl,
        hheader.trans (if_neg (Nat.not_le.mpr hshort)).symm⟩
  · exact roundOutcome_of_header hk hle hread hvalid hheader hunread

theorem Connection.Ready.of_header {db : Databuffer} (hvalid : db.Valid) (hheader : db.header = 0)
    (hle : db.size ≤ c.received) :
    ({ c with buffer := db } : Connection).Ready headerSize := by
  refine ⟨hvalid, headed_of_eq_zero hheader, ?_⟩
  show (db.pending headerSize).length ≤ c.received
  rw [pending_of_eq_zero hheader, ← hvalid.size]
  exact hle

/-! ### The loop -/

/-- A round takes a packet off the stream, but leaves its bytes there if nobody gets it. -/
def roundCut (headerSize : ℕ) (routed : Bool) (stream : List UInt8) :
    Option (List UInt8 × List UInt8) :=
  (cutPacket headerSize stream).map fun r => (r.1, behind routed r.1 r.2)

theorem roundCut_true (headerSize : ℕ) : roundCut headerSize true = cutPacket headerSize := by
  funext stream
  unfold roundCut behind
  cases cutPacket headerSize stream with
  | none => rfl
  | some r => simp

theorem length_lt_of_roundCut {routed : Bool} (hk : 0 < headerSize)
    (h : roundCut headerSize routed stream = some (packet, rest)) :
    rest.length < stream.length := by
  obtain ⟨⟨packet', rest'⟩, hcut, heq⟩ := map_eq_some_iff.mp h
  obtain ⟨rfl, rfl⟩ := Prod.mk.inj heq
  have hlt := length_lt_of_cutPacket hk hcut
  unfold behind
  simp only
  split_ifs
  · exact hlt
  · unfold cutPacket at hcut
    simp only at hcut
    split_ifs at hcut with hc
    obtain ⟨rfl, rfl⟩ := Prod.mk.inj (Option.some.inj hcut)
    have hle := hc.1
    rw [take_append_drop, length_drop]
    omega

/-- The bytes of a packet stay in the stream only if nobody gets it. -/
theorem cuts_of_roundCut {routed : Bool} (h : Cuts (roundCut headerSize routed) stream packets rest)
    (hrouted : routed ∨ ∀ packets rest, Cuts (cutPacket headerSize) stream packets rest →
      ∀ packet ∈ packets, packet = []) :
    Cuts (cutPacket headerSize) stream packets rest := by
  induction h with
  | nil => exact .nil _
  | cons hcut _ ih =>
    obtain ⟨⟨packet, rest⟩, hfirst, heq⟩ := map_eq_some_iff.mp hcut
    have hbehind : behind routed packet rest = rest := if_pos <| hrouted.symm.imp_left fun hempty =>
      hempty [packet] rest (.cons hfirst (.nil rest)) packet mem_cons_self
    obtain ⟨rfl, rfl⟩ := Prod.mk.inj heq
    simp only [hbehind] at ih
    refine .cons hfirst (ih (hrouted.imp_right fun hempty packets rest' hcuts packet' hmem => ?_))
    exact hempty (packet :: packets) rest' (.cons hfirst hcuts) packet' (mem_cons_of_mem _ hmem)

/-- What the loop makes of a stream and of the calls: packets are taken off and sent, until there is
no complete one or the next one is too large. If nothing stays in the buffer, they are marked where
they start. -/
def LoopOutcome (g : Gate) (c : Connection) (id : ℕ) (stream : List UInt8)
    (r : Option (Gate × Connection)) : Prop :=
  ∃ packets rest mp cuts buffer calls, r = some ({ g with mp, calls, cuts }, { c with buffer }) ∧
    ((g.receiver c id).isSome ∨ (∀ packet ∈ packets, packet = []) →
      cuts = g.cuts ++ marks g.headerSize id (c.received - stream.length) packets) ∧
    Cuts (roundCut g.headerSize (g.receiver c id).isSome) stream packets rest ∧
    cutPacket g.headerSize rest = none ∧ buffer.Valid ∧
    (Oversized g.headerSize rest ∧
        calls = g.calls ++ packets.flatMap (g.sends c id) ++ [.socketClose id] ∧ buffer = .empty ∨
      ¬ Oversized g.headerSize rest ∧ calls = g.calls ++ packets.flatMap (g.sends c id) ∧
      buffer.Headed g.headerSize ∧ buffer.pending g.headerSize = rest ∧
      buffer.header = if g.headerSize ≤ rest.length then frontSize g.headerSize rest else 0)

theorem Databuffer.pending_push {db db' : Databuffer} {data : List UInt8}
    (hunread : db'.unread = db.unread ++ data) (hheader : db'.header = db.header) :
    db'.pending headerSize = db.pending headerSize ++ data := by
  unfold pending
  rw [hheader, hunread]
  split_ifs
  · rfl
  · rw [append_assoc]

variable (hk : g.headerSize = 2 ∨ g.headerSize = 4)
include hk

/-- By induction on the rounds: every packet takes its header, so that there are enough of them. -/
theorem dispatchLoop_outcome {rounds : ℕ} (hc : c.Ready g.headerSize)
    (hrounds : (c.buffer.pending g.headerSize).length < rounds) :
    LoopOutcome g c id (c.buffer.pending g.headerSize) (g.dispatchLoop rounds c id) := by
  induction rounds generalizing g c with
  | zero => omega
  | succ rounds ih =>
    have hpos : 0 < g.headerSize := by omega
    have hreceived := hc.received
    rw [Gate.dispatchLoop]
    rcases roundOutcome id hk hc.valid hc.headed with
      ⟨mp, calls, buffer, hround, hvalid', hnone, hstop⟩ |
      ⟨packet, rest, mp, buffer, hround, hvalid', hheader, hcut, hlength, hunread⟩
    · rw [hround, bind_some]
      refine ⟨[], _, mp, g.cuts, buffer, calls, rfl, fun _ => (append_nil _).symm, .nil _, hnone,
        hvalid', ?_⟩
      rw [flatMap_nil, append_nil]
      exact hstop
    · rw [hround, bind_some]
      have hplain : buffer.pending g.headerSize = buffer.unread := pending_of_eq_zero hheader
      have hpending : buffer.pending g.headerSize =
          behind (g.receiver c id).isSome packet rest := hplain.trans hunread
      have hfirst : roundCut g.headerSize (g.receiver c id).isSome
          (c.buffer.pending g.headerSize) = some (packet, buffer.pending g.headerSize) := by
        rw [roundCut, hcut, map_some, hpending]
      have hshort := length_lt_of_roundCut hpos hfirst
      have hsize : buffer.size ≤ c.received := by
        rw [hvalid'.size, ← hplain]
        omega
      obtain ⟨packets, rest', mp', cuts', buffer', calls', hloop, hmarks, hcuts, hend⟩ :=
        ih (g := { g with
          mp
          calls := g.calls ++ g.sends c id packet
          cuts := g.cuts ++ [⟨id, c.received - (packet.length + rest.length), packet⟩] })
          (c := { c with buffer }) hk (.of_header hvalid' hheader hsize)
          (lt_of_lt_of_le hshort (Nat.le_of_lt_succ hrounds))
      refine ⟨packet :: packets, rest', mp', cuts', buffer', calls', hloop, fun hrouted => ?_,
        .cons hfirst hcuts, ?_⟩
      · have hbehind : behind (g.receiver c id).isSome packet rest = rest :=
          if_pos (hrouted.symm.imp_left fun hempty => hempty packet mem_cons_self)
        rw [marks_cons hlength hreceived, hmarks (hrouted.imp_right fun hempty packet' hmem =>
          hempty packet' (mem_cons_of_mem _ hmem)), append_assoc]
        show g.cuts ++ (_ :: marks _ _ (c.received - (buffer.pending g.headerSize).length) _) = _
        rw [hpending, hbehind]
      · rw [flatMap_cons, ← append_assoc]
        exact hend

theorem dispatchMessage_outcome (hc : c.Ready g.headerSize) (id : ℕ) (data : List UInt8) :
    LoopOutcome g { c with received := c.received + data.length } id
      (c.buffer.pending g.headerSize ++ data) (g.dispatchMessage c id data) := by
  obtain ⟨db, hpush, hvalid, hunread, hheader⟩ := hc.valid.push g.mp data
  have hpending : db.pending g.headerSize = c.buffer.pending g.headerSize ++ data :=
    Databuffer.pending_push hunread hheader
  have hready : ({ c with buffer := db, received := c.received + data.length } :
      Connection).Ready g.headerSize := by
    refine ⟨hvalid, ?_, ?_⟩
    · intro hne
      show ∃ plen : List UInt8, plen.length = g.headerSize ∧ headerOf g.headerSize plen = db.header
      rw [hheader]
      exact hc.headed (hheader ▸ hne)
    · show (db.pending g.headerSize).length ≤ c.received + data.length
      rw [hpending, length_append]
      exact Nat.add_le_add_right hc.received _
  have hrounds : (db.pending g.headerSize).length < db.size + g.headerSize + 1 := by
    rw [hvalid.size, Nat.add_comm db.unread.length]
    exact Nat.lt_succ_of_le length_pending_le
  rw [Gate.dispatchMessage, hpush, bind_some, ← hpending]
  exact dispatchLoop_outcome (g := { g with mp := g.mp.take.2 })
    (c := { c with buffer := db, received := c.received + data.length }) hk hready hrounds

/-- A chunk. The packets of the stream are found, up to one that is too large. -/
theorem dispatchMessage_spec (hc : c.Ready g.headerSize) (id : ℕ) (data : List UInt8) :
    ∃ mp calls cuts buffer, g.dispatchMessage c id data = some ({ g with mp, calls, cuts },
        { c with buffer, received := c.received + data.length }) ∧
      ({ c with buffer, received := c.received + data.length } : Connection).Ready g.headerSize ∧
      ((g.receiver c id).isSome ∨ (∀ packets rest, Cuts (cutPacket g.headerSize)
          (c.buffer.pending g.headerSize ++ data) packets rest → ∀ packet ∈ packets, packet = []) →
        let stream := c.buffer.pending g.headerSize ++ data
        let found := frames (cutPacket g.headerSize) stream.length stream
        cuts = g.cuts ++ marks g.headerSize id (c.received + data.length - stream.length) found.1 ∧
          buffer.pending g.headerSize =
            if Oversized g.headerSize found.2 then [] else found.2) := by
  have hpos : 0 < g.headerSize := by omega
  obtain ⟨packets, rest, mp, cuts, buffer, calls, hdispatch, hmarks, hcuts, hnone, hvalid, hend⟩ :=
    dispatchMessage_outcome hk hc id data
  refine ⟨mp, calls, cuts, buffer, hdispatch, ?_, fun hrouted => ?_⟩
  · rcases hend with ⟨-, -, rfl⟩ | ⟨-, -, hheaded, hpending, -⟩
    · exact .of_header (c := { c with received := _ + _ }) .empty rfl (Nat.zero_le _)
    · refine ⟨hvalid, hheaded, ?_⟩
      show (buffer.pending g.headerSize).length ≤ c.received + data.length
      have hle := hcuts.length_le fun _ _ _ hcut => (length_lt_of_roundCut hpos hcut).le
      rw [length_append] at hle
      rw [hpending]
      exact hle.trans (Nat.add_le_add_right hc.received _)
  · have hpackets := cuts_of_roundCut hcuts hrouted
    obtain ⟨hframes, hlast⟩ := cuts_frames (fun _ _ _ hcut => length_lt_of_cutPacket hpos hcut)
      (Nat.le_refl (c.buffer.pending g.headerSize ++ data).length)
    obtain ⟨rfl, rfl⟩ := hpackets.unique hframes hnone hlast
    refine ⟨hmarks (hrouted.imp_right fun hempty => hempty _ _ hpackets), ?_⟩
    rcases hend with ⟨hover, -, rfl⟩ | ⟨hnot, -, -, hpending, -⟩
    · exact (if_pos hover).symm
    · exact hpending.trans (if_neg hnot).symm

end Loop

end Uboss.Module
