import Uboss.Math.Interleave
import Uboss.Math.PartialMap
import Uboss.Module.GateFraming

/-!
# Who gets the packets of a gate

What the gate makes of its connections without a look at who gets the packets: a stream for each
connection, which is cut into packets. A packet that has a receiver is taken out of the buffer by
`_forward`. One without a receiver stays there, though its header is forgotten, and the bytes of the
packet are then read as headers.
-/

namespace Uboss.Module

open Math Option Function

/-- A connection without its agent. -/
structure Stream where
  pending : List UInt8
  received : ℕ

/-- A gate without receivers. -/
structure Framing where
  headerSize : ℕ
  listenId : Option ℕ
  maxConnection : ℕ
  count : ℕ
  conn : ℕ → Option Stream
  cuts : List Cut

namespace Framing

variable (f : Framing)

/-- A chunk is put behind what is pending, and all packets are taken off. -/
def received (id : ℕ) (s : Stream) (buffer : List UInt8) : Framing :=
  let stream := s.pending ++ buffer
  let packets := frames (cutPacket f.headerSize) stream.length stream
  let pending := if Oversized f.headerSize packets.2 then [] else packets.2
  let received := s.received + buffer.length
  { f with
    conn := update f.conn id (some ⟨pending, received⟩)
    cuts := f.cuts ++ marks f.headerSize id (received - stream.length) packets.1 }

def closed (id : ℕ) : Framing :=
  match f.conn id with
  | none => f
  | some _ => { f with count := f.count - 1, conn := update f.conn id none }

def accept (id ud : ℕ) : Option Framing :=
  if f.listenId ≠ some id then none
  else if f.count = f.maxConnection then some f
  else if (f.conn ud).isSome then none
  else some { f with count := f.count + 1, conn := update f.conn ud (some ⟨[], 0⟩) }

/-- What a message does to the framing. -/
def step : GateInput → Option Framing
  | .data id buffer =>
    match f.conn id with
    | none => some f
    | some s => some (f.received id s buffer)
  | .close id => some (f.closed id)
  | .error id => some (f.closed id)
  | .accept id ud _ => f.accept id ud
  | .closeListen => some { f with listenId := none }
  | _ => some f

end Framing

/-- What the gate looks like without receivers. -/
def Connection.stream (headerSize : ℕ) (c : Connection) : Stream :=
  ⟨c.buffer.pending headerSize, c.received⟩

/-- The gate without its receivers. -/
def Gate.framing (g : Gate) : Framing where
  headerSize := g.headerSize
  listenId := g.listenId
  maxConnection := g.maxConnection
  count := g.count
  conn id := (g.conn id).map (Connection.stream g.headerSize)
  cuts := g.cuts

/-- Commands that say who gets the packets. -/
def GateInput.isRouting : GateInput → Bool
  | .broker _ => true
  | .forward .. => true
  | _ => false

/-- A packet that is not empty is only completed when there is a receiver for it. -/
def Gate.Routed (g : Gate) : GateInput → Prop
  | .data id buffer => ∀ c, g.conn id = some c → (g.receiver c id).isSome ∨
      ∀ packets rest, Cuts (cutPacket g.headerSize)
        (c.buffer.pending g.headerSize ++ buffer) packets rest → ∀ packet ∈ packets, packet = []
  | _ => True

/-- If the connection has data, there is a receiver. -/
def Gate.hasReceiver (g : Gate) : GateInput → Bool
  | .data id _ => (g.conn id).all fun c => (g.receiver c id).isSome
  | _ => true

theorem Gate.routed_of_hasReceiver {g : Gate} {m : GateInput} (h : g.hasReceiver m = true) :
    g.Routed m := by
  cases m with
  | data id buffer =>
    intro c hc
    have hall : (g.conn id).all (fun c => (g.receiver c id).isSome) = true := h
    rw [hc] at hall
    exact .inl hall
  | _ => trivial

/-! ### Steps of the gate -/

namespace Gate

variable {g g' : Gate} {m : GateInput}

/-- What holds of a gate at all times. -/
structure Sound (g : Gate) : Prop where
  headerSize : g.headerSize = 2 ∨ g.headerSize = 4
  conn : ∀ {id c}, g.conn id = some c → c.Ready g.headerSize

theorem Sound.of_init {header : Char} {watchdog : Option UInt32} {clientTag : UInt32} {max : ℕ}
    {listenId : Option ℕ} (h : init header watchdog clientTag max listenId = some g) : g.Sound := by
  unfold init at h
  split at h
  · cases h
  obtain rfl := some.inj h
  refine ⟨?_, fun hc => by cases hc⟩
  show (if header = 'S' then 2 else 4) = 2 ∨ (if header = 'S' then 2 else 4) = 4
  split_ifs
  · exact .inl rfl
  · exact .inr rfl

theorem Sound.setSome (h : g.Sound) (id : ℕ) {c : Connection} (hc : c.Ready g.headerSize) :
    (g.setConn id (some c)).Sound := by
  refine ⟨h.headerSize, fun {id' c'} hc' => ?_⟩
  rcases update_some_eq_some_iff.mp hc' with ⟨-, rfl⟩ | ⟨-, hold⟩
  · exact hc
  · exact h.conn hold

theorem Sound.setNone (h : g.Sound) (id : ℕ) : (g.setConn id none).Sound :=
  ⟨h.headerSize, fun hc => h.conn (update_none_eq_some_iff.mp hc).2⟩

@[simp] theorem framing_report (g : Gate) (text : GateReport) :
    (g.report text).framing = g.framing := by
  unfold report
  split_ifs <;> rfl

theorem framing_setConn (g : Gate) (id : ℕ) (c : Option Connection) : (g.setConn id c).framing =
      { g.framing with
        conn := update g.framing.conn id (c.map (Connection.stream g.headerSize)) } := by
  have hupdate := comp_update (Option.map (Connection.stream g.headerSize)) g.conn id c
  exact congrArg (fun conn => ({ g.framing with conn } : Framing)) hupdate

section

variable (h : g.Sound)
include h

theorem Sound.call (a : GateCall) : (g.call a).Sound := ⟨h.headerSize, h.conn⟩

theorem Sound.report (text : GateReport) : (g.report text).Sound := by
  unfold Gate.report
  split_ifs
  · exact h
  · exact h.call _

theorem forwardAgent_spec (fd : ℕ) (agentaddr clientaddr : UInt32) :
    (g.forwardAgent fd agentaddr clientaddr).Sound ∧
      (g.forwardAgent fd agentaddr clientaddr).framing = g.framing := by
  unfold forwardAgent
  cases hconn : g.conn fd with
  | none => exact ⟨h, rfl⟩
  | some c =>
    have hc := h.conn hconn
    refine ⟨h.setSome fd ⟨hc.valid, hc.headed, hc.received⟩, ?_⟩
    have hstream : g.framing.conn fd = some (c.stream g.headerSize) :=
      congrArg (Option.map (Connection.stream g.headerSize)) hconn
    have hsame : update g.framing.conn fd (some (c.stream g.headerSize)) = g.framing.conn := by
      rw [← hstream, update_eq_self]
    rw [framing_setConn]
    exact congrArg (fun conn => ({ g.framing with conn } : Framing)) hsame

theorem closed_spec {id : ℕ} (hclosed : g.closed id = some g') :
    g'.Sound ∧ g.framing.closed id = g'.framing := by
  unfold closed at hclosed
  cases hconn : g.conn id with
  | none =>
    rw [hconn] at hclosed
    obtain rfl := some.inj hclosed
    refine ⟨h, ?_⟩
    have hstream : g.framing.conn id = none :=
      congrArg (Option.map (Connection.stream g.headerSize)) hconn
    rw [Framing.closed, hstream]
  | some c =>
    rw [hconn] at hclosed
    obtain ⟨r, -, rfl⟩ := map_eq_some_iff.mp hclosed
    have hstream : g.framing.conn id = some (c.stream g.headerSize) :=
      congrArg (Option.map (Connection.stream g.headerSize)) hconn
    have hsound : ({ g with count := g.count - 1, mp := r.2 } : Gate).Sound :=
      ⟨h.headerSize, h.conn⟩
    refine ⟨(hsound.setNone id).report _, ?_⟩
    rw [framing_report, framing_setConn, Framing.closed, hstream]
    rfl

theorem accept_spec {id ud : ℕ} {remoteName : List UInt8}
    (haccept : g.accept id ud remoteName = some g') :
    g'.Sound ∧ g.framing.accept id ud = some g'.framing := by
  have hconn : (g.framing.conn ud).isSome = (g.conn ud).isSome := isSome_map
  unfold accept at haccept
  unfold Framing.accept
  rw [hconn]
  change (if g.listenId ≠ some id then none else if g.count = g.maxConnection then _ else _) =
    some g' at haccept
  change _ ∧ (if g.listenId ≠ some id then none
    else if g.count = g.maxConnection then some g.framing else _) = _
  split_ifs at haccept ⊢
  · obtain rfl := some.inj haccept
    exact ⟨h.call _, rfl⟩
  · obtain rfl := some.inj haccept
    have hsound : ({ g with count := g.count + 1 } : Gate).Sound := ⟨h.headerSize, h.conn⟩
    have hready : (⟨0, 0, remoteName.take 31, .empty, 0⟩ : Connection).Ready g.headerSize :=
      .of_header (c := ⟨0, 0, remoteName.take 31, .empty, 0⟩) .empty rfl (Nat.le_refl _)
    refine ⟨(hsound.setSome ud hready).report _, ?_⟩
    rw [framing_report, framing_setConn]
    rfl

theorem data_spec (id : ℕ) (buffer : List UInt8) :
    ∃ g', g.step (.data id buffer) = some g' ∧ g'.Sound ∧
      (g.Routed (.data id buffer) → g.framing.step (.data id buffer) = some g'.framing) := by
  cases hconn : g.conn id with
  | none =>
    have hstream : g.framing.conn id = none :=
      congrArg (Option.map (Connection.stream g.headerSize)) hconn
    refine ⟨g.call (.socketClose id), ?_, h.call _, fun _ => ?_⟩
    · rw [step, hconn]
    · rw [Framing.step, hstream]
      rfl
  | some c =>
    have hstream : g.framing.conn id = some (c.stream g.headerSize) :=
      congrArg (Option.map (Connection.stream g.headerSize)) hconn
    obtain ⟨mp, calls, cuts, db, hdispatch, hready, hframed⟩ :=
      dispatchMessage_spec h.headerSize (h.conn hconn) id buffer
    have hsound : ({ g with mp, calls, cuts } : Gate).Sound := ⟨h.headerSize, h.conn⟩
    refine ⟨_, ?_, hsound.setSome id hready, fun hrouted => ?_⟩
    · rw [step, hconn]
      simp only
      rw [hdispatch, map_some]
    · obtain ⟨hcuts, hpending⟩ := hframed (hrouted c hconn)
      subst hcuts
      rw [Framing.step, hstream, framing_setConn]
      exact congrArg (fun pending => some
        { g.framing.received id (c.stream g.headerSize) buffer with
          conn := update g.framing.conn id (some ⟨pending, c.received + buffer.length⟩) })
        hpending.symm

/-- A step of a sound gate. If the packets that it finds have receivers, the gate without receivers
takes the same step. -/
theorem step_spec (hstep : g.step m = some g') :
    g'.Sound ∧ (g.Routed m → g.framing.step m = some g'.framing) := by
  cases m with
  | data id buffer =>
    obtain ⟨g'', hdata, hsound, hframing⟩ := data_spec h id buffer
    obtain rfl := some.inj (hstep.symm.trans hdata)
    exact ⟨hsound, hframing⟩
  | close id =>
    obtain ⟨hsound, hframing⟩ := closed_spec h hstep
    exact ⟨hsound, fun _ => congrArg some hframing⟩
  | error id =>
    obtain ⟨hsound, hframing⟩ := closed_spec h hstep
    exact ⟨hsound, fun _ => congrArg some hframing⟩
  | accept id ud remoteName =>
    obtain ⟨hsound, hframing⟩ := accept_spec h hstep
    exact ⟨hsound, fun _ => hframing⟩
  | forward id agent client =>
    obtain rfl := some.inj hstep
    obtain ⟨hsound, hframing⟩ := forwardAgent_spec h id agent client
    exact ⟨hsound, fun _ => congrArg some hframing.symm⟩
  | closeListen =>
    unfold step at hstep
    cases hlisten : g.listenId with
    | none =>
      rw [hlisten] at hstep
      obtain rfl := some.inj hstep
      refine ⟨h, fun _ => ?_⟩
      rw [Framing.step, ← hlisten]
      rfl
    | some id =>
      rw [hlisten] at hstep
      obtain rfl := some.inj hstep
      exact ⟨⟨h.headerSize, h.conn⟩, fun _ => rfl⟩
  | broker handle =>
    obtain rfl := some.inj hstep
    exact ⟨⟨h.headerSize, h.conn⟩, fun _ => rfl⟩
  | unknown | warning =>
    obtain rfl := some.inj hstep
    exact ⟨h, fun _ => rfl⟩
  | kick uid =>
    obtain rfl := some.inj hstep
    split_ifs
    · exact ⟨h.call _, fun _ => rfl⟩
    · exact ⟨h, fun _ => rfl⟩
  | start uid =>
    obtain rfl := some.inj hstep
    split_ifs
    · exact ⟨h.call _, fun _ => rfl⟩
    · exact ⟨h, fun _ => rfl⟩
  | client msg =>
    obtain rfl := some.inj hstep
    split_ifs
    · exact ⟨h, fun _ => rfl⟩
    · exact ⟨h.call _, fun _ => rfl⟩
  | connect id =>
    obtain rfl := some.inj hstep
    split_ifs
    · exact ⟨h, fun _ => rfl⟩
    · exact ⟨h.call _, fun _ => rfl⟩

theorem framing_of_isRouting (hm : m.isRouting = true) (hstep : g.step m = some g') :
    g'.framing = g.framing := by
  cases m with
  | broker handle =>
    obtain rfl := some.inj hstep
    rfl
  | forward id agent client =>
    obtain rfl := some.inj hstep
    exact (forwardAgent_spec h id agent client).2
  | _ => cases hm

/-- The framing at the end of a run is what the inputs that are no routing commands make of it. -/
theorem framing_of_run {w : List GateInput} (hrun : Run step Routed g w g') :
    exec Framing.step g.framing (w.filter fun m => !m.isRouting) = some g'.framing := by
  refine hrun.exec_view (fun m => !m.isRouting) framing h
    (fun _ hstep hsound => (step_spec hsound hstep).1) ?_ ?_
  · intro g m g' _ hrouted hstep hsound
    exact (step_spec hsound hstep).2 hrouted
  · intro g m g' hm _ hstep hsound
    exact framing_of_isRouting hsound (by simpa using hm) hstep

end

variable {header : Char} {clientTag : UInt32} {max : ℕ} {listenId : Option ℕ}

theorem exists_step_data {watchdog : Option UInt32}
    (hinit : init header watchdog clientTag max listenId = some g) (hreach : Reachable step g g')
    (id : ℕ) (buffer : List UInt8) :
    ∃ g'', g'.step (.data id buffer) = some g'' := by
  have hsound : g'.Sound :=
    hreach.invariant (Sound.of_init hinit) fun hstep h => (step_spec h hstep).1
  obtain ⟨g'', hstep, -⟩ := data_spec hsound id buffer
  exact ⟨g'', hstep⟩

/-- Two gates take the same inputs, routing commands apart, and do not have the same watchdog. If
every packet that they find has a receiver, they find the same packets at the same places. -/
theorem cuts_eq {watchdog₁ watchdog₂ : Option UInt32} {g₁ g₂ g₁' g₂' : Gate}
    {w₁ w₂ : List GateInput} (hinit₁ : init header watchdog₁ clientTag max listenId = some g₁)
    (hinit₂ : init header watchdog₂ clientTag max listenId = some g₂)
    (hsame : (w₁.filter fun m => !m.isRouting) = w₂.filter fun m => !m.isRouting)
    (hrun₁ : Run step Routed g₁ w₁ g₁') (hrun₂ : Run step Routed g₂ w₂ g₂') :
    g₁'.cuts = g₂'.cuts := by
  have hframing : g₁.framing = g₂.framing := by
    unfold init at hinit₁ hinit₂
    split at hinit₁
    · cases hinit₁
    split at hinit₂
    · cases hinit₂
    obtain rfl := Option.some.inj hinit₁
    obtain rfl := Option.some.inj hinit₂
    rfl
  have h₁ := framing_of_run (.of_init hinit₁) hrun₁
  have h₂ := framing_of_run (.of_init hinit₂) hrun₂
  rw [hsame, hframing, h₂] at h₁
  exact congrArg Framing.cuts (Option.some.inj h₁).symm

/-- A gate with a watchdog and one with a broker. -/
theorem cuts_eq_two : ∃ g₁ g₂ g₁' g₂',
    init 'S' (some 1) 0 1 (some 0) = some g₁ ∧ init 'S' none 0 1 (some 0) = some g₂ ∧
    Run step Routed g₁ [.accept 0 5 [], .data 5 [0, 2, 0, 1, 0, 1, 65]] g₁' ∧
    Run step Routed g₂ [.broker 7, .accept 0 5 [], .data 5 [0, 2, 0, 1, 0, 1, 65]] g₂' ∧
    g₁'.cuts = [⟨5, 2, [0, 1]⟩, ⟨5, 6, [65]⟩] ∧ g₁'.cuts = g₂'.cuts := by
  have hinit₁ : init 'S' (some 1) 0 1 (some 0) = some ((init 'S' (some 1) 0 1 (some 0)).get rfl) :=
    rfl
  have hinit₂ : init 'S' none 0 1 (some 0) = some ((init 'S' none 0 1 (some 0)).get rfl) := rfl
  obtain ⟨g₁', hexec₁, hcuts₁⟩ : ∃ g', exec (guarded step fun g m => g.hasReceiver m = true)
      ((init 'S' (some 1) 0 1 (some 0)).get rfl)
      [.accept 0 5 [], .data 5 [0, 2, 0, 1, 0, 1, 65]] = some g' ∧
      g'.cuts = [⟨5, 2, [0, 1]⟩, ⟨5, 6, [65]⟩] := ⟨_, rfl, rfl⟩
  obtain ⟨g₂', hexec₂⟩ : ∃ g', exec (guarded step fun g m => g.hasReceiver m = true)
      ((init 'S' none 0 1 (some 0)).get rfl)
      [.broker 7, .accept 0 5 [], .data 5 [0, 2, 0, 1, 0, 1, 65]] = some g' := ⟨_, rfl⟩
  have hrun₁ := (run_of_exec_guarded hexec₁).mono fun _ _ => routed_of_hasReceiver
  have hrun₂ := (run_of_exec_guarded hexec₂).mono fun _ _ => routed_of_hasReceiver
  exact ⟨_, _, g₁', g₂', hinit₁, hinit₂, hrun₁, hrun₂, hcuts₁,
    cuts_eq hinit₁ hinit₂ (by rfl) hrun₁ hrun₂⟩

/-- Without a receiver the gate looks for headers in the packet. -/
theorem cuts_without_receiver : ∃ g₁ g₂, (init 'S' (some 1) 0 1 (some 0)).bind (exec step ·
      [.accept 0 5 [], .data 5 [0, 2, 0, 1, 0, 1, 65]]) = some g₁ ∧
    (init 'S' none 0 1 (some 0)).bind (exec step ·
      [.accept 0 5 [], .data 5 [0, 2, 0, 1, 0, 1, 65]]) = some g₂ ∧
    g₁.cuts = [⟨5, 2, [0, 1]⟩, ⟨5, 6, [65]⟩] ∧
    g₂.cuts = [⟨5, 2, [0, 1]⟩, ⟨5, 4, [0]⟩, ⟨5, 6, [65]⟩] ∧ g₁.cuts ≠ g₂.cuts :=
  ⟨_, _, rfl, rfl, rfl, rfl, by decide⟩

end Gate

end Uboss.Module
