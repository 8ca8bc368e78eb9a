import Uboss.Module.HarborCustody

/-!
# Messages to names

A message to a name that is not known waits for it. When the name is bound to a handle, the message
is written to the link of the harbor, or delivered if the harbor is this one. If the link is not
open yet, the message moves to the queue of the slave; there the destination is not completed any
more, and the message is lost when the link comes up.
-/

namespace Uboss.Module

open Math

/-- The cookie of a message whose name is bound to the handle. -/
def Origin.cookie (o : Origin) (handle : UInt32) : RemoteMessageHeader where
  source := o.source
  destination := (handle &&& handleMask) ||| (o.type.toUInt32 <<< handleRemoteShift)
  session := o.session.toUInt32

/-- What is delivered of a message whose name is bound to the handle. -/
def Origin.local (o : Origin) (handle : UInt32) : UbossSend :=
  ⟨o.source, handle, o.type.toUInt32 ||| ptypeTagDontcopy, o.session, o.data⟩

namespace NodeMsg

/-- If the message is one to a name, the name is bound, and the header has the handle. -/
def Complete (m : NodeMsg) : Prop := ∀ name bound, m.origin.target = .name name bound →
    ∃ handle, bound = some handle ∧ m.header = m.origin.cookie handle ∧ m.data = m.origin.data

variable {m : NodeMsg} {handle : UInt32}

/-- `dispatch_name_queue` completes the destination of what it writes. -/
theorem Unbound.complete (hm : Unbound m) (handle : UInt32) :
    Complete ((m.bind handle).complete handle) := by
  obtain ⟨name, hbind⟩ := hm.bind_eq handle
  rw [hbind]
  intro name' bound htarget
  obtain ⟨-, rfl⟩ := Target.name.inj htarget
  refine ⟨handle, rfl, ?_, hm.data⟩
  simp only [NodeMsg.complete, hm.header, Origin.cookie]
  rw [UInt32.or_comm]

theorem Unbound.complete_bind (hm : Unbound m) (hhandle : handle &&& handleMask = 0) :
    Complete (m.bind handle) := by
  obtain ⟨name, hbind⟩ := hm.bind_eq handle
  rw [hbind]
  intro name' bound htarget
  obtain ⟨-, rfl⟩ := Target.name.inj htarget
  refine ⟨handle, rfl, ?_, hm.data⟩
  simp [hm.header, Origin.cookie, hhandle]

end NodeMsg

theorem shiftRight_shiftLeft_type (type : UInt8) :
    (type.toUInt32 <<< handleRemoteShift) >>> handleRemoteShift = type.toUInt32 := by
  have htype := type.toNat_lt
  apply UInt32.toNat.inj
  simp only [handleRemoteShift, UInt32.toNat_shiftRight, UInt32.toNat_shiftLeft,
    UInt8.toNat_toUInt32, UInt32.reduceToNat, Nat.reduceMod, Nat.shiftLeft_eq,
    Nat.shiftRight_eq_div_pow]
  omega

namespace HarborNode

variable {h h' : HarborNode} {i : Fin remoteMax} {a : HarborAct} {refused : List HarborCall → Bool}

/-- A call for a message to a name has the handle that the name was bound to: a frame is written to
the link of its harbor with the low bits in the cookie, a delivery is to the handle. Source, type,
session and payload are those of the sender. -/
def Reaches (h : HarborNode) : HarborEvent → Prop
  | .call (.ubossSocketSend fd buffer _) (some m) =>
    ∀ name bound, m.origin.target = .name name bound →
      ∃ handle, bound = some handle ∧ (h.released = false → (h.s (harborOf handle)).fd = fd) ∧
        fd ≠ 0 ∧ buffer = remoteFrame m.origin.data (m.origin.cookie handle)
  | .call (.ubossSend u) (some m) =>
    ∀ name bound, m.origin.target = .name name bound →
      ∃ handle, bound = some handle ∧ u = m.origin.local handle
  | _ => True

/-- The part of it that is about the bytes. -/
def Carries : HarborEvent → Prop
  | .call (.ubossSocketSend _ buffer _) (some m) =>
    ∀ name bound, m.origin.target = .name name bound →
      ∃ handle, bound = some handle ∧ buffer = remoteFrame m.origin.data (m.origin.cookie handle)
  | .call (.ubossSend u) (some m) =>
    ∀ name bound, m.origin.target = .name name bound →
      ∃ handle, bound = some handle ∧ u = m.origin.local handle
  | _ => True

theorem reaches_of_carries {e : HarborEvent} (he : Carries e) (hlink : OnLink h e) :
    Reaches h e := by
  cases e with
  | call c m =>
    cases m with
    | none => cases c <;> trivial
    | some m =>
      cases c with
      | ubossSocketSend fd buffer sz =>
        intro name bound htarget
        obtain ⟨handle, rfl, hframe⟩ := he name bound htarget
        obtain ⟨hne, i, hi, hfd⟩ := hlink
        have hharbor : m.harbor = some (harborOf handle) := by
          rw [NodeMsg.harbor, htarget]
          rfl
        obtain rfl := Option.some_inj.mp (hharbor.symm.trans hi)
        exact ⟨handle, rfl, hfd, hne, hframe⟩
      | ubossSend u => exact he
      | _ => trivial
  | _ => trivial

theorem carries_remoteCall {m : NodeMsg} {fd : ℕ} (hm : m.Complete) :
    Carries (remoteCall fd m) := by
  unfold remoteCall
  split_ifs
  · trivial
  · intro name bound htarget
    obtain ⟨handle, hbound, hheader, hdata⟩ := hm name bound htarget
    refine ⟨handle, hbound, ?_⟩
    rw [hheader, hdata]

theorem carries_deliverEvents {m : NodeMsg} {handle : UInt32} (hm : m.Unbound) :
    ∀ e ∈ deliverEvents handle (m.bind handle), Carries e := by
  intro e he
  obtain ⟨name, hbind⟩ := hm.bind_eq handle
  rw [hbind] at he
  rcases List.mem_pair.mp he with rfl | rfl
  · intro name' bound htarget
    obtain ⟨-, rfl⟩ := Target.name.inj htarget
    refine ⟨handle, rfl, ?_⟩
    simp only [hm.header, hm.data, Origin.local, shiftRight_shiftLeft_type]
    rfl
  · trivial

/-- Messages in the queue of a slave are complete, and none to a name waits for the own harbor. -/
def Queued (slave : UInt32) (i : Fin remoteMax) (m : NodeMsg) : Prop :=
  m.Complete ∧ (i = harborOf slave → ∃ destination, m.origin.target = .handle destination)

theorem lawful_queued (slave : UInt32) :
    Lawful (Queued slave) (fun _ => Carries) slave where
  stays he _ := he
  plain := by
    intro h e he
    cases e with
    | call c m =>
      cases m with
      | none => cases c <;> trivial
      | some m => exact absurd rfl (he c m)
    | _ => trivial
  direct := ⟨fun name bound htarget => (by cases htarget), fun _ => ⟨_, rfl⟩⟩
  deliver := fun name bound htarget => by cases htarget
  send hm _ := carries_remoteCall hm.1
  own := by
    intro h m handle hm e he
    obtain ⟨destination, htarget⟩ := hm.2 rfl
    rcases List.mem_pair.mp he with rfl | rfl
    · intro name bound htarget'
      rw [htarget] at htarget'
      cases htarget'
    · trivial

/-! ### Steps and runs -/

/-- A step that moves no message without its destination: if messages wait for a name, its link is
open, or it is in this harbor, or there is nothing to complete. -/
def Completes (h : HarborNode) : HarborAct → Prop
  | .mainloop (.harbor msg source) =>
    ∀ name, parseCommand msg = .name name → h.nameQueue name ≠ none →
      (h.s (harborOf source)).fd ≠ 0 ∨ harborOf source = harborOf h.slave ∨
        source &&& handleMask = 0
  | _ => True

theorem binds_of_completes {msg : List UInt8} {source : UInt32} {name : GlobalName}
    {queue : List NodeMsg} (hguard : Completes h (.mainloop (.harbor msg source)))
    (hmsg : parseCommand msg = .name name) (hqueue : h.nameQueue name = some queue)
    (hnames : NamesUnbound h) :
    ∀ m ∈ queue, Binds (Queued h.slave) (fun _ => Carries) h source m := by
  intro m hm
  have hunbound := hnames.nameQueue hqueue m hm
  refine ⟨fun hfd hlocal => ?_, fun _ => carries_remoteCall (hunbound.complete source),
    carries_deliverEvents hunbound⟩
  have hmask := hguard name hmsg (by rw [hqueue]; exact Option.some_ne_none _)
  have hhandle := (hmask.resolve_left (not_not.mpr hfd)).resolve_left hlocal
  exact ⟨hunbound.complete_bind hhandle, fun heq => absurd heq hlocal⟩

/-- Every message that was queued because its name was not known reaches the handle that the name
was bound to, in every run in which no name with waiting messages is bound to a handle of another
harbor without a link. -/
theorem reaches_of_run (refused : List HarborCall → Bool) (id : ℕ) (slave : UInt32)
    (w : List HarborAct) (h : HarborNode)
    (hrun : Run (step refused) Completes (create id slave) w h) : ∀ e ∈ h.log, h.Reaches e := by
  have hcustody : h.slave = slave ∧ NamesUnbound h ∧
      Custody (Queued slave) (fun _ => Carries) h := by
    refine hrun.invariant (P := fun h => h.slave = slave ∧ NamesUnbound h ∧
      Custody (Queued slave) (fun _ => Carries) h)
      ⟨rfl, namesUnbound_create, custody_create⟩ ?_
    intro h a h' hguard hstep ⟨hslave, hnames, hh⟩
    have heffect := (effect_step hstep).2
    subst hslave
    refine ⟨heffect.ids.2, hnames.effect heffect, hh.effect (lawful_queued h.slave) rfl heffect ?_⟩
    intro msg source name queue ha hmsg hqueue
    subst ha
    exact binds_of_completes hguard hmsg hqueue hnames
  have hplaced := (placed_of_reachable hrun.reachable).2.2
  exact fun e he => reaches_of_carries (hcustody.2.2.log e he) (hplaced.log e he)

/-- A message to the name `x`. -/
def namedInput : HarborAct := .mainloop (.remote 0x01000005 (copyName (text "x")) 0 0 7 [1, 2])

/-- The message after the name was bound. -/
def boundOrigin (handle : UInt32) : Origin :=
  ⟨0x01000005, .name (copyName (text "x")) (some handle), 0, 7, [1, 2]⟩

/-- The name is bound to a service of this harbor. -/
theorem reaches_of_run_local : ∃ h u m, Run (step fun _ => false) Completes (create 1 0x01000001)
        [namedInput, .mainloop (.harbor (text "N x") 0x01000009)] h ∧
      .call (.ubossSend u) (some m) ∈ h.log ∧ u = (boundOrigin 0x01000009).local 0x01000009 := by
  let h₁ := (create 1 0x01000001).remoteMessage 0x01000005 (copyName (text "x")) 0 0 7 [1, 2]
  let h₂ := h₁.updateName (commandName (text "x")) 0x01000009
  have hguard : Completes h₁ (.mainloop (.harbor (text "N x") 0x01000009)) :=
    fun name _ _ => .inr (.inl (by decide))
  have hrun : Run (step fun _ => false) Completes (create 1 0x01000001)
      [namedInput, .mainloop (.harbor (text "N x") 0x01000009)] h₂ :=
    ((Run.nil _).snoc trivial rfl).snoc hguard rfl
  let m : NodeMsg := ⟨⟨0x01000005, 0, 7⟩, 0, [1, 2], boundOrigin 0x01000009⟩
  have hcall :
      .call (.ubossSend ⟨0x01000005, 0x01000009, 0x10000, 7, [1, 2]⟩) (some m) ∈ h₂.log := by
    decide +kernel
  obtain ⟨handle, hbound, hu⟩ := reaches_of_run _ _ _ _ _ hrun _ hcall _ _ rfl
  obtain rfl := Option.some_inj.mp hbound
  exact ⟨h₂, _, m, hrun, hcall, hu⟩

/-- The link is opened after the name was bound: the frame is for the handle 0. -/
theorem bound_without_link :
    ¬ ∀ h, Reachable (step fun _ => false) (create 1 0x01000001) h → ∀ e ∈ h.log, h.Reaches e := by
  intro hall
  let m : NodeMsg := ⟨⟨0x01000005, 0, 7⟩, 0, [1, 2], boundOrigin 0x02000009⟩
  let frame : List UInt8 := [0, 0, 0, 14, 1, 2, 1, 0, 0, 5, 0, 0, 0, 0, 0, 0, 0, 7]
  have hexec : (exec (step fun _ => false) (create 1 0x01000001)
      [namedInput, .mainloop (.harbor (text "N x") 0x02000009),
        .mainloop (.harbor (text "A 5 2") 0x01000001)]).map
          (fun h => decide (.call (.ubossSocketSend 5 frame 18) (some m) ∈ h.log)) = some true := by
    decide +kernel
  obtain ⟨h, hh, hcall⟩ := Option.map_eq_some_iff.mp hexec
  have hreaches := hall h (reachable_of_exec hh) _ (of_decide_eq_true hcall)
  obtain ⟨handle, hbound, -, -, hframe⟩ := hreaches _ _ rfl
  obtain rfl := Option.some_inj.mp hbound
  exact absurd hframe (by decide)

end HarborNode

end Uboss.Module
