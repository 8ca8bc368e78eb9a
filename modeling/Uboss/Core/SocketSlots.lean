import Uboss.Core.SocketRecycle

/-!
# The event poll and the types of the sockets

The invariant of the slots alone: free slots have empty lists, and a descriptor is registered for a
slot if and only if it is the descriptor of the slot and the socket has one of five types.
-/

namespace Uboss.Core

open Math Function Option Socket

namespace SocketTable

variable {ι : Type} {t t' : SocketTable ι} {i : Fin maxSocket}

/-- The invariant of the slots. -/
structure Wf (t : SocketTable ι) : Prop where
  lists : ∀ i, ¬ (t.slot i).socket.IsOpen →
    (t.slot i).socket.high = .empty ∧ (t.slot i).socket.low = .empty
  quiet : ∀ i, t.Quiet i
  held : ∀ i, (t.slot i).socket.IsOpen → (t.slot i).fd ≠ none
  polled : ∀ fd i, t.poll fd = some i ↔ (t.slot i).fd = some fd ∧ (t.slot i).socket.type.Registered
  records : ∀ r ∈ t.records, r.deleted = r.registered

/-- The part of the invariant that is about one slot. -/
structure SlotWf (t : SocketTable ι) (i : Fin maxSocket) : Prop where
  lists : ¬ (t.slot i).socket.IsOpen →
    (t.slot i).socket.high = .empty ∧ (t.slot i).socket.low = .empty
  quiet : t.Quiet i
  held : (t.slot i).socket.IsOpen → (t.slot i).fd ≠ none

namespace Wf

variable {fd : Fd} {x : Socket ι}

theorem polls_iff (h : t.Wf) (i : Fin maxSocket) :
    t.Polls i ↔ (t.slot i).socket.type.Registered := by
  constructor
  · rintro ⟨fd, hfd, hpoll⟩
    exact ((h.polled fd i).mp hpoll).2
  · intro hregistered
    obtain ⟨fd, hfd⟩ := ne_none_iff_exists'.mp (h.held i (isOpen_of_registered hregistered))
    exact ⟨fd, hfd, (h.polled fd i).mpr ⟨hfd, hregistered⟩⟩

theorem of_slot (h : t.Wf) (hslot : ∀ j, j ≠ i → t'.slot j = t.slot j) (hi : t'.SlotWf i)
    (hothers : ∀ fd j, j ≠ i → (t'.poll fd = some j ↔ t.poll fd = some j))
    (hself : ∀ fd, t'.poll fd = some i ↔
      (t'.slot i).fd = some fd ∧ (t'.slot i).socket.type.Registered)
    (hrecords : ∀ r ∈ t'.records, r.deleted = r.registered) : t'.Wf where
  lists j := by
    by_cases hj : j = i
    · exact hj ▸ hi.lists
    · rw [hslot j hj]
      exact h.lists j
  quiet j := by
    by_cases hj : j = i
    · exact hj ▸ hi.quiet
    · unfold Quiet
      rw [hslot j hj]
      exact h.quiet j
  held j := by
    by_cases hj : j = i
    · exact hj ▸ hi.held
    · rw [hslot j hj]
      exact h.held j
  polled fd j := by
    by_cases hj : j = i
    · exact hj ▸ hself fd
    · rw [hothers fd j hj, hslot j hj]
      exact h.polled fd j
  records := hrecords

theorem of_poll_eq (h : t.Wf) (hslot : ∀ j, j ≠ i → t'.slot j = t.slot j) (hi : t'.SlotWf i)
    (hpoll : t'.poll = t.poll)
    (htype : (t'.slot i).socket.type.Registered ↔ (t.slot i).socket.type.Registered)
    (hfd : (t.slot i).socket.type.Registered → (t'.slot i).fd = (t.slot i).fd)
    (hrecords : t'.records = t.records) : t'.Wf := by
  refine h.of_slot hslot hi (fun fd j _ => by rw [hpoll]) (fun fd => ?_) (hrecords ▸ h.records)
  rw [hpoll, h.polled fd i, htype]
  refine and_congr_left fun hregistered => ?_
  rw [hfd hregistered]

theorem of_register (h : t.Wf) (hslot : ∀ j, j ≠ i → t'.slot j = t.slot j)
    (hfree : t.poll fd = none) (hpoll : t'.poll = update t.poll fd (some i))
    (hbefore : ¬ (t.slot i).socket.type.Registered) (htype : (t'.slot i).socket.type.Registered)
    (hfd : (t'.slot i).fd = some fd) (hrecords : t'.records = t.records) : t'.Wf := by
  have hopen := isOpen_of_registered htype
  have hi : t'.SlotWf i := {
    lists := fun h => absurd hopen h
    quiet := fun hunstarted => absurd hunstarted (hopen.registered_iff.mp htype)
    held := fun _ hnone => by rw [hfd] at hnone; cases hnone }
  refine h.of_slot hslot hi (fun x j hj => ?_) (fun x => ?_) (hrecords ▸ h.records)
  · rw [hpoll]
    by_cases hx : x = fd
    · subst hx
      rw [update_self, hfree]
      simp [hj.symm]
    · rw [update_of_ne hx]
  · rw [hpoll, hfd]
    by_cases hx : x = fd
    · subst hx
      simp [htype]
    · rw [update_of_ne hx, h.polled x i]
      simp [hbefore, Ne.symm hx]

theorem put (h : t.Wf) (hkept : (t.slot i).socket.Kept x) : (t.put i x).Wf := by
  have hi : (t.put i x).SlotWf i := {
    lists := fun hclosed => by
      rw [put_slot_self] at hclosed ⊢
      rw [hkept.isOpen_iff] at hclosed
      obtain ⟨hhigh, hlow⟩ := hkept.lists.resolve_left hclosed
      obtain ⟨hhigh', hlow'⟩ := h.lists i hclosed
      exact ⟨hhigh.trans hhigh', hlow.trans hlow'⟩
    quiet := fun hunstarted => by
      rw [put_slot_self] at hunstarted ⊢
      have hbefore := hkept.unstarted_of hunstarted
      obtain ⟨hqueued, hdw⟩ := h.quiet i hbefore
      exact hkept.unstarted hbefore hqueued hdw
    held := fun hopen => by
      rw [put_slot_self] at hopen ⊢
      exact h.held i (hkept.isOpen_iff.mp hopen) }
  refine h.of_poll_eq (fun j hj => put_slot_of_ne hj x) hi rfl ?_ (fun _ => ?_) rfl
  · rw [put_slot_self]
    exact hkept.registered_iff
  · rw [put_slot_self]

theorem deletes_iff (hopen : (t.slot i).socket.IsOpen) :
    deletes (t.slot i).socket.type = true ↔ (t.slot i).socket.type.Registered := by
  rw [hopen.registered_iff, SocketType.Unstarted, not_or]
  simp [deletes]

section

variable (h : t.Wf)
include h

section

variable (hopen : (t.slot i).socket.IsOpen)
include hopen

theorem poll_release_of_ne {j : Fin maxSocket} (hj : j ≠ i) :
    (t.release i x).poll fd = some j ↔ t.poll fd = some j := by
  unfold SocketTable.release spDel
  dsimp only
  split_ifs with hdel
  · obtain ⟨fd', hfd'⟩ := ne_none_iff_exists'.mp (h.held i hopen)
    rw [hfd']
    dsimp only
    by_cases heq : fd = fd'
    · -- the descriptor of the slot was registered for it, not for `j`
      subst heq
      rw [update_self, (h.polled fd i).mpr ⟨hfd', (deletes_iff hopen).mp hdel⟩]
      simp [hj.symm]
    · rw [update_of_ne heq]
  · rfl

theorem poll_release_ne : (t.release i x).poll fd ≠ some i := by
  unfold SocketTable.release spDel
  dsimp only
  split_ifs with hdel
  · obtain ⟨fd', hfd'⟩ := ne_none_iff_exists'.mp (h.held i hopen)
    rw [hfd']
    dsimp only
    by_cases heq : fd = fd'
    · subst heq
      simp
    · rw [update_of_ne heq]
      intro hpoll
      have hfd := ((h.polled fd i).mp hpoll).1
      rw [hfd'] at hfd
      exact heq (some_inj.mp hfd).symm
  · intro hpoll
    exact hdel ((deletes_iff hopen).mpr ((h.polled fd i).mp hpoll).2)

theorem release (hinvalid : x.type = .invalid) (hhigh : x.high = .empty) (hlow : x.low = .empty) :
    (t.release i x).Wf := by
  have hself : (t.release i x).slot i = { t.slot i with socket := x } := put_slot_self t i x
  have hregistered : ¬ x.type.Registered := by
    simp [hinvalid, SocketType.Registered]
  have hi : (t.release i x).SlotWf i := {
    lists := fun _ => by rw [hself]; exact ⟨hhigh, hlow⟩
    quiet := fun hunstarted => by
      rw [hself] at hunstarted
      simp [hinvalid, SocketType.Unstarted] at hunstarted
    held := fun hopen => by
      rw [hself] at hopen
      exact absurd hinvalid hopen.1 }
  refine h.of_slot (fun j hj => put_slot_of_ne hj x) hi (fun fd j hj => ?_) (fun fd => ?_)
    fun r hr => ?_
  · exact poll_release_of_ne h hopen hj
  · rw [hself]
    exact iff_of_false (poll_release_ne h hopen) fun hreg => hregistered hreg.2
  · rcases List.mem_append.mp hr with hr | hr
    · exact h.records r hr
    · obtain rfl := List.mem_singleton.mp hr
      have hiff := (deletes_iff hopen).trans (h.polls_iff i).symm
      by_cases hpolls : t.Polls i
      · rw [hiff.mpr hpolls, decide_eq_true hpolls]
      · rw [decide_eq_false hpolls, Bool.eq_false_iff]
        exact fun hdel => hpolls (hiff.mp hdel)

end

/-- The commands for open sockets and the events. -/
theorem change (hchange : Change t i t') : t'.Wf := by
  cases hchange with
  | stay => exact h
  | put hkept => exact h.put hkept
  | release hopen hinvalid hhigh hlow => exact h.release hopen hinvalid hhigh hlow
  | @start fd type hunstarted htype hfd hpoll =>
    have hregistered : type.Registered := by
      rcases htype with rfl | rfl <;> simp [SocketType.Registered]
    have hbefore : ¬ (t.slot i).socket.type.Registered := by
      rw [(isOpen_of_unstarted hunstarted).registered_iff]
      exact not_not_intro hunstarted
    have hself : ((t.register i fd).setType i type).slot i =
        { t.slot i with socket := { (t.slot i).socket with type := type } } :=
      put_slot_self (t.register i fd) i _
    refine h.of_register (fun j hj => put_slot_of_ne hj _) hpoll rfl hbefore ?_ ?_ rfl
    · rw [hself]
      exact hregistered
    · rw [hself]
      exact hfd

theorem congr (hslot : t'.slot = t.slot) (hpoll : t'.poll = t.poll)
    (hrecords : t'.records = t.records) : t'.Wf where
  lists := hslot ▸ h.lists
  quiet i := by
    unfold Quiet
    rw [hslot]
    exact h.quiet i
  held := hslot ▸ h.held
  polled := by
    rw [hslot, hpoll]
    exact h.polled
  records := hrecords ▸ h.records

theorem setType {type : SocketType} (hclosed : ¬ (t.slot i).socket.IsOpen)
    (htype : type = .invalid ∨ type = .reserve) : (t.setType i type).Wf := by
  have hself : (t.setType i type).slot i =
      { t.slot i with socket := { (t.slot i).socket with type := type } } := put_slot_self t i _
  have hopen : ¬ Socket.IsOpen { (t.slot i).socket with type := type } := by
    rcases htype with rfl | rfl <;> simp [Socket.IsOpen]
  have hunregistered : ¬ ((t.setType i type).slot i).socket.type.Registered := by
    rw [hself]
    exact fun hregistered => hopen (isOpen_of_registered hregistered)
  have hi : (t.setType i type).SlotWf i := {
    lists := fun _ => by
      rw [hself]
      exact h.lists i hclosed
    quiet := fun hunstarted => by
      rw [hself] at hunstarted
      exact absurd (isOpen_of_unstarted hunstarted) hopen
    held := fun hisOpen => by
      rw [hself] at hisOpen
      exact absurd hisOpen hopen }
  refine h.of_poll_eq (fun j hj => put_slot_of_ne hj _) hi rfl ?_ (fun _ => by rw [hself]) rfl
  exact iff_of_false hunregistered fun hreg => hclosed (isOpen_of_registered hreg)

/-- `reserve_id` stores the id and the descriptor -1 in a slot that is reserved. -/
theorem nameSlot {id : ℕ} (hclosed : ¬ (t.slot (hashId id)).socket.IsOpen) :
    (t.nameSlot id).Wf := by
  have hself := nameSlot_slot_self t id
  have hopen : ¬ ((t.nameSlot id).slot (hashId id)).socket.IsOpen := by
    rw [hself]
    exact hclosed
  have hi : (t.nameSlot id).SlotWf (hashId id) := {
    lists := fun _ => by
      rw [hself]
      exact h.lists _ hclosed
    quiet := fun hunstarted => absurd (isOpen_of_unstarted hunstarted) hopen
    held := fun hisOpen => absurd hisOpen hopen }
  refine h.of_poll_eq (fun j hj => nameSlot_slot_of_ne hj) hi rfl ?_ (fun hreg => ?_) rfl
  · rw [hself]
  · exact absurd (isOpen_of_registered hreg) hclosed

/-- A slot that was free or reserved gets a socket that is to be started. -/
theorem install {id : ℕ} (hclosed : ¬ (t.slot i).socket.IsOpen) (htype : x.type.Unstarted)
    (hqueued : x.queued = []) (hdw : x.dw = none) : (t.install i id fd x).Wf := by
  have hself : (t.install i id fd x).slot i = ⟨x, id, some fd⟩ := install_slot_self ..
  have hopen : x.IsOpen := isOpen_of_unstarted htype
  have hi : (t.install i id fd x).SlotWf i := {
    lists := fun hcl => by
      rw [hself] at hcl
      exact absurd hopen hcl
    quiet := fun _ => by
      rw [hself]
      exact ⟨hqueued, hdw⟩
    held := fun _ => by
      rw [hself]
      simp }
  refine h.of_poll_eq (fun j hj => update_of_ne hj ..) hi rfl ?_ (fun hreg => ?_) rfl
  · rw [hself, hopen.registered_iff]
    exact iff_of_false (not_not_intro htype) fun hreg =>
      hclosed (isOpen_of_registered hreg)
  · exact absurd (isOpen_of_registered hreg) hclosed

/-- A slot that was reserved gets a socket whose descriptor is registered. -/
theorem started {id : ℕ} (hclosed : ¬ (t.slot (hashId id)).socket.IsOpen)
    (htype : x.type.Registered) (hpoll : t.poll fd = none) : (t.started id fd x).Wf := by
  have hself : (t.started id fd x).slot (hashId id) = ⟨x, id, some fd⟩ := install_slot_self ..
  refine h.of_register (fun j hj => update_of_ne hj ..) hpoll rfl ?_ ?_ ?_ rfl
  · exact fun hreg => hclosed (isOpen_of_registered hreg)
  · rw [hself]
    exact htype
  · rw [hself]

/-- The commands that open a socket. -/
theorem opened {r : Request ι} {e : CommandEnd} (hopened : Opened t r t' e)
    (htype : (t.slot (hashId r.id)).socket.type = .reserve) : t'.Wf := by
  have hclosed : ¬ (t.slot (hashId r.id)).socket.IsOpen := fun hopen => hopen.2 htype
  have hspend : ∀ k fds, (t.spend k fds).Wf := fun k fds => h.congr rfl rfl rfl
  cases hopened with
  | openFailed _ => exact (hspend _ _).setType hclosed (.inl rfl)
  | opened hx hpoll =>
    refine (hspend _ _).started hclosed ?_ hpoll
    rcases hx with hx | hx <;> simp [hx, SocketType.Registered]
  | listened hx hqueued hdw => exact h.install hclosed (.inr hx) hqueued hdw
  | bindFailed => exact h.setType hclosed (.inl rfl)
  | bound hx hpoll =>
    exact h.started hclosed (by simp [hx, SocketType.Registered]) hpoll
  | udpFailed => exact (h.setType hclosed (.inl rfl)).congr rfl rfl rfl
  | udpOpened hx hpoll =>
    exact h.started hclosed (by simp [hx, SocketType.Registered]) hpoll

/-- The events of listening sockets. -/
theorem accepted {id : Option ℕ} (haccepted : Accepted t id t') : t'.Wf := by
  cases haccepted with
  | stay => exact h
  | refused => exact h.congr rfl rfl rfl
  | @accepted id allocId x hfree hx hqueued hdw =>
    have hspend : Wf { t.spend 1 [] with allocId := allocId } := h.congr rfl rfl rfl
    exact hspend.install (fun hopen => hopen.1 hfree) (.inl hx) hqueued hdw

end

theorem create (m : Fin maxSocket → Slot ι) : (SocketTable.create m).Wf where
  lists _ _ := ⟨rfl, rfl⟩
  quiet i hunstarted := by
    rcases hunstarted with h | h <;> cases h
  held i hopen := absurd rfl hopen.1
  polled fd i := by
    simp [SocketTable.create, SocketType.Registered]
  records r hr := by
    cases hr

end Wf

end SocketTable

end Uboss.Core
