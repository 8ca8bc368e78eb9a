import Uboss.Core.SocketCustody

/-!
# Requests and events hit their own socket

In every run whose steps meet the condition `SocketRecycle.Safe`, requests and events are applied
to the socket that they are for, and the assertions of `force_close` and `new_fd` do not fail.
Without the condition they can fail: a slot that was reserved has the id of its last socket until
the new one is stored.
-/

namespace Uboss.Core

open Math Function List SocketTable Issued

namespace SocketRecycle

variable {ι : Type}

/-- The invariant. -/
structure Inv (s : SocketRecycle ι) : Prop where
  wf : s.table.Wf
  requests : Requests s.table s.life s.swapped s.posting s.pipe s.known
  fetched : Fetched s.table s.life s.events s.poller

variable {s s' : SocketRecycle ι}

theorem inv_init (m : Fin maxSocket → Slot ι) : (init m).Inv where
  wf := .create m
  requests := {
    nodup := nodup_nil
    reserved := fun i => by simp [init, create, pending]
    lives := fun p hp => by cases hp
    opening := fun p hp => by cases hp
    named := fun p hp => by cases hp
    unused := fun p hp => by cases hp
    order := .nil
    refs := fun x hx => by cases hx }
  fetched := {
    nodup := nodup_nil
    lives := fun e he => by cases he
    unreserved := fun e he => by cases he
    closed := fun e he => by cases he
    failing := fun i id hi => by cases hi }

theorem Inv.of_slot_eq (h : s.Inv) (t : SocketTable ι) (trying : List (Opener × Option ℕ))
    (hslot : t.slot = s.table.slot) (hpoll : t.poll = s.table.poll)
    (hrecords : t.records = s.table.records) : Inv { s with table := t, trying := trying } where
  wf := h.wf.congr hslot hpoll hrecords
  requests := h.requests.drift fun i => by simp [hslot]
  fetched := h.fetched.frame (fun e _ => by simp [hslot]) fun i id hi => by
    dsimp only
    rw [hslot]
    exact h.fetched.failing i id hi

theorem Inv.put (h : s.Inv) {i : Fin maxSocket} {x : Socket ι}
    (hkept : (s.table.slot i).socket.Kept x) (htype : x.type = (s.table.slot i).socket.type) :
    Inv { s with table := s.table.put i x } := by
  have hslot : ∀ j, ((s.table.put i x).slot j).socket.type = (s.table.slot j).socket.type ∧
      ((s.table.put i x).slot j).id = (s.table.slot j).id := by
    intro j
    by_cases hj : j = i
    · rw [hj, put_slot_self]
      exact ⟨htype, rfl⟩
    · rw [put_slot_of_ne hj]
      exact ⟨rfl, rfl⟩
  exact {
    wf := h.wf.put hkept
    requests := h.requests.drift fun j => ⟨(hslot j).2, .inl (hslot j).1⟩
    fetched := h.fetched.frame (fun e _ => ⟨(hslot e.1).1, (hslot e.1).2, rfl⟩) fun j id hj =>
      (hslot j).1.trans (h.fetched.failing j id hj) }

theorem opens?_eq_none {p : Issued ι} (hp : p.opens = false) : p.request.opens? = none := by
  simpa [opens] using hp

theorem opens?_ne_none {p : Issued ι} (hp : p.opens = true) : p.request.opens? ≠ none := by
  simpa [opens, Option.isSome_iff_ne_none] using hp

/-- A request for a socket comes to an open socket, if the slot has the id. -/
theorem Inv.isOpen_of_named (h : s.Inv) {p : Issued ι} {rest : List (Issued ι)}
    (hpipe : s.pipe = p :: rest) (hp : p.opens = false)
    (hsafe : (s.table.slot p.slot).id = p.id → ∀ q ∈ s.swapped, q.slot ≠ p.slot)
    (hnamed : s.table.Named p.id) : (s.table.slot p.slot).socket.IsOpen := by
  refine ⟨hnamed.1, fun hreserve => ?_⟩
  obtain ⟨q, hq, hslot⟩ := (h.requests.reserved p.slot).mp hreserve
  rw [pending, append_assoc, mem_append] at hq
  rcases hq with hq | hq
  · exact hsafe hnamed.2 q hq hslot
  -- otherwise the slot has the id of the request that reserves it
  have hid : p.id = q.id := by
    have hq' := h.requests.named q hq
    rw [hslot] at hq'
    exact hnamed.2.symm.trans hq'
  rcases mem_append.mp hq with hq | hq
  · exact (h.requests.unused q (mem_append_right _ hq)).2 p (hpipe ▸ mem_cons_self) hid
  · obtain ⟨hmem, hopens⟩ := mem_filter.mp hq
    have horder := h.requests.order
    rw [hpipe] at horder hmem
    rcases mem_cons.mp hmem with rfl | hmem
    · rw [hp] at hopens
      cases hopens
    · exact (pairwise_cons.mp horder).1 q hmem hopens hid

theorem Inv.reserve_of_opens (h : s.Inv) {p : Issued ι} {rest : List (Issued ι)}
    (hpipe : s.pipe = p :: rest) (hp : p.opens = true) :
    p ∈ pending s.swapped s.posting s.pipe ∧ (s.table.slot p.slot).socket.type = .reserve := by
  have hmem : p ∈ pending s.swapped s.posting s.pipe :=
    mem_append_right _ (mem_filter.mpr ⟨hpipe ▸ mem_cons_self, hp⟩)
  exact ⟨hmem, (h.requests.reserved p.slot).mpr ⟨p, hmem, rfl⟩⟩

theorem Inv.accept (h : s.Inv) {e : Fin maxSocket × ℕ} {rest : List (Fin maxSocket × ℕ)}
    (hpoller : s.poller = .idle) (hevents : s.events = e :: rest) {id : Option ℕ}
    {t : SocketTable ι} (haccepted : SocketTable.Accepted s.table id t)
    (hunused : ∀ x ∈ id, Unused s.known s.pipe x) : (s.handled t id).Inv := by
  have hwf := h.wf.accepted haccepted
  have hfetched := h.fetched
  rw [hpoller, hevents] at hfetched
  have hrest : Fetched s.table s.life rest .idle := hfetched.event .stay
  have htail : s.events.tail = rest := by rw [hevents, tail_cons]
  cases haccepted with
  | stay =>
    refine ⟨hwf, h.requests, ?_⟩
    simp only [handled, htail, hpoller]
    exact hrest
  | refused =>
    refine ⟨hwf, h.requests.drift fun i => ⟨rfl, .inl rfl⟩, ?_⟩
    simp only [handled, htail, hpoller]
    exact hrest.frame (fun x _ => ⟨rfl, rfl, rfl⟩) fun i id hi => by cases hi
  | @accepted id allocId x hfree hx _ _ =>
    have hself := install_slot_self { s.table.spend 1 [] with allocId := allocId }
      (hashId id) id (.server s.table.nextFd) x
    have htype := (congrArg (fun y : Slot ι => y.socket.type) hself).trans hx
    refine ⟨hwf, h.requests.accepted hfree (hunused id rfl)
      (fun i hi => update_of_ne hi ..) (fun hreserve => ?_) (congrArg Slot.id hself), ?_⟩
    · cases htype.symm.trans hreserve
    · simp only [handled, htail, hpoller]
      exact hfetched.accepted hfree fun j hj =>
        ⟨update_of_ne hj .., update_of_ne hj ..⟩

section Step

variable [DecidableEq ι] {soi : SocketObjectInterface}

theorem Inv.command (h : s.Inv) {o : CommandOutcome} (hsafe : s.Safe (.command o))
    (hstep : s.step soi (.command o) = .ok s') : s'.Inv := by
  simp only [step] at hstep
  split at hstep
  next p rest hpoller hpipe =>
    obtain ⟨⟨t, e⟩, hcmd, rfl⟩ := map_eq_ok_iff.mp hstep
    have hfetched := h.fetched
    rw [hpoller] at hfetched
    cases hp : p.opens with
    | false =>
      have hopen := h.isOpen_of_named hpipe hp (hsafe p (by rw [hpipe]; rfl) hp)
      obtain ⟨hchange, hend⟩ := change_ctrlCmd (opens?_eq_none hp) hopen (h.wf.quiet _) hcmd
      exact {
        wf := h.wf.change hchange
        requests := (h.requests.pop hpipe hp).drift (drifts_of_change hchange)
        fetched := hfetched.command hchange hend }
    | true =>
      obtain ⟨hmem, hreserve⟩ := h.reserve_of_opens hpipe hp
      have hopened := opened_ctrlCmd (opens?_ne_none hp) hcmd
      have hslot := opensSlot_of_opened hopened
      have hid : (s.table.slot p.slot).id = p.id := h.requests.named p
        (mem_append_right _ (mem_filter.mpr ⟨hpipe ▸ mem_cons_self, hp⟩))
      exact {
        wf := h.wf.opened hopened hreserve
        requests := h.requests.opened hpipe hp hslot.other hslot.type (hslot.id hid)
        fetched := hfetched.opened hreserve hslot.other hslot.failing }
  · cases hstep

theorem Inv.event (h : s.Inv) {o : EventOutcome} (hsafe : s.Safe (.event o))
    (hstep : s.step soi (.event o) = .ok s') : s'.Inv := by
  obtain rfl | ⟨e, rest, t, hpoller, hevents, hevent, rfl⟩ := event_cases hstep
  · exact h
  · have hfetched := h.fetched
    rw [hpoller, hevents] at hfetched
    have hopen := hfetched.isOpen mem_cons_self
    by_cases hlisten : (s.table.slot e.1).socket.type = .listen
    · have haccepted := accepted_handleEvent hlisten hevent
      exact h.accept hpoller hevents haccepted (hsafe e (by rw [hevents]; rfl))
    · have hchange := change_handleEvent hopen hlisten hevent
      have hnone : s.table.acceptedId e.1 o = none := if_neg fun h => hlisten h.1
      rw [hnone]
      refine {
        wf := h.wf.change hchange
        requests := h.requests.drift (drifts_of_change hchange)
        fetched := ?_ }
      simp only [handled, hevents, tail_cons, hpoller]
      exact hfetched.event hchange

theorem Inv.reserve (h : s.Inv) {k : ℕ} (hsafe : s.Safe (.swap k))
    (hstep : s.step soi (.swap k) = .ok s') : s'.Inv := by
  simp only [step] at hstep
  split at hstep
  next o id hk =>
    split_ifs at hstep with hfree
    cases hstep
    obtain ⟨hunused, hcleared⟩ := hsafe _ hk id rfl
    have hopen : ¬ (s.table.slot (hashId id)).socket.IsOpen := fun hopen => hopen.1 hfree
    have hid : Request.id (o.request id : Request ι) = id := by
      cases o <;> rfl
    have hopens : Request.opens? (o.request id : Request ι) = some id := by
      cases o <;> rfl
    refine ⟨h.wf.setType hopen (.inr rfl), ?_,
      h.fetched.swap hfree (RecyclePoller.Cleared.cases hcleared)⟩
    have hq := h.requests.swap (q := ⟨s.life (hashId id) + 1, o.request id⟩)
    simp only [Issued.slot, Issued.id, Issued.opens, hid, hopens] at hq
    exact hq hfree rfl trivial hunused
  · cases hstep

/-- Every step that meets the conditions keeps the invariant. -/
theorem inv_step (h : s.Inv) {a : RecycleAct ι} (hsafe : s.Safe a)
    (hstep : s.step soi a = .ok s') : s'.Inv := by
  cases a with
  | call c =>
    cases hstep
    cases c with
    | connect | bind fd => exact h.of_slot_eq s.table _ rfl rfl rfl
    | listen | udp v6 => exact h.of_slot_eq s.table.openFd _ rfl rfl rfl
  | draw k =>
    simp only [step] at hstep
    split at hstep
    · cases hstep
      exact h.of_slot_eq _ _ rfl rfl rfl
    · cases hstep
  | retry k =>
    simp only [step] at hstep
    split at hstep
    · split_ifs at hstep
      cases hstep
      exact h.of_slot_eq s.table _ rfl rfl rfl
    · cases hstep
  | giveUp k =>
    simp only [step] at hstep
    split at hstep
    next o hk =>
      cases hstep
      cases o with
      | connect | bind fd | listen fd | udp fd v6 => exact h.of_slot_eq _ _ rfl rfl rfl
    · cases hstep
  | swap k => exact h.reserve hsafe hstep
  | store k =>
    simp only [step] at hstep
    split at hstep
    next p hk =>
      cases hstep
      have hperm := perm_cons_eraseIdx hk
      have hmem : p ∈ pending s.swapped s.posting s.pipe :=
        mem_append_left _ (mem_append_left _ (hperm.mem_iff.mpr mem_cons_self))
      have hreserve := (h.requests.reserved p.slot).mpr ⟨p, hmem, rfl⟩
      exact ⟨h.wf.nameSlot fun hopen => hopen.2 hreserve, h.requests.store hperm,
        h.fetched.store hreserve⟩
    · cases hstep
  | post k =>
    simp only [step] at hstep
    split at hstep
    next p hk =>
      cases hstep
      exact ⟨h.wf, h.requests.post (perm_cons_eraseIdx hk), h.fetched⟩
    · cases hstep
  | forget k =>
    cases hstep
    exact ⟨h.wf, h.requests.mono fun x hx => mem_of_mem_eraseIdx hx, h.fetched⟩
  | request k r =>
    simp only [step] at hstep
    split at hstep
    next id life hk =>
      split_ifs at hstep with hr
      cases hstep
      refine ⟨h.wf, h.requests.request ?_ ?_, h.fetched⟩
      · simp [opens, hr.1]
      · rw [Issued.id, hr.2]
        exact mem_of_getElem? hk
    · cases hstep
  | udpConnect id =>
    cases hstep
    unfold incUdpconnecting
    split_ifs
    · exact h.put ⟨.inl rfl, fun _ hq hdw => ⟨hq, hdw⟩, .inr ⟨rfl, rfl⟩⟩ rfl
    · exact h
  | directWrite i p offset =>
    simp only [step] at hstep
    split_ifs at hstep with hcan
    cases hstep
    refine h.put ⟨.inl rfl, fun hunstarted => ?_, .inr ⟨rfl, rfl⟩⟩ rfl
    rw [Socket.type_of_canDirectWrite hcan] at hunstarted
    rcases hunstarted with h | h <;> cases h
  | command o => exact h.command hsafe hstep
  | failed =>
    simp only [step] at hstep
    split at hstep
    next i id hpoller =>
      cases hstep
      have hfetched := h.fetched
      rw [hpoller] at hfetched
      have hinvalid := hfetched.failing i id rfl
      have hdrifts : Drifts s.table (s.table.setType i .invalid) := by
        intro j
        by_cases hj : j = i
        · rw [hj, setType, put_slot_self]
          exact ⟨rfl, .inl hinvalid.symm⟩
        · rw [setType, put_slot_of_ne hj]
          exact ⟨rfl, .inl rfl⟩
      exact ⟨h.wf.setType (fun hopen => hopen.1 hinvalid) (.inl rfl), h.requests.drift hdrifts,
        hfetched.failed⟩
    · cases hstep
  | clear =>
    simp only [step] at hstep
    split at hstep
    next id hpoller =>
      cases hstep
      have hfetched := h.fetched
      rw [hpoller] at hfetched
      exact ⟨h.wf, h.requests, hfetched.clear fun e => by simp [clears]⟩
    · cases hstep
  | wait fds =>
    simp only [step] at hstep
    split_ifs at hstep with hwait
    cases hstep
    refine ⟨h.wf, h.requests, ?_⟩
    simp only [fetch, hwait.1]
    exact Fetched.wait h.wf hwait.2.2
  | event o => exact h.event hsafe hstep

omit [DecidableEq ι] in
theorem Inv.aims (h : s.Inv) {a : RecycleAct ι} (hsafe : s.Safe a) : s.Aims a := by
  cases a with
  | command o =>
    intro p hp happlies
    obtain ⟨rest, hpipe⟩ := head?_eq_some_iff.mp hp
    cases hopens : p.opens with
    | true =>
      obtain ⟨hmem, hreserve⟩ := h.reserve_of_opens hpipe hopens
      exact ⟨h.requests.lives p hmem, iff_of_true hreserve rfl⟩
    | false =>
      have hnamed : s.table.Named p.id := happlies.resolve_left (by simp [hopens])
      have hswapped := hsafe p hp hopens hnamed.2
      have hopen := h.isOpen_of_named hpipe hopens (hsafe p hp hopens) hnamed
      have hx : (p.id, p.life) ∈ s.known ++ s.pipe.map fun p => (p.id, p.life) :=
        mem_append_right _ (mem_map_of_mem (mem_of_mem_head? hp))
      exact ⟨h.requests.refs _ hx hswapped hnamed.1 hnamed.2, iff_of_false hopen.2 (by simp)⟩
  | event o =>
    intro e he _
    have hmem := mem_of_mem_head? he
    exact ⟨h.fetched.lives e hmem, h.fetched.unreserved e hmem⟩
  | _ => trivial

theorem not_ofReserve_disabled : ¬ TableFault.OfReserve .disabled := by decide

theorem Inv.not_ofReserve (h : s.Inv) {a : RecycleAct ι} (hsafe : s.Safe a) {e : TableFault}
    (herr : s.step soi a = .error e) : ¬ e.OfReserve := by
  cases a with
  | command o =>
    simp only [step] at herr
    split at herr
    next p rest hpoller hpipe =>
      rw [map_eq_error_iff] at herr
      cases hp : p.opens with
      | false =>
        have hopen := h.isOpen_of_named hpipe hp (hsafe p (by rw [hpipe]; rfl) hp)
        exact ctrlCmd_error (opens?_eq_none hp) hopen herr
      | true =>
        obtain ⟨-, hreserve⟩ := h.reserve_of_opens hpipe hp
        obtain ⟨hhigh, hlow⟩ := h.wf.lists p.slot fun hopen => hopen.2 hreserve
        obtain ⟨x, hx⟩ : ∃ x, s.table.ctrlCmd soi o p.request = .ok x :=
          exists_ctrlCmd (opens?_ne_none hp) hreserve hhigh hlow
        rw [hx] at herr
        cases herr
    · cases herr
      exact not_ofReserve_disabled
  | event o =>
    simp only [step] at herr
    split at herr
    next e' rest hpoller hevents =>
      rw [map_eq_error_iff] at herr
      have hfetched := h.fetched
      rw [hpoller, hevents] at hfetched
      exact handleEvent_error (hfetched.isOpen mem_cons_self)
        (fun j hj => h.wf.lists j fun hopen => hopen.1 hj) herr
    · cases herr
      exact not_ofReserve_disabled
  | _ =>
    simp only [step] at herr
    repeat' split at herr
    all_goals cases herr
    all_goals exact not_ofReserve_disabled

/-- In every run whose steps meet the conditions, requests and events hit the socket that they are
for, and the assertions of `force_close` and `new_fd` do not fail. -/
theorem aims_of_safe {m : Fin maxSocket → Slot ι} {w : List (RecycleAct ι)}
    (hrun : Run (fun s a => next s soi a) Safe (init m) w s) {a : RecycleAct ι}
    (hsafe : s.Safe a) : s.Aims a ∧ ∀ e, s.step soi a = .error e → ¬ e.OfReserve := by
  have hinv : s.Inv := hrun.invariant (inv_init m) fun hguard hnext hs =>
    inv_step hs hguard (toOption_eq_some_iff.mp hnext)
  exact ⟨hinv.aims hsafe, fun e herr => hinv.not_ofReserve hsafe herr⟩

/-- The steps up to a request for a socket that was connected. -/
def connectThenClose : List (RecycleAct Unit) :=
  [.call .connect, .draw 0, .swap 0, .store 0, .post 0, .command ⟨[.connected], true, [], false⟩,
    .request 0 (.close 1 true)]

theorem aims_of_safe_closed : ∃ s : SocketRecycle Unit,
    Run (fun s a => next s noObjects a) Safe (init blank) connectThenClose s ∧
      s.pipe = [⟨1, .close 1 true⟩] ∧ s.Aims (.command ⟨[], true, [], false⟩) ∧
      ∀ e, s.step noObjects (.command ⟨[], true, [], false⟩) = .error e → ¬ e.OfReserve := by
  have heval : (exec (guarded (fun s a => next s noObjects a) Safe) (init blank)
      connectThenClose).any (fun s => decide (s.pipe = [⟨1, .close 1 true⟩] ∧
        s.Safe (.command ⟨[], true, [], false⟩))) = true := by
    decide +kernel
  obtain ⟨s, hs, hcheck⟩ := (Option.any_eq_true _ _).mp heval
  obtain ⟨hpipe, hsafe⟩ := of_decide_eq_true hcheck
  have hrun := run_of_exec_guarded hs
  exact ⟨s, hrun, hpipe, aims_of_safe hrun hsafe⟩

end Step

/-! ### Calls that fail

Slots are reserved one after the other when `socket_server_connect` is called again and again for a
host that is not found. -/

/-- No thread is at work, and all slots are free. -/
structure Resting (s : SocketRecycle ι) : Prop where
  trying : s.trying = []
  swapped : s.swapped = []
  posting : s.posting = []
  pipe : s.pipe = []
  events : s.events = []
  poller : s.poller = .idle
  free : ∀ i, (s.table.slot i).socket.type = .invalid
  lists : ∀ i, (s.table.slot i).socket.sendBufferEmpty = true

theorem resting_init (m : Fin maxSocket → Slot ι) : (init m).Resting :=
  ⟨rfl, rfl, rfl, rfl, rfl, rfl, fun _ => rfl, fun _ => rfl⟩

/-- The steps of such a call. -/
def connectFails : List (RecycleAct ι) :=
  [.call .connect, .draw 0, .swap 0, .store 0, .post 0, .command ⟨[], true, [], false⟩, .clear]

/-- The state after them. -/
def connectFailed (s : SocketRecycle ι) : SocketRecycle ι :=
  let id := nextId s.table.allocId
  { s with
    table := setType (nameSlot (setType
      { s.table with allocId := id } (hashId id) .reserve) id) (hashId id) .invalid
    life := s.newLife (hashId id)
    known := s.known ++ [(id, s.life (hashId id) + 1)] }

theorem connectFailed_slot (s : SocketRecycle ι) (i : Fin maxSocket) :
    s.connectFailed.table.slot i = if i = hashId (nextId s.table.allocId) then
      ⟨{ (s.table.slot i).socket with type := .invalid, udpconnecting := 0 },
        nextId s.table.allocId, none⟩ else s.table.slot i := by
  unfold connectFailed
  dsimp only
  split_ifs with hi
  · subst hi
    rw [setType, put_slot_self, nameSlot_slot_self, setType, put_slot_self]
  · rw [setType, put_slot_of_ne hi, nameSlot_slot_of_ne hi, setType, put_slot_of_ne hi]

theorem Resting.connectFailed (h : s.Resting) : s.connectFailed.Resting where
  trying := h.trying
  swapped := h.swapped
  posting := h.posting
  pipe := h.pipe
  events := h.events
  poller := h.poller
  free i := by
    rw [connectFailed_slot]
    split_ifs
    · rfl
    · exact h.free i
  lists i := by
    rw [connectFailed_slot]
    split_ifs
    · exact h.lists i
    · exact h.lists i

/-- The caller forgets the id. Another caller knows one from before. -/
def connectForgotten (s : SocketRecycle ι) : SocketRecycle ι :=
  { s.connectFailed with known := s.connectFailed.known.eraseIdx 1 }

theorem Resting.connectForgotten (h : s.Resting) : s.connectForgotten.Resting :=
  ⟨h.connectFailed.trying, h.connectFailed.swapped, h.connectFailed.posting, h.connectFailed.pipe,
    h.connectFailed.events, h.connectFailed.poller, h.connectFailed.free, h.connectFailed.lists⟩

section Connects

variable [DecidableEq ι] {soi : SocketObjectInterface}

theorem run_connectFails (h : s.Resting) :
    Run (fun s a => next s soi a) Atomic s connectFails s.connectFailed := by
  obtain ⟨table, life, trying, swapped, posting, pipe, known, events, poller⟩ := s
  obtain ⟨rfl, rfl, rfl, rfl, rfl, rfl, hfree, -⟩ := h
  replace hfree : ∀ i, (table.slot i).socket.type = .invalid := hfree
  apply run_of_exec_guarded
  simp [connectFails, exec, guarded, Atomic, RecycleAct.stores, RecycleAct.finishes, next, step,
    call, swap, Except.toOption, hfree, Opener.request, Issued.id, Request.id, ctrlCmd,
    openSocket, tryConnect, ended, Except.map, connectFailed, newLife]

/-- Many calls that fail, with a property of the states between them. -/
theorem exists_connects {P : SocketRecycle ι → ℕ → Prop} {n k : ℕ}
    (hrest : ∀ u j, P u j → u.Resting)
    (hnext : ∀ u j, n ≤ j → j < n + k → P u j → P u.connectForgotten (j + 1)) (h : P s n) :
    ∃ w u, Run (fun s a => next s soi a) Atomic s w u ∧ P u (n + k) := by
  induction k with
  | zero => exact ⟨[], s, .nil s, h⟩
  | succ k ih =>
    obtain ⟨w, u, hrun, hu⟩ := ih fun u j hj hlt => hnext u j hj (by omega)
    have hcall := hrun.append (run_connectFails (hrest u _ hu))
    have hguard : u.connectFailed.Atomic (.forget 1) :=
      ⟨.inl (isEmpty_iff.mpr (hrest u _ hu).swapped), .inl (hrest u _ hu).poller⟩
    have hforget : next u.connectFailed soi (.forget 1) = some u.connectForgotten := rfl
    exact ⟨_, _, hcall.snoc hguard hforget, hnext u (n + k) (by omega) (by omega) hu⟩

end Connects

/-! ### A request that is late

The caller of a `socket_server_connect` that has failed closes the socket after the slot was
reserved for another one, but before its new id is stored. -/

/-- After a call that has failed, a caller still knows the id 1, and the slot has this id. -/
structure Stale (s : SocketRecycle ι) (n : ℕ) : Prop extends s.Resting where
  allocId : s.table.allocId = n
  known : s.known = [(1, 1)]
  id : (s.table.slot (hashId 1)).id = 1

theorem stale_init (m : Fin maxSocket → Slot ι) : (init m).connectFailed.Stale 1 where
  toResting := (resting_init m).connectFailed
  allocId := rfl
  known := rfl
  id := by
    rw [connectFailed_slot]
    rfl

theorem Stale.connectForgotten {n : ℕ} (h : s.Stale n) (hn : 1 ≤ n) (hlt : n < maxSocket) :
    s.connectForgotten.Stale (n + 1) := by
  have hid : nextId s.table.allocId = n + 1 := by
    rw [nextId, h.allocId]
    exact Nat.mod_eq_of_lt (by unfold maxSocket at hlt; omega)
  have hne : hashId 1 ≠ hashId (n + 1) := by
    rw [hashId, hashId, Ne, Fin.mk.injEq]
    unfold maxSocket at hlt ⊢
    omega
  exact {
    toResting := h.toResting.connectForgotten
    allocId := hid
    known := by
      simp [SocketRecycle.connectForgotten, connectFailed, h.known]
    id := by
      rw [SocketRecycle.connectForgotten, connectFailed_slot, hid, if_neg hne]
      exact h.id }

/-- The slot is reserved, but still has the id 1, and the next request is to close this socket. -/
def late (s : SocketRecycle ι) : SocketRecycle ι :=
  { s with
    table := setType { s.table with allocId := 65537 } (hashId 1) .reserve
    life := s.newLife (hashId 1)
    swapped := [⟨s.life (hashId 1) + 1, .open 65537⟩]
    pipe := [⟨1, .close 1 true⟩] }

section Late

variable [DecidableEq ι] {soi : SocketObjectInterface}

theorem Stale.exec_late (h : s.Stale maxSocket) : exec (fun s a => next s soi a) s
      [.call .connect, .draw 0, .swap 0, .request 0 (.close 1 true)] = some s.late := by
  obtain ⟨table, life, trying, swapped, posting, pipe, known, events, poller⟩ := s
  obtain ⟨⟨rfl, rfl, rfl, rfl, rfl, rfl, hfree, -⟩, hallocId, rfl, -⟩ := h
  replace hfree : ∀ i, (table.slot i).socket.type = .invalid := hfree
  replace hallocId : table.allocId = maxSocket := hallocId
  -- the id that is drawn has the slot of the id 1
  have hnext : nextId maxSocket = 65537 := rfl
  have hash : hashId 65537 = hashId 1 := rfl
  simp [exec, next, step, call, swap, Except.toOption, hfree, hallocId, hnext, hash,
    Opener.request, Request.opens?, Request.id, late, newLife]

theorem Stale.late_reserved {n : ℕ} (h : s.Stale n) {o : CommandOutcome} :
    s.late.step soi (.command o) = .error (.socket .reserved) := by
  have hpoller : s.late.poller = .idle := h.poller
  have hslot : s.late.table.slot (hashId 1) = { s.table.slot (hashId 1) with
      socket := { (s.table.slot (hashId 1)).socket with type := .reserve } } :=
    put_slot_self ..
  have hnamed : s.late.table.Named 1 := by
    rw [SocketTable.Named, hslot]
    exact ⟨by simp, h.id⟩
  have hempty : (s.late.table.slot (hashId 1)).socket.sendBufferEmpty = true := by
    rw [hslot]
    exact h.lists (hashId 1)
  have hclose : s.late.table.closeSocket soi 1 true o = .error (.socket .reserved) := by
    rw [closeSocket, if_neg (not_not_intro hnamed), if_pos hempty,
      closeDecide, if_pos (.inl rfl), map_eq_error_iff, forceClose, hslot]
  have hpipe : s.late.pipe = [⟨1, .close 1 true⟩] := rfl
  simp only [step, hpoller, hpipe]
  exact map_eq_error_iff.mpr hclose

end Late

/-- A request is applied to a slot that is reserved for another socket, and the assertion of
`force_close` fails. -/
theorem closes_reserved_slot :
    ¬ ∀ s : SocketRecycle Unit, Reachable (fun s a => next s noObjects a) (init blank) s →
      ∀ a, s.Aims a ∧ ∀ e, s.step noObjects a = .error e → ¬ e.OfReserve := by
  intro h
  have hfirst : Run (fun s a => next s noObjects a) Atomic (init blank) connectFails
      (init blank).connectFailed := run_connectFails (resting_init blank)
  obtain ⟨w, u, hrun, hu⟩ : ∃ w u, Run (fun s a => next s noObjects a) Atomic
      (init blank).connectFailed w u ∧ u.Stale (1 + 65535) :=
    exists_connects (fun u _ hu => hu.toResting)
      (fun u j hj hlt hu => hu.connectForgotten hj hlt) (stale_init blank)
  have hbefore : Run (fun s a => next s noObjects a) anyAction (init blank) (connectFails ++ w) u :=
    (hfirst.append hrun).mono fun _ _ _ => trivial
  have hlate := (hbefore.append (run_of_exec hu.exec_late)).reachable
  exact (h u.late hlate (.command ⟨[], true, [], false⟩)).2 _ hu.late_reserved (.inl rfl)

end SocketRecycle

end Uboss.Core
