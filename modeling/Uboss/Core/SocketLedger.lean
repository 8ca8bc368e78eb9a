import Uboss.Core.SocketAims
import Uboss.Core.SocketBound
import Uboss.Math.ThreadSum

/-!
# The event poll and the descriptors of the server

With `reserve_id` as one step, a descriptor is in the event poll if and only if the type of its
socket is one of five, `force_close` removes it exactly then, and each descriptor of the server is
closed once. The last is an account: a descriptor that was opened is held by one slot or by one
request, or was closed once. All this needs ids that are not used any more when they are handed out
again.
-/

namespace Uboss.Core

open Math Function List Option SocketTable Request

instance {ι : Type} (s : Socket ι) : Decidable s.IsOpen := inferInstanceAs (Decidable (_ ∧ _))

/-- The descriptor of the server in a request. -/
def Request.fds {ι : Type} : Request ι → List ℕ
  | .listen _ fd | .udp _ fd _ => [fd]
  | _ => []

/-- The descriptor of the server in a call. -/
def Opener.fds : Opener → List ℕ
  | .listen fd | .udp fd _ => [fd]
  | .connect | .bind _ => []

@[simp] theorem Opener.fds_connect : Opener.fds .connect = [] := rfl

@[simp] theorem Opener.fds_bind (fd : ℕ) : Opener.fds (.bind fd) = [] := rfl

@[simp] theorem Opener.fds_listen (fd : ℕ) : Opener.fds (.listen fd) = [fd] := rfl

@[simp] theorem Opener.fds_udp (fd : ℕ) (v6 : Bool) : Opener.fds (.udp fd v6) = [fd] := rfl

/-- The slot holds the descriptor. -/
def Slot.holds {ι : Type} (n : ℕ) (x : Slot ι) : ℕ :=
  if x.socket.IsOpen ∧ x.fd = some (.server n) then 1 else 0

namespace SocketTable

variable {ι : Type} {t t' : SocketTable ι} {i : Fin maxSocket} {n : ℕ}

/-- How often a descriptor is held by a slot or was closed, less how often it was opened. -/
def balance (t : SocketTable ι) (n : ℕ) : ℤ :=
  t.closed.count (.server n) + ((∑ i, (t.slot i).holds n : ℕ) : ℤ) - if n < t.nextFd then 1 else 0

theorem sum_holds_update {x : Slot ι} (h : t'.slot = update t.slot i x) :
    (∑ j, (t'.slot j).holds n) + (t.slot i).holds n = (∑ j, (t.slot j).holds n) + x.holds n := by
  rw [h]
  exact sum_update_add (Slot.holds n) t.slot i x

theorem balance_of_holds {x : Slot ι} (hslot : t'.slot = update t.slot i x)
    (hclosed : t'.closed = t.closed) (hnext : t'.nextFd = t.nextFd)
    (hx : x.holds n = (t.slot i).holds n) : t'.balance n = t.balance n := by
  have hsum := sum_holds_update (n := n) hslot
  have heq : ∑ j, (t'.slot j).holds n = ∑ j, (t.slot j).holds n := by omega
  rw [balance, balance, hclosed, hnext, heq]

theorem balance_put {x : Socket ι} (hx : x.IsOpen ↔ (t.slot i).socket.IsOpen) :
    (t.put i x).balance n = t.balance n := by
  refine balance_of_holds rfl rfl rfl ?_
  simp only [Slot.holds, hx]

theorem holds_of_not_isOpen {x : Slot ι} (h : ¬ x.socket.IsOpen) : x.holds n = 0 :=
  if_neg fun hx => h hx.1

theorem holds_of_isOpen {x : Slot ι} (h : x.socket.IsOpen) :
    x.holds n = x.fd.toList.count (.server n) := by
  unfold Slot.holds
  cases hfd : x.fd with
  | none => simp
  | some fd => simp [h, count_singleton]

theorem balance_release {x : Socket ι} (hopen : (t.slot i).socket.IsOpen)
    (hbind : (t.slot i).socket.type = .bind → t.Borrows i) (hx : x.type = .invalid) :
    (t.release i x).balance n = t.balance n := by
  have hsum : (∑ j, ((t.release i x).slot j).holds n) + (t.slot i).holds n =
      (∑ j, (t.slot j).holds n) + Slot.holds n { t.slot i with socket := x } :=
    sum_holds_update rfl
  rw [holds_of_not_isOpen (x := { t.slot i with socket := x }) fun h => h.1 hx] at hsum
  have hclosed : (t.release i x).closed.count (.server n) =
      t.closed.count (.server n) + (t.slot i).holds n := by
    simp only [release]
    split_ifs with htype
    · -- the descriptor is a caller's
      obtain ⟨fd, hfd, hcaller⟩ := hbind htype
      have hne : (t.slot i).holds n = 0 := by
        refine if_neg fun h => ?_
        rw [mem_def.mp hfd] at h
        cases h.2
        exact hcaller
      rw [hne, Nat.add_zero]
    · rw [count_append, holds_of_isOpen hopen]
  have hnext : (t.release i x).nextFd = t.nextFd := rfl
  rw [balance, balance, hclosed, hnext]
  omega

theorem balance_change (hbind : (t.slot i).socket.type = .bind → t.Borrows i)
    (h : Change t i t') : t'.balance n = t.balance n := by
  cases h with
  | stay => rfl
  | put hkept => exact balance_put hkept.isOpen_iff
  | release hopen hx _ _ => exact balance_release hopen hbind hx
  | @start fd type hunstarted htype _ _ =>
    refine (balance_put (t := t.register i fd) ?_).trans rfl
    refine iff_of_true ?_ (Socket.isOpen_of_unstarted hunstarted)
    rcases htype with rfl | rfl <;> simp [Socket.IsOpen]

theorem count_freshFds (t : SocketTable ι) (k : ℕ) :
    (t.freshFds k).count (.server n) = if t.nextFd ≤ n ∧ n < t.nextFd + k then 1 else 0 := by
  rw [freshFds, count_map_of_injective _ _ fun a b h => Fd.server.inj h, count_range_1']

theorem balance_spend (t : SocketTable ι) (k : ℕ) :
    (t.spend k (t.freshFds k)).balance n = t.balance n := by
  have hcount := count_freshFds (n := n) t k
  simp only [balance, spend, count_append, hcount]
  split_ifs <;> omega

theorem balance_install {id : ℕ} {fd : Fd} {x : Socket ι} (hbefore : ¬ (t.slot i).socket.IsOpen)
    (hx : x.IsOpen) :
    (t.install i id fd x).balance n = t.balance n + if fd = .server n then 1 else 0 := by
  have hsum : (∑ j, ((t.install i id fd x).slot j).holds n) + (t.slot i).holds n =
      (∑ j, (t.slot j).holds n) + Slot.holds n ⟨x, id, some fd⟩ := sum_holds_update rfl
  rw [holds_of_not_isOpen hbefore] at hsum
  have hholds : Slot.holds n ⟨x, id, some fd⟩ = if fd = .server n then 1 else 0 := by
    simp [Slot.holds, hx]
  have hclosed : (t.install i id fd x).closed = t.closed := rfl
  have hnext : (t.install i id fd x).nextFd = t.nextFd := rfl
  rw [balance, balance, hclosed, hnext]
  split_ifs at hholds ⊢ <;> omega

theorem balance_freed {id : ℕ} (hbefore : ¬ (t.slot (hashId id)).socket.IsOpen) :
    (t.freed id).balance n = t.balance n :=
  balance_put (iff_of_false (fun h => h.1 rfl) hbefore)

theorem balance_closeFd (t : SocketTable ι) (m : ℕ) :
    (t.closeFd (.server m)).balance n = t.balance n + if m = n then 1 else 0 := by
  have hcount : [Fd.server m].count (.server n) = if m = n then 1 else 0 := by
    by_cases h : m = n
    · rw [if_pos h, h, count_singleton_self]
    · rw [if_neg h, count_eq_zero_of_not_mem]
      simpa [eq_comm] using h
  simp only [balance, closeFd, count_append, hcount]
  split_ifs <;> omega

theorem balance_openFd (t : SocketTable ι) :
    t.openFd.balance n = t.balance n - if t.nextFd = n then 1 else 0 := by
  simp only [balance, openFd]
  split_ifs <;> omega

theorem balance_spend_succ (t : SocketTable ι) (k : ℕ) :
    (t.spend (k + 1) (t.freshFds k)).balance n =
      t.balance n - if t.nextFd + k = n then 1 else 0 := by
  have hcount := count_freshFds (n := n) t k
  simp only [balance, spend, count_append, hcount]
  split_ifs <;> omega

theorem balance_started {id : ℕ} {fd : Fd} {x : Socket ι}
    (hbefore : ¬ (t.slot (hashId id)).socket.IsOpen) (hx : x.IsOpen) :
    (t.started id fd x).balance n = t.balance n + if fd = .server n then 1 else 0 :=
  balance_install (t := t.register (hashId id) fd) hbefore hx

theorem cast_count_singleton (m n : ℕ) : (([m].count n : ℕ) : ℤ) = if m = n then 1 else 0 := by
  by_cases h : m = n
  · simp [h]
  · simp [h]

/-- The commands that open a socket: the descriptor of the request is held by the slot, or
closed. -/
theorem balance_opened {r : Request ι} {e : CommandEnd} (h : Opened t r t' e)
    (htype : (t.slot (hashId r.id)).socket.type = .reserve) :
    t'.balance n = t.balance n + r.fds.count n := by
  have hbefore : ¬ (t.slot (hashId r.id)).socket.IsOpen := fun hopen => hopen.2 htype
  cases h with
  | @openFailed id k _ _ =>
    dsimp only [Request.id] at hbefore
    have hfreed := balance_freed (t := t.spend k (t.freshFds k)) (n := n) hbefore
    rw [hfreed, balance_spend]
    simp [Request.fds]
  | @opened id k x hx _ =>
    dsimp only [Request.id] at hbefore
    have hopen : x.IsOpen := by
      rcases hx with hx | hx <;> simp [Socket.IsOpen, hx]
    rw [balance_started (t := t.spend (k + 1) (t.freshFds k)) hbefore hopen, balance_spend_succ]
    simp [Request.fds]
  | @listened id fd x hx _ _ =>
    dsimp only [Request.id] at hbefore
    rw [balance_install hbefore (by simp [Socket.IsOpen, hx])]
    simp [Request.fds, cast_count_singleton]
  | bindFailed =>
    dsimp only [Request.id] at hbefore
    rw [balance_freed hbefore]
    simp [Request.fds]
  | @bound id fd x hx _ =>
    dsimp only [Request.id] at hbefore
    rw [balance_started hbefore (by simp [Socket.IsOpen, hx])]
    simp [Request.fds]
  | @udpFailed id fd v6 =>
    dsimp only [Request.id] at hbefore
    rw [balance_closeFd, balance_freed hbefore]
    simp [Request.fds, cast_count_singleton]
  | @udpOpened id fd v6 x hx _ =>
    dsimp only [Request.id] at hbefore
    rw [balance_started hbefore (by simp [Socket.IsOpen, hx])]
    simp [Request.fds, cast_count_singleton]

theorem balance_accepted {id : Option ℕ} (h : Accepted t id t') : t'.balance n = t.balance n := by
  cases h with
  | stay => rfl
  | refused => exact balance_spend t 1
  | @accepted id allocId x hfree hx _ _ =>
    have hspend : balance { t.spend 1 [] with allocId := allocId } n =
        t.balance n - if t.nextFd + 0 = n then 1 else 0 := balance_spend_succ t 0
    calc _ = balance { t.spend 1 [] with allocId := allocId } n +
          if Fd.server t.nextFd = .server n then 1 else 0 :=
        balance_install (fun hopen => hopen.1 hfree) (by simp [Socket.IsOpen, hx])
      _ = t.balance n := by
        rw [hspend]
        simp

end SocketTable

namespace SocketRecycle

variable {ι : Type} {s s' : SocketRecycle ι}

variable {i : Fin maxSocket} {k : ℕ} {o : Opener}

/-- The descriptors of the server in calls and requests. -/
def carried (s : SocketRecycle ι) : List ℕ := s.trying.flatMap (fun x => x.1.fds) ++
    (s.swapped ++ s.posting ++ s.pipe).flatMap fun p => p.request.fds

/-- The account: each descriptor of the server that was opened is carried by a call or a request, or
held by a slot, or was closed. -/
structure Ledger (s : SocketRecycle ι) : Prop where
  bound : ∀ i, (s.table.slot i).socket.type = .bind → s.table.Borrows i
  balanced : ∀ n, s.table.balance n + s.carried.count n = 0

theorem fds_of_opens?_eq_none {r : Request ι} (h : r.opens? = none) : r.fds = [] := by
  cases r <;> first | rfl | cases h

theorem fds_request (o : Opener) (id : ℕ) : Request.fds (o.request id : Request ι) = o.fds := by
  cases o <;> rfl

theorem bound_of_slot {t t' : SocketTable ι} (h : ∀ j, (t.slot j).socket.type = .bind → t.Borrows j)
    (hslot : ∀ j, j ≠ i → t'.slot j = t.slot j)
    (hi : (t'.slot i).socket.type = .bind → t'.Borrows i) (j : Fin maxSocket) :
    (t'.slot j).socket.type = .bind → t'.Borrows j := by
  by_cases hj : j = i
  · exact hj ▸ hi
  · unfold SocketTable.Borrows
    rw [hslot j hj]
    exact h j

theorem bind_of_change {t t' : SocketTable ι} (h : SocketTable.Change t i t') :
    (t'.slot i).fd = (t.slot i).fd ∧
      ((t'.slot i).socket.type = .bind → (t.slot i).socket.type = .bind) := by
  cases h with
  | stay => exact ⟨rfl, id⟩
  | put hkept =>
    rw [put_slot_self]
    refine ⟨rfl, fun hbind => ?_⟩
    rcases hkept.type with heq | ⟨-, hx⟩ | ⟨-, hx⟩
    · exact heq.symm.trans hbind
    · cases hx.symm.trans hbind
    · cases hx.symm.trans hbind
  | @release x _ hx _ _ =>
    have hself : (t.release i x).slot i = { t.slot i with socket := x } := put_slot_self t i x
    rw [hself]
    exact ⟨rfl, fun hbind => by cases hx.symm.trans hbind⟩
  | start _ htype _ _ =>
    rw [setType, put_slot_self]
    refine ⟨rfl, fun hbind => ?_⟩
    rcases htype with rfl | rfl <;> cases hbind

section

variable {t t' : SocketTable ι} (h : ∀ j, (t.slot j).socket.type = .bind → t.Borrows j)
include h

theorem bound_change (hchange : SocketTable.Change t i t') :
    ∀ j, (t'.slot j).socket.type = .bind → t'.Borrows j := by
  refine bound_of_slot h (fun j hj => change_slot_of_ne hchange hj) fun hbind => ?_
  obtain ⟨hfd, htype⟩ := bind_of_change hchange
  unfold SocketTable.Borrows
  rw [hfd]
  exact h i (htype hbind)

theorem bound_opened {r : Request ι} {e : CommandEnd} (hopened : SocketTable.Opened t r t' e) :
    ∀ j, (t'.slot j).socket.type = .bind → t'.Borrows j := by
  refine bound_of_slot h (opensSlot_of_opened hopened).other fun hbind => ?_
  have hinstall : ∀ (u : SocketTable ι) (id : ℕ) (fd : Fd) (x : Socket ι),
      ((u.install (hashId id) id fd x).slot (hashId id)).socket.type = x.type := fun u id fd x => by
    rw [install_slot_self]
  have hfreed : ∀ (u : SocketTable ι) (id : ℕ),
      ((u.freed id).slot (hashId id)).socket.type = .invalid := fun u id => by
    rw [freed, setType, put_slot_self]
  cases hopened with
  | openFailed _ => cases (hfreed _ _).symm.trans hbind
  | opened hx _ =>
    have hbind' := (hinstall _ _ _ _).symm.trans hbind
    rcases hx with hx | hx <;> cases hx.symm.trans hbind'
  | listened hx _ _ => cases hx.symm.trans ((hinstall _ _ _ _).symm.trans hbind)
  | bindFailed => cases (hfreed _ _).symm.trans hbind
  | @bound id fd x hx _ =>
    have hself := install_slot_self (t.register (hashId id) (.caller fd)) (hashId id) id
      (.caller fd) x
    exact ⟨.caller fd, congrArg Slot.fd hself, trivial⟩
  | udpFailed => cases (hfreed _ _).symm.trans hbind
  | udpOpened hx _ => cases hx.symm.trans ((hinstall _ _ _ _).symm.trans hbind)

theorem bound_accepted {id : Option ℕ} (haccepted : SocketTable.Accepted t id t') :
    ∀ j, (t'.slot j).socket.type = .bind → t'.Borrows j := by
  cases haccepted with
  | stay => exact h
  | refused => exact h
  | @accepted id allocId x _ hx _ _ =>
    have hself := install_slot_self { t.spend 1 [] with allocId := allocId } (hashId id)
      id (.server t.nextFd) x
    refine bound_of_slot h (fun j hj => update_of_ne hj ..) fun hbind => ?_
    have htype := congrArg (fun y : Slot ι => y.socket.type) hself
    cases hx.symm.trans (htype.symm.trans hbind)

end

theorem count_flatMap_of_perm {α : Type} {l r : List α} {a : α} (h : l.Perm (a :: r))
    (f : α → List ℕ) (n : ℕ) : (l.flatMap f).count n = (f a).count n + (r.flatMap f).count n := by
  rw [(h.flatMap_right f).count_eq, flatMap_cons, count_append]

theorem count_carried (s : SocketRecycle ι) (n : ℕ) : s.carried.count n =
    (s.trying.flatMap fun x => x.1.fds).count n +
      (s.swapped.flatMap fun p => p.request.fds).count n +
      (s.posting.flatMap fun p => p.request.fds).count n +
      (s.pipe.flatMap fun p => p.request.fds).count n := by
  simp only [carried, flatMap_append, count_append]
  omega

/-- A worker that draws an id or tries again keeps its descriptor. -/
theorem count_flatMap_set {trying : List (Opener × Option ℕ)} {x y : Option ℕ}
    (hk : trying[k]? = some (o, x)) (n : ℕ) :
    ((trying.set k (o, y)).flatMap fun x => x.1.fds).count n =
      (trying.flatMap fun x => x.1.fds).count n := by
  obtain ⟨hlt, -⟩ := List.getElem?_eq_some_iff.mp hk
  rw [count_flatMap_of_perm (set_perm_cons_eraseIdx hlt (o, y)),
    count_flatMap_of_perm (perm_cons_eraseIdx hk)]

section

variable (h : s.Ledger)
include h

theorem Ledger.call (c : OpenCall) : (s.call c).Ledger := by
  cases c with
  | connect | bind fd =>
    refine ⟨h.bound, fun n => ?_⟩
    have hn := h.balanced n
    rw [count_carried] at hn ⊢
    simpa [SocketRecycle.call, flatMap_append] using hn
  | listen | udp v6 =>
    refine ⟨h.bound, fun n => ?_⟩
    have hn := h.balanced n
    have hcount := SocketTable.cast_count_singleton s.table.nextFd n
    have hopen := SocketTable.balance_openFd (n := n) s.table
    rw [count_carried] at hn ⊢
    simp only [SocketRecycle.call, flatMap_append, flatMap_cons, flatMap_nil,
      append_nil, Opener.fds_listen, Opener.fds_udp, count_append, hopen]
    omega

theorem Ledger.giveUp {x : Option ℕ} (hk : s.trying[k]? = some (o, x)) :
    Ledger { s with table := s.giveUpTable o, trying := s.trying.eraseIdx k } := by
  have hcarried := fun n => count_flatMap_of_perm (perm_cons_eraseIdx hk) (fun x => x.1.fds) n
  cases o with
  | connect | bind fd =>
    refine ⟨h.bound, fun n => ?_⟩
    have hn := h.balanced n
    rw [count_carried, hcarried n] at hn
    rw [count_carried]
    simpa [giveUpTable] using hn
  | listen fd | udp fd v6 =>
    refine ⟨h.bound, fun n => ?_⟩
    have hn := h.balanced n
    have hcount := SocketTable.cast_count_singleton fd n
    have hclose := SocketTable.balance_closeFd (n := n) s.table fd
    rw [count_carried, hcarried n] at hn
    rw [count_carried]
    simp only [giveUpTable, Opener.fds_listen, Opener.fds_udp, hclose] at hn ⊢
    omega

theorem Ledger.swap {k id : ℕ} (hk : s.trying[k]? = some (o, some id))
    (hfree : (s.table.slot (hashId id)).socket.type = .invalid) : (s.swap k id o).Ledger := by
  refine ⟨?_, fun n => ?_⟩
  · refine bound_of_slot h.bound (fun j hj => put_slot_of_ne hj _) fun hbind => ?_
    rw [SocketRecycle.swap, setType, put_slot_self] at hbind
    cases hbind
  · have hn := h.balanced n
    have hbalance : (s.swap k id o).table.balance n = s.table.balance n :=
      SocketTable.balance_put (iff_of_false (fun h => h.2 rfl) fun h => h.1 hfree)
    rw [count_carried, count_flatMap_of_perm (perm_cons_eraseIdx hk)] at hn
    dsimp only at hn
    rw [count_carried, hbalance]
    simp only [SocketRecycle.swap, flatMap_cons, count_append, fds_request]
    omega

theorem Ledger.store {p : Issued ι} (hk : s.swapped[k]? = some p)
    (hreserve : (s.table.slot p.slot).socket.type = .reserve) :
    Ledger { s with
      table := s.table.nameSlot p.id
      swapped := s.swapped.eraseIdx k
      posting := p :: s.posting } := by
  refine ⟨?_, fun n => ?_⟩
  · refine bound_of_slot h.bound (fun j hj => nameSlot_slot_of_ne hj) fun hbind => ?_
    rw [nameSlot_type] at hbind
    cases hreserve.symm.trans hbind
  · have hn := h.balanced n
    have hclosed : ¬ (s.table.slot (hashId p.id)).socket.IsOpen := fun hopen => hopen.2 hreserve
    have hbalance : (s.table.nameSlot p.id).balance n = s.table.balance n := by
      refine SocketTable.balance_of_holds rfl rfl rfl ?_
      rw [SocketTable.holds_of_not_isOpen hclosed, SocketTable.holds_of_not_isOpen]
      exact hclosed
    rw [count_carried, count_flatMap_of_perm (perm_cons_eraseIdx hk)] at hn
    rw [count_carried]
    simp only [hbalance, flatMap_cons, count_append]
    omega

theorem Ledger.put {x : Socket ι} (hkept : (s.table.slot i).socket.Kept x) :
    Ledger { s with table := s.table.put i x } where
  bound := bound_change h.bound (.put hkept)
  balanced n := by
    have hbalance := SocketTable.balance_change (n := n) (h.bound i) (.put hkept)
    rw [hbalance]
    exact h.balanced n

end

section Step

variable [DecidableEq ι] {soi : SocketObjectInterface}

theorem Ledger.command (h : s.Ledger) (hinv : s.Inv) {o : CommandOutcome}
    (hsafe : s.Safe (.command o)) (hstep : s.step soi (.command o) = .ok s') : s'.Ledger := by
  simp only [step] at hstep
  split at hstep
  next p rest hpoller hpipe =>
    obtain ⟨⟨t, e⟩, hcmd, rfl⟩ := map_eq_ok_iff.mp hstep
    have hbalanced := h.balanced
    simp only [count_carried, hpipe, flatMap_cons, count_append] at hbalanced
    cases hp : p.opens with
    | false =>
      have hopen := hinv.isOpen_of_named hpipe hp (hsafe p (by rw [hpipe]; rfl) hp)
      obtain ⟨hchange, -⟩ := change_ctrlCmd (opens?_eq_none hp) hopen (hinv.wf.quiet _) hcmd
      refine ⟨bound_change h.bound hchange, fun n => ?_⟩
      have hn := hbalanced n
      rw [fds_of_opens?_eq_none (opens?_eq_none hp), count_nil] at hn
      rw [count_carried, SocketTable.balance_change (h.bound _) hchange]
      simpa using hn
    | true =>
      obtain ⟨-, hreserve⟩ := hinv.reserve_of_opens hpipe hp
      have hopened := opened_ctrlCmd (opens?_ne_none hp) hcmd
      refine ⟨bound_opened h.bound hopened, fun n => ?_⟩
      have hn := hbalanced n
      rw [count_carried, SocketTable.balance_opened hopened hreserve]
      dsimp only
      omega
  · cases hstep

theorem Ledger.event (h : s.Ledger) (hinv : s.Inv) {o : EventOutcome}
    (hstep : s.step soi (.event o) = .ok s') : s'.Ledger := by
  obtain rfl | ⟨e, rest, t, hpoller, hevents, hevent, rfl⟩ := event_cases hstep
  · exact h
  · have hfetched := hinv.fetched
    rw [hpoller, hevents] at hfetched
    have hopen := hfetched.isOpen mem_cons_self
    -- the requests remain, whether a socket is accepted or not
    have hrest : (∀ i, (t.slot i).socket.type = .bind → t.Borrows i) →
        (∀ n, t.balance n = s.table.balance n) →
        (s.handled t (s.table.acceptedId e.1 o)).Ledger := by
      intro hbound hbalance
      cases s.table.acceptedId e.1 o with
      | none => exact ⟨hbound, fun n => (hbalance n).symm ▸ h.balanced n⟩
      | some id => exact ⟨hbound, fun n => (hbalance n).symm ▸ h.balanced n⟩
    by_cases hlisten : (s.table.slot e.1).socket.type = .listen
    · have haccepted := accepted_handleEvent hlisten hevent
      exact hrest (bound_accepted h.bound haccepted) fun n => SocketTable.balance_accepted haccepted
    · have hchange := change_handleEvent hopen hlisten hevent
      exact hrest (bound_change h.bound hchange) fun n =>
        SocketTable.balance_change (h.bound _) hchange

theorem ledger_step (h : s.Ledger) (hinv : s.Inv) {a : RecycleAct ι} (hsafe : s.Safe a)
    (hstep : s.step soi a = .ok s') : s'.Ledger := by
  cases a with
  | call c =>
    cases hstep
    exact h.call c
  | draw k =>
    simp only [step] at hstep
    split at hstep
    next o hk =>
      cases hstep
      refine ⟨h.bound, fun n => ?_⟩
      have hn := h.balanced n
      rw [count_carried] at hn ⊢
      simp only [count_flatMap_set hk]
      exact hn
    · cases hstep
  | retry k =>
    simp only [step] at hstep
    split at hstep
    next o id hk =>
      split_ifs at hstep
      cases hstep
      refine ⟨h.bound, fun n => ?_⟩
      have hn := h.balanced n
      rw [count_carried] at hn ⊢
      simp only [count_flatMap_set hk]
      exact hn
    · cases hstep
  | giveUp k =>
    simp only [step] at hstep
    split at hstep
    next o hk =>
      cases hstep
      exact h.giveUp hk
    · cases hstep
  | swap k =>
    simp only [step] at hstep
    split at hstep
    next o id hk =>
      split_ifs at hstep with hfree
      cases hstep
      exact h.swap hk hfree
    · cases hstep
  | store k =>
    simp only [step] at hstep
    split at hstep
    next p hk =>
      cases hstep
      have hmem : p ∈ pending s.swapped s.posting s.pipe :=
        mem_append_left _ (mem_append_left _ (mem_of_getElem? hk))
      exact h.store hk ((hinv.requests.reserved p.slot).mpr ⟨p, hmem, rfl⟩)
    · cases hstep
  | post k =>
    simp only [step] at hstep
    split at hstep
    next p hk =>
      cases hstep
      refine ⟨h.bound, fun n => ?_⟩
      have hn := h.balanced n
      rw [count_carried, count_flatMap_of_perm (perm_cons_eraseIdx hk)] at hn
      rw [count_carried]
      simp only [flatMap_append, flatMap_cons, flatMap_nil, append_nil, count_append]
      omega
    · cases hstep
  | forget k =>
    cases hstep
    exact ⟨h.bound, h.balanced⟩
  | request k r =>
    simp only [step] at hstep
    split at hstep
    next id life hk =>
      split_ifs at hstep with hr
      cases hstep
      refine ⟨h.bound, fun n => ?_⟩
      have hn := h.balanced n
      rw [count_carried] at hn ⊢
      simpa [flatMap_append, fds_of_opens?_eq_none hr.1] using hn
    · cases hstep
  | udpConnect id =>
    cases hstep
    unfold incUdpconnecting
    split_ifs
    · exact h.put ⟨.inl rfl, fun _ hq hdw => ⟨hq, hdw⟩, .inr ⟨rfl, rfl⟩⟩
    · exact h
  | directWrite i p offset =>
    simp only [step] at hstep
    split_ifs at hstep with hcan
    cases hstep
    refine h.put ⟨.inl rfl, fun hunstarted => ?_, .inr ⟨rfl, rfl⟩⟩
    rw [Socket.type_of_canDirectWrite hcan] at hunstarted
    rcases hunstarted with h | h <;> cases h
  | command o => exact h.command hinv hsafe hstep
  | failed =>
    simp only [step] at hstep
    split at hstep
    next i id hpoller =>
      cases hstep
      have hinvalid := hinv.fetched.failing i id hpoller
      refine ⟨?_, fun n => ?_⟩
      · refine bound_of_slot h.bound (fun j hj => put_slot_of_ne hj _) fun hbind => ?_
        rw [setType, put_slot_self] at hbind
        cases hbind
      · have hbalance : (s.table.setType i .invalid).balance n = s.table.balance n :=
          SocketTable.balance_put (iff_of_false (fun h => h.1 rfl) fun h => h.1 hinvalid)
        rw [hbalance]
        exact h.balanced n
    · cases hstep
  | clear =>
    simp only [step] at hstep
    split at hstep
    · cases hstep
      exact ⟨h.bound, h.balanced⟩
    · cases hstep
  | wait fds =>
    simp only [step] at hstep
    split_ifs at hstep
    cases hstep
    exact ⟨h.bound, h.balanced⟩
  | event o => exact h.event hinv hstep

end Step

/-! ### Runs without interruption -/

/-- A slot is reserved with an id that nobody uses. -/
def FreshIds (s : SocketRecycle ι) : RecycleAct ι → Prop
  | .swap k => ∀ x ∈ s.trying[k]?, ∀ id ∈ x.2, Unused s.known s.pipe id
  | .event o => ∀ e ∈ s.events.head?, ∀ id ∈ s.table.acceptedId e.1 o, Unused s.known s.pipe id
  | _ => True

instance (s : SocketRecycle ι) : DecidablePred s.FreshIds
  | .swap k => inferInstanceAs (Decidable (∀ x ∈ s.trying[k]?, _))
  | .event _ => inferInstanceAs (Decidable (∀ e ∈ s.events.head?, _))
  | .call _ | .draw _ | .retry _ | .giveUp _ | .store _ | .post _ | .forget _ | .request .. |
    .udpConnect _ | .directWrite .. | .command _ | .failed | .clear | .wait _ => .isTrue trivial

theorem safe_of_atomic {a : RecycleAct ι} (h : s.Atomic a) (hfresh : s.FreshIds a) : s.Safe a := by
  cases a with
  | swap k =>
    intro x hx id hid
    refine ⟨hfresh x hx id hid, ?_⟩
    have hidle : s.poller = .idle := h.2.resolve_right (by simp [RecycleAct.finishes])
    rw [Cleared, hidle]
    trivial
  | command o =>
    intro p _ _ _ q hq
    have hnil := h.1.resolve_right (by simp [RecycleAct.stores])
    rw [isEmpty_iff.mp hnil] at hq
    cases hq
  | event o => exact hfresh
  | _ => trivial

/-- A slot, a call or a request has the descriptor. -/
def Held (s : SocketRecycle ι) (n : ℕ) : Prop :=
  (∃ i, (s.table.slot i).socket.IsOpen ∧ (s.table.slot i).fd = some (.server n)) ∨ n ∈ s.carried

/-- The event poll and the descriptors of the server. -/
structure Tidy (s : SocketRecycle ι) : Prop where
  /-- The descriptor of a slot is registered for it if and only if the type is one of the five. -/
  registered : ∀ i, s.table.Polls i ↔ (s.table.slot i).socket.type.Registered
  /-- There are no other registrations. -/
  own : ∀ fd i, s.table.poll fd = some i → (s.table.slot i).fd = some fd
  /-- `force_close` has called `sp_del` for the descriptors that were registered. -/
  deleted : ∀ r ∈ s.table.records, r.deleted = r.registered
  /-- A descriptor that is registered is none that `sp_add` can be called for: it does not belong to
  a socket that waits to be started, or to a request, and it was opened before. -/
  once : ∀ n, s.table.poll (.server n) ≠ none → n < s.table.nextFd ∧ n ∉ s.carried ∧
    ∀ i, (s.table.slot i).socket.type.Unstarted → (s.table.slot i).fd ≠ some (.server n)
  /-- A descriptor of the server that was opened is in use, or was closed once. -/
  closed : ∀ n, (n < s.table.nextFd ∧ ¬ s.Held n → s.table.closed.count (.server n) = 1) ∧
    (¬ (n < s.table.nextFd ∧ ¬ s.Held n) → s.table.closed.count (.server n) = 0)

theorem Ledger.total (h : s.Ledger) (n : ℕ) : s.table.closed.count (.server n) +
    (∑ i, (s.table.slot i).holds n) + s.carried.count n = if n < s.table.nextFd then 1 else 0 := by
  have hn := h.balanced n
  rw [SocketTable.balance] at hn
  split_ifs at hn ⊢ <;> omega

theorem holds_of_fd {i : Fin maxSocket} {n : ℕ} (hopen : (s.table.slot i).socket.IsOpen)
    (hfd : (s.table.slot i).fd = some (.server n)) : (s.table.slot i).holds n = 1 :=
  if_pos ⟨hopen, hfd⟩

theorem held_iff (s : SocketRecycle ι) (n : ℕ) :
    s.Held n ↔ 0 < (∑ i, (s.table.slot i).holds n) + s.carried.count n := by
  constructor
  · rintro (⟨i, hopen, hfd⟩ | hmem)
    · have hholds := holds_of_fd hopen hfd
      have hle := le_sum_thread (Slot.holds n) s.table.slot i
      omega
    · have hpos := count_pos_iff.mpr hmem
      omega
  · intro hpos
    by_contra hnot
    obtain ⟨hslots, hcarried⟩ := not_or.mp hnot
    have hsum : ∑ i, (s.table.slot i).holds n = 0 :=
      Finset.sum_eq_zero fun i _ => if_neg fun h => hslots ⟨i, h⟩
    rw [hsum, count_eq_zero_of_not_mem hcarried] at hpos
    exact absurd hpos (Nat.lt_irrefl 0)

theorem ledger_init (m : Fin maxSocket → Slot ι) : (init m).Ledger where
  bound i hbind := by cases hbind
  balanced n := by
    have hsum : ∑ i, ((init m).table.slot i).holds n = 0 :=
      Finset.sum_eq_zero fun i _ => if_neg fun h => h.1.1 rfl
    rw [SocketTable.balance, hsum]
    rfl

theorem tidy_of_ledger (h : s.Ledger) (hinv : s.Inv) : s.Tidy where
  registered := hinv.wf.polls_iff
  own fd i hpoll := ((hinv.wf.polled fd i).mp hpoll).1
  deleted := hinv.wf.records
  once n hn := by
    obtain ⟨i, hi⟩ := ne_none_iff_exists'.mp hn
    obtain ⟨hfd, hregistered⟩ := (hinv.wf.polled _ i).mp hi
    have hholds := holds_of_fd (Socket.isOpen_of_registered hregistered) hfd
    have htotal := h.total n
    have hle := le_sum_thread (Slot.holds n) s.table.slot i
    have hlt : n < s.table.nextFd := by
      by_contra hge
      rw [if_neg hge] at htotal
      omega
    rw [if_pos hlt] at htotal
    refine ⟨hlt, fun hmem => ?_, fun j hj hfd' => ?_⟩
    · have hpos := count_pos_iff.mpr hmem
      omega
    · -- two slots cannot hold one descriptor
      have hopen := Socket.isOpen_of_unstarted hj
      have hne : i ≠ j := by
        rintro rfl
        exact (hopen.registered_iff.mp hregistered) hj
      have hholds' := holds_of_fd hopen hfd'
      have htwo := add_le_sum_thread (Slot.holds n) s.table.slot hne
      omega
  closed n := by
    have htotal := h.total n
    have hheld := held_iff s n
    constructor
    · rintro ⟨hlt, hnot⟩
      rw [hheld] at hnot
      rw [if_pos hlt] at htotal
      omega
    · intro hnot
      split_ifs at htotal with hlt
      · have hpos := hheld.mp (not_not.mp fun hnot' => hnot ⟨hlt, hnot'⟩)
        omega
      · omega

section Run

variable [DecidableEq ι] {soi : SocketObjectInterface}

/-- The event poll and the descriptors, in every run in which `reserve_id` is one step. -/
theorem tidy_of_atomic {m : Fin maxSocket → Slot ι} {w : List (RecycleAct ι)}
    (hrun : Run (fun s a => next s soi a) (fun s a => s.Atomic a ∧ s.FreshIds a) (init m) w s) :
    s.Tidy := by
  have hboth : s.Inv ∧ s.Ledger := by
    refine hrun.invariant (P := fun s => s.Inv ∧ s.Ledger) ⟨inv_init m, ledger_init m⟩ ?_
    rintro s a s' ⟨hatomic, hfresh⟩ hnext ⟨hinv, hledger⟩
    have hsafe := safe_of_atomic hatomic hfresh
    have hstep := toOption_eq_some_iff.mp hnext
    exact ⟨inv_step hinv hsafe hstep, ledger_step hledger hinv hsafe hstep⟩
  exact tidy_of_ledger hboth.2 hboth.1

end Run

/-- A listening socket accepts a connection. -/
def listenAccept : List (RecycleAct Unit) :=
  [.call .listen, .draw 0, .swap 0, .store 0, .post 0, .command ⟨[], true, [], false⟩,
    .request 0 (.start 1), .command ⟨[], true, [], false⟩, .wait [.server 0],
    .event ⟨true, true, .error⟩]

theorem tidy_of_atomic_accept : ∃ s : SocketRecycle Unit,
    Run (fun s a => next s noObjects a) (fun s a => s.Atomic a ∧ s.FreshIds a) (init blank)
        listenAccept s ∧
      (s.table.slot (hashId 1)).socket.type = .listen ∧
      (s.table.slot (hashId 2)).socket.type = .paccept ∧ s.Tidy := by
  have heval : (exec (guarded (fun s a => next s noObjects a) fun s a => s.Atomic a ∧ s.FreshIds a)
      (init blank) listenAccept).any (fun s =>
        decide ((s.table.slot (hashId 1)).socket.type = .listen ∧
          (s.table.slot (hashId 2)).socket.type = .paccept)) = true := by
    decide +kernel
  obtain ⟨s, hs, htypes⟩ := (Option.any_eq_true _ _).mp heval
  obtain ⟨hlisten, hpaccept⟩ := of_decide_eq_true htypes
  have hrun := run_of_exec_guarded hs
  exact ⟨s, hrun, hlisten, hpaccept, tidy_of_atomic hrun⟩

/-! ### An id that is used again

The ids repeat after 2^31 reservations. A caller who has kept the id of a closed socket then sends
requests for it after the slot was reserved with the same id, and before the request that opens the
new socket is in the pipe. -/

theorem run_command [DecidableEq ι] {soi : SocketObjectInterface} {o : CommandOutcome}
    {p : Issued ι} {rest : List (Issued ι)} {t : SocketTable ι} (hswapped : s.swapped = [])
    (hpoller : s.poller = .idle) (hpipe : s.pipe = p :: rest)
    (hcmd : s.table.ctrlCmd soi o p.request = .ok (t, .done)) :
    Run (fun s a => next s soi a) Atomic s [.command o] { s with table := t, pipe := rest } := by
  have hatomic : s.Atomic (.command o) := ⟨.inl (isEmpty_iff.mpr hswapped), .inl hpoller⟩
  have hnext : next s soi (.command o) = some { s with table := t, pipe := rest } := by
    simp [next, step, hpoller, hpipe, hcmd, Except.map, Except.toOption, ended]
  exact (Run.nil s).snoc hatomic hnext

/-- A UDP socket is opened and closed. -/
def udpThenClose : List (RecycleAct Unit) :=
  [.call (.udp false), .draw 0, .swap 0, .store 0, .post 0, .command ⟨[], true, [], false⟩,
    .request 0 (.close 1 true), .command ⟨[], true, [], false⟩, .clear]

/-- The state after them. -/
def udpClosed : SocketRecycle Unit :=
  (exec (guarded (fun s a => next s noObjects a) Atomic) (init blank) udpThenClose).getD
    (init blank)

theorem run_udpThenClose :
    Run (fun s a => next s noObjects a) Atomic (init blank) udpThenClose udpClosed := by
  have hsome : (exec (guarded (fun s a => next s noObjects a) Atomic) (init blank)
      udpThenClose).isSome = true := by
    decide +kernel
  obtain ⟨s, hs⟩ := isSome_iff_exists.mp hsome
  have hclosed : udpClosed = s := by rw [udpClosed, hs, getD_some]
  rw [hclosed]
  exact run_of_exec_guarded hs

/-- What is left of the socket in its slot. -/
def spentSocket : Socket Unit :=
  ⟨.invalid, .udp, .empty, .empty, 0, 0, ⟨.tcp, 0, 0⟩, 0, none, false⟩

theorem udpClosed_slot (i : Fin maxSocket) : udpClosed.table.slot i =
    if i = hashId 1 then ⟨spentSocket, 1, some (.server 0)⟩ else blank i := by
  -- the id is reserved, named, installed, given the type and released
  have hslot : ∃ a b c d e, udpClosed.table.slot = update (update
      (update (update (update blank (hashId 1) a)
        (hashId 1) b) (hashId 1) c) (hashId 1) d) (hashId 1) e := by
    refine ⟨?a, ?b, ?c, ?d, ?e, ?h⟩
    case h => exact rfl
  split_ifs with hi
  · rw [hi]
    rfl
  · obtain ⟨a, b, c, d, e, hslot⟩ := hslot
    rw [hslot, update_of_ne hi, update_of_ne hi, update_of_ne hi, update_of_ne hi, update_of_ne hi]

/-- After a UDP socket was closed, a caller still knows its id. -/
structure Spent (s : SocketRecycle Unit) (n : ℕ) : Prop extends s.Resting where
  allocId : s.table.allocId = n % 2 ^ 31
  known : s.known = [(1, 1)]
  socket : (s.table.slot (hashId 1)).socket = spentSocket

section Again

variable {s : SocketRecycle Unit}

theorem spent_udpClosed : udpClosed.Spent 1 where
  trying := rfl
  swapped := rfl
  posting := rfl
  pipe := rfl
  events := rfl
  poller := rfl
  free i := by
    rw [udpClosed_slot]
    split_ifs <;> rfl
  lists i := by
    rw [udpClosed_slot]
    split_ifs <;> rfl
  allocId := rfl
  known := rfl
  socket := by
    rw [udpClosed_slot]
    rfl

theorem Spent.connectForgotten {n : ℕ} (h : s.Spent n) : s.connectForgotten.Spent (n + 1) where
  toResting := h.toResting.connectForgotten
  allocId := by
    have hid : nextId s.table.allocId = (n + 1) % 2 ^ 31 := by
      rw [nextId, h.allocId, Nat.mod_add_mod]
    exact hid
  known := by
    simp [SocketRecycle.connectForgotten, connectFailed, h.known]
  socket := by
    rw [SocketRecycle.connectForgotten, connectFailed_slot]
    -- a slot that is used again has the same type and `udpconnecting`
    split_ifs
    · rw [h.socket]
      rfl
    · exact h.socket

/-- The id is reserved again, and there are requests of the caller who knows it. -/
def again (s : SocketRecycle Unit) : SocketRecycle Unit :=
  { s with
    table := nameSlot (setType { s.table with allocId := 1 } (hashId 1) .reserve) 1
    life := s.newLife (hashId 1)
    posting := [⟨s.life (hashId 1) + 1, .open 1⟩]
    pipe := [⟨1, .send 1 ⟨(), 0, 5⟩ .high none⟩, ⟨1, .close 1 false⟩] }

theorem Spent.run_again (h : s.Spent (2 ^ 31)) :
    Run (fun s a => next s noObjects a) Atomic s [.call .connect, .draw 0, .swap 0, .store 0,
      .request 0 (.send 1 ⟨(), 0, 5⟩ .high none), .request 0 (.close 1 false)] s.again := by
  obtain ⟨table, life, trying, swapped, posting, pipe, known, events, poller⟩ := s
  obtain ⟨⟨rfl, rfl, rfl, rfl, rfl, rfl, hfree, -⟩, hallocId, rfl, -⟩ := h
  replace hfree : ∀ i, (table.slot i).socket.type = .invalid := hfree
  replace hallocId : table.allocId = 0 := hallocId
  have hnext : nextId 0 = 1 := rfl
  apply run_of_exec_guarded
  simp [exec, guarded, Atomic, RecycleAct.stores, RecycleAct.finishes, next, step, call, swap,
    Except.toOption, hfree, hallocId, hnext, Opener.request, Request.opens?, Request.id, Issued.id,
    again, newLife]

/-- What the request to send leaves in the slot. -/
def queuedSocket : Socket Unit :=
  ⟨.reserve, .udp, ⟨[⟨⟨(), 0, 5⟩, 0, 5, false, some ⟨.tcp, 0, 0⟩⟩], some ()⟩, .empty, 5, 0,
    ⟨.tcp, 0, 0⟩, 0, none, false⟩

theorem Spent.again_slot {n : ℕ} (h : s.Spent n) :
    s.again.table.slot (hashId 1) = ⟨{ spentSocket with type := .reserve }, 1, none⟩ := by
  simp only [again, nameSlot_slot_self, setType, put_slot_self]
  rw [h.socket]
  rfl

theorem Spent.sendSocket_again {n : ℕ} (h : s.Spent n) {rs : List WriteResult} :
    s.again.table.sendSocket noObjects 1 ⟨(), 0, 5⟩ .high none rs =
      .ok (s.again.table.put (hashId 1) queuedSocket, .done) := by
  have hsend : Socket.sendSocket noObjects { spentSocket with type := .reserve } ⟨(), 0, 5⟩ .high
      none .error = .ok (queuedSocket, [], .ignore) := by
    decide
  have hnamed : s.again.table.Named 1 := by
    rw [SocketTable.Named, h.again_slot]
    exact ⟨by decide, rfl⟩
  rw [sendSocket, if_neg (not_not_intro hnamed), writeResults, h.again_slot,
    if_pos rfl, headD_cons, hsend]

/-- The descriptor is -1, which `sendto` fails for; UDP ignores the error. -/
theorem Spent.closeSocket_again {n : ℕ} (h : s.Spent n) {o : CommandOutcome}
    (ho : o.locked = false) :
    (s.again.table.put (hashId 1) queuedSocket).closeSocket noObjects 1 false o =
      .ok (s.again.table.put (hashId 1) { queuedSocket with type := .halfclose }, .done) := by
  have hslot : (s.again.table.put (hashId 1) queuedSocket).slot (hashId 1) =
      ⟨queuedSocket, 1, none⟩ := by
    rw [put_slot_self, h.again_slot]
  have hnamed : (s.again.table.put (hashId 1) queuedSocket).Named 1 := by
    rw [SocketTable.Named, hslot]
    exact ⟨by decide, rfl⟩
  have hflush : Socket.sendBuffer noObjects queuedSocket [.error] =
      .ok ⟨queuedSocket, [], [], .ignore, false⟩ := by
    decide
  have hqueued : queuedSocket.sendBufferEmpty = false := rfl
  rw [closeSocket, if_neg (not_not_intro hnamed), hslot, if_neg (by simp [hqueued]),
    sendBuffer, if_neg (by simp [ho]), writeResults, hslot, if_pos rfl,
    hflush]
  simp [closeDecide, setType, hqueued]

/-- The state after the first request. -/
def queued (s : SocketRecycle Unit) : SocketRecycle Unit :=
  { s.again with
    table := s.again.table.put (hashId 1) queuedSocket
    pipe := [⟨1, .close 1 false⟩] }

/-- The state after the second request. -/
def halfclosed (s : SocketRecycle Unit) : SocketRecycle Unit :=
  { s.again with
    table := s.again.table.put (hashId 1) { queuedSocket with type := .halfclose }
    pipe := [] }

theorem Spent.run_halfclosed {n : ℕ} (h : s.Spent n) :
    Run (fun s a => next s noObjects a) Atomic s.again
      [.command ⟨[], true, [], false⟩, .command ⟨[], true, [], false⟩] s.halfclosed := by
  have hsend : Run (fun s a => next s noObjects a) Atomic s.again
      [.command ⟨[], true, [], false⟩] s.queued :=
    run_command h.swapped h.poller rfl h.sendSocket_again
  have hcmd := h.closeSocket_again (o := ⟨[], true, [], false⟩) rfl
  have hclose : Run (fun s a => next s noObjects a) Atomic s.queued
      [.command ⟨[], true, [], false⟩] s.halfclosed := run_command h.swapped h.poller rfl hcmd
  exact hsend.append hclose

end Again

/-- An id is reserved again after all the others. The requests of a caller who still uses it from
before are executed for the reserved slot, which becomes `HALFCLOSE` without a descriptor. -/
theorem halfclose_without_fd : ¬ ∀ (s : SocketRecycle Unit) (w : List (RecycleAct Unit)),
      Run (fun s a => next s noObjects a) Atomic (init blank) w s →
        ∀ i, s.table.Polls i ↔ (s.table.slot i).socket.type.Registered := by
  intro h
  obtain ⟨w, u, hrun, hu⟩ : ∃ w u, Run (fun s a => next s noObjects a) Atomic udpClosed w u ∧
      u.Spent (1 + (2 ^ 31 - 1)) :=
    exists_connects (fun u _ hu => hu.toResting) (fun u j _ _ hu => hu.connectForgotten)
      spent_udpClosed
  have hrun := ((run_udpThenClose.append hrun).append hu.run_again).append hu.run_halfclosed
  have hslot : u.halfclosed.table.slot (hashId 1) =
      ⟨{ queuedSocket with type := .halfclose }, 1, none⟩ := by
    rw [halfclosed, SocketTable.put_slot_self, hu.again_slot]
  have hregistered : (u.halfclosed.table.slot (hashId 1)).socket.type.Registered := by
    rw [hslot]
    simp [SocketType.Registered]
  obtain ⟨fd, hfd, -⟩ := (h _ _ hrun (hashId 1)).mpr hregistered
  rw [hslot] at hfd
  cases hfd

end SocketRecycle

end Uboss.Core
