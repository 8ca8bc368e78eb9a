import Mathlib.Data.Fintype.Basic
import Uboss.Framework.OrderChannel

/-!
# Responses in the order of the requests

The channel keeps one queue of requests, one `__wait_response` and one `__sock` for all its dispatch
threads. `close` tells the thread that the socket is gone, but `changehost`, a write that fails and
`connect_once` do not: an earlier thread may still wait in `pop_response`, and the next request that
is pushed wakes it instead of the new one. Then two threads read the new socket.
-/

namespace Uboss.Framework

open Math Function List Option Except Nat Asked

variable {Co Thread Data : Type}

/-- The request that a thread has taken from the queue. -/
def DispatchPc.taken : DispatchPc Co Data → List (Asked Co)
  | .reading a _ => [a]
  | .closing a _ => [a]
  | _ => []

namespace OrderChannel

/-- The thread is in a response function that reads the socket of the channel. -/
def Reads (s : OrderChannel Co Thread Data) (t : Thread) : Prop :=
  ∃ a k, s.sock = some k ∧ s.pc t = .reading a (some k)

/-- What the dispatch threads are for. -/
structure Matched (s : OrderChannel Co Thread Data) : Prop where
  /-- At most one of them reads the socket. -/
  reader : ∀ t t', s.Reads t → s.Reads t' → t = t'
  /-- The responses read from a socket go to those who have made requests on it, in order. -/
  order : ∀ k, s.answered k <+: s.asked k
  /-- A thread fails only the requests of its socket, -/
  failed : ∀ p ∈ s.failed, p.1 = p.2
  /-- and closes no other one. -/
  shut : ∀ p ∈ s.shut, p.1 = p.2

/-- Who waits in `pop_response` is the current dispatch thread. -/
def OwnWait (s : OrderChannel Co Thread Data) : Prop :=
  s.waitResponse = none ∨ s.waitResponse = s.dispatchThread

/-- What a blocked call finds when it goes on: one whose write has failed wakes only requests of its
socket, and the close signal goes to the current thread. -/
def Returns (s : OrderChannel Co Thread Data) : Option (BlockedCall Co Thread) → Prop
  | some (.request _ k) => ∀ a ∈ requests s.queue, a.origin = k
  | some (.close _) => s.OwnWait
  | none => True

/-- No earlier thread, and no call for an earlier socket, comes across a new one: when there is a
new socket, all threads have ended or wait, and no request is left; who is woken by `push_response`
is the current thread; and a call whose write has failed finds only requests of its socket. -/
def Orderly (s : OrderChannel Co Thread Data) : OrderAct Co Thread Data → Prop
  | .connect _ => s.queue = [] ∧ ∀ t, s.pc t = .ended ∨ s.pc t = .waiting false
  | .request _ => s.OwnWait
  | .unblock i => s.Returns s.blocked[i]?
  | _ => True

section Decidable

variable [DecidableEq Co] [DecidableEq Data] [DecidableEq Thread]
  (s : OrderChannel Co Thread Data)

instance : Decidable s.OwnWait := inferInstanceAs (Decidable (_ ∨ _))

instance : ∀ call : Option (BlockedCall Co Thread), Decidable (s.Returns call)
  | some (.request _ k) => inferInstanceAs (Decidable (∀ a ∈ requests s.queue, a.origin = k))
  | some (.close _) => inferInstanceAs (Decidable s.OwnWait)
  | none => .isTrue trivial

instance [Fintype Thread] : ∀ a : OrderAct Co Thread Data, Decidable (s.Orderly a)
  | .connect _ => inferInstanceAs
      (Decidable (s.queue = [] ∧ ∀ t, s.pc t = .ended ∨ s.pc t = .waiting false))
  | .request _ => inferInstanceAs (Decidable s.OwnWait)
  | .unblock i => inferInstanceAs (Decidable (s.Returns s.blocked[i]?))
  | .authFailed | .reopen | .requestFailed _ | .close | .changehost | .run _ | .respond _ _
  | .raise _ _ | .unblockThread _ | .resume _ => .isTrue trivial

end Decidable

/-- What holds as long as all steps are orderly: only the current thread does anything, and all that
it finds was asked on the last socket. -/
structure Inv (s : OrderChannel Co Thread Data) : Prop where
  sock : ∀ k, s.sock = some k → k + 1 = s.opened
  wait : ∀ t, s.waitResponse = some t → s.pc t = .waiting false
  /-- An earlier thread is never woken again. -/
  earlier : ∀ t, s.dispatchThread ≠ some t → s.pc t = .ended ∨ s.pc t = .waiting false
  home : ∀ t, s.dispatchThread = some t → s.home t + 1 = s.opened
  queue : ∀ a ∈ requests s.queue, a.origin + 1 = s.opened
  taken : ∀ t, ∀ a ∈ (s.pc t).taken, a.origin + 1 = s.opened
  reading : ∀ t a k, s.pc t = .reading a (some k) → k = a.origin
  closing : ∀ t a errmsg, s.pc t = .closing a errmsg → s.sock = none
  blocked : ∀ co k, .request co k ∈ s.blocked → k < s.opened ∧ s.sock ≠ some k
  fresh : ∀ k, s.opened ≤ k → s.asked k = [] ∧ s.answered k = []
  order : ∀ k, s.answered k <+: s.asked k
  /-- The requests without a response are those that the thread has taken and those in the queue. -/
  rest : ∀ k t, k + 1 = s.opened → s.dispatchThread = some t →
    s.answered k ++ ((s.pc t).taken ++ requests s.queue).map co <+: s.asked k
  whole : ∀ k t, s.sock = some k → s.dispatchThread = some t →
    s.answered k ++ ((s.pc t).taken ++ requests s.queue).map co = s.asked k
  failed : ∀ p ∈ s.failed, p.1 = p.2
  shut : ∀ p ∈ s.shut, p.1 = p.2

section Queue

variable {queue queue' : List (Option (Asked Co))} {a : Asked Co}

@[simp] theorem requests_nil : requests ([] : List (Option (Asked Co))) = [] := rfl

@[simp] theorem requests_signal : requests (none :: queue) = requests queue := rfl

@[simp] theorem requests_request : requests (some a :: queue) = a :: requests queue := rfl

@[simp] theorem requests_append : requests (queue ++ queue') = requests queue ++ requests queue' :=
  filterMap_append

end Queue

variable {s s' : OrderChannel Co Thread Data} {t t' : Thread} {k : ℕ} {a : Asked Co}

theorem inv_init : Inv (init Co Thread Data) where
  sock k hk := by cases hk
  wait t ht := by cases ht
  earlier t _ := .inl rfl
  home t ht := by cases ht
  queue a ha := by cases ha
  taken t a ha := by cases ha
  reading t a k hpc := by cases hpc
  closing t a errmsg hpc := by cases hpc
  blocked co k hco := by cases hco
  fresh k _ := ⟨rfl, rfl⟩
  order k := prefix_refl _
  rest k t _ ht := by cases ht
  whole k t hk := by cases hk
  failed p hp := by cases hp
  shut p hp := by cases hp

namespace Inv

section

variable (h : s.Inv)
include h

theorem current (hended : s.pc t ≠ .ended) (hwait : s.pc t ≠ .waiting false) :
    s.dispatchThread = some t := by
  by_contra hne
  rcases h.earlier t hne with hpc | hpc
  · exact hended hpc
  · exact hwait hpc

theorem reader (hread : s.Reads t) : s.dispatchThread = some t := by
  obtain ⟨a, k, -, hpc⟩ := hread
  exact h.current (by simp [hpc]) (by simp [hpc])

theorem matched : s.Matched where
  reader _ _ ht ht' := some.inj ((h.reader ht).symm.trans (h.reader ht'))
  order := h.order
  failed := h.failed
  shut := h.shut

theorem dropSock : Inv { s with sock := none } :=
  { h with
    sock := fun k hk => by cases hk
    closing := fun t a errmsg _ => rfl
    blocked := fun co k hco => ⟨(h.blocked co k hco).1, fun hk => by cases hk⟩
    whole := fun k t hk => by cases hk }

theorem setQueue {queue : List (Option (Asked Co))} (hqueue : requests queue = requests s.queue) :
    Inv { s with queue } :=
  { h with
    queue := fun a ha => h.queue a (hqueue ▸ ha)
    rest := fun k t hk ht => by
      show _ ++ (_ ++ requests queue).map _ <+: _
      rw [hqueue]
      exact h.rest k t hk ht
    whole := fun k t hk ht => by
      show _ ++ (_ ++ requests queue).map _ = _
      rw [hqueue]
      exact h.whole k t hk ht }

theorem waitResponse_ne (hpc : s.pc t ≠ .waiting false) : s.waitResponse ≠ some t :=
  fun hwait => hpc (h.wait t hwait)

theorem ask (hsock : s.sock = some k) (co : Co) (requesters : Requesters Co Data) :
    Inv { s with
      queue := s.queue ++ [some ⟨co, k⟩]
      requesters
      asked := update s.asked k (s.asked k ++ [co]) } := by
  have hk := h.sock k hsock
  have hrequests : requests (s.queue ++ [some (⟨co, k⟩ : Asked Co)]) =
      requests s.queue ++ [⟨co, k⟩] :=
    requests_append
  have hwhole : ∀ t, s.dispatchThread = some t →
      s.answered k ++ ((s.pc t).taken ++ requests (s.queue ++ [some (⟨co, k⟩ : Asked Co)])).map
        Asked.co =
        s.asked k ++ [co] := by
    intro t ht
    rw [hrequests, ← h.whole k t hsock ht]
    simp
  refine { h with
    queue := fun a ha => ?_
    fresh := fun k' hk' => ?_
    order := fun k' => ?_
    rest := fun k' t hk' ht => ?_
    whole := fun k' t hk' ht => ?_ }
  · change a ∈ requests (s.queue ++ [some (⟨co, k⟩ : Asked Co)]) at ha
    rw [hrequests] at ha
    rcases mem_append.mp ha with hold | hnew
    · exact h.queue a hold
    · obtain rfl := mem_singleton.mp hnew
      exact hk
  · have hne : k' ≠ k := fun heq => by
      change s.opened ≤ k' at hk'
      omega
    show update s.asked k (s.asked k ++ [co]) k' = [] ∧ s.answered k' = []
    rw [update_of_ne hne]
    exact h.fresh k' hk'
  · show s.answered k' <+: update s.asked k (s.asked k ++ [co]) k'
    rcases eq_or_ne k' k with rfl | hne
    · rw [update_self]
      exact (h.order k').trans (prefix_append _ _)
    · rw [update_of_ne hne]
      exact h.order k'
  · obtain rfl : k' = k := succ_injective (hk'.trans hk.symm)
    show _ <+: update s.asked k' (s.asked k' ++ [co]) k'
    rw [update_self, ← hwhole t ht]
  · obtain rfl := some.inj (hsock.symm.trans hk')
    show _ = update s.asked k (s.asked k ++ [co]) k
    rw [update_self]
    exact hwhole t ht

/-- A call whose write to the socket `k` has failed wakes all that it finds. -/
theorem wakeupAll [DecidableEq Co] (hk : s.sock ≠ some k)
    (hqueue : ∀ a ∈ requests s.queue, a.origin = k) (errmsg : Option Data) :
    (s.wakeupAll errmsg).Inv := by
  cases hrequests : requests s.queue with
  | nil =>
    have hempty : Inv { s with queue := [] } := h.setQueue hrequests.symm
    exact { hempty with }
  | cons a rest =>
    have ha : a ∈ requests s.queue := hrequests ▸ mem_cons_self
    have hlast : k + 1 = s.opened := hqueue a ha ▸ h.queue a ha
    have hsock : s.sock = none := by
      cases hsome : s.sock with
      | none => rfl
      | some k' =>
        obtain rfl : k' = k := succ_injective ((h.sock k' hsome).trans hlast.symm)
        exact absurd hsome hk
    refine { h with
      queue := fun a ha => by cases ha
      rest := fun k' t hk' ht => ?_
      whole := fun k' t hk' => by cases hsock.symm.trans hk' }
    have hrest := h.rest k' t hk' ht
    rw [map_append, ← append_assoc] at hrest
    show s.answered k' ++ ((s.pc t).taken ++ []).map co <+: s.asked k'
    rw [append_nil]
    exact (prefix_append _ _).trans hrest

end

variable [DecidableEq Thread]

section

variable (h : s.Inv)
include h

/-- The current thread moves on. What it has taken, and what is left in the queue, was taken or in
the queue before. -/
theorem turn (ht : s.dispatchThread = some t) (pc : DispatchPc Co Data)
    (queue : List (Option (Asked Co))) (requesters : Requesters Co Data)
    (waitResponse : Option Thread) (answered : ℕ → List Co)
    (hwait : ∀ t', waitResponse = some t' →
      t' ≠ t ∧ s.waitResponse = some t' ∨ t' = t ∧ pc = .waiting false)
    (hsplit : ∀ a ∈ pc.taken ++ requests queue, a ∈ (s.pc t).taken ++ requests s.queue)
    (hreading : ∀ a k, pc = .reading a (some k) → k = a.origin)
    (hclosing : ∀ a errmsg, pc = .closing a errmsg → s.sock = none)
    (hother : ∀ k, k + 1 ≠ s.opened → answered k = s.answered k)
    (hlast : ∀ k, k + 1 = s.opened → answered k ++ (pc.taken ++ requests queue).map co =
        s.answered k ++ ((s.pc t).taken ++ requests s.queue).map co) :
    Inv { s with pc := update s.pc t pc, queue, requesters, waitResponse, answered } := by
  have horigin : ∀ a ∈ pc.taken ++ requests queue, a.origin + 1 = s.opened := by
    intro a ha
    rcases mem_append.mp (hsplit a ha) with htaken | hqueue
    · exact h.taken t a htaken
    · exact h.queue a hqueue
  refine { h with
    wait := fun t' ht' => ?_
    earlier := fun t' ht' => ?_
    queue := fun a ha => horigin a (mem_append_right _ ha)
    taken := fun t' a ha => ?_
    reading := fun t' a k hpc => ?_
    closing := fun t' a errmsg hpc => ?_
    fresh := fun k hk => ?_
    order := fun k => ?_
    rest := fun k t' hk ht' => ?_
    whole := fun k t' hk ht' => ?_ }
  · show update s.pc t pc t' = .waiting false
    rcases hwait t' ht' with ⟨hne, hold⟩ | ⟨rfl, rfl⟩
    · rw [update_of_ne hne]
      exact h.wait t' hold
    · rw [update_self]
  · show update s.pc t pc t' = .ended ∨ update s.pc t pc t' = .waiting false
    have hne : t' ≠ t := fun heq => ht' (heq ▸ ht)
    rw [update_of_ne hne]
    exact h.earlier t' ht'
  · change a ∈ (update s.pc t pc t').taken at ha
    rcases eq_or_ne t' t with rfl | hne
    · rw [update_self] at ha
      exact horigin a (mem_append_left _ ha)
    · rw [update_of_ne hne] at ha
      exact h.taken t' a ha
  · change update s.pc t pc t' = .reading a (some k) at hpc
    rcases eq_or_ne t' t with rfl | hne
    · rw [update_self] at hpc
      exact hreading a k hpc
    · rw [update_of_ne hne] at hpc
      exact h.reading t' a k hpc
  · change update s.pc t pc t' = .closing a errmsg at hpc
    rcases eq_or_ne t' t with rfl | hne
    · rw [update_self] at hpc
      exact hclosing a errmsg hpc
    · rw [update_of_ne hne] at hpc
      exact h.closing t' a errmsg hpc
  · change s.opened ≤ k at hk
    have hne : k + 1 ≠ s.opened := by omega
    show s.asked k = [] ∧ answered k = []
    rw [hother k hne]
    exact h.fresh k hk
  · show answered k <+: s.asked k
    by_cases hk : k + 1 = s.opened
    · have hrest := h.rest k t hk ht
      rw [← hlast k hk] at hrest
      exact (prefix_append _ _).trans hrest
    · rw [hother k hk]
      exact h.order k
  · obtain rfl := some.inj (ht.symm.trans ht')
    show answered k ++ ((update s.pc t pc t).taken ++ requests queue).map co <+: s.asked k
    rw [update_self, hlast k hk]
    exact h.rest k t hk ht
  · obtain rfl := some.inj (ht.symm.trans ht')
    show answered k ++ ((update s.pc t pc t).taken ++ requests queue).map co = s.asked k
    rw [update_self, hlast k (h.sock k hk)]
    exact h.whole k t hk ht

theorem exit (ht : s.dispatchThread = some t) (hwait : s.waitResponse ≠ some t)
    (requesters : Requesters Co Data) {failed : List (ℕ × ℕ)} (hfailed : ∀ p ∈ failed, p.1 = p.2)
    (queue : List (Option (Asked Co))) (hqueue : ∀ a ∈ requests queue, a ∈ requests s.queue) :
    Inv { s with
      pc := update s.pc t .ended, dispatchThread := none, queue, requesters, failed } := by
  have hpc : ∀ t', update s.pc t .ended t' = .ended ∨ update s.pc t .ended t' = .waiting false := by
    intro t'
    rcases eq_or_ne t' t with rfl | hne
    · exact .inl (update_self ..)
    · rw [update_of_ne hne]
      exact h.earlier t' fun heq => hne (some.inj (heq.symm.trans ht))
  refine { h with
    wait := fun t' ht' => ?_
    earlier := fun t' _ => hpc t'
    home := fun t' ht' => by cases ht'
    queue := fun a ha => h.queue a (hqueue a ha)
    taken := fun t' a ha => ?_
    reading := fun t' a k hread => ?_
    closing := fun t' a errmsg hclosing => ?_
    rest := fun k t' _ ht' => by cases ht'
    whole := fun k t' _ ht' => by cases ht'
    failed := hfailed }
  · show update s.pc t .ended t' = .waiting false
    have hne : t' ≠ t := fun heq => hwait (heq ▸ ht')
    rw [update_of_ne hne]
    exact h.wait t' ht'
  · change a ∈ (update s.pc t .ended t').taken at ha
    rcases hpc t' with heq | heq
    · rw [heq] at ha
      cases ha
    · rw [heq] at ha
      cases ha
  · rcases hpc t' with heq | heq
    · cases hread.symm.trans heq
    · cases hread.symm.trans heq
  · rcases hpc t' with heq | heq
    · cases hclosing.symm.trans heq
    · cases hclosing.symm.trans heq

theorem wakeWaiting (hown : s.OwnWait) : s.wakeWaiting.Inv := by
  unfold OrderChannel.wakeWaiting
  cases hwait : s.waitResponse with
  | none => exact h
  | some t =>
    have hpc := h.wait t hwait
    have ht : s.dispatchThread = some t := by
      rcases hown with hnone | hsame
      · cases hwait.symm.trans hnone
      · exact hsame.symm.trans hwait
    have htaken : (s.pc t).taken = [] := by
      rw [hpc]
      rfl
    have hwake : s.wakeThread t = s.setPc t (.waiting true) := by
      unfold wakeThread
      rw [hpc]
    simp only
    rw [hwake]
    refine h.turn ht (.waiting true) s.queue s.requesters none s.answered
      (fun t' ht' => by cases ht') ?_ (fun a k hread => by cases hread)
      (fun a errmsg hclosing => by cases hclosing) (fun k _ => rfl) fun k _ => ?_
    · exact fun a ha => mem_append_right _ ha
    · rw [htaken]
      rfl

theorem exitThread (ht : s.dispatchThread = some t) (hwait : s.waitResponse ≠ some t) :
    (s.exitThread t).Inv := by
  unfold OrderChannel.exitThread
  rw [ht, if_pos rfl]
  exact h.exit ht hwait s.requesters h.failed s.queue fun a ha => ha

theorem connect (hqueue : s.queue = []) (hpc : ∀ t, s.pc t = .ended ∨ s.pc t = .waiting false)
    (ht : s.pc t = .ended) :
    Inv { s.setPc t .forked with
      sock := some s.opened
      dispatchThread := some t
      opened := s.opened + 1
      home := update s.home t s.opened } := by
  have hnew : ∀ t', update s.pc t .forked t' = .forked ∨
      t' ≠ t ∧ update s.pc t .forked t' = s.pc t' := by
    intro t'
    rcases eq_or_ne t' t with rfl | hne
    · exact .inl (update_self ..)
    · exact .inr ⟨hne, update_of_ne hne ..⟩
  have htaken : ∀ t', (update s.pc t .forked t').taken = [] := by
    intro t'
    rcases hnew t' with heq | ⟨-, heq⟩
    · rw [heq]
      rfl
    · rw [heq]
      rcases hpc t' with hold | hold <;> rw [hold] <;> rfl
  have hempty := h.fresh s.opened (Nat.le_refl _)
  refine { h with
    sock := fun k hk => by
      obtain rfl := some.inj hk
      rfl
    wait := fun t' ht' => ?_
    earlier := fun t' ht' => ?_
    home := fun t' ht' => ?_
    queue := fun a ha => ?_
    taken := fun t' a ha => ?_
    reading := fun t' a k hread => ?_
    closing := fun t' a errmsg hclosing => ?_
    blocked := fun co k hco => ?_
    fresh := fun k hk => h.fresh k (le_of_succ_le hk)
    rest := fun k t' hk ht' => ?_
    whole := fun k t' hk ht' => ?_ }
  · have hold := h.wait t' ht'
    have hne : t' ≠ t := fun heq => by cases (heq ▸ hold).symm.trans ht
    exact (update_of_ne hne ..).trans hold
  · have hne : t' ≠ t := fun heq => ht' (congrArg some heq.symm)
    show update s.pc t .forked t' = .ended ∨ update s.pc t .forked t' = .waiting false
    rw [update_of_ne hne]
    exact hpc t'
  · obtain rfl := some.inj ht'
    show update s.home t s.opened t + 1 = s.opened + 1
    rw [update_self]
  · change a ∈ requests s.queue at ha
    rw [hqueue] at ha
    cases ha
  · change a ∈ (update s.pc t .forked t').taken at ha
    rw [htaken] at ha
    cases ha
  · have hnil := htaken t'
    rw [show update s.pc t .forked t' = .reading a (some k) from hread] at hnil
    cases hnil
  · have hnil := htaken t'
    rw [show update s.pc t .forked t' = .closing a errmsg from hclosing] at hnil
    cases hnil
  · have hlt := (h.blocked co k hco).1
    refine ⟨lt_succ_of_lt hlt, fun heq => ?_⟩
    have hk := some.inj heq
    omega
  · obtain rfl : k = s.opened := succ_injective hk
    show s.answered s.opened ++ ((update s.pc t .forked t').taken ++ requests s.queue).map
      co <+: s.asked s.opened
    rw [htaken, hqueue, hempty.1, hempty.2]
    exact prefix_refl _
  · obtain rfl := some.inj hk
    show s.answered s.opened ++ ((update s.pc t .forked t').taken ++ requests s.queue).map
      co = s.asked s.opened
    rw [htaken, hqueue, hempty.1, hempty.2]
    rfl

theorem raise {sock : Option ℕ} (hpc : s.pc t = .reading a sock) (errmsg : Option Data) :
    Inv { s.setPc t (.closing a errmsg) with
      sock := none
      shut := s.shut ++ (s.sock.map fun k => (s.home t, k)).toList } := by
  have htaken : (s.pc t).taken = [a] := by
    rw [hpc]
    rfl
  have ht := h.current (t := t) (by simp [hpc]) (by simp [hpc])
  have hwait := h.waitResponse_ne (t := t) (by simp [hpc])
  have hturn := h.dropSock.turn ht (.closing a errmsg) s.queue s.requesters s.waitResponse
    s.answered (fun t' ht' => .inl ⟨fun heq => hwait (heq ▸ ht'), ht'⟩)
    (fun b hb => htaken ▸ hb) (fun b k' hread => by cases hread) (fun b errmsg _ => rfl)
    (fun k _ => rfl) fun k _ => by rw [htaken]; rfl
  refine { hturn with shut := fun p hp => ?_ }
  rcases mem_append.mp hp with hold | hnew
  · exact h.shut p hold
  · obtain ⟨k, hk, rfl⟩ := map_eq_some_iff.mp (mem_toList.mp hnew)
    exact succ_injective ((h.home t ht).trans (h.sock k hk).symm)

end

variable [DecidableEq Co]

/-- All requests that are left are failed, and the thread comes to its end. -/
theorem threadWakeupAll_exit (h : s.Inv) (ht : s.dispatchThread = some t)
    (hwait : s.waitResponse ≠ some t) (errmsg : Option Data) :
    ((s.threadWakeupAll t errmsg).exitThread t).Inv := by
  have hfailed : ∀ p ∈ s.failed ++ (requests s.queue).map fun a => (s.home t, a.origin),
      p.1 = p.2 := by
    intro p hp
    rcases mem_append.mp hp with hold | hnew
    · exact h.failed p hold
    · obtain ⟨a, ha, rfl⟩ := mem_map.mp hnew
      exact succ_injective ((h.home t ht).trans (h.queue a ha).symm)
  have hexit := h.exit ht hwait (s.requesters.failAll errmsg ((requests s.queue).map co)) hfailed []
    fun a ha => by cases ha
  unfold OrderChannel.exitThread
  rw [show (s.threadWakeupAll t errmsg).dispatchThread = some t from ht, if_pos rfl]
  exact hexit

theorem popResponse (h : s.Inv) (hpc : s.pc t = .forked ∨ s.pc t = .waiting true) :
    (s.popResponse t).Inv := by
  have hended : s.pc t ≠ .ended := by
    rcases hpc with heq | heq <;> simp [heq]
  have hwaiting : s.pc t ≠ .waiting false := by
    rcases hpc with heq | heq <;> simp [heq]
  have htaken : (s.pc t).taken = [] := by
    rcases hpc with heq | heq <;> rw [heq] <;> rfl
  have ht := h.current hended hwaiting
  have hwait := h.waitResponse_ne hwaiting
  unfold OrderChannel.popResponse
  cases hqueue : s.queue with
  | nil =>
    refine h.turn ht (.waiting false) s.queue s.requesters (some t) s.answered
      (fun t' ht' => .inr ⟨some.inj ht'.symm, rfl⟩) ?_ (fun a k hread => by cases hread)
      (fun a errmsg hclosing => by cases hclosing) (fun k _ => rfl) fun k _ => ?_
    · exact fun a ha => mem_append_right _ ha
    · rw [htaken]
      rfl
  | cons first queue =>
    cases first with
    | none =>
      -- the close signal
      have hsignal : Inv { s with queue } := h.setQueue (by rw [hqueue, requests_signal])
      exact hsignal.threadWakeupAll_exit ht hwait none
    | some a =>
      have hrequests : requests s.queue = a :: requests queue := by
        rw [hqueue, requests_request]
      refine h.turn ht (.reading a s.sock) queue s.requesters s.waitResponse s.answered
        (fun t' ht' => .inl ⟨fun heq => hwait (heq ▸ ht'), ht'⟩) ?_ ?_
        (fun a errmsg hclosing => by cases hclosing) (fun k _ => rfl) fun k _ => ?_
      · intro b hb
        rw [hrequests]
        exact mem_append_right _ hb
      · intro b k hread
        obtain ⟨rfl, hsock⟩ := DispatchPc.reading.inj hread
        have hlast := h.queue a (hrequests ▸ mem_cons_self)
        have hk := h.sock k hsock
        omega
      · rw [htaken, hrequests]
        rfl

theorem dispatchByOrder (h : s.Inv) (hpc : s.pc t = .forked) : (s.dispatchByOrder t).Inv := by
  have ht := h.current (t := t) (by simp [hpc]) (by simp [hpc])
  unfold OrderChannel.dispatchByOrder
  cases s.sock with
  | none => exact h.exitThread ht (h.waitResponse_ne (by simp [hpc]))
  | some k => exact h.popResponse (.inl hpc)

theorem dispatchByOrder_setPc (pc : DispatchPc Co Data) :
    (s.setPc t pc).dispatchByOrder t = s.dispatchByOrder t := by
  unfold OrderChannel.dispatchByOrder OrderChannel.popResponse OrderChannel.exitThread
    threadWakeupAll setPc
  cases s.sock with
  | none =>
    simp
  | some k =>
    cases s.queue with
    | nil => simp
    | cons first queue =>
      cases first with
      | none =>
        simp only [OrderChannel.wakeupAll, update_idem]
        rfl
      | some a => simp

theorem respond (h : s.Inv) (hpc : s.pc t = .reading a (some k)) (requesters : Requesters Co Data) :
    ({ s with
      requesters
      answered := update s.answered k (s.answered k ++ [a.co]) }.dispatchByOrder t).Inv := by
  have htaken : (s.pc t).taken = [a] := by
    rw [hpc]
    rfl
  have hk : k + 1 = s.opened := by
    rw [h.reading t a k hpc]
    exact h.taken t a (htaken ▸ mem_singleton_self a)
  have ht := h.current (t := t) (by simp [hpc]) (by simp [hpc])
  have hwait := h.waitResponse_ne (t := t) (by simp [hpc])
  have hturn := h.turn ht .forked s.queue requesters s.waitResponse
    (update s.answered k (s.answered k ++ [a.co]))
    (fun t' ht' => .inl ⟨fun heq => hwait (heq ▸ ht'), ht'⟩)
    (fun b hb => mem_append_right _ hb) (fun b k' hread => by cases hread)
    (fun b errmsg hclosing => by cases hclosing) ?_ ?_
  · rw [← dispatchByOrder_setPc .forked]
    exact hturn.dispatchByOrder (update_self ..)
  · intro k' hk'
    have hne : k' ≠ k := fun heq => hk' (heq.symm ▸ hk)
    exact update_of_ne hne ..
  · intro k' hk'
    obtain rfl : k' = k := succ_injective (hk'.trans hk.symm)
    rw [update_self, htaken, append_assoc]
    rfl

theorem unblockThread (h : s.Inv) {errmsg : Option Data} (hpc : s.pc t = .closing a errmsg)
    (requesters : Requesters Co Data) :
    (({ s with
      requesters
      failed := s.failed ++ [(s.home t, a.origin)] }.threadWakeupAll t errmsg).dispatchByOrder
        t).Inv := by
  have ht := h.current (t := t) (by simp [hpc]) (by simp [hpc])
  have hwait := h.waitResponse_ne (t := t) (by simp [hpc])
  have ha : a ∈ (s.pc t).taken := by
    rw [hpc]
    exact mem_singleton_self a
  have hfailed : Inv { s with requesters, failed := s.failed ++ [(s.home t, a.origin)] } := by
    refine { h with failed := fun p hp => ?_ }
    rcases mem_append.mp hp with hold | hnew
    · exact h.failed p hold
    · obtain rfl := mem_singleton.mp hnew
      exact succ_injective ((h.home t ht).trans (h.taken t a ha).symm)
  have hexit := hfailed.threadWakeupAll_exit ht hwait errmsg
  unfold OrderChannel.dispatchByOrder
  rw [show (threadWakeupAll { s with requesters, failed := s.failed ++ [(s.home t, a.origin)] } t
    errmsg).sock = none from h.closing t a errmsg hpc]
  exact hexit

theorem step {act : OrderAct Co Thread Data} (h : s.Inv) (horderly : s.Orderly act)
    (hstep : s.step act = .ok s') : s'.Inv := by
  cases act with
  | connect t =>
    unfold OrderChannel.step at hstep
    simp only at hstep
    split at hstep
    next hsock ht =>
      obtain rfl := ok.inj hstep
      exact h.connect horderly.1 horderly.2 ht
    next => cases hstep
  | authFailed =>
    obtain rfl := ok.inj hstep
    exact h.dropSock
  | reopen =>
    unfold OrderChannel.step at hstep
    simp only at hstep
    split_ifs at hstep
    obtain rfl := ok.inj hstep
    exact { h with }
  | request co =>
    unfold OrderChannel.step at hstep
    simp only at hstep
    split at hstep
    next k hsock =>
      split_ifs at hstep
      obtain rfl := ok.inj hstep
      exact (h.ask hsock co _).wakeWaiting horderly
    next => cases hstep
  | requestFailed co =>
    unfold OrderChannel.step at hstep
    simp only at hstep
    split at hstep
    next k hsock =>
      obtain rfl := ok.inj hstep
      refine { h.dropSock with blocked := fun co' k' hmem => ⟨?_, fun hk' => by cases hk'⟩ }
      show k' < s.opened
      rcases mem_append.mp hmem with hold | hnew
      · exact (h.blocked co' k' hold).1
      · obtain ⟨-, rfl⟩ := BlockedCall.request.inj (mem_singleton.mp hnew)
        exact Nat.le_of_eq (h.sock k' hsock)
    next => cases hstep
  | close =>
    obtain rfl := ok.inj hstep
    split_ifs
    · exact h
    · refine { h.dropSock with blocked := fun co k hmem => ?_ }
      rcases mem_append.mp hmem with hold | hnew
      · exact h.dropSock.blocked co k hold
      · cases mem_singleton.mp hnew
  | changehost =>
    obtain rfl := ok.inj hstep
    split_ifs
    · exact h
    · exact h.dropSock
  | unblock i =>
    have herase : Inv { s with blocked := s.blocked.eraseIdx i } :=
      { h with blocked := fun co k hmem => h.blocked co k (mem_of_mem_eraseIdx hmem) }
    unfold OrderChannel.step at hstep
    change s.Returns s.blocked[i]? at horderly
    simp only at hstep
    split at hstep
    next co k hblocked =>
      rw [hblocked] at horderly
      obtain rfl := ok.inj hstep
      exact herase.wakeupAll (h.blocked co k (mem_of_getElem? hblocked)).2 horderly none
    next thread hblocked =>
      rw [hblocked] at horderly
      obtain rfl := ok.inj hstep
      split_ifs
      · have hsignal : Inv { s with blocked := s.blocked.eraseIdx i, queue := s.queue ++ [none] } :=
          herase.setQueue (by simp)
        exact hsignal.wakeWaiting horderly
      · exact herase
    next => cases hstep
  | run t =>
    unfold OrderChannel.step at hstep
    simp only at hstep
    split at hstep
    next hpc =>
      obtain rfl := ok.inj hstep
      exact h.dispatchByOrder hpc
    next hpc =>
      obtain rfl := ok.inj hstep
      exact h.popResponse (.inr hpc)
    next => cases hstep
  | respond t r =>
    unfold OrderChannel.step at hstep
    simp only at hstep
    split at hstep
    next a k hpc =>
      obtain ⟨requesters, -, rfl⟩ := map_eq_ok_iff.mp hstep
      exact h.respond hpc requesters
    next => cases hstep
  | raise t errmsg =>
    unfold OrderChannel.step at hstep
    simp only at hstep
    split at hstep
    next a sock hpc =>
      obtain rfl := ok.inj hstep
      exact h.raise hpc errmsg
    next => cases hstep
  | unblockThread t =>
    unfold OrderChannel.step at hstep
    simp only at hstep
    split at hstep
    next a errmsg hpc =>
      obtain rfl := ok.inj hstep
      exact h.unblockThread hpc _
    next => cases hstep
  | resume co =>
    unfold OrderChannel.step at hstep
    simp only at hstep
    split_ifs at hstep
    obtain rfl := ok.inj hstep
    exact { h with }

end Inv

variable [DecidableEq Co] [DecidableEq Thread]

/-- Every channel whose steps are orderly: one dispatch thread reads its socket, the responses of a
socket go to those who have made requests on it, in order, and a thread neither fails a request of
another socket nor closes one. -/
theorem responses_in_order {w : List (OrderAct Co Thread Data)}
    (hrun : Run next Orderly (init Co Thread Data) w s) : s.Matched :=
  Inv.matched (hrun.invariant inv_init fun horderly hnext h =>
    h.step horderly (toOption_eq_some_iff.mp hnext))

/-- A request is answered, another one fails with its socket, and the next one is answered on the
new socket by the same coroutine. -/
theorem responses_in_order_two : ∃ s : OrderChannel ℕ Unit ℕ, Run next Orderly (init ℕ Unit ℕ)
      [.connect (), .run (), .request 7, .run (), .respond () ⟨true, 70, false⟩, .request 8,
        .run (), .raise () none, .unblockThread (), .connect (), .run (), .request 9, .run (),
        .respond () ⟨true, 90, false⟩] s ∧
    s.answered 0 = [7] ∧ s.failed = [(0, 0)] ∧ s.answered 1 = [9] ∧ s.Matched := by
  obtain ⟨s, hexec, hanswered, hfailed, hlast⟩ : ∃ s : OrderChannel ℕ Unit ℕ,
      exec (guarded next Orderly) (init ℕ Unit ℕ)
        [.connect (), .run (), .request 7, .run (), .respond () ⟨true, 70, false⟩, .request 8,
          .run (), .raise () none, .unblockThread (), .connect (), .run (), .request 9, .run (),
          .respond () ⟨true, 90, false⟩] = some s ∧
      s.answered 0 = [7] ∧ s.failed = [(0, 0)] ∧ s.answered 1 = [9] := ⟨_, rfl, rfl, rfl, rfl⟩
  have hrun := run_of_exec_guarded hexec
  exact ⟨s, hrun, hanswered, hfailed, hlast, responses_in_order hrun⟩

/-- The host is changed while the dispatch thread waits. It is woken by the first request on the new
socket, and the new thread by the second one. -/
theorem readers_two : ∃ s : OrderChannel ℕ ℕ ℕ, exec next (init ℕ ℕ ℕ)
      [.connect 0, .run 0, .changehost, .connect 1, .request 7, .run 0, .run 1, .request 8,
        .run 1] = some s ∧
    s.Reads 0 ∧ s.Reads 1 ∧ ¬ s.Matched := by
  refine ⟨_, rfl, ⟨⟨7, 1⟩, 1, rfl, rfl⟩, ⟨⟨8, 1⟩, 1, rfl, rfl⟩, fun h => ?_⟩
  have hsame := h.reader 0 1 ⟨⟨7, 1⟩, 1, rfl, rfl⟩ ⟨⟨8, 1⟩, 1, rfl, rfl⟩
  cases hsame

end OrderChannel

end Uboss.Framework
