import Uboss.Core.SocketStep

/-!
# The direct-write lock

A worker between its second test and its write holds `dw_lock`. Until it is done there is no
direct-write buffer and nothing in the high list has been sent.
-/

namespace Uboss.Core

open Math Function List

namespace Worker

variable {Tid : Type}

/-- The worker holds the lock. -/
def HasLock : Worker Tid → Prop
  | .locked _ _ | .writing _ _ => True
  | _ => False

/-- The worker is before its direct write. -/
def Writes : Worker Tid → Prop
  | .writing _ _ => True
  | _ => False

/-- The address given to `socket_server_udp_send`. -/
def address? : Worker Tid → Option UdpAddress
  | .entered _ a | .tryLock _ a | .locked _ a | .writing _ a => a
  | _ => none

/-- The packet of the send function that the worker is in. -/
def packet? : Worker Tid → Option (Packet (SendTag Tid))
  | .idle => none
  | .entered p _ | .tryLock p _ | .locked p _ | .writing p _ => some p
  | .posting c => c.packet?

theorem Writes.hasLock {w : Worker Tid} (h : w.Writes) : w.HasLock := by
  cases w with
  | writing p a => trivial
  | _ => exact h.elim

end Worker

namespace SocketServer

variable {Tid : Type} [DecidableEq Tid] {soi : SocketObjectInterface}
  {s s' : SocketServer Tid} {a : SocketAct Tid}

/-- The lock and the workers. -/
structure Locking (soi : SocketObjectInterface) (s : SocketServer Tid) : Prop where
  holds : ∀ t, (s.worker t).HasLock ↔ s.lock = some t
  dw : ∀ t, (s.worker t).Writes → s.socket.dw = none
  high : ∀ t, (s.worker t).Writes → ∀ wb ∈ s.socket.high.chain, wb.Unsent soi
  address : s.socket.protocol = .tcp → ∀ t, (s.worker t).address? = none

omit [DecidableEq Tid] in
theorem locking_init (soi : SocketObjectInterface) (protocol : Protocol) :
    (init Tid protocol).Locking soi where
  holds t := by simp [init, Worker.HasLock]
  dw t h := h.elim
  high t h := h.elim
  address _ t := rfl

namespace Locking

/-- The worker that moves neither has the lock before nor after. -/
theorem holds_goto (h : s.Locking soi) {t : Tid} {w : Worker Tid}
    (hw : w.HasLock ↔ (s.worker t).HasLock) (u : Tid) :
    (update s.worker t w u).HasLock ↔ s.lock = some u := by
  by_cases hu : u = t
  · subst hu
    rw [update_self, hw, h.holds u]
  · rw [update_of_ne hu, h.holds u]

theorem holds_unlock (h : s.Locking soi) {t : Tid} {w : Worker Tid}
    (ht : (s.worker t).HasLock) (hw : ¬ w.HasLock) (u : Tid) :
    (update s.worker t w u).HasLock ↔ (none : Option Tid) = some u := by
  by_cases hu : u = t
  · subst hu
    simp [hw]
  · have hlock := (h.holds t).mp ht
    rw [update_of_ne hu, h.holds u, hlock]
    simp [Ne.symm hu]

omit [DecidableEq Tid] in
theorem not_writes_of_lock (h : s.Locking soi) (hlock : s.lock = none) (t : Tid) :
    ¬ (s.worker t).Writes := fun hw => by
  have := (h.holds t).mp hw.hasLock
  rw [hlock] at this
  cases this

theorem holds_change (h : s.Locking soi) (hchange : Change soi s a s') (u : Tid) :
    (s'.worker u).HasLock ↔ s'.lock = some u := by
  have hlocked : ∀ {t w}, s.worker t = w → w.HasLock → (s.worker t).HasLock := fun ht hw => ht ▸ hw
  have hfree : ∀ {t w w'}, s.worker t = w → ¬ w.HasLock → ¬ w'.HasLock →
      ((update s.worker t w' u).HasLock ↔ s.lock = some u) := by
    intro t w w' ht hw hw'
    exact h.holds_goto (by rw [ht]; exact iff_of_false hw' hw) u
  cases hchange with
  | enter ht _ hentered =>
    refine hfree ht id ?_
    rcases hentered.next with ⟨b, rfl, -⟩ | rfl <;> exact id
  | test ht => exact hfree ht id id
  | refuse ht => rcases ht with ht | ht <;> exact hfree ht id id
  | @lock t _ p b ht hlock =>
    change (update s.worker t _ u).HasLock ↔ some t = some u
    by_cases hu : u = t
    · subst hu
      simp [Worker.HasLock]
    · rw [update_of_ne hu, h.holds u, hlock]
      simp [Ne.symm hu]
  | recheck ht =>
    refine h.holds_goto ?_ u
    rw [ht]
    exact iff_of_true trivial trivial
  | unlock ht =>
    rcases ht with ht | ⟨ht, -⟩ <;> exact h.holds_unlock (hlocked ht trivial) id u
  | direct ht => exact h.holds_unlock (hlocked ht trivial) id u
  | directUdp ht => exact h.holds_unlock (hlocked ht trivial) id u
  | postSend ht => exact hfree ht id id
  | post _ _ ht => rcases ht with ht | ht <;> exact hfree ht id id
  | udpConnect ht hw =>
    refine hfree ht id ?_
    rcases hw with rfl | ⟨b, rfl⟩ <;> exact id
  | _ => exact h.holds u

/-- Of the steps of a worker only the second test brings it before its write. -/
theorem writes_update {t u : Tid} {w : Worker Tid} (hw : ¬ w.Writes)
    (h : (update s.worker t w u).Writes) : (s.worker u).Writes := by
  by_cases hu : u = t
  · subst hu
    rw [update_self] at h
    exact absurd h hw
  · rwa [update_of_ne hu] at h

variable (h : s.Locking soi)
include h

theorem not_writes_update {t u : Tid} {w : Worker Tid} (hw : ¬ w.Writes)
    (ht : (s.worker t).HasLock) : ¬ (update s.worker t w u).Writes := by
  intro hu
  have hwrites := writes_update hw hu
  have hlock := (h.holds u).mp hwrites.hasLock
  rw [(h.holds t).mp ht] at hlock
  obtain rfl := Option.some_inj.mp hlock
  rw [update_self] at hu
  exact hw hu

variable (hchange : Change soi s a s')
include hchange

theorem writes_change (u : Tid) (hu : (s'.worker u).Writes) :
    s'.socket.dw = none ∧ ∀ wb ∈ s'.socket.high.chain, wb.Unsent soi := by
  have hold : ∀ {u}, (s.worker u).Writes →
      s.socket.dw = none ∧ ∀ wb ∈ s.socket.high.chain, wb.Unsent soi :=
    fun hu => ⟨h.dw _ hu, h.high _ hu⟩
  have hlocked : ∀ {t w}, s.worker t = w → w.HasLock → (s.worker t).HasLock := fun ht hw => ht ▸ hw
  cases hchange with
  | enter ht _ hentered =>
    refine hold (writes_update ?_ hu)
    rcases hentered.next with ⟨b, rfl, -⟩ | rfl <;> exact id
  | test | refuse | lock | unlock => exact hold (writes_update id hu)
  | recheck ht hcan =>
    obtain ⟨hnil, -, hdw, -⟩ := canDirectWrite_iff.mp hcan
    obtain ⟨hhigh, -⟩ := append_eq_nil_iff.mp hnil
    refine ⟨hdw, ?_⟩
    change ∀ wb ∈ s.socket.high.chain, _
    simp [hhigh]
  | direct ht => exact absurd hu (h.not_writes_update id (hlocked ht trivial))
  | directUdp | postSend | post => exact hold (writes_update id hu)
  | udpConnect ht hw =>
    refine hold (writes_update ?_ hu)
    rcases hw with rfl | ⟨b, rfl⟩ <;> exact id
  | opened _ _ _ _ hhigh _ _ _ hdw =>
    obtain ⟨hdw', hhigh'⟩ := hold hu
    refine ⟨?_, by rw [hhigh]; exact hhigh'⟩
    rcases hdw with hdw | hdw
    · exact hdw
    · exact hdw.trans hdw'
  | queue _ _ hx =>
    obtain ⟨hdw', hhigh'⟩ := hold hu
    rcases hx with ⟨rfl, -⟩ | ⟨-, hq⟩
    · exact ⟨hdw', hhigh'⟩
    · refine ⟨hq.same.dw.trans hdw', ?_⟩
      obtain ⟨wb, rfl, hunsent, -, ⟨hhigh, -⟩ | ⟨-, -, hhigh⟩⟩ := hq.lists
      · rw [hhigh]
        intro wb' hwb'
        rcases mem_append.mp hwb' with hmem | hmem
        · exact hhigh' wb' hmem
        · obtain rfl := mem_singleton.mp hmem
          exact hunsent
      · rw [hhigh]
        exact hhigh'
  | pop _ _ _ _ hx =>
    rw [hx.dw, hx.high]
    exact hold hu
  | connected _ hx =>
    rw [hx.dw, hx.high]
    exact hold hu
  | flush _ hlock => exact absurd hu (h.not_writes_of_lock hlock u)
  | flushClosed _ hlock => exact absurd hu (h.not_writes_of_lock hlock u)
  | forceClose => exact ⟨(hold hu).1, by simp [Socket.freeWbLists, WbList.empty]⟩
  | closed _ hlock => exact absurd hu (h.not_writes_of_lock hlock u)
  | _ => exact hold hu

theorem address_change (htcp : s'.socket.protocol = .tcp) (u : Tid) :
    (s'.worker u).address? = none := by
  have hold := h.address ((protocol_change hchange).symm.trans htcp)
  have hgoto : ∀ {t w}, w.address? = none → (update s.worker t w u).address? = none :=
    fun hw => (Function.forall_update_iff s.worker (fun _ w => w.address? = none)).mpr
      ⟨hw, fun u _ => hold u⟩ u
  have hmove : ∀ {t w}, s.worker t = w → w.address? = none := fun ht => ht ▸ hold _
  cases hchange with
  | enter ht _ hentered =>
    apply hgoto
    rcases hentered.next with ⟨b, rfl, hb⟩ | rfl
    · exact hb htcp
    · rfl
  | test ht | lock ht | recheck ht =>
    have hb := hmove ht
    exact hgoto hb
  | refuse | unlock | direct | directUdp | postSend | post => exact hgoto rfl
  | udpConnect _ hw =>
    apply hgoto
    rcases hw with rfl | ⟨b, rfl⟩ <;> rfl
  | _ => exact hold u

/-- Every step keeps the invariant of the lock. -/
theorem of_change : s'.Locking soi :=
  ⟨h.holds_change hchange, fun u hu => (h.writes_change hchange u hu).1,
    fun u hu => (h.writes_change hchange u hu).2, h.address_change hchange⟩

end Locking

end SocketServer

end Uboss.Core
