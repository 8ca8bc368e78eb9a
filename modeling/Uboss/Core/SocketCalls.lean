import Uboss.Core.SocketLock
import Mathlib.Data.List.Perm.Subperm
import Mathlib.Data.List.Nodup

/-!
# The packets on their way

Every packet is at most at one place: with a worker, in the control pipe, in one of the lists
or in the direct-write buffer.
-/

namespace Uboss.Core

open Math List Function

namespace SocketServer

variable {Tid : Type} {soi : SocketObjectInterface} {s s' : SocketServer Tid} {a : SocketAct Tid}

/-- The packets given to the send functions, and the workers that still have one. -/
structure Calls (s : SocketServer Tid) : Prop where
  serial : ∀ p ∈ s.calls, p.tag.serial < s.calls.length
  nodup : (s.calls.map (·.tag)).Nodup
  carried : ∀ t p, (s.worker t).packet? = some p → p ∈ s.calls ∧ p.tag.sender = t
  piped : ∀ p ∈ s.pipe.filterMap Command.packet?, p ∈ s.calls

theorem calls_init (protocol : Protocol) : (init Tid protocol).Calls where
  serial p hp := by simp [init] at hp
  nodup := by simp [init]
  carried t p hp := by simp [init, Worker.packet?] at hp
  piped p hp := by simp [init, Command.packet?] at hp

theorem Calls.not_mem_of_serial (h : s.Calls) {p : Packet (SendTag Tid)}
    (hp : p.tag.serial = s.calls.length) : p.tag ∉ s.calls.map (·.tag) := by
  intro hmem
  obtain ⟨q, hq, htag⟩ := mem_map.mp hmem
  have hlt := h.serial q hq
  rw [htag, hp] at hlt
  exact Nat.lt_irrefl _ hlt

/-- No packet leaves the pipe when a command without one is executed. -/
theorem packets_of_pop {c : Command Tid} {pipe : List (Command Tid)} (hpipe : s.pipe = c :: pipe)
    (hc : c.packet? = none) :
    pipe.filterMap Command.packet? = s.pipe.filterMap Command.packet? := by
  rw [hpipe, filterMap_cons_none hc]

theorem Flushing.packets {pipe : List (Command Tid)} {poller : Poller Tid}
    (h : s.Flushing pipe poller) :
    pipe.filterMap Command.packet? = s.pipe.filterMap Command.packet? := by
  cases h with
  | event => rfl
  | close hpipe => exact packets_of_pop hpipe rfl

theorem packets_of_start {pipe : List (Command Tid)}
    (hpipe : pipe = s.pipe ∨ s.pipe = .start :: pipe) :
    pipe.filterMap Command.packet? = s.pipe.filterMap Command.packet? := by
  rcases hpipe with rfl | hpipe
  · rfl
  · exact packets_of_pop hpipe rfl

/-- The types of a socket that is or was connected. -/
def Connected (s : SocketServer Tid) : Prop :=
  s.socket.type = .connected ∨ s.socket.type = .halfclose ∨ s.socket.type = .invalid

section Update

variable [DecidableEq Tid] {worker : Tid → Worker Tid} {t u : Tid} {w : Worker Tid}
  {p : Packet (SendTag Tid)}

/-- What a worker carries after another one or itself has moved. -/
theorem packet?_update (h : (update worker t w u).packet? = some p) :
    u = t ∧ w.packet? = some p ∨ u ≠ t ∧ (worker u).packet? = some p := by
  by_cases hu : u = t
  · subst hu
    rw [update_self] at h
    exact .inl ⟨rfl, h⟩
  · rw [update_of_ne hu] at h
    exact .inr ⟨hu, h⟩

theorem packet?_of_move {w₀ : Worker Tid} (ht : worker t = w₀)
    (h : (update worker t w u).packet? = some p)
    (hw : w.packet? = w₀.packet? ∨ w.packet? = none) : (worker u).packet? = some p := by
  rcases packet?_update h with ⟨rfl, hp⟩ | ⟨-, hp⟩
  · rcases hw with hw | hw <;> rw [hw] at hp
    · rwa [ht]
    · cases hp
  · exact hp

end Update

section Change

variable [DecidableEq Tid]

/-- Apart from the entry of a send function no step gives a worker a packet. -/
theorem carried_change (hchange : Change soi s a s') :
    (s'.calls = s.calls ∧ ∀ u p, (s'.worker u).packet? = some p → (s.worker u).packet? = some p) ∨
      ∃ t p w, s.worker t = .idle ∧ s.Entered t p w ∧
        s' = goto { s with calls := s.calls ++ [p] } t w := by
  cases hchange with
  | enter ht _ hentered => exact .inr ⟨_, _, _, ht, hentered, rfl⟩
  | test ht | lock ht | recheck ht =>
    exact .inl ⟨rfl, fun u p h => packet?_of_move ht h (.inl rfl)⟩
  | refuse ht =>
    rcases ht with ht | ht <;>
      exact .inl ⟨rfl, fun u p h => packet?_of_move ht h (.inl rfl)⟩
  | unlock ht =>
    rcases ht with ht | ⟨ht, -⟩ <;>
      exact .inl ⟨rfl, fun u p h => packet?_of_move ht h (.inl rfl)⟩
  | direct ht | directUdp ht | postSend ht =>
    exact .inl ⟨rfl, fun u p h => packet?_of_move ht h (.inr rfl)⟩
  | post _ _ ht =>
    rcases ht with ht | ht <;>
      exact .inl ⟨rfl, fun u p h => packet?_of_move ht h (.inr rfl)⟩
  | udpConnect ht hw =>
    refine .inl ⟨rfl, fun u p h => packet?_of_move ht h (.inr ?_)⟩
    rcases hw with rfl | ⟨b, rfl⟩ <;> rfl
  | _ => exact .inl ⟨rfl, fun u p h => h⟩

omit [DecidableEq Tid] in
theorem Entered.packet? {t : Tid} {p : Packet (SendTag Tid)} {w : Worker Tid}
    (h : s.Entered t p w) : w.packet? = some p := by
  rcases h.next with ⟨b, rfl, -⟩ | rfl <;> rfl

theorem Connected.change (h : s.Connected) (hinv : s.Inv soi) (hchange : Change soi s a s') :
    s'.Connected := by
  have hretyped : ∀ {x : Socket (SendTag Tid)}, ¬ x.Retyped s.socket := by
    intro x hx
    rcases h with h | h | h <;> simp [Socket.Retyped, h] at hx
  cases hchange with
  | direct _ _ hx => rcases hx with ⟨-, rfl⟩ | ⟨-, rfl⟩ <;> exact h
  | opened _ hpipe =>
    rcases hinv.opening with hres | ⟨-, hopen⟩
    · rcases h with h | h | h <;> rw [hres.type] at h <;> cases h
    · exact absurd (by simp [hpipe]) hopen
  | queue _ _ hx =>
    rcases hx with ⟨rfl, -⟩ | ⟨-, hq⟩
    · exact h
    · unfold Connected
      rw [hq.same.type]
      exact h
  | pop _ _ _ _ _ hx =>
    rcases hx with htype | hx
    · unfold Connected
      rw [htype]
      exact h
    · exact absurd hx hretyped
  | flush _ _ _ _ hf =>
    unfold Connected
    rw [hf.type, (Socket.merged_mergeDw soi s.socket).type]
    exact h
  | flushClosed _ _ _ _ hf => exact .inr (.inr hf.socket.1)
  | halfclose => exact .inr (.inl rfl)
  | connected _ _ hx => exact absurd hx hretyped
  | closed => exact .inr (.inr rfl)
  | _ => exact h

/-- Only `send_request` puts a packet into the pipe, and it is the one of the worker. -/
theorem piped_change (hchange : Change soi s a s') : ∀ p ∈ s'.pipe.filterMap Command.packet?,
      p ∈ s.pipe.filterMap Command.packet? ∨ ∃ t, (s.worker t).packet? = some p := by
  have htail : ∀ {c pipe}, s.pipe = c :: pipe → ∀ p ∈ pipe.filterMap Command.packet?,
      p ∈ s.pipe.filterMap Command.packet? := by
    intro c pipe hpipe
    rw [hpipe]
    exact (List.Sublist.filterMap _ (sublist_cons_self ..)).subset
  cases hchange with
  | @postSend t _ q _ _ ht =>
    intro p hp
    rw [goto, filterMap_append, mem_append] at hp
    rcases hp with hp | hp
    · exact .inl hp
    · obtain rfl : p = q := by simpa [Command.packet?] using hp
      exact .inr ⟨t, by rw [ht]; rfl⟩
  | post hc =>
    intro p hp
    rw [goto, filterMap_append, filterMap_cons_none hc, filterMap_nil, append_nil] at hp
    exact .inl hp
  | opened _ hpipe | queue _ hpipe | pop _ hpipe | closeCmd _ hpipe =>
    exact fun p hp => .inl (htail hpipe p hp)
  | flush _ _ _ hflushing | flushClosed _ _ _ hflushing =>
    exact fun p hp => .inl (hflushing.packets ▸ hp)
  | forceClose _ _ hpipe => exact fun p hp => .inl (packets_of_start hpipe ▸ hp)
  | _ => exact fun p hp => .inl hp

/-- Every change keeps the calls in order. -/
theorem Calls.of_change (h : s.Calls) (hchange : Change soi s a s') : s'.Calls := by
  have hpiped : ∀ p ∈ s'.pipe.filterMap Command.packet?, p ∈ s.calls := by
    intro p hp
    rcases piped_change hchange p hp with hold | ⟨t, ht⟩
    · exact h.piped p hold
    · exact (h.carried t p ht).1
  rcases carried_change hchange with ⟨hcalls, hcarried⟩ | ⟨t, p, w, -, hentered, rfl⟩
  · refine ⟨?_, ?_, fun u p hp => ?_, ?_⟩
    · rw [hcalls]
      exact h.serial
    · rw [hcalls]
      exact h.nodup
    · rw [hcalls]
      exact h.carried u p (hcarried u p hp)
    · rw [hcalls]
      exact hpiped
  · refine ⟨fun q hq => ?_, ?_, fun u q hq => ?_, fun q hq => mem_append_left _ (hpiped q hq)⟩
    · simp only [goto, mem_append, mem_singleton, length_append, length_singleton] at hq ⊢
      rcases hq with hq | rfl
      · exact Nat.lt_succ_of_lt (h.serial q hq)
      · rw [hentered.serial]
        exact Nat.lt_succ_self _
    · change ((s.calls ++ [p]).map (·.tag)).Nodup
      rw [map_append, map_singleton, nodup_append]
      refine ⟨h.nodup, nodup_singleton _, fun x hx y hy => ?_⟩
      rw [mem_singleton.mp hy]
      rintro rfl
      exact h.not_mem_of_serial hentered.serial hx
    · change q ∈ s.calls ++ [p] ∧ _
      rcases packet?_update hq with ⟨rfl, hw⟩ | ⟨-, hold⟩
      · rw [hentered.packet?, Option.some_inj] at hw
        subst hw
        exact ⟨by simp, hentered.sender⟩
      · obtain ⟨hmem, hsender⟩ := h.carried u q hold
        exact ⟨mem_append_left _ hmem, hsender⟩

end Change

/-- `L` holds packets that were given to the send functions, each once, and none that a worker
still has. -/
structure Placed (calls : List (Packet (SendTag Tid))) (worker : Tid → Worker Tid)
    (L : List (Packet (SendTag Tid))) : Prop where
  nodup : (L.map (·.tag)).Nodup
  mem : ∀ p ∈ L, p ∈ calls
  carried : ∀ t p, (worker t).packet? = some p → p.tag ∉ L.map (·.tag)

namespace Placed

variable {calls : List (Packet (SendTag Tid))} {worker worker' : Tid → Worker Tid}
  {L L' : List (Packet (SendTag Tid))} {p : Packet (SendTag Tid)} {t : Tid} {w : Worker Tid}

/-- Packets may be moved within the list and may leave it, and workers may lose theirs. -/
theorem mono (h : Placed calls worker L) (hL : L'.Subperm L)
    (hworker : ∀ t p, (worker' t).packet? = some p → (worker t).packet? = some p) :
    Placed calls worker' L' where
  nodup := by
    obtain ⟨l, hperm, hsublist⟩ := hL
    exact (hperm.map _).nodup_iff.mp (h.nodup.sublist (hsublist.map _))
  mem p hp := h.mem p (hL.subset hp)
  carried t p hp hmem := h.carried t p (hworker t p hp) (map_subset _ hL.subset hmem)

variable [DecidableEq Tid]

/-- A worker starts with a new packet. -/
theorem enter (h : Placed calls worker L) (hp : p.tag ∉ calls.map (·.tag))
    (hw : w.packet? = some p) : Placed (calls ++ [p]) (update worker t w) L where
  nodup := h.nodup
  mem q hq := mem_append_left _ (h.mem q hq)
  carried u q hq hmem := by
    rcases packet?_update hq with ⟨-, hwq⟩ | ⟨-, hold⟩
    · rw [hw, Option.some_inj] at hwq
      subst hwq
      obtain ⟨r, hr, htag⟩ := mem_map.mp hmem
      exact hp (htag ▸ mem_map_of_mem (h.mem r hr))
    · exact h.carried u q hold hmem

/-- A worker puts its packet into the list. -/
theorem take (h : Placed calls worker L)
    (hcarried : ∀ t p, (worker t).packet? = some p → p ∈ calls ∧ p.tag.sender = t)
    (ht : (worker t).packet? = some p) (hw : w.packet? = none) (hL : L'.Perm (p :: L)) :
    Placed calls (update worker t w) L' where
  nodup := by
    rw [(hL.map (·.tag)).nodup_iff, map_cons, nodup_cons]
    exact ⟨h.carried t p ht, h.nodup⟩
  mem q hq := by
    rcases mem_cons.mp (hL.mem_iff.mp hq) with rfl | hmem
    · exact (hcarried t q ht).1
    · exact h.mem q hmem
  carried u q hq hmem := by
    rcases packet?_update hq with ⟨-, hwq⟩ | ⟨hu, hold⟩
    · rw [hw] at hwq
      cases hwq
    · rw [(hL.map (·.tag)).mem_iff, map_cons, mem_cons] at hmem
      rcases hmem with htag | hmem
      · -- the packets of different workers have different senders
        apply hu
        rw [← (hcarried u q hold).2, htag, (hcarried t p ht).2]
      · exact h.carried u q hold hmem

end Placed

end SocketServer

end Uboss.Core
