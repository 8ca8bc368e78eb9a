import Uboss.Framework.ServiceCalls
import Uboss.Framework.ServiceReplies

/-!
# The counts of watched services

`watching_service` counts, for each service, the coroutines that handle its requests and the
response closures that may still answer them. A coroutine that raises an error is no longer a
handler, and its count stays.
-/

namespace Uboss.Framework

open Math Function List Option Requests CoStatus

variable {Co Address : Type}

/-- The coroutine is suspended or runs, and has not come to its end. -/
def CoStatus.Live (status : CoStatus Co) : Prop :=
  status ≠ .free ∧ status ≠ .spoilt ∧ status ≠ .dead

theorem live_running : (running : CoStatus Co).Live := by
  refine ⟨?_, ?_, ?_⟩ <;> intro h <;> cases h

theorem live_parked : (parked : CoStatus Co).Live := by
  refine ⟨?_, ?_, ?_⟩ <;> intro h <;> cases h

theorem live_created : (created : CoStatus Co).Live := by
  refine ⟨?_, ?_, ?_⟩ <;> intro h <;> cases h

namespace LuaService

section Counts

variable [DecidableEq Co] [DecidableEq Address] (s : LuaService Co Address) (a : Address)

/-- The live coroutines that handle a request of the service. -/
def handling : ℕ := s.requests.handlers.countP fun h => h.ticket.address = a ∧ s.status h.co ≠ .dead

/-- The closures for its requests that were neither called nor discarded. -/
def owed : ℕ := s.requests.closures.countP fun c => c.f = .pack ∧ c.ticket.address = a

/-- The counts are right. -/
def Exact : Prop := ∀ a, s.watchingService a = s.handling a + s.owed a

/-- No handler raises an error, and no closure is discarded or comes to its end that was called or
discarded before, unless its service is not watched any more. And the coroutine for a message was
not resumed in the pool. -/
def Balanced : ServiceAct Co Address → Prop
  | .message (.request co _ _) | .message (.malformed co _ _) | .message (.error co _ _ _) =>
    s.status co ≠ .spoilt
  | .yield .raise => s.pc.Ensures fun co _ => s.requests.handler co = none
  | .call (.packed i _) => ∀ c ∈ s.requests.closures[i]?,
      c.f = .pack ∨ s.watchingService c.ticket.address = 0
  | .call (.test i) => ∀ c ∈ s.requests.closures[i]?,
      s.deadService c.ticket.address = true → c.f = .pack ∨ s.watchingService c.ticket.address = 0
  | _ => True

instance : ∀ x : ServiceAct Co Address, Decidable (s.Balanced x)
  | .message (.request co _ _) | .message (.malformed co _ _) | .message (.error co _ _ _) =>
    inferInstanceAs (Decidable (s.status co ≠ .spoilt))
  | .yield .raise =>
    inferInstanceAs (Decidable (s.pc.Ensures fun co _ => s.requests.handler co = none))
  | .call (.packed i _) => inferInstanceAs (Decidable (∀ c ∈ s.requests.closures[i]?,
      c.f = .pack ∨ s.watchingService c.ticket.address = 0))
  | .call (.test i) => inferInstanceAs (Decidable (∀ c ∈ s.requests.closures[i]?,
      s.deadService c.ticket.address = true → c.f = .pack ∨ s.watchingService c.ticket.address = 0))
  | .message (.response _) | .message (.undispatched _ _) | .message (.unknown _ _)
  | .yield (.call _ _) | .yield (.sleep _) | .yield (.wait _ _) | .yield (.ret _)
  | .yield .response | .yield .exit | .yield .finish | .yield .trace | .yield .unknown
  | .call (.timeout _ _) | .call (.fork _) | .call (.wakeup _) | .call (.term _ _)
  | .call (.response _ _) | .dispatch _ => .isTrue trivial

end Counts

/-! ### Handlers -/

section Handlers

variable [DecidableEq Co] {q : Requests Co Address} {co : Co} {h : Handler Co Address}

theorem handler_eq_none : q.handler co = none ↔ ∀ x ∈ q.handlers, x.co ≠ co := by
  rw [handler, find?_eq_none]
  simp

theorem clear_handlers (hno : ∀ x ∈ q.handlers, x.co ≠ co) : (q.clear co).handlers = q.handlers :=
  filter_eq_self.mpr fun x hx => decide_eq_true (hno x hx)

/-- A handler is no longer counted. By induction on the handlers: after the one that is found there
is no other one of the same coroutine. -/
theorem countP_clear (p : Handler Co Address → Bool) (hnodup : (q.handlers.map Handler.co).Nodup)
    (hh : q.handler co = some h) :
    q.handlers.countP p = (q.clear co).handlers.countP p + if p h then 1 else 0 := by
  rw [handler] at hh
  rw [clear]
  dsimp only
  generalize q.handlers = l at hnodup hh
  induction l with
  | nil => cases hh
  | cons x l ih =>
    obtain ⟨hx, hl⟩ := nodup_cons.mp hnodup
    by_cases hco : x.co = co
    · rw [find?_cons_of_pos (by simpa using hco)] at hh
      obtain rfl := some.inj hh
      have hrest : ∀ y ∈ l, decide (y.co ≠ co) = true := by
        intro y hy
        apply decide_eq_true
        rintro heq
        exact hx (mem_map.mpr ⟨y, hy, heq.trans hco.symm⟩)
      rw [filter_cons_of_neg (by simp [hco]), filter_eq_self.mpr hrest, countP_cons]
    · rw [find?_cons_of_neg (by simp [hco])] at hh
      rw [filter_cons_of_pos (by simp [hco]), countP_cons, countP_cons, ih hl hh]
      omega

theorem nodup_clear (hnodup : (q.handlers.map Handler.co).Nodup) :
    ((q.clear co).handlers.map Handler.co).Nodup :=
  hnodup.sublist ((filter_sublist).map Handler.co)

end Handlers

/-! ### The invariant -/

variable {s s' : LuaService Co Address} {co : Co} {session frames i : ℕ} {source a : Address}

section Tables

variable [DecidableEq Address]

/-- The handlers live, each coroutine handles one request, and the counts are right. -/
structure WatchTables (s : LuaService Co Address) : Prop where
  live : ∀ h ∈ s.requests.handlers, (s.status h.co).Live
  nodup : (s.requests.handlers.map Handler.co).Nodup
  count : ∀ a, s.watchingService a =
    (s.requests.handlers.countP fun h => h.ticket.address = a) + s.owed a

theorem watchTables_init : WatchTables (init Co Address) where
  live _ hh := absurd hh not_mem_nil
  nodup := .nil
  count _ := rfl

theorem WatchTables.handling_eq [DecidableEq Co] (h : WatchTables s) (a : Address) :
    s.handling a = s.requests.handlers.countP fun h => h.ticket.address = a := by
  rw [handling]
  apply countP_congr
  intro x hx
  rw [decide_eq_true_eq, decide_eq_true_eq, and_iff_left (h.live x hx).2.2]

theorem WatchTables.exact [DecidableEq Co] (h : WatchTables s) : s.Exact := by
  intro a
  rw [h.count, h.handling_eq]

theorem WatchTables.not_handler (h : WatchTables s) (hco : ¬(s.status co).Live) :
    ∀ x ∈ s.requests.handlers, x.co ≠ co := by
  rintro x hx rfl
  exact hco (h.live x hx)

variable {n n' : Address → ℕ} {W : Address → ℕ} (h : ∀ a, W a = n a)
include h

theorem count_watch (hn : ∀ a, n' a = n a + if source = a then 1 else 0) (a : Address) :
    update W source (W source + 1) a = n' a := by
  by_cases ha : a = source
  · subst ha
    rw [update_self, hn, if_pos rfl, h]
  · rw [update_of_ne ha, hn, if_neg (Ne.symm ha), h, Nat.add_zero]

theorem count_release (hn : ∀ a, n a = n' a + if source = a then 1 else 0) (a : Address) :
    update W source (W source - 1) a = n' a := by
  by_cases ha : a = source
  · subst ha
    rw [update_self, h, hn, if_pos rfl, Nat.add_sub_cancel]
  · rw [update_of_ne ha, h, hn, if_neg (Ne.symm ha), Nat.add_zero]

end Tables

/-! ### The steps -/

section Steps

variable [DecidableEq Address]

variable {c c' : Closure Address}

theorem WatchTables.errorDispatch {order : List ℕ} (h : WatchTables s)
    (hdispatch : s.errorDispatch session source order = some s') :
    WatchTables s' := by
  rcases errorDispatch_cases hdispatch with ⟨-, dead, rfl⟩ | ⟨-, -, rfl⟩ | rfl
  · exact { h with }
  · exact { h with }
  · exact h

theorem owed_setClosure (hc : s.requests.closures[i]? = some c) (c' : Closure Address)
    (a : Address) :
    (s.requests.setClosure i c').closures.countP (fun c => c.f = .pack ∧ c.ticket.address = a) +
        (if c.f = .pack ∧ c.ticket.address = a then 1 else 0) =
      s.owed a + if c'.f = .pack ∧ c'.ticket.address = a then 1 else 0 := by
  obtain ⟨hlt, rfl⟩ := List.getElem?_eq_some_iff.mp hc
  rw [owed, Requests.setClosure]
  dsimp only
  rw [countP_set hlt]
  simp only [decide_eq_true_eq]
  have hpos : s.requests.closures[i].f = .pack ∧ s.requests.closures[i].ticket.address = a →
      0 < s.requests.closures.countP fun c => c.f = .pack ∧ c.ticket.address = a := fun hboth =>
    countP_pos_iff.mpr ⟨_, getElem_mem hlt, decide_eq_true hboth⟩
  split_ifs with hold
  · have hpos := hpos hold
    omega
  · have hpos := hpos hold
    omega
  · omega
  · omega

/-- A closure is changed that keeps its packing function or had none. -/
theorem WatchTables.setClosure (h : WatchTables s) (hc : s.requests.closures[i]? = some c)
    (hticket : c'.ticket = c.ticket) (hf : c'.f = .pack ↔ c.f = .pack) :
    WatchTables { s with requests := s.requests.setClosure i c' } := by
  refine { h with count := fun a => ?_ }
  have howed := owed_setClosure hc c' a
  simp only [hticket, hf] at howed
  rw [h.count, ← Nat.add_right_cancel howed]
  rfl

theorem WatchTables.closeClosure (h : WatchTables s) (hc : s.requests.closures[i]? = some c)
    (hf : c.f = .pack) (hf' : c'.f ≠ .pack) :
    WatchTables { s.releaseWatching c.ticket.address with
      requests := s.requests.setClosure i c' } := by
  refine { h with count := count_release h.count fun a => ?_ }
  have hnew : ¬(c'.f = .pack ∧ c'.ticket.address = a) := fun hboth => hf' hboth.1
  have howed := owed_setClosure hc c' a
  rw [if_neg hnew, Nat.add_zero] at howed
  simp only [hf, true_and] at howed
  rw [← howed, ← Nat.add_assoc]
  rfl

theorem releaseWatching_zero (h : s.watchingService a = 0) : s.releaseWatching a = s := by
  have hsame : update s.watchingService a (s.watchingService a - 1) = s.watchingService := by
    rw [h, Nat.zero_sub, ← h, update_eq_self]
  rw [releaseWatching, hsame]

theorem foldl_count (closures : List (Closure Address)) (s : LuaService Co Address) (a : Address) :
    (closures.foldl (fun s c => s.releaseWatching c.ticket.address) s).watchingService a =
      s.watchingService a - closures.countP fun c => c.ticket.address = a := by
  induction closures generalizing s with
  | nil => rfl
  | cons c closures ih =>
    rw [foldl_cons, ih, countP_cons]
    by_cases ha : a = c.ticket.address
    · subst ha
      rw [show (s.releaseWatching c.ticket.address).watchingService c.ticket.address =
        s.watchingService c.ticket.address - 1 from update_self ..]
      simp only [decide_true, if_true]
      omega
    · rw [show (s.releaseWatching c.ticket.address).watchingService a = s.watchingService a from
        update_of_ne ha ..]
      simp [Ne.symm ha]

variable [DecidableEq Co]

section

variable (h : WatchTables s)
include h

theorem WatchTables.setStatus {status : CoStatus Co}
    (hstatus : status.Live ∨ ∀ x ∈ s.requests.handlers, x.co ≠ co) :
    WatchTables (s.setStatus co status) := by
  refine { h with live := fun x hx => ?_ }
  show (update s.status co status x.co).Live
  by_cases hco : x.co = co
  · rw [hco, update_self]
    exact hstatus.resolve_right fun hno => hno x hx hco
  · rw [update_of_ne hco]
    exact h.live x hx

theorem WatchTables.cut (co : Co) : WatchTables (s.cut co) :=
  { h.setStatus (.inl live_parked) with }

theorem WatchTables.raise (hno : ∀ x ∈ s.requests.handlers, x.co ≠ co) :
    WatchTables (s.raise co) := by
  have hfail : s.requests.fail co = s.requests := by
    rw [fail, handler_eq_none.mpr hno]
  have hdead : WatchTables (s.setStatus co .dead) := h.setStatus (.inr hno)
  rw [LuaService.raise, hfail]
  exact { hdead with }

theorem WatchTables.resume (co : Co) (frames : ℕ) (resumer : Resumer) :
    WatchTables (s.resume co frames resumer) := by
  have hrunning : WatchTables (s.setStatus co .running) := h.setStatus (.inl live_running)
  unfold LuaService.resume
  cases hstatus : s.status co with
  | free =>
    have hno : ∀ x ∈ s.requests.handlers, x.co ≠ co := h.not_handler fun hlive => hlive.1 hstatus
    have hspoilt : WatchTables (s.setStatus co .spoilt) := h.setStatus (.inr hno)
    exact { hspoilt with }
  | spoilt => exact h.raise (h.not_handler fun hlive => hlive.2.1 hstatus)
  | dead => exact h.raise (h.not_handler fun hlive => hlive.2.2 hstatus)
  | created | running | call _ _ | sleep _ | wait _ _ | parked => exact { hrunning with }

theorem WatchTables.coCreate (hcreate : s.coCreate co = some s') : WatchTables s' := by
  rcases coCreate_cases hcreate with ⟨hfree, rfl⟩ | ⟨hspoilt, rfl⟩
  · exact h.setStatus (.inr (h.not_handler fun hlive => hlive.1 hfree))
  · exact h.setStatus (.inr (h.not_handler fun hlive => hlive.2.1 hspoilt))

theorem WatchTables.register (hfree : s.status co ≠ .spoilt)
    (hregister : s.register co session source = some s') :
    WatchTables s' ∧ s'.status co = .created := by
  obtain ⟨u, hu, rfl⟩ := map_eq_some_iff.mp hregister
  rcases coCreate_cases hu with ⟨hstatus, rfl⟩ | ⟨hspoilt, -⟩
  · have hno : ∀ x ∈ s.requests.handlers, x.co ≠ co := h.not_handler fun hlive => hlive.1 hstatus
    have hself : update s.status co .created co = .created := update_self ..
    have hcreated : WatchTables (s.setStatus co .created) := h.setStatus (.inr hno)
    have hhandlers : (s.requests.receive co session source).handlers =
        ⟨co, s.requests.ticket session source⟩ :: s.requests.handlers := by
      rw [receive, clear_handlers hno]
    refine ⟨?_, hself⟩
    constructor
    · intro x hx
      have hx : x ∈ (s.requests.receive co session source).handlers := hx
      rw [hhandlers] at hx
      rcases mem_cons.mp hx with rfl | hold
      · show (update s.status co .created co).Live
        rw [hself]
        exact live_created
      · exact hcreated.live x hold
    · show (map _ (s.requests.receive co session source).handlers).Nodup
      rw [hhandlers, map_cons, nodup_cons]
      refine ⟨fun hmem => ?_, h.nodup⟩
      obtain ⟨x, hx, hco⟩ := mem_map.mp hmem
      exact hno x hx hco
    · refine count_watch h.count fun a => ?_
      show countP _ (s.requests.receive co session source).handlers + s.owed a = _
      rw [hhandlers, countP_cons, Nat.add_right_comm]
      exact congrArg (_ + ·) (if_congr decide_eq_true_iff rfl rfl)
  · exact absurd hspoilt hfree

end

theorem WatchTables.finish (h : WatchTables s) (co : Co) (frames : ℕ) :
    WatchTables (s.finish co frames) := by
  have hclear : ∀ x ∈ (s.requests.clear co).handlers, x ∈ s.requests.handlers ∧ x.co ≠ co := by
    intro x hx
    obtain ⟨hmem, hne⟩ := mem_filter.mp hx
    exact ⟨hmem, of_decide_eq_true hne⟩
  have hlive : ∀ x ∈ (s.requests.clear co).handlers, (update s.status co .free x.co).Live := by
    intro x hx
    obtain ⟨hmem, hne⟩ := hclear x hx
    rw [update_of_ne hne]
    exact h.live x hmem
  unfold LuaService.finish
  cases hhandler : s.requests.handler co with
  | none =>
    have hsame := clear_handlers (handler_eq_none.mp hhandler)
    refine ⟨hlive, nodup_clear h.nodup, fun a => ?_⟩
    show s.watchingService a = countP _ (s.requests.clear co).handlers + s.owed a
    rw [hsame]
    exact h.count a
  | some x =>
    refine ⟨hlive, nodup_clear h.nodup, ?_⟩
    refine count_release h.count fun a => ?_
    show _ = countP _ (s.requests.clear co).handlers + s.owed a + _
    rw [countP_clear _ h.nodup hhandler, Nat.add_right_comm]
    simp

/-! ### Closures -/

theorem used_ne_pack : ClosureFun.used ≠ .pack := by
  intro h
  cases h

theorem discarded_ne_pack : ClosureFun.discarded ≠ .pack := by
  intro h
  cases h

omit [DecidableEq Co] in
theorem WatchTables.callResponse (h : WatchTables s) (hc : s.requests.closures[i]? = some c)
    (ok : Bool) : WatchTables (s.callResponse i c ok) := by
  unfold LuaService.callResponse
  cases hf : c.f with
  | used => exact h
  | discarded =>
    exact h.setClosure hc rfl (iff_of_false used_ne_pack (hf ▸ discarded_ne_pack))
  | pack =>
    dsimp only
    split_ifs
    · exact h.closeClosure hc hf used_ne_pack
    · exact h.setClosure hc rfl (iff_of_eq (by rw [hf]))
    · have hreply : WatchTables { s with requests := s.requests.reply .error c.ticket } :=
        { h with }
      exact hreply.closeClosure hc hf used_ne_pack

omit [DecidableEq Co] in
theorem WatchTables.callPacked (h : WatchTables s) (hc : s.requests.closures[i]? = some c)
    (sent : Bool) (hf : c.f = .pack ∨ s.watchingService c.ticket.address = 0) :
    WatchTables (s.callPacked i c sent) := by
  unfold LuaService.callPacked LuaService.closeClosure
  generalize (if sent then ReplyKind.response else ReplyKind.error) = kind
  have hreply : WatchTables { s with requests := s.requests.reply kind c.ticket } := { h with }
  by_cases hpack : c.f = .pack
  · have hclose : WatchTables
        { releaseWatching { s with requests := s.requests.reply kind c.ticket }
            c.ticket.address with
          requests := (s.requests.reply kind c.ticket).setClosure i
            ⟨c.ticket, .used, c.packing - 1⟩ } := hreply.closeClosure hc hpack used_ne_pack
    exact hclose
  · have hzero : releaseWatching { s with requests := s.requests.reply kind c.ticket }
        c.ticket.address = { s with requests := s.requests.reply kind c.ticket } :=
      releaseWatching_zero (hf.resolve_left hpack)
    dsimp only
    rw [hzero]
    have hset : WatchTables
        { s with
          requests := (s.requests.reply kind c.ticket).setClosure i
            ⟨c.ticket, .used, c.packing - 1⟩ } :=
      hreply.setClosure hc rfl (iff_of_false used_ne_pack hpack)
    exact hset

section

variable (h : WatchTables s)
include h

omit [DecidableEq Co] in
theorem WatchTables.callTest (hc : s.requests.closures[i]? = some c)
    (hf : s.deadService c.ticket.address = true →
      c.f = .pack ∨ s.watchingService c.ticket.address = 0) : WatchTables (s.callTest i c) := by
  unfold LuaService.callTest
  split_ifs with hdead
  · by_cases hpack : c.f = .pack
    · exact h.closeClosure hc hpack discarded_ne_pack
    · rw [releaseWatching_zero ((hf hdead).resolve_left hpack)]
      exact h.setClosure hc rfl (iff_of_false discarded_ne_pack hpack)
  · exact h

theorem WatchTables.perform {x : ServiceCall Co Address} (hbalanced : s.Balanced (.call x))
    (hstep : s.perform x = some s') : WatchTables s' := by
  cases x with
  | timeout session co =>
    unfold LuaService.perform at hstep
    dsimp only at hstep
    split_ifs at hstep
    obtain ⟨u, hu, rfl⟩ := map_eq_some_iff.mp hstep
    exact { h.coCreate hu with }
  | fork co =>
    obtain ⟨u, hu, rfl⟩ := map_eq_some_iff.mp hstep
    exact { h.coCreate hu with }
  | wakeup co =>
    obtain rfl := some_inj.mp hstep
    split_ifs
    · exact { h with }
    · exact h
  | term service order => exact h.errorDispatch hstep
  | response i ok =>
    obtain ⟨c, hc, rfl⟩ := map_eq_some_iff.mp hstep
    exact h.callResponse hc ok
  | packed i sent =>
    obtain ⟨c, hc, hrest⟩ := bind_eq_some_iff.mp hstep
    split_ifs at hrest
    obtain rfl := some_inj.mp hrest
    exact h.callPacked hc sent (hbalanced c hc)
  | test i =>
    obtain ⟨c, hc, rfl⟩ := map_eq_some_iff.mp hstep
    exact h.callTest hc (hbalanced c hc)

/-! ### Yields -/

theorem WatchTables.ret (co : Co) (r : SendResult) : WatchTables (s.ret co r) := by
  unfold LuaService.ret
  split_ifs
  · exact h.cut co
  · dsimp only
    split
    · exact { h.cut co with }
    · split_ifs
      · exact { h with }
      · cases r with
        | sent => exact { h with }
        | refused => exact { h with }
        | invalid => exact { h.cut co with }

theorem WatchTables.response (co : Co) : WatchTables (s.response co) := by
  unfold LuaService.response
  split_ifs
  · exact h.cut co
  · split
    · exact h.cut co
    · next x hhandler =>
      split_ifs
      · exact h.cut co
      · -- the closure is counted
        refine { h with count := count_watch h.count fun a => ?_ }
        show s.requests.handlers.countP _ +
          (s.requests.closures ++ [(⟨x.ticket, .pack, 0⟩ : Closure Address)]).countP _ = _
        rw [countP_append, countP_singleton, Nat.add_assoc, owed]
        simp

end

section

variable (h : WatchTables s)
include h

theorem WatchTables.exit (co : Co) (frames : ℕ) : WatchTables (s.exit co frames) := by
  have hpark : WatchTables (s.setStatus co .parked) := h.setStatus (.inl live_parked)
  have hcount := foldl_count s.requests.unresponse s
  obtain ⟨watchingService, heq⟩ := foldl_releaseWatching s.requests.unresponse s
  rw [heq] at hcount
  unfold LuaService.exit
  rw [heq]
  refine { hpark with count := fun a => ?_ }
  have howed : s.requests.unresponse.countP (fun c => c.ticket.address = a) = s.owed a := by
    rw [unresponse, countP_filter, owed]
    apply countP_congr
    intro c _
    simp [and_comm]
  have hnone : (s.requests.abandon.refuseAll s.deadService).closures.countP
      (fun c => c.f = .pack ∧ c.ticket.address = a) = 0 := by
    rw [countP_eq_zero]
    intro c hc
    obtain ⟨c', -, rfl⟩ := mem_map.mp hc
    split_ifs with hf
    · simp
    · simp [hf]
  show watchingService a = countP _ s.requests.handlers +
    (s.requests.abandon.refuseAll s.deadService).closures.countP _
  rw [hnone, show watchingService a = _ from hcount a, howed, h.count]
  omega

theorem WatchTables.suspend {y : ServiceYield Co Address}
    (hraise : y = .raise → s.requests.handler co = none) (hstep : s.suspend co frames y = some s') :
    WatchTables s' := by
  have hpark : WatchTables (s.setStatus co .parked) := h.setStatus (.inl live_parked)
  cases y with
  | call service session =>
    have hcall : (call session s.calls.length : CoStatus Co).Live := by
      refine ⟨?_, ?_, ?_⟩ <;> intro heq <;> cases heq
    obtain ⟨-, ⟨⟩⟩ := ite_none_right_eq_some.mp hstep
    exact { (h.setStatus (.inl hcall) : WatchTables (s.setStatus co _)) with }
  | sleep session =>
    have hsleep : (CoStatus.sleep session : CoStatus Co).Live := by
      refine ⟨?_, ?_, ?_⟩ <;> intro heq <;> cases heq
    obtain ⟨-, ⟨⟩⟩ := ite_none_right_eq_some.mp hstep
    exact { (h.setStatus (.inl hsleep) : WatchTables (s.setStatus co _)) with }
  | wait session target =>
    have hwait : (wait session target).Live := by
      refine ⟨?_, ?_, ?_⟩ <;> intro heq <;> cases heq
    obtain ⟨-, ⟨⟩⟩ := ite_none_right_eq_some.mp hstep
    exact { (h.setStatus (.inl hwait) : WatchTables (s.setStatus co _)) with }
  | ret r =>
    obtain rfl := some_inj.mp hstep
    exact h.ret co r
  | response =>
    obtain rfl := some_inj.mp hstep
    exact h.response co
  | exit =>
    obtain rfl := some_inj.mp hstep
    exact h.exit co frames
  | finish =>
    obtain rfl := some_inj.mp hstep
    exact h.finish co frames
  | trace =>
    obtain rfl := some_inj.mp hstep
    exact { hpark with }
  | unknown =>
    obtain rfl := some_inj.mp hstep
    exact h.cut co
  | raise =>
    obtain rfl := some_inj.mp hstep
    exact h.raise (handler_eq_none.mp (hraise rfl))

/-! ### Messages and the main thread -/

theorem WatchTables.message {m : ServiceMessage Co Address} (hbalanced : s.Balanced (.message m))
    (hstep : s.dispatchMessage m = some s') : WatchTables s' := by
  have hset : ∀ session, WatchTables (s.setSession session none) := fun session => { h with }
  cases m with
  | response session =>
    unfold LuaService.dispatchMessage at hstep
    dsimp only at hstep
    split at hstep
    · obtain rfl := some_inj.mp hstep
      exact (hset session).resume _ _ _
    · obtain rfl := some_inj.mp hstep
      exact { hset session with }
    · obtain rfl := some_inj.mp hstep
      exact { h with }
  | request co session source =>
    obtain ⟨u, hu, rfl⟩ := map_eq_some_iff.mp hstep
    exact (h.register hbalanced hu).1.resume co 0 .request
  | malformed co session source =>
    obtain ⟨u, hu, rfl⟩ := map_eq_some_iff.mp hstep
    exact { (h.register hbalanced hu).1 with }
  | undispatched session source =>
    obtain rfl := some_inj.mp hstep
    exact { h with }
  | unknown session source =>
    obtain rfl := some_inj.mp hstep
    by_cases hsession : session = 0
    · have hreject : s.requests.reject session source = s.requests.record session source :=
        if_pos hsession
      rw [hreject]
      exact { h with }
    · have hreject : s.requests.reject session source = _ := if_neg hsession
      rw [hreject]
      exact { h with }
  | error co session source order =>
    obtain ⟨u, hu, hrest⟩ := bind_eq_some_iff.mp hstep
    obtain ⟨htables, hcreated⟩ := h.register hbalanced hu
    rw [hcreated] at hrest
    obtain ⟨v, hv, rfl⟩ := map_eq_some_iff.mp hrest
    exact (htables.errorDispatch hv).finish co 0

theorem WatchTables.dispatch {d : ServiceDispatch Co} (hstep : s.Dispatched d s') :
    WatchTables s' := by
  cases hstep with
  | drained | idle => exact { h with }
  | @wakeup co =>
    unfold LuaService.dispatchWakeup
    dsimp only
    split
    · exact { h with }
    · next session hsession =>
      have hset : WatchTables (setSession
          { s with wakeupSession := s.wakeupSession.filter fun c => c ≠ co } session
          (some .broken)) := { h with }
      exact hset.resume _ _ _
  | errors =>
    unfold LuaService.dispatchErrorQueue
    split
    · exact { h with }
    · next session rest hqueue =>
      have hset : WatchTables { s.setSession session none with errorQueue := rest } := { h with }
      dsimp only
      split
      · exact hset.resume _ _ _
      · exact { h with }
  | @fork co =>
    have hfork : WatchTables { s with forkQueue := s.forkQueue.erase co } := { h with }
    exact hfork.resume _ _ _

theorem watchTables_step {x : ServiceAct Co Address} (hbalanced : s.Balanced x)
    (hstep : s.step x = some s') : WatchTables s' := by
  cases stepped hstep with
  | message _ hmessage => exact h.message hbalanced hmessage
  | call _ hcall => exact h.perform hbalanced hcall
  | @yield y co _ hpc hyield =>
    refine h.suspend (fun hraise => ?_) hyield
    subst hraise
    have hensures : s.pc.Ensures fun co _ => s.requests.handler co = none := hbalanced
    rw [hpc] at hensures
    exact hensures
  | dispatch hdispatch => exact h.dispatch hdispatch

/-! ### Steps that do not keep the counts -/

end

theorem handling_le (s : LuaService Co Address) (a : Address) :
    s.handling a ≤ s.requests.handlers.countP fun h => h.ticket.address = a := by
  apply countP_mono_left
  intro x _ hx
  exact decide_eq_true (of_decide_eq_true hx).1

/-- A service is watched once more, but nothing is there to be counted. -/
theorem not_exact_of_watch (h : WatchTables s)
    (hwatching : s'.watchingService source = s.watchingService source + 1)
    (hhandling : s'.handling source ≤ s.requests.handlers.countP fun h => h.ticket.address = source)
    (howed : s'.owed source = s.owed source) : ¬s'.Exact := by
  intro hexact
  have hcount := h.count source
  have hcount' := hexact source
  omega

/-- A service is watched no more, but what is counted is still there. -/
theorem not_exact_releaseWatching (h : WatchTables s) (hpos : s.watchingService a ≠ 0) :
    ¬(s.releaseWatching a).Exact := by
  intro hexact
  have hcount := h.exact a
  have hcount' : update s.watchingService a (s.watchingService a - 1) a =
      s.handling a + s.owed a := hexact a
  rw [update_self] at hcount'
  omega

theorem register_spoilt (hspoilt : s.status co = .spoilt)
    (hregister : s.register co session source = some s') :
    s' = { (s.setStatus co .dead).watch source with
      requests := s.requests.receive co session source } := by
  obtain ⟨u, hu, rfl⟩ := map_eq_some_iff.mp hregister
  rcases coCreate_cases hu with ⟨hfree, -⟩ | ⟨-, rfl⟩
  · rw [hspoilt] at hfree
    cases hfree
  · rfl

theorem not_exact_raise_register (h : WatchTables s) (hspoilt : s.status co = .spoilt) :
    ¬(LuaService.raise { (s.setStatus co .dead).watch source with
      requests := s.requests.receive co session source } co).Exact := by
  have hno : ∀ x ∈ s.requests.handlers, x.co ≠ co := h.not_handler fun hlive => hlive.2.1 hspoilt
  have hhandlers : ((s.requests.receive co session source).fail co).handlers =
      s.requests.handlers := by
    rw [fail_receive, reject]
    split_ifs
    · exact clear_handlers hno
    · exact clear_handlers hno
  have hclosures : ((s.requests.receive co session source).fail co).closures =
      s.requests.closures := by
    rw [fail_receive, reject]
    split_ifs <;> rfl
  refine not_exact_of_watch h (update_self ..) ((handling_le _ _).trans ?_) ?_
  · show countP _ ((s.requests.receive co session source).fail co).handlers ≤ _
    rw [hhandlers]
  · show countP _ ((s.requests.receive co session source).fail co).closures = _
    rw [hclosures, owed]

theorem not_exact_raise (h : WatchTables s) {x : Handler Co Address}
    (hx : s.requests.handler co = some x) : ¬(s.raise co).Exact := by
  intro hexact
  have hcount := h.count x.ticket.address
  have hcount' := hexact x.ticket.address
  have hfail : (s.requests.fail co).handlers = (s.requests.clear co).handlers ∧
      (s.requests.fail co).closures = s.requests.closures := by
    rw [fail, hx]
    dsimp only
    split_ifs
    · exact ⟨rfl, rfl⟩
    · exact ⟨rfl, rfl⟩
  have hle : (s.raise co).handling x.ticket.address ≤ _ := handling_le _ _
  have howed : (s.raise co).owed x.ticket.address = s.owed x.ticket.address := by
    show countP _ (s.requests.fail co).closures = _
    rw [hfail.2, owed]
  have hless := countP_clear (fun h => h.ticket.address = x.ticket.address) h.nodup hx
  rw [if_pos (decide_eq_true rfl)] at hless
  have hle : (s.raise co).handling x.ticket.address ≤
      (s.requests.clear co).handlers.countP fun h => h.ticket.address = x.ticket.address := by
    rw [← hfail.1]
    exact hle
  have hcount' : s.watchingService x.ticket.address =
      (s.raise co).handling x.ticket.address + (s.raise co).owed x.ticket.address := hcount'
  omega

omit [DecidableEq Address] in
theorem resume_dead {resumer : Resumer} (h : s.status co = .dead) :
    s.resume co frames resumer = s.raise co := by
  unfold resume
  rw [h]

theorem not_exact_message {m : ServiceMessage Co Address} (h : WatchTables s)
    (hbalanced : ¬s.Balanced (.message m)) (hstep : s.dispatchMessage m = some s') :
    ¬s'.Exact := by
  have hdead : ∀ co, update s.status co .dead co = .dead := fun co =>
    update_self ..
  cases m with
  | request co session source =>
    have hspoilt : s.status co = .spoilt := not_not.mp hbalanced
    obtain ⟨u, hu, rfl⟩ := map_eq_some_iff.mp hstep
    obtain rfl := register_spoilt hspoilt hu
    rw [resume_dead (hdead co)]
    exact not_exact_raise_register h hspoilt
  | malformed co session source =>
    have hspoilt : s.status co = .spoilt := not_not.mp hbalanced
    obtain ⟨u, hu, rfl⟩ := map_eq_some_iff.mp hstep
    obtain rfl := register_spoilt hspoilt hu
    have hno : ∀ x ∈ s.requests.handlers, x.co ≠ co := h.not_handler fun hlive => hlive.2.1 hspoilt
    refine not_exact_of_watch h (update_self ..) ?_ rfl
    -- the new handler is dead
    show countP _ (_ :: (s.requests.clear co).handlers) ≤ _
    rw [clear_handlers hno, countP_cons_of_neg]
    · apply countP_mono_left
      intro x _ hx
      exact decide_eq_true (of_decide_eq_true hx).1
    · intro hx
      exact (of_decide_eq_true hx).2 (hdead co)
  | error co session source order =>
    have hspoilt : s.status co = .spoilt := not_not.mp hbalanced
    obtain ⟨u, hu, hrest⟩ := bind_eq_some_iff.mp hstep
    obtain rfl := register_spoilt hspoilt hu
    rw [show LuaService.status _ co = .dead from hdead co] at hrest
    obtain rfl := some_inj.mp hrest
    exact not_exact_raise_register h hspoilt
  | response _ | undispatched _ _ | unknown _ _ => exact absurd trivial hbalanced

theorem not_exact_call {x : ServiceCall Co Address} (h : WatchTables s)
    (hbalanced : ¬s.Balanced (.call x)) (hstep : s.perform x = some s') : ¬s'.Exact := by
  cases x with
  | packed i sent =>
    obtain ⟨c, hc, hrest⟩ := bind_eq_some_iff.mp hstep
    split_ifs at hrest
    obtain rfl := some_inj.mp hrest
    have hbad : ¬(c.f = .pack ∨ s.watchingService c.ticket.address = 0) := by
      intro hor
      apply hbalanced
      intro c' hc'
      obtain rfl := some_inj.mp (hc.symm.trans hc')
      exact hor
    obtain ⟨hpack, hpos⟩ := not_or.mp hbad
    unfold callPacked LuaService.closeClosure
    generalize (if sent then ReplyKind.response else ReplyKind.error) = kind
    have hreply : WatchTables { s with requests := s.requests.reply kind c.ticket } := { h with }
    have hset : WatchTables
        { s with
          requests := (s.requests.reply kind c.ticket).setClosure i
            ⟨c.ticket, .used, c.packing - 1⟩ } :=
      hreply.setClosure hc rfl (iff_of_false used_ne_pack hpack)
    exact not_exact_releaseWatching hset hpos
  | test i =>
    obtain ⟨c, hc, rfl⟩ := map_eq_some_iff.mp hstep
    have hbad : s.deadService c.ticket.address = true ∧
        ¬(c.f = .pack ∨ s.watchingService c.ticket.address = 0) := by
      by_contra hnot
      apply hbalanced
      intro c' hc' hdead
      obtain rfl := some_inj.mp (hc.symm.trans hc')
      exact not_not.mp fun hor => hnot ⟨hdead, hor⟩
    obtain ⟨hdead, hbad⟩ := hbad
    obtain ⟨hpack, hpos⟩ := not_or.mp hbad
    have hset : WatchTables
        { s with
          requests := s.requests.setClosure i { c with f := .discarded } } :=
      h.setClosure hc rfl (iff_of_false discarded_ne_pack hpack)
    unfold callTest
    rw [if_pos hdead]
    exact not_exact_releaseWatching hset hpos
  | timeout _ _ | fork _ | wakeup _ | term _ _ | response _ _ => exact absurd trivial hbalanced

theorem not_exact_step {x : ServiceAct Co Address} (h : WatchTables s)
    (hbalanced : ¬s.Balanced x) (hstep : s.step x = some s') : ¬s'.Exact := by
  cases stepped hstep with
  | message _ hmessage => exact not_exact_message h hbalanced hmessage
  | call _ hcall => exact not_exact_call h hbalanced hcall
  | @yield y co _ hpc hyield =>
    cases y with
    | raise =>
      have hensures : ¬s.pc.Ensures fun co _ => s.requests.handler co = none := hbalanced
      rw [hpc] at hensures
      obtain ⟨x, hx⟩ := ne_none_iff_exists'.mp hensures
      obtain rfl := some_inj.mp hyield
      exact not_exact_raise h hx
    | call _ _ | sleep _ | wait _ _ | ret _ | response | exit | finish | trace | unknown =>
      exact absurd trivial hbalanced
  | dispatch => exact absurd trivial hbalanced

/-! ### Runs -/

/-- The counts are right in every state, as long as all steps keep them, and they are not after the
first step that does not. -/
theorem exact_iff_balanced {w : List (ServiceAct Co Address)}
    (hrun : Run step Balanced (init Co Address) w s) :
    s.Exact ∧ ∀ x s', s.step x = some s' → (s'.Exact ↔ s.Balanced x) := by
  have htables : WatchTables s := hrun.invariant watchTables_init
    fun hbalanced hstep h => watchTables_step h hbalanced hstep
  refine ⟨htables.exact, fun x s' hstep => ⟨fun hexact => ?_, fun hbalanced => ?_⟩⟩
  · by_contra hbalanced
    exact not_exact_step htables hbalanced hstep hexact
  · exact (watchTables_step htables hbalanced hstep).exact

/-- A handler answers, and another one leaves a closure. -/
theorem exact_iff_balanced_two : ∃ s : LuaService ℕ ℕ,
    exec step (init ℕ ℕ) [.message (.request 0 7 1), .yield (.ret .sent), .yield .finish,
      .dispatch (.wakeup none), .dispatch .errorQueue, .dispatch (.fork none),
      .message (.request 1 8 1), .yield .response, .yield .finish, .dispatch (.wakeup none),
      .dispatch .errorQueue, .dispatch (.fork none)] = some s ∧
      s.watchingService 1 = 1 ∧ s.Exact ∧
      ∀ x s', s.step x = some s' → (s'.Exact ↔ s.Balanced x) :=
  have hexec : (exec (guarded step Balanced) (init ℕ ℕ) [.message (.request 0 7 1),
      .yield (.ret .sent), .yield .finish, .dispatch (.wakeup none), .dispatch .errorQueue,
      .dispatch (.fork none), .message (.request 1 8 1), .yield .response, .yield .finish,
      .dispatch (.wakeup none), .dispatch .errorQueue, .dispatch (.fork none)]).isSome := by decide
  have hrun := run_of_exec_guarded (Option.some_get hexec).symm
  ⟨_, by rfl, by rfl, exact_iff_balanced hrun⟩

/-- The handler of a request of service 1 raises an error. Nothing is left that is to be counted,
and the count of the service is still 1 when the message has been dispatched. -/
theorem count_left : ∃ (w : List (ServiceAct ℕ ℕ)) (s : LuaService ℕ ℕ),
    Run step anyAction (init ℕ ℕ) w s ∧ s.pc = .idle ∧ s.watchingService 1 = 1 ∧
      s.requests.handlers = [] ∧ s.requests.closures = [] ∧ ¬s.Exact :=
  ⟨[.message (.request 0 7 1), .yield .raise, .dispatch (.fork none)], _, run_of_exec (by rfl),
    by rfl, by rfl, by rfl, by rfl, fun h => absurd (h 1) (by decide)⟩

end Steps

end LuaService

end Uboss.Framework
