import Mathlib.Order.Nat
import Uboss.Framework.LuaService

/-!
# One answer for each request

A request is answered by `uboss.ret`, by a response closure, by the error of its handler, by
`uboss.exit`, or because there is no protocol for it. `session_response` keeps `uboss.ret` and
`uboss.response` apart, but neither the error path of `suspend` nor `uboss.exit` look at it: a
handler that has called `uboss.ret` and then raises an error has its request answered twice.
-/

namespace Uboss.Framework

open Math Function List Option

theorem countP_lt_countP {α : Type*} {p q : α → Bool} {l : List α} {a : α}
    (hpq : ∀ x ∈ l, p x → q x) (ha : a ∈ l) (hq : q a) (hp : ¬p a) :
    l.countP p < l.countP q := by
  induction l with
  | nil => cases ha
  | cons x l ih =>
    have hle : l.countP p ≤ l.countP q := countP_mono_left fun y hy => hpq y (mem_cons_of_mem x hy)
    rw [countP_cons, countP_cons]
    rcases mem_cons.mp ha with rfl | ha
    · simp only [hp, hq, if_true, if_false, Bool.false_eq_true]
      omega
    · have hlt := ih (fun y hy => hpq y (mem_cons_of_mem x hy)) ha
      have hx := hpq x mem_cons_self
      split_ifs with hpx hqx <;> [omega; exact absurd (hx hpx) hqx; omega; omega]

variable {Co Address : Type}

/-- The ticket is one for request `r`, which has a session. -/
def Ticket.Of (t : Ticket Address) (r : ℕ) : Prop := t.request = r ∧ t.session ≠ 0

instance (t : Ticket Address) (r : ℕ) : Decidable (t.Of r) :=
  inferInstanceAs (Decidable (_ ∧ _))

/-! ## Requests -/

namespace Requests

variable {q q' : Requests Co Address} {co : Co} {kind : ReplyKind} {t : Ticket Address}
  {r session i : ℕ} {source : Address} {h : Handler Co Address} {c c' : Closure Address}
  {e e' e'' : Bool} {dead : Address → Bool}

/-- The answers to a request. -/
def sent (q : Requests Co Address) (r : ℕ) : ℕ := q.replies.countP fun p => p.ticket.Of r

/-- The closures that may answer it. -/
def promised (q : Requests Co Address) (r : ℕ) : ℕ :=
  q.closures.countP fun c => c.f = .pack ∧ c.ticket.Of r

/-- The handlers that have not answered it. -/
def unanswered (q : Requests Co Address) (r : ℕ) : ℕ :=
  q.handlers.countP fun h => q.sessionResponse h.co = false ∧ h.ticket.Of r

/-- The answers that were sent or may be sent. The handlers are told nothing when the service exits,
but those who have asked are. -/
def answers (q : Requests Co Address) (exited : Bool) (r : ℕ) : ℕ :=
  (if exited then 0 else q.unanswered r) + q.promised r + q.sent r

/-- The ticket has the session and the source of its request. -/
def Issued (q : Requests Co Address) (t : Ticket Address) : Prop :=
  q.received[t.request]? = some (t.session, t.address)

/-- The ticket was used, or may be used. -/
def Holds (q : Requests Co Address) (t : Ticket Address) : Prop :=
  (∃ h ∈ q.handlers, h.ticket = t) ∨ (∃ c ∈ q.closures, c.ticket = t) ∨
    ∃ p ∈ q.replies, p.ticket = t

/-- What holds of the requests of a service. -/
structure Accounts (exited : Bool) (q : Requests Co Address) : Prop where
  once : ∀ r, q.answers exited r ≤ 1
  issued : ∀ t, q.Holds t → q.Issued t

/-- From `q` to `q'` no request comes in, and none gets one answer more than it may have. -/
structure Settles (exited exited' : Bool) (q q' : Requests Co Address) : Prop where
  received : q'.received = q.received
  holds : ∀ t, q'.Holds t → q.Holds t
  answers : ∀ r, q'.answers exited' r ≤ q.answers exited r

theorem Accounts.settle (hq : q.Accounts e) (h : Settles e e' q q') : q'.Accounts e' where
  once r := (h.answers r).trans (hq.once r)
  issued t ht := by
    show q'.received[t.request]? = _
    rw [h.received]
    exact hq.issued t (h.holds t ht)

theorem Settles.refl (e : Bool) (q : Requests Co Address) : Settles e e q q :=
  ⟨rfl, fun _ ht => ht, fun _ => le_rfl⟩

theorem Accounts.not_holds (hq : q.Accounts e) (ht : q.received.length ≤ t.request) :
    ¬q.Holds t := by
  intro hholds
  have hissued := hq.issued t hholds
  rw [Issued, getElem?_eq_none ht] at hissued
  cases hissued

theorem sent_reply : (q.reply kind t).sent r = q.sent r + if t.Of r then 1 else 0 := by
  simp [sent, reply, countP_append, countP_singleton]

theorem holds_reply (ht : q.Holds t) {t' : Ticket Address} (ht' : (q.reply kind t).Holds t') :
    q.Holds t' := by
  rcases ht' with hh | hc | ⟨p, hp, rfl⟩
  · exact .inl hh
  · exact .inr (.inl hc)
  · rcases mem_append.mp hp with hp | hp
    · exact .inr (.inr ⟨p, hp, rfl⟩)
    · obtain rfl := mem_singleton.mp hp
      exact ht

section Handlers

variable [DecidableEq Co]

theorem handler_eq_some (hh : q.handler co = some h) : h ∈ q.handlers ∧ h.co = co :=
  ⟨mem_of_find?_eq_some hh, by simpa using find?_some hh⟩

theorem holds_handler (hh : q.handler co = some h) : q.Holds h.ticket :=
  .inl ⟨h, (handler_eq_some hh).1, rfl⟩

theorem holds_clear (ht : (q.clear co).Holds t) : q.Holds t := by
  rcases ht with ⟨h, hh, rfl⟩ | hrest
  · exact .inl ⟨h, (mem_filter.mp hh).1, rfl⟩
  · exact .inr hrest

theorem unanswered_clear : (q.clear co).unanswered r =
    q.handlers.countP fun h => (q.sessionResponse h.co = false ∧ h.ticket.Of r) ∧ h.co ≠ co := by
  show (q.handlers.filter _).countP _ = _
  rw [countP_filter]
  apply countP_congr
  intro h _
  simp [clear]

/-- Whether a coroutine is no handler any more or has answered makes no difference. -/
theorem unanswered_markAnswered : (q.markAnswered co).unanswered r = (q.clear co).unanswered r := by
  rw [unanswered_clear]
  apply countP_congr
  intro h _
  simp only [markAnswered, decide_eq_true_eq, update_apply]
  split_ifs with hco
  · simp [hco]
  · simp [hco]

theorem unanswered_finish : (q.finish co).unanswered r = (q.clear co).unanswered r := by
  apply countP_congr
  intro h hh
  have hco : h.co ≠ co := by simpa using (mem_filter.mp hh).2
  simp only [finish, update_of_ne hco, decide_eq_true_eq]
  rfl

theorem unanswered_clear_le (q : Requests Co Address) (co : Co) (r : ℕ) :
    (q.clear co).unanswered r ≤ q.unanswered r := by
  rw [unanswered_clear]
  apply countP_mono_left
  intro h _ hh
  rw [decide_eq_true_eq] at hh ⊢
  exact hh.1

theorem unanswered_clear_lt (hh : q.handler co = some h) (hco : q.sessionResponse co = false)
    (hr : h.ticket.Of r) : (q.clear co).unanswered r < q.unanswered r := by
  obtain ⟨hmem, rfl⟩ := handler_eq_some hh
  rw [unanswered_clear]
  apply countP_lt_countP (a := h)
  · intro h' _ hh'
    rw [decide_eq_true_eq] at hh' ⊢
    exact hh'.1
  · exact hmem
  · exact decide_eq_true ⟨hco, hr⟩
  · simp

/-- What one more answer to the request of a handler, who has not answered it, amounts to. -/
theorem unanswered_clear_add (hh : q.handler co = some h) (hco : q.sessionResponse co = false) :
    ((q.clear co).unanswered r + if h.ticket.Of r then 1 else 0) ≤ q.unanswered r := by
  split_ifs with hr
  · exact unanswered_clear_lt hh hco hr
  · exact unanswered_clear_le q co r

theorem settles_clear : Settles e e q (q.clear co) where
  received := rfl
  holds _ := holds_clear
  answers r := by
    have hle := unanswered_clear_le q co r
    have hpromised : (q.clear co).promised r = q.promised r := rfl
    have hsent : (q.clear co).sent r = q.sent r := rfl
    unfold answers
    split_ifs <;> omega

theorem settles_markAnswered : Settles e e q (q.markAnswered co) where
  received := rfl
  holds _ ht := ht
  answers r := by
    have hle := unanswered_clear_le q co r
    have hunanswered : (q.markAnswered co).unanswered r = (q.clear co).unanswered r :=
      unanswered_markAnswered
    have hpromised : (q.markAnswered co).promised r = q.promised r := rfl
    have hsent : (q.markAnswered co).sent r = q.sent r := rfl
    unfold answers
    split_ifs <;> omega

theorem settles_finish : Settles e e q (q.finish co) where
  received := rfl
  holds _ := holds_clear
  answers r := by
    have hle := unanswered_clear_le q co r
    have hunanswered : (q.finish co).unanswered r = (q.clear co).unanswered r := unanswered_finish
    have hpromised : (q.finish co).promised r = q.promised r := rfl
    have hsent : (q.finish co).sent r = q.sent r := rfl
    unfold answers
    split_ifs <;> omega

theorem not_of_session (ht : t.session = 0) : ¬t.Of r := fun hr => hr.2 ht

/-- The handler of a request gives its answer, and is no handler any more or has answered. -/
theorem settles_reply (hh : q.handler co = some h)
    (hopen : h.ticket.session = 0 ∨ e = false ∧ q.sessionResponse co = false)
    (hreceived : q'.received = q.received) (hreplies : q'.replies = q.replies)
    (hclosures : q'.closures = q.closures) (hholds : ∀ t, q'.Holds t → q.Holds t)
    (hunanswered : ∀ r, q'.unanswered r = (q.clear co).unanswered r) :
    Settles e e q (q'.reply kind h.ticket) where
  received := hreceived
  holds t ht := by
    rcases ht with hh' | hc | ⟨p, hp, rfl⟩
    · exact hholds t (.inl hh')
    · exact hholds t (.inr (.inl hc))
    · rcases mem_append.mp hp with hp | hp
      · exact hholds _ (.inr (.inr ⟨p, hp, rfl⟩))
      · obtain rfl := mem_singleton.mp hp
        exact holds_handler hh
  answers r := by
    have hsent : (q'.reply kind h.ticket).sent r = q.sent r + if h.ticket.Of r then 1 else 0 := by
      rw [sent_reply, sent, hreplies]
      rfl
    have hpromised : (q'.reply kind h.ticket).promised r = q.promised r := by
      show q'.closures.countP _ = _
      rw [hclosures]
      rfl
    have hunanswered' : (q'.reply kind h.ticket).unanswered r = (q.clear co).unanswered r :=
      hunanswered r
    rcases hopen with hsession | ⟨rfl, hco⟩
    · have hle := unanswered_clear_le q co r
      rw [if_neg (not_of_session hsession)] at hsent
      unfold answers
      split_ifs <;> omega
    · have hadd := unanswered_clear_add (r := r) hh hco
      unfold answers
      simp only [Bool.false_eq_true, if_false]
      omega

theorem settles_fail (hopen : ∀ h, q.handler co = some h →
    h.ticket.session = 0 ∨ e = false ∧ q.sessionResponse co = false) :
    Settles e e q (q.fail co) := by
  unfold fail
  split
  · exact .refl e q
  · next h hh =>
    split_ifs with hsession
    · exact settles_clear
    · exact settles_reply hh (hopen h hh) rfl rfl rfl (fun _ => holds_clear) fun _ => rfl

theorem settles_ret (hh : q.handler co = some h) (hco : q.sessionResponse co = false)
    (hopen : h.ticket.session = 0 ∨ e = false) :
    Settles e e q ((q.markAnswered co).reply kind h.ticket) :=
  settles_reply hh (hopen.imp_right fun he => ⟨he, hco⟩) rfl rfl rfl (fun _ ht => ht)
    fun _ => unanswered_markAnswered

theorem settles_promise (hh : q.handler co = some h) (hco : q.sessionResponse co = false)
    (hopen : h.ticket.session = 0 ∨ e = false) :
    Settles e e q (q.promise co h.ticket) where
  received := rfl
  holds t ht := by
    rcases ht with hh' | ⟨c, hc, rfl⟩ | hp
    · exact .inl hh'
    · rcases mem_append.mp hc with hc | hc
      · exact .inr (.inl ⟨c, hc, rfl⟩)
      · obtain rfl := mem_singleton.mp hc
        exact holds_handler hh
    · exact .inr (.inr hp)
  answers r := by
    have hsent : (q.promise co h.ticket).sent r = q.sent r := rfl
    have hpromised : (q.promise co h.ticket).promised r =
        q.promised r + if h.ticket.Of r then 1 else 0 := by
      simp [promised, promise, markAnswered, countP_append, countP_singleton]
    have hunanswered : (q.promise co h.ticket).unanswered r = (q.clear co).unanswered r :=
      unanswered_markAnswered
    rcases hopen with hsession | rfl
    · have hle := unanswered_clear_le q co r
      rw [if_neg (not_of_session hsession)] at hpromised
      unfold answers
      split_ifs <;> omega
    · have hadd := unanswered_clear_add (r := r) hh hco
      unfold answers
      simp only [Bool.false_eq_true, if_false]
      omega

end Handlers

/-! ### Messages -/

theorem Accounts.answers_fresh (hq : q.Accounts e) (hr : q.received.length ≤ r) :
    q.unanswered r = 0 ∧ q.promised r = 0 ∧ q.sent r = 0 := by
  refine ⟨countP_eq_zero.mpr fun h hh => ?_, countP_eq_zero.mpr fun c hc => ?_,
    countP_eq_zero.mpr fun p hp => ?_⟩
  all_goals
    rw [decide_eq_true_eq]
    intro hcount
  · exact hq.not_holds (hcount.2.1 ▸ hr) (.inl ⟨h, hh, rfl⟩)
  · exact hq.not_holds (hcount.2.1 ▸ hr) (.inr (.inl ⟨c, hc, rfl⟩))
  · exact hq.not_holds (hcount.1 ▸ hr) (.inr (.inr ⟨p, hp, rfl⟩))

theorem Issued.record (ht : q.Issued t) : (q.record session source).Issued t := by
  obtain ⟨hlt, -⟩ := List.getElem?_eq_some_iff.mp ht
  show (q.received ++ [(session, source)])[t.request]? = _
  rw [getElem?_append_left hlt]
  exact ht

theorem issued_ticket : (q.record session source).Issued (q.ticket session source) := by
  simp [Issued, record, ticket]

theorem Accounts.record (hq : q.Accounts e) : (q.record session source).Accounts e where
  once := hq.once
  issued t ht := (hq.issued t ht).record

theorem Accounts.reject (hq : q.Accounts e) : (q.reject session source).Accounts e := by
  unfold Requests.reject
  split_ifs with hsession
  · exact hq.record
  · refine ⟨fun r => ?_, fun t ht => ?_⟩
    · have hsent : ((q.record session source).reply .error (q.ticket session source)).sent r = _ :=
        sent_reply
      have honce := hq.once r
      have hfresh := hq.answers_fresh (r := r)
      have hunanswered : ((q.record session source).reply .error
        (q.ticket session source)).unanswered r = q.unanswered r := rfl
      have hpromised : ((q.record session source).reply .error
        (q.ticket session source)).promised r = q.promised r := rfl
      have hrecord : (q.record session source).sent r = q.sent r := rfl
      unfold answers at honce ⊢
      split_ifs at hsent with hr
      · obtain ⟨h₁, h₂, h₃⟩ := hfresh hr.1.le
        split_ifs <;> omega
      · split_ifs at honce ⊢ <;> omega
    · rcases ht with hh | hc | ⟨p, hp, rfl⟩
      · exact hq.record.issued t (.inl hh)
      · exact hq.record.issued t (.inr (.inl hc))
      · rcases mem_append.mp hp with hp | hp
        · exact hq.record.issued _ (.inr (.inr ⟨p, hp, rfl⟩))
        · obtain rfl := mem_singleton.mp hp
          exact issued_ticket

section Receive

variable [DecidableEq Co]

theorem Accounts.receive (hq : q.Accounts e) : (q.receive co session source).Accounts e := by
  have hclear : (q.clear co).Accounts e := hq.settle settles_clear
  refine ⟨fun r => ?_, fun t ht => ?_⟩
  · have honce := hclear.once r
    have hfresh := hclear.answers_fresh (r := r)
    have hpromised : (q.receive co session source).promised r = (q.clear co).promised r := rfl
    have hsent : (q.receive co session source).sent r = (q.clear co).sent r := rfl
    have hunanswered : (q.receive co session source).unanswered r ≤
        (q.clear co).unanswered r + if (q.ticket session source).Of r then 1 else 0 := by
      show List.countP _ (⟨co, q.ticket session source⟩ :: (q.clear co).handlers) ≤ _
      rw [countP_cons]
      apply Nat.add_le_add_left
      split_ifs with hboth hr
      · exact le_rfl
      · rw [decide_eq_true_eq] at hboth
        exact absurd hboth.2 hr
      · exact Nat.zero_le 1
      · exact le_rfl
    unfold answers at honce ⊢
    split_ifs at hunanswered with hr
    · obtain ⟨h₁, h₂, h₃⟩ := hfresh hr.1.le
      split_ifs <;> omega
    · split_ifs at honce ⊢ <;> omega
  · rcases ht with ⟨h, hh, rfl⟩ | hrest
    · rcases mem_cons.mp hh with rfl | hh
      · exact issued_ticket
      · exact hclear.record.issued _ (.inl ⟨h, hh, rfl⟩)
    · exact hclear.record.issued t (.inr hrest)

theorem fail_receive :
    (q.receive co session source).fail co = (q.clear co).reject session source := by
  have hhandler : (q.receive co session source).handler co =
      some ⟨co, q.ticket session source⟩ := by
    simp [handler, receive]
  have hclear : (q.receive co session source).clear co = (q.clear co).record session source := by
    simp [clear, receive, record]
  unfold fail reject
  rw [hhandler, hclear]
  rfl

end Receive

/-! ### Closures -/

section Closures

variable (hc : q.closures[i]? = some c)
include hc

theorem promised_setClosure (c' : Closure Address) (r : ℕ) :
    (q.setClosure i c').promised r + (if c.f = .pack ∧ c.ticket.Of r then 1 else 0) =
      q.promised r + if c'.f = .pack ∧ c'.ticket.Of r then 1 else 0 := by
  obtain ⟨hlt, rfl⟩ := List.getElem?_eq_some_iff.mp hc
  simp only [promised, setClosure, countP_set hlt, decide_eq_true_eq]
  have hpos : q.closures[i].f = .pack ∧ q.closures[i].ticket.Of r →
      0 < q.closures.countP fun c => c.f = .pack ∧ c.ticket.Of r := fun hboth =>
    countP_pos_iff.mpr ⟨_, getElem_mem hlt, decide_eq_true hboth⟩
  split_ifs with hold
  all_goals
    first | have := hpos hold | skip
    omega

variable (ht : c'.ticket = c.ticket)
include ht

theorem holds_setClosure {t' : Ticket Address} (ht' : (q.setClosure i c').Holds t') :
    q.Holds t' := by
  rcases ht' with hh | ⟨d, hd, rfl⟩ | hp
  · exact .inl hh
  · rcases mem_or_eq_of_mem_set hd with hd | rfl
    · exact .inr (.inl ⟨d, hd, rfl⟩)
    · exact .inr (.inl ⟨c, mem_of_getElem? hc, ht.symm⟩)
  · exact .inr (.inr hp)

theorem settles_setClosure (hf : c'.f = .pack → c.f = .pack) :
    Settles e e q (q.setClosure i c') where
  received := rfl
  holds _ := holds_setClosure hc ht
  answers r := by
    have hpromised := promised_setClosure hc c' r
    have hsent : (q.setClosure i c').sent r = q.sent r := rfl
    have hunanswered : (q.setClosure i c').unanswered r = q.unanswered r := rfl
    have hle : (if c'.f = .pack ∧ c'.ticket.Of r then 1 else 0) ≤
        if c.f = .pack ∧ c.ticket.Of r then 1 else 0 := by
      rw [ht]
      split_ifs with hnew hold
      · exact le_rfl
      · exact absurd ⟨hf hnew.1, hnew.2⟩ hold
      · exact Nat.zero_le 1
      · exact le_rfl
    unfold answers
    rw [hunanswered]
    omega

theorem settles_closure (hf : c'.f ≠ .pack) (hopen : c.ticket.session = 0 ∨ c.f = .pack) :
    Settles e e q ((q.reply kind c.ticket).setClosure i c') where
  received := rfl
  holds t ht' := holds_reply (.inr (.inl ⟨c, mem_of_getElem? hc, rfl⟩))
      (holds_setClosure (q := q.reply kind c.ticket) hc ht ht')
  answers r := by
    have hpromised := promised_setClosure (q := q.reply kind c.ticket) hc c' r
    have hsent : ((q.reply kind c.ticket).setClosure i c').sent r =
        q.sent r + if c.ticket.Of r then 1 else 0 := sent_reply
    have hunanswered : ((q.reply kind c.ticket).setClosure i c').unanswered r =
        q.unanswered r := rfl
    have hreply : (q.reply kind c.ticket).promised r = q.promised r := rfl
    have hle : (if c.ticket.Of r then 1 else 0) ≤
        if c.f = .pack ∧ c.ticket.Of r then 1 else 0 := by
      split_ifs with hr hboth
      · exact le_rfl
      · rcases hopen with hsession | hpack
        · exact absurd hsession hr.2
        · exact absurd ⟨hpack, hr⟩ hboth
      · exact Nat.zero_le 1
      · exact le_rfl
    have hused : ¬(c'.f = .pack ∧ c'.ticket.Of r) := fun hboth => hf hboth.1
    rw [if_neg hused] at hpromised
    unfold answers
    rw [hunanswered]
    omega

end Closures

/-! ### The exit -/

theorem sent_abandon : q.abandon.sent r = q.sent r + q.handlers.countP fun h => h.ticket.Of r := by
  unfold sent abandon
  rw [countP_append, countP_map, countP_filter]
  congr 1
  apply countP_congr
  intro h _
  simp only [Function.comp_apply, Bool.and_eq_true, decide_eq_true_eq]
  exact ⟨And.left, fun hr => ⟨hr, hr.2⟩⟩

theorem promised_refuseAll : (q.refuseAll dead).promised r = 0 := by
  rw [promised, countP_eq_zero]
  intro c hc
  obtain ⟨d, -, rfl⟩ := mem_map.mp hc
  split_ifs with hd
  · simp
  · simp [hd]

theorem sent_refuseAll_le : (q.refuseAll dead).sent r ≤ q.sent r + q.promised r := by
  unfold sent refuseAll unresponse
  rw [countP_append, countP_map, countP_filter, countP_filter]
  apply Nat.add_le_add_left
  apply countP_mono_left
  intro c _ hc
  simp only [Function.comp_apply, Bool.and_eq_true, decide_eq_true_eq] at hc ⊢
  exact ⟨hc.2, hc.1.1⟩

theorem holds_abandon (ht : q.abandon.Holds t) : q.Holds t := by
  rcases ht with hh | hc | ⟨p, hp, rfl⟩
  · exact .inl hh
  · exact .inr (.inl hc)
  · rcases mem_append.mp hp with hp | hp
    · exact .inr (.inr ⟨p, hp, rfl⟩)
    · obtain ⟨h, hh, rfl⟩ := mem_map.mp hp
      exact .inl ⟨h, (mem_filter.mp hh).1, rfl⟩

theorem holds_refuseAll (ht : (q.refuseAll dead).Holds t) : q.Holds t := by
  rcases ht with hh | ⟨c, hc, rfl⟩ | ⟨p, hp, rfl⟩
  · exact .inl hh
  · obtain ⟨d, hd, rfl⟩ := mem_map.mp hc
    refine .inr (.inl ⟨d, hd, ?_⟩)
    split_ifs <;> rfl
  · rcases mem_append.mp hp with hp | hp
    · exact .inr (.inr ⟨p, hp, rfl⟩)
    · obtain ⟨c, hc, rfl⟩ := mem_map.mp hp
      exact .inr (.inl ⟨c, (mem_filter.mp (mem_filter.mp hc).1).1, rfl⟩)

/-- Those who have asked are told that the service exits, when none of them has an answer. -/
theorem settles_exit (hopen : ∀ h ∈ q.handlers,
      h.ticket.session = 0 ∨ e = false ∧ q.sessionResponse h.co = false) :
    Settles e true q (q.abandon.refuseAll dead) where
  received := rfl
  holds _ ht := holds_abandon (holds_refuseAll ht)
  answers r := by
    have hpromised : (q.abandon.refuseAll dead).promised r = 0 := promised_refuseAll
    have hsent : (q.abandon.refuseAll dead).sent r ≤ q.abandon.sent r + q.abandon.promised r :=
      sent_refuseAll_le
    have hhandlers : (q.handlers.countP fun h => h.ticket.Of r) ≤
        if e then 0 else q.unanswered r := by
      split_ifs with he
      · rw [Nat.le_zero, countP_eq_zero]
        intro h hh hr
        rcases hopen h hh with hsession | hfalse
        · exact (of_decide_eq_true hr).2 hsession
        · exact absurd (hfalse.1.symm.trans he) Bool.false_ne_true
      · apply countP_mono_left
        intro h hh hr
        have hr' := of_decide_eq_true hr
        rcases hopen h hh with hsession | hfalse
        · exact absurd hsession hr'.2
        · exact decide_eq_true ⟨hfalse.2, hr'⟩
    have habandon : q.abandon.promised r = q.promised r := rfl
    rw [sent_abandon] at hsent
    unfold answers
    rw [if_pos rfl]
    omega

end Requests

/-! ## The service -/

namespace LuaService

/-- What a service owes to those who send it requests. -/
structure RepliedOnce (s : LuaService Co Address) : Prop where
  /-- A request that has a session is answered at most once, -/
  once : ∀ r, s.requests.sent r ≤ 1
  /-- with this session, and to its source. -/
  addressed : ∀ p ∈ s.requests.replies, s.requests.Issued p.ticket

/-- The coroutine that runs. -/
def running (s : LuaService Co Address) : Option Co :=
  match s.pc with
  | .running co _ => some co
  | _ => none

/-- The coroutine that the main thread resumes. -/
def resumes (s : LuaService Co Address) : ServiceAct Co Address → Option Co
  | .message (.response session) => s.waiter session
  | .dispatch (.wakeup (some co)) => if (s.sleepSession co).isSome then some co else none
  | .dispatch .errorQueue => s.errorQueue.head?.bind s.waiter
  | .dispatch (.fork co) => co
  | _ => none

section Guard

variable [DecidableEq Co] (s : LuaService Co Address)

/-- An error of the coroutine may be reported: its request has no session, or neither has it
answered nor was it told to those who have asked that the service exits. -/
def Blamable (co : Co) : Prop := ∀ h ∈ s.requests.handler co,
    h.ticket.session = 0 ∨ s.exited = false ∧ s.requests.sessionResponse co = false

/-- The coroutine may answer: its request has no session, or the service has not exited. -/
def MayAnswer (co : Co) : Prop :=
  ∀ h ∈ s.requests.handler co, h.ticket.session = 0 ∨ s.exited = false

/-- No error is reported for a request that was answered, or where it was told that the service
exits: neither by a coroutine that raises it, nor for one that cannot be resumed, nor by
`uboss.exit`. After `uboss.exit` nothing else is answered. And no closure has been called between a
call of its packing function and the return from it. -/
def Answerable : ServiceAct Co Address → Prop
  | .yield .raise => ∀ co ∈ s.running, s.Blamable co
  | .yield (.ret _) | .yield .response => ∀ co ∈ s.running, s.MayAnswer co
  | .yield .exit => ∀ h ∈ s.requests.handlers,
      h.ticket.session = 0 ∨ s.exited = false ∧ s.requests.sessionResponse h.co = false
  | .call (.packed i _) => ∀ c ∈ s.requests.closures[i]?, c.ticket.session = 0 ∨ c.f = .pack
  | a => ∀ co ∈ s.resumes a, s.status co = .spoilt ∨ s.status co = .dead → s.Blamable co

instance (co : Co) : Decidable (s.Blamable co) :=
  inferInstanceAs (Decidable (∀ h ∈ s.requests.handler co,
    h.ticket.session = 0 ∨ s.exited = false ∧ s.requests.sessionResponse co = false))

instance (co : Co) : Decidable (s.MayAnswer co) :=
  inferInstanceAs (Decidable (∀ h ∈ s.requests.handler co, h.ticket.session = 0 ∨ s.exited = false))

instance : ∀ a : ServiceAct Co Address, Decidable (s.Answerable a)
  | .yield .raise => inferInstanceAs (Decidable (∀ co ∈ s.running, s.Blamable co))
  | .yield (.ret _) | .yield .response =>
    inferInstanceAs (Decidable (∀ co ∈ s.running, s.MayAnswer co))
  | .yield .exit => inferInstanceAs (Decidable (∀ h ∈ s.requests.handlers,
      h.ticket.session = 0 ∨ s.exited = false ∧ s.requests.sessionResponse h.co = false))
  | .call (.packed i _) => inferInstanceAs (Decidable
      (∀ c ∈ s.requests.closures[i]?, c.ticket.session = 0 ∨ c.f = .pack))
  | .message m => inferInstanceAs (Decidable (∀ co ∈ s.resumes (.message m),
      s.status co = .spoilt ∨ s.status co = .dead → s.Blamable co))
  | .dispatch d => inferInstanceAs (Decidable (∀ co ∈ s.resumes (.dispatch d),
      s.status co = .spoilt ∨ s.status co = .dead → s.Blamable co))
  | .call (.timeout _ _) | .call (.fork _) | .call (.wakeup _) | .call (.term _ _)
  | .call (.response _ _) | .call (.test _) | .yield (.call _ _) | .yield (.sleep _)
  | .yield (.wait _ _) | .yield .finish | .yield .trace | .yield .unknown =>
    .isTrue fun _ hco => by cases hco

end Guard

section Steps

variable {s s' : LuaService Co Address} {co : Co} {frames session i : ℕ}
  {source : Address} {order : List ℕ} {c c' : Closure Address} {resumer : Resumer}

/-- The requests are in order. -/
def Inv (s : LuaService Co Address) : Prop := s.requests.Accounts s.exited

theorem inv_init : (init Co Address).Inv where
  once r := Nat.zero_le 1
  issued t ht := by
    rcases ht with ⟨h, hh, -⟩ | ⟨c, hc, -⟩ | ⟨p, hp, -⟩
    · cases hh
    · cases hc
    · cases hp

theorem Inv.repliedOnce (hs : s.Inv) : s.RepliedOnce where
  once r := by
    have honce := hs.once r
    unfold Requests.answers at honce
    omega
  addressed p hp := hs.issued p.ticket (.inr (.inr ⟨p, hp, rfl⟩))

/-- Only the requests, and whether the service has exited, matter. -/
theorem Inv.congr (hs : s.Inv) (hrequests : s'.requests = s.requests)
    (hexited : s'.exited = s.exited) : s'.Inv := by
  unfold Inv
  rw [hrequests, hexited]
  exact hs

variable [DecidableEq Co]

theorem inv_raise (hs : s.Inv) (hblame : s.Blamable co) : (s.raise co).Inv :=
  hs.settle (Requests.settles_fail hblame)

theorem inv_resume (hs : s.Inv)
    (hblame : s.status co = .spoilt ∨ s.status co = .dead → s.Blamable co) :
    (s.resume co frames resumer).Inv := by
  unfold resume
  cases hstatus : s.status co with
  | spoilt => exact inv_raise hs (hblame (.inl hstatus))
  | dead => exact inv_raise hs (hblame (.inr hstatus))
  | _ => exact hs

theorem coCreate_requests (h : s.coCreate co = some s') :
    s'.requests = s.requests ∧ s'.exited = s.exited := by
  rcases coCreate_cases h with ⟨-, rfl⟩ | ⟨-, rfl⟩
  · exact ⟨rfl, rfl⟩
  · exact ⟨rfl, rfl⟩

variable [DecidableEq Address]

theorem register_cases (h : s.register co session source = some s') :
    (s'.status co = .created ∨ s'.status co = .dead) ∧
      s'.requests = s.requests.receive co session source ∧ s'.exited = s.exited := by
  obtain ⟨u, hu, rfl⟩ := map_eq_some_iff.mp h
  rcases coCreate_cases hu with ⟨-, rfl⟩ | ⟨-, rfl⟩
  · exact ⟨.inl (update_self co _ _), rfl, rfl⟩
  · exact ⟨.inr (update_self co _ _), rfl, rfl⟩

theorem inv_register (hs : s.Inv) (h : s.register co session source = some s') : s'.Inv := by
  obtain ⟨-, hrequests, hexited⟩ := register_cases h
  unfold Inv
  rw [hrequests, hexited]
  exact hs.receive

theorem inv_raise_register (hs : s.Inv) (h : s.register co session source = some s') :
    (s'.raise co).Inv := by
  obtain ⟨-, hrequests, hexited⟩ := register_cases h
  show Requests.Accounts s'.exited (s'.requests.fail co)
  rw [hrequests, hexited, Requests.fail_receive]
  exact (hs.settle Requests.settles_clear).reject

omit [DecidableEq Co] in
theorem errorDispatch_requests (h : s.errorDispatch session source order = some s') :
    s'.requests = s.requests ∧ s'.exited = s.exited := by
  rcases errorDispatch_cases h with ⟨-, deadService, rfl⟩ | ⟨-, -, rfl⟩ | rfl
  · exact ⟨rfl, rfl⟩
  · exact ⟨rfl, rfl⟩
  · exact ⟨rfl, rfl⟩

theorem inv_finish (hs : s.Inv) : (s.finish co frames).Inv := by
  have hexited : (s.finish co frames).exited = s.exited := by
    unfold finish
    split
    · rfl
    · rfl
  show Requests.Accounts (s.finish co frames).exited (s.requests.finish co)
  rw [hexited]
  exact hs.settle Requests.settles_finish

theorem inv_message {m : ServiceMessage Co Address} (hs : s.Inv)
    (hguard : s.Answerable (.message m)) (h : s.dispatchMessage m = some s') : s'.Inv := by
  cases m with
  | response session =>
    unfold dispatchMessage at h
    dsimp only at h
    split at h
    · next co hco =>
      obtain rfl := some_inj.mp h
      have hwaiter : s.waiter session = some co := by
        unfold waiter
        rw [hco]
      exact inv_resume (s := s.setSession session none) hs (hguard co hwaiter)
    · obtain rfl := some_inj.mp h
      exact hs
    · obtain rfl := some_inj.mp h
      exact hs
  | request co session source =>
    obtain ⟨u, hu, rfl⟩ := map_eq_some_iff.mp h
    rcases (register_cases hu).1 with hcreated | hdead
    · apply inv_resume (inv_register hs hu)
      intro hstatus
      simp [hcreated] at hstatus
    · have hresume : u.resume co 0 .request = u.raise co := by
        unfold resume
        rw [hdead]
      rw [hresume]
      exact inv_raise_register hs hu
  | malformed co session source =>
    obtain ⟨u, hu, rfl⟩ := map_eq_some_iff.mp h
    exact (inv_register hs hu).congr rfl rfl
  | undispatched session source =>
    obtain rfl := some_inj.mp h
    exact hs.record
  | unknown session source =>
    obtain rfl := some_inj.mp h
    exact hs.reject
  | error co session source order =>
    obtain ⟨u, hu, hu'⟩ := bind_eq_some_iff.mp h
    split at hu'
    · obtain ⟨v, hv, rfl⟩ := map_eq_some_iff.mp hu'
      obtain ⟨hrequests, hexited⟩ := errorDispatch_requests hv
      exact inv_finish ((inv_register hs hu).congr hrequests hexited)
    · obtain rfl := some_inj.mp hu'
      exact inv_raise_register hs hu

omit [DecidableEq Co] [DecidableEq Address] in
theorem inv_setClosure (hs : s.Inv) (hc : s.requests.closures[i]? = some c)
    (ht : c'.ticket = c.ticket) (hf : c'.f = .pack → c.f = .pack) :
    Requests.Accounts s.exited (s.requests.setClosure i c') :=
  hs.settle (Requests.settles_setClosure hc ht hf)

omit [DecidableEq Co] in
theorem inv_callResponse {ok : Bool} (hs : s.Inv) (hc : s.requests.closures[i]? = some c) :
    (s.callResponse i c ok).Inv := by
  unfold callResponse
  split
  · exact hs
  · exact inv_setClosure hs hc rfl nofun
  · next hf =>
    split_ifs
    · exact inv_setClosure hs hc rfl nofun
    · exact inv_setClosure hs hc rfl fun hpack => hpack
    · exact hs.settle (Requests.settles_closure hc rfl nofun (.inr hf))

theorem inv_call {a : ServiceCall Co Address} (hs : s.Inv) (hguard : s.Answerable (.call a))
    (h : s.perform a = some s') : s'.Inv := by
  cases a with
  | timeout session co =>
    unfold perform at h
    dsimp only at h
    split_ifs at h
    obtain ⟨u, hu, rfl⟩ := map_eq_some_iff.mp h
    obtain ⟨hrequests, hexited⟩ := coCreate_requests hu
    exact hs.congr hrequests hexited
  | fork co =>
    obtain ⟨u, hu, rfl⟩ := map_eq_some_iff.mp h
    obtain ⟨hrequests, hexited⟩ := coCreate_requests hu
    exact hs.congr hrequests hexited
  | wakeup co =>
    obtain rfl := some_inj.mp h
    split_ifs
    · exact hs
    · exact hs
  | term service order =>
    obtain ⟨hrequests, hexited⟩ := errorDispatch_requests h
    exact hs.congr hrequests hexited
  | response i ok =>
    obtain ⟨c, hc, rfl⟩ := map_eq_some_iff.mp h
    exact inv_callResponse hs hc
  | packed i sent =>
    obtain ⟨c, hc, h⟩ := bind_eq_some_iff.mp h
    split_ifs at h
    obtain rfl := some_inj.mp h
    exact hs.settle (Requests.settles_closure hc rfl nofun (hguard c hc))
  | test i =>
    obtain ⟨c, hc, rfl⟩ := map_eq_some_iff.mp h
    unfold callTest
    split_ifs
    · exact inv_setClosure hs hc rfl nofun
    · exact hs

omit [DecidableEq Address] in
theorem inv_ret {r : SendResult} (hs : s.Inv) (hmay : s.MayAnswer co) : (s.ret co r).Inv := by
  unfold ret
  split_ifs with hco
  · exact hs
  · have hco : s.requests.sessionResponse co = false := by simpa using hco
    have hmark : Requests.Accounts s.exited (s.requests.markAnswered co) :=
      hs.settle Requests.settles_markAnswered
    dsimp only
    split
    · exact hmark
    · next h hh =>
      split_ifs
      · exact hmark
      · cases r with
        | sent => exact hs.settle (Requests.settles_ret hh hco (hmay h hh))
        | refused => exact hs.settle (Requests.settles_ret hh hco (hmay h hh))
        | invalid => exact hmark

theorem inv_response (hs : s.Inv) (hmay : s.MayAnswer co) : (s.response co).Inv := by
  unfold response
  split_ifs with hco
  · exact hs
  · have hco : s.requests.sessionResponse co = false := by simpa using hco
    split
    · exact hs
    · next h hh =>
      split_ifs
      · exact hs
      · exact hs.settle (Requests.settles_promise hh hco (hmay h hh))

theorem inv_yield {y : ServiceYield Co Address} (hs : s.Inv)
    (hco : s.running = some co) (hguard : s.Answerable (.yield y))
    (h : s.suspend co frames y = some s') : s'.Inv := by
  cases y with
  | call service session =>
    obtain ⟨-, ⟨⟩⟩ := ite_none_right_eq_some.mp h
    exact hs
  | sleep session =>
    obtain ⟨-, ⟨⟩⟩ := ite_none_right_eq_some.mp h
    exact hs
  | wait session target =>
    obtain ⟨-, ⟨⟩⟩ := ite_none_right_eq_some.mp h
    exact hs
  | ret r =>
    obtain rfl := some_inj.mp h
    exact inv_ret hs (hguard co hco)
  | response =>
    obtain rfl := some_inj.mp h
    exact inv_response hs (hguard co hco)
  | exit =>
    obtain rfl := some_inj.mp h
    exact hs.settle (Requests.settles_exit hguard)
  | finish =>
    obtain rfl := some_inj.mp h
    exact inv_finish hs
  | trace =>
    obtain rfl := some_inj.mp h
    exact hs
  | unknown =>
    obtain rfl := some_inj.mp h
    exact hs
  | raise =>
    obtain rfl := some_inj.mp h
    exact inv_raise hs (hguard co hco)

omit [DecidableEq Address] in
theorem inv_dispatchErrorQueue (hs : s.Inv) (hguard : s.Answerable (.dispatch .errorQueue)) :
    (s.dispatchErrorQueue frames).Inv := by
  unfold dispatchErrorQueue
  split
  · exact hs
  · next session rest hqueue =>
    dsimp only
    split
    · next co hco =>
      apply inv_resume
      · exact hs
      · apply hguard co
        show s.errorQueue.head?.bind s.waiter = some co
        rw [hqueue]
        show s.waiter session = some co
        unfold waiter
        rw [hco]
    · exact hs

omit [DecidableEq Address] in
theorem inv_dispatch {d : ServiceDispatch Co} (hs : s.Inv)
    (hguard : s.Answerable (.dispatch d)) (h : s.Dispatched d s') : s'.Inv := by
  cases h with
  | drained | idle => exact hs
  | @wakeup co =>
    unfold dispatchWakeup
    dsimp only
    split
    · exact hs
    · next session hsleep =>
      apply inv_resume
      · exact hs
      · apply hguard co
        show (if (s.sleepSession co).isSome then some co else none) = some co
        have hsleep : s.sleepSession co = some session := hsleep
        rw [hsleep]
        rfl
  | errors => exact inv_dispatchErrorQueue hs hguard
  | @fork co =>
    exact inv_resume (s := { s with forkQueue := s.forkQueue.erase co }) hs (hguard co rfl)

theorem inv_step {a : ServiceAct Co Address} (hguard : s.Answerable a) (h : s.step a = some s')
    (hs : s.Inv) : s'.Inv := by
  cases stepped h with
  | message _ hmessage => exact inv_message hs hguard hmessage
  | call _ hcall => exact inv_call hs hguard hcall
  | @yield _ co _ hpc hyield =>
    have hrunning : s.running = some co := by
      unfold running
      rw [hpc]
    exact inv_yield hs hrunning hguard hyield
  | dispatch hdispatch => exact inv_dispatch hs hguard hdispatch

/-- As long as no error is reported for a request that was answered, no request is answered twice.
-/
theorem reply_at_most_once {w : List (ServiceAct Co Address)}
    (hrun : Run step Answerable (init Co Address) w s) : s.RepliedOnce :=
  (hrun.invariant inv_init fun hguard h hs => inv_step hguard h hs).repliedOnce

/-- A request that is answered by `uboss.ret`, and one that is answered by a closure at the exit of
the service. -/
def answerTwo : List (ServiceAct ℕ ℕ) :=
  [.message (.request 0 7 1), .yield (.ret .sent), .yield .finish, .dispatch (.wakeup none),
    .dispatch .errorQueue, .dispatch (.fork none), .message (.request 1 8 2), .yield .response,
    .yield .finish, .dispatch (.wakeup none), .dispatch .errorQueue, .dispatch (.fork none),
    .message (.request 2 9 1), .yield .exit]

theorem reply_at_most_once_two : ∃ s : LuaService ℕ ℕ,
    exec step (init ℕ ℕ) answerTwo = some s ∧ s.RepliedOnce :=
  have hexec : (exec (guarded step Answerable) (init ℕ ℕ) answerTwo).isSome := by decide
  have hrun := run_of_exec_guarded (Option.some_get hexec).symm
  ⟨_, by rfl, reply_at_most_once hrun⟩

/-- A handler calls `uboss.ret` and then raises an error: there is a response and an error message
with the same session. -/
theorem reply_twice : ∃ (w : List (ServiceAct ℕ ℕ)) (s : LuaService ℕ ℕ),
    Run step anyAction (init ℕ ℕ) w s ∧ s.requests.replies =
      [⟨.response, ⟨0, 7, 1⟩⟩, ⟨.error, ⟨0, 7, 1⟩⟩] ∧ ¬s.RepliedOnce :=
  ⟨[.message (.request 0 7 1), .yield (.ret .sent), .yield .raise], _,
    run_of_exec (by rfl), by decide, fun h => absurd (h.once 0) (by decide)⟩

end Steps

end LuaService

end Uboss.Framework
