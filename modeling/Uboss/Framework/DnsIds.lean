import Uboss.Framework.Dns
import Uboss.Math.CInt
import Uboss.Math.Fuel
import Uboss.Math.PartialMap
import Uboss.Math.Transition

/-!
# The ids of queries

Ids are taken from a counter that is never reset, so no two queries have the same. It does not wrap
around either: the id of the query after the last one that fits cannot be packed, and the call
raises an error.
-/

namespace Uboss.Framework.Dns

open Math Lib Lib.LuaText Lib.LuaPack Function List Option Except Nat DnsService

variable {Co : Type} [DecidableEq Co]

/-- The type of the record that a call asks for. -/
def qtypeOf (ipv6 : Bool) : QType := if ipv6 then .aaaa else .a

/-- A call with a legal name that does not find its answer in the cache. -/
def Misses (s : DnsService Co) (now : ℕ) (name : LuaString) (ipv6 : Bool) : Prop :=
  verifyDomainName (lower name) ∧ s.lookupCache (lower name) (qtypeOf ipv6) now false = none

/-- The call sends a query with an id that fits in 16 bits and is not in the pool. -/
def SendsFresh (s : DnsService Co) (now : ℕ) (co : Co) (name : LuaString) (ipv6 : Bool) : Prop :=
  ∃ packet header left, (s.dnsResolve now co name ipv6).2 = .sent packet ∧
    unpackHeader packet = .ok (header, left) ∧ header.tid < 2 ^ 16 ∧
    s.requestPool header.tid = none ∧
    (s.dnsResolve now co name ipv6).1.sent = s.sent ++ [(header.tid, co)]

/-- An answer wakes up no coroutine but that of the one query that was sent with its id. -/
def AnswersWake (s : DnsService Co) : Prop :=
  ∀ ⦃rounds now content s' woken⦄, s.resolve rounds now content = some (.ok (s', woken)) →
    s'.calls = s.calls ∧ woken = none ∨
      ∃ header left co, unpackHeader content = .ok (header, left) ∧ woken = some co ∧
        (header.tid, co) ∈ s.sent ∧ (∀ co', (header.tid, co') ∈ s.sent → co' = co) ∧
        ∀ co' ≠ co, s'.calls co' = s.calls co'

variable {s s' : DnsService Co} {name packet : LuaString} {tid : ℕ} {t : Header}

/-! ### Packets -/

theorem mapM_ok {α β ε : Type} {f : α → Except ε β} {l : List α} (h : ∀ x ∈ l, ∃ y, f x = .ok y) :
    ∃ ys, l.mapM f = .ok ys := by
  induction l with
  | nil => exact ⟨[], rfl⟩
  | cons x l ih =>
    obtain ⟨y, hy⟩ := h x mem_cons_self
    obtain ⟨ys, hys⟩ := ih fun x hx => h x (mem_cons_of_mem _ hx)
    refine ⟨y :: ys, ?_⟩
    rw [mapM_cons, hy, hys]
    rfl

theorem of_mapM_cons {α β ε : Type} {f : α → Except ε β} {x : α} {l : List α} {ys : List β}
    (h : (x :: l).mapM f = .ok ys) :
    ∃ y ys', f x = .ok y ∧ l.mapM f = .ok ys' ∧ ys = y :: ys' := by
  rw [mapM_cons] at h
  obtain ⟨y, hy, hrest⟩ := bind_eq_ok_iff.mp h
  obtain ⟨ys', hys', hpure⟩ := bind_eq_ok_iff.mp hrest
  exact ⟨y, ys', hy, hys', (ok.inj hpure).symm⟩

theorem packHeader_eq_ok (h : packHeader t = .ok packet) : ∃ a b c d e f,
    packUInt 2 t.tid = .ok a ∧ packUInt 2 t.flags = .ok b ∧ packUInt 2 t.qdcount = .ok c ∧
    packUInt 2 t.ancount = .ok d ∧ packUInt 2 t.nscount = .ok e ∧ packUInt 2 t.arcount = .ok f ∧
    packet = a ++ (b ++ (c ++ (d ++ (e ++ f)))) := by
  obtain ⟨items, hitems, hpure⟩ := bind_eq_ok_iff.mp h
  obtain ⟨a, _, ha, h₁, rfl⟩ := of_mapM_cons hitems
  obtain ⟨b, _, hb, h₂, rfl⟩ := of_mapM_cons h₁
  obtain ⟨c, _, hc, h₃, rfl⟩ := of_mapM_cons h₂
  obtain ⟨d, _, hd, h₄, rfl⟩ := of_mapM_cons h₃
  obtain ⟨e, _, he, h₅, rfl⟩ := of_mapM_cons h₄
  obtain ⟨f, _, hf, h₆, rfl⟩ := of_mapM_cons h₅
  obtain rfl := ok.inj h₆
  obtain rfl := ok.inj hpure
  exact ⟨a, b, c, d, e, f, ha, hb, hc, hd, he, hf, by simp⟩

theorem length_packUInt {size n : ℕ} {x : LuaString} (h : packUInt size n = .ok x) :
    x.length = size := by
  rw [packUInt] at h
  split at h
  · obtain rfl := ok.inj h
    rw [length_reverse, length_leBytes]
  · cases h

/-- The id that is sent is the one that was packed. -/
theorem unpackHeader_packHeader (h : packHeader t = .ok packet) (rest : LuaString) :
    unpackHeader (packet ++ rest) = .ok (t, 13) := by
  obtain ⟨a, b, c, d, e, f, ha, hb, hc, hd, he, hf, rfl⟩ := packHeader_eq_ok h
  have h₁ := unpackUInt_packUInt ha [] (b ++ (c ++ (d ++ (e ++ (f ++ rest)))))
  have h₂ := unpackUInt_packUInt hb a (c ++ (d ++ (e ++ (f ++ rest))))
  have h₃ := unpackUInt_packUInt hc (a ++ b) (d ++ (e ++ (f ++ rest)))
  have h₄ := unpackUInt_packUInt hd (a ++ (b ++ c)) (e ++ (f ++ rest))
  have h₅ := unpackUInt_packUInt he (a ++ (b ++ (c ++ d))) (f ++ rest)
  have h₆ := unpackUInt_packUInt hf (a ++ (b ++ (c ++ (d ++ e)))) rest
  simp only [length_append, length_packUInt ha, length_packUInt hb, length_packUInt hc,
    length_packUInt hd, length_packUInt he, length_nil, nil_append,
    append_assoc, Nat.reduceAdd] at h₁ h₂ h₃ h₄ h₅ h₆ ⊢
  simp only [unpackHeader, h₁, h₂, h₃, h₄, h₅, h₆, ok_bind]
  rfl

theorem packQuestion_ok (hname : verifyDomainName name) (qtype : QType) :
    ∃ question, packQuestion name qtype.code classIn = .ok question := by
  have hlabels : ∀ w ∈ labelsOf [] name, ∃ y, packString 1 w = .ok y := by
    intro w hw
    have hall := (of_decide_eq_true hname).2.2.2 w hw
    obtain ⟨y, hy⟩ := packUInt_ok_iff.mpr (show w.length < 2 ^ (8 * 1) from
      hall.trans_lt (by decide))
    exact ⟨y ++ w, by rw [packString, hy]; rfl⟩
  have hfixed : ∀ x ∈ [qtype.code, classIn], ∃ y, packUInt 2 x = .ok y := by
    intro x hx
    refine packUInt_ok_iff.mpr ?_
    rcases mem_pair.mp hx with rfl | rfl
    · cases qtype <;> decide
    · decide
  obtain ⟨labels, hl⟩ := mapM_ok hlabels
  obtain ⟨fixed, hf⟩ := mapM_ok hfixed
  refine ⟨labels.flatten ++ [0] ++ fixed.flatten, ?_⟩
  rw [packQuestion, hl, ok_bind, hf]
  rfl

/-- A query can be packed if and only if its id fits, and that is the id that is read from it. -/
theorem packRequest_ok_iff (hname : verifyDomainName name) (qtype : QType) :
    (∃ packet, packRequest tid name qtype = .ok packet) ↔ tid < 2 ^ 16 := by
  constructor
  · rintro ⟨packet, h⟩
    obtain ⟨header, hheader, -⟩ := bind_eq_ok_iff.mp h
    obtain ⟨a, b, c, d, e, f, ha, -⟩ := packHeader_eq_ok hheader
    exact packUInt_ok_iff.mp ⟨a, ha⟩
  · intro hfits
    have hitems : ∀ x ∈ [tid, 0x100, 1, 0, 0, 0], ∃ y, packUInt 2 x = .ok y := by
      intro x hx
      refine packUInt_ok_iff.mpr ?_
      simp only [mem_cons, not_mem_nil, or_false] at hx
      omega
    obtain ⟨items, hitems⟩ := mapM_ok hitems
    obtain ⟨question, hquestion⟩ := packQuestion_ok hname qtype
    refine ⟨items.flatten ++ question, ?_⟩
    rw [packRequest, packHeader, hitems]
    change ((packQuestion name qtype.code classIn).bind _) = _
    rw [hquestion]
    rfl

theorem unpackHeader_of_packRequest {qtype : QType} (h : packRequest tid name qtype = .ok packet) :
    ∃ header left, unpackHeader packet = .ok (header, left) ∧ header.tid = tid := by
  obtain ⟨header, hheader, hrest⟩ := bind_eq_ok_iff.mp h
  obtain ⟨question, -, hpure⟩ := bind_eq_ok_iff.mp hrest
  obtain rfl := ok.inj hpure
  exact ⟨_, _, unpackHeader_packHeader hheader question, rfl⟩

/-! ### The pool -/

/-- What is in the pool was sent, by the coroutine that waits for it, and ids are not used twice. -/
structure Inv (s : DnsService Co) : Prop where
  server : s.server = true
  pool : ∀ tid req, s.requestPool tid = some req → (tid, req.co) ∈ s.sent
  lt : ∀ p ∈ s.sent, p.1 < s.nextTid
  nodup : (s.sent.map Prod.fst).Nodup

/-- Nothing was sent from `s` to `s'`, and no query was added to the pool. -/
structure Keeps (s s' : DnsService Co) : Prop where
  server : s'.server = s.server
  nextTid : s.nextTid ≤ s'.nextTid
  pool : ∀ tid req, s'.requestPool tid = some req → s.requestPool tid = some req
  sent : s'.sent = s.sent

omit [DecidableEq Co] in
theorem Inv.of_keeps (h : Inv s) (hkeeps : Keeps s s') : Inv s' where
  server := hkeeps.server.trans h.server
  pool tid req hreq := hkeeps.sent ▸ h.pool tid req (hkeeps.pool tid req hreq)
  lt p hp := (h.lt p (hkeeps.sent ▸ hp)).trans_le hkeeps.nextTid
  nodup := hkeeps.sent ▸ h.nodup

omit [DecidableEq Co] in
theorem Inv.requestPool_nextTid (h : Inv s) : s.requestPool s.nextTid = none := by
  cases hreq : s.requestPool s.nextTid with
  | none => rfl
  | some req => exact absurd (h.lt _ (h.pool _ req hreq)) (lt_irrefl _)

omit [DecidableEq Co] in
/-- The coroutine that sent the query with an id is the only one. -/
theorem Inv.sent_unique (h : Inv s) {co co' : Co} (hco : (tid, co) ∈ s.sent)
    (hco' : (tid, co') ∈ s.sent) : co' = co := by
  have := inj_on_of_nodup_map h.nodup hco' hco rfl
  exact congrArg Prod.snd this

theorem Inv.suspend (h : Inv s) (name : LuaString) (qtype : QType) (co : Co) :
    Inv (({ s with nextTid := s.nextTid + 1 } : DnsService Co).suspend s.nextTid name qtype
      co) where
  server := h.server
  pool tid req hreq := by
    change update s.requestPool s.nextTid (some { name, qtype, co }) tid = some req at hreq
    rcases eq_or_ne tid s.nextTid with rfl | hne
    · rw [update_self] at hreq
      obtain rfl := some.inj hreq
      exact mem_append_right _ mem_cons_self
    · rw [update_of_ne hne] at hreq
      exact mem_append_left _ (h.pool tid req hreq)
  lt p hp := by
    rcases mem_append.mp hp with hp | hp
    · exact (h.lt p hp).trans (lt_succ_self _)
    · rw [mem_singleton.mp hp]
      exact lt_succ_self _
  nodup := by
    have hnew : s.nextTid ∉ s.sent.map Prod.fst := by
      intro hmem
      obtain ⟨p, hp, heq⟩ := mem_map.mp hmem
      exact absurd (h.lt p hp) (heq ▸ lt_irrefl _)
    change ((s.sent ++ [(s.nextTid, co)]).map Prod.fst).Nodup
    rw [map_append]
    exact h.nodup.append (nodup_singleton _) (disjoint_singleton.mpr hnew)

/-! ### Calls -/

theorem dnsResolve_of_not_misses {now : ℕ} {co : Co} {ipv6 : Bool}
    (h : ¬ Misses s now name ipv6) : (s.dnsResolve now co name ipv6).1 = s := by
  rw [DnsService.dnsResolve]
  split
  · rfl
  · rename_i hname
    split
    · rfl
    · rename_i hlookup
      exact absurd ⟨not_not.mp hname, hlookup⟩ h

/-- A call that misses takes an id, whether or not a query can be packed with it. -/
theorem dnsResolve_of_misses {now : ℕ} {co : Co} {ipv6 : Bool} (hserver : s.server = true)
    (h : Misses s now name ipv6) : s.dnsResolve now co name ipv6 =
      match packRequest s.nextTid (lower name) (qtypeOf ipv6) with
      | .error e => ({ s with nextTid := s.nextTid + 1 }, .raised (.unpack e))
      | .ok req => (({ s with nextTid := s.nextTid + 1 } : DnsService Co).suspend s.nextTid
          (lower name) (qtypeOf ipv6) co, .sent req) := by
  have hlookup : s.lookupCache (lower name) (if ipv6 then QType.aaaa else .a) now false = none :=
    h.2
  simp only [DnsService.dnsResolve, h.1, not_true_eq_false, if_false, hlookup, hserver]
  rfl

theorem Inv.dnsResolve (h : Inv s) (now : ℕ) (co : Co) (name : LuaString) (ipv6 : Bool) :
    Inv (s.dnsResolve now co name ipv6).1 := by
  by_cases hmisses : Misses s now name ipv6
  · rw [dnsResolve_of_misses h.server hmisses]
    split
    · exact h.of_keeps ⟨rfl, le_succ _, fun _ _ => id, rfl⟩
    · exact h.suspend _ _ co
  · rwa [dnsResolve_of_not_misses hmisses]

/-- A call that misses sends a query as long as the counter fits. -/
theorem Inv.sendsFresh_iff (h : Inv s) {now : ℕ} {co : Co} {ipv6 : Bool}
    (hmisses : Misses s now name ipv6) : SendsFresh s now co name ipv6 ↔ s.nextTid < 2 ^ 16 := by
  rw [← packRequest_ok_iff hmisses.1 (qtypeOf ipv6), SendsFresh,
    dnsResolve_of_misses h.server hmisses]
  constructor
  · rintro ⟨packet, header, left, hsent, -⟩
    split at hsent
    · cases hsent
    · rename_i req hreq
      exact ⟨req, hreq⟩
  · rintro ⟨packet, hpacket⟩
    obtain ⟨header, left, hheader, htid⟩ := unpackHeader_of_packRequest hpacket
    have hfits := (packRequest_ok_iff hmisses.1 _).mp ⟨packet, hpacket⟩
    simp only [hpacket]
    exact ⟨packet, header, left, rfl, hheader, htid ▸ hfits, htid ▸ h.requestPool_nextTid,
      htid ▸ rfl⟩

/-! ### Answers -/

namespace DnsService

omit [DecidableEq Co] in
theorem store_calls (s : DnsService Co) (qtype : QType) (name : LuaString)
    (answers : Option (List LuaString)) (expires : ℕ) :
    (s.store qtype name answers expires).calls = s.calls := by
  cases answers <;> rfl

omit [DecidableEq Co] in
theorem store_requestPool (s : DnsService Co) (qtype : QType) (name : LuaString)
    (answers : Option (List LuaString)) (expires : ℕ) :
    (s.store qtype name answers expires).requestPool = s.requestPool := by
  cases answers <;> rfl

omit [DecidableEq Co] in
theorem keeps_store (s : DnsService Co) (qtype : QType) (name : LuaString)
    (answers : Option (List LuaString)) (expires : ℕ) :
    Keeps s (s.store qtype name answers expires) := by
  cases answers <;> exact ⟨rfl, le_rfl, fun _ _ => id, rfl⟩

theorem wakeup_calls (s : DnsService Co) {co co' : Co} (h : co' ≠ co) :
    (s.wakeup co).calls co' = s.calls co' := update_of_ne h ..

theorem setAnswers_calls (s : DnsService Co) (tid : ℕ) {co co' : Co} (h : co' ≠ co)
    (answers : List LuaString) : (s.setAnswers tid co answers).calls co' = s.calls co' :=
  update_of_ne h ..

end DnsService

omit [DecidableEq Co] in
theorem Keeps.trans {s₁ s₂ s₃ : DnsService Co} (h : Keeps s₁ s₂) (h' : Keeps s₂ s₃) :
    Keeps s₁ s₃ where
  server := h'.server.trans h.server
  nextTid := h.nextTid.trans h'.nextTid
  pool tid req hreq := h.pool tid req (h'.pool tid req hreq)
  sent := h'.sent.trans h.sent

/-- An answer does not touch the pool, and only the call of the query with its id. -/
theorem deliver_spec (now : ℕ) (question : Question) (acc : Answers) :
    Keeps s (s.deliver now t question acc).1 ∧
      match s.requestPool t.tid with
      | none => (s.deliver now t question acc).1.calls = s.calls ∧
          (s.deliver now t question acc).2 = none
      | some resp => (s.deliver now t question acc).2 = some resp.co ∧
          ∀ co' ≠ resp.co, (s.deliver now t question acc).1.calls co' = s.calls co' := by
  obtain ⟨s₁, hs₁⟩ : ∃ s₁, s₁ = (s.store .a question.name acc.answersIpv4
      (now + acc.ttl.getD 0 * 100)).store .aaaa question.name acc.answersIpv6
        (now + acc.ttl.getD 0 * 100) := ⟨_, rfl⟩
  have hkeeps : Keeps s s₁ := hs₁ ▸ (s.keeps_store ..).trans (DnsService.keeps_store ..)
  have hpool : s₁.requestPool = s.requestPool := by
    rw [hs₁, DnsService.store_requestPool, DnsService.store_requestPool]
  have hcalls : s₁.calls = s.calls := by
    rw [hs₁, DnsService.store_calls, DnsService.store_calls]
  simp only [deliver, ← hs₁, hpool]
  cases s.requestPool t.tid with
  | none => exact ⟨hkeeps, hcalls, rfl⟩
  | some resp =>
    dsimp only
    split
    · refine ⟨hkeeps.trans ⟨rfl, le_rfl, fun _ _ => id, rfl⟩, rfl, fun co' hne => ?_⟩
      rw [DnsService.wakeup_calls _ hne, DnsService.setAnswers_calls _ _ hne, hcalls]
    · refine ⟨hkeeps.trans ⟨rfl, le_rfl, fun _ _ => id, rfl⟩, rfl, fun co' hne => ?_⟩
      rw [DnsService.wakeup_calls _ hne, hcalls]

/-- The header that is delivered is the one that the datagram begins with. -/
theorem header_of_readContent {rounds : ℕ} {content : LuaString} {question : Question}
    {acc : Answers} (h : readContent rounds content = some (.ok (some (t, question, acc)))) :
    ∃ left, unpackHeader content = .ok (t, left) := by
  by_cases hshort : content.length < dnsHeaderLen
  · rw [readContent_of_short hshort] at h
    cases h
  · cases hheader : unpackHeader content with
    | error e =>
      rw [readContent_of_error hshort hheader] at h
      cases h
    | ok p =>
      obtain ⟨answerHeader, left⟩ := p
      rw [readContent_of_ok hshort hheader] at h
      split at h
      · cases h
      · rcases of_fuel_bind h with ⟨e, -, he⟩ | ⟨question, -, hrest⟩
        · cases he
        · rcases of_fuel_bind hrest with ⟨e, -, he⟩ | ⟨acc, -, hdone⟩
          · cases he
          · cases hdone
            exact ⟨left, rfl⟩

theorem of_resolve {rounds now : ℕ} {content : LuaString} {woken : Option Co}
    (h : s.resolve rounds now content = some (.ok (s', woken))) :
    (s' = s ∧ woken = none) ∨ ∃ header left question acc,
      unpackHeader content = .ok (header, left) ∧
        s.deliver now header question acc = (s', woken) := by
  rcases of_fuel_bind h with ⟨e, -, he⟩ | ⟨parsed, hread, hrest⟩
  · cases he
  · cases parsed with
    | none =>
      cases hrest
      exact .inl ⟨rfl, rfl⟩
    | some p =>
      obtain ⟨left, hheader⟩ := header_of_readContent hread
      exact .inr ⟨p.1, left, p.2.1, p.2.2, hheader, ok.inj (some.inj hrest)⟩

theorem Inv.answersWake (h : Inv s) : AnswersWake s := by
  intro rounds now content s' woken hresolve
  rcases of_resolve hresolve with ⟨rfl, rfl⟩ | ⟨header, left, question, acc, hheader, hdeliver⟩
  · exact .inl ⟨rfl, rfl⟩
  · have hspec := (deliver_spec (s := s) (t := header) now question acc).2
    rw [hdeliver] at hspec
    cases hreq : s.requestPool header.tid with
    | none =>
      rw [hreq] at hspec
      exact .inl hspec
    | some resp =>
      rw [hreq] at hspec
      have hsent := h.pool _ resp hreq
      exact .inr ⟨header, left, resp.co, hheader, hspec.1, hsent, fun co' => h.sent_unique hsent,
        hspec.2⟩

/-! ### Runs -/

namespace DnsService

omit [DecidableEq Co] in
theorem pool_of_update_none {pool : ℕ → Option (Request Co)} {tid tid' : ℕ} {req : Request Co}
    (h : update pool tid none tid' = some req) : pool tid' = some req := by
  rcases eq_or_ne tid' tid with rfl | hne
  · cases (update_self tid' none pool).symm.trans h
  · rwa [update_of_ne hne] at h

theorem keeps_timeout (s : DnsService Co) (tid : ℕ) : Keeps s (s.timeout tid) := by
  simp only [timeout]
  split
  · exact ⟨rfl, le_rfl, fun _ _ => id, rfl⟩
  · exact ⟨rfl, le_rfl, fun _ _ => pool_of_update_none, rfl⟩

theorem keeps_resumed (s : DnsService Co) (now : ℕ) (co : Co) (call : Call) :
    Keeps s (s.resumed now co call).1 := by
  have hkeeps : Keeps s { s with
      requestPool := update s.requestPool call.tid none
      calls := update s.calls co none } :=
    ⟨rfl, le_rfl, fun _ _ => pool_of_update_none, rfl⟩
  rw [resumed]
  split
  · exact hkeeps
  · split <;> exact hkeeps

end DnsService

/-- Every step keeps the queries of the pool under their ids. -/
theorem Inv.step (h : Inv s) {a : DnsAction Co} (hstep : s.step a = some s') : Inv s' := by
  cases a with
  | call now co name ipv6 =>
    rw [DnsService.step] at hstep
    split at hstep
    · cases hstep
    · obtain rfl := some.inj hstep
      exact h.dnsResolve now co name ipv6
  | datagram rounds now content =>
    rw [DnsService.step] at hstep
    split at hstep
    · cases hstep
    · obtain rfl := some.inj hstep
      exact h
    · rename_i woken hresolve
      obtain rfl := some.inj hstep
      rcases of_resolve hresolve with ⟨rfl, -⟩ | ⟨header, left, question, acc, -, hdeliver⟩
      · exact h
      · have hkeeps := (deliver_spec (s := s) (t := header) now question acc).1
        rw [hdeliver] at hkeeps
        exact h.of_keeps hkeeps
  | timeout tid =>
    rw [DnsService.step] at hstep
    split at hstep
    · obtain rfl := some.inj hstep
      exact h.of_keeps (DnsService.keeps_timeout s tid)
    · cases hstep
  | resume now co =>
    obtain ⟨call, -, hcall⟩ := bind_eq_some_iff.mp hstep
    split at hcall
    · obtain rfl := some.inj hcall
      exact h.of_keeps (DnsService.keeps_resumed s now co call)
    · cases hcall
  | collect keep =>
    obtain rfl := some.inj hstep
    exact h.of_keeps ⟨rfl, le_rfl, fun _ _ => id, rfl⟩

omit [DecidableEq Co] in
theorem inv_initial : Inv (initial : DnsService Co) where
  server := rfl
  pool _ _ h := nomatch h
  lt _ h := nomatch h
  nodup := nodup_nil

/-- In every reachable state the pool has queries that were sent. -/
theorem Inv.reachable (hreach : Reachable DnsService.step initial s) : Inv s :=
  hreach.invariant inv_initial fun hstep h => h.step hstep

/-- However many calls were made, and in whatever order answers and timers came: a call that misses
sends a query with a fresh id if and only if the counter has not run out, and an answer wakes up the
coroutine of the query that it is an answer to. -/
theorem ids_iff (hreach : Reachable DnsService.step DnsService.initial s) :
    (∀ now co name ipv6, Misses s now name ipv6 →
      (SendsFresh s now co name ipv6 ↔ s.nextTid < 2 ^ 16)) ∧ AnswersWake s :=
  ⟨fun _ _ _ _ hmisses => (Inv.reachable hreach).sendsFresh_iff hmisses,
    (Inv.reachable hreach).answersWake⟩

/-- Nothing waits and nothing is stored, after `n` queries. -/
def idle (n : ℕ) (sent : List (ℕ × Unit)) : DnsService Unit :=
  { initial with nextTid := n + 1, sent }

theorem misses_idle (n : ℕ) (sent : List (ℕ × Unit)) : Misses (idle n sent) 0 [97] false :=
  ⟨by decide, rfl⟩

theorem ids_initial : SendsFresh (idle 0 []) 0 () [97] false :=
  ((ids_iff (.refl _)).1 0 () [97] false (misses_idle 0 [])).mpr (by decide)

theorem reachable_idle_succ {n : ℕ} {sent : List (ℕ × Unit)} (hn : n + 1 < 2 ^ 16)
    (hreach : Reachable DnsService.step initial (idle n sent)) :
    ∃ sent', Reachable DnsService.step initial (idle (n + 1) sent') := by
  have hmisses := misses_idle n sent
  obtain ⟨packet, hpacket⟩ := (packRequest_ok_iff hmisses.1 (qtypeOf false)).mpr hn
  obtain ⟨waiting, hwaiting⟩ : ∃ waiting, waiting = ({ idle n sent with
      nextTid := n + 2 } : DnsService Unit).suspend (n + 1) (lower [97]) (qtypeOf false) () :=
    ⟨_, rfl⟩
  have hresult : (idle n sent).dnsResolve 0 () [97] false = (waiting, .sent packet) := by
    rw [dnsResolve_of_misses rfl hmisses, show (idle n sent).nextTid = n + 1 from rfl, hpacket,
      hwaiting]
  have hcalled : (idle n sent).step (.call 0 () [97] false) = some waiting :=
    congrArg (some ∘ Prod.fst) hresult
  have htimeout : waiting.step (.timeout (n + 1)) = some (waiting.timeout (n + 1)) :=
    if_pos (hwaiting ▸ mem_cons_self)
  have hwoken : waiting.timeout (n + 1) =
      { idle (n + 1) (sent ++ [(n + 1, ())]) with
        calls := fun _ => some
          { tid := n + 1, name := lower [97], qtype := .a, answers := none, woken := true } } := by
    simp [hwaiting, timeout, DnsService.suspend, wakeup, idle, initial, qtypeOf, funext_iff]
  have hresumed : (waiting.timeout (n + 1)).step (.resume 0 ()) =
      some (idle (n + 1) (sent ++ [(n + 1, ())])) := by
    rw [hwoken]
    simp [DnsService.step, resumed, lookupCache, idle, initial, funext_iff]
  exact ⟨_, ((hreach.tail hcalled).tail htimeout).tail hresumed⟩

/-- After 65535 queries, none of which is waited for any more, the next call raises an error. -/
theorem ids_exhausted : ∃ s : DnsService Unit, Reachable DnsService.step DnsService.initial s ∧
    (∀ tid, s.requestPool tid = none) ∧ Misses s 0 [97] false ∧
    ¬ SendsFresh s 0 () [97] false := by
  have hidle : ∀ n < 2 ^ 16,
      ∃ sent, Reachable DnsService.step DnsService.initial (idle n sent) := by
    intro n
    induction n with
    | zero => exact fun _ => ⟨[], .refl _⟩
    | succ n ih =>
      intro hn
      obtain ⟨sent, hreach⟩ := ih (Nat.lt_of_succ_lt hn)
      exact reachable_idle_succ hn hreach
  obtain ⟨sent, hreach⟩ := hidle (2 ^ 16 - 1) (by decide)
  refine ⟨_, hreach, fun _ => rfl, misses_idle _ sent, fun hfresh => ?_⟩
  have hfits := ((Inv.reachable hreach).sendsFresh_iff (misses_idle _ sent)).mp hfresh
  exact absurd hfits (lt_irrefl (2 ^ 16))

end Uboss.Framework.Dns
