import Uboss.Lib.LuaPack
import Uboss.Lib.LuaText
import Uboss.Math.Walk

/-!
# The resolver of domain names

`dns.lua`. A coroutine that calls `dns.resolve` sends a query and waits, until a datagram or a timer
wakes it up. The names in a datagram are read in rounds; where the rounds that are given do not
suffice there is no result.

The tables of the cache are weak: the collector may take entries out of them at any time. Log
messages are left out.
-/

namespace Uboss.Framework.Dns

open Math Lib Lib.LuaText Lib.LuaPack Function

inductive DnsError
  | unpack (e : PackError)
  | assertion (message : String)
  /-- `timeout or no answer` -/
  | noAnswer
  deriving DecidableEq, Repr

def maxDomainLen : ℕ := 1024

def maxLabelLen : ℕ := 63

def dnsHeaderLen : ℕ := 12

/-- The members of `QTYPE` that are asked for. -/
inductive QType
  | a
  | aaaa
  deriving DecidableEq, Repr

/-- `QTYPE` -/
def QType.code : QType → ℕ
  | .a => 1
  | .aaaa => 28

/-- `QCLASS.IN` -/
def classIn : ℕ := 1

/-! ### Packing -/

/-- `[_%w%-]` -/
def isLabelChar (c : UInt8) : Bool := c = 95 ∨ isAlnum c ∨ c = 45

/-- `[_%l%d%-%.]` -/
def isNameChar (c : UInt8) : Bool :=
  c = 95 ∨ (97 ≤ c ∧ c ≤ 122) ∨ LuaText.isDigit c ∨ c = 45 ∨ c = 46

/-- `name:gmatch("([_%w%-]+)%.?")`, where `label` has been passed already. -/
def labelsOf (label : LuaString) : LuaString → List LuaString
  | [] => if label = [] then [] else [label]
  | c :: name =>
    if isLabelChar c then labelsOf (label ++ [c]) name
    else if label = [] then labelsOf [] name
    else label :: labelsOf [] name

def verifyDomainName (name : LuaString) : Bool :=
  name.length ≤ maxDomainLen ∧ name ≠ [] ∧ name.all isNameChar ∧
    ∀ w ∈ labelsOf [] name, w.length ≤ maxLabelLen

/-- The header of a datagram. -/
structure Header where
  tid : ℕ
  flags : ℕ
  qdcount : ℕ
  ancount : ℕ
  nscount : ℕ
  arcount : ℕ
  deriving DecidableEq, Repr

def packHeader (t : Header) : Except PackError LuaString := do
  let items ← [t.tid, t.flags, t.qdcount, t.ancount, t.nscount, t.arcount].mapM (packUInt 2)
  return items.flatten

def packQuestion (name : LuaString) (qtype qclass : ℕ) : Except PackError LuaString := do
  let labels ← (labelsOf [] name).mapM (packString 1)
  let fixed ← [qtype, qclass].mapM (packUInt 2)
  return labels.flatten ++ [0] ++ fixed.flatten

/-- The packet of a query. -/
def packRequest (tid : ℕ) (name : LuaString) (qtype : QType) : Except PackError LuaString := do
  let header ← packHeader
    { tid, flags := 0x100, qdcount := 1, ancount := 0, nscount := 0, arcount := 0 }
  let question ← packQuestion name qtype.code classIn
  return header ++ question

/-! ### Unpacking -/

/-- A result, if the rounds suffice, which may be an error. -/
abbrev Run := ExceptT DnsError Option

/-- A result that takes no rounds. -/
def unpacked {α : Type} (x : Except PackError α) : Run α := some (x.mapError .unpack)

def unpackHeader (chunk : LuaString) : Except PackError (Header × ℕ) := do
  let (tid, left) ← unpackUInt 2 chunk 1
  let (flags, left) ← unpackUInt 2 chunk left
  let (qdcount, left) ← unpackUInt 2 chunk left
  let (ancount, left) ← unpackUInt 2 chunk left
  let (nscount, left) ← unpackUInt 2 chunk left
  let (arcount, left) ← unpackUInt 2 chunk left
  return ({ tid, flags, qdcount, ancount, nscount, arcount }, left)

/-- The variables of `unpack_name`. -/
structure NameState where
  t : List LuaString
  jumpPointer : Option ℕ
  left : ℕ
  deriving DecidableEq, Repr

/-- What one round of the loop of `unpack_name` does. -/
inductive NameStep
  | next (s : NameState)
  | done (name : LuaString) (left : ℕ)
  deriving DecidableEq, Repr

/-- A round of the loop of `unpack_name`. -/
def nameStep (chunk : LuaString) (s : NameState) : Except PackError NameStep := do
  let (tag, left) ← unpackUInt 1 chunk s.left
  if tag &&& 0xc0 = 0xc0 then
    -- pointer
    let (offset, left) ← unpackUInt 2 chunk (left - 1)
    let offset := offset &&& 0x3fff
    -- offset is base 0, need to plus 1
    return .next { s with jumpPointer := some (s.jumpPointer.getD left), left := offset + 1 }
  else if tag = 0 then
    return .done (List.intercalate [46] s.t) (s.jumpPointer.getD left)
  else
    let (label, left) ← unpackString 1 chunk (left - 1)
    return .next { s with t := s.t ++ [label], left }

/-- The loop of `unpack_name`. -/
def unpackNameLoop (chunk : LuaString) : ℕ → NameState → Run (LuaString × ℕ)
  | 0, _ => none
  | rounds + 1, s =>
    match nameStep chunk s with
    | .error e => some (.error (.unpack e))
    | .ok (.done name left) => some (.ok (name, left))
    | .ok (.next s) => unpackNameLoop chunk rounds s

def unpackName (rounds : ℕ) (chunk : LuaString) (left : ℕ) : Run (LuaString × ℕ) :=
  unpackNameLoop chunk rounds { t := [], jumpPointer := none, left }

/-- What `unpack_question` returns. -/
structure Question where
  name : LuaString
  atype : ℕ
  qclass : ℕ
  deriving DecidableEq, Repr

def unpackQuestion (rounds : ℕ) (chunk : LuaString) (left : ℕ) : Run (Question × ℕ) := do
  let (name, left) ← unpackName rounds chunk left
  let (atype, left) ← unpacked (unpackUInt 2 chunk left)
  let (qclass, left) ← unpacked (unpackUInt 2 chunk left)
  return ({ name, atype, qclass }, left)

/-- What `unpack_answer` returns. -/
structure Answer where
  name : LuaString
  atype : ℕ
  qclass : ℕ
  ttl : ℕ
  rdata : LuaString
  deriving DecidableEq, Repr

def unpackAnswer (rounds : ℕ) (chunk : LuaString) (left : ℕ) : Run (Answer × ℕ) := do
  let (name, left) ← unpackName rounds chunk left
  let (atype, left) ← unpacked (unpackUInt 2 chunk left)
  let (qclass, left) ← unpacked (unpackUInt 2 chunk left)
  let (ttl, left) ← unpacked (unpackUInt 4 chunk left)
  let (rdata, left) ← unpacked (unpackString 2 chunk left)
  return ({ name, atype, qclass, ttl, rdata }, left)

/-- Integers of one size, one behind the other. -/
def unpackUInts (size : ℕ) (chunk : LuaString) : ℕ → ℕ → Except PackError (List ℕ)
  | 0, _ => .ok []
  | n + 1, left => do
    let (x, left) ← unpackUInt size chunk left
    let xs ← unpackUInts size chunk n left
    return x :: xs

/-- `unpack_rdata`, of the two types that it knows. -/
def unpackRdata (qtype : QType) (chunk : LuaString) : Except PackError LuaString :=
  match qtype with
  | .a => (unpackUInts 1 chunk 4 1).map fun xs => List.intercalate [46] (xs.map decimalDigits)
  | .aaaa => (unpackUInts 2 chunk 8 1).map fun xs => List.intercalate [58] (xs.map hexDigits)

/-- What `resolve` takes from the answers. -/
structure Answers where
  ttl : Option ℕ
  answersIpv4 : Option (List LuaString)
  answersIpv6 : Option (List LuaString)
  deriving DecidableEq, Repr

/-- The body of the loop of `resolve`. -/
def Answers.add (acc : Answers) (answer : Answer) : Except PackError Answers :=
  let ttl := some ((acc.ttl.map (min · answer.ttl)).getD answer.ttl)
  if answer.atype = QType.a.code then
    (unpackRdata .a answer.rdata).map fun ip =>
      { acc with ttl, answersIpv4 := some (acc.answersIpv4.getD [] ++ [ip]) }
  else if answer.atype = QType.aaaa.code then
    (unpackRdata .aaaa answer.rdata).map fun ip =>
      { acc with ttl, answersIpv6 := some (acc.answersIpv6.getD [] ++ [ip]) }
  else .ok acc

/-- The loop of `resolve` over the answers that are left. -/
def readAnswers (rounds : ℕ) (content : LuaString) : ℕ → ℕ → Answers → Run Answers
  | 0, _, acc => return acc
  | n + 1, left, acc => do
    let (answer, left) ← unpackAnswer rounds content left
    let acc ← unpacked (acc.add answer)
    readAnswers rounds content n left acc

/-- What `resolve` reads behind the header: the question and the answers. -/
def readBody (answerHeader : Header) (left rounds : ℕ) (content : LuaString) :
    Run (Option (Header × Question × Answers)) := do
  let (question, left) ← unpackQuestion rounds content left
  let acc ← readAnswers rounds content answerHeader.ancount left
    { ttl := none, answersIpv4 := none, answersIpv6 := none }
  return some (answerHeader, question, acc)

/-- What `resolve` reads from a datagram. A short one is dropped. -/
def readContent (rounds : ℕ) (content : LuaString) : Run (Option (Header × Question × Answers)) :=
  if content.length < dnsHeaderLen then return none
  else do
    let (answerHeader, left) ← unpacked (unpackHeader content)
    if answerHeader.qdcount ≠ 1 then throw (.assertion "malformed packet")
    else readBody answerHeader left rounds content

section

variable {content : LuaString} {answerHeader : Header} {left : ℕ}

theorem readContent_of_short (h : content.length < dnsHeaderLen) (rounds : ℕ) :
    readContent rounds content = some (.ok none) := if_pos h

theorem readContent_of_error {e : PackError} (hlong : ¬ content.length < dnsHeaderLen)
    (h : unpackHeader content = .error e) (rounds : ℕ) :
    readContent rounds content = some (.error (.unpack e)) := by
  rw [readContent, if_neg hlong, h]
  rfl

theorem readContent_of_ok (hlong : ¬ content.length < dnsHeaderLen)
    (h : unpackHeader content = .ok (answerHeader, left)) (rounds : ℕ) :
    readContent rounds content =
      if answerHeader.qdcount ≠ 1 then some (.error (.assertion "malformed packet"))
      else readBody answerHeader left rounds content := by
  rw [readContent, if_neg hlong, h]
  rfl

end

/-! ### The service -/

/-- An entry of `CACHE`. -/
structure CacheEntry where
  answers : List LuaString
  ttl : ℕ
  deriving DecidableEq, Repr

/-- An entry of `request_pool`. -/
structure Request (Co : Type) where
  name : LuaString
  qtype : QType
  co : Co
  deriving DecidableEq

/-- A coroutine in `suspend`, with the field `answers` of its request. -/
structure Call where
  tid : ℕ
  name : LuaString
  qtype : QType
  answers : Option (List LuaString)
  /-- Whether it has been woken up. -/
  woken : Bool
  deriving DecidableEq, Repr

/-- The variables of the library, the coroutines that wait in it, and the queries that were sent. -/
structure DnsService (Co : Type) where
  /-- Whether there is a `dns_server`. -/
  server : Bool
  nextTid : ℕ
  requestPool : ℕ → Option (Request Co)
  cache : QType → LuaString → Option CacheEntry
  calls : Co → Option Call
  /-- The ids for which a coroutine sleeps that will cancel them. -/
  timers : List ℕ
  /-- The ids of the queries that were sent, and the coroutines that sent them. -/
  sent : List (ℕ × Co)

variable {Co : Type} [DecidableEq Co]

namespace DnsService

/-- After `dns.server` was called. -/
def initial : DnsService Co where
  server := true
  nextTid := 1
  requestPool _ := none
  cache _ _ := none
  calls _ := none
  timers := []
  sent := []

def lookupCache (s : DnsService Co) (name : LuaString) (qtype : QType) (now : ℕ)
    (ignorettl : Bool) : Option (List LuaString) :=
  (s.cache qtype name).bind fun result =>
    if ignorettl ∨ now < result.ttl then some result.answers else none

/-- `uboss.wakeup(co)` -/
def wakeup (s : DnsService Co) (co : Co) : DnsService Co :=
  { s with
    calls := update s.calls co
      ((s.calls co).map fun call => { call with woken := true }) }

/-- `CACHE[qtype][name] = { answers = answers, ttl = now + ttl * 100 }` -/
def store (s : DnsService Co) (qtype : QType) (name : LuaString) (answers : Option (List LuaString))
    (expires : ℕ) : DnsService Co :=
  match answers with
  | none => s
  | some answers =>
    let entries := update (s.cache qtype) name (some { answers, ttl := expires })
    { s with cache := update s.cache qtype entries }

/-- `resp.answers = r.answers`, where `resp` is the request of the call with this id. -/
def setAnswers (s : DnsService Co) (tid : ℕ) (co : Co) (answers : List LuaString) : DnsService Co :=
  { s with
    calls := update s.calls co ((s.calls co).map fun call =>
      if call.tid = tid then { call with answers := some answers } else call) }

/-- The part of `resolve` behind the parser: the coroutine that is woken up, if any. -/
def deliver (s : DnsService Co) (now : ℕ) (answerHeader : Header) (question : Question)
    (acc : Answers) : DnsService Co × Option Co :=
  let expires := now + acc.ttl.getD 0 * 100
  let s := s.store .a question.name acc.answersIpv4 expires
  let s := s.store .aaaa question.name acc.answersIpv6 expires
  match s.requestPool answerHeader.tid with
  -- the resp may be timeout
  | none => (s, none)
  | some resp =>
    let s := match s.cache resp.qtype resp.name with
      | some r => s.setAnswers answerHeader.tid resp.co r.answers
      | none => s
    (s.wakeup resp.co, some resp.co)

def resolve (s : DnsService Co) (rounds now : ℕ) (content : LuaString) :
    Run (DnsService Co × Option Co) := do
  match ← readContent rounds content with
  | none => return (s, none)
  | some (answerHeader, question, acc) => return s.deliver now answerHeader question acc

/-- What a call of `dns.resolve` comes to: it returns or raises an error, or it sends a query and
waits. -/
inductive CallResult
  | answered (answers : List LuaString)
  | raised (e : DnsError)
  | sent (packet : LuaString)
  deriving DecidableEq, Repr

/-- `suspend`, up to `uboss.wait`. -/
def suspend (s : DnsService Co) (tid : ℕ) (name : LuaString) (qtype : QType) (co : Co) :
    DnsService Co :=
  { s with
    requestPool := update s.requestPool tid (some { name, qtype, co })
    timers := tid :: s.timers
    calls := update s.calls co (some { tid, name, qtype, answers := none, woken := false })
    sent := s.sent ++ [(tid, co)] }

/-- `dns.resolve`, up to where it waits. -/
def dnsResolve (s : DnsService Co) (now : ℕ) (co : Co) (name : LuaString) (ipv6 : Bool) :
    DnsService Co × CallResult :=
  let qtype := if ipv6 then QType.aaaa else .a
  let name := lower name
  if ¬ verifyDomainName name then (s, .raised (.assertion "illegal name"))
  else
    match s.lookupCache name qtype now false with
    | some answers => (s, .answered answers)
    | none =>
      let tid := s.nextTid
      let s := { s with nextTid := s.nextTid + 1 }
      match packRequest tid name qtype with
      | .error e => (s, .raised (.unpack e))
      | .ok req =>
        if ¬ s.server then (s, .raised (.assertion "Call dns.server first"))
        else (s.suspend tid name qtype co, .sent req)

/-- The coroutine that cancels a query wakes up. -/
def timeout (s : DnsService Co) (tid : ℕ) : DnsService Co :=
  let s := { s with timers := s.timers.erase tid }
  match s.requestPool tid with
  | none => s
  | some req => { s with requestPool := update s.requestPool tid none }.wakeup req.co

/-- `suspend` behind `uboss.wait`, with the result of the call. -/
def resumed (s : DnsService Co) (now : ℕ) (co : Co) (call : Call) : DnsService Co × CallResult :=
  let s := { s with
    requestPool := update s.requestPool call.tid none
    calls := update s.calls co none }
  match call.answers with
  | some answers => (s, .answered answers)
  | none =>
    match s.lookupCache call.name call.qtype now true with
    | some answers => (s, .answered answers)
    | none => (s, .raised .noAnswer)

end DnsService

/-- What may happen in a service. -/
inductive DnsAction (Co : Type)
  /-- A coroutine calls `dns.resolve`. -/
  | call (now : ℕ) (co : Co) (name : LuaString) (ipv6 : Bool)
  /-- A datagram comes in. -/
  | datagram (rounds now : ℕ) (content : LuaString)
  | timeout (tid : ℕ)
  /-- A coroutine that was woken up returns from `dns.resolve`. -/
  | resume (now : ℕ) (co : Co)
  /-- The collector leaves some of the entries of the cache, or `dns.flush` none of them. -/
  | collect (keep : QType → LuaString → Bool)

/-- One step. A coroutine calls `dns.resolve` when it is not waiting in it. -/
def DnsService.step (s : DnsService Co) : DnsAction Co → Option (DnsService Co)
  | .call now co name ipv6 =>
    if (s.calls co).isSome then none else some (s.dnsResolve now co name ipv6).1
  | .datagram rounds now content =>
    match s.resolve rounds now content with
    | none => none
    | some (.error _) => some s
    | some (.ok (s, _)) => some s
  | .timeout tid => if tid ∈ s.timers then some (s.timeout tid) else none
  | .resume now co =>
    (s.calls co).bind fun call => if call.woken then some (s.resumed now co call).1 else none
  | .collect keep =>
    some { s with cache := fun qtype name => if keep qtype name then s.cache qtype name else none }

end Uboss.Framework.Dns
