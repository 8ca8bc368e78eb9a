import Uboss.Framework.SessionChannel
import Uboss.Lib.ClusterFrames
import Uboss.Math.Interleave

/-!
# Responses of another cluster

The channel to a cluster. Requests wait for their responses, and the frames of these come in on one
connection, those of one response in their order.
-/

namespace Uboss.Service

open Lib Math Framework Function List Nat SessionChannel

namespace Clusterd

/-- `socket.header`. -/
def header (bytes : List UInt8) : ℕ := bytes.foldl (fun sz b => sz <<< 8 ||| b.toNat) 0

/-- What `unpackresponse` returns. No session is returned, and no error raised, if the package is
not a response. -/
def sessionResponse (u : UnpackedResponse) : SessionResponse Piece :=
  ⟨u.session, u.ok, u.msg, u.padding⟩

/-- `read_response`, the response function of the channel. -/
def readResponse : ResponseFunction Piece := fun input =>
  if input.length < 2 then none
  else
    let sz := header (input.take 2)
    let rest := input.drop 2
    if rest.length < sz then none
    else some (((lunpackresponse (rest.take sz)).map sessionResponse).elim (.error none) .ok,
      rest.drop sz)

/-- What `command.req` does. -/
inductive Reply
  /-- `uboss.ret`. -/
  | ret (msg : Option Piece)
  /-- `uboss.error` and `uboss.response()(false)`. -/
  | failed (msg : ChannelError Piece)

/-- `command.req`, from the end of `channel:request`. -/
def reqReply : ChannelOutcome Piece → Except ClusterError Reply
  | .ok (some (.parts pieces)) => (lconcat pieces).map fun msg => .ret (msg.map .bytes)
  | .ok (some (.one msg)) => .ok (.ret (some msg))
  | .ok none => .ok (.ret none)
  | .error e => .ok (.failed e)

end Clusterd

/-! ### One response -/

/-- A requester, and what `lpackresponse` is given for it. -/
structure ClusterResponse (Co : Type) where
  session : UInt32
  co : Co
  ok : Bool
  msg : List UInt8

namespace ClusterResponse

variable {Co : Type}

/-- A message that `lconcat` can put together. An error may have any length. -/
def Valid (p : ClusterResponse Co) : Prop := p.ok = true → p.msg.length ≤ 2 ^ 31 - 1

/-- The frames of a response. -/
def frames (p : ClusterResponse Co) : Except ClusterError (List Frame) :=
  lpackresponse p.session p.ok p.msg

/-- What the requester is to get: its message, or the error, cut if it is too long. -/
def reply (p : ClusterResponse Co) : Clusterd.Reply :=
  if p.ok then .ret (some (.bytes p.msg))
  else .failed (.raised (some (.one (.bytes (p.msg.take multiPart)))))

/-- The package of a part of a response. -/
def packPart (session : UInt32) (more : Bool) (part : List UInt8) : List UInt8 :=
  fillUint32 session ++ (if more then 3 else 4) :: part

/-- The frames of a response, as they are read. -/
inductive Frames (p : ClusterResponse Co) : List Frame → Prop
  | small {f : Frame} :
      IsFrame f →
      lunpackresponse (f.drop 2) =
        some ⟨p.session, p.ok, .bytes (if p.ok then p.msg else p.msg.take multiPart), false⟩ →
      Frames p [f]
  | large {f : Frame} {fs : List Frame} :
      IsFrame f → p.ok = true →
      lunpackresponse (f.drop 2) = some ⟨p.session, true, .size (UInt32.ofNat p.msg.length), true⟩ →
      Parts (packPart p.session) p.msg fs →
      Frames p (f :: fs)

theorem Frames.isFrame {p : ClusterResponse Co} {fs : List Frame} (h : p.Frames fs) :
    ∀ f ∈ fs, IsFrame f := by
  cases h with
  | small hf _ => simpa using hf
  | large hf _ _ hparts => exact forall_mem_cons.mpr ⟨hf, hparts.isFrame⟩

theorem lunpackresponse_cons (session : UInt32) (type : UInt8) (msg : List UInt8) :
    lunpackresponse (fillUint32 session ++ type :: msg) =
      match type with
      | 0 => some ⟨session, false, .bytes msg, false⟩
      | 1 | 4 => some ⟨session, true, .bytes msg, false⟩
      | 2 =>
        if msg.length + 5 ≠ 9 then none
        else some ⟨session, true, .size (unpackUint32 msg), true⟩
      | 3 => some ⟨session, true, .bytes msg, true⟩
      | _ => none := by
  have hsession := unpackUint32_fillUint32 session (type :: msg)
  have hlen : (fillUint32 session ++ type :: msg).length = msg.length + 5 := by
    rw [length_append, length_fillUint32, length_cons]
    omega
  rw [lunpackresponse, hlen, if_neg (by omega), hsession]
  rfl

theorem lunpackresponse_part (session : UInt32) (more : Bool) (part : List UInt8) :
    lunpackresponse (packPart session more part) = some ⟨session, true, .bytes part, more⟩ := by
  unfold packPart
  rw [lunpackresponse_cons]
  cases more <;> rfl

theorem frames_ok (p : ClusterResponse Co) : ∃ fs, p.frames = .ok fs ∧ p.Frames fs := by
  unfold frames lpackresponse
  by_cases hlarge : p.ok = true ∧ multiPart < p.msg.length
  · obtain ⟨head, hhead, hframe⟩ := fillHeader_ok
      (fillUint32 p.session ++ 2 :: fillUint32 (UInt32.ofNat p.msg.length)) 9 (by decide) (by simp)
    obtain ⟨fs, hfs, hparts⟩ := packMulti_parts p.msg (packPart p.session) fun more part => by
      rw [packPart, length_append, length_fillUint32, length_cons]
      omega
    have hmulti : packresponseMulti p.session (partCount p.msg.length) p.msg = .ok fs := hfs
    refine ⟨_, ?_, .large (isFrame_of_lpack hframe) hlarge.1 ?_ hparts⟩
    · rw [if_pos hlarge, hhead, hmulti]
      rfl
    · have hsize := unpackUint32_fillUint32 (UInt32.ofNat p.msg.length) []
      rw [append_nil] at hsize
      rw [drop_of_lpack hframe, lunpackresponse_cons]
      simp only [length_fillUint32, hsize]
      rfl
  · rw [if_neg hlarge]
    generalize hmsg : (if p.ok then p.msg else p.msg.take multiPart) = msg
    have hlen : msg.length ≤ multiPart := by
      subst hmsg
      split_ifs with hok
      · exact not_lt.mp fun hlt => hlarge ⟨hok, hlt⟩
      · exact length_take_le ..
    obtain ⟨head, hhead, hframe⟩ := fillHeader_ok
      (fillUint32 p.session ++ (if p.ok then 1 else 0) :: msg) (msg.length + 5)
      (by unfold multiPart at hlen; omega) (by simp; omega)
    refine ⟨_, ?_, .small (isFrame_of_lpack hframe) ?_⟩
    · simp only [hhead]
      rfl
    · rw [drop_of_lpack hframe, lunpackresponse_cons, hmsg]
      cases p.ok <;> rfl

end ClusterResponse

namespace Clusterd

theorem header_eq (a b : UInt8) : header [a, b] = 256 * a.toNat + b.toNat := by
  have hor := shiftLeft_add_eq_or_of_lt b.toNat_lt a.toNat
  change ((0 <<< 8 ||| a.toNat) <<< 8 ||| b.toNat) = _
  rw [zero_shiftLeft, zero_or, ← hor, shiftLeft_eq]
  omega

theorem readResponse_frame {f : Frame} (hf : IsFrame f) (rest : List UInt8) :
    readResponse (f ++ rest) =
      some (((lunpackresponse (f.drop 2)).map sessionResponse).elim (.error none) .ok, rest) := by
  have hcut := cutPacket_lpack hf rest
  generalize f ++ rest = input at hcut
  unfold cutPacket at hcut
  dsimp only at hcut
  split at hcut
  · rename_i a b input
    split_ifs at hcut with hle
    obtain ⟨hbody, rfl⟩ := Prod.mk.inj (Option.some_inj.mp hcut)
    rw [← hbody]
    have hsize : header ((a :: b :: input).take 2) = 256 * a.toNat + b.toNat := header_eq a b
    simp only [readResponse, hsize, drop_succ_cons, drop_zero]
    rw [if_neg (by simp), if_neg (by omega)]
  · cases hcut

theorem reqReply_one {Co : Type} (p : ClusterResponse Co) : reqReply (outcome (some (.done p.ok))
      (some (.one (.bytes (if p.ok then p.msg else p.msg.take multiPart))))) = .ok p.reply := by
  unfold ClusterResponse.reply
  cases p.ok <;> rfl

/-! ### The state of a requester -/

variable {Co : Type} [DecidableEq Co]

/-- What `wait_for_response` has returned to a requester. -/
def returnedTo (s : SessionChannel Co Piece) (co : Co) : List (ChannelOutcome Piece) :=
  (s.returned.filter (·.1 = co)).map (·.2)

/-- The requester waits, and this is what has come in for it. -/
structure Waits (s : SessionChannel Co Piece) (p : ClusterResponse Co)
    (data : Option (ResultData Piece)) : Prop where
  thread : s.thread.lookup p.session = some p.co
  asleep : s.asleep p.co = true
  woken : s.woken p.co = false
  data : s.resultData p.co = data
  wakeups : s.wakeups.count p.co = 0
  returned : returnedTo s p.co = []

/-- The requester has been woken. -/
structure Woken (s : SessionChannel Co Piece) (p : ClusterResponse Co) : Prop where
  asleep : s.asleep p.co = true
  woken : s.woken p.co = true
  reply : reqReply (outcome (s.result p.co) (s.resultData p.co)) = .ok p.reply
  wakeups : s.wakeups.count p.co = 1
  returned : returnedTo s p.co = []

/-- The requester has got its response. -/
structure Served (s : SessionChannel Co Piece) (p : ClusterResponse Co) : Prop where
  asleep : s.asleep p.co = false
  reply : ∃ out, returnedTo s p.co = [out] ∧ reqReply out = .ok p.reply
  wakeups : s.wakeups.count p.co = 1

/-- The frames of a response that have not come in. -/
inductive Awaits (s : SessionChannel Co Piece) (p : ClusterResponse Co) : List Frame → Prop
  | waiting {fs : List Frame} : p.Frames fs → Waits s p none → Awaits s p fs
  | receiving {fs : List Frame} (strs : List (List UInt8)) {rest : List UInt8} :
      Parts (ClusterResponse.packPart p.session) rest fs → strs.flatten ++ rest = p.msg →
      p.ok = true →
      Waits s p (some (.parts (.size (UInt32.ofNat p.msg.length) :: strs.map .bytes))) →
      Awaits s p fs
  | woken : Woken s p → Awaits s p []
  | served : Served s p → Awaits s p []

/-- Nothing has changed for a session and a requester. -/
structure SameFor (session : UInt32) (co : Co) (s s' : SessionChannel Co Piece) : Prop where
  thread : s'.thread.lookup session = s.thread.lookup session
  asleep : s'.asleep co = s.asleep co
  woken : s'.woken co = s.woken co
  result : s'.result co = s.result co
  data : s'.resultData co = s.resultData co
  wakeups : s'.wakeups.count co = s.wakeups.count co
  returned : returnedTo s' co = returnedTo s co

/-- Only what belongs to one session and requester has changed. -/
def Reaches (session : UInt32) (co : Co) (s s' : SessionChannel Co Piece) : Prop :=
  ∀ k c, k ≠ session → c ≠ co → SameFor k c s s'

variable {s s' : SessionChannel Co Piece} {p : ClusterResponse Co} {f : Frame} {fs : List Frame}
  {session : UInt32} {co : Co}

theorem Awaits.congr (h : Awaits s p fs) (hsame : SameFor p.session p.co s s') :
    Awaits s' p fs := by
  have hwaits : ∀ {data}, Waits s p data → Waits s' p data := fun hw =>
    ⟨hsame.thread.trans hw.thread, hsame.asleep.trans hw.asleep, hsame.woken.trans hw.woken,
      hsame.data.trans hw.data, hsame.wakeups.trans hw.wakeups, hsame.returned.trans hw.returned⟩
  cases h with
  | waiting hfs hw => exact .waiting hfs (hwaits hw)
  | receiving strs hparts hmsg hok hw => exact .receiving strs hparts hmsg hok (hwaits hw)
  | woken hw =>
    refine .woken ⟨hsame.asleep.trans hw.asleep, hsame.woken.trans hw.woken, ?_,
      hsame.wakeups.trans hw.wakeups, hsame.returned.trans hw.returned⟩
    rw [hsame.result, hsame.data, hw.reply]
  | served hs =>
    refine .served ⟨hsame.asleep.trans hs.asleep, ?_, hsame.wakeups.trans hs.wakeups⟩
    rw [hsame.returned]
    exact hs.reply

theorem sameFor_input (input : List UInt8) : SameFor session co s { s with input := input } :=
  ⟨rfl, rfl, rfl, rfl, rfl, rfl, rfl⟩

/-! ### One frame -/

theorem reaches_setData (data : Option (ResultData Piece)) :
    Reaches session co s (s.setData co data) := fun _ _ _ hc =>
  ⟨rfl, rfl, rfl, rfl, update_of_ne hc .., rfl, rfl⟩

/-- The entries of a requester are made, and it is woken. -/
def answer (s : SessionChannel Co Piece) (session : UInt32) (co : Co) (ok : Bool)
    (data : ResultData Piece) : SessionChannel Co Piece :=
  ((({ s with thread := s.thread.erase session }).setResult co (some (.done ok))).setData co
    (some data)).wakeup co

section Answer

variable {ok : Bool} {data : ResultData Piece} (hasleep : s.asleep co = true)
  (hwoken : s.woken co = false)

include hasleep hwoken

theorem answer_eq : answer s session co ok data =
    { s with
      thread := s.thread.erase session
      result := update s.result co (some (.done ok))
      resultData := update s.resultData co (some data)
      woken := update s.woken co true
      wakeups := s.wakeups ++ [co] } :=
  if_pos ⟨hasleep, hwoken⟩

theorem reaches_answer : Reaches session co s (answer s session co ok data) := by
  rw [answer_eq hasleep hwoken]
  intro k c hk hc
  have hcount : (s.wakeups ++ [co]).count c = s.wakeups.count c := by
    rw [count_append, count_singleton, if_neg (by simpa using hc.symm), Nat.add_zero]
  exact ⟨AList.lookup_erase_ne hk, rfl, update_of_ne hc .., update_of_ne hc ..,
    update_of_ne hc .., hcount, rfl⟩

end Answer

section Waits

variable {old : Option (ResultData Piece)} (hw : Waits s p old)

include hw

section

variable {u : UnpackedResponse} {data : ResultData Piece} (hsession : u.session = p.session)
include hsession

theorem Waits.dispatch_part (hok : u.ok = true) (hpadding : u.padding = true)
    (hdata : insertPart old u.msg = .ok data) :
    s.dispatch (sessionResponse u) = .ok (s.setData p.co (some data)) ∧
      Waits (s.setData p.co (some data)) p (some data) := by
  obtain ⟨session, ok, msg, padding⟩ := u
  obtain rfl : session = p.session := hsession
  obtain rfl : ok = true := hok
  obtain rfl : padding = true := hpadding
  constructor
  · simp only [SessionChannel.dispatch, sessionResponse, hw.thread, hw.data, hdata]
    rfl
  · exact ⟨hw.thread, hw.asleep, hw.woken, update_self .., hw.wakeups, hw.returned⟩

theorem Waits.dispatch_last (hpadding : u.padding = false)
    (hdata : lastData old u.ok u.msg = .ok data)
    (hreply : reqReply (outcome (some (.done u.ok)) (some data)) = .ok p.reply) :
    s.dispatch (sessionResponse u) = .ok (answer s p.session p.co u.ok data) ∧
      Woken (answer s p.session p.co u.ok data) p := by
  obtain ⟨session, ok, msg, padding⟩ := u
  obtain rfl : session = p.session := hsession
  obtain rfl : padding = false := hpadding
  constructor
  · simp only [SessionChannel.dispatch, sessionResponse, hw.thread, hw.data, hdata]
    rfl
  · rw [answer_eq hw.asleep hw.woken]
    refine ⟨hw.asleep, update_self .., ?_, ?_, hw.returned⟩
    · simpa only [update_self] using hreply
    · rw [count_append, hw.wakeups, count_singleton_self]

end

theorem Waits.answer_frame {ok : Bool} {data : ResultData Piece} :
    (answer s session p.co ok data).sock = s.sock ∧
      (answer s session p.co ok data).input = s.input ∧
      (answer s session p.co ok data).asleep = s.asleep := by
  rw [answer_eq hw.asleep hw.woken]
  exact ⟨rfl, rfl, rfl⟩

end Waits

theorem Awaits.dispatch (hvalid : p.Valid) (h : Awaits s p (f :: fs)) :
    ∃ u s', lunpackresponse (f.drop 2) = some u ∧ u.session = p.session ∧
      s.dispatch (sessionResponse u) = .ok s' ∧ Awaits s' p fs ∧ Reaches p.session p.co s s' ∧
      s'.sock = s.sock ∧ s'.input = s.input ∧ s'.asleep = s.asleep := by
  cases h with
  | waiting hfs hw =>
    cases hfs with
    | small _ hunpack =>
      obtain ⟨hs', hwoken⟩ := hw.dispatch_last (u := ⟨_, _, _, _⟩) rfl rfl (if_neg (by simp))
        (reqReply_one p)
      exact ⟨_, _, hunpack, rfl, hs', .woken hwoken, reaches_answer hw.asleep hw.woken,
        hw.answer_frame⟩
    | large _ hok hunpack hparts =>
      obtain ⟨hs', hw'⟩ := hw.dispatch_part (u := ⟨_, _, _, _⟩) rfl rfl rfl rfl
      exact ⟨_, _, hunpack, rfl, hs', .receiving [] hparts rfl hok hw', reaches_setData _,
        rfl, rfl, rfl⟩
  | @receiving _ strs rest hparts hmsg hok hw =>
    cases hparts with
    | last hle hf =>
      have hunpack := ClusterResponse.lunpackresponse_part p.session false rest
      have hconcat := lconcat_bytes p.msg (strs ++ [rest]) (by have := hvalid hok; omega)
        (by rw [flatten_append, flatten_singleton, hmsg])
      rw [map_append, map_singleton] at hconcat
      have hreply : reqReply (.ok (some (.parts ((.size (UInt32.ofNat p.msg.length) ::
          strs.map .bytes) ++ [.bytes rest])))) = .ok p.reply := by
        rw [reqReply, cons_append, hconcat, ClusterResponse.reply, hok]
        rfl
      obtain ⟨hs', hwoken⟩ := hw.dispatch_last
        (u := ⟨p.session, true, .bytes rest, false⟩) rfl rfl rfl hreply
      rw [← drop_of_lpack hf] at hunpack
      exact ⟨_, _, hunpack, rfl, hs', .woken hwoken, reaches_answer hw.asleep hw.woken,
        hw.answer_frame⟩
    | more hlt hf hrest =>
      have hunpack := ClusterResponse.lunpackresponse_part p.session true (rest.take multiPart)
      rw [← drop_of_lpack hf] at hunpack
      obtain ⟨hs', hw'⟩ := hw.dispatch_part (u := ⟨_, _, _, _⟩) rfl rfl rfl rfl
      refine ⟨_, _, hunpack, rfl, hs', .receiving (strs ++ [rest.take multiPart]) hrest ?_ hok ?_,
        reaches_setData _, rfl, rfl, rfl⟩
      · rw [flatten_append, flatten_singleton, append_assoc, take_append_drop, hmsg]
      · rw [map_append, map_singleton]
        exact hw'

/-! ### Going on -/

theorem returnedTo_append (r : Co × ChannelOutcome Piece) (c : Co) :
    ((s.returned ++ [r]).filter (·.1 = c)).map (·.2) =
      returnedTo s c ++ if r.1 = c then [r.2] else [] := by
  unfold returnedTo
  rw [filter_append, map_append]
  by_cases hr : r.1 = c <;> simp [hr]

theorem reaches_resume : Reaches session co s (s.resume co) := by
  intro k c _ hc
  have hreturned := returnedTo_append (s := s) (co, outcome (s.result co) (s.resultData co)) c
  rw [if_neg (Ne.symm hc), append_nil] at hreturned
  exact ⟨rfl, update_of_ne hc .., update_of_ne hc ..,
    update_of_ne hc .., update_of_ne hc .., rfl, hreturned⟩

theorem Woken.resume (h : Woken s p) : Served (s.resume p.co) p where
  asleep := update_self ..
  reply := by
    have happend := returnedTo_append (s := s)
      (p.co, outcome (s.result p.co) (s.resultData p.co)) p.co
    rw [if_pos rfl, h.returned, nil_append] at happend
    exact ⟨_, happend, h.reply⟩
  wakeups := h.wakeups

theorem Awaits.woken_of (h : Awaits s p fs) (hasleep : s.asleep p.co = true)
    (hwoken : s.woken p.co = true) : fs = [] ∧ Woken s p := by
  cases h with
  | waiting _ hw | receiving _ _ _ _ hw =>
    have := hw.woken
    rw [hwoken] at this
    cases this
  | woken hw => exact ⟨rfl, hw⟩
  | served hs =>
    have := hs.asleep
    rw [hasleep] at this
    cases this

/-! ### All requesters -/

/-- The channel, when requesters wait for their responses. -/
def waiting (pending : List (ClusterResponse Co)) (input : List UInt8) : SessionChannel Co Piece :=
  pending.foldr (fun p s => s.waitForResponse p.session p.co) (.connected Co Piece input)

/-- What comes in is `l`, which is what is left of the frames of each response. -/
structure Responds (pending : List (ClusterResponse Co)) (s : SessionChannel Co Piece)
    (fss : List (List Frame)) (l : List Frame) : Prop where
  interleaves : Interleaves fss l
  frames : ∀ f ∈ l, IsFrame f
  sock : s.sock = true
  input : s.input = l.flatten
  awaits : List.Forall₂ (fun p fs => p ∈ pending ∧ Awaits s p fs) pending fss
  asleep : ∀ c, s.asleep c = true → ∃ p ∈ pending, p.co = c

variable {pending : List (ClusterResponse Co)} {fss : List (List Frame)} {l : List Frame}

omit [DecidableEq Co] in
/-- Requesters that differ in their sessions are different coroutines. -/
theorem co_ne_of_session_ne (hcos : (pending.map ClusterResponse.co).Nodup)
    {q : ClusterResponse Co} (hp : p ∈ pending) (hq : q ∈ pending)
    (hne : q.session ≠ p.session) : q.co ≠ p.co := fun heq =>
  hne (congrArg ClusterResponse.session (inj_on_of_nodup_map hcos hq hp heq))

theorem Responds.dispatch (hvalid : ∀ p ∈ pending, p.Valid)
    (hsessions : (pending.map ClusterResponse.session).Nodup)
    (hcos : (pending.map ClusterResponse.co).Nodup) (h : Responds pending s fss (f :: l)) :
    ∃ p ∈ pending, ∃ u s' fss', readResponse s.input = some (.ok (sessionResponse u), l.flatten) ∧
      u.session = p.session ∧ s.step readResponse .read = .ok s' ∧ Responds pending s' fss' l ∧
      Reaches p.session p.co s s' := by
  have hread := readResponse_frame (h.frames f mem_cons_self) l.flatten
  rw [← flatten_cons, ← h.input] at hread
  cases h.interleaves with
  | @cons _ i _ fs _ hi hrest =>
    obtain ⟨p, hp, ⟨-, hawaits⟩, hset⟩ := forall₂_set hsessions h.awaits hi
    -- what is dispatched has been taken from the socket
    obtain ⟨u, s', hu, hsession, hs', hawaits', hreaches, hsock, hinput, hasleep⟩ :=
      (hawaits.congr (sameFor_input l.flatten)).dispatch (hvalid p hp)
    rw [hu] at hread
    have hreaches : Reaches p.session p.co s s' := fun k c hk hc =>
      have hsame := hreaches k c hk hc
      ⟨hsame.thread, hsame.asleep, hsame.woken, hsame.result, hsame.data, hsame.wakeups,
        hsame.returned⟩
    refine ⟨p, hp, u, s', fss.set i fs, hread, hsession, ?_, ?_, hreaches⟩
    · rw [SessionChannel.step, if_pos h.sock, hread]
      exact hs'
    · refine ⟨hrest, fun g hg => h.frames g (mem_cons_of_mem f hg), hsock.trans h.sock, hinput,
        hset _ _ ⟨hp, hawaits'⟩ fun q hq fs' hne hqfs => ?_, fun c hc => ?_⟩
      · exact ⟨hq, hqfs.2.congr (hreaches _ _ hne (co_ne_of_session_ne hcos hp hq hne))⟩
      · exact h.asleep c (by rwa [hasleep] at hc)

theorem Responds.resume (hsessions : (pending.map ClusterResponse.session).Nodup)
    (hcos : (pending.map ClusterResponse.co).Nodup) (h : Responds pending s fss l)
    (hasleep : s.asleep co = true) (hwoken : s.woken co = true) :
    Responds pending (s.resume co) fss l := by
  obtain ⟨p, hp, rfl⟩ := h.asleep co hasleep
  have hall : List.Forall₂ (fun q fs => q ∈ pending ∧ Awaits (s.resume p.co) q fs) pending fss := by
    refine h.awaits.imp fun q fs hqfs => ⟨hqfs.1, ?_⟩
    by_cases hqp : q.session = p.session
    · obtain rfl := inj_on_of_nodup_map hsessions hqfs.1 hp hqp
      obtain ⟨rfl, hw⟩ := hqfs.2.woken_of hasleep hwoken
      exact .served hw.resume
    · exact hqfs.2.congr (reaches_resume _ _ hqp (co_ne_of_session_ne hcos hp hqfs.1 hqp))
  refine ⟨h.interleaves, h.frames, h.sock, h.input, hall, fun c hc => ?_⟩
  by_cases hcp : c = p.co
  · exact ⟨p, hp, hcp.symm⟩
  · exact h.asleep c (by rwa [← update_of_ne hcp false s.asleep])

/-- No response has come in. -/
structure Quiet (s : SessionChannel Co Piece) (input : List UInt8) : Prop where
  sock : s.sock = true
  input : s.input = input
  woken : ∀ c, s.woken c = false
  data : ∀ c, s.resultData c = none
  wakeups : s.wakeups = []
  returned : s.returned = []

theorem quiet_waiting (pending : List (ClusterResponse Co)) (input : List UInt8) :
    Quiet (waiting pending input) input := by
  induction pending with
  | nil => exact ⟨rfl, rfl, fun _ => rfl, fun _ => rfl, rfl, rfl⟩
  | cons p pending ih => exact ⟨ih.sock, ih.input, ih.woken, ih.data, ih.wakeups, ih.returned⟩

theorem asleep_waiting (pending : List (ClusterResponse Co)) (input : List UInt8) (c : Co) :
    (waiting pending input).asleep c = true ↔ ∃ p ∈ pending, p.co = c := by
  induction pending with
  | nil => simp [waiting, connected]
  | cons p pending ih =>
    have hasleep : (waiting (p :: pending) input).asleep =
        update (waiting pending input).asleep p.co true := rfl
    rw [hasleep]
    by_cases hc : c = p.co
    · simp [hc]
    · rw [update_of_ne hc, ih]
      simp [Ne.symm hc]

theorem thread_waiting (input : List UInt8)
    (hsessions : (pending.map ClusterResponse.session).Nodup) :
    ∀ p ∈ pending, (waiting pending input).thread.lookup p.session = some p.co := by
  induction pending with
  | nil => exact nofun
  | cons q pending ih =>
    obtain ⟨hq, hsessions⟩ := nodup_cons.mp hsessions
    have hthread : (waiting (q :: pending) input).thread =
        (waiting pending input).thread.insert q.session q.co := rfl
    rw [hthread]
    refine forall_mem_cons.mpr ⟨AList.lookup_insert _, fun p hp => ?_⟩
    have hne : p.session ≠ q.session := fun heq => hq (heq ▸ mem_map_of_mem hp)
    rw [AList.lookup_insert_ne hne]
    exact ih hsessions p hp

theorem responds_waiting (hsessions : (pending.map ClusterResponse.session).Nodup)
    (hframes : List.Forall₂ ClusterResponse.Frames pending fss) (hl : Interleaves fss l)
    (hisFrame : ∀ f ∈ l, IsFrame f) : Responds pending (waiting pending l.flatten) fss l := by
  have hquiet := quiet_waiting pending l.flatten
  have hwaits : ∀ p ∈ pending, Waits (waiting pending l.flatten) p none := fun p hp => by
    refine ⟨thread_waiting _ hsessions p hp, (asleep_waiting ..).mpr ⟨p, hp, rfl⟩, hquiet.woken _,
      hquiet.data _, ?_, ?_⟩
    · rw [hquiet.wakeups, count_nil]
    · rw [returnedTo, hquiet.returned]
      rfl
  refine ⟨hl, hisFrame, hquiet.sock, hquiet.input, ?_, fun c hc => (asleep_waiting ..).mp hc⟩
  have hmem : List.Forall₂ (fun p fs => p ∈ pending ∧ p.Frames fs) pending fss :=
    (List.forall₂_and_left ..).mpr ⟨fun p hp => hp, hframes⟩
  exact hmem.imp fun p fs h => ⟨h.1, .waiting h.2 (hwaits p h.1)⟩

/-- What holds of the requesters of a channel all the time. -/
structure Answered (pending : List (ClusterResponse Co)) (s : SessionChannel Co Piece) : Prop where
  /-- Nobody is woken twice. -/
  once : ∀ p ∈ pending, s.wakeups.count p.co ≤ 1
  /-- A requester that has gone on has got its own response, once. -/
  replies : ∀ p ∈ pending, (returnedTo s p.co).length ≤ 1 ∧
    ∀ out ∈ returnedTo s p.co, reqReply out = .ok p.reply
  /-- The dispatch thread reads what there is, and a frame reaches the requester of its session
  alone. -/
  reads : s.input ≠ [] → ∃ r rest s', readResponse s.input = some (.ok r, rest) ∧
    s.next readResponse .read = some s' ∧
    ∀ p ∈ pending, p.session ≠ r.session → SameFor p.session p.co s s'
  /-- When all has been read, everybody has been woken and has got the response, or will get it when
  it goes on. -/
  finished : s.input = [] → ∀ p ∈ pending, s.wakeups.count p.co = 1 ∧
    ((returnedTo s p.co).length = 1 ∨ ∃ s', s.next readResponse (.resume p.co) = some s' ∧
      ∃ out, returnedTo s' p.co = [out] ∧ reqReply out = .ok p.reply)

theorem Awaits.once (h : Awaits s p fs) : s.wakeups.count p.co ≤ 1 := by
  cases h with
  | waiting _ hw | receiving _ _ _ _ hw => exact hw.wakeups.trans_le zero_le_one
  | woken hw => exact hw.wakeups.le
  | served hs => exact hs.wakeups.le

theorem Awaits.replies (h : Awaits s p fs) :
    (returnedTo s p.co).length ≤ 1 ∧ ∀ out ∈ returnedTo s p.co, reqReply out = .ok p.reply := by
  have hnone : returnedTo s p.co = [] → (returnedTo s p.co).length ≤ 1 ∧
      ∀ out ∈ returnedTo s p.co, reqReply out = .ok p.reply := fun hnil => by
    rw [hnil]
    exact ⟨zero_le_one, nofun⟩
  cases h with
  | waiting _ hw | receiving _ _ _ _ hw => exact hnone hw.returned
  | woken hw => exact hnone hw.returned
  | served hs =>
    obtain ⟨out, hout, hreply⟩ := hs.reply
    rw [hout]
    exact ⟨le_rfl, fun out' h' => by rwa [mem_singleton.mp h']⟩

theorem Awaits.finished (h : Awaits s p []) : s.wakeups.count p.co = 1 ∧
    ((returnedTo s p.co).length = 1 ∨ ∃ s', s.next readResponse (.resume p.co) = some s' ∧
      ∃ out, returnedTo s' p.co = [out] ∧ reqReply out = .ok p.reply) := by
  cases h with
  | waiting hfs _ => cases hfs
  | receiving _ hparts _ _ _ => cases hparts
  | woken hw =>
    refine ⟨hw.wakeups, .inr ⟨s.resume p.co, ?_, hw.resume.reply⟩⟩
    rw [SessionChannel.next, SessionChannel.step, if_pos ⟨hw.asleep, hw.woken⟩]
    rfl
  | served hs =>
    obtain ⟨out, hout, -⟩ := hs.reply
    exact ⟨hs.wakeups, .inl (by rw [hout]; rfl)⟩

theorem ne_nil_of_isFrame (hf : IsFrame f) : f ≠ [] := by
  rintro rfl
  cases hf

theorem Responds.answered (hvalid : ∀ p ∈ pending, p.Valid)
    (hsessions : (pending.map ClusterResponse.session).Nodup)
    (hcos : (pending.map ClusterResponse.co).Nodup) (h : Responds pending s fss l) :
    Answered pending s := by
  have hall : ∀ {P : ClusterResponse Co → Prop}, (∀ p fs, Awaits s p fs → P p) →
      ∀ p ∈ pending, P p := fun hP => forall₂_left h.awaits fun p fs hpfs => hP p fs hpfs.2
  refine ⟨hall fun _ _ hp => hp.once, hall fun _ _ hp => hp.replies, fun hne => ?_, fun hnil => ?_⟩
  · cases l with
    | nil => exact absurd h.input hne
    | cons f l =>
      obtain ⟨p, hp, u, s', fss', hread, hsession, hs', -, hreaches⟩ :=
        h.dispatch hvalid hsessions hcos
      refine ⟨_, _, s', hread, ?_, fun q hq hne => ?_⟩
      · rw [SessionChannel.next, hs']
        rfl
      · have hne : q.session ≠ p.session := fun heq => hne (heq.trans hsession.symm)
        exact hreaches _ _ hne (co_ne_of_session_ne hcos hp hq hne)
  · cases l with
    | cons f l =>
      rw [h.input, flatten_cons] at hnil
      exact absurd (append_eq_nil_iff.mp hnil).1 (ne_nil_of_isFrame (h.frames f mem_cons_self))
    | nil =>
      cases h.interleaves with
      | nil hempty => exact fun p hp => (forall₂_nil h.awaits hempty p hp).2.finished

/-- Whatever the order of the frames, as long as those of one response stay in theirs, and whenever
the requesters go on: each of them is woken once, with its own message or error. -/
theorem responses_received (pending : List (ClusterResponse Co)) (hvalid : ∀ p ∈ pending, p.Valid)
    (hsessions : (pending.map ClusterResponse.session).Nodup)
    (hcos : (pending.map ClusterResponse.co).Nodup) :
    ∃ fss, pending.mapM ClusterResponse.frames = .ok fss ∧ ∀ l, Interleaves fss l → ∀ w s,
        Run (SessionChannel.next readResponse) anyAction (waiting pending l.flatten) w s →
        Answered pending s := by
  obtain ⟨fss, hfss, hframes⟩ := exists_mapM fun p (_ : p ∈ pending) => p.frames_ok
  refine ⟨fss, hfss, fun l hl w s hrun => ?_⟩
  have hinit := responds_waiting hsessions hframes hl
    (hl.forall_mem (forall₂_right hframes fun _ _ h => h.isFrame))
  suffices hinv : ∃ fss l, Responds pending s fss l by
    obtain ⟨fss, l, h⟩ := hinv
    exact h.answered hvalid hsessions hcos
  refine hrun.invariant (P := fun s => ∃ fss l, Responds pending s fss l) ⟨fss, l, hinit⟩
    fun {s a t} _ hnext hinv => ?_
  obtain ⟨fss, l, h⟩ := hinv
  rw [SessionChannel.next, toOption_eq_some_iff] at hnext
  cases a with
  | read =>
    cases l with
    | nil =>
      rw [SessionChannel.step, if_pos h.sock, h.input] at hnext
      cases hnext
    | cons f l =>
      obtain ⟨-, -, u, s', fss', -, -, hs', h', -⟩ := h.dispatch hvalid hsessions hcos
      rw [hs'] at hnext
      cases hnext
      exact ⟨fss', l, h'⟩
  | resume co =>
    rw [SessionChannel.step] at hnext
    split_ifs at hnext with hco
    cases hnext
    exact ⟨fss, l, h.resume hsessions hcos hco.1 hco.2⟩

/-- A large message and an error. -/
def twoResponses : List (ClusterResponse ℕ) :=
  [⟨1, 10, true, List.replicate 0x8001 7⟩, ⟨2, 11, false, [101, 114, 114]⟩]

theorem twoResponses_valid : ∀ p ∈ twoResponses, p.Valid := by
  have hsize : (List.replicate 0x8001 (7 : UInt8)).length ≤ 2 ^ 31 - 1 := by
    rw [length_replicate]
    decide
  refine forall_mem_cons.mpr ⟨fun _ => hsize, ?_⟩
  exact forall_mem_cons.mpr ⟨nofun, nofun⟩

theorem responses_received_two : ∃ fss, twoResponses.mapM ClusterResponse.frames = .ok fss ∧
      ∀ l, Interleaves fss l → ∀ w s,
        Run (SessionChannel.next readResponse) anyAction (waiting twoResponses l.flatten) w s →
        Answered twoResponses s :=
  responses_received twoResponses twoResponses_valid (by decide) (by decide)

end Clusterd

end Uboss.Service
