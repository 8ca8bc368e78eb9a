import Uboss.Module.HarborSocket

/-!
# The harbor stream does not depend on its pieces

`cutBody` takes a frame off a stream of bytes: a length whose first byte is zero, and a body of that
length. A slave keeps what has arrived of a frame. The loop of `push_socket_data`, run on a piece of
the stream, forwards the bodies of the frames that the piece completes and keeps the rest, and a
length that is too large closes the link. A body without room for the cookie is not noticed:
`forward_local_messsage` reads the cookie from before the buffer.
-/

namespace Uboss.Module

open Math List Nat

/-! ### Copying -/

section Memcpy

variable {dst src : List UInt8} {off : ℕ}

/-- The buffer after a copy that stays inside of it. -/
def overwrite (dst : List UInt8) (off : ℕ) (src : List UInt8) : List UInt8 :=
  dst.take off ++ src ++ dst.drop (off + src.length)

section

variable (h : off + src.length ≤ dst.length)
include h

theorem memcpy_ok : memcpy dst off src = .ok (overwrite dst off src) := if_pos h

theorem length_overwrite : (overwrite dst off src).length = dst.length := by
  simp only [overwrite, length_append, length_take, length_drop]
  omega

theorem take_overwrite : (overwrite dst off src).take (off + src.length) = dst.take off ++ src := by
  have hlen : (dst.take off ++ src).length = off + src.length := by
    rw [length_append, length_take, Nat.min_eq_left (by omega)]
  rw [overwrite, ← hlen]
  exact take_left

end

theorem overwrite_eq (h : off + src.length = dst.length) :
    overwrite dst off src = dst.take off ++ src := by
  rw [overwrite, h, drop_length, append_nil]

theorem memcpy_full {size : ℕ} (hsize : dst.length = size) (hoff : off ≤ size)
    (hfull : ¬src.length < size - off) :
    ∃ buffer, memcpy dst off (src.take (size - off)) = .ok buffer ∧ buffer.length = size ∧
      buffer ++ src.drop (size - off) = dst.take off ++ src := by
  have htake : (src.take (size - off)).length = size - off := by
    rw [length_take]
    omega
  have hbound : off + (src.take (size - off)).length = dst.length := by omega
  refine ⟨dst.take off ++ src.take (size - off), ?_, ?_, ?_⟩
  · rw [memcpy_ok hbound.le, overwrite_eq hbound]
  · rw [length_append, length_take, htake]
    omega
  · rw [append_assoc, take_append_drop]

end Memcpy

/-! ### Frames -/

/-- The body of the first frame of a stream, and what follows it. A frame without a body is handled
together with the next byte. -/
def cutBody (stream : List UInt8) : Option (List UInt8 × List UInt8) :=
  if stream.getD 0 0 = 0 ∧ 4 + max (frameLength stream) 1 ≤ stream.length then
    some ((stream.drop 4).take (frameLength stream), stream.drop (4 + frameLength stream))
  else none

theorem frameLength_eq (size : List UInt8) :
    frameLength size = (size.getD 1 0).toNat * 2 ^ 16 + (size.getD 2 0).toNat * 2 ^ 8 +
      (size.getD 3 0).toNat := by
  have hor := or_bytes (a := 0) (size.getD 1 0).toNat_lt (size.getD 2 0).toNat_lt
    (size.getD 3 0).toNat_lt
  rwa [zero_shiftLeft, zero_or, Nat.zero_mul, Nat.zero_add] at hor

theorem frameLength_lt (size : List UInt8) : frameLength size < 2 ^ 24 := by
  have hb := (size.getD 1 0).toNat_lt
  have hc := (size.getD 2 0).toNat_lt
  have hd := (size.getD 3 0).toNat_lt
  rw [frameLength_eq]
  omega

theorem frameLength_append {xs : List UInt8} (h : 4 ≤ xs.length) (ys : List UInt8) :
    frameLength (xs ++ ys) = frameLength xs := by
  rw [frameLength, getD_append _ _ _ _ (by omega), getD_append _ _ _ _ (by omega),
    getD_append _ _ _ _ (by omega), frameLength]

theorem cutBody_prefixStable : PrefixStable cutBody := by
  intro xs ys f hcut zs
  rw [cutBody] at hcut
  split_ifs at hcut with hframe
  obtain ⟨hzero, hlen⟩ := hframe
  obtain ⟨rfl, rfl⟩ : _ ∧ _ := by simpa using hcut
  have hfour : 4 ≤ xs.length := by omega
  rw [cutBody, frameLength_append hfour, getD_append _ _ _ _ (by omega), if_pos]
  · rw [drop_append_of_le_length hfour, drop_append_of_le_length (by omega),
      take_append_of_le_length]
    rw [length_drop]
    omega
  · exact ⟨hzero, by rw [length_append]; omega⟩

theorem cutBody_append {size body rest : List UInt8} (hsize : size.length = 4)
    (hzero : size.getD 0 0 = 0) (hlength : frameLength size = body.length)
    (hne : body ≠ [] ∨ rest ≠ []) : cutBody (size ++ body ++ rest) = some (body, rest) := by
  have hpos : 0 < body.length ∨ 0 < rest.length := hne.imp length_pos_iff.mpr length_pos_iff.mpr
  have hframe : frameLength (size ++ body ++ rest) = body.length := by
    rw [append_assoc, frameLength_append hsize.ge, hlength]
  have hdrop : (size ++ body ++ rest).drop 4 = body ++ rest := by
    rw [append_assoc, ← hsize, drop_left]
  rw [cutBody, hframe, if_pos, ← drop_drop, hdrop, take_left, drop_left]
  refine ⟨?_, by simp only [length_append]; omega⟩
  rw [append_assoc, getD_append _ _ _ _ (by omega), hzero]

/-! ### What a slave keeps -/

/-- `s.Keeps p`: the bytes `p` have arrived since the last frame. -/
inductive Slave.Keeps (s : Slave) : List UInt8 → Prop
  | header : s.status = .header → s.size.length = 4 → s.read < 4 → s.Keeps (s.size.take s.read)
  | content {recv : List UInt8} :
      s.status = .content → s.size.length = 4 → s.size.getD 0 0 = 0 →
      s.recvBuffer = some recv → recv.length = s.length → frameLength s.size = s.length →
      (s.read < s.length ∨ s.read = 0) → s.Keeps (s.size ++ recv.take s.read)
  | down {p : List UInt8} : s.status = .down → 4 ≤ p.length → p.getD 0 0 ≠ 0 → s.Keeps p

theorem Slave.Keeps.cutBody_eq_none {s : Slave} {p : List UInt8} (h : s.Keeps p) :
    cutBody p = none := by
  rw [cutBody, if_neg]
  rintro ⟨hfirst, hlen⟩
  cases h with
  | header _ hsize hread =>
    rw [length_take] at hlen
    omega
  | content _ hsize _ _ hrecv hlength hread =>
    rw [frameLength_append hsize.ge, length_append, length_take] at hlen
    omega
  | down _ _ hne => exact hne hfirst

theorem keeps_nil {s : Slave} (hstatus : s.status = .header) (hsize : s.size.length = 4)
    (hread : s.read = 0) : s.Keeps [] := by
  have hkeeps := Slave.Keeps.header hstatus hsize (by omega)
  rwa [hread, take_zero] at hkeeps

theorem Slave.Keeps.between_frames {s : Slave} (h : s.Keeps []) :
    s.status = .header ∧ s.read = 0 := by
  generalize hp : [] = p at h
  cases h with
  | header hstatus hsize hread =>
    have hlen := congrArg List.length hp
    rw [length_nil, length_take] at hlen
    exact ⟨hstatus, by omega⟩
  | content _ hsize =>
    have hlen := congrArg List.length hp
    rw [length_nil, length_append] at hlen
    omega
  | down _ hlen =>
    rw [← hp] at hlen
    cases hlen

/-! ### What was forwarded -/

/-- The messages of a record that `forward_local_messsage` sent: it alone passes its buffer
on. -/
def forwarded (calls : List HarborCall) : List UbossSend := calls.filterMap fun
    | .ubossSend m => if m.type &&& ptypeTagDontcopy ≠ 0 then some m else none
    | _ => none

/-- The message that `forward_local_messsage` sends for a body. -/
def forwardedMessage (harborId : ℕ) (body : List UInt8) : UbossSend :=
  { localMessage harborId body body.length with
    type := (localMessage harborId body body.length).type ||| ptypeTagDontcopy }

/-- From `h` to `h'` the bodies were forwarded, in this order. -/
structure Delivers (h h' : Harbor) (bodies : List (List UInt8)) : Prop where
  id_eq : h'.id = h.id
  fd_eq : ∀ i, (h'.s i).fd = (h.s i).fd
  calls_eq : ∃ calls, h'.calls = h.calls ++ calls ∧
    forwarded calls = bodies.map (forwardedMessage h.id)

namespace Delivers

variable {h h' h'' : Harbor} {fs gs : List (List UInt8)}

theorem refl (h : Harbor) : Delivers h h [] where
  id_eq := rfl
  fd_eq := by simp
  calls_eq := ⟨[], by simp, rfl⟩

theorem trans (hfs : Delivers h h' fs) (hgs : Delivers h' h'' gs) :
    Delivers h h'' (fs ++ gs) where
  id_eq := hgs.id_eq.trans hfs.id_eq
  fd_eq := by
    intro i
    rw [hgs.fd_eq, hfs.fd_eq]
  calls_eq := by
    obtain ⟨cs, hcs, hforward⟩ := hfs.calls_eq
    obtain ⟨ds, hds, hforward'⟩ := hgs.calls_eq
    refine ⟨cs ++ ds, by rw [hds, hcs, append_assoc], ?_⟩
    rw [forwarded, filterMap_append, map_append, ← hforward, ← hfs.id_eq, ← hforward',
      forwarded, forwarded]

theorem setSlave (h : Harbor) (id : ℕ) {s : Slave} (hfd : s.fd = (h.s id).fd) :
    Delivers h (h.setSlave id s) [] where
  id_eq := rfl
  fd_eq := by
    intro i
    by_cases hi : i = id
    · subst hi
      simp [Harbor.setSlave, hfd]
    · simp [Harbor.setSlave, hi]
  calls_eq := ⟨[], by simp [Harbor.setSlave], rfl⟩

theorem call (h : Harbor) {c : HarborCall}
    (hc : forwarded [c] = fs.map (forwardedMessage h.id)) : Delivers h (h.call c) fs where
  id_eq := rfl
  fd_eq := fun _ => rfl
  calls_eq := ⟨[c], rfl, hc⟩

theorem call_after {c : HarborCall} (hfs : Delivers h h' fs) (hc : forwarded [c] = []) :
    Delivers h (h'.call c) fs := by
  simpa using hfs.trans (call h' hc : Delivers h' _ [])

theorem findSlave_eq (hfs : Delivers h h' fs) (fd : ℕ) : h'.findSlave fd = h.findSlave fd := by
  simp only [Harbor.findSlave, hfs.fd_eq]

end Delivers

section Receive

variable {refused : List HarborCall → Bool} {h : Harbor} {id : ℕ}

theorem or_dontcopy (type : UInt32) : (type ||| ptypeTagDontcopy) &&& ptypeTagDontcopy ≠ 0 := by
  have habsorb : (type ||| ptypeTagDontcopy) &&& ptypeTagDontcopy = ptypeTagDontcopy := by
    apply UInt32.eq_of_toBitVec_eq
    ext i hi
    simp only [UInt32.toBitVec_and, UInt32.toBitVec_or, BitVec.getElem_and, BitVec.getElem_or]
    exact Bool.and_eq_right_iff_imp.mpr fun hbit => by simp [hbit]
  rw [habsorb]
  decide

/-- Forwarding a body, whether or not its destination is known. -/
theorem forwardLocalMesssage_delivers (refused : List HarborCall → Bool) (h : Harbor)
    {body : List UInt8} (hlen : headerCookieLength ≤ body.length) :
    ∃ h', forwardLocalMesssage refused h body body.length = .ok h' ∧ h'.s = h.s ∧
      Delivers h h' [body] := by
  have hsent : Delivers h (h.call (.ubossSend (forwardedMessage h.id body))) [body] := by
    apply Delivers.call
    simp [forwarded, forwardedMessage, or_dontcopy]
  have hreport (source destination : UInt32) (session : Int32) :
      forwarded [.ubossSend ⟨source, destination, ptypeError, session, []⟩] = [] := by
    have hquiet : ptypeError &&& ptypeTagDontcopy = 0 := by decide
    simp [forwarded, hquiet]
  rw [forwardLocalMesssage, if_neg (Nat.not_lt.mpr hlen)]
  split
  · split
    · exact ⟨_, rfl, rfl, (hsent.call_after (hreport ..)).call_after rfl⟩
    · exact ⟨_, rfl, rfl, hsent.call_after rfl⟩
  · exact ⟨_, rfl, rfl, hsent⟩

@[simp] theorem setSlave_s_self (h : Harbor) (id : ℕ) (s : Slave) :
    (h.setSlave id s).s id = s := Function.update_self ..

theorem pushContent_part (refused : List HarborCall → Bool)
    (again : Harbor → List UInt8 → Except HarborFault Harbor)
    {recv c : List UInt8} (hrecv : (h.s id).recvBuffer = some recv)
    (hlength : recv.length = (h.s id).length)
    (hshort : c.length < (h.s id).length - (h.s id).read) :
    ∃ recv', recv'.length = recv.length ∧
      recv'.take ((h.s id).read + c.length) = recv.take (h.s id).read ++ c ∧
      pushContent refused again id h c = .ok (h.setSlave id
        { h.s id with recvBuffer := some recv', read := (h.s id).read + c.length }) := by
  have hbound : (h.s id).read + c.length ≤ recv.length := by omega
  refine ⟨_, length_overwrite hbound, take_overwrite hbound, ?_⟩
  simp only [pushContent, hrecv]
  rw [if_pos hshort, memcpy_ok hbound]
  rfl

theorem pushContent_full (refused : List HarborCall → Bool)
    (again : Harbor → List UInt8 → Except HarborFault Harbor)
    {recv c : List UInt8} (hrecv : (h.s id).recvBuffer = some recv)
    (hlength : recv.length = (h.s id).length) (hread : (h.s id).read ≤ (h.s id).length)
    (hfull : ¬c.length < (h.s id).length - (h.s id).read) :
    ∃ body rest, body.length = (h.s id).length ∧ body ++ rest = recv.take (h.s id).read ++ c ∧
      rest.length = c.length - ((h.s id).length - (h.s id).read) ∧
      pushContent refused again id h c =
        (forwardLocalMesssage refused h body body.length).bind fun h' =>
          let h' := h'.setSlave id
            { h.s id with length := 0, read := 0, recvBuffer := none, status := .header }
          if rest = [] then .ok h' else again h' rest := by
  obtain ⟨body, hcopy, hbody, hstream⟩ := memcpy_full hlength hread hfull
  refine ⟨body, _, hbody, hstream, length_drop, ?_⟩
  simp only [pushContent, hrecv]
  rw [if_neg hfull, hcopy, hbody]
  rfl

theorem pushHeader_part (refused : List HarborCall → Bool)
    (again : Harbor → List UInt8 → Except HarborFault Harbor)
    {c : List UInt8} (hsize : (h.s id).size.length = 4) (hshort : c.length < 4 - (h.s id).read) :
    ∃ size, size.length = 4 ∧
      size.take ((h.s id).read + c.length) = (h.s id).size.take (h.s id).read ++ c ∧
      pushHeader refused again id h c = .ok (h.setSlave id
        { h.s id with size := size, read := (h.s id).read + c.length }) := by
  have hbound : (h.s id).read + c.length ≤ (h.s id).size.length := by omega
  refine ⟨_, (length_overwrite hbound).trans hsize, take_overwrite hbound, ?_⟩
  rw [pushHeader, if_pos hshort, memcpy_ok hbound]
  rfl

/-- The slave of a frame whose length has arrived. -/
abbrev Slave.reserve (s : Slave) (size : List UInt8) : Slave :=
  { s with
    size := size
    length := frameLength size
    read := 0
    recvBuffer := some (List.replicate (frameLength size) 0)
    status := .content }

theorem pushHeader_full (refused : List HarborCall → Bool)
    (again : Harbor → List UInt8 → Except HarborFault Harbor)
    {c : List UInt8} (hsize : (h.s id).size.length = 4) (hread : (h.s id).read ≤ 4)
    (hfull : ¬c.length < 4 - (h.s id).read) :
    ∃ size rest, size.length = 4 ∧ size ++ rest = (h.s id).size.take (h.s id).read ++ c ∧
      rest.length ≤ c.length ∧
      pushHeader refused again id h c =
        if size.getD 0 0 ≠ 0 then
          .ok (closeHarbor ((h.setSlave id { h.s id with size := size }).call
            (.ubossError (.messageTooLong id))) id)
        else if rest = [] then .ok (h.setSlave id ((h.s id).reserve size))
        else pushContent refused again id (h.setSlave id ((h.s id).reserve size)) rest := by
  obtain ⟨size, hcopy, hlen, hstream⟩ := memcpy_full hsize hread hfull
  refine ⟨size, _, hlen, hstream, length_drop.trans_le (sub_le ..), ?_⟩
  rw [pushHeader, if_neg hfull, hcopy]
  rfl

/-- There is room for the cookie. -/
def HasCookie (body : List UInt8) : Prop := headerCookieLength ≤ body.length

/-- The bodies `out` were forwarded since `h`, and the slave keeps the bytes `p`. -/
def Represents (h : Harbor) (id : ℕ) (h' : Harbor) (out : List (List UInt8)) (p : List UInt8) :
    Prop :=
  Delivers h h' out ∧ (h'.s id).Keeps p

/-- What one round of the loop makes of a piece `c` when the bytes `p` have arrived before: the
frame is still incomplete, it is complete and the next round gets what follows it, or its body has
no room for the cookie. -/
inductive Round (again : Harbor → List UInt8 → Except HarborFault Harbor) (id : ℕ)
    (h : Harbor) (p c : List UInt8) : Except HarborFault Harbor → Prop
  | incomplete (h' : Harbor) : Represents h id h' [] (p ++ c) → Round again id h p c (.ok h')
  | complete (body rest : List UInt8) (h' : Harbor) :
      cutBody (p ++ c) = some (body, rest) → HasCookie body → rest.length < c.length →
      Represents h id h' [body] [] →
      Round again id h p c (if rest = [] then .ok h' else again h' rest)
  | short (body rest : List UInt8) :
      cutBody (p ++ c) = some (body, rest) → ¬ HasCookie body →
      Round again id h p c (.error .cookieBounds)

theorem closeHarbor_delivers (h : Harbor) (id : ℕ) :
    Delivers h (closeHarbor h id) [] ∧ ((closeHarbor h id).s id).status = .down := by
  have hset : Delivers h (h.setSlave id { h.s id with status := .down, queue := none }) [] :=
    Delivers.setSlave h id rfl
  rw [closeHarbor]
  split_ifs
  · exact ⟨hset.call_after rfl, congrArg Slave.status (setSlave_s_self ..)⟩
  · exact ⟨hset, congrArg Slave.status (setSlave_s_self ..)⟩

theorem pushContent_round (again : Harbor → List UInt8 → Except HarborFault Harbor)
    {p c : List UInt8} (hkeeps : (h.s id).Keeps p) (hstatus : (h.s id).status = .content)
    (hc : c ≠ []) : Round again id h p c (pushContent refused again id h c) := by
  have hpos := length_pos_iff.mpr hc
  cases hkeeps with
  | header hheader => simp [hstatus] at hheader
  | down hdown => simp [hstatus] at hdown
  | @content recv _ hsize hzero hrecv hlength hframe hread =>
    by_cases hshort : c.length < (h.s id).length - (h.s id).read
    · obtain ⟨recv', hlen, htake, hpush⟩ := pushContent_part refused again hrecv hlength hshort
      rw [hpush]
      refine .incomplete _ ⟨Delivers.setSlave h id rfl, ?_⟩
      rw [setSlave_s_self, append_assoc, ← htake]
      exact .content hstatus hsize hzero rfl (hlen.trans hlength) hframe
        (.inl (by dsimp only; omega))
    · obtain ⟨body, rest, hbody, hstream, hrest, hpush⟩ :=
        pushContent_full refused again hrecv hlength (by omega) hshort
      have hne : body ≠ [] ∨ rest ≠ [] := by
        rw [← length_pos_iff, ← length_pos_iff]
        omega
      have hcut := cutBody_append hsize hzero (hframe.trans hbody.symm) hne
      rw [append_assoc, hstream, ← append_assoc] at hcut
      rw [hpush]
      by_cases hcookie : headerCookieLength ≤ body.length
      · obtain ⟨h', hforward, hs, hdelivers⟩ := forwardLocalMesssage_delivers refused h hcookie
        have hneed : 0 < body.length := Nat.lt_of_lt_of_le (by decide) hcookie
        rw [hforward]
        refine .complete body rest _ hcut hcookie (by omega) ⟨?_, ?_⟩
        · simpa using hdelivers.trans (Delivers.setSlave h' id (by rw [hs]))
        · rw [setSlave_s_self]
          exact keeps_nil rfl hsize rfl
      · rw [forwardLocalMesssage, if_pos (by omega)]
        exact .short body rest hcut hcookie

/-- Completing the length is no end of a frame: the body is still to come. -/
theorem Round.of_header {again : Harbor → List UInt8 → Except HarborFault Harbor}
    {h' : Harbor} {p q c d : List UInt8} {result : Except HarborFault Harbor}
    (hdelivers : Delivers h h' []) (heq : q ++ d = p ++ c) (hlen : d.length ≤ c.length)
    (hround : Round again id h' q d result) : Round again id h p c result := by
  cases hround with
  | incomplete h'' hrep =>
    exact .incomplete h'' ⟨by simpa using hdelivers.trans hrep.1, heq ▸ hrep.2⟩
  | complete body rest h'' hcut hcookie hrest hrep =>
    exact .complete body rest h'' (heq ▸ hcut) hcookie (by omega)
      ⟨by simpa using hdelivers.trans hrep.1, hrep.2⟩
  | short body rest hcut hshort => exact .short body rest (heq ▸ hcut) hshort

theorem pushHeader_round (again : Harbor → List UInt8 → Except HarborFault Harbor)
    {p c : List UInt8} (hkeeps : (h.s id).Keeps p) (hstatus : (h.s id).status = .header) :
    Round again id h p c (pushHeader refused again id h c) := by
  cases hkeeps with
  | content hcontent => simp [hstatus] at hcontent
  | down hdown => simp [hstatus] at hdown
  | header _ hsize hread =>
    by_cases hshort : c.length < 4 - (h.s id).read
    · obtain ⟨size, hlen, htake, hpush⟩ := pushHeader_part refused again hsize hshort
      rw [hpush]
      refine .incomplete _ ⟨Delivers.setSlave h id rfl, ?_⟩
      rw [setSlave_s_self, ← htake]
      exact .header hstatus hlen (by dsimp only; omega)
    · obtain ⟨size, rest, hlen, hstream, hrest, hpush⟩ :=
        pushHeader_full refused again hsize hread.le hshort
      rw [hpush]
      by_cases hzero : size.getD 0 0 = 0
      · have hs := setSlave_s_self h id ((h.s id).reserve size)
        have hkeeps' : ((h.setSlave id ((h.s id).reserve size)).s id).Keeps size := by
          rw [hs]
          have hsize' := Slave.Keeps.content (s := (h.s id).reserve size) rfl hlen hzero rfl
            length_replicate rfl (.inr rfl)
          rwa [take_zero, append_nil] at hsize'
        have hdelivers : Delivers h (h.setSlave id ((h.s id).reserve size)) [] :=
          Delivers.setSlave h id rfl
        rw [if_neg (not_not.mpr hzero)]
        split
        · next hempty =>
          rw [hempty, append_nil] at hstream
          exact .incomplete _ ⟨hdelivers, hstream ▸ hkeeps'⟩
        · next hne =>
          exact (pushContent_round again hkeeps' (congrArg Slave.status hs) hne).of_header hdelivers
            hstream hrest
      · rw [if_pos hzero]
        have hcall : Delivers h ((h.setSlave id { h.s id with size := size }).call
            (.ubossError (.messageTooLong id))) [] :=
          (Delivers.setSlave h id (by rfl)).call_after rfl
        obtain ⟨hclose, hdown⟩ := closeHarbor_delivers ((h.setSlave id
          { h.s id with size := size }).call (.ubossError (.messageTooLong id))) id
        refine .incomplete _ ⟨hcall.trans hclose, .down hdown ?_ ?_⟩
        · rw [← hstream, length_append]
          omega
        · rw [← hstream, getD_append _ _ _ _ (by omega)]
          exact hzero

/-- The loop on one piece of the stream. Every round that does not return takes at least one
byte off the piece. -/
theorem pushLoop_decodes {h' : Harbor} {fuel : ℕ} {out : List (List UInt8)} {p c : List UInt8}
    (hrep : Represents h id h' out p) (hc : c ≠ [] ∨ (h'.s id).status = .header)
    (hfuel : c.length < fuel) :
    Decodes cutBody HasCookie (Represents h id) .cookieBounds out (p ++ c)
      (pushLoop refused id fuel h' c) := by
  induction fuel generalizing h' out p c with
  | zero => omega
  | succ fuel ih =>
    obtain ⟨hdelivers, hkeeps⟩ := hrep
    have hround : Round (pushLoop refused id fuel) id h' p c
        (pushLoop refused id (fuel + 1) h' c) := by
      rw [pushLoop]
      cases hstatus : (h'.s id).status with
      | header => exact pushHeader_round _ hkeeps hstatus
      | content => exact pushContent_round _ hkeeps hstatus (hc.resolve_right (by simp [hstatus]))
      | down =>
        -- what arrives on a closed link is dropped
        cases hkeeps with
        | header h | content h => simp [hstatus] at h
        | down _ hlen hne =>
          refine .incomplete h' ⟨.refl h', .down hstatus ?_ ?_⟩
          · rw [length_append]
            omega
          · rwa [getD_append _ _ _ _ (by omega)]
      | wait | handshake => cases hkeeps <;> simp_all
    generalize pushLoop refused id (fuel + 1) h' c = result at hround
    cases hround with
    | incomplete h'' hrep => exact .pure ⟨by simpa using hdelivers.trans hrep.1, hrep.2⟩
    | short body rest hcut hshort => exact .stop hcut hshort
    | complete body rest h'' hcut hcookie hrest hrep =>
      have hrep' : Represents h id h'' (out ++ [body]) [] := ⟨hdelivers.trans hrep.1, hrep.2⟩
      refine .cons hcut hcookie ?_
      -- the next round starts between two frames
      split
      · next hempty => exact .pure (hempty ▸ hrep')
      · next hne => exact ih hrep' (.inl hne) (by omega)

theorem sendRemote_delivers (h : Harbor) (fd : ℕ) (buffer : List UInt8)
    (cookie : RemoteMessageHeader) :
    Delivers h (sendRemote h fd buffer cookie) [] ∧ (sendRemote h fd buffer cookie).s = h.s := by
  rw [sendRemote]
  split
  · exact ⟨Delivers.call h rfl, rfl⟩
  · exact ⟨Delivers.call h rfl, rfl⟩

theorem sendQueue_delivers (h : Harbor) (fd : ℕ) (queue : List HarborMsg) :
    Delivers h (queue.foldl (fun acc m => sendRemote acc fd m.buffer m.header) h) [] ∧
      (queue.foldl (fun acc m => sendRemote acc fd m.buffer m.header) h).s = h.s := by
  induction queue generalizing h with
  | nil => exact ⟨Delivers.refl h, rfl⟩
  | cons m queue ih =>
    obtain ⟨hsend, hs⟩ := sendRemote_delivers h fd m.buffer m.header
    obtain ⟨hrest, hs'⟩ := ih (sendRemote h fd m.buffer m.header)
    exact ⟨hsend.trans hrest, hs'.trans hs⟩

/-- Sending the queue forwards nothing and changes nothing else of the slave. -/
theorem dispatchQueue_delivers (h : Harbor) (hfd : (h.s id).fd ≠ 0) :
    ∃ h', dispatchQueue h id = .ok h' ∧ Delivers h h' [] ∧
      h'.s id = { h.s id with queue := none } := by
  rw [dispatchQueue, if_neg hfd]
  split
  · rename_i hqueue
    exact ⟨h, rfl, Delivers.refl h, by rw [← hqueue]⟩
  · obtain ⟨hsend, hs⟩ := sendQueue_delivers h (h.s id).fd ‹_›
    refine ⟨_, rfl, ?_, setSlave_s_self ..⟩
    simpa using hsend.trans (Delivers.setSlave _ id (by rw [hs]))

theorem pushLoop_handshake (refused : List HarborCall → Bool) (fuel : ℕ) (rest : List UInt8)
    (hid : id < remoteMax) (hstatus : (h.s id).status = .handshake) (hfd : (h.s id).fd ≠ 0)
    (hsize : (h.s id).size.length = 4) (hread : (h.s id).read = 0)
    (hfuel : rest.length + 1 < fuel) :
    ∃ h' fuel', rest.length < fuel' ∧ Represents h id h' [] [] ∧ (h'.s id).status = .header ∧
      pushLoop refused id fuel h (UInt8.ofNat id :: rest) = pushLoop refused id fuel' h' rest := by
  obtain ⟨fuel, rfl⟩ : ∃ n, fuel = n + 1 := ⟨fuel - 1, by omega⟩
  have hset : Delivers h (h.setSlave id { h.s id with status := .header }) [] :=
    Delivers.setSlave h id rfl
  obtain ⟨h', hdispatch, hdelivers, hslave⟩ :=
    dispatchQueue_delivers (h.setSlave id { h.s id with status := .header })
      (by rwa [setSlave_s_self] : ((h.setSlave id _).s id).fd ≠ 0)
  rw [setSlave_s_self] at hslave
  have hstatus' : (h'.s id).status = .header := by rw [hslave]
  have hrep : Represents h id h' [] [] := by
    refine ⟨hset.trans hdelivers, keeps_nil hstatus' ?_ ?_⟩
    · rw [hslave, hsize]
    · rw [hslave, hread]
  have hbyte : (UInt8.ofNat id).toNat = id := mod_eq_of_lt hid
  have hpush : pushLoop refused id (fuel + 1) h (UInt8.ofNat id :: rest) =
      if rest = [] then pushLoop refused id fuel h' rest
      else pushHeader refused (pushLoop refused id fuel) id h' rest := by
    rw [pushLoop, hstatus]
    simp only [pushHandshake, hbyte, ne_eq, not_true_eq_false, if_false, hdispatch, bind,
      Except.bind]
  rw [hpush]
  split
  · exact ⟨h', fuel, by omega, hrep, hstatus', rfl⟩
  · refine ⟨h', fuel + 1, by omega, hrep, hstatus', ?_⟩
    rw [pushLoop, hstatus']

end Receive

/-! ### The stream of a sender -/

/-- The length that a sender writes, by its first byte and the rest. -/
theorem toBigendian_frameLength (n : ℕ) (hn : n ≤ uint32Max) :
    ((toBigendian (UInt32.ofNat n)).getD 0 0).toNat * 2 ^ 24 +
      frameLength (toBigendian (UInt32.ofNat n)) = n := by
  have hvalue := congrArg UInt32.toNat (fromBigendian_toBigendian (UInt32.ofNat n) [])
  rw [append_nil, UInt32.toNat_ofNat_of_lt' (lt_succ_of_le hn)] at hvalue
  generalize hbytes : toBigendian (UInt32.ofNat n) = bytes at hvalue ⊢
  obtain ⟨a, b, c, d, rfl⟩ : ∃ a b c d, bytes = [a, b, c, d] := ⟨_, _, _, _, hbytes.symm⟩
  rw [toNat_fromBigendian] at hvalue
  rw [frameLength_eq]
  simpa [Nat.add_assoc] using hvalue

theorem cutBody_remoteFrame {m : HarborMsg} (hfits : m.buffer.length + headerCookieLength < 2 ^ 24)
    (rest : List UInt8) :
    cutBody (remoteFrame m.buffer m.header ++ rest) =
      some (m.buffer ++ headerToMessage m.header, rest) := by
  have hbody : (m.buffer ++ headerToMessage m.header).length =
      m.buffer.length + headerCookieLength := by simp
  have hvalue := toBigendian_frameLength (m.buffer.length + headerCookieLength)
    (by unfold uint32Max; omega)
  rw [remoteFrame, append_assoc (toBigendian _)]
  apply cutBody_append (length_toBigendian _)
  · apply UInt8.toNat.inj
    rw [UInt8.toNat_zero]
    omega
  · omega
  · exact .inl (length_pos_iff.mp (hbody ▸ Nat.add_pos_right _ (by decide)))

/-- The message that reaches the local destination when `m` has been sent to a harbor. -/
def deliveredMessage (harborId : ℕ) (m : HarborMsg) : UbossSend where
  source := m.header.source
  destination := (m.header.destination &&& handleMask) |||
    (UInt32.ofNat harborId <<< handleRemoteShift)
  type := (m.header.destination >>> handleRemoteShift) ||| ptypeTagDontcopy
  session := m.header.session.toInt32
  data := m.buffer

theorem forwardedMessage_body (harborId : ℕ) (m : HarborMsg) :
    forwardedMessage harborId (m.buffer ++ headerToMessage m.header) =
      deliveredMessage harborId m := by
  have hlen : (m.buffer ++ headerToMessage m.header).length - headerCookieLength =
      m.buffer.length := by simp
  simp only [forwardedMessage, localMessage, hlen, drop_left, take_left,
    messageToHeader_headerToMessage, deliveredMessage]

/-- A link over which nothing has been received since it was made: its socket is that of the
slave `id`, which waits for the handshake or, when the harbor was called, for a frame. -/
structure Linked (h : Harbor) (fd id : ℕ) : Prop where
  found : h.findSlave fd = some id
  connected : fd ≠ 0
  size_length : (h.s id).size.length = 4
  read_eq : (h.s id).read = 0
  status_eq : (h.s id).status = .handshake ∨ (h.s id).status = .header

theorem findSlave_eq_some {h : Harbor} {fd id : ℕ} (hfind : h.findSlave fd = some id) :
    id < remoteMax ∧ (h.s id).fd = fd := by
  have hmem := mem_of_find?_eq_some hfind
  have hfd := find?_some hfind
  rw [mem_range'_1] at hmem
  exact ⟨by unfold remoteMax at hmem ⊢; omega, by simpa using hfd⟩

/-- The byte that the peer sends before its frames. -/
def shakehand (status : SlaveStatus) (id : ℕ) : List UInt8 :=
  if status = .handshake then [UInt8.ofNat id] else []

section Stream

variable {refused : List HarborCall → Bool} {h : Harbor} {fd id : ℕ}
  {chunks : List (List UInt8)}

section

variable {h' : Harbor} {out : List (List UInt8)} (hfind : h.findSlave fd = some id)
include hfind

theorem pushSocketData_decodes {p c : List UInt8} (hc : c ≠ []) (hrep : Represents h id h' out p) :
    Decodes cutBody HasCookie (Represents h id) .cookieBounds out (p ++ c)
      (pushSocketData refused h' ⟨fd, c⟩) := by
  rw [pushSocketData, hrep.1.findSlave_eq, hfind]
  exact pushLoop_decodes hrep (.inl hc) (by dsimp only; omega)

theorem pushSocketData_chunks {p : List UInt8} (hchunks : ∀ c ∈ chunks, c ≠ [])
    (hrep : Represents h id h' out p) :
    Decodes cutBody HasCookie (Represents h id) .cookieBounds out (p ++ chunks.flatten)
      (chunks.foldlM (fun h c => pushSocketData refused h ⟨fd, c⟩) h') :=
  .foldlM cutBody_prefixStable (fun _ _ _ _ hc hs => pushSocketData_decodes hfind hc hs) hchunks
    hrep

end

theorem pushSocketData_linked {stream : List UInt8} (hlinked : Linked h fd id)
    (hchunks : ∀ c ∈ chunks, c ≠ [])
    (hstream : chunks.flatten = shakehand (h.s id).status id ++ stream) :
    Decodes cutBody HasCookie (Represents h id) .cookieBounds [] stream
      (chunks.foldlM (fun h c => pushSocketData refused h ⟨fd, c⟩) h) := by
  obtain ⟨hid, hfd⟩ := findSlave_eq_some hlinked.found
  rcases hlinked.status_eq with hstatus | hstatus
  · -- the first piece starts with the id byte
    cases chunks with
    | nil => simp [shakehand, hstatus] at hstream
    | cons c chunks =>
      cases c with
      | nil => exact absurd rfl (hchunks [] (mem_cons_self ..))
      | cons b rest =>
        obtain ⟨rfl, rfl⟩ : b = UInt8.ofNat id ∧ rest ++ chunks.flatten = stream := by
          simpa [shakehand, hstatus] using hstream
        rw [foldlM_cons]
        apply Decodes.bind cutBody_prefixStable
        · rw [pushSocketData, hlinked.found]
          obtain ⟨h', fuel, hfuel, hrep, hheader, hloop⟩ := pushLoop_handshake refused
            (rest.length + 1 + 2) rest hid hstatus (hfd ▸ hlinked.connected)
            hlinked.size_length hlinked.read_eq (by omega)
          dsimp only [length_cons]
          rw [hloop]
          exact pushLoop_decodes hrep (.inr hheader) hfuel
        · intro h' out p hrep
          exact pushSocketData_chunks hlinked.found
            (fun d hd => hchunks d (mem_cons_of_mem _ hd)) hrep
  · have hrep : Represents h id h [] [] :=
      ⟨.refl h, keeps_nil hstatus hlinked.size_length hlinked.read_eq⟩
    have hnone : chunks.flatten = stream := by simpa [shakehand, hstatus] using hstream
    simpa [hnone] using pushSocketData_chunks hlinked.found hchunks hrep

theorem pushSocketData_sent (refused : List HarborCall → Bool) (frames : List HarborMsg)
    (hlinked : Linked h fd id) (hfits : ∀ m ∈ frames, m.buffer.length + headerCookieLength < 2 ^ 24)
    (hchunks : ∀ c ∈ chunks, c ≠ [])
    (hstream : chunks.flatten = shakehand (h.s id).status id ++
      (frames.map fun m => remoteFrame m.buffer m.header).flatten) :
    ∃ h' calls, chunks.foldlM (fun h c => pushSocketData refused h ⟨fd, c⟩) h = .ok h' ∧
      h'.calls = h.calls ++ calls ∧ forwarded calls = frames.map (deliveredMessage h.id) ∧
      (h'.s id).Keeps [] := by
  have hcuts : Cuts cutBody (frames.map fun m => remoteFrame m.buffer m.header).flatten
      (frames.map fun m => m.buffer ++ headerToMessage m.header) [] :=
    cuts_flatten_map fun m hm rest => cutBody_remoteFrame (hfits m hm) rest
  have hgood : ∀ body ∈ frames.map fun m => m.buffer ++ headerToMessage m.header,
      HasCookie body := by
    intro body hbody
    obtain ⟨m, -, rfl⟩ := mem_map.mp hbody
    simp [HasCookie]
  obtain ⟨h', hrun, hdelivers, hkeeps⟩ := (pushSocketData_linked hlinked hchunks hstream).eq_ok
    (fun _ _ _ hrep => hrep.2.cutBody_eq_none) hcuts rfl hgood
  obtain ⟨calls, hcalls, hforwarded⟩ := hdelivers.calls_eq
  refine ⟨h', calls, hrun, hcalls, ?_, hkeeps⟩
  rw [hforwarded, nil_append, map_map]
  apply map_congr_left
  intro m _
  exact forwardedMessage_body h.id m

/-- In whatever non-empty pieces the frames of a sender arrive on a link, behind the id byte
where one is due, `push_socket_data` forwards exactly the messages that were sent, in order,
and ends between two frames. -/
theorem pushSocketData_frames (refused : List HarborCall → Bool) (h : Harbor) (fd id : ℕ)
    (hlinked : Linked h fd id) (frames : List HarborMsg)
    (hfits : ∀ m ∈ frames, m.buffer.length + headerCookieLength < 2 ^ 24)
    (chunks : List (List UInt8)) (hchunks : ∀ c ∈ chunks, c ≠ [])
    (hstream : chunks.flatten = shakehand (h.s id).status id ++
      (frames.map fun m => remoteFrame m.buffer m.header).flatten) :
    ∃ h' calls, chunks.foldlM (fun h c => pushSocketData refused h ⟨fd, c⟩) h = .ok h' ∧
      h'.calls = h.calls ++ calls ∧
      forwarded calls = frames.map (deliveredMessage h.id) ∧
      (h'.s id).status = .header ∧ (h'.s id).read = 0 := by
  obtain ⟨h', calls, hrun, hcalls, hforwarded, hkeeps⟩ :=
    pushSocketData_sent refused frames hlinked hfits hchunks hstream
  exact ⟨h', calls, hrun, hcalls, hforwarded, hkeeps.between_frames⟩

/-- The harbor `self` with a link to `peer` and no other one. -/
def linkHarbor (self peer fd : ℕ) (status : SlaveStatus) : Harbor where
  id := self
  s i :=
    { fd := if i = peer then fd else 0
      queue := none
      status := if i = peer then status else .wait
      length := 0
      read := 0
      size := [0, 0, 0, 0]
      recvBuffer := none }
  calls := []

theorem linkHarbor_linked : Linked (linkHarbor 1 2 5 .handshake) 5 2 where
  found := by decide
  connected := by decide
  size_length := rfl
  read_eq := rfl
  status_eq := .inl rfl

/-- The id byte and two messages, cut inside the length and inside the cookie of the first
one. -/
theorem pushSocketData_frames_linkHarbor : Linked (linkHarbor 1 2 5 .handshake) 5 2 ∧ ∃ h' calls,
      [[2, 0, 0], [0, 13, 65, 2, 0, 0, 7],
        [1, 0, 0, 9, 0, 0, 0, 3, 0, 0, 0, 12, 2, 0, 0, 7, 1, 0, 0, 9, 0, 0, 0, 4]].foldlM
        (fun h c => pushSocketData (fun _ => false) h ⟨5, c⟩)
        (linkHarbor 1 2 5 .handshake) = .ok h' ∧
      h'.calls = [] ++ calls ∧
      forwarded calls = [deliveredMessage 1 ⟨⟨0x2000007, 0x1000009, 3⟩, [65]⟩,
          deliveredMessage 1 ⟨⟨0x2000007, 0x1000009, 4⟩, []⟩] ∧
      (h'.s 2).status = .header ∧ (h'.s 2).read = 0 :=
  ⟨linkHarbor_linked, pushSocketData_frames _ (linkHarbor 1 2 5 .handshake) 5 2 linkHarbor_linked
      [⟨⟨0x2000007, 0x1000009, 3⟩, [65]⟩, ⟨⟨0x2000007, 0x1000009, 4⟩, []⟩] (by decide) _
      (by decide) (by decide)⟩

end Stream

end Uboss.Module
