import Uboss.Module.HarborDecode

/-!
# Sending to another harbor

`remote_send_handle` sends a message to the harbor of its destination: it is queued while the
link is not there and is handed to `send_remote` otherwise. `send_remote` refuses a message
whose length, cookie included, has no room in 32 bits; the receiver closes the link when the
first byte of the length is not zero. The two limits differ.
-/

namespace Uboss.Module

open Math List Nat UInt32

/-- `remote_send_handle`. The second component is its result: whether the message is still in
use. -/
def remoteSendHandle (h : Harbor) (source destination type : UInt32) (session : Int32)
    (msg : List UInt8) : Harbor × Bool :=
  let harborId := (destination >>> handleRemoteShift).toNat
  let s := h.s harborId
  let header : RemoteMessageHeader :=
    { source := source
      destination := (destination &&& handleMask) ||| (type <<< handleRemoteShift)
      session := session.toUInt32 }
  if harborId = h.id then
    (h.call (.ubossSend ⟨source, destination, type ||| ptypeTagDontcopy, session, msg⟩), true)
  else if s.fd = 0 ∨ s.status = .handshake then
    if s.status = .down then
      ((h.call (.ubossSend ⟨destination, source, ptypeError, 0, []⟩)).call
        (.ubossError (.dropMessage harborId source destination session msg.length)), false)
    else
      (h.setSlave harborId { s with queue := some (s.queue.getD [] ++ [⟨header, msg⟩]) }, true)
  else (sendRemote h s.fd msg header, false)

/-- The bytes that a record of calls writes to a socket. A negative size stands for an object
that only its owner can read, and no part of the program registers one. -/
def transmitted (fd : ℕ) (calls : List HarborCall) : List UInt8 := calls.flatMap fun
    | .ubossSocketSend fd' buffer sz => if fd' = fd ∧ 0 ≤ sz then buffer.take sz.toNat else []
    | _ => []

/-- In whatever non-empty pieces the stream arrives over a link, the message and nothing else
is forwarded and the link stays up. -/
def Received (refused : List HarborCall → Bool) (r : Harbor) (fd id : ℕ)
    (stream : List UInt8) (message : UbossSend) : Prop :=
  ∀ chunks : List (List UInt8), (∀ c ∈ chunks, c ≠ []) → chunks.flatten = stream →
    ∃ r' calls, chunks.foldlM (fun h c => pushSocketData refused h ⟨fd, c⟩) r = .ok r' ∧
      r'.calls = r.calls ++ calls ∧ forwarded calls = [message] ∧ (r'.s id).status = .header

section Cookie

theorem toNat_and_handleMask (x : UInt32) : (x &&& handleMask).toNat = x.toNat % 2 ^ 24 := by
  rw [UInt32.toNat_and]
  exact and_two_pow_sub_one_eq_mod x.toNat 24

theorem toNat_or_shiftLeft {x y : UInt32} (hy : y.toNat < 256) :
    ((x &&& handleMask) ||| (y <<< handleRemoteShift)).toNat =
      y.toNat * 2 ^ 24 + x.toNat % 2 ^ 24 := by
  have hshift : (y <<< handleRemoteShift).toNat = y.toNat * 2 ^ 24 := by
    have hmod := UInt32.toNat_shiftLeft y handleRemoteShift
    rw [shiftLeft_eq] at hmod
    exact hmod.trans (mod_eq_of_lt (show y.toNat * 2 ^ 24 < 2 ^ 32 by omega))
  rw [UInt32.toNat_or, toNat_and_handleMask, hshift, Nat.or_comm]
  exact or_eq_add 24 (by omega) (by omega)

theorem toNat_shiftRight_handleRemoteShift (x : UInt32) :
    (x >>> handleRemoteShift).toNat = x.toNat / 2 ^ 24 := by
  rw [UInt32.toNat_shiftRight, shiftRight_eq_div_pow]
  rfl

/-- The cookie carries the type and the low bits of the destination, and the receiver fills in
its own id. -/
theorem deliveredMessage_cookie (source destination : UInt32) {type : UInt32} (session : Int32)
    (msg : List UInt8) (htype : type.toNat < 256) :
    deliveredMessage (destination >>> handleRemoteShift).toNat
      ⟨⟨source, (destination &&& handleMask) ||| (type <<< handleRemoteShift),
        session.toUInt32⟩, msg⟩ =
      ⟨source, destination, type ||| ptypeTagDontcopy, session, msg⟩ := by
  have hlt := destination.toNat_lt
  have hcookie := toNat_or_shiftLeft (x := destination) htype
  have htypeEq : ((destination &&& handleMask) ||| (type <<< handleRemoteShift)) >>>
      handleRemoteShift = type := by
    apply toNat.inj
    rw [toNat_shiftRight_handleRemoteShift, hcookie]
    omega
  have hdestination : (((destination &&& handleMask) ||| (type <<< handleRemoteShift)) &&&
      handleMask) ||| ((destination >>> handleRemoteShift) <<< handleRemoteShift) =
      destination := by
    have hhigh := toNat_shiftRight_handleRemoteShift destination
    apply toNat.inj
    rw [toNat_or_shiftLeft (by omega), hcookie, hhigh]
    omega
  simp only [deliveredMessage, UInt32.ofNat_toNat, htypeEq, hdestination]
  rfl

end Cookie

section Link

variable {refused : List HarborCall → Bool} {r : Harbor} {fd id : ℕ} {c : List UInt8}

theorem pushSocketData_short (refused : List HarborCall → Bool) (hlinked : Linked r fd id)
    (hstatus : (r.s id).status = .header)
    (hlen : c.length < 4) :
    ∃ r', pushSocketData refused r ⟨fd, c⟩ = .ok r' ∧ r'.calls = r.calls := by
  rw [pushSocketData, hlinked.found]
  dsimp only
  rw [pushLoop, hstatus]
  dsimp only
  obtain ⟨_, -, -, hpush⟩ := pushHeader_part refused (pushLoop refused id (c.length + 1))
    hlinked.size_length (by rw [hlinked.read_eq]; exact hlen)
  rw [hpush]
  exact ⟨_, rfl, rfl⟩

theorem pushSocketData_tooLong (refused : List HarborCall → Bool) (hlinked : Linked r fd id)
    (hstatus : (r.s id).status = .header)
    (hlen : 4 ≤ c.length) (hlong : c.getD 0 0 ≠ 0) :
    ∃ r', pushSocketData refused r ⟨fd, c⟩ = .ok r' ∧ (r'.s id).status = .down ∧
      r'.calls = r.calls ++ [.ubossError (.messageTooLong id), .ubossSocketClose fd] := by
  obtain ⟨-, hfd⟩ := findSlave_eq_some hlinked.found
  rw [pushSocketData, hlinked.found]
  dsimp only
  rw [pushLoop, hstatus]
  dsimp only
  obtain ⟨size, rest, hsize, hstream, -, hpush⟩ := pushHeader_full refused
    (pushLoop refused id (c.length + 1)) hlinked.size_length (hlinked.read_eq.trans_le (by decide))
    (by rw [hlinked.read_eq]; exact Nat.not_lt.mpr hlen)
  rw [hlinked.read_eq, take_zero, nil_append] at hstream
  rw [← hstream, getD_append _ _ _ _ (by omega)] at hlong
  rw [hpush, if_pos hlong]
  refine ⟨_, rfl, ?_, ?_⟩
  · simp [closeHarbor, Harbor.call, Harbor.setSlave, hfd, hlinked.connected]
  · simp [closeHarbor, Harbor.call, Harbor.setSlave, hfd, hlinked.connected]

theorem Received.single {stream : List UInt8} {message : UbossSend}
    (h : Received refused r fd id stream message) (hne : stream ≠ []) :
    ∃ r' calls, pushSocketData refused r ⟨fd, stream⟩ = .ok r' ∧
      r'.calls = r.calls ++ calls ∧ forwarded calls = [message] ∧
      (r'.s id).status = .header := by
  obtain ⟨r', calls, hrun, hrest⟩ := h [stream] (by simpa using hne) (by simp)
  refine ⟨r', calls, ?_, hrest⟩
  rw [foldlM_cons] at hrun
  cases hpush : pushSocketData refused r ⟨fd, stream⟩ with
  | error fault => simp [hpush, bind, Except.bind] at hrun
  | ok r'' => simpa [hpush, bind, Except.bind, pure, Except.pure] using hrun

variable {stream : List UInt8} {message : UbossSend} (hlinked : Linked r fd id)
  (hstatus : (r.s id).status = .header)
include hlinked hstatus

theorem not_received_short (hlen : stream.length < 4) :
    ¬ Received refused r fd id stream message := by
  intro hreceived
  by_cases hne : stream = []
  · obtain ⟨r', calls, hrun, hcalls, hforwarded, -⟩ := hreceived [] (by simp) (by simp [hne])
    obtain rfl : r = r' := by simpa [pure, Except.pure] using hrun
    obtain rfl : calls = [] := by simpa using hcalls
    simp [forwarded] at hforwarded
  · obtain ⟨r', calls, hpush, hcalls, hforwarded, -⟩ := hreceived.single hne
    obtain ⟨r'', hpush', hcalls'⟩ := pushSocketData_short refused hlinked hstatus hlen
    obtain rfl : r' = r'' := by simpa [hpush] using hpush'
    obtain rfl : calls = [] := by simpa [hcalls] using hcalls'
    simp [forwarded] at hforwarded

theorem not_received_tooLong (hlen : 4 ≤ stream.length) (hlong : stream.getD 0 0 ≠ 0) :
    ¬ Received refused r fd id stream message := by
  intro hreceived
  have hne : stream ≠ [] := by
    rintro rfl
    simp at hlen
  obtain ⟨r', calls, hpush, -, -, hup⟩ := hreceived.single hne
  obtain ⟨r'', hpush', hdown, -⟩ := pushSocketData_tooLong refused hlinked hstatus hlen hlong
  obtain rfl : r' = r'' := by simpa [hpush] using hpush'
  simp [hup] at hdown

end Link

section Limits

/-- `remote_send_handle` hands a message to `send_remote`, which accepts it. -/
structure Accepted (h : Harbor) (destination : UInt32) (msg : List UInt8) : Prop where
  remote : (destination >>> handleRemoteShift).toNat ≠ h.id
  connected : (h.s (destination >>> handleRemoteShift).toNat).fd ≠ 0
  greeted : (h.s (destination >>> handleRemoteShift).toNat).status ≠ .handshake
  size_le : msg.length + headerCookieLength ≤ uint32Max

/-- The bytes that `remote_send_handle` lets the socket layer write for a message. -/
def sentBytes (h : Harbor) (source destination type : UInt32) (session : Int32)
    (msg : List UInt8) : List UInt8 :=
  transmitted (h.s (destination >>> handleRemoteShift).toNat).fd
    ((remoteSendHandle h source destination type session msg).1.calls.drop h.calls.length)

variable {h : Harbor} {source destination type : UInt32} {session : Int32} {msg : List UInt8}

section

variable (haccepted : Accepted h destination msg)
include haccepted

theorem Accepted.sentBytes_eq : sentBytes h source destination type session msg =
      if 0 ≤ Int.bmod (msg.length + headerCookieLength + 4) (2 ^ 32) then
        (remoteFrame msg ⟨source,
          (destination &&& handleMask) ||| (type <<< handleRemoteShift), session.toUInt32⟩).take
          (Int.bmod (msg.length + headerCookieLength + 4) (2 ^ 32)).toNat
      else [] := by
  have hcalls : (remoteSendHandle h source destination type session msg).1.calls = h.calls ++
      [.ubossSocketSend (h.s (destination >>> handleRemoteShift).toNat).fd
        (remoteFrame msg ⟨source, (destination &&& handleMask) ||| (type <<< handleRemoteShift),
          session.toUInt32⟩)
        (Int.bmod (msg.length + headerCookieLength + 4) (2 ^ 32))] := by
    rw [remoteSendHandle, if_neg haccepted.remote,
      if_neg (not_or.mpr ⟨haccepted.connected, haccepted.greeted⟩), sendRemote,
      if_neg (Nat.not_lt.mpr haccepted.size_le)]
    rfl
  rw [sentBytes, hcalls, drop_left]
  simp [transmitted]

/-- A message whose size is a positive `int` is written as a whole. -/
theorem Accepted.sentBytes_of_lt (hlt : msg.length + headerCookieLength + 4 < 2 ^ 31) :
    sentBytes h source destination type session msg = remoteFrame msg ⟨source,
        (destination &&& handleMask) ||| (type <<< handleRemoteShift), session.toUInt32⟩ := by
  have hsize : Int.bmod (msg.length + headerCookieLength + 4) (2 ^ 32) =
      msg.length + headerCookieLength + 4 := by
    apply Int.bmod_eq_of_le <;> omega
  rw [haccepted.sentBytes_eq, hsize, if_pos (by omega)]
  apply take_of_length_le
  rw [length_remoteFrame]
  omega

theorem Accepted.sentBytes_of_le (hle : 2 ^ 31 ≤ msg.length + headerCookieLength + 4) :
    (sentBytes h source destination type session msg).length < 4 := by
  have hmax := haccepted.size_le
  unfold uint32Max at hmax
  rw [haccepted.sentBytes_eq]
  split
  · rename_i hnonneg
    have hsmall : Int.bmod (msg.length + headerCookieLength + 4) (2 ^ 32) < 4 := by
      rw [Int.bmod_def] at hnonneg ⊢
      split at hnonneg <;> split <;> omega
    rw [length_take]
    omega
  · simp

end

/-- The first byte of the length of a message with more than 24 bits of length. -/
theorem remoteFrame_getD_zero {cookie : RemoteMessageHeader}
    (hlong : 2 ^ 24 ≤ msg.length + headerCookieLength)
    (hmax : msg.length + headerCookieLength ≤ uint32Max) :
    (remoteFrame msg cookie).getD 0 0 ≠ 0 := by
  have hvalue := toBigendian_frameLength _ hmax
  have hlow := frameLength_lt (toBigendian (ofNat (msg.length + headerCookieLength)))
  rw [remoteFrame, append_assoc, getD_append _ _ _ _ (by simp)]
  intro hzero
  rw [hzero, UInt8.toNat_zero] at hvalue
  omega

/-- What the sender accepts reaches its destination unchanged exactly when its length, cookie
included, has no more than 24 bits. A larger message takes the link down, or is not even
written. -/
theorem remoteSendHandle_received_iff (refused : List HarborCall → Bool) (h r : Harbor)
    (source destination type : UInt32) (session : Int32) (msg : List UInt8) (fd id : ℕ)
    (haccepted : Accepted h destination msg) (htype : type.toNat < 256)
    (hpeer : r.id = (destination >>> handleRemoteShift).toNat) (hlinked : Linked r fd id)
    (hstatus : (r.s id).status = .header) :
    Received refused r fd id (sentBytes h source destination type session msg)
        ⟨source, destination, type ||| ptypeTagDontcopy, session, msg⟩ ↔
      msg.length + headerCookieLength < 2 ^ 24 := by
  constructor
  · intro hreceived
    by_contra hlong
    by_cases hint : msg.length + headerCookieLength + 4 < 2 ^ 31
    · rw [haccepted.sentBytes_of_lt hint] at hreceived
      exact not_received_tooLong hlinked hstatus (by rw [length_remoteFrame]; omega)
        (remoteFrame_getD_zero (by omega) haccepted.size_le) hreceived
    · exact not_received_short hlinked hstatus (haccepted.sentBytes_of_le (by omega)) hreceived
  · intro hfits chunks hchunks hstream
    rw [haccepted.sentBytes_of_lt (by omega)] at hstream
    obtain ⟨r', calls, hrun, hcalls, hforwarded, hkeeps⟩ :=
      pushSocketData_sent refused [⟨_, msg⟩] hlinked (by simpa using hfits) hchunks
        (by simpa [shakehand, hstatus] using hstream)
    refine ⟨r', calls, hrun, hcalls, ?_, hkeeps.between_frames.1⟩
    rw [hforwarded, hpeer]
    exact congrArg (fun m => [m]) (deliveredMessage_cookie source destination session msg htype)

theorem linkHarbor_accepted (hlen : msg.length + headerCookieLength ≤ uint32Max) :
    Accepted (linkHarbor 1 2 5 .header) 0x2000009 msg where
  remote := by decide
  connected := by decide
  greeted := by decide
  size_le := hlen

theorem linkHarbor_linked_peer : Linked (linkHarbor 2 1 6 .header) 6 1 where
  found := by decide
  connected := by decide
  size_length := rfl
  read_eq := rfl
  status_eq := .inr rfl

/-- A short message from harbor 1 to harbor 2. -/
theorem remoteSendHandle_received_iff_short :
    Received (fun _ => false) (linkHarbor 2 1 6 .header) 6 1
        (sentBytes (linkHarbor 1 2 5 .header) 0x1000003 0x2000009 0 8 [1, 2, 3])
        ⟨0x1000003, 0x2000009, 0 ||| ptypeTagDontcopy, 8, [1, 2, 3]⟩ ↔
      [1, 2, 3].length + headerCookieLength < 2 ^ 24 :=
  remoteSendHandle_received_iff _ _ _ _ _ _ _ _ 6 1 (linkHarbor_accepted (by decide)) (by decide)
    (by decide) linkHarbor_linked_peer (by decide)

/-- The shortest message that takes the link down. -/
def longMessage : List UInt8 := List.replicate (2 ^ 24 - 12) 0

theorem longMessage_not_received : Accepted (linkHarbor 1 2 5 .header) 0x2000009 longMessage ∧
      ¬ Received (fun _ => false) (linkHarbor 2 1 6 .header) 6 1
        (sentBytes (linkHarbor 1 2 5 .header) 0x1000003 0x2000009 0 8 longMessage)
        ⟨0x1000003, 0x2000009, 0 ||| ptypeTagDontcopy, 8, longMessage⟩ ∧
      ∃ r', pushSocketData (fun _ => false) (linkHarbor 2 1 6 .header)
          ⟨6, sentBytes (linkHarbor 1 2 5 .header) 0x1000003 0x2000009 0 8 longMessage⟩ = .ok r' ∧
        (r'.s 1).status = .down ∧
        r'.calls = [.ubossError (.messageTooLong 1), .ubossSocketClose 6] := by
  have hlen : longMessage.length + headerCookieLength = 2 ^ 24 := by
    rw [longMessage, List.length_replicate]
    decide
  have hmax : longMessage.length + headerCookieLength ≤ uint32Max := by
    rw [hlen]
    decide
  have haccepted := linkHarbor_accepted hmax
  have hlong (cookie : RemoteMessageHeader) : (remoteFrame longMessage cookie).getD 0 0 ≠ 0 :=
    remoteFrame_getD_zero hlen.ge hmax
  have hfour (cookie : RemoteMessageHeader) : 4 ≤ (remoteFrame longMessage cookie).length := by
    rw [length_remoteFrame]
    omega
  rw [haccepted.sentBytes_of_lt (by omega)]
  exact ⟨haccepted, not_received_tooLong linkHarbor_linked_peer rfl (hfour _) (hlong _),
    pushSocketData_tooLong _ linkHarbor_linked_peer rfl (hfour _) (hlong _)⟩

end Limits

end Uboss.Module
