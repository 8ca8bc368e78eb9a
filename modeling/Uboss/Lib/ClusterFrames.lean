import Uboss.Lib.ClusterCore
import Uboss.Lib.NetpackFrames

/-!
# The frames of a message

What the packages of `lua-cluster.c` are, read by the other side.
-/

namespace Uboss.Lib

open Math List Nat UInt8

/-! ### Words and lengths -/

@[simp] theorem length_fillUint32 (n : UInt32) : (fillUint32 n).length = 4 := length_leBytes

/-- A word is read back. -/
theorem unpackUint32_fillUint32 (n : UInt32) (rest : List UInt8) :
    unpackUint32 (fillUint32 n ++ rest) = n := by
  have htake : (fillUint32 n ++ rest).take 4 = leBytes 4 n.toNat := rfl
  rw [unpackUint32, htake, leNat_leBytes_of_lt n.toNat_lt, UInt32.ofNat_toNat]

theorem fillHeader_ok (body : List UInt8) (sz : ℕ) (hsz : sz < 0x10000) (hlen : body.length = sz) :
    ∃ header, fillHeader sz = .ok header ∧ lpack body = some (header ++ body) := by
  subst hlen
  exact ⟨_, if_pos hsz, if_neg (Nat.not_le.mpr hsz)⟩

theorem drop_of_lpack {body f : List UInt8} (h : lpack body = some f) : f.drop 2 = body := by
  unfold lpack at h
  split_ifs at h
  cases h
  rfl

/-- The length of the frame is that of its contents. -/
def IsFrame (f : Frame) : Prop := lpack (f.drop 2) = some f

theorem isFrame_of_lpack {body f : List UInt8} (h : lpack body = some f) : IsFrame f := by
  rw [IsFrame, drop_of_lpack h, h]

/-- Frames are the packets of their stream. -/
theorem packets_frames {l : List Frame} (hl : ∀ f ∈ l, IsFrame f) :
    packets l.flatten = l.map (List.drop 2) := by
  have hcuts : Cuts cutPacket l.flatten (l.map (List.drop 2)) [] := by
    induction l with
    | nil => exact .nil []
    | cons f l ih =>
      rw [flatten_cons, map_cons]
      exact .cons (cutPacket_lpack (hl f mem_cons_self) _)
        (ih fun g hg => hl g (mem_cons_of_mem f hg))
  exact (packets_eq hcuts rfl).1

/-! ### Parts -/

/-- The frames of the parts of a message. -/
inductive Parts (pack : Bool → List UInt8 → List UInt8) : List UInt8 → List Frame → Prop
  | last {msg : List UInt8} {f : Frame} :
      msg.length ≤ multiPart → lpack (pack false msg) = some f → Parts pack msg [f]
  | more {msg : List UInt8} {f : Frame} {fs : List Frame} :
      multiPart < msg.length → lpack (pack true (msg.take multiPart)) = some f →
      Parts pack (msg.drop multiPart) fs → Parts pack msg (f :: fs)

variable {pack : Bool → List UInt8 → List UInt8} {msg : List UInt8}

theorem partCount_of_lt {n : ℕ} (h : multiPart < n) :
    partCount n = partCount (n - multiPart) + 1 := by
  unfold partCount multiPart at *
  omega

theorem partCount_of_le {n : ℕ} (h : n ≤ multiPart) : partCount n = 1 := by
  unfold partCount multiPart at *
  omega

/-- The loop over the parts makes these frames. -/
theorem packMulti_parts (msg : List UInt8) (pack : Bool → List UInt8 → List UInt8)
    (hpack : ∀ more part, (pack more part).length = part.length + 5) :
    ∃ fs, packMulti pack (partCount msg.length) msg = .ok fs ∧ Parts pack msg fs := by
  induction hn : msg.length using Nat.strong_induction_on generalizing msg with
  | _ n ih =>
    subst hn
    by_cases hmore : multiPart < msg.length
    · obtain ⟨fs, hfs, hparts⟩ := ih (msg.length - multiPart)
        (sub_lt (zero_lt_of_lt hmore) (by decide)) (msg.drop multiPart) length_drop
      obtain ⟨header, hheader, hframe⟩ := fillHeader_ok (pack true (msg.take multiPart))
        (multiPart + 5) (by decide) (by
          rw [hpack, length_take, Nat.min_eq_left hmore.le])
      refine ⟨_, ?_, .more hmore hframe hparts⟩
      rw [partCount_of_lt hmore, packMulti, if_pos hmore, hheader, hfs]
      rfl
    · have hle : msg.length ≤ multiPart := not_lt.mp hmore
      obtain ⟨header, hheader, hframe⟩ := fillHeader_ok (pack false msg) (msg.length + 5)
        (by unfold multiPart at hle; omega) (hpack false msg)
      refine ⟨_, ?_, .last hle hframe⟩
      rw [partCount_of_le hle, packMulti, if_neg hmore, hheader]
      rfl

theorem Parts.isFrame {fs : List Frame} (h : Parts pack msg fs) : ∀ f ∈ fs, IsFrame f := by
  induction h with
  | last _ hf => simpa using isFrame_of_lpack hf
  | more _ hf _ ih => exact forall_mem_cons.mpr ⟨isFrame_of_lpack hf, ih⟩

/-! ### Requests -/

/-- What `lpackrequest` is given. -/
structure ClusterRequest where
  addr : ClusterAddress
  session : Int32
  msg : List UInt8

/-- A number, or a name that its length byte can describe. -/
def ClusterAddress.Valid : ClusterAddress → Prop
  | .id _ => True
  | .name bytes => 1 ≤ bytes.length ∧ bytes.length ≤ 255

namespace ClusterRequest

/-- A request that can be made. -/
structure Valid (r : ClusterRequest) : Prop where
  addr : r.addr.Valid
  session : 0 < r.session
  size : r.msg.length ≤ 2 ^ 31 - 1

/-- The frames of a request, in the order in which `channel:request` writes them. -/
def frames (r : ClusterRequest) : Except ClusterError (List Frame) :=
  (lpackrequest r.addr r.session r.msg).map fun result => result.1 :: result.2.2

/-- The package of a part of a request. -/
def packPart (session : Int32) (more : Bool) (part : List UInt8) : List UInt8 :=
  (if more then 2 else 3) :: (fillUint32 session.toUInt32 ++ part)

/-- The frames of a request, as they are read. -/
inductive Frames (r : ClusterRequest) : List Frame → Prop
  | small {f : Frame} :
      IsFrame f →
      lunpackrequest (f.drop 2) = .ok ⟨some r.addr, r.session.toUInt32, .bytes r.msg, false⟩ →
      Frames r [f]
  | large {f : Frame} {fs : List Frame} :
      IsFrame f →
      lunpackrequest (f.drop 2) =
        .ok ⟨some r.addr, r.session.toUInt32, .size (UInt32.ofNat r.msg.length), true⟩ →
      Parts (packPart r.session) r.msg fs →
      Frames r (f :: fs)

theorem Frames.isFrame {r : ClusterRequest} {fs : List Frame} (h : Frames r fs) :
    ∀ f ∈ fs, IsFrame f := by
  cases h with
  | small hf _ => simpa using hf
  | large hf _ hparts => exact forall_mem_cons.mpr ⟨hf, hparts.isFrame⟩

end ClusterRequest

section Unpack

variable (addr session : UInt32) (name msg : List UInt8)

theorem lunpackrequest_part (session : Int32) (more : Bool) (part : List UInt8) :
    lunpackrequest (ClusterRequest.packPart session more part) =
      .ok ⟨none, session.toUInt32, .bytes part, more⟩ := by
  have hsession := unpackUint32_fillUint32 session.toUInt32 part
  have hlen : ¬ (fillUint32 session.toUInt32 ++ part).length + 1 < 5 := by
    rw [length_append, length_fillUint32]
    omega
  cases more with
  | false =>
    change unpackmreqPart (3 :: (fillUint32 session.toUInt32 ++ part)) = _
    rw [unpackmreqPart, length_cons, if_neg hlen, drop_one, tail_cons, hsession]
    rfl
  | true =>
    change unpackmreqPart (2 :: (fillUint32 session.toUInt32 ++ part)) = _
    rw [unpackmreqPart, length_cons, if_neg hlen, drop_one, tail_cons, hsession]
    rfl

theorem lunpackrequest_number :
    lunpackrequest (0 :: (fillUint32 addr ++ fillUint32 session ++ msg)) =
      .ok ⟨some (.id addr), session, .bytes msg, false⟩ := by
  have haddr := unpackUint32_fillUint32 addr (fillUint32 session ++ msg)
  have hsession := unpackUint32_fillUint32 session msg
  rw [append_assoc]
  change unpackreqNumber (0 :: (fillUint32 addr ++ (fillUint32 session ++ msg))) = _
  rw [unpackreqNumber, if_neg (by simp; omega)]
  change Except.ok (UnpackedRequest.mk (some (.id (unpackUint32
    (fillUint32 addr ++ (fillUint32 session ++ msg))))) (unpackUint32 (fillUint32 session ++ msg))
    (.bytes msg) false) = _
  rw [haddr, hsession]

theorem lunpackrequest_multiNumber (size : UInt32) :
    lunpackrequest (1 :: (fillUint32 addr ++ fillUint32 session ++ fillUint32 size)) =
      .ok ⟨some (.id addr), session, .size size, true⟩ := by
  have haddr := unpackUint32_fillUint32 addr (fillUint32 session ++ fillUint32 size)
  have hsession := unpackUint32_fillUint32 session (fillUint32 size)
  have hsize := unpackUint32_fillUint32 size []
  rw [append_nil] at hsize
  rw [append_assoc]
  change unpackmreqNumber (1 :: (fillUint32 addr ++ (fillUint32 session ++ fillUint32 size))) = _
  rw [unpackmreqNumber, if_neg (by simp)]
  change Except.ok (UnpackedRequest.mk (some (.id (unpackUint32
    (fillUint32 addr ++ (fillUint32 session ++ fillUint32 size)))))
    (unpackUint32 (fillUint32 session ++ fillUint32 size))
    (.size (unpackUint32 (fillUint32 size))) true) = _
  rw [haddr, hsession, hsize]

theorem toNat_nameLength (hname : name.length ≤ 255) : (ofNat name.length).toNat = name.length := by
  rw [toNat_ofNat']
  omega

theorem drop_name (a b : UInt8) (name rest : List UInt8) (k : ℕ) :
    (a :: b :: (name ++ rest)).drop (k + name.length + 2) = rest.drop k := by
  rw [drop_succ_cons, drop_succ_cons, Nat.add_comm, ← drop_drop, drop_left]

theorem lunpackrequest_string (hname : name.length ≤ 255) :
    lunpackrequest (0x80 :: ofNat name.length :: (name ++ fillUint32 session ++ msg)) =
      .ok ⟨some (.name name), session, .bytes msg, false⟩ := by
  have hlen := toNat_nameLength name hname
  have hsession := unpackUint32_fillUint32 session msg
  have hmsg : (fillUint32 session ++ msg).drop 4 = msg := rfl
  rw [append_assoc]
  generalize hrest : fillUint32 session ++ msg = rest at hsession hmsg
  have hlength : rest.length = 4 + msg.length := by
    rw [← hrest, length_append, length_fillUint32]
  change unpackreqString (0x80 :: ofNat name.length :: (name ++ rest)) = _
  rw [unpackreqString, getD_cons_succ, getD_cons_zero, hlen]
  rw [if_neg (by simp only [length_cons, length_append, hlength]; omega)]
  have hdrop := drop_name 0x80 (ofNat name.length) name rest
  rw [show name.length + 2 = 0 + name.length + 2 by omega, hdrop, drop_zero, hsession,
    show 2 + name.length + 4 = 4 + name.length + 2 by omega, hdrop, hmsg, drop_succ_cons,
    drop_succ_cons, drop_zero, take_left]

theorem lunpackrequest_multiString (size : UInt32) (hname : name.length ≤ 255) :
    lunpackrequest (0x81 :: ofNat name.length :: (name ++ fillUint32 session ++ fillUint32 size)) =
      .ok ⟨some (.name name), session, .size size, true⟩ := by
  have hlen := toNat_nameLength name hname
  have hsession := unpackUint32_fillUint32 session (fillUint32 size)
  have hsize : unpackUint32 ((fillUint32 session ++ fillUint32 size).drop 4) = size := by
    have hdrop : (fillUint32 session ++ fillUint32 size).drop 4 = fillUint32 size ++ [] := rfl
    rw [hdrop, unpackUint32_fillUint32]
  rw [append_assoc]
  generalize hrest : fillUint32 session ++ fillUint32 size = rest at hsession hsize
  have hlength : rest.length = 8 := by
    rw [← hrest, length_append, length_fillUint32, length_fillUint32]
  change unpackmreqString (0x81 :: ofNat name.length :: (name ++ rest)) = _
  rw [unpackmreqString, getD_cons_succ, getD_cons_zero, hlen]
  rw [if_neg (by simp only [length_cons, length_append, hlength]; omega)]
  have hdrop := drop_name 0x81 (ofNat name.length) name rest
  rw [show name.length + 6 = 4 + name.length + 2 by omega, hdrop, hsize,
    show name.length + 2 = 0 + name.length + 2 by omega, hdrop, drop_zero, hsession,
    drop_succ_cons, drop_succ_cons, drop_zero, take_left]

end Unpack

/-- The first frame of a request, as it is read, and the number of those that follow. -/
inductive ClusterRequest.First (r : ClusterRequest) : Frame → ℕ → Prop
  | small {f : Frame} :
      IsFrame f →
      lunpackrequest (f.drop 2) = .ok ⟨some r.addr, r.session.toUInt32, .bytes r.msg, false⟩ →
      First r f 0
  | large {f : Frame} :
      IsFrame f →
      lunpackrequest (f.drop 2) =
        .ok ⟨some r.addr, r.session.toUInt32, .size (UInt32.ofNat r.msg.length), true⟩ →
      First r f (partCount r.msg.length)

theorem packreqNumber_first (addr : UInt32) (session : Int32) (msg : List UInt8) :
    ∃ f n, packreqNumber addr session msg = .ok (f, n) ∧
      ClusterRequest.First ⟨.id addr, session, msg⟩ f n := by
  by_cases hsmall : msg.length < multiPart
  · obtain ⟨header, hheader, hframe⟩ := fillHeader_ok
      (0 :: (fillUint32 addr ++ fillUint32 session.toUInt32 ++ msg)) (msg.length + 9)
      (by unfold multiPart at hsmall; omega) (by simp; omega)
    refine ⟨_, 0, ?_, .small (isFrame_of_lpack hframe) ?_⟩
    · rw [packreqNumber, if_pos hsmall, hheader]
      rfl
    · rw [drop_of_lpack hframe, lunpackrequest_number]
  · obtain ⟨header, hheader, hframe⟩ := fillHeader_ok
      (1 :: (fillUint32 addr ++ fillUint32 session.toUInt32 ++
        fillUint32 (UInt32.ofNat msg.length))) 13 (by decide) (by simp)
    refine ⟨_, _, ?_, .large (isFrame_of_lpack hframe) ?_⟩
    · rw [packreqNumber, if_neg hsmall, hheader]
      rfl
    · rw [drop_of_lpack hframe, lunpackrequest_multiNumber]

theorem packreqString_first {name : List UInt8} (hname : 1 ≤ name.length ∧ name.length ≤ 255)
    (session : Int32) (msg : List UInt8) :
    ∃ f n, packreqString name session msg = .ok (f, n) ∧
      ClusterRequest.First ⟨.name name, session, msg⟩ f n := by
  have hvalid : ¬ (name.length < 1 ∨ 255 < name.length) := by omega
  by_cases hsmall : msg.length < multiPart
  · obtain ⟨header, hheader, hframe⟩ := fillHeader_ok
      (0x80 :: ofNat name.length :: (name ++ fillUint32 session.toUInt32 ++ msg))
      (msg.length + 6 + name.length)
      (by unfold multiPart at hsmall; omega) (by simp; omega)
    refine ⟨_, 0, ?_, .small (isFrame_of_lpack hframe) ?_⟩
    · rw [packreqString, if_neg hvalid, if_pos hsmall, hheader]
      rfl
    · rw [drop_of_lpack hframe, lunpackrequest_string _ _ _ hname.2]
  · obtain ⟨header, hheader, hframe⟩ := fillHeader_ok
      (0x81 :: ofNat name.length :: (name ++ fillUint32 session.toUInt32 ++
        fillUint32 (UInt32.ofNat msg.length))) (10 + name.length) (by omega) (by simp; omega)
    refine ⟨_, _, ?_, .large (isFrame_of_lpack hframe) ?_⟩
    · rw [packreqString, if_neg hvalid, if_neg hsmall, hheader]
      rfl
    · rw [drop_of_lpack hframe, lunpackrequest_multiString _ _ _ hname.2]

theorem ClusterRequest.frames_ok {r : ClusterRequest} (hr : r.Valid) :
    ∃ fs, r.frames = .ok fs ∧ r.Frames fs := by
  have hsize := hr.size
  have hmsg : r.msg.take (r.msg.length % 2 ^ 32) = r.msg := by
    rw [mod_eq_of_lt (by omega), take_length]
  have hsession : ¬ r.session ≤ 0 := Int32.not_le.mpr hr.session
  obtain ⟨f, n, hpack, hfirst⟩ :
      ∃ f n, packreqFirst r.session r.msg r.addr = .ok (f, n) ∧ r.First f n := by
    have hvalid := hr.addr
    obtain ⟨addr, session, msg⟩ := r
    cases addr with
    | id addr => exact packreqNumber_first addr session msg
    | name name => exact packreqString_first hvalid session msg
  rw [frames, lpackrequest, hmsg]
  simp only [if_neg hsession, hpack]
  cases hfirst with
  | small hf hunpack => exact ⟨[f], rfl, .small hf hunpack⟩
  | large hf hunpack =>
    obtain ⟨parts, hparts, hfs⟩ := packMulti_parts r.msg (packPart r.session) fun more part => by
        rw [packPart, length_cons, length_append, length_fillUint32]
        omega
    have hmulti : packreqMulti r.session (partCount r.msg.length) r.msg = .ok parts := hparts
    refine ⟨f :: parts, ?_, .large hf hunpack hfs⟩
    simp only [bind, Except.bind, hmulti]
    rfl

/-! ### Large messages -/

theorem concatLoop_bytes {sz : ℕ} {buff : List UInt8} {strs : List (List UInt8)}
    (hsz : (buff ++ strs.flatten).length = sz) :
    concatLoop sz buff (strs.map .bytes) = some (buff ++ strs.flatten) := by
  induction strs generalizing buff with
  | nil =>
    rw [flatten_nil, append_nil] at hsz ⊢
    exact if_pos hsz
  | cons str strs ih =>
    rw [flatten_cons, ← append_assoc] at hsz ⊢
    rw [map_cons, concatLoop, if_neg, ih hsz]
    simp only [length_append] at hsz
    omega

/-- The parts of a message are put together again. -/
theorem lconcat_bytes (msg : List UInt8) (strs : List (List UInt8)) (hlen : msg.length < 2 ^ 31)
    (hmsg : strs.flatten = msg) :
    lconcat (.size (UInt32.ofNat msg.length) :: strs.map .bytes) = .ok (some msg) := by
  have hsz : (UInt32.ofNat msg.length).toNat = msg.length := by
    rw [UInt32.toNat_ofNat']
    omega
  rw [lconcat, hsz, if_pos hlen, concatLoop_bytes (by rw [nil_append, hmsg]), nil_append, hmsg]

end Uboss.Lib
