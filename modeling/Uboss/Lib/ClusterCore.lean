import Uboss.Lib.Netpack
import Uboss.Math.LittleEndian

/-!
# Packages between clusters

`lua-cluster.c`. A frame has its length in front, which is read by the gate of the other side or by
`read_response`; what is unpacked is the rest. Words are stored with the lowest byte first, the
length with the highest.
-/

namespace Uboss.Lib

open Math

def multiPart : ℕ := 0x8000

/-- A frame, with its length. -/
abbrev Frame := List UInt8

/-- `uint32_t/string addr`. -/
inductive ClusterAddress
  | id (addr : UInt32)
  | name (bytes : List UInt8)
  deriving DecidableEq, Repr

inductive ClusterError
  /-- `assert(sz < 0x10000)` fails. -/
  | assertHeader
  /-- `Invalid request session %d`. -/
  | invalidSession (session : Int32)
  /-- `name is too long %s`. -/
  | nameTooLong
  /-- `Invalid cluster message (size=%d)`. -/
  | invalidMessage (sz : ℕ)
  /-- `Invalid cluster message size %d (multi req must be 13)`. -/
  | invalidMulti (sz : ℕ)
  /-- `Invalid cluster multi part message`. -/
  | invalidPart
  /-- `Invalid req package type %d`. -/
  | invalidType (type : UInt8)
  /-- The size of the block is not an `int`, and what `uboss_malloc` is asked for does not exist. -/
  | invalidBlock (sz : ℕ)
  deriving DecidableEq, Repr

def fillUint32 (n : UInt32) : List UInt8 := leBytes 4 n.toNat

def fillHeader (sz : ℕ) : Except ClusterError (List UInt8) :=
  if sz < 0x10000 then .ok [UInt8.ofNat (sz >>> 8 &&& 0xff), UInt8.ofNat (sz &&& 0xff)]
  else .error .assertHeader

def unpackUint32 (buf : List UInt8) : UInt32 := UInt32.ofNat (leNat (buf.take 4))

/-- The number of parts of a large message. -/
def partCount (sz : ℕ) : ℕ := (sz - 1) / multiPart + 1

/-- The loop over the parts of a large message, for as many as are left of them. The package of a
part has five bytes beside it, and says whether more follow. -/
def packMulti (pack : Bool → List UInt8 → List UInt8) :
    ℕ → List UInt8 → Except ClusterError (List Frame)
  | 0, _ => .ok []
  | part + 1, msg =>
    if multiPart < msg.length then do
      let header ← fillHeader (multiPart + 5)
      let rest ← packMulti pack part (msg.drop multiPart)
      return (header ++ pack true (msg.take multiPart)) :: rest
    else do
      -- the last multi part
      let header ← fillHeader (msg.length + 5)
      let rest ← packMulti pack part []
      return (header ++ pack false msg) :: rest

/-! ### Requests -/

/-- `packreq_number`: the first frame, and the number of parts that follow. -/
def packreqNumber (addr : UInt32) (session : Int32) (msg : List UInt8) :
    Except ClusterError (Frame × ℕ) :=
  if msg.length < multiPart then do
    let header ← fillHeader (msg.length + 9)
    return (header ++ 0 :: (fillUint32 addr ++ fillUint32 session.toUInt32 ++ msg), 0)
  else do
    let header ← fillHeader 13
    return (header ++ 1 :: (fillUint32 addr ++ fillUint32 session.toUInt32 ++
      fillUint32 (UInt32.ofNat msg.length)), partCount msg.length)

def packreqString (name : List UInt8) (session : Int32) (msg : List UInt8) :
    Except ClusterError (Frame × ℕ) :=
  if name.length < 1 ∨ 255 < name.length then .error .nameTooLong
  else if msg.length < multiPart then do
    let header ← fillHeader (msg.length + 6 + name.length)
    return (header ++ 0x80 :: UInt8.ofNat name.length :: (name ++
      fillUint32 session.toUInt32 ++ msg), 0)
  else do
    let header ← fillHeader (10 + name.length)
    return (header ++ 0x81 :: UInt8.ofNat name.length :: (name ++
      fillUint32 session.toUInt32 ++ fillUint32 (UInt32.ofNat msg.length)), partCount msg.length)

def packreqMulti (session : Int32) : ℕ → List UInt8 → Except ClusterError (List Frame) :=
  packMulti fun more part => (if more then 2 else 3) :: (fillUint32 session.toUInt32 ++ part)

/-- The session that follows. -/
def nextSession (session : Int32) : Int32 := if session + 1 < 0 then 1 else session + 1

/-- The first frame for either kind of address. -/
def packreqFirst (session : Int32) (msg : List UInt8) :
    ClusterAddress → Except ClusterError (Frame × ℕ)
  | .id addr => packreqNumber addr session msg
  | .name name => packreqString name session msg

/-- `lpackrequest`: the first frame, the next session and the other frames. The size of the message
is a `uint32_t`, the session an `int`. -/
def lpackrequest (addr : ClusterAddress) (session : Int32) (msg : List UInt8) :
    Except ClusterError (Frame × Int32 × List Frame) :=
  let msg := msg.take (msg.length % 2 ^ 32)
  if session ≤ 0 then .error (.invalidSession session)
  else do
    let first ← packreqFirst session msg addr
    let padding ← packreqMulti session first.2 msg
    return (first.1, nextSession session, padding)

/-- A string, or the size of what follows. -/
inductive Piece
  | size (sz : UInt32)
  | bytes (str : List UInt8)
  deriving DecidableEq, Repr

/-- What `lunpackrequest` returns. A part has no address. -/
structure UnpackedRequest where
  addr : Option ClusterAddress
  session : UInt32
  msg : Piece
  padding : Bool
  deriving DecidableEq, Repr

def unpackreqNumber (buf : List UInt8) : Except ClusterError UnpackedRequest :=
  if buf.length < 9 then .error (.invalidMessage buf.length)
  else .ok ⟨some (.id (unpackUint32 (buf.drop 1))), unpackUint32 (buf.drop 5),
    .bytes (buf.drop 9), false⟩

def unpackmreqNumber (buf : List UInt8) : Except ClusterError UnpackedRequest :=
  if buf.length ≠ 13 then .error (.invalidMulti buf.length)
  else .ok ⟨some (.id (unpackUint32 (buf.drop 1))), unpackUint32 (buf.drop 5),
    .size (unpackUint32 (buf.drop 9)), true⟩

def unpackmreqPart (buf : List UInt8) : Except ClusterError UnpackedRequest :=
  if buf.length < 5 then .error .invalidPart
  else .ok ⟨none, unpackUint32 (buf.drop 1), .bytes (buf.drop 5), buf.headD 0 = 2⟩

def unpackreqString (buf : List UInt8) : Except ClusterError UnpackedRequest :=
  let namesz := (buf.getD 1 0).toNat
  if buf.length < 2 ∨ buf.length < namesz + 6 then .error (.invalidMessage buf.length)
  else .ok ⟨some (.name ((buf.drop 2).take namesz)), unpackUint32 (buf.drop (namesz + 2)),
    .bytes (buf.drop (2 + namesz + 4)), false⟩

def unpackmreqString (buf : List UInt8) : Except ClusterError UnpackedRequest :=
  let namesz := (buf.getD 1 0).toNat
  if buf.length < 2 ∨ buf.length < namesz + 10 then .error (.invalidMessage buf.length)
  else .ok ⟨some (.name ((buf.drop 2).take namesz)), unpackUint32 (buf.drop (namesz + 2)),
    .size (unpackUint32 (buf.drop (namesz + 6))), true⟩

/-- `lunpackrequest`. Behind an empty string there is a zero. -/
def lunpackrequest (msg : List UInt8) : Except ClusterError UnpackedRequest :=
  match msg.headD 0 with
  | 0 => unpackreqNumber msg
  | 1 => unpackmreqNumber msg
  | 2 | 3 => unpackmreqPart msg
  | 0x80 => unpackreqString msg
  | 0x81 => unpackmreqString msg
  | type => .error (.invalidType type)

/-! ### Responses -/

/-- The parts of a large response. -/
def packresponseMulti (session : UInt32) : ℕ → List UInt8 → Except ClusterError (List Frame) :=
  packMulti fun more part => fillUint32 session ++ (if more then 3 else 4) :: part

/-- `lpackresponse`: one frame, or the frames of a table. -/
def lpackresponse (session : UInt32) (ok : Bool) (msg : List UInt8) :
    Except ClusterError (List Frame) :=
  if ok ∧ multiPart < msg.length then do
    -- multi part begin
    let header ← fillHeader 9
    let rest ← packresponseMulti session (partCount msg.length) msg
    return (header ++ (fillUint32 session ++ 2 :: fillUint32 (UInt32.ofNat msg.length))) :: rest
  else do
    -- the error msg is truncated if it is too long
    let msg := if ok then msg else msg.take multiPart
    let header ← fillHeader (msg.length + 5)
    return [header ++ (fillUint32 session ++ (if ok then 1 else 0) :: msg)]

/-- What `lunpackresponse` returns. -/
structure UnpackedResponse where
  session : UInt32
  ok : Bool
  msg : Piece
  padding : Bool
  deriving DecidableEq, Repr

/-- `lunpackresponse`. There is nothing if the package is not one. -/
def lunpackresponse (buf : List UInt8) : Option UnpackedResponse :=
  if buf.length < 5 then none
  else
    let session := unpackUint32 buf
    match buf.getD 4 0 with
    | 0 => some ⟨session, false, .bytes (buf.drop 5), false⟩
    | 1 | 4 => some ⟨session, true, .bytes (buf.drop 5), false⟩
    | 2 =>
      if buf.length ≠ 9 then none
      else some ⟨session, true, .size (unpackUint32 (buf.drop 5)), true⟩
    | 3 => some ⟨session, true, .bytes (buf.drop 5), true⟩
    | _ => none

/-! ### Large messages -/

/-- The loop of `lconcat`, with what has been copied to the block. -/
def concatLoop (sz : ℕ) (buff : List UInt8) : List Piece → Option (List UInt8)
  | .bytes str :: pieces =>
    if sz < str.length + buff.length then none else concatLoop sz (buff ++ str) pieces
  | _ => if buff.length = sz then some buff else none

/-- `lconcat`, for the entries of the table from 1 on. -/
def lconcat : List Piece → Except ClusterError (Option (List UInt8))
  | .size sz :: pieces =>
    if sz.toNat < 2 ^ 31 then .ok (concatLoop sz.toNat [] pieces)
    else .error (.invalidBlock sz.toNat)
  | _ => .ok none

end Uboss.Lib
