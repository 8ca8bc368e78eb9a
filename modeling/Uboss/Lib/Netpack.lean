import Uboss.Math.Chains
import Uboss.Math.Framing
import Uboss.Math.RingBuffer
import Uboss.Math.Transition

/-!
# Packets with a length of two bytes

`lua-netpack.c`: the data of the sockets is cut into packets, each with its length in front. A
packet that is not complete is kept in a hash table, by the id of its socket. If the data has more
than one packet, the complete ones are put into a queue, which is read with `lpop`.
-/

namespace Uboss.Lib

open Math

def queueSize : ℕ := 1024

/-- `HASHSIZE`. -/
def netHashSize : ℕ := 4096

/-- `struct netpack`. -/
structure NetPack where
  id : ℕ
  size : ℕ
  buffer : List UInt8
  deriving DecidableEq, Inhabited

/-- What `ltostring` makes of a packet. -/
def NetPack.message (np : NetPack) : List UInt8 := np.buffer.take np.size

/-- `struct uncomplete` without its link. The list `pack.buffer` holds the bytes that were written
to the block. -/
structure Uncomplete where
  pack : NetPack
  read : ℤ
  header : UInt8
  deriving DecidableEq

/-- `struct queue`. Only the cells `queue i` with `i < cap` belong to the array. -/
structure NetQueue where
  cap : ℕ
  head : ℕ
  tail : ℕ
  hash : Fin netHashSize → List Uncomplete
  queue : ℕ → NetPack
  head_lt : head < cap
  tail_lt : tail < cap

/-- How the functions can fail: a byte behind the end of the data is read, the assertion on `read`,
or more rounds than the model allows. -/
inductive NetFault
  | emptyData
  | assertRead
  | outOfFuel
  deriving DecidableEq

def hashFd (fd : ℕ) : Fin netHashSize :=
  ⟨(fd >>> 24 + fd >>> 12 + fd) % 2 ^ 32 % netHashSize, Nat.mod_lt _ (by decide)⟩

/-- The test of `find_uncomplete`. -/
def Uncomplete.isOf (fd : ℕ) (uc : Uncomplete) : Bool := uc.pack.id = fd

def readSize (a b : UInt8) : ℕ := a.toNat <<< 8 ||| b.toNat

/-! ### The queue -/

namespace NetQueue

/-- The queue that `get_queue` makes. -/
def create : NetQueue where
  cap := queueSize
  head := 0
  tail := 0
  hash _ := []
  queue _ := default
  head_lt := by decide
  tail_lt := by decide

variable (q : NetQueue)

/-- The first half of `find_uncomplete`. -/
def find (fd : ℕ) : Option Uncomplete := Chains.find hashFd Uncomplete.isOf q.hash fd

/-- The second half of `find_uncomplete`: what was found is taken out. -/
def unlink (fd : ℕ) : NetQueue := { q with hash := Chains.unlink hashFd Uncomplete.isOf q.hash fd }

/-- Put a packet that is not complete in front of its chain. -/
def link (uc : Uncomplete) : NetQueue := { q with hash := Chains.push hashFd q.hash uc.pack.id uc }

/-- `expand_queue`, called with the ring full. -/
def expandQueue : NetQueue where
  cap := q.cap + queueSize
  head := 0
  tail := q.cap
  hash := q.hash
  queue i := q.queue ((q.head + i) % q.cap)
  head_lt := Nat.add_pos_right _ (by decide)
  tail_lt := Nat.lt_add_of_pos_right (by decide)

/-- `push_data`, the part that stores. -/
def pushData (np : NetPack) : NetQueue :=
  let q' : NetQueue :=
    { q with
      tail := ringNext q.cap q.tail
      queue := Function.update q.queue q.tail np
      tail_lt := ringNext_lt (Nat.zero_lt_of_lt q.head_lt) }
  if q'.head = q'.tail then q'.expandQueue else q'

def lpop : Option (NetPack × NetQueue) :=
  if q.head = q.tail then none
  else some (q.queue q.head,
    { q with
      head := ringNext q.cap q.head
      head_lt := ringNext_lt (Nat.zero_lt_of_lt q.head_lt) })

/-- `lpop` until the queue is empty, at most `fuel` times. -/
def popAll : ℕ → NetQueue → List NetPack × NetQueue
  | 0, q => ([], q)
  | fuel + 1, q =>
    match q.lpop with
    | none => ([], q)
    | some (np, q') => (np :: (popAll fuel q').1, (popAll fuel q').2)

end NetQueue

/-! ### Data -/

/-- Only the first byte of the length has come. -/
def headerOnly (fd : ℕ) (b : UInt8) : Uncomplete := ⟨⟨fd, 0, []⟩, -1, b⟩

/-- The first bytes of a packet. -/
def bodyPart (fd size : ℕ) (buffer : List UInt8) : Uncomplete :=
  ⟨⟨fd, size, buffer⟩, buffer.length, 0⟩

/-- `memcpy(uc->pack.buffer + uc->read, buffer, size)`. -/
def Uncomplete.fill (uc : Uncomplete) (bytes : List UInt8) : Uncomplete :=
  { uc with
    pack.buffer := uc.pack.buffer.take uc.read.toNat ++ bytes
    read := uc.read + bytes.length }

/-- The bytes of a packet that is not complete, as they have come. -/
def Uncomplete.bytes (uc : Uncomplete) : List UInt8 :=
  if uc.read < 0 then [uc.header]
  else UInt8.ofNat (uc.pack.size >>> 8) :: UInt8.ofNat uc.pack.size :: uc.pack.buffer

/-- `push_more`, at most `fuel` calls of it. -/
def pushMore (fd : ℕ) : ℕ → NetQueue → List UInt8 → Except NetFault NetQueue
  | 0, _, _ => .error .outOfFuel
  | fuel + 1, q, buffer =>
    match buffer with
    | [] => .error .emptyData
    | [b] => .ok (q.link (headerOnly fd b))
    | a :: b :: rest =>
      if rest.length < readSize a b then .ok (q.link (bodyPart fd (readSize a b) rest))
      else
        let q := q.pushData ⟨fd, readSize a b, rest.take (readSize a b)⟩
        if rest.drop (readSize a b) = [] then .ok q
        else pushMore fd fuel q (rest.drop (readSize a b))

/-- What `lfilter` returns beside the queue. -/
inductive FilterResult
  | nothing
  | data (np : NetPack)
  | more
  | error (fd : ℕ)
  | opened (fd : ℕ)
  | close (fd : ℕ)
  | warning (fd ud : ℕ)

/-- The second byte of the length, if only the first one has come before. -/
def readHeader (uc : Uncomplete) (buffer : List UInt8) :
    Except NetFault (Uncomplete × List UInt8) :=
  if uc.read < 0 then
    if uc.read = -1 then
      match buffer with
      | [] => .error .emptyData
      | b :: buffer =>
        .ok ({ uc with pack.size := readSize uc.header b, pack.buffer := [], read := 0 }, buffer)
    else .error .assertRead
  else .ok (uc, buffer)

/-- The bytes of a packet that was found and taken out. -/
def fillBody (q : NetQueue) (fd : ℕ) (uc : Uncomplete) (buffer : List UInt8) :
    Except NetFault (NetQueue × FilterResult) :=
  let need := uc.pack.size - uc.read.toNat
  if buffer.length < need then .ok (q.link (uc.fill buffer), .nothing)
  else
    let uc := uc.fill (buffer.take need)
    let rest := buffer.drop need
    if rest = [] then .ok (q, .data uc.pack)
    else (pushMore fd rest.length (q.pushData uc.pack) rest).map fun q => (q, .more)

/-- Data that begins with a packet. -/
def filterFresh (q : Option NetQueue) (fd : ℕ) (buffer : List UInt8) :
    Except NetFault (Option NetQueue × FilterResult) :=
  match buffer with
  | [] => .error .emptyData
  | [b] => .ok (some ((q.getD .create).link (headerOnly fd b)), .nothing)
  | a :: b :: rest =>
    if rest.length < readSize a b then
      .ok (some ((q.getD .create).link (bodyPart fd (readSize a b) rest)), .nothing)
    else if rest.length = readSize a b then .ok (q, .data ⟨fd, rest.length, rest⟩)
    else
      let np : NetPack := ⟨fd, readSize a b, rest.take (readSize a b)⟩
      let more := rest.drop (readSize a b)
      (pushMore fd more.length ((q.getD .create).pushData np) more).map fun q => (some q, .more)

/-- `filter_data_`. Without a queue no packet is found, and `get_queue` makes one where it is
needed. -/
def filterData (q : Option NetQueue) (fd : ℕ) (buffer : List UInt8) :
    Except NetFault (Option NetQueue × FilterResult) :=
  match (q.getD .create).find fd with
  | some uc => do
    let (uc, buffer) ← readHeader uc buffer
    let (q, result) ← fillBody ((q.getD .create).unlink fd) fd uc buffer
    return (some q, result)
  | none => filterFresh q fd buffer

def closeUncomplete (q : NetQueue) (fd : ℕ) : NetQueue := q.unlink fd

def lpack (msg : List UInt8) : Option (List UInt8) :=
  if 0x10000 ≤ msg.length then none
  else some (UInt8.ofNat (msg.length >>> 8 &&& 0xff) :: UInt8.ofNat (msg.length &&& 0xff) :: msg)

/-! ### The gate -/

/-- A `struct uboss_socket_message`. -/
inductive NetMessage
  | data (fd : ℕ) (buffer : List UInt8)
  | connect (fd : ℕ)
  | close (fd : ℕ)
  | accept (fd ud : ℕ)
  | error (fd : ℕ)
  | warning (fd ud : ℕ)
  deriving DecidableEq

/-- `lfilter`. A queue is kept if there is one. -/
def lfilter (q : Option NetQueue) : NetMessage → Except NetFault (Option NetQueue × FilterResult)
  | .data fd buffer => filterData q fd buffer
  | .connect _ => .ok (q, .nothing)
  | .close fd => .ok (q.map (closeUncomplete · fd), .close fd)
  | .accept _ ud => .ok (q, .opened ud)
  | .error fd => .ok (q.map (closeUncomplete · fd), .error fd)
  | .warning fd ud => .ok (q, .warning fd ud)

/-- The queue, and the packets that were delivered, with their sockets. -/
structure Gate where
  queue : Option NetQueue
  log : List (ℕ × List UInt8)

namespace Gate

def create : Gate := ⟨none, []⟩

/-- The packets of a result. After `more` the queue is read to its end. -/
def deliver (g : Gate) (queue : Option NetQueue) : FilterResult → Gate
  | .data np => ⟨queue, g.log ++ [(np.id, np.message)]⟩
  | .more =>
    match queue with
    | none => ⟨none, g.log⟩
    | some q =>
      ⟨some (NetQueue.popAll q.cap q).2,
        g.log ++ (NetQueue.popAll q.cap q).1.map fun np => (np.id, np.message)⟩
  | _ => ⟨queue, g.log⟩

/-- A message of a socket. -/
def step (g : Gate) (m : NetMessage) : Except NetFault Gate :=
  (lfilter g.queue m).map fun r => g.deliver r.1 r.2

/-- The packets of a socket. -/
def delivered (g : Gate) (fd : ℕ) : List (List UInt8) :=
  (g.log.filter fun x => x.1 = fd).map Prod.snd

/-- The bytes that are kept for a socket: those of the length, and the first ones of the packet. -/
def kept (g : Gate) (fd : ℕ) : List UInt8 :=
  match (g.queue.getD .create).find fd with
  | none => []
  | some uc => uc.bytes

end Gate

/-! ### Streams -/

/-- The packet in front of a stream. -/
def cutPacket : List UInt8 → Option (List UInt8 × List UInt8)
  | a :: b :: rest =>
    let n := 256 * a.toNat + b.toNat
    if n ≤ rest.length then some (rest.take n, rest.drop n) else none
  | _ => none

/-- The complete packets of a stream. -/
def packets (stream : List UInt8) : List (List UInt8) := (frames cutPacket stream.length stream).1

/-- What follows the last complete packet. -/
def leftover (stream : List UInt8) : List UInt8 := (frames cutPacket stream.length stream).2

/-- What a message does to the streams of a socket. -/
def streamStep (fd : ℕ) (s : List (List UInt8) × List UInt8) :
    NetMessage → List (List UInt8) × List UInt8
  | .data fd' buffer => if fd' = fd then (s.1, s.2 ++ buffer) else s
  | .close fd' | .error fd' => if fd' = fd then (s.1 ++ [s.2], []) else s
  | _ => s

/-- The streams of a socket: those that have been closed, and the one since then. -/
def streams (fd : ℕ) (msgs : List NetMessage) : List (List UInt8) × List UInt8 :=
  msgs.foldl (streamStep fd) ([], [])

end Uboss.Lib
