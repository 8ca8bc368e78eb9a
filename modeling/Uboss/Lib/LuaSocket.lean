import Uboss.Lib.Seri
import Uboss.Math.ByteQueue

/-!
# The socket buffers of Lua

`lua-socket.c`: the data that a service has received on a socket and not yet read, as the chunks in
which it has come. The nodes of the chunks are in a pool that all buffers of a service share. Sizes
are `int`s: what comes from Lua is cut to 32 bits. A function has no result where the source would
stop at an assertion, read from a null pointer or copy a negative number of bytes.
-/

namespace Uboss.Lib

open Math

/-- `struct buffer_node`, with the bytes at `msg`. -/
structure BufferNode where
  node : ℕ
  msg : List UInt8
  deriving DecidableEq

def BufferNode.sz (m : BufferNode) : ℤ := toInt m.msg.length

/-- `struct socket_buffer`. The list of the nodes starts at `head`. -/
structure SocketBuffer where
  size : ℤ
  offset : ℕ
  head : List BufferNode
  tail : Option ℕ
  deriving DecidableEq

/-- The table `pool`: how many blocks it has, how many nodes they have, and the nodes that are free,
from index 1 of the table on. -/
structure BufferPool where
  blocks : ℕ
  allocated : ℕ
  free : List ℕ
  deriving DecidableEq

def largePageNode : ℕ := 12

/-- How many nodes the next block has. -/
def BufferPool.blockSize (pool : BufferPool) : ℕ :=
  let tsz := pool.blocks + 1
  if tsz ≤ largePageNode - 3 then 8 <<< tsz else 8 <<< (largePageNode - 3)

/-- A node for a chunk: the first free one, or the first one of a new block. -/
def BufferPool.take (pool : BufferPool) : ℕ × BufferPool :=
  match pool.free with
  | node :: free => (node, { pool with free })
  | [] =>
    (pool.allocated, ⟨pool.blocks + 1, pool.allocated + pool.blockSize,
      List.range' (pool.allocated + 1) (pool.blockSize - 1)⟩)

/-- The bytes of a string are equal to those in a node: `memcmp`. -/
def sameBytes (msg : List UInt8) (off : ℕ) (sep : List UInt8) (n : ℕ) : Bool :=
  (msg.drop off).take n = sep.take n

/-- `check_sep`. The rest of a node is not negative. -/
def checkSep : List BufferNode → ℕ → List UInt8 → Option Bool
  | [], _, _ => none
  | node :: rest, off, sep =>
    let sz := node.sz - off
    if sep.length ≤ sz then some (sameBytes node.msg off sep sep.length)
    else if 0 < sz ∧ sameBytes node.msg off sep sz.toNat = false then some false
    else checkSep rest 0 (sep.drop sz.toNat)

/-- The loop of `lreadline`, for so many rounds: the position at which it finds the separator. -/
def findSep (sep : List UInt8) : ℕ → ℕ → List BufferNode → ℕ → Option (Option ℕ)
  | 0, _, _, _ => some none
  | _ + 1, _, [], _ => none
  | rounds + 1, i, current :: rest, off =>
    (checkSep (current :: rest) off sep).bind fun found =>
      if found then some (some i)
      else if current.sz - (off + 1 : ℕ) = 0 then
        if rest = [] then some none else findSep sep rounds (i + 1) rest 0
      else findSep sep rounds (i + 1) (current :: rest) (off + 1)

namespace SocketBuffer

/-- `lnewbuffer`. -/
def empty : SocketBuffer := ⟨0, 0, [], none⟩

variable (sb : SocketBuffer) (pool : BufferPool)

/-- `lpushbuffer`. -/
def push (msg : List UInt8) : Option (QueueResult UInt8 × SocketBuffer × BufferPool) :=
  let node : BufferNode := ⟨pool.take.1, msg⟩
  let size := Int.bmod (sb.size + node.sz) (2 ^ 32)
  if sb.tail = sb.head.getLast?.map BufferNode.node then
    some (.size size, ⟨size, sb.offset, sb.head ++ [node], some node.node⟩, pool.take.2)
  else none

def returnFreeNode : Option (SocketBuffer × BufferPool) :=
  match sb.head with
  | [] => none
  | m :: ms =>
    some ({ sb with offset := 0, head := ms, tail := if ms = [] then none else sb.tail },
      { pool with free := m.node :: pool.free })

/-- `sz` bytes from the read position on. -/
def bytes (current : BufferNode) (sz : ℤ) : List UInt8 := (current.msg.drop sb.offset).take sz.toNat

/-- The loop of `pop_lstring`, with what it has added to the string. Every round but the last gives
a node back. -/
def popLoop (skip : ℤ) : ℕ → SocketBuffer → BufferPool → List UInt8 → ℤ →
    Option (List UInt8 × SocketBuffer × BufferPool)
  | 0, _, _, _, _ => none
  | rounds + 1, sb, pool, b, sz =>
    match sb.head with
    | [] => none
    | current :: _ =>
      let bytes := current.sz - sb.offset
      if sz ≤ bytes then
        let b := if skip < sz then b ++ sb.bytes current (sz - skip) else b
        let sb := { sb with offset := sb.offset + sz.toNat }
        if bytes = sz then (sb.returnFreeNode pool).map fun r => (b, r) else some (b, sb, pool)
      else
        let realSz := sz - skip
        let b := if 0 < realSz then
            b ++ sb.bytes current (if realSz < bytes then realSz else bytes)
          else b
        (sb.returnFreeNode pool).bind fun r =>
          if sz - bytes = 0 then some (b, r) else popLoop skip rounds r.1 r.2 b (sz - bytes)

def popLString (sz skip : ℤ) : Option (List UInt8 × SocketBuffer × BufferPool) :=
  match sb.head with
  | [] => none
  | current :: _ =>
    if sz < current.sz - sb.offset then
      if sz - skip < 0 then none
      else some (sb.bytes current (sz - skip), { sb with offset := sb.offset + sz.toNat }, pool)
    else if sz = current.sz - sb.offset then
      if sz - skip < 0 then none
      else (sb.returnFreeNode pool).map fun r => (sb.bytes current (sz - skip), r)
    else popLoop skip sb.head.length sb pool [] sz

/-- `lpopbuffer`. -/
def pop (n : ℕ) : Option (QueueResult UInt8 × SocketBuffer × BufferPool) :=
  let sz := toInt n
  if sb.size < sz ∨ sz = 0 then some (.popped none sb.size, sb, pool)
  else (sb.popLString pool sz 0).map fun r =>
    (.popped (some r.1) (sb.size - sz), { r.2.1 with size := sb.size - sz }, r.2.2)

/-- The loop of `lclearbuffer`. -/
def clearLoop : ℕ → SocketBuffer → BufferPool → Option (SocketBuffer × BufferPool)
  | 0, sb, pool => if sb.head = [] then some (sb, pool) else none
  | rounds + 1, sb, pool =>
    if sb.head = [] then some (sb, pool)
    else (sb.returnFreeNode pool).bind fun r => clearLoop rounds r.1 r.2

/-- `lclearbuffer`. -/
def clear : Option (QueueResult UInt8 × SocketBuffer × BufferPool) :=
  (clearLoop sb.head.length sb pool).map fun r => (.done, { r.1 with size := 0 }, r.2)

/-- The loop of `lreadall`, with what it has added to the string. -/
def readallLoop : ℕ → SocketBuffer → BufferPool → List UInt8 →
    Option (List UInt8 × SocketBuffer × BufferPool)
  | 0, sb, pool, b => if sb.head = [] then some (b, sb, pool) else none
  | rounds + 1, sb, pool, b =>
    match sb.head with
    | [] => some (b, sb, pool)
    | current :: _ =>
      let b := b ++ sb.bytes current (current.sz - sb.offset)
      (sb.returnFreeNode pool).bind fun r => readallLoop rounds r.1 r.2 b

/-- `lreadall`. -/
def readall : Option (QueueResult UInt8 × SocketBuffer × BufferPool) :=
  (readallLoop sb.head.length sb pool []).map fun r =>
    (.all r.1, { r.2.1 with size := 0 }, r.2.2)

/-- `lreadline`. A negative length of the separator is one for `memcmp`. -/
def readline (check : Bool) (sep : List UInt8) :
    Option (QueueResult UInt8 × SocketBuffer × BufferPool) :=
  match sb.head with
  | [] => some (.nothing, sb, pool)
  | _ =>
    let seplen := toInt sep.length
    if seplen < 0 then none
    else
      (findSep (sep.take seplen.toNat) (sb.size - seplen + 1).toNat 0 sb.head sb.offset).bind fun
        | none => some (.nothing, sb, pool)
        | some i =>
          if check then some (.found, sb, pool)
          else (sb.popLString pool (toInt (i + sep.length)) seplen).map fun r =>
            let size := Int.bmod (sb.size - (i + sep.length : ℕ)) (2 ^ 32)
            (.line r.1, { r.2.1 with size }, r.2.2)

end SocketBuffer

end Uboss.Lib
