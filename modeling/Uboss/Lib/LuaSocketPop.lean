import Mathlib.Data.List.Perm.Basic
import Uboss.Lib.LuaSocket
import Uboss.Math.NodePool

/-!
# Taking bytes from a socket buffer

What the functions of `lua-socket.c` do to the bytes of a buffer and to its nodes.
-/

namespace Uboss.Lib

open Math List Option Int BufferNode

theorem toInt_of_lt {n : ℕ} (h : n < 2 ^ 31) : toInt n = n := Int32.toInt_ofNat_of_lt h

/-- The pool after a block was allocated, if it had no free node. -/
def BufferPool.filled (pool : BufferPool) : BufferPool :=
  if pool.free = [] then
    ⟨pool.blocks + 1, pool.allocated + pool.blockSize, List.range' pool.allocated pool.blockSize⟩
  else pool

theorem BufferPool.blockSize_pos (pool : BufferPool) : 0 < pool.blockSize := by
  rw [blockSize]
  split_ifs
  · rw [Nat.shiftLeft_eq]
    exact Nat.mul_pos (by decide) (Nat.two_pow_pos _)
  · decide

theorem BufferPool.filled_free (pool : BufferPool) :
    pool.filled.free = pool.take.1 :: pool.take.2.free ∧
      pool.filled.allocated = pool.take.2.allocated := by
  obtain ⟨blocks, allocated, free⟩ := pool
  cases free with
  | nil =>
    refine ⟨?_, rfl⟩
    obtain ⟨size, hsize⟩ := Nat.exists_eq_succ_of_ne_zero
      (BufferPool.blockSize_pos ⟨blocks, allocated, []⟩).ne'
    rw [filled, if_pos rfl, take, hsize, Nat.succ_eq_add_one, range'_succ, Nat.add_sub_cancel]
  | cons node free => exact ⟨rfl, rfl⟩

/-- The nodes have only changed their place between a buffer and the pool. -/
def SamePool (nodes : List ℕ) (pool : BufferPool) (nodes' : List ℕ) (pool' : BufferPool) : Prop :=
  pool'.allocated = pool.allocated ∧ (pool'.free ++ nodes').Perm (pool.free ++ nodes)

namespace SamePool

variable {nodes nodes' nodes'' : List ℕ} {pool pool' pool'' : BufferPool}

theorem refl (nodes : List ℕ) (pool : BufferPool) : SamePool nodes pool nodes pool := ⟨rfl, .refl _⟩

theorem trans (h : SamePool nodes pool nodes' pool') (h' : SamePool nodes' pool' nodes'' pool'') :
    SamePool nodes pool nodes'' pool'' :=
  ⟨h'.1.trans h.1, h'.2.trans h.2⟩

end SamePool

namespace SocketBuffer

/-- The bytes that are left. -/
def unread (sb : SocketBuffer) : List UInt8 := (sb.head.flatMap msg).drop sb.offset

def nodes (sb : SocketBuffer) : List ℕ := sb.head.map node

/-- No chunk is empty, and the read position is in the first one. -/
structure Layout (sb : SocketBuffer) : Prop where
  chunk : ∀ m ∈ sb.head, m.msg ≠ [] ∧ m.msg.length < 2 ^ 31
  offset : ∀ m ∈ sb.head.head?, sb.offset < m.msg.length
  offset_eq_zero : sb.head = [] → sb.offset = 0
  tail : sb.tail = sb.head.getLast?.map node

/-- The size is the number of the bytes that are left. -/
structure Valid (sb : SocketBuffer) : Prop extends Layout sb where
  size : sb.size = sb.unread.length
  limit : sb.unread.length < 2 ^ 31

/-- The first bytes were taken. -/
structure Takes (sb : SocketBuffer) (pool : BufferPool) (n : ℕ) (sb' : SocketBuffer)
    (pool' : BufferPool) : Prop where
  layout : sb'.Layout
  unread : sb'.unread = sb.unread.drop n
  nodes : SamePool sb.nodes pool sb'.nodes pool'

variable {sb sb' : SocketBuffer} {pool pool' : BufferPool} {m : BufferNode} {ms : List BufferNode}
  {n k : ℕ}

theorem valid_empty : empty.Valid where
  chunk := fun m hm => absurd hm not_mem_nil
  offset := fun m hm => by cases (show none = some m from hm)
  offset_eq_zero := fun _ => rfl
  tail := rfl
  size := rfl
  limit := by decide

theorem Layout.behind (h : sb.Layout) (hhead : sb.head = m :: ms) (size : ℤ) :
    Layout ⟨size, 0, ms, ms.getLast?.map node⟩ := by
  have hchunk := h.chunk
  rw [hhead] at hchunk
  refine ⟨fun m' hm' => hchunk m' (mem_cons_of_mem m hm'), fun m' hm' => ?_, fun _ => rfl, rfl⟩
  have hmem : m' ∈ ms := mem_of_mem_head? hm'
  exact length_pos_of_ne_nil (hchunk m' (mem_cons_of_mem m hmem)).1

theorem returnFreeNode_of_head (pool : BufferPool) (hhead : sb.head = m :: ms)
    (htail : sb.tail = sb.head.getLast?.map node) :
    sb.returnFreeNode pool = some (⟨sb.size, 0, ms, ms.getLast?.map node⟩,
        { pool with free := m.node :: pool.free }) := by
  rw [hhead] at htail
  rw [returnFreeNode, hhead]
  simp only
  cases ms with
  | nil => rfl
  | cons m' ms =>
    rw [getLast?_cons_cons] at htail
    rw [if_neg (cons_ne_nil m' ms), htail]

theorem eq_of_head (hhead : sb.head = m :: ms) (offset : ℕ) :
    (⟨sb.size, offset, m :: ms, sb.tail⟩ : SocketBuffer) = { sb with offset } := by
  rw [← hhead]

theorem samePool_return (hhead : sb.head = m :: ms) (pool : BufferPool) :
    SamePool sb.nodes pool (ms.map node) { pool with free := m.node :: pool.free } := by
  refine ⟨rfl, ?_⟩
  rw [nodes, hhead]
  exact perm_middle.symm

/-- The first chunk, from the read position on, and the other chunks. -/
theorem Layout.first (h : sb.Layout) (hhead : sb.head = m :: ms) :
    sb.offset < m.msg.length ∧ m.sz = m.msg.length ∧
      sb.unread = m.msg.drop sb.offset ++ ms.flatMap msg := by
  have hoffset : sb.offset < m.msg.length := by
    apply h.offset
    rw [hhead]
    rfl
  have hchunk := h.chunk m (by rw [hhead]; exact mem_cons_self)
  refine ⟨hoffset, toInt_of_lt hchunk.2, ?_⟩
  rw [unread, hhead, flatMap_cons, drop_append_of_le_length hoffset.le]

theorem bytes_eq (m : BufferNode) (n : ℕ) : sb.bytes m n = (m.msg.drop sb.offset).take n := by
  rw [bytes, toNat_natCast]

theorem takes_part (h : sb.Layout) (hhead : sb.head = m :: ms)
    (hlt : sb.offset + n < m.msg.length) (pool : BufferPool) :
    Takes sb pool n { sb with offset := sb.offset + n } pool := by
  refine ⟨⟨h.chunk, fun m' hm' => ?_, fun hnil => ?_, h.tail⟩, ?_, .refl _ _⟩
  · have hm' : m' ∈ sb.head.head? := hm'
    rw [hhead] at hm'
    obtain rfl := some.inj hm'
    exact hlt
  · have hnil : sb.head = [] := hnil
    rw [hhead] at hnil
    cases hnil
  · rw [unread, unread, drop_drop]

theorem takes_first (h : sb.Layout) (hhead : sb.head = m :: ms)
    (hlength : m.msg.length = sb.offset + n) (pool : BufferPool) :
    Takes sb pool n ⟨sb.size, 0, ms, ms.getLast?.map node⟩
      { pool with free := m.node :: pool.free } := by
  have hn : n = (m.msg.drop sb.offset).length := by
    rw [length_drop]
    omega
  refine ⟨h.behind hhead sb.size, ?_, samePool_return hhead pool⟩
  rw [(h.first hhead).2.2, hn, drop_left]
  rfl

theorem Takes.trans {sb'' : SocketBuffer} {pool'' : BufferPool} (h : Takes sb pool n sb' pool')
    (h' : Takes sb' pool' k sb'' pool'') : Takes sb pool (n + k) sb'' pool'' := by
  refine ⟨h'.layout, ?_, h.nodes.trans h'.nodes⟩
  rw [h'.unread, h.unread, drop_drop]

/-- The loop of `pop_lstring`, by induction on the chunks. Once the string is complete, the bytes to
be skipped may go on over any number of chunks. -/
theorem popLoop_of_layout (b : List UInt8) (h : sb.Layout) (hhead : sb.head = ms) (hpos : 0 < n)
    (hle : n ≤ sb.unread.length) :
    ∃ sb' pool', popLoop k ms.length sb pool b n = some (b ++ sb.unread.take (n - k), sb', pool') ∧
      Takes sb pool n sb' pool' ∧ sb'.size = sb.size := by
  induction ms generalizing sb pool b n with
  | nil =>
    rw [unread, hhead, flatMap_nil, drop_nil, length_nil] at hle
    omega
  | cons m ms ih =>
    obtain ⟨hoffset, hsz, hunread⟩ := h.first hhead
    have hfirst : (m.msg.drop sb.offset).length = m.msg.length - sb.offset := length_drop
    rw [length_cons, popLoop, hhead]
    simp only
    by_cases hends : (n : ℤ) ≤ m.sz - sb.offset
    · -- the read ends in this chunk
      rw [if_pos hends]
      have hstring : (if (k : ℤ) < n then b ++ sb.bytes m (n - k) else b) =
          b ++ sb.unread.take (n - k) := by
        rw [hunread, take_append_of_le_length (by omega)]
        split_ifs with hk
        · rw [show (n : ℤ) - k = ((n - k : ℕ) : ℤ) by omega, bytes_eq]
        · rw [show n - k = 0 by omega, take_zero, append_nil]
      rw [hstring, toNat_natCast, eq_of_head hhead]
      by_cases hall : m.sz - sb.offset = n
      · have hlength : m.msg.length = sb.offset + n := by omega
        have hreturn : returnFreeNode { sb with offset := sb.offset + n } pool = _ :=
          returnFreeNode_of_head pool hhead h.tail
        rw [if_pos hall, hreturn, map_some]
        exact ⟨_, _, rfl, takes_first h hhead hlength pool, rfl⟩
      · have hlt : sb.offset + n < m.msg.length := by omega
        rw [if_neg hall]
        exact ⟨_, _, rfl, takes_part h hhead hlt pool, rfl⟩
    · -- the read goes on with the next chunk
      rw [if_neg hends]
      have hstring : (if 0 < (n : ℤ) - k then b ++ sb.bytes m
            (if (n : ℤ) - k < m.sz - sb.offset then n - k else m.sz - sb.offset) else b) =
          b ++ (m.msg.drop sb.offset).take (n - k) := by
        split_ifs with hreal hshort
        · rw [show (n : ℤ) - k = ((n - k : ℕ) : ℤ) by omega, bytes_eq]
        · rw [show m.sz - sb.offset = ((m.msg.length - sb.offset : ℕ) : ℤ) by omega, bytes_eq,
            ← hfirst, take_length, take_of_length_le (by omega)]
        · rw [show n - k = 0 by omega, take_zero, append_nil]
      have htakes := takes_first (n := m.msg.length - sb.offset) h hhead (by omega) pool
      rw [hstring, returnFreeNode_of_head pool hhead h.tail, bind_some, if_neg (by omega),
        show (n : ℤ) - (m.sz - sb.offset) = ((n - (m.msg.length - sb.offset) : ℕ) : ℤ) by omega]
      obtain ⟨sb', pool', hloop, htakes', hsize⟩ :=
        ih (b ++ (m.msg.drop sb.offset).take (n - k)) htakes.layout rfl
          (show 0 < n - (m.msg.length - sb.offset) by omega)
          (by rw [htakes.unread, length_drop]; omega)
      refine ⟨sb', pool', hloop.trans ?_, ?_, hsize⟩
      · rw [htakes.unread, hunread, ← hfirst, drop_left, append_assoc, take_append,
          Nat.sub_right_comm]
      · have hsum : m.msg.length - sb.offset + (n - (m.msg.length - sb.offset)) = n := by omega
        exact hsum ▸ htakes.trans htakes'

theorem popLString_of_layout (pool : BufferPool) (h : sb.Layout) (hpos : 0 < n) (hk : k ≤ n)
    (hle : n ≤ sb.unread.length) :
    ∃ sb' pool', sb.popLString pool n k = some (sb.unread.take (n - k), sb', pool') ∧
      Takes sb pool n sb' pool' ∧ sb'.size = sb.size := by
  rw [popLString]
  cases hhead : sb.head with
  | nil =>
    rw [unread, hhead, flatMap_nil, drop_nil, length_nil] at hle
    omega
  | cons m ms =>
    obtain ⟨hoffset, hsz, hunread⟩ := h.first hhead
    have hfirst : (m.msg.drop sb.offset).length = m.msg.length - sb.offset := length_drop
    have hskip : ¬ (n : ℤ) - k < 0 := by omega
    simp only
    by_cases hends : (n : ℤ) ≤ m.sz - sb.offset
    · have hstring : sb.bytes m (n - k) = sb.unread.take (n - k) := by
        rw [hunread, take_append_of_le_length (by omega),
          show (n : ℤ) - k = ((n - k : ℕ) : ℤ) by omega, bytes_eq]
      rw [if_neg hskip, if_neg hskip, hstring, toNat_natCast, eq_of_head hhead]
      by_cases hall : (n : ℤ) = m.sz - sb.offset
      · rw [if_neg (by omega), if_pos hall, returnFreeNode_of_head pool hhead h.tail, map_some]
        exact ⟨_, _, rfl, takes_first h hhead (by omega) pool, rfl⟩
      · have hlt : sb.offset + n < m.msg.length := by omega
        rw [if_pos (by omega)]
        exact ⟨_, _, rfl, takes_part h hhead hlt pool, rfl⟩
    · rw [if_neg (by omega), if_neg (by omega)]
      exact popLoop_of_layout [] h hhead hpos hle

/-! ### The functions -/

/-- A function has left these bytes in the buffer, and has taken or given back its nodes. -/
structure Turns (sb : SocketBuffer) (pool : BufferPool) (q : List UInt8) (sb' : SocketBuffer)
    (pool' : BufferPool) : Prop where
  valid : sb'.Valid
  unread : sb'.unread = q
  nodes : ∃ start, (start = pool ∨ start = pool.filled) ∧ SamePool sb.nodes start sb'.nodes pool'

theorem Turns.refl (h : sb.Valid) (pool : BufferPool) : Turns sb pool sb.unread sb pool :=
  ⟨h, rfl, pool, .inl rfl, .refl _ _⟩

theorem Takes.turns (h : Takes sb pool n sb' pool') (hvalid : sb.Valid)
    (hle : n ≤ sb.unread.length) :
    Turns sb pool (sb.unread.drop n) { sb' with size := sb.size - n } pool' := by
  have hlength : (sb.unread.drop n).length = sb.unread.length - n := length_drop
  have hlimit := hvalid.limit
  have hunread : SocketBuffer.unread { sb' with size := sb.size - n } = sb.unread.drop n := h.unread
  constructor
  · refine { toLayout := ?_, size := ?_, limit := ?_ }
    · exact ⟨h.layout.chunk, h.layout.offset, h.layout.offset_eq_zero, h.layout.tail⟩
    · have hsize := hvalid.size
      rw [hunread, hlength]
      show sb.size - n = _
      omega
    · rw [hunread, hlength]
      omega
  · exact hunread
  · exact ⟨pool, .inl rfl, h.nodes⟩

/-- `lpushbuffer` appends the message. -/
theorem push_of_valid {msg : List UInt8} (pool : BufferPool) (h : sb.Valid) (hmsg : msg ≠ [])
    (hfit : (sb.unread ++ msg).length < 2 ^ 31) :
    ∃ sb' pool', sb.push pool msg = some (.size (sb.unread ++ msg).length, sb', pool') ∧
      Turns sb pool (sb.unread ++ msg) sb' pool' := by
  have hlength : (sb.unread ++ msg).length = sb.unread.length + msg.length := length_append
  have hsz : toInt msg.length = msg.length := toInt_of_lt (by omega)
  have hsize : Int.bmod (sb.size + toInt msg.length) (2 ^ 32) =
      ((sb.unread ++ msg).length : ℕ) := by
    rw [hsz, h.size, hlength, bmod_eq_of_le_mul_two (by omega) (by omega)]
    omega
  have hunread : ∀ size tail, unread ⟨size, sb.offset, sb.head ++ [⟨pool.take.1, msg⟩], tail⟩ =
      sb.unread ++ msg := by
    intro size tail
    rw [unread, unread, flatMap_append, flatMap_singleton]
    cases hhead : sb.head with
    | nil => rw [h.offset_eq_zero hhead, flatMap_nil, drop_zero, drop_zero]
    | cons m ms =>
      have hoffset := (h.first hhead).1
      apply drop_append_of_le_length
      show sb.offset ≤ _
      rw [flatMap_cons, length_append]
      omega
  rw [push, if_pos h.tail]
  refine ⟨_, _, congrArg some (Prod.ext (congrArg QueueResult.size hsize) rfl), ?_⟩
  constructor
  · refine { toLayout := ⟨?_, ?_, ?_, ?_⟩, size := ?_, limit := ?_ }
    · intro m hm
      rcases mem_append.mp hm with hold | hnew
      · exact h.chunk m hold
      · obtain rfl := mem_singleton.mp hnew
        exact ⟨hmsg, by simp only; omega⟩
    · intro m hm
      cases hhead : sb.head with
      | nil =>
        have hm : m ∈ (sb.head ++ [(⟨pool.take.1, msg⟩ : BufferNode)]).head? := hm
        rw [hhead] at hm
        obtain rfl := some.inj hm
        show sb.offset < msg.length
        rw [h.offset_eq_zero hhead]
        exact length_pos_of_ne_nil hmsg
      | cons m' ms =>
        have hm : m ∈ (sb.head ++ [(⟨pool.take.1, msg⟩ : BufferNode)]).head? := hm
        rw [hhead] at hm
        apply h.offset
        rw [hhead]
        exact hm
    · exact fun hnil => absurd hnil (append_ne_nil_of_right_ne_nil _ (cons_ne_nil _ _))
    · rw [getLast?_append_of_ne_nil _ (cons_ne_nil _ _)]
      rfl
    · rw [hunread]
      exact hsize
    · rw [hunread]
      exact hfit
  · exact hunread _ _
  · obtain ⟨hfree, hallocated⟩ := pool.filled_free
    refine ⟨pool.filled, .inr rfl, hallocated.symm, ?_⟩
    rw [hfree, nodes, nodes, map_append, cons_append, ← append_assoc]
    exact perm_append_singleton _ _

theorem pop_of_valid (pool : BufferPool) (h : sb.Valid) (hn : 0 < n) (hle : n ≤ sb.unread.length) :
    ∃ sb' pool', sb.pop pool n =
        some (.popped (some (sb.unread.take n)) (sb.unread.drop n).length, sb', pool') ∧
      Turns sb pool (sb.unread.drop n) sb' pool' := by
  have hlimit := h.limit
  have hsz : toInt n = n := toInt_of_lt (by omega)
  have hsize := h.size
  obtain ⟨sb', pool', hstring, htakes, -⟩ :=
    popLString_of_layout pool h.toLayout hn (Nat.zero_le n) hle
  rw [pop, hsz, if_neg (by omega), show (0 : ℤ) = (0 : ℕ) from rfl, hstring, map_some]
  refine ⟨_, _, congrArg some (Prod.ext ?_ rfl), htakes.turns h hle⟩
  rw [length_drop]
  exact congrArg₂ QueueResult.popped rfl (by omega)

theorem pop_of_none (pool : BufferPool) (h : sb.Valid) (hn : sb.size < toInt n ∨ toInt n = 0) :
    sb.pop pool n = some (.popped none sb.unread.length, sb, pool) := by
  rw [pop, if_pos hn, h.size]

theorem Layout.eq_of_nil (h : sb.Layout) (hhead : sb.head = []) : sb = ⟨sb.size, 0, [], none⟩ := by
  obtain ⟨-, -, hoffset, htail⟩ := h
  obtain ⟨size, offset, head, tail⟩ := sb
  obtain rfl : head = [] := hhead
  rw [show offset = 0 from hoffset rfl, show tail = none from htail]

/-- All nodes are given back, by induction on the chunks. -/
theorem clearLoop_of_layout (pool : BufferPool) (h : sb.Layout) (hhead : sb.head = ms) :
    ∃ pool', clearLoop ms.length sb pool = some (⟨sb.size, 0, [], none⟩, pool') ∧
      SamePool sb.nodes pool [] pool' := by
  induction ms generalizing sb pool with
  | nil =>
    rw [length_nil, clearLoop, if_pos hhead, nodes, hhead, ← h.eq_of_nil hhead]
    exact ⟨pool, rfl, .refl _ _⟩
  | cons m ms ih =>
    obtain ⟨pool', hloop, hnodes⟩ :=
      ih { pool with free := m.node :: pool.free } (h.behind hhead sb.size) rfl
    rw [length_cons, clearLoop, if_neg (by rw [hhead]; exact cons_ne_nil m ms),
      returnFreeNode_of_head pool hhead h.tail, bind_some]
    exact ⟨pool', hloop, (samePool_return hhead pool).trans hnodes⟩

/-- All bytes are added to the string, by induction on the chunks. -/
theorem readallLoop_of_layout (pool : BufferPool) (b : List UInt8) (h : sb.Layout)
    (hhead : sb.head = ms) :
    ∃ pool', readallLoop ms.length sb pool b =
        some (b ++ sb.unread, ⟨sb.size, 0, [], none⟩, pool') ∧
      SamePool sb.nodes pool [] pool' := by
  induction ms generalizing sb pool b with
  | nil =>
    rw [length_nil, readallLoop, if_pos hhead, unread, nodes, hhead, flatMap_nil,
      drop_nil, append_nil, ← h.eq_of_nil hhead]
    exact ⟨pool, rfl, .refl _ _⟩
  | cons m ms ih =>
    obtain ⟨hoffset, hsz, hunread⟩ := h.first hhead
    have hbytes : sb.bytes m (m.sz - sb.offset) = m.msg.drop sb.offset := by
      rw [show m.sz - sb.offset = ((m.msg.length - sb.offset : ℕ) : ℤ) by omega, bytes_eq,
        ← length_drop, take_length]
    obtain ⟨pool', hloop, hnodes⟩ :=
      ih { pool with free := m.node :: pool.free } (b ++ m.msg.drop sb.offset)
        (h.behind hhead sb.size) rfl
    rw [length_cons, readallLoop, hhead]
    simp only
    rw [returnFreeNode_of_head pool hhead h.tail, bind_some, hbytes, hunread, ← append_assoc]
    exact ⟨pool', hloop, (samePool_return hhead pool).trans hnodes⟩

theorem turns_nil (hnodes : SamePool sb.nodes pool [] pool') :
    Turns sb pool [] ⟨0, 0, [], none⟩ pool' :=
  ⟨valid_empty, rfl, pool, .inl rfl, hnodes⟩

/-- `lclearbuffer` gives all nodes back. -/
theorem clear_of_valid (pool : BufferPool) (h : sb.Valid) :
    ∃ sb' pool', sb.clear pool = some (.done, sb', pool') ∧ Turns sb pool [] sb' pool' := by
  obtain ⟨pool', hloop, hnodes⟩ := clearLoop_of_layout pool h.toLayout rfl
  rw [clear, hloop, map_some]
  exact ⟨_, _, rfl, turns_nil hnodes⟩

/-- `lreadall` returns all data. -/
theorem readall_of_valid (pool : BufferPool) (h : sb.Valid) :
    ∃ sb' pool', sb.readall pool = some (.all sb.unread, sb', pool') ∧
      Turns sb pool [] sb' pool' := by
  obtain ⟨pool', hloop, hnodes⟩ := readallLoop_of_layout pool [] h.toLayout rfl
  rw [readall, hloop, map_some]
  exact ⟨_, _, rfl, turns_nil hnodes⟩

end SocketBuffer

end Uboss.Lib
