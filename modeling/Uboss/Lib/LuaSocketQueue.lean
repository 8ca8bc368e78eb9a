import Uboss.Lib.LuaSocketLine

/-!
# A socket buffer is a queue of bytes

All buffers of a service with their pool, and any sequence of operations on them. The results are
those of queues that know nothing of chunks, as long as no number is cut to 32 bits; and where one
is cut, they are the same only if it makes no difference.
-/

namespace Uboss.Lib

open Math Function Option List Prod SocketBuffer

/-- An operation on a buffer and the pool. -/
def SocketBuffer.apply (sb : SocketBuffer) (pool : BufferPool) :
    QueueOp UInt8 → Option (QueueResult UInt8 × SocketBuffer × BufferPool)
  | .push chunk => sb.push pool chunk
  | .pop n => sb.pop pool n
  | .line check sep => sb.readline pool check sep
  | .all => sb.readall pool
  | .clear => sb.clear pool

/-- The buffers of a service. -/
structure SocketBuffers where
  pool : BufferPool
  buffer : ℕ → SocketBuffer

namespace SocketBuffers

def init : SocketBuffers := ⟨⟨0, 0, []⟩, fun _ => .empty⟩

/-- An operation on one buffer. -/
def step (s : SocketBuffers) (x : ℕ × QueueOp UInt8) : Option (QueueResult UInt8 × SocketBuffers) :=
  ((s.buffer x.1).apply s.pool x.2).map fun r => (r.1, ⟨r.2.2, update s.buffer x.1 r.2.1⟩)

/-- Operations on any buffers, with their results. -/
def run (s : SocketBuffers) :
    List (ℕ × QueueOp UInt8) → Option (List (QueueResult UInt8) × SocketBuffers)
  | [] => some ([], s)
  | x :: w => (s.step x).bind fun r => (run r.2 w).map fun rest => (r.1 :: rest.1, rest.2)

/-- The nodes of each buffer. -/
def nodes (s : SocketBuffers) (id : ℕ) : List ℕ := (s.buffer id).nodes

end SocketBuffers

/-- Chunks and separators are not empty. -/
def Asked : QueueOp UInt8 → Prop
  | .push chunk => chunk ≠ []
  | .line _ sep => sep ≠ []
  | _ => True

/-- The numbers are `int`s, or cutting them makes no difference. -/
def Fits (q : List UInt8) : QueueOp UInt8 → Prop
  | .push chunk => (q ++ chunk).length < 2 ^ 31
  | .pop n => n < 2 ^ 31 ∨ toInt n = 0 ∨ q.length < toInt n
  | .line _ sep => sep.length < 2 ^ 31 ∨ SocketBuffer.FindsNothing q sep
  | _ => True

/-- Each operation fits the queue as it is then. -/
def FitsAll (queues : ℕ → List UInt8) : List (ℕ × QueueOp UInt8) → Prop
  | [] => True
  | (id, op) :: w => Fits (queues id) op ∧ FitsAll (update queues id (op.apply (queues id)).2) w

variable {sb : SocketBuffer} {pool : BufferPool} {op : QueueOp UInt8} {s s' : SocketBuffers}
  {queues : ℕ → List UInt8} {id : ℕ} {w : List (ℕ × QueueOp UInt8)}

/-! ### One operation -/

theorem apply_of_fits (pool : BufferPool) (h : sb.Valid) (hasked : Asked op)
    (hfits : Fits sb.unread op) :
    ∃ sb' pool', sb.apply pool op = some ((op.apply sb.unread).1, sb', pool') ∧
      sb.Turns pool (op.apply sb.unread).2 sb' pool' := by
  have hlimit := h.limit
  cases op with
  | push chunk => exact push_of_valid pool h hasked hfits
  | pop n =>
    rw [QueueOp.apply]
    by_cases hn : 0 < n ∧ n ≤ sb.unread.length
    · rw [if_pos hn]
      exact pop_of_valid pool h hn.1 hn.2
    · rw [if_neg hn]
      have hnone : sb.size < toInt n ∨ toInt n = 0 := by
        rw [h.size]
        rcases hfits with hlt | hzero | hlt
        · have hint := toInt_of_lt hlt
          omega
        · exact .inr hzero
        · exact .inl hlt
      exact ⟨sb, pool, pop_of_none pool h hnone, .refl h pool⟩
  | line check sep =>
    rcases Nat.lt_or_ge sep.length (2 ^ 31) with hlt | hge
    · exact readline_of_valid pool check h hasked hlt
    · have hnothing := hfits.resolve_left (Nat.not_lt.mpr hge)
      have hnone : occurrence sep sb.unread = none := occurrence_of_length_lt (by omega)
      rw [QueueOp.apply, hnone]
      exact ⟨sb, pool, readline_of_nothing h hnothing, .refl h pool⟩
  | all => exact readall_of_valid pool h
  | clear => exact clear_of_valid pool h

theorem fits_of_apply {r : SocketBuffer × BufferPool} (h : sb.Valid)
    (happly : sb.apply pool op = some ((op.apply sb.unread).1, r)) : Fits sb.unread op := by
  have hlimit := h.limit
  by_contra hfits
  cases op with
  | push chunk =>
    have hfits : ¬ (sb.unread ++ chunk).length < 2 ^ 31 := hfits
    have hpush : sb.push pool chunk = some (.size (sb.unread ++ chunk).length, r) := happly
    rw [push, if_pos h.tail] at hpush
    have hsize := QueueResult.size.inj (mk.inj (some.inj hpush)).1
    have hlt : Int.bmod (sb.size + toInt chunk.length) (2 ^ 32) < 2 ^ 31 := Int.bmod_lt (by decide)
    have hsize : Int.bmod (sb.size + toInt chunk.length) (2 ^ 32) = _ := hsize
    omega
  | pop n =>
    have hfits : ¬ (n < 2 ^ 31 ∨ toInt n = 0 ∨ sb.unread.length < toInt n) := hfits
    have hnot : ¬ (0 < n ∧ n ≤ sb.unread.length) := by omega
    have hpop : sb.pop pool n = some (((QueueOp.pop n).apply sb.unread).1, r) := happly
    have hsize := h.size
    rw [QueueOp.apply, if_neg hnot, pop, if_neg (by omega)] at hpop
    obtain ⟨r', -, hr'⟩ := map_eq_some_iff.mp hpop
    cases hr'
  | line check sep =>
    obtain ⟨hlength, hsome⟩ := not_or.mp hfits
    have hnone : occurrence sep sb.unread = none := occurrence_of_length_lt (by omega)
    have hline : sb.readline pool check sep =
        some (((QueueOp.line check sep).apply sb.unread).1, r) :=
      happly
    rw [QueueOp.apply, hnone] at hline
    exact readline_ne_nothing h hsome r hline
  | all => exact hfits trivial
  | clear => exact hfits trivial

/-! ### All buffers -/

/-- Each node of the pool is free or in one buffer. -/
def SocketBuffers.Kept (s : SocketBuffers) : Prop :=
  Conserved (fun node => node < s.pool.allocated) s.pool.free s.nodes

/-- The buffers hold these queues. -/
structure Holds (s : SocketBuffers) (queues : ℕ → List UInt8) : Prop where
  valid : ∀ id, (s.buffer id).Valid
  unread : ∀ id, (s.buffer id).unread = queues id
  kept : s.Kept

theorem holds_init : Holds .init fun _ => [] where
  valid _ := valid_empty
  unread _ := rfl
  kept := Conserved.empty Nat.not_lt_zero

theorem kept_filled (h : s.Kept) :
    Conserved (fun node => node < s.pool.filled.allocated) s.pool.filled.free s.nodes := by
  rw [BufferPool.filled]
  split_ifs with hfree
  · have hfresh : ∀ node ∈ List.range' s.pool.allocated s.pool.blockSize,
        ¬ node < s.pool.allocated := by
      intro node hnode
      rw [mem_range'_1] at hnode
      omega
    have hmem : ∀ node, node < s.pool.allocated + s.pool.blockSize ↔
        node ∈ List.range' s.pool.allocated s.pool.blockSize ∨ node < s.pool.allocated := by
      intro node
      rw [mem_range'_1]
      omega
    have hgrow := Conserved.grow h nodup_range' hfresh hmem
    rw [hfree, append_nil] at hgrow
    exact hgrow
  · exact h

section

variable {sb' : SocketBuffer} {pool' : BufferPool} {id' : ℕ}

theorem buffer_self : (⟨pool', update s.buffer id sb'⟩ : SocketBuffers).buffer id = sb' :=
  update_self id sb' s.buffer

theorem buffer_of_ne (hid : id' ≠ id) :
    (⟨pool', update s.buffer id sb'⟩ : SocketBuffers).buffer id' = s.buffer id' :=
  update_of_ne hid sb' s.buffer

end

section

variable (h : Holds s queues)
include h

/-- One buffer has changed, and has taken its nodes from the pool. -/
theorem Holds.turns {q : List UInt8} {sb' : SocketBuffer} {pool' : BufferPool}
    (hturns : (s.buffer id).Turns s.pool q sb' pool') :
    Holds ⟨pool', update s.buffer id sb'⟩ (update queues id q) := by
  constructor
  · intro id'
    by_cases hid : id' = id
    · subst hid
      rw [buffer_self]
      exact hturns.valid
    · rw [buffer_of_ne hid]
      exact h.valid id'
  · intro id'
    by_cases hid : id' = id
    · subst hid
      rw [buffer_self, update_self]
      exact hturns.unread
    · rw [buffer_of_ne hid, update_of_ne hid]
      exact h.unread id'
  · obtain ⟨start, hstart, hallocated, hperm⟩ := hturns.nodes
    have hkept : Conserved (fun node => node < start.allocated) start.free s.nodes := by
      rcases hstart with rfl | rfl
      · exact h.kept
      · exact kept_filled h.kept
    have hmove := hkept.move hperm
    rw [← hallocated] at hmove
    refine hmove.of_eq fun id' => ?_
    rw [SocketBuffers.nodes]
    by_cases hid : id' = id
    · subst hid
      rw [buffer_self, update_self]
    · rw [buffer_of_ne hid, update_of_ne hid, SocketBuffers.nodes]

theorem step_of_fits (hasked : Asked op) (hfits : Fits (queues id) op) :
    ∃ s', s.step (id, op) = some ((op.apply (queues id)).1, s') ∧
      Holds s' (update queues id (op.apply (queues id)).2) := by
  rw [← h.unread id] at hfits ⊢
  obtain ⟨sb', pool', happly, hturns⟩ := apply_of_fits s.pool (h.valid id) hasked hfits
  rw [SocketBuffers.step, happly]
  exact ⟨_, rfl, h.turns hturns⟩

theorem fits_of_step (hstep : s.step (id, op) = some ((op.apply (queues id)).1, s')) :
    Fits (queues id) op := by
  rw [← h.unread id] at hstep ⊢
  obtain ⟨⟨result, r⟩, happly, hresult⟩ := map_eq_some_iff.mp hstep
  obtain ⟨rfl, -⟩ := mk.inj hresult
  exact fits_of_apply (h.valid id) happly

/-! ### Runs -/

/-- By induction on the operations. -/
theorem run_of_fits (hasked : ∀ x ∈ w, Asked x.2) (hfits : FitsAll queues w) :
    ∃ s', s.run w = some ((answers queues w).1, s') ∧ Holds s' (answers queues w).2 := by
  induction w generalizing s queues with
  | nil => exact ⟨s, rfl, h⟩
  | cons x w ih =>
    obtain ⟨id, op⟩ := x
    obtain ⟨hop, hrest⟩ := hfits
    obtain ⟨s₁, hstep, hnext⟩ := step_of_fits h (hasked _ mem_cons_self) hop
    obtain ⟨s', hrun, hholds⟩ := ih hnext (fun x hx => hasked x (mem_cons_of_mem _ hx)) hrest
    rw [SocketBuffers.run, hstep, bind_some, hrun]
    exact ⟨s', rfl, hholds⟩

/-- By induction on the operations: the first one that does not fit has a wrong result. -/
theorem fits_of_run (hasked : ∀ x ∈ w, Asked x.2)
    (hrun : s.run w = some ((answers queues w).1, s')) : FitsAll queues w := by
  induction w generalizing s queues with
  | nil => trivial
  | cons x w ih =>
    obtain ⟨id, op⟩ := x
    obtain ⟨⟨result, s₁⟩, hstep, hrest⟩ := bind_eq_some_iff.mp hrun
    obtain ⟨⟨results, s₂⟩, hrun', hresults⟩ := map_eq_some_iff.mp hrest
    obtain ⟨hlist, rfl⟩ := mk.inj hresults
    obtain ⟨rfl, rfl⟩ := cons.inj hlist
    have hfits := fits_of_step h hstep
    obtain ⟨s₁', hstep', hnext⟩ := step_of_fits h (hasked _ mem_cons_self) hfits
    obtain ⟨-, rfl⟩ := mk.inj (some.inj (hstep.symm.trans hstep'))
    exact ⟨hfits, ih hnext (fun x hx => hasked x (mem_cons_of_mem _ hx)) hrun'⟩

end

/-- Whatever chunks are pushed, and whatever is read: the results are those of queues of bytes, the
buffers hold the bytes of the queues, their sizes are the numbers of these bytes, and each node is
free or in one buffer. This is so exactly if no number is cut to 32 bits where that makes a
difference. -/
theorem answers_iff_fits (w : List (ℕ × QueueOp UInt8)) (hasked : ∀ x ∈ w, Asked x.2) :
    FitsAll (fun _ => []) w ↔
      ∃ s, SocketBuffers.init.run w = some ((answers (fun _ => []) w).1, s) ∧
        (∀ id, (s.buffer id).unread = (answers (fun _ => []) w).2 id) ∧
        (∀ id, (s.buffer id).size = (s.buffer id).unread.length) ∧
        Conserved (fun node => node < s.pool.allocated) s.pool.free s.nodes := by
  constructor
  · intro hfits
    obtain ⟨s, hrun, hholds⟩ := run_of_fits holds_init hasked hfits
    exact ⟨s, hrun, hholds.unread, fun id => (hholds.valid id).size, hholds.kept⟩
  · rintro ⟨s, hrun, -⟩
    exact fits_of_run holds_init hasked hrun

/-- A line that was pushed in three chunks. -/
theorem answers_iff_fits_line :
    ∃ s, SocketBuffers.init.run [(1, .push [97]), (1, .push [98, 13]), (1, .push [10, 99]),
        (1, .line false [13, 10])] = some ([.size 1, .size 3, .size 5, .line [97, 98]], s) ∧
      (s.buffer 1).unread = [99] ∧ (s.buffer 1).size = 1 := by
  have hasked : ∀ x ∈ [(1, QueueOp.push [(97 : UInt8)]), (1, .push [98, 13]), (1, .push [10, 99]),
      (1, .line false [13, 10])], Asked x.2 := by
    simp [Asked]
  have hfits : FitsAll (fun _ => []) [(1, .push [97]), (1, .push [98, 13]), (1, .push [10, 99]),
      (1, .line false [13, 10])] := by
    simp [FitsAll, Fits, QueueOp.apply]
  obtain ⟨s, hrun, hunread, hsize, -⟩ := (answers_iff_fits _ hasked).mp hfits
  have hbytes : (s.buffer 1).unread = [99] := hunread 1
  exact ⟨s, hrun, hbytes, by rw [hsize, hbytes]; rfl⟩

/-- A number of bytes that is cut to one. -/
theorem pop_cut : (SocketBuffers.init.run [(0, .push [65]), (0, .pop (2 ^ 32 + 1))]).map Prod.fst =
        some [.size 1, .popped (some [65]) 0] ∧
      (answers (fun _ => []) [(0, .push [65]), (0, .pop (2 ^ 32 + 1))]).1 =
        [.size 1, .popped none (1 : ℤ)] := by
  decide +kernel

end Uboss.Lib
