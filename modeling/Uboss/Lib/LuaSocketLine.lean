import Uboss.Lib.LuaSocketPop

/-!
# Lines of a socket buffer

`check_sep` compares a separator with the bytes from a position on, over the ends of the chunks, and
`lreadline` moves the position. Both see only the bytes that follow the position.
-/

namespace Uboss.Lib

open Math List Int Option

variable {nodes ms : List BufferNode} {m : BufferNode} {off i : ℕ} {sep a b : List UInt8}

/-- A position in the bytes of nodes, as a search has it. -/
structure Cursor (nodes : List BufferNode) (off : ℕ) : Prop where
  chunk : ∀ m ∈ nodes, m.msg ≠ [] ∧ m.msg.length < 2 ^ 31
  offset : ∀ m ∈ nodes.head?, off < m.msg.length

/-- The bytes that follow a position. -/
def bytesFrom (nodes : List BufferNode) (off : ℕ) : List UInt8 :=
  (nodes.flatMap BufferNode.msg).drop off

namespace Cursor

variable (h : Cursor (m :: ms) off)
include h

theorem first : off < m.msg.length ∧ m.sz = m.msg.length ∧
      bytesFrom (m :: ms) off = m.msg.drop off ++ bytesFrom ms 0 := by
  have hoffset : off < m.msg.length := h.offset m rfl
  refine ⟨hoffset, toInt_of_lt (h.chunk m mem_cons_self).2, ?_⟩
  rw [bytesFrom, flatMap_cons, drop_append_of_le_length hoffset.le]
  rfl

theorem next : Cursor ms 0 := by
  constructor
  · exact fun m' hm' => h.chunk m' (mem_cons_of_mem m hm')
  · intro m' hm'
    have hmem : m' ∈ ms := mem_of_mem_head? hm'
    exact length_pos_of_ne_nil (h.chunk m' (mem_cons_of_mem m hmem)).1

theorem bytesFrom_ne_nil : bytesFrom (m :: ms) off ≠ [] := by
  obtain ⟨hoffset, -, hbytes⟩ := h.first
  rw [hbytes]
  apply append_ne_nil_of_left_ne_nil
  apply ne_nil_of_length_pos
  rw [length_drop]
  omega

theorem succ : (off + 1 = m.msg.length ∧ (bytesFrom (m :: ms) off).tail = bytesFrom ms 0) ∨
      (off + 1 < m.msg.length ∧ Cursor (m :: ms) (off + 1) ∧
        (bytesFrom (m :: ms) off).tail = bytesFrom (m :: ms) (off + 1)) := by
  have hdrop : (bytesFrom (m :: ms) off).tail = bytesFrom (m :: ms) (off + 1) := tail_drop
  obtain ⟨hoffset, -, -⟩ := h.first
  rcases Nat.lt_or_ge (off + 1) m.msg.length with hlt | hge
  · refine .inr ⟨hlt, ⟨h.chunk, fun m' hm' => ?_⟩, hdrop⟩
    obtain rfl := some.inj hm'
    exact hlt
  · have heq : off + 1 = m.msg.length := by omega
    refine .inl ⟨heq, hdrop.trans ?_⟩
    rw [bytesFrom, flatMap_cons, heq, drop_left]
    rfl

end Cursor

/-! ### The comparison -/

theorem prefix_append_iff (h : a.length ≤ sep.length) :
    sep <+: a ++ b ↔ a = sep.take a.length ∧ sep.drop a.length <+: b := by
  constructor
  · intro hstarts
    have htake : a = sep.take a.length := by
      rw [prefix_iff_eq_take.mp hstarts, take_take, Nat.min_eq_left h, take_left]
    refine ⟨htake, ?_⟩
    have hdrop := hstarts.drop a.length
    rwa [drop_left] at hdrop
  · rintro ⟨htake, hstarts⟩
    have hjoin := (prefix_append_right_inj a).mpr hstarts
    nth_rewrite 1 [htake] at hjoin
    rwa [take_append_drop] at hjoin

/-- By induction on the nodes: in each of them the next part of the separator is compared. -/
theorem checkSep_eq (h : Cursor nodes off) (hnodes : nodes ≠ [])
    (hle : sep.length ≤ (bytesFrom nodes off).length) :
    checkSep nodes off sep = some (decide (sep <+: bytesFrom nodes off)) := by
  induction nodes generalizing off sep with
  | nil => exact absurd rfl hnodes
  | cons m ms ih =>
    obtain ⟨hoffset, hsz, hbytes⟩ := h.first
    have hlength : (m.msg.drop off).length = m.msg.length - off := length_drop
    rw [hbytes, length_append, hlength] at hle
    rw [checkSep, hbytes]
    by_cases hends : (sep.length : ℤ) ≤ m.sz - off
    · -- the separator would end in this node
      have htake : (m.msg.drop off ++ bytesFrom ms 0).take sep.length =
          (m.msg.drop off).take sep.length := take_append_of_le_length (by omega)
      rw [if_pos hends, sameBytes, take_length]
      apply congrArg some
      rw [decide_eq_decide, prefix_iff_eq_take, htake]
      exact eq_comm
    · have htoNat : (m.sz - off).toNat = (m.msg.drop off).length := by omega
      have hiff : sep <+: m.msg.drop off ++ bytesFrom ms 0 ↔ _ := prefix_append_iff (by omega)
      rw [if_neg hends, htoNat, sameBytes, take_length]
      by_cases hsame : m.msg.drop off = sep.take (m.msg.drop off).length
      · have hrest : ms ≠ [] := by
          rintro rfl
          rw [bytesFrom, flatMap_nil, drop_nil, length_nil] at hle
          omega
        rw [if_neg (fun hdiffer => of_decide_eq_false hdiffer.2 hsame),
          ih h.next hrest (by rw [length_drop]; omega)]
        exact congrArg some (decide_eq_decide.mpr (by rw [hiff, and_iff_right hsame]))
      · rw [if_pos ⟨by omega, decide_eq_false hsame⟩, decide_eq_false (fun hstarts =>
          hsame (hiff.mp hstarts).1)]

/-! ### The search -/

/-- By induction on the rounds: so many are left as there are positions at which the separator would
end within the bytes. -/
theorem findSep_eq (h : Cursor nodes off) (hsep : sep ≠ []) {rounds : ℕ}
    (hrounds : rounds = (bytesFrom nodes off).length + 1 - sep.length) :
    findSep sep rounds i nodes off = some ((occurrence sep (bytesFrom nodes off)).map (· + i)) := by
  have hpos : 0 < sep.length := length_pos_of_ne_nil hsep
  induction rounds generalizing i nodes off with
  | zero =>
    rw [findSep, occurrence_of_length_lt (by omega), map_none]
  | succ rounds ih =>
    cases nodes with
    | nil =>
      rw [bytesFrom, flatMap_nil, drop_nil, length_nil] at hrounds
      omega
    | cons m ms =>
      obtain ⟨-, hsz, -⟩ := h.first
      obtain ⟨x, q, hq⟩ := exists_cons_of_ne_nil h.bytesFrom_ne_nil
      have hlength : rounds = q.length + 1 - sep.length := by
        rw [hq, length_cons] at hrounds
        omega
      rw [findSep, checkSep_eq h (cons_ne_nil m ms) (by omega), bind_some, hq]
      by_cases hstarts : sep <+: x :: q
      · rw [decide_eq_true hstarts, if_pos rfl, occurrence_of_starts hsep hstarts, map_some,
          Nat.zero_add]
      · have hmap : (occurrence sep (x :: q)).map (· + i) =
            (occurrence sep q).map (· + (i + 1)) := by
          rw [occurrence_cons_of_not_starts hstarts, Option.map_map]
          apply congrArg (Option.map · (occurrence sep q))
          funext p
          exact (Nat.add_right_comm p 1 i).trans (Nat.add_assoc p i 1)
        rw [decide_eq_false hstarts, if_neg Bool.false_ne_true, hmap]
        -- the next byte is in this node or in the next one
        rcases h.succ with ⟨heq, htail⟩ | ⟨hlt, hnext, htail⟩
        · rw [hq, tail_cons] at htail
          rw [if_pos (by omega), htail]
          by_cases hms : ms = []
          · rw [if_pos hms, hms]
            rfl
          · rw [if_neg hms]
            exact ih h.next (htail ▸ hlength)
        · rw [hq, tail_cons] at htail
          rw [if_neg (by omega), htail]
          exact ih hnext (htail ▸ hlength)

namespace SocketBuffer

variable {sb : SocketBuffer} {pool : BufferPool} {check : Bool} {p : ℕ}

theorem toInt_le (n : ℕ) : toInt n ≤ n := by
  rw [toInt, Int32.toInt_ofNat', bmod_def]
  simp only [Int32.size]
  split_ifs <;> omega

theorem Layout.cursor (h : sb.Layout) : Cursor sb.head sb.offset := ⟨h.chunk, h.offset⟩

theorem Layout.unread_eq_nil_iff (h : sb.Layout) : sb.unread = [] ↔ sb.head = [] := by
  constructor
  · intro hnil
    have hcursor := h.cursor
    cases hhead : sb.head with
    | nil => rfl
    | cons m ms =>
      rw [hhead] at hcursor
      apply absurd hnil
      rw [unread, hhead]
      exact hcursor.bytesFrom_ne_nil
  · intro hhead
    rw [unread, hhead, flatMap_nil, drop_nil]

/-- The part of a separator that is compared. -/
def cutSep (sep : List UInt8) : List UInt8 := sep.take (toInt sep.length).toNat

theorem cutSep_eq (h : sep.length < 2 ^ 31) : cutSep sep = sep := by
  rw [cutSep, toInt_of_lt h, toNat_natCast, take_length]

/-- When `lreadline` finds nothing: in an empty buffer, or when the part of the separator that is
compared does not occur. -/
def FindsNothing (q sep : List UInt8) : Prop :=
  q = [] ∨ 0 < toInt sep.length ∧ occurrence (cutSep sep) q = none

section

variable (h : sb.Valid)
include h

theorem findSep_of_valid (hsep : 0 < toInt sep.length) :
    findSep (cutSep sep) (sb.size - toInt sep.length + 1).toNat 0 sb.head sb.offset =
      some (occurrence (cutSep sep) sb.unread) := by
  have hlength : (cutSep sep).length = (toInt sep.length).toNat := by
    have hle := toInt_le sep.length
    rw [cutSep, length_take]
    omega
  have hne : cutSep sep ≠ [] := ne_nil_of_length_pos (by omega)
  have hrounds : (sb.size - toInt sep.length + 1).toNat =
      (bytesFrom sb.head sb.offset).length + 1 - (cutSep sep).length := by
    have hsize : sb.size = (bytesFrom sb.head sb.offset).length := h.size
    omega
  rw [findSep_eq h.toLayout.cursor hne hrounds]
  exact congrArg some map_id'

/-- Without a separator in the data `lreadline` returns nothing. -/
theorem readline_of_nothing (hsep : FindsNothing sb.unread sep) :
    sb.readline pool check sep = some (.nothing, sb, pool) := by
  rw [readline]
  split
  · rfl
  · rename_i hhead
    rcases hsep with hnil | ⟨hpos, hnone⟩
    · exact absurd (h.unread_eq_nil_iff.mp hnil) hhead
    · have hfind := findSep_of_valid h hpos
      rw [hnone] at hfind
      simp only
      rw [if_neg (by omega), ← cutSep, hfind]
      rfl

theorem readline_of_some (hsep : 0 < toInt sep.length)
    (hp : occurrence (cutSep sep) sb.unread = some p) :
    sb.readline pool check sep =
      if check then some (.found, sb, pool)
      else (sb.popLString pool (toInt (p + sep.length)) (toInt sep.length)).map fun r =>
        (.line r.1, { r.2.1 with size := Int.bmod (sb.size - (p + sep.length : ℕ)) (2 ^ 32) },
          r.2.2) := by
  rw [readline]
  split
  · rename_i hhead
    rw [h.unread_eq_nil_iff.mpr hhead] at hp
    cases hp
  · have hfind := findSep_of_valid h hsep
    rw [hp] at hfind
    simp only
    rw [if_neg (by omega), ← cutSep, hfind]
    rfl

/-- Of a separator whose length is cut to zero nothing is compared. -/
theorem findSep_nil (hhead : sb.head ≠ []) :
    findSep [] (sb.size + 1).toNat 0 sb.head sb.offset = some (some 0) := by
  have hcheck : checkSep sb.head sb.offset [] = _ :=
    checkSep_eq h.toLayout.cursor hhead (Nat.zero_le _)
  obtain ⟨rounds, hrounds⟩ : ∃ rounds, (sb.size + 1).toNat = rounds + 1 := by
    have hsize := h.size
    exact ⟨sb.unread.length, by omega⟩
  rw [hrounds]
  cases hnodes : sb.head with
  | nil => exact absurd hnodes hhead
  | cons m ms =>
    rw [hnodes] at hcheck
    rw [findSep, hcheck, bind_some, decide_eq_true List.nil_prefix, if_pos rfl]

/-- With one it does not. -/
theorem readline_ne_nothing (hsep : ¬ FindsNothing sb.unread sep) (r : SocketBuffer × BufferPool) :
    sb.readline pool check sep ≠ some (.nothing, r) := by
  obtain ⟨hnil, hsome⟩ := not_or.mp hsep
  have hhead : sb.head ≠ [] := fun hhead => hnil (h.unread_eq_nil_iff.mpr hhead)
  -- whatever is found, the result is no failure
  have hfound : ∀ x : Option (List UInt8 × SocketBuffer × BufferPool), ∀ size : ℤ,
      (if check then some (QueueResult.found, sb, pool)
        else x.map fun r => (.line r.1, { r.2.1 with size }, r.2.2)) ≠ some (.nothing, r) := by
    intro x size heq
    split_ifs at heq
    · cases heq
    · obtain ⟨r', -, hr'⟩ := map_eq_some_iff.mp heq
      cases hr'
  rcases lt_trichotomy (toInt sep.length) 0 with hneg | hzero | hpos
  · rw [readline]
    split
    · contradiction
    · simp only
      rw [if_pos hneg]
      exact some_ne_none _ |>.symm
  · rw [readline]
    split
    · contradiction
    · simp only
      rw [hzero, if_neg (lt_irrefl 0), toNat_zero, take_zero, Int.sub_zero, findSep_nil h hhead]
      exact hfound _ _
  · obtain ⟨p, hp⟩ := ne_none_iff_exists'.mp fun hnone => hsome ⟨hpos, hnone⟩
    rw [readline_of_some h hpos hp]
    exact hfound _ _

end

/-- `lreadline` with a separator whose length is an `int`. -/
theorem readline_of_valid (pool : BufferPool) (check : Bool) (h : sb.Valid) (hsep : sep ≠ [])
    (hlt : sep.length < 2 ^ 31) :
    ∃ sb' pool', sb.readline pool check sep =
        some (((QueueOp.line check sep).apply sb.unread).1, sb', pool') ∧
      Turns sb pool ((QueueOp.line check sep).apply sb.unread).2 sb' pool' := by
  have hint : toInt sep.length = sep.length := toInt_of_lt hlt
  have hpos : 0 < sep.length := length_pos_of_ne_nil hsep
  have hcut := cutSep_eq hlt
  rw [QueueOp.apply]
  cases hp : occurrence sep sb.unread with
  | none =>
    have hnothing : FindsNothing sb.unread sep := .inr ⟨by omega, by rw [hcut, hp]⟩
    exact ⟨sb, pool, readline_of_nothing h hnothing, .refl h pool⟩
  | some p =>
    have hp' : occurrence (cutSep sep) sb.unread = some p := by rw [hcut, hp]
    rw [readline_of_some h (by omega) hp']
    simp only
    cases check with
    | true => exact ⟨sb, pool, rfl, .refl h pool⟩
    | false =>
      -- the line and the separator are taken, and the separator is skipped
      have hle := length_le_of_occurrence hsep hp
      have hlimit := h.limit
      have hsize : Int.bmod (sb.size - (p + sep.length : ℕ)) (2 ^ 32) =
          sb.size - (p + sep.length : ℕ) := by
        have hsize := h.size
        exact bmod_eq_of_le_mul_two (by omega) (by omega)
      obtain ⟨sb', pool', hstring, htakes, -⟩ :=
        popLString_of_layout pool h.toLayout (by omega) (Nat.le_add_left sep.length p) hle
      rw [Nat.add_sub_cancel] at hstring
      rw [if_neg Bool.false_ne_true, if_neg Bool.false_ne_true, hint, toInt_of_lt (by omega),
        hstring, hsize]
      exact ⟨_, _, rfl, htakes.turns h hle⟩

end SocketBuffer

end Uboss.Lib
