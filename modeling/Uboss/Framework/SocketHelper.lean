import Mathlib.Data.List.Infix
import Mathlib.Data.List.Nodup
import Mathlib.Data.PNat.Defs
import Uboss.Math.Arrivals

/-!
# Reading what was read before

`preread` of `sockethelper.lua`: a function that reads from a string first and then from a socket.
It does not look at the bytes, which may be of any type. That a byte is returned once is a statement
about bytes that are told apart by their positions.
-/

namespace Uboss.Framework.SocketHelper

open Math List Option Prod

variable {α β : Type}

/-- `socket.read(fd, sz)`: without a size the next piece, and otherwise as many bytes. `none` is
returned where the stream ends before, and what was left of it is dropped. -/
def readbytes (sz : Option ℕ+) (stream : List (List α)) : Option (List α) × List (List α) :=
  match sz with
  | none =>
    match stream with
    | [] => (none, [])
    | p :: ps => (some p, ps)
  | some n =>
    match takeExactly n stream with
    | some r => (some r.1, r.2)
    | none => (none, [])

/-- The variable of the function, and the stream behind `fd`. -/
structure Preread (α : Type) where
  str : Option (List α)
  stream : List (List α)
  deriving DecidableEq, Repr

/-- A call of the function that `preread` returns. It raises `socket_error` where the result is
`none`. -/
def preread (sz : Option ℕ+) (s : Preread α) : Option (List α) × Preread α :=
  match s.str with
  | some str =>
    match sz with
    | none => (some str, { s with str := none })
    | some n =>
      if n = str.length then (some str, { s with str := none })
      else if n < str.length then (some (str.take n), { s with str := some (str.drop n) })
      else
        -- `str` is not cleared
        let r := takeExactly (n - str.length) s.stream
        (r.map (str ++ ·.1), { s with stream := (r.map (·.2)).getD [] })
  | none =>
    let r := readbytes sz s.stream
    (r.1, { s with stream := r.2 })

/-- The function that `readfunc(fd, pre)` returns. Without `pre` it does what `preread` does once
its string is gone. -/
def readfunc (pre : Option (List α)) (stream : List (List α)) : Preread α := { str := pre, stream }

/-- The results of calls. -/
def results : List (Option ℕ+) → Preread α → List (Option (List α))
  | [], _ => []
  | sz :: calls, s => (preread sz s).1 :: results calls (preread sz s).2

/-- What the calls that do not raise an error return, concatenated. -/
def returned (calls : List (Option ℕ+)) (s : Preread α) : List α :=
  (results calls s).reduceOption.flatten

/-- The pieces of a stream, with the positions of their bytes. -/
def tagPieces (start : ℕ) : List (List α) → List (List (α × ℕ))
  | [] => []
  | p :: ps => p.zipIdx start :: tagPieces (start + p.length) ps

/-- The calls read what there is in order. -/
structure ReadsOnce (pre : List α) (stream : List (List α)) (calls : List (Option ℕ+)) : Prop where
  /-- `read(n)` returns `n` bytes. -/
  length : ∀ n x, (some n, some x) ∈ calls.zip (results calls (readfunc (some pre) stream)) →
    x.length = (n : ℕ)
  /-- The results are a prefix of `pre` and the stream behind it. -/
  isPrefix : returned calls (readfunc (some pre) stream) <+: pre ++ stream.flatten
  /-- No byte is returned twice or skipped: the results are a prefix also where each byte is marked
  with its position. -/
  positions : returned calls (readfunc (some (pre.zipIdx)) (tagPieces pre.length stream)) <+:
    (pre ++ stream.flatten).zipIdx

/-- All of the calls ask for more than there is. Once one has, nothing is left of the stream. -/
def AllRaise (left : ℕ) : ℕ → List (Option ℕ+) → Prop
  | _, [] => True
  | _, none :: _ => False
  | rest, some n :: calls => left + rest < n ∧ AllRaise left 0 calls

/-- Where a call asks for more than the `left` bytes of `pre`, and the stream has what is missing,
no later call is answered. -/
def EndsAcross (rest : ℕ) : ℕ → List (Option ℕ+) → Prop
  | _, [] => True
  | _, none :: _ => True
  | left, some n :: calls =>
    if (n : ℕ) < left then EndsAcross rest (left - n) calls
    else left < n → n ≤ left + rest → AllRaise left (left + rest - n) calls

variable {s : List α} {stream stream' : List (List α)} {calls : List (Option ℕ+)} {n : ℕ+}
  {x : List α}

/-! ### One call -/

theorem readbytes_none (h : readbytes (none : Option ℕ+) stream = (some x, stream')) :
    stream.flatten = x ++ stream'.flatten := by
  cases stream with
  | nil => cases h
  | cons p ps =>
    obtain ⟨heq, rfl⟩ := mk.inj h
    obtain rfl := some.inj heq
    rfl

theorem readbytes_some (h : readbytes (some n) stream = (some x, stream')) :
    x.length = n ∧ stream.flatten = x ++ stream'.flatten := by
  rw [readbytes] at h
  split at h
  · rename_i r htake
    obtain ⟨heq, rfl⟩ := mk.inj h
    obtain rfl := some.inj heq
    obtain ⟨hlength, hflat, -⟩ := takeExactly_spec htake
    exact ⟨hlength, hflat⟩
  · cases h

theorem readbytes_eq_none {sz : Option ℕ+} (h : (readbytes sz stream).1 = none) :
    (readbytes sz stream).2 = [] := by
  cases sz with
  | none =>
    cases stream with
    | nil => rfl
    | cons p ps => cases h
  | some n =>
    rw [readbytes] at h ⊢
    split at h
    · cases h
    · rfl

section Preread

variable (stream)

theorem preread_all : preread none { str := some s, stream } = (some s, { str := none, stream }) :=
  rfl

theorem preread_exact (h : (n : ℕ) = s.length) :
    preread (some n) { str := some s, stream } = (some s, { str := none, stream }) := if_pos h

theorem preread_shorter (h : (n : ℕ) < s.length) : preread (some n) { str := some s, stream } =
      (some (s.take n), { str := some (s.drop n), stream }) := by
  rw [preread]
  dsimp only
  rw [if_neg (Nat.ne_of_lt h), if_pos h]

theorem preread_across (h : s.length < n) : preread (some n) { str := some s, stream } =
      ((takeExactly (n - s.length) stream).map (s ++ ·.1),
        { str := some s, stream := ((takeExactly (n - s.length) stream).map (·.2)).getD [] }) := by
  rw [preread]
  dsimp only
  rw [if_neg (Nat.ne_of_gt h), if_neg (Nat.lt_asymm h)]

theorem preread_longer (h : s.length < n) (hrest : (n : ℕ) ≤ s.length + stream.flatten.length) :
    ∃ y stream', preread (some n) { str := some s, stream } =
        (some (s ++ y), { str := some s, stream := stream' }) ∧
      y.length = n - s.length ∧ stream.flatten = y ++ stream'.flatten := by
  cases htake : takeExactly (n - s.length) stream with
  | none =>
    have := takeExactly_eq_none_iff.mp htake
    omega
  | some r =>
    obtain ⟨hlength, hflat, -⟩ := takeExactly_spec htake
    refine ⟨r.1, r.2, ?_, hlength, hflat⟩
    rw [preread_across stream h, htake]
    rfl

theorem preread_raises (hrest : s.length + stream.flatten.length < n) :
    preread (some n) { str := some s, stream } = (none, { str := some s, stream := [] }) := by
  have htake : takeExactly (n - s.length) stream = none := takeExactly_eq_none_iff.mpr (by omega)
  rw [preread_across stream (by omega), htake]
  rfl

end Preread

theorem returned_cons_some {sz : Option ℕ+} {t u : Preread α} (h : preread sz t = (some x, u)) :
    returned (sz :: calls) t = x ++ returned calls u := by
  rw [returned, results, h]
  rfl

theorem returned_cons_none {sz : Option ℕ+} {t u : Preread α} (h : preread sz t = (none, u)) :
    returned (sz :: calls) t = returned calls u := by
  rw [returned, results, h]
  rfl

/-! ### Runs of calls -/

/-- Without `pre` the stream is read in order. By induction on the calls. -/
theorem returned_stream (calls : List (Option ℕ+)) (stream : List (List α)) :
    returned calls { str := none, stream } <+: stream.flatten := by
  induction calls generalizing stream with
  | nil => exact List.nil_prefix
  | cons sz calls ih =>
    cases hread : readbytes sz stream with
    | mk r stream' =>
      have hcall : preread sz { str := none, stream } =
          (r, { str := none, stream := stream' }) := by
        rw [preread]
        dsimp only
        rw [hread]
      cases r with
      | none =>
        have hend := readbytes_eq_none (congrArg Prod.fst hread)
        rw [hread] at hend
        dsimp only at hend
        rw [returned_cons_none hcall, hend]
        exact (ih []).trans List.nil_prefix
      | some x =>
        have hflat : stream.flatten = x ++ stream'.flatten := by
          cases sz with
          | none => exact readbytes_none hread
          | some n => exact (readbytes_some hread).2
        rw [returned_cons_some hcall, hflat, prefix_append_right_inj]
        exact ih stream'

theorem returned_empty (calls : List (Option ℕ+)) (stream : List (List α)) :
    returned calls { str := some [], stream } <+: stream.flatten := by
  induction calls generalizing stream with
  | nil => exact List.nil_prefix
  | cons sz calls ih =>
    cases sz with
    | none =>
      rw [returned_cons_some (preread_all stream)]
      exact returned_stream calls stream
    | some n =>
      rcases Nat.lt_or_ge stream.flatten.length n with hshort | hrest
      · rw [returned_cons_none (preread_raises stream (by rw [length_nil]; omega))]
        exact (ih []).trans List.nil_prefix
      · obtain ⟨y, stream', hcall, -, hflat⟩ :=
          preread_longer (s := []) stream n.pos (by rw [length_nil]; omega)
        rw [returned_cons_some hcall, hflat, nil_append, prefix_append_right_inj]
        exact ih stream'

theorem returned_dry (s : List α) (calls : List (Option ℕ+)) :
    returned calls { str := some s, stream := [] } <+: s := by
  induction calls generalizing s with
  | nil => exact List.nil_prefix
  | cons sz calls ih =>
    have hdone : s ++ returned calls { str := none, stream := [] } <+: s ++ [] :=
      (prefix_append_right_inj s).mpr (returned_stream calls [])
    rw [append_nil] at hdone
    cases sz with
    | none =>
      rw [returned_cons_some (preread_all [])]
      exact hdone
    | some n =>
      rcases Nat.lt_trichotomy n s.length with hlt | heq | hgt
      · rw [returned_cons_some (preread_shorter [] hlt)]
        have hjoin := (prefix_append_right_inj (s.take n)).mpr (ih (s.drop n))
        rwa [take_append_drop] at hjoin
      · rw [returned_cons_some (preread_exact [] heq)]
        exact hdone
      · rw [returned_cons_none (preread_raises [] hgt)]
        exact ih s

/-- What is left of `pre` is returned again by the next call that is answered. -/
theorem returned_kept (hs : s ≠ []) (calls : List (Option ℕ+)) (stream : List (List α)) :
    (AllRaise s.length stream.flatten.length calls ∧
        returned calls { str := some s, stream } = []) ∨
      ¬ AllRaise s.length stream.flatten.length calls ∧
        [s.head hs] <+: returned calls { str := some s, stream } := by
  induction calls generalizing stream with
  | nil => exact .inl ⟨trivial, rfl⟩
  | cons sz calls ih =>
    have hpos : 0 < s.length := length_pos_of_ne_nil hs
    have hhead : [s.head hs] <+: s := ⟨s.tail, cons_head_tail hs⟩
    cases sz with
    | none =>
      rw [returned_cons_some (preread_all stream)]
      exact .inr ⟨id, hhead.trans (prefix_append _ _)⟩
    | some n =>
      rcases Nat.lt_or_ge (s.length + stream.flatten.length) n with hshort | hrest
      · rw [returned_cons_none (preread_raises stream hshort)]
        rcases ih [] with ⟨hraise, hnil⟩ | ⟨hnot, hfirst⟩
        · exact .inl ⟨⟨hshort, hraise⟩, hnil⟩
        · exact .inr ⟨fun h => hnot h.2, hfirst⟩
      · refine .inr ⟨fun h => Nat.not_lt.mpr hrest h.1, ?_⟩
        rcases Nat.lt_trichotomy n s.length with hlt | heq | hgt
        · rw [returned_cons_some (preread_shorter stream hlt)]
          refine List.IsPrefix.trans ?_ (prefix_append _ _)
          have htake : s.take n = s.head hs :: s.tail.take (n - 1) := by
            conv_lhs => rw [← cons_head_tail hs]
            rw [take_cons n.pos]
          rw [htake]
          exact prefix_append [_] _
        · rw [returned_cons_some (preread_exact stream heq)]
          exact hhead.trans (prefix_append _ _)
        · obtain ⟨y, stream', hcall, -, -⟩ := preread_longer stream hgt hrest
          rw [returned_cons_some hcall, append_assoc]
          exact hhead.trans (prefix_append _ _)

/-- Bytes that are told apart are returned in order if and only if no call that is answered follows
one across the end of `pre`. By induction on the calls up to that one. -/
theorem returned_isPrefix_iff (hs : s ≠ []) (hnodup : (s ++ stream.flatten).Nodup)
    (calls : List (Option ℕ+)) :
    returned calls { str := some s, stream } <+: s ++ stream.flatten ↔
      EndsAcross stream.flatten.length s.length calls := by
  induction calls generalizing s with
  | nil => exact iff_of_true List.nil_prefix trivial
  | cons sz calls ih =>
    cases sz with
    | none =>
      rw [returned_cons_some (preread_all stream), prefix_append_right_inj]
      exact iff_of_true (returned_stream calls stream) trivial
    | some n =>
      rw [EndsAcross]
      rcases Nat.lt_trichotomy n s.length with hlt | heq | hgt
      · have hsplit : s ++ stream.flatten = s.take n ++ (s.drop n ++ stream.flatten) := by
          rw [← append_assoc, take_append_drop]
        have hdrop : s.drop n ≠ [] := by
          rw [Ne, drop_eq_nil_iff]
          omega
        rw [hsplit] at hnodup ⊢
        rw [returned_cons_some (preread_shorter stream hlt), prefix_append_right_inj,
          ih hdrop (nodup_append.mp hnodup).2.1, length_drop, if_pos hlt]
      · rw [returned_cons_some (preread_exact stream heq), prefix_append_right_inj,
          if_neg (Nat.not_lt.mpr heq.ge)]
        exact iff_of_true (returned_stream calls stream) fun h => absurd heq (Nat.ne_of_gt h)
      · rw [if_neg (Nat.lt_asymm hgt), forall_prop_of_true hgt]
        rcases Nat.lt_or_ge (s.length + stream.flatten.length) n with hshort | hrest
        · -- the stream is dropped, and nothing but `s` can be returned
          rw [returned_cons_none (preread_raises stream hshort)]
          exact iff_of_true ((returned_dry s calls).trans (prefix_append _ _))
            fun h => absurd h (Nat.not_le.mpr hshort)
        · obtain ⟨y, stream', hcall, hlength, hflat⟩ := preread_longer stream hgt hrest
          have hleft : s.length + stream.flatten.length - n = stream'.flatten.length := by
            have := congrArg List.length hflat
            rw [length_append] at this
            omega
          rw [forall_prop_of_true hrest, hleft, returned_cons_some hcall, hflat,
            ← append_assoc, prefix_append_right_inj]
          rcases returned_kept hs calls stream' with ⟨hraise, hnil⟩ | ⟨hnot, hfirst⟩
          · rw [hnil]
            exact iff_of_true List.nil_prefix hraise
          · refine iff_of_false (fun hprefix => ?_) hnot
            -- the first byte of `s` would stand in the stream as well
            have hmem := (hfirst.trans hprefix).subset mem_cons_self
            rw [hflat] at hnodup
            exact (nodup_append.mp hnodup).2.2 _ (head_mem hs) _ (mem_append_right y hmem) rfl

/-! ### Bytes and their positions -/

theorem flatten_tagPieces (start : ℕ) (stream : List (List α)) :
    (tagPieces start stream).flatten = stream.flatten.zipIdx start := by
  induction stream generalizing start with
  | nil => rfl
  | cons p ps ih =>
    rw [tagPieces, flatten_cons, flatten_cons, zipIdx_append, ih]

theorem map_tagPieces (start : ℕ) (stream : List (List α)) :
    (tagPieces start stream).map (List.map Prod.fst) = stream := by
  induction stream generalizing start with
  | nil => rfl
  | cons p ps ih => rw [tagPieces, map_cons, ih, zipIdx_map_fst]

/-- The same reader over other bytes. -/
def Preread.map (f : α → β) (t : Preread α) : Preread β :=
  { str := t.str.map (List.map f), stream := t.stream.map (List.map f) }

theorem readbytes_map (f : α → β) (sz : Option ℕ+) (stream : List (List α)) :
    readbytes sz (stream.map (List.map f)) =
      ((readbytes sz stream).1.map (List.map f), (readbytes sz stream).2.map (List.map f)) := by
  cases sz with
  | none => cases stream <;> rfl
  | some n =>
    rw [readbytes, readbytes, takeExactly_map]
    cases takeExactly n stream <;> rfl

theorem preread_map (f : α → β) (sz : Option ℕ+) (t : Preread α) :
    preread sz (t.map f) = ((preread sz t).1.map (List.map f), (preread sz t).2.map f) := by
  obtain ⟨str, stream⟩ := t
  cases str with
  | none =>
    have hread := readbytes_map f sz stream
    change ((readbytes sz (stream.map (List.map f))).1,
      Preread.mk none (readbytes sz (stream.map (List.map f))).2) = _
    rw [hread]
    rfl
  | some str =>
    cases sz with
    | none => rfl
    | some n =>
      rcases Nat.lt_trichotomy n str.length with hlt | heq | hgt
      · rw [preread_shorter stream hlt]
        change preread _ { str := some (str.map f), stream := stream.map (List.map f) } = _
        rw [preread_shorter _ (by rwa [length_map]), ← map_take, ← map_drop]
        rfl
      · rw [preread_exact stream heq]
        exact preread_exact _ (by rwa [length_map])
      · rw [preread_across stream hgt]
        change preread _ { str := some (str.map f), stream := stream.map (List.map f) } = _
        rw [preread_across _ (by rwa [length_map]), takeExactly_map, length_map]
        cases takeExactly (n - str.length) stream with
        | none => rfl
        | some r => exact congrArg (some ·, _) map_append.symm

theorem returned_map (f : α → β) (calls : List (Option ℕ+)) (t : Preread α) :
    returned calls (t.map f) = (returned calls t).map f := by
  induction calls generalizing t with
  | nil => rfl
  | cons sz calls ih =>
    have hcall := preread_map f sz t
    cases hr : preread sz t with
    | mk r u =>
      rw [hr] at hcall
      cases r with
      | none => rw [returned_cons_none hcall, returned_cons_none hr, ih]
      | some x =>
        rw [returned_cons_some hcall, returned_cons_some hr, ih, map_append]

theorem length_preread {t u : Preread α} (h : preread (some n) t = (some x, u)) : x.length = n := by
  obtain ⟨str, stream⟩ := t
  cases str with
  | none =>
    have hread : readbytes (some n) stream = (some x, (readbytes (some n) stream).2) :=
      Prod.ext (mk.inj h).1 rfl
    exact (readbytes_some hread).1
  | some str =>
    rcases Nat.lt_trichotomy n str.length with hlt | heq | hgt
    · rw [preread_shorter stream hlt] at h
      obtain rfl := some.inj (mk.inj h).1
      exact length_take_of_le (le_of_lt hlt)
    · rw [preread_exact stream heq] at h
      obtain rfl := some.inj (mk.inj h).1
      exact heq.symm
    · rcases Nat.lt_or_ge (str.length + stream.flatten.length) n with hshort | hrest
      · rw [preread_raises stream hshort] at h
        cases h
      · obtain ⟨y, stream', hcall, hlength, -⟩ := preread_longer stream hgt hrest
        rw [hcall] at h
        obtain rfl := some.inj (mk.inj h).1
        rw [length_append, hlength]
        omega

theorem length_of_mem {t : Preread α} (h : (some n, some x) ∈ calls.zip (results calls t)) :
    x.length = n := by
  induction calls generalizing t with
  | nil => cases h
  | cons sz calls ih =>
    rw [results, zip_cons_cons, mem_cons] at h
    rcases h with heq | h
    · obtain ⟨rfl, hr⟩ := mk.inj heq
      exact length_preread (Prod.ext hr.symm rfl)
    · exact ih h

/-- What was read before is returned once if and only if no call that is answered follows one across
its end. -/
theorem readsOnce_iff (pre : List α) (stream : List (List α)) (calls : List (Option ℕ+)) :
    ReadsOnce pre stream calls ↔ pre = [] ∨ EndsAcross stream.flatten.length pre.length calls := by
  have htagged : (pre ++ stream.flatten).zipIdx =
      pre.zipIdx ++ (tagPieces pre.length stream).flatten := by
    rw [List.zipIdx_append, flatten_tagPieces, Nat.zero_add]
  -- it is enough to look at the positions
  have hpositions : ReadsOnce pre stream calls ↔
      returned calls { str := some pre.zipIdx, stream := tagPieces pre.length stream } <+:
        pre.zipIdx ++ (tagPieces pre.length stream).flatten := by
    rw [← htagged]
    refine ⟨ReadsOnce.positions, fun h => ⟨fun n x hmem => length_of_mem hmem, ?_, h⟩⟩
    have hmap := h.map Prod.fst
    rw [← returned_map, List.zipIdx_map_fst] at hmap
    have hplain : Preread.map Prod.fst
        { str := some pre.zipIdx, stream := tagPieces pre.length stream } =
          readfunc (some pre) stream := by
      rw [Preread.map, map_tagPieces, Option.map_some, List.zipIdx_map_fst]
      rfl
    rwa [hplain] at hmap
  rw [hpositions]
  by_cases hpre : pre = []
  · subst hpre
    exact iff_of_true (returned_empty calls _) (.inl rfl)
  · rw [or_iff_right hpre, returned_isPrefix_iff, flatten_tagPieces, List.length_zipIdx,
      List.length_zipIdx]
    · intro hnil
      have hlength := congrArg List.length hnil
      rw [List.length_zipIdx, List.length_nil] at hlength
      exact hpre (List.length_eq_zero_iff.mp hlength)
    · rw [← htagged]
      refine List.Nodup.of_map Prod.snd ?_
      rw [List.zipIdx_map_snd]
      exact List.nodup_range'

/-- `"AB"` was read before, and `"CDE"` follows: three bytes, and then two. -/
theorem preread_wrong : ¬ ReadsOnce ([65, 66] : List UInt8) [[67, 68, 69]] [some 3, some 2] ∧
      results [some 3, some 2] (readfunc (some ([65, 66] : List UInt8)) [[67, 68, 69]]) =
        [some [65, 66, 67], some [65, 66]] := by
  have hresults :
      results [some 3, some 2] (readfunc (some ([65, 66] : List UInt8)) [[67, 68, 69]]) =
        [some [65, 66, 67], some [65, 66]] := by decide
  refine ⟨fun h => ?_, hresults⟩
  have hprefix := h.isPrefix
  rw [returned, hresults] at hprefix
  exact absurd hprefix (by decide)

end Uboss.Framework.SocketHelper
