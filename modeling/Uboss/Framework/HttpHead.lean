import Uboss.Framework.Http
import Uboss.Math.CInt

/-!
# The head of a message and the pieces of the stream

`recvheader` decides with the piece that brings the end of the head. How much has arrived by then
tells whether the limit is exceeded, and where a stream starts with an empty line also which of two
ends is found.
-/

namespace Uboss.Framework.Http

open Math Lib Lib.LuaText Option Nat

/-- What comes of reading a head: the lines, and what follows them, whether it has been read or
not. -/
def continuation : Except HttpError (Option (List LuaString × LuaString) × Pieces) →
    Option (List LuaString × LuaString)
  | .ok (some (lines, result), pieces) => some (lines, result ++ pieces.flatten)
  | _ => none

/-- The outcome of reading a head from the start of a stream. -/
def outcome (pieces : Pieces) : Option (List LuaString × LuaString) :=
  continuation (recvheader [] pieces)

/-- How many bytes of a stream it takes to recognize the head. -/
def headLength (stream : LuaString) : Option ℕ :=
  if lineEnd.isPrefixOf stream then some 2
  else (occurrence headEnd stream).map (· + headEnd.length)

/-- Of two cuts of a stream either both have brought more than `LIMIT` bytes when the head is
recognized, or none has. Where the stream starts with an empty line, either both have brought the
first `"\r\n\r\n"` by then, or none has. -/
def SamePieces (stream : LuaString) (pieces pieces' : Pieces) : Prop := ∀ n ∈ headLength stream,
    (limit < arrived n pieces ↔ limit < arrived n pieces') ∧
    (arrived n pieces ≤ limit → lineEnd <+: stream → ∀ p ∈ occurrence headEnd stream,
      (p + headEnd.length ≤ arrived n pieces ↔ p + headEnd.length ≤ arrived n pieces'))

/-- What is decided when a number of bytes of the stream have arrived. -/
def verdict (stream : LuaString) (length : ℕ) : Option (List LuaString × LuaString) :=
  if limit < length then none
  else
    match (occurrence headEnd stream).filter (· + headEnd.length ≤ length) with
    | some p => some (headerLines [] (stream.take (p + headEnd.length)),
        stream.drop (p + headEnd.length))
    | none => some ([], stream.drop 2)

variable {stream header line s t : LuaString} {pieces pieces' : Pieces} {n p : ℕ}

theorem headEnd_ne_nil : headEnd ≠ [] := List.cons_ne_nil _ _

/-! ### The lines of a head -/

theorem headerLines_lineEnd : headerLines line (13 :: 10 :: header) =
    if line = [] then [] else line :: headerLines [] header := rfl

theorem headerLines_cons {c : UInt8} (h : ¬ lineEnd <+: c :: header) :
    headerLines line (c :: header) = headerLines (line ++ [c]) header := by
  rw [headerLines.eq_def]
  split
  · cases ‹c :: header = []›
  · rename_i heq
    rw [heq] at h
    exact absurd ⟨_, rfl⟩ h
  · rename_i heq
    obtain ⟨rfl, rfl⟩ := List.cons_eq_cons.mp heq
    rfl

/-- Behind a blank line there are no more lines. By induction on what stands before it, of which an
end of a line takes two bytes. -/
theorem headerLines_append (s t line : LuaString) :
    headerLines line (s ++ headEnd ++ t) = headerLines line (s ++ headEnd) := by
  induction h : s.length using Nat.strongRecOn generalizing s line with
  | ind k ih =>
    subst h
    cases s with
    | nil =>
      change headerLines line (13 :: 10 :: 13 :: 10 :: t) = headerLines line [13, 10, 13, 10]
      rw [headerLines_lineEnd, headerLines_lineEnd, headerLines_lineEnd, headerLines_lineEnd]
      rfl
    | cons c s =>
      by_cases hstarts : lineEnd <+: c :: (s ++ headEnd)
      · obtain ⟨rfl, hs⟩ := List.cons_prefix_cons.mp hstarts
        cases s with
        | nil => exact absurd (List.cons_prefix_cons.mp hs).1 (by decide)
        | cons d s =>
          obtain ⟨rfl, -⟩ := List.cons_prefix_cons.mp hs
          change headerLines line (13 :: 10 :: (s ++ headEnd ++ t)) =
            headerLines line (13 :: 10 :: (s ++ headEnd))
          rw [headerLines_lineEnd, headerLines_lineEnd,
            ih s.length (by rw [List.length_cons, List.length_cons]; omega) s [] rfl]
      · have hlonger : ¬ lineEnd <+: c :: (s ++ headEnd ++ t) := by
          intro hlonger
          refine hstarts (List.prefix_of_prefix_length_le hlonger ⟨t, rfl⟩ ?_)
          rw [List.length_cons, List.length_append]
          exact le_succ_of_le (le_add_left_of_le (by decide))
        change headerLines line (c :: (s ++ headEnd ++ t)) = headerLines line (c :: (s ++ headEnd))
        rw [headerLines_cons hstarts, headerLines_cons hlonger,
          ih s.length (lt_succ_self _) s (line ++ [c]) rfl]

theorem headerLines_take (h : occurrence headEnd header = some p) :
    headerLines [] (header.take (p + headEnd.length)) = headerLines [] header := by
  obtain ⟨rest, hrest⟩ := ((occurrence_eq_some_iff headEnd_ne_nil).mp h).1
  have hheader : header = header.take p ++ headEnd ++ rest := by
    rw [List.append_assoc, hrest, List.take_append_drop]
  have htake : header.take (p + headEnd.length) = header.take p ++ headEnd := by
    rw [List.take_add, ← hrest, List.take_left]
  rw [htake]
  conv_rhs => rw [hheader]
  exact (headerLines_append _ _ _).symm

/-! ### What is decided, and when -/

theorem headLength_of_starts (h : lineEnd <+: stream) : headLength stream = some 2 :=
  if_pos (List.isPrefixOf_iff_prefix.mpr h)

theorem headLength_of_not_starts (h : ¬ lineEnd <+: stream) :
    headLength stream = (occurrence headEnd stream).map (· + headEnd.length) :=
  if_neg fun hstarts => h (List.isPrefixOf_iff_prefix.mp hstarts)

theorem headLength_of_occurrence (h : occurrence headEnd stream = some p) :
    ∃ n, headLength stream = some n ∧ n ≤ p + headEnd.length := by
  by_cases hstarts : lineEnd <+: stream
  · exact ⟨2, headLength_of_starts hstarts, le_add_left_of_le (by decide)⟩
  · refine ⟨p + headEnd.length, ?_, le_rfl⟩
    rw [headLength_of_not_starts hstarts, h]
    rfl

/-- A part of the stream decides if and only if it has the bytes that are needed. -/
theorem headLength_append_iff (s t : LuaString) :
    headLength s = some n ↔ headLength (s ++ t) = some n ∧ n ≤ s.length := by
  have htwo : lineEnd.length = 2 := rfl
  have hfour : headEnd.length = 4 := rfl
  by_cases hstarts : lineEnd <+: s
  · rw [headLength_of_starts hstarts, headLength_of_starts (hstarts.trans (List.prefix_append s t))]
    refine (and_iff_left_of_imp fun hn => ?_).symm
    obtain rfl := some.inj hn
    exact hstarts.length_le
  · by_cases hlonger : lineEnd <+: s ++ t
    · -- fewer than two bytes, where neither end can be found
      have hshort : s.length < 2 := by
        by_contra hlong
        exact hstarts (List.prefix_of_prefix_length_le hlonger (List.prefix_append s t) (by omega))
      rw [headLength_of_not_starts hstarts, occurrence_of_length_lt (by omega),
        headLength_of_starts hlonger]
      refine iff_of_false (fun h => by cases h) fun ⟨hn, hle⟩ => ?_
      obtain rfl := some.inj hn
      omega
    · have htake := @occurrence_take UInt8 _ headEnd (s ++ t) (n - 4) headEnd_ne_nil s.length
      rw [List.take_left] at htake
      rw [headLength_of_not_starts hstarts, headLength_of_not_starts hlonger,
        map_eq_some_iff, map_eq_some_iff]
      constructor
      · rintro ⟨p, hp, rfl⟩
        exact ⟨⟨p, occurrence_append headEnd_ne_nil hp t, rfl⟩,
          length_le_of_occurrence headEnd_ne_nil hp⟩
      · rintro ⟨⟨p, hp, rfl⟩, hle⟩
        exact ⟨p, htake.mpr ⟨hp, hle⟩, rfl⟩

/-- The search from behind the old end finds what a search from the start would, as long as nothing
was decided before. -/
theorem find_headEnd {bytes : LuaString} (hundecided : headLength header = none) :
    find (header ++ bytes) headEnd (-bytes.length - 3) =
      (occurrence headEnd (header ++ bytes)).map (· + 1) := by
  have hinit : (-(bytes.length : ℤ) - 3) = -((bytes.length + 3 : ℕ) : ℤ) := by omega
  rw [hinit, find_from (succ_pos _), find_one]
  intro p hp hat
  rw [List.length_append] at hp
  -- an occurrence that early would have been found
  obtain ⟨first, hle, hfirst⟩ := exists_occurrence headEnd_ne_nil hat
  obtain ⟨n, hn, hend⟩ := headLength_of_occurrence hfirst
  have hfour : headEnd.length = 4 := rfl
  have hearly := (headLength_append_iff header bytes).mpr ⟨hn, by omega⟩
  rw [hundecided] at hearly
  cases hearly

theorem recvheaderLoop_long {bytes : LuaString} (hlong : limit < (header ++ bytes).length)
    (pieces : Pieces) : continuation (recvheaderLoop header (bytes :: pieces)) = none := by
  rw [recvheaderLoop, join, concat]
  split
  · rw [ok_bind, if_pos hlong]
    rfl
  · rfl

section

variable {bytes : LuaString} (hundecided : headLength header = none)
include hundecided

theorem recvheaderLoop_short (hfits : (header ++ bytes).length ≤ limit) (pieces : Pieces) :
    recvheaderLoop header (bytes :: pieces) =
      match occurrence headEnd (header ++ bytes) with
      | some p => .ok (some (headerLines [] (header ++ bytes),
          (header ++ bytes).drop (p + headEnd.length)), pieces)
      | none =>
        if lineEnd.isPrefixOf (header ++ bytes) then
          .ok (some ([], (header ++ bytes).drop 2), pieces)
        else recvheaderLoop (header ++ bytes) pieces := by
  have hjoin : join header bytes = .ok (header ++ bytes) := by
    refine concat_ok ?_
    rw [← List.length_append]
    exact hfits.trans_lt (by decide)
  rw [recvheaderLoop, hjoin, ok_bind, if_neg (not_lt.mpr hfits), find_headEnd hundecided]
  cases occurrence headEnd (header ++ bytes) with
  | none =>
    have hsub : sub (header ++ bytes) 3 (-1) = (header ++ bytes).drop 2 := sub_suffix _ 2
    rw [map_none, hsub]
    rfl
  | some p =>
    have hsub : sub (header ++ bytes) ((p + 1 : ℕ) + 4) (-1) =
        (header ++ bytes).drop (p + headEnd.length) := by
      rw [← sub_suffix]
      exact congrArg (sub _ · (-1)) (add_right_comm (p : ℤ) 1 4)
    rw [map_some]
    dsimp only
    rw [hsub]
    rfl

theorem recvheaderLoop_decided (hn : headLength (header ++ bytes) = some n)
    (hfits : (header ++ bytes).length ≤ limit) (pieces : Pieces) :
    continuation (recvheaderLoop header (bytes :: pieces)) =
      verdict (header ++ bytes ++ pieces.flatten) (header ++ bytes).length := by
  rw [recvheaderLoop_short hundecided hfits]
  generalize header ++ bytes = s at hn hfits
  have htake := fun p =>
    @occurrence_take UInt8 _ headEnd (s ++ pieces.flatten) p headEnd_ne_nil s.length
  simp only [List.take_left] at htake
  rw [verdict, if_neg (not_lt.mpr hfits)]
  cases hfirst : occurrence headEnd s with
  | some p =>
    obtain ⟨hlonger, hend⟩ := (htake p).mp hfirst
    rw [hlonger, filter_some, if_pos (decide_eq_true hend)]
    dsimp only
    rw [List.take_append_of_le_length hend, List.drop_append_of_le_length hend,
      headerLines_take hfirst]
    rfl
  | none =>
    -- the stream starts with an empty line, and no other end has arrived
    have hstarts : lineEnd <+: s := by
      by_contra hnot
      rw [headLength_of_not_starts hnot, hfirst] at hn
      cases hn
    have hnone : (occurrence headEnd (s ++ pieces.flatten)).filter
        (· + headEnd.length ≤ s.length) = none := by
      rw [filter_eq_none_iff]
      intro p hp hend
      have := (htake p).mpr ⟨hp, of_decide_eq_true hend⟩
      rw [hfirst] at this
      cases this
    have htwo : 2 ≤ s.length := hstarts.length_le
    rw [hnone]
    dsimp only
    rw [if_pos (List.isPrefixOf_iff_prefix.mpr hstarts), List.drop_append_of_le_length htwo]
    rfl

theorem recvheaderLoop_undecided (hn : headLength (header ++ bytes) = none)
    (hfits : (header ++ bytes).length ≤ limit) (pieces : Pieces) :
    recvheaderLoop header (bytes :: pieces) = recvheaderLoop (header ++ bytes) pieces := by
  rw [recvheaderLoop_short hundecided hfits]
  by_cases hstarts : lineEnd <+: header ++ bytes
  · rw [headLength_of_starts hstarts] at hn
    cases hn
  · rw [headLength_of_not_starts hstarts, map_eq_none_iff] at hn
    rw [hn]
    exact if_neg fun h => hstarts (List.isPrefixOf_iff_prefix.mp h)

end

theorem verdict_long (h : limit < n) : verdict stream n = none := if_pos h

/-- By induction on the pieces. -/
theorem continuation_loop (hundecided : headLength header = none) (hle : header.length ≤ limit)
    (pieces : Pieces) : continuation (recvheaderLoop header pieces) =
      (headLength (header ++ pieces.flatten)).bind fun n =>
        verdict (header ++ pieces.flatten)
          (header.length + arrived (n - header.length) pieces) := by
  induction pieces generalizing header with
  | nil =>
    rw [List.flatten_nil, List.append_nil, hundecided]
    rfl
  | cons bytes pieces ih =>
    have hassoc : header ++ (bytes :: pieces).flatten = header ++ bytes ++ pieces.flatten := by
      rw [List.flatten_cons, List.append_assoc]
    have hsum : (header ++ bytes).length = header.length + bytes.length := List.length_append
    have hneeded := fun n => headLength_append_iff (n := n) (header ++ bytes) pieces.flatten
    have hbefore := fun n => headLength_append_iff (n := n) header (bytes ++ pieces.flatten)
    rw [hassoc]
    rcases lt_or_ge limit (header ++ bytes).length with hlong | hfits
    · rw [recvheaderLoop_long hlong, eq_comm, bind_eq_none_iff]
      intro n _
      refine verdict_long ?_
      have harrived := length_le_arrived (n - header.length) bytes pieces
      omega
    · cases hn : headLength (header ++ bytes) with
      | some n =>
        obtain ⟨hall, hend⟩ := (hneeded n).mp hn
        rw [recvheaderLoop_decided hundecided hn hfits, hall, bind_some, arrived,
          if_pos (by omega), hsum]
      | none =>
        rw [recvheaderLoop_undecided hundecided hn hfits, ih hn hfits]
        refine bind_congr fun n hall => ?_
        have hlate : ¬ n ≤ (header ++ bytes).length := by
          intro hend
          have := (hneeded n).mpr ⟨hall, hend⟩
          rw [hn] at this
          cases this
        rw [arrived, if_neg (by omega), hsum, Nat.sub_sub, Nat.add_assoc]

/-- The outcome depends on the stream, and on how much of it has arrived when the head is
recognized. -/
theorem outcome_eq (pieces : Pieces) : outcome pieces =
    (headLength pieces.flatten).bind fun n => verdict pieces.flatten (arrived n pieces) := by
  have hloop : recvheader [] = recvheaderLoop [] := rfl
  have hempty : ([] : LuaString).length ≤ limit := Nat.zero_le limit
  rw [outcome, hloop, continuation_loop rfl hempty]
  simp

/-! ### Two cuts of a stream -/

/-- Within the limit it matters only whether the blank line has arrived, and that only where the
stream starts with an empty line. -/
theorem verdict_eq_iff {l l' : ℕ} (hn : headLength stream = some n) (hl : n ≤ l) (hl' : n ≤ l')
    (hfits : l ≤ limit) (hfits' : l' ≤ limit) : verdict stream l = verdict stream l' ↔
      (lineEnd <+: stream → ∀ p ∈ occurrence headEnd stream,
        (p + headEnd.length ≤ l ↔ p + headEnd.length ≤ l')) := by
  rw [verdict, verdict, if_neg (not_lt.mpr hfits), if_neg (not_lt.mpr hfits')]
  cases hp : occurrence headEnd stream with
  | none => exact iff_of_true rfl fun _ p hp => by cases hp
  | some p =>
    have hend := length_le_of_occurrence headEnd_ne_nil hp
    -- one of the two ends leaves more of the stream than the other
    have hdiffer : ((headerLines [] (stream.take (p + headEnd.length)),
        stream.drop (p + headEnd.length)) : List LuaString × LuaString) ≠ ([], stream.drop 2) := by
      intro heq
      have hlengths := congrArg List.length (Prod.mk.inj heq).2
      have hfour : headEnd.length = 4 := rfl
      rw [List.length_drop, List.length_drop] at hlengths
      omega
    rw [filter_some, filter_some]
    by_cases hstarts : lineEnd <+: stream
    · rw [forall_prop_of_true hstarts]
      simp only [mem_some_iff, forall_eq', decide_eq_true_eq]
      by_cases hin : p + headEnd.length ≤ l <;> by_cases hin' : p + headEnd.length ≤ l' <;>
        simp [hin, hin', hdiffer, hdiffer.symm]
    · rw [headLength_of_not_starts hstarts, hp] at hn
      obtain rfl := some.inj hn
      rw [if_pos (decide_eq_true hl), if_pos (decide_eq_true hl')]
      exact iff_of_true rfl fun h => absurd h hstarts

theorem verdict_isSome (stream : LuaString) (h : n ≤ limit) : (verdict stream n).isSome := by
  rw [verdict, if_neg (not_lt.mpr h)]
  split <;> rfl

/-- Two cuts of a stream have the same outcome if and only if the code sees no difference between
them. -/
theorem outcome_eq_iff (hflat : pieces.flatten = pieces'.flatten) :
    outcome pieces = outcome pieces' ↔ SamePieces pieces.flatten pieces pieces' := by
  rw [outcome_eq, outcome_eq, ← hflat]
  cases hn : headLength pieces.flatten with
  | none =>
    refine iff_of_true rfl fun n hn' => ?_
    rw [hn] at hn'
    cases hn'
  | some n =>
    have hle : n ≤ pieces.flatten.length := by
      have := (headLength_append_iff pieces.flatten []).mp hn
      exact this.2
    have hl : n ≤ arrived n pieces := le_arrived hle
    have hl' : n ≤ arrived n pieces' := le_arrived (hflat ▸ hle)
    rw [Option.bind_some, Option.bind_some, SamePieces, hn]
    simp only [Option.mem_some_iff, forall_eq']
    have hne : ∀ {l l' : ℕ}, limit < l → l' ≤ limit →
        verdict pieces.flatten l ≠ verdict pieces.flatten l' := by
      intro l l' hlong hfits heq
      have hsome := verdict_isSome pieces.flatten hfits
      rw [← heq, verdict_long hlong] at hsome
      cases hsome
    rcases Nat.lt_or_ge limit (arrived n pieces) with hlong | hfits
    · rcases Nat.lt_or_ge limit (arrived n pieces') with hlong' | hfits'
      · rw [verdict_long hlong, verdict_long hlong']
        exact iff_of_true rfl ⟨iff_of_true hlong hlong', fun h => absurd hlong (Nat.not_lt.mpr h)⟩
      · exact iff_of_false (hne hlong hfits') fun h =>
          Nat.not_lt.mpr hfits' (h.1.mp hlong)
    · rcases Nat.lt_or_ge limit (arrived n pieces') with hlong' | hfits'
      · exact iff_of_false (hne hlong' hfits).symm fun h => Nat.not_lt.mpr hfits (h.1.mpr hlong')
      · rw [verdict_eq_iff hn hl hl' hfits hfits', and_iff_right (iff_of_false
          (Nat.not_lt.mpr hfits) (Nat.not_lt.mpr hfits')), forall_prop_of_true hfits]

/-- A head of which the last bytes come with a body, or without it. -/
theorem outcome_body (head body : LuaString) (hhead : headLength head = some head.length)
    (hfits : head.length ≤ limit) (hbody : limit < (head ++ body).length) :
    outcome [head ++ body] = none ∧ outcome [head, body] ≠ none := by
  have hn : headLength (head ++ body) = some head.length :=
    ((headLength_append_iff head body).mp hhead).1
  constructor
  · have hall : arrived head.length [head ++ body] = (head ++ body).length :=
      if_pos (by rw [List.length_append]; exact le_add_right _ _)
    rw [outcome_eq, List.flatten_singleton, hn, bind_some, hall, verdict_long hbody]
  · have hall : arrived head.length [head, body] = head.length := if_pos le_rfl
    have hflat : [head, body].flatten = head ++ body := by
      rw [List.flatten_cons, List.flatten_singleton]
    rw [outcome_eq, hflat, hn, bind_some, hall, ← isSome_iff_ne_none]
    exact verdict_isSome _ hfits

/-- A cut of the stream `"A\r\n\r\n"` that changes nothing. -/
theorem outcome_eq_pair : outcome [[65, 13, 10, 13, 10]] = outcome [[65, 13], [10, 13, 10]] :=
  (outcome_eq_iff rfl).mpr (by
    intro n hn
    obtain rfl : 5 = n := Option.some.inj hn
    exact ⟨by decide, fun _ h => absurd h (by decide)⟩)

/-- An empty line comes with the blank line behind it, or without; a body comes with the end of its
head, or after it. -/
theorem outcome_wrong :
    ¬ (∀ pieces pieces', Whole pieces → Whole pieces' → pieces.flatten = pieces'.flatten →
      outcome pieces = outcome pieces') ∧
    outcome [[13, 10, 65, 13, 10, 13, 10]] ≠ outcome [[13, 10], [65, 13, 10, 13, 10]] ∧
    outcome [[65, 13, 10, 13, 10] ++ List.replicate limit 66] ≠
      outcome [[65, 13, 10, 13, 10], List.replicate limit 66] := by
  have hdiffer :
      outcome [[13, 10, 65, 13, 10, 13, 10]] ≠ outcome [[13, 10], [65, 13, 10, 13, 10]] := by
    decide
  refine ⟨fun hsame => hdiffer (hsame _ _ ?_ ?_ rfl), hdiffer, ?_⟩
  · simp
  · simp
  · obtain ⟨hnone, hsome⟩ := outcome_body [65, 13, 10, 13, 10] (List.replicate limit 66) rfl
      (by decide) (by rw [List.length_append, List.length_replicate]; decide)
    rw [hnone]
    exact hsome.symm

end Uboss.Framework.Http
