import Uboss.Framework.Httpd

/-!
# The round trip of a body in chunks

What is written between two chunks belongs, for the reader, to the one before. Each part of the
reader takes its bytes off the front of what is ahead, whether they have arrived or not.
-/

namespace Uboss.Framework.Http

open Math Lib Lib.LuaText List Nat

/-- `wire` is ahead: its start is in the buffer, and the rest of it is to arrive before `later`. -/
def Ahead (later : Pieces) (wire body : LuaString) (pieces : Pieces) : Prop :=
  ∃ qs, pieces = qs ++ later ∧ Whole qs ∧ body ++ qs.flatten = wire

/-- A chunk, up to the end of the line behind it. -/
def chunk (s : LuaString) : LuaString := hexDigits s.length ++ lineEnd ++ (s ++ lineEnd)

/-- The chunk of size zero, up to the trailer. -/
def lastChunk : LuaString := [48] ++ lineEnd

variable {later pieces : Pieces} {header wire line body rest s : LuaString}
  {strings : List LuaString} {state : Chunked}

namespace Ahead

theorem of_append {qs : Pieces} (hqs : Whole qs) (h : body ++ qs.flatten = wire) :
    Ahead later wire body (qs ++ later) := ⟨qs, rfl, hqs, h⟩

variable (h : Ahead later (line ++ rest) body pieces)
include h

theorem drop (hle : line.length ≤ body.length) :
    body.take line.length = line ∧ Ahead later rest (body.drop line.length) pieces := by
  obtain ⟨qs, rfl, hqs, hwire⟩ := h
  have htake : body.take line.length = line := by
    have := congrArg (List.take line.length) hwire
    rwa [take_append_of_le_length hle, take_left] at this
  refine ⟨htake, of_append hqs ?_⟩
  have := congrArg (List.drop line.length) hwire
  rwa [drop_append_of_le_length hle, drop_left] at this

/-- A buffer that is too short is completed by a read of the bytes that are missing. -/
theorem readExactly (hlater : Whole later) (hlt : body.length ≤ line.length) :
    ∃ bytes pieces', readExactly (line.length - body.length) pieces = .ok (bytes, pieces') ∧
      body ++ bytes = line ∧ Ahead later rest [] pieces' := by
  obtain ⟨qs, rfl, hqs, hwire⟩ := h
  have hlengths := congrArg List.length hwire
  rw [length_append, length_append] at hlengths
  obtain ⟨bytes, qs', htake, hlength, hflat, hqs'⟩ :=
    takeExactly_append hqs hlater (n := line.length - body.length) (by omega)
  rw [hflat, ← append_assoc] at hwire
  obtain ⟨hline, hrest⟩ := append_inj hwire (by rw [length_append]; omega)
  refine ⟨bytes, qs' ++ later, ?_, hline, of_append hqs' hrest⟩
  rw [Http.readExactly, htake]

end Ahead

/-! ### The parts of a chunk -/

/-- By induction on the pieces that bring the line. -/
theorem sizeLine_ahead (h : Ahead later (line ++ lineEnd ++ rest) body pieces)
    (hline : 13 ∉ line) (hshort : line.length ≤ 126)
    (hsize : (line ++ lineEnd ++ rest).length < maxSize) :
    ∃ body' pieces', sizeLine body pieces = .ok (some (line, body'), pieces') ∧
      Ahead later rest body' pieces' := by
  have htwo : lineEnd.length = 2 := rfl
  have hwhole : occurrence lineEnd (line ++ lineEnd ++ rest) = some line.length :=
    occurrence_of_not_mem hline _ _
  obtain ⟨qs, rfl, hqs, hwire⟩ := h
  induction qs generalizing body with
  | nil =>
    rw [flatten_nil, append_nil] at hwire
    subst hwire
    refine ⟨rest, later, ?_, [], rfl, whole_nil, append_nil rest⟩
    rw [sizeLine_of_occurrence hwhole, append_assoc, take_left, ← append_assoc,
      ← length_append, drop_left]
    rfl
  | cons q qs ih =>
    rw [flatten_cons] at hwire
    cases hfirst : occurrence lineEnd body with
    | some p =>
      have hbody := occurrence_append lineEnd_ne_nil hfirst (q ++ qs.flatten)
      rw [hwire, hwhole] at hbody
      obtain rfl := Option.some.inj hbody
      have hends := length_le_of_occurrence lineEnd_ne_nil hfirst
      have hahead : Ahead later (line ++ lineEnd ++ rest) body (q :: qs ++ later) :=
        Ahead.of_append hqs hwire
      obtain ⟨htake, hrest⟩ := hahead.drop (by rw [length_append]; exact hends)
      rw [length_append] at htake hrest
      refine ⟨_, _, ?_, hrest⟩
      have htake' := congrArg (List.take line.length) htake
      rw [take_take, Nat.min_eq_left (Nat.le_add_right _ _), take_left] at htake'
      rw [sizeLine_of_occurrence hfirst, htake']
    | none =>
      -- the buffer is shorter than the line
      have hle : body.length ≤ 128 := by
        by_contra hlong
        have htake := (occurrence_take lineEnd_ne_nil (n := body.length)).mpr ⟨hwhole, by omega⟩
        rw [← hwire, take_left, hfirst] at htake
        cases htake
      have hlength := congrArg List.length hwire
      rw [length_append, length_append] at hlength
      have hjoin : join body q = .ok (body ++ q) := concat_ok (by omega)
      obtain ⟨body', pieces', hsize', hrest⟩ := ih (whole_cons.mp hqs).2
        (by rw [append_assoc, hwire])
      refine ⟨body', pieces', ?_, hrest⟩
      rw [cons_append, sizeLine_of_none hfirst hle, hjoin]
      exact hsize'

theorem chunksize_ahead {sz : ℤ} (h : Ahead later (line ++ lineEnd ++ rest) body pieces)
    (hline : 13 ∉ line) (hshort : line.length ≤ 126)
    (hsize : (line ++ lineEnd ++ rest).length < maxSize) (hsz : bStr2int 16 line = some sz) :
    ∃ body' pieces', chunksize body pieces = .ok (some (sz, body'), pieces') ∧
      Ahead later rest body' pieces' := by
  obtain ⟨body', pieces', hread, hrest⟩ := sizeLine_ahead h hline hshort hsize
  refine ⟨body', pieces', ?_, hrest⟩
  rw [chunksize, read_bind hread]
  change Except.ok ((bStr2int 16 line).map _, pieces') = _
  rw [hsz]
  rfl

theorem readcrln_ahead (h : Ahead later (lineEnd ++ rest) body pieces) (hlater : Whole later) :
    ∃ body' pieces', readcrln body pieces = .ok (some body', pieces') ∧
      Ahead later rest body' pieces' := by
  have htwo : lineEnd.length = 2 := rfl
  rw [readcrln]
  by_cases hlong : 2 ≤ body.length
  · obtain ⟨htake, hrest⟩ := h.drop hlong
    have hsub : sub body 1 2 = lineEnd := (sub_take body 2).trans htake
    have hdrop : sub body 3 (-1) = body.drop lineEnd.length := sub_suffix body 2
    refine ⟨_, pieces, ?_, hrest⟩
    rw [if_pos hlong, if_neg (not_not_intro hsub), hdrop]
    rfl
  · obtain ⟨bytes, pieces', hread, hline, hrest⟩ := h.readExactly hlater (by omega)
    have hjoin : join body bytes = .ok lineEnd := by
      rw [← hline]
      refine concat_ok ?_
      rw [← length_append, hline]
      decide
    refine ⟨[], pieces', ?_, hrest⟩
    rw [if_neg hlong]
    rw [htwo] at hread
    rw [read_bind hread, lift_bind hjoin]
    rfl

theorem takeChunk_ahead (state : Chunked) (h : Ahead later (s ++ rest) state.body pieces)
    (hlater : Whole later) (hsize : (state.result ++ s).length < maxSize) :
    ∃ state' pieces', takeChunk s.length state pieces = .ok (state', pieces') ∧
      state'.result = state.result ++ s ∧ Ahead later rest state'.body pieces' := by
  have hresult : join state.result s = .ok (state.result ++ s) :=
    concat_ok (by rwa [← length_append])
  have hmax : maxSize = 2 ^ 63 - 1 := rfl
  rw [length_append] at hsize
  rw [takeChunk]
  by_cases hlong : (s.length : ℤ) ≤ state.body.length
  · obtain ⟨htake, hrest⟩ := h.drop (Int.ofNat_le.mp hlong)
    have hsub : sub state.body 1 s.length = s := (sub_take _ _).trans htake
    have hdrop : sub state.body (toInteger (s.length + 1)) (-1) = state.body.drop s.length := by
      rw [toInteger_eq (by omega) (by omega), sub_suffix]
    refine ⟨{ state with result := state.result ++ s, body := state.body.drop s.length }, pieces,
      ?_, rfl, hrest⟩
    rw [if_pos hlong, hsub, hdrop, lift_bind hresult]
    rfl
  · obtain ⟨bytes, pieces', hread, hline, hrest⟩ := h.readExactly hlater (by omega)
    have hmissing : ((s.length : ℤ) - state.body.length).toNat = s.length - state.body.length := by
      omega
    have hjoin : join state.body bytes = .ok s := by
      rw [← hline]
      refine concat_ok ?_
      rw [← length_append, hline]
      omega
    refine ⟨{ state with result := state.result ++ s, body := [] }, pieces', ?_, rfl, hrest⟩
    rw [if_neg hlong, hmissing, read_bind hread, lift_bind hjoin, lift_bind hresult]
    rfl

/-! ### Chunks -/

theorem not_mem_hexDigits (n : ℕ) : 13 ∉ hexDigits n := by
  intro hmem
  obtain ⟨d, hd, hc⟩ := (hexDigits_spec n).2 13 hmem
  have halnum := (hexDigit_spec d hd).1
  rw [← hc] at halnum
  exact absurd halnum (by decide)

theorem chunkRound_chunk (h : Ahead later (chunk s ++ rest) state.body pieces)
    (hlater : Whole later) (hs : s ≠ [])
    (hsize : (state.result ++ (chunk s ++ rest)).length < maxSize) :
    ∃ state' pieces', chunkRound none state pieces = .ok (.next s.length state', pieces') ∧
      state'.result = state.result ++ s ∧ Ahead later rest state'.body pieces' := by
  have hmax : maxSize = 2 ^ 63 - 1 := rfl
  have hchunk : chunk s ++ rest = hexDigits s.length ++ lineEnd ++ (s ++ (lineEnd ++ rest)) := by
    simp [chunk]
  rw [hchunk] at h hsize
  have hlengths : (state.result ++ s).length ≤
      (state.result ++ (hexDigits s.length ++ lineEnd ++ (s ++ (lineEnd ++ rest)))).length := by
    simp only [length_append]
    omega
  have hfits : s.length < 2 ^ 63 := by
    rw [length_append] at hlengths
    omega
  have hdigits := length_hexDigits hfits
  have hwire : (hexDigits s.length ++ lineEnd ++ (s ++ (lineEnd ++ rest))).length < maxSize := by
    rw [length_append] at hsize
    omega
  obtain ⟨body, pieces₁, hread₁, h₁⟩ := chunksize_ahead h (not_mem_hexDigits _) (by omega) hwire
    (bStr2int_hexDigits hfits)
  obtain ⟨state₂, pieces₂, hread₂, hresult, h₂⟩ :=
    takeChunk_ahead { state with size := toInteger (state.size + s.length), body } h₁
      hlater (hlengths.trans_lt hsize)
  obtain ⟨body₃, pieces₃, hread₃, h₃⟩ := readcrln_ahead h₂ hlater
  refine ⟨{ state₂ with body := body₃ }, pieces₃, ?_, hresult, h₃⟩
  have hne : (s.length : ℤ) ≠ 0 := by
    have := length_pos_of_ne_nil hs
    omega
  have hchunk' : readChunk none state pieces = .ok (.next s.length state₂, pieces₂) := by
    rw [readChunk, read_bind hread₁]
    dsimp only
    rw [if_neg hne]
    exact read_bind hread₂
  rw [chunkRound, read_bind hchunk']
  dsimp only
  rw [read_bind hread₃]
  rfl

theorem chunkRound_lastChunk (h : Ahead later (lastChunk ++ lineEnd) state.body pieces) :
    ∃ body pieces', chunkRound none state pieces = .ok (.last { state with body }, pieces') ∧
      Ahead later lineEnd body pieces' := by
  have hzero : bStr2int 16 [48] = some 0 := by decide
  obtain ⟨body, pieces', hread, hrest⟩ := chunksize_ahead h (by decide) (by decide) (by decide)
    hzero
  refine ⟨body, pieces', ?_, hrest⟩
  have hchunk : readChunk none state pieces = .ok (.last { state with body }, pieces') := by
    rw [readChunk, read_bind hread]
    rfl
  rw [chunkRound, read_bind hchunk]
  rfl

/-- By induction on the strings that were written. -/
theorem chunkLoop_chunks (state : Chunked) {rounds : ℕ} (hlater : Whole later)
    (hne : ∀ s ∈ strings, s ≠ [])
    (h : Ahead later (strings.flatMap chunk ++ (lastChunk ++ lineEnd)) state.body pieces)
    (hsize : (state.result ++ (strings.flatMap chunk ++ (lastChunk ++ lineEnd))).length < maxSize)
    (hrounds : strings.length < rounds) :
    ∃ state' pieces', chunkLoop none rounds state pieces = .ok (some state', pieces') ∧
      state'.result = state.result ++ strings.flatten ∧
      Ahead later lineEnd state'.body pieces' := by
  induction strings generalizing state pieces rounds with
  | nil =>
    obtain ⟨rounds, rfl⟩ := exists_eq_succ_of_ne_zero (Nat.ne_of_gt hrounds)
    obtain ⟨body, pieces', hround, hrest⟩ := chunkRound_lastChunk h
    refine ⟨{ state with body }, pieces', ?_, (append_nil _).symm, hrest⟩
    rw [chunkLoop, read_bind hround]
    rfl
  | cons s strings ih =>
    obtain ⟨rounds, rfl⟩ := exists_eq_succ_of_ne_zero (Nat.ne_of_gt (zero_lt_of_lt hrounds))
    rw [flatMap_cons, append_assoc] at h hsize
    obtain ⟨state₁, pieces₁, hround, hresult, hrest⟩ :=
      chunkRound_chunk h hlater (hne s mem_cons_self) hsize
    have hless : s.length ≤ (chunk s).length := by
      simp only [chunk, length_append]
      omega
    obtain ⟨state', pieces', hloop, hresult', hend⟩ := ih state₁
      (fun s hs => hne s (mem_cons_of_mem _ hs)) hrest
      (by
        rw [hresult]
        simp only [length_append] at hsize ⊢
        omega)
      (lt_of_succ_lt_succ hrounds)
    refine ⟨state', pieces', ?_, ?_, hend⟩
    · rw [chunkLoop, read_bind hround]
      exact hloop
    · rw [hresult', hresult, append_assoc, flatten_cons]

/-! ### The trailer -/

theorem headLength_of_short (h : header.length < 2) : headLength header = none := by
  have hnot : ¬ lineEnd <+: header := fun hstarts => absurd hstarts.length_le (Nat.not_le.mpr h)
  have hfour : headEnd.length = 4 := rfl
  rw [headLength_of_not_starts hnot, occurrence_of_length_lt (by omega)]
  rfl

/-- By induction on the pieces that bring the empty line. -/
theorem recvheaderLoop_lineEnd {qs : Pieces} (hshort : header.length < 2) (hqs : Whole qs)
    (hwire : header ++ qs.flatten = lineEnd) :
    recvheaderLoop header (qs ++ later) = .ok (some ([], []), later) := by
  have htwo : lineEnd.length = 2 := rfl
  have hfour : headEnd.length = 4 := rfl
  induction qs generalizing header with
  | nil =>
    rw [flatten_nil, append_nil] at hwire
    rw [hwire, htwo] at hshort
    exact absurd hshort (Nat.lt_irrefl 2)
  | cons q qs ih =>
    obtain ⟨hq, hqs⟩ := whole_cons.mp hqs
    rw [flatten_cons, ← append_assoc] at hwire
    have hlength := congrArg List.length hwire
    rw [length_append, htwo] at hlength
    have hlimit : (header ++ q).length ≤ limit :=
      (show (header ++ q).length ≤ 2 by omega).trans (by decide)
    rw [cons_append, recvheaderLoop_short (headLength_of_short hshort) hlimit,
      occurrence_of_length_lt (by omega)]
    by_cases hall : qs.flatten = []
    · rw [hall, append_nil] at hwire
      rw [hwire, hqs.eq_nil hall]
      rfl
    · have hpos := length_pos_of_ne_nil hall
      have hless : (header ++ q).length < 2 := by omega
      have hnot : lineEnd.isPrefixOf (header ++ q) = false := by
        rw [Bool.eq_false_iff]
        intro hstarts
        exact absurd (List.isPrefixOf_iff_prefix.mp hstarts).length_le (Nat.not_le.mpr hless)
      dsimp only
      rw [hnot, if_neg Bool.false_ne_true]
      exact ih hless hqs hwire

theorem recvheader_lineEnd (h : Ahead later lineEnd body pieces) :
    recvheader body pieces = .ok (some ([], []), later) := by
  obtain ⟨qs, rfl, hqs, hwire⟩ := h
  have hlength := congrArg List.length hwire
  have htwo : lineEnd.length = 2 := rfl
  rw [length_append, htwo] at hlength
  rcases Nat.lt_or_ge body.length 2 with hshort | hlong
  · have hfour : headEnd.length = 4 := rfl
    rw [recvheader, if_neg fun hlong => Nat.not_le.mpr hshort hlong.1, find_one,
      occurrence_of_length_lt (by omega)]
    exact recvheaderLoop_lineEnd hshort hqs hwire
  · have hnil : qs.flatten = [] := eq_nil_of_length_eq_zero (by omega)
    rw [hnil, append_nil] at hwire
    rw [hwire, hqs.eq_nil hnil]
    rfl

/-! ### What is written -/

/-- The separators go with the chunks before them. By induction on the strings. -/
theorem flatten_chunks (strings : List LuaString) :
    (strings.flatMap writeChunk).flatten ++ lineEnd =
      lineEnd ++ (strings.filter (· ≠ [])).flatMap chunk := by
  induction strings with
  | nil => rfl
  | cons s strings ih =>
    rw [flatMap_cons, flatten_append, append_assoc, ih, writeChunk]
    by_cases hs : s = []
    · rw [if_pos hs, filter_cons_of_neg (by simp [hs])]
      rfl
    · rw [if_neg hs, filter_cons_of_pos (by simp [hs]), flatMap_cons, chunk]
      simp

/-- What `writeall` writes behind the head. -/
theorem writeall_flatten (statuscode : ℤ) (strings : List LuaString)
    (header : List (LuaString × FieldValue)) :
    (writeall statuscode (.function strings) header).flatten =
      (headLines statuscode header ++ [transferEncoding]).flatten ++ lineEnd ++
        ((strings.filter (· ≠ [])).flatMap chunk ++ (lastChunk ++ lineEnd)) := by
  have hlast : [lineEnd ++ [48] ++ lineEnd ++ lineEnd].flatten =
      lineEnd ++ (lastChunk ++ lineEnd) := rfl
  rw [writeall]
  rw [cons_append, flatten_append, flatten_cons, flatten_append, hlast,
    flatten_append, flatten_singleton]
  have hchunks := flatten_chunks strings
  simp only [append_assoc]
  rw [← append_assoc (strings.flatMap writeChunk).flatten, hchunks]
  simp

theorem flatten_filter (strings : List LuaString) :
    (strings.filter (· ≠ [])).flatten = strings.flatten := by
  induction strings with
  | nil => rfl
  | cons s strings ih =>
    by_cases hs : s = []
    · rw [filter_cons_of_neg (by simp [hs]), flatten_cons, hs, ih]
      rfl
    · rw [filter_cons_of_pos (by simp [hs]), flatten_cons, flatten_cons, ih]

theorem length_le_chunks (hne : ∀ s ∈ strings, s ≠ []) :
    strings.length ≤ (strings.flatMap chunk).length := by
  induction strings with
  | nil => exact Nat.zero_le _
  | cons s strings ih =>
    have hpos := length_pos_of_ne_nil (hne s mem_cons_self)
    have hrest := ih fun s hs => hne s (mem_cons_of_mem _ hs)
    rw [flatMap_cons, length_append, length_cons]
    simp only [chunk, length_append]
    omega

/-- Whatever part of the bytes behind the head has been read, and however the others arrive, the
body that is read is what was written, and nothing is read of what comes later. -/
theorem recvchunkedbody_writeall (statuscode : ℤ) (strings : List LuaString)
    (header : List (LuaString × FieldValue)) (fields : Header) (wire body : LuaString)
    (pieces later : Pieces)
    (hwire : (writeall statuscode (.function strings) header).flatten =
      (headLines statuscode header ++ [transferEncoding]).flatten ++ lineEnd ++ wire)
    (hsize : wire.length < maxSize) (hcut : body ++ pieces.flatten = wire)
    (hpieces : Whole pieces) (hlater : Whole later) :
    recvchunkedbody none fields body (pieces ++ later) =
      .ok (some (strings.flatten, some fields), later) := by
  rw [writeall_flatten] at hwire
  obtain rfl := List.append_cancel_left hwire
  have hne : ∀ s ∈ strings.filter (· ≠ []), s ≠ [] := fun s hs => by
    simpa using (List.mem_filter.mp hs).2
  have hahead : Ahead later ((strings.filter (· ≠ [])).flatMap chunk ++ (lastChunk ++ lineEnd))
      body (pieces ++ later) := Ahead.of_append hpieces hcut
  have hrounds : (strings.filter (· ≠ [])).length <
      (body ++ (pieces ++ later).flatten).length + 1 := by
    have hle := length_le_chunks hne
    have hlength := congrArg List.length hcut
    rw [List.flatten_append, ← List.append_assoc, hcut]
    simp only [List.length_append]
    omega
  obtain ⟨state, pieces', hloop, hresult, hrest⟩ := chunkLoop_chunks
    { result := [], size := 0, body } hlater hne hahead hsize hrounds
  rw [List.nil_append, flatten_filter] at hresult
  have hget : (get : Reading Pieces) (pieces ++ later) = .ok (pieces ++ later, pieces ++ later) :=
    rfl
  rw [recvchunkedbody, read_bind hget]
  rw [read_bind hloop]
  dsimp only
  rw [read_bind (recvheader_lineEnd hrest), hresult]
  rfl

/-- `"A"`, an empty string and `"BC"`, in pieces that end within the separators. -/
theorem recvchunkedbody_writeall_pieces : recvchunkedbody none (fun _ => none) [49, 13]
        ([[10], [65, 13], [10, 50, 13, 10, 66, 67, 13, 10, 48, 13], [10, 13], [10]] ++ [[71]]) =
      .ok (some ([65, 66, 67], some fun _ => none), [[71]]) :=
  recvchunkedbody_writeall 200 [[65], [], [66, 67]] [] (fun _ => none) _ [49, 13]
    [[10], [65, 13], [10, 50, 13, 10, 66, 67, 13, 10, 48, 13], [10, 13], [10]] [[71]]
    (writeall_flatten 200 [[65], [], [66, 67]] []) (by decide) (by decide) (by simp) (by simp)

end Uboss.Framework.Http
