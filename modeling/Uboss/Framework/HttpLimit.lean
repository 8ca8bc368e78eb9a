import Uboss.Framework.HttpHead

/-!
# The limit of a body in chunks

The size of a chunk is read by `tonumber`, which takes a sign and wraps around at `2 ^ 64`. A round
with a size that is not negative adds as many bytes to the body as it adds to the size.
-/

namespace Uboss.Framework.Http

open Math Lib Lib.LuaText Option Except Prod

/-- A round in which a chunk of a size is read. -/
def chunkStep (bodylimit : Option ℤ) (s : Chunked × Pieces) (sz : ℤ) : Option (Chunked × Pieces) :=
  match chunkRound bodylimit s.1 s.2 with
  | .ok (.next sz' s', pieces) => if sz' = sz then some (s', pieces) else none
  | _ => none

/-- The variables before the first round. -/
def startChunks (body : LuaString) (pieces : Pieces) : Chunked × Pieces :=
  ({ result := [], size := 0, body }, pieces)

/-- The states at the start of a round, with the sizes of the chunks that have been read. -/
abbrev ChunkRun (bodylimit : Option ℤ) (body : LuaString) (pieces : Pieces) (sizes : List ℤ)
    (s : Chunked × Pieces) : Prop :=
  Run (chunkStep bodylimit) anyAction (startChunks body pieces) sizes s

/-- The limit is enforced when a body is read. -/
structure LimitEnforced (bodylimit : Option ℤ) (body : LuaString) (pieces : Pieces) : Prop where
  /-- Every chunk size is a number that is not negative. -/
  sizes : ∀ {sizes s sz body' pieces'}, ChunkRun bodylimit body pieces sizes s →
    chunksize s.1.body s.2 = .ok (some (sz, body'), pieces') → 0 ≤ sz
  /-- Between two rounds there are no more bytes than the limit. -/
  between : ∀ {sizes s}, ChunkRun bodylimit body pieces sizes s →
    ∀ l ∈ bodylimit, s.1.result.length ≤ l
  /-- Nor are there when a chunk has been read in a round. -/
  within : ∀ {sizes s sz s' pieces'}, ChunkRun bodylimit body pieces sizes s →
    readChunk bodylimit s.1 s.2 = .ok (.next sz s', pieces') → ∀ l ∈ bodylimit, s'.result.length ≤ l
  /-- The length of a body is the sum of the sizes, and is within the limit. -/
  returned : ∀ {header result header' pieces'},
    recvchunkedbody bodylimit header body pieces = .ok (some (result, header'), pieces') →
      (∃ sizes s s' pieces', ChunkRun bodylimit body pieces sizes s ∧
        chunkRound bodylimit s.1 s.2 = .ok (.last s', pieces') ∧ result = s'.result ∧
        (result.length : ℤ) = sizes.sum) ∧
      ∀ l ∈ bodylimit, result.length ≤ l

/-- Texts of numerals whose value, with the sign, wraps around to a negative number. -/
def NegativeSize (line : LuaString) : Prop :=
  ∃ v ∈ numeral 16 line, 2 ^ 63 ≤ (if v.1 then -(v.2 : ℤ) else v.2) % 2 ^ 64

/-- No round comes to a line with a negative size. -/
def NoNegativeSize (bodylimit : Option ℤ) (body : LuaString) (pieces : Pieces) : Prop :=
  ∀ {sizes s line body' pieces'}, ChunkRun bodylimit body pieces sizes s →
    sizeLine s.1.body s.2 = .ok (some (line, body'), pieces') → ¬ NegativeSize line

variable {bodylimit : Option ℤ} {body body' line : LuaString} {pieces pieces' : Pieces} {sz : ℤ}
  {s s' : Chunked}

theorem toInteger_neg_iff {n : ℤ} : toInteger n < 0 ↔ 2 ^ 63 ≤ n % 2 ^ 64 := by
  rw [toInteger, Int.bmod]
  omega

theorem neg_iff_negativeSize (h : bStr2int 16 line = some sz) : sz < 0 ↔ NegativeSize line := by
  rw [bStr2int_eq, map_eq_some_iff] at h
  obtain ⟨v, hv, rfl⟩ := h
  rw [toInteger_neg_iff, NegativeSize, hv]
  simp only [mem_some_iff, exists_eq_left']

/-! ### What a round does -/

theorem chunksize_eq_some (h : chunksize body pieces = .ok (some (sz, body'), pieces')) :
    ∃ line, sizeLine body pieces = .ok (some (line, body'), pieces') ∧
      bStr2int 16 line = some sz := by
  obtain ⟨found, pieces₁, hline, hrest⟩ := of_read_bind h
  cases found with
  | none => cases hrest
  | some found =>
    obtain ⟨line, body₁⟩ := found
    have hpair := mk.inj (ok.inj hrest)
    obtain ⟨sz', hsz, heq⟩ := map_eq_some_iff.mp hpair.1
    obtain ⟨rfl, rfl⟩ := mk.inj heq
    obtain rfl := hpair.2
    exact ⟨line, hline, hsz⟩

theorem chunksize_of_negative (hline : sizeLine body pieces = .ok (some (line, body'), pieces'))
    (hneg : NegativeSize line) :
    ∃ sz, chunksize body pieces = .ok (some (sz, body'), pieces') ∧ sz < 0 := by
  obtain ⟨v, hv, hbit⟩ := hneg
  have hsz := bStr2int_eq 16 line
  rw [hv, map_some] at hsz
  refine ⟨_, ?_, toInteger_neg_iff.mpr hbit⟩
  rw [chunksize, read_bind hline]
  dsimp only
  rw [hsz]
  rfl

theorem readChunk_eq_next (h : readChunk bodylimit s pieces = .ok (.next sz s', pieces')) :
    ∃ body pieces₁, chunksize s.body pieces = .ok (some (sz, body), pieces₁) ∧ sz ≠ 0 ∧
      (∀ l ∈ bodylimit, toInteger (s.size + sz) ≤ l) ∧
      takeChunk sz { s with size := toInteger (s.size + sz), body } pieces₁ =
        .ok (s', pieces') := by
  obtain ⟨found, pieces₁, hsize, hrest⟩ := of_read_bind h
  cases found with
  | none => cases hrest
  | some found =>
    obtain ⟨sz₁, body⟩ := found
    dsimp only at hrest
    split at hrest
    · cases hrest
    · rename_i hne
      split at hrest
      · cases hrest
      · rename_i hlimit
        obtain ⟨s₁, pieces₂, htake, hpure⟩ := of_read_bind hrest
        obtain ⟨heq, rfl⟩ := mk.inj (ok.inj hpure)
        obtain ⟨rfl, rfl⟩ := ChunkStep.next.inj heq
        refine ⟨body, pieces₁, hsize, hne, fun l hl => ?_, htake⟩
        obtain rfl := hl
        exact Int.not_lt.mp (by simpa using hlimit)

theorem chunkRound_eq_next (h : chunkRound bodylimit s pieces = .ok (.next sz s', pieces')) :
    ∃ s₁ pieces₁ body, readChunk bodylimit s pieces = .ok (.next sz s₁, pieces₁) ∧
      readcrln s₁.body pieces₁ = .ok (some body, pieces') ∧ s' = { s₁ with body } := by
  obtain ⟨done, pieces₁, hread, hrest⟩ := of_read_bind h
  cases done with
  | refuse => cases hrest
  | last s₁ => cases hrest
  | next sz₁ s₁ =>
    obtain ⟨found, pieces₂, hline, hpure⟩ := of_read_bind hrest
    cases found with
    | none => cases hpure
    | some body =>
      obtain ⟨heq, rfl⟩ := mk.inj (ok.inj hpure)
      obtain ⟨rfl, rfl⟩ := ChunkStep.next.inj heq
      exact ⟨s₁, pieces₁, body, hread, hline, rfl⟩

theorem join_eq_ok {t r : LuaString} {u : LuaString} (h : join t u = .ok r) :
    r = t ++ u ∧ r.length < maxSize := by
  obtain ⟨hfits, rfl⟩ := concat_eq_ok_iff.mp h
  exact ⟨rfl, by rwa [List.length_append]⟩

theorem readExactly_eq_ok {n : ℕ} {bytes : LuaString}
    (h : readExactly n pieces = .ok (bytes, pieces')) :
    takeExactly n pieces = some (bytes, pieces') := by
  rw [readExactly] at h
  split at h
  · rename_i heq
    rw [heq]
    exact congrArg some (ok.inj h)
  · cases h

/-- A chunk of a size that is not negative has that many bytes. -/
theorem takeChunk_length (h : takeChunk sz s pieces = .ok (s', pieces')) (hsz : 0 ≤ sz) :
    (s'.result.length : ℤ) = s.result.length + sz ∧ s'.size = s.size ∧
      s'.result.length < maxSize := by
  obtain ⟨n, rfl⟩ := Int.eq_ofNat_of_zero_le hsz
  rw [takeChunk] at h
  split at h
  · rename_i hle
    obtain ⟨result, hjoin, hpure⟩ := of_lift_bind h
    obtain ⟨hresult, hfits⟩ := join_eq_ok hjoin
    obtain ⟨rfl, rfl⟩ := mk.inj (ok.inj hpure)
    refine ⟨?_, rfl, hfits⟩
    rw [hresult, sub_take, List.length_append, List.length_take]
    omega
  · rename_i hlt
    obtain ⟨bytes, pieces₁, hread, hrest⟩ := of_read_bind h
    obtain ⟨data, hdata, hrest⟩ := of_lift_bind hrest
    obtain ⟨result, hjoin, hpure⟩ := of_lift_bind hrest
    obtain ⟨hresult, hfits⟩ := join_eq_ok hjoin
    obtain ⟨rfl, rfl⟩ := mk.inj (ok.inj hpure)
    have hlength := (takeExactly_spec (readExactly_eq_ok hread)).1
    refine ⟨?_, rfl, hfits⟩
    rw [hresult, (join_eq_ok hdata).1, List.length_append, List.length_append, hlength]
    omega

/-! ### Runs -/

/-- The body so far has as many bytes as the sizes say. -/
structure Counted (bodylimit : Option ℤ) (sizes : List ℤ) (s : Chunked) : Prop where
  length : (s.result.length : ℤ) = sizes.sum
  size : s.size = sizes.sum
  fits : s.result.length < maxSize
  limit : ∀ l ∈ bodylimit, s.size ≤ l

namespace Counted

variable {sizes : List ℤ}

/-- A chunk of a size that is not negative. The running total does not wrap around: what is read
would be longer than any string. -/
theorem readChunk (h : Counted bodylimit sizes s)
    (hread : readChunk bodylimit s pieces = .ok (.next sz s', pieces')) (hsz : 0 ≤ sz) :
    Counted bodylimit (sizes ++ [sz]) s' := by
  obtain ⟨body, pieces₁, -, -, hlimit, htake⟩ := readChunk_eq_next hread
  obtain ⟨hlength, hsize, hfits⟩ := takeChunk_length htake hsz
  dsimp only at hlength hsize
  have hmax : maxSize = 2 ^ 63 - 1 := rfl
  have hold := h.length
  have htotal : toInteger (s.size + sz) = s.size + sz := by
    have := h.size
    exact toInteger_eq (by omega) (by omega)
  rw [htotal] at hsize hlimit
  constructor
  · rw [hlength, hold, List.sum_append, List.sum_singleton]
  · rw [hsize, h.size, List.sum_append, List.sum_singleton]
  · exact hfits
  · rw [hsize]
    exact hlimit

theorem chunkRound (h : Counted bodylimit sizes s)
    (hround : chunkRound bodylimit s pieces = .ok (.next sz s', pieces')) (hsz : 0 ≤ sz) :
    Counted bodylimit (sizes ++ [sz]) s' := by
  obtain ⟨s₁, pieces₁, body, hread, -, rfl⟩ := chunkRound_eq_next hround
  have hnext := h.readChunk hread hsz
  exact ⟨hnext.length, hnext.size, hnext.fits, hnext.limit⟩

end Counted

theorem chunkStep_eq_some {t u : Chunked × Pieces} (h : chunkStep bodylimit t sz = some u) :
    chunkRound bodylimit t.1 t.2 = .ok (.next sz u.1, u.2) := by
  rw [chunkStep] at h
  split at h
  · rename_i hround
    obtain ⟨rfl, hu⟩ := ite_none_right_eq_some.mp h
    obtain rfl := some.inj hu
    exact hround
  · cases h

theorem chunkStep_of_next {t : Chunked × Pieces}
    (h : chunkRound bodylimit t.1 t.2 = .ok (.next sz s', pieces')) :
    chunkStep bodylimit t sz = some (s', pieces') := by
  rw [chunkStep, h]
  exact if_pos rfl

theorem chunksize_of_next {t u : Chunked × Pieces} (h : chunkStep bodylimit t sz = some u) :
    ∃ body pieces', chunksize t.1.body t.2 = .ok (some (sz, body), pieces') := by
  obtain ⟨s₁, pieces₁, -, hread, -, -⟩ := chunkRound_eq_next (chunkStep_eq_some h)
  obtain ⟨body, pieces₂, hsize, -⟩ := readChunk_eq_next hread
  exact ⟨body, pieces₂, hsize⟩

/-- The loop goes through the states of a run. By induction on the rounds. -/
theorem chunkLoop_run {rounds : ℕ}
    (h : chunkLoop bodylimit rounds s pieces = .ok (some s', pieces')) :
    ∃ sizes t, Run (chunkStep bodylimit) anyAction (s, pieces) sizes t ∧
      chunkRound bodylimit t.1 t.2 = .ok (.last s', pieces') := by
  induction rounds generalizing s pieces with
  | zero => cases h
  | succ rounds ih =>
    obtain ⟨done, pieces₁, hround, hrest⟩ := of_read_bind h
    cases done with
    | refuse => cases hrest
    | last s₁ =>
      obtain ⟨heq, rfl⟩ := mk.inj (ok.inj hrest)
      obtain rfl := some.inj heq
      exact ⟨[], _, .nil _, hround⟩
    | next sz s₁ =>
      obtain ⟨sizes, t, hrun, hlast⟩ := ih hrest
      have hstep : chunkStep bodylimit (s, pieces) sz = some (s₁, pieces₁) :=
        chunkStep_of_next hround
      exact ⟨[sz] ++ sizes, t, ((Run.nil _).snoc trivial hstep).append hrun, hlast⟩

theorem chunkRound_eq_last (h : chunkRound bodylimit s pieces = .ok (.last s', pieces')) :
    s'.result = s.result := by
  obtain ⟨done, pieces₁, hread, hrest⟩ := of_read_bind h
  cases done with
  | refuse => cases hrest
  | next sz s₁ =>
    obtain ⟨found, pieces₂, -, hpure⟩ := of_read_bind hrest
    cases found with
    | none => cases hpure
    | some body => cases hpure
  | last s₁ =>
    obtain ⟨heq, -⟩ := mk.inj (ok.inj hrest)
    obtain rfl := ChunkStep.last.inj heq
    obtain ⟨found, pieces₂, -, hrest⟩ := of_read_bind hread
    cases found with
    | none => cases hrest
    | some found =>
      dsimp only at hrest
      split at hrest
      · obtain ⟨heq, -⟩ := mk.inj (ok.inj hrest)
        obtain rfl := ChunkStep.last.inj heq
        rfl
      · split at hrest
        · cases hrest
        · obtain ⟨s₂, pieces₃, -, hpure⟩ := of_read_bind hrest
          cases hpure

theorem recvchunkedbody_run {header : Header} {result : LuaString} {header' : Option Header}
    (h : recvchunkedbody bodylimit header body pieces = .ok (some (result, header'), pieces')) :
    ∃ sizes t s' pieces', ChunkRun bodylimit body pieces sizes t ∧
      chunkRound bodylimit t.1 t.2 = .ok (.last s', pieces') ∧ result = s'.result ∧
      s'.result = t.1.result := by
  obtain ⟨_, _, hget, hrest⟩ := of_read_bind h
  obtain ⟨rfl, rfl⟩ := mk.inj (ok.inj hget)
  obtain ⟨found, pieces₁, hloop, hrest⟩ := of_read_bind hrest
  cases found with
  | none => cases hrest
  | some s' =>
    obtain ⟨found, pieces₂, -, hrest⟩ := of_read_bind hrest
    cases found with
    | none => cases hrest
    | some found =>
      obtain ⟨fields, -, hpure⟩ := of_lift_bind hrest
      obtain ⟨heq, -⟩ := mk.inj (ok.inj hpure)
      obtain ⟨rfl, -⟩ := mk.inj (some.inj heq)
      obtain ⟨sizes, t, hrun, hlast⟩ := chunkLoop_run hloop
      exact ⟨sizes, t, s', pieces₁, hrun, hlast, rfl, chunkRound_eq_last hlast⟩

/-- The sizes are not negative where no line stands for one that is. -/
theorem size_nonneg (h : NoNegativeSize bodylimit body pieces) {sizes : List ℤ}
    {t : Chunked × Pieces} (hrun : ChunkRun bodylimit body pieces sizes t)
    (hsize : chunksize t.1.body t.2 = .ok (some (sz, body'), pieces')) : 0 ≤ sz := by
  obtain ⟨line, hline, hsz⟩ := chunksize_eq_some hsize
  exact Int.not_lt.mp fun hneg => h hrun hline ((neg_iff_negativeSize hsz).mp hneg)

/-- The run lemma, by induction on the rounds. -/
theorem Counted.run (hlimit : ∀ l ∈ bodylimit, 0 ≤ l) (h : NoNegativeSize bodylimit body pieces)
    {sizes : List ℤ} {t : Chunked × Pieces} (hrun : ChunkRun bodylimit body pieces sizes t) :
    Counted bodylimit sizes t.1 := by
  induction hrun with
  | nil =>
    have hempty : 0 < maxSize := by decide
    exact ⟨rfl, rfl, hempty, hlimit⟩
  | snoc hbefore _ hstep ih =>
    obtain ⟨body₁, pieces₁, hsize⟩ := chunksize_of_next hstep
    exact ih.chunkRound (chunkStep_eq_some hstep) (size_nonneg h hbefore hsize)

/-- The limit is enforced if and only if it is not negative itself, and no line that is read stands
for a negative size. -/
theorem limitEnforced_iff (bodylimit : Option ℤ) (body : LuaString) (pieces : Pieces) :
    LimitEnforced bodylimit body pieces ↔
      (∀ l ∈ bodylimit, 0 ≤ l) ∧ NoNegativeSize bodylimit body pieces := by
  constructor
  · intro h
    refine ⟨h.between (.nil _), fun hrun hline hneg => ?_⟩
    obtain ⟨sz, hsize, hlt⟩ := chunksize_of_negative hline hneg
    exact Int.not_lt.mpr (h.sizes hrun hsize) hlt
  · rintro ⟨hlimit, h⟩
    constructor
    · exact fun hrun hsize => size_nonneg h hrun hsize
    · intro sizes s hrun l hl
      have hcount := Counted.run hlimit h hrun
      rw [hcount.length, ← hcount.size]
      exact hcount.limit l hl
    · intro sizes s sz s' pieces' hrun hread l hl
      obtain ⟨body, pieces₁, hsize, -⟩ := readChunk_eq_next hread
      have hcount := (Counted.run hlimit h hrun).readChunk hread (size_nonneg h hrun hsize)
      rw [hcount.length, ← hcount.size]
      exact hcount.limit l hl
    · intro header result header' pieces' hreturn
      obtain ⟨sizes, t, s', pieces₁, hrun, hlast, rfl, heq⟩ := recvchunkedbody_run hreturn
      have hcount := Counted.run hlimit h hrun
      rw [heq]
      refine ⟨⟨sizes, t, s', pieces₁, hrun, hlast, heq.symm, hcount.length⟩, fun l hl => ?_⟩
      rw [hcount.length, ← hcount.size]
      exact hcount.limit l hl

/-- A chunk of size -3 is all that is in the buffer but the end of the line. -/
theorem limit_wrong :
    ¬ ∀ bodylimit body pieces, Whole pieces → LimitEnforced bodylimit body pieces := by
  intro h
  have henforced := h (some 0) [45, 51, 13, 10, 65, 65, 65, 65, 13, 10] [[48, 13, 10, 13, 10]]
    (by simp)
  have hreturn : recvchunkedbody (some 0) (fun _ => none)
      [45, 51, 13, 10, 65, 65, 65, 65, 13, 10] [[48, 13, 10, 13, 10]] =
        .ok (some ([65, 65, 65, 65], some fun _ => none), []) := rfl
  exact absurd ((henforced.returned hreturn).2 0 rfl) (by decide)

/-! ### Rounds -/

/-- The bytes that are still to be read. -/
def pending (body : LuaString) (pieces : Pieces) : ℕ := (body ++ pieces.flatten).length

theorem pending_eq (body : LuaString) (pieces : Pieces) :
    pending body pieces = body.length + pieces.flatten.length := List.length_append

theorem length_sub_le (s : LuaString) (i j : ℤ) : (sub s i j).length ≤ s.length := by
  rw [sub]
  split
  · exact Nat.zero_le _
  · rw [List.length_take, List.length_drop]
    omega

theorem sizeLine_pending (h : sizeLine body pieces = .ok (some (line, body'), pieces')) :
    pending body' pieces' + 2 ≤ pending body pieces := by
  revert h
  refine sizeLine_induct (P := fun body pieces r => r = .ok (some (line, body'), pieces') →
    pending body' pieces' + 2 ≤ pending body pieces) ?_ ?_ ?_ ?_ ?_ body pieces
  · intro body pieces p hfirst heq
    obtain ⟨hfound, rfl⟩ := mk.inj (ok.inj heq)
    obtain ⟨-, rfl⟩ := mk.inj (some.inj hfound)
    have hends := length_le_of_occurrence lineEnd_ne_nil hfirst
    have htwo : lineEnd.length = 2 := rfl
    rw [pending_eq, pending_eq, List.length_drop]
    omega
  · intro body pieces heq
    cases heq
  · intro body heq
    cases heq
  · intro body bytes pieces heq
    cases heq
  · intro body bytes pieces r hrest heq
    have hsame : pending (body ++ bytes) pieces = pending body (bytes :: pieces) := by
      rw [pending, pending, List.append_assoc, List.flatten_cons]
    exact (hrest heq).trans_eq hsame

theorem takeExactly_pending {n : ℕ} {bytes : LuaString}
    (h : readExactly n pieces = .ok (bytes, pieces')) :
    pieces'.flatten.length ≤ pieces.flatten.length := by
  have hflat := (takeExactly_spec (readExactly_eq_ok h)).2.1
  rw [hflat, List.length_append]
  exact Nat.le_add_left _ _

theorem readcrln_pending (h : readcrln body pieces = .ok (some body', pieces')) :
    pending body' pieces' ≤ pending body pieces := by
  rw [pending_eq, pending_eq]
  rw [readcrln] at h
  split at h
  · split at h
    · cases h
    · obtain ⟨heq, rfl⟩ := mk.inj (ok.inj h)
      obtain rfl := some.inj heq
      exact Nat.add_le_add_right (length_sub_le _ _ _) _
  · obtain ⟨bytes, pieces₁, hread, hrest⟩ := of_read_bind h
    obtain ⟨joined, -, hrest⟩ := of_lift_bind hrest
    split at hrest
    · cases hrest
    · obtain ⟨heq, rfl⟩ := mk.inj (ok.inj hrest)
      obtain rfl := some.inj heq
      exact (Nat.zero_add _).le.trans ((takeExactly_pending hread).trans (Nat.le_add_left _ _))

theorem takeChunk_pending (h : takeChunk sz s pieces = .ok (s', pieces')) :
    pending s'.body pieces' ≤ pending s.body pieces := by
  rw [pending_eq, pending_eq]
  rw [takeChunk] at h
  split at h
  · obtain ⟨result, -, hpure⟩ := of_lift_bind h
    obtain ⟨rfl, rfl⟩ := mk.inj (ok.inj hpure)
    exact Nat.add_le_add_right (length_sub_le _ _ _) _
  · obtain ⟨bytes, pieces₁, hread, hrest⟩ := of_read_bind h
    obtain ⟨data, -, hrest⟩ := of_lift_bind hrest
    obtain ⟨result, -, hpure⟩ := of_lift_bind hrest
    obtain ⟨rfl, rfl⟩ := mk.inj (ok.inj hpure)
    exact (Nat.zero_add _).le.trans ((takeExactly_pending hread).trans (Nat.le_add_left _ _))

theorem chunkRound_pending (h : chunkRound bodylimit s pieces = .ok (.next sz s', pieces')) :
    pending s'.body pieces' < pending s.body pieces := by
  obtain ⟨s₁, pieces₁, body₁, hread, hline, rfl⟩ := chunkRound_eq_next h
  obtain ⟨body₂, pieces₂, hsize, -, -, htake⟩ := readChunk_eq_next hread
  obtain ⟨line, hfound, -⟩ := chunksize_eq_some hsize
  have h₁ := sizeLine_pending hfound
  have h₂ := takeChunk_pending htake
  have h₃ := readcrln_pending hline
  dsimp only at h₂ ⊢
  omega

/-- A reading that does not run out of rounds. -/
def Total {α : Type} (x : Reading α) : Prop := ∀ pieces, x pieces ≠ .error .rounds

namespace Total

variable {α β : Type} {x : Reading α} {f : α → Reading β} {e : Except HttpError α}

theorem pure (a : α) : Total (pure a : Reading α) := fun _ h => by cases h

theorem bind (hx : Total x) (hf : ∀ a, Total (f a)) : Total (x >>= f) := by
  intro pieces h
  change (x pieces).bind _ = _ at h
  cases hread : x pieces with
  | error e =>
    rw [hread] at h
    obtain rfl := Except.error.inj h
    exact hx pieces hread
  | ok r =>
    rw [hread] at h
    exact hf r.1 r.2 h

theorem lift (h : e ≠ .error .rounds) : Total (liftM e : Reading α) := by
  intro pieces hlift
  cases e with
  | error e =>
    obtain rfl := Except.error.inj hlift
    exact h rfl
  | ok a => cases hlift

end Total

theorem join_ne_rounds (t u : LuaString) : join t u ≠ .error .rounds := by
  rw [join, concat]
  split <;> exact fun h => by cases h

theorem readExactly_total (n : ℕ) : Total (readExactly n) := by
  intro pieces h
  rw [readExactly] at h
  split at h <;> cases h

theorem sizeLine_total (body : LuaString) : Total (sizeLine body) := by
  intro pieces
  refine sizeLine_induct (P := fun _ _ r => r ≠ .error .rounds) ?_ ?_ ?_ ?_ ?_ body pieces
  · exact fun _ _ _ _ h => by cases h
  · exact fun _ _ h => by cases h
  · exact fun _ h => by cases h
  · exact fun _ _ _ h => by cases h
  · exact fun _ _ _ _ h => h

theorem chunksize_total (body : LuaString) : Total (chunksize body) := by
  refine (sizeLine_total body).bind fun found => ?_
  cases found with
  | none => exact Total.pure _
  | some found => exact Total.pure _

theorem readcrln_total (body : LuaString) : Total (readcrln body) := by
  rw [readcrln]
  split
  · split <;> exact Total.pure _
  · refine (readExactly_total _).bind fun bytes => ?_
    refine (Total.lift (join_ne_rounds _ _)).bind fun t => ?_
    split <;> exact Total.pure _

theorem takeChunk_total (sz : ℤ) (s : Chunked) : Total (takeChunk sz s) := by
  rw [takeChunk]
  split
  · exact (Total.lift (join_ne_rounds _ _)).bind fun _ => Total.pure _
  · exact (readExactly_total _).bind fun _ => (Total.lift (join_ne_rounds _ _)).bind fun _ =>
      (Total.lift (join_ne_rounds _ _)).bind fun _ => Total.pure _

theorem readChunk_total (bodylimit : Option ℤ) (s : Chunked) : Total (readChunk bodylimit s) := by
  refine (chunksize_total s.body).bind fun found => ?_
  cases found with
  | none => exact Total.pure _
  | some found =>
    dsimp only
    split
    · exact Total.pure _
    · split
      · exact Total.pure _
      · exact (takeChunk_total _ _).bind fun _ => Total.pure _

theorem chunkRound_total (bodylimit : Option ℤ) (s : Chunked) : Total (chunkRound bodylimit s) := by
  refine (readChunk_total bodylimit s).bind fun done => ?_
  cases done with
  | refuse => exact Total.pure _
  | last s => exact Total.pure _
  | next sz s =>
    refine (readcrln_total s.body).bind fun found => ?_
    cases found <;> exact Total.pure _

/-- There are enough rounds: each of them takes bytes off the stream. -/
theorem chunkLoop_ne_rounds {rounds : ℕ} (h : pending s.body pieces < rounds) :
    chunkLoop bodylimit rounds s pieces ≠ .error .rounds := by
  induction rounds generalizing s pieces with
  | zero => exact absurd h (Nat.not_lt_zero _)
  | succ rounds ih =>
    intro hstuck
    cases hround : chunkRound bodylimit s pieces with
    | error e =>
      rw [chunkLoop] at hstuck
      change (chunkRound bodylimit s pieces).bind _ = _ at hstuck
      rw [hround] at hstuck
      obtain rfl := Except.error.inj hstuck
      exact chunkRound_total bodylimit s pieces hround
    | ok r =>
      obtain ⟨done, pieces₁⟩ := r
      rw [chunkLoop, read_bind hround] at hstuck
      cases done with
      | refuse => cases hstuck
      | last s₁ => cases hstuck
      | next sz s₁ =>
        have hless := chunkRound_pending hround
        exact ih (by omega) hstuck

theorem recvheaderLoop_total (header : LuaString) : Total (recvheaderLoop header) := by
  intro pieces
  induction pieces generalizing header with
  | nil => exact fun h => by cases h
  | cons bytes pieces ih =>
    intro h
    rw [recvheaderLoop] at h
    change (join header bytes).bind _ = _ at h
    cases hjoin : join header bytes with
    | error e =>
      rw [hjoin] at h
      obtain rfl := Except.error.inj h
      exact join_ne_rounds _ _ hjoin
    | ok whole =>
      rw [hjoin] at h
      change ite _ _ _ = _ at h
      split at h
      · cases h
      · split at h
        · cases h
        · split at h
          · cases h
          · exact ih whole h

theorem recvheader_total (header : LuaString) : Total (recvheader header) := by
  rw [recvheader]
  split
  · exact Total.pure _
  · split
    · exact Total.pure _
    · exact recvheaderLoop_total header

theorem parseLines_ne_rounds (name : Option LuaString) (header : Header) (lines : List LuaString) :
    parseLines name header lines ≠ .error .rounds := by
  induction lines generalizing name header with
  | nil => exact fun h => by cases h
  | cons line lines ih =>
    unfold parseLines
    split
    · split
      · exact fun h => by cases h
      · split
        next value _ =>
          intro h
          change (join value (sub line 2 (-1))).bind _ = _ at h
          cases hjoin : join value (sub line 2 (-1)) with
          | error e =>
            rw [hjoin] at h
            obtain rfl := Except.error.inj h
            exact join_ne_rounds _ _ hjoin
          | ok value' =>
            rw [hjoin] at h
            exact ih _ _ h
        next => exact fun h => by cases h
    · split
      · exact fun h => by cases h
      · exact ih _ _

/-- The body is read to its end or refused, or the stream ends: the loop does not go on for ever. -/
theorem recvchunkedbody_ends (bodylimit : Option ℤ) (header : Header) (body : LuaString)
    (pieces : Pieces) : recvchunkedbody bodylimit header body pieces ≠ .error .rounds := by
  intro h
  change ((chunkLoop bodylimit (pending body pieces + 1) ⟨[], 0, body⟩ pieces).bind _) = _ at h
  cases hloop : chunkLoop bodylimit (pending body pieces + 1) ⟨[], 0, body⟩ pieces with
  | error e =>
    rw [hloop] at h
    obtain rfl := Except.error.inj h
    exact chunkLoop_ne_rounds (Nat.lt_succ_self _) hloop
  | ok r =>
    rw [hloop] at h
    obtain ⟨done, pieces'⟩ := r
    cases done with
    | none => cases h
    | some s =>
      refine ((recvheader_total s.body).bind fun found => ?_) pieces' h
      cases found with
      | none => exact Total.pure _
      | some found =>
        exact (Total.lift (parseLines_ne_rounds none header _)).bind fun _ => Total.pure _

end Uboss.Framework.Http
