import Mathlib.Data.Int.Interval
import Uboss.Math.CInt
import Uboss.Math.Fuel
import Uboss.Math.LittleEndian
import Uboss.Math.Transition
import Uboss.Math.Walk

/-!
# Replies of Mongo

`op_reply` in `lua-mongo.c` walks over the documents of a reply by the lengths that it reads from
them. The lengths are signed: a document may lead to itself, or back to where the walk has been, or
out of the string. Positions are counted from the beginning of the string. The loop is given a
number of rounds; where they do not suffice there is no result.

The counter of the documents is taken to be a number: as many documents as would make it leave the
type `int` do not fit in a table. The result table is a sequence.
-/

namespace Uboss.Lib.Mongo

open Math List Option Except

/-- A behaviour that is not defined. -/
inductive ReplyFault
  /-- A result is not an `int`: this is not defined. -/
  | overflow
  /-- A read outside the string. -/
  | outside
  deriving DecidableEq, Repr

/-- A result, if the rounds suffice. -/
abbrev Run := ExceptT ReplyFault Option

/-- `sizeof(*reply)` -/
def headerSize : ℕ := 32

def replyQueryFailure : ℕ := 2

/-- The word at a position. -/
def word (data : List UInt8) (pos : ℕ) : ℕ := leNat ((data.drop pos).take 4)

/-- `reply->response_id` -/
def responseId (data : List UInt8) : ℤ := castInt (word data 4)

/-- `reply->flags` -/
def flags (data : List UInt8) : ℕ := word data 12

/-- `reply->cursor_id` -/
def cursorId (data : List UInt8) : List UInt8 := (data.drop 16).take 8

/-- `reply->starting` -/
def starting (data : List UInt8) : ℤ := castInt (word data 24)

/-- `reply->number` -/
def number (data : List UInt8) : ℤ := castInt (word data 28)

/-- `(int)data_len - sizeof(*reply)` -/
def bodySize (data : List UInt8) : ℤ := castInt (data.length - headerSize)

def getLength (data : List UInt8) (doc : ℤ) : Except ReplyFault ℕ :=
  if 0 ≤ doc ∧ doc + 4 ≤ data.length then .ok (word data doc.toNat) else .error .outside

/-- What is in the result table: what was there before, or the pointer to a document. -/
inductive Entry (α : Type)
  | other (v : α)
  | document (doc : ℤ)
  deriving DecidableEq, Repr

variable {α : Type}

/-- `lua_rawseti` -/
def rawseti (table : List (Entry α)) (i : ℕ) (v : Entry α) : List (Entry α) :=
  table.take (i - 1) ++ v :: table.drop i

/-- The variables of the loop. -/
structure DocumentState (α : Type) where
  doc : ℤ
  sz : ℤ
  i : ℕ
  table : List (Entry α)
  deriving DecidableEq, Repr

/-- A round of the loop. -/
def documentStep (data : List UInt8) (s : DocumentState α) :
    Except ReplyFault (DocumentState α) := do
  let docLen := castInt (← getLength data s.doc)
  let sz ← checkInt .overflow (s.sz - docLen)
  return { doc := s.doc + docLen, sz, i := s.i + 1, table := rawseti s.table s.i (.document s.doc) }

def documentLoop (data : List UInt8) : ℕ → DocumentState α → Run (DocumentState α)
  | 0, _ => none
  | rounds + 1, s =>
    if 4 < s.sz then
      match documentStep data s with
      | .error e => some (.error e)
      | .ok s => documentLoop data rounds s
    else some (.ok s)

/-- What `op_reply` returns. -/
inductive ReplyResult
  /-- `false` -/
  | tooShort
  /-- `false`, the request, and the error document behind the header -/
  | queryFailure (id : ℤ)
  /-- `false` and the request -/
  | miscounted (id : ℤ)
  /-- The error `Invalid result bson document`. -/
  | invalidDocument
  /-- `true`, the request, the first document, the cursor unless it is closed, and `startfrom` -/
  | succeeded (id : ℤ) (document : Option ℤ) (cursor : Option (List UInt8)) (startFrom : ℤ)
  deriving DecidableEq, Repr

/-- The end of `op_reply`. -/
def finish (data : List UInt8) (sz : ℤ) : ReplyResult :=
  if sz ≠ 0 then .invalidDocument
  else
    .succeeded (responseId data) (if number data = 0 then none else some headerSize)
      (if cursorId data = List.replicate 8 0 then none else some (cursorId data)) (starting data)

/-- `op_reply`, with the result table behind it. -/
def opReply (rounds : ℕ) (data : List UInt8) (table : Option (List α)) :
    Run (ReplyResult × List (Entry α)) :=
  let entries := (table.getD []).map Entry.other
  if data.length < headerSize then return (.tooShort, entries)
  else if flags data &&& replyQueryFailure ≠ 0 then
    return (.queryFailure (responseId data), entries)
  else if table.isSome then do
    let s ← documentLoop data rounds
      { doc := headerSize, sz := bodySize data, i := 1, table := entries }
    let last ← some (checkInt ReplyFault.overflow (number data + 1))
    if (s.i : ℤ) ≠ last then return (.miscounted (responseId data), s.table)
    -- the entries behind the last document are removed
    else return (finish data s.sz, s.table.take (s.i - 1))
  else if 4 ≤ bodySize data then do
    let len ← some (getLength data headerSize)
    -- the length is unsigned here, and so is the difference
    return (finish data (castInt ((bodySize data).toNat + 2 ^ 32 - len)), [])
  else return (finish data (bodySize data), [])

example : opReply 2 (List.replicate 28 0 ++ [1, 0, 0, 0] ++ [5, 0, 0, 0, 0]) (some [true, false]) =
    some (.ok (.succeeded 0 (some 32) none 0, [.document 32])) := rfl

/-! ### The walk over the documents -/

/-- Where the body ends by its size. -/
def bodyEnd (data : List UInt8) : ℤ := headerSize + bodySize data

/-- `doc_len` of the document at a position -/
def docLength (data : List UInt8) (doc : ℤ) : ℤ := castInt (word data doc.toNat)

/-- The position to which the document at a position leads. -/
def follow (data : List UInt8) (doc : ℤ) : Option ℤ :=
  if 0 ≤ doc ∧ 4 < bodyEnd data - doc then some (doc + docLength data doc) else none

/-- What is left behind a position is an `int`, and if it has room for a document then the position
is not in front of the string. -/
structure Admissible (data : List UInt8) (doc : ℤ) : Prop where
  fits : bodyEnd data - doc < 2 ^ 31
  inside : 4 < bodyEnd data - doc → 0 ≤ doc

/-- The pointers in a table. -/
def documents (entries : List (Entry α)) : List ℤ := entries.filterMap fun
    | .document doc => some doc
    | .other _ => none

/-- The reply is parsed in finitely many rounds without a read outside the string. The pointers in
the table are to at least five bytes of the string, and if the result is a success, then the lengths
of the documents add up to the body. -/
def WithinBounds (data : List UInt8) (table : List α) : Prop :=
  ∃ rounds result entries, opReply rounds data (some table) = some (.ok (result, entries)) ∧
    (∀ doc ∈ documents entries, 0 ≤ doc ∧ doc + 5 ≤ data.length) ∧
    ∀ id document cursor startFrom, result = .succeeded id document cursor startFrom →
      ((documents entries).map (docLength data)).sum + headerSize = data.length

/-- The loop has come past these documents. -/
structure Passed (data : List UInt8) (table : List α) (docs : List ℤ) (s : DocumentState α) :
    Prop where
  total : s.doc + s.sz = bodyEnd data
  fits : s.sz < 2 ^ 31
  table : s.table = docs.map .document ++ (table.map .other).drop docs.length
  i : s.i = docs.length + 1
  sum : (docs.map (docLength data)).sum + headerSize = s.doc
  walk : walk (follow data) docs.length headerSize = some s.doc
  inside : ∀ doc ∈ docs, 0 ≤ doc ∧ doc + 5 ≤ data.length

variable {data : List UInt8} {table : List α} {docs : List ℤ} {s t : DocumentState α} {doc : ℤ}

theorem bodyEnd_le (h : headerSize ≤ data.length) : bodyEnd data ≤ data.length := by
  have := castInt_le (data.length - headerSize)
  rw [bodyEnd, bodySize]
  omega

theorem documents_append (entries entries' : List (Entry α)) :
    documents (entries ++ entries') = documents entries ++ documents entries' :=
  filterMap_append

theorem documents_document (docs : List ℤ) :
    documents (docs.map (Entry.document (α := α))) = docs := by
  induction docs with
  | nil => rfl
  | cons doc docs ih => exact congrArg (doc :: ·) ih

theorem documents_other (table : List α) : documents (table.map Entry.other) = [] := by
  induction table with
  | nil => rfl
  | cons v table ih => exact ih

/-- A pointer is stored at the index behind the ones before it. -/
theorem rawseti_append (docs : List ℤ) (table : List α) (doc : ℤ) :
    rawseti (docs.map .document ++ (table.map .other).drop docs.length) (docs.length + 1)
        (.document doc) =
      (docs ++ [doc]).map .document ++ (table.map .other).drop (docs ++ [doc]).length := by
  have hlength : (docs.map (Entry.document (α := α))).length = docs.length := length_map _
  rw [rawseti, Nat.add_sub_cancel, take_left' hlength, ← hlength, drop_append, hlength]
  simp

/-- What is in the table behind the last document is not a pointer. -/
theorem Passed.documents (h : Passed data table docs s) : documents s.table = docs := by
  rw [h.table, documents_append, documents_document, ← map_drop, documents_other, append_nil]

theorem getLength_eq (hdata : headerSize ≤ data.length) (hdoc : 0 ≤ doc)
    (hroom : 4 < bodyEnd data - doc) : getLength data doc = .ok (word data doc.toNat) := by
  have := bodyEnd_le hdata
  exact if_pos ⟨hdoc, by omega⟩

theorem follow_eq_some_iff {next : ℤ} : follow data doc = some next ↔
    0 ≤ doc ∧ 4 < bodyEnd data - doc ∧ next = doc + docLength data doc := by
  rw [follow]
  split
  · next h => simp [h, eq_comm]
  · next h => exact iff_of_false (by simp) fun h' => h ⟨h'.1, h'.2.1⟩

section

variable (hdata : headerSize ≤ data.length)
include hdata

section

variable (h : Passed data table docs s)
include h

theorem documentStep_eq_ok_iff (hpos : 4 < s.sz) : documentStep data s = .ok t ↔
      0 ≤ s.doc ∧ s.sz - docLength data s.doc < 2 ^ 31 ∧
        t = { doc := s.doc + docLength data s.doc, sz := s.sz - docLength data s.doc
              i := s.i + 1, table := rawseti s.table s.i (.document s.doc) } := by
  have htotal := h.total
  constructor
  · intro hstep
    obtain ⟨len, hlen, hrest⟩ := bind_eq_ok_iff.mp hstep
    obtain ⟨sz, hsz, hdone⟩ := bind_eq_ok_iff.mp hrest
    obtain ⟨-, hfits, rfl⟩ := checkInt_eq_ok_iff.mp hsz
    have hdoc : 0 ≤ s.doc := by
      rw [getLength] at hlen
      split at hlen
      · next hinside => exact hinside.1
      · cases hlen
    rw [getLength_eq hdata hdoc (by omega)] at hlen
    obtain rfl := ok.inj hlen
    exact ⟨hdoc, hfits, (ok.inj hdone).symm⟩
  · rintro ⟨hdoc, hfits, rfl⟩
    have hlow : -2 ^ 31 ≤ s.sz - docLength data s.doc := by
      have := castInt_lt (word data s.doc.toNat)
      rw [docLength]
      omega
    rw [documentStep, getLength_eq hdata hdoc (by omega), ok_bind]
    exact checkInt_bind hlow hfits _

/-- A round comes past a document to the position to which it leads. -/
theorem Passed.step (hpos : 4 < s.sz) (hstep : documentStep data s = .ok t) :
    follow data s.doc = some t.doc ∧ Passed data table (docs ++ [s.doc]) t := by
  obtain ⟨hdoc, hfits, rfl⟩ := (documentStep_eq_ok_iff hdata h hpos).mp hstep
  have htotal := h.total
  have hfollow : follow data s.doc = some (s.doc + docLength data s.doc) :=
    follow_eq_some_iff.mpr ⟨hdoc, by omega, rfl⟩
  refine ⟨hfollow, ?_⟩
  exact {
    total := by
      change s.doc + _ + (s.sz - _) = _
      omega
    fits := hfits
    table := by
      change rawseti s.table s.i _ = _
      rw [h.table, h.i, rawseti_append]
    i := by
      change s.i + 1 = _
      rw [h.i, length_append, length_singleton]
    sum := by
      change _ = s.doc + _
      have := h.sum
      rw [map_append, sum_append, map_singleton, sum_singleton]
      omega
    walk := by
      rw [length_append, length_singleton, walk_add h.walk]
      exact walk_succ_of_some hfollow
    inside := by
      intro doc hmem
      rcases mem_append.mp hmem with hmem | hmem
      · exact h.inside doc hmem
      · have := bodyEnd_le hdata
        obtain rfl := mem_singleton.mp hmem
        exact ⟨hdoc, by omega⟩ }

/-- If the loop ends, then the walk ends, and all its positions are admissible. -/
theorem documentLoop_spec {rounds : ℕ} (hloop : documentLoop data rounds s = some (.ok t)) :
    (∃ docs', Passed data table docs' t) ∧ t.sz ≤ 4 ∧ Ends (follow data) s.doc ∧
      ∀ n doc, walk (follow data) n s.doc = some doc → Admissible data doc := by
  induction rounds generalizing s docs with
  | zero => cases hloop
  | succ rounds ih =>
    have htotal := h.total
    have hfits := h.fits
    rw [documentLoop] at hloop
    split at hloop
    · next hpos =>
      split at hloop
      · cases hloop
      · next s' hstep =>
        obtain ⟨hfollow, hpassed⟩ := h.step hdata hpos hstep
        obtain ⟨hdocs, hend, hends, hwalk⟩ := ih hpassed hloop
        refine ⟨hdocs, hend, (ends_iff_of_some hfollow).mpr hends, fun n doc hn => ?_⟩
        cases n with
        | zero =>
          obtain rfl := some.inj hn
          exact ⟨by omega, fun _ => (follow_eq_some_iff.mp hfollow).1⟩
        | succ n =>
          rw [walk_succ_of_some hfollow] at hn
          exact hwalk n doc hn
    · next hend =>
      obtain rfl := ok.inj (some.inj hloop)
      have hnone : follow data s.doc = none := if_neg fun hroom => hend (by omega)
      refine ⟨⟨docs, h⟩, not_lt.mp hend, ends_of_none hnone, fun n doc hn => ?_⟩
      cases n with
      | zero =>
        obtain rfl := some.inj hn
        exact ⟨by omega, by omega⟩
      | succ n =>
        rw [walk_succ_of_none hnone] at hn
        cases hn

end

/-- If the walk ends and all its positions are admissible, then the loop ends. -/
theorem documentLoop_of_ends (hends : Ends (follow data) doc)
    (hwalk : ∀ n doc', walk (follow data) n doc = some doc' → Admissible data doc')
    (h : Passed data table docs s) (hdoc : s.doc = doc) :
    ∃ rounds t, documentLoop data rounds s = some (.ok t) := by
  refine Ends.induct (P := fun doc =>
    (∀ n doc', walk (follow data) n doc = some doc' → Admissible data doc') →
      ∀ docs (s : DocumentState α), Passed data table docs s → s.doc = doc →
        ∃ rounds t, documentLoop data rounds s = some (.ok t)) hends ?_ ?_ hwalk docs s h hdoc
  · rintro doc hnone hwalk docs s h rfl
    have htotal := h.total
    have hend : ¬ 4 < s.sz := by
      intro hpos
      have hinside := (hwalk 0 s.doc rfl).inside (by omega)
      rw [follow, if_pos ⟨hinside, by omega⟩] at hnone
      cases hnone
    exact ⟨1, s, if_neg hend⟩
  · rintro doc next hfollow ih hwalk docs s h rfl
    have htotal := h.total
    obtain ⟨hdoc, hroom, rfl⟩ := follow_eq_some_iff.mp hfollow
    have hnext := hwalk 1 _ (walk_succ_of_some hfollow)
    have hfits := hnext.fits
    have hstep := (documentStep_eq_ok_iff hdata h (by omega)).mpr ⟨hdoc, by omega, rfl⟩
    obtain ⟨rounds, t, hloop⟩ := ih (fun n doc' hn =>
      hwalk (n + 1) doc' ((walk_succ_of_some hfollow).trans hn)) _ _
        (h.step hdata (by omega) hstep).2 rfl
    refine ⟨rounds + 1, t, ?_⟩
    rw [documentLoop, if_pos (by omega), hstep]
    exact hloop

/-! ### Replies -/

end

theorem opReply_of_short (h : data.length < headerSize) (rounds : ℕ) :
    opReply rounds data (some table) = some (.ok (.tooShort, table.map .other)) := if_pos h

theorem opReply_of_failure (hdata : ¬ data.length < headerSize)
    (h : flags data &&& replyQueryFailure ≠ 0) (rounds : ℕ) : opReply rounds data (some table) =
      some (.ok (.queryFailure (responseId data), table.map .other)) :=
  (if_neg hdata).trans (if_pos h)

/-- The state in front of the loop. -/
def start (data : List UInt8) (table : List α) : DocumentState α :=
  { doc := headerSize, sz := bodySize data, i := 1, table := table.map .other }

theorem passed_start : Passed data table [] (start data table) where
  total := rfl
  fits := castInt_lt _
  table := rfl
  i := rfl
  sum := Int.zero_add _
  walk := rfl
  inside _ h := nomatch h

theorem opReply_eq_ok_iff (hdata : ¬ data.length < headerSize)
    (hflags : ¬ flags data &&& replyQueryFailure ≠ 0) {rounds : ℕ} {result : ReplyResult}
    {entries : List (Entry α)} :
    opReply rounds data (some table) = some (.ok (result, entries)) ↔
      ∃ s, documentLoop data rounds (start data table) = some (.ok s) ∧ number data < 2 ^ 31 - 1 ∧
        (result, entries) = if (s.i : ℤ) ≠ number data + 1 then
          (.miscounted (responseId data), s.table)
        else (finish data s.sz, s.table.take (s.i - 1)) := by
  have hreply : opReply rounds data (some table) =
      documentLoop data rounds (start data table) >>= fun s =>
        some (checkInt ReplyFault.overflow (number data + 1)) >>= fun last =>
          if (s.i : ℤ) ≠ last then some (.ok (.miscounted (responseId data), s.table))
          else some (.ok (finish data s.sz, s.table.take (s.i - 1))) := by
    rw [opReply, if_neg hdata, if_neg hflags]
    rfl
  have hlow : -2 ^ 31 ≤ number data + 1 := by
    have := le_castInt (word data 28)
    rw [number]
    omega
  rw [hreply]
  constructor
  · intro hrun
    rcases of_fuel_bind hrun with ⟨e, -, he⟩ | ⟨s, hloop, hrest⟩
    · cases he
    · rcases of_fuel_bind hrest with ⟨e, -, he⟩ | ⟨last, hlast, hdone⟩
      · cases he
      · obtain ⟨-, hfits, rfl⟩ := checkInt_eq_ok_iff.mp (some.inj hlast)
        refine ⟨s, hloop, by omega, ?_⟩
        split at hdone
        · next hne => rw [if_pos hne, ok.inj (some.inj hdone)]
        · next heq => rw [if_neg heq, ok.inj (some.inj hdone)]
  · rintro ⟨s, hloop, hnumber, hresult⟩
    rw [fuel_bind_ok hloop, fuel_bind_ok (congrArg some (checkInt_ok hlow (by omega))), hresult]
    split <;> rfl

/-- The documents that the header counts lead exactly to where the body ends by its size. -/
def Counted (data : List UInt8) : Prop :=
  ∃ count : ℕ, number data = count ∧ walk (follow data) count headerSize = some (bodyEnd data)

theorem follow_of_end (h : bodyEnd data - doc ≤ 4) : follow data doc = none :=
  if_neg fun hroom => absurd hroom.2 (by omega)

/-- The loop ends in a success exactly if the documents lead to the end of the body. -/
theorem Passed.counted_iff (h : Passed data table docs s) (hend : s.sz ≤ 4) :
    Counted data ↔ s.sz = 0 ∧ (s.i : ℤ) = number data + 1 := by
  have htotal := h.total
  have hi := h.i
  constructor
  · rintro ⟨count, hcount, hwalk⟩
    obtain ⟨hlength, hdoc⟩ := walk_end_unique h.walk (follow_of_end (by omega)) hwalk
      (follow_of_end (by omega))
    omega
  · rintro ⟨hzero, hcount⟩
    have hdoc : s.doc = bodyEnd data := by omega
    exact ⟨docs.length, by omega, hdoc ▸ h.walk⟩

theorem Passed.documents_take (h : Passed data table docs s) :
    Mongo.documents (s.table.take (s.i - 1)) = docs := by
  have hlength : (docs.map (Entry.document (α := α))).length = docs.length := length_map _
  rw [h.table, h.i, Nat.add_sub_cancel, take_left' hlength, documents_document]

theorem withinBounds_of_unread {result : ReplyResult} (hresult : ∀ id document cursor startFrom,
    result ≠ .succeeded id document cursor startFrom)
    (hrun : opReply 0 data (some table) = some (.ok (result, table.map .other))) :
    WithinBounds data table := by
  refine ⟨0, result, _, hrun, ?_, fun _ _ _ _ h => absurd h (hresult _ _ _ _)⟩
  rw [documents_other]
  exact fun _ h => nomatch h

theorem withinBounds_of_walk (hdata : ¬ data.length < headerSize)
    (hflags : ¬ flags data &&& replyQueryFailure ≠ 0) (hno : NoRevisit (follow data) headerSize)
    (hwalk : ∀ n doc, walk (follow data) n headerSize = some doc → Admissible data doc)
    (hnumber : number data < 2 ^ 31 - 1) (hsize : Counted data → bodyEnd data = data.length) :
    WithinBounds data table := by
  have hmem : ∀ doc next, follow data doc = some next → doc ∈ Finset.Ico 0 (bodyEnd data) := by
    intro doc next hfollow
    obtain ⟨hdoc, hroom, -⟩ := follow_eq_some_iff.mp hfollow
    exact Finset.mem_Ico.mpr ⟨hdoc, by omega⟩
  have hends := (ends_iff_noRevisit hmem).mpr hno
  have hstart : Passed data table [] (start data table) := passed_start
  obtain ⟨rounds, s, hloop⟩ := documentLoop_of_ends (not_lt.mp hdata) hends hwalk hstart rfl
  obtain ⟨⟨docs, hpassed⟩, hend, -, -⟩ := documentLoop_spec (not_lt.mp hdata) passed_start hloop
  by_cases hcount : (s.i : ℤ) = number data + 1
  · refine ⟨rounds, _, _, (opReply_eq_ok_iff hdata hflags).mpr ⟨s, hloop, hnumber,
      (if_neg (not_not.mpr hcount)).symm⟩, ?_, fun id document cursor startFrom hsucceeded => ?_⟩
    · rw [hpassed.documents_take]
      exact hpassed.inside
    · have hzero : s.sz = 0 := by
        by_contra hne
        rw [finish, if_pos hne] at hsucceeded
        cases hsucceeded
      have htotal := hpassed.total
      have hdocs := hpassed.sum
      have hbody := hsize ((hpassed.counted_iff hend).mpr ⟨hzero, hcount⟩)
      rw [hpassed.documents_take]
      omega
  · refine ⟨rounds, _, _, (opReply_eq_ok_iff hdata hflags).mpr ⟨s, hloop, hnumber,
      (if_pos hcount).symm⟩, ?_, fun _ _ _ _ h => nomatch h⟩
    rw [hpassed.documents]
    exact hpassed.inside

/-- A reply is parsed within bounds if and only if the walk over its documents does not come to a
position twice, nor to one in front of the string or too far from the end, and what the code
computes with are the size of the body and the count of the documents. -/
theorem withinBounds_iff (data : List UInt8) (table : List α) : WithinBounds data table ↔
    data.length < headerSize ∨ flags data &&& replyQueryFailure ≠ 0 ∨
      (NoRevisit (follow data) headerSize ∧
        (∀ n doc, walk (follow data) n headerSize = some doc → Admissible data doc) ∧
        number data < 2 ^ 31 - 1 ∧ (Counted data → bodyEnd data = data.length)) := by
  constructor
  · rintro ⟨rounds, result, entries, hrun, -, hsum⟩
    by_cases hdata : data.length < headerSize
    · exact .inl hdata
    by_cases hflags : flags data &&& replyQueryFailure ≠ 0
    · exact .inr (.inl hflags)
    obtain ⟨s, hloop, hnumber, hresult⟩ := (opReply_eq_ok_iff hdata hflags).mp hrun
    obtain ⟨⟨docs, hpassed⟩, hend, hends, hwalk⟩ :=
      documentLoop_spec (not_lt.mp hdata) passed_start hloop
    refine .inr (.inr ⟨hends.noRevisit, hwalk, hnumber, fun hcounted => ?_⟩)
    obtain ⟨hzero, hcount⟩ := (hpassed.counted_iff hend).mp hcounted
    rw [if_neg (not_not.mpr hcount), hzero] at hresult
    obtain ⟨rfl, rfl⟩ := Prod.mk.inj hresult
    have htotal := hpassed.total
    have hdocs := hpassed.sum
    have hbody := hsum _ _ _ _ (if_neg (not_not.mpr rfl))
    rw [hpassed.documents_take] at hbody
    omega
  · intro h
    by_cases hdata : data.length < headerSize
    · exact withinBounds_of_unread (by simp) (opReply_of_short hdata 0)
    by_cases hflags : flags data &&& replyQueryFailure ≠ 0
    · exact withinBounds_of_unread (by simp) (opReply_of_failure hdata hflags 0)
    obtain ⟨hno, hwalk, hnumber, hsize⟩ := (h.resolve_left hdata).resolve_left hflags
    exact withinBounds_of_walk hdata hflags hno hwalk hnumber hsize

/-- A reply with one document, whose length is zero. -/
def zeroLength : List UInt8 := List.replicate 28 0 ++ [1, 0, 0, 0] ++ List.replicate 5 0

/-- The document leads to itself. -/
theorem zeroLength_endless : ¬ WithinBounds zeroLength ([] : List ℕ) := by
  rintro ⟨rounds, result, entries, hrun, -, -⟩
  obtain ⟨s, hloop, -, -⟩ := (opReply_eq_ok_iff (by decide) (by decide)).mp hrun
  obtain ⟨-, -, hends, -⟩ := documentLoop_spec (by decide) passed_start hloop
  have hself : follow zeroLength headerSize = some headerSize := by decide
  have htwice := hends.noRevisit 0 1 headerSize rfl (walk_succ_of_some hself)
  exact absurd htwice (by decide)

end Uboss.Lib.Mongo
