import Uboss.Lib.LuaText
import Uboss.Math.Arrivals
import Uboss.Math.Transition

/-!
# Reading HTTP

`internal.lua`, which reads the head of a message and a chunked body. The function `readbytes` that
it is given reads from a stream that arrives in pieces: without an argument it returns the next
piece, and with one that many bytes. Where the stream has come to its end it raises an error.

The loop of `recvchunkedbody` is given rounds, of which it never needs more than there are bytes.
-/

namespace Uboss.Framework.Http

open Math Lib Lib.LuaText Option

inductive HttpError
  /-- `socket_error`: the stream has ended. -/
  | socket
  /-- `string length overflow` -/
  | overflow
  /-- `attempt to concatenate a table value` -/
  | concatTable
  /-- Not an error of the code: the rounds given to the model were too few. -/
  | rounds
  deriving DecidableEq, Repr

/-- The pieces that are still to come. -/
abbrev Pieces := List LuaString

abbrev Reading := StateT Pieces (Except HttpError)

/-- `..` -/
def join (s t : LuaString) : Except HttpError LuaString := concat .overflow s t

/-- `readbytes(n)` -/
def readExactly (n : ℕ) : Reading LuaString := fun pieces =>
  match takeExactly n pieces with
  | some r => .ok r
  | none => .error .socket

section Bind

variable {α β : Type} {x : Reading α} {f : α → Reading β} {e : Except HttpError α} {a : α}
  {pieces pieces' : Pieces}

theorem read_bind (h : x pieces = .ok (a, pieces')) : (x >>= f) pieces = f a pieces' := by
  change (x pieces).bind _ = _
  rw [h]
  rfl

theorem of_read_bind {r : β × Pieces} (h : (x >>= f) pieces = .ok r) :
    ∃ a pieces', x pieces = .ok (a, pieces') ∧ f a pieces' = .ok r := by
  change (x pieces).bind _ = _ at h
  obtain ⟨⟨a, pieces'⟩, hx, hf⟩ := bind_eq_ok_iff.mp h
  exact ⟨a, pieces', hx, hf⟩

theorem of_lift_bind {r : β × Pieces} (h : ((liftM e : Reading α) >>= f) pieces = .ok r) :
    ∃ a, e = .ok a ∧ f a pieces = .ok r := by
  cases e with
  | error e => cases h
  | ok a => exact ⟨a, rfl, h⟩

theorem lift_bind (h : e = .ok a) : ((liftM e : Reading α) >>= f) pieces = f a pieces := by
  rw [h]
  rfl

end Bind

def limit : ℕ := 8192

/-- `"\r\n"` -/
def lineEnd : LuaString := [13, 10]

/-- `"\r\n\r\n"` -/
def headEnd : LuaString := [13, 10, 13, 10]

/-- The loop of `chunksize`: the line in front of the body, and the body behind it. -/
def sizeLine (body : LuaString) (pieces : Pieces) :
    Except HttpError (Option (LuaString × LuaString) × Pieces) :=
  match find body lineEnd 1 with
  | some f => .ok (some (sub body 1 (f - 1), sub body (f + 1 + 1) (-1)), pieces)
  | none =>
    -- prevent the attacker from sending a very long stream without "\r\n"
    if 128 < body.length then .ok (none, pieces)
    else
      match pieces with
      | [] => .error .socket
      | bytes :: pieces => do sizeLine (← join body bytes) pieces
  termination_by structural pieces

/-- `chunksize`. Without a size it does not matter what else is returned. -/
def chunksize (body : LuaString) : Reading (Option (ℤ × LuaString)) := do
  match ← sizeLine body with
  | some (line, body) => return (bStr2int 16 line).map fun sz => (sz, body)
  | none => return none

def readcrln (body : LuaString) : Reading (Option LuaString) := do
  if 2 ≤ body.length then
    if sub body 1 2 ≠ lineEnd then return none
    return some (sub body 3 (-1))
  else
    let body ← join body (← readExactly (2 - body.length))
    if body ≠ lineEnd then return none
    return some []

/-- `header:gmatch("(.-)\r\n")` up to the first empty line, where `line` has been passed already. -/
def headerLines (line : LuaString) : LuaString → List LuaString
  | [] => []
  | 13 :: 10 :: header => if line = [] then [] else line :: headerLines [] header
  | c :: header => headerLines (line ++ [c]) header

/-- The loop of `recvheader`. -/
def recvheaderLoop (header : LuaString) :
    Pieces → Except HttpError (Option (List LuaString × LuaString) × Pieces)
  | [] => .error .socket
  | bytes :: pieces => do
    let header ← join header bytes
    if limit < header.length then return (none, pieces)
    match find header headEnd (-bytes.length - 3) with
    | some e => return (some (headerLines [] header, sub header (e + 4) (-1)), pieces)
    | none =>
      if lineEnd.isPrefixOf header then return (some ([], sub header 3 (-1)), pieces)
      recvheaderLoop header pieces

/-- `M.recvheader`: the lines it appends, and its result. -/
def recvheader (header : LuaString) : Reading (Option (List LuaString × LuaString)) :=
  if 2 ≤ header.length ∧ lineEnd.isPrefixOf header then return some ([], sub header 3 (-1))
  else
    match find header headEnd 1 with
    | some e => return some (headerLines [] header, sub header (e + 4) (-1))
    | none => recvheaderLoop header

/-! ### Fields -/

/-- The value of a field, which may occur more than once. -/
inductive FieldValue
  | one (value : LuaString)
  | many (values : List LuaString)
  deriving DecidableEq, Repr

/-- The table of fields. -/
abbrev Header := LuaString → Option FieldValue

/-- `line:match "^(.-):%s*(.*)"` -/
def fieldOf (line : LuaString) : Option (LuaString × LuaString) :=
  (occurrence [58] line).map fun colon =>
    (line.take colon, (line.drop (colon + 1)).dropWhile LuaText.isSpace)

/-- The loop of `M.parseheader` over the lines, where `name` is that of the line before. -/
def parseLines (name : Option LuaString) (header : Header) :
    List LuaString → Except HttpError (Option Header)
  | [] => .ok (some header)
  | line :: lines =>
    if line.head? = some 9 then
      -- tab: append to the last line
      match name with
      | none => .ok none
      | some key =>
        match header key with
        | some (.one value) => do
          let value ← join value (sub line 2 (-1))
          parseLines name (Function.update header key (some (.one value))) lines
        | _ => .error .concatTable
    else
      match fieldOf line with
      | none => .ok none
      | some (name, value) =>
        let key := lower name
        let values := match header key with
          | some (.many values) => FieldValue.many (values ++ [value])
          | some (.one v) => .many [v, value]
          | none => .one value
        parseLines (some key) (Function.update header key (some values)) lines

/-- `M.parseheader` -/
def parseheader (lines : List LuaString) («from» : ℕ) (header : Header) :
    Except HttpError (Option Header) :=
  parseLines none header (lines.drop («from» - 1))

/-! ### Chunks -/

/-- The variables of `recvchunkedbody`. -/
structure Chunked where
  result : LuaString
  size : ℤ
  body : LuaString
  deriving DecidableEq, Repr

/-- What a round of the loop does. -/
inductive ChunkStep
  /-- It returns nothing. -/
  | refuse
  /-- The chunk of size zero ends the loop. -/
  | last (s : Chunked)
  /-- A chunk of this size was read. -/
  | next (sz : ℤ) (s : Chunked)
  deriving DecidableEq, Repr

/-- The bytes of a chunk, in front of the body or of what is still to come. -/
def takeChunk (sz : ℤ) (s : Chunked) : Reading Chunked :=
  if sz ≤ s.body.length then do
    let result ← join s.result (sub s.body 1 sz)
    return { s with result, body := sub s.body (toInteger (sz + 1)) (-1) }
  else do
    let bytes ← readExactly (sz - s.body.length).toNat
    let result ← join s.result (← join s.body bytes)
    return { s with result, body := [] }

/-- A round of the loop of `recvchunkedbody`, up to the end of the chunk. -/
def readChunk (bodylimit : Option ℤ) (s : Chunked) : Reading ChunkStep := do
  match ← chunksize s.body with
  | none => return .refuse
  | some (sz, body) =>
    if sz = 0 then return .last { s with body }
    let size := toInteger (s.size + sz)
    if bodylimit.any (· < size) then return .refuse
    return .next sz (← takeChunk sz { s with size, body })

/-- A round of the loop of `recvchunkedbody`. -/
def chunkRound (bodylimit : Option ℤ) (s : Chunked) : Reading ChunkStep := do
  match ← readChunk bodylimit s with
  | .next sz s =>
    match ← readcrln s.body with
    | none => return .refuse
    | some body => return .next sz { s with body }
  | done => return done

/-- The loop of `recvchunkedbody`. -/
def chunkLoop (bodylimit : Option ℤ) : ℕ → Chunked → Reading (Option Chunked)
  | 0, _ => fun _ => .error .rounds
  | rounds + 1, s => do
    match ← chunkRound bodylimit s with
    | .refuse => return none
    | .last s => return some s
    | .next _ s => chunkLoop bodylimit rounds s

/-- `M.recvchunkedbody`: the body and the header, which is `nil` if its lines cannot be parsed. -/
def recvchunkedbody (bodylimit : Option ℤ) (header : Header) (body : LuaString) :
    Reading (Option (LuaString × Option Header)) := do
  let pieces ← get
  let rounds := (body ++ pieces.flatten).length + 1
  match ← chunkLoop bodylimit rounds { result := [], size := 0, body } with
  | none => return none
  | some s =>
    match ← recvheader s.body with
    | none => return none
    | some (tmpline, _) => return some (s.result, ← parseheader tmpline 1 header)

/-! ### The line in front of a chunk -/

variable {body line : LuaString}

theorem lineEnd_ne_nil : lineEnd ≠ [] := List.cons_ne_nil _ _

/-- The line that the buffer starts with, where its end has arrived. -/
theorem sizeLine_of_occurrence {p : ℕ} (h : occurrence lineEnd body = some p) (pieces : Pieces) :
    sizeLine body pieces = .ok (some (body.take p, body.drop (p + lineEnd.length)), pieces) := by
  have hline : sub body 1 ((p + 1 : ℕ) - 1) = body.take p := by
    rw [← sub_take]
    exact congrArg (sub body 1) (add_sub_cancel_right (p : ℤ) 1)
  have hrest : sub body ((p + 1 : ℕ) + 1 + 1) (-1) = body.drop (p + lineEnd.length) :=
    sub_suffix body (p + 2)
  rw [sizeLine.eq_def, find_one, h, map_some]
  dsimp only
  rw [hline, hrest]

section

variable (h : occurrence lineEnd body = none)
include h

theorem sizeLine_of_long (hlong : 128 < body.length) (pieces : Pieces) :
    sizeLine body pieces = .ok (none, pieces) := by
  rw [sizeLine.eq_def, find_one, h, map_none]
  exact if_pos hlong

theorem sizeLine_of_end (hshort : body.length ≤ 128) : sizeLine body [] = .error .socket := by
  rw [sizeLine.eq_def, find_one, h, map_none]
  exact if_neg (Nat.not_lt.mpr hshort)

theorem sizeLine_of_none (hshort : body.length ≤ 128) (bytes : LuaString) (pieces : Pieces) :
    sizeLine body (bytes :: pieces) = (join body bytes).bind (sizeLine · pieces) := by
  rw [sizeLine.eq_def, find_one, h, map_none]
  exact if_neg (Nat.not_lt.mpr hshort)

end

/-- The induction rule for the loop: the line is in the buffer, or it is not, and then the buffer is
too long, the stream has ended, or the next piece is added. -/
theorem sizeLine_induct {P : LuaString → Pieces →
      Except HttpError (Option (LuaString × LuaString) × Pieces) → Prop}
    (hfound : ∀ body pieces p, occurrence lineEnd body = some p →
      P body pieces (.ok (some (body.take p, body.drop (p + lineEnd.length)), pieces)))
    (hlong : ∀ body pieces, P body pieces (.ok (none, pieces)))
    (hend : ∀ body, P body [] (.error .socket))
    (hoverflow : ∀ body bytes pieces, P body (bytes :: pieces) (.error .overflow))
    (hnext : ∀ body bytes pieces r, P (body ++ bytes) pieces r → P body (bytes :: pieces) r)
    (body : LuaString) (pieces : Pieces) : P body pieces (sizeLine body pieces) := by
  induction pieces generalizing body with
  | nil =>
    cases h : occurrence lineEnd body with
    | some p =>
      rw [sizeLine_of_occurrence h]
      exact hfound body [] p h
    | none =>
      rcases Nat.lt_or_ge 128 body.length with hgt | hle
      · rw [sizeLine_of_long h hgt]
        exact hlong body []
      · rw [sizeLine_of_end h hle]
        exact hend body
  | cons bytes pieces ih =>
    cases h : occurrence lineEnd body with
    | some p =>
      rw [sizeLine_of_occurrence h]
      exact hfound body _ p h
    | none =>
      rcases Nat.lt_or_ge 128 body.length with hgt | hle
      · rw [sizeLine_of_long h hgt]
        exact hlong body _
      · rw [sizeLine_of_none h hle, join, concat]
        split
        · exact hnext body bytes pieces _ (ih (body ++ bytes))
        · exact hoverflow body bytes pieces

end Uboss.Framework.Http
