import Uboss.Core.Handle

/-!
# Local names

The name table of `uboss_handle.c`, the commands that use it, and the threads that run them. A
command is made of one or two sections under the lock of the storage, and the other threads can run
in between. A thread runs a command for a context, which it holds even if its handle has been
retired.
-/

namespace Uboss.Core

open Math Function

/-! ### The table -/

def maxSlotSize : ℕ := 0x40000000

/-- How the search for a name ends: with its entry, or with the place where it belongs. -/
inductive NameSearch
  | found (n : HandleName)
  | missing (before : ℕ)
  deriving DecidableEq

/-- The loop of `uboss_handle_findname` and `_insert_name`, at most `fuel` rounds of it. The
variable `end` is `stop - 1`. -/
def searchLoop (names : List HandleName) (name : List UInt8) : ℕ → ℕ → ℕ → NameSearch
  | 0, first, _ => .missing first
  | fuel + 1, first, stop =>
    if first < stop then
      let mid := (first + (stop - 1)) / 2
      match names[mid]? with
      | none => .missing first
      | some n =>
        match compare n.name name with
        | .eq => .found n
        | .lt => searchLoop names name fuel (mid + 1) stop
        | .gt => searchLoop names name fuel first mid
    else .missing first

/-- The search in the whole table. Each round makes the range smaller, so that there are at most as
many rounds as entries. -/
def HandleStorage.searchName (s : HandleStorage) (name : List UInt8) : NameSearch :=
  searchLoop s.name name (s.name.length + 1) 0 s.name.length

def ubossHandleFindname (s : HandleStorage) (name : List UInt8) : ℕ :=
  match s.searchName name with
  | .found n => n.handle
  | .missing _ => 0

/-- `_insert_name_before`. There is no result if the table cannot grow. -/
def HandleStorage.insertNameBefore (s : HandleStorage) (name : List UInt8) (handle before : ℕ) :
    Option HandleStorage :=
  let cap := if s.nameCap ≤ s.name.length then s.nameCap * 2 else s.nameCap
  if s.nameCap ≤ s.name.length ∧ maxSlotSize < cap then none
  else some
    { s with
      nameCap := cap
      name := s.name.take before ++ ⟨name, handle⟩ :: s.name.drop before }

/-- `uboss_handle_namehandle`: the name if it was free, and the storage after it. -/
def ubossHandleNamehandle (s : HandleStorage) (handle : ℕ) (name : List UInt8) :
    Option (Option (List UInt8) × HandleStorage) :=
  match s.searchName name with
  | .found _ => some (none, s)
  | .missing before => (s.insertNameBefore name handle before).map fun s' => (some name, s')

/-! ### Texts -/

def isspace (c : UInt8) : Bool := c = 32 || (9 ≤ c && c ≤ 13)

/-- `%s` of `sscanf`: a word and what follows it. -/
def scanWord (l : List UInt8) : Option (List UInt8 × List UInt8) :=
  let l := l.dropWhile isspace
  let word := l.takeWhile fun c => !isspace c
  if word = [] then none else some (word, l.dropWhile fun c => !isspace c)

/-- The value of a digit to the base 16. -/
def hexDigit (c : UInt8) : Option ℕ :=
  if 48 ≤ c ∧ c ≤ 57 then some (c.toNat - 48)
  else if 97 ≤ c ∧ c ≤ 102 then some (c.toNat - 87)
  else if 65 ≤ c ∧ c ≤ 70 then some (c.toNat - 55)
  else none

/-- The digits in front of a text. -/
def hexDigits : List UInt8 → List ℕ
  | [] => []
  | c :: l =>
    match hexDigit c with
    | none => []
    | some d => d :: hexDigits l

/-- `strtoul(l, NULL, 16)` on 64 bits. -/
def strtoulHex (l : List UInt8) : ℕ :=
  let signed := l.dropWhile isspace
  let unsigned :=
    match signed with
    | 45 :: l => l
    | 43 :: l => l
    | l => l
  let digits :=
    match unsigned with
    | 48 :: x :: d :: l =>
      if (x = 120 ∨ x = 88) ∧ (hexDigit d).isSome then hexDigits (d :: l) else hexDigits unsigned
    | l => hexDigits l
  let n := digits.foldl (fun n d => 16 * n + d) 0
  if 2 ^ 64 ≤ n then 2 ^ 64 - 1
  else if signed.head? = some 45 then (2 ^ 64 - n) % 2 ^ 64
  else n

/-- What `cmd_reg` names for a context with this handle. Without a name, or with a global one, it
names nothing. -/
def cmdReg (handle : ℕ) (param : List UInt8) : Option (ℕ × List UInt8) :=
  match param with
  | [] => none
  | c :: name => if c = '.'.toUInt8 then some (handle, name) else none

/-- How `cmd_name` ends. The words that `sscanf` does not find are not initialised. -/
inductive NameCommand
  | uninitialised
  | nothing
  | name (handle : ℕ) (name : List UInt8)
  deriving DecidableEq

/-- `cmd_name`, up to the call of `uboss_handle_namehandle`. -/
def cmdName (param : List UInt8) : NameCommand :=
  match scanWord param with
  | none => .uninitialised
  | some (name, rest) =>
    match scanWord rest with
    | none => .uninitialised
    | some (handle, _) =>
      let handleId := strtoulHex handle.tail % 2 ^ 32
      if handle.head? ≠ some ':'.toUInt8 then .nothing
      else if handleId = 0 then .nothing
      else if name.head? = some '.'.toUInt8 then .name handleId name.tail
      else .nothing

/-- `tohandle`: a number after a colon, or a name after a dot. -/
def tohandle (s : HandleStorage) (param : List UInt8) : ℕ :=
  match param with
  | [] => 0
  | c :: l =>
    if c = ':'.toUInt8 then strtoulHex l % 2 ^ 32
    else if c = '.'.toUInt8 then ubossHandleFindname s l
    else 0

/-! ### Threads -/

/-- Where a thread is. -/
inductive NameThread
  | idle
  /-- In `uboss_context_new`, before the handle is stored. -/
  | launching (c : CtxId) (handle : ℕ)
  /-- In `handle_exit`, before `uboss_handle_retire`. -/
  | exiting (handle : ℕ)
  /-- In `uboss_handle_retireall`, before the slot `i` is read; `n` handles were retired. -/
  | scanning (i n : ℕ)
  /-- The slot `i` had this handle. -/
  | sweeping (i n handle : ℕ)
  deriving DecidableEq

/-- The storage, the fields `handle` of the contexts, which contexts have got their handle, and the
threads. -/
structure NameNode (Tid : Type) where
  storage : HandleStorage
  handleOf : CtxId → ℕ
  launched : CtxId → Bool
  next : CtxId
  thread : Tid → NameThread

/-- What a thread does next. The commands are given with the context they are run for. -/
inductive NameAct (Tid : Type)
  | launch (t : Tid)
  | store (t : Tid)
  | reg (t : Tid) (c : CtxId) (param : List UInt8)
  | name (t : Tid) (param : List UInt8)
  | exit (t : Tid) (c : CtxId)
  | kill (t : Tid) (param : List UInt8)
  | abort (t : Tid)
  | retire (t : Tid)
  | scan (t : Tid)
  | sweep (t : Tid)

namespace NameNode

variable {Tid : Type}

/-- After `uboss_handle_init`. -/
def init (Tid : Type) (harbor : ℕ) : NameNode Tid where
  storage := ubossHandleInit harbor
  handleOf _ := 0
  launched _ := false
  next := 0
  thread _ := .idle

section Functions

variable (st : NameNode Tid)

/-- `uboss_handle_grab`. -/
def grab (handle : ℕ) : Option CtxId := ubossHandleGrab st.handleOf st.storage handle

/-- `uboss_handle_retire`. -/
def retireHandle (handle : ℕ) : NameNode Tid :=
  { st with storage := (ubossHandleRetire st.handleOf st.storage handle).2 }

/-- `uboss_handle_namehandle`. -/
def nameHandle (handle : ℕ) (name : List UInt8) : Option (NameNode Tid) :=
  (ubossHandleNamehandle st.storage handle name).map fun result =>
    { st with storage := result.2 }

/-- The handle in a slot, or 0. -/
def slotHandle (i : ℕ) : ℕ := ((st.storage.slot i).map st.handleOf).getD 0

/-- What a command names, if it gets that far. -/
def naming : NameAct Tid → Option (ℕ × List UInt8)
  | .reg _ c param => cmdReg (st.handleOf c) param
  | .name _ param =>
    match cmdName param with
    | .name handle name => some (handle, name)
    | _ => none
  | _ => none

end Functions

variable [DecidableEq Tid] (st : NameNode Tid)

def setThread (t : Tid) (p : NameThread) : NameNode Tid :=
  { st with thread := update st.thread t p }

/-- One section of one thread. There is no result if an assertion fails or a variable is not
initialised. -/
def step (a : NameAct Tid) : Option (NameNode Tid) :=
  match a with
  | .launch t =>
    match st.thread t, ubossHandleRegister (update st.handleOf st.next 0) st.storage
        st.next with
    | .idle, .ok (handle, storage) => some
      { st with
        storage := storage
        handleOf := update st.handleOf st.next 0
        next := st.next + 1
        thread := update st.thread t (.launching st.next handle) }
    | _, _ => none
  | .store t =>
    match st.thread t with
    | .launching c handle => some
      { st with
        handleOf := update st.handleOf c handle
        launched := update st.launched c true
        thread := update st.thread t .idle }
    | _ => none
  | .reg t c param =>
    if st.thread t = .idle ∧ st.launched c then
      match cmdReg (st.handleOf c) param with
      | some (handle, name) => st.nameHandle handle name
      | none => some st
    else none
  | .name t param =>
    if st.thread t = .idle then
      match cmdName param with
      | .uninitialised => none
      | .nothing => some st
      | .name handle name => st.nameHandle handle name
    else none
  | .exit t c =>
    if st.thread t = .idle ∧ st.launched c then some (st.setThread t (.exiting (st.handleOf c)))
    else none
  | .kill t param =>
    if st.thread t = .idle then
      if tohandle st.storage param = 0 then some st
      else some (st.setThread t (.exiting (tohandle st.storage param)))
    else none
  | .abort t => if st.thread t = .idle then some (st.setThread t (.scanning 0 0)) else none
  | .retire t =>
    match st.thread t with
    | .exiting handle => some ((st.retireHandle handle).setThread t .idle)
    | _ => none
  | .scan t =>
    match st.thread t with
    | .scanning i n =>
      if i < st.storage.slotSize then
        if st.slotHandle i = 0 then some (st.setThread t (.scanning (i + 1) n))
        else some (st.setThread t (.sweeping i n (st.slotHandle i)))
      else if n = 0 then some (st.setThread t .idle)
      else some (st.setThread t (.scanning 0 0))
    | _ => none
  | .sweep t =>
    match st.thread t with
    | .sweeping i n handle =>
      let n := if (ubossHandleRetire st.handleOf st.storage handle).1 = none then n else n + 1
      some ((st.retireHandle handle).setThread t (.scanning (i + 1) n))
    | _ => none

end NameNode

end Uboss.Core
