import Uboss.Math.PathTree

/-!
# The data center

`datacenterd.lua`. The values are a tree of tables, and those who wait for a value are another one.
A message is handled to its end before the next one is looked at: none of the handlers yields. A
string leaf is not indexed: in Lua that gives nil, not an error.
-/

namespace Uboss.Service

open Math PathForest

/-- A value of Lua that is neither `nil` nor a table. Of the booleans only `false` matters. -/
inductive LuaScalar (α : Type*)
  | false
  | atom (a : α)
  deriving DecidableEq

/-- A value that is not `nil`. What a table has under keys that are no keys of a path is left
out. -/
abbrev DatacenterValue (κ α : Type*) := PathTree κ (LuaScalar α)

/-- Whether `if v then` takes the branch. -/
def isTruthy {κ α : Type*} : Option (DatacenterValue κ α) → Bool
  | none => false
  | some (.leaf .false) => false
  | _ => true

/-- What a handler can raise. -/
inductive DatacenterFault
  /-- A value that is not a table is indexed. -/
  | index
  /-- `assert(q[mode] == ...)` fails. -/
  | assert
  deriving DecidableEq

/-- The tables `database` and `wait_queue`. A `queue` is a leaf, its responses are the numbers of
the requests that wait; a `branch` is a node. -/
structure Datacenter (κ α : Type*) where
  database : PathForest κ (LuaScalar α)
  waitQueue : PathForest κ (List ℕ)

/-- A message. The keys of a path are never none. -/
inductive DatacenterRequest (κ α : Type*)
  | query (key : κ) (keys : List κ)
  | update (key : κ) (keys : List κ) (value : Option (DatacenterValue κ α))
  | wait (key : κ) (keys : List κ)

/-- The path that a request is about. -/
def DatacenterRequest.path {κ α : Type*} : DatacenterRequest κ α → List κ
  | query key keys | update key keys _ | wait key keys => key :: keys

/-- What a request is answered with. -/
inductive DatacenterAnswer (κ α : Type*)
  | ret (value : Option (DatacenterValue κ α))
  | error

namespace Datacenter

variable {κ α : Type*}

def create : Datacenter κ α := ⟨fun _ => none, fun _ => none⟩

/-! ### The functions -/

def query : Option (DatacenterValue κ α) → List κ →
    Except DatacenterFault (Option (DatacenterValue κ α))
  | db, [] => .ok db
  | some (.node db), key :: keys => query (db key) keys
  | _, _ :: _ => .error .index

def commandQuery (database : PathForest κ (LuaScalar α)) (key : κ) (keys : List κ) :
    Except DatacenterFault (Option (DatacenterValue κ α)) :=
  if isTruthy (database key) then query (database key) keys else .ok none

variable [DecidableEq κ]

variable {db : PathForest κ (LuaScalar α)} {key : κ} {keys : List κ}

/-- `update`: the value before, and the table after it. -/
def update (db : PathForest κ (LuaScalar α)) (key : κ) : List κ → Option (DatacenterValue κ α) →
      Except DatacenterFault (Option (DatacenterValue κ α) × PathForest κ (LuaScalar α))
  | [], value => .ok (db key, Function.update db key value)
  | key' :: keys, value =>
    match db key with
    | some (.leaf _) => .error .index
    | some (.node children) => do
      let (ret, children') ← update children key' keys value
      .ok (ret, Function.update db key (some (.node children')))
    | none => do
      let (ret, children') ← update (fun _ => none) key' keys value
      .ok (ret, Function.update db key (some (.node children')))

/-- What `wakeup` leaves: the table, the queue that it returns, and whom it answers with an
error. -/
structure Wakeup (κ : Type*) where
  db : PathForest κ (List ℕ)
  queue : Option (List ℕ)
  failed : List ℕ

/-- `wakeup` with the keys of a path, then the value. Where the path ends at a branch, the value is
the next key; `asKey` says which key of a path it is. -/
def wakeup (asKey : DatacenterValue κ α → Option κ) (value : DatacenterValue κ α)
    (db : PathForest κ (List ℕ)) (key1 : κ) : List κ → Wakeup κ
  | [] =>
    match db key1 with
    | none => ⟨db, none, []⟩
    | some (.leaf q) => ⟨Function.update db key1 none, some q, []⟩
    | some (.node q) =>
      match asKey value with
      | none => ⟨db, none, []⟩
      | some key =>
        match q key with
        -- Now no value is left: this is a branch that is to be woken up.
        | some (.leaf q') =>
          ⟨Function.update db key1 (some (.node (Function.update q key none))), none, q'⟩
        | _ => ⟨db, none, []⟩
  | key2 :: keys =>
    match db key1 with
    | none => ⟨db, none, []⟩
    | some (.leaf q) => ⟨Function.update db key1 none, none, q⟩
    | some (.node q) =>
      let w := wakeup asKey value q key2 keys
      ⟨Function.update db key1 (some (.node w.db)), w.queue, w.failed⟩

def waitfor (response : ℕ) (db : PathForest κ (List ℕ)) (key1 : κ) :
    List κ → Except DatacenterFault (PathForest κ (List ℕ))
  | [] =>
    match db key1 with
    | none => .ok (Function.update db key1 (some (.leaf [response])))
    | some (.leaf q) => .ok (Function.update db key1 (some (.leaf (q ++ [response]))))
    | some (.node _) => .error .assert
  | key2 :: keys =>
    match db key1 with
    | none => do
      let q ← waitfor response (fun _ => none) key2 keys
      .ok (Function.update db key1 (some (.node q)))
    | some (.leaf _) => .error .assert
    | some (.node q) => do
      let q' ← waitfor response q key2 keys
      .ok (Function.update db key1 (some (.node q')))

/-- The function given to `uboss.dispatch`, for the request number `n`: the state after it, and the
requests it answers, in order. What it raises is sent to its own caller. -/
def dispatch (asKey : DatacenterValue κ α → Option κ) (s : Datacenter κ α) (n : ℕ) :
    DatacenterRequest κ α → Datacenter κ α × List (ℕ × DatacenterAnswer κ α)
  | .query key keys =>
    match commandQuery s.database key keys with
    | .ok ret => (s, [(n, .ret ret)])
    | .error _ => (s, [(n, .error)])
  | .update key keys value =>
    match update s.database key keys value with
    | .error _ => (s, [(n, .error)])
    | .ok (ret, database) =>
      match isTruthy ret, value with
      | false, some value =>
        let w := wakeup asKey value s.waitQueue key keys
        (⟨database, w.db⟩,
          w.failed.map (·, .error) ++ (w.queue.getD []).map (·, .ret (some value)) ++
            [(n, .ret none)])
      | _, _ => ({ s with database }, [(n, .ret ret)])
  | .wait key keys =>
    match commandQuery s.database key keys with
    | .error _ => (s, [(n, .error)])
    | .ok ret =>
      if isTruthy ret then (s, [(n, .ret ret)])
      else
        match waitfor n s.waitQueue key keys with
        | .error _ => (s, [(n, .error)])
        | .ok waitQueue => ({ s with waitQueue }, [])

/-! ### What the functions do where no value is on the way -/

/-- The responses of a queue. -/
def queueOf : Option (PathTree κ (List ℕ)) → List ℕ
  | some (.leaf q) => q
  | _ => []

/-- The requests that wait at a path. -/
def waiting (waitQueue : PathForest κ (List ℕ)) (path : List κ) : List ℕ :=
  queueOf (waitQueue.find path)

omit [DecidableEq κ] in
/-- What `query` does where no value is on the way. -/
theorem query_eq (h : db.Passable (key :: keys)) :
    query (db key) keys = .ok (db.find (key :: keys)) := by
  induction keys generalizing db key with
  | nil => simp [query]
  | cons key' keys ih =>
    obtain ⟨g, hg⟩ := h [key] (by simp) ⟨_, rfl⟩ (by simp)
    have hdb : db key = some (.node g) := hg
    have htail := h.tail
    rw [hdb] at htail
    rw [find_cons (by simp), hdb]
    exact ih htail

omit [DecidableEq κ] in
theorem find_eq_none (h : db key = none) : db.find (key :: keys) = none := by
  cases keys with
  | nil => exact h
  | cons key' keys =>
    rw [find_cons (by simp), h]
    exact find_empty

/-- What `update` does where no value is on the way. -/
theorem update_eq {value : Option (DatacenterValue κ α)} (h : db.Open (key :: keys)) :
    update db key keys value = .ok (db.find (key :: keys), db.put (key :: keys) value) := by
  induction keys generalizing db key with
  | nil => rfl
  | cons key' keys ih =>
    have htail := h.tail
    rw [find_cons (by simp), put_cons (by simp)]
    cases hdb : db key with
    | none =>
      rw [hdb] at htail
      have hih : update (fun _ => none) key' keys value = _ := ih htail
      simp only [update, hdb, hih]
      rfl
    | some t =>
      cases t with
      | leaf a => exact absurd hdb (h [key] a ⟨_, rfl⟩ (by simp))
      | node children =>
        rw [hdb] at htail
        have hih : update children key' keys value = _ := ih htail
        simp only [update, hdb, hih]
        rfl

section Wakeup

variable {asKey : DatacenterValue κ α → Option κ} {value : DatacenterValue κ α}
  {db : PathForest κ (List ℕ)} {key : κ} {keys : List κ}

/-- Where nobody waits, nobody is woken up. -/
theorem wakeup_eq_none (hopen : db.Open (key :: keys)) (h : db.find (key :: keys) = none) :
    wakeup asKey value db key keys = ⟨db, none, []⟩ := by
  induction keys generalizing db key with
  | nil =>
    have hdb : db key = none := h
    simp only [wakeup, hdb]
  | cons key' keys ih =>
    have htail := hopen.tail
    rw [find_cons (by simp)] at h
    cases hdb : db key with
    | none => simp only [wakeup, hdb]
    | some t =>
      cases t with
      | leaf q => exact absurd hdb (hopen [key] q ⟨_, rfl⟩ (by simp))
      | node q =>
        rw [hdb] at htail h
        have hih : wakeup asKey value q key' keys = _ := ih htail h
        simp only [wakeup, hdb, hih]
        rw [← hdb, Function.update_eq_self]

/-- The queue at the end of a path is taken out and returned. -/
theorem wakeup_eq_leaf {q : List ℕ} (h : db.find (key :: keys) = some (.leaf q)) :
    wakeup asKey value db key keys = ⟨db.put (key :: keys) none, some q, []⟩ := by
  induction keys generalizing db key with
  | nil =>
    have hdb : db key = some (.leaf q) := h
    simp only [wakeup, hdb]
    rfl
  | cons key' keys ih =>
    rw [find_cons (by simp)] at h
    rw [put_cons (by simp)]
    cases hdb : db key with
    | none =>
      rw [hdb] at h
      exact absurd (h.symm.trans find_empty) (by simp)
    | some t =>
      cases t with
      | leaf q' =>
        rw [hdb] at h
        exact absurd (h.symm.trans find_empty) (by simp)
      | node g =>
        rw [hdb] at h
        have hih : wakeup asKey value g key' keys = _ := ih h
        simp only [wakeup, hdb, hih]
        rfl

end Wakeup

/-- What `waitfor` does where no value is on the way. -/
theorem waitfor_eq (response : ℕ) {db : PathForest κ (List ℕ)} {key : κ} {keys : List κ}
    (hopen : db.Open (key :: keys)) (hend : ∀ g, db.find (key :: keys) ≠ some (.node g)) :
    waitfor response db key keys =
      .ok (db.put (key :: keys) (some (.leaf (waiting db (key :: keys) ++ [response])))) := by
  induction keys generalizing db key with
  | nil =>
    cases hdb : db key with
    | none => simp [waitfor, hdb, waiting, queueOf, put]
    | some t =>
      cases t with
      | leaf q => simp [waitfor, hdb, waiting, queueOf, put]
      | node g => exact absurd hdb (hend g)
  | cons key' keys ih =>
    have htail := hopen.tail
    rw [find_cons (by simp)] at hend
    rw [put_cons (by simp)]
    have hwait : waiting db (key :: key' :: keys) =
        waiting (PathTree.children (db key)) (key' :: keys) := rfl
    rw [hwait]
    cases hdb : db key with
    | none =>
      rw [hdb] at htail hend
      have hih : waitfor response (fun _ => none) key' keys = _ := ih htail hend
      simp only [waitfor, hdb, hih]
      rfl
    | some t =>
      cases t with
      | leaf a => exact absurd hdb (hopen [key] a ⟨_, rfl⟩ (by simp))
      | node children =>
        rw [hdb] at htail hend
        have hih : waitfor response children key' keys = _ := ih htail hend
        simp only [waitfor, hdb, hih]
        rfl

end Datacenter

end Uboss.Service
