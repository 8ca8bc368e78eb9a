import Mathlib.Data.List.Nodup
import Mathlib.Data.List.Range
import Uboss.Service.Datacenter

/-!
# Who waits at the data center, and who is answered

The requests of a run have numbers. No path of a run is a proper beginning of another one, so a path
leads to a value or to a queue, and never through one.
-/

namespace Uboss.Service

open Math List PathForest

namespace Datacenter

variable {κ α : Type*} [DecidableEq κ]

/-! ### Runs -/

section Runs

variable (asKey : DatacenterValue κ α → Option κ)

/-- The requests are handled one after the other, the first is number `n`. -/
def serve : Datacenter κ α → ℕ → List (DatacenterRequest κ α) → Datacenter κ α
  | s, _, [] => s
  | s, n, r :: rs => serve (dispatch asKey s n r).1 (n + 1) rs

/-- The state in which request number `j` arrives. -/
def before (rs : List (DatacenterRequest κ α)) (j : ℕ) : Datacenter κ α :=
  serve asKey create 0 (rs.take j)

/-- The answers that are sent when request number `j` is handled. -/
def answersAt (rs : List (DatacenterRequest κ α)) (j : ℕ) : List (ℕ × DatacenterAnswer κ α) :=
  match rs[j]? with
  | none => []
  | some r => (dispatch asKey (before asKey rs j) j r).2

/-- All answers to request number `i`, each with the number of the request that was handled then. -/
def answersTo (rs : List (DatacenterRequest κ α)) (i : ℕ) : List (ℕ × DatacenterAnswer κ α) :=
  (List.range rs.length).flatMap fun j =>
    ((answersAt asKey rs j).filter fun a => a.1 = i).map fun a => (j, a.2)

theorem serve_append (s : Datacenter κ α) (n : ℕ) (rs : List (DatacenterRequest κ α))
    (r : DatacenterRequest κ α) :
    serve asKey s n (rs ++ [r]) = (dispatch asKey (serve asKey s n rs) (n + rs.length) r).1 := by
  induction rs generalizing s n with
  | nil => rfl
  | cons r' rs ih =>
    have hn : n + (r' :: rs).length = n + 1 + rs.length := by
      rw [length_cons]
      omega
    rw [hn]
    exact ih _ _

theorem before_succ {rs : List (DatacenterRequest κ α)} {j : ℕ} {r : DatacenterRequest κ α}
    (hr : rs[j]? = some r) :
    before asKey rs (j + 1) = (dispatch asKey (before asKey rs j) j r).1 := by
  obtain ⟨hj, hget⟩ := List.getElem?_eq_some_iff.mp hr
  have hlen : (rs.take j).length = j := by
    rw [length_take]
    omega
  unfold before
  rw [take_succ_eq_append_getElem hj, serve_append, hget, hlen, Nat.zero_add]

end Runs

/-! ### What a run stored -/

/-- No path of the run is a proper beginning of another one. -/
def PrefixFree (rs : List (DatacenterRequest κ α)) : Prop :=
  ∀ r ∈ rs, ∀ r' ∈ rs, r.path <+: r'.path → r.path = r'.path

/-- What is stored at the path after a request. -/
def storedBy (path : List κ) (last : Option (DatacenterValue κ α)) :
    DatacenterRequest κ α → Option (DatacenterValue κ α)
  | .update key keys value => if key :: keys = path then value else last
  | _ => last

/-- The value of the last update of the path. -/
def lastStored (path : List κ) (rs : List (DatacenterRequest κ α)) : Option (DatacenterValue κ α) :=
  rs.foldl (storedBy path) none

/-- After request `i`, the first update of the path with a value other than `nil` is request `j`. -/
structure FirstUpdate (rs : List (DatacenterRequest κ α)) (i : ℕ) (key : κ) (keys : List κ) (j : ℕ)
    (value : DatacenterValue κ α) : Prop where
  later : i < j
  update : rs[j]? = some (.update key keys (some value))
  first : ∀ k w, i < k → k < j → rs[k]? ≠ some (.update key keys (some w))

/-- When the path of a request can be walked in the database: nothing is stored below its first key,
or there is a table at every place on the way. A `QUERY` of a single key finds no `false` there. -/
def Clear (s : Datacenter κ α) : DatacenterRequest κ α → Prop
  | .query key keys =>
    (s.database key = none ∨ s.database.Passable (key :: keys)) ∧
      (keys = [] → s.database key ≠ some (.leaf .false))
  | .wait key keys => s.database key = none ∨ s.database.Passable (key :: keys)
  | .update _ _ _ => True

/-- Request `i` waits for a value at the path when request `n` arrives. -/
structure Waits (rs : List (DatacenterRequest κ α)) (n : ℕ) (path : List κ) (i : ℕ) : Prop where
  earlier : i < n
  wait : ∃ key keys, rs[i]? = some (.wait key keys) ∧ key :: keys = path
  falsy : isTruthy (lastStored path (rs.take i)) = false
  unanswered : ∀ j key keys w, i < j → j < n → rs[j]? = some (.update key keys (some w)) →
    key :: keys ≠ path

/-- The trees in which request `n` arrives, at the paths of the run. -/
structure Inv (rs : List (DatacenterRequest κ α)) (n : ℕ) (s : Datacenter κ α) : Prop where
  open_database : ∀ r ∈ rs, s.database.Open r.path
  open_waitQueue : ∀ r ∈ rs, s.waitQueue.Open r.path
  no_branch : ∀ r ∈ rs, ∀ g, s.waitQueue.find r.path ≠ some (.node g)
  stored : ∀ r ∈ rs, s.database.find r.path = lastStored r.path (rs.take n)
  nodup : ∀ r ∈ rs, (waiting s.waitQueue r.path).Nodup
  waits : ∀ r ∈ rs, ∀ i, i ∈ waiting s.waitQueue r.path ↔ Waits rs n r.path i
  falsy : ∀ r ∈ rs, waiting s.waitQueue r.path ≠ [] →
    isTruthy (s.database.find r.path) = false

/-! ### One request -/

section Requests

variable {asKey : DatacenterValue κ α → Option κ} {s : Datacenter κ α} {n : ℕ} {key : κ}
  {keys : List κ} {value : Option (DatacenterValue κ α)}

omit [DecidableEq κ] in
theorem isTruthy_node {g : PathForest κ (LuaScalar α)} : isTruthy (some (.node g)) = true := rfl

omit [DecidableEq κ] in
/-- A path that can be walked leads to its value; only `false` at a single key reads as `nil`. -/
theorem commandQuery_eq {db : PathForest κ (LuaScalar α)}
    (h : db key = none ∨ db.Passable (key :: keys)) :
    commandQuery db key keys = .ok (db.find (key :: keys)) ∨
      keys = [] ∧ db key = some (.leaf .false) ∧ commandQuery db key keys = .ok none := by
  unfold commandQuery
  cases hdb : db key with
  | none =>
    left
    rw [find_eq_none hdb]
    rfl
  | some t =>
    have hpass : db.Passable (key :: keys) := h.resolve_left (by simp [hdb])
    have hquery := query_eq hpass
    rw [hdb] at hquery
    by_cases ht : isTruthy (some t) = true
    · left
      rw [if_pos ht, hquery]
    · right
      cases keys with
      | cons key' keys =>
        -- On the way there is a table, and a table is not `false`.
        obtain ⟨g, hg⟩ := hpass [key] (by simp) ⟨_, rfl⟩ (by simp)
        have hdb' : db key = some (.node g) := hg
        rw [hdb] at hdb'
        cases hdb'
        exact absurd isTruthy_node ht
      | nil =>
        rw [if_neg ht]
        refine ⟨rfl, ?_, rfl⟩
        cases t with
        | node g => exact absurd isTruthy_node ht
        | leaf a =>
          cases a with
          | false => rfl
          | atom a => exact absurd rfl ht

theorem dispatch_query (h : Clear s (.query key keys)) :
    dispatch asKey s n (.query key keys) = (s, [(n, .ret (s.database.find (key :: keys)))]) := by
  obtain hq | ⟨hkeys, hfalse, -⟩ := commandQuery_eq h.1
  · simp only [dispatch, hq]
  · exact absurd hfalse (h.2 hkeys)

theorem dispatch_wait_truthy (h : Clear s (.wait key keys))
    (ht : isTruthy (s.database.find (key :: keys)) = true) :
    dispatch asKey s n (.wait key keys) = (s, [(n, .ret (s.database.find (key :: keys)))]) := by
  obtain hq | ⟨rfl, hfalse, -⟩ := commandQuery_eq h
  · simp [dispatch, hq, ht]
  · rw [find_singleton, hfalse] at ht
    exact absurd ht (by simp [isTruthy])

theorem dispatch_wait_falsy (h : Clear s (.wait key keys))
    (ht : isTruthy (s.database.find (key :: keys)) = false) (hopen : s.waitQueue.Open (key :: keys))
    (hend : ∀ g, s.waitQueue.find (key :: keys) ≠ some (.node g)) :
    dispatch asKey s n (.wait key keys) =
      ({ s with
          waitQueue := s.waitQueue.put (key :: keys)
            (some (.leaf (waiting s.waitQueue (key :: keys) ++ [n]))) }, []) := by
  have hwait := waitfor_eq n hopen hend
  obtain hq | ⟨-, -, hq⟩ := commandQuery_eq h
  · simp only [dispatch, hq, ht, hwait]
    rfl
  · simp only [dispatch, hq, hwait]
    rfl

/-- An update that wakes nobody up: something was there, or `nil` is stored. -/
theorem dispatch_update_quiet (hopen : s.database.Open (key :: keys))
    (h : isTruthy (s.database.find (key :: keys)) = true ∨ value = none) :
    dispatch asKey s n (.update key keys value) =
      ({ s with database := s.database.put (key :: keys) value },
        [(n, .ret (s.database.find (key :: keys)))]) := by
  simp only [dispatch, update_eq hopen]
  obtain ht | rfl := h
  · rw [ht]
  · cases isTruthy (s.database.find (key :: keys)) <;> rfl

variable (asKey n) in
theorem dispatch_update_wakes {v : DatacenterValue κ α} (hopen : s.database.Open (key :: keys))
    (hwopen : s.waitQueue.Open (key :: keys))
    (hend : ∀ g, s.waitQueue.find (key :: keys) ≠ some (.node g))
    (ht : isTruthy (s.database.find (key :: keys)) = false) :
    ∃ waitQueue, dispatch asKey s n (.update key keys (some v)) =
        (⟨s.database.put (key :: keys) (some v), waitQueue⟩,
          (waiting s.waitQueue (key :: keys)).map (·, .ret (some v)) ++ [(n, .ret none)]) ∧
      (waitQueue = s.waitQueue ∧ s.waitQueue.find (key :: keys) = none ∨
        waitQueue = s.waitQueue.put (key :: keys) none) := by
  simp only [dispatch, update_eq hopen, ht]
  cases hfind : s.waitQueue.find (key :: keys) with
  | none =>
    rw [wakeup_eq_none hwopen hfind]
    refine ⟨s.waitQueue, ?_, .inl ⟨rfl, rfl⟩⟩
    simp [waiting, queueOf, hfind]
  | some t =>
    cases t with
    | node g => exact absurd hfind (hend g)
    | leaf q =>
      rw [wakeup_eq_leaf hfind]
      refine ⟨_, ?_, .inr rfl⟩
      simp [waiting, queueOf, hfind]

end Requests

/-! ### What the requests so far say -/

section Told

variable {rs : List (DatacenterRequest κ α)} {n i : ℕ} {key : κ} {keys path : List κ}

theorem lastStored_succ {r : DatacenterRequest κ α} (hr : rs[n]? = some r) :
    lastStored path (rs.take (n + 1)) = storedBy path (lastStored path (rs.take n)) r := by
  obtain ⟨hn, rfl⟩ := List.getElem?_eq_some_iff.mp hr
  unfold lastStored
  rw [take_succ_eq_append_getElem hn, foldl_append]
  rfl

/-- A request that neither waits at a path nor wakes up who waits there. -/
theorem waits_succ_iff {r : DatacenterRequest κ α} (hr : rs[n]? = some r)
    (hwait : ∀ key keys, r = .wait key keys → key :: keys ≠ path)
    (hwake : ∀ key keys v, r = .update key keys (some v) → key :: keys ≠ path) :
    Waits rs (n + 1) path i ↔ Waits rs n path i := by
  constructor
  · intro h
    obtain ⟨key, keys, hi, hpath⟩ := h.wait
    have hne : i ≠ n := by
      rintro rfl
      rw [hr] at hi
      exact hwait key keys (Option.some.inj hi) hpath
    exact ⟨by have := h.earlier; omega, h.wait, h.falsy,
      fun j key keys w hij hj => h.unanswered j key keys w hij (by omega)⟩
  · intro h
    refine ⟨by have := h.earlier; omega, h.wait, h.falsy, fun j key keys w hij hj hjr => ?_⟩
    by_cases hjn : j = n
    · subst hjn
      rw [hr] at hjr
      exact hwake key keys w (Option.some.inj hjr)
    · exact h.unanswered j key keys w hij (by omega) hjr

/-- After an update with a value other than `nil`, nobody waits at its path. -/
theorem not_waits_update {v : DatacenterValue κ α}
    (hr : rs[n]? = some (.update key keys (some v))) : ¬ Waits rs (n + 1) (key :: keys) i := by
  intro h
  by_cases hin : i = n
  · subst hin
    obtain ⟨_, _, hi, -⟩ := h.wait
    rw [hr] at hi
    cases hi
  · exact h.unanswered n key keys v (by have := h.earlier; omega) (by omega) hr rfl

theorem waits_succ_wait_iff (hr : rs[n]? = some (.wait key keys))
    (ht : isTruthy (lastStored (key :: keys) (rs.take n)) = false) :
    Waits rs (n + 1) (key :: keys) i ↔ Waits rs n (key :: keys) i ∨ i = n := by
  constructor
  · intro h
    by_cases hin : i = n
    · exact .inr hin
    · exact .inl ⟨by have := h.earlier; omega, h.wait, h.falsy,
        fun j key' keys' w hij hj => h.unanswered j key' keys' w hij (by omega)⟩
  · rintro (h | rfl)
    · refine ⟨by have := h.earlier; omega, h.wait, h.falsy, fun j key' keys' w hij hj hjr => ?_⟩
      by_cases hjn : j = n
      · subst hjn
        rw [hr] at hjr
        cases hjr
      · exact h.unanswered j key' keys' w hij (by omega) hjr
    · exact ⟨by omega, ⟨key, keys, hr, rfl⟩, ht, fun j _ _ _ hij hj => by omega⟩

theorem waits_succ_truthy_iff (hr : rs[n]? = some (.wait key keys))
    (ht : isTruthy (lastStored (key :: keys) (rs.take n)) = true) :
    Waits rs (n + 1) path i ↔ Waits rs n path i := by
  constructor
  · intro h
    have hne : i ≠ n := by
      rintro rfl
      obtain ⟨key', keys', hi, rfl⟩ := h.wait
      rw [hr] at hi
      cases hi
      rw [h.falsy] at ht
      cases ht
    exact ⟨by have := h.earlier; omega, h.wait, h.falsy,
      fun j key keys w hij hj => h.unanswered j key keys w hij (by omega)⟩
  · intro h
    refine ⟨by have := h.earlier; omega, h.wait, h.falsy, fun j key' keys' w hij hj hjr => ?_⟩
    by_cases hjn : j = n
    · subst hjn
      rw [hr] at hjr
      cases hjr
    · exact h.unanswered j key' keys' w hij (by omega) hjr

end Told

/-! ### The invariant -/

section Invariant

variable {asKey : DatacenterValue κ α → Option κ} {rs : List (DatacenterRequest κ α)} {n : ℕ}
  {s : Datacenter κ α} {key : κ} {keys : List κ}

theorem waiting_put {w : PathForest κ (List ℕ)} {t : Option (PathTree κ (List ℕ))}
    {p q : List κ} (hpq : p ≠ q → Apart p q) (hp : p ≠ []) :
    waiting (w.put p t) q =
      if p = q then queueOf t else waiting w q := by
  by_cases h : p = q
  · subst h
    rw [if_pos rfl]
    unfold waiting
    rw [find_put_self hp]
  · rw [if_neg h]
    unfold waiting
    rw [find_put_of_apart (hpq h)]

omit [DecidableEq κ] in
theorem PrefixFree.apart (hfree : PrefixFree rs) {r r' : DatacenterRequest κ α} (hr : r ∈ rs)
    (hr' : r' ∈ rs) (hne : r.path ≠ r'.path) : Apart r.path r'.path :=
  apart_of_ne (hfree r hr r' hr') (hfree r' hr' r hr) hne

theorem inv_create : Inv rs 0 create where
  open_database _ _ := open_empty
  open_waitQueue _ _ := open_empty
  no_branch _ _ g := by simp [create]
  stored _ _ := by
    rw [take_zero]
    exact find_empty
  nodup _ _ := by simp [create, waiting, queueOf]
  waits r _ i := by
    have hnone : waiting (create : Datacenter κ α).waitQueue r.path = [] := by
      simp [create, waiting, queueOf]
    rw [hnone]
    exact ⟨fun h => absurd h (by simp), fun h => absurd h.earlier (by omega)⟩
  falsy r _ h := absurd (by simp [create, waiting, queueOf]) h

namespace Inv

variable (h : Inv rs n s)
include h

theorem put_database {value : Option (DatacenterValue κ α)} (hfree : PrefixFree rs)
    (hr : rs[n]? = some (.update key keys value)) :
    (∀ r ∈ rs, (s.database.put (key :: keys) value).Open r.path) ∧
      ∀ r ∈ rs, (s.database.put (key :: keys) value).find r.path =
        lastStored r.path (rs.take (n + 1)) := by
  have hmem := mem_of_getElem? hr
  refine ⟨fun r hrs => (h.open_database r hrs).put (hfree _ hmem r hrs), fun r hrs => ?_⟩
  rw [lastStored_succ hr, storedBy]
  by_cases hp : key :: keys = r.path
  · rw [if_pos hp, ← hp]
    exact find_put_self (by simp)
  · have hapart : Apart (key :: keys) r.path := hfree.apart hmem hrs hp
    rw [if_neg hp, find_put_of_apart hapart]
    exact h.stored r hrs

theorem put_waitQueue {r : DatacenterRequest κ α} {t : Option (PathTree κ (List ℕ))}
    (hfree : PrefixFree rs) (hr : r ∈ rs) (ht : ∀ g, t ≠ some (.node g)) :
    (∀ r' ∈ rs, (s.waitQueue.put r.path t).Open r'.path) ∧
      (∀ r' ∈ rs, ∀ g, (s.waitQueue.put r.path t).find r'.path ≠ some (.node g)) ∧
      ∀ r' ∈ rs, waiting (s.waitQueue.put r.path t) r'.path =
        if r.path = r'.path then queueOf t else waiting s.waitQueue r'.path := by
  have hne : r.path ≠ [] := by cases r <;> simp [DatacenterRequest.path]
  refine ⟨fun r' hr' => (h.open_waitQueue r' hr').put (hfree r hr r' hr'), fun r' hr' g => ?_,
    fun r' hr' => waiting_put (hfree.apart hr hr') hne⟩
  by_cases hp : r.path = r'.path
  · rw [← hp, find_put_self hne]
    exact ht g
  · rw [find_put_of_apart (hfree.apart hr hr' hp)]
    exact h.no_branch r' hr' g

theorem keep {r : DatacenterRequest κ α} (hr : rs[n]? = some r)
    (hupdate : ∀ key keys value, r ≠ .update key keys value)
    (hwaits : ∀ path i, Waits rs (n + 1) path i ↔ Waits rs n path i) : Inv rs (n + 1) s where
  open_database := h.open_database
  open_waitQueue := h.open_waitQueue
  no_branch := h.no_branch
  stored r' hr' := by
    rw [lastStored_succ hr, h.stored r' hr']
    cases r with
    | update key keys value => exact absurd rfl (hupdate key keys value)
    | query | wait => rfl
  nodup := h.nodup
  waits r' hr' i := (h.waits r' hr' i).trans (hwaits r'.path i).symm
  falsy := h.falsy

variable (hfree : PrefixFree rs)
include hfree

theorem wait (hr : rs[n]? = some (.wait key keys))
    (ht : isTruthy (s.database.find (key :: keys)) = false) :
    Inv rs (n + 1)
      { s with
          waitQueue := s.waitQueue.put (key :: keys)
            (some (.leaf (waiting s.waitQueue (key :: keys) ++ [n]))) } := by
  have hmem := mem_of_getElem? hr
  have hstored := h.stored _ hmem
  let waitQueue := s.waitQueue.put (key :: keys)
    (some (.leaf (waiting s.waitQueue (key :: keys) ++ [n])))
  obtain ⟨hopen, hend, hwaiting⟩ : (∀ r ∈ rs, waitQueue.Open r.path) ∧
      (∀ r ∈ rs, ∀ g, waitQueue.find r.path ≠ some (.node g)) ∧
      ∀ r ∈ rs, waiting waitQueue r.path =
        if key :: keys = r.path then waiting s.waitQueue (key :: keys) ++ [n]
        else waiting s.waitQueue r.path := h.put_waitQueue hfree hmem (by simp)
  have hsame : ∀ r ∈ rs, lastStored r.path (rs.take (n + 1)) = lastStored r.path (rs.take n) :=
    fun r _ => lastStored_succ hr
  refine ⟨h.open_database, hopen, hend, fun r hrs => (h.stored r hrs).trans (hsame r hrs).symm,
    fun r hrs => ?_, fun r hrs i => ?_, fun r hrs => ?_⟩
  · dsimp only
    rw [hwaiting r hrs]
    by_cases hp : key :: keys = r.path
    · -- The number is new, for who waits came earlier.
      rw [if_pos hp, nodup_append]
      refine ⟨h.nodup _ hmem, nodup_singleton n, fun a ha b hb => ?_⟩
      have hearlier := ((h.waits _ hmem a).mp ha).earlier
      have hb := mem_singleton.mp hb
      omega
    · rw [if_neg hp]
      exact h.nodup r hrs
  · dsimp only
    rw [hwaiting r hrs]
    by_cases hp : key :: keys = r.path
    · rw [if_pos hp, ← hp, waits_succ_wait_iff hr (hstored ▸ ht), mem_append, mem_singleton]
      exact or_congr_left (h.waits _ hmem i)
    · rw [if_neg hp, waits_succ_iff hr (by rintro _ _ ⟨⟩; exact hp) (by rintro _ _ _ ⟨⟩)]
      exact h.waits r hrs i
  · dsimp only
    rw [hwaiting r hrs]
    by_cases hp : key :: keys = r.path
    · exact fun _ => hp ▸ ht
    · rw [if_neg hp]
      exact h.falsy r hrs

theorem update_quiet {value : Option (DatacenterValue κ α)}
    (hr : rs[n]? = some (.update key keys value))
    (hq : isTruthy (s.database.find (key :: keys)) = true ∨ value = none) :
    Inv rs (n + 1) { s with database := s.database.put (key :: keys) value } := by
  have hmem := mem_of_getElem? hr
  obtain ⟨hopen, hstored⟩ := h.put_database hfree hr
  refine ⟨hopen, h.open_waitQueue, h.no_branch, hstored, h.nodup, fun r hrs i => ?_,
    fun r hrs hne => ?_⟩
  · rw [h.waits r hrs i]
    by_cases hp : key :: keys = r.path
    · obtain ht | rfl := hq
      · -- The value was there, so nobody waited, and nobody waits now.
        have hnobody : ∀ i, ¬ Waits rs n r.path i := by
          intro i hi
          have hin := (h.waits r hrs i).mpr hi
          have hfalsy := h.falsy r hrs (ne_nil_of_mem hin)
          rw [← hp, ht] at hfalsy
          cases hfalsy
        refine iff_of_false (hnobody i) fun hi => ?_
        obtain ⟨_, _, hwait, -⟩ := hi.wait
        have hne : i ≠ n := by
          rintro rfl
          rw [hr] at hwait
          cases hwait
        exact hnobody i ⟨by have := hi.earlier; omega, hi.wait, hi.falsy,
          fun j key keys w hij hj => hi.unanswered j key keys w hij (by omega)⟩
      · exact (waits_succ_iff hr (by rintro _ _ ⟨⟩) (by rintro _ _ _ ⟨⟩)).symm
    · exact (waits_succ_iff hr (by rintro _ _ ⟨⟩) (by rintro _ _ _ ⟨⟩; exact hp)).symm
  · have hfalsy := h.falsy r hrs hne
    by_cases hp : key :: keys = r.path
    · rw [← hp] at hfalsy
      obtain ht | rfl := hq
      · rw [ht] at hfalsy
        cases hfalsy
      · rw [← hp, find_put_self (by simp)]
        rfl
    · have hapart : Apart (key :: keys) r.path := hfree.apart hmem hrs hp
      rw [find_put_of_apart hapart]
      exact hfalsy

theorem update_wakes {v : DatacenterValue κ α} {waitQueue : PathForest κ (List ℕ)}
    (hr : rs[n]? = some (.update key keys (some v)))
    (hw : waitQueue = s.waitQueue ∧ s.waitQueue.find (key :: keys) = none ∨
      waitQueue = s.waitQueue.put (key :: keys) none) :
    Inv rs (n + 1) ⟨s.database.put (key :: keys) (some v), waitQueue⟩ := by
  have hmem := mem_of_getElem? hr
  obtain ⟨hopen, hstored⟩ := h.put_database hfree hr
  obtain ⟨hwopen, hend, hwaiting⟩ : (∀ r ∈ rs, waitQueue.Open r.path) ∧
      (∀ r ∈ rs, ∀ g, waitQueue.find r.path ≠ some (.node g)) ∧
      ∀ r ∈ rs, waiting waitQueue r.path =
        if key :: keys = r.path then [] else waiting s.waitQueue r.path := by
    obtain ⟨rfl, hnone⟩ | rfl := hw
    · refine ⟨h.open_waitQueue, h.no_branch, fun r _ => ?_⟩
      by_cases hp : key :: keys = r.path
      · rw [if_pos hp, ← hp]
        unfold waiting
        rw [hnone]
        rfl
      · rw [if_neg hp]
    · exact h.put_waitQueue (t := none) hfree hmem (by simp)
  refine ⟨hopen, hwopen, hend, hstored, fun r hrs => ?_, fun r hrs i => ?_, fun r hrs => ?_⟩
  · dsimp only
    rw [hwaiting r hrs]
    by_cases hp : key :: keys = r.path
    · rw [if_pos hp]
      exact nodup_nil
    · rw [if_neg hp]
      exact h.nodup r hrs
  · dsimp only
    rw [hwaiting r hrs]
    by_cases hp : key :: keys = r.path
    · rw [if_pos hp, ← hp]
      exact iff_of_false (by simp) (not_waits_update hr)
    · rw [if_neg hp, waits_succ_iff hr (by rintro _ _ ⟨⟩) (by rintro _ _ _ ⟨⟩; exact hp)]
      exact h.waits r hrs i
  · dsimp only
    rw [hwaiting r hrs]
    by_cases hp : key :: keys = r.path
    · rw [if_pos hp]
      exact fun hne => absurd rfl hne
    · rw [if_neg hp]
      intro hne
      have hapart : Apart (key :: keys) r.path := hfree.apart hmem hrs hp
      rw [find_put_of_apart hapart]
      exact h.falsy r hrs hne

theorem dispatch {r : DatacenterRequest κ α} (hr : rs[n]? = some r) (hclear : Clear s r) :
    Inv rs (n + 1) (Datacenter.dispatch asKey s n r).1 := by
  have hmem := mem_of_getElem? hr
  cases r with
  | query key keys =>
    rw [dispatch_query hclear]
    exact h.keep hr (by simp) fun _ _ => waits_succ_iff hr (by simp) (by simp)
  | wait key keys =>
    cases ht : isTruthy (s.database.find (key :: keys)) with
    | true =>
      rw [dispatch_wait_truthy hclear ht]
      refine h.keep hr (by simp) fun _ _ => waits_succ_truthy_iff hr ?_
      rw [← ht]
      exact congrArg isTruthy (h.stored _ hmem).symm
    | false =>
      rw [dispatch_wait_falsy hclear ht (h.open_waitQueue _ hmem) (h.no_branch _ hmem)]
      exact h.wait hfree hr ht
  | update key keys value =>
    by_cases hq : isTruthy (s.database.find (key :: keys)) = true ∨ value = none
    · rw [dispatch_update_quiet (h.open_database _ hmem) hq]
      exact h.update_quiet hfree hr hq
    · obtain ⟨ht, hv⟩ := not_or.mp hq
      obtain ⟨v, rfl⟩ := Option.ne_none_iff_exists'.mp hv
      obtain ⟨waitQueue, heq, hw⟩ := dispatch_update_wakes asKey n (v := v)
        (h.open_database _ hmem) (h.open_waitQueue _ hmem) (h.no_branch _ hmem)
        (Bool.eq_false_iff.mpr ht)
      rw [heq]
      exact h.update_wakes hfree hr hw

end Inv

/-- The trees of every state of a run. -/
theorem inv_before (hfree : PrefixFree rs)
    (hclear : ∀ j r, rs[j]? = some r → Clear (before asKey rs j) r) {n : ℕ} (hn : n ≤ rs.length) :
    Inv rs n (before asKey rs n) := by
  induction n with
  | zero => exact inv_create
  | succ n ih =>
    have hlt : n < rs.length := by omega
    have hr : rs[n]? = some rs[n] := getElem?_eq_getElem hlt
    rw [before_succ asKey hr]
    exact (ih (by omega)).dispatch hfree hr (hclear n _ hr)

end Invariant

/-! ### Answers -/

section Answers

variable {asKey : DatacenterValue κ α → Option κ} {rs : List (DatacenterRequest κ α)} {i j : ℕ}
  {key : κ} {keys : List κ}

theorem flatMap_range_eq {β : Type*} {f : ℕ → List β} {n j : ℕ} (hj : j < n)
    (h : ∀ k, k < n → k ≠ j → f k = []) : (List.range n).flatMap f = f j := by
  induction n with
  | zero => omega
  | succ n ih =>
    rw [range_succ, flatMap_append, flatMap_singleton]
    by_cases hjn : j = n
    · subst hjn
      have hnil : (List.range j).flatMap f = [] := flatMap_eq_nil_iff.mpr fun k hk =>
          h k (by have := mem_range.mp hk; omega) (by have := mem_range.mp hk; omega)
      rw [hnil, nil_append]
    · rw [h n (by omega) (Ne.symm hjn), append_nil]
      exact ih (by omega) fun k hk => h k (by omega)

section Inv

variable (h : Inv rs j (before asKey rs j))
include h

theorem answersAt_query (hr : rs[j]? = some (.query key keys))
    (hclear : Clear (before asKey rs j) (.query key keys)) :
    answersAt asKey rs j = [(j, .ret (lastStored (key :: keys) (rs.take j)))] := by
  have hstored : (before asKey rs j).database.find (key :: keys) = _ :=
    h.stored _ (mem_of_getElem? hr)
  unfold answersAt
  rw [hr]
  dsimp only
  rw [dispatch_query hclear, hstored]
  rfl

theorem answersAt_wait (hr : rs[j]? = some (.wait key keys))
    (hclear : Clear (before asKey rs j) (.wait key keys)) :
    answersAt asKey rs j =
      if isTruthy (lastStored (key :: keys) (rs.take j)) then
        [(j, .ret (lastStored (key :: keys) (rs.take j)))]
      else [] := by
  have hmem := mem_of_getElem? hr
  have hstored : lastStored (key :: keys) (rs.take j) =
      (before asKey rs j).database.find (key :: keys) := (h.stored _ hmem).symm
  unfold answersAt
  rw [hr, hstored]
  dsimp only
  by_cases ht : isTruthy ((before asKey rs j).database.find (key :: keys)) = true
  · rw [dispatch_wait_truthy hclear ht, if_pos ht]
  · rw [dispatch_wait_falsy hclear (Bool.eq_false_iff.mpr ht) (h.open_waitQueue _ hmem)
      (h.no_branch _ hmem), if_neg ht]

/-- An update answers who waits at its path, and its own caller. -/
theorem answersAt_update {value : Option (DatacenterValue κ α)}
    (hr : rs[j]? = some (.update key keys value)) :
    ∃ ret, answersAt asKey rs j = [(j, ret)] ∧ (∀ i, value.isSome → ¬ Waits rs j (key :: keys) i) ∨
      ∃ v, value = some v ∧ answersAt asKey rs j =
        (waiting (before asKey rs j).waitQueue (key :: keys)).map (·, .ret (some v)) ++
          [(j, ret)] := by
  have hmem := mem_of_getElem? hr
  unfold answersAt
  rw [hr]
  dsimp only
  by_cases hq : isTruthy ((before asKey rs j).database.find (key :: keys)) = true ∨ value = none
  · rw [dispatch_update_quiet (h.open_database _ hmem) hq]
    refine ⟨_, .inl ⟨rfl, fun i hv hi => ?_⟩⟩
    obtain ht | rfl := hq
    · -- The value is there, so nobody waits.
      have hin := (h.waits _ hmem i).mpr hi
      have hfalsy : isTruthy _ = false := h.falsy _ hmem (ne_nil_of_mem hin)
      rw [DatacenterRequest.path, ht] at hfalsy
      cases hfalsy
    · cases hv
  · obtain ⟨ht, hv⟩ := not_or.mp hq
    obtain ⟨v, rfl⟩ := Option.ne_none_iff_exists'.mp hv
    obtain ⟨waitQueue, heq, -⟩ := dispatch_update_wakes asKey j (v := v)
      (h.open_database _ hmem) (h.open_waitQueue _ hmem) (h.no_branch _ hmem)
      (Bool.eq_false_iff.mpr ht)
    exact ⟨.ret none, .inr ⟨v, rfl, by rw [heq]⟩⟩

/-- Who is answered when a request of another one is handled waits for the value of an update. -/
theorem waits_of_mem_answersAt (hclear : ∀ r, rs[j]? = some r → Clear (before asKey rs j) r)
    {a : DatacenterAnswer κ α} (ha : (i, a) ∈ answersAt asKey rs j) (hij : i ≠ j) :
    ∃ key keys v, rs[j]? = some (.update key keys (some v)) ∧ Waits rs j (key :: keys) i ∧
      a = .ret (some v) := by
  cases hr : rs[j]? with
  | none =>
    unfold answersAt at ha
    rw [hr] at ha
    cases ha
  | some r =>
    cases r with
    | query key keys =>
      rw [answersAt_query h hr (hclear _ hr)] at ha
      exact absurd (congrArg Prod.fst (mem_singleton.mp ha)) hij
    | wait key keys =>
      rw [answersAt_wait h hr (hclear _ hr)] at ha
      split at ha
      · exact absurd (congrArg Prod.fst (mem_singleton.mp ha)) hij
      · cases ha
    | update key keys value =>
      obtain ⟨ret, ⟨heq, -⟩ | ⟨v, rfl, heq⟩⟩ := answersAt_update h hr
      · rw [heq] at ha
        exact absurd (congrArg Prod.fst (mem_singleton.mp ha)) hij
      · rw [heq, mem_append] at ha
        obtain ha | ha := ha
        · obtain ⟨k, hk, hka⟩ := mem_map.mp ha
          obtain ⟨rfl, rfl⟩ := Prod.mk.inj hka
          exact ⟨key, keys, v, rfl, (h.waits _ (mem_of_getElem? hr) _).mp hk, rfl⟩
        · exact absurd (congrArg Prod.fst (mem_singleton.mp ha)) hij

theorem filter_answersAt_of_waits {v : DatacenterValue κ α}
    (hr : rs[j]? = some (.update key keys (some v))) (hi : Waits rs j (key :: keys) i) :
    (answersAt asKey rs j).filter (fun a => a.1 = i) = [(i, .ret (some v))] := by
  have hmem := mem_of_getElem? hr
  obtain ⟨ret, ⟨-, hnobody⟩ | ⟨v', hv, heq⟩⟩ := answersAt_update h hr
  · exact absurd hi (hnobody i rfl)
  · cases hv
    have hin := (h.waits _ hmem i).mpr hi
    have hcount : (waiting (before asKey rs j).waitQueue (key :: keys)).count i = 1 :=
      count_eq_one_of_mem (h.nodup _ hmem) hin
    have hne : ¬ j = i := by
      have := hi.earlier
      omega
    have honce : (waiting (before asKey rs j).waitQueue (key :: keys)).filter (fun k => k = i) =
        [i] := by
      rw [filter_eq, hcount]
      rfl
    rw [heq, filter_append, filter_map]
    have hcomp : ((fun a : ℕ × DatacenterAnswer κ α => decide (a.1 = i)) ∘
        fun k => (k, DatacenterAnswer.ret (some v))) = fun k => decide (k = i) := rfl
    rw [hcomp, honce]
    simp [hne]

end Inv

omit [DecidableEq κ] in
theorem filter_eq_nil_of_not_mem {l : List (ℕ × DatacenterAnswer κ α)}
    (h : ∀ a, (i, a) ∉ l) : l.filter (fun a => a.1 = i) = [] := by
  refine filter_eq_nil_iff.mpr fun a ha hi => ?_
  have heq : a.1 = i := of_decide_eq_true hi
  exact h a.2 (heq ▸ ha)

theorem answersTo_eq {a : DatacenterAnswer κ α} (hj : j < rs.length)
    (hat : (answersAt asKey rs j).filter (fun a => a.1 = i) = [(i, a)])
    (hother : ∀ k, k < rs.length → k ≠ j → ∀ a, (i, a) ∉ answersAt asKey rs k) :
    answersTo asKey rs i = [(j, a)] := by
  unfold answersTo
  rw [flatMap_range_eq hj fun k hk hkj => ?_, hat]
  · rfl
  · rw [filter_eq_nil_of_not_mem (hother k hk hkj), map_nil]

/-- In a run whose requests can all walk their paths, a `QUERY` gets the last value; a `WAIT` gets
the value if it is there, else that of the first update, and nothing before or after it; and an
update answers only who waits at its path. -/
theorem wait_answered_once (hfree : PrefixFree rs)
    (hclear : ∀ j r, rs[j]? = some r → Clear (before asKey rs j) r) :
    (∀ i key keys, rs[i]? = some (.query key keys) →
      answersTo asKey rs i = [(i, .ret (lastStored (key :: keys) (rs.take i)))]) ∧
    (∀ i key keys, rs[i]? = some (.wait key keys) →
      (isTruthy (lastStored (key :: keys) (rs.take i)) = true →
        answersTo asKey rs i = [(i, .ret (lastStored (key :: keys) (rs.take i)))]) ∧
      (isTruthy (lastStored (key :: keys) (rs.take i)) = false →
        (∀ j v, FirstUpdate rs i key keys j v → answersTo asKey rs i = [(j, .ret (some v))]) ∧
        ((∀ j v, ¬ FirstUpdate rs i key keys j v) → answersTo asKey rs i = []))) ∧
    (∀ i j key keys value a, rs[j]? = some (.update key keys value) → i ≠ j →
      (i, a) ∈ answersAt asKey rs j →
        rs[i]? = some (.wait key keys) ∧ value ≠ none ∧ a = .ret value) := by
  have hinv : ∀ j, j < rs.length → Inv rs j (before asKey rs j) :=
    fun j hj => inv_before hfree hclear hj.le
  have hlt : ∀ {j : ℕ} {r : DatacenterRequest κ α}, rs[j]? = some r → j < rs.length :=
    fun hr => (List.getElem?_eq_some_iff.mp hr).1
  -- Only an update answers another request, and that one waits.
  have hwaits : ∀ i j a, j < rs.length → i ≠ j → (i, a) ∈ answersAt asKey rs j →
      ∃ key keys v, rs[j]? = some (.update key keys (some v)) ∧ Waits rs j (key :: keys) i ∧
        a = .ret (some v) :=
    fun i j a hj hij ha => waits_of_mem_answersAt (hinv j hj) (hclear j) ha hij
  refine ⟨fun i key keys hr => ?_, fun i key keys hr => ⟨fun ht => ?_, fun ht => ?_⟩,
    fun i j key keys value a hr hij ha => ?_⟩
  · apply answersTo_eq (hlt hr)
    · rw [answersAt_query (hinv i (hlt hr)) hr (hclear i _ hr)]
      simp
    · intro k hk hki a ha
      obtain ⟨_, _, _, -, hw, -⟩ := hwaits i k a hk hki.symm ha
      obtain ⟨_, _, hwait, -⟩ := hw.wait
      rw [hr] at hwait
      cases hwait
  · apply answersTo_eq (hlt hr)
    · rw [answersAt_wait (hinv i (hlt hr)) hr (hclear i _ hr), if_pos ht]
      simp
    · intro k hk hki a ha
      obtain ⟨_, _, _, -, hw, -⟩ := hwaits i k a hk hki.symm ha
      obtain ⟨_, _, hwait, hpath⟩ := hw.wait
      rw [hr] at hwait
      cases hwait
      have hfalsy := hw.falsy
      rw [← hpath, ht] at hfalsy
      cases hfalsy
  · -- When it is handled, the request is not answered.
    have hown : ∀ a, (i, a) ∉ answersAt asKey rs i := by
      rw [answersAt_wait (hinv i (hlt hr)) hr (hclear i _ hr), if_neg (by rw [ht]; simp)]
      simp
    have hfirst : ∀ k a, k < rs.length → (i, a) ∈ answersAt asKey rs k →
        ∃ v, FirstUpdate rs i key keys k v := by
      intro k a hk ha
      have hki : i ≠ k := by
        rintro rfl
        exact hown a ha
      obtain ⟨key', keys', v, hupdate, hw, -⟩ := hwaits i k a hk hki ha
      obtain ⟨_, _, hwait, hpath⟩ := hw.wait
      rw [hr] at hwait
      cases hwait
      cases hpath
      exact ⟨v, hw.earlier, hupdate, fun m w him hmk hm => hw.unanswered m _ _ w him hmk hm rfl⟩
    refine ⟨fun j v hj => ?_, fun hnone => ?_⟩
    · apply answersTo_eq (hlt hj.update)
      · refine filter_answersAt_of_waits (hinv j (hlt hj.update)) hj.update
          ⟨hj.later, ⟨key, keys, hr, rfl⟩, ht, fun k key' keys' w hik hkj hk hpath => ?_⟩
        cases hpath
        exact hj.first k w hik hkj hk
      · intro k hk hkj a ha
        obtain ⟨v', hk'⟩ := hfirst k a hk ha
        -- Two updates cannot both be the first one.
        obtain hlt' | hlt' := Nat.lt_or_gt_of_ne hkj
        · exact hj.first k v' hk'.later hlt' hk'.update
        · exact hk'.first j v hj.later hlt' hj.update
    · unfold answersTo
      refine List.flatMap_eq_nil_iff.mpr fun k hk => ?_
      rw [filter_eq_nil_of_not_mem fun a ha => ?_, List.map_nil]
      obtain ⟨v, hv⟩ := hfirst k a (List.mem_range.mp hk) ha
      exact hnone k v hv
  · obtain ⟨key', keys', v, hupdate, hw, rfl⟩ := hwaits i j a (hlt hr) hij ha
    rw [hr] at hupdate
    cases hupdate
    obtain ⟨_, _, hwait, hpath⟩ := hw.wait
    cases hpath
    exact ⟨hwait, by simp, rfl⟩

/-- A `WAIT` of one path, an update of it, and a `QUERY`. -/
def oneWait : List (DatacenterRequest String Bool) :=
  [.wait "a" ["b"], .update "a" ["b"] (some (.leaf (.atom true))), .query "a" ["b"]]

theorem wait_answered_once_oneWait :
    answersTo (fun _ => none) oneWait 0 = [(1, .ret (some (.leaf (.atom true))))] := by
  have hfree : PrefixFree oneWait := by
    have hpath : ∀ r ∈ oneWait, r.path = ["a", "b"] := by
      intro r hr
      simp only [oneWait, List.mem_cons, List.not_mem_nil, or_false] at hr
      rcases hr with rfl | rfl | rfl <;> rfl
    intro r hr r' hr' _
    rw [hpath r hr, hpath r' hr']
  have hclear : ∀ j r, oneWait[j]? = some r → Clear (before (fun _ => none) oneWait j) r
    | 0, _, rfl => .inl rfl
    | 1, _, rfl => trivial
    | 2, _, rfl => ⟨.inr PathForest.passable_put, fun h => absurd h (by simp)⟩
    | _ + 3, _, h => by cases h
  have hwait := (wait_answered_once hfree hclear).2.1 0 "a" ["b"] rfl
  exact (hwait.2 rfl).1 1 _ ⟨by decide, rfl, fun k _ h0 h1 => by omega⟩

/-- After an update of `a.b`, a `QUERY` or a `WAIT` of `a.c.d` indexes `nil`. After an update of `x`
with `false`, a `QUERY` of `x` gets `nil`. -/
theorem query_beside_update :
    let db : List (DatacenterRequest String Bool) :=
      [.update "a" ["b"] (some (.leaf (.atom true))), .query "a" ["c", "d"], .wait "a" ["c", "d"],
        .update "x" [] (some (.leaf .false)), .query "x" []]
    PrefixFree db ∧ lastStored ["a", "c", "d"] (db.take 1) = none ∧
      answersTo (fun _ => none) db 1 = [(1, .error)] ∧
      answersTo (fun _ => none) db 2 = [(2, .error)] ∧
      lastStored ["x"] (db.take 4) = some (.leaf .false) ∧
      answersTo (fun _ => none) db 4 = [(4, .ret none)] := by
  refine ⟨?_, rfl, rfl, rfl, rfl, rfl⟩
  intro r hr r' hr'
  simp only [List.mem_cons, List.not_mem_nil, or_false] at hr hr'
  rcases hr with rfl | rfl | rfl | rfl | rfl <;> rcases hr' with rfl | rfl | rfl | rfl | rfl <;>
    simp [DatacenterRequest.path]

end Answers

end Datacenter

end Uboss.Service
