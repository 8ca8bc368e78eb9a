import Uboss.Framework.MsgServer

/-!
# The cache of the responses

What the steps of a user do to `u.response`, for every run: clients may connect, send again and
reuse sessions as they like. An entry is without a response from its creation to the end of
`request_handler`; where the package with the result cannot be made, it stays so.
-/

namespace Uboss.Framework

open Math Lib Function Option Finset Nat

namespace MsgUser

variable {ν : Type*}

section Definitions

variable (t : MsgUser ν)

/-- The entry is in the cache. -/
def Cached (i : ℕ) : Prop := t.response (t.entry i).session = some i

instance (i : ℕ) : Decidable (t.Cached i) := inferInstanceAs (Decidable (_ = _))

/-- `request_handler` has returned. -/
def stop (i : ℕ) : MsgUser ν := { t with running := Function.update t.running i false }

/-- The response of an entry is there. -/
def respond (i : ℕ) (response : LuaString) : MsgUser ν :=
  t.setEntry i { t.entry i with
    response := some response
    version := some t.version
    index := t.index }

/-- No request is half done: while an entry has no response, its handler is running. -/
def NoHalfDone : Prop :=
  ∀ s i, t.response s = some i → (t.entry i).response = none → t.running i = true

/-- The result of a handler, where its entry is in the cache, is at most 65530 bytes long. -/
def Packs : MsgAction ν → Prop
  | .handlerEnd i ok result => t.Cached i → ok = true → result.length ≤ 65530
  | _ => True

instance : DecidablePred t.Packs
  | .handlerEnd i ok result =>
    inferInstanceAs (Decidable (t.Cached i → ok = true → result.length ≤ 65530))
  | .auth _ | .disconnect _ | .request _ _ => .isTrue trivial

/-- The entry whose response an action completes, or sends again. -/
def sending [DecidableEq ν] : MsgAction ν → Option ℕ
  | .request fd message =>
    match t.connection fd, unpackSession message with
    | true, some session =>
      (t.response session).filter fun i =>
        (t.entry i).version ≠ some t.version ∧ (t.entry i).response ≠ none
    | _, _ => none
  | .handlerEnd i ok result => (packResponse ok result (t.entry i).session).map fun _ => i
  | _ => none

/-- The entry that an action takes out of the cache because its session is used again on the
connection. -/
def reusing [DecidableEq ν] : MsgAction ν → Option ℕ
  | .request fd message =>
    match t.connection fd, unpackSession message with
    | true, some session =>
      (t.response session).filter fun i => (t.entry i).version = some t.version
    | _, _ => none
  | _ => none

/-- What a step of a user does to the cache. -/
inductive CacheStep [DecidableEq ν] (n : ℕ) (a : MsgAction ν) : MsgUser ν → Prop
  | idle (version : ν) (connection : ℕ → Bool) (connectionN : ℕ)
      (hsending : t.sending a = none) (hreusing : t.reusing a = none) :
      CacheStep n a { t with version, connection, connectionN }
  | execute (fd s : ℕ) (hnone : t.response s = none) (hsending : t.sending a = none)
      (hreusing : t.reusing a = none) : CacheStep n a (t.execute fd s)
  | reuse (fd s i : ℕ) (hcached : t.response s = some i) (hsending : t.sending a = none)
      (hreusing : t.reusing a = some i) : CacheStep n a (t.execute fd s)
  | conflict (s i : ℕ) (hcached : t.response s = some i) (hsending : t.sending a = none)
      (hreusing : t.reusing a = some i) : CacheStep n a (t.dropResponse s)
  | wait (fd s i : ℕ) (hcached : t.response s = some i) (hnone : (t.entry i).response = none)
      (hsending : t.sending a = none) (hreusing : t.reusing a = none) :
      CacheStep n a (t.resend fd i)
  | refresh (fd s i : ℕ) (hcached : t.response s = some i) (hsome : (t.entry i).response ≠ none)
      (hsending : t.sending a = some i) (hreusing : t.reusing a = none) :
      CacheStep n a ((t.resend fd i).finish n i)
  | stuck (i : ℕ) (ok : Bool) (result : LuaString) (ha : a = .handlerEnd i ok result)
      (hrunning : t.running i = true)
      (hpack : packResponse ok result (t.entry i).session = none)
      (hsending : t.sending a = none) (hreusing : t.reusing a = none) :
      CacheStep n a (t.stop i)
  | respond (i : ℕ) (ok : Bool) (result response : LuaString) (ha : a = .handlerEnd i ok result)
      (hrunning : t.running i = true)
      (hpack : packResponse ok result (t.entry i).session = some response)
      (hsending : t.sending a = some i) (hreusing : t.reusing a = none) :
      CacheStep n a (((t.stop i).respond i response).finish n i)

/-- What the cache and the handlers have in common. -/
structure Cache : Prop where
  cached : ∀ s i, t.response s = some i → i < t.entryN ∧ (t.entry i).session = s
  sessions : ∀ s, s ∈ t.sessions ↔ (t.response s).isSome = true
  running : ∀ i, t.running i = true → i < t.entryN ∧ (t.entry i).response = none

end Definitions

section Fields

variable {t : MsgUser ν} {i j fd s s' : ℕ} {p : ResponseEntry ν} {response : LuaString}

@[simp] theorem setEntry_entry_self : (t.setEntry i p).entry i = p := update_self ..

theorem setEntry_entry_of_ne (h : j ≠ i) : (t.setEntry i p).entry j = t.entry j := update_of_ne h ..

@[simp] theorem resend_entry_self : (t.resend fd i).entry i = { t.entry i with
    fd := some fd
    version := some t.version
    index := t.index
    senders := (t.entry i).senders ++ [fd] } := update_self ..

@[simp] theorem respond_entry_self : (t.respond i response).entry i = { t.entry i with
    response := some response
    version := some t.version
    index := t.index } := update_self ..

@[simp] theorem stop_running_self : (t.stop i).running i = false := update_self ..

theorem stop_running_of_ne (h : j ≠ i) : (t.stop i).running j = t.running j := update_of_ne h ..

@[simp] theorem execute_entry_self :
    (t.execute fd s).entry t.entryN = ⟨some fd, none, none, 0, s, [fd]⟩ := update_self ..

theorem execute_entry_of_ne (h : j ≠ t.entryN) : (t.execute fd s).entry j = t.entry j :=
  update_of_ne h ..

theorem execute_running_of_ne (h : j ≠ t.entryN) : (t.execute fd s).running j = t.running j :=
  update_of_ne h ..

@[simp] theorem execute_running_self : (t.execute fd s).running t.entryN = true := update_self ..

@[simp] theorem execute_response_self : (t.execute fd s).response s = some t.entryN :=
  update_self ..

theorem execute_response_of_ne (h : s' ≠ s) : (t.execute fd s).response s' = t.response s' :=
  update_of_ne h ..

@[simp] theorem dropResponse_response_self : (t.dropResponse s).response s = none := update_self ..

theorem dropResponse_response_of_ne (h : s' ≠ s) :
    (t.dropResponse s).response s' = t.response s' := update_of_ne h ..

end Fields

variable {t t' : MsgUser ν} {n i : ℕ} {a : MsgAction ν}

theorem packResponse_eq_none_iff {ok : Bool} {result : LuaString} {session : ℕ} :
    packResponse ok result session = none ↔ ok = true ∧ 65530 < result.length := by
  unfold packResponse
  have hlength : (leBytes 4 session).reverse.length = 4 := by
    rw [List.length_reverse, length_leBytes]
  cases ok
  · simp [hlength]
  · simp [hlength]
    omega

/-! ### The steps -/

section Steps

variable [LinearOrder ν]

theorem step_request_cases {fd session : ℕ} {message : LuaString}
    (hopen : t.connection fd = true) (hsession : unpackSession message = some session) :
    t.CacheStep n (.request fd message) (t.doRequest n fd session) := by
  have hsending : t.sending (.request fd message) = (t.response session).filter fun i =>
      (t.entry i).version ≠ some t.version ∧ (t.entry i).response ≠ none := by
    simp only [sending, hopen, hsession]
  have hreusing : t.reusing (.request fd message) = (t.response session).filter fun i =>
      (t.entry i).version = some t.version := by
    simp only [reusing, hopen, hsession]
  unfold doRequest
  cases hcached : t.response session with
  | none =>
    rw [hcached] at hsending hreusing
    exact .execute fd session hcached hsending hreusing
  | some i =>
    rw [hcached, filter_some] at hsending hreusing
    dsimp only
    split_ifs with hversion
    · -- the session is used again on this connection
      simp only [hversion, ne_eq, not_true, false_and, decide_false, Bool.false_eq_true,
        if_false] at hsending
      simp only [hversion, decide_true, if_true] at hreusing
      cases hresponse : (t.entry i).response with
      | none => exact .conflict session i hcached hsending hreusing
      | some response => exact .reuse fd session i hcached hsending hreusing
    · simp only [hversion, decide_false, Bool.false_eq_true, if_false] at hreusing
      cases hresponse : (t.entry i).response with
      | none =>
        simp only [hresponse, ne_eq, not_true, and_false, decide_false, Bool.false_eq_true,
          if_false] at hsending
        exact .wait fd session i hcached hresponse hsending hreusing
      | some response =>
        simp only [hversion, hresponse, ne_eq, not_false_eq_true, reduceCtorEq, and_self,
          decide_true, if_true] at hsending
        exact .refresh fd session i hcached (by rw [hresponse]; exact some_ne_none _)
          hsending hreusing

theorem request_cases (fd : ℕ) (message : LuaString) :
    (∃ session, t.connection fd = true ∧ unpackSession message = some session ∧
      t.request n fd message = t.doRequest n fd session) ∨
    (t.request n fd message = t ∧ t.sending (.request fd message) = none ∧
      t.reusing (.request fd message) = none) := by
  simp only [request, sending, reusing]
  cases hopen : t.connection fd with
  | false => exact .inr ⟨rfl, rfl, rfl⟩
  | true =>
    cases hsession : unpackSession message with
    | none => exact .inr ⟨rfl, rfl, rfl⟩
    | some session => exact .inl ⟨session, rfl, rfl, rfl⟩

/-- What a step can do. -/
theorem step_cases (hstep : t.step n a = some t') : t.CacheStep n a t' := by
  cases a with
  | auth index =>
    obtain rfl := some_inj.mp hstep
    unfold auth
    split_ifs
    · exact .idle t.version t.connection t.connectionN rfl rfl
    · exact .idle _ _ _ rfl rfl
  | disconnect fd =>
    obtain rfl := some_inj.mp hstep
    exact .idle t.version _ t.connectionN rfl rfl
  | request fd message =>
    obtain rfl := some_inj.mp hstep
    rcases request_cases (t := t) (n := n) fd message with
      ⟨session, hopen, hsession, heq⟩ | ⟨heq, hsending, hreusing⟩
    · rw [heq]
      exact step_request_cases hopen hsession
    · rw [heq]
      exact .idle t.version t.connection t.connectionN hsending hreusing
  | handlerEnd i ok result =>
    simp only [step] at hstep
    split_ifs at hstep with hrunning
    obtain rfl := some_inj.mp hstep
    unfold handlerEnd
    cases hpack : packResponse ok result (t.entry i).session with
    | none =>
      dsimp only
      rw [hpack]
      exact .stuck i ok result rfl hrunning hpack (by simp only [sending, hpack]; rfl) rfl
    | some response =>
      dsimp only
      rw [hpack]
      exact .respond i ok result response rfl hrunning hpack
        (by simp only [sending, hpack]; rfl) rfl

end Steps

/-! ### What every step keeps -/

theorem mem_sessions_retire (h : ∀ s, s ∈ t.sessions ↔ (t.response s).isSome = true) (s : ℕ) :
    s ∈ (t.retire n).sessions ↔ ((t.retire n).response s).isSome = true := by
  unfold retire
  split_ifs
  · exact h s
  · simp only [mem_filter, h s, and_iff_right_iff_imp]
    intro hsome
    obtain ⟨i, hi⟩ := isSome_iff_exists.mp hsome
    rw [(filter_eq_some_iff.mp hi).1]
    rfl

theorem cache_create (version : ν) : (create version).Cache where
  cached _ _ h := by cases h
  sessions s := iff_of_false (notMem_empty s) Bool.false_ne_true
  running _ h := by cases h

namespace Cache

variable (h : t.Cache)
include h

theorem setEntry {p : ResponseEntry ν} (hsession : p.session = (t.entry i).session)
    (hrunning : t.running i = true → p.response = none) : (t.setEntry i p).Cache where
  cached s j hj := by
    obtain ⟨hlt, hs⟩ := h.cached s j hj
    refine ⟨hlt, ?_⟩
    by_cases hji : j = i
    · rw [hji] at hs ⊢
      rw [setEntry_entry_self, hsession, hs]
    · rw [setEntry_entry_of_ne hji, hs]
  sessions := h.sessions
  running j hj := by
    obtain ⟨hlt, hnone⟩ := h.running j hj
    refine ⟨hlt, ?_⟩
    by_cases hji : j = i
    · rw [hji] at hj ⊢
      rw [setEntry_entry_self, hrunning hj]
    · rw [setEntry_entry_of_ne hji, hnone]

theorem finish : (t.finish n i).Cache := by
  obtain ⟨hsame, -, -⟩ := finish_same (t := t) (n := n) (i := i)
  refine ⟨fun s j hj => ?_, mem_sessions_retire h.sessions, fun j hj => ?_⟩
  · rw [hsame.entryN, hsame.entry_session]
    exact h.cached s j (hsame.response s j hj)
  · rw [hsame.running] at hj
    rw [hsame.entryN, hsame.entry_response]
    exact h.running j hj

theorem stop : (t.stop i).Cache where
  cached := h.cached
  sessions := h.sessions
  running j hj := by
    by_cases hji : j = i
    · rw [hji, stop_running_self] at hj
      cases hj
    · rw [stop_running_of_ne hji] at hj
      exact h.running j hj

theorem resend (fd i : ℕ) : (t.resend fd i).Cache :=
  h.setEntry rfl fun hrunning => (h.running i hrunning).2

theorem respond (i : ℕ) (response : LuaString) : ((t.stop i).respond i response).Cache := by
  refine h.stop.setEntry rfl fun hrunning => ?_
  rw [stop_running_self] at hrunning
  cases hrunning

theorem execute {fd s : ℕ} : (t.execute fd s).Cache := by
  refine ⟨fun s' i hi => ?_, fun s' => ?_, fun i hi => ?_⟩
  · by_cases hs : s' = s
    · rw [hs, execute_response_self] at hi
      rw [← some_inj.mp hi, execute_entry_self, hs]
      exact ⟨lt_succ_self _, rfl⟩
    · rw [execute_response_of_ne hs] at hi
      obtain ⟨hlt, hsession⟩ := h.cached s' i hi
      rw [execute_entry_of_ne hlt.ne]
      exact ⟨lt_succ_of_lt hlt, hsession⟩
  · show s' ∈ insert s t.sessions ↔ _
    rw [mem_insert, h.sessions]
    by_cases hs : s' = s
    · rw [hs, execute_response_self]
      exact iff_of_true (.inl rfl) rfl
    · rw [execute_response_of_ne hs]
      exact or_iff_right hs
  · by_cases hnew : i = t.entryN
    · rw [hnew, execute_entry_self]
      exact ⟨lt_succ_self _, rfl⟩
    · rw [execute_running_of_ne hnew] at hi
      rw [execute_entry_of_ne hnew]
      obtain ⟨hlt, hnone⟩ := h.running i hi
      exact ⟨lt_succ_of_lt hlt, hnone⟩

theorem dropResponse {s : ℕ} : (t.dropResponse s).Cache := by
  refine ⟨fun s' i hi => ?_, fun s' => ?_, h.running⟩
  · by_cases hs : s' = s
    · rw [hs, dropResponse_response_self] at hi
      cases hi
    · rw [dropResponse_response_of_ne hs] at hi
      exact h.cached s' i hi
  · show s' ∈ t.sessions.erase s ↔ _
    rw [mem_erase, h.sessions]
    by_cases hs : s' = s
    · rw [hs, dropResponse_response_self]
      exact iff_of_false (fun h => h.1 rfl) Bool.false_ne_true
    · rw [dropResponse_response_of_ne hs]
      exact and_iff_right hs

theorem step [LinearOrder ν] (hstep : t.CacheStep n a t') : t'.Cache := by
  cases hstep with
  | idle => exact ⟨h.cached, h.sessions, h.running⟩
  | execute | reuse => exact h.execute
  | conflict => exact h.dropResponse
  | wait fd s i => exact h.resend fd i
  | refresh fd s i => exact (h.resend fd i).finish
  | stuck => exact h.stop
  | respond i ok result response => exact (h.respond i response).finish

end Cache

/-! ### Requests without a response -/

namespace NoHalfDone

variable (h : t.NoHalfDone)
include h

theorem finish : (t.finish n i).NoHalfDone := by
  obtain ⟨hsame, -, -⟩ := finish_same (t := t) (n := n) (i := i)
  intro s j hj hnone
  rw [hsame.entry_response] at hnone
  rw [hsame.running]
  exact h s j (hsame.response s j hj) hnone

theorem execute {fd s : ℕ} : (t.execute fd s).NoHalfDone := by
  intro s' j hj hnone
  by_cases hnew : j = t.entryN
  · rw [hnew]
    exact execute_running_self
  · have hs : s' ≠ s := by
      intro hs
      rw [hs, execute_response_self] at hj
      exact hnew (some_inj.mp hj).symm
    rw [execute_response_of_ne hs] at hj
    rw [execute_entry_of_ne hnew] at hnone
    rw [execute_running_of_ne hnew]
    exact h s' j hj hnone

theorem resend (fd i : ℕ) : (t.resend fd i).NoHalfDone := by
  intro s j hj hnone
  refine h s j hj ?_
  by_cases hji : j = i
  · rw [hji, resend_entry_self] at hnone
    rw [hji]
    exact hnone
  · exact (congrArg ResponseEntry.response (setEntry_entry_of_ne hji)).symm.trans hnone

theorem respond (i : ℕ) (response : LuaString) : ((t.stop i).respond i response).NoHalfDone := by
  intro s j hj hnone
  by_cases hji : j = i
  · rw [hji, respond_entry_self] at hnone
    cases hnone
  · refine (stop_running_of_ne hji).trans (h s j hj ?_)
    exact (congrArg ResponseEntry.response (setEntry_entry_of_ne hji)).symm.trans hnone

theorem step [LinearOrder ν] (hcache : t.Cache) (hpacks : t.Packs a) (hstep : t.CacheStep n a t') :
    t'.NoHalfDone := by
  cases hstep with
  | idle => exact h
  | execute | reuse => exact h.execute
  | conflict s =>
    intro s' j hj hnone
    have hs : s' ≠ s := by
      intro hs
      rw [hs, dropResponse_response_self] at hj
      cases hj
    rw [dropResponse_response_of_ne hs] at hj
    exact h s' j hj hnone
  | wait fd s i => exact h.resend fd i
  | refresh fd s i => exact (h.resend fd i).finish
  | stuck i ok result ha hrunning hpack =>
    -- the entry is not in the cache
    subst ha
    obtain ⟨hok, hlong⟩ := packResponse_eq_none_iff.mp hpack
    intro s j hj hnone
    have hne : j ≠ i := by
      rintro rfl
      have hcached : t.Cached j := by
        rw [Cached, (hcache.cached s j hj).2]
        exact hj
      exact absurd (hpacks hcached hok) (Nat.not_le.mpr hlong)
    rw [stop_running_of_ne hne]
    exact h s j hj hnone
  | respond i ok result response => exact (h.respond i response).finish

end NoHalfDone

/-- A result that does not fit leaves its entry as it is, and its handler has returned. -/
theorem handlerEnd_of_not_packs {ok : Bool} {result : LuaString}
    (hpacks : ¬ t.Packs (.handlerEnd i ok result)) : t.handlerEnd n i ok result = t.stop i := by
  simp only [Packs, Classical.not_imp, Nat.not_le] at hpacks
  unfold handlerEnd
  dsimp only
  rw [packResponse_eq_none_iff.mpr hpacks.2]
  rfl

theorem not_noHalfDone_step [LinearOrder ν] (hcache : t.Cache) (hstep : t.step n a = some t')
    (hpacks : ¬ t.Packs a) : ¬ t'.NoHalfDone := by
  cases a with
  | auth | disconnect | request => exact absurd trivial hpacks
  | handlerEnd i ok result =>
    simp only [MsgUser.step] at hstep
    split_ifs at hstep with hrunning
    obtain rfl := some_inj.mp hstep
    rw [handlerEnd_of_not_packs hpacks]
    simp only [Packs, Classical.not_imp] at hpacks
    intro hdone
    have hstopped := hdone _ i hpacks.1 (hcache.running i hrunning).2
    rw [stop_running_self] at hstopped
    cases hstopped

/-- What becomes of a request: it is executed, it is answered from the cache, or the handler of an
earlier one is running, which will answer on this connection. (Where it was sent again on this
connection before, it is a conflict, and the running handler keeps its connection.) -/
def Handled (t t' : MsgUser ν) (fd session : ℕ) : Prop :=
  (t'.response session = some t.entryN ∧ t'.running t.entryN = true) ∨
  (∃ response, t'.sent = t.sent ++ [(fd, session, response)]) ∨
  ∃ i, t.response session = some i ∧ t'.running i = true ∧
    ((t'.entry i).fd = some fd ∨ (t.entry i).version = some t.version)

theorem NoHalfDone.handled [LinearOrder ν] {fd session : ℕ} {message : LuaString}
    (h : t.NoHalfDone) (hcache : t.Cache) (hopen : t.connection fd = true)
    (hsession : unpackSession message = some session) :
    Handled t (t.request n fd message) fd session := by
  unfold request
  rw [hopen, hsession]
  dsimp only
  unfold doRequest
  cases hcached : t.response session with
  | none => exact .inl ⟨execute_response_self, execute_running_self⟩
  | some i =>
    obtain ⟨-, hs⟩ := hcache.cached session i hcached
    dsimp only
    split_ifs with hversion
    · cases hresponse : (t.entry i).response with
      | none => exact .inr (.inr ⟨i, hcached, h session i hcached hresponse, .inr hversion⟩)
      | some response => exact .inl ⟨execute_response_self, execute_running_self⟩
    · cases hresponse : (t.entry i).response with
      | none =>
        have hrunning : (t.resend fd i).running i = true := h session i hcached hresponse
        exact .inr (.inr ⟨i, hcached, hrunning, .inl (by rw [resend_entry_self])⟩)
      | some response =>
        obtain ⟨-, -, hsent⟩ := finish_same (t := t.resend fd i) (n := n) (i := i)
        rw [resend_entry_self] at hsent
        have hsent' := hsent fd response rfl hresponse hopen
        rw [hs] at hsent'
        exact .inr (.inl ⟨response, hsent'⟩)

/-- The end of a handler answers on the connection of its entry. -/
theorem handlerEnd_sent {ok : Bool} {result response : LuaString} {fd : ℕ}
    (hfd : (t.entry i).fd = some fd) (hopen : t.connection fd = true)
    (hpack : packResponse ok result (t.entry i).session = some response) :
    (t.handlerEnd n i ok result).sent = t.sent ++ [(fd, (t.entry i).session, response)] := by
  have hend : t.handlerEnd n i ok result = ((t.stop i).respond i response).finish n i := by
    unfold handlerEnd
    dsimp only
    rw [hpack]
    rfl
  obtain ⟨-, -, hsent⟩ := finish_same (t := (t.stop i).respond i response) (n := n) (i := i)
  rw [respond_entry_self] at hsent
  rw [hend, hsent fd response hfd rfl hopen]
  rfl

/-- In a run in which the results of the handlers fit into a package: no request is half done, a
request on an open connection is executed or answered or its handler runs, and the end of a handler
sends the response. The next step keeps this if and only if its result fits. -/
theorem noHalfDone_iff_packs [LinearOrder ν] {version : ν} {w : List (MsgAction ν)}
    (h : Run (step n) Packs (create version) w t) :
    t.NoHalfDone ∧
    (∀ fd message session, t.connection fd = true → unpackSession message = some session →
      Handled t (t.request n fd message) fd session) ∧
    (∀ i ok result fd response, (t.entry i).fd = some fd → t.connection fd = true →
      packResponse ok result (t.entry i).session = some response →
      (t.handlerEnd n i ok result).sent = t.sent ++ [(fd, (t.entry i).session, response)]) ∧
    ∀ a t', t.step n a = some t' → (t'.NoHalfDone ↔ t.Packs a) := by
  obtain ⟨hcache, hdone⟩ : t.Cache ∧ t.NoHalfDone := by
    apply h.invariant (P := fun t => t.Cache ∧ t.NoHalfDone)
    · exact ⟨cache_create version, fun _ _ hcached => by cases hcached⟩
    · intro t a t' hpacks hstep hinv
      have hcases := step_cases hstep
      exact ⟨hinv.1.step hcases, hinv.2.step hinv.1 hpacks hcases⟩
  refine ⟨hdone, fun fd message session => hdone.handled hcache,
    fun i ok result fd response => handlerEnd_sent, fun a t' hstep =>
      ⟨fun hdone' => ?_, fun hpacks => hdone.step hcache hpacks (step_cases hstep)⟩⟩
  by_contra hpacks
  exact not_noHalfDone_step hcache hstep hpacks hdone'

/-- A request is executed, and its result is not longer than a package. -/
theorem noHalfDone_iff_packs_short :
    ∃ t, exec (guarded (step 1) Packs) (create 0) [.auth 1, .request 0 [7, 0, 0, 0, 5]] = some t ∧
      t.NoHalfDone ∧ ∀ t', t.step 1 (.handlerEnd 0 true [8, 9]) = some t' → t'.NoHalfDone := by
  obtain ⟨t, ht⟩ : ∃ t, exec (guarded (step 1) Packs) (create 0)
      [.auth 1, .request 0 [7, 0, 0, 0, 5]] = some t := ⟨_, rfl⟩
  obtain ⟨hdone, -, -, hnext⟩ := noHalfDone_iff_packs (run_of_exec_guarded ht)
  exact ⟨t, ht, hdone, fun t' hstep => (hnext _ t' hstep).mpr fun _ _ => by decide⟩

/-- A handler returns too long a result, and the client sends the request again on a later
connection: nothing runs and nothing is sent. -/
theorem half_done_of_long {long : LuaString} (hlong : 65530 < long.length) :
    ∃ t t' u, exec (step 128) (create 0) [.auth 1, .request 0 [7, 0, 0, 0, 5]] = some t ∧
      t.step 128 (.handlerEnd 0 true long) = some t' ∧ ¬ t'.NoHalfDone ∧
      exec (step 128) t' [.auth 2, .request 1 [7, 0, 0, 0, 5]] = some u ∧
      u.sent = [] ∧ u.running 0 = false ∧ u.entryN = 1 := by
  obtain ⟨t, u, ht, hcached, hnone, hrunning, hu, hsent, hstopped, hentryN⟩ : ∃ t u,
      exec (step 128) (create 0) [.auth 1, .request 0 [7, 0, 0, 0, 5]] = some t ∧
      t.response 5 = some 0 ∧ (t.entry 0).response = none ∧ t.running 0 = true ∧
      exec (step 128) (t.stop 0) [.auth 2, .request 1 [7, 0, 0, 0, 5]] = some u ∧
      u.sent = [] ∧ u.running 0 = false ∧ u.entryN = 1 :=
    ⟨_, _, rfl, rfl, rfl, rfl, rfl, rfl, rfl, rfl⟩
  have hpack : packResponse true long (t.entry 0).session = none :=
    packResponse_eq_none_iff.mpr ⟨rfl, hlong⟩
  have hstep : t.step 128 (.handlerEnd 0 true long) = some (t.stop 0) := by
    simp only [step, hrunning, if_true, handlerEnd, hpack]
    rfl
  refine ⟨t, t.stop 0, u, ht, hstep, fun hdone => ?_, hu, hsent, hstopped, hentryN⟩
  have hrunning' := hdone 5 0 hcached hnone
  rw [stop_running_self] at hrunning'
  cases hrunning'

theorem half_done_long :
    ∃ t t' u, exec (step 128) (create 0) [.auth 1, .request 0 [7, 0, 0, 0, 5]] = some t ∧
      t.step 128 (.handlerEnd 0 true (List.replicate 65531 0)) = some t' ∧ ¬ t'.NoHalfDone ∧
      exec (step 128) t' [.auth 2, .request 1 [7, 0, 0, 0, 5]] = some u ∧
      u.sent = [] ∧ u.running 0 = false ∧ u.entryN = 1 :=
  half_done_of_long (by rw [List.length_replicate]; exact Nat.lt_succ_self _)

end MsgUser

end Uboss.Framework
