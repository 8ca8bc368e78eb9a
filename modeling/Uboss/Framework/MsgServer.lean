import Mathlib.Order.Lattice.Nat
import Uboss.Lib.LuaValue
import Uboss.Math.LittleEndian
import Uboss.Math.Transition

/-!
# Requests of the clients of a message server

One user of `msgserver.lua`: the cache of its responses and its connections. A connection has the
number in which it was authenticated; the connections before it may still be open. What a client
asks for runs in a coroutine of its own, and can take any time.
-/

namespace Uboss.Framework

open Math Lib Function List Nat

/-- A table of `u.response`. The session and the connections on which the request was sent are not
in the table. -/
structure ResponseEntry (ν : Type*) where
  /-- `p[1]`, the connection to which the response goes. -/
  fd : Option ℕ
  /-- `p[2]`. -/
  response : Option LuaString
  /-- `p[3]`. -/
  version : Option ν
  /-- `p[4]`, which is nothing until the response is there or the request is sent again. -/
  index : ℕ
  session : ℕ
  senders : List ℕ

/-- A user of `user_online`. The tables of requests have numbers, for a coroutine keeps its own when
the cache has another one; each of them belongs to one call of `request_handler`. -/
structure MsgUser (ν : Type*) where
  version : ν
  index : ℕ
  response : ℕ → Option ℕ
  /-- The sessions in `response`. -/
  sessions : Finset ℕ
  entry : ℕ → ResponseEntry ν
  entryN : ℕ
  /-- `request_handler` was called for the entry and has not returned. -/
  running : ℕ → Bool
  /-- The connections in `connection`. -/
  connection : ℕ → Bool
  connectionN : ℕ
  /-- What was sent: the connection, the session and the response. -/
  sent : List (ℕ × ℕ × LuaString)

/-- What happens to one user. -/
inductive MsgAction (ν : Type*)
  /-- A connection is authenticated with an index. -/
  | auth (index : ν)
  | disconnect (fd : ℕ)
  | request (fd : ℕ) (message : LuaString)
  /-- `request_handler` returns a string, or raises. -/
  | handlerEnd (entry : ℕ) (ok : Bool) (result : LuaString)
  deriving DecidableEq

/-- The session of a message, its last four bytes. -/
def unpackSession (message : LuaString) : Option ℕ :=
  if message.length < 4 then none
  else some (leNat (message.drop (message.length - 4)).reverse)

/-- The package that answers a request. `string.pack(">s2", ...)` fails where the length does not
fit. -/
def packResponse (ok : Bool) (result : LuaString) (session : ℕ) : Option LuaString :=
  let body := (if ok then result ++ [1] else [0]) ++ (leBytes 4 session).reverse
  if body.length < 2 ^ 16 then some ((leBytes 2 body.length).reverse ++ body) else none

namespace MsgUser

variable {ν : Type*}

/-- `server.login`. -/
def create (version : ν) : MsgUser ν :=
  ⟨version, 0, fun _ => none, ∅, fun _ => ⟨none, none, none, 0, 0, []⟩, 0, fun _ => false,
    fun _ => false, 0, []⟩

variable (t : MsgUser ν)

def setEntry (i : ℕ) (p : ResponseEntry ν) : MsgUser ν := { t with entry := update t.entry i p }

/-- `u.response[session] = nil`. -/
def dropResponse (session : ℕ) : MsgUser ν :=
  { t with
    response := update t.response session none
    sessions := t.sessions.erase session }

/-- The request of an entry is complete, and so old that the entry is given up. -/
def IsRetired (expiredNumber : ℕ) (p : ResponseEntry ν) : Prop :=
  p.fd = none ∧ p.index < expiredNumber

instance (expiredNumber : ℕ) (p : ResponseEntry ν) : Decidable (IsRetired expiredNumber p) :=
  inferInstanceAs (Decidable (_ ∧ _))

/-- The entry of a session, while it is complete and young enough, as `retire_response` leaves
it. -/
def youngIndex (expiredNumber session : ℕ) : ℕ :=
  match t.response session with
  | some i => if (t.entry i).fd = none then (t.entry i).index - expiredNumber else 0
  | none => 0

/-- `retire_response`. -/
def retire (expiredNumber : ℕ) : MsgUser ν :=
  if t.index < expiredNumber * 2 then t
  else
    let response session := (t.response session).filter fun i =>
      ¬ IsRetired expiredNumber (t.entry i)
    { t with
      response
      sessions := t.sessions.filter fun session => (response session).isSome
      entry := fun i =>
        if (t.entry i).fd = none ∧ response (t.entry i).session = some i then
          { t.entry i with index := (t.entry i).index - expiredNumber }
        else t.entry i
      index := t.sessions.sup (t.youngIndex expiredNumber) + 1 }

/-- The end of `do_request`: the response is sent where the connection is still there. -/
def finish (expiredNumber i : ℕ) : MsgUser ν :=
  let sent :=
    match (t.entry i).fd, (t.entry i).response with
    | some fd, some response =>
      if t.connection fd then [(fd, (t.entry i).session, response)] else []
    | _, _ => []
  (({ t with index := t.index + 1, sent := t.sent ++ sent } : MsgUser ν).setEntry i
    { t.entry i with fd := none }).retire expiredNumber

/-- `request_handler` is called for a new entry. -/
def execute (fd session : ℕ) : MsgUser ν :=
  { t with
    response := update t.response session (some t.entryN)
    sessions := insert session t.sessions
    entry := update t.entry t.entryN ⟨some fd, none, none, 0, session, [fd]⟩
    entryN := t.entryN + 1
    running := update t.running t.entryN true }

/-- A request is sent again. -/
def resend (fd i : ℕ) : MsgUser ν :=
  t.setEntry i { t.entry i with
    fd := some fd
    version := some t.version
    index := t.index
    senders := (t.entry i).senders ++ [fd] }

variable [LinearOrder ν]

/-- `do_request` with a session, up to its end or to the call of `request_handler`. -/
def doRequest (expiredNumber fd session : ℕ) : MsgUser ν :=
  match t.response session with
  | none => t.execute fd session
  | some i =>
    if (t.entry i).version = some t.version then
      -- "session can be reuse in the same connection"
      match (t.entry i).response with
      | none => t.dropResponse session
      | some _ => t.execute fd session
    else
      match (t.entry i).response with
      | none => t.resend fd i
      | some _ => (t.resend fd i).finish expiredNumber i

/-- `request`. An unknown connection or a short message is an error, and so nothing happens. -/
def request (expiredNumber fd : ℕ) (message : LuaString) : MsgUser ν :=
  match t.connection fd, unpackSession message with
  | true, some session => t.doRequest expiredNumber fd session
  | _, _ => t

/-- `do_request` after the call of `request_handler`. -/
def handlerEnd (expiredNumber i : ℕ) (ok : Bool) (result : LuaString) : MsgUser ν :=
  let t : MsgUser ν := { t with running := update t.running i false }
  match packResponse ok result (t.entry i).session with
  | none => t
  | some response =>
    (t.setEntry i { t.entry i with
      response := some response
      version := some t.version
      index := t.index }).finish expiredNumber i

/-- `do_auth` for a signature that is right; `403 Index Expired` changes nothing. -/
def auth (index : ν) : MsgUser ν :=
  if index ≤ t.version then t
  else
    { t with
      version := index
      connection := update t.connection t.connectionN true
      connectionN := t.connectionN + 1 }

/-- One action, if it can happen. -/
def step (expiredNumber : ℕ) : MsgUser ν → MsgAction ν → Option (MsgUser ν)
  | t, .auth index => some (t.auth index)
  | t, .disconnect fd => some { t with connection := update t.connection fd false }
  | t, .request fd message => some (t.request expiredNumber fd message)
  | t, .handlerEnd i ok result =>
    if t.running i then some (t.handlerEnd expiredNumber i ok result) else none

/-- No connection that was authenticated after all of these is open. -/
def NoLater (fds : List ℕ) : Prop := ∀ c < t.connectionN, t.connection c = true → ∃ f ∈ fds, c ≤ f

/-- The last one of these connections that is open. -/
def latestOpen (fds : List ℕ) : Option ℕ := (fds.filter t.connection).getLast?

/-- When a request of the session is sent again, and when `request_handler` returns for it, no
connection is open that was authenticated after those on which it was sent. When it returns, the
last one of them is open, or none is. -/
def Timely (session : ℕ) : MsgAction ν → Prop
  | .request fd message =>
    unpackSession message = some session → ∀ i ∈ t.response session,
      t.NoLater (fd :: (t.entry i).senders)
  | .handlerEnd i _ _ =>
    (t.entry i).session = session → t.NoLater (t.entry i).senders ∧
        (t.latestOpen (t.entry i).senders = none ∨
          t.latestOpen (t.entry i).senders = (t.entry i).senders.getLast?)
  | _ => True

instance (fds : List ℕ) : Decidable (t.NoLater fds) :=
  inferInstanceAs (Decidable (∀ c < t.connectionN, _ → _))

instance (session : ℕ) : DecidablePred (t.Timely session)
  | .request _ _ => inferInstanceAs (Decidable (_ → ∀ i ∈ t.response session, _))
  | .handlerEnd _ _ _ => inferInstanceAs (Decidable (_ → _ ∧ (_ ∨ _)))
  | .auth _ | .disconnect _ => .isTrue trivial

/-- What the cache says about the requests of a session. -/
structure Inv (session : ℕ) : Prop where
  connected : ∀ c, t.connection c = true → c < t.connectionN
  cached : ∀ s i, t.response s = some i → i < t.entryN ∧ (t.entry i).session = s
  running : ∀ i, t.running i = true → i < t.entryN ∧ (t.entry i).response = none ∧
    (t.entry i).fd = (t.entry i).senders.getLast?
  version_le : ∀ i v, (t.entry i).version = some v → v ≤ t.version
  /-- Who has the version of the user, was sent on the latest open connection. -/
  current : ∀ i, i < t.entryN → (t.entry i).session = session →
    (t.entry i).version = some t.version → t.NoLater (t.entry i).senders

/-! ### What the end of a request leaves as it is -/

/-- The same user with perhaps fewer entries in the cache, and other ages. -/
structure SameButAge (t' : MsgUser ν) : Prop where
  version : t'.version = t.version
  entryN : t'.entryN = t.entryN
  running : t'.running = t.running
  connection : t'.connection = t.connection
  connectionN : t'.connectionN = t.connectionN
  entry_response : ∀ i, (t'.entry i).response = (t.entry i).response
  entry_version : ∀ i, (t'.entry i).version = (t.entry i).version
  entry_session : ∀ i, (t'.entry i).session = (t.entry i).session
  senders : ∀ i, (t'.entry i).senders = (t.entry i).senders
  response : ∀ s i, t'.response s = some i → t.response s = some i

variable {t} {n i : ℕ}

omit [LinearOrder ν] in
theorem retire_same :
    t.SameButAge (t.retire n) ∧ (∀ i, ((t.retire n).entry i).fd = (t.entry i).fd) ∧
      (t.retire n).sent = t.sent := by
  unfold retire
  split_ifs with hold
  · exact ⟨⟨rfl, rfl, rfl, rfl, rfl, fun _ => rfl, fun _ => rfl, fun _ => rfl, fun _ => rfl,
      fun _ _ h => h⟩, fun _ => rfl, rfl⟩
  · refine ⟨⟨rfl, rfl, rfl, rfl, rfl, fun i => ?_, fun i => ?_, fun i => ?_, fun i => ?_,
      fun s i h => (Option.filter_eq_some_iff.mp h).1⟩, fun i => ?_, rfl⟩
    all_goals
      dsimp only
      split_ifs <;> rfl

omit [LinearOrder ν] in
theorem finish_same :
    t.SameButAge (t.finish n i) ∧ (∀ j, j ≠ i → ((t.finish n i).entry j).fd = (t.entry j).fd) ∧
      ∀ fd response, (t.entry i).fd = some fd → (t.entry i).response = some response →
        t.connection fd = true →
          (t.finish n i).sent = t.sent ++ [(fd, (t.entry i).session, response)] := by
  unfold finish
  obtain ⟨h, hfd, hsent⟩ := retire_same (n := n) (t := ({ t with
    index := t.index + 1
    sent := t.sent ++
      match (t.entry i).fd, (t.entry i).response with
      | some fd, some response =>
        if t.connection fd then [(fd, (t.entry i).session, response)] else []
      | _, _ => [] } : MsgUser ν).setEntry i { t.entry i with fd := none })
  refine ⟨⟨h.version, h.entryN, h.running, h.connection, h.connectionN,
    fun j => (h.entry_response j).trans ?_, fun j => (h.entry_version j).trans ?_,
    fun j => (h.entry_session j).trans ?_, fun j => (h.senders j).trans ?_, h.response⟩,
    fun j hj => ?_, fun fd response hp hr hc => ?_⟩
  · by_cases hj : j = i <;> simp [setEntry, hj]
  · by_cases hj : j = i <;> simp [setEntry, hj]
  · by_cases hj : j = i <;> simp [setEntry, hj]
  · by_cases hj : j = i <;> simp [setEntry, hj]
  · exact (hfd j).trans (congrArg ResponseEntry.fd (update_of_ne hj _ _))
  · refine hsent.trans ?_
    dsimp only [setEntry]
    rw [hp, hr]
    dsimp only
    rw [if_pos hc]

namespace Inv

variable {session : ℕ}

theorem create (version : ν) : (create version).Inv session where
  connected _ h := by cases h
  cached _ _ h := by cases h
  running _ h := by cases h
  version_le _ _ h := by cases h
  current _ h := by cases h

variable (h : t.Inv session)
include h

/-- An entry that is not running gets older, is complete or given up. -/
theorem finish (hi : t.running i = false) : (t.finish n i).Inv session := by
  obtain ⟨hsame, hfd, -⟩ := finish_same (t := t) (n := n) (i := i)
  refine ⟨fun c hc => ?_, fun s j hj => ?_, fun j hj => ?_, fun j v hv => ?_,
    fun j hj hsession hv => ?_⟩
  · rw [hsame.connection] at hc
    rw [hsame.connectionN]
    exact h.connected c hc
  · rw [hsame.entryN, hsame.entry_session]
    exact h.cached s j (hsame.response s j hj)
  · rw [hsame.running] at hj
    have hne : j ≠ i := by
      rintro rfl
      rw [hi] at hj
      cases hj
    rw [hsame.entryN, hsame.entry_response, hsame.senders, hfd j hne]
    exact h.running j hj
  · rw [hsame.entry_version] at hv
    rw [hsame.version]
    exact h.version_le j v hv
  · rw [hsame.entryN] at hj
    rw [hsame.entry_session] at hsession
    rw [hsame.entry_version, hsame.version] at hv
    rw [hsame.senders]
    unfold NoLater
    rw [hsame.connection, hsame.connectionN]
    exact h.current j hj hsession hv

theorem auth {index : ν} : (t.auth index).Inv session := by
  unfold MsgUser.auth
  split_ifs with hle
  · exact h
  · have hlt : t.version < index := lt_of_not_ge hle
    refine ⟨fun c hc => ?_, h.cached, h.running, fun i v hv => ?_, fun i _ _ hv => ?_⟩
    · by_cases hcn : c = t.connectionN
      · subst hcn
        exact lt_succ_self _
      · exact lt_succ_of_lt (h.connected c ((update_of_ne hcn _ _).symm.trans hc))
    · exact (h.version_le i v hv).trans hlt.le
    · exact absurd (h.version_le i index hv) (not_le_of_gt hlt)

theorem disconnect {fd : ℕ} :
    ({ t with connection := update t.connection fd false } : MsgUser ν).Inv session := by
  have hopen : ∀ c, update t.connection fd false c = true → t.connection c = true := by
    intro c hc
    by_cases hcf : c = fd
    · rw [hcf, update_self] at hc
      cases hc
    · rwa [update_of_ne hcf] at hc
  exact ⟨fun c hc => h.connected c (hopen c hc), h.cached, h.running, h.version_le,
    fun i hi hs hv c hlt hc => h.current i hi hs hv c hlt (hopen c hc)⟩

theorem dropResponse {s : ℕ} : (t.dropResponse s).Inv session := by
  refine ⟨h.connected, fun s' i hi => ?_, h.running, h.version_le, h.current⟩
  by_cases hs : s' = s
  · rw [hs] at hi
    simp [MsgUser.dropResponse] at hi
  · exact h.cached s' i ((update_of_ne hs _ _).symm.trans hi)

theorem execute {fd s : ℕ} : (t.execute fd s).Inv session := by
  have hentry : ∀ i, i ≠ t.entryN → (t.execute fd s).entry i = t.entry i :=
    fun i hi => update_of_ne hi _ _
  have hself : (t.execute fd s).entry t.entryN = ⟨some fd, none, none, 0, s, [fd]⟩ := update_self ..
  refine ⟨h.connected, fun s' i hi => ?_, fun i hi => ?_, fun i v hv => ?_, fun i hi hs hv => ?_⟩
  · by_cases hs : s' = s
    · have hin : t.entryN = i := by
        rw [hs] at hi
        simpa [MsgUser.execute] using hi
      rw [← hin, hself, hs]
      exact ⟨lt_succ_self _, rfl⟩
    · obtain ⟨hlt, hsession⟩ := h.cached s' i ((update_of_ne hs _ _).symm.trans hi)
      rw [hentry i hlt.ne]
      exact ⟨lt_succ_of_lt hlt, hsession⟩
  · by_cases hin : i = t.entryN
    · rw [hin, hself]
      exact ⟨lt_succ_self _, rfl, rfl⟩
    · obtain ⟨hlt, hrest⟩ := h.running i ((update_of_ne hin _ _).symm.trans hi)
      rw [hentry i hin]
      exact ⟨lt_succ_of_lt hlt, hrest⟩
  · by_cases hin : i = t.entryN
    · rw [hin, hself] at hv
      cases hv
    · rw [hentry i hin] at hv
      exact h.version_le i v hv
  · have hin : i ≠ t.entryN := by
      rintro rfl
      rw [hself] at hv
      cases hv
    rw [hentry i hin] at hs hv ⊢
    have hlt : i < t.entryN := by
      have : i < t.entryN + 1 := hi
      omega
    exact h.current i hlt hs hv

/-- An entry gets the version of the user, and no later connection is open. -/
theorem stamp {i : ℕ} {p : ResponseEntry ν} (hversion : p.version = some t.version)
    (hsession : p.session = (t.entry i).session)
    (hrunning : t.running i = true → p.response = none ∧ p.fd = p.senders.getLast?)
    (hlater : p.session = session → t.NoLater p.senders) : (t.setEntry i p).Inv session := by
  have hentry : ∀ j, j ≠ i → (t.setEntry i p).entry j = t.entry j := fun j hj => update_of_ne hj _ _
  have hself : (t.setEntry i p).entry i = p := update_self ..
  refine ⟨h.connected, fun s j hj => ?_, fun j hj => ?_, fun j v hv => ?_, fun j hj hs hv => ?_⟩
  · obtain ⟨hlt, hs⟩ := h.cached s j hj
    refine ⟨hlt, ?_⟩
    by_cases hji : j = i
    · subst hji
      rw [hself, hsession]
      exact hs
    · rw [hentry j hji]
      exact hs
  · by_cases hji : j = i
    · subst hji
      rw [hself]
      exact ⟨(h.running j hj).1, hrunning hj⟩
    · rw [hentry j hji]
      exact h.running j hj
  · by_cases hji : j = i
    · subst hji
      rw [hself, hversion] at hv
      cases hv
      exact le_rfl
    · rw [hentry j hji] at hv
      exact h.version_le j v hv
  · by_cases hji : j = i
    · subst hji
      rw [hself] at hs ⊢
      exact hlater hs
    · rw [hentry j hji] at hs hv ⊢
      exact h.current j hj hs hv

theorem resend {fd i s : ℕ} (hcached : t.response s = some i)
    (hlater : s = session → t.NoLater (fd :: (t.entry i).senders)) :
    (t.resend fd i).Inv session := by
  refine h.stamp rfl rfl (fun hi => ⟨(h.running i hi).2.1, ?_⟩) fun hs c hc hopen => ?_
  · exact (getLast?_concat ..).symm
  · obtain ⟨f, hf, hle⟩ := hlater ((h.cached s i hcached).2.symm.trans hs) c hc hopen
    refine ⟨f, ?_, hle⟩
    rw [mem_append, mem_singleton]
    exact (mem_cons.mp hf).symm

theorem doRequest {fd s : ℕ}
    (hlater : s = session → ∀ i ∈ t.response s, t.NoLater (fd :: (t.entry i).senders)) :
    (t.doRequest n fd s).Inv session := by
  unfold MsgUser.doRequest
  cases hcached : t.response s with
  | none => exact h.execute
  | some i =>
    have hresend : (t.resend fd i).Inv session := h.resend hcached fun hs => hlater hs i hcached
    dsimp only
    split_ifs with hversion
    · cases hresponse : (t.entry i).response with
      | none => exact h.dropResponse
      | some response => exact h.execute
    · cases hresponse : (t.entry i).response with
      | none => exact hresend
      | some response =>
        refine hresend.finish ?_
        change t.running i = false
        cases hrun : t.running i with
        | false => rfl
        | true =>
          have hnone := (h.running i hrun).2.1
          rw [hresponse] at hnone
          cases hnone

theorem handlerEnd {i : ℕ} {ok : Bool} {result : LuaString}
    (hlater : (t.entry i).session = session → t.NoLater (t.entry i).senders) :
    (t.handlerEnd n i ok result).Inv session := by
  unfold MsgUser.handlerEnd
  have hstop : ({ t with running := update t.running i false } : MsgUser ν).Inv
      session := by
    refine ⟨h.connected, h.cached, fun j hj => h.running j ?_, h.version_le, h.current⟩
    by_cases hji : j = i
    · rw [hji] at hj
      simp at hj
    · exact (update_of_ne hji _ _).symm.trans hj
  cases hpack : packResponse ok result (t.entry i).session with
  | none =>
    dsimp only
    rw [hpack]
    exact hstop
  | some response =>
    dsimp only
    rw [hpack]
    refine (hstop.stamp (p := { t.entry i with
      response := some response, version := some t.version, index := t.index }) rfl rfl
      (fun hi => ?_) hlater).finish (update_self ..)
    simp at hi

/-- Every action keeps the entries of a user sound. -/
theorem step {a : MsgAction ν} {t' : MsgUser ν} (ha : t.Timely session a)
    (hstep : t.step n a = some t') : t'.Inv session := by
  cases a with
  | auth index =>
    cases hstep
    exact h.auth
  | disconnect fd =>
    cases hstep
    exact h.disconnect
  | request fd message =>
    cases hstep
    unfold MsgUser.request
    split
    · rename_i s _ hsession
      exact h.doRequest fun hs => by
        subst hs
        exact ha hsession
    · exact h
  | handlerEnd i ok result =>
    simp only [MsgUser.step] at hstep
    split_ifs at hstep
    cases hstep
    exact h.handlerEnd fun hs => (ha hs).1

end Inv

/-! ### Runs -/

theorem response_step {session : ℕ} {a : MsgAction ν} {t' : MsgUser ν} {response : LuaString}
    (h : t.Inv session) (hstep : t.step n a = some t') (hi : i < t.entryN)
    (hresponse : (t.entry i).response = some response) :
    (t'.entry i).response = some response := by
  have hset : ∀ (u : MsgUser ν) (j : ℕ) (p : ResponseEntry ν),
      (u.entry i).response = some response → (j = i → p.response = some response) →
        ((u.setEntry j p).entry i).response = some response := by
    intro u j p hu hp
    by_cases hij : i = j
    · subst hij
      have hself : (u.setEntry i p).entry i = p := update_self ..
      rw [hself]
      exact hp rfl
    · exact (congrArg ResponseEntry.response (update_of_ne hij _ _)).trans hu
  have hfinish : ∀ (u : MsgUser ν) (j : ℕ), (u.entry i).response = some response →
      ((u.finish n j).entry i).response = some response :=
    fun u j hu => (finish_same.1.entry_response i).trans hu
  cases a with
  | auth index =>
    cases hstep
    unfold auth
    split_ifs <;> exact hresponse
  | disconnect fd =>
    cases hstep
    exact hresponse
  | request fd message =>
    cases hstep
    unfold request
    split
    · rename_i s _ _
      have hexecute : ((t.execute fd s).entry i).response = some response :=
        (congrArg ResponseEntry.response (update_of_ne hi.ne _ _)).trans hresponse
      unfold doRequest
      split
      · exact hexecute
      · rename_i j _
        have hresend := hset t j { t.entry j with
          fd := some fd, version := some t.version, index := t.index
          senders := (t.entry j).senders ++ [fd] } hresponse fun hji => hji ▸ hresponse
        split_ifs
        · split
          · exact hresponse
          · exact hexecute
        · split
          · exact hresend
          · exact hfinish _ _ hresend
    · exact hresponse
  | handlerEnd j ok result =>
    simp only [step] at hstep
    split_ifs at hstep with hrun
    cases hstep
    unfold handlerEnd
    dsimp only
    split
    · exact hresponse
    · refine hfinish _ _ (hset _ _ _ hresponse fun hji => ?_)
      subst hji
      rw [(h.running j hrun).2.1] at hresponse
      cases hresponse

/-- In a run in which the requests of a session are timely: a request that is sent again on a later
connection, while its entry is in the cache, is not executed; when the response is there it is sent
on that connection. When `request_handler` returns, the response is sent on the last connection that
is open and on which the request was sent. And a response stays as it is. -/
theorem request_once {version : ν} {session : ℕ} {w : List (MsgAction ν)}
    (h : Run (step n) (Timely · session) (create version) w t) :
    (∀ fd message i t', unpackSession message = some session → t.connection fd = true →
      t.response session = some i → (∀ f ∈ (t.entry i).senders, f < fd) →
      t.step n (.request fd message) = some t' →
        t'.entryN = t.entryN ∧ ∀ response, (t.entry i).response = some response →
          t'.sent = t.sent ++ [(fd, session, response)]) ∧
    (∀ i ok result t' response fd, (t.entry i).session = session →
      t.Timely session (.handlerEnd i ok result) →
      t.step n (.handlerEnd i ok result) = some t' →
      packResponse ok result session = some response →
      t.latestOpen (t.entry i).senders = some fd → (t'.entry i).response = some response ∧
          t'.sent = t.sent ++ [(fd, session, response)]) ∧
    (∀ s i a t' response, t.response s = some i → (t.entry i).response = some response →
      t.step n a = some t' → (t'.entry i).response = some response) := by
  have hinv : t.Inv session := h.invariant (P := fun t => t.Inv session) (Inv.create version)
    fun hguard hstep hinv => hinv.step hguard hstep
  refine ⟨fun fd message i t' hsession hopen hcached hlater hstep => ?_,
    fun i ok result t' response fd hsession htimely hstep hpack hlatest => ?_,
    fun s i a t' response hcached hresponse hstep =>
      response_step hinv hstep (hinv.cached s i hcached).1 hresponse⟩
  · obtain ⟨hlt, hs⟩ := hinv.cached session i hcached
    -- The entry has another version: no connection as late as this one was open then.
    have hversion : (t.entry i).version ≠ some t.version := by
      intro hv
      obtain ⟨f, hf, hle⟩ := hinv.current i hlt hs hv fd (hinv.connected fd hopen) hopen
      have := hlater f hf
      omega
    cases hstep
    unfold request
    rw [hopen, hsession]
    dsimp only
    unfold doRequest
    rw [hcached]
    dsimp only
    rw [if_neg hversion]
    cases hresponse : (t.entry i).response with
    | none => exact ⟨rfl, fun _ heq => by cases heq⟩
    | some response =>
      obtain ⟨hsame, -, hsent⟩ := finish_same (t := t.resend fd i) (n := n) (i := i)
      have hself : (t.resend fd i).entry i = { t.entry i with
          fd := some fd, version := some t.version, index := t.index
          senders := (t.entry i).senders ++ [fd] } := Function.update_self ..
      refine ⟨hsame.entryN, fun response' heq => ?_⟩
      cases heq
      have hs' : ((t.resend fd i).entry i).session = session := by rw [hself]; exact hs
      rw [hs'] at hsent
      exact hsent fd response (by rw [hself]) (by rw [hself]; exact hresponse) hopen
  · simp only [step] at hstep
    split_ifs at hstep with hrun
    cases hstep
    obtain ⟨-, -, hfd⟩ := hinv.running i hrun
    have hlast : (t.entry i).senders.getLast? = some fd := by
      obtain hnone | heq := (htimely hsession).2
      · rw [hnone] at hlatest
        cases hlatest
      · rw [← heq, hlatest]
    have hopen : t.connection fd = true := List.of_mem_filter (List.mem_of_getLast? hlatest)
    have hpack' : packResponse ok result (t.entry i).session = some response := by
      rw [hsession]
      exact hpack
    unfold handlerEnd
    dsimp only
    rw [hpack']
    dsimp only
    generalize hu :
      (({ t with running := Function.update t.running i false } : MsgUser ν).setEntry i
      { t.entry i with
        response := some response, version := some t.version, index := t.index }) = u
    have hself : u.entry i = { t.entry i with
        response := some response, version := some t.version, index := t.index } := by
      rw [← hu]
      exact Function.update_self ..
    have hconnection : u.connection = t.connection := by rw [← hu]; rfl
    have hsentu : u.sent = t.sent := by rw [← hu]; rfl
    obtain ⟨hsame, -, hsent⟩ := finish_same (t := u) (n := n) (i := i)
    have hs' : (u.entry i).session = session := by rw [hself]; exact hsession
    rw [hs', hsentu, hconnection] at hsent
    refine ⟨?_, hsent fd response ?_ ?_ hopen⟩
    · rw [hsame.entry_response, hself]
    · rw [hself]
      exact hfd.trans hlast
    · rw [hself]

/-- A request is sent again on a second connection before its response is there. -/
def sentAgain : List (MsgAction ℕ) :=
  [.auth 1, .request 0 [7, 0, 0, 0, 1], .auth 2, .request 1 [7, 0, 0, 0, 1]]

theorem request_once_again :
    ∃ t t' response, exec (guarded (step 128) (Timely · 1)) (create 0) sentAgain = some t ∧
      t.step 128 (.handlerEnd 0 true [9]) = some t' ∧ t'.sent = [(1, 1, response)] ∧
      packResponse true [9] 1 = some response := by
  obtain ⟨t, ht, hsession, htimely, hlatest, hsent, hrun⟩ : ∃ t,
      exec (guarded (step 128) (Timely · 1)) (create 0) sentAgain = some t ∧
      (t.entry 0).session = 1 ∧ t.Timely 1 (.handlerEnd 0 true [9]) ∧
      t.latestOpen (t.entry 0).senders = some 1 ∧ t.sent = [] ∧ t.running 0 = true :=
    ⟨_, rfl, rfl, by decide, rfl, rfl, rfl⟩
  have hstep : t.step 128 (.handlerEnd 0 true [9]) = some (t.handlerEnd 128 0 true [9]) :=
    if_pos hrun
  refine ⟨t, _, _, ht, hstep, ?_, rfl⟩
  have honce := (request_once (run_of_exec_guarded ht)).2.1 0 true [9] _ _ 1 hsession htimely hstep
    rfl hlatest
  rw [honce.2, hsent]
  rfl

/-- The client connects again while its request is executed and the first connection closes. The
entry gets the new version, and the request that is sent again is executed again. -/
theorem request_twice : ∃ t t', exec (step 128) (create 0)
        [.auth 1, .request 0 [7, 0, 0, 0, 1], .auth 2, .disconnect 0, .handlerEnd 0 true [9]] =
          some t ∧
      t.response 1 = some 0 ∧ (t.entry 0).senders = [0] ∧ t.connection 1 = true ∧ t.sent = [] ∧
      t.step 128 (.request 1 [7, 0, 0, 0, 1]) = some t' ∧
      t.entryN = 1 ∧ t'.entryN = 2 ∧ (t'.entry 1).session = 1 ∧ t'.running 1 = true ∧
        t'.sent = [] :=
  ⟨_, _, rfl, rfl, rfl, rfl, rfl, rfl, rfl, rfl, rfl, rfl, rfl⟩

end MsgUser

end Uboss.Framework
