import Uboss.Math.PartialMap
import Uboss.Math.Transition
import Mathlib.Algebra.Order.Ring.Int
import Mathlib.Data.List.Perm.Basic

/-!
# Shared data and its clients

`sharedatad` owns the data objects and hands their addresses to clients in other threads. An
object has a count: the service has one reference as long as the object is the data of a name, a
reply to `query` carries one until the client confirms it, and a client takes one for each box. A
reply to `monitor` carries the address without any reference.

Here the addresses are numbers that may be used again after `sharedata.host.delete`. A client's
table moves between the objects it has boxed while the application reads it, and `__gc` runs when
the collector likes: a box is counted and may be released at any moment, and whether `conf.update`
finds a dirty object is left open.
-/

namespace Uboss.Service

open Math Function List Option

/-- One use of `sharedata.query`: the call, then the loop of `monitor`. -/
inductive Loop
  /-- The request `query` is on its way. -/
  | querying
  /-- The reply to it is on its way. -/
  | answered (obj : ℕ)
  /-- The request `monitor` is on its way, with the object that the loop knows. -/
  | asking (obj : ℕ)
  /-- The service has its response in a `watch` list. -/
  | watching
  /-- The reply to `monitor` is on its way. -/
  | notified (obj : Option ℕ)
  /-- An error has ended it, or there is no such data any more. -/
  | ended
  deriving DecidableEq, Repr

/-- A client and the name of its data. -/
structure DataClient (Name : Type) where
  name : Name
  loop : Loop
  deriving DecidableEq, Repr

/-- An entry of `pool`: the object, and the clients that wait for the next one. -/
structure Data where
  obj : ℕ
  watch : List ℕ
  deriving DecidableEq, Repr

/-- An entry of `objmap`: the table of a name, or `true` when the name has lost the object. -/
inductive ObjMark
  | value
  | dropped
  deriving DecidableEq, Repr

/-- `CMD.new` or `CMD.update` while the code that makes the data runs. `old` is what `CMD.update`
has taken out of the pool. -/
structure Creating (Name : Type) where
  name : Name
  old : Option Data
  deriving DecidableEq, Repr

/-- How the loop of a client goes on with the object that `monitor` has returned. -/
inductive UpdateResult
  /-- `core.box` and `core.update`. -/
  | updated
  /-- The assertion of `conf.update`: the object of the table is not dirty. -/
  | notDirty
  /-- The error of `lupdate`, after `core.box`: the table has this object already. -/
  | same
  deriving DecidableEq, Repr

/-- The service, its clients and what is between them. -/
structure Sharedata (Name : Type) where
  pool : Name → Option Data
  objmap : ℕ → Option ObjMark
  creating : List (Creating Name)
  /-- `collectobj` has found this object without references and is about to delete it. -/
  doomed : Option ℕ
  /-- The objects between `host.new` and `host.delete`, with their counts. -/
  allocated : ℕ → Bool
  ref : ℕ → ℤ
  clients : List (DataClient Name)
  /-- The boxes of an object, at all clients. -/
  boxes : ℕ → ℕ
  /-- The messages `confirm` that are on their way. -/
  confirms : List ℕ

/-- What happens next: in `sharedatad.lua`, or in a client. -/
inductive SharedataAction (Name : Type)
  /-- `CMD.new`, up to the code that makes the data. -/
  | new (name : Name)
  | update (name : Name)
  /-- The rest of `CMD.new` and `CMD.update`: an error, or an object at this address. -/
  | created (i : ℕ) (obj : Option ℕ)
  | delete (name : Name)
  /-- A client calls `sharedata.query`. -/
  | query (name : Name)
  /-- The service handles its request. -/
  | answer (c : ℕ)
  /-- The client has the reply. -/
  | box (c : ℕ)
  | confirm (i : ℕ)
  /-- The service handles a request `monitor`. -/
  | monitor (c : ℕ)
  /-- The client has the reply to `monitor`. -/
  | receive (c : ℕ) (result : UpdateResult)
  /-- `releaseobj`, for one box of the object. -/
  | release (obj : ℕ)
  /-- The client's service ends. -/
  | quit (c : ℕ)
  /-- `collectobj` comes to this object. -/
  | collect (obj : ℕ)
  /-- `sharedata.host.delete`. -/
  | free
  deriving DecidableEq, Repr

namespace Sharedata

variable {Name : Type}

/-- The service at its start. -/
def start : Sharedata Name where
  pool _ := none
  objmap _ := none
  creating := []
  doomed := none
  allocated _ := false
  ref _ := 0
  clients := []
  boxes _ := 0
  confirms := []

section Step

variable (s : Sharedata Name)

/-- `sharedata.host.incref`. -/
def incref (obj : ℕ) : Sharedata Name := { s with ref := Function.update s.ref obj (s.ref obj + 1) }

/-- `sharedata.host.decref`. -/
def decref (obj : ℕ) : Sharedata Name := { s with ref := Function.update s.ref obj (s.ref obj - 1) }

/-- A client goes on. -/
def setLoop (c : ℕ) (name : Name) (loop : Loop) : Sharedata Name :=
  { s with clients := s.clients.set c ⟨name, loop⟩ }

/-- One `response` of a `watch` list. -/
def response (obj : Option ℕ) (c : ℕ) : Sharedata Name :=
  match s.clients[c]? with
  | some ⟨name, .watching⟩ => s.setLoop c name (.notified obj)
  | _ => s

/-- The loop over a `watch` list. -/
def responses (watch : List ℕ) (obj : Option ℕ) : Sharedata Name :=
  watch.foldl (fun s c => s.response obj c) s

/-- `core.box`. -/
def boxconf (obj : ℕ) : Sharedata Name :=
  { s.incref obj with boxes := Function.update s.boxes obj (s.boxes obj + 1) }

/-- A client sends `confirm`. -/
def sendConfirm (obj : ℕ) : Sharedata Name := { s with confirms := s.confirms ++ [obj] }

/-- The service takes a message `confirm`. -/
def takeConfirm (i : ℕ) : Sharedata Name := { s with confirms := s.confirms.eraseIdx i }

/-- `releaseobj`, when a box is collected. -/
def releaseobj (obj : ℕ) : Sharedata Name :=
  { s.decref obj with boxes := Function.update s.boxes obj (s.boxes obj - 1) }

/-- `collectobj` takes an object out of `objmap`, before `sharedata.host.delete`. -/
def unmap (obj : ℕ) : Sharedata Name :=
  { s with objmap := Function.update s.objmap obj none, doomed := some obj }

/-- `sharedata.host.delete`. -/
def hostDelete (obj : ℕ) : Sharedata Name :=
  { s with allocated := Function.update s.allocated obj false, doomed := none }

def cmdConfirm (i obj : ℕ) : Sharedata Name :=
  if s.objmap obj = none then s.takeConfirm i else (s.takeConfirm i).decref obj

variable [DecidableEq Name]

/-- A name loses its object. -/
def drop (name : Name) (v : Data) : Sharedata Name :=
  { s.decref v.obj with
    objmap := Function.update s.objmap v.obj (some .dropped)
    pool := Function.update s.pool name none }

/-- `newobj`, where `host.new` returns this address. -/
def newobj (name : Name) (obj : ℕ) : Sharedata Name :=
  { s with
    allocated := Function.update s.allocated obj true
    ref := Function.update s.ref obj 1
    objmap := Function.update s.objmap obj (some .value)
    pool := Function.update s.pool name (some ⟨obj, []⟩) }

/-- `CMD.update`, up to `CMD.new`. -/
def cmdUpdate (name : Name) : Sharedata Name :=
  match s.pool name with
  | none => { s with creating := s.creating ++ [⟨name, none⟩] }
  | some v => { s.drop name v with creating := s.creating ++ [⟨name, some v⟩] }

/-- The rest of `CMD.update`. -/
def cmdCreated (e : Creating Name) (obj : ℕ) : Sharedata Name :=
  match e.old with
  | none => s.newobj e.name obj
  | some v => (s.newobj e.name obj).responses v.watch (some obj)

def cmdMonitor (c : ℕ) (name : Name) (obj : ℕ) : Sharedata Name :=
  match s.pool name with
  | none => s.setLoop c name .ended
  | some v =>
    if obj ≠ v.obj then s.setLoop c name (.notified (some v.obj))
    else
      { s.setLoop c name .watching with
        pool := Function.update s.pool name (some { v with watch := v.watch ++ [c] }) }

/-- The loop of a client with the new object. -/
def update (c : ℕ) (name : Name) (obj : ℕ) : UpdateResult → Sharedata Name
  | .updated => (s.boxconf obj).setLoop c name (.asking obj)
  | .notDirty => s.setLoop c name .ended
  | .same => (s.boxconf obj).setLoop c name .ended

/-- One step of the service or of a client. Between `getref` and `host.delete` the service does
nothing else. -/
def step (s : Sharedata Name) : SharedataAction Name → Option (Sharedata Name)
  | .new name =>
    if s.doomed = none then some { s with creating := s.creating ++ [⟨name, none⟩] } else none
  | .update name => if s.doomed = none then some (s.cmdUpdate name) else none
  | .created i obj =>
    match s.doomed, s.creating[i]?, obj with
    | none, some _, none => some { s with creating := s.creating.eraseIdx i }
    | none, some e, some obj =>
      if s.pool e.name = none ∧ s.allocated obj = false then
        some (cmdCreated { s with creating := s.creating.eraseIdx i } e obj)
      else none
    | _, _, _ => none
  | .delete name =>
    match s.doomed, s.pool name with
    | none, some v => some ((s.drop name v).responses v.watch none)
    | _, _ => none
  | .query name => some { s with clients := s.clients ++ [⟨name, .querying⟩] }
  | .answer c =>
    match s.doomed, s.clients[c]? with
    | none, some ⟨name, .querying⟩ =>
      match s.pool name with
      | none => some (s.setLoop c name .ended)
      | some v => some ((s.incref v.obj).setLoop c name (.answered v.obj))
    | _, _ => none
  | .box c =>
    match s.clients[c]? with
    | some ⟨name, .answered obj⟩ =>
      some (((s.boxconf obj).sendConfirm obj).setLoop c name (.asking obj))
    | _ => none
  | .confirm i =>
    match s.doomed, s.confirms[i]? with
    | none, some obj => some (s.cmdConfirm i obj)
    | _, _ => none
  | .monitor c =>
    match s.doomed, s.clients[c]? with
    | none, some ⟨name, .asking obj⟩ => some (s.cmdMonitor c name obj)
    | _, _ => none
  | .receive c result =>
    match s.clients[c]? with
    | some ⟨name, .notified none⟩ => some (s.setLoop c name .ended)
    | some ⟨name, .notified (some obj)⟩ => some (s.update c name obj result)
    | _ => none
  | .release obj =>
    if 0 < s.boxes obj then some (s.releaseobj obj) else none
  | .quit c => s.clients[c]?.map fun x => s.setLoop c x.name .ended
  | .collect obj =>
    if s.doomed = none ∧ s.objmap obj = some .dropped ∧ s.ref obj ≤ 0 then
      some (s.unmap obj)
    else none
  | .free => s.doomed.map s.hostDelete

end Step

section Holders

variable (s : Sharedata Name)

/-- The replies to `query` that carry the object. -/
def answers (obj : ℕ) : ℕ := s.clients.countP fun x => x.loop = .answered obj

/-- The references that the object is counted for. -/
def units (obj : ℕ) : ℕ :=
  (if s.objmap obj = some .value then 1 else 0) + s.answers obj + s.confirms.count obj + s.boxes obj

/-- A reply to `monitor` carries the object. -/
def Notifying (obj : ℕ) : Prop := ∃ x ∈ s.clients, x.loop = .notified (some obj)

/-- The address is in a reply on its way, or a client has boxed it. The object of a pending update
is boxed. -/
def Held (obj : ℕ) : Prop := 0 < s.answers obj ∨ s.Notifying obj ∨ 0 < s.boxes obj

/-- A pass comes to an object only after the replies to `monitor` that carry it. -/
def Received : SharedataAction Name → Prop
  | .collect obj => ¬ s.Notifying obj
  | _ => True

instance (obj : ℕ) : Decidable (s.Notifying obj) :=
  inferInstanceAs (Decidable (∃ x ∈ s.clients, _))

instance (obj : ℕ) : Decidable (s.Held obj) :=
  inferInstanceAs (Decidable (_ ∨ _ ∨ _))

instance : DecidablePred s.Received := fun a => by
  cases a <;> unfold Received <;> infer_instance

/-- What the service and its clients keep. -/
structure Inv : Prop where
  value : ∀ name v, s.pool name = some v → s.objmap v.obj = some .value
  unique : ∀ name name' v v', s.pool name = some v → s.pool name' = some v' → v.obj = v'.obj →
    name = name'
  counted : ∀ obj, s.objmap obj ≠ none → (s.units obj : ℤ) ≤ s.ref obj
  lost : ∀ obj, s.objmap obj = none → s.units obj = 0
  notified : ∀ obj, s.Notifying obj → s.objmap obj ≠ none
  allocated : ∀ obj, s.objmap obj ≠ none → s.allocated obj = true
  doomed : ∀ obj, s.doomed = some obj → s.objmap obj = none

end Holders

section Lemmas

variable {s t : Sharedata Name} {c obj : ℕ} {name : Name} {x : DataClient Name}

theorem countP_set_add {p : DataClient Name → Bool} {l : List (DataClient Name)}
    (h : l[c]? = some x) (y : DataClient Name) :
    (l.set c y).countP p + (if p x then 1 else 0) = l.countP p + if p y then 1 else 0 := by
  obtain ⟨hlt, rfl⟩ := List.getElem?_eq_some_iff.mp h
  have hbefore := (getElem_cons_eraseIdx_perm hlt).countP_eq p
  have hafter := (set_perm_cons_eraseIdx hlt y).countP_eq p
  rw [countP_cons] at hbefore hafter
  omega

theorem answers_setLoop (hx : s.clients[c]? = some x) (name : Name) (loop : Loop) (obj : ℕ) :
    (s.setLoop c name loop).answers obj + (if x.loop = .answered obj then 1 else 0) =
      s.answers obj + if loop = .answered obj then 1 else 0 := by
  have h := countP_set_add (p := fun x => x.loop = .answered obj) hx ⟨name, loop⟩
  simp only [decide_eq_true_eq] at h
  exact h

theorem units_setLoop (hx : s.clients[c]? = some x) (name : Name) (loop : Loop) (obj : ℕ) :
    (s.setLoop c name loop).units obj + (if x.loop = .answered obj then 1 else 0) =
      s.units obj + if loop = .answered obj then 1 else 0 := by
  have h := answers_setLoop hx name loop obj
  have hunits : (s.setLoop c name loop).units obj =
      (if s.objmap obj = some .value then 1 else 0) + (s.setLoop c name loop).answers obj +
        s.confirms.count obj + s.boxes obj := rfl
  rw [hunits, units]
  omega

theorem notifying_setLoop {loop : Loop} (h : (s.setLoop c name loop).Notifying obj) :
    loop = .notified (some obj) ∨ s.Notifying obj := by
  obtain ⟨y, hy, hloop⟩ := h
  rcases mem_or_eq_of_mem_set hy with hy | rfl
  · exact .inr ⟨y, hy, hloop⟩
  · exact .inl hloop

theorem ref_incref (s : Sharedata Name) (obj o : ℕ) :
    (s.incref obj).ref o = s.ref o + if o = obj then 1 else 0 := by
  show Function.update s.ref obj _ o = _
  by_cases h : o = obj
  · rw [h, update_self, if_pos rfl]
  · rw [update_of_ne h, if_neg h, add_zero]

theorem ref_decref (s : Sharedata Name) (obj o : ℕ) :
    (s.decref obj).ref o = s.ref o - if o = obj then 1 else 0 := by
  show Function.update s.ref obj _ o = _
  by_cases h : o = obj
  · rw [h, update_self, if_pos rfl]
  · rw [update_of_ne h, if_neg h, sub_zero]

theorem units_boxconf (o : ℕ) : (s.boxconf obj).units o = s.units o + if o = obj then 1 else 0 := by
  have hboxes : (s.boxconf obj).boxes o = s.boxes o + if o = obj then 1 else 0 := by
    show Function.update s.boxes obj _ o = _
    by_cases h : o = obj
    · rw [h, update_self, if_pos rfl]
    · rw [update_of_ne h, if_neg h, add_zero]
  unfold units
  rw [hboxes, ← add_assoc]
  rfl

theorem units_sendConfirm (o : ℕ) :
    (s.sendConfirm obj).units o = s.units o + if o = obj then 1 else 0 := by
  have hcount : (s.sendConfirm obj).confirms.count o =
      s.confirms.count o + if o = obj then 1 else 0 := by
    show (s.confirms ++ [obj]).count o = _
    rw [count_append, count_singleton]
    simp [eq_comm (a := obj)]
  unfold units
  rw [hcount, ← add_assoc, add_right_comm]
  rfl

namespace Inv

theorem mapped (h : s.Inv) (hheld : s.Held obj) : s.objmap obj ≠ none := by
  intro hmap
  have hzero := h.lost obj hmap
  unfold units at hzero
  rcases hheld with hanswer | hnotify | hbox
  · omega
  · exact h.notified obj hnotify hmap
  · omega

/-- A step that leaves the objects as they are, and counts what it hands out. -/
theorem balance (h : s.Inv) (t : Sharedata Name) (hmap : t.objmap = s.objmap)
    (halloc : t.allocated = s.allocated) (hdoomed : t.doomed = s.doomed)
    (hpool : ∀ name v, t.pool name = some v → ∃ v', s.pool name = some v' ∧ v'.obj = v.obj)
    (hunits : ∀ obj, s.objmap obj ≠ none → (t.units obj : ℤ) - t.ref obj ≤ s.units obj - s.ref obj)
    (hlost : ∀ obj, s.objmap obj = none → t.units obj ≤ s.units obj)
    (hnotified : ∀ obj, t.Notifying obj → s.objmap obj ≠ none) : t.Inv where
  value name v hv := by
    obtain ⟨v', hv', hobj⟩ := hpool name v hv
    rw [hmap, ← hobj]
    exact h.value name v' hv'
  unique name name' v w hv hw hobj := by
    obtain ⟨v', hv', hobj'⟩ := hpool name v hv
    obtain ⟨w', hw', hobj''⟩ := hpool name' w hw
    exact h.unique name name' v' w' hv' hw' (by omega)
  counted obj hobj := by
    rw [hmap] at hobj
    have := h.counted obj hobj
    have := hunits obj hobj
    omega
  lost obj hobj := by
    rw [hmap] at hobj
    have := h.lost obj hobj
    have := hlost obj hobj
    omega
  notified obj hobj := hmap ▸ hnotified obj hobj
  allocated obj hobj := by
    rw [halloc]
    exact h.allocated obj (hmap ▸ hobj)
  doomed obj hobj := by
    rw [hmap]
    exact h.doomed obj (hdoomed ▸ hobj)

theorem start : (start : Sharedata Name).Inv where
  value _ _ hv := by cases hv
  unique _ _ _ _ hv := by cases hv
  counted _ hobj := absurd rfl hobj
  lost _ _ := rfl
  notified _ hobj := by
    obtain ⟨_, hx, -⟩ := hobj
    cases hx
  allocated _ hobj := absurd rfl hobj
  doomed _ hobj := by cases hobj

section

variable (h : s.Inv)
include h

theorem setLoop (hx : s.clients[c]? = some x) {loop : Loop}
    (hanswered : ∀ obj, loop ≠ .answered obj)
    (hnotified : ∀ obj, loop = .notified (some obj) → s.objmap obj ≠ none) :
    (s.setLoop c name loop).Inv := by
  have hunits : ∀ obj, (s.setLoop c name loop).units obj ≤ s.units obj := by
    intro obj
    have := units_setLoop hx name loop obj
    rw [if_neg (hanswered obj)] at this
    omega
  apply h.balance (s.setLoop c name loop) rfl rfl rfl
  · exact fun name v hv => ⟨v, hv, rfl⟩
  · intro obj _
    have := hunits obj
    show ((s.setLoop c name loop).units obj : ℤ) - s.ref obj ≤ _
    omega
  · exact fun obj _ => hunits obj
  · intro obj hobj
    exact (notifying_setLoop hobj).elim (hnotified obj) (h.notified obj)

section

variable {new : Option ℕ} (hnew : ∀ obj, new = some obj → s.objmap obj ≠ none)
include hnew

/-- The reply to a `monitor` that waits carries the new object of the name. -/
theorem response (c : ℕ) : (s.response new c).Inv := by
  unfold Sharedata.response
  split
  · rename_i hx
    apply h.setLoop hx
    · simp
    · rintro obj ⟨rfl⟩
      exact hnew obj rfl
  · exact h

theorem responses (watch : List ℕ) : (s.responses watch new).Inv := by
  induction watch generalizing s with
  | nil => exact h
  | cons c watch ih =>
    have hmap : (s.response new c).objmap = s.objmap := by
      unfold Sharedata.response
      split <;> rfl
    exact ih (h.response hnew c) (hmap ▸ hnew)

end

theorem boxconf (hobj : s.objmap obj ≠ none) : (s.boxconf obj).Inv := by
  apply h.balance (s.boxconf obj) rfl rfl rfl
  · exact fun name v hv => ⟨v, hv, rfl⟩
  · intro o _
    have href : (s.boxconf obj).ref o = s.ref o + if o = obj then 1 else 0 := ref_incref s _ o
    rw [units_boxconf, href]
    split <;> omega
  · intro o ho
    have hne : o ≠ obj := by
      rintro rfl
      exact hobj ho
    rw [units_boxconf, if_neg hne]
    exact le_refl _
  · exact h.notified

theorem answer {v : Data} (hv : s.pool name = some v)
    (hx : s.clients[c]? = some ⟨name, .querying⟩) :
    ((s.incref v.obj).setLoop c name (.answered v.obj)).Inv := by
  have hunits : ∀ o, ((s.incref v.obj).setLoop c name (.answered v.obj)).units o =
      s.units o + if o = v.obj then 1 else 0 := by
    intro o
    have hset := units_setLoop (s := s.incref v.obj) hx name (.answered v.obj) o
    simp only [reduceCtorEq, if_false, Loop.answered.injEq, add_zero] at hset
    simp only [hset, eq_comm (a := v.obj)]
    rfl
  apply h.balance ((s.incref v.obj).setLoop c name (.answered v.obj)) rfl rfl rfl
  · exact fun name v hv => ⟨v, hv, rfl⟩
  · intro o _
    have href : ((s.incref v.obj).setLoop c name (.answered v.obj)).ref o =
      s.ref o + if o = v.obj then 1 else 0 := ref_incref s _ o
    rw [hunits, href]
    split <;> omega
  · intro o ho
    have hne : o ≠ v.obj := by
      rintro rfl
      rw [h.value name v hv] at ho
      cases ho
    rw [hunits, if_neg hne]
    exact le_refl _
  · intro o ho
    exact h.notified o ((notifying_setLoop ho).resolve_left (by simp))

theorem box (hx : s.clients[c]? = some ⟨name, .answered obj⟩) :
    (((s.boxconf obj).sendConfirm obj).setLoop c name (.asking obj)).Inv := by
  have hanswer : 0 < s.answers obj := countP_pos_iff.mpr ⟨_, mem_of_getElem? hx, decide_eq_true rfl⟩
  have hmapped := h.mapped (.inl hanswer)
  have hunits : ∀ o, (((s.boxconf obj).sendConfirm obj).setLoop c name (.asking obj)).units o =
      s.units o + if o = obj then 1 else 0 := by
    intro o
    have hset := units_setLoop (s := (s.boxconf obj).sendConfirm obj) hx name (.asking obj) o
    rw [units_sendConfirm, units_boxconf] at hset
    simp only [reduceCtorEq, if_false, Loop.answered.injEq, eq_comm (a := obj)] at hset
    omega
  apply h.balance (((s.boxconf obj).sendConfirm obj).setLoop c name (.asking obj)) rfl rfl rfl
  · exact fun name v hv => ⟨v, hv, rfl⟩
  · intro o _
    have href : (((s.boxconf obj).sendConfirm obj).setLoop c name (.asking obj)).ref o =
      s.ref o + if o = obj then 1 else 0 := ref_incref s _ o
    rw [hunits, href]
    split <;> omega
  · intro o ho
    have hne : o ≠ obj := by
      rintro rfl
      exact hmapped ho
    rw [hunits, if_neg hne]
    exact le_refl _
  · intro o ho
    exact h.notified o ((notifying_setLoop ho).resolve_left (by simp))

/-- `CMD.confirm` gives up the reference that the message stands for. -/
theorem confirm {i : ℕ} (hi : s.confirms[i]? = some obj) : (s.cmdConfirm i obj).Inv := by
  obtain ⟨hlt, hget⟩ := List.getElem?_eq_some_iff.mp hi
  have hcount : ∀ o, (s.confirms.eraseIdx i).count o + (if o = obj then 1 else 0) =
      s.confirms.count o := by
    intro o
    have hperm := (getElem_cons_eraseIdx_perm hlt).count_eq o
    rw [hget, count_cons] at hperm
    simp only [beq_iff_eq, eq_comm (a := obj)] at hperm
    exact hperm
  have hunits : ∀ o, (s.takeConfirm i).units o + (if o = obj then 1 else 0) = s.units o := by
    intro o
    have hparts : (s.takeConfirm i).units o = (if s.objmap o = some .value then 1 else 0) +
        s.answers o + (s.confirms.eraseIdx i).count o + s.boxes o := rfl
    have := hcount o
    rw [hparts, units]
    omega
  have hobj : s.objmap obj ≠ none := by
    intro hnone
    have hzero := h.lost obj hnone
    have hone := hunits obj
    rw [if_pos rfl] at hone
    omega
  unfold cmdConfirm
  rw [if_neg hobj]
  apply h.balance ((s.takeConfirm i).decref obj) rfl rfl rfl
  · exact fun name v hv => ⟨v, hv, rfl⟩
  · intro o _
    have href := ref_decref (s.takeConfirm i) obj o
    have hunit : (((s.takeConfirm i).decref obj).units o : ℤ) + (if o = obj then 1 else 0) =
        s.units o := mod_cast hunits o
    rw [href]
    show _ - (s.ref o - _) ≤ _
    omega
  · exact fun o _ => Nat.le.intro (hunits o)
  · exact h.notified

theorem release (hpos : 0 < s.boxes obj) : (s.releaseobj obj).Inv := by
  have hboxes : ∀ o, (s.releaseobj obj).boxes o + (if o = obj then 1 else 0) = s.boxes o := by
    intro o
    show Function.update s.boxes obj (s.boxes obj - 1) o + _ = _
    by_cases heq : o = obj
    · rw [heq, update_self, if_pos rfl]
      omega
    · rw [update_of_ne heq, if_neg heq, add_zero]
  have hunits : ∀ o, (s.releaseobj obj).units o + (if o = obj then 1 else 0) = s.units o := by
    intro o
    have hparts : (s.releaseobj obj).units o = (if s.objmap o = some .value then 1 else 0) +
        s.answers o + s.confirms.count o + (s.releaseobj obj).boxes o := rfl
    have := hboxes o
    rw [hparts, units]
    omega
  apply h.balance (s.releaseobj obj) rfl rfl rfl
  · exact fun name v hv => ⟨v, hv, rfl⟩
  · intro o _
    have href : (s.releaseobj obj).ref o = s.ref o - if o = obj then 1 else 0 := ref_decref s obj o
    have hunit : ((s.releaseobj obj).units o : ℤ) + (if o = obj then 1 else 0) = s.units o :=
      mod_cast hunits o
    rw [href]
    omega
  · exact fun o _ => Nat.le.intro (hunits o)
  · exact h.notified

end

variable [DecidableEq Name]

theorem drop (h : s.Inv) {v : Data} (hv : s.pool name = some v) : (s.drop name v).Inv := by
  have hvalue := h.value name v hv
  have hobjmap : (s.drop name v).objmap = Function.update s.objmap v.obj (some .dropped) := rfl
  have href : (s.drop name v).ref = Function.update s.ref v.obj (s.ref v.obj - 1) := rfl
  have hpool : ∀ name' v', (s.drop name v).pool name' = some v' →
      name' ≠ name ∧ s.pool name' = some v' := by
    intro name' v' hv'
    exact update_none_eq_some_iff.mp hv'
  have hself : (s.drop name v).units v.obj + 1 = s.units v.obj := by
    unfold units
    rw [hobjmap, update_self, if_neg (by simp), if_pos hvalue]
    show 0 + s.answers v.obj + s.confirms.count v.obj + s.boxes v.obj + 1 = _
    omega
  have hother : ∀ obj, obj ≠ v.obj → (s.drop name v).units obj = s.units obj := by
    intro obj hne
    unfold units
    rw [hobjmap, update_of_ne hne]
    rfl
  have hmapped : ∀ obj, (s.drop name v).objmap obj = none ↔ s.objmap obj = none := by
    intro obj
    rw [hobjmap]
    by_cases hobj : obj = v.obj
    · subst hobj
      simp [hvalue]
    · rw [update_of_ne hobj]
  constructor
  · intro name' v' hv'
    obtain ⟨hne, hv'⟩ := hpool name' v' hv'
    have hobj : v'.obj ≠ v.obj := fun hobj => hne (h.unique name' name v' v hv' hv hobj)
    rw [hobjmap, update_of_ne hobj]
    exact h.value name' v' hv'
  · intro name₁ name₂ v₁ v₂ hv₁ hv₂
    exact h.unique name₁ name₂ v₁ v₂ (hpool name₁ v₁ hv₁).2 (hpool name₂ v₂ hv₂).2
  · intro obj hobj
    have hcount := h.counted obj (mt (hmapped obj).mpr hobj)
    by_cases heq : obj = v.obj
    · subst heq
      rw [href, update_self]
      omega
    · rw [href, update_of_ne heq, hother obj heq]
      exact hcount
  · intro obj hobj
    have hne : obj ≠ v.obj := by
      rintro rfl
      rw [(hmapped _).mp hobj] at hvalue
      cases hvalue
    rw [hother obj hne]
    exact h.lost obj ((hmapped obj).mp hobj)
  · exact fun obj hobj => mt (hmapped obj).mp (h.notified obj hobj)
  · exact fun obj hobj => h.allocated obj (mt (hmapped obj).mpr hobj)
  · exact fun obj hobj => (hmapped obj).mpr (h.doomed obj hobj)

/-- A new object has the reference of its name and no other one. -/
theorem newobj (h : s.Inv) (name : Name) (hidle : s.doomed = none)
    (hfresh : s.allocated obj = false) :
    (s.newobj name obj).Inv := by
  have hunmapped : s.objmap obj = none := by
    by_contra hobj
    rw [h.allocated obj hobj] at hfresh
    cases hfresh
  have hobjmap : (s.newobj name obj).objmap = Function.update s.objmap obj (some .value) := rfl
  have hpool : ∀ name' v', (s.newobj name obj).pool name' = some v' →
      name' = name ∧ v'.obj = obj ∨ name' ≠ name ∧ s.pool name' = some v' ∧ v'.obj ≠ obj := by
    intro name' v' hv'
    rcases update_some_eq_some_iff.mp hv' with ⟨hname', rfl⟩ | ⟨hne, hv⟩
    · exact .inl ⟨hname', rfl⟩
    · refine .inr ⟨hne, hv, ?_⟩
      rintro rfl
      rw [h.value name' v' hv] at hunmapped
      cases hunmapped
  have hself : (s.newobj name obj).units obj = 1 := by
    have hzero := h.lost obj hunmapped
    unfold units at hzero ⊢
    rw [hobjmap, update_self, if_pos rfl]
    show 1 + s.answers obj + s.confirms.count obj + s.boxes obj = 1
    omega
  have hother : ∀ o, o ≠ obj → (s.newobj name obj).units o = s.units o := by
    intro o hne
    unfold units
    rw [hobjmap, update_of_ne hne]
    rfl
  constructor
  · intro name' v' hv'
    rw [hobjmap]
    rcases hpool name' v' hv' with ⟨-, hobj⟩ | ⟨-, hv, hobj⟩
    · rw [hobj, update_self]
    · rw [update_of_ne hobj]
      exact h.value name' v' hv
  · intro name₁ name₂ v₁ v₂ hv₁ hv₂ hobj
    rcases hpool name₁ v₁ hv₁ with ⟨rfl, hobj₁⟩ | ⟨-, hv₁, hobj₁⟩
    · rcases hpool name₂ v₂ hv₂ with ⟨rfl, -⟩ | ⟨-, -, hobj₂⟩
      · rfl
      · exact absurd (hobj ▸ hobj₁) hobj₂
    · rcases hpool name₂ v₂ hv₂ with ⟨-, hobj₂⟩ | ⟨-, hv₂, -⟩
      · exact absurd (hobj.trans hobj₂) hobj₁
      · exact h.unique name₁ name₂ v₁ v₂ hv₁ hv₂ hobj
  · intro o ho
    show _ ≤ Function.update s.ref obj 1 o
    by_cases heq : o = obj
    · subst heq
      rw [hself, update_self]
      exact le_refl _
    · rw [update_of_ne heq, hother o heq]
      rw [hobjmap, update_of_ne heq] at ho
      exact h.counted o ho
  · intro o ho
    have heq : o ≠ obj := by
      rintro rfl
      rw [hobjmap, update_self] at ho
      cases ho
    rw [hobjmap, update_of_ne heq] at ho
    rw [hother o heq]
    exact h.lost o ho
  · intro o ho hnone
    have heq : o ≠ obj := by
      rintro rfl
      exact h.notified o ho hunmapped
    rw [hobjmap, update_of_ne heq] at hnone
    exact h.notified o ho hnone
  · intro o ho
    show Function.update s.allocated obj true o = true
    by_cases heq : o = obj
    · rw [heq, update_self]
    · rw [hobjmap, update_of_ne heq] at ho
      rw [update_of_ne heq]
      exact h.allocated o ho
  · intro o (ho : s.doomed = some o)
    rw [hidle] at ho
    cases ho

/-- `CMD.monitor` answers with the object of the name. -/
theorem monitor (h : s.Inv) (hx : s.clients[c]? = some ⟨name, .asking obj⟩) :
    (s.cmdMonitor c name obj).Inv := by
  unfold cmdMonitor
  split
  · exact h.setLoop hx (by simp) (by simp)
  · rename_i v hv
    split
    · apply h.setLoop hx (by simp)
      rintro o ⟨rfl⟩
      rw [h.value name v hv]
      exact some_ne_none _
    · -- the response joins the list of the entry, whose object stays
      have hwatch : (s.setLoop c name .watching).Inv := h.setLoop hx (by simp) (by simp)
      refine hwatch.balance _ rfl rfl rfl ?_ ?_ ?_ ?_
      · intro name' v' hv'
        rcases update_some_eq_some_iff.mp hv' with ⟨rfl, rfl⟩ | ⟨-, hv'⟩
        · exact ⟨v, hv, rfl⟩
        · exact ⟨v', hv', rfl⟩
      · exact fun o _ => le_refl _
      · exact fun o _ => le_refl _
      · exact hwatch.notified

omit [DecidableEq Name] in
/-- The loop of a client boxes what the reply carries. -/
theorem update (h : s.Inv) (hx : s.clients[c]? = some ⟨name, .notified (some obj)⟩)
    (result : UpdateResult) : (s.update c name obj result).Inv := by
  have hbox := h.boxconf (h.mapped (.inr (.inl ⟨_, mem_of_getElem? hx, rfl⟩)))
  cases result with
  | updated => exact hbox.setLoop (x := ⟨name, .notified (some obj)⟩) hx (by simp) (by simp)
  | notDirty => exact h.setLoop hx (by simp) (by simp)
  | same => exact hbox.setLoop (x := ⟨name, .notified (some obj)⟩) hx (by simp) (by simp)

omit [DecidableEq Name] in
/-- A pass takes a dropped object out of `objmap` when nobody is counted for it. -/
theorem collect (h : s.Inv) (hmark : s.objmap obj = some .dropped)
    (href : s.ref obj ≤ 0) (hreceived : ¬ s.Notifying obj) :
    (s.unmap obj).Inv := by
  have hvalue : ∀ name v, s.pool name = some v → v.obj ≠ obj := by
    rintro name v hv rfl
    rw [h.value name v hv] at hmark
    cases hmark
  have hzero : s.units obj = 0 := by
    have := h.counted obj (by rw [hmark]; exact some_ne_none _)
    omega
  have hunits : ∀ o, (s.unmap obj).units o = s.units o := by
    intro o
    unfold units
    show (if Function.update s.objmap obj none o = some .value then 1 else 0) + _ + _ + _ = _
    by_cases heq : o = obj
    · rw [heq, update_self, hmark]
      rfl
    · rw [update_of_ne heq]
      rfl
  have hmap : ∀ o, Function.update s.objmap obj none o ≠ none → o ≠ obj ∧ s.objmap o ≠ none := by
    intro o ho
    by_cases heq : o = obj
    · rw [heq, update_self] at ho
      exact absurd rfl ho
    · rw [update_of_ne heq] at ho
      exact ⟨heq, ho⟩
  constructor
  · intro name v hv
    exact (update_of_ne (hvalue name v hv) ..).trans (h.value name v hv)
  · exact h.unique
  · intro o ho
    rw [hunits]
    exact h.counted o (hmap o ho).2
  · intro o ho
    rw [hunits]
    by_cases heq : o = obj
    · rw [heq, hzero]
    · exact h.lost o ((update_of_ne heq ..).symm.trans ho)
  · intro o ho
    have hne : o ≠ obj := by
      rintro rfl
      exact hreceived ho
    exact fun hnone => h.notified o ho ((update_of_ne hne ..).symm.trans hnone)
  · exact fun o ho => h.allocated o (hmap o ho).2
  · rintro o ⟨rfl⟩
    exact update_self ..

omit [DecidableEq Name] in
theorem free (h : s.Inv) (hdoomed : s.doomed = some obj) :
    (s.hostDelete obj).Inv where
  value := h.value
  unique := h.unique
  counted := h.counted
  lost := h.lost
  notified := h.notified
  allocated o ho := by
    have hne : o ≠ obj := by
      rintro rfl
      exact ho (h.doomed o hdoomed)
    exact (update_of_ne hne ..).trans (h.allocated o ho)
  doomed _ ho := by cases ho

/-- Every step that does not overtake a reply to `monitor`. -/
theorem step (h : s.Inv) {a : SharedataAction Name} (hguard : s.Received a)
    (hstep : s.step a = some t) : t.Inv := by
  cases a with
  | new name =>
    simp only [Sharedata.step] at hstep
    split at hstep <;> cases hstep
    exact ⟨h.value, h.unique, h.counted, h.lost, h.notified, h.allocated, h.doomed⟩
  | update name =>
    simp only [Sharedata.step] at hstep
    split at hstep <;> cases hstep
    unfold cmdUpdate
    split
    · exact ⟨h.value, h.unique, h.counted, h.lost, h.notified, h.allocated, h.doomed⟩
    · rename_i v hv
      have hdrop := h.drop hv
      exact ⟨hdrop.value, hdrop.unique, hdrop.counted, hdrop.lost, hdrop.notified,
        hdrop.allocated, hdrop.doomed⟩
  | created i obj =>
    simp only [Sharedata.step] at hstep
    split at hstep
    · cases hstep
      exact ⟨h.value, h.unique, h.counted, h.lost, h.notified, h.allocated, h.doomed⟩
    · rename_i e obj hidle _
      split at hstep <;> cases hstep
      rename_i hfree
      have hrest : Inv { s with creating := s.creating.eraseIdx i } :=
        ⟨h.value, h.unique, h.counted, h.lost, h.notified, h.allocated, h.doomed⟩
      have hnew := hrest.newobj e.name hidle hfree.2
      unfold cmdCreated
      split
      · exact hnew
      · apply hnew.responses
        rintro o ⟨rfl⟩ hnone
        exact absurd ((update_self ..).symm.trans hnone) (some_ne_none _)
    · cases hstep
  | delete name =>
    simp only [Sharedata.step] at hstep
    split at hstep <;> cases hstep
    rename_i hv
    exact (h.drop hv).responses (by simp) _
  | query name =>
    cases hstep
    have hanswers : ∀ o, answers { s with clients := s.clients ++ [⟨name, .querying⟩] } o =
        s.answers o := by
      intro o
      simp [answers, countP_append]
    have hunits : ∀ o, units { s with clients := s.clients ++ [⟨name, .querying⟩] } o =
        s.units o := by
      intro o
      unfold units
      rw [hanswers]
    apply h.balance { s with clients := s.clients ++ [⟨name, .querying⟩] } rfl rfl rfl
    · exact fun name v hv => ⟨v, hv, rfl⟩
    · exact fun o _ => (congrArg (fun n : ℕ => (n : ℤ) - s.ref o) (hunits o)).le
    · exact fun o _ => (hunits o).le
    · rintro o ⟨x, hx, hloop⟩
      rcases mem_append.mp hx with hx | hx
      · exact h.notified o ⟨x, hx, hloop⟩
      · rw [mem_singleton.mp hx] at hloop
        cases hloop
  | answer c =>
    simp only [Sharedata.step] at hstep
    split at hstep
    · rename_i hx
      split at hstep <;> cases hstep
      · exact h.setLoop hx (by simp) (by simp)
      · rename_i hv
        exact h.answer hv hx
    · cases hstep
  | box c =>
    simp only [Sharedata.step] at hstep
    split at hstep <;> cases hstep
    rename_i hx
    exact h.box hx
  | confirm i =>
    simp only [Sharedata.step] at hstep
    split at hstep <;> cases hstep
    rename_i hi
    exact h.confirm hi
  | monitor c =>
    simp only [Sharedata.step] at hstep
    split at hstep <;> cases hstep
    rename_i hx
    exact h.monitor hx
  | receive c result =>
    simp only [Sharedata.step] at hstep
    split at hstep <;> cases hstep
    · rename_i hx
      exact h.setLoop hx (by simp) (by simp)
    · rename_i hx
      exact h.update hx result
  | release obj =>
    simp only [Sharedata.step] at hstep
    split at hstep <;> cases hstep
    rename_i hpos
    exact h.release hpos
  | quit c =>
    obtain ⟨x, hx, rfl⟩ := map_eq_some_iff.mp hstep
    exact h.setLoop hx (by simp) (by simp)
  | collect obj =>
    simp only [Sharedata.step] at hstep
    split at hstep <;> cases hstep
    rename_i hpass
    exact h.collect hpass.2.1 hpass.2.2 hguard
  | free =>
    obtain ⟨obj, hdoomed, rfl⟩ := map_eq_some_iff.mp hstep
    exact h.free hdoomed

end Inv

end Lemmas

section Runs

variable [DecidableEq Name] {s t : Sharedata Name} {obj : ℕ}

/-- In a run in which every pass comes to an object only after the replies to `monitor` that carry
it: what `sharedata.host.delete` is applied to next is in no reply, and no client has boxed it. -/
theorem delete_unheld {w : List (SharedataAction Name)} (hrun : Run step Received start w s)
    (hdelete : s.doomed = some obj) : ¬ s.Held obj := by
  have hinv : s.Inv := hrun.invariant .start fun hguard hstep hinv => hinv.step hguard hstep
  exact fun hheld => hinv.mapped hheld (hinv.doomed obj hdelete)

/-- A client has received an update and has lost its old box: the old object goes. -/
theorem delete_unheld_updated : ∃ s, exec (guarded step Received) (start : Sharedata ℕ)
        [.new 7, .created 0 (some 0), .query 7, .answer 0, .box 0, .confirm 0, .monitor 0,
          .update 7, .created 0 (some 1), .receive 0 .updated, .release 0, .collect 0] = some s ∧
      s.doomed = some 0 ∧ s.boxes 1 = 1 ∧ ¬ s.Held 0 := by
  obtain ⟨s, hs, hdoomed, hbox⟩ : ∃ s, exec (guarded step Received) (start : Sharedata ℕ)
      [.new 7, .created 0 (some 0), .query 7, .answer 0, .box 0, .confirm 0, .monitor 0,
        .update 7, .created 0 (some 1), .receive 0 .updated, .release 0, .collect 0] = some s ∧
      s.doomed = some 0 ∧ s.boxes 1 = 1 := ⟨_, rfl, rfl, rfl⟩
  exact ⟨s, hs, hdoomed, hbox, delete_unheld (run_of_exec_guarded hs) hdoomed⟩

/-- A pass that overtakes a reply to `monitor` deletes the object that the reply carries. -/
theorem delete_held (hstep : s.step (.collect obj) = some t) (hpass : ¬ s.Received (.collect obj)) :
    t.doomed = some obj ∧ t.Held obj := by
  simp only [step] at hstep
  split at hstep <;> cases hstep
  exact ⟨rfl, .inr (.inl (not_not.mp hpass))⟩

/-- Two updates follow each other; the reply to the first one is not received when a pass finds
that object without references. -/
theorem delete_in_flight : ∃ s, exec step (start : Sharedata ℕ)
        [.new 7, .created 0 (some 0), .query 7, .answer 0, .box 0, .confirm 0, .monitor 0,
          .update 7, .created 0 (some 1), .update 7, .created 0 (some 2), .collect 1] = some s ∧
      s.doomed = some 1 ∧ s.clients = [⟨7, .notified (some 1)⟩] ∧ s.Held 1 :=
  ⟨_, rfl, rfl, rfl, .inr (.inl ⟨_, List.mem_singleton_self _, rfl⟩)⟩

end Runs

end Sharedata

end Uboss.Service
