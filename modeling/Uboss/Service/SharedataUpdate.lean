import Uboss.Lib.LuaValue
import Uboss.Service.Sharedata

/-!
# An update that fails

`CMD.update` takes the old object of a name out of the pool before `CMD.new` makes the new one. What
`CMD.new` gets is a table, or a source that is loaded and run, and `sharedata.host.new` may still
reject the table that comes out. Lua and the host are parameters here, and the source that is run
does not wait; a source that waits is the action `created` of `Sharedata.step`.
-/

namespace Uboss.Service

open Math Lib Function Option List

/-- An entry of `pool_count`. -/
structure PoolCount where
  n : ℕ
  threshold : ℕ
  deriving DecidableEq, Repr

/-- The service. -/
structure Sharedatad (Name : Type) where
  data : Sharedata Name
  poolCount : Name → Option PoolCount

/-- The data of a request `new` or `update`, by its type. -/
inductive DataArg (Value : Type)
  | table (value : Value)
  | string (text : LuaString)
  | nil
  /-- A value of any other type, and the name of the type. -/
  | other (dt : String)
  deriving DecidableEq, Repr

/-- What `CMD.new` uses of Lua and of `sharedata.host`. -/
structure DataHost (Name Value Code Args : Type) where
  /-- `loadfile`. -/
  loadfile : LuaString → Except String Code
  /-- `load`, with the name of the chunk, `"=" .. name`. -/
  load : LuaString → Name → Except String Code
  /-- `uboss.pcall`: the environment that the function has filled, and the table it returns. -/
  pcall : Code → Args → Except String (Value × Option Value)
  /-- `{}`. -/
  empty : Value
  /-- `sharedata.host.new`: an address, or the value is rejected. -/
  new : Value → Except String ℕ

namespace Sharedatad

variable {Name Value Code Args : Type} (host : DataHost Name Value Code Args)

/-- The function that the text of a source gives. -/
def loadSource (text : LuaString) (name : Name) : Except String Code :=
  match text with
  | 64 :: path => host.loadfile path -- '@'
  | _ => host.load text name

/-- The table for `newobj`. -/
def construct (name : Name) (t : DataArg Value) (args : Args) : Except String Value :=
  match t with
  | .table value => .ok value
  | .string text => do
    let f ← loadSource host text name
    let (value, ret) ← host.pcall f args
    return ret.getD value
  | .nil => .ok host.empty
  | .other dt => .error ("Unknown data type " ++ dt)

variable [DecidableEq Name] (s : Sharedatad Name)

/-- What `CMD.update` does to the old object. -/
def drop (name : Name) (v : Data) : Sharedatad Name where
  data := s.data.drop name v
  poolCount := Function.update s.poolCount name none

def newobj (name : Name) (value : Value) : Sharedatad Name × Except String Unit :=
  match s.data.pool name, host.new value with
  | some _, _ => (s, .error "assertion failed!")
  | none, .error e => (s, .error e)
  | none, .ok obj =>
    ({ data := s.data.newobj name obj
       poolCount := Function.update s.poolCount name (some ⟨0, 16⟩) }, .ok ())

def cmdNew (name : Name) (t : DataArg Value) (args : Args) : Sharedatad Name × Except String Unit :=
  match construct host name t args with
  | .error e => (s, .error e)
  | .ok value => s.newobj host name value

/-- The end of `CMD.update`: the watchers get the new object. -/
def notify (name : Name) (watch : List ℕ) : Sharedatad Name :=
  { s with data := s.data.responses watch ((s.data.pool name).map Data.obj) }

def cmdUpdate (name : Name) (t : DataArg Value) (args : Args) :
    Sharedatad Name × Except String Unit :=
  match s.data.pool name with
  | none => s.cmdNew host name t args
  | some v =>
    match (s.drop name v).cmdNew host name t args with
    | (s', .error e) => (s', .error e)
    | (s', .ok _) => (s'.notify name v.watch, .ok ())

variable {host s}

/-- The name has its object and its watchers as before, and the object is the data of the name. -/
structure Unchanged (s s' : Sharedatad Name) (name : Name) (v : Data) : Prop where
  pool : s'.data.pool name = s.data.pool name
  poolCount : s'.poolCount name = s.poolCount name
  ref : s'.data.ref v.obj = s.data.ref v.obj
  objmap : s'.data.objmap v.obj = s.data.objmap v.obj

variable {name : Name} {v : Data} {t : DataArg Value} {args : Args} {e : String}

theorem cmdNew_of_error (h : (s.cmdNew host name t args).2 = .error e) :
    (s.cmdNew host name t args).1 = s := by
  unfold cmdNew at h ⊢
  cases hvalue : construct host name t args with
  | error _ => rfl
  | ok value =>
    rw [hvalue] at h
    dsimp only at h ⊢
    unfold newobj at h ⊢
    split at h
    · rfl
    · rfl
    · cases h

/-- What is left is the state in which the old object has been taken out. -/
theorem cmdUpdate_of_error (hv : s.data.pool name = some v)
    (h : (s.cmdUpdate host name t args).2 = .error e) :
    (s.cmdUpdate host name t args).1 = s.drop name v := by
  have hnew : ((s.drop name v).cmdNew host name t args).2 = .error e →
      ((s.drop name v).cmdNew host name t args).1 = s.drop name v := cmdNew_of_error
  unfold cmdUpdate at h ⊢
  rw [hv] at h ⊢
  dsimp only at h ⊢
  split at h
  next s' e' heq =>
    rw [heq] at hnew
    exact hnew h
  next => cases h

theorem pool_drop : (s.drop name v).data.pool name = none := update_self _ _ _

/-- In `Sharedata.step`, this is the update of the name and the error. -/
theorem step_of_error (hidle : s.data.doomed = none) (hv : s.data.pool name = some v)
    (h : (s.cmdUpdate host name t args).2 = .error e) :
    exec Sharedata.step s.data [.update name, .created s.data.creating.length none] =
      some (s.cmdUpdate host name t args).1.data := by
  rw [cmdUpdate_of_error hv h]
  have hupdate : s.data.step (.update name) =
      some { s.data.drop name v with creating := s.data.creating ++ [⟨name, some v⟩] } := by
    simp only [Sharedata.step, Sharedata.cmdUpdate, hidle, hv]
    rfl
  have hlast : (s.data.creating ++ [(⟨name, some v⟩ : Creating Name)])[s.data.creating.length]? =
      some ⟨name, some v⟩ := getElem?_concat_length
  have herase : (s.data.creating ++ [(⟨name, some v⟩ : Creating Name)]).eraseIdx
      s.data.creating.length = s.data.creating := by
    rw [eraseIdx_append_of_length_le (le_refl _), Nat.sub_self]
    exact append_nil _
  have hdoomed : (s.data.drop name v).doomed = none := hidle
  have hfailed : Sharedata.step
      { s.data.drop name v with creating := s.data.creating ++ [⟨name, some v⟩] }
      (.created s.data.creating.length none) = some (s.data.drop name v) := by
    simp only [Sharedata.step, hdoomed, hlast, herase]
    rw [← hdoomed]
    rfl
  rw [exec, hupdate, bind_some, exec, hfailed]
  rfl

/-- An update that fails never leaves the name as it was: the name is gone, and with it what its
queries and monitors need. -/
theorem changed_of_error (hv : s.data.pool name = some v)
    (h : (s.cmdUpdate host name t args).2 = .error e) :
    ¬ Unchanged s (s.cmdUpdate host name t args).1 name v := by
  rw [cmdUpdate_of_error hv h]
  intro hsame
  have hpool := hsame.pool
  rw [pool_drop, hv] at hpool
  cases hpool

/-- Lua and a host for which the text of a source is its own result, where it is not empty. -/
def echo : DataHost String LuaString LuaString Unit where
  loadfile path := .error (String.join ["cannot open ", toString path.length])
  load text _ := if text = [] then .error "unexpected symbol near <eof>" else .ok text
  pcall text _ := .ok (text, none)
  empty := []
  new value := if value.length < 8 then .ok value.length else .error "Unsupport value type"

/-- The name `conf` with the object 0, which is the data of no reply and of no client. -/
def created : Sharedatad String := ((⟨.start, fun _ => none⟩ : Sharedatad String).cmdNew echo "conf"
  (.nil : DataArg LuaString) ()).1

/-- A source that does not load, and a table that the host rejects. -/
theorem changed_of_error_created :
    ¬ Unchanged created (created.cmdUpdate echo "conf" (.string []) ()).1 "conf" ⟨0, []⟩ ∧
    ¬ Unchanged created
      (created.cmdUpdate echo "conf" (.table (List.replicate 9 0)) ()).1 "conf" ⟨0, []⟩ :=
  ⟨changed_of_error (e := "unexpected symbol near <eof>") rfl rfl,
    changed_of_error (e := "Unsupport value type") rfl rfl⟩

/-- An update with a number. -/
theorem update_number : created.data.pool "conf" = some ⟨0, []⟩ ∧ created.data.ref 0 = 1 ∧
      (created.cmdUpdate echo "conf" (.other "number") ()).2 = .error "Unknown data type number" ∧
      (created.cmdUpdate echo "conf" (.other "number") ()).1.data.ref 0 = 0 ∧
      ¬ Unchanged created
        (created.cmdUpdate echo "conf" (.other "number") ()).1 "conf" ⟨0, []⟩ := by
  refine ⟨rfl, rfl, rfl, rfl, fun hsame => ?_⟩
  have hpool : (none : Option Data) = some ⟨0, []⟩ := hsame.pool
  cases hpool

end Sharedatad

namespace Sharedata

variable {Name : Type} {s t : Sharedata Name} {name : Name}

/-- No object is made for the name. -/
def NotCreating (name : Name) (s : Sharedata Name) : SharedataAction Name → Prop
  | .created i (some _) => ∀ e ∈ s.creating[i]?, e.name ≠ name
  | _ => True

theorem pool_responses (watch : List ℕ) (obj : Option ℕ) :
    (s.responses watch obj).pool = s.pool := by
  unfold responses
  induction watch generalizing s with
  | nil => rfl
  | cons c watch ih =>
    rw [foldl_cons, ih]
    unfold response
    split <;> rfl

section Steps

variable [DecidableEq Name]

theorem pool_drop_none (name' : Name) (v : Data) (hpool : s.pool name = none) :
    (s.drop name' v).pool name = none := by
  show Function.update s.pool name' none name = none
  by_cases heq : name = name'
  · rw [heq, update_self]
  · rw [update_of_ne heq, hpool]

theorem pool_cmdCreated_none {e : Creating Name} (obj : ℕ) (hname : e.name ≠ name)
    (hpool : s.pool name = none) : (s.cmdCreated e obj).pool name = none := by
  have hnew : (s.newobj e.name obj).pool name = none := (update_of_ne hname.symm _ _).trans hpool
  unfold cmdCreated
  split
  · exact hnew
  · rw [pool_responses]
    exact hnew

theorem pool_cmdMonitor_none (c : ℕ) (name' : Name) (obj : ℕ) (hpool : s.pool name = none) :
    (s.cmdMonitor c name' obj).pool name = none := by
  unfold cmdMonitor
  split
  · exact hpool
  next v hv =>
    split_ifs
    · exact hpool
    · -- the name of the watcher has data
      have hne : name ≠ name' := by
        rintro rfl
        rw [hpool] at hv
        cases hv
      exact (update_of_ne hne _ _).trans hpool

theorem pool_none_of_step {a : SharedataAction Name} (hguard : NotCreating name s a)
    (hstep : s.step a = some t) (hpool : s.pool name = none) : t.pool name = none := by
  cases a with
  | update name' =>
    simp only [step] at hstep
    split_ifs at hstep
    obtain rfl := some_inj.mp hstep
    unfold cmdUpdate
    split
    next => exact hpool
    next v hv => exact pool_drop_none name' v hpool
  | created i obj =>
    simp only [step] at hstep
    split at hstep
    · obtain rfl := some_inj.mp hstep
      exact hpool
    next e obj _ he =>
      split_ifs at hstep
      obtain rfl := some_inj.mp hstep
      exact pool_cmdCreated_none _ (hguard e he) hpool
    · cases hstep
  | delete name' =>
    simp only [step] at hstep
    split at hstep
    · obtain rfl := some_inj.mp hstep
      rw [pool_responses]
      exact pool_drop_none _ _ hpool
    · cases hstep
  | monitor c =>
    simp only [step] at hstep
    split at hstep
    · obtain rfl := some_inj.mp hstep
      exact pool_cmdMonitor_none _ _ _ hpool
    · cases hstep
  | confirm i =>
    simp only [step] at hstep
    split at hstep
    · obtain rfl := some_inj.mp hstep
      unfold cmdConfirm
      split_ifs <;> exact hpool
    · cases hstep
  | receive c result =>
    simp only [step] at hstep
    split at hstep
    · obtain rfl := some_inj.mp hstep
      exact hpool
    · obtain rfl := some_inj.mp hstep
      cases result <;> exact hpool
    · cases hstep
  | answer c =>
    simp only [step] at hstep
    split at hstep
    · split at hstep <;> obtain rfl := some_inj.mp hstep <;> exact hpool
    · cases hstep
  | box c =>
    simp only [step] at hstep
    split at hstep
    · obtain rfl := some_inj.mp hstep
      exact hpool
    · cases hstep
  | new _ | query _ | release _ | collect _ =>
    simp only [step] at hstep
    try split_ifs at hstep
    all_goals
      obtain rfl := some_inj.mp hstep
      exact hpool
  | quit c =>
    obtain ⟨x, _, rfl⟩ := map_eq_some_iff.mp hstep
    exact hpool
  | free =>
    obtain ⟨obj, _, rfl⟩ := map_eq_some_iff.mp hstep
    exact hpool

theorem pool_none_of_update (hstep : s.step (.update name) = some t) : t.pool name = none := by
  simp only [step] at hstep
  split_ifs at hstep
  obtain rfl := some_inj.mp hstep
  unfold cmdUpdate
  split
  next hnone => exact hnone
  next v hv => exact update_self name none s.pool

/-- After an update that waits and then fails, the name is gone until another request makes data
for it. -/
theorem pool_none_of_run {u : Sharedata Name} {w : List (SharedataAction Name)}
    (hupdate : s.step (.update name) = some u) (hrun : Run step (NotCreating name) u w t) :
    t.pool name = none :=
  hrun.invariant (pool_none_of_update hupdate) fun hguard hstep hpool =>
    pool_none_of_step hguard hstep hpool

end Steps

end Sharedata

end Uboss.Service
