import Mathlib.Data.List.Nodup
import Uboss.Lib.LuaValue
import Uboss.Math.Transition

/-!
# The manager of unique services

`service_mgr.lua`. Every request runs in a coroutine of its own, named by a number. It is suspended
in the function that launches the service, or in `uboss.wait`; a coroutine that was woken up goes on
some time later.
-/

namespace Uboss.Service

open Math Lib Function List

/-- What a call to the manager of the master asks for. -/
inductive RemoteCommand
  | launch
  | query
  deriving DecidableEq

/-- The function that `request` calls. -/
inductive LaunchFunc
  /-- `snax.rawnewservice`. -/
  | rawnewservice
  /-- `uboss.newservice`. -/
  | newservice
  /-- `uboss.call` to `SERVICE`. -/
  | call (command : RemoteCommand)
  deriving DecidableEq

/-- How the function ends. -/
inductive LaunchResult
  | number (handle : ℕ)
  | nil
  | raised (message : LuaString)
  deriving DecidableEq

/-- An entry of the table `service`. -/
inductive ServiceEntry
  /-- The coroutines that wait, and the field `launch`. -/
  | table (waiters : List ℕ) (launch : Bool)
  | number (handle : ℕ)
  | error (message : LuaString)
  deriving DecidableEq

/-- What the caller gets: a handle or `nil`, or `nil` and a message. -/
inductive ServiceAnswer
  | ret (handle : Option ℕ)
  | error (message : LuaString)
  /-- The assertion that the entry is a number fails. -/
  | assertion
  /-- A command fails before it looks at the table. -/
  | invalid
  deriving DecidableEq

/-- The commands of `service_mgr.lua`. -/
inductive ServiceCommand
  | LAUNCH
  | QUERY
  | GLAUNCH
  | GQUERY
  deriving DecidableEq

/-- A request. The arguments after the second one are passed on only. -/
structure ServiceRequest where
  command : ServiceCommand
  name : LuaString
  subname : Option LuaString
  deriving DecidableEq

/-- `read_name`: without a leading `@`. -/
def readName : LuaString → LuaString
  | 64 :: name => name
  | name => name

/-- The bytes of `snaxd`. -/
def snaxd : LuaString := [115, 110, 97, 120, 100]

/-- `name.."."..subname`, which needs the second string. -/
def snaxName (name : LuaString) (subname : Option LuaString) : Option LuaString :=
  subname.map fun sub => name ++ 46 :: sub

/-- `cmd.LAUNCH` and `cmd.QUERY`, up to `waitfor`. -/
def resolveLocal (launch : Bool) (name : LuaString) (subname : Option LuaString) :
    Option (LuaString × Option LaunchFunc) :=
  if readName name = snaxd then
    (snaxName name subname).map (·, if launch then some .rawnewservice else none)
  else some (name, if launch then some .newservice else none)

/-- `waitfor_remote`, up to `waitfor`. -/
def resolveRemote (command : RemoteCommand) (name : LuaString) (subname : Option LuaString) :
    Option (LuaString × Option LaunchFunc) :=
  if name = snaxd then (snaxName (64 :: name) subname).map (·, some (.call command))
  else some (64 :: name, some (.call command))

/-- The arguments of `waitfor`. The master handles global names itself. -/
def ServiceRequest.resolve (isMaster : Bool) (r : ServiceRequest) :
    Option (LuaString × Option LaunchFunc) :=
  match r.command, isMaster with
  | .LAUNCH, _ => resolveLocal true r.name r.subname
  | .QUERY, _ => resolveLocal false r.name r.subname
  | .GLAUNCH, true => resolveLocal true (64 :: r.name) r.subname
  | .GQUERY, true => resolveLocal false (64 :: r.name) r.subname
  | .GLAUNCH, false => resolveRemote .launch r.name r.subname
  | .GQUERY, false => resolveRemote .query r.name r.subname

/-- Where a coroutine is suspended. -/
inductive ServiceStage
  | launching (func : LaunchFunc)
  | waiting
  /-- `uboss.wakeup` was called for it. -/
  | woken
  deriving DecidableEq

/-- What a coroutine handles. -/
structure ServiceTask where
  command : ServiceCommand
  name : LuaString
  stage : ServiceStage
  deriving DecidableEq

/-- The variables of `service_mgr.lua`. The answers have the number and the name of the request. -/
structure ServiceMgr where
  isMaster : Bool
  service : LuaString → Option ServiceEntry
  tasks : ℕ → Option ServiceTask
  next : ℕ
  answers : List (ℕ × LuaString × ServiceAnswer)

/-- What happens next in the manager. -/
inductive ServiceAction
  | request (r : ServiceRequest)
  /-- The function that a coroutine has called ends. -/
  | launchEnd (co : ℕ) (result : LaunchResult)
  /-- A coroutine that was woken up goes on. -/
  | resume (co : ℕ)
  deriving DecidableEq

namespace ServiceMgr

def create (isMaster : Bool) : ServiceMgr := ⟨isMaster, fun _ => none, fun _ => none, 0, []⟩

variable (t : ServiceMgr)

/-- A coroutine is at its end. -/
def answer (co : ℕ) (name : LuaString) (a : ServiceAnswer) : ServiceMgr :=
  { t with
    tasks := Function.update t.tasks co none
    answers := t.answers ++ [(co, name, a)] }

/-- A coroutine is suspended, with a new entry for its name. -/
def suspend (co : ℕ) (task : ServiceTask) (entry : ServiceEntry) : ServiceMgr :=
  { t with
    service := Function.update t.service task.name (some entry)
    tasks := Function.update t.tasks co (some task) }

/-- `waitfor`, from `if not s.launch and func then` on: the coroutine launches, or it waits. -/
def join (co : ℕ) (command : ServiceCommand) (name : LuaString) (func : Option LaunchFunc)
    (waiters : List ℕ) (launch : Bool) : ServiceMgr :=
  match launch, func with
  | false, some f => t.suspend co ⟨command, name, .launching f⟩ (.table waiters true)
  | _, _ => t.suspend co ⟨command, name, .waiting⟩ (.table (waiters ++ [co]) launch)

/-- `waitfor`, up to its end or to where it is suspended. -/
def waitfor (co : ℕ) (command : ServiceCommand) (name : LuaString) (func : Option LaunchFunc) :
    ServiceMgr :=
  match t.service name with
  | some (.number handle) => t.answer co name (.ret (some handle))
  | some (.error message) => t.answer co name (.error message)
  | none => t.join co command name func [] false
  | some (.table waiters launch) => t.join co command name func waiters launch

/-- `uboss.wakeup`, where the coroutine is in `uboss.wait`. -/
def wakeTask : Option ServiceTask → Option ServiceTask
  | some ⟨command, name, .waiting⟩ => some ⟨command, name, .woken⟩
  | task => task

/-- The coroutines are woken up. -/
def wakeup (waiters : List ℕ) : ServiceMgr :=
  { t with tasks := fun co => if co ∈ waiters then wakeTask (t.tasks co) else t.tasks co }

/-- The entry that the result of a launch leaves. -/
def LaunchResult.entry : LaunchResult → Option ServiceEntry
  | .number handle => some (.number handle)
  | .nil => none
  | .raised message => some (.error message)

/-- What the request that launched is answered with. -/
def LaunchResult.answer : LaunchResult → ServiceAnswer
  | .number handle => .ret (some handle)
  | .nil => .ret none
  | .raised message => .error message

/-- `request`, after the function has ended. -/
def requestEnd (co : ℕ) (name : LuaString) (result : LaunchResult) : ServiceMgr :=
  match t.service name with
  | some (.table waiters _) =>
    (({ t with service := Function.update t.service name (LaunchResult.entry result) } :
      ServiceMgr).wakeup waiters).answer co name (LaunchResult.answer result)
  | _ => t.answer co name .assertion

/-- `waitfor`, after `uboss.wait`. -/
def waitEnd (co : ℕ) (name : LuaString) : ServiceMgr := t.answer co name
    (match t.service name with
    | some (.error message) => .error message
    | some (.number handle) => .ret (some handle)
    | _ => .assertion)

/-- One action, if it can happen. -/
def step : ServiceAction → Option ServiceMgr
  | .request r =>
    some (match r.resolve t.isMaster with
    | none => ({ t with next := t.next + 1 } : ServiceMgr).answer t.next r.name .invalid
    | some (name, func) =>
      ({ t with next := t.next + 1 } : ServiceMgr).waitfor t.next r.command name func)
  | .launchEnd co result =>
    match t.tasks co with
    | some ⟨_, name, .launching _⟩ => some (t.requestEnd co name result)
    | _ => none
  | .resume co =>
    match t.tasks co with
    | some ⟨_, name, .woken⟩ => some (t.waitEnd co name)
    | _ => none

/-! ### Who launches and who waits -/

/-- The coroutine is launching the service. -/
def IsLaunching (name : LuaString) (co : ℕ) : Prop :=
  ∃ command func, t.tasks co = some ⟨command, name, .launching func⟩

/-- The coroutine is in `uboss.wait`, and nobody has woken it up. -/
def IsWaiting (name : LuaString) (co : ℕ) : Prop :=
  ∃ command, t.tasks co = some ⟨command, name, .waiting⟩

/-- The coroutine was woken up, and has not gone on. -/
def IsWoken (name : LuaString) (co : ℕ) : Prop :=
  ∃ command, t.tasks co = some ⟨command, name, .woken⟩

/-- What an entry says about the coroutines of its name. -/
def Agrees (name : LuaString) : Option ServiceEntry → Prop
  | some (.table waiters launch) =>
    (∀ co, co ∈ waiters ↔ t.IsWaiting name co) ∧ (launch = true ↔ ∃ co, t.IsLaunching name co) ∧
      ∀ co co', t.IsLaunching name co → t.IsLaunching name co' → co = co'
  | _ => ∀ co, ¬ t.IsWaiting name co ∧ ¬ t.IsLaunching name co

/-- What holds of the tasks and of the table of services. -/
structure Inv : Prop where
  agrees : ∀ name, t.Agrees name (t.service name)
  fresh : ∀ co, t.tasks co ≠ none → co < t.next
  answered : ∀ co name handle, (co, name, .ret (some handle)) ∈ t.answers →
    t.service name = some (.number handle)

variable {t}

theorem agrees_congr {t' : ServiceMgr} {name : LuaString} {entry : Option ServiceEntry}
    (hwait : ∀ co, t'.IsWaiting name co ↔ t.IsWaiting name co)
    (hlaunch : ∀ co, t'.IsLaunching name co ↔ t.IsLaunching name co) (h : t.Agrees name entry) :
    t'.Agrees name entry := by
  unfold Agrees at h ⊢
  simp only [hwait, hlaunch]
  exact h

/-- A coroutine that neither waits nor launches for a name is given something else to do that is not
for this name either. -/
theorem tasks_update_iff (t' : ServiceMgr) (name : LuaString) {co : ℕ} {task : Option ServiceTask}
    (htasks : t'.tasks = update t.tasks co task)
    (hold : ¬ t.IsWaiting name co ∧ ¬ t.IsLaunching name co)
    (hnew : ∀ command stage, task = some ⟨command, name, stage⟩ → stage = .woken) (co' : ℕ) :
    (t'.IsWaiting name co' ↔ t.IsWaiting name co') ∧
      (t'.IsLaunching name co' ↔ t.IsLaunching name co') := by
  unfold IsWaiting IsLaunching
  rw [htasks]
  by_cases hco : co' = co
  · subst hco
    rw [update_self]
    refine ⟨iff_of_false ?_ hold.1, iff_of_false ?_ hold.2⟩
    · rintro ⟨command, h⟩
      exact absurd (hnew _ _ h) (by simp)
    · rintro ⟨command, func, h⟩
      exact absurd (hnew _ _ h) (by simp)
  · rw [update_of_ne hco]
    exact ⟨Iff.rfl, Iff.rfl⟩

theorem not_busy_of_none {name : LuaString} {co : ℕ} (h : t.tasks co = none) :
    ¬ t.IsWaiting name co ∧ ¬ t.IsLaunching name co := by
  constructor
  · rintro ⟨_, h'⟩
    rw [h] at h'
    cases h'
  · rintro ⟨_, _, h'⟩
    rw [h] at h'
    cases h'

theorem not_busy_of_woken {name name' : LuaString} {co : ℕ} (h : t.IsWoken name co) :
    ¬ t.IsWaiting name' co ∧ ¬ t.IsLaunching name' co := by
  obtain ⟨_, h⟩ := h
  constructor
  · rintro ⟨_, h'⟩
    rw [h] at h'
    cases h'
  · rintro ⟨_, _, h'⟩
    rw [h] at h'
    cases h'

/-- Who launches or waits for one name does neither for another one. -/
theorem not_busy_of_ne {name name' : LuaString} {co : ℕ} {command : ServiceCommand}
    {stage : ServiceStage} (h : t.tasks co = some ⟨command, name, stage⟩) (hne : name' ≠ name) :
    ¬ t.IsWaiting name' co ∧ ¬ t.IsLaunching name' co := by
  constructor
  · rintro ⟨_, h'⟩
    rw [h] at h'
    cases h'
    exact hne rfl
  · rintro ⟨_, _, h'⟩
    rw [h] at h'
    cases h'
    exact hne rfl

namespace Inv

variable {co : ℕ} {name : LuaString}

theorem create (isMaster : Bool) : Inv (create isMaster) where
  agrees _ _ := not_busy_of_none rfl
  fresh _ h := absurd rfl h
  answered _ _ _ h := absurd h (by simp [ServiceMgr.create])

/-- A coroutine that is neither waiting nor launching comes to its end. -/
theorem answer {a : ServiceAnswer} (h : Inv t)
    (hco : ∀ name', ¬ t.IsWaiting name' co ∧ ¬ t.IsLaunching name' co)
    (ha : ∀ handle, a = .ret (some handle) → t.service name = some (.number handle)) :
    Inv (t.answer co name a) where
  agrees name' := by
    have htasks := fun co' =>
      tasks_update_iff (t.answer co name a) name' rfl (hco name') (fun _ _ h => by cases h) co'
    exact agrees_congr (fun co' => (htasks co').1) (fun co' => (htasks co').2) (h.agrees name')
  fresh co' hne := by
    refine h.fresh co' fun hnone => hne ?_
    by_cases heq : co' = co
    · subst heq
      exact update_self ..
    · exact (update_of_ne heq _ _).trans hnone
  answered co' name' handle hmem := by
    obtain hmem | heq := mem_append.mp hmem
    · exact h.answered co' name' handle hmem
    · cases mem_singleton.mp heq
      exact ha handle rfl

theorem next (h : Inv t) : Inv { t with next := t.next + 1 } where
  agrees := h.agrees
  fresh co hne := Nat.lt_succ_of_lt (h.fresh co hne)
  answered := h.answered

theorem suspend {task : ServiceTask} {entry : ServiceEntry} (h : Inv t) (hnone : t.tasks co = none)
    (hlt : co < t.next) (hnumber : ∀ handle, t.service task.name ≠ some (.number handle))
    (hagrees : (t.suspend co task entry).Agrees task.name (some entry)) :
    Inv (t.suspend co task entry) where
  agrees name := by
    by_cases hname : name = task.name
    · subst hname
      rw [show (t.suspend co task entry).service task.name = some entry from
        update_self ..]
      exact hagrees
    · rw [show (t.suspend co task entry).service name = t.service name from
        update_of_ne hname _ _]
      have htasks := fun co' => tasks_update_iff (t.suspend co task entry) name rfl
        (not_busy_of_none hnone) (fun _ _ heq => by cases heq; exact absurd rfl hname) co'
      exact agrees_congr (fun co' => (htasks co').1) (fun co' => (htasks co').2) (h.agrees name)
  fresh co' hne := by
    by_cases heq : co' = co
    · exact heq ▸ hlt
    · exact h.fresh co' fun h' => hne ((update_of_ne heq _ _).trans h')
  answered co' name handle hmem := by
    have hold := h.answered co' name handle hmem
    have hname : name ≠ task.name := by
      rintro rfl
      exact hnumber handle hold
    exact (update_of_ne hname _ _).trans hold

theorem join {command : ServiceCommand} {func : Option LaunchFunc} {waiters : List ℕ}
    {launch : Bool} (h : Inv t) (hnone : t.tasks co = none) (hlt : co < t.next)
    (hnumber : ∀ handle, t.service name ≠ some (.number handle))
    (hagrees : t.Agrees name (some (.table waiters launch))) :
    Inv (t.join co command name func waiters launch) := by
  obtain ⟨hwaiters, hlaunch, honce⟩ := hagrees
  have hbusy : ¬ t.IsWaiting name co ∧ ¬ t.IsLaunching name co := not_busy_of_none hnone
  have hself : ∀ task entry, (t.suspend co task entry).tasks co = some task :=
    fun _ _ => update_self ..
  have hother : ∀ task entry co', co' ≠ co → (t.suspend co task entry).tasks co' = t.tasks co' :=
    fun _ _ _ hne => update_of_ne hne _ _
  have hnot : co ∉ waiters := fun hin => hbusy.1 ((hwaiters co).mp hin)
  unfold ServiceMgr.join
  split
  · -- Nobody launches yet.
    rename_i f
    have hnobody : ∀ co', ¬ t.IsLaunching name co' := fun co' hl => by
      simpa using hlaunch.mpr ⟨co', hl⟩
    refine h.suspend hnone hlt hnumber ⟨fun co' => ?_, iff_of_true rfl ?_, fun co₁ co₂ h₁ h₂ => ?_⟩
    · unfold IsWaiting
      by_cases hco : co' = co
      · subst hco
        rw [hself]
        exact iff_of_false hnot (by rintro ⟨_, ⟨⟩⟩)
      · rw [hother _ _ _ hco]
        exact hwaiters co'
    · exact ⟨co, command, f, hself _ _⟩
    · have hmine : ∀ co', (t.suspend co ⟨command, name, .launching f⟩
          (.table waiters true)).IsLaunching name co' → co' = co := by
        rintro co' ⟨command', func', hl⟩
        by_contra hco
        rw [hother _ _ _ hco] at hl
        exact hnobody co' ⟨command', func', hl⟩
      rw [hmine co₁ h₁, hmine co₂ h₂]
  · have hlaunching : ∀ co', (t.suspend co ⟨command, name, .waiting⟩
        (.table (waiters ++ [co]) launch)).IsLaunching name co' ↔ t.IsLaunching name co' := by
      intro co'
      unfold IsLaunching
      by_cases hco : co' = co
      · subst hco
        rw [hself]
        exact iff_of_false (by rintro ⟨_, _, ⟨⟩⟩) hbusy.2
      · rw [hother _ _ _ hco]
    refine h.suspend hnone hlt hnumber ⟨fun co' => ?_, ?_, ?_⟩
    · rw [mem_append, mem_singleton]
      unfold IsWaiting
      by_cases hco : co' = co
      · subst hco
        rw [hself]
        exact iff_of_true (.inr rfl) ⟨command, rfl⟩
      · rw [hother _ _ _ hco]
        exact (or_iff_left hco).trans (hwaiters co')
    · simp only [hlaunching]
      exact hlaunch
    · simp only [hlaunching]
      exact honce

theorem agrees_new (h : t.Agrees name none) : t.Agrees name (some (.table [] false)) :=
  ⟨fun co => iff_of_false (by simp) (h co).1, iff_of_false (by simp) fun ⟨co, hl⟩ => (h co).2 hl,
    fun co _ hl => absurd hl (h co).2⟩

theorem waitfor {command : ServiceCommand} {func : Option LaunchFunc} (h : Inv t)
    (hnone : t.tasks co = none) (hlt : co < t.next) :
    Inv (t.waitfor co command name func) := by
  have hagrees := h.agrees name
  unfold ServiceMgr.waitfor
  cases hentry : t.service name with
  | none =>
    rw [hentry] at hagrees
    exact h.join hnone hlt (by rw [hentry]; simp) (agrees_new hagrees)
  | some entry =>
    cases entry with
    | number handle =>
      refine h.answer (fun _ => not_busy_of_none hnone) fun handle' heq => ?_
      cases heq
      exact hentry
    | error message => exact h.answer (fun _ => not_busy_of_none hnone) fun _ heq => by cases heq
    | table waiters launch =>
      rw [hentry] at hagrees
      exact h.join hnone hlt (by rw [hentry]; simp) hagrees

theorem waitEnd (h : Inv t) (hco : t.IsWoken name co) : Inv (t.waitEnd co name) := by
  refine h.answer (fun _ => not_busy_of_woken hco) fun handle heq => ?_
  split at heq <;> cases heq
  assumption

theorem table_of_launching (h : Inv t) (hco : t.IsLaunching name co) :
    ∃ waiters, t.service name = some (.table waiters true) := by
  have hagrees := h.agrees name
  cases hentry : t.service name with
  | none =>
    rw [hentry] at hagrees
    exact absurd hco (hagrees co).2
  | some entry =>
    rw [hentry] at hagrees
    cases entry with
    | number handle => exact absurd hco (hagrees co).2
    | error message => exact absurd hco (hagrees co).2
    | table waiters launch =>
      rw [hagrees.2.1.mpr ⟨co, hco⟩]
      exact ⟨waiters, rfl⟩

end Inv

variable {name : LuaString} {co : ℕ} {a : ServiceAction} {t' : ServiceMgr}

theorem tasks_requestEnd (co co' : ℕ) (result : LaunchResult) {waiters : List ℕ} {launch : Bool}
    (hentry : t.service name = some (.table waiters launch)) :
    (t.requestEnd co name result).tasks co' =
      if co' = co then none
      else if co' ∈ waiters then wakeTask (t.tasks co') else t.tasks co' := by
  unfold requestEnd
  rw [hentry]
  by_cases hco : co' = co
  · rw [if_pos hco, hco]
    exact update_self ..
  · rw [if_neg hco]
    exact update_of_ne hco _ _

theorem woken_requestEnd {co co' : ℕ} (result : LaunchResult) (h : Inv t)
    (hco : t.IsLaunching name co) (hco' : t.IsWaiting name co') :
    (t.requestEnd co name result).IsWoken name co' := by
  obtain ⟨waiters, hentry⟩ := h.table_of_launching hco
  have hagrees := h.agrees name
  rw [hentry] at hagrees
  have hin := (hagrees.1 co').mpr hco'
  obtain ⟨command, htask⟩ := hco'
  have hne : co' ≠ co := by
    rintro rfl
    obtain ⟨_, _, hl⟩ := hco
    rw [htask] at hl
    cases hl
  refine ⟨command, ?_⟩
  rw [tasks_requestEnd co co' result hentry, if_neg hne, if_pos hin, htask]
  rfl

theorem Inv.requestEnd {result : LaunchResult} (h : Inv t) (hco : t.IsLaunching name co) :
    Inv (t.requestEnd co name result) := by
  obtain ⟨waiters, hentry⟩ := h.table_of_launching hco
  have hagrees := h.agrees name
  rw [hentry] at hagrees
  obtain ⟨hwaiters, -, honce⟩ := hagrees
  have htasks := fun co' =>
    tasks_requestEnd co co' result hentry
  have hservice : (t.requestEnd co name result).service =
      update t.service name (LaunchResult.entry result) := by
    unfold ServiceMgr.requestEnd
    rw [hentry]
    rfl
  have hanswers : (t.requestEnd co name result).answers =
      t.answers ++ [(co, name, LaunchResult.answer result)] := by
    unfold ServiceMgr.requestEnd
    rw [hentry]
    rfl
  have hnext : (t.requestEnd co name result).next = t.next := by
    unfold ServiceMgr.requestEnd
    rw [hentry]
    rfl
  have hwaiting : ∀ co' ∈ waiters, ∃ command, t.tasks co' = some ⟨command, name, .waiting⟩ :=
    fun co' hin => (hwaiters co').mp hin
  refine ⟨fun name' => ?_, fun co' hne => ?_, fun co' name' handle hmem => ?_⟩
  · rw [hservice]
    by_cases hname : name' = name
    · subst hname
      rw [update_self]
      -- All who waited are woken up, and the only one that launched is at its end.
      have hnobody : ∀ co', ¬ (t.requestEnd co name' result).IsWaiting name' co' ∧
          ¬ (t.requestEnd co name' result).IsLaunching name' co' := by
        intro co'
        unfold IsWaiting IsLaunching
        rw [htasks]
        split_ifs with hco' hin
        · simp
        · obtain ⟨command, htask⟩ := hwaiting co' hin
          rw [htask]
          simp [wakeTask]
        · exact ⟨fun hw => hin ((hwaiters co').mpr hw), fun hl => hco' (honce co' co hl hco)⟩
      cases result <;> exact hnobody
    · rw [update_of_ne hname]
      have hsame : ∀ co', ((t.requestEnd co name result).IsWaiting name' co' ↔
          t.IsWaiting name' co') ∧
          ((t.requestEnd co name result).IsLaunching name' co' ↔ t.IsLaunching name' co') := by
        intro co'
        unfold IsWaiting IsLaunching
        rw [htasks]
        split_ifs with hco' hin
        · obtain ⟨_, _, htask⟩ := hco
          subst hco'
          obtain ⟨hw, hl⟩ := not_busy_of_ne htask hname
          exact ⟨iff_of_false (by simp) hw, iff_of_false (by simp) hl⟩
        · obtain ⟨command, htask⟩ := hwaiting co' hin
          obtain ⟨hw, hl⟩ := not_busy_of_ne htask hname
          rw [htask]
          exact ⟨iff_of_false (by simp [wakeTask]) (by simpa using Ne.symm hname),
            iff_of_false (by simp [wakeTask]) (by simp)⟩
        · exact ⟨Iff.rfl, Iff.rfl⟩
      exact agrees_congr (fun co' => (hsame co').1) (fun co' => (hsame co').2) (h.agrees name')
  · rw [hnext]
    refine h.fresh co' fun hnone => hne ?_
    rw [htasks]
    split_ifs
    · rfl
    · rw [hnone]
      rfl
    · exact hnone
  · rw [hanswers] at hmem
    rw [hservice]
    obtain hmem | hlast := mem_append.mp hmem
    · have hold := h.answered co' name' handle hmem
      have hname : name' ≠ name := by
        rintro rfl
        rw [hentry] at hold
        cases hold
      rw [update_of_ne hname, hold]
    · obtain ⟨rfl, rfl, heq⟩ : co' = co ∧ name' = name ∧
          ServiceAnswer.ret (some handle) = LaunchResult.answer result := by
        simpa using mem_singleton.mp hlast
      rw [update_self]
      cases result with
      | number handle' =>
        cases heq
        rfl
      | nil => cases heq
      | raised message => cases heq

/-- Every action keeps the tasks in agreement with the table of services. -/
theorem Inv.step (h : Inv t) (hstep : t.step a = some t') : Inv t' := by
  cases a with
  | request r =>
    have hnone : t.tasks t.next = none := by
      by_contra hne
      exact Nat.lt_irrefl _ (h.fresh t.next hne)
    cases hstep
    cases r.resolve t.isMaster with
    | none => exact h.next.answer (fun _ => not_busy_of_none hnone) fun _ heq => by cases heq
    | some p => exact h.next.waitfor hnone (Nat.lt_succ_self _)
  | launchEnd co result =>
    simp only [ServiceMgr.step] at hstep
    split at hstep <;> cases hstep
    rename_i command name func htask
    exact h.requestEnd ⟨command, func, htask⟩
  | resume co =>
    simp only [ServiceMgr.step] at hstep
    split at hstep <;> cases hstep
    rename_i command name htask
    exact h.waitEnd ⟨command, htask⟩

/-! ### Runs -/

/-- What `waitfor` leaves of the other coroutines, and of an entry with a handle. -/
theorem waitfor_frame {command : ServiceCommand} {func : Option LaunchFunc} :
    (∀ co', co' ≠ co → (t.waitfor co command name func).tasks co' = t.tasks co') ∧
      ∀ name' handle, t.service name' = some (.number handle) →
        (t.waitfor co command name func).service name' = some (.number handle) := by
  have hsuspend : ∀ task entry, task.name = name →
      (∀ handle, t.service name ≠ some (.number handle)) →
      (∀ co', co' ≠ co → (t.suspend co task entry).tasks co' = t.tasks co') ∧
        ∀ name' handle, t.service name' = some (.number handle) →
          (t.suspend co task entry).service name' = some (.number handle) := by
    rintro task entry rfl hnumber
    refine ⟨fun co' hne => update_of_ne hne _ _, fun name' handle hentry => ?_⟩
    have hne : name' ≠ task.name := by
      rintro rfl
      exact hnumber handle hentry
    exact (update_of_ne hne _ _).trans hentry
  have hjoin : ∀ waiters launch, (∀ handle, t.service name ≠ some (.number handle)) →
      (∀ co', co' ≠ co → (t.join co command name func waiters launch).tasks co' = t.tasks co') ∧
        ∀ name' handle, t.service name' = some (.number handle) →
          (t.join co command name func waiters launch).service name' = some (.number handle) := by
    intro waiters launch hnumber
    unfold join
    split
    · exact hsuspend _ _ rfl hnumber
    · exact hsuspend _ _ rfl hnumber
  unfold waitfor
  split
  · exact ⟨fun co' hne => update_of_ne hne _ _, fun _ _ hentry => hentry⟩
  · exact ⟨fun co' hne => update_of_ne hne _ _, fun _ _ hentry => hentry⟩
  · rename_i hnone
    exact hjoin _ _ (by rw [hnone]; simp)
  · rename_i htable
    exact hjoin _ _ (by rw [htable]; simp)

theorem service_step {handle : ℕ} (h : Inv t) (hstep : t.step a = some t')
    (hentry : t.service name = some (.number handle)) :
    t'.service name = some (.number handle) := by
  cases a with
  | request r =>
    cases hstep
    cases r.resolve t.isMaster with
    | none => exact hentry
    | some p => exact waitfor_frame.2 name handle hentry
  | launchEnd co result =>
    simp only [step] at hstep
    split at hstep <;> cases hstep
    rename_i command name' func htask
    obtain ⟨waiters, htable⟩ := h.table_of_launching ⟨command, func, htask⟩
    have hne : name ≠ name' := by
      rintro rfl
      rw [hentry] at htable
      cases htable
    unfold requestEnd
    rw [htable]
    exact (update_of_ne hne _ _).trans hentry
  | resume co =>
    simp only [step] at hstep
    split at hstep <;> cases hstep
    exact hentry

theorem woken_step (h : Inv t) (hstep : t.step a = some t') (hco : t.IsWoken name co)
    (ha : a ≠ .resume co) :
    t'.IsWoken name co := by
  obtain ⟨command, hwoken⟩ := hco
  refine ⟨command, ?_⟩
  cases a with
  | request r =>
    have hne : co ≠ t.next := Nat.ne_of_lt (h.fresh co (by rw [hwoken]; simp))
    cases hstep
    cases r.resolve t.isMaster with
    | none => exact (update_of_ne hne _ _).trans hwoken
    | some p => exact (waitfor_frame.1 co hne).trans hwoken
  | launchEnd co' result =>
    simp only [step] at hstep
    split at hstep <;> cases hstep
    rename_i command' name' func htask
    obtain ⟨waiters, htable⟩ := h.table_of_launching ⟨command', func, htask⟩
    have hne : co ≠ co' := by
      rintro rfl
      rw [hwoken] at htask
      cases htask
    rw [tasks_requestEnd co' co result htable, if_neg hne, hwoken]
    simp [wakeTask]
  | resume co' =>
    have hne : co ≠ co' := by
      rintro rfl
      exact ha rfl
    simp only [step] at hstep
    split at hstep <;> cases hstep
    exact (update_of_ne hne _ _).trans hwoken

/-- In every run of the manager: one launch of a name at a time; a handle stays for ever, it is what
every request gets that gets one, and nothing is launched any more. Who waits when a launch ends is
woken up; who was woken up stays so until it goes on, which it can, and then it is answered with the
handle or an error. -/
theorem unique_service {isMaster : Bool} (h : Reachable step (.create isMaster) t) :
    (∀ name co co', t.IsLaunching name co → t.IsLaunching name co' → co = co') ∧
    (∀ a t' name handle, t.step a = some t' → t.service name = some (.number handle) →
      t'.service name = some (.number handle)) ∧
    (∀ co name handle, (co, name, .ret (some handle)) ∈ t.answers →
      t.service name = some (.number handle)) ∧
    (∀ name handle co, t.service name = some (.number handle) → ¬ t.IsLaunching name co) ∧
    (∀ co name result t', t.IsLaunching name co → t.step (.launchEnd co result) = some t' →
      ∀ co', t.IsWaiting name co' → t'.IsWoken name co') ∧
    (∀ co name, t.IsWoken name co →
      (∀ a t', t.step a = some t' → a ≠ .resume co → t'.IsWoken name co) ∧
      ∃ t' a, t.step (.resume co) = some t' ∧ t'.answers = t.answers ++ [(co, name, a)] ∧
        a ≠ .ret none) := by
  have hinv : Inv t := h.invariant (Inv.create isMaster) fun hstep hinv => hinv.step hstep
  refine ⟨fun name co co' hco hco' => ?_, fun a t' name handle => service_step hinv,
    hinv.answered, fun name handle co hentry hco => ?_,
    fun co name result t' hco hstep co' hco' => ?_,
    fun co name hco => ⟨fun a t' hstep ha => woken_step hinv hstep hco ha, ?_⟩⟩
  · obtain ⟨waiters, hentry⟩ := hinv.table_of_launching hco
    have hagrees := hinv.agrees name
    rw [hentry] at hagrees
    exact hagrees.2.2 co co' hco hco'
  · obtain ⟨waiters, htable⟩ := hinv.table_of_launching hco
    rw [hentry] at htable
    cases htable
  · obtain ⟨command, func, htask⟩ := hco
    simp only [step, htask] at hstep
    cases hstep
    exact woken_requestEnd result hinv ⟨command, func, htask⟩ hco'
  · obtain ⟨command, htask⟩ := hco
    refine ⟨t.waitEnd co name, _, ?_, rfl, ?_⟩
    · simp only [step, htask]
    · split <;> simp

/-- The query of a service that is launched later waits; it gets the handle too. -/
theorem unique_service_query : ∃ t, exec step (create true)
        [.request ⟨.QUERY, [97], none⟩, .request ⟨.LAUNCH, [97], none⟩, .launchEnd 1 (.number 16),
          .resume 0] = some t ∧
      t.answers = [(1, [97], .ret (some 16)), (0, [97], .ret (some 16))] ∧
      t.service [97] = some (.number 16) := by
  obtain ⟨t, ht, hanswers⟩ : ∃ t, exec step (create true)
      [.request ⟨.QUERY, [97], none⟩, .request ⟨.LAUNCH, [97], none⟩, .launchEnd 1 (.number 16),
        .resume 0] = some t ∧
      t.answers = [(1, [97], .ret (some 16)), (0, [97], .ret (some 16))] := ⟨_, rfl, rfl⟩
  exact ⟨t, ht, hanswers,
    (unique_service (reachable_of_exec ht)).2.2.1 0 [97] 16 (by rw [hanswers]; simp)⟩

end ServiceMgr

end Uboss.Service
