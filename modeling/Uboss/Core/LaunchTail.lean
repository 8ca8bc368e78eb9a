import Mathlib.Tactic.FinCases
import Uboss.Core.SchedulerSafe

/-!
# The end of a launch

After a successful init `uboss_context_new` gives its own reference back and goes on with the
pointer that `uboss_context_release` returned: it sets `ctx->init`, logs through the context and
returns it to `cmd_launch`, which reads `inst->handle`. Nothing keeps the context alive during
that time but the references of others. The model of the scheduler is extended here by what a
launching thread still has to do with the context when its last step there is done.
-/

namespace Uboss.Core

open Math Function Option Except Node

/-- The thread that takes a step. -/
def NodeAct.thread {Tid : Type} : NodeAct Tid → Tid
  | .dispatch t _ => t
  | .run t => t
  | .launch t => t
  | .initReturn t _ => t
  | .callback t _ => t
  | .send t _ _ => t
  | .retire t _ => t
  | .grab t _ => t
  | .reserve t _ => t
  | .heldPush t _ => t
  | .heldRelease t => t

/-- The context whose `init` a thread is about to set. -/
def Pc.settingInit : Pc → Option CtxId
  | .setInit _ c => some c
  | _ => none

@[simp] theorem Cont.settingInit_pc (k : Cont) : k.pc.settingInit = none := by cases k <;> rfl

namespace Node

variable {Tid : Type} [DecidableEq Tid]

/-- The step calls `uboss_context_release` for `c`. -/
def Releases (s : Node Tid) (a : NodeAct Tid) (c : CtxId) : Prop :=
  ∃ t, a = .run t ∧ ((∃ k, s.thread t = .release c k) ∨ ∃ q, s.thread t = .launched q c)

/-- What a step does to the contexts when it takes its thread to `p`. -/
inductive CtxChange (s : Node Tid) (a : NodeAct Tid) : (CtxId → Option Context) → Pc → Prop
  | same {p : Pc} : p.settingInit = none → CtxChange s a s.ctx p
  /-- A field is written, or a reference is taken. -/
  | write {c : CtxId} {x : Context} {p : Pc} (y : Context) :
      s.ctx c = some x → x.ref ≤ y.ref → p.settingInit = none →
      CtxChange s a (update s.ctx c (some y)) p
  /-- A reference is dropped. Only the launch of a context that still has references goes on
  to `ctx->init = true`. -/
  | release {c : CtxId} {x : Context} {p : Pc} :
      s.ctx c = some x → s.Releases a c →
      (∀ d, p.settingInit = some d →
        d = c ∧ x.ref - 1 ≠ 0 ∧ ∃ q, s.thread a.thread = .launched q c) →
      CtxChange s a (update s.ctx c (some { x with ref := x.ref - 1 })) p
  | delete {t : Tid} {c : CtxId} {k : Cont} {p : Pc} :
      s.thread t = .delete c k → p.settingInit = none →
      CtxChange s a (update s.ctx c none) p
  | launch {p : Pc} (y : Context) :
      p.settingInit = none → CtxChange s a (update s.ctx s.registry.next (some y)) p

/-- A step moves its thread, and changes the contexts in one of these ways. -/
def Moved (s : Node Tid) (a : NodeAct Tid) (s' : Node Tid) : Prop :=
  ∃ p, s'.thread = update s.thread a.thread p ∧ CtxChange s a s'.ctx p

section Changes

variable {s s' : Node Tid} {t : Tid} {p : Pc} {c : CtxId} {q : QueueId} {k : Cont}
  {a : NodeAct Tid}

theorem Moved.goto (hp : p.settingInit = none) : Moved s a (s.goto a.thread p) := ⟨p, rfl, .same hp⟩

theorem Moved.of_map {x : Except SchedulerFault Queues} {f : Queues → Node Tid}
    (hok : x.map f = .ok s') (hctx : ∀ Q, (f Q).ctx = s.ctx)
    (hthread : ∀ Q, (f Q).thread = update s.thread a.thread p)
    (hp : p.settingInit = none) : Moved s a s' := by
  obtain ⟨Q, -, rfl⟩ := map_eq_ok_iff.mp hok
  refine ⟨p, hthread Q, ?_⟩
  rw [hctx]
  exact .same hp

theorem Moved.globalmqPop {next : QueueId → Pc}
    (hok : s.ubossGlobalmqPop a.thread next p = .ok s') (hp : p.settingInit = none)
    (hnext : ∀ q, (next q).settingInit = none) : Moved s a s' := by
  obtain ⟨r, -, rfl⟩ := map_eq_ok_iff.mp hok
  refine ⟨_, rfl, .same ?_⟩
  split
  · exact hp
  · exact hnext _

theorem Moved.contextGrab (hok : (s.ubossContextGrab c).map (fun s' => s'.goto a.thread p) = .ok s')
    (hp : p.settingInit = none) : Moved s a s' := by
  obtain ⟨n, hgrab, rfl⟩ := map_eq_ok_iff.mp hok
  rw [ubossContextGrab] at hgrab
  split at hgrab
  · cases hgrab
  · rename_i x hx
    obtain rfl := ok.inj hgrab
    exact ⟨p, rfl, .write _ hx (Nat.le_succ _) hp⟩

theorem Moved.handleGrab {handle : ℕ} {next : CtxId → Pc}
    (hok : s.ubossHandleGrab a.thread handle next p = .ok s') (hp : p.settingInit = none)
    (hnext : ∀ c, (next c).settingInit = none) : Moved s a s' := by
  rw [ubossHandleGrab] at hok
  split at hok
  · obtain rfl := ok.inj hok
    exact .goto hp
  · exact .contextGrab hok (hnext _)

theorem Moved.mqPush {msg : UbossMessage} (hok : s.ubossMqPush a.thread c msg p = .ok s')
    (hp : p.settingInit = none) : Moved s a s' := by
  rw [ubossMqPush] at hok
  split at hok
  · cases hok
  · exact .of_map hok (fun _ => rfl) (fun _ => rfl) hp

theorem Moved.mqPop {next : UbossMessage → Pc}
    (hok : s.ubossMqPop a.thread q next p = .ok s') (hp : p.settingInit = none)
    (hnext : ∀ msg, (next msg).settingInit = none) : Moved s a s' := by
  rw [ubossMqPop] at hok
  split at hok
  · cases hok
  · obtain rfl := ok.inj hok
    refine ⟨_, rfl, .same ?_⟩
    split
    · exact hp
    · exact hnext _

theorem Moved.globalmqPush (hok : s.ubossGlobalmqPush a.thread q p = .ok s')
    (hp : p.settingInit = none) : Moved s a s' :=
  .of_map hok (fun _ => rfl) (fun _ => rfl) hp

theorem Moved.handleRetire {handle : ℕ} : Moved s a (s.ubossHandleRetire a.thread handle k) := by
  refine ⟨_, rfl, .same ?_⟩
  split
  · exact k.settingInit_pc
  · rfl

theorem Moved.contextRelease (hreleases : s.Releases a c)
    (hok : s.ubossContextRelease a.thread c p k = .ok s')
    (hp : ∀ d, p.settingInit = some d → d = c ∧ ∃ q, s.thread a.thread = .launched q c) :
    Moved s a s' := by
  rw [ubossContextRelease] at hok
  split at hok
  · cases hok
  · rename_i x hx
    obtain rfl := ok.inj hok
    refine ⟨_, rfl, .release hx hreleases ?_⟩
    intro d hd
    split at hd
    · cases hd
    · rename_i hmore
      obtain ⟨rfl, hlaunched⟩ := hp d hd
      exact ⟨rfl, hmore, hlaunched⟩

theorem Moved.run (hok : s.run t = .ok s') : Moved s (.run t) s' := by
  cases hpc : s.thread t with
  | grab q weight =>
    simp only [Node.run, hpc] at hok
    split at hok
    · cases hok
    · exact .handleGrab hok rfl fun c => rfl
  | pop q c weight i n =>
    simp only [Node.run, hpc] at hok
    refine .mqPop hok rfl fun msg => ?_
    split <;> rfl
  | length q c weight msg =>
    simp only [Node.run, hpc] at hok
    split at hok
    · cases hok
    · obtain rfl := ok.inj hok
      exact .goto rfl
  | call q c weight i n msg =>
    simp only [Node.run, hpc, dispatchMessage] at hok
    split at hok
    · split at hok
      · cases hok
      · obtain rfl := ok.inj hok
        exact ⟨_, rfl, .same rfl⟩
    · cases hok
  | calling q c weight i n =>
    simp only [Node.run, hpc] at hok
    obtain rfl := ok.inj hok
    refine .goto ?_
    split <;> rfl
  | yield q c =>
    simp only [Node.run, hpc] at hok
    split at hok
    · cases hok
    · split at hok
      · cases hok
      · exact .globalmqPop hok rfl fun q => rfl
  | pushBack q nq c =>
    simp only [Node.run, hpc] at hok
    exact .globalmqPush hok rfl
  | globalPop =>
    simp only [Node.run, hpc] at hok
    exact .globalmqPop hok rfl fun q => rfl
  | mqRelease q k =>
    simp only [Node.run, hpc, ubossMqRelease] at hok
    split at hok
    · cases hok
    · split at hok
      · obtain rfl := ok.inj hok
        exact .goto rfl
      · exact .globalmqPush hok k.settingInit_pc
  | drop q k =>
    simp only [Node.run, hpc] at hok
    exact .mqPop hok rfl fun msg => rfl
  | dropMsg q msg k =>
    simp only [Node.run, hpc] at hok
    obtain rfl := ok.inj hok
    exact ⟨_, rfl, .same rfl⟩
  | free q k =>
    simp only [Node.run, hpc] at hok
    exact .of_map hok (fun _ => rfl) (fun _ => rfl) k.settingInit_pc
  | release c k =>
    simp only [Node.run, hpc] at hok
    refine .contextRelease ⟨t, rfl, .inl ⟨k, hpc⟩⟩ hok fun d hd => ?_
    rw [k.settingInit_pc] at hd
    cases hd
  | delete c k =>
    simp only [Node.run, hpc, deleteContext] at hok
    split at hok
    · cases hok
    · obtain ⟨Q, -, rfl⟩ := map_eq_ok_iff.mp hok
      exact ⟨_, rfl, .delete hpc k.settingInit_pc⟩
  | push c msg =>
    simp only [Node.run, hpc] at hok
    exact .mqPush hok rfl
  | launched q c =>
    simp only [Node.run, hpc] at hok
    refine .contextRelease ⟨t, rfl, .inr ⟨q, hpc⟩⟩ hok fun d hd => ?_
    exact ⟨(some_inj.mp hd).symm, q, hpc⟩
  | setInit q c =>
    simp only [Node.run, hpc] at hok
    obtain rfl := ok.inj hok
    refine ⟨.publish q, rfl, ?_⟩
    -- the write does nothing to memory that has been freed
    cases hx : s.ctx c with
    | none =>
      have hsame : update s.ctx c none = s.ctx := by
        rw [← hx, update_eq_self]
      simpa [Node.goto, setCtx, hx, hsame] using CtxChange.same rfl
    | some x =>
      simpa [Node.goto, setCtx, hx] using CtxChange.write { x with init := true } hx le_rfl rfl
  | publish q =>
    simp only [Node.run, hpc] at hok
    exact .globalmqPush hok rfl
  | failRetire q handle =>
    simp only [Node.run, hpc] at hok
    obtain rfl := ok.inj hok
    exact .handleRetire
  | _ =>
    simp only [Node.run, hpc] at hok
    cases hok

theorem Moved.step (hok : s.step a = .ok s') : Moved s a s' := by
  cases a with
  | dispatch t weight =>
    rw [Node.step] at hok
    split at hok
    · exact .globalmqPop hok rfl fun q => rfl
    · obtain rfl := ok.inj hok
      exact .goto rfl
    · cases hok
  | run t => exact .run hok
  | launch t =>
    rw [Node.step] at hok
    split at hok
    · obtain rfl := ok.inj hok
      exact ⟨_, rfl, .launch _ rfl⟩
    · cases hok
  | initReturn t ok =>
    rw [Node.step] at hok
    split at hok
    · obtain rfl := Except.ok.inj hok
      refine .goto ?_
      split <;> rfl
    · cases hok
  | callback t cb =>
    rw [Node.step] at hok
    split at hok
    · cases hok
    · rename_i c hrun
      split at hok
      · cases hok
      · rename_i x hx
        obtain rfl := ok.inj hok
        refine ⟨s.thread t, (update_eq_self ..).symm, .write _ hx le_rfl ?_⟩
        cases hpc : s.thread t <;> simp_all [running, Pc.settingInit]
  | send t handle msg =>
    rw [Node.step] at hok
    split at hok
    · exact .handleGrab hok rfl fun c => rfl
    · cases hok
  | retire t handle =>
    rw [Node.step] at hok
    split at hok
    · obtain rfl := ok.inj hok
      exact .handleRetire
    · cases hok
  | grab t handle =>
    rw [Node.step] at hok
    split at hok
    · exact .handleGrab hok rfl fun c => rfl
    · cases hok
  | reserve t u =>
    rw [Node.step] at hok
    split at hok
    · exact .contextGrab hok rfl
    · cases hok
  | heldPush t msg =>
    rw [Node.step] at hok
    split at hok
    · exact .mqPush hok rfl
    · cases hok
  | heldRelease t =>
    rw [Node.step] at hok
    split at hok
    · obtain rfl := ok.inj hok
      exact .goto rfl
    · cases hok

end Changes

/-- A context that is allocated and has references. -/
def Alive (s : Node Tid) (c : CtxId) : Prop := ∃ x, s.ctx c = some x ∧ 0 < x.ref

/-- The step drops the last reference to `c`, so that `delete_context` is next. -/
def LastDrop (s : Node Tid) (a : NodeAct Tid) (c : CtxId) : Prop :=
  s.Releases a c ∧ ∃ x, s.ctx c = some x ∧ x.ref = 1

theorem Inv.alive_step [Fintype Tid] {harbor : ℕ} {L : List QueueId} {s s' : Node Tid}
    {a : NodeAct Tid} {c : CtxId} (hs : s.Inv harbor L) (hok : s.step a = .ok s')
    (halive : s.Alive c) (hdrop : ¬ s.LastDrop a c) : s'.Alive c := by
  obtain ⟨p, -, hchange⟩ := Moved.step hok
  obtain ⟨x, hx, hpos⟩ := halive
  rw [Alive]
  generalize s'.ctx = ctx' at hchange
  cases hchange with
  | same => exact ⟨x, hx, hpos⟩
  | @write d z _ y hz hle =>
    by_cases hd : c = d
    · subst hd
      obtain rfl : x = z := some_inj.mp (hx.symm.trans hz)
      exact ⟨y, update_self .., by omega⟩
    · exact ⟨x, (update_of_ne hd ..).trans hx, hpos⟩
  | @release d z _ hz hreleases =>
    by_cases hd : c = d
    · subst hd
      obtain rfl : x = z := some_inj.mp (hx.symm.trans hz)
      have hmore : x.ref ≠ 1 := fun hone => hdrop ⟨hreleases, x, hx, hone⟩
      exact ⟨_, update_self .., by dsimp only; omega⟩
    · exact ⟨x, (update_of_ne hd ..).trans hx, hpos⟩
  | @delete t d k _ hpc =>
    by_cases hd : c = d
    · subst hd
      obtain ⟨z, hz, hzero, -⟩ := hs.counted.of_deletes (t := t) (c := c) (by rw [hpc]; rfl)
      obtain rfl : x = z := some_inj.mp (hx.symm.trans hz)
      omega
    · exact ⟨x, (update_of_ne hd ..).trans hx, hpos⟩
  | launch y =>
    by_cases hd : c = s.registry.next
    · rw [hd, hs.counted.next_eq_none] at hx
      cases hx
    · exact ⟨x, (update_of_ne hd ..).trans hx, hpos⟩

end Node

/-- What a launching thread still has to do with the context when its queue has been pushed. -/
inductive LaunchRest
  /-- `uboss_error (ret, "LAUNCH %s %s", ..)`, which reads the handle of the context, and then
  the rest. -/
  | log (c : CtxId)
  /-- `cmd_launch`: read `inst->handle`. -/
  | result (c : CtxId)
  deriving DecidableEq, Repr

/-- The context of it. -/
def LaunchRest.ctx : LaunchRest → CtxId
  | .log c => c
  | .result c => c

/-- A node and, for the threads inside `uboss_context_new`, the rest of the launch. -/
structure LaunchNode (Tid : Type) where
  node : Node Tid
  rest : Tid → Option LaunchRest

/-- The steps. -/
inductive LaunchNodeAct (Tid : Type)
  | node (a : NodeAct Tid)
  | log (t : Tid)
  | result (t : Tid)
  deriving DecidableEq, Repr

namespace LaunchNode

variable {Tid : Type} [DecidableEq Tid]

/-- The initial state. -/
def init (Tid : Type) (harbor : ℕ) : LaunchNode Tid where
  node := Node.init Tid harbor
  rest := fun _ => none

/-- When `uboss_context_release` has returned the context, the rest of the launch is due. -/
def restAfter (before after : Pc) (rest : Option LaunchRest) : Option LaunchRest :=
  match before, after with
  | .launched _ _, .setInit _ c => some (.log c)
  | _, _ => rest

/-- One step. A thread that is done with its last step in the node finishes the launch before
it does anything else. -/
def step (s : LaunchNode Tid) : LaunchNodeAct Tid → Option (LaunchNode Tid)
  | .node a =>
    if s.node.thread a.thread = .idle ∧ s.rest a.thread ≠ none then none
    else
      (s.node.next a).map fun n =>
        { node := n
          rest := update s.rest a.thread
            (restAfter (s.node.thread a.thread) (n.thread a.thread) (s.rest a.thread)) }
  | .log t =>
    match s.node.thread t, s.rest t with
    | .idle, some (.log c) => some { s with rest := update s.rest t (some (.result c)) }
    | _, _ => none
  | .result t =>
    match s.node.thread t, s.rest t with
    | .idle, some (.result _) => some { s with rest := update s.rest t none }
    | _, _ => none

/-- The thread is between its `uboss_context_release` and its last use of the context `c`. -/
def Using (s : LaunchNode Tid) (t : Tid) (c : CtxId) : Prop := ∃ r, s.rest t = some r ∧ r.ctx = c

/-- The context that the next step of a thread touches without a reference. -/
def touches (s : LaunchNode Tid) (t : Tid) : Option CtxId :=
  match s.node.thread t, s.rest t with
  | .setInit _ c, _ => some c
  | .idle, some r => some r.ctx
  | _, _ => none

/-- No launch touches a context on which `delete_context` has run or is running, and a context
that is dispatched may be. -/
structure LaunchSafe (s : LaunchNode Tid) : Prop where
  touches_alive : ∀ t c, s.touches t = some c → s.node.Alive c
  dispatched_init : ∀ t c, dispatching (s.node.thread t) = some c →
    ∃ x, s.node.ctx c = some x ∧ x.init = true

/-- The condition on a step: handles are not recycled under queues that still carry them, and
the last reference to a context is not dropped while its launch is still using it. -/
def SafeDrop (s : LaunchNode Tid) : LaunchNodeAct Tid → Prop
  | .node a => s.node.FreshHandle a ∧ ∀ c, s.node.LastDrop a c → ∀ t, ¬ s.Using t c
  | _ => True

/-- The invariant of the safe runs. -/
structure Inv [Fintype Tid] (harbor : ℕ) (s : LaunchNode Tid) : Prop where
  node : ∃ L, s.node.Inv harbor L
  using_alive : ∀ t c, s.Using t c → s.node.Alive c
  setInit : ∀ t q c, s.node.thread t = .setInit q c → s.Using t c

section Run

variable [Fintype Tid] {harbor : ℕ} {s s' : LaunchNode Tid}

omit [DecidableEq Tid] in
theorem inv_init (harbor : ℕ) : (init Tid harbor).Inv harbor where
  node := ⟨[], Node.inv_init harbor⟩
  using_alive := by
    rintro t c ⟨r, hr, -⟩
    cases hr
  setInit := by
    intro t q c ht
    cases ht

theorem restAfter_of_settingInit {before after : Pc} {r : Option LaunchRest} {c : CtxId}
    {q : QueueId} (hbefore : before = .launched q c) (hafter : after.settingInit = some c) :
    restAfter before after r = some (.log c) := by
  subst hbefore
  cases after <;> simp_all [Pc.settingInit, restAfter]

theorem restAfter_of_quiet {before after : Pc} {r : Option LaunchRest}
    (hafter : after.settingInit = none) : restAfter before after r = r := by
  cases before with
  | launched q c => cases after <;> simp_all [Pc.settingInit, restAfter]
  | _ => rfl

omit [Fintype Tid] in
/-- The rest of the acting thread is that of a launch that has just given up its reference to a
context which others still refer to, or it is the old one. -/
theorem rest_cases {n n' : Node Tid} {a : NodeAct Tid} (hmoved : n.Moved a n')
    (r : Option LaunchRest) :
    (∃ c, (n'.thread a.thread).settingInit = some c ∧ n'.Alive c ∧
        restAfter (n.thread a.thread) (n'.thread a.thread) r = some (.log c)) ∨
      ((n'.thread a.thread).settingInit = none ∧
        restAfter (n.thread a.thread) (n'.thread a.thread) r = r) := by
  obtain ⟨p, hthread, hchange⟩ := hmoved
  have hp : n'.thread a.thread = p := by rw [hthread, update_self]
  rw [hp]
  cases hp' : p.settingInit with
  | none => exact .inr ⟨rfl, restAfter_of_quiet hp'⟩
  | some c =>
    left
    generalize hctx : n'.ctx = ctx' at hchange
    cases hchange with
    | release hx _ hlaunch =>
      obtain ⟨rfl, hmore, q, hlaunched⟩ := hlaunch c hp'
      refine ⟨c, rfl, ⟨_, by rw [hctx, update_self], ?_⟩, restAfter_of_settingInit hlaunched hp'⟩
      exact Nat.pos_of_ne_zero hmore
    | same hquiet => simp [hp'] at hquiet
    | write _ _ _ hquiet => simp [hp'] at hquiet
    | delete _ hquiet => simp [hp'] at hquiet
    | launch _ hquiet => simp [hp'] at hquiet

theorem Inv.node_step (hs : s.Inv harbor) {a : NodeAct Tid} (hsafe : s.SafeDrop (.node a))
    {n : Node Tid} (hnext : s.node.next a = some n) :
    Inv harbor (LaunchNode.mk n (update s.rest a.thread
      (restAfter (s.node.thread a.thread) (n.thread a.thread) (s.rest a.thread)))) := by
  obtain ⟨hfresh, hdrop⟩ := hsafe
  obtain ⟨L, hnode⟩ := hs.node
  have hok : s.node.step a = .ok n := toOption_eq_some_iff.mp hnext
  have hmoved := Node.Moved.step hok
  -- a context that some launch was using is still alive
  have hkeep (t : Tid) (c : CtxId) (husing : s.Using t c) : n.Alive c :=
    hnode.alive_step hok (hs.using_alive t c husing) fun hlast => hdrop c hlast t husing
  refine ⟨Node.Inv.next ⟨L, hnode⟩ hfresh hnext, ?_, ?_⟩
  · rintro t c ⟨r, hr, rfl⟩
    dsimp only at hr
    by_cases ht : t = a.thread
    · subst ht
      rw [update_self] at hr
      rcases rest_cases hmoved (s.rest a.thread) with ⟨c, -, halive, hrest⟩ | ⟨-, hrest⟩
      · rw [hrest] at hr
        obtain rfl := some_inj.mp hr
        exact halive
      · rw [hrest] at hr
        exact hkeep _ _ ⟨r, hr, rfl⟩
    · rw [update_of_ne ht] at hr
      exact hkeep t _ ⟨r, hr, rfl⟩
  · intro t q c hpc
    dsimp only at hpc
    by_cases ht : t = a.thread
    · subst ht
      rcases rest_cases hmoved (s.rest a.thread) with ⟨d, hd, -, hrest⟩ | ⟨hquiet, -⟩
      · rw [hpc] at hd
        obtain rfl := some_inj.mp hd
        exact ⟨.log c, by simp [hrest], rfl⟩
      · simp [hpc, Pc.settingInit] at hquiet
    · obtain ⟨p, hthread, -⟩ := hmoved
      rw [hthread, update_of_ne ht] at hpc
      obtain ⟨r, hr, hctx⟩ := hs.setInit t q c hpc
      exact ⟨r, by simp only [update_of_ne ht, hr], hctx⟩

theorem Inv.rest_step (hs : s.Inv harbor) {t : Tid} {r : Option LaunchRest}
    (hidle : s.node.thread t = .idle)
    (hr : ∀ r', r = some r' → s.Using t r'.ctx) :
    Inv harbor { s with rest := update s.rest t r } := by
  refine ⟨hs.node, ?_, ?_⟩
  · rintro u c ⟨r', hr', rfl⟩
    dsimp only at hr'
    by_cases hu : u = t
    · subst hu
      rw [update_self] at hr'
      exact hs.using_alive u _ (hr r' hr')
    · rw [update_of_ne hu] at hr'
      exact hs.using_alive u _ ⟨r', hr', rfl⟩
  · intro u q c hpc
    have hu : u ≠ t := by
      rintro rfl
      simp [hidle] at hpc
    obtain ⟨r', hr', hctx⟩ := hs.setInit u q c hpc
    exact ⟨r', by simp only [update_of_ne hu, hr'], hctx⟩

theorem Inv.step (hs : s.Inv harbor) {a : LaunchNodeAct Tid} (hsafe : s.SafeDrop a)
    (hstep : s.step a = some s') : s'.Inv harbor := by
  cases a with
  | node a =>
    simp only [LaunchNode.step] at hstep
    split at hstep
    · cases hstep
    · obtain ⟨n, hnext, rfl⟩ := map_eq_some_iff.mp hstep
      exact hs.node_step hsafe hnext
  | log t =>
    simp only [LaunchNode.step] at hstep
    split at hstep
    · rename_i c hidle hrest
      obtain rfl := some_inj.mp hstep
      refine hs.rest_step hidle fun r' hr' => ?_
      obtain rfl := some_inj.mp hr'
      exact ⟨.log c, hrest, rfl⟩
    · cases hstep
  | result t =>
    simp only [LaunchNode.step] at hstep
    split at hstep
    · rename_i hidle hrest
      obtain rfl := some_inj.mp hstep
      exact hs.rest_step hidle fun r' hr' => by cases hr'
    · cases hstep

omit [DecidableEq Tid] in
theorem Inv.launchSafe (hs : s.Inv harbor) : s.LaunchSafe where
  touches_alive := by
    intro t c htouches
    rw [touches] at htouches
    split at htouches
    · rename_i q d hpc
      obtain rfl := some_inj.mp htouches
      exact hs.using_alive t d (hs.setInit t q d hpc)
    · rename_i r _ hr
      exact hs.using_alive t c ⟨r, hr, some_inj.mp htouches⟩
    · cases htouches
  dispatched_init := by
    intro t c hdispatch
    obtain ⟨L, hnode⟩ := hs.node
    obtain ⟨q, -, x, hx, -, hinit⟩ := serving_of_dispatching (hnode.ready.pc_ok t) hdispatch
    exact ⟨x, hx, hinit⟩

/-- For every number of threads: in every run in which handles are not recycled and the last
reference to a context is not dropped under its launch, the launch touches the context only
while it is alive, and no context is dispatched before its `init` is set. -/
theorem launchSafe_of_safeDrop (Tid : Type) [Fintype Tid] [DecidableEq Tid] (harbor : ℕ)
    (acts : List (LaunchNodeAct Tid)) (s : LaunchNode Tid)
    (hrun : Run step SafeDrop (init Tid harbor) acts s) : s.LaunchSafe :=
  (hrun.invariant (inv_init harbor) fun hsafe hstep hs => hs.step hsafe hstep).launchSafe

/-- A launch that has just given up its reference. -/
theorem launchSafe_of_safeDrop_launch : ∃ acts s,
    Run step SafeDrop (init (Fin 2) 1) acts s ∧ s.touches 0 = some 0 ∧ s.LaunchSafe := by
  have hrun : Run step SafeDrop (init (Fin 2) 1)
      ([] ++ [.node (.launch 0)] ++ [.node (.initReturn 0 true)] ++ [.node (.run 0)]) _ :=
    (((Run.nil _).snoc ⟨(fun _ _ _ _ _ h => nomatch h), fun c hlast => by
        obtain ⟨⟨t, h, -⟩, -⟩ := hlast
        cases h⟩ rfl).snoc
      ⟨trivial, fun c hlast => by
        obtain ⟨⟨t, h, -⟩, -⟩ := hlast
        cases h⟩ rfl).snoc
      ⟨trivial, fun c _ t husing => by
        obtain ⟨r, hr, -⟩ := husing
        fin_cases t <;> cases hr⟩ rfl
  exact ⟨_, _, hrun, rfl, launchSafe_of_safeDrop (Fin 2) 1 _ _ hrun⟩

/-- One thread launches a service and has given up its reference; another one retires the
handle and deletes the context. -/
def killedRun {Tid : Type} (t u : Tid) : List (LaunchNodeAct Tid) :=
  [.node (.launch t), .node (.initReturn t true), .node (.run t), .node (.retire u 0x1000001),
    .node (.run u), .node (.run u)]

/-- The next step of the launch sets `ctx->init` in freed memory. -/
theorem launch_touches_freed_context : ∃ s : LaunchNode (Fin 2),
    Reachable step (init (Fin 2) 1) s ∧ s.touches 0 = some 0 ∧ s.node.ctx 0 = none ∧
      ¬ s.LaunchSafe := by
  have hrun : (exec step (init (Fin 2) 1) (killedRun 0 1)).map
      (fun s => (s.touches 0, s.node.ctx 0)) = some (some 0, none) := by decide
  obtain ⟨s, hs, hpair⟩ := Option.map_eq_some_iff.mp hrun
  obtain ⟨htouches, hfreed⟩ := Prod.mk.inj hpair
  refine ⟨s, reachable_of_exec hs, htouches, hfreed, ?_⟩
  intro hsafe
  obtain ⟨x, hx, -⟩ := hsafe.touches_alive 0 0 htouches
  rw [hfreed] at hx
  cases hx

end Run

end LaunchNode

end Uboss.Core
