import Uboss.Service.ServiceMgr

/-!
# Global services at a node that is not the master

The manager of such a node sends `LAUNCH` or `QUERY` to the manager of the master, and the requests
for one name share one such call. A `QUERY` is answered only when somebody launches the service.
-/

namespace Uboss.Service

open Math Lib Function

namespace ServiceMgr

variable (t : ServiceMgr)

/-- The requests of a run are about global services. -/
def GlobalOnly : ServiceAction → Prop
  | .request r => r.command = .GLAUNCH ∨ r.command = .GQUERY
  | _ => True

/-- For this name `QUERY` was sent to the master, and it is not answered. -/
def Queried (name : LuaString) : Prop :=
  ∃ co < t.next, (t.tasks co).map (fun task => (task.name, task.stage)) =
    some (name, .launching (.call .query))

instance (name : LuaString) : Decidable (t.Queried name) :=
  inferInstanceAs (Decidable (∃ co < _, _))

/-- A `GLAUNCH` arrives when no `QUERY` for its name is open. -/
def Unqueried : ServiceAction → Prop
  | .request r =>
    r.command = .GLAUNCH → ∀ p ∈ r.resolve t.isMaster, ¬ t.Queried p.1
  | _ => True

instance : DecidablePred GlobalOnly
  | .request _ => inferInstanceAs (Decidable (_ ∨ _))
  | .launchEnd _ _ | .resume _ => .isTrue trivial

instance : DecidablePred t.Unqueried
  | .request _ => inferInstanceAs (Decidable (_ → _))
  | .launchEnd _ _ | .resume _ => .isTrue trivial

/-- What holds at a node that is not the master, as long as only global services are asked for. -/
structure GlobalInv : Prop where
  inv : t.Inv
  isMaster : t.isMaster = false
  remote : ∀ co command name func, t.tasks co = some ⟨command, name, .launching func⟩ →
    ∃ c, func = .call c
  launch : ∀ co name, t.tasks co = some ⟨.GLAUNCH, name, .waiting⟩ →
    ∃ co' command, t.tasks co' = some ⟨command, name, .launching (.call .launch)⟩

variable {t}

theorem resolve_global {r : ServiceRequest} {p : LuaString × Option LaunchFunc}
    (hr : r.command = .GLAUNCH ∨ r.command = .GQUERY) (hp : r.resolve false = some p) :
    ∃ c, p.2 = some (.call c) := by
  have hremote : ∀ c, resolveRemote c r.name r.subname = some p → p.2 = some (.call c) := by
    intro c h
    unfold resolveRemote at h
    split_ifs at h
    · obtain ⟨name, -, rfl⟩ := Option.map_eq_some_iff.mp h
      rfl
    · cases h
      rfl
  unfold ServiceRequest.resolve at hp
  obtain hr | hr := hr
  · rw [hr] at hp
    exact ⟨.launch, hremote _ hp⟩
  · rw [hr] at hp
    exact ⟨.query, hremote _ hp⟩

/-- The new coroutine launches, or it waits, or it is at its end. -/
theorem tasks_waitfor_self (t : ServiceMgr) (co : ℕ) (command : ServiceCommand)
    (name : LuaString) (func : LaunchFunc) :
    (t.waitfor co command name (some func)).tasks co = none ∨
      (t.waitfor co command name (some func)).tasks co = some ⟨command, name, .launching func⟩ ∨
      (t.waitfor co command name (some func)).tasks co = some ⟨command, name, .waiting⟩ ∧
        ∃ waiters, t.service name = some (.table waiters true) := by
  unfold waitfor
  split
  · exact .inl (update_self ..)
  · exact .inl (update_self ..)
  · exact .inr (.inl (update_self ..))
  · rename_i waiters launch hentry
    cases launch with
    | false => exact .inr (.inl (update_self ..))
    | true => exact .inr (.inr ⟨update_self .., waiters, hentry⟩)

theorem isMaster_step {a : ServiceAction} {t' : ServiceMgr} (hstep : t.step a = some t') :
    t'.isMaster = t.isMaster := by
  cases a with
  | request r =>
    cases hstep
    cases r.resolve t.isMaster with
    | none => rfl
    | some p =>
      dsimp only
      unfold waitfor join
      repeat' split
      all_goals rfl
  | launchEnd co result =>
    simp only [step] at hstep
    split at hstep <;> cases hstep
    unfold requestEnd
    split <;> rfl
  | resume co =>
    simp only [step] at hstep
    split at hstep <;> cases hstep
    rfl

namespace GlobalInv

theorem create : GlobalInv (create false) where
  inv := .create false
  isMaster := rfl
  remote _ _ _ _ h := absurd h (by simp [ServiceMgr.create])
  launch _ _ h := absurd h (by simp [ServiceMgr.create])

theorem answer {t' : ServiceMgr} (co : ℕ) (h : GlobalInv t) (hinv : t'.Inv)
    (hmaster : t'.isMaster = t.isMaster) (htasks : t'.tasks = update t.tasks co none)
    (hco : ∀ command name func, t.tasks co ≠ some ⟨command, name, .launching func⟩) :
    GlobalInv t' where
  inv := hinv
  isMaster := hmaster.trans h.isMaster
  remote co' command name func htask := by
    rw [htasks] at htask
    by_cases hne : co' = co
    · rw [hne, update_self] at htask
      cases htask
    · rw [update_of_ne hne] at htask
      exact h.remote co' command name func htask
  launch co' name htask := by
    rw [htasks] at htask
    by_cases hne : co' = co
    · rw [hne, update_self] at htask
      cases htask
    · rw [update_of_ne hne] at htask
      obtain ⟨co₁, command, hl⟩ := h.launch co' name htask
      refine ⟨co₁, command, ?_⟩
      have hne' : co₁ ≠ co := by
        rintro rfl
        exact hco _ _ _ hl
      rw [htasks, update_of_ne hne', hl]

variable {t' : ServiceMgr} (h : GlobalInv t)
include h

/-- A new coroutine is suspended. If it waits for a launch, somebody has called `LAUNCH`. -/
theorem suspend {co : ℕ} {task : ServiceTask} (hinv : t'.Inv) (hmaster : t'.isMaster = t.isMaster)
    (hself : t'.tasks co = some task) (hother : ∀ co', co' ≠ co → t'.tasks co' = t.tasks co')
    (hnone : t.tasks co = none) (hfunc : ∀ func, task.stage = .launching func → ∃ c, func = .call c)
    (hwait : task.command = .GLAUNCH → task.stage = .waiting →
      ∃ co' command, t.tasks co' = some ⟨command, task.name, .launching (.call .launch)⟩) :
    GlobalInv t' where
  inv := hinv
  isMaster := hmaster.trans h.isMaster
  remote co' command name func htask := by
    by_cases hne : co' = co
    · rw [hne, hself] at htask
      cases htask
      exact hfunc func rfl
    · rw [hother co' hne] at htask
      exact h.remote co' command name func htask
  launch co' name htask := by
    have hlaunch : ∃ co' command,
        t.tasks co' = some ⟨command, name, .launching (.call .launch)⟩ := by
      by_cases hne : co' = co
      · rw [hne, hself] at htask
        cases htask
        exact hwait rfl rfl
      · rw [hother co' hne] at htask
        exact h.launch co' name htask
    obtain ⟨co₁, command, hl⟩ := hlaunch
    refine ⟨co₁, command, ?_⟩
    have hne : co₁ ≠ co := by
      rintro rfl
      rw [hnone] at hl
      cases hl
    rw [hother co₁ hne, hl]

theorem request {r : ServiceRequest} (hr : r.command = .GLAUNCH ∨ r.command = .GQUERY)
    (hq : t.Unqueried (.request r)) (hstep : t.step (.request r) = some t') : GlobalInv t' := by
  have hinv := h.inv.step hstep
  have hnone : t.tasks t.next = none := by
    by_contra hne
    exact Nat.lt_irrefl _ (h.inv.fresh t.next hne)
  cases hstep
  cases hres : r.resolve t.isMaster with
  | none =>
    rw [hres] at hinv
    exact h.answer t.next hinv rfl rfl fun _ _ _ heq => by rw [hnone] at heq; cases heq
  | some p =>
    obtain ⟨name, func⟩ := p
    rw [hres] at hinv
    obtain ⟨c, hc⟩ := resolve_global hr (h.isMaster ▸ hres)
    have hfunc : func = some (.call c) := hc
    subst hfunc
    let t₁ : ServiceMgr := { t with next := t.next + 1 }
    have hother : ∀ co', co' ≠ t.next →
        (t₁.waitfor t.next r.command name (some (.call c))).tasks co' = t.tasks co' :=
      waitfor_frame.1
    have hmaster : (t₁.waitfor t.next r.command name (some (.call c))).isMaster = t.isMaster := by
      have hstep : t.step (.request r) =
          some (t₁.waitfor t.next r.command name (some (.call c))) := by
        simp only [step, hres]
        rfl
      exact isMaster_step hstep
    obtain hself | hself | ⟨hself, waiters, hentry⟩ := tasks_waitfor_self t₁ t.next
      r.command name (.call c)
    · refine h.answer t.next hinv hmaster (funext fun co' => ?_) fun _ _ _ heq => ?_
      · by_cases hne : co' = t.next
        · rw [hne, update_self]
          exact hself
        · rw [update_of_ne hne]
          exact hother co' hne
      · rw [hnone] at heq
        cases heq
    · exact h.suspend hinv hmaster hself hother hnone (fun func heq => ⟨c, by cases heq; rfl⟩)
        fun _ heq => by cases heq
    · refine h.suspend hinv hmaster hself hother hnone (fun func heq => by cases heq)
        fun hcommand _ => ?_
      -- Somebody is launching, and has not sent a query.
      have hagrees := h.inv.agrees name
      have hentry' : t.service name = some (.table waiters true) := hentry
      rw [hentry'] at hagrees
      obtain ⟨co', command, func, hl⟩ := hagrees.2.1.mp rfl
      obtain ⟨c', rfl⟩ := h.remote co' command name func hl
      refine ⟨co', command, ?_⟩
      cases c' with
      | launch => exact hl
      | query =>
        have hlt := h.inv.fresh co' (by rw [hl]; simp)
        exact absurd ⟨co', hlt, by rw [hl]; rfl⟩ (hq hcommand _ hres)

theorem launchEnd {co : ℕ} {result : LaunchResult}
    (hstep : t.step (.launchEnd co result) = some t') : GlobalInv t' := by
  have hinv := h.inv.step hstep
  have hmaster := isMaster_step hstep
  simp only [step] at hstep
  split at hstep <;> cases hstep
  rename_i command name func htask
  obtain ⟨waiters, hentry⟩ := h.inv.table_of_launching ⟨command, func, htask⟩
  have htasks := fun co' =>
    tasks_requestEnd co co' result hentry
  -- What is suspended afterwards, was so before, except that a waiting one may be woken up.
  have hold : ∀ co' command' name' stage, stage ≠ .woken →
      (t.requestEnd co name result).tasks co' = some ⟨command', name', stage⟩ →
        t.tasks co' = some ⟨command', name', stage⟩ ∧ co' ≠ co := by
    intro co' command' name' stage hstage htask'
    rw [htasks] at htask'
    split_ifs at htask' with hco hin
    · refine ⟨?_, hco⟩
      unfold wakeTask at htask'
      split at htask'
      · cases htask'
        exact absurd rfl hstage
      · exact htask'
    · exact ⟨htask', hco⟩
  refine ⟨hinv, hmaster.trans h.isMaster, fun co' command' name' func' htask' => ?_,
    fun co' name' htask' => ?_⟩
  · exact h.remote co' command' name' func' (hold co' _ _ _ (by simp) htask').1
  · obtain ⟨hwait, -⟩ := hold co' _ _ _ (by simp) htask'
    obtain ⟨co₁, command₁, hl⟩ := h.launch co' name' hwait
    refine ⟨co₁, command₁, ?_⟩
    -- The launch that ends is that of another name: else its waiters would be woken up.
    have hname : name' ≠ name := by
      rintro rfl
      obtain ⟨_, hwoken⟩ := woken_requestEnd result h.inv ⟨command, func, htask⟩ ⟨.GLAUNCH, hwait⟩
      rw [htask'] at hwoken
      cases hwoken
    have hne : co₁ ≠ co := by
      rintro rfl
      rw [htask] at hl
      cases hl
      exact hname rfl
    rw [htasks, if_neg hne, hl]
    simp [wakeTask]

theorem step {a : ServiceAction} (ha : GlobalOnly a) (hq : t.Unqueried a)
    (hstep : t.step a = some t') : GlobalInv t' := by
  cases a with
  | request r => exact h.request ha hq hstep
  | launchEnd co result => exact h.launchEnd hstep
  | resume co =>
    have hinv := h.inv.step hstep
    simp only [ServiceMgr.step] at hstep
    split at hstep <;> cases hstep
    rename_i command name htask
    exact h.answer co hinv rfl rfl fun _ _ _ heq => by rw [htask] at heq; cases heq

end GlobalInv

/-- In a run of global requests in which a `GLAUNCH` arrives only when no `QUERY` for its name is
open: for every `GLAUNCH` that waits, `LAUNCH` was sent to the master and is not answered. -/
theorem launch_sent {w : List ServiceAction}
    (h : Run step (fun t a => GlobalOnly a ∧ t.Unqueried a) (create false) w t) (co : ℕ)
    (name : LuaString) (hco : t.tasks co = some ⟨.GLAUNCH, name, .waiting⟩) :
    ∃ co' command, t.tasks co' = some ⟨command, name, .launching (.call .launch)⟩ := by
  have hinv : GlobalInv t :=
    h.invariant .create fun hguard hstep hinv => hinv.step hguard.1 hguard.2 hstep
  exact hinv.launch co name hco

/-- Two launches and a query. -/
theorem launch_sent_twice :
    ∃ t, exec (guarded step fun t a => GlobalOnly a ∧ t.Unqueried a) (create false)
        [.request ⟨.GLAUNCH, [97], none⟩, .request ⟨.GQUERY, [97], none⟩,
          .request ⟨.GLAUNCH, [97], none⟩] = some t ∧
      ∃ co' command, t.tasks co' = some ⟨command, [64, 97], .launching (.call .launch)⟩ := by
  obtain ⟨t, ht, htask⟩ : ∃ t, exec (guarded step fun t a => GlobalOnly a ∧ t.Unqueried a)
      (create false) [.request ⟨.GLAUNCH, [97], none⟩, .request ⟨.GQUERY, [97], none⟩,
        .request ⟨.GLAUNCH, [97], none⟩] = some t ∧
      t.tasks 2 = some ⟨.GLAUNCH, [64, 97], .waiting⟩ := ⟨_, rfl, rfl⟩
  exact ⟨t, ht, launch_sent (run_of_exec_guarded ht) 2 _ htask⟩

/-- A query comes first: the launch waits, and only the query was sent. -/
theorem launch_starved : ∃ t, exec step (create false)
        [.request ⟨.GQUERY, [97], none⟩, .request ⟨.GLAUNCH, [97], none⟩] = some t ∧
      t.service [64, 97] = some (.table [1] true) ∧
      t.tasks 0 = some ⟨.GQUERY, [64, 97], .launching (.call .query)⟩ ∧
      t.tasks 1 = some ⟨.GLAUNCH, [64, 97], .waiting⟩ ∧
      ∀ co command name, t.tasks co ≠ some ⟨command, name, .launching (.call .launch)⟩ := by
  refine ⟨_, rfl, rfl, rfl, rfl, fun co command name => ?_⟩
  match co with
  | 0 => exact fun h => by cases h
  | 1 => exact fun h => by cases h
  | _ + 2 => exact fun h => by cases h

end ServiceMgr

end Uboss.Service
