import Uboss.Math.PartialMap
import Uboss.Service.Cluster

/-!
# Agreement on names

When no package is in flight, the slaves have the addresses that the master has, as long as a name
is registered with one address only. The master keeps the first address of a name, but sends the
others on to the slaves, which keep the last one.
-/

namespace Uboss.Service

open Math Lib Function List

namespace ClusterSlave

variable {s : ClusterSlave} {name : LuaString} {address : Int64}

@[simp] theorem emit_globalname (es : List SlaveEvent) : (s.emit es).globalname = s.globalname :=
  rfl

@[simp] theorem responseName_globalname : (s.responseName name).globalname = s.globalname := by
  unfold responseName
  split <;> rfl

theorem monitorMaster_globalname : (s.monitorMaster name address).globalname =
    update s.globalname name (some address) := by
  unfold monitorMaster
  dsimp only
  split_ifs
  · rw [emit_globalname, responseName_globalname, setName]
  · rw [responseName_globalname, setName]

/-- A request that leaves the table as it is, and registers no name. -/
def Plain (s : ClusterSlave) (x : ClusterSlave × List SlavePackage) : Prop :=
  x.1.globalname = s.globalname ∧ (x.2 = [] ∨ ∃ name, x.2 = [.query name])

theorem plain_queryName (s : ClusterSlave) (session : ℕ) (name : LuaString) :
    s.Plain (s.queryName session name) := by
  unfold queryName
  by_cases hdot : name.head? = some '.'.toUInt8
  · rw [if_pos hdot]
    exact ⟨rfl, .inl rfl⟩
  rw [if_neg hdot]
  split
  · exact ⟨rfl, .inl rfl⟩
  · split
    · split_ifs
      · exact ⟨rfl, .inr ⟨name, rfl⟩⟩
      · exact ⟨rfl, .inl rfl⟩
    · exact ⟨rfl, .inl rfl⟩

theorem plain_monitorHarbor (s : ClusterSlave) (name : LuaString) :
    s.Plain (s.monitorHarbor name) := by
  unfold monitorHarbor
  split
  · exact ⟨rfl, .inl rfl⟩
  · split_ifs
    · exact ⟨rfl, .inr ⟨name, rfl⟩⟩
    · exact ⟨rfl, .inl rfl⟩

/-- Only `REGISTER` changes the table, and its package is sent if it fits. -/
theorem serve_cases (s : ClusterSlave) (r : SlaveRequest) : s.Plain (s.serve r) ∨
    ∃ name handle, r = .register name handle ∧ s.globalname name = none ∧
      (s.serve r).1.globalname = update s.globalname name (some handle) ∧
      (s.serve r).2 = if Fits name (some handle) then [.register name handle] else [] := by
  cases r with
  | register name handle =>
    rw [serve, register]
    split_ifs with hnone hfits
    · refine .inr ⟨name, handle, rfl, hnone, ?_, (if_pos hfits).symm⟩
      rw [emit_globalname, responseName_globalname, setName]
    · refine .inr ⟨name, handle, rfl, hnone, ?_, (if_neg hfits).symm⟩
      rw [emit_globalname, responseName_globalname, setName]
    · exact .inl ⟨rfl, .inl rfl⟩
  | queryname session name => exact .inl (s.plain_queryName session name)
  | text name => exact .inl (s.plain_monitorHarbor name)
  | ready => exact .inl ⟨rfl, .inl rfl⟩

theorem Plain.register_notMem {x : ClusterSlave × List SlavePackage} (hx : s.Plain x) :
    .register name address ∉ x.2 := by
  intro hmem
  rcases hx.2 with hnil | ⟨name', hquery⟩
  · rw [hnil] at hmem
    cases hmem
  · rw [hquery, mem_singleton] at hmem
    cases hmem

end ClusterSlave

theorem ClusterMaster.addName_eq_some {m : ClusterMaster} {name name' : LuaString}
    {address address' : Int64} (h : m.addName name address name' = some address') :
    m.globalName name' = some address' ∨ name' = name ∧ address' = address := by
  rw [addName] at h
  split_ifs at h with hnone
  · rw [update_some_eq_some_iff] at h
    rcases h with ⟨hname, haddress⟩ | ⟨-, hold⟩
    · exact .inr ⟨hname, haddress.symm⟩
    · exact .inl hold
  · exact .inl h

/-- Only `R` changes the table, and its address is sent on. Otherwise the slaves get what is in the
table. -/
theorem ClusterMaster.dispatch_cases {m m' : ClusterMaster} {i : ℕ} {p : SlavePackage}
    {out : ℕ → List MasterPackage} (h : m.dispatch i p = some (m', out)) :
    (m'.globalName = m.globalName ∧ (∀ name address, p ≠ .register name address) ∧
      ∀ j name address, .name name address ∈ out j → m.globalName name = some address) ∨
    ∃ name address, p = .register name address ∧ m'.globalName = m.addName name address ∧
      ∀ j, ∀ q ∈ out j, q = .name name address := by
  cases p with
  | handshake =>
    rw [dispatch] at h
    split_ifs at h with hnode
    obtain ⟨rfl, rfl⟩ := Prod.mk.inj (Option.some_inj.mp h)
    refine .inl ⟨rfl, fun _ _ => nofun, fun j name address hmem => ?_⟩
    cases hmem
  | register name address =>
    rw [dispatch] at h
    split_ifs at h with hfits
    obtain ⟨rfl, rfl⟩ := Prod.mk.inj (Option.some_inj.mp h)
    refine .inr ⟨name, address, rfl, rfl, fun j q hmem => ?_⟩
    dsimp only at hmem
    split_ifs at hmem
    · exact mem_singleton.mp hmem
    · cases hmem
  | query name =>
    rw [dispatch] at h
    split at h
    next hnone =>
      obtain ⟨rfl, rfl⟩ := Prod.mk.inj (Option.some_inj.mp h)
      refine .inl ⟨rfl, fun _ _ => nofun, fun j name address hmem => ?_⟩
      cases hmem
    next address hsome =>
      split_ifs at h with hfits
      obtain ⟨rfl, rfl⟩ := Prod.mk.inj (Option.some_inj.mp h)
      refine .inl ⟨rfl, fun _ _ => nofun, fun j name' address' hmem => ?_⟩
      dsimp only at hmem
      split_ifs at hmem
      · obtain ⟨rfl, rfl⟩ := MasterPackage.name.inj (mem_singleton.mp hmem)
        exact hsome
      · cases hmem

namespace Cluster

variable {c c' : Cluster} {i j : ℕ} {name : LuaString} {address : Int64} {a : ClusterAct}

section Fields

variable (c : Cluster) (i : ℕ) (s : ClusterSlave) (ps : List SlavePackage)

theorem setSlave_up_self : (c.setSlave i s ps).up i = c.up i ++ ps := update_self ..

theorem setSlave_up_of_ne (hj : j ≠ i) : (c.setSlave i s ps).up j = c.up j := update_of_ne hj ..

theorem setSlave_slave_self : (c.setSlave i s ps).slave i = s := update_self ..

theorem setSlave_slave_of_ne (hj : j ≠ i) : (c.setSlave i s ps).slave j = c.slave j :=
  update_of_ne hj ..

end Fields

variable {s : ClusterSlave} {p : SlavePackage} {m : ClusterMaster} {out : ℕ → List MasterPackage}

/-! ### Addresses that were registered -/

/-- The master has the address for the name, or it is on its way to the master. -/
def Claims (c : Cluster) (name : LuaString) (address : Int64) : Prop :=
  c.master.globalName name = some address ∨ ∃ i, .register name address ∈ c.up i

theorem claims_setSlave {ps : List SlavePackage} : (c.setSlave i s ps).Claims name address ↔
      c.Claims name address ∨ .register name address ∈ ps := by
  have hup : (∃ j, .register name address ∈ (c.setSlave i s ps).up j) ↔
      (∃ j, .register name address ∈ c.up j) ∨ .register name address ∈ ps := by
    constructor
    · rintro ⟨j, hj⟩
      by_cases hji : j = i
      · rw [hji, setSlave_up_self] at hj
        exact (mem_append.mp hj).imp_left fun hold => ⟨i, hold⟩
      · rw [setSlave_up_of_ne _ _ _ _ hji] at hj
        exact .inl ⟨j, hj⟩
    · rintro (⟨j, hj⟩ | hnew)
      · refine ⟨j, ?_⟩
        by_cases hji : j = i
        · rw [hji] at hj ⊢
          rw [setSlave_up_self]
          exact mem_append_left ps hj
        · rwa [setSlave_up_of_ne _ _ _ _ hji]
      · refine ⟨i, ?_⟩
        rw [setSlave_up_self]
        exact mem_append_right (c.up i) hnew
  rw [Claims, hup, ← or_assoc]
  rfl

theorem exists_mem_update_tail {p q : SlavePackage} {rest : List SlavePackage}
    (hup : c.up i = p :: rest) :
    (∃ j, q ∈ c.up j) ↔ q = p ∨ ∃ j, q ∈ update c.up i rest j := by
  constructor
  · rintro ⟨j, hj⟩
    by_cases hji : j = i
    · rw [hji, hup] at hj
      refine (mem_cons.mp hj).imp_right fun hrest => ⟨i, ?_⟩
      rwa [update_self]
    · exact .inr ⟨j, by rwa [update_of_ne hji]⟩
  · rintro (rfl | ⟨j, hj⟩)
    · exact ⟨i, by rw [hup]; exact mem_cons_self⟩
    · by_cases hji : j = i
      · rw [hji, update_self] at hj
        exact ⟨i, by rw [hup]; exact mem_cons_of_mem p hj⟩
      · rw [update_of_ne hji] at hj
        exact ⟨j, hj⟩

/-! ### The invariant -/

/-- A name has one address, and every address in a table or in flight was registered. -/
structure Coherent (c : Cluster) : Prop where
  unique : ∀ name a b, c.Claims name a → c.Claims name b → a = b
  slave : ∀ i name address, (c.slave i).globalname name = some address → c.Claims name address
  down : ∀ i name address, .name name address ∈ c.down i → c.Claims name address

theorem coherent_create : Coherent create where
  unique := by
    rintro name a b (h | ⟨i, h⟩)
    · cases h
    · cases h
  slave i name address h := by cases h
  down i name address h := by cases h

theorem Coherent.of_claims_iff (hc : c.Coherent)
    (hclaims : ∀ name address, c'.Claims name address ↔ c.Claims name address)
    (hslave : ∀ i name address, (c'.slave i).globalname name = some address → c.Claims name address)
    (hdown : ∀ i name address, .name name address ∈ c'.down i → c.Claims name address) :
    c'.Coherent where
  unique name a b ha hb := hc.unique name a b ((hclaims name a).mp ha) ((hclaims name b).mp hb)
  slave i name address h := (hclaims name address).mpr (hslave i name address h)
  down i name address h := (hclaims name address).mpr (hdown i name address h)

/-- A step that registers no second address for a name, and whose package can be sent. A name that
the slave already knows is not registered. -/
def Sole (c : Cluster) : ClusterAct → Prop
  | .request i (.register name handle) =>
    (c.slave i).globalname name = none →
      Fits name (some handle) ∧ ∀ address, c.Claims name address → address = handle
  | _ => True

theorem Coherent.register (hc : c.Coherent) {handle : Int64}
    (hsole : ∀ address, c.Claims name address → address = handle)
    (hs : s.globalname = update (c.slave i).globalname name (some handle)) :
    (c.setSlave i s [.register name handle]).Coherent := by
  have hclaims : ∀ name' address, (c.setSlave i s [.register name handle]).Claims name' address ↔
      c.Claims name' address ∨ name' = name ∧ address = handle := by
    intro name' address
    rw [claims_setSlave, mem_singleton, SlavePackage.register.injEq]
  refine ⟨fun name' a b ha hb => ?_, fun j name' address h => ?_, fun j name' address h => ?_⟩
  · rcases (hclaims name' a).mp ha with ha | ⟨hname, ha⟩ <;>
      rcases (hclaims name' b).mp hb with hb | ⟨hname', hb⟩
    · exact hc.unique name' a b ha hb
    · rw [hname'] at ha
      rw [hb]
      exact hsole a ha
    · rw [hname] at hb
      rw [ha]
      exact (hsole b hb).symm
    · rw [ha, hb]
  · rw [hclaims]
    by_cases hj : j = i
    · subst hj
      rw [setSlave_slave_self, hs, update_some_eq_some_iff] at h
      rcases h with ⟨hname, haddress⟩ | ⟨-, h⟩
      · exact .inr ⟨hname, haddress.symm⟩
      · exact .inl (hc.slave j name' address h)
    · rw [setSlave_slave_of_ne _ _ _ _ hj] at h
      exact .inl (hc.slave j name' address h)
  · rw [hclaims]
    exact .inl (hc.down j name' address h)

theorem Coherent.request (hc : c.Coherent) {r : SlaveRequest} (hsole : c.Sole (.request i r)) :
    (c.setSlave i ((c.slave i).serve r).1 ((c.slave i).serve r).2).Coherent := by
  rcases (c.slave i).serve_cases r with hplain | ⟨name, handle, rfl, hnone, htable, hps⟩
  · refine hc.of_claims_iff (fun name address => ?_) (fun j name address h => ?_) hc.down
    · rw [claims_setSlave, or_iff_left hplain.register_notMem]
    · by_cases hj : j = i
      · subst hj
        rw [setSlave_slave_self, hplain.1] at h
        exact hc.slave j name address h
      · rw [setSlave_slave_of_ne _ _ _ _ hj] at h
        exact hc.slave j name address h
  · obtain ⟨hfits, hone⟩ := hsole hnone
    rw [if_pos hfits] at hps
    rw [hps]
    exact hc.register hone htable

/-- Reading a package, the master gets no address that was not registered. -/
theorem claims_of_toMaster {rest : List SlavePackage} {out down : ℕ → List MasterPackage}
    (hup : c.up i = p :: rest) (hdispatch : c.master.dispatch i p = some (m, out))
    (h : Claims { c with master := m, up := update c.up i rest, down := down }
      name address) : c.Claims name address := by
  rcases h with hmaster | hrest
  · rcases ClusterMaster.dispatch_cases hdispatch with
      ⟨hm, -, -⟩ | ⟨name', address', rfl, hm, -⟩
    · exact .inl (hm ▸ hmaster)
    · rw [hm] at hmaster
      rcases ClusterMaster.addName_eq_some hmaster with hold | ⟨rfl, rfl⟩
      · exact .inl hold
      · exact .inr ⟨i, by rw [hup]; exact mem_cons_self⟩
  · exact .inr ((exists_mem_update_tail hup).mpr (.inr hrest))

section

variable (hc : c.Coherent)
include hc

/-- No address is forgotten: if the name has one already, it is the same. -/
theorem Coherent.claims_register {rest : List SlavePackage} {down : ℕ → List MasterPackage}
    (hup : c.up i = .register name address :: rest)
    (hm : m.globalName = c.master.addName name address) {name' : LuaString} {address' : Int64}
    (h : c.Claims name' address') :
    Claims { c with master := m, up := update c.up i rest, down := down } name' address' := by
  have hhead : c.Claims name address := .inr ⟨i, by rw [hup]; exact mem_cons_self⟩
  rcases h with hmaster | hmem
  · refine .inl (hm ▸ ?_)
    rw [ClusterMaster.addName]
    split_ifs with hnone
    · rw [update_of_ne, hmaster]
      rintro rfl
      rw [hnone] at hmaster
      cases hmaster
    · exact hmaster
  · rcases (exists_mem_update_tail hup).mp hmem with heq | hrest
    · obtain ⟨rfl, rfl⟩ := SlavePackage.register.inj heq
      refine .inl (hm ▸ ?_)
      rw [ClusterMaster.addName]
      split_ifs with hnone
      · exact update_self ..
      · obtain ⟨b, hb⟩ := Option.ne_none_iff_exists'.mp hnone
        rw [hb, hc.unique name' b address' (.inl hb) hhead]
    · exact .inr hrest

theorem Coherent.toMaster {rest : List SlavePackage} (hup : c.up i = p :: rest)
    (hdispatch : c.master.dispatch i p = some (m, out)) :
    Coherent { c with
      master := m
      up := update c.up i rest
      down := fun j => c.down j ++ out j } := by
  rcases ClusterMaster.dispatch_cases hdispatch with
    ⟨hm, hp, hout⟩ | ⟨name, address, rfl, hm, hout⟩
  · refine hc.of_claims_iff
      (fun name address => ⟨claims_of_toMaster hup hdispatch, fun h => ?_⟩) hc.slave
      (fun j name address h => ?_)
    · rw [Claims, exists_mem_update_tail hup, or_iff_right (hp name address).symm, ← hm] at h
      exact h
    · rcases mem_append.mp h with hold | hnew
      · exact hc.down j name address hold
      · exact .inl (hout j name address hnew)
  · refine hc.of_claims_iff
      (fun _ _ => ⟨claims_of_toMaster hup hdispatch, hc.claims_register hup hm⟩) hc.slave
      (fun j name' address' h => ?_)
    rcases mem_append.mp h with hold | hnew
    · exact hc.down j name' address' hold
    · obtain ⟨rfl, rfl⟩ := MasterPackage.name.inj (hout j _ hnew)
      exact .inr ⟨i, by rw [hup]; exact mem_cons_self⟩

theorem Coherent.toSlave {rest : List MasterPackage}
    (hdown : c.down i = .name name address :: rest) :
    Coherent { c with
      slave := update c.slave i ((c.slave i).monitorMaster name address)
      down := update c.down i rest } := by
  refine hc.of_claims_iff (fun _ _ => Iff.rfl) (fun j name' address' h => ?_)
    (fun j name' address' h => ?_)
  · dsimp only at h
    by_cases hj : j = i
    · subst hj
      rw [update_self, ClusterSlave.monitorMaster_globalname, update_some_eq_some_iff] at h
      rcases h with ⟨rfl, rfl⟩ | ⟨-, h⟩
      · exact hc.down j _ _ (by rw [hdown]; exact mem_cons_self)
      · exact hc.slave j _ _ h
    · rw [update_of_ne hj] at h
      exact hc.slave j _ _ h
  · dsimp only at h
    by_cases hj : j = i
    · subst hj
      rw [update_self] at h
      exact hc.down j _ _ (by rw [hdown]; exact mem_cons_of_mem _ h)
    · rw [update_of_ne hj] at h
      exact hc.down j _ _ h

theorem Coherent.start {started : ℕ → Bool} :
    Coherent { c.setSlave i .create [.handshake] with started := started } := by
  refine hc.of_claims_iff (fun name address => ?_) (fun j name address h => ?_) hc.down
  · have hclaims : (c.setSlave i .create [.handshake]).Claims name address ↔ _ := claims_setSlave
    rwa [or_iff_left (by simp)] at hclaims
  · by_cases hj : j = i
    · subst hj
      rw [setSlave_slave_self] at h
      cases h
    · rw [setSlave_slave_of_ne _ _ _ _ hj] at h
      exact hc.slave j name address h

theorem Coherent.step (hsole : c.Sole a) (hstep : c.step a = some c') : c'.Coherent := by
  cases a with
  | start i =>
    rw [Cluster.step] at hstep
    split_ifs at hstep with hstarted
    obtain rfl := Option.some_inj.mp hstep
    exact hc.start
  | request i r =>
    rw [Cluster.step] at hstep
    split_ifs at hstep with hstarted
    obtain rfl := Option.some_inj.mp hstep
    exact hc.request hsole
  | toMaster i =>
    rw [Cluster.step] at hstep
    split at hstep
    · cases hstep
    next p rest hup =>
      obtain ⟨⟨m, out⟩, hdispatch, rfl⟩ := Option.map_eq_some_iff.mp hstep
      exact hc.toMaster hup hdispatch
  | toSlave i =>
    rw [Cluster.step] at hstep
    split at hstep
    · cases hstep
    next name address rest hdown =>
      obtain rfl := Option.some_inj.mp hstep
      exact hc.toSlave hdown

/-! ### Runs -/

end

/-- When no package is in flight, every slave that knows a name has the address that the master has,
in every run that registers no second address for a name. -/
theorem agrees_of_run (w : List ClusterAct) (c : Cluster) (hrun : Run step Sole create w c)
    (hquiet : c.Quiet) : c.Agrees := by
  have hc : c.Coherent := hrun.invariant coherent_create fun hsole hstep hc => hc.step hsole hstep
  intro i name address h
  rcases hc.slave i name address h with hmaster | ⟨j, hj⟩
  · exact hmaster
  · rw [(hquiet j).1] at hj
    cases hj

/-- Two slaves shake hands with the master. -/
def twoSlaves : List ClusterAct := [.start 1, .start 2, .toMaster 1, .toMaster 2]

/-- The cluster after some steps. -/
def after (w : List ClusterAct) : Cluster := (exec step create w).getD create

/-- The first slave registers the name `x`, and its address is known everywhere. -/
theorem agrees_of_run_one :
    ∃ w c, Run step Sole create w c ∧ c.Quiet ∧ (c.slave 2).globalname [120] = some 0x01000009 ∧
      c.master.globalName [120] = some 0x01000009 := by
  let w : List ClusterAct := twoSlaves ++
    [.request 1 (.register [120] 0x01000009), .toMaster 1, .toSlave 1, .toSlave 2]
  have hsole : Sole (after twoSlaves) (.request 1 (.register [120] 0x01000009)) := by
    refine fun _ => ⟨by decide, fun address hclaims => ?_⟩
    rcases hclaims with hmaster | ⟨i, hi⟩
    · cases hmaster
    · match i with
      | 0 | 1 | 2 | _ + 3 => cases hi
  have hstarted : Run step Sole create [.start 1, .start 2] (after [.start 1, .start 2]) :=
    ((Run.nil create).snoc (a := ClusterAct.start 1) trivial rfl).snoc
      (a := ClusterAct.start 2) trivial rfl
  have hready : Run step Sole create twoSlaves (after twoSlaves) :=
    (hstarted.snoc (a := ClusterAct.toMaster 1) trivial rfl).snoc
      (a := ClusterAct.toMaster 2) trivial rfl
  have hrun : Run step Sole create w (after w) :=
    (((hready.snoc hsole rfl).snoc (a := ClusterAct.toMaster 1) trivial rfl).snoc
      (a := ClusterAct.toSlave 1) trivial rfl).snoc (a := ClusterAct.toSlave 2) trivial rfl
  have hquiet : (after w).Quiet := by
    intro i
    match i with
    | 0 | 1 | 2 | _ + 3 => exact ⟨rfl, rfl⟩
  exact ⟨w, after w, hrun, hquiet, rfl, agrees_of_run w (after w) hrun hquiet 2 _ _ rfl⟩

/-- Two slaves register the name `x`. The master keeps the first address, the slaves keep the
last. -/
theorem two_addresses_disagree : ∃ c, Reachable step create c ∧ c.Quiet ∧ ¬ c.Agrees := by
  let w : List ClusterAct := twoSlaves ++
    [.request 1 (.register [120] 0x01000009), .request 2 (.register [120] 0x02000009),
      .toMaster 1, .toMaster 2, .toSlave 1, .toSlave 1, .toSlave 2, .toSlave 2]
  have hreach : Reachable step create (after w) := reachable_of_exec (w := w) rfl
  have hquiet : (after w).Quiet := by
    intro i
    match i with
    | 0 | 1 | 2 | _ + 3 => exact ⟨rfl, rfl⟩
  refine ⟨after w, hreach, hquiet, fun hagrees => ?_⟩
  have hslave : ((after w).slave 1).globalname [120] = some 0x02000009 := rfl
  have hmaster : (after w).master.globalName [120] = some 0x01000009 := rfl
  have heq := hmaster.symm.trans (hagrees 1 [120] _ hslave)
  exact absurd heq (by decide)

end Cluster

end Uboss.Service
