import Uboss.Lib.LuaValue
import Uboss.Math.Transition

/-!
# The master and the slaves

`cmaster.lua` and the `cslave.lua` of every node, as far as they are about global names. Each slave
has a link to the master; what was written and not read yet is a list in each direction. The
packages `W`, `C` and `D`, which are about the links between the slaves, are left out. A slave
starts once and its link is never lost: a slave that starts again, or connects once more, is left
out too.
-/

namespace Uboss.Service

open Lib Function

/-! ### Packages -/

/-- The bytes that `wb_string` writes for a string of this length. -/
def wbString (len : ℕ) : ℕ :=
  if len < 32 then 1 + len else if len < 0x10000 then 3 + len else 5 + len

/-- The bytes that `wb_integer` writes. -/
def wbInteger (v : Int64) : ℕ :=
  if v = 0 then 1
  else if v ≠ v.toInt32.toInt64 then 9
  else if v < 0 then 5
  else if v < 0x100 then 2
  else if v < 0x10000 then 3
  else 5

/-- The size of a package with a type, a name and perhaps an address. -/
def packageSize (name : LuaString) (address : Option Int64) : ℕ :=
  wbString 1 + wbString name.length + (address.map wbInteger).getD 0

/-- `assert(size <= 255, "too long")` of `pack_package`. -/
def Fits (name : LuaString) (address : Option Int64) : Prop := packageSize name address ≤ 255

instance (name : LuaString) (address : Option Int64) : Decidable (Fits name address) :=
  inferInstanceAs (Decidable (_ ≤ _))

/-- From a slave to the master: `H`, `R` and `Q`. -/
inductive SlavePackage
  | handshake
  | register (name : LuaString) (address : Int64)
  | query (name : LuaString)
  deriving DecidableEq

/-- From the master to a slave: `N`. -/
inductive MasterPackage
  | name (name : LuaString) (address : Int64)
  deriving DecidableEq

/-! ### A slave -/

/-- What a slave does, other than to write to the master. -/
inductive SlaveEvent
  /-- `uboss.redirect(harbor_service, address, "harbor", 0, "N " .. name)`. -/
  | redirect (name : LuaString) (address : Int64)
  /-- The same for all entries of the table. -/
  | redirectAll (globalname : LuaString → Option Int64)
  /-- The answer to `QUERYNAME`. -/
  | response (session : ℕ) (address : Option Int64)
  /-- The answer is that of `uboss.localname`. -/
  | localname (session : ℕ) (name : LuaString)
  /-- An assertion fails. -/
  | failed

/-- The variables of `cslave.lua`. -/
structure ClusterSlave where
  globalname : LuaString → Option Int64
  /-- The sessions that wait for the answer to `QUERYNAME`. -/
  queryname : LuaString → Option (List ℕ)
  /-- `connect_queue == nil`. -/
  isReady : Bool
  log : List SlaveEvent

/-- What a slave is asked for. -/
inductive SlaveRequest
  | register (name : LuaString) (handle : Int64)
  | queryname (session : ℕ) (name : LuaString)
  /-- The text `Q name` of the harbor service. -/
  | text (name : LuaString)
  | ready

namespace ClusterSlave

variable (s : ClusterSlave)

def create : ClusterSlave := ⟨fun _ => none, fun _ => none, false, []⟩

def emit (es : List SlaveEvent) : ClusterSlave := { s with log := s.log ++ es }

/-- `globalname[name] = address`. -/
def setName (name : LuaString) (address : Int64) : ClusterSlave :=
  { s with globalname := update s.globalname name (some address) }

def responseName (name : LuaString) : ClusterSlave :=
  match s.queryname name with
  | none => s
  | some tmp =>
    { s with
      queryname := update s.queryname name none
      log := s.log ++ tmp.map fun resp => .response resp (s.globalname name) }

def ready : ClusterSlave := { s with isReady := true }.emit [.redirectAll s.globalname]

/-- The branch `N` of `monitor_master`. -/
def monitorMaster (name : LuaString) (address : Int64) : ClusterSlave :=
  let s := (s.setName name address).responseName name
  if s.isReady then s.emit [.redirect name address] else s

/-- The branch `Q` of `monitor_harbor`. -/
def monitorHarbor (name : LuaString) : ClusterSlave × List SlavePackage :=
  match s.globalname name with
  | some address => (s.emit [.redirect name address], [])
  | none => if Fits name none then (s, [.query name]) else (s.emit [.failed], [])

/-- `harbor.REGISTER`. The name is in the table before the package is made. -/
def register (name : LuaString) (handle : Int64) : ClusterSlave × List SlavePackage :=
  if s.globalname name = none then
    let s := (s.setName name handle).responseName name
    if Fits name (some handle) then (s.emit [.redirect name handle], [.register name handle])
    else (s.emit [.failed], [])
  else (s.emit [.failed], [])

/-- `harbor.QUERYNAME`. -/
def queryName (session : ℕ) (name : LuaString) : ClusterSlave × List SlavePackage :=
  if name.head? = some '.'.toUInt8 then (s.emit [.localname session name], [])
  else
    match s.globalname name with
    | some result => (s.emit [.response session (some result)], [])
    | none =>
      match s.queryname name with
      | none =>
        if Fits name none then
          ({ s with queryname := update s.queryname name (some [session]) }, [.query name])
        else (s.emit [.failed], [])
      | some queue =>
        ({ s with queryname := update s.queryname name (some (queue ++ [session])) }, [])

/-- A request, and what is written to the master. -/
def serve : SlaveRequest → ClusterSlave × List SlavePackage
  | .register name handle => s.register name handle
  | .queryname session name => s.queryName session name
  | .text name => s.monitorHarbor name
  | .ready => (s.ready, [])

end ClusterSlave

/-! ### The master -/

/-- The variables of `cmaster.lua`. -/
structure ClusterMaster where
  /-- The slaves that have shaken hands. -/
  slaveNode : ℕ → Bool
  globalName : LuaString → Option Int64

namespace ClusterMaster

variable (m : ClusterMaster)

def create : ClusterMaster := ⟨fun _ => false, fun _ => none⟩

/-- The table after `R`: the first address of a name is kept. -/
def addName (name : LuaString) (address : Int64) : LuaString → Option Int64 :=
  if m.globalName name = none then update m.globalName name (some address)
  else m.globalName

/-- `handshake` and `dispatch_slave`, for a package of the slave `i`: what is written to each slave.
There is no result if an assertion fails. -/
def dispatch (i : ℕ) : SlavePackage → Option (ClusterMaster × (ℕ → List MasterPackage))
  | .handshake =>
    -- `assert(slave_id ~= 0)`, and `assert(slave_node[slave_id] == nil)`
    if i = 0 ∨ m.slaveNode i then none
    else some ({ m with slaveNode := update m.slaveNode i true }, fun _ => [])
  | .register name address =>
    if Fits name (some address) then
      some ({ m with globalName := m.addName name address },
        fun j => if m.slaveNode j then [.name name address] else [])
    else none
  | .query name =>
    match m.globalName name with
    | none => some (m, fun _ => [])
    | some address =>
      if Fits name (some address) then
        some (m, fun j => if j = i then [.name name address] else [])
      else none

end ClusterMaster

/-! ### The cluster -/

/-- The services and the links between them. -/
structure Cluster where
  master : ClusterMaster
  slave : ℕ → ClusterSlave
  started : ℕ → Bool
  /-- What a slave has written and the master has not read. -/
  up : ℕ → List SlavePackage
  /-- What the master has written and the slave has not read. -/
  down : ℕ → List MasterPackage

/-- What happens next: a start, a request, or the receipt of a package. -/
inductive ClusterAct
  | start (i : ℕ)
  | request (i : ℕ) (r : SlaveRequest)
  | toMaster (i : ℕ)
  | toSlave (i : ℕ)

namespace Cluster

variable (c : Cluster)

def create : Cluster where
  master := .create
  slave _ := .create
  started _ := false
  up _ := []
  down _ := []

/-- The slave `i` has done something, and has written some packages. -/
def setSlave (i : ℕ) (s : ClusterSlave) (ps : List SlavePackage) : Cluster :=
  { c with
    slave := update c.slave i s
    up := update c.up i (c.up i ++ ps) }

/-- One step of one service. -/
def step : ClusterAct → Option Cluster
  | .start i =>
    if c.started i then none
    else some { c.setSlave i .create [.handshake] with started := update c.started i true }
  | .request i r =>
    if c.started i then some (c.setSlave i ((c.slave i).serve r).1 ((c.slave i).serve r).2)
    else none
  | .toMaster i =>
    match c.up i with
    | [] => none
    | p :: rest =>
      (c.master.dispatch i p).map fun result =>
        { c with
          master := result.1
          up := update c.up i rest
          down := fun j => c.down j ++ result.2 j }
  | .toSlave i =>
    match c.down i with
    | [] => none
    | .name name address :: rest => some
      { c with
        slave := update c.slave i ((c.slave i).monitorMaster name address)
        down := update c.down i rest }

/-- No package is in flight. -/
def Quiet : Prop := ∀ i, c.up i = [] ∧ c.down i = []

/-- Every slave that knows a name has the address that the master has for it. -/
def Agrees : Prop := ∀ i name address, (c.slave i).globalname name = some address →
    c.master.globalName name = some address

end Cluster

end Uboss.Service
