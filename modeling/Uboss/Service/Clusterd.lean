import Uboss.Lib.ClusterCore

/-!
# The service that answers other clusters

`command.socket` of `clusterd.lua`. The gate calls it for every package of a connection, and when a
connection is opened, closed, broken or slow. A request is handed over before the function yields
for the first time, so one call up to there is one step; what follows is the answer to the request.
-/

namespace Uboss.Service

open Lib Math

/-- An entry of `large_request`. The connection of its first package is not in the program. -/
structure LargeRequest where
  addr : Option ClusterAddress
  pieces : List Piece
  owner : ℕ

/-- What becomes of a package. -/
inductive ClusterdEvent
  /-- A request is handed over. There is no address if all its packages were parts. -/
  | request (fd : ℕ) (addr : Option ClusterAddress) (session : UInt32) (msg : List UInt8)
  /-- The answer `Invalid large req`. -/
  | invalid (fd : ℕ) (session : UInt32)
  /-- `cluster.unpackrequest` raises an error. -/
  | failed (fd : ℕ) (error : ClusterError)
  deriving DecidableEq, Repr

/-- The table `large_request`, and what has been done. -/
structure Clusterd where
  largeRequest : UInt32 → Option LargeRequest
  log : List ClusterdEvent

/-- The calls of the gate. -/
inductive SocketCommand
  | data (fd : ℕ) (msg : List UInt8)
  | opened (fd : ℕ)
  | closed (fd : ℕ)
  | error (fd : ℕ)
  | warning (fd : ℕ)
  deriving DecidableEq, Repr

/-- The connection. -/
def SocketCommand.fd : SocketCommand → ℕ
  | .data fd _ | .opened fd | .closed fd | .error fd | .warning fd => fd

namespace Clusterd

variable (s : Clusterd)

def create : Clusterd := ⟨fun _ => none, []⟩

def emit (e : ClusterdEvent) : Clusterd := { s with log := s.log ++ [e] }

/-- `large_request[session] = req`. -/
def setLarge (session : UInt32) (req : Option LargeRequest) : Clusterd :=
  { s with largeRequest := Function.update s.largeRequest session req }

/-- A package with `padding`. -/
def addPiece (fd : ℕ) (u : UnpackedRequest) : Clusterd :=
  let req := (s.largeRequest u.session).getD ⟨u.addr, [], fd⟩
  s.setLarge u.session (some { req with pieces := req.pieces ++ [u.msg] })

/-- The last package of a request. If none has come before, it is all of it. -/
def finish (fd : ℕ) (u : UnpackedRequest) : Except ClusterError Clusterd :=
  match s.largeRequest u.session with
  | some req =>
    (lconcat (req.pieces ++ [u.msg])).map fun
      | some msg => (s.setLarge u.session none).emit (.request fd req.addr u.session msg)
      | none => (s.setLarge u.session none).emit (.invalid fd u.session)
  | none =>
    match u.msg with
    | .bytes msg => .ok (s.emit (.request fd u.addr u.session msg))
    -- a size comes with `padding` only
    | .size _ => .ok s

/-- The branch `data`. -/
def socketData (fd : ℕ) (msg : List UInt8) : Except ClusterError Clusterd :=
  match lunpackrequest msg with
  | .error e => .ok (s.emit (.failed fd e))
  | .ok u => if u.padding then .ok (s.addPiece fd u) else s.finish fd u

/-- `command.socket`. There is no result if the program cannot go on. -/
def step : SocketCommand → Except ClusterError Clusterd
  | .data fd msg => s.socketData fd msg
  | .opened _ => .ok s
  | .closed _ | .error _ | .warning _ => .ok { s with largeRequest := fun _ => none }

/-- The steps after which the program goes on. -/
def next (s : Clusterd) (c : SocketCommand) : Option Clusterd := (s.step c).toOption

end Clusterd

end Uboss.Service
