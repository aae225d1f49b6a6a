import ArxDB.Impl.Go.Client
import ArxDB.Impl.Go.Session

/-!
# One caller, two backends

Calls of `commit_edge_tx` as the verification layer makes them, on the SQLite
`Storage` and on a `GrpcStorage` before the Go daemon.
-/

namespace ArxDB.Impl

open Failing Prog

/-- A call of `commit_edge_tx`, with the times that the two backends read. -/
structure EdgeCall where
  premises : Go.Hashes
  conclusion : Hash
  edgeData : Bytes
  proof : Option Bytes
  timeNs : Int
  unixNano : Int64

namespace EdgeCall

variable (P : Prims)

/-- The SQLite storage after a call that returns. -/
def sqlite (keys : Keys) (s : Storage) (c : EdgeCall) : Except PyError Storage :=
  let (r, s') :=
    (Storage.commitEdgeTx P keys c.timeNs c.premises c.conclusion c.edgeData c.proof).exec none s
  r.map fun _ => s'

/-- The data directory of the daemon after a call that returns. -/
def grpc (kp : Go.Keypair) (s : Go.Storage) (c : EdgeCall) : Except Go.ClientError Go.Storage :=
  let (r, s') :=
    Go.GrpcStorage.commitEdgeTx P kp c.unixNano none c.premises c.conclusion c.edgeData c.proof s
  r.map fun _ => s'

/-- The calls on an empty directory. -/
def runSqlite (keys : Keys) (calls : List EdgeCall) : Except PyError Storage := calls.foldlM (sqlite P keys) .empty

/-- The calls on a new data directory. -/
def runGrpc (kp : Go.Keypair) (calls : List EdgeCall) : Except Go.ClientError Go.Storage :=
  calls.foldlM (grpc P kp) Go.Daemon.start

end EdgeCall

end ArxDB.Impl
