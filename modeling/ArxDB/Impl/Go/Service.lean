import ArxDB.Framework.Staged
import ArxDB.Impl.Go.Storage

/-!
# `service.go` and `main.go`

The RPCs that append to the log, the reads, and the daemon that serves them.
gRPC runs every handler in a goroutine of its own and no lock is taken, so a
request is two steps: up to `b.Commit`, which reads the database as it is then,
and the commit with the reply. `handle` is a request whose two steps nothing
comes between.
-/

namespace ArxDB.Impl.Go

open Failing Prog

/-- The gRPC status codes that the service answers. -/
inductive Code where
  | invalidArgument | internal
deriving DecidableEq, Repr

/-- `status.Errorf(code, context + "%v", err)`. -/
structure Status where
  code : Code
  context : String
  err : GoError
deriving DecidableEq, Repr

/-- A request, with its fields as the client set them. -/
inductive Request where
  | append (entry : Bytes)
  | commitEdge (premises : List Bytes) (conclusion edgeData : Bytes) (proof : Option Bytes)
deriving DecidableEq, Repr

/-- The payload of the log entry that is asked for. -/
def Request.payload : Request → Bytes
  | .append entry => entry
  | .commitEdge _ _ edgeData _ => edgeData

/-- What is answered to a request. -/
inductive Response where
  | append (entry : LogEntry)
  | commitEdge (edgeHash : Hash) (entry : LogEntry)
deriving DecidableEq

/-- The field `entry`. -/
def Response.entry : Response → LogEntry
  | .append entry => entry
  | .commitEdge _ entry => entry

/-- The field `edge_hash`. -/
def Response.edgeHash : Response → Bytes
  | .append _ => []
  | .commitEdge edgeHash _ => edgeHash.raw

/-- What an error of the store is wrapped in. -/
def Request.context : Request → String
  | .append _ => "append: "
  | .commitEdge .. => "commit edge: "

/-- `GetObjectResponse`. -/
structure GetObjectResponse where
  data : List Bytes
  found : List Bool

/-- `GetConnectivityResponse`. -/
structure GetConnectivityResponse where
  premises : List Bytes
  conclusion : Bytes
  found : Bool

/-- `InclusionProofResponse`. -/
structure InclusionProofResponse where
  leafHash : Bytes
  index : Int64
  path : List Bytes
  found : Bool

/-- What a handler holds at its commit. -/
structure Pending where
  batch : Batch
  response : Response

namespace Service

/-- `toHash` of a request's field. -/
def toHash (b : Bytes) : Except Status Hash :=
  if h : b.length = 34 then .ok ⟨b, h⟩ else .error ⟨.invalidArgument, "", .hashSize b.length⟩

/-- `Append` and `CommitEdge` up to the commit: the staged batch and the response. -/
def stage (P : Prims) (kp : Keypair) (now : Int64) : Request → Prog Status Storage Pending
  | .append entry => do
    let (b, entry) ← mapError (⟨.internal, "append: ", ·⟩) (Storage.stageAppend P kp now (.ofField entry))
    pure ⟨b, .append entry⟩
  | .commitEdge premises conclusion edgeData proof => do
    let conclusion ← lift (toHash conclusion)
    let premises ← lift (premises.mapM toHash)
    let (b, edgeHash, entry) ← mapError (⟨.internal, "commit edge: ", ·⟩)
      (Storage.stageEdgeTx P kp now premises conclusion (.ofField edgeData) proof)
    pure ⟨b, .commitEdge edgeHash entry⟩

/-- `Append` and `CommitEdge`. -/
def handle (P : Prims) (kp : Keypair) (now : Int64) (request : Request) : Prog Status Storage Response := do
  let d ← stage P kp now request
  mapError (⟨.internal, request.context, ·⟩) (Storage.commit d.batch)
  pure d.response

/-- `RootHash`. -/
def rootHash (P : Prims) (s : Storage) : Except Status Hash :=
  (AppendLog.rootHash P s.db).mapError (⟨.internal, "root hash: ", ·⟩)

/-- `Len`. -/
def len (s : Storage) : Except Status Int64 := .ok (AppendLog.len s.db)

/-- `GetEntry`. -/
def getEntry (P : Prims) (s : Storage) (seq : Int64) : Except Status (Option LogEntry) :=
  (AppendLog.get P s.db seq).mapError (⟨.internal, "get entry: ", ·⟩)

/-- `InclusionProof`. -/
def inclusionProof (P : Prims) (s : Storage) (seq : Int64) : Except Status InclusionProofResponse := do
  let n ← len s
  if seq < 0 ∨ n ≤ seq then pure ⟨[], 0, [], false⟩
  else do
    let proof ← (AppendLog.getInclusionProof P s.db seq).mapError (⟨.internal, "inclusion proof: ", ·⟩)
    pure ⟨proof.leafHash.raw, .ofInt proof.index, proof.path.map Hash.raw, true⟩

/-- `GetObject`. -/
def getObject (s : Storage) (hashes : List Bytes) : Except Status GetObjectResponse := do
  let blobs ← hashes.mapM fun hb => do pure (ObjectStore.get s.objects (← toHash hb))
  pure ⟨blobs.map (·.getD []), blobs.map Option.isSome⟩

/-- `GetConnectivity`. -/
def getConnectivity (s : Storage) (edgeHash : Bytes) : Except Status GetConnectivityResponse := do
  match GraphIndex.getConnectivity s.db (← toHash edgeHash) with
  | some (premises, conclusion) => pure ⟨premises.map Hash.raw, conclusion.raw, true⟩
  | none => pure ⟨[], [], false⟩

/-- `IncomingEdges`. -/
def incomingEdges (s : Storage) (nodeHash : Bytes) : Except Status (List Bytes) := do
  pure ((GraphIndex.incomingEdges s.db (← toHash nodeHash)).map Hash.raw)

/-- `OutgoingEdges`. -/
def outgoingEdges (s : Storage) (nodeHash : Bytes) : Except Status (List Bytes) := do
  pure ((GraphIndex.outgoingEdges s.db (← toHash nodeHash)).map Hash.raw)

/-- `AllNodes`. -/
def allNodes (s : Storage) : Except Status (List Bytes) := .ok ((GraphIndex.allNodes s.db).map Hash.raw)

/-- `AllEdges`. -/
def allEdges (s : Storage) : Except Status (List Bytes) := .ok ((GraphIndex.allEdges s.db).map Hash.raw)

end Service

/-- A request, the time its handler reads, and the statement of it that
fails, if one does. -/
structure Rpc where
  request : Request
  now : Int64
  fault : Option Nat

namespace Daemon

open Staged

/-- The two steps of a request. -/
def protocol (P : Prims) (kp : Keypair) : Protocol Storage Rpc Pending where
  prepare rpc s :=
    let (r, s) := (Service.stage P kp rpc.now rpc.request).exec rpc.fault s
    (r.toOption, s)
  apply d s := { s with db := s.db.commit d.batch }

/-- A new data directory. -/
def start : Storage := ⟨fun _ => none, ∅⟩

/-- The data directory, and the requests that were answered with success. -/
structure Served where
  storage : Storage
  returned : List (Request × Response)

/-- One request, alone. -/
def serveOne (P : Prims) (kp : Keypair) (s : Served) (rpc : Rpc) : Served :=
  match (Service.handle P kp rpc.now rpc.request).exec rpc.fault s.storage with
  | (.ok response, storage) => ⟨storage, s.returned ++ [(rpc.request, response)]⟩
  | (.error _, storage) => ⟨storage, s.returned⟩

/-- The daemon after requests, one after the other. -/
def serve (P : Prims) (kp : Keypair) (rpcs : List Rpc) : Served := rpcs.foldl (serveOne P kp) ⟨start, []⟩

/-- The daemon after the steps. -/
def run (P : Prims) (kp : Keypair) (steps : List (Step Rpc)) : Option (Server Storage Rpc Pending) :=
  (protocol P kp).run start steps

end Daemon

end ArxDB.Impl.Go
