import ArxDB.Impl.Go.AppendLog
import ArxDB.Impl.Go.GraphIndex
import ArxDB.Impl.ObjectStore

/-!
# `object_store.go` and `storage.go`
-/

namespace ArxDB.Impl.Go

open Failing Prog

namespace ObjectStore

/-- `shardPath`: `objects/xx/<full-hex>`. -/
def shardPath (h : Hash) : Path := (h.hex.take 2, h.hex)

/-- `Get`. -/
def get (objects : Files) (h : Hash) : Option Bytes := objects (shardPath h)

/-- `Has`. -/
def has (objects : Files) (h : Hash) : Bool := (objects (shardPath h)).isSome

/-- `Put`. A temporary file that is not renamed is removed. -/
def put (P : Prims) (data : Bytes) : Prog GoError Files Hash := do
  let h := P.hashBytes data
  if ← read fun objects => has objects h then pure h
  else
    statement .library
    update fun objects => Impl.ObjectStore.replace objects (shardPath h) data
    pure h

end ObjectStore

/-- `Storage`: the blobs and the database. -/
structure Storage where
  objects : Files
  db : Pebble

namespace Storage

variable {α : Type}

/-- A program of the blobs, run in the storage. -/
def onObjects (x : Prog GoError Files α) : Prog GoError Storage α :=
  zoom Storage.objects (fun objects s => { s with objects }) x

/-- A program of the database, run in the storage. -/
def onDb (x : Prog GoError Pebble α) : Prog GoError Storage α :=
  zoom Storage.db (fun db s => { s with db }) x

/-- `Append` up to its commit: the batch, and the entry to return. -/
def stageAppend (P : Prims) (kp : Keypair) (now : Int64) (entry : Slice) : Prog GoError Storage (Batch × LogEntry) :=
  onDb (AppendLog.appendInBatch P kp now [] entry)

/-- `CommitEdgeTx` up to its commit. -/
def stageEdgeTx (P : Prims) (kp : Keypair) (now : Int64) (premises : List Hash) (conclusion : Hash)
    (edgeData proof : Slice) : Prog GoError Storage (Batch × Hash × LogEntry) := do
  let edgeHash := P.hashBytes edgeData.bytes
  let _ ← onObjects (ObjectStore.put P edgeData.bytes)
  match proof with
  | some proof => let _ ← onObjects (ObjectStore.put P proof)
  | none => pure ()
  onDb do
    let b ← GraphIndex.registerEdge [] edgeHash premises conclusion
    let (b, entry) ← AppendLog.appendInBatch P kp now b edgeData
    pure (b, edgeHash, entry)

/-- `b.Commit(nil)`. -/
def commit (b : Batch) : Prog GoError Storage Unit := do
  statement .library
  update fun s => { s with db := s.db.commit b }

/-- `RegisterNodeTx`. -/
def registerNodeTx (node : Hash) : Prog GoError Storage Unit := do
  let b ← onDb (GraphIndex.registerNode [] node)
  commit b

/-- `RegisterEdgeTx`. -/
def registerEdgeTx (edge : Hash) (premises : List Hash) (conclusion : Hash) : Prog GoError Storage Unit := do
  let b ← onDb (GraphIndex.registerEdge [] edge premises conclusion)
  commit b

/-- `Append`. -/
def append (P : Prims) (kp : Keypair) (now : Int64) (entry : Slice) : Prog GoError Storage LogEntry := do
  let (b, entry) ← stageAppend P kp now entry
  commit b
  pure entry

/-- `CommitEdgeTx`. -/
def commitEdgeTx (P : Prims) (kp : Keypair) (now : Int64) (premises : List Hash) (conclusion : Hash)
    (edgeData proof : Slice) : Prog GoError Storage (Hash × LogEntry) := do
  let (b, edgeHash, entry) ← stageEdgeTx P kp now premises conclusion edgeData proof
  commit b
  pure (edgeHash, entry)

end Storage

end ArxDB.Impl.Go
