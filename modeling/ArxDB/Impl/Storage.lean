import ArxDB.Impl.AppendLog
import ArxDB.Impl.GraphIndex
import ArxDB.Impl.ObjectStore

/-!
# `storage.py`

A `Storage` on disk: the object files, and the database that the graph index
and the log share. The key pair it is opened with is an argument of the calls
that sign.
-/

namespace ArxDB.Impl

open Failing Prog

/-- `index.db`. -/
structure Db where
  graph : GraphIndex
  log : Log

/-- `Storage`: the blobs and the database. -/
structure Storage where
  objects : Files
  db : Db

namespace Storage

/-- An empty directory, opened. -/
def empty : Storage := ⟨fun _ => none, ⟨.empty, []⟩⟩

/-- The index. -/
abbrev graph (s : Storage) : GraphIndex := s.db.graph

/-- The log. -/
abbrev log (s : Storage) : Log := s.db.log

variable {α : Type}

/-- A program of the blobs, run in the storage. -/
def onObjects (x : Prog PyError Files α) : Prog PyError Storage α :=
  zoom Storage.objects (fun objects s => { s with objects }) x

/-- A program of the database, run in the storage. -/
def onDb (x : Prog PyError Db α) : Prog PyError Storage α :=
  zoom Storage.db (fun db s => { s with db }) x

/-- A program of the index, run in the database. -/
def onGraph (x : Prog PyError GraphIndex α) : Prog PyError Db α :=
  zoom Db.graph (fun graph db => { db with graph }) x

/-- A program of the log, run in the database. -/
def onLog (x : Prog PyError Log α) : Prog PyError Db α :=
  zoom Db.log (fun log db => { db with log }) x

/-- `objects.put`. -/
def put (P : Prims) (data : Bytes) : Prog PyError Storage Hash := onObjects (ObjectStore.put P data)

/-- `log.append`, outside a transaction: each of its statements commits. -/
def append (P : Prims) (keys : Keys) (now : Int) (payload : Bytes) : Prog PyError Storage LogEntry :=
  onDb (onLog (AppendLog.append P keys now payload))

/-- `commit_edge_tx`: the blobs first, then index and log in one transaction. -/
def commitEdgeTx (P : Prims) (keys : Keys) (now : Int) (premises : List Hash) (conclusion : Hash)
    (edgeData : Bytes) (proof : Option Bytes) : Prog PyError Storage (Hash × LogEntry) := do
  let edgeHash := P.hashBytes edgeData
  let _ ← put P edgeData
  match proof with
  | some proof => let _ ← put P proof
  | none => pure ()
  let logEntry ← onDb <| transaction .fault do
    onGraph (GraphIndex.registerEdge edgeHash premises conclusion)
    onLog (AppendLog.append P keys now edgeData)
  pure (edgeHash, logEntry)

/-- `commit_edge_tx` up to its `COMMIT`, the last statement that can fail. -/
def commitEdgeStatements (P : Prims) (keys : Keys) (now : Int) (premises : List Hash) (conclusion : Hash)
    (edgeData : Bytes) (proof : Option Bytes) : Prog PyError Storage (Hash × LogEntry) := do
  let edgeHash := P.hashBytes edgeData
  let _ ← put P edgeData
  match proof with
  | some proof => let _ ← put P proof
  | none => pure ()
  let logEntry ← onDb <| transactionOnly .fault do
    onGraph (GraphIndex.registerEdge edgeHash premises conclusion)
    onLog (AppendLog.append P keys now edgeData)
  pure (edgeHash, logEntry)

end Storage

end ArxDB.Impl
