import ArxDB.Impl.Go.Storage

/-!
# Calls, one after the other

The writing calls of the Go engine on one data directory. A call may fail at
any of its statements.
-/

namespace ArxDB.Impl.Go

open Failing Prog

/-- A `[]hashing.Hash`: an `int` indexes it. -/
abbrev Hashes := { hashes : List Hash // hashes.length < 2 ^ 63 }

/-- A `[]byte`: an `int` indexes it. -/
abbrev ByteSlice := { b : Slice // b.bytes.length < 2 ^ 63 }

/-- A call that writes to a data directory. -/
inductive Call where
  | put (data : Bytes)
  | registerNode (node : Hash)
  | registerEdge (edge : Hash) (premises : Hashes) (conclusion : Hash)
  | append (entry : ByteSlice)
  | commitEdge (premises : Hashes) (conclusion : Hash) (edgeData : ByteSlice) (proof : Slice)
deriving DecidableEq

/-- What a call returns besides a nil error. -/
inductive Reply where
  | put (hash : Hash)
  | registered
  | append (entry : LogEntry)
  | commitEdge (edgeHash : Hash) (entry : LogEntry)
deriving DecidableEq

namespace Call

/-- The call, at the time `now`. -/
def prog (P : Prims) (kp : Keypair) (now : Int64) : Call → Prog GoError Storage Reply
  | .put data => do
    let hash ← Storage.onObjects (ObjectStore.put P data)
    pure (.put hash)
  | .registerNode node => do
    Storage.registerNodeTx node
    pure .registered
  | .registerEdge edge premises conclusion => do
    Storage.registerEdgeTx edge premises conclusion
    pure .registered
  | .append entry => do
    let entry ← Storage.append P kp now entry
    pure (.append entry)
  | .commitEdge premises conclusion edgeData proof => do
    let r ← Storage.commitEdgeTx P kp now premises conclusion edgeData proof
    pure (.commitEdge r.1 r.2)

end Call

/-- A call, with the key pair that the directory is opened with, the time at
which it is made, and the statement of it that fails, if one does. -/
structure Op where
  kp : Keypair
  call : Call
  now : Int64
  fault : Option Nat

/-- The data directory, and the calls that returned with what they returned. -/
structure Session where
  storage : Storage
  returned : List (Call × Reply)

namespace Session

/-- A new data directory. -/
def start : Session := ⟨⟨fun _ => none, ∅⟩, []⟩

/-- One call; what it returns is kept, unless it fails. -/
def step (P : Prims) (s : Session) (op : Op) : Session :=
  match (op.call.prog P op.kp op.now).exec op.fault s.storage with
  | (.ok reply, storage) => ⟨storage, s.returned ++ [(op.call, reply)]⟩
  | (.error _, storage) => ⟨storage, s.returned⟩

/-- The session after the calls. -/
def run (P : Prims) (ops : List Op) : Session := ops.foldl (step P) start

end Session

end ArxDB.Impl.Go
