import ArxDB.Impl.Attest
import ArxDB.Impl.Commit

/-!
# Sessions

Calls on one directory, one after the other: each with the key pair the
`Storage` was opened with, the time it read, and the statement at which it
fails, if it does. `LogCall` is a call that writes the log directly,
`WriteCall` one that writes the objects, the index or the log, `CommitCall` a
`verify_and_commit`, with what its checkers answer.
-/

namespace ArxDB.Impl

open Failing Prog

/-- What appends to the log. -/
inductive LogOp where
  | append (payload : Bytes)
  | commitRoster (roster : Roster)
  | commitEdgeTx (premises : List Hash) (conclusion : Hash) (edgeData : Bytes) (proof : Option Bytes)

/-- A call that appends, by a `Storage` with these keys, and the statement of it that
fails, if one does. -/
structure LogCall where
  keys : Keys
  now : Int
  fault : Option Nat
  op : LogOp

namespace LogCall

/-- The call as a program. -/
def prog (P : Prims) (c : LogCall) : Prog PyError Storage Unit :=
  match c.op with
  | .append payload => do let _ ← Storage.append P c.keys c.now payload
  | .commitRoster roster => do let _ ← Attest.commitRoster P c.keys c.now roster
  | .commitEdgeTx premises conclusion edgeData proof => do
    let _ ← Storage.commitEdgeTx P c.keys c.now premises conclusion edgeData proof

/-- The storage after the call. -/
def exec (P : Prims) (s : Storage) (c : LogCall) : Storage := ((c.prog P).exec c.fault s).2

/-- The storage after the calls, on an empty directory. -/
def run (P : Prims) (calls : List LogCall) : Storage := calls.foldl (exec P) .empty

end LogCall

/-- A write to any of the three parts. -/
inductive WriteOp where
  | put (data : Bytes)
  | registerNode (node : Hash)
  | registerEdge (edgeHash : Hash) (premises : List Hash) (conclusion : Hash)
  | log (op : LogOp)

/-- A call that writes, by a `Storage` with these keys, and the statement of it that
fails, if one does. -/
structure WriteCall where
  keys : Keys
  now : Int
  fault : Option Nat
  op : WriteOp

namespace WriteCall

/-- The index commits each of its statements, outside a transaction. -/
def prog (P : Prims) (c : WriteCall) : Prog PyError Storage Unit :=
  match c.op with
  | .put data => do let _ ← Storage.put P data
  | .registerNode node => Storage.onDb (Storage.onGraph (GraphIndex.registerNode node))
  | .registerEdge edgeHash premises conclusion =>
    Storage.onDb (Storage.onGraph (GraphIndex.registerEdge edgeHash premises conclusion))
  | .log op => LogCall.prog P ⟨c.keys, c.now, c.fault, op⟩

/-- The storage after the call. -/
def exec (P : Prims) (s : Storage) (c : WriteCall) : Storage := ((c.prog P).exec c.fault s).2

/-- The storage after the calls, on an empty directory. -/
def run (P : Prims) (calls : List WriteCall) : Storage := calls.foldl (exec P) .empty

end WriteCall

/-- A `verify_and_commit`, with its checkers, and the statement of it that fails, if one does. -/
structure CommitCall where
  checkers : Checkers
  keys : Keys
  now : Int
  fault : Option Nat
  proposal : Proposal

namespace CommitCall

/-- The call as a program. -/
def prog (P : Prims) (c : CommitCall) : Prog PyError Storage CommitResult :=
  verifyAndCommit P c.checkers c.keys c.now c.proposal

/-- The storage after the call. -/
def exec (P : Prims) (s : Storage) (c : CommitCall) : Storage := ((c.prog P).exec c.fault s).2

/-- The storage after the calls, on an empty directory. -/
def run (P : Prims) (calls : List CommitCall) : Storage := calls.foldl (exec P) .empty

end CommitCall

/-- A `verify_and_commit`, or a bare `append`. -/
inductive StorageCall where
  | verifyAndCommit (c : CommitCall)
  | append (keys : Keys) (now : Int) (fault : Option Nat) (payload : Bytes)

namespace StorageCall

/-- The keys of the connection. -/
def keys : StorageCall → Keys
  | .verifyAndCommit c => c.keys
  | .append keys _ _ _ => keys

/-- The time of the call. -/
def now : StorageCall → Int
  | .verifyAndCommit c => c.now
  | .append _ now _ _ => now

/-- The storage after the call. -/
def exec (P : Prims) (s : Storage) : StorageCall → Storage
  | .verifyAndCommit c => c.exec P s
  | .append keys now fault payload => ((Storage.append P keys now payload).exec fault s).2

/-- The storage after the calls, on an empty directory. -/
def run (P : Prims) (calls : List StorageCall) : Storage := calls.foldl (exec P) .empty

end StorageCall

end ArxDB.Impl
