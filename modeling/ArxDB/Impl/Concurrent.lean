import ArxDB.Framework.Threads
import ArxDB.Impl.Session

/-!
# Connections, statement by statement

Calls of different connections to one directory, as threads: a bare `append`
is three statements, each committed on its own, and the database part of
`commit_edge_tx` is one transaction. A statement that fails ends its call; so
does a client that is never scheduled again.
-/

namespace ArxDB.Impl

open Failing Prog Threads

/-- One action that runs a program, which fails at statement `fault`; the
thread goes on where it returns. -/
def atomically {σ α β : Type} (x : Prog PyError σ α) (fault : Option Nat) (k : α → Thread σ (Except PyError β)) :
    Thread σ (Except PyError β) :=
  .act (fun s => (x.exec fault s).2) fun s => match (x.exec fault s).1 with
    | .ok a => k a
    | .error e => .done (.error e)

namespace AppendLog

/-- The entry that `append` signs, between its statements. -/
def newEntry (P : Prims) (keys : Keys) (now : Int) (payload : Bytes) (seq : Int) (prevLogHash : Except PyError Hash) :
    Except PyError LogEntry := do
  let entryHash := P.hashBytes payload
  let prevLogHash ← prevLogHash
  let message ← signatureMessage P seq now keys.pub entryHash prevLogHash
  let signature ← P.sign keys.priv message
  pure { seq, timestampNs := now, signerPubkey := keys.pub, entryHash, prevLogHash, signature, payload }

/-- `INSERT INTO log`, the last statement. -/
def insertThread : Except PyError LogEntry → Thread Log (Except PyError LogEntry)
  | .error e => .done (.error e)
  | .ok entry => atomically (insert entry.row) none fun _ => .done (.ok entry)

/-- `append`: the count, the previous hash unless the count is 0, the row. -/
def appendThread (P : Prims) (keys : Keys) (now : Int) (payload : Bytes) : Thread Log (Except PyError LogEntry) :=
  .act id fun log =>
    let seq : Int := log.length
    if seq = 0 then insertThread (newEntry P keys now payload seq (.ok genesisPrevHash))
    else .act id fun log => insertThread (newEntry P keys now payload seq (prevHash log seq))

end AppendLog

namespace Storage

/-- `commit_edge_tx`: the object files, then the transaction. -/
def commitEdgeTxThread (P : Prims) (keys : Keys) (now : Int) (premises : List Hash) (conclusion : Hash)
    (edgeData : Bytes) (proof : Option Bytes) (faults : Nat → Option Nat) : Thread Storage (Except PyError LogEntry) :=
  let transaction := atomically
    (onDb <| Prog.transaction .fault do
      onGraph (GraphIndex.registerEdge (P.hashBytes edgeData) premises conclusion)
      onLog (AppendLog.append P keys now edgeData))
    (faults 2) fun logEntry => .done (.ok logEntry)
  atomically (put P edgeData) (faults 0) fun _ =>
    match proof with
    | some proof => atomically (put P proof) (faults 1) fun _ => transaction
    | none => transaction

end Storage

/-- A call that appends to the log, by a connection with its own keys. -/
inductive LogClient where
  | append (keys : Keys) (now : Int) (payload : Bytes)
  | commitEdgeTx (keys : Keys) (now : Int) (premises : List Hash) (conclusion : Hash) (edgeData : Bytes)
    (proof : Option Bytes) (faults : Nat → Option Nat)

namespace LogClient

/-- The call, action by action. -/
def thread (P : Prims) : LogClient → Thread Storage (Except PyError LogEntry)
  | .append keys now payload =>
    (AppendLog.appendThread P keys now payload).zoom Storage.log fun log s => { s with db := { s.db with log } }
  | .commitEdgeTx keys now premises conclusion edgeData proof faults =>
    Storage.commitEdgeTxThread P keys now premises conclusion edgeData proof faults

/-- The call that the thread is of. -/
def call (P : Prims) : LogClient → Prog PyError Storage LogEntry
  | .append keys now payload => Storage.append P keys now payload
  | .commitEdgeTx keys now premises conclusion edgeData proof _ => do
    let (_, logEntry) ← Storage.commitEdgeTx P keys now premises conclusion edgeData proof
    pure logEntry

/-- None of its statements fails. -/
def Faultless : LogClient → Prop
  | .append .. => True
  | .commitEdgeTx _ _ _ _ _ _ faults => ∀ i, faults i = none

/-- Clients on an empty directory. -/
def start {ι : Type} (P : Prims) (clients : ι → LogClient) : Pool ι Storage (Except PyError LogEntry) :=
  ⟨.empty, fun i => (clients i).thread P⟩

end LogClient

end ArxDB.Impl
