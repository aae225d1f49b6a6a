import ArxDB.Framework.Threads
import ArxDB.Impl.Commit
import ArxDB.Impl.Go.Client
import ArxDB.Impl.Reachability

/-!
# `verify_and_commit` on a `GrpcStorage`

The RPCs that put objects and register, and `verify_and_commit` as a client of
the daemon. The daemon handles every RPC in a goroutine of its own, so what a
client does is a thread: `Put` is a stat and a rename, `CommitEdge` reads the
log twice before its batch is committed, and between any two actions other
clients act. A statement that fails ends its RPC; a client that is never
scheduled again has died.
-/

namespace ArxDB.Impl.Go

open BigEndian Failing Prog Threads Thread

namespace ObjectStore

/-- `Put`, action by action. -/
def putThread (P : Prims) (data : Bytes) (fault : Option Nat) : Thread Files (Except GoError Hash) :=
  let h := P.hashBytes data
  .act id fun objects =>
    if has objects h then .done (.ok h)
    else .ofProg (do
      statement .library
      update fun objects => Impl.ObjectStore.replace objects (shardPath h) data
      pure h) fault

end ObjectStore

namespace Storage

/-- `Put` on the objects of a data directory. -/
def putThread (P : Prims) (data : Bytes) (fault : Option Nat) : Thread Storage (Except GoError Hash) :=
  (ObjectStore.putThread P data fault).zoom Storage.objects fun objects s => { s with objects }

/-- `CommitEdgeTx`, action by action: the length of the log and the hash of its
last entry are read apart. -/
def commitEdgeTxThread (P : Prims) (kp : Keypair) (now : Int64) (premises : List Hash) (conclusion : Hash)
    (edgeData proof : Slice) (faults : Nat → Option Nat) : Thread Storage (Except GoError (Hash × LogEntry)) :=
  let edgeHash := P.hashBytes edgeData.bytes
  (putThread P edgeData.bytes (faults 0)).andThen fun _ =>
  (match proof with
    | some proof => (putThread P proof (faults 1)).andThen fun _ => .done (.ok ())
    | none => .done (.ok ())).andThen fun _ =>
  (ofProg (onDb do
    let b ← GraphIndex.registerEdge [] edgeHash premises conclusion
    let seq ← AppendLog.lenInBatch b
    pure (b, seq)) (faults 2)).andThen fun (b, seq) =>
  (ofProg (onDb (AppendLog.appendAt P kp now b edgeData seq)) (faults 3)).andThen fun (b, entry) =>
  (ofProg (commit b) (faults 4)).andThen fun _ => .done (.ok (edgeHash, entry))

end Storage

namespace Service

/-- `PutObject` of one blob, action by action. -/
def putObjectThread (P : Prims) (data : Bytes) (fault : Option Nat) : Thread Storage (Except Status Hash) :=
  (Storage.putThread P data fault).mapError (⟨.internal, "put object: ", ·⟩)

/-- `RegisterNode`. -/
def registerNode (nodeHash : Bytes) : Prog Status Storage Unit := do
  let node ← lift (toHash nodeHash)
  mapError (⟨.internal, "register node: ", ·⟩) (Storage.registerNodeTx node)

/-- `RegisterEdge`. -/
def registerEdge (edgeHash : Bytes) (premises : List Bytes) (conclusion : Bytes) : Prog Status Storage Unit := do
  let edge ← lift (toHash edgeHash)
  let conclusion ← lift (toHash conclusion)
  let premises ← lift (premises.mapM toHash)
  mapError (⟨.internal, "register edge: ", ·⟩) (Storage.registerEdgeTx edge premises conclusion)

/-- `CommitEdge`, action by action. -/
def commitEdgeThread (P : Prims) (kp : Keypair) (now : Int64) (premises : List Bytes) (conclusion edgeData : Bytes)
    (proof : Option Bytes) (faults : Nat → Option Nat) : Thread Storage (Except Status (Hash × LogEntry)) :=
  match (do pure (← toHash conclusion, ← premises.mapM toHash) : Except Status (Hash × List Hash)) with
  | .error status => .done (.error status)
  | .ok (conclusion, premises) =>
    (Storage.commitEdgeTxThread P kp now premises conclusion (.ofField edgeData) proof faults).mapError
      (⟨.internal, "commit edge: ", ·⟩)

end Service

/-- A `verify_and_commit`: what its checkers answer, what is proposed, the
times that the daemon reads, and by RPC and statement what fails. -/
structure Client where
  checkers : Checkers
  proposal : Proposal
  now : Int64
  faults : Nat → Nat → Option Nat

namespace GrpcStorage

variable (P : Prims)

/-- `objects.put(…)`, action by action. -/
def putThread (data : Bytes) (fault : Option Nat) : Thread Storage (Except ClientError Hash) :=
  ((Service.putObjectThread P data fault).mapError .rpc).andThen fun h => .done (hash h.raw)

/-- `commit_edge_tx(…)`, action by action. -/
def commitEdgeTxThread (kp : Keypair) (now : Int64) (premises : List Hash) (conclusion : Hash) (edgeData : Bytes)
    (proof : Option Bytes) (faults : Nat → Option Nat) : Thread Storage (Except ClientError (Hash × Impl.LogEntry)) :=
  ((Service.commitEdgeThread P kp now (premises.map Hash.raw) conclusion.raw edgeData proof
    faults).mapError .rpc).andThen
    fun response => .done (do pure (← hash response.1.raw, ← logEntryFromProto response.2))

/-- The puts of `verify_and_commit`, of the nodes in order. -/
def putNodes (faults : Nat → Nat → Option Nat) : Nat → List Node → Thread Storage (Except ClientError Unit)
  | _, [] => .done (.ok ())
  | i, n :: ns => match n.nodeBytes P with
    | .error e => .done (.error (.raised e))
    | .ok data => (putThread P data (faults i 0)).andThen fun _ => putNodes faults (i + 1) ns

/-- `verify_and_commit` with this storage. -/
def verifyAndCommit (kp : Keypair) (c : Client) : Thread Storage (Except ClientError CommitResult) :=
  let q := c.proposal
  match Verifier.verify c.checkers q.premises q.conclusion q.rule q.edgeType q.proofBytes q.timeoutSeconds with
  | .error e => .done (.error (.raised e))
  | .ok result =>
    if result.rejected then .done (.ok ⟨result, none, none, none⟩)
    else match (do
        pure (← q.premises.mapM (Node.nodeId P), ← q.conclusion.nodeId P) :
          Except PyError (List Hash × Hash)) with
      | .error e => .done (.error (.raised e))
      | .ok (premiseHashes, conclusionHash) =>
        let edge := q.edge P premiseHashes conclusionHash result
        (putNodes P c.faults 0 (q.premises ++ [q.conclusion])).andThen fun _ =>
        match edge.edgeBytes P with
        | .error e => .done (.error (.raised e))
        | .ok edgeData =>
          (commitEdgeTxThread P kp c.now premiseHashes conclusionHash edgeData q.proofBytes
            (c.faults (q.premises.length + 1))).andThen fun committed =>
          .done (.ok ⟨result, some edge, some committed.1, some committed.2⟩)

/-- Clients of a daemon on a new data directory. -/
def start {ι : Type} (kp : Keypair) (clients : ι → Client) : Pool ι Storage (Except ClientError CommitResult) :=
  ⟨Daemon.start, fun i => verifyAndCommit P kp (clients i)⟩

/-! ## Queries -/

/-- `resolve_edge`. -/
def resolveEdge (s : Storage) (h : Hash) : Except ClientError (Option Edge) := do
  match ← getObject s h with
  | none => pure none
  | some data => pure (Edge.fromBytes P data).toOption

/-- `resolve_node`. -/
def resolveNode (s : Storage) (h : Hash) : Except ClientError (Option Node) := do
  match ← getObject s h with
  | none => pure none
  | some data => pure (Node.fromBytes P data).toOption

open Impl.Reachability in
/-- `_derivation_edges`. -/
def derivationEdges (s : Storage) (activeEdges : Option (Finset Hash)) : Except ClientError (List DerivationEdge) := do
  let edges ← (← allEdges s).mapM fun h => do
    if activeEdges.any (h ∉ ·) then return none
    match ← resolveEdge P s h with
    | none => return none
    | some e =>
      if e.type = .refutation then return none
      if e.verdict ∉ [.pass, .softFlag] then return none
      return some (h, e)
  pure (edges.filterMap id)

open Impl.Reachability in
/-- `reachable`, while the daemon is in this state. -/
def reachable (s : Storage) (target : Hash) (minKappa : Kappa) (extraSeeds : List Hash)
    (activeEdges : Option (Finset Hash)) : Except ClientError ReachabilityResult := do
  let edges ← derivationEdges P s activeEdges
  let l := fixpoint edges extraSeeds
  match l.kappa target with
  | none => pure { target, established := false, kappa := none, depth := none, proofTreeEdges := [] }
  | some k =>
    match l.depth target with
    | none => throw (.raised .keyError)
    | some d => pure {
        target, established := minKappa.rank ≤ k.rank, kappa := some k, depth := some d
        proofTreeEdges := collectProofTree target l.bestEdge edges }

end GrpcStorage

end ArxDB.Impl.Go
