import ArxDB.Impl.Attest
import ArxDB.Impl.Go.Service

/-!
# `grpc_client.py`

The Python client of the daemon. A call is an RPC, answered in the state that
the daemon is in when it arrives.
-/

namespace ArxDB.Impl.Go

/-- What a call raises: the status of its RPC, or an exception of its own. -/
inductive ClientError where
  | rpc (status : Status)
  | raised (e : PyError)
deriving DecidableEq

namespace GrpcStorage

variable (P : Prims)

/-- `Hash(…)` of a field of a response. -/
def hash (raw : Bytes) : Except ClientError Hash := (Hash.new raw).mapError .raised

/-- `log.root_hash()`. -/
def rootHash (s : Storage) : Except ClientError Hash := do
  hash (← (Service.rootHash P s).mapError .rpc).raw

/-- `len(log)`: `len` refuses a negative count. -/
def len (s : Storage) : Except ClientError Nat := do
  let count ← (Service.len s).mapError .rpc
  if count < 0 then .error (.raised .valueError) else .ok count.toInt.toNat

/-- `_log_entry_from_proto` of `logEntryToProto`, where a nil payload is the empty field. -/
def logEntryFromProto (e : LogEntry) : Except ClientError Impl.LogEntry := do
  pure {
    seq := e.seq.toInt, timestampNs := e.timestampNs.toInt, signerPubkey := e.signerPubkey,
    entryHash := ← hash e.entryHash.raw, prevLogHash := ← hash e.prevLogHash.raw, signature := e.signature,
    payload := e.payload.bytes }

/-- `log.append(…)`, answered at the time `now` unless statement `fault` fails. -/
def append (kp : Keypair) (now : Int64) (fault : Option Nat) (data : Bytes) (s : Storage) :
    Except ClientError Impl.LogEntry × Storage :=
  let (response, s') := (Service.handle P kp now (.append data)).exec fault s
  (response.mapError .rpc >>= fun response => logEntryFromProto response.entry, s')

/-- `log.get(…)`: protobuf refuses a `seq` that is not an `int64`. -/
def get (s : Storage) (seq : Int) : Except ClientError (Option Impl.LogEntry) :=
  if seq < -2 ^ 63 ∨ 2 ^ 63 ≤ seq then .error (.raised .valueError)
  else do
    match ← (Service.getEntry P s (.ofInt seq)).mapError .rpc with
    | some entry => some <$> logEntryFromProto entry
    | none => pure none

/-- `log.get_inclusion_proof(…)`. -/
def getInclusionProof (s : Storage) (seq : Int) : Except ClientError Impl.Merkle.InclusionProof :=
  if seq < -2 ^ 63 ∨ 2 ^ 63 ≤ seq then .error (.raised .valueError)
  else do
    let response ← (Service.inclusionProof P s (.ofInt seq)).mapError .rpc
    if !response.found then .error (.raised .indexError)
    else pure {
      leafHash := ← hash response.leafHash, index := response.index.toInt, path := ← response.path.mapM hash }

/-- `objects.get(…)`. -/
def getObject (s : Storage) (h : Hash) : Except ClientError (Option Bytes) := do
  let response ← (Service.getObject s [h.raw]).mapError .rpc
  match response.data, response.found with
  | data :: _, found :: _ => pure (if found then some data else none)
  | _, _ => .error (.raised .indexError)

/-- `graph.get_connectivity(…)`. -/
def getConnectivity (s : Storage) (edgeHash : Hash) : Except ClientError (Option (List Hash × Hash)) := do
  let response ← (Service.getConnectivity s edgeHash.raw).mapError .rpc
  if !response.found then pure none
  else pure (some (← response.premises.mapM hash, ← hash response.conclusion))

/-- `graph.incoming_edges(…)`. -/
def incomingEdges (s : Storage) (nodeHash : Hash) : Except ClientError (List Hash) := do
  (← (Service.incomingEdges s nodeHash.raw).mapError .rpc).mapM hash

/-- `graph.outgoing_edges(…)`. -/
def outgoingEdges (s : Storage) (nodeHash : Hash) : Except ClientError (List Hash) := do
  (← (Service.outgoingEdges s nodeHash.raw).mapError .rpc).mapM hash

/-- `graph.all_nodes()`. -/
def allNodes (s : Storage) : Except ClientError (List Hash) := do
  (← (Service.allNodes s).mapError .rpc).mapM hash

/-- `graph.all_edges()`. -/
def allEdges (s : Storage) : Except ClientError (List Hash) := do
  (← (Service.allEdges s).mapError .rpc).mapM hash

/-- `commit_edge_tx(…)`, answered at the time `now` unless statement `fault` fails. -/
def commitEdgeTx (kp : Keypair) (now : Int64) (fault : Option Nat) (premises : List Hash) (conclusion : Hash)
    (edgeData : Bytes) (proof : Option Bytes) (s : Storage) : Except ClientError (Hash × Impl.LogEntry) × Storage :=
  let request := Request.commitEdge (premises.map Hash.raw) conclusion.raw edgeData proof
  let (response, s') := (Service.handle P kp now request).exec fault s
  ((do
    let response ← response.mapError .rpc
    pure (← hash response.edgeHash, ← logEntryFromProto response.entry)), s')

/-- `log.verify_entry(…)`, which is local. -/
def verifyEntry (entry : Impl.LogEntry) : Except ClientError Bool :=
  (Impl.AppendLog.verifyEntry P entry).mapError .raised

/-- The loop of `verify_history`: the hashes of the entries, if none fails its checks. -/
def verifyHistoryFrom (s : Storage) : List Nat → Hash → List Hash → Except ClientError (Option (List Hash))
  | [], _, entryHashes => .ok (some entryHashes)
  | seq :: seqs, prev, entryHashes => do
    match ← get P s seq with
    | none => return none
    | some entry =>
      if !(← verifyEntry P entry) then return none
      if entry.prevLogHash ≠ prev then return none
      verifyHistoryFrom s seqs entry.entryHash (entryHashes ++ [entry.entryHash])

/-- `verify_history`, while the daemon is in this state. -/
def verifyHistory (s : Storage) (trustedRoot : Hash) : Except ClientError Bool := do
  let n ← len s
  match ← verifyHistoryFrom P s (List.range n) Impl.AppendLog.genesisPrevHash [] with
  | none => return false
  | some entryHashes => return decide (Impl.Merkle.rootHash P entryHashes = trustedRoot)

/-- `anchor`, whose `RootHash` and `Len` arrive in two states of the daemon. -/
def anchor (roster : Roster) (now : Int) (atRootHash atLen : Storage) : Except ClientError AnchorRecord := do
  pure {
    rootHash := ← rootHash P atRootHash, entryCount := ← len atLen, timestampNs := now,
    rosterHash := ← (roster.rosterHash P).mapError .raised }

end GrpcStorage

end ArxDB.Impl.Go
