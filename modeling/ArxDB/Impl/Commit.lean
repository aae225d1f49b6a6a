import ArxDB.Impl.Storage
import ArxDB.Impl.Verifier

/-!
# `commit.py`

Verify a proposal, then reject or store it.
-/

namespace ArxDB.Impl

open Failing Prog

/-- `CommitResult`: the last three fields are `None` for a rejected edge. -/
structure CommitResult where
  verification : VerificationResult
  edge : Option Edge
  edgeHash : Option Hash
  logEntry : Option LogEntry

/-- `rejected`. -/
def CommitResult.rejected (r : CommitResult) : Bool := r.verification.rejected

/-- A proposed edge. -/
structure Proposal where
  signerPubkey : Value
  premises : List Node
  conclusion : Node
  rule : Value
  edgeType : EdgeType
  proofBytes : Option Bytes
  timeoutSeconds : Seconds

/-- The edge that is built of an accepted proposal. -/
def Proposal.edge (P : Prims) (q : Proposal) (premiseHashes : List Hash) (conclusionHash : Hash)
    (result : VerificationResult) : Edge where
  type := q.edgeType
  premises := premiseHashes
  conclusion := conclusionHash
  rule := q.rule
  proofHash := q.proofBytes.map P.hashBytes
  verdict := result.verdict
  kappa := result.kappa
  signerPubkey := q.signerPubkey

/-- `storage.objects.put(n.node_bytes())`. -/
def Storage.putNode (P : Prims) (n : Node) : Prog PyError Storage Unit := do
  let data ← lift (n.nodeBytes P)
  let _ ← put P data

/-- `verify_and_commit`. -/
def verifyAndCommit (P : Prims) (checkers : Checkers) (keys : Keys) (now : Int) (q : Proposal) :
    Prog PyError Storage CommitResult := do
  let result ← lift
    (Verifier.verify checkers q.premises q.conclusion q.rule q.edgeType q.proofBytes q.timeoutSeconds)
  if result.rejected then
    pure { verification := result, edge := none, edgeHash := none, logEntry := none }
  else do
    let premiseHashes ← lift (q.premises.mapM (Node.nodeId P))
    let conclusionHash ← lift (q.conclusion.nodeId P)
    let edge := q.edge P premiseHashes conclusionHash result
    q.premises.forM (Storage.putNode P)
    Storage.putNode P q.conclusion
    let edgeData ← lift (edge.edgeBytes P)
    let (edgeHash, logEntry) ←
      Storage.commitEdgeTx P keys now premiseHashes conclusionHash edgeData q.proofBytes
    pure { verification := result, edge := some edge, edgeHash := some edgeHash, logEntry := some logEntry }

end ArxDB.Impl
