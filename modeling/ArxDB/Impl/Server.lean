import ArxDB.Impl.Attest
import ArxDB.Impl.Path
import ArxDB.Impl.Resolve
import ArxDB.Impl.Session

/-!
# `server.py`

The endpoints that query, write and attest. A request's JSON body is read
already, its hex and base64 fields decoded; messages are given without the
value that they quote.
-/

namespace ArxDB.Impl

open Failing Prog

/-- `d.get(s, default)` of a dict's items. -/
def getOr (kvs : List (Value × Value)) (s : String) (default : Value) : Value :=
  match kvs.find? (·.1.isStr s) with
  | some kv => kv.2
  | none => default

/-- The server's configuration: the keys of its storage, its roster and its default signer. -/
structure App where
  keys : Keys
  roster : Roster
  signerPubkey : Bytes

/-- The body of `/commit`; `none` is a field that is missing. -/
structure CommitBody where
  premises : Option Value
  conclusion : Option Value
  rule : Option Value
  edgeType : Option Value
  proof : Option Bytes
  signerPubkey : Option Bytes
  timeoutSeconds : Option Seconds

/-- The report of `/reproduce`. -/
structure Reproduction where
  edge : Edge
  embedded : Verdict × Kappa
  reVerified : VerificationResult
  verdictMatch : Bool
  kappaMatch : Bool
  attestation : AttestationResult
  reproduced : Bool

/-- The answer of `/query/reachable`. -/
structure ReachableReport where
  target : Node
  nodeId : Hash
  minKappa : Kappa
  established : Bool
  kappa : Option Kappa
  depth : Option Nat
  proofTreeEdges : List Hash

/-- The answer of `/query/path`. -/
structure PathReport where
  target : Node
  nodeId : Hash
  minKappa : Kappa
  reachable : Bool
  depth : Option Nat
  kappa : Option Kappa
  missingEdges : List MissingEdge

namespace Server

variable (P : Prims)

/-- `_parse_node`. -/
def parseNode : Value → Except PyError Node
  | .dict d =>
    match getOr d "claim" .none with
    | .str claim =>
      if claim = "" then .error (.apiError 400 "node.claim must be a non-empty string")
      else .ok {
        claim := .str claim
        domain := getOr d "domain" (.str "math")
        polarity := .bool (getOr d "polarity" (.bool true)).truthy }
    | _ => .error (.apiError 400 "node.claim must be a non-empty string")
  | _ => .error (.apiError 400 "node must be an object")

/-- `_parse_kappa`. -/
def parseKappa : Value → Except PyError Kappa
  | .none => .ok .k0
  | v => match Kappa.ofValue v with
    | .ok k => .ok k
    | .error _ => .error (.apiError 400 "invalid min_kappa")

/-- `body.get("min_kappa")`. -/
def minKappaField : Value → Value
  | .dict d => getOr d "min_kappa" .none
  | _ => .none

/-- `query_reachable`. -/
def queryReachable (storage : Storage) (body : Value) : Except PyError ReachableReport := do
  let node ← parseNode body
  let minKappa ← parseKappa (minKappaField body)
  let nodeId ← node.nodeId P
  let r ← Reachability.reachable P nodeId storage minKappa [] none
  pure {
    target := node, nodeId, minKappa, established := r.established, kappa := r.kappa, depth := r.depth,
    proofTreeEdges := r.proofTreeEdges }

/-- `query_path`. -/
def queryPath (storage : Storage) (body : Value) : Except PyError PathReport := do
  let node ← parseNode body
  let minKappa ← parseKappa (minKappaField body)
  let nodeId ← node.nodeId P
  let r ← PathDiscovery.pathDiscovery P nodeId storage minKappa
  pure {
    target := node, nodeId, minKappa, reachable := r.reachable, depth := r.depth, kappa := r.kappa,
    missingEdges := r.missingEdges }

/-- `_parse_edge_type`. -/
def parseEdgeType (v : Value) : Except PyError EdgeType :=
  match EdgeType.ofValue v with
  | .ok t => .ok t
  | .error _ => .error (.apiError 400 "invalid edge_type")

/-- `_parse_pubkey` of the decoded key, or the server's own. -/
def parseSigner (app : App) : Option Bytes → Except PyError Bytes
  | some raw => if raw.length = 32 then .ok raw else .error (.apiError 400 "pubkey must be 32 bytes")
  | none => .ok app.signerPubkey

/-- A field that must be there. -/
def require : Option Value → Except PyError Value
  | some v => .ok v
  | none => .error .keyError

/-- The proposal of a request. -/
def proposal (app : App) (body : CommitBody) : Except PyError Proposal := do
  let premises ← (← (body.premises.getD (.list [])).iter).mapM parseNode
  let conclusion ← parseNode (← require body.conclusion)
  let edgeType ← parseEdgeType (← require body.edgeType)
  let signer ← parseSigner app body.signerPubkey
  pure {
    signerPubkey := .bytes signer, premises, conclusion, rule := body.rule.getD (.str ""), edgeType,
    proofBytes := body.proof, timeoutSeconds := body.timeoutSeconds.getD defaultTimeout }

/-- `commit`. -/
def commit (app : App) (checkers : Checkers) (now : Int) (body : CommitBody) : Prog PyError Storage CommitResult := do
  verifyAndCommit P checkers app.keys now (← lift (proposal app body))

/-- `attest`, of the hash that was asked for. -/
def attest (app : App) (storage : Storage) (edgeHash : Hash) : Except PyError AttestationResult :=
  match resolveEdge P edgeHash storage with
  | none => .error (.apiError 404 "edge not found")
  | some edge => Attest.verifyEdgeAttestation P edge storage app.roster

/-- A node that an edge refers to. -/
def resolvable (storage : Storage) (message : String) (h : Hash) : Except PyError Node :=
  match resolveNode P h storage with
  | none => .error (.apiError 500 message)
  | some n => .ok n

/-- `signer_pubkey.hex()`: whether it has a text. -/
def signerHex : Value → Except PyError Unit
  | .bytes _ => .ok ()
  | .other o => (fun _ => ()) <$> o.hex
  | _ => .error .attributeError

/-- `reproduce`, of the hash that was asked for. The records are written into
the report, which fails where a signer or an encoding does. -/
def reproduce (app : App) (checkers : Checkers) (storage : Storage) (edgeHash : Hash) :
    Except PyError Reproduction := do
  match resolveEdge P edgeHash storage with
  | none => .error (.apiError 404 "edge not found")
  | some edge =>
    let premises ← edge.premises.mapM (resolvable P storage "premise node not resolvable")
    let conclusion ← resolvable P storage "conclusion node not resolvable" edge.conclusion
    let proof := edge.proofHash.bind (ObjectStore.get storage.objects)
    let reVerified ← Verifier.verify checkers premises conclusion edge.rule edge.type proof defaultTimeout
    let attestation ← Attest.verifyEdgeAttestation P edge storage app.roster
    let verdictMatch := decide (reVerified.verdict = edge.verdict)
    let kappaMatch := decide (reVerified.kappa = edge.kappa)
    signerHex edge.signerPubkey
    let _ ← edge.edgeHash P
    let _ ← premises.mapM (Node.nodeId P)
    let _ ← conclusion.nodeId P
    pure {
      edge, embedded := (edge.verdict, edge.kappa), reVerified, verdictMatch, kappaMatch, attestation,
      reproduced := verdictMatch && kappaMatch && attestation.ok }

end Server

/-- A request to `/commit`, with what its checkers answer, the time it reads
and the statement at which it fails, if it does. -/
structure Request where
  checkers : Checkers
  now : Int
  fault : Option Nat
  body : CommitBody

namespace Request

/-- The storage after the request. -/
def exec (P : Prims) (app : App) (s : Storage) (r : Request) : Storage :=
  ((Server.commit P app r.checkers r.now r.body).exec r.fault s).2

/-- The storage after the requests, on an empty directory. -/
def serve (P : Prims) (app : App) (requests : List Request) : Storage := requests.foldl (exec P app) .empty

end Request

end ArxDB.Impl
