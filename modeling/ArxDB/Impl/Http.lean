import ArxDB.Framework.Base64
import ArxDB.Impl.Hashing
import ArxDB.Impl.Server

/-!
# `server.py`, the transport

The handler: it reads a JSON body, calls the endpoint of its route and writes
a status and a JSON answer. Every exception is answered. What a message quotes
is left out of it.
-/

namespace ArxDB.Impl

open Failing Prog

namespace Value

/-- Whether the object is a float. -/
def isFloat (o : Foreign Value) : Bool := o.enc.head?.any fun b => b = 0xf9 || b = 0xfa || b = 0xfb

/-- What `json.dumps` takes for a key. -/
def jsonKey : Value → Bool
  | .bytes _ | .list _ | .tuple _ | .set _ | .frozenset _ | .dict _ => false
  | .other o => isFloat o
  | _ => true

mutual

/-- Whether `json.dumps` writes the value. -/
def jsonable : Value → Bool
  | .bytes _ | .set _ | .frozenset _ => false
  | .list xs | .tuple xs => jsonableAll xs
  | .dict kvs => jsonableItems kvs
  | .other o => isFloat o
  | _ => true

/-- All elements are written. -/
def jsonableAll : List Value → Bool
  | [] => true
  | x :: xs => x.jsonable && jsonableAll xs

/-- All items are written. -/
def jsonableItems : List (Value × Value) → Bool
  | [] => true
  | (k, v) :: kvs => k.jsonKey && v.jsonable && jsonableItems kvs

end

/-- `body.get(s, default)`. -/
def get (body : Value) (s : String) (default : Value) : Except PyError Value :=
  match body with
  | .dict kvs => .ok (getOr kvs s default)
  | _ => .error .attributeError

/-- A text. -/
def ofChars (s : List Char) : Value := .str (String.ofList s)

end Value

/-- What the handler takes from the standard library: `json.loads` of a body (one
whose texts have a UTF-8 form), and `float(v)`. -/
structure Lib where
  loads : Bytes → Except PyError Value
  float : Value → Except PyError Seconds

/-- The methods that `_route` answers. -/
inductive Method where
  | GET | POST
deriving DecidableEq, Repr

/-- A request: what reading its body gives, and what the endpoints see of the
world. Other methods do not reach `_route`. -/
structure HttpRequest where
  method : Method
  target : List Char
  body : Except PyError Bytes
  checkers : Checkers
  now : Int
  fault : Option Nat

/-- The status of an answer, and the JSON value in it. -/
structure Response where
  status : Nat
  payload : Value

namespace Http

/-! ## JSON helpers -/

/-- `_h`. -/
def h : Option Hash → Value
  | some hash => .ofChars hash.hex
  | none => .none

/-- `_hex_to_hash`. -/
def hexToHash : Value → Except PyError Hash
  | .str s => match Hash.fromHex s.toList with
    | .ok hash => .ok hash
    | .error _ => .error (.apiError 400 "invalid hex hash")
  | _ => .error .typeError

/-- `_parse_pubkey`. -/
def parsePubkey : Value → Except PyError Bytes
  | .str s => match fromhex s.toList with
    | .ok raw => if raw.length = 32 then .ok raw else .error (.apiError 400 "pubkey must be 32 bytes")
    | .error _ => .error (.apiError 400 "invalid hex pubkey")
  | _ => .error .typeError

variable (P : Prims) (L : Lib)

/-- `_node_to_dict`. -/
def nodeToDict (n : Node) : Except PyError Value := do
  pure (.record [
    ("claim", n.claim), ("domain", n.domain), ("polarity", n.polarity), ("node_id", h (some (← n.nodeId P)))])

/-- `signer_pubkey.hex()`. -/
def signerHex : Value → Except PyError Value
  | .bytes b => .ok (.ofChars (b.flatMap hexByte))
  | .other o => .str <$> o.hex
  | _ => .error .attributeError

/-- `_edge_to_dict`. -/
def edgeToDict (e : Edge) : Except PyError Value := do
  let signer ← signerHex e.signerPubkey
  let edgeHash ← e.edgeHash P
  pure (.record [
    ("type", .str e.type.value), ("premises", .list (e.premises.map fun p => h (some p))),
    ("conclusion", h (some e.conclusion)), ("rule", e.rule), ("proof_hash", h e.proofHash),
    ("verdict", .str e.verdict.value), ("kappa", .str e.kappa.value), ("signer_pubkey", signer),
    ("edge_hash", h (some edgeHash))])

/-- `_verification_to_dict`. -/
def verificationToDict (v : VerificationResult) : Value :=
  .record [("verdict", .str v.verdict.value), ("kappa", .str v.kappa.value), ("rejected", .bool v.rejected)]

/-- `r.kappa.value if r.kappa is not None else None`. -/
def kappaValue : Option Kappa → Value
  | some k => .str k.value
  | none => .none

/-- A depth, or `None`. -/
def depthValue : Option Nat → Value
  | some d => .int d
  | none => .none

/-- An agent, or `None`. -/
def agentValue : Option String → Value
  | some agent => .str agent
  | none => .none

/-! ## Queries -/

/-- `query_reachable`. -/
def queryReachable (s : Storage) (body : Value) : Except PyError Value := do
  let r ← Server.queryReachable P s body
  pure (.record [
    ("target", ← nodeToDict P r.target), ("min_kappa", .str r.minKappa.value), ("established", .bool r.established),
    ("kappa", kappaValue r.kappa), ("depth", depthValue r.depth),
    ("proof_tree_edges", .list (r.proofTreeEdges.map fun e => h (some e)))])

/-- An element of `missing_edges`. -/
def missingToDict (m : MissingEdge) : Value :=
  .record [
    ("conclusion", h (some m.conclusion)), ("premises", .list (m.premises.map fun p => h (some p))),
    ("blocking_nodes", .list (m.blockingNodes.map fun p => h (some p))), ("rule", m.rule)]

/-- `query_path`. -/
def queryPath (s : Storage) (body : Value) : Except PyError Value := do
  let r ← Server.queryPath P s body
  pure (.record [
    ("target", ← nodeToDict P r.target), ("min_kappa", .str r.minKappa.value), ("reachable", .bool r.reachable),
    ("depth", depthValue r.depth), ("kappa", kappaValue r.kappa),
    ("missing_edges", .list (r.missingEdges.map missingToDict))])

/-- `query_graph`. -/
def queryGraph (s : Storage) : Except PyError Value := do
  let nodes ← (s.graph.allNodes.filterMap fun k => resolveNode P k s).mapM (nodeToDict P)
  let edges ← (s.graph.allEdges.filterMap fun k => resolveEdge P k s).mapM (edgeToDict P)
  pure (.record [("nodes", .list nodes), ("edges", .list edges)])

/-! ## Reproducing, attesting -/

/-- `base64.b64encode(proof).decode()`, or `None`. -/
def proofValue : Option Bytes → Value
  | some proof => .ofChars (Base64.encode proof)
  | none => .none

/-- `reproduce`. -/
def reproduce (app : App) (checkers : Checkers) (s : Storage) (body : Value) : Except PyError Value := do
  let edgeHash ← hexToHash (← body.getItem "edge_hash")
  match resolveEdge P edgeHash s with
  | none => throw (.apiError 404 "edge not found")
  | some edge =>
    let premises ← edge.premises.mapM (Server.resolvable P s "premise node not resolvable")
    let conclusion ← Server.resolvable P s "conclusion node not resolvable" edge.conclusion
    let proof := edge.proofHash.bind (ObjectStore.get s.objects)
    let reVerify ← Verifier.verify checkers premises conclusion edge.rule edge.type proof defaultTimeout
    let attestation ← Attest.verifyEdgeAttestation P edge s app.roster
    let verdictMatch := decide (reVerify.verdict = edge.verdict)
    let kappaMatch := decide (reVerify.kappa = edge.kappa)
    let edgeDict ← edgeToDict P edge
    let premiseDicts ← premises.mapM (nodeToDict P)
    let conclusionDict ← nodeToDict P conclusion
    pure (.record [
      ("edge", edgeDict), ("premises", .list premiseDicts), ("conclusion", conclusionDict), ("rule", edge.rule),
      ("proof", proofValue proof),
      ("embedded", .record [("verdict", .str edge.verdict.value), ("kappa", .str edge.kappa.value)]),
      ("re_verified", verificationToDict reVerify), ("verdict_match", .bool verdictMatch),
      ("kappa_match", .bool kappaMatch),
      ("attestation", .record [
        ("signer_agent_id", agentValue attestation.signerAgentId),
        ("signature_valid", .bool attestation.signatureValid), ("proof_bound", .bool attestation.proofBound),
        ("proof_intact", .bool attestation.proofIntact), ("ok", .bool attestation.ok)]),
      ("reproduced", .bool (verdictMatch && kappaMatch && attestation.ok))])

/-- `attest`. -/
def attest (app : App) (s : Storage) (body : Value) : Except PyError Value := do
  let edgeHash ← hexToHash (← body.getItem "edge_hash")
  let a ← Server.attest P app s edgeHash
  pure (.record [
    ("edge_hash", h (some edgeHash)), ("signer_agent_id", agentValue a.signerAgentId),
    ("signature_valid", .bool a.signatureValid), ("proof_bound", .bool a.proofBound),
    ("proof_intact", .bool a.proofIntact), ("ok", .bool a.ok)])

/-- `anchor_record`. -/
def anchorRecord (app : App) (s : Storage) (now : Int) : Except PyError Value := do
  let a ← Attest.anchor P s app.roster now
  pure (.record [
    ("root_hash", h (some a.rootHash)), ("entry_count", .int a.entryCount), ("timestamp_ns", .int a.timestampNs),
    ("roster_hash", h (some a.rosterHash))])

/-- `verify_history_endpoint`. -/
def verifyHistory (s : Storage) (body : Value) : Except PyError Value := do
  let root ← hexToHash (← body.getItem "root_hash")
  let ok ← Attest.verifyHistory P s root
  pure (.record [("root_hash", h (some root)), ("valid", .bool ok)])

/-! ## Authoring -/

/-- `base64.b64decode(proof_b64) if proof_b64 else None`. -/
def proofField (v : Value) : Except PyError (Option Bytes) :=
  if !v.truthy then .ok none
  else match v with
    | .str s =>
      if s.toList.all (·.toNat < 128) then
        match Base64.decode s.toList with
        | some proof => .ok (some proof)
        | none => .error .valueError
      else .error .valueError
    | _ => .error .typeError

/-- `_parse_pubkey(signer_hex) if signer_hex else self.signer_pubkey`. -/
def signerField (app : App) (v : Value) : Except PyError Bytes :=
  if v.truthy then parsePubkey v else .ok app.signerPubkey

/-- The float `5.0`, as it is put where the field is missing. -/
def fiveSeconds : Value := .other (.float [0xf9, 0x45, 0x00] true "0x1.4000000000000p+2")

/-- What `commit` proposes. -/
def proposal (app : App) (body : Value) : Except PyError Proposal := do
  let premises ← (← (← body.get "premises" (.list [])).iter).mapM Server.parseNode
  let conclusion ← Server.parseNode (← body.getItem "conclusion")
  let rule ← body.get "rule" (.str "")
  let edgeType ← Server.parseEdgeType (← body.getItem "edge_type")
  let proofBytes ← proofField (← body.get "proof" .none)
  let signer ← signerField app (← body.get "signer_pubkey" .none)
  let timeoutSeconds ← L.float (← body.get "timeout_seconds" fiveSeconds)
  pure { signerPubkey := .bytes signer, premises, conclusion, rule, edgeType, proofBytes, timeoutSeconds }

/-- `_edge_to_dict(cr.edge) if cr.edge is not None else None`. -/
def committedEdge : Option Edge → Except PyError Value
  | some e => edgeToDict P e
  | none => .ok .none

/-- The answer of `commit`. -/
def commitToDict (cr : CommitResult) : Except PyError Value := do
  let edge ← committedEdge P cr.edge
  pure (.record [
    ("rejected", .bool cr.rejected), ("verification", verificationToDict cr.verification), ("edge", edge),
    ("edge_hash", h cr.edgeHash)])

/-- `commit`. -/
def commit (app : App) (checkers : Checkers) (now : Int) (body : Value) : Prog PyError Storage Value := do
  let q ← lift (proposal L app body)
  let cr ← verifyAndCommit P checkers app.keys now q
  lift (commitToDict P cr)

/-! ## The transport -/

/-- `{"error": …}`. -/
def errorPayload (message : String) : Value := .record [("error", .str message)]

/-- The `except` clauses of `_route`. -/
def answerError : PyError → Response
  | .apiError status message => ⟨status, errorPayload message⟩
  | .keyError => ⟨400, errorPayload "missing field"⟩
  | _ => ⟨500, errorPayload "internal error"⟩

/-- `_send_json(200, payload)` inside the `try`; `json.dumps` comes first in it. -/
def answer : Except PyError Value → Response
  | .ok payload => if payload.jsonable then ⟨200, payload⟩ else answerError .typeError
  | .error e => answerError e

/-- `_read_body`. -/
def readBody (body : Except PyError Bytes) : Except PyError Value := do
  let raw ← body
  if raw = [] then return .dict []
  match L.loads raw with
  | .error (.other "JSONDecodeError") => throw (.apiError 400 "request body is not valid JSON")
  | v => v

/-- `self.path.split("?", 1)[0]`. -/
def path (target : List Char) : String := String.ofList (target.takeWhile (· ≠ '?'))

/-- `{"status": "ok", "version": __version__}`. -/
def health : Value := .record [("status", .str "ok"), ("version", .str "0.1.0")]

/-- The endpoint of a route. -/
def endpoint (app : App) (r : HttpRequest) : Prog PyError Storage Value :=
  if r.method = .GET ∧ path r.target = "/health" then pure health
  else if r.method = .GET ∧ path r.target = "/anchor" then do lift (← read fun s => anchorRecord P app s r.now)
  else if r.method = .GET ∧ path r.target = "/query/graph" then do lift (← read fun s => queryGraph P s)
  else do
    let body ← lift (readBody L r.body)
    if r.method = .POST ∧ path r.target = "/query/reachable" then lift (← read fun s => queryReachable P s body)
    else if r.method = .POST ∧ path r.target = "/query/path" then lift (← read fun s => queryPath P s body)
    else if r.method = .POST ∧ path r.target = "/reproduce" then
      lift (← read fun s => reproduce P app r.checkers s body)
    else if r.method = .POST ∧ path r.target = "/attest" then lift (← read fun s => attest P app s body)
    else if r.method = .POST ∧ path r.target = "/verify_history" then lift (← read fun s => verifyHistory P s body)
    else if r.method = .POST ∧ path r.target = "/commit" then commit P L app r.checkers r.now body
    else lift (throw (.apiError 404 "no route"))

/-- `_route`: the answer, and the storage after it. -/
def route (app : App) (s : Storage) (r : HttpRequest) : Response × Storage :=
  let (result, s') := (endpoint P L app r).exec r.fault s
  (answer result, s')

/-- What a server has stored and answered. -/
structure Served where
  storage : Storage
  answers : List (HttpRequest × Response)

/-- A server answers one request. -/
def serveOne (app : App) (v : Served) (r : HttpRequest) : Served :=
  ⟨(route P L app v.storage r).2, v.answers ++ [(r, (route P L app v.storage r).1)]⟩

/-- `serve`, from an empty directory. -/
def serve (app : App) (requests : List HttpRequest) : Served := requests.foldl (serveOne P L app) ⟨.empty, []⟩

end Http

end ArxDB.Impl
