import ArxDB.Impl.Serialization

/-!
# `schema.py`

Nodes and edges, their canonical structures and their decoders. The fields
that Python leaves unchecked (a node's, an edge's `rule` and `signer_pubkey`)
hold any value, as they do after `from_bytes`.
-/

namespace ArxDB.Impl

/-- `EdgeType`. -/
inductive EdgeType where
  | definition | deduction | numerical | spectral | reduction | refutation | analogy | citation
deriving DecidableEq, Repr

/-- `Kappa`, the grades of strength. -/
inductive Kappa where
  | k0 | k1 | k2 | k3 | kInf
deriving DecidableEq, Repr

/-- `Verdict`: what ELENCHUS or a checker finds of an edge. -/
inductive Verdict where
  | pass | softFlag | hardVeto
deriving DecidableEq, Repr

/-- The members of `EdgeType`, in order. -/
def EdgeType.all : List EdgeType :=
  [.definition, .deduction, .numerical, .spectral, .reduction, .refutation, .analogy, .citation]

/-- The text of a member. -/
def EdgeType.value : EdgeType → String
  | .definition => "definition"
  | .deduction => "deduction"
  | .numerical => "numerical"
  | .spectral => "spectral"
  | .reduction => "reduction"
  | .refutation => "refutation"
  | .analogy => "analogy"
  | .citation => "citation"

/-- The members of `Kappa`, in order. -/
def Kappa.all : List Kappa := [.k0, .k1, .k2, .k3, .kInf]

/-- The text of a member. -/
def Kappa.value : Kappa → String
  | .k0 => "K0"
  | .k1 => "K1"
  | .k2 => "K2"
  | .k3 => "K3"
  | .kInf => "K_INF"

/-- The members of `Verdict`, in order. -/
def Verdict.all : List Verdict := [.pass, .softFlag, .hardVeto]

/-- The text of a member. -/
def Verdict.value : Verdict → String
  | .pass => "PASS"
  | .softFlag => "SOFT_FLAG"
  | .hardVeto => "HARD_VETO"

/-- `E(v)` for an enumeration `E` of texts: the member whose value is `v`. -/
def enumOfValue {α : Type} (all : List α) (value : α → String) (v : Value) : Except PyError α :=
  match all.find? fun a => v.isStr (value a) with
  | some a => .ok a
  | none => .error .valueError

/-- `EdgeType(v)`. -/
def EdgeType.ofValue : Value → Except PyError EdgeType := enumOfValue EdgeType.all EdgeType.value

/-- `Kappa(v)`. -/
def Kappa.ofValue : Value → Except PyError Kappa := enumOfValue Kappa.all Kappa.value

/-- `Verdict(v)`. -/
def Verdict.ofValue : Value → Except PyError Verdict := enumOfValue Verdict.all Verdict.value

/-- `Node`: a claim, in a domain, or its negation. -/
structure Node where
  claim : Value
  domain : Value
  polarity : Value

namespace Node

/-- `to_canonical`. -/
def toCanonical (n : Node) : Value :=
  .dict [(.str "claim", n.claim), (.str "domain", n.domain), (.str "polarity", n.polarity)]

/-- `node_bytes`. -/
def nodeBytes (P : Prims) (n : Node) : Except PyError Bytes := P.canonicalEncode n.toCanonical

/-- `node_id`: the content address. -/
def nodeId (P : Prims) (n : Node) : Except PyError Hash := P.hashBytes <$> n.nodeBytes P

/-- The fields of a decoded dict. -/
def ofValue (d : Value) : Except PyError Node := do
  pure { claim := ← d.getItem "claim", domain := ← d.getItem "domain", polarity := ← d.getItem "polarity" }

/-- `from_bytes`. -/
def fromBytes (P : Prims) (data : Bytes) : Except PyError Node := do ofValue (← P.canonicalDecode data)

end Node

/-- `Edge`: a step from premises to a conclusion, as it was graded. -/
structure Edge where
  type : EdgeType
  premises : List Hash
  conclusion : Hash
  rule : Value
  proofHash : Option Hash
  verdict : Verdict
  kappa : Kappa
  signerPubkey : Value

namespace Edge

/-- A hash or `None`. -/
def proofHashValue : Option Hash → Value
  | some h => .bytes h.raw
  | none => .none

/-- `to_canonical`. -/
def toCanonical (e : Edge) : Value :=
  .dict [
    (.str "type", .str e.type.value),
    (.str "premises", .list (e.premises.map fun p => .bytes p.raw)),
    (.str "conclusion", .bytes e.conclusion.raw),
    (.str "rule", e.rule),
    (.str "proof_hash", proofHashValue e.proofHash),
    (.str "verdict", .str e.verdict.value),
    (.str "kappa", .str e.kappa.value),
    (.str "signer_pubkey", e.signerPubkey)]

/-- `edge_bytes`. -/
def edgeBytes (P : Prims) (e : Edge) : Except PyError Bytes := P.canonicalEncode e.toCanonical

/-- `edge_hash`: the content address. -/
def edgeHash (P : Prims) (e : Edge) : Except PyError Hash := P.hashBytes <$> e.edgeBytes P

/-- `Hash(v) if v is not None else None`. -/
def proofHashOfValue : Value → Except PyError (Option Hash)
  | .none => .ok none
  | v => some <$> Hash.ofValue v

/-- The fields of a decoded dict. -/
def ofValue (d : Value) : Except PyError Edge := do
  pure {
    type := ← EdgeType.ofValue (← d.getItem "type")
    premises := ← (← (← d.getItem "premises").iter).mapM Hash.ofValue
    conclusion := ← Hash.ofValue (← d.getItem "conclusion")
    rule := ← d.getItem "rule"
    proofHash := ← proofHashOfValue (← d.getItem "proof_hash")
    verdict := ← Verdict.ofValue (← d.getItem "verdict")
    kappa := ← Kappa.ofValue (← d.getItem "kappa")
    signerPubkey := ← d.getItem "signer_pubkey" }

/-- `from_bytes`. -/
def fromBytes (P : Prims) (data : Bytes) : Except PyError Edge := do ofValue (← P.canonicalDecode data)

end Edge

end ArxDB.Impl
