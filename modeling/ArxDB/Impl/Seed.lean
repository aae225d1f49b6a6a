import ArxDB.Impl.Commit
import ArxDB.Impl.Resolve

/-!
# `corpus.py`, `seed_phaser.py`

The seed script: it goes over the edges of a corpus, skips those whose blob
resolves already and commits the others. `source` of a corpus edge is not
read.
-/

namespace ArxDB.Impl

open Failing Prog

/-- A node of the corpus, under the key that edges name it by. -/
structure CorpusNode where
  key : String
  claim : Value
  domain : Value
  polarity : Value

/-- An edge of the corpus, with the κ that it is expected to earn. -/
structure CorpusEdge where
  key : String
  edgeType : EdgeType
  premiseKeys : List String
  conclusionKey : String
  rule : Value
  expectedKappa : Kappa
  proofBytes : Option Bytes

/-- `CORPUS_NODES` and `CORPUS_EDGES`. -/
structure Corpus where
  nodes : List CorpusNode
  edges : List CorpusEdge

/-- What became of an edge of the corpus. -/
inductive SeedStatus where
  | matched | mismatch | rejected | skip
deriving DecidableEq, Repr

/-- One row of the report. -/
structure SeedRow where
  key : String
  edgeType : EdgeType
  rule : Value
  expectedKappa : Kappa
  actualKappa : Option Kappa
  status : SeedStatus

namespace Seed

/-- `node_map[key]` of `_node_map()`: of two nodes with one key the later counts. -/
def node (corpus : Corpus) (key : String) : Except PyError Node :=
  match corpus.nodes.reverse.find? (·.key = key) with
  | some n => .ok ⟨n.claim, n.domain, n.polarity⟩
  | none => .error .keyError

/-- What is proposed for a corpus edge. -/
def proposal (corpus : Corpus) (signerPubkey : Bytes) (e : CorpusEdge) : Except PyError Proposal := do
  let premises ← e.premiseKeys.mapM (node corpus)
  let conclusion ← node corpus e.conclusionKey
  pure {
    signerPubkey := .bytes signerPubkey, premises, conclusion, rule := e.rule, edgeType := e.edgeType,
    proofBytes := e.proofBytes, timeoutSeconds := defaultTimeout }

variable (P : Prims) (checkers : Checkers)

/-- `_build_edge`. -/
def buildEdge (q : Proposal) : Except PyError (Option Edge) := do
  let v ← Verifier.verify checkers q.premises q.conclusion q.rule q.edgeType q.proofBytes q.timeoutSeconds
  if v.rejected then pure none
  else do
    let premiseHashes ← q.premises.mapM (Node.nodeId P)
    let conclusionHash ← q.conclusion.nodeId P
    pure (some (q.edge P premiseHashes conclusionHash v))

/-- One round of `seed`. -/
def seedEdge (keys : Keys) (now : Int) (corpus : Corpus) (signerPubkey : Bytes) (e : CorpusEdge) :
    Prog PyError Storage SeedRow := do
  let q ← lift (proposal corpus signerPubkey e)
  let row := fun actualKappa status => SeedRow.mk e.key e.edgeType e.rule e.expectedKappa actualKappa status
  match ← lift (buildEdge P checkers q) with
  | none => pure (row none .rejected)
  | some edge => do
    let edgeHash ← lift (edge.edgeHash P)
    let present ← read fun s => (resolveEdge P edgeHash s).isSome
    if present then pure (row (some edge.kappa) .skip)
    else do
      let r ← verifyAndCommit P checkers keys now q
      let actual := if r.rejected then none else some r.verification.kappa
      pure (row actual (if actual = some e.expectedKappa then .matched else .mismatch))

/-- The rounds of `seed`; `clock` is the time that each reads. -/
def seedFrom (keys : Keys) (clock : Nat → Int) (corpus : Corpus) (signerPubkey : Bytes) :
    Nat → List CorpusEdge → Prog PyError Storage (List SeedRow)
  | _, [] => pure []
  | i, e :: es => do
    let row ← seedEdge P checkers keys (clock i) corpus signerPubkey e
    let rows ← seedFrom keys clock corpus signerPubkey (i + 1) es
    pure (row :: rows)

/-- `seed`. -/
def seed (keys : Keys) (clock : Nat → Int) (corpus : Corpus) (signerPubkey : Bytes) :
    Prog PyError Storage (List SeedRow) := seedFrom P checkers keys clock corpus signerPubkey 0 corpus.edges

end Seed

/-- A run of the seed script, with the keys of its storage, the times it reads
and the statement at which it stops, if it does. -/
structure SeedRun where
  keys : Keys
  clock : Nat → Int
  fault : Option Nat

namespace SeedRun

variable (P : Prims) (checkers : Checkers) (corpus : Corpus) (signerPubkey : Bytes)

/-- The storage after the run. -/
def exec (s : Storage) (r : SeedRun) : Storage :=
  ((Seed.seed P checkers r.keys r.clock corpus signerPubkey).exec r.fault s).2

/-- The storage after the runs, on an empty directory. -/
def run (runs : List SeedRun) : Storage := runs.foldl (exec P checkers corpus signerPubkey) .empty

end SeedRun

end ArxDB.Impl
