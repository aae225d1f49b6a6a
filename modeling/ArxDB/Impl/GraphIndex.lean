import ArxDB.Framework.Failing
import ArxDB.Impl.Primitives

/-!
# `graph_index.py`

The tables `nodes`, `edges` and `premises`, their rows in the order of
insertion. Every hash in them was written as a `Hash`.
-/

namespace ArxDB.Impl

open Failing Prog

/-- A row of `edges`. -/
structure EdgeRow where
  edgeHash : Hash
  conclusion : Hash
deriving DecidableEq

/-- A row of `premises`. -/
structure PremiseRow where
  edgeHash : Hash
  premiseHash : Hash
  position : Nat
deriving DecidableEq

/-- `INSERT OR IGNORE`, with the primary key of a row. -/
def insertOrIgnore {α κ : Type} [DecidableEq κ] (key : α → κ) (row : α) (table : List α) : List α :=
  if table.any fun r => key r = key row then table else table ++ [row]

/-- The three tables of the index. -/
structure GraphIndex where
  nodes : List Hash
  edges : List EdgeRow
  premises : List PremiseRow
deriving DecidableEq

namespace GraphIndex

/-- The index when its tables were created. -/
def empty : GraphIndex := ⟨[], [], []⟩

/-- The index after the insertion of a node. -/
def insertNode (node : Hash) (g : GraphIndex) : GraphIndex :=
  { g with nodes := insertOrIgnore id node g.nodes }

/-- The index after the insertion of an edge. -/
def insertEdge (row : EdgeRow) (g : GraphIndex) : GraphIndex :=
  { g with edges := insertOrIgnore EdgeRow.edgeHash row g.edges }

/-- The index after the insertion of a premise. -/
def insertPremise (row : PremiseRow) (g : GraphIndex) : GraphIndex :=
  { g with premises := insertOrIgnore (fun r => (r.edgeHash, r.position)) row g.premises }

/-- `register_node`. -/
def registerNode (node : Hash) : Prog PyError GraphIndex Unit := do
  statement .fault
  update (insertNode node)

/-- `register_edge`. -/
def registerEdge (edgeHash : Hash) (premises : List Hash) (conclusion : Hash) :
    Prog PyError GraphIndex Unit := do
  registerNode conclusion
  premises.forM registerNode
  statement .fault
  update (insertEdge ⟨edgeHash, conclusion⟩)
  premises.zipIdx.forM fun (p, position) => do
    statement .fault
    update (insertPremise ⟨edgeHash, p, position⟩)

/-- `ORDER BY` on a column of hashes. -/
def orderByHash (hashes : List Hash) : List Hash := hashes.insertionSort (· ≤ ·)

/-- `incoming_edges`. -/
def incomingEdges (g : GraphIndex) (nodeHash : Hash) : List Hash :=
  orderByHash ((g.edges.filter (·.conclusion = nodeHash)).map EdgeRow.edgeHash)

/-- `outgoing_edges`. -/
def outgoingEdges (g : GraphIndex) (nodeHash : Hash) : List Hash :=
  orderByHash ((g.premises.filter (·.premiseHash = nodeHash)).map PremiseRow.edgeHash)

/-- `get_connectivity`. -/
def getConnectivity (g : GraphIndex) (edgeHash : Hash) : Option (List Hash × Hash) :=
  match g.edges.find? (·.edgeHash = edgeHash) with
  | none => none
  | some row => some
    ((((g.premises.filter (·.edgeHash = edgeHash)).insertionSort fun a b => a.position ≤ b.position).map
      PremiseRow.premiseHash), row.conclusion)

/-- `all_nodes`. -/
def allNodes (g : GraphIndex) : List Hash := orderByHash g.nodes

/-- `all_edges`. -/
def allEdges (g : GraphIndex) : List Hash := orderByHash (g.edges.map EdgeRow.edgeHash)

end GraphIndex

end ArxDB.Impl
