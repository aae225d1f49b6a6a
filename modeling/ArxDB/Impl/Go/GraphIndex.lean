import ArxDB.Framework.BigEndian
import ArxDB.Impl.Go.Pebble

/-!
# `graph_index.go`

Structural adjacency under single-byte prefixes; the fields of a key have
fixed widths.
-/

namespace ArxDB.Impl.Go

open Failing Prog BigEndian

namespace GraphIndex

/-- `n`, and a node. -/
def nodeKey (node : Hash) : Bytes := 'n'.toUInt8 :: node.raw

/-- `e`, and an edge. -/
def edgeKey (edge : Hash) : Bytes := 'e'.toUInt8 :: edge.raw

/-- `p`, and an edge: what the keys of its premises begin with. -/
def premisePrefix (edge : Hash) : Bytes := 'p'.toUInt8 :: edge.raw

/-- The key of a premise: its edge and its position, in 8 bytes. -/
def premiseKey (edge : Hash) (pos : Nat) : Bytes := premisePrefix edge ++ be 8 pos

/-- `c`, and a node: what the keys of the edges that conclude it begin with. -/
def incomingPrefix (node : Hash) : Bytes := 'c'.toUInt8 :: node.raw

/-- The key of an edge under its conclusion. -/
def incomingKey (conclusion edge : Hash) : Bytes := incomingPrefix conclusion ++ edge.raw

/-- `o`, and a node: what the keys of the edges that it is a premise of begin with. -/
def outgoingPrefix (node : Hash) : Bytes := 'o'.toUInt8 :: node.raw

/-- The key of an edge under one of its premises. -/
def outgoingKey (premise edge : Hash) : Bytes := outgoingPrefix premise ++ edge.raw

/-- `RegisterNode`. -/
def registerNode (b : Batch) (node : Hash) : Prog GoError Pebble Batch := b.set (nodeKey node) []

/-- `RegisterEdge`. A `Set` to nil stores the empty value. -/
def registerEdge (b : Batch) (edge : Hash) (premises : List Hash) (conclusion : Hash) : Prog GoError Pebble Batch := do
  let b ← b.set (nodeKey conclusion) []
  let b ← premises.foldlM (fun b p => b.set (nodeKey p) []) b
  let b ← b.set (edgeKey edge) conclusion.raw
  let b ← premises.zipIdx.foldlM (fun b p => b.set (premiseKey edge p.2) p.1.raw) b
  let b ← b.set (incomingKey conclusion edge) []
  premises.foldlM (fun b p => b.set (outgoingKey p edge) []) b

/-- `prefixUpperBound`: the last byte below `0xff` incremented, and what
follows it dropped; none when the prefix is all `0xff`. -/
def prefixUpperBound : Bytes → Option Bytes
  | [] => none
  | x :: b => match prefixUpperBound b with
    | some ub => some (x :: ub)
    | none => if x < 0xff then some [x + 1] else none

/-- `AllEdges`. -/
def allEdges (db : Pebble) : List Hash :=
  (db.scan ['e'.toUInt8] (prefixUpperBound ['e'.toUInt8])).map fun kv => copyHash (kv.1.drop 1)

/-- `AllNodes`. -/
def allNodes (db : Pebble) : List Hash :=
  (db.scan ['n'.toUInt8] (prefixUpperBound ['n'.toUInt8])).map fun kv => copyHash (kv.1.drop 1)

/-- The edges of an index whose keys are the prefix and the edge. -/
def edgesUnder (db : Pebble) (pre : Bytes) : List Hash :=
  (db.scan pre (prefixUpperBound pre)).map fun kv => copyHash (kv.1.drop (1 + 34))

/-- `IncomingEdges`. -/
def incomingEdges (db : Pebble) (node : Hash) : List Hash := edgesUnder db (incomingPrefix node)

/-- `OutgoingEdges`. -/
def outgoingEdges (db : Pebble) (node : Hash) : List Hash := edgesUnder db (outgoingPrefix node)

/-- `GetConnectivity`. -/
def getConnectivity (db : Pebble) (edge : Hash) : Option (List Hash × Hash) :=
  match db[edgeKey edge]? with
  | none => none
  | some val =>
    let pre := premisePrefix edge
    some ((db.scan pre (prefixUpperBound pre)).map fun kv => copyHash kv.2, copyHash val)

end GraphIndex

end ArxDB.Impl.Go
