import ArxDB.Framework.Saturate
import ArxDB.Impl.Resolve
import Mathlib.Data.Finset.Union

/-!
# `refutation.py`

The active subgraph. The labelling loop is a saturation: a step is what one
edge changes in place. The sets are finite sets, and the dicts of sets are
functions of the edge.
-/

namespace ArxDB.Impl

open Saturate

/-- `ActiveSubgraph`. -/
structure ActiveSubgraph where
  inEdges : Finset Hash
  outEdges : Finset Hash
  undecidedEdges : Finset Hash

namespace Refutation

variable (P : Prims)

/-- `edges`, in the order of `all_edges()`. -/
def storedEdges (storage : Storage) : List (Hash × Edge) :=
  storage.graph.allEdges.filterMap fun h => (resolveEdge P h storage).map fun e => (h, e)

/-! ## The attack graph -/

/-- The dicts `attackers` (whom an edge attacks) and `attacked_by`. -/
structure Attacks where
  attackers : Hash → Finset Hash
  attackedBy : Hash → Finset Hash

namespace Attacks

/-- No attacks. -/
def empty : Attacks := ⟨fun _ => ∅, fun _ => ∅⟩

/-- `attackers[h].add(t)` and `attacked_by[t].add(h)`. -/
def add (h t : Hash) (g : Attacks) : Attacks where
  attackers := Function.update g.attackers h (insert t (g.attackers h))
  attackedBy := Function.update g.attackedBy t (insert h (g.attackedBy t))

end Attacks

/-- A `REFUTATION` edge attacks the edge whose hash is its conclusion. -/
def addRefutation (edges : List (Hash × Edge)) (g : Attacks) (p : Hash × Edge) : Attacks :=
  if p.2.type = .refutation ∧ p.2.conclusion ∈ edges.map Prod.fst then g.add p.1 p.2.conclusion else g

/-- The edges that conclude one proposition, with their polarities. -/
structure Proposition where
  claim : Value
  domain : Value
  items : List (Hash × Value)

/-- Whether the keys `(claim, domain)` are equal. -/
def Proposition.matches (n : Node) (q : Proposition) : Bool := P.equal q.claim n.claim && P.equal q.domain n.domain

/-- `by_prop.setdefault((n.claim, n.domain), []).append((h, n.polarity))`. -/
def appendItem (h : Hash) (n : Node) : List Proposition → List Proposition
  | [] => [⟨n.claim, n.domain, [(h, n.polarity)]⟩]
  | q :: qs => if q.matches P n then { q with items := q.items ++ [(h, n.polarity)] } :: qs else q :: appendItem h n qs

/-- `by_prop`; a key that is not hashable is a `TypeError`. -/
def byProp (storage : Storage) : List (Hash × Edge) → List Proposition → Except PyError (List Proposition)
  | [], qs => .ok qs
  | (h, e) :: edges, qs =>
    match resolveNode P e.conclusion storage with
    | none => byProp storage edges qs
    | some n =>
      if n.claim.hashable && n.domain.hashable then byProp storage edges (appendItem P h n qs)
      else .error .typeError

/-- The two edges attack each other. -/
def contend (g : Attacks) (h : Hash × Hash) : Attacks := (g.add h.1 h.2).add h.2 h.1

/-- Edges of opposite polarity contend. -/
def addContention (g : Attacks) (q : Proposition) : Attacks :=
  let pos := (q.items.filter fun i => i.2.truthy).map Prod.fst
  let neg := (q.items.filter fun i => !i.2.truthy).map Prod.fst
  (pos.product neg).foldl contend g

/-- The attack graph: of refutations first, then of opposed claims. -/
def attackGraph (storage : Storage) (edges : List (Hash × Edge)) : Except PyError Attacks := do
  let props ← byProp P storage edges []
  pure (props.foldl addContention (edges.foldl (addRefutation edges) .empty))

/-! ## The labelling -/

/-- The sets of edges that are in and that are out so far. -/
structure Labelling where
  inEdges : Finset Hash
  outEdges : Finset Hash

/-- What an edge changes in a round: it is accepted once all of its attackers are out. -/
def labelStep (g : Attacks) (h : Hash) (l : Labelling) : Option Labelling :=
  if h ∈ l.inEdges ∨ h ∈ l.outEdges then none
  else if g.attackedBy h ⊆ l.outEdges then
    some { inEdges := insert h l.inEdges, outEdges := l.outEdges ∪ g.attackers h }
  else none

theorem labelStep_lt {g : Attacks} {hs : List Hash} : ∀ h ∈ hs, ∀ l l', labelStep g h l = some l' →
    (hs.toFinset \ l'.inEdges).card < (hs.toFinset \ l.inEdges).card := by
  intro h hh l l' hl
  unfold labelStep at hl
  split_ifs at hl with hlabel _
  cases hl
  rw [Finset.sdiff_insert]
  refine Finset.card_erase_lt_of_mem ?_
  rw [Finset.mem_sdiff, List.mem_toFinset]
  exact ⟨hh, fun hin => hlabel (.inl hin)⟩

/-- The labelling where the loop stops. -/
def label (g : Attacks) (hs : List Hash) : Labelling :=
  saturate (labelStep g) hs (fun l => (hs.toFinset \ l.inEdges).card) labelStep_lt ⟨∅, ∅⟩

/-- `compute_active_subgraph`. -/
def computeActiveSubgraph (storage : Storage) : Except PyError ActiveSubgraph := do
  let edges := storedEdges P storage
  let hs := edges.map Prod.fst
  let g ← attackGraph P storage edges
  let l := label g hs
  pure { inEdges := l.inEdges, outEdges := l.outEdges, undecidedEdges := (hs.toFinset \ l.inEdges) \ l.outEdges }

end Refutation

end ArxDB.Impl
