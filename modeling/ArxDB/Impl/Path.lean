import ArxDB.Impl.Reachability

/-!
# `path.py`

Path discovery: the depth of a target, or the premises that it still waits
for. The traversal is a loop over a stack, the top first.
-/

namespace ArxDB.Impl

/-- A gap: a candidate edge and those of its premises that are not established. -/
structure MissingEdge where
  conclusion : Hash
  premises : List Hash
  blockingNodes : List Hash
  rule : Value

/-- `PathResult`. -/
structure PathResult where
  target : Hash
  reachable : Bool
  depth : Option Nat
  kappa : Option Kappa
  missingEdges : List MissingEdge

namespace PathDiscovery

open Reachability

/-- `incoming`: the derivation edges that conclude a node. -/
def incoming (storage : Storage) (edges : List DerivationEdge) (node : Hash) : List DerivationEdge :=
  (storage.graph.incomingEdges node).filterMap fun h => (edgeMap edges h).map fun e => (h, e)

/-- `blocking`. -/
def blocking (established : Hash → Bool) (e : Edge) : List Hash := e.premises.filter fun p => !established p

/-- A node that no derivation edge concludes. -/
def leaf (node : Hash) : MissingEdge := ⟨node, [], [], .str ""⟩

/-- The gaps of the candidate edges of a node. -/
def gaps (established : Hash → Bool) (node : Hash) (candidates : List DerivationEdge) : List MissingEdge :=
  candidates.filterMap fun p =>
    if blocking established p.2 = [] then none
    else some ⟨node, p.2.premises, blocking established p.2, p.2.rule⟩

/-- The nodes that some edge concludes and that are not visited. -/
def unvisited (storage : Storage) (visited : List Hash) : Finset Hash :=
  (storage.graph.edges.map EdgeRow.conclusion).toFinset \ visited.toFinset

theorem unvisited_le (storage : Storage) (visited : List Hash) (node : Hash) :
    (unvisited storage (node :: visited)).card ≤ (unvisited storage visited).card := by
  refine Finset.card_le_card (Finset.sdiff_subset_sdiff le_rfl ?_)
  rw [List.toFinset_cons]
  exact Finset.subset_insert _ _

theorem unvisited_lt {storage : Storage} {edges : List DerivationEdge} {visited : List Hash} {node : Hash}
    (hi : incoming storage edges node ≠ []) (hv : node ∉ visited) :
    (unvisited storage (node :: visited)).card < (unvisited storage visited).card := by
  have hmem : node ∈ storage.graph.edges.map EdgeRow.conclusion := by
    obtain ⟨p, hp⟩ := List.exists_mem_of_ne_nil _ hi
    obtain ⟨h, hh, -⟩ := List.mem_filterMap.mp hp
    rw [GraphIndex.incomingEdges, GraphIndex.orderByHash, List.mem_insertionSort] at hh
    obtain ⟨row, hrow, -⟩ := List.mem_map.mp hh
    obtain ⟨hrow, hc⟩ := List.mem_filter.mp hrow
    exact List.mem_map.mpr ⟨row, hrow, by simpa using hc⟩
  have herase : unvisited storage (node :: visited) = (unvisited storage visited).erase node := by
    rw [unvisited, unvisited, List.toFinset_cons, Finset.sdiff_insert]
  rw [herase]
  apply Finset.card_erase_lt_of_mem
  rw [unvisited, Finset.mem_sdiff, List.mem_toFinset, List.mem_toFinset]
  exact ⟨hmem, hv⟩

/-- The loop of `path_discovery`. -/
def frontierFrom (storage : Storage) (edges : List DerivationEdge) (established : Hash → Bool)
    (visited : List Hash) (missing : List MissingEdge) : List Hash → List MissingEdge
  | [] => missing
  | node :: stack =>
    if _hv : node ∈ visited then frontierFrom storage edges established visited missing stack
    else if _hi : incoming storage edges node = [] then
      frontierFrom storage edges established (node :: visited) (missing ++ [leaf node]) stack
    else
      let candidates := incoming storage edges node
      frontierFrom storage edges established (node :: visited) (missing ++ gaps established node candidates)
        ((candidates.flatMap fun p => blocking established p.2).reverse ++ stack)
termination_by stack => ((unvisited storage visited).card, stack.length)
decreasing_by
  · exact .right _ (Nat.lt_succ_self _)
  · exact .right' _ (unvisited_le storage visited node) (Nat.lt_succ_self _)
  · exact .left _ _ (unvisited_lt _hi _hv)

/-- `established`: the nodes whose κ reaches the threshold. -/
def established (l : Labels) (minKappa : Kappa) (n : Hash) : Bool := (l.kappa n).any (minKappa.rank ≤ ·.rank)

/-- `path_discovery`. -/
def pathDiscovery (P : Prims) (target : Hash) (storage : Storage) (minKappa : Kappa) : Except PyError PathResult :=
  let edges := derivationEdges P storage none
  let l := fixpoint edges []
  if established l minKappa target then
    match l.depth target with
    | none => .error .keyError
    | some d => .ok { target, reachable := true, depth := some d, kappa := l.kappa target, missingEdges := [] }
  else .ok {
    target, reachable := false, depth := l.depth target, kappa := l.kappa target
    missingEdges := frontierFrom storage edges (established l minKappa) [] [] [target] }

end PathDiscovery

end ArxDB.Impl
