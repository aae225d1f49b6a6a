import ArxDB.Framework.Saturate
import ArxDB.Impl.Kappa
import ArxDB.Impl.Resolve
import Mathlib.Data.Char
import Mathlib.Data.Finset.Defs
import Mathlib.Data.List.Lex
import Mathlib.Data.Prod.Lex

/-!
# `reachability.py`

AND-OR reachability. The dicts of `_fixpoint` are functions of the node, and
its two loops are saturations: a step is what one edge changes in place.
-/

namespace ArxDB.Impl

open Saturate

/-- `ReachabilityResult`. -/
structure ReachabilityResult where
  target : Hash
  established : Bool
  kappa : Option Kappa
  depth : Option Nat
  proofTreeEdges : List Hash
deriving DecidableEq

/-- The dicts `kappa`, `depth` and `best_edge`. -/
structure Labels where
  kappa : Hash → Option Kappa
  depth : Hash → Option Nat
  bestEdge : Hash → Option Hash

/-- The dicts before the first seed. -/
def Labels.empty : Labels := ⟨fun _ => none, fun _ => none, fun _ => none⟩

namespace Reachability

/-- An edge under its hash. -/
abbrev DerivationEdge := Hash × Edge

/-- `_derivation_edges`. -/
def derivationEdges (P : Prims) (storage : Storage) (activeEdges : Option (Finset Hash)) : List DerivationEdge :=
  storage.graph.allEdges.filterMap fun h =>
    if activeEdges.any (h ∉ ·) then none
    else match resolveEdge P h storage with
      | none => none
      | some e =>
        if e.type = .refutation then none
        else if e.verdict ∉ [.pass, .softFlag] then none
        else some (h, e)

/-- `_seed`. -/
def seed (node : Hash) (k : Kappa) (edge : Option Hash) (l : Labels) : Labels where
  kappa := if (l.kappa node).all (·.rank < k.rank) then Function.update l.kappa node (some k) else l.kappa
  depth := Function.update l.depth node (some 0)
  bestEdge := edge.elim l.bestEdge fun h => Function.update l.bestEdge node (some h)

/-- An edge without premises is a seed. -/
def seedEdge (l : Labels) (p : DerivationEdge) : Labels :=
  if p.2.premises = [] then seed p.2.conclusion p.2.kappa (some p.1) l else l

/-- A hypothetical seed. -/
def seedExtra (l : Labels) (s : Hash) : Labels := seed s .kInf none l

/-- The seeds: the edges without premises, then the hypothetical ones. -/
def seeded (edges : List DerivationEdge) (extraSeeds : List Hash) : Labels :=
  extraSeeds.foldl seedExtra (edges.foldl seedEdge .empty)

/-- What an edge changes in a round of the κ loop. -/
def kappaStep : DerivationEdge → Labels → Option Labels
  | (h, e), l =>
    if e.premises = [] then none
    else if e.premises.all fun p => (l.kappa p).isSome then
      let pathKappa := Kappa.least e.kappa (e.premises.filterMap l.kappa)
      if (l.kappa e.conclusion).all (·.rank < pathKappa.rank) then
        some { l with
          kappa := Function.update l.kappa e.conclusion (some pathKappa)
          bestEdge := Function.update l.bestEdge e.conclusion (some h) }
      else none
    else none

/-- What an edge changes in a round of the depth loop. -/
def depthStep : DerivationEdge → Labels → Option Labels
  | (_, e), l =>
    if e.premises = [] then none
    else if (l.kappa e.conclusion).isNone then none
    else if e.premises.all fun p => (l.depth p).isSome then
      let d := 1 + (e.premises.filterMap l.depth).foldl max 0
      if (l.depth e.conclusion).all (d < ·) then
        some { l with depth := Function.update l.depth e.conclusion (some d) }
      else none
    else none

/-- What the κ loop does for an edge that changes something. -/
theorem kappaStep_eq_some {p : DerivationEdge} {l l' : Labels} (hs : kappaStep p l = some l') :
    p.2.premises ≠ [] ∧ p.2.premises.all (fun q => (l.kappa q).isSome) = true ∧
      (l.kappa p.2.conclusion).all (·.rank < (Kappa.least p.2.kappa (p.2.premises.filterMap l.kappa)).rank) = true ∧
      l' = { l with
        kappa := Function.update l.kappa p.2.conclusion (some (Kappa.least p.2.kappa (p.2.premises.filterMap l.kappa)))
        bestEdge := Function.update l.bestEdge p.2.conclusion (some p.1) } := by
  simp only [kappaStep] at hs
  split_ifs at hs with hne hall hk
  exact ⟨hne, hall, hk, (Option.some.inj hs).symm⟩

/-- What the depth loop does for an edge that changes something. -/
theorem depthStep_eq_some {p : DerivationEdge} {l l' : Labels} (hs : depthStep p l = some l') :
    p.2.premises ≠ [] ∧ p.2.premises.all (fun q => (l.depth q).isSome) = true ∧
      (l.depth p.2.conclusion).all (1 + (p.2.premises.filterMap l.depth).foldl max 0 < ·) = true ∧
      l' = { l with
        depth := Function.update l.depth p.2.conclusion
          (some (1 + (p.2.premises.filterMap l.depth).foldl max 0)) } := by
  simp only [depthStep] at hs
  split_ifs at hs with hne _ hall hd
  exact ⟨hne, hall, hd, (Option.some.inj hs).symm⟩

/-! ## The loops end -/

/-- How far a κ can still be raised. -/
def slack : Option Kappa → Nat
  | none => 5
  | some .k0 => 4
  | some .k1 => 3
  | some .k2 => 2
  | some .k3 => 1
  | some .kInf => 0

theorem slack_lt {old : Option Kappa} {k : Kappa} (h : old.all (·.rank < k.rank) = true) :
    slack (some k) < slack old := by
  rcases old with _ | old
  · cases k <;> decide
  · revert h
    cases old <;> cases k <;> decide

/-- The conclusions of edges, which are what the loops label. -/
def conclusions (edges : List DerivationEdge) : List Hash := edges.map fun p => p.2.conclusion

theorem kappaStep_lt {edges : List DerivationEdge} : ∀ p ∈ edges, ∀ l l', kappaStep p l = some l' →
    total slack (conclusions edges) l'.kappa < total slack (conclusions edges) l.kappa := by
  intro p hp l l' h
  obtain ⟨-, -, hk, rfl⟩ := kappaStep_eq_some h
  exact total_update_lt (List.mem_map_of_mem hp) (slack_lt hk)

/-- The nodes without a depth, then the depths. -/
def depthMeasure (edges : List DerivationEdge) (depth : Hash → Option Nat) : Nat ×ₗ Nat :=
  toLex (total (fun d => if d.isNone then 1 else 0) (conclusions edges) depth,
    total (fun d => d.getD 0) (conclusions edges) depth)

theorem depthStep_lt {edges : List DerivationEdge} : ∀ p ∈ edges, ∀ l l', depthStep p l = some l' →
    depthMeasure edges l'.depth < depthMeasure edges l.depth := by
  intro p hp l l' h
  obtain ⟨-, -, hd, rfl⟩ := depthStep_eq_some h
  have hmem : p.2.conclusion ∈ conclusions edges := List.mem_map_of_mem hp
  rw [depthMeasure, depthMeasure, Prod.Lex.toLex_lt_toLex]
  dsimp only
  cases hold : l.depth p.2.conclusion with
  | none =>
    refine .inl (total_update_lt hmem ?_)
    rw [hold]
    exact Nat.zero_lt_one
  | some d =>
    rw [hold, Option.all_some, decide_eq_true_eq] at hd
    refine .inr ⟨total_update_eq ?_, total_update_lt hmem ?_⟩
    · rw [hold]
      rfl
    · rw [hold]
      exact hd

/-- `_fixpoint`. -/
def fixpoint (edges : List DerivationEdge) (extraSeeds : List Hash) : Labels :=
  let l := saturate kappaStep edges (fun l => total slack (conclusions edges) l.kappa) kappaStep_lt
    (seeded edges extraSeeds)
  saturate depthStep edges (fun l => depthMeasure edges l.depth) depthStep_lt l

/-! ## Proof trees -/

/-- `edge_map`, where a later edge of a hash replaces an earlier one. -/
def edgeMap (edges : List DerivationEdge) (h : Hash) : Option Edge := (edges.reverse.find? (·.1 = h)).map Prod.snd

/-- The hashes that are not collected. -/
def remaining (edges : List DerivationEdge) (collected : List Hash) : Finset Hash :=
  (edges.map Prod.fst).toFinset \ collected.toFinset

theorem remaining_le (edges : List DerivationEdge) (collected : List Hash) (h : Hash) :
    (remaining edges (h :: collected)).card ≤ (remaining edges collected).card := by
  refine Finset.card_le_card (Finset.sdiff_subset_sdiff le_rfl ?_)
  rw [List.toFinset_cons]
  exact Finset.subset_insert _ _

theorem remaining_lt {edges : List DerivationEdge} {collected : List Hash} {h : Hash} {e : Edge}
    (hm : edgeMap edges h = some e) (hc : h ∉ collected) :
    (remaining edges (h :: collected)).card < (remaining edges collected).card := by
  obtain ⟨p, hp, -⟩ := Option.map_eq_some_iff.mp hm
  have hk : p.1 = h := by simpa using List.find?_some hp
  have hmem : h ∈ edges.map Prod.fst :=
    hk ▸ List.mem_map_of_mem (List.mem_reverse.mp (List.mem_of_find?_eq_some hp))
  have herase : remaining edges (h :: collected) = (remaining edges collected).erase h := by
    rw [remaining, remaining, List.toFinset_cons, Finset.sdiff_insert]
  rw [herase]
  exact Finset.card_erase_lt_of_mem (by simp [remaining, hmem, hc])

/-- The loop of `_collect_proof_tree`, with the top of the stack first. -/
def collectFrom (bestEdge : Hash → Option Hash) (edges : List DerivationEdge) (collected : List Hash) :
    List Hash → List Hash
  | [] => collected
  | node :: stack =>
    match bestEdge node with
    | none => collectFrom bestEdge edges collected stack
    | some h =>
      if _hc : h ∈ collected then collectFrom bestEdge edges collected stack
      else match _hm : edgeMap edges h with
        | none => collectFrom bestEdge edges (h :: collected) stack
        | some e => collectFrom bestEdge edges (h :: collected) (e.premises.reverse ++ stack)
termination_by stack => ((remaining edges collected).card, stack.length)
decreasing_by
  · exact .right _ (Nat.lt_succ_self _)
  · exact .right _ (Nat.lt_succ_self _)
  · exact .right' _ (remaining_le edges collected h) (Nat.lt_succ_self _)
  · exact .left _ _ (remaining_lt _hm _hc)

/-- `_collect_proof_tree`. -/
def collectProofTree (target : Hash) (bestEdge : Hash → Option Hash) (edges : List DerivationEdge) : List Hash :=
  (collectFrom bestEdge edges [] [target]).insertionSort fun a b => a.hex ≤ b.hex

/-- `reachable`. -/
def reachable (P : Prims) (target : Hash) (storage : Storage) (minKappa : Kappa) (extraSeeds : List Hash)
    (activeEdges : Option (Finset Hash)) : Except PyError ReachabilityResult :=
  let edges := derivationEdges P storage activeEdges
  let l := fixpoint edges extraSeeds
  match l.kappa target with
  | none => .ok { target, established := false, kappa := none, depth := none, proofTreeEdges := [] }
  | some k =>
    match l.depth target with
    | none => .error .keyError
    | some d => .ok {
        target, established := minKappa.rank ≤ k.rank, kappa := some k, depth := some d
        proofTreeEdges := collectProofTree target l.bestEdge edges }

end Reachability

end ArxDB.Impl
