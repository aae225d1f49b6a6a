import Mathlib.Data.List.Sort
import Mathlib.Data.Set.Insert
import Mathlib.Logic.Function.Basic

/-!
# The store, abstractly

A set of nodes, a map from each edge to its premises and its conclusion, and a
list of log entries. `Lists` says how a read gives a set: every element once,
in ascending order.
-/

namespace ArxDB.Spec

variable {H E : Type}

/-- What has been stored: nodes, edges by their hash, and the entries in order. -/
structure Store (H E : Type) where
  nodes : Set H
  edges : H → Option (List H × H)
  log : List E

namespace Store

/-- Nothing was stored. -/
def empty : Store H E := ⟨∅, fun _ => none, []⟩

/-- A node is added. -/
def addNode (node : H) (s : Store H E) : Store H E := { s with nodes := insert node s.nodes }

/-- An edge is added with its endpoints. -/
def addEdge [DecidableEq H] (edge : H) (premises : List H) (conclusion : H) (s : Store H E) : Store H E where
  nodes := insert conclusion (s.nodes ∪ {p | p ∈ premises})
  edges := Function.update s.edges edge (some (premises, conclusion))
  log := s.log

theorem edges_addEdge [DecidableEq H] {s : Store H E} {edge edge' : H} {premises : List H} {conclusion : H} :
    (s.addEdge edge premises conclusion).edges edge' =
      if edge' = edge then some (premises, conclusion) else s.edges edge' := Function.update_apply ..

/-- An entry is added at the end. -/
def append (entry : E) (s : Store H E) : Store H E := { s with log := s.log ++ [entry] }

/-! ## Reads -/

/-- The edges, by their hash. -/
def allEdges (s : Store H E) : Set H := {e | (s.edges e).isSome}

/-- The edges that conclude `node`. -/
def incoming (s : Store H E) (node : H) : Set H := {e | ∃ ps, s.edges e = some (ps, node)}

/-- The edges that have `node` as a premise. -/
def outgoing (s : Store H E) (node : H) : Set H := {e | ∃ ps c, s.edges e = some (ps, c) ∧ node ∈ ps}

end Store

/-- Every read of the graph. -/
structure GraphView (H : Type) where
  allNodes : List H
  allEdges : List H
  connectivity : H → Option (List H × H)
  incoming : H → List H
  outgoing : H → List H

/-- `l` holds the elements of `S` once each, in ascending order. -/
structure Lists [LT H] (l : List H) (S : Set H) : Prop where
  ascending : l.Pairwise (· < ·)
  mem {x : H} : x ∈ l ↔ x ∈ S

theorem Lists.unique [LT H] [Std.Asymm (fun a b : H => a < b)] {l l' : List H} {S : Set H} (h : Lists l S)
    (h' : Lists l' S) : l = l' := by
  have : Std.Irrefl (fun a b : H => a < b) := ⟨fun a h => Std.Asymm.asymm a a h h⟩
  have : Std.Antisymm (fun a b : H => a < b) := ⟨fun a b hab hba => absurd hba (Std.Asymm.asymm a b hab)⟩
  exact h.ascending.eq_of_mem_iff h'.ascending fun x => h.mem.trans h'.mem.symm

end ArxDB.Spec
