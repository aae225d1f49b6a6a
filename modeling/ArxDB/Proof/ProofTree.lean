import ArxDB.Framework.Chosen
import ArxDB.Framework.Worklist
import ArxDB.Proof.Depth

/-!
# Proof trees

`best_edge` is overwritten as κ rises, but never through a node that its new
premises lead back to (`kappaStep_traced`), so the edges of a proof tree derive
the target and never go round in a circle (`proof_tree_derives`). The seeding
overwrites it with every edge without premises, also with a weaker one: the
tree has the reported κ unless the last such edge is weaker than a node that
owes its κ to such edges (`proof_tree_kappa_iff`).
-/

namespace ArxDB.Proof

open Impl Impl.Reachability Derivation Valuation Saturate Worklist

variable {edges : List DerivationEdge} {extraSeeds : List Hash} {l : Labels} {c : Choice Hash DerivationEdge}

/-! ## Edges by hash -/

/-- A hash stands for one edge. -/
def Keyed (edges : List DerivationEdge) : Prop := ∀ p ∈ edges, ∀ q ∈ edges, p.1 = q.1 → p = q

theorem mem_of_edgeMap {h : Hash} {e : Edge} (hm : edgeMap edges h = some e) : (h, e) ∈ edges := by
  obtain ⟨p, hp, rfl⟩ := Option.map_eq_some_iff.mp hm
  have hk : p.1 = h := by simpa using List.find?_some hp
  exact hk ▸ List.mem_reverse.mp (List.mem_of_find?_eq_some hp)

theorem Keyed.edgeMap (hk : Keyed edges) {p : DerivationEdge} (hp : p ∈ edges) : edgeMap edges p.1 = some p.2 := by
  obtain ⟨q, hq⟩ : ∃ q, edges.reverse.find? (·.1 = p.1) = some q := by
    rw [← Option.isSome_iff_exists, List.find?_isSome]
    exact ⟨p, List.mem_reverse.mpr hp, by simp⟩
  have hq' : q ∈ edges := List.mem_reverse.mp (List.mem_of_find?_eq_some hq)
  have hkey : q.1 = p.1 := by simpa using List.find?_some hq
  rw [Reachability.edgeMap, hq, Option.map_some, hk q hq' p hp hkey]

theorem keyed_derivationEdges {P : Prims} {storage : Storage} {activeEdges : Option (Finset Hash)} :
    Keyed (derivationEdges P storage activeEdges) := by
  intro p hp q hq he
  obtain ⟨-, -, hp, -⟩ := mem_derivationEdges.mp hp
  obtain ⟨-, -, hq, -⟩ := mem_derivationEdges.mp hq
  rw [he, hq, Option.some.injEq] at hp
  exact Prod.ext he hp.symm

/-- The records of these hashes. -/
def recorded (record : Hash → Edge) (hashes : List Hash) : List DerivationEdge := hashes.map fun h => (h, record h)

theorem keyed_recorded {record : Hash → Edge} {hashes : List Hash} : Keyed (recorded record hashes) := by
  intro p hp q hq he
  obtain ⟨h, -, rfl⟩ := List.mem_map.mp hp
  obtain ⟨h', -, rfl⟩ := List.mem_map.mp hq
  obtain rfl : h = h' := he
  rfl

/-! ## The seeds -/

/-- The edges without premises that conclude the node, in their order. -/
def sources (edges : List DerivationEdge) (n : Hash) : List DerivationEdge :=
  edges.filter fun p => p.2.premises = [] ∧ p.2.conclusion = n

theorem mem_sources {n : Hash} {p : DerivationEdge} :
    p ∈ sources edges n ↔ p ∈ edges ∧ p.2.premises = [] ∧ p.2.conclusion = n := by
  rw [sources, List.mem_filter, decide_eq_true_eq]

theorem sources_concat {p : DerivationEdge} {n : Hash} : sources (edges ++ [p]) n =
    if p.2.premises = [] ∧ p.2.conclusion = n then sources edges n ++ [p] else sources edges n := by
  rw [sources, List.filter_append]
  split
  · rename_i h
    rw [List.filter_cons_of_pos (by simpa using h)]
    rfl
  · rename_i h
    rw [List.filter_cons_of_neg (by simpa using h), List.filter_nil, List.append_nil]
    rfl

theorem foldl_seedEdge_bestEdge (n : Hash) :
    (edges.foldl seedEdge .empty).bestEdge n = (sources edges n).getLast?.map Prod.fst := by
  induction edges using List.reverseRecOn with
  | nil => rfl
  | append_singleton edges p ih =>
    rw [List.foldl_concat, sources_concat, seedEdge]
    by_cases hnil : p.2.premises = []
    · by_cases hn : p.2.conclusion = n
      · rw [if_pos hnil, if_pos ⟨hnil, hn⟩, List.getLast?_concat, ← hn]
        exact Function.update_self ..
      · rw [if_pos hnil, if_neg fun h => hn h.2, ← ih]
        exact Function.update_of_ne (Ne.symm hn) ..
    · rw [if_neg hnil, if_neg fun h => hnil h.1, ih]

/-- The seeding leaves the last edge without premises, whatever its κ. -/
theorem seeded_bestEdge (n : Hash) :
    (seeded edges extraSeeds).bestEdge n = (sources edges n).getLast?.map Prod.fst := by
  rw [← foldl_seedEdge_bestEdge]
  refine List.foldlRecOn (motive := fun l => l.bestEdge n = (edges.foldl seedEdge .empty).bestEdge n) extraSeeds
    seedExtra rfl fun l h s _ => ?_
  exact h

/-- The κ of a seed is that of an edge without premises, unless it is hypothetical. -/
theorem seeded_kappa {n : Hash} {k : Kappa} (h : (seeded edges extraSeeds).kappa n = some k) :
    n ∈ extraSeeds ∨ ∃ p ∈ sources edges n, p.2.kappa = k := by
  have seed_cases : ∀ {node n : Hash} {k k' : Kappa} {edge : Option Hash} {l : Labels},
      (seed node k edge l).kappa n = some k' → (n = node ∧ k = k') ∨ l.kappa n = some k' := by
    intro node n k k' edge l h
    simp only [seed] at h
    split at h
    · by_cases hn : n = node
      · rw [hn, Function.update_self, Option.some.injEq] at h
        exact .inl ⟨hn, h⟩
      · rw [Function.update_of_ne hn] at h
        exact .inr h
    · exact .inr h
  have hedges : ∀ n k, (edges.foldl seedEdge .empty).kappa n = some k → ∃ p ∈ sources edges n, p.2.kappa = k := by
    refine List.foldlRecOn (motive := fun l => ∀ n k, l.kappa n = some k → ∃ p ∈ sources edges n, p.2.kappa = k)
      edges seedEdge ?_ fun l ih p hp n k h => ?_
    · intro n k h
      cases h
    · unfold seedEdge at h
      split at h
      · rename_i hnil
        rcases seed_cases h with ⟨hn, hk⟩ | h
        · exact ⟨p, mem_sources.mpr ⟨hp, hnil, hn.symm⟩, hk⟩
        · exact ih n k h
      · exact ih n k h
  refine List.foldlRecOn (motive := fun l => ∀ n k, l.kappa n = some k →
    n ∈ extraSeeds ∨ ∃ p ∈ sources edges n, p.2.kappa = k) extraSeeds seedExtra (fun n k h => .inr (hedges n k h))
    (fun l ih s hs n k h => ?_) n k h
  rcases seed_cases h with ⟨hn, -⟩ | h
  · exact .inl (hn ▸ hs)
  · exact ih n k h

/-! ## The κ loop -/

/-- What the dict `best_edge` keeps: the hashes of chosen edges, which justify
the κ of each node; the edge of a node that has the κ of a seed is the last one
without premises, and the edge of a node that was raised above that is no
weaker than the node. -/
structure Traced (edges : List DerivationEdge) (extraSeeds : List Hash) (l : Labels)
    (c : Choice Hash DerivationEdge) : Prop where
  bestEdge (n : Hash) : l.bestEdge n = (c n).map Prod.fst
  justified : Justified (system {p | p ∈ edges} extraSeeds) l.kappa c
  origin (n : Hash) : (c n = (sources edges n).getLast? ∧ l.kappa n = (seeded edges extraSeeds).kappa n) ∨
    ∃ p k, c n = some p ∧ l.kappa n = some k ∧ k ≤ p.2.kappa ∧
      ∀ k₀, (seeded edges extraSeeds).kappa n = some k₀ → k₀ < k

theorem seeded_traced : Traced edges extraSeeds (seeded edges extraSeeds) fun n => (sources edges n).getLast? where
  bestEdge := seeded_bestEdge
  justified := {
    edge := fun {n p} hc => by
      obtain ⟨hp, hnil, rfl⟩ := mem_sources.mp (List.mem_of_getLast? hc)
      obtain ⟨⟨k, -, hk⟩, -⟩ := (seeded_edge hp hnil : Placed _ _ (seeded edges extraSeeds))
      refine ⟨hp, rfl, k, hk, fun q hq => ?_⟩
      change q ∈ p.2.premises at hq
      rw [hnil] at hq
      cases hq
    backed := fun {n k} hk => by
      cases hc : (sources edges n).getLast? with
      | none =>
        refine .seed ((seeded_kappa hk).resolve_right fun h => ?_) hc
        obtain ⟨p, hp, -⟩ := h
        rw [List.getLast?_eq_none_iff.mp hc] at hp
        cases hp
      | some p =>
        obtain ⟨hp, hnil, hn⟩ := mem_sources.mp (List.mem_of_getLast? hc)
        refine .edge hc hp hn fun q hq => ?_
        change q ∈ p.2.premises at hq
        rw [hnil] at hq
        cases hq }
  origin n := .inl ⟨rfl, rfl⟩

theorem kappaStep_traced {p : DerivationEdge} (hp : p ∈ edges) {l' : Labels} (h : Traced edges extraSeeds l c)
    (hs : kappaStep p l = some l') :
    Traced edges extraSeeds l' (Function.update c p.2.conclusion (some p)) := by
  obtain ⟨h₀, e⟩ := p
  obtain ⟨-, hall, hk, rfl⟩ := kappaStep_eq_some hs
  have hpath := (le_pathKappa_iff hall).mp le_rfl
  have hlt : ∀ k', l.kappa e.conclusion = some k' → k' < Kappa.least e.kappa (e.premises.filterMap l.kappa) := by
    intro k' hk'
    rw [hk', Option.all_some, decide_eq_true_eq] at hk
    exact Kappa.lt_def.mpr hk
  refine ⟨fun n => ?_, h.justified.raise (e := (h₀, e)) hp hpath.2 hlt, fun n => ?_⟩
  · dsimp only
    by_cases hn : n = e.conclusion
    · rw [hn, Function.update_self, Function.update_self]
      rfl
    · rw [Function.update_of_ne hn, Function.update_of_ne hn, h.bestEdge]
  · dsimp only
    by_cases hn : n = e.conclusion
    · rw [hn, Function.update_self, Function.update_self]
      refine .inr ⟨_, _, rfl, rfl, hpath.1, fun k₀ hk₀ => ?_⟩
      rcases h.origin e.conclusion with ⟨-, ho⟩ | ⟨-, k', -, ho, -, hlow⟩
      · exact hlt k₀ (ho.trans hk₀)
      · exact (hlow k₀ hk₀).trans (hlt k' ho)
    · rw [Function.update_of_ne hn, Function.update_of_ne hn]
      exact h.origin n

theorem raised_traced (edges : List DerivationEdge) (extraSeeds : List Hash) :
    ∃ c, Traced edges extraSeeds (raised edges extraSeeds) c :=
  saturate_inv (I := fun l => ∃ c, Traced edges extraSeeds l c) _
    (fun p hp l l' h hs => by
      obtain ⟨c, hc⟩ := h
      exact ⟨_, kappaStep_traced hp hc hs⟩) ⟨_, seeded_traced⟩

theorem depthStep_bestEdge {p : DerivationEdge} {l' : Labels} (hs : depthStep p l = some l') :
    l'.bestEdge = l.bestEdge := by
  obtain ⟨-, -, -, rfl⟩ := depthStep_eq_some hs
  rfl

theorem fixpoint_bestEdge : (fixpoint edges extraSeeds).bestEdge = (raised edges extraSeeds).bestEdge :=
  fixpoint_inv (I := fun l => l.bestEdge = (raised edges extraSeeds).bestEdge)
    (fun _ _ _ _ h hs => (depthStep_bestEdge hs).trans h) rfl

theorem fixpoint_traced (edges : List DerivationEdge) (extraSeeds : List Hash) :
    ∃ c, Traced edges extraSeeds (fixpoint edges extraSeeds) c := by
  obtain ⟨c, hc⟩ := raised_traced edges extraSeeds
  refine ⟨c, fun n => ?_, ?_, fun n => ?_⟩
  · rw [fixpoint_bestEdge, hc.bestEdge]
  · rw [fixpoint_kappa]
    exact hc.justified
  · rw [fixpoint_kappa]
    exact hc.origin n

/-! ## The walk -/

/-- The best edge of a premise of an edge. -/
def BestOfPremise (bestEdge : Hash → Option Hash) (edges : List DerivationEdge) (h h' : Hash) : Prop :=
  ∃ e, edgeMap edges h = some e ∧ ∃ q ∈ e.premises, bestEdge q = some h'

theorem collectFrom_search {bestEdge : Hash → Option Hash} {start : Set Hash} {collected stack : List Hash}
    (hs : Search (BestOfPremise bestEdge edges) start collected (stack.filterMap bestEdge)) {h : Hash} :
    h ∈ collectFrom bestEdge edges collected stack ↔ Leads (BestOfPremise bestEdge edges) start h := by
  fun_induction collectFrom bestEdge edges collected stack with
  | case1 collected => exact hs.mem_iff
  | case2 collected node stack hb ih =>
    rw [List.filterMap_cons_none hb] at hs
    exact ih hs
  | case3 collected node stack h' hb hc ih =>
    rw [List.filterMap_cons_some hb] at hs
    exact ih (hs.skip hc)
  | case4 collected node stack h' hb hc hm ih =>
    rw [List.filterMap_cons_some hb] at hs
    refine ih (hs.visit fun y => (or_iff_right ?_).symm)
    rintro ⟨e, he, -⟩
    rw [hm] at he
    cases he
  | case5 collected node stack h' hb hc e hm ih =>
    rw [List.filterMap_cons_some hb] at hs
    refine ih (hs.visit fun y => ?_)
    rw [List.filterMap_append, List.mem_append, List.mem_filterMap]
    refine or_congr_left ?_
    simp only [BestOfPremise, hm, Option.some.injEq, List.mem_reverse, exists_eq_left']

theorem mem_collectProofTree {target : Hash} {bestEdge : Hash → Option Hash} {h : Hash} :
    h ∈ collectProofTree target bestEdge edges ↔
      Leads (BestOfPremise bestEdge edges) {h | bestEdge target = some h} h := by
  rw [collectProofTree, List.mem_insertionSort]
  refine collectFrom_search (.init fun x => ?_)
  rw [List.mem_filterMap]
  simp

section Tree

variable {target : Hash}

/-- The tree of a target holds the hashes of the edges that are reached from it. -/
theorem Traced.mem_tree (h : Traced edges extraSeeds l c) (hk : Keyed edges) {x : Hash} :
    x ∈ collectProofTree target l.bestEdge edges ↔
      ∃ p, Reached (system {p | p ∈ edges} extraSeeds) c target p ∧ p.1 = x := by
  have best : ∀ {n x}, l.bestEdge n = some x ↔ ∃ p, c n = some p ∧ p.1 = x := by
    intro n x
    rw [h.bestEdge, Option.map_eq_some_iff]
  rw [mem_collectProofTree]
  constructor
  · rintro ⟨x₀, h₀, hr⟩
    obtain ⟨p₀, hp₀, rfl⟩ := best.mp h₀
    induction hr with
    | refl => exact ⟨p₀, ⟨p₀, hp₀, .refl⟩, rfl⟩
    | tail _ hstep ih =>
      obtain ⟨p, hp, rfl⟩ := ih
      obtain ⟨e, he, q, hq, hb⟩ := hstep
      obtain ⟨p', hp', rfl⟩ := best.mp hb
      have hmem : p ∈ edges := by
        obtain ⟨m, hm⟩ := hp.chosen
        exact (h.justified.edge hm).1
      rw [hk.edgeMap hmem, Option.some.injEq] at he
      subst he
      exact ⟨p', hp.step hq hp', rfl⟩
  · rintro ⟨p, ⟨p₀, hp₀, hr⟩, rfl⟩
    refine ⟨p₀.1, best.mpr ⟨p₀, hp₀, rfl⟩, ?_⟩
    induction hr with
    | refl => exact .refl
    | @tail p p' hpp hstep ih =>
      obtain ⟨q, hq, hb⟩ := hstep
      have hmem : p ∈ edges := by
        obtain ⟨m, hm⟩ := Reached.chosen ⟨p₀, hp₀, hpp⟩
        exact (h.justified.edge hm).1
      exact ih.tail ⟨p.2, hk.edgeMap hmem, q, hq, best.mpr ⟨p', hb, rfl⟩⟩

/-- `m` is a premise of the edge that `best_edge` has for `n`. -/
def BestPoints (edges : List DerivationEdge) (bestEdge : Hash → Option Hash) (n m : Hash) : Prop :=
  ∃ h e, bestEdge n = some h ∧ edgeMap edges h = some e ∧ m ∈ e.premises

/-- The edges with one of these hashes. -/
def withHash (edges : List DerivationEdge) (hashes : List Hash) : Set DerivationEdge :=
  {p | p ∈ edges ∧ p.1 ∈ hashes}

/-- A proof tree is a derivation of its target, and `best_edge` leads nowhere back. -/
structure DerivesTarget (edges : List DerivationEdge) (extraSeeds : List Hash) (bestEdge : Hash → Option Hash)
    (target : Hash) (tree : List Hash) : Prop where
  derives : Nonempty (Derivation.Tree (system (withHash edges tree) extraSeeds) target)
  edge : ∀ h ∈ tree, ∃ e, (h, e) ∈ edges ∧
    ∀ q ∈ e.premises, q ∈ extraSeeds ∨ ∃ p ∈ withHash edges tree, p.2.conclusion = q
  acyclic : ∀ n, ¬ Relation.TransGen (BestPoints edges bestEdge) n n

theorem Traced.derivesTarget (h : Traced edges extraSeeds l c) (hk : Keyed edges) {k : Kappa}
    (hv : l.kappa target = some k) :
    DerivesTarget edges extraSeeds l.bestEdge target (collectProofTree target l.bestEdge edges) where
  derives := by
    have hsame : (reachedOnly (system {p | p ∈ edges} extraSeeds) c target) =
        system (withHash edges (collectProofTree target l.bestEdge edges)) extraSeeds := by
      refine congrArg (fun s => (⟨_, _, _, s, _⟩ : System Hash DerivationEdge Kappa)) (Set.ext fun p => ?_)
      refine and_congr_right fun hp => ?_
      rw [h.mem_tree hk]
      refine ⟨fun hr => ⟨p, hr, rfl⟩, fun hr => ?_⟩
      obtain ⟨p', hr, he⟩ := hr
      obtain ⟨m, hm⟩ := hr.chosen
      exact hk p' (h.justified.edge hm).1 p hp he ▸ hr
    exact hsame ▸ h.justified.derives hv
  edge x hx := by
    obtain ⟨p, hr, rfl⟩ := (h.mem_tree hk).mp hx
    obtain ⟨m, hm⟩ := hr.chosen
    refine ⟨p.2, (h.justified.edge hm).1, fun q hq => (h.justified.premise hr hq).imp_right fun hq => ?_⟩
    obtain ⟨p', hp', hr', hn⟩ := hq
    exact ⟨p', ⟨hp', (h.mem_tree hk).mpr ⟨p', hr', rfl⟩⟩, hn⟩
  acyclic n hn := by
    refine h.justified.acyclic n (hn.lift id fun a b hab => ?_)
    obtain ⟨x, e, hb, he, hm⟩ := hab
    rw [h.bestEdge, Option.map_eq_some_iff] at hb
    obtain ⟨p, hc, rfl⟩ := hb
    rw [hk.edgeMap (h.justified.edge hc).1, Option.some.injEq] at he
    subst he
    exact ⟨p, hc, hm⟩

theorem fixpoint_derivesTarget (hk : Keyed edges)
    (ht : Nonempty (Derivation.Tree (system {p | p ∈ edges} extraSeeds) target)) :
    DerivesTarget edges extraSeeds (fixpoint edges extraSeeds).bestEdge target
      (collectProofTree target (fixpoint edges extraSeeds).bestEdge edges) := by
  obtain ⟨t⟩ := ht
  obtain ⟨k, -, hv⟩ := raised_closed.le t
  obtain ⟨c, hc⟩ := fixpoint_traced edges extraSeeds
  exact hc.derivesTarget hk (fixpoint_kappa ▸ hv)

theorem reachable_proofTreeEdges {P : Prims} {storage : Storage} {minKappa : Kappa}
    {activeEdges : Option (Finset Hash)} {r : ReachabilityResult}
    (hr : reachable P target storage minKappa extraSeeds activeEdges = .ok r)
    (ht : Nonempty (Derivation.Tree (system {p | p ∈ derivationEdges P storage activeEdges} extraSeeds) target)) :
    r.proofTreeEdges = collectProofTree target (fixpoint (derivationEdges P storage activeEdges) extraSeeds).bestEdge
      (derivationEdges P storage activeEdges) := by
  obtain ⟨t⟩ := ht
  obtain ⟨k, -, hv⟩ := raised_closed.le t
  rw [← fixpoint_kappa] at hv
  simp only [reachable, hv] at hr
  split at hr
  · cases hr
  · cases hr
    rfl

end Tree

/-- Of the records of any hashes, and any hypothetical seeds, the proof tree
of a node that they derive is a derivation of it without circles; so are the
proof trees that `reachable` returns. -/
theorem proof_tree_derives :
    (∀ (record : Hash → Edge) (hashes extraSeeds : List Hash) (target : Hash),
      Nonempty (Derivation.Tree (system {p | p ∈ recorded record hashes} extraSeeds) target) →
      DerivesTarget (recorded record hashes) extraSeeds (fixpoint (recorded record hashes) extraSeeds).bestEdge target
        (collectProofTree target (fixpoint (recorded record hashes) extraSeeds).bestEdge (recorded record hashes))) ∧
    ∀ (P : Prims) (target : Hash) (storage : Storage) (minKappa : Kappa) (extraSeeds : List Hash)
      (activeEdges : Option (Finset Hash)),
      Nonempty (Derivation.Tree (system (usable P storage activeEdges) extraSeeds) target) →
      ∃ r, reachable P target storage minKappa extraSeeds activeEdges = .ok r ∧
        DerivesTarget (derivationEdges P storage activeEdges) extraSeeds
          (fixpoint (derivationEdges P storage activeEdges) extraSeeds).bestEdge target r.proofTreeEdges := by
  refine ⟨fun record hashes extraSeeds target ht => fixpoint_derivesTarget keyed_recorded ht, ?_⟩
  intro P target storage minKappa extraSeeds activeEdges ht
  rw [usable_eq] at ht
  obtain ⟨r, hr, -⟩ := reachable_derives P target storage minKappa extraSeeds activeEdges
  refine ⟨r, hr, ?_⟩
  rw [reachable_proofTreeEdges hr ht]
  exact fixpoint_derivesTarget keyed_derivationEdges ht

section Example

open Reference

/-- A circle of two nodes: `a` is cited and follows from `b`, which follows from `a` and, stronger, from `x`. -/
def circle (n : UInt8) : Edge :=
  let node (n : UInt8) : Hash := reference.hashBytes [n]
  let edge (premises : List Hash) (conclusion : Hash) (kappa : Kappa) : Edge :=
    ⟨.numerical, premises, conclusion, .str "r", none, .pass, kappa, .none⟩
  match n with
  | 1 => edge [] (node 97) .k1
  | 2 => edge [node 97] (node 98) .k3
  | 3 => edge [node 98] (node 97) .k3
  | _ => edge [node 120] (node 98) .k2

/-- The edges under the hashes of their numbers. -/
def circleAt (h : Hash) : Edge :=
  if h = reference.hashBytes [1] then circle 1
  else if h = reference.hashBytes [2] then circle 2
  else if h = reference.hashBytes [3] then circle 3
  else circle 4

theorem proof_tree_derives_circle :
    let edges := recorded circleAt ([1, 2, 3, 4].map fun n => reference.hashBytes [n])
    let x : Hash := reference.hashBytes [120]
    let target : Hash := reference.hashBytes [97]
    DerivesTarget edges [x] (fixpoint edges [x]).bestEdge target
        (collectProofTree target (fixpoint edges [x]).bestEdge edges) ∧
      ∃ n r, (proposition "b" "math" true).nodeId reference = .ok n ∧
        reachable reference n (CommitCall.run reference cited) .k2 [] none = .ok r ∧
        DerivesTarget (derivationEdges reference (CommitCall.run reference cited) none) []
          (fixpoint (derivationEdges reference (CommitCall.run reference cited) none) []).bestEdge n
          r.proofTreeEdges := by
  intro edges x target
  constructor
  · refine proof_tree_derives.1 circleAt _ [x] target ?_
    have hmem : (reference.hashBytes [1], circle 1) ∈ edges :=
      List.mem_map.mpr ⟨reference.hashBytes [1], List.mem_cons_self, by rw [circleAt, if_pos rfl]⟩
    obtain ⟨t, -⟩ : ∃ t : Derivation.Tree (system {p | p ∈ edges} [x]) target, t.height = 0 :=
      exists_height_source (Y := system {p | p ∈ edges} [x]) hmem rfl
    exact ⟨t⟩
  · obtain ⟨n, hn, ⟨t, -⟩, -⟩ := cited_undercut
    obtain ⟨r, hr, hd⟩ := proof_tree_derives.2 reference n (CommitCall.run reference cited) .k2 [] none ⟨t⟩
    exact ⟨n, r, hn, hr, hd⟩

end Example

/-! ## The κ of a tree -/

section Strength

variable {Y : Set DerivationEdge} {n target : Hash}

/-- The edge concludes the node without premises. -/
def IsSource (Y : Set DerivationEdge) (n : Hash) (p : DerivationEdge) : Prop :=
  p ∈ Y ∧ p.2.premises = [] ∧ p.2.conclusion = n

/-- The node has its κ from an edge without premises, and the one of these with the greatest hash is weaker. -/
def Overridden (Y : Set DerivationEdge) (n : Hash) : Prop :=
  ∃ p q, IsSource Y n p ∧ (∀ k, Derives (system Y []) k n → k ≤ p.2.kappa) ∧
    IsSource Y n q ∧ (∀ q', IsSource Y n q' → q'.1 ≤ q.1) ∧ q.2.kappa < p.2.kappa

/-- `m` is a premise on the way to `n`. -/
def RestsOn (Y : Set DerivationEdge) : Hash → Hash → Prop :=
  Relation.ReflTransGen fun n m => ∃ p ∈ Y, p.2.conclusion = n ∧ m ∈ p.2.premises

/-- The edge that the seeding leaves is the source with the greatest hash. -/
theorem getLast?_sources_iff (hk : Keyed edges) (hsorted : edges.Pairwise fun p q => p.1 ≤ q.1) {q : DerivationEdge} :
    (sources edges n).getLast? = some q ↔
      IsSource {p | p ∈ edges} n q ∧ ∀ q', IsSource {p | p ∈ edges} n q' → q'.1 ≤ q.1 := by
  have hmem : ∀ {p}, p ∈ sources edges n ↔ IsSource {p | p ∈ edges} n p := mem_sources
  have hlast : ∀ {q}, (sources edges n).getLast? = some q → ∀ q' ∈ sources edges n, q'.1 ≤ q.1 := by
    intro q hq q' hq'
    obtain ⟨l, hl⟩ := List.getLast?_eq_some_iff.mp hq
    have hpair : (sources edges n).Pairwise fun p q => p.1 ≤ q.1 := hsorted.sublist List.filter_sublist
    rw [hl] at hpair hq'
    rcases List.mem_append.mp hq' with hq' | hq'
    · exact (List.pairwise_append.mp hpair).2.2 q' hq' q List.mem_cons_self
    · rw [List.mem_singleton.mp hq']
      exact List.le_refl _
  constructor
  · intro hq
    exact ⟨hmem.mp (List.mem_of_getLast? hq), fun q' hq' => hlast hq q' (hmem.mpr hq')⟩
  · rintro ⟨hq, hmax⟩
    cases hg : (sources edges n).getLast? with
    | none =>
      rw [← hmem, List.getLast?_eq_none_iff.mp hg] at hq
      cases hq
    | some g =>
      have hgs := hmem.mp (List.mem_of_getLast? hg)
      have heq : g.1 = q.1 := Hash.ext (List.le_antisymm (hmax g hgs) (hlast hg q (hmem.mpr hq)))
      rw [hk g hgs.1 q hq.1 heq]

theorem Reached.restsOn {c : Choice Hash DerivationEdge} {v : Valuation Hash Kappa}
    (h : Justified (system Y extraSeeds) v c) {p : DerivationEdge} (hr : Reached (system Y extraSeeds) c target p) :
    RestsOn Y target p.2.conclusion := by
  obtain ⟨p₀, h₀, hr⟩ := hr
  induction hr with
  | refl =>
    obtain ⟨-, hc, -⟩ := h.edge h₀
    exact (show p₀.2.conclusion = target from hc) ▸ .refl
  | @tail p p' hpp hf ih =>
    obtain ⟨m, hm⟩ := Reached.chosen ⟨p₀, h₀, hpp⟩
    obtain ⟨q, hq, hc⟩ := hf
    obtain ⟨-, hconc, -⟩ := h.edge hc
    obtain rfl : p'.2.conclusion = q := hconc
    exact ih.tail ⟨p, (h.edge hm).1, rfl, hq⟩

/-- The κ of a node is that of the source which the seeding leaves, or its edge is no weaker. -/
theorem Traced.le_weight (h : Traced edges [] l c) (hs : Sound (system {p | p ∈ edges} []) l.kappa)
    (hc : Closed (system {p | p ∈ edges} []) l.kappa) (hk : Keyed edges)
    (hsorted : edges.Pairwise fun p q => p.1 ≤ q.1) (hn : ¬ Overridden {p | p ∈ edges} n) {p : DerivationEdge}
    {k : Kappa} (hcn : c n = some p) (hv : l.kappa n = some k) : k ≤ p.2.kappa := by
  rcases h.origin n with ⟨hlast, hseed⟩ | ⟨p', k', hp', hk', hle, -⟩
  · obtain ⟨q, hq, rfl⟩ := (seeded_kappa (hseed.symm.trans hv)).resolve_left List.not_mem_nil
    obtain ⟨hsource, hmax⟩ := (getLast?_sources_iff hk hsorted).mp (hlast.symm.trans hcn)
    by_contra hlt
    refine hn ⟨q, p, mem_sources.mp hq, fun j hj => ?_, hsource, hmax, not_le.mp hlt⟩
    obtain ⟨j', hle, hj'⟩ := (exists_le_iff hs hc n j).mpr hj
    rw [hv, Option.some.injEq] at hj'
    exact hj' ▸ hle
  · rw [hcn, Option.some.injEq] at hp'
    rw [hv, Option.some.injEq] at hk'
    exact hp' ▸ hk' ▸ hle

/-- Where no node that the target rests on is overridden, the tree has the κ of the target. -/
theorem Traced.isLeast_kappa (h : Traced edges [] l c) (hs : Sound (system {p | p ∈ edges} []) l.kappa)
    (hc : Closed (system {p | p ∈ edges} []) l.kappa) (hk : Keyed edges)
    (hsorted : edges.Pairwise fun p q => p.1 ≤ q.1)
    (hn : ∀ n, RestsOn {p | p ∈ edges} target n → ¬ Overridden {p | p ∈ edges} n) {k : Kappa}
    (hv : l.kappa target = some k) :
    IsLeast {j | ∃ p ∈ edges, p.1 ∈ collectProofTree target l.bestEdge edges ∧ p.2.kappa = j} k := by
  have hset : {j | ∃ p ∈ edges, p.1 ∈ collectProofTree target l.bestEdge edges ∧ p.2.kappa = j} =
      {j | ∃ p, Reached (system {p | p ∈ edges} []) c target p ∧ p.2.kappa = j} := by
    refine Set.ext fun j => ?_
    constructor
    · rintro ⟨p, hp, ht, hj⟩
      obtain ⟨p', hr, he⟩ := (h.mem_tree hk).mp ht
      obtain ⟨m, hm⟩ := hr.chosen
      exact ⟨p, hk p' (h.justified.edge hm).1 p hp he ▸ hr, hj⟩
    · rintro ⟨p, hr, hj⟩
      obtain ⟨m, hm⟩ := hr.chosen
      exact ⟨p, (h.justified.edge hm).1, (h.mem_tree hk).mpr ⟨p, hr, rfl⟩, hj⟩
  rw [hset]
  refine h.justified.isLeast_weight hs hc (Set.ext fun _ => by simp [system]) hv fun p hr m k' hm hk' => ?_
  obtain ⟨-, hconc, -⟩ := h.justified.edge hm
  have hrests : RestsOn {p | p ∈ edges} target m := by
    rw [← show p.2.conclusion = m from hconc]
    exact Reached.restsOn h.justified hr
  exact h.le_weight hs hc hk hsorted (hn m hrests) hm hk'

/-- The tree of an overridden node is one weaker edge. -/
theorem Traced.overridden (h : Traced edges [] l c) (hs : Sound (system {p | p ∈ edges} []) l.kappa)
    (hrises : Rises (seeded edges []).kappa l.kappa) (hk : Keyed edges)
    (hsorted : edges.Pairwise fun p q => p.1 ≤ q.1) (hn : Overridden {p | p ∈ edges} n) :
    ∃ k, l.kappa n = some k ∧
      ∃ p ∈ edges, p.1 ∈ collectProofTree n l.bestEdge edges ∧ p.2.kappa < k := by
  obtain ⟨p, q, ⟨hp, hnil, hconc⟩, hmax, hq, hgreatest, hlt⟩ := hn
  obtain ⟨⟨k₀, hle₀, hk₀⟩, -⟩ := (seeded_edge hp hnil : Placed _ _ (seeded edges []))
  rw [hconc] at hk₀
  obtain ⟨k, hle, hkn⟩ := hrises n k₀ hk₀
  have htop : k ≤ p.2.kappa := by
    obtain ⟨t, ht⟩ := hs n k hkn
    exact hmax k ⟨t, Derivation.Tree.le_strength_iff.mp ht.ge⟩
  refine ⟨k, hkn, q, hq.1, ?_, hlt.trans_le (hle₀.trans hle)⟩
  rcases h.origin n with ⟨hlast, -⟩ | ⟨-, k', -, hk', -, hlow⟩
  · have hc : c n = some q := hlast.trans ((getLast?_sources_iff hk hsorted).mpr ⟨hq, hgreatest⟩)
    exact (h.mem_tree hk).mpr ⟨q, ⟨q, hc, .refl⟩, rfl⟩
  · rw [hkn, Option.some.injEq] at hk'
    exact absurd (hlow k₀ hk₀) (hk' ▸ htop.trans hle₀).not_gt

end Strength

theorem pairwise_derivationEdges {P : Prims} {storage : Storage} {activeEdges : Option (Finset Hash)} :
    (derivationEdges P storage activeEdges).Pairwise fun p q => p.1 ≤ q.1 := by
  have htotal : Std.Total (fun a b : Hash => a ≤ b) := ⟨fun a b => List.le_total a.raw b.raw⟩
  have htrans : IsTrans Hash (fun a b => a ≤ b) := ⟨fun _ _ _ => List.le_trans (α := UInt8)⟩
  have hsorted : storage.graph.allEdges.Pairwise (· ≤ ·) :=
    List.pairwise_insertionSort (fun a b : Hash => a ≤ b) _
  refine hsorted.filterMap _ fun h h' hle p hp q hq => ?_
  obtain rfl : p.1 = h := by
    split_ifs at hp
    grind
  obtain rfl : q.1 = h' := by
    split_ifs at hq
    grind
  exact hle

/-- `reachable` reports the κ of the proof tree that it returns. -/
def TreeHasKappa (P : Prims) (storage : Storage) (activeEdges : Option (Finset Hash)) (target : Hash) : Prop :=
  ∀ minKappa r k, reachable P target storage minKappa [] activeEdges = .ok r → r.kappa = some k →
    IsLeast {j | ∃ p ∈ usable P storage activeEdges, p.1 ∈ r.proofTreeEdges ∧ p.2.kappa = j} k

section Query

variable {P : Prims} {storage : Storage} {activeEdges : Option (Finset Hash)} {target n : Hash}

theorem reachable_labels_tree {minKappa : Kappa} {r : ReachabilityResult} {k : Kappa}
    (hr : reachable P target storage minKappa [] activeEdges = .ok r) (hk : r.kappa = some k) :
    (raised (derivationEdges P storage activeEdges) []).kappa target = some k ∧
      r.proofTreeEdges = collectProofTree target (fixpoint (derivationEdges P storage activeEdges) []).bestEdge
        (derivationEdges P storage activeEdges) := by
  rw [(reachable_labels hr).1, fixpoint_kappa] at hk
  obtain ⟨t, -⟩ := raised_sound target k hk
  exact ⟨hk, reachable_proofTreeEdges hr ⟨t⟩⟩

theorem treeHasKappa_of_not_overridden
    (h : ∀ n, RestsOn (usable P storage activeEdges) target n → ¬ Overridden (usable P storage activeEdges) n) :
    TreeHasKappa P storage activeEdges target := by
  intro minKappa r k hr hk
  obtain ⟨hv, htree⟩ := reachable_labels_tree hr hk
  obtain ⟨c, hc⟩ := raised_traced (derivationEdges P storage activeEdges) []
  rw [usable_eq] at h ⊢
  rw [htree, fixpoint_bestEdge]
  exact hc.isLeast_kappa raised_sound raised_closed keyed_derivationEdges pairwise_derivationEdges h hv

theorem Overridden.reported (hn : Overridden (usable P storage activeEdges) n) (minKappa : Kappa) :
    ∃ r k, reachable P n storage minKappa [] activeEdges = .ok r ∧ r.kappa = some k ∧
      ∃ p ∈ usable P storage activeEdges, p.1 ∈ r.proofTreeEdges ∧ p.2.kappa < k := by
  rw [usable_eq] at hn ⊢
  obtain ⟨c, hc⟩ := raised_traced (derivationEdges P storage activeEdges) []
  obtain ⟨k, hk, p, hp, htree, hlt⟩ :=
    hc.overridden raised_sound raised_rises keyed_derivationEdges pairwise_derivationEdges hn
  obtain ⟨r, hr, -⟩ := reachable_derives P n storage minKappa [] activeEdges
  have hkr : r.kappa = some k := by rw [(reachable_labels hr).1, fixpoint_kappa, hk]
  refine ⟨r, k, hr, hkr, p, hp, ?_, hlt⟩
  rw [(reachable_labels_tree hr hkr).2, fixpoint_bestEdge]
  exact htree

theorem TreeHasKappa.not_overridden (h : TreeHasKappa P storage activeEdges n) :
    ¬ Overridden (usable P storage activeEdges) n := by
  intro hn
  obtain ⟨r, k, hr, hk, p, hp, htree, hlt⟩ := hn.reported .k0
  exact hlt.not_ge ((h .k0 r k hr hk).2 ⟨p, hp, htree, rfl⟩)

end Query

/-- Every proof tree has the κ that is reported with it exactly if no node is
overridden, and so has each of those that a node rests on if none of these is. -/
theorem proof_tree_kappa_iff (P : Prims) (storage : Storage) (activeEdges : Option (Finset Hash)) :
    ((∀ target, TreeHasKappa P storage activeEdges target) ↔ ∀ n, ¬ Overridden (usable P storage activeEdges) n) ∧
    ∀ root, (∀ target, RestsOn (usable P storage activeEdges) root target → TreeHasKappa P storage activeEdges target) ↔
      ∀ n, RestsOn (usable P storage activeEdges) root n → ¬ Overridden (usable P storage activeEdges) n := by
  have holds : ∀ target, (∀ n, RestsOn (usable P storage activeEdges) target n →
      ¬ Overridden (usable P storage activeEdges) n) → TreeHasKappa P storage activeEdges target :=
    fun target => treeHasKappa_of_not_overridden
  have fails : ∀ n, TreeHasKappa P storage activeEdges n → ¬ Overridden (usable P storage activeEdges) n :=
    fun n => TreeHasKappa.not_overridden
  exact ⟨⟨fun h n => fails n (h n), fun h target => holds target fun n _ => h n⟩,
    fun root => ⟨fun h n hn => fails n (h n hn), fun h target ht => holds target fun n hn => h n (ht.trans hn)⟩⟩

section Example

open Reference

/-- The same claim computed and cited. -/
def computedAndCited : List CommitCall :=
  let keys : Keys := ⟨List.replicate 32 7, List.replicate 32 7⟩
  let b := proposition "b" "math" true
  [⟨lenient, keys, 10, none, ⟨.bytes keys.pub, [], b, .str "r", .numerical, none, defaultTimeout⟩⟩,
    ⟨lenient, keys, 20, none, ⟨.bytes keys.pub, [], b, .str "r", .citation, none, defaultTimeout⟩⟩]

theorem computedAndCited_overridden : ∃ n, (proposition "b" "math" true).nodeId reference = .ok n ∧
    Overridden (usable reference (CommitCall.run reference computedAndCited) none) n := by
  have hid : ((proposition "b" "math" true).nodeId reference).toOption.isSome = true := by decide +kernel
  obtain ⟨n, hn⟩ := Option.isSome_iff_exists.mp hid
  have hsources : ∀ n ∈ ((proposition "b" "math" true).nodeId reference).toOption,
      ∃ p ∈ derivationEdges reference (CommitCall.run reference computedAndCited) none,
      ∃ q ∈ derivationEdges reference (CommitCall.run reference computedAndCited) none,
        (p.2.premises = [] ∧ p.2.conclusion = n ∧ p.2.kappa = .k2) ∧
        (q.2.premises = [] ∧ q.2.conclusion = n ∧ q.2.kappa = .k1) ∧
        ∀ q' ∈ derivationEdges reference (CommitCall.run reference computedAndCited) none,
          q'.1 ≤ q.1 ∧ q'.2.kappa.rank ≤ Kappa.k2.rank := by decide +kernel
  obtain ⟨p, hp, q, hq, ⟨hpnil, hpc, hpk⟩, ⟨hqnil, hqc, hqk⟩, hall⟩ := hsources n hn
  refine ⟨n, toOption_eq_some.mp hn, p, q, ⟨mem_derivationEdges.mp hp, hpnil, hpc⟩, fun k hk => ?_,
    ⟨mem_derivationEdges.mp hq, hqnil, hqc⟩, fun q' hq' => (hall q' (mem_derivationEdges.mpr hq'.1)).1, ?_⟩
  · rw [hpk]
    refine Derives.induct (X := fun _ => k ≤ Kappa.k2) (fun m hm => absurd hm List.not_mem_nil) ?_ hk
    intro e he hle _
    exact hle.trans (Kappa.le_def.mpr (hall e (mem_derivationEdges.mpr he)).2)
  · rw [hpk, hqk]
    decide

/-- The claim is reported at κ2, with a proof tree that has an edge of κ1. -/
theorem weaker_tree_reported : ∃ n r, (proposition "b" "math" true).nodeId reference = .ok n ∧
    reachable reference n (CommitCall.run reference computedAndCited) .k2 [] none = .ok r ∧
    ∃ k, r.kappa = some k ∧ ¬ IsLeast {j | ∃ p ∈ usable reference (CommitCall.run reference computedAndCited) none,
      p.1 ∈ r.proofTreeEdges ∧ p.2.kappa = j} k := by
  obtain ⟨n, hn, ho⟩ := computedAndCited_overridden
  obtain ⟨r, k, hr, hk, p, hp, htree, hlt⟩ := ho.reported .k2
  exact ⟨n, r, hn, hr, k, hk, fun h => hlt.not_ge (h.2 ⟨p, hp, htree, rfl⟩)⟩

end Example

end ArxDB.Proof
