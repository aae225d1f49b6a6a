import ArxDB.Proof.ProofTree

/-!
# The missing frontier

The traversal of `path_discovery` visits the open cone of the target, each
node once (`frontierFrom_traversed`), so in a store whose index agrees with its
records the frontier has one record for each open edge and for each node that
nothing concludes (`frontier_exact`). Assuming what it names derives the
target unless all edges that conclude it are below the threshold and it is not
one of the nodes that are assumed (`frontier_closes_iff`).
-/

namespace ArxDB.Proof

open Impl Impl.Reachability Impl.PathDiscovery Derivation Worklist

/-! ## The open cone -/

section Cone

variable {candidates : Hash → Set DerivationEdge} {E : Set Hash} {target n : Hash}

/-- What the target waits for: with a node, the premises outside `E` of the edges that may conclude it. -/
inductive OpenCone (candidates : Hash → Set DerivationEdge) (E : Set Hash) (target : Hash) : Hash → Prop
  | target : OpenCone candidates E target target
  | premise {n q : Hash} {p : DerivationEdge} (hn : OpenCone candidates E target n) (hp : p ∈ candidates n)
      (hq : q ∈ p.2.premises) (hE : q ∉ E) : OpenCone candidates E target q

/-- A node waits for an open premise of an edge that may conclude it. -/
def Awaits (candidates : Hash → Set DerivationEdge) (E : Set Hash) (n q : Hash) : Prop :=
  ∃ p ∈ candidates n, q ∈ p.2.premises ∧ q ∉ E

theorem openCone_iff : OpenCone candidates E target n ↔ Leads (Awaits candidates E) {target} n := by
  constructor
  · intro h
    induction h with
    | target => exact ⟨target, rfl, .refl⟩
    | premise _ hp hq hE ih => exact ih.step ⟨_, hp, hq, hE⟩
  · rintro ⟨t, rfl, hr⟩
    induction hr with
    | refl => exact .target
    | tail _ hstep ih =>
      obtain ⟨p, hp, hq, hE⟩ := hstep
      exact .premise ih hp hq hE

end Cone

/-! ## The traversal -/

section Traversal

variable {storage : Storage} {edges : List DerivationEdge} {est : Hash → Bool} {E : Set Hash}

theorem mem_incoming (hk : Keyed edges) {n : Hash} {p : DerivationEdge} :
    p ∈ incoming storage edges n ↔ p ∈ edges ∧ p.1 ∈ storage.graph.incomingEdges n := by
  rw [incoming, List.mem_filterMap]
  constructor
  · rintro ⟨h, hh, hm⟩
    obtain ⟨e, he, rfl⟩ := Option.map_eq_some_iff.mp hm
    exact ⟨mem_of_edgeMap he, hh⟩
  · rintro ⟨hp, hh⟩
    exact ⟨p.1, hh, by rw [hk.edgeMap hp, Option.map_some]⟩

theorem mem_blocking (hE : ∀ n, est n = true ↔ n ∈ E) {e : Edge} {q : Hash} :
    q ∈ blocking est e ↔ q ∈ e.premises ∧ q ∉ E := by
  rw [blocking, List.mem_filter, Bool.not_eq_true', ← hE, Bool.not_eq_true]

/-- The records of a node that is visited. -/
def records (storage : Storage) (edges : List DerivationEdge) (est : Hash → Bool) (n : Hash) : List MissingEdge :=
  if incoming storage edges n = [] then [leaf n] else gaps est n (incoming storage edges n)

/-- From the nodes that are visited to those that are reached, each of the others visited once and its records added. -/
def Traversed (recordsOf : Hash → List MissingEdge) (reached : Set Hash) (visited : List Hash)
    (missing missing' : List MissingEdge) : Prop :=
  ∃ new : List Hash, (new.reverse ++ visited).Nodup ∧ missing' = missing ++ new.flatMap recordsOf ∧
    ∀ n, n ∈ new.reverse ++ visited ↔ n ∈ reached

theorem Traversed.cons {recordsOf : Hash → List MissingEdge} {reached : Set Hash} {node : Hash} {visited : List Hash}
    {missing missing' : List MissingEdge}
    (h : Traversed recordsOf reached (node :: visited) (missing ++ recordsOf node) missing') :
    Traversed recordsOf reached visited missing missing' := by
  obtain ⟨new, hnew, hf, hmem⟩ := h
  refine ⟨node :: new, ?_, ?_, ?_⟩
  · rwa [List.reverse_cons, List.append_assoc]
  · rw [hf, List.flatMap_cons, List.append_assoc]
  · rwa [List.reverse_cons, List.append_assoc]

theorem frontierFrom_traversed {R : Hash → Hash → Prop} {start : Set Hash}
    (hR : ∀ n q, R n q ↔ ∃ p ∈ incoming storage edges n, q ∈ blocking est p.2) {visited stack : List Hash}
    {missing : List MissingEdge} (hs : Search R start visited stack) (hv : visited.Nodup) :
    Traversed (records storage edges est) {n | Leads R start n} visited missing
      (frontierFrom storage edges est visited missing stack) := by
  fun_induction frontierFrom storage edges est visited missing stack with
  | case1 visited missing => exact ⟨[], hv, (List.append_nil _).symm, fun n => hs.mem_iff⟩
  | case2 visited missing node stack hn ih => exact ih (hs.skip hn) hv
  | case3 visited missing node stack hn hi ih =>
    apply Traversed.cons
    rw [records, if_pos hi]
    refine ih (hs.visit fun y => (or_iff_right ?_).symm) (List.nodup_cons.mpr ⟨hn, hv⟩)
    rw [hR, hi]
    rintro ⟨p, hp, -⟩
    cases hp
  | case4 visited missing node stack hn hi candidates ih =>
    apply Traversed.cons
    rw [records, if_neg hi]
    refine ih (hs.visit fun y => ?_) (List.nodup_cons.mpr ⟨hn, hv⟩)
    rw [List.mem_append, List.mem_reverse, List.mem_flatMap, hR]

end Traversal

/-! ## The report -/

section Report

variable {P : Prims} {storage : Storage} {minKappa : Kappa} {target n : Hash}

/-- The nodes that are established at the threshold. -/
def establishedAt (P : Prims) (storage : Storage) (minKappa : Kappa) : Set Hash :=
  {n | Derives (derivations P storage none) minKappa n}

/-- The edges that count and that the index has under the node. -/
def candidates (P : Prims) (storage : Storage) (n : Hash) : Set DerivationEdge :=
  {p | p ∈ usable P storage none ∧ p.1 ∈ storage.graph.incomingEdges n}

/-- `established` of a store. -/
abbrev est (P : Prims) (storage : Storage) (minKappa : Kappa) : Hash → Bool :=
  established (fixpoint (derivationEdges P storage none) []) minKappa

theorem est_iff : est P storage minKappa n = true ↔ n ∈ establishedAt P storage minKappa := by
  rw [est, established_iff, establishedAt, derivations, usable_eq]
  rfl

theorem mem_candidates {p : DerivationEdge} :
    p ∈ incoming storage (derivationEdges P storage none) n ↔ p ∈ candidates P storage n := by
  rw [mem_incoming keyed_derivationEdges, mem_derivationEdges]
  rfl

/-- A report of a target that is not reachable is that of a traversal of the open cone. -/
theorem pathDiscovery_traversed {r : PathResult} (hr : pathDiscovery P target storage minKappa = .ok r)
    (hn : r.reachable = false) : Traversed (records storage (derivationEdges P storage none) (est P storage minKappa))
      {n | OpenCone (candidates P storage) (establishedAt P storage minKappa) target n} [] [] r.missingEdges := by
  have hR : ∀ n q, Awaits (candidates P storage) (establishedAt P storage minKappa) n q ↔
      ∃ p ∈ incoming storage (derivationEdges P storage none) n, q ∈ blocking (est P storage minKappa) p.2 := by
    intro n q
    simp only [Awaits, mem_candidates, mem_blocking fun _ => est_iff]
  simp only [openCone_iff]
  simp only [pathDiscovery] at hr
  split at hr
  · split at hr
    · cases hr
    · cases hr
      cases hn
  · cases hr
    exact frontierFrom_traversed hR (.init fun x => List.mem_singleton) List.nodup_nil

/-- The index has each edge once, under the conclusion of its record. -/
structure IndexAgrees (P : Prims) (storage : Storage) : Prop where
  rows : (storage.graph.edges.map EdgeRow.edgeHash).Nodup
  incoming : ∀ p ∈ usable P storage none, ∀ n, p.1 ∈ storage.graph.incomingEdges n ↔ p.2.conclusion = n

theorem mem_incomingEdges {g : GraphIndex} {h : Hash} : h ∈ g.incomingEdges n ↔ (⟨h, n⟩ : EdgeRow) ∈ g.edges := by
  rw [GraphIndex.incomingEdges, GraphIndex.orderByHash, List.mem_insertionSort, List.mem_map]
  constructor
  · rintro ⟨row, hrow, rfl⟩
    obtain ⟨hrow, hn⟩ := List.mem_filter.mp hrow
    rw [decide_eq_true_eq] at hn
    exact hn ▸ hrow
  · exact fun h => ⟨_, List.mem_filter.mpr ⟨h, decide_eq_true rfl⟩, rfl⟩

theorem nodup_incomingEdges {g : GraphIndex} (h : (g.edges.map EdgeRow.edgeHash).Nodup) :
    (g.incomingEdges n).Nodup := by
  rw [GraphIndex.incomingEdges, GraphIndex.orderByHash, (List.perm_insertionSort _ _).nodup_iff]
  exact h.sublist (List.filter_sublist.map _)

theorem nodup_incoming (h : (storage.graph.edges.map EdgeRow.edgeHash).Nodup) {edges : List DerivationEdge} :
    (incoming storage edges n).Nodup := by
  refine (nodup_incomingEdges h).filterMap fun a b p ha hb => ?_
  obtain ⟨e, -, rfl⟩ := Option.map_eq_some_iff.mp ha
  obtain ⟨e', -, he⟩ := Option.map_eq_some_iff.mp hb
  exact (congrArg Prod.fst he).symm

/-- The index of a store that calls built agrees with its records. -/
theorem run_indexAgrees (hc : P.CborLaws) (calls : List CommitCall)
    (hM : Set.InjOn P.hashBytes (callBlobs P calls)) : IndexAgrees P (CommitCall.run P calls) := by
  obtain ⟨cs, hs⟩ := run_stored hc calls hM
  have hcons := hs.consistent hc hM
  refine ⟨hs.graph.edges_nodup, fun p hp n => ?_⟩
  obtain ⟨hmem, -, hres, -⟩ := hp
  obtain ⟨e, he, -, -, hconn, -⟩ := hcons.edges p.1 hmem
  rw [hres, Option.some.injEq] at he
  subst he
  -- the row that `get_connectivity` finds is the only one of the edge
  obtain ⟨row, hfind, hrow⟩ : ∃ row, (CommitCall.run P calls).graph.edges.find? (·.edgeHash = p.1) = some row ∧
      row.conclusion = p.2.conclusion := by
    rw [GraphIndex.getConnectivity] at hconn
    split at hconn
    · cases hconn
    · rename_i row hfind
      rw [Option.some.injEq, Prod.mk.injEq] at hconn
      exact ⟨row, hfind, hconn.2⟩
  have hkey : row.edgeHash = p.1 := by simpa using List.find?_some hfind
  have hrowmem := List.mem_of_find?_eq_some hfind
  rw [mem_incomingEdges, ← hrow]
  constructor
  · intro h
    have := List.inj_on_of_nodup_map hs.graph.edges_nodup hrowmem h hkey
    rw [this]
  · rintro rfl
    exact hkey ▸ hrowmem

theorem flatMap_ite {α β : Type} {c : α → Prop} [DecidablePred c] {f : α → β} {l : List α} :
    (l.flatMap fun x => if c x then [f x] else []) = (l.filter c).map f := by
  induction l with
  | nil => rfl
  | cons x l ih => by_cases hx : c x <;> simp [hx, ih]

open scoped Classical in
/-- The record of an edge with an open premise. -/
noncomputable def gap (E : Set Hash) (p : DerivationEdge) : MissingEdge :=
  ⟨p.2.conclusion, p.2.premises, p.2.premises.filter (· ∉ E), p.2.rule⟩

/-- The frontier of a target: one record for each node of the open cone that
nothing concludes, one for each edge with an open premise that concludes a
node of it, and no others. -/
def ExactFrontier (Y : Set DerivationEdge) (E : Set Hash) (target : Hash) (missing : List MissingEdge) : Prop :=
  let cone : Set Hash := {n | OpenCone (fun n => {p | p ∈ Y ∧ p.2.conclusion = n}) E target n}
  ∃ (leaves : List Hash) (blocked : List DerivationEdge),
    leaves.Nodup ∧ (∀ n, n ∈ leaves ↔ n ∈ cone ∧ ∀ p ∈ Y, p.2.conclusion ≠ n) ∧
    blocked.Nodup ∧ (∀ p, p ∈ blocked ↔ p ∈ Y ∧ p.2.conclusion ∈ cone ∧ ∃ q ∈ p.2.premises, q ∉ E) ∧
    missing.Perm (leaves.map leaf ++ blocked.map (gap E))

theorem gaps_eq {cands : List DerivationEdge} (hconc : ∀ p ∈ cands, p.2.conclusion = n) :
    gaps (est P storage minKappa) n cands =
      (cands.filter fun p => blocking (est P storage minKappa) p.2 ≠ []).map
        (gap (establishedAt P storage minKappa)) := by
  classical
  have hgap : ∀ p : DerivationEdge, gap (establishedAt P storage minKappa) p =
      ⟨p.2.conclusion, p.2.premises, blocking (est P storage minKappa) p.2, p.2.rule⟩ := by
    intro p
    rw [gap, blocking, MissingEdge.mk.injEq]
    refine ⟨rfl, rfl, List.filter_congr fun q _ => ?_, rfl⟩
    rw [Bool.eq_iff_iff, decide_eq_true_eq, ← est_iff, Bool.not_eq_true, Bool.not_eq_true']
  induction cands with
  | nil => rfl
  | cons p cands ih =>
    rw [List.forall_mem_cons] at hconc
    have ih := ih hconc.2
    rw [gaps] at ih
    by_cases hb : blocking (est P storage minKappa) p.2 = []
    · rw [List.filter_cons_of_neg (by simpa using hb), ← ih, gaps, List.filterMap_cons]
      simp only [hb, if_true]
    · rw [List.filter_cons_of_pos (by simpa using hb), List.map_cons, ← ih, gaps, List.filterMap_cons, hgap, hconc.1]
      simp only [hb, if_false]

theorem mem_incoming_iff (hi : IndexAgrees P storage) {p : DerivationEdge} :
    p ∈ incoming storage (derivationEdges P storage none) n ↔ p ∈ usable P storage none ∧ p.2.conclusion = n := by
  rw [mem_candidates]
  exact and_congr_right fun hp => hi.incoming p hp n

theorem blocking_ne_nil_iff {p : DerivationEdge} : blocking (est P storage minKappa) p.2 ≠ [] ↔
    ∃ q ∈ p.2.premises, q ∉ establishedAt P storage minKappa := by
  rw [ne_eq, List.eq_nil_iff_forall_not_mem, not_forall_not]
  simp only [mem_blocking fun _ => est_iff]

/-- A node is recorded as a leaf or by its edges. -/
theorem records_eq (hi : IndexAgrees P storage) (n : Hash) :
    records storage (derivationEdges P storage none) (est P storage minKappa) n =
      (if incoming storage (derivationEdges P storage none) n = [] then [leaf n] else []) ++
        ((incoming storage (derivationEdges P storage none) n).filter
          fun p => blocking (est P storage minKappa) p.2 ≠ []).map (gap (establishedAt P storage minKappa)) := by
  rw [← gaps_eq fun p hp => ((mem_incoming_iff hi).mp hp).2]
  by_cases hnil : incoming storage (derivationEdges P storage none) n = []
  · rw [records, if_pos hnil, if_pos hnil, hnil]
    rfl
  · rw [records, if_neg hnil, if_neg hnil, List.nil_append]

theorem Traversed.exact {missing : List MissingEdge} (hi : IndexAgrees P storage)
    (h : Traversed (records storage (derivationEdges P storage none) (est P storage minKappa))
      {n | OpenCone (candidates P storage) (establishedAt P storage minKappa) target n} [] [] missing) :
    ExactFrontier (usable P storage none) (establishedAt P storage minKappa) target missing := by
  obtain ⟨new, hnew, rfl, hcone⟩ := h
  rw [List.append_nil, List.nodup_reverse] at hnew
  have hcand : candidates P storage = fun n => {p | p ∈ usable P storage none ∧ p.2.conclusion = n} := by
    refine funext fun n => Set.ext fun p => and_congr_right fun hp => hi.incoming p hp n
  rw [hcand] at hcone
  have hcone : ∀ n, n ∈ new ↔ OpenCone (fun n => {p | p ∈ usable P storage none ∧ p.2.conclusion = n})
      (establishedAt P storage minKappa) target n := fun n => by
    simpa using hcone n
  refine ⟨new.filter fun n => incoming storage (derivationEdges P storage none) n = [],
    new.flatMap fun n => (incoming storage (derivationEdges P storage none) n).filter
      fun p => blocking (est P storage minKappa) p.2 ≠ [], hnew.filter _, fun n => ?_, ?_, fun p => ?_, ?_⟩
  · rw [List.mem_filter, hcone, decide_eq_true_eq, List.eq_nil_iff_forall_not_mem]
    simp only [mem_incoming_iff hi, not_and]
    rfl
  · rw [List.nodup_flatMap]
    refine ⟨fun n _ => (nodup_incoming hi.rows).filter _, hnew.imp fun {a b} hab => ?_⟩
    intro p hpa hpb
    exact hab (((mem_incoming_iff hi).mp (List.mem_of_mem_filter hpa)).2.symm.trans
      ((mem_incoming_iff hi).mp (List.mem_of_mem_filter hpb)).2)
  · rw [List.mem_flatMap]
    simp only [List.mem_filter, decide_eq_true_eq, blocking_ne_nil_iff, mem_incoming_iff hi, hcone]
    constructor
    · rintro ⟨n, hn, ⟨hp, rfl⟩, hq⟩
      exact ⟨hp, hn, hq⟩
    · rintro ⟨hp, hn, hq⟩
      exact ⟨_, hn, ⟨hp, rfl⟩, hq⟩
  · rw [List.nil_append, funext (records_eq hi), List.map_flatMap, ← flatMap_ite]
    exact (List.flatMap_append_perm _ _ _).symm

/-- In a store that calls built, path discovery always answers, and with the
exact frontier where the target is not reachable. -/
theorem frontier_exact (hc : P.CborLaws) (calls : List CommitCall) (hM : Set.InjOn P.hashBytes (callBlobs P calls))
    (target : Hash) (minKappa : Kappa) :
    ∃ r, pathDiscovery P target (CommitCall.run P calls) minKappa = .ok r ∧ (r.reachable = false →
      ExactFrontier (usable P (CommitCall.run P calls) none) (establishedAt P (CommitCall.run P calls) minKappa) target
        r.missingEdges) := by
  obtain ⟨r, hr, -⟩ := pathDiscovery_reachable (P := P) (CommitCall.run P calls) target minKappa
  refine ⟨r, hr, fun hn => ?_⟩
  exact Traversed.exact (run_indexAgrees hc calls hM) (pathDiscovery_traversed hr hn)

section Example

open Reference

/-- `b` follows from `a` and `c`, and `a` from `b`. -/
def waiting : List CommitCall :=
  let keys : Keys := ⟨List.replicate 32 7, List.replicate 32 7⟩
  let a := proposition "a" "math" true
  let b := proposition "b" "math" true
  let c := proposition "c" "math" true
  [⟨lenient, keys, 10, none, ⟨.bytes keys.pub, [a, c], b, .str "r", .numerical, none, defaultTimeout⟩⟩,
    ⟨lenient, keys, 20, none, ⟨.bytes keys.pub, [b], a, .str "r", .numerical, none, defaultTimeout⟩⟩]

theorem frontier_exact_waiting : (usable reference (CommitCall.run reference waiting) none).Nonempty ∧
    ∃ n r, (proposition "b" "math" true).nodeId reference = .ok n ∧
      pathDiscovery reference n (CommitCall.run reference waiting) .k0 = .ok r ∧ r.reachable = false ∧
      ExactFrontier (usable reference (CommitCall.run reference waiting) none)
        (establishedAt reference (CommitCall.run reference waiting) .k0) n r.missingEdges := by
  have hid : ((proposition "b" "math" true).nodeId reference).toOption.isSome = true := by decide +kernel
  obtain ⟨n, hn⟩ := Option.isSome_iff_exists.mp hid
  have hne : derivationEdges reference (CommitCall.run reference waiting) none ≠ [] := by decide +kernel
  have hprem : ∀ p ∈ derivationEdges reference (CommitCall.run reference waiting) none, p.2.premises ≠ [] := by
    decide +kernel
  obtain ⟨p, hp⟩ := List.exists_mem_of_ne_nil _ hne
  obtain ⟨r, hr, hfrontier⟩ :=
    frontier_exact reference_cborLaws waiting (callBlobs_injOn (by decide +kernel)) n .k0
  obtain ⟨r', hr', hiff⟩ := pathDiscovery_reachable (P := reference) (CommitCall.run reference waiting) n .k0
  rw [hr, Except.ok.injEq] at hr'
  subst hr'
  have hnot : ¬ Derives (derivations reference (CommitCall.run reference waiting) none) .k0 n := by
    refine fun hd => hd.induct (X := fun _ => False) (fun m hm => absurd hm List.not_mem_nil) fun e he _ hfalse => ?_
    obtain ⟨q, hq⟩ := List.exists_mem_of_ne_nil _ (hprem e (mem_derivationEdges.mpr he))
    exact hfalse q hq
  have hr0 : r.reachable = false := Bool.eq_false_iff.mpr (mt hiff.mp hnot)
  exact ⟨⟨p, mem_derivationEdges.mp hp⟩, n, r, toOption_eq_some.mp hn, hr, hr0, hfrontier hr0⟩

end Example

/-! ## Assuming what the frontier names -/

/-- What a record asks for: the blocking nodes, or the conclusion of a leaf. -/
def asked (m : MissingEdge) : List Hash := if m.premises = [] then [m.conclusion] else m.blockingNodes

/-- A report that the target is not reachable names nodes, and assuming them makes it reachable. -/
def NamesGap (P : Prims) (storage : Storage) (target : Hash) (minKappa : Kappa) : Prop :=
  ∀ r, pathDiscovery P target storage minKappa = .ok r → r.reachable = false → r.missingEdges ≠ [] ∧
    ∃ r', reachable P target storage minKappa (r.missingEdges.flatMap asked) none = .ok r' ∧ r'.established = true

/-- The open premises in the cone of the target, and the nodes of it that no edge may conclude. -/
def Asked (P : Prims) (storage : Storage) (target : Hash) (minKappa : Kappa) : Set Hash :=
  {q | ∃ n, OpenCone (candidates P storage) (establishedAt P storage minKappa) target n ∧
    ((∃ p ∈ candidates P storage n, q ∈ p.2.premises ∧ q ∉ establishedAt P storage minKappa) ∨
      (candidates P storage n = ∅ ∧ q = n))}

theorem mem_missing {missing : List MissingEdge} {m : MissingEdge}
    (h : Traversed (records storage (derivationEdges P storage none) (est P storage minKappa))
      {n | OpenCone (candidates P storage) (establishedAt P storage minKappa) target n} [] [] missing) :
    m ∈ missing ↔ ∃ n, OpenCone (candidates P storage) (establishedAt P storage minKappa) target n ∧
      ((candidates P storage n = ∅ ∧ m = leaf n) ∨ ∃ p ∈ candidates P storage n,
        blocking (est P storage minKappa) p.2 ≠ [] ∧
          m = ⟨n, p.2.premises, blocking (est P storage minKappa) p.2, p.2.rule⟩) := by
  obtain ⟨new, -, rfl, hcone⟩ := h
  have hcone : ∀ n, n ∈ new ↔ OpenCone (candidates P storage) (establishedAt P storage minKappa) target n :=
    fun n => by simpa using hcone n
  have hempty : ∀ n, incoming storage (derivationEdges P storage none) n = [] ↔ candidates P storage n = ∅ := by
    intro n
    rw [List.eq_nil_iff_forall_not_mem, Set.eq_empty_iff_forall_notMem]
    simp only [mem_candidates]
  rw [List.nil_append, List.mem_flatMap]
  refine exists_congr fun n => and_congr (hcone n) ?_
  rw [records]
  by_cases hn : incoming storage (derivationEdges P storage none) n = []
  · have hn' := (hempty n).mp hn
    rw [if_pos hn, List.mem_singleton, hn']
    simp
  · have hn' := mt (hempty n).mpr hn
    rw [if_neg hn, gaps, List.mem_filterMap]
    simp only [hn', false_and, false_or, mem_candidates]
    refine exists_congr fun p => and_congr_right fun _ => ?_
    by_cases hb : blocking (est P storage minKappa) p.2 = []
    · simp [hb]
    · simp [hb, eq_comm]

theorem mem_asked {missing : List MissingEdge} {q : Hash}
    (h : Traversed (records storage (derivationEdges P storage none) (est P storage minKappa))
      {n | OpenCone (candidates P storage) (establishedAt P storage minKappa) target n} [] [] missing) :
    q ∈ missing.flatMap asked ↔ q ∈ Asked P storage target minKappa := by
  have hblock : ∀ {q} {e : Edge}, q ∈ blocking (est P storage minKappa) e ↔
      q ∈ e.premises ∧ q ∉ establishedAt P storage minKappa := mem_blocking fun _ => est_iff
  rw [List.mem_flatMap]
  constructor
  · rintro ⟨m, hm, hq⟩
    obtain ⟨n, hn, ⟨hnil, rfl⟩ | ⟨p, hp, hb, rfl⟩⟩ := (mem_missing h).mp hm
    · exact ⟨n, hn, .inr ⟨hnil, List.mem_singleton.mp hq⟩⟩
    · refine ⟨n, hn, .inl ⟨p, hp, ?_⟩⟩
      have hne : p.2.premises ≠ [] := fun hnil => hb (by rw [blocking, hnil, List.filter_nil])
      rwa [asked, if_neg hne, hblock] at hq
  · rintro ⟨n, hn, ⟨p, hp, hq⟩ | ⟨hnil, rfl⟩⟩
    · have hb : q ∈ blocking (est P storage minKappa) p.2 := hblock.mpr hq
      refine ⟨_, (mem_missing h).mpr ⟨n, hn, .inr ⟨p, hp, List.ne_nil_of_mem hb, rfl⟩⟩, ?_⟩
      rwa [asked, if_neg (List.ne_nil_of_mem hq.1)]
    · exact ⟨leaf q, (mem_missing h).mpr ⟨q, hn, .inl ⟨hnil, rfl⟩⟩, List.mem_singleton.mpr rfl⟩

/-- The edges that count, with the nodes that the frontier asks for as seeds. -/
def assuming (P : Prims) (storage : Storage) (target : Hash) (minKappa : Kappa) : System Hash DerivationEdge Kappa :=
  { derivations P storage none with seeds := Asked P storage target minKappa }

/-- Some edge that concludes the target reaches the threshold, and its premises follow from what is asked for. -/
def WithinReach (P : Prims) (storage : Storage) (target : Hash) (minKappa : Kappa) : Prop :=
  ∃ p ∈ usable P storage none, p.2.conclusion = target ∧ minKappa ≤ p.2.kappa ∧
    ∀ q ∈ p.2.premises, Derives (assuming P storage target minKappa) minKappa q

theorem reachable_assuming {missing : List MissingEdge}
    (h : Traversed (records storage (derivationEdges P storage none) (est P storage minKappa))
      {n | OpenCone (candidates P storage) (establishedAt P storage minKappa) target n} [] [] missing) :
    (∃ r, reachable P target storage minKappa (missing.flatMap asked) none = .ok r ∧ r.established = true) ↔
      Derives (assuming P storage target minKappa) minKappa target := by
  have hsys : assuming P storage target minKappa = system (usable P storage none) (missing.flatMap asked) := by
    rw [assuming, derivations]
    exact congrArg (fun s => { system (usable P storage none) [] with seeds := s })
      (Set.ext fun q => (mem_asked h).symm)
  rw [hsys]
  obtain ⟨r, hr, hiff⟩ := reachable_derives P target storage minKappa (missing.flatMap asked) none
  constructor
  · rintro ⟨r', hr', he⟩
    rw [hr, Except.ok.injEq] at hr'
    exact hiff.mp (hr' ▸ he)
  · exact fun hd => ⟨r, hr, hiff.mpr hd⟩

theorem establishedAt_assuming (hn : n ∈ establishedAt P storage minKappa) :
    Derives (assuming P storage target minKappa) minKappa n :=
  Derives.induct (Y := derivations P storage none)
    (X := fun n => Derives (assuming P storage target minKappa) minKappa n)
    (fun _ hn => absurd hn List.not_mem_nil)
    (fun _ hp hk hprem => Derives.step (Y := assuming P storage target minKappa) hp hk hprem) hn

/-- A frontier names the gap of a target that is asked for or within reach. -/
theorem namesGap_iff : NamesGap P storage target minKappa ↔ target ∈ establishedAt P storage minKappa ∨
    target ∈ Asked P storage target minKappa ∨ WithinReach P storage target minKappa := by
  obtain ⟨r, hr, hreach⟩ := pathDiscovery_reachable (P := P) storage target minKappa
  by_cases he : target ∈ establishedAt P storage minKappa
  · refine iff_of_true (fun r' hr' hn => ?_) (.inl he)
    rw [hr, Except.ok.injEq] at hr'
    rw [← hr', hreach.mpr he] at hn
    cases hn
  have hfalse : r.reachable = false := Bool.eq_false_iff.mpr (mt hreach.mp he)
  have htrav := pathDiscovery_traversed hr hfalse
  have hreport : NamesGap P storage target minKappa ↔
      r.missingEdges ≠ [] ∧ Derives (assuming P storage target minKappa) minKappa target := by
    rw [← reachable_assuming htrav]
    constructor
    · exact fun h => h r hr hfalse
    · intro h r' hr' _
      rw [hr, Except.ok.injEq] at hr'
      exact hr' ▸ h
  rw [hreport, or_iff_right he]
  constructor
  · rintro ⟨-, hd⟩
    exact hd.cases
  · intro h
    have hd : Derives (assuming P storage target minKappa) minKappa target := by
      rcases h with ha | ⟨p, hp, rfl, hk, hprem⟩
      · exact Derives.seed (Y := assuming P storage target minKappa) ha
      · exact Derives.step (Y := assuming P storage _ minKappa) hp hk hprem
    refine ⟨fun hnil => he ?_, hd⟩
    -- without a record nothing is assumed
    refine Derives.induct (Y := assuming P storage target minKappa) (X := (· ∈ establishedAt P storage minKappa))
      (fun q hq => ?_) (fun p hp hk hprem => Derives.step (Y := derivations P storage none) hp hk hprem) hd
    rw [show (assuming P storage target minKappa).seeds = Asked P storage target minKappa from rfl,
      ← mem_asked htrav, hnil] at hq
    cases hq

/-- Where the index agrees with the records, an edge that reaches the threshold is enough. -/
theorem IndexAgrees.withinReach_iff (hi : IndexAgrees P storage) : WithinReach P storage target minKappa ↔
    ∃ p ∈ usable P storage none, p.2.conclusion = target ∧ minKappa ≤ p.2.kappa := by
  constructor
  · rintro ⟨p, hp, hc, hk, -⟩
    exact ⟨p, hp, hc, hk⟩
  · rintro ⟨p, hp, hc, hk⟩
    refine ⟨p, hp, hc, hk, fun q hq => ?_⟩
    by_cases hE : q ∈ establishedAt P storage minKappa
    · exact establishedAt_assuming hE
    · have hcand : p ∈ candidates P storage target := ⟨hp, (hi.incoming p hp target).mpr hc⟩
      exact Derives.seed (Y := assuming P storage target minKappa) ⟨target, .target, .inl ⟨p, hcand, hq, hE⟩⟩

/-- The frontier of a target is not empty and enough to derive it exactly if
the target is established, is asked for itself, or is concluded by an edge at
the threshold whose premises follow from what is asked for. In stores whose
index agrees with the records, as in those that calls built, every edge at the
threshold that concludes the target is such an edge. -/
theorem frontier_closes_iff (P : Prims) (storage : Storage) (target : Hash) (minKappa : Kappa) :
    (NamesGap P storage target minKappa ↔ target ∈ establishedAt P storage minKappa ∨
      target ∈ Asked P storage target minKappa ∨ WithinReach P storage target minKappa) ∧
    (IndexAgrees P storage → (NamesGap P storage target minKappa ↔ target ∈ establishedAt P storage minKappa ∨
      target ∈ Asked P storage target minKappa ∨
      ∃ p ∈ usable P storage none, p.2.conclusion = target ∧ minKappa ≤ p.2.kappa)) := by
  refine ⟨namesGap_iff, fun hi => ?_⟩
  rw [namesGap_iff, hi.withinReach_iff]

section Example

open Reference

/-- A citation. -/
def citedOnce : List CommitCall :=
  let keys : Keys := ⟨List.replicate 32 7, List.replicate 32 7⟩
  [⟨lenient, keys, 10, none,
    ⟨.bytes keys.pub, [], proposition "b" "math" true, .str "r", .citation, none, defaultTimeout⟩⟩]

/-- A claim that is cited at κ1 is not reachable at κ2, and nothing is reported as missing. -/
theorem weak_target_unnamed : ∃ n r, (proposition "b" "math" true).nodeId reference = .ok n ∧
    pathDiscovery reference n (CommitCall.run reference citedOnce) .k2 = .ok r ∧ r.reachable = false ∧
    r.missingEdges = [] := by
  have hid : ((proposition "b" "math" true).nodeId reference).toOption.isSome = true := by decide +kernel
  obtain ⟨n, hn⟩ := Option.isSome_iff_exists.mp hid
  have hindexed : ∀ n ∈ ((proposition "b" "math" true).nodeId reference).toOption,
      ∃ p ∈ derivationEdges reference (CommitCall.run reference citedOnce) none,
        p.1 ∈ (CommitCall.run reference citedOnce).graph.incomingEdges n := by decide +kernel
  have hweak : ∀ p ∈ derivationEdges reference (CommitCall.run reference citedOnce) none,
      p.2.premises = [] ∧ p.2.kappa = .k1 := by decide +kernel
  obtain ⟨r, hr, hiff⟩ := pathDiscovery_reachable (P := reference) (CommitCall.run reference citedOnce) n .k2
  have hnot : ¬ Derives (derivations reference (CommitCall.run reference citedOnce) none) .k2 n := by
    intro hd
    rcases hd.cases with hs | ⟨e, he, -, hk, -⟩
    · exact List.not_mem_nil hs
    · have hk1 : e.2.kappa = .k1 := (hweak e (mem_derivationEdges.mpr he)).2
      exact absurd (show Kappa.k2 ≤ Kappa.k1 from hk1 ▸ hk) (by decide)
  have hr0 : r.reachable = false := Bool.eq_false_iff.mpr (mt hiff.mp hnot)
  refine ⟨n, r, toOption_eq_some.mp hn, hr, hr0, List.eq_nil_iff_forall_not_mem.mpr fun m hm => ?_⟩
  have hnil : ∀ {n p}, p ∈ candidates reference (CommitCall.run reference citedOnce) n → p.2.premises = [] :=
    fun hp => (hweak _ (mem_derivationEdges.mpr hp.1)).1
  obtain ⟨n', hcone, hrec⟩ := (mem_missing (pathDiscovery_traversed hr hr0)).mp hm
  obtain rfl : n' = n := by
    cases hcone with
    | target => rfl
    | premise _ hp hq _ =>
      rw [hnil hp] at hq
      cases hq
  rcases hrec with ⟨hempty, -⟩ | ⟨p, hp, hb, -⟩
  · obtain ⟨p, hp, hinc⟩ := hindexed n' hn
    have hmem : p ∈ candidates reference (CommitCall.run reference citedOnce) n' := ⟨mem_derivationEdges.mp hp, hinc⟩
    rw [hempty] at hmem
    exact hmem
  · rw [blocking, hnil hp, List.filter_nil] at hb
    exact hb rfl

end Example

end Report

end ArxDB.Proof
