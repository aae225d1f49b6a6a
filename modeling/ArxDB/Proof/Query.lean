import ArxDB.Impl.Server
import ArxDB.Proof.Reachability
import ArxDB.Proof.Refutation

/-!
# The queries and refutation

Both endpoints derive from every stored edge, also from those that are out or
undecided (`queryReachable_established`, `queryPath_reachable`). So they
answer as if the active subgraph had been taken exactly when the edges that
are not in add nothing to it: every edge whose premises the edges that are in
derive concludes what they derive too (`respects_refutation_iff`).
-/

namespace ArxDB.Proof

open Impl Impl.Refutation Derivation Valuation Saturate

variable {P : Prims} {storage : Storage}

/-- The edges that count, as a system without hypothetical seeds. -/
def derivations (P : Prims) (storage : Storage) (activeEdges : Option (Finset Hash)) :
    System Hash Reachability.DerivationEdge Kappa := system (usable P storage activeEdges) []

/-! ## What the queries answer -/

theorem established_iff {edges : List Reachability.DerivationEdge} {minKappa : Kappa} {n : Hash} :
    PathDiscovery.established (Reachability.fixpoint edges []) minKappa n = true ↔
      Derives (system {p | p ∈ edges} []) minKappa n := by
  rw [← exists_le_iff raised_sound raised_closed, ← fixpoint_kappa, PathDiscovery.established, Option.any_eq_true]
  simp only [decide_eq_true_eq, ge_iff_le, Kappa.le_def]
  exact exists_congr fun k => and_comm

/-- `path_discovery` always answers, by whether some derivation has no edge below the threshold. -/
theorem pathDiscovery_reachable (storage : Storage) (target : Hash) (minKappa : Kappa) :
    ∃ r, PathDiscovery.pathDiscovery P target storage minKappa = .ok r ∧
      (r.reachable = true ↔ Derives (derivations P storage none) minKappa target) := by
  rw [derivations, usable_eq, ← established_iff, PathDiscovery.pathDiscovery]
  by_cases he : PathDiscovery.established
      (Reachability.fixpoint (Reachability.derivationEdges P storage none) []) minKappa target = true
  · obtain ⟨t, -⟩ := established_iff.mp he
    obtain ⟨d, hd⟩ := Option.isSome_iff_exists.mp (fixpoint_depth t)
    simp only [he, if_true, hd]
    exact ⟨_, rfl, by simp⟩
  · simp only [he, Bool.false_eq_true, if_false]
    exact ⟨_, rfl, by simp⟩

/-- What `query_reachable` reports. -/
theorem queryReachable_established {body : Value} {report : ReachableReport}
    (h : Server.queryReachable P storage body = .ok report) :
    report.established = true ↔ Derives (derivations P storage none) report.minKappa report.nodeId := by
  obtain ⟨node, -, h⟩ := bind_eq_ok.mp h
  obtain ⟨minKappa, -, h⟩ := bind_eq_ok.mp h
  obtain ⟨nodeId, -, h⟩ := bind_eq_ok.mp h
  obtain ⟨r, hr, h⟩ := bind_eq_ok.mp h
  obtain ⟨r', hr', hiff⟩ := reachable_derives P nodeId storage minKappa [] none
  rw [hr, Except.ok.injEq] at hr'
  cases hr'
  cases h
  exact hiff

/-- What `query_path` reports. -/
theorem queryPath_reachable {body : Value} {report : PathReport}
    (h : Server.queryPath P storage body = .ok report) :
    report.reachable = true ↔ Derives (derivations P storage none) report.minKappa report.nodeId := by
  obtain ⟨node, -, h⟩ := bind_eq_ok.mp h
  obtain ⟨minKappa, -, h⟩ := bind_eq_ok.mp h
  obtain ⟨nodeId, -, h⟩ := bind_eq_ok.mp h
  obtain ⟨r, hr, h⟩ := bind_eq_ok.mp h
  obtain ⟨r', hr', hiff⟩ := pathDiscovery_reachable storage nodeId minKappa
  rw [hr, Except.ok.injEq] at hr'
  cases hr'
  cases h
  exact hiff

/-! ## Claims that a request can name -/

/-- The node of a request with a claim, a domain and a polarity. -/
def Named (P : Prims) (h : Hash) : Prop :=
  ∃ claim domain polarity, claim ≠ "" ∧ (⟨.str claim, domain, .bool polarity⟩ : Node).nodeId P = .ok h

/-- The body that asks for a node at a threshold. -/
def queryBody (claim : String) (domain : Value) (polarity : Bool) (minKappa : Kappa) : Value :=
  .dict [(.str "claim", .str claim), (.str "domain", domain), (.str "polarity", .bool polarity),
    (.str "min_kappa", .str minKappa.value)]

theorem parseNode_queryBody {claim : String} {domain : Value} {polarity : Bool} {minKappa : Kappa} (hc : claim ≠ "") :
    Server.parseNode (queryBody claim domain polarity minKappa) = .ok ⟨.str claim, domain, .bool polarity⟩ := by
  simp [Server.parseNode, queryBody, getOr, Value.isStr, Value.truthy, hc]

theorem parseKappa_queryBody {claim : String} {domain : Value} {polarity : Bool} {minKappa : Kappa} :
    Server.parseKappa (Server.minKappaField (queryBody claim domain polarity minKappa)) = .ok minKappa := by
  have hf : Server.minKappaField (queryBody claim domain polarity minKappa) = .str minKappa.value := by
    simp [Server.minKappaField, queryBody, getOr, Value.isStr]
  rw [hf, Server.parseKappa, kappa_ofValue]
  simp

/-- Every named node can be asked for, at every threshold. -/
theorem exists_query (storage : Storage) {h : Hash} (hn : Named P h) (minKappa : Kappa) :
    ∃ body report, Server.queryReachable P storage body = .ok report ∧ report.nodeId = h ∧
      report.minKappa = minKappa := by
  obtain ⟨claim, domain, polarity, hc, hid⟩ := hn
  obtain ⟨r, hr, -⟩ := reachable_derives P h storage minKappa [] none
  refine ⟨queryBody claim domain polarity minKappa, ?_⟩
  simp only [Server.queryReachable, parseNode_queryBody hc, parseKappa_queryBody, hid, hr, bind, Except.bind,
    pure, Except.pure]
  exact ⟨_, rfl, rfl, rfl⟩

/-! ## Refutation -/

/-- The edges that are in derive the claim at the threshold. -/
def InDerives (P : Prims) (storage : Storage) (minKappa : Kappa) (h : Hash) : Prop :=
  ∃ A, computeActiveSubgraph P storage = .ok A ∧ Derives (derivations P storage (some A.inEdges)) minKappa h

/-- Neither query reports a claim that the edges that are in do not derive. -/
structure RespectsRefutation (P : Prims) (storage : Storage) : Prop where
  reachable (body : Value) (report : ReachableReport) : Server.queryReachable P storage body = .ok report →
    report.established = true → InDerives P storage report.minKappa report.nodeId
  path (body : Value) (report : PathReport) : Server.queryPath P storage body = .ok report →
    report.reachable = true → InDerives P storage report.minKappa report.nodeId

/-- At the threshold, the edges that are not in add nothing to what those that
are in derive, besides nodes of `hidden`. -/
def AddsOnly (P : Prims) (storage : Storage) (minKappa : Kappa) (hidden : Set Hash) : Prop :=
  ∀ p ∈ usable P storage none, minKappa ≤ p.2.kappa →
    (∀ q ∈ p.2.premises, InDerives P storage minKappa q ∨ q ∈ hidden) →
    InDerives P storage minKappa p.2.conclusion ∨ p.2.conclusion ∈ hidden

/-- What the edges that are in derive, all edges derive. -/
theorem InDerives.derives {minKappa : Kappa} {h : Hash} (hd : InDerives P storage minKappa h) :
    Derives (derivations P storage none) minKappa h := by
  obtain ⟨A, -, hd⟩ := hd
  refine hd.induct (fun n hn => by cases hn) fun p hp hk hprem => ?_
  obtain ⟨hmem, -, hres, htype, hverdict⟩ := hp
  have hp' : p ∈ usable P storage none := ⟨hmem, by simp, hres, htype, hverdict⟩
  exact Derives.step (Y := derivations P storage none) hp' hk hprem

/-- A claim that all edges derive is derived by those that are in, or hidden. -/
theorem AddsOnly.derives {minKappa : Kappa} {hidden : Set Hash} (ha : AddsOnly P storage minKappa hidden) {h : Hash}
    (hd : Derives (derivations P storage none) minKappa h) : InDerives P storage minKappa h ∨ h ∈ hidden :=
  hd.induct (fun _ hn => by cases hn) fun p hp hk hprem => ha p hp hk hprem

theorem AddsOnly.respects (h : ∀ minKappa, ∃ hidden, (∀ n ∈ hidden, ¬ Named P n) ∧ AddsOnly P storage minKappa hidden) :
    RespectsRefutation P storage := by
  have key : ∀ minKappa n, Named P n → Derives (derivations P storage none) minKappa n →
      InDerives P storage minKappa n := by
    intro minKappa n hn hd
    obtain ⟨hidden, hh, ha⟩ := h minKappa
    exact (ha.derives hd).resolve_right fun hmem => hh n hmem hn
  have named : ∀ {body node n}, Server.parseNode body = .ok node → node.nodeId P = .ok n → Named P n := by
    intro body node n hnode hid
    unfold Server.parseNode at hnode
    split at hnode
    · split at hnode
      · split at hnode
        · cases hnode
        · rename_i hc
          cases hnode
          exact ⟨_, _, _, hc, hid⟩
      · cases hnode
    · cases hnode
  refine ⟨fun body report hq he => ?_, fun body report hq he => ?_⟩
  · have hd := (queryReachable_established hq).mp he
    obtain ⟨node, hnode, hq⟩ := bind_eq_ok.mp hq
    obtain ⟨minKappa, -, hq⟩ := bind_eq_ok.mp hq
    obtain ⟨nodeId, hid, hq⟩ := bind_eq_ok.mp hq
    obtain ⟨r, -, hq⟩ := bind_eq_ok.mp hq
    cases hq
    exact key _ _ (named hnode hid) hd
  · have hd := (queryPath_reachable hq).mp he
    obtain ⟨node, hnode, hq⟩ := bind_eq_ok.mp hq
    obtain ⟨minKappa, -, hq⟩ := bind_eq_ok.mp hq
    obtain ⟨nodeId, hid, hq⟩ := bind_eq_ok.mp hq
    obtain ⟨r, -, hq⟩ := bind_eq_ok.mp hq
    cases hq
    exact key _ _ (named hnode hid) hd

/-- The queries of a store respect refutation exactly when at every threshold
the edges that are out or undecided add nothing to what the edges that are in
derive, besides nodes that no request can name. -/
theorem respects_refutation_iff (P : Prims) (storage : Storage) : RespectsRefutation P storage ↔
    ∀ minKappa, ∃ hidden, (∀ n ∈ hidden, ¬ Named P n) ∧ AddsOnly P storage minKappa hidden := by
  constructor
  · intro h minKappa
    refine ⟨{n | Derives (derivations P storage none) minKappa n ∧ ¬ InDerives P storage minKappa n}, ?_, ?_⟩
    · rintro n ⟨hd, hin⟩ hn
      obtain ⟨body, report, hq, rfl, rfl⟩ := exists_query storage hn minKappa
      exact hin (h.reachable body report hq ((queryReachable_established hq).mpr hd))
    · intro p hp hk hprem
      by_cases hin : InDerives P storage minKappa p.2.conclusion
      · exact .inl hin
      · refine .inr ⟨Derives.step (Y := derivations P storage none) hp hk fun q hq => ?_, hin⟩
        rcases hprem q hq with hq | hq
        · exact hq.derives
        · exact hq.1
  · exact AddsOnly.respects

/-- Where every stored edge is attacked, none is in. -/
theorem label_of_attacked {g : Attacks} {hs : List Hash} (h : ∀ a ∈ hs, ∃ b, b ∈ g.attackedBy a) :
    (label g hs).inEdges = ∅ := by
  have inv : (label g hs).inEdges = ∅ ∧ (label g hs).outEdges = ∅ := by
    refine saturate_inv (I := fun l : Labelling => l.inEdges = ∅ ∧ l.outEdges = ∅) _ ?_ ⟨rfl, rfl⟩
    intro a ha l l' hl hstep
    obtain ⟨b, hb⟩ := h a ha
    have hnot : ¬ g.attackedBy a ⊆ l.outEdges := by
      rw [hl.2]
      exact fun hsub => absurd (hsub hb) (Finset.notMem_empty b)
    rw [labelStep, if_neg hnot] at hstep
    split at hstep
    · cases hstep
    · cases hstep
  exact inv.1

/-- Then nothing is derived by edges that are in. -/
theorem not_inDerives_of_attacked {g : Attacks} (hg : attackGraph P storage (storedEdges P storage) = .ok g)
    (h : ∀ a ∈ (storedEdges P storage).map Prod.fst, ∃ b, b ∈ g.attackedBy a) (minKappa : Kappa) (n : Hash) :
    ¬ InDerives P storage minKappa n := by
  rintro ⟨A, hA, hd⟩
  obtain ⟨g', hg', hA⟩ := bind_eq_ok.mp hA
  rw [hg, Except.ok.injEq] at hg'
  subst hg'
  cases hA
  refine hd.induct (X := fun _ => False) (fun n hn => by cases hn) fun p hp _ _ => ?_
  have hin := hp.2.1 _ rfl
  rw [label_of_attacked h] at hin
  exact absurd hin (Finset.notMem_empty p.1)

section Example

open Reference

theorem opposed_attacked : ∃ g, attackGraph reference (CommitCall.run reference opposed)
      (storedEdges reference (CommitCall.run reference opposed)) = .ok g ∧
    ∀ a ∈ (storedEdges reference (CommitCall.run reference opposed)).map Prod.fst, ∃ b, b ∈ g.attackedBy a := by
  have hsome : (attackGraph reference (CommitCall.run reference opposed)
      (storedEdges reference (CommitCall.run reference opposed))).toOption.isSome = true := by decide +kernel
  have hattacked : ∀ g ∈ (attackGraph reference (CommitCall.run reference opposed)
        (storedEdges reference (CommitCall.run reference opposed))).toOption,
      ∀ a ∈ (storedEdges reference (CommitCall.run reference opposed)).map Prod.fst,
        ∃ b ∈ (storedEdges reference (CommitCall.run reference opposed)).map Prod.fst, b ∈ g.attackedBy a := by
    decide +kernel
  obtain ⟨g, hg⟩ := Option.isSome_iff_exists.mp hsome
  refine ⟨g, toOption_eq_some.mp hg, fun a ha => ?_⟩
  obtain ⟨b, -, hb⟩ := hattacked g hg a ha
  exact ⟨b, hb⟩

theorem opposed_derived : ∃ n, (proposition "a" "math" true).nodeId reference = .ok n ∧
    Derives (derivations reference (CommitCall.run reference opposed) none) .k0 n := by
  have hid : ((proposition "a" "math" true).nodeId reference).toOption.isSome = true := by decide +kernel
  obtain ⟨n, hn⟩ := Option.isSome_iff_exists.mp hid
  have hedge : ∀ n ∈ ((proposition "a" "math" true).nodeId reference).toOption,
      ∃ p ∈ Reachability.derivationEdges reference (CommitCall.run reference opposed) none,
        p.2.premises = [] ∧ p.2.conclusion = n := by decide +kernel
  obtain ⟨p, hp, hprem, hconc⟩ := hedge n hn
  refine ⟨n, toOption_eq_some.mp hn, ?_⟩
  rw [← hconc]
  have hle : Kappa.k0 ≤ p.2.kappa := Kappa.le_def.mpr zero_le
  refine Derives.step (Y := derivations reference _ none) (mem_derivationEdges.mp hp) hle fun q hq => ?_
  change q ∈ p.2.premises at hq
  rw [hprem] at hq
  cases hq

/-- A proposition and its negation, both defined, attack each other; each is
still reported as established. -/
theorem refuted_still_reported : ¬ ∀ storage, RespectsRefutation reference storage := by
  intro h
  obtain ⟨g, hg, hattacked⟩ := opposed_attacked
  obtain ⟨n, hid, hd⟩ := opposed_derived
  have hnamed : Named reference n := ⟨"a", .str "math", true, by decide, hid⟩
  obtain ⟨body, report, hq, hn, hk⟩ := exists_query (CommitCall.run reference opposed) hnamed .k0
  refine not_inDerives_of_attacked hg hattacked .k0 n ?_
  rw [← hk, ← hn]
  apply (h _).reachable body report hq
  rw [queryReachable_established hq, hn, hk]
  exact hd

end Example

end ArxDB.Proof
