import ArxDB.Proof.Query

/-!
# Depths

Every depth that the depth loop writes is the height of a derivation
(`depthStep_attained`), and where the loop stops no edge gives less
(`fixpoint_settled`). So the depth of a node is the least height of a
derivation of it (`depth_exact`), over all edges: a derivation by weak edges
counts as well, which is why the depth that a query reports need not be that
of a derivation as strong as asked for (`depth_of_strength_iff`).
-/

namespace ArxDB.Proof

open Impl Impl.Reachability Derivation Valuation Saturate

variable {edges : List DerivationEdge} {extraSeeds : List Hash}

/-! ## Seeds -/

theorem seed_attained {Y : System Hash DerivationEdge Kappa} {l : Labels} {node : Hash} {k : Kappa}
    {edge : Option Hash} (h : Attained Y l.depth) (ht : ∃ t : Tree Y node, t.height = 0) :
    Attained Y (seed node k edge l).depth := by
  simp only [seed]
  exact h.update ht

theorem seed_depth_zero_self {l : Labels} {node : Hash} {k : Kappa} {edge : Option Hash} :
    (seed node k edge l).depth node = some 0 := by
  simp [seed]

theorem seed_depth_zero {l : Labels} {n node : Hash} {k : Kappa} {edge : Option Hash} (h : l.depth n = some 0) :
    (seed node k edge l).depth n = some 0 := by
  simp only [seed]
  by_cases hn : n = node
  · rw [hn, Function.update_self]
  · rwa [Function.update_of_ne hn]

theorem seedEdge_depth_zero {l : Labels} {n : Hash} (h : l.depth n = some 0) (p : DerivationEdge) :
    (seedEdge l p).depth n = some 0 := by
  unfold seedEdge
  split
  exacts [seed_depth_zero h, h]

theorem seeded_attained : Attained (system {p | p ∈ edges} extraSeeds) (seeded edges extraSeeds).depth := by
  have hedges : Attained (system {p | p ∈ edges} extraSeeds) (edges.foldl seedEdge .empty).depth := by
    refine List.foldlRecOn (motive := fun l => Attained (system {p | p ∈ edges} extraSeeds) l.depth) edges seedEdge
      (show Attained _ Labels.empty.depth from .empty) fun l h p hp => ?_
    unfold seedEdge
    split
    · rename_i hnil
      exact seed_attained h (exists_height_source (Y := system {p | p ∈ edges} extraSeeds) hp hnil)
    · exact h
  exact List.foldlRecOn (motive := fun l => Attained (system {p | p ∈ edges} extraSeeds) l.depth) extraSeeds seedExtra
    hedges fun l h n hn => seed_attained h ⟨.seed hn, rfl⟩

theorem seeded_edge_zero {p : DerivationEdge} (hp : p ∈ edges) (hnil : p.2.premises = []) :
    (seeded edges extraSeeds).depth p.2.conclusion = some 0 := by
  have hedges : ∀ p ∈ edges, p.2.premises = [] → (edges.foldl seedEdge .empty).depth p.2.conclusion = some 0 := by
    refine forall_foldl (Q := fun (p : DerivationEdge) l => p.2.premises = [] → l.depth p.2.conclusion = some 0)
      (fun p _ l hnil => ?_) (fun p l q h hnil => seedEdge_depth_zero (h hnil) q) Labels.empty
    rw [seedEdge, if_pos hnil]
    exact seed_depth_zero_self
  exact List.foldlRecOn (motive := fun l => l.depth p.2.conclusion = some 0) extraSeeds seedExtra (hedges p hp hnil)
    fun l h _ _ => seed_depth_zero h

theorem seeded_seed_zero {n : Hash} (hn : n ∈ extraSeeds) : (seeded edges extraSeeds).depth n = some 0 :=
  forall_foldl (Q := fun n (l : Labels) => l.depth n = some 0) (fun _ _ _ => seed_depth_zero_self)
    (fun _ _ _ h => seed_depth_zero h) _ n hn

/-! ## The loop -/

theorem foldl_max_le_iff {xs : List Nat} {m k : Nat} : xs.foldl max m ≤ k ↔ m ≤ k ∧ ∀ x ∈ xs, x ≤ k := by
  induction xs generalizing m with
  | nil => simp
  | cons x xs ih =>
    rw [List.foldl_cons, ih, List.forall_mem_cons, max_le_iff, and_assoc]

/-- The greatest depth of the premises of an edge, when all of them have one. -/
theorem premiseDepth_le_iff {e : Edge} {depth : Hash → Option Nat}
    (h : e.premises.all (fun p => (depth p).isSome) = true) {j : Nat} :
    (e.premises.filterMap depth).foldl max 0 ≤ j ↔ ∀ p ∈ e.premises, ∃ k ≤ j, depth p = some k := by
  rw [foldl_max_le_iff]
  constructor
  · rintro ⟨-, hj⟩ p hp
    obtain ⟨k, hk⟩ := Option.isSome_iff_exists.mp (List.all_eq_true.mp h p hp)
    exact ⟨k, hj k (List.mem_filterMap.mpr ⟨p, hp, hk⟩), hk⟩
  · refine fun hj => ⟨Nat.zero_le j, fun k hk => ?_⟩
    obtain ⟨p, hp, hk⟩ := List.mem_filterMap.mp hk
    obtain ⟨k', hle, hk'⟩ := hj p hp
    rw [hk, Option.some.injEq] at hk'
    exact hk' ▸ hle

theorem depthStep_attained {p : DerivationEdge} (hp : p ∈ edges) {l l' : Labels}
    (h : Attained (system {p | p ∈ edges} extraSeeds) l.depth) (hs : depthStep p l = some l') :
    Attained (system {p | p ∈ edges} extraSeeds) l'.depth := by
  obtain ⟨hne, hall, -, rfl⟩ := depthStep_eq_some hs
  exact h.update (h.step hp hne fun j => premiseDepth_le_iff hall)

theorem depthStep_zero {p : DerivationEdge} {l l' : Labels} {n : Hash} (h : l.depth n = some 0)
    (hs : depthStep p l = some l') : l'.depth n = some 0 := by
  obtain ⟨-, -, hd, rfl⟩ := depthStep_eq_some hs
  -- no depth is below 0, so the edge does not conclude `n`
  have hn : n ≠ p.2.conclusion := by
    rintro rfl
    simp [h] at hd
  exact (Function.update_of_ne hn ..).trans h

/-- An edge that changes nothing gives its conclusion no less than it has. -/
theorem le_of_depthStep_none {p : DerivationEdge} {l : Labels} (hs : depthStep p l = none)
    (hne : p.2.premises ≠ []) (hk : (l.kappa p.2.conclusion).isSome = true) {j : Nat}
    (hp : ∀ q ∈ p.2.premises, ∃ k ≤ j, l.depth q = some k) : ∃ k ≤ 1 + j, l.depth p.2.conclusion = some k := by
  obtain ⟨_, e⟩ := p
  have hall : e.premises.all (fun q => (l.depth q).isSome) = true := by
    rw [List.all_eq_true]
    intro q hq
    obtain ⟨k, -, hk⟩ := hp q hq
    rw [hk]
    rfl
  have hk' : ¬ (l.kappa e.conclusion).isNone = true := by
    rw [Option.isNone_iff_eq_none, ← ne_eq, Option.ne_none_iff_isSome]
    exact hk
  have hmax := (premiseDepth_le_iff hall).mpr hp
  simp only [depthStep, if_neg hne, if_neg hk', if_pos hall] at hs
  split_ifs at hs with hd
  cases hc : l.depth e.conclusion with
  | none => simp [hc] at hd
  | some d =>
    rw [hc, Option.all_some, decide_eq_true_eq, not_lt] at hd
    exact ⟨d, by omega, rfl⟩

theorem fixpoint_attained : Attained (system {p | p ∈ edges} extraSeeds) (fixpoint edges extraSeeds).depth := by
  have hraised : Attained (system {p | p ∈ edges} extraSeeds) (raised edges extraSeeds).depth := by
    rw [raised_depth]
    exact seeded_attained
  exact fixpoint_inv (I := fun l => Attained (system {p | p ∈ edges} extraSeeds) l.depth)
    (fun _ hp _ _ h hs => depthStep_attained hp h hs) hraised

theorem fixpoint_zero {n : Hash} (h : (seeded edges extraSeeds).depth n = some 0) :
    (fixpoint edges extraSeeds).depth n = some 0 := by
  have hraised : (raised edges extraSeeds).depth n = some 0 := by rwa [raised_depth]
  exact fixpoint_inv (I := fun l => l.depth n = some 0) (fun _ _ _ _ h hs => depthStep_zero h hs) hraised

theorem fixpoint_settled : Settled (system {p | p ∈ edges} extraSeeds) (fixpoint edges extraSeeds).depth where
  seed n hn := fixpoint_zero (seeded_seed_zero hn)
  source p hp hnil := fixpoint_zero (seeded_edge_zero hp hnil)
  step p hp hne j hprem := by
    refine le_of_depthStep_none (saturate_done _ _ p hp) hne ?_ hprem
    -- a conclusion whose premises have depths has a derivation, and so a κ
    have htree : ∀ q ∈ p.2.premises, Nonempty (Tree (system {p | p ∈ edges} extraSeeds) q) := by
      intro q hq
      obtain ⟨k, -, hk⟩ := hprem q hq
      obtain ⟨t, -⟩ := fixpoint_attained q k hk
      exact ⟨t⟩
    obtain ⟨k, -, hk⟩ := raised_closed.le (.step p hp fun i => (htree _ (List.get_mem _ i)).some)
    rw [← fixpoint_kappa] at hk
    exact Option.isSome_iff_exists.mpr ⟨k, hk⟩

theorem fixpoint_depth_iff {n : Hash} {d : Nat} : (fixpoint edges extraSeeds).depth n = some d ↔
    IsLeast (Set.range fun t : Tree (system {p | p ∈ edges} extraSeeds) n => t.height) d :=
  fixpoint_settled.eq_some_iff fixpoint_attained

theorem depth_isSome_iff {n : Hash} : ((fixpoint edges extraSeeds).depth n).isSome = true ↔
    ((fixpoint edges extraSeeds).kappa n).isSome = true := by
  rw [Option.isSome_iff_exists (x := (fixpoint edges extraSeeds).kappa n), fixpoint_kappa,
    isSome_iff raised_sound raised_closed]
  constructor
  · intro h
    obtain ⟨d, hd⟩ := Option.isSome_iff_exists.mp h
    obtain ⟨t, -⟩ := fixpoint_attained n d hd
    exact ⟨t⟩
  · rintro ⟨t⟩
    exact fixpoint_depth t

/-- `reachable` returns the κ and the depth of the target. -/
theorem reachable_labels {P : Prims} {target : Hash} {storage : Storage} {minKappa : Kappa}
    {activeEdges : Option (Finset Hash)} {r : ReachabilityResult}
    (hr : reachable P target storage minKappa extraSeeds activeEdges = .ok r) :
    r.kappa = (fixpoint (derivationEdges P storage activeEdges) extraSeeds).kappa target ∧
      r.depth = (fixpoint (derivationEdges P storage activeEdges) extraSeeds).depth target := by
  have hdomain : ((fixpoint (derivationEdges P storage activeEdges) extraSeeds).depth target).isSome = true ↔
      ((fixpoint (derivationEdges P storage activeEdges) extraSeeds).kappa target).isSome = true := depth_isSome_iff
  simp only [reachable] at hr
  split at hr
  · rename_i hk
    rw [hk, Option.isSome_none, Bool.false_eq_true, iff_false, Option.not_isSome_iff_eq_none] at hdomain
    cases hr
    exact ⟨hk.symm, hdomain.symm⟩
  · rename_i hk
    split at hr
    · cases hr
    · rename_i hd
      cases hr
      exact ⟨hk.symm, hd.symm⟩

theorem reachable_depth_iff {P : Prims} {target : Hash} {storage : Storage} {minKappa : Kappa}
    {activeEdges : Option (Finset Hash)} {r : ReachabilityResult}
    (hr : reachable P target storage minKappa extraSeeds activeEdges = .ok r) {d : Nat} : r.depth = some d ↔
      IsLeast (Set.range fun t : Tree (system (usable P storage activeEdges) extraSeeds) target => t.height) d := by
  rw [(reachable_labels hr).2, usable_eq]
  exact fixpoint_depth_iff

/-- A node has a depth exactly when it has a κ, and then the least height of a
derivation of it; so `reachable` finds a depth for every target with a κ. -/
theorem depth_exact :
    (∀ (edges : List DerivationEdge) (extraSeeds : List Hash) (n : Hash),
      (((fixpoint edges extraSeeds).depth n).isSome = true ↔ ((fixpoint edges extraSeeds).kappa n).isSome = true) ∧
      ∀ d, (fixpoint edges extraSeeds).depth n = some d ↔
        IsLeast (Set.range fun t : Tree (system {p | p ∈ edges} extraSeeds) n => t.height) d) ∧
    ∀ (P : Prims) (target : Hash) (storage : Storage) (minKappa : Kappa) (extraSeeds : List Hash)
      (activeEdges : Option (Finset Hash)),
      ∃ r, reachable P target storage minKappa extraSeeds activeEdges = .ok r ∧
        (r.depth.isSome = true ↔ r.kappa.isSome = true) ∧
        ∀ d, r.depth = some d ↔
          IsLeast (Set.range fun t : Tree (system (usable P storage activeEdges) extraSeeds) target => t.height) d := by
  refine ⟨fun edges extraSeeds n => ⟨depth_isSome_iff, fun d => fixpoint_depth_iff⟩, ?_⟩
  intro P target storage minKappa extraSeeds activeEdges
  obtain ⟨r, hr, -⟩ := reachable_derives P target storage minKappa extraSeeds activeEdges
  refine ⟨r, hr, ?_, fun d => reachable_depth_iff hr⟩
  rw [(reachable_labels hr).1, (reachable_labels hr).2]
  exact depth_isSome_iff

/-! ## Depth and strength -/

/-- The depth is the height of a derivation without an edge below the threshold. -/
def Realised (Y : System Hash DerivationEdge Kappa) (minKappa : Kappa) (target : Hash) (depth : Option Nat) : Prop :=
  ∃ t : Tree Y target, (∀ p, t.Uses p → minKappa ≤ Y.weight p) ∧ depth = some t.height

theorem realised_iff {Y : System Hash DerivationEdge Kappa} {minKappa : Kappa} {target : Hash} {depth : Option Nat}
    (hdepth : ∀ d, depth = some d ↔ IsLeast (Set.range fun t : Tree Y target => t.height) d)
    (hk : Derives Y minKappa target) : Realised Y minKappa target depth ↔ ¬ Undercut Y minKappa target := by
  obtain ⟨t₀, -⟩ := id hk
  obtain ⟨d, hmem, hmin⟩ :=
    (wellFounded_lt (α := Nat)).has_min (Set.range fun t : Tree Y target => t.height) ⟨_, t₀, rfl⟩
  have hd : IsLeast (Set.range fun t : Tree Y target => t.height) d := ⟨hmem, fun j hj => not_lt.mp (hmin j hj)⟩
  rw [← exists_height_eq_iff hd hk, Realised, (hdepth d).mpr hd]
  simp only [Option.some.injEq, eq_comm]

theorem pathDiscovery_depth {P : Prims} {storage : Storage} {target : Hash} {minKappa : Kappa} {r : PathResult}
    (hr : PathDiscovery.pathDiscovery P target storage minKappa = .ok r) {d : Nat} :
    r.depth = some d ↔ IsLeast (Set.range fun t : Tree (derivations P storage none) target => t.height) d := by
  have hd : r.depth = (fixpoint (derivationEdges P storage none) []).depth target := by
    simp only [PathDiscovery.pathDiscovery] at hr
    split at hr
    · split at hr
      · cases hr
      · rename_i hd
        cases hr
        exact hd.symm
    · cases hr
      rfl
  rw [hd, derivations, usable_eq]
  exact fixpoint_depth_iff

/-- An established target is reported with the depth of a derivation as strong
as asked for unless a weaker one undercuts these. -/
theorem depth_of_strength_iff (P : Prims) (target : Hash) (storage : Storage) (minKappa : Kappa) :
    (∀ (extraSeeds : List Hash) (activeEdges : Option (Finset Hash)),
      (∀ r, reachable P target storage minKappa extraSeeds activeEdges = .ok r → r.established = true →
        Realised (system (usable P storage activeEdges) extraSeeds) minKappa target r.depth) ↔
      ¬ Undercut (system (usable P storage activeEdges) extraSeeds) minKappa target) ∧
    ((∀ r, PathDiscovery.pathDiscovery P target storage minKappa = .ok r → r.reachable = true →
        Realised (derivations P storage none) minKappa target r.depth) ↔
      ¬ Undercut (derivations P storage none) minKappa target) := by
  constructor
  · intro extraSeeds activeEdges
    obtain ⟨r, hr, hiff⟩ := reachable_derives P target storage minKappa extraSeeds activeEdges
    constructor
    · intro h hu
      exact (realised_iff (fun d => reachable_depth_iff hr) hu.1).mp (h r hr (hiff.mpr hu.1)) hu
    · intro hu r' hr' he
      obtain rfl : r = r' := Except.ok.inj (hr.symm.trans hr')
      exact (realised_iff (fun d => reachable_depth_iff hr) (hiff.mp he)).mpr hu
  · obtain ⟨r, hr, hiff⟩ := pathDiscovery_reachable (P := P) storage target minKappa
    constructor
    · intro h hu
      exact (realised_iff (fun d => pathDiscovery_depth hr) hu.1).mp (h r hr (hiff.mpr hu.1)) hu
    · intro hu r' hr' he
      obtain rfl : r = r' := Except.ok.inj (hr.symm.trans hr')
      exact (realised_iff (fun d => pathDiscovery_depth hr) (hiff.mp he)).mpr hu

section Example

open Reference

/-- A claim of strength κ2 in two steps, and a citation of it. -/
def cited : List CommitCall :=
  let keys : Keys := ⟨List.replicate 32 7, List.replicate 32 7⟩
  let a := proposition "a" "math" true
  let b := proposition "b" "math" true
  [⟨lenient, keys, 10, none, ⟨.bytes keys.pub, [], a, .str "r", .numerical, none, defaultTimeout⟩⟩,
    ⟨lenient, keys, 20, none, ⟨.bytes keys.pub, [a], b, .str "r", .numerical, none, defaultTimeout⟩⟩,
    ⟨lenient, keys, 30, none, ⟨.bytes keys.pub, [], b, .str "r", .citation, none, defaultTimeout⟩⟩]

theorem cited_undercut : ∃ n, (proposition "b" "math" true).nodeId reference = .ok n ∧
    Undercut (derivations reference (CommitCall.run reference cited) none) .k2 n := by
  have hid : ((proposition "b" "math" true).nodeId reference).toOption.isSome = true := by decide +kernel
  obtain ⟨n, hn⟩ := Option.isSome_iff_exists.mp hid
  have hweak : ∀ n ∈ ((proposition "b" "math" true).nodeId reference).toOption,
      (∃ p ∈ derivationEdges reference (CommitCall.run reference cited) none,
        p.2.premises = [] ∧ p.2.conclusion = n ∧ p.2.kappa = .k1) ∧
      ∀ p ∈ derivationEdges reference (CommitCall.run reference cited) none,
        p.2.premises = [] → p.2.conclusion = n → p.2.kappa = .k1 := by decide +kernel
  have hstrong : ∀ n ∈ ((proposition "b" "math" true).nodeId reference).toOption,
      ∃ p ∈ derivationEdges reference (CommitCall.run reference cited) none, p.2.conclusion = n ∧ p.2.kappa = .k2 ∧
        ∀ q ∈ p.2.premises, ∃ p' ∈ derivationEdges reference (CommitCall.run reference cited) none,
          p'.2.conclusion = q ∧ p'.2.kappa = .k2 ∧ p'.2.premises = [] := by decide +kernel
  obtain ⟨⟨p, hp, hnil, hc, hk⟩, hall⟩ := hweak n hn
  obtain ⟨p', hp', hc', hk', hprem⟩ := hstrong n hn
  have hnot : ¬ Kappa.k2 ≤ Kappa.k1 := by decide
  have hle : ∀ p : DerivationEdge, p.2.kappa = .k2 → Kappa.k2 ≤ p.2.kappa := fun p h => h.symm.le
  refine ⟨n, toOption_eq_some.mp hn, ?_, ?_⟩
  · rw [← hc']
    refine Derives.step (Y := derivations reference _ none) (mem_derivationEdges.mp hp') (hle p' hk') fun q hq => ?_
    obtain ⟨p'', hp'', rfl, hk'', hnil''⟩ := hprem q hq
    refine Derives.step (Y := derivations reference _ none) (mem_derivationEdges.mp hp'') (hle p'' hk'') fun q hq => ?_
    rw [show (derivations reference _ none).premises p'' = [] from hnil''] at hq
    cases hq
  · obtain ⟨t, ht⟩ : ∃ t : Tree (derivations reference (CommitCall.run reference cited) none) p.2.conclusion,
        t.height = 0 := exists_height_source (mem_derivationEdges.mp hp) hnil
    subst hc
    have uses : ∀ t : Tree (derivations reference (CommitCall.run reference cited) none) p.2.conclusion,
        t.height = 0 → ∃ q, t.Uses q ∧ q.2.kappa = .k1 := by
      intro t ht
      obtain hs | ⟨q, hq, hqnil, hqc, hu⟩ := Tree.source_of_height_eq_zero ht
      · cases hs
      · exact ⟨q, hu, hall q (mem_derivationEdges.mpr hq) hqnil hqc⟩
    refine ⟨t, ?_, fun t' hs => ?_⟩
    · obtain ⟨q, hu, hq⟩ := uses t ht
      exact ⟨q, hu, fun h => hnot (hq ▸ h)⟩
    · rw [ht, Nat.pos_iff_ne_zero]
      intro h0
      obtain ⟨q, hu, hq⟩ := uses t' h0
      exact hnot (hq ▸ hs q hu)

/-- The target is derived at κ2 in two steps, and reported at the depth of its citation. -/
theorem citation_depth_reported : ∃ n r, (proposition "b" "math" true).nodeId reference = .ok n ∧
    reachable reference n (CommitCall.run reference cited) .k2 [] none = .ok r ∧ r.established = true ∧
    ¬ Realised (derivations reference (CommitCall.run reference cited) none) .k2 n r.depth := by
  obtain ⟨n, hn, hu⟩ := cited_undercut
  obtain ⟨r, hr, hiff⟩ := reachable_derives reference n (CommitCall.run reference cited) .k2 [] none
  exact ⟨n, r, hn, hr, hiff.mpr hu.1, fun h => (realised_iff (fun d => reachable_depth_iff hr) hu.1).mp h hu⟩

end Example

end ArxDB.Proof
