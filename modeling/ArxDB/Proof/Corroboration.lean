import ArxDB.Proof.Depth

/-!
# The labels solve the κ algebra

`kappa.py` defines what a traversal is to compute: `parallel` joins a rule with
its premises, `corroborate` the derivations of a node. The κ loop computes the
least labels that solve these equations at every node (`fixpoint_solves`), so
they do not depend on the order in which the edges come.
-/

namespace ArxDB.Proof

open Impl Impl.Reachability Derivation Valuation

variable {edges : List DerivationEdge} {extraSeeds : List Hash} {kappa : Hash → Option Kappa}

/-! ## The algebra -/

theorem greatest_le_iff {j k : Kappa} {ks : List Kappa} : Kappa.greatest k ks ≤ j ↔ k ≤ j ∧ ∀ l ∈ ks, l ≤ j := by
  induction ks generalizing k with
  | nil => simp [Kappa.greatest]
  | cons l ks ih =>
    rw [Kappa.greatest, List.foldl_cons, ← Kappa.greatest, ih, List.forall_mem_cons, ← and_assoc]
    refine and_congr_left fun _ => ?_
    split
    · rename_i h
      exact ⟨fun hj => ⟨(Kappa.lt_def.mpr h).le.trans hj, hj⟩, And.right⟩
    · rename_i h
      exact ⟨fun hj => ⟨hj, (Kappa.le_def.mpr (not_lt.mp h)).trans hj⟩, And.left⟩

theorem greatest_mem (k : Kappa) (ks : List Kappa) : Kappa.greatest k ks ∈ k :: ks := by
  induction ks generalizing k with
  | nil => exact List.mem_singleton.mpr rfl
  | cons l ks ih =>
    rw [Kappa.greatest, List.foldl_cons, ← Kappa.greatest]
    split
    · exact List.mem_cons_of_mem _ (ih l)
    · have hmem := ih k
      rw [List.mem_cons] at hmem ⊢
      exact hmem.imp_right (List.mem_cons_of_mem _)

/-- `corroborate` answers the greatest, and fails where there is none. -/
theorem corroborate_iff {ks : List Kappa} {k : Kappa} :
    (Kappa.corroborate ks).toOption = some k ↔ IsGreatest {j | j ∈ ks} k := by
  cases ks with
  | nil =>
    refine iff_of_false (fun h => ?_) fun h => absurd h.1 List.not_mem_nil
    cases h
  | cons j ks =>
    have hgreatest : IsGreatest {i | i ∈ j :: ks} (Kappa.greatest j ks) := by
      refine ⟨greatest_mem j ks, fun i hi => ?_⟩
      have hall : ∀ l ∈ j :: ks, l ≤ Kappa.greatest j ks := List.forall_mem_cons.mpr (greatest_le_iff.mp le_rfl)
      exact hall i hi
    constructor
    · intro h
      exact Option.some.inj h ▸ hgreatest
    · intro h
      exact congrArg some (hgreatest.unique h)

/-! ## The equations -/

/-- A rule joined with its premises, once these have a κ. -/
def joined (kappa : Hash → Option Kappa) (e : Edge) : Option Kappa :=
  if e.premises.all fun p => (kappa p).isSome then (Kappa.parallel (e.kappa :: e.premises.filterMap kappa)).toOption
  else none

/-- What the edges that conclude the node give it; a hypothetical seed is an axiom. -/
def independent (edges : List DerivationEdge) (extraSeeds : List Hash) (kappa : Hash → Option Kappa) (n : Hash) :
    List Kappa :=
  ((edges.filter fun p => p.2.conclusion = n).filterMap fun p => joined kappa p.2) ++
    (extraSeeds.filter fun s => s = n).map fun _ => .kInf

/-- At every node the κ is what its derivations corroborate, and there is none where there are none. -/
def Solves (edges : List DerivationEdge) (extraSeeds : List Hash) (kappa : Hash → Option Kappa) : Prop :=
  ∀ n, kappa n = (Kappa.corroborate (independent edges extraSeeds kappa n)).toOption

theorem le_joined_iff {e : Edge} {j : Kappa} :
    (∃ k ∈ joined kappa e, j ≤ k) ↔ j ≤ e.kappa ∧ ∀ p ∈ e.premises, ∃ k ≥ j, kappa p = some k := by
  rw [joined]
  split
  · rename_i hall
    rw [← le_pathKappa_iff hall]
    exact ⟨fun ⟨k, hk, hj⟩ => Option.some.inj hk ▸ hj, fun hj => ⟨_, rfl, hj⟩⟩
  · rename_i hall
    refine iff_of_false (by simp) fun h => hall (List.all_eq_true.mpr fun p hp => ?_)
    obtain ⟨k, -, hk⟩ := h.2 p hp
    exact Option.isSome_iff_exists.mpr ⟨k, hk⟩

theorem mem_supports_iff {n : Hash} {j : Kappa} : j ∈ supports (system {p | p ∈ edges} extraSeeds) kappa n ↔
    ∃ k ∈ independent edges extraSeeds kappa n, j ≤ k := by
  constructor
  · intro h
    rcases h with hn | ⟨p, hp, hconcl, hj⟩
    · refine ⟨.kInf, List.mem_append_right _ (List.mem_map.mpr ⟨n, List.mem_filter.mpr ⟨hn, ?_⟩, rfl⟩), le_top⟩
      exact decide_eq_true rfl
    · obtain ⟨k, hk, hle⟩ := le_joined_iff.mpr hj
      refine ⟨k, List.mem_append_left _ (List.mem_filterMap.mpr ⟨p, List.mem_filter.mpr ⟨hp, ?_⟩, hk⟩), hle⟩
      exact decide_eq_true hconcl
  · intro h
    obtain ⟨k, hk, hle⟩ := h
    rcases List.mem_append.mp hk with hk | hk
    · obtain ⟨p, hp, hjoined⟩ := List.mem_filterMap.mp hk
      obtain ⟨hp, hconcl⟩ := List.mem_filter.mp hp
      exact .inr ⟨p, hp, of_decide_eq_true hconcl, le_joined_iff.mp ⟨k, hjoined, hle⟩⟩
    · obtain ⟨s, hs, -⟩ := List.mem_map.mp hk
      obtain ⟨hs, heq⟩ := List.mem_filter.mp hs
      exact .inl (of_decide_eq_true heq ▸ hs)

/-- What the derivations of a node corroborate is the greatest strength that the labels support. -/
theorem corroborate_independent {n : Hash} {k : Kappa} :
    (Kappa.corroborate (independent edges extraSeeds kappa n)).toOption = some k ↔
      IsGreatest (supports (system {p | p ∈ edges} extraSeeds) kappa n) k := by
  rw [corroborate_iff]
  constructor
  · intro h
    refine ⟨mem_supports_iff.mpr ⟨k, h.1, le_rfl⟩, fun j hj => ?_⟩
    obtain ⟨i, hi, hle⟩ := mem_supports_iff.mp hj
    exact hle.trans (h.2 hi)
  · intro h
    obtain ⟨i, hi, hle⟩ := mem_supports_iff.mp h.1
    have hik : i ≤ k := h.2 (mem_supports_iff.mpr ⟨i, hi, le_rfl⟩)
    refine ⟨le_antisymm hik hle ▸ hi, fun j hj => h.2 (mem_supports_iff.mpr ⟨j, hj, le_rfl⟩)⟩

theorem solves_iff : Solves edges extraSeeds kappa ↔
    ∀ n k, kappa n = some k ↔ IsGreatest (supports (system {p | p ∈ edges} extraSeeds) kappa n) k := by
  simp only [← corroborate_independent]
  constructor
  · intro h n k
    rw [← h n]
  · intro h n
    exact Option.ext fun k => h n k

/-- Labels that solve the equations have no less than they support. -/
theorem Solves.closed (h : Solves edges extraSeeds kappa) : Closed (system {p | p ∈ edges} extraSeeds) kappa := by
  rw [closed_iff]
  intro n j hj
  obtain ⟨i, hi, hle⟩ := mem_supports_iff.mp hj
  obtain ⟨k, hk⟩ : ∃ k, Kappa.corroborate (independent edges extraSeeds kappa n) = .ok k := by
    cases hks : independent edges extraSeeds kappa n with
    | nil => exact absurd (hks ▸ hi) List.not_mem_nil
    | cons k ks => exact ⟨_, rfl⟩
  have hsome := toOption_eq_some.mpr hk
  exact ⟨k, hle.trans ((corroborate_iff.mp hsome).2 hi), (h n).trans hsome⟩

theorem fixpoint_solution : Solves edges extraSeeds (fixpoint edges extraSeeds).kappa := by
  rw [fixpoint_kappa, solves_iff]
  intro n k
  constructor
  · exact isGreatest_supports raised_sound raised_closed
  · intro h
    obtain ⟨k', -, hk'⟩ := closed_iff.mp raised_closed n k h.1
    rw [hk', h.unique (isGreatest_supports raised_sound raised_closed hk')]

/-- The labels of the κ loop solve the equations of the algebra, and are the
least that do; neither they nor the depths depend on the order in which edges
and seeds come, or on how often. -/
theorem fixpoint_solves (edges : List DerivationEdge) (extraSeeds : List Hash) :
    Solves edges extraSeeds (fixpoint edges extraSeeds).kappa ∧
    (∀ kappa, Solves edges extraSeeds kappa → Rises (fixpoint edges extraSeeds).kappa kappa) ∧
    ∀ edges' extraSeeds', (∀ p, p ∈ edges' ↔ p ∈ edges) → (∀ s, s ∈ extraSeeds' ↔ s ∈ extraSeeds) →
      (fixpoint edges' extraSeeds').kappa = (fixpoint edges extraSeeds).kappa ∧
      (fixpoint edges' extraSeeds').depth = (fixpoint edges extraSeeds).depth := by
  refine ⟨fixpoint_solution, fun kappa h => fixpoint_kappa ▸ raised_sound.rises h.closed, ?_⟩
  intro edges' extraSeeds' hedges hseeds
  have hsystem : system {p | p ∈ edges'} extraSeeds' = system {p | p ∈ edges} extraSeeds := by
    simp only [system, hedges, hseeds]
  constructor
  · rw [fixpoint_kappa, fixpoint_kappa]
    exact (raised_sound.rises (hsystem ▸ raised_closed)).antisymm (raised_sound.rises (hsystem.symm ▸ raised_closed))
  · funext n
    refine Option.ext fun d => ?_
    rw [fixpoint_depth_iff, fixpoint_depth_iff, hsystem]

end ArxDB.Proof
