import ArxDB.Framework.Derivation
import ArxDB.Impl.Reachability

/-!
# Reachability is exact

The κ loop keeps the valuation sound (`kappaStep_sound`), as every value it
writes is the strength of a derivation, and where it stops the valuation is
closed (`raised_closed`). So a node has a κ exactly when it has a finite
derivation, and then the greatest strength of one, and `reachable` answers
whether a derivation has no edge below the threshold (`reachability_exact`).
-/

namespace ArxDB.Proof

open Impl Impl.Reachability Derivation Valuation Saturate

/-- Derivations by these edges, from these hypothetical seeds. -/
def system (edges : Set DerivationEdge) (extraSeeds : List Hash) : System Hash DerivationEdge Kappa where
  premises p := p.2.premises
  conclusion p := p.2.conclusion
  weight p := p.2.kappa
  edges := edges
  seeds := {s | s ∈ extraSeeds}

/-! ## Seeds -/

section Seed

variable {Y : System Hash DerivationEdge Kappa} {l : Labels} {node : Hash} {k : Kappa} {edge : Option Hash}

theorem le_of_all_rank_lt {o : Option Kappa} (h : o.all (·.rank < k.rank) = true) : ∀ k', o = some k' → k' ≤ k := by
  rintro k' rfl
  rw [Option.all_some, decide_eq_true_eq] at h
  exact (Kappa.lt_def.mpr h).le

theorem seed_sound (h : Sound Y l.kappa) (ht : ∃ t : Tree Y node, t.strength = k) :
    Sound Y (seed node k edge l).kappa := by
  simp only [seed]
  split
  · exact h.update ht
  · exact h

theorem seed_rises : Rises l.kappa (seed node k edge l).kappa := by
  simp only [seed]
  split
  · rename_i h
    exact .update (le_of_all_rank_lt h)
  · exact .refl _

theorem seed_kappa : ∃ k' ≥ k, (seed node k edge l).kappa node = some k' := by
  simp only [seed]
  split
  · exact ⟨k, le_rfl, Function.update_self ..⟩
  · rename_i h
    cases hk : l.kappa node with
    | none => simp [hk] at h
    | some k' =>
      rw [hk, Option.all_some, decide_eq_true_eq, not_lt] at h
      exact ⟨k', h, rfl⟩

theorem seed_depth_self : ((seed node k edge l).depth node).isSome = true := by
  simp [seed]

theorem seed_depth {n : Hash} (h : (l.depth n).isSome = true) : ((seed node k edge l).depth n).isSome = true := by
  simp only [seed]
  by_cases hn : n = node
  · rw [hn, Function.update_self]
    rfl
  · rwa [Function.update_of_ne hn]

end Seed

/-- What each item of a fold establishes, and the others keep, holds of all of them at the end. -/
theorem forall_foldl {α β : Type} {op : β → α → β} {Q : α → β → Prop} {l : List α}
    (est : ∀ a ∈ l, ∀ b, Q a (op b a)) (keep : ∀ a b c, Q a b → Q a (op b c)) (b : β) :
    ∀ a ∈ l, Q a (l.foldl op b) := by
  induction l generalizing b with
  | nil => simp
  | cons c l ih =>
    rw [List.forall_mem_cons] at est ⊢
    refine ⟨?_, ih est.2 _⟩
    exact List.foldlRecOn l op (est.1 b) fun b h a _ => keep c b a h

variable {edges : List DerivationEdge} {extraSeeds : List Hash}

/-- The node has at least this κ, and a depth. -/
def Placed (n : Hash) (k : Kappa) (l : Labels) : Prop :=
  (∃ k' ≥ k, l.kappa n = some k') ∧ (l.depth n).isSome = true

theorem placed_seed {l : Labels} {node : Hash} {k : Kappa} {edge : Option Hash} : Placed node k (seed node k edge l) :=
  ⟨seed_kappa, seed_depth_self⟩

theorem Placed.seed {n : Hash} {j : Kappa} {l : Labels} (h : Placed n j l) {node : Hash} {k : Kappa}
    {edge : Option Hash} : Placed n j (Reachability.seed node k edge l) := by
  obtain ⟨⟨k', hle, hk⟩, hd⟩ := h
  have hrises : Rises l.kappa (Reachability.seed node k edge l).kappa := seed_rises
  obtain ⟨k'', hle', hk'⟩ := hrises n k' hk
  exact ⟨⟨k'', hle.trans hle', hk'⟩, seed_depth hd⟩

theorem Placed.seedEdge {n : Hash} {j : Kappa} {l : Labels} (h : Placed n j l) (p : DerivationEdge) :
    Placed n j (seedEdge l p) := by
  unfold Reachability.seedEdge
  split
  exacts [h.seed, h]

theorem seeded_edge {p : DerivationEdge} (hp : p ∈ edges) (hnil : p.2.premises = []) :
    Placed p.2.conclusion p.2.kappa (seeded edges extraSeeds) := by
  have hedges : ∀ p ∈ edges, p.2.premises = [] → Placed p.2.conclusion p.2.kappa (edges.foldl seedEdge .empty) := by
    refine forall_foldl (Q := fun (p : DerivationEdge) l => p.2.premises = [] → Placed p.2.conclusion p.2.kappa l)
      (fun p _ l hnil => ?_) (fun p l q h hnil => (h hnil).seedEdge q) Labels.empty
    rw [seedEdge, if_pos hnil]
    exact placed_seed
  exact List.foldlRecOn extraSeeds seedExtra (hedges p hp hnil) fun l h _ _ => h.seed

theorem seeded_seed {n : Hash} (hn : n ∈ extraSeeds) : Placed n ⊤ (seeded edges extraSeeds) :=
  forall_foldl (Q := fun n l => Placed n ⊤ l) (fun _ _ l => placed_seed (l := l)) (fun _ _ _ h => h.seed) _ n hn

theorem seeded_sound : Sound (system {p | p ∈ edges} extraSeeds) (seeded edges extraSeeds).kappa := by
  have hedges : Sound (system {p | p ∈ edges} extraSeeds) (edges.foldl seedEdge .empty).kappa := by
    refine List.foldlRecOn (motive := fun l => Sound (system {p | p ∈ edges} extraSeeds) l.kappa) edges seedEdge
      (show Sound _ Labels.empty.kappa from .empty) fun l h p hp => ?_
    unfold seedEdge
    split
    · rename_i hnil
      exact seed_sound h (h.step hp fun j => by simp [system, hnil])
    · exact h
  exact List.foldlRecOn (motive := fun l => Sound (system {p | p ∈ edges} extraSeeds) l.kappa) extraSeeds seedExtra
    hedges fun l h n hn => seed_sound h ⟨.seed hn, rfl⟩

/-! ## The κ loop -/

/-- The κ of a path through an edge whose premises have one each. -/
theorem le_pathKappa_iff {e : Edge} {kappa : Hash → Option Kappa}
    (h : e.premises.all (fun p => (kappa p).isSome) = true) {j : Kappa} :
    j ≤ Kappa.least e.kappa (e.premises.filterMap kappa) ↔
      j ≤ e.kappa ∧ ∀ p ∈ e.premises, ∃ k ≥ j, kappa p = some k := by
  rw [Kappa.le_least_iff]
  refine and_congr_right fun _ => ⟨fun hj p hp => ?_, fun hj k hk => ?_⟩
  · obtain ⟨k, hk⟩ := Option.isSome_iff_exists.mp (List.all_eq_true.mp h p hp)
    exact ⟨k, hj k (List.mem_filterMap.mpr ⟨p, hp, hk⟩), hk⟩
  · obtain ⟨p, hp, hk⟩ := List.mem_filterMap.mp hk
    obtain ⟨k', hle, hk'⟩ := hj p hp
    rw [hk, Option.some.injEq] at hk'
    exact hk' ▸ hle

theorem kappaStep_sound {p : DerivationEdge} (hp : p ∈ edges) {l l' : Labels}
    (h : Sound (system {p | p ∈ edges} extraSeeds) l.kappa) (hs : kappaStep p l = some l') :
    Sound (system {p | p ∈ edges} extraSeeds) l'.kappa := by
  obtain ⟨-, hall, -, rfl⟩ := kappaStep_eq_some hs
  exact h.update (h.step hp fun j => le_pathKappa_iff hall)

theorem kappaStep_rises {p : DerivationEdge} {l l' : Labels} (hs : kappaStep p l = some l') :
    Rises l.kappa l'.kappa := by
  obtain ⟨-, -, hk, rfl⟩ := kappaStep_eq_some hs
  exact .update (le_of_all_rank_lt hk)

theorem kappaStep_depth {p : DerivationEdge} {l l' : Labels} (hs : kappaStep p l = some l') : l'.depth = l.depth := by
  obtain ⟨-, -, -, rfl⟩ := kappaStep_eq_some hs
  rfl

/-- An edge that changes nothing gives its conclusion no more than it has. -/
theorem le_of_kappaStep_none {p : DerivationEdge} {l : Labels} (hs : kappaStep p l = none)
    (hne : p.2.premises ≠ []) {j : Kappa} (hj : j ≤ p.2.kappa)
    (hp : ∀ q ∈ p.2.premises, ∃ k ≥ j, l.kappa q = some k) : ∃ k ≥ j, l.kappa p.2.conclusion = some k := by
  obtain ⟨_, e⟩ := p
  have hall : e.premises.all (fun q => (l.kappa q).isSome) = true := by
    rw [List.all_eq_true]
    intro q hq
    obtain ⟨k, -, hk⟩ := hp q hq
    rw [hk]
    rfl
  have hpath := (le_pathKappa_iff hall).mpr ⟨hj, hp⟩
  simp only [kappaStep, if_neg hne, if_pos hall] at hs
  split_ifs at hs with hk
  cases hc : l.kappa e.conclusion with
  | none => simp [hc] at hk
  | some k =>
    rw [hc, Option.all_some, decide_eq_true_eq, not_lt] at hk
    exact ⟨k, hpath.trans (Kappa.le_def.mpr hk), rfl⟩

/-- The labels where the κ loop stops. -/
def raised (edges : List DerivationEdge) (extraSeeds : List Hash) : Labels :=
  saturate kappaStep edges (fun l => total slack (conclusions edges) l.kappa) kappaStep_lt (seeded edges extraSeeds)

theorem raised_sound : Sound (system {p | p ∈ edges} extraSeeds) (raised edges extraSeeds).kappa :=
  saturate_inv (I := fun l => Sound _ l.kappa) _ (fun _ hp _ _ h hs => kappaStep_sound hp h hs) seeded_sound

theorem raised_rises : Rises (seeded edges extraSeeds).kappa (raised edges extraSeeds).kappa :=
  saturate_inv (I := fun l => Rises _ l.kappa) _ (fun _ _ _ _ h hs => h.trans (kappaStep_rises hs)) (.refl _)

theorem raised_depth : (raised edges extraSeeds).depth = (seeded edges extraSeeds).depth :=
  saturate_inv (I := fun l => l.depth = (seeded edges extraSeeds).depth) _
    (fun _ _ _ _ h hs => (kappaStep_depth hs).trans h) rfl

theorem Placed.raised {n : Hash} {k : Kappa} (h : Placed n k (seeded edges extraSeeds)) :
    Placed n k (raised edges extraSeeds) := by
  obtain ⟨⟨k', hle, hk⟩, hd⟩ := h
  obtain ⟨k'', hle', hk'⟩ := raised_rises n k' hk
  exact ⟨⟨k'', hle.trans hle', hk'⟩, by rwa [raised_depth]⟩

theorem raised_closed : Closed (system {p | p ∈ edges} extraSeeds) (raised edges extraSeeds).kappa where
  seed n hn := by
    obtain ⟨⟨k, hk, he⟩, -⟩ := (seeded_seed hn : Placed n ⊤ (seeded edges extraSeeds)).raised
    rw [he, top_le_iff.mp hk]
  step p hp j hj hprem := by
    by_cases hnil : p.2.premises = []
    · obtain ⟨⟨k, hk, he⟩, -⟩ := (seeded_edge hp hnil : Placed _ _ (seeded edges extraSeeds)).raised
      exact ⟨k, hj.trans hk, he⟩
    · exact le_of_kappaStep_none (saturate_done _ _ p hp) hnil hj hprem

/-! ## The depth loop -/

theorem depthStep_kappa {p : DerivationEdge} {l l' : Labels} (hs : depthStep p l = some l') : l'.kappa = l.kappa := by
  obtain ⟨-, -, -, rfl⟩ := depthStep_eq_some hs
  rfl

theorem depthStep_depth {p : DerivationEdge} {l l' : Labels} (hs : depthStep p l = some l') {n : Hash}
    (h : (l.depth n).isSome = true) : (l'.depth n).isSome = true := by
  obtain ⟨-, -, -, rfl⟩ := depthStep_eq_some hs
  dsimp only
  by_cases hn : n = p.2.conclusion
  · simp [hn]
  · rwa [Function.update_of_ne hn]

theorem isSome_of_depthStep_none {p : DerivationEdge} {l : Labels} (hs : depthStep p l = none)
    (hne : p.2.premises ≠ []) (hk : (l.kappa p.2.conclusion).isSome = true)
    (hp : ∀ q ∈ p.2.premises, (l.depth q).isSome = true) : (l.depth p.2.conclusion).isSome = true := by
  obtain ⟨_, e⟩ := p
  have hk' : ¬ (l.kappa e.conclusion).isNone = true := by
    rw [Option.isNone_iff_eq_none, ← ne_eq, Option.ne_none_iff_isSome]
    exact hk
  simp only [depthStep, if_neg hne, if_neg hk', if_pos (List.all_eq_true.mpr hp)] at hs
  split_ifs at hs with hd
  cases hc : l.depth e.conclusion with
  | none => simp [hc] at hd
  | some d => rfl

/-- What the depth loop keeps. -/
theorem fixpoint_inv {I : Labels → Prop} (hI : ∀ p ∈ edges, ∀ {l l'}, I l → depthStep p l = some l' → I l')
    (h : I (raised edges extraSeeds)) : I (fixpoint edges extraSeeds) :=
  saturate_inv (fun p hp l l' hs => depthStep_lt p hp l l' hs) hI h

theorem fixpoint_kappa : (fixpoint edges extraSeeds).kappa = (raised edges extraSeeds).kappa :=
  fixpoint_inv (I := fun l => l.kappa = (raised edges extraSeeds).kappa)
    (fun _ _ _ _ h hs => (depthStep_kappa hs).trans h) rfl

theorem fixpoint_depth_of_raised {n : Hash} (h : ((raised edges extraSeeds).depth n).isSome = true) :
    ((fixpoint edges extraSeeds).depth n).isSome = true :=
  fixpoint_inv (I := fun l => (l.depth n).isSome = true) (fun _ _ _ _ h hs => depthStep_depth hs h) h

/-- A node that has a derivation has a depth. -/
theorem fixpoint_depth {n : Hash} (t : Tree (system {p | p ∈ edges} extraSeeds) n) :
    ((fixpoint edges extraSeeds).depth n).isSome = true := by
  induction t with
  | seed hn => exact fixpoint_depth_of_raised (seeded_seed hn).raised.2
  | step p hp sub ih =>
    by_cases hnil : p.2.premises = []
    · exact fixpoint_depth_of_raised (seeded_edge hp hnil).raised.2
    · refine isSome_of_depthStep_none (saturate_done _ _ p hp) hnil ?_ fun q hq => ?_
      · obtain ⟨k, -, hk⟩ := raised_closed.le (.step p hp sub)
        exact Option.isSome_iff_exists.mpr ⟨k, fixpoint_kappa ▸ hk⟩
      · obtain ⟨i, rfl⟩ := List.mem_iff_get.mp hq
        exact ih i

/-! ## The queries -/

/-- The edges that count: stored, active, accepted, and no refutations. -/
def usable (P : Prims) (storage : Storage) (activeEdges : Option (Finset Hash)) : Set DerivationEdge :=
  {p | p.1 ∈ storage.graph.allEdges ∧ (∀ active, activeEdges = some active → p.1 ∈ active) ∧
    resolveEdge P p.1 storage = some p.2 ∧ p.2.type ≠ .refutation ∧
    (p.2.verdict = .pass ∨ p.2.verdict = .softFlag)}

/-- What the query makes of an indexed hash that is resolved so. -/
def derivationEdge? (activeEdges : Option (Finset Hash)) (h : Hash) (resolved : Option Edge) : Option DerivationEdge :=
  if activeEdges.any (h ∉ ·) then none
  else match resolved with
    | none => none
    | some e =>
      if e.type = .refutation then none
      else if e.verdict ∉ [.pass, .softFlag] then none
      else some (h, e)

theorem derivationEdges_eq (P : Prims) (storage : Storage) (activeEdges : Option (Finset Hash)) :
    derivationEdges P storage activeEdges =
      storage.graph.allEdges.filterMap fun h => derivationEdge? activeEdges h (resolveEdge P h storage) := rfl

theorem derivationEdge?_eq_some {activeEdges : Option (Finset Hash)} {h : Hash} {resolved : Option Edge}
    {p : DerivationEdge} : derivationEdge? activeEdges h resolved = some p ↔
      h = p.1 ∧ (∀ active, activeEdges = some active → p.1 ∈ active) ∧ resolved = some p.2 ∧ p.2.type ≠ .refutation ∧
        (p.2.verdict = .pass ∨ p.2.verdict = .softFlag) := by
  obtain ⟨h', e⟩ := p
  unfold derivationEdge?
  constructor
  · intro hf
    split_ifs at hf with hactive
    split at hf
    · cases hf
    split_ifs at hf with htype hverdict
    cases hf
    refine ⟨rfl, ?_, rfl, htype, by simpa using hverdict⟩
    rintro active rfl
    simpa using hactive
  · rintro ⟨rfl, hactive, rfl, htype, hverdict⟩
    have hnot : ¬ activeEdges.any (fun active => decide (h ∉ active)) = true := by
      cases activeEdges with
      | none => exact Bool.false_ne_true
      | some active => simpa using hactive active rfl
    have hv : ¬ e.verdict ∉ [Verdict.pass, Verdict.softFlag] := by
      simpa [or_iff_not_imp_left] using hverdict
    rw [if_neg hnot]
    simp only [if_neg htype, if_neg hv]

theorem mem_derivationEdges {P : Prims} {storage : Storage} {activeEdges : Option (Finset Hash)} {p : DerivationEdge} :
    p ∈ derivationEdges P storage activeEdges ↔ p ∈ usable P storage activeEdges := by
  simp only [derivationEdges_eq, List.mem_filterMap, derivationEdge?_eq_some, usable, Set.mem_ofPred_eq]
  constructor
  · intro h
    obtain ⟨_, hindexed, rfl, hcounts⟩ := h
    exact ⟨hindexed, hcounts⟩
  · exact fun h => ⟨p.1, h.1, rfl, h.2⟩

theorem usable_eq {P : Prims} {storage : Storage} {activeEdges : Option (Finset Hash)} :
    usable P storage activeEdges = {p | p ∈ derivationEdges P storage activeEdges} :=
  Set.ext fun _ => mem_derivationEdges.symm

theorem fixpoint_derives {edges : List DerivationEdge} {extraSeeds : List Hash} {target : Hash} {minKappa : Kappa} :
    (∃ k ≥ minKappa, (fixpoint edges extraSeeds).kappa target = some k) ↔
      Derives (system {p | p ∈ edges} extraSeeds) minKappa target := by
  rw [fixpoint_kappa]
  exact exists_le_iff raised_sound raised_closed target minKappa

/-- What has a κ has a depth. -/
theorem fixpoint_depth_of_kappa {edges : List DerivationEdge} {extraSeeds : List Hash} {target : Hash} {k : Kappa}
    (hk : (fixpoint edges extraSeeds).kappa target = some k) :
    ∃ d, (fixpoint edges extraSeeds).depth target = some d := by
  obtain ⟨t, -⟩ := raised_sound target k (fixpoint_kappa ▸ hk)
  exact Option.isSome_iff_exists.mp (fixpoint_depth t)

/-- `reachable` always answers, by whether some derivation has no edge below the threshold. -/
theorem reachable_derives (P : Prims) (target : Hash) (storage : Storage) (minKappa : Kappa) (extraSeeds : List Hash)
    (activeEdges : Option (Finset Hash)) :
    ∃ r, reachable P target storage minKappa extraSeeds activeEdges = .ok r ∧
      (r.established = true ↔ Derives (system (usable P storage activeEdges) extraSeeds) minKappa target) := by
  rw [usable_eq, ← fixpoint_derives]
  simp only [reachable]
  cases hk : (fixpoint (derivationEdges P storage activeEdges) extraSeeds).kappa target with
  | none => exact ⟨_, rfl, by simp⟩
  | some k =>
    obtain ⟨d, hd⟩ := fixpoint_depth_of_kappa hk
    simp only [hd]
    exact ⟨_, rfl, by simp [Kappa.le_def]⟩

/-- The κ of a node is the greatest strength of a derivation of it, if there
is any, and `reachable` always answers, by whether there is one without an
edge below the threshold. -/
theorem reachability_exact :
    (∀ (edges : List DerivationEdge) (extraSeeds : List Hash) (n : Hash),
      ((∃ k, (fixpoint edges extraSeeds).kappa n = some k) ↔ Nonempty (Tree (system {p | p ∈ edges} extraSeeds) n)) ∧
      ∀ k, (fixpoint edges extraSeeds).kappa n = some k →
        IsGreatest (Set.range fun t : Tree (system {p | p ∈ edges} extraSeeds) n => t.strength) k) ∧
    ∀ (P : Prims) (target : Hash) (storage : Storage) (minKappa : Kappa) (extraSeeds : List Hash)
      (activeEdges : Option (Finset Hash)),
      ∃ r, reachable P target storage minKappa extraSeeds activeEdges = .ok r ∧
        (r.established = true ↔ ∃ t : Tree (system (usable P storage activeEdges) extraSeeds) target,
          ∀ p, t.Uses p → minKappa ≤ p.2.kappa) := by
  constructor
  · intro edges extraSeeds n
    rw [fixpoint_kappa]
    exact ⟨isSome_iff raised_sound raised_closed n, fun k hk => isGreatest raised_sound raised_closed hk⟩
  · exact reachable_derives

end ArxDB.Proof
