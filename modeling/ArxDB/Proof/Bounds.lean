import ArxDB.Proof.Depth

/-!
# How long the two loops run

Every assignment of the κ loop takes from the slack of a node, of which the
nodes mentioned have at most five each (`counted_le`). A sweep of the depth
loop settles one level more (`Levelled.sweep`): the nodes whose final depth is
`i` have it after `i` sweeps, as the edge that gives it has its premises lower.
No level is left out below a depth (`Settled.lt_card`), so there are no more
levels than nodes, and one sweep more finds nothing to change.
-/

namespace ArxDB.Proof

open Impl Impl.Reachability Derivation Valuation Saturate

variable {edges : List DerivationEdge} {extraSeeds : List Hash}

/-- The nodes in the edges and the seeds, as often as they occur. -/
def occurrences (edges : List DerivationEdge) (extraSeeds : List Hash) : List Hash :=
  (edges.flatMap fun p => p.2.conclusion :: p.2.premises) ++ extraSeeds

/-- The nodes that the edges and the seeds mention. -/
def mentioned (edges : List DerivationEdge) (extraSeeds : List Hash) : Finset Hash :=
  (occurrences edges extraSeeds).toFinset

theorem mem_mentioned {n : Hash} : n ∈ mentioned edges extraSeeds ↔
    (∃ p ∈ edges, n = p.2.conclusion ∨ n ∈ p.2.premises) ∨ n ∈ extraSeeds := by
  simp only [mentioned, occurrences, List.mem_toFinset, List.mem_append, List.mem_flatMap, List.mem_cons]

theorem conclusion_mem_mentioned {p : DerivationEdge} (hp : p ∈ edges) : p.2.conclusion ∈ mentioned edges extraSeeds :=
  mem_mentioned.mpr (.inl ⟨p, hp, .inl rfl⟩)

/-! ## The κ loop -/

theorem slack_le (k : Option Kappa) : slack k ≤ 5 := by
  rcases k with _ | k
  · exact le_rfl
  · cases k <;> decide

/-- The slack of the nodes mentioned. -/
def slackOf (edges : List DerivationEdge) (extraSeeds : List Hash) (l : Labels) : Nat :=
  total slack (occurrences edges extraSeeds).dedup l.kappa

theorem slackOf_le (l : Labels) : slackOf edges extraSeeds l ≤ 5 * (mentioned edges extraSeeds).card := by
  have hle := List.sum_le_card_nsmul ((occurrences edges extraSeeds).dedup.map fun m => slack (l.kappa m)) 5
    fun x hx => by
      obtain ⟨m, -, rfl⟩ := List.mem_map.mp hx
      exact slack_le _
  rw [List.length_map, ← List.card_toFinset, smul_eq_mul, Nat.mul_comm] at hle
  exact hle

/-- An assignment takes from the slack. -/
theorem kappaStep_slackOf {p : DerivationEdge} (hp : p ∈ edges) {l l' : Labels} (hs : kappaStep p l = some l') :
    slackOf edges extraSeeds l' < slackOf edges extraSeeds l := by
  obtain ⟨-, -, hk, rfl⟩ := kappaStep_eq_some hs
  have hmem : p.2.conclusion ∈ (occurrences edges extraSeeds).dedup :=
    List.mem_dedup.mpr (List.mem_toFinset.mp (conclusion_mem_mentioned hp))
  exact total_update_lt hmem (slack_lt hk)

/-- What was counted, and what can still be. -/
theorem counted_le {n : Nat} {l : Labels} {c : Nat}
    (h : loop (counted kappaStep) edges n (seeded edges extraSeeds, 0) = some (l, c)) :
    c ≤ 5 * (mentioned edges extraSeeds).card := by
  have hinv := loop_inv
    (I := fun s : Labels × Nat => s.2 + slackOf edges extraSeeds s.1 ≤ 5 * (mentioned edges extraSeeds).card)
    (fun p hp s s' h hs => by
      obtain ⟨l', hl', rfl⟩ := Option.map_eq_some_iff.mp hs
      have hlt : slackOf edges extraSeeds l' < slackOf edges extraSeeds s.1 := kappaStep_slackOf hp hl'
      dsimp only
      omega)
    (show 0 + slackOf edges extraSeeds (seeded edges extraSeeds) ≤ _ from (Nat.zero_add _).symm ▸ slackOf_le _) h
  dsimp only at hinv
  omega

/-- The κ loop ends, with the labels that `raised` has. -/
theorem exists_kappa_loop (edges : List DerivationEdge) (extraSeeds : List Hash) :
    ∃ n l c, loop (counted kappaStep) edges n (seeded edges extraSeeds, 0) = some (l, c) ∧
    l = raised edges extraSeeds ∧ c ≤ 5 * (mentioned edges extraSeeds).card := by
  obtain ⟨n, hn⟩ : ∃ n, loop kappaStep edges n (seeded edges extraSeeds) = some (raised edges extraSeeds) :=
    exists_loop kappaStep_lt (seeded edges extraSeeds)
  have hmap : (loop (counted kappaStep) edges n (seeded edges extraSeeds, 0)).map Prod.fst = _ :=
    (map_loop_counted n _).trans hn
  rw [Option.map_eq_some_iff] at hmap
  obtain ⟨⟨l, c⟩, hloop, hl⟩ := hmap
  exact ⟨n, l, c, hloop, hl, counted_le hloop⟩

/-! ## The depth loop -/

/-- A change lowers a depth or gives one, so a depth that is there does not grow. -/
theorem depthStep_le {p : DerivationEdge} {l l' : Labels} (hs : depthStep p l = some l') {n : Hash} {k : Nat}
    (h : l.depth n = some k) : ∃ k' ≤ k, l'.depth n = some k' := by
  obtain ⟨-, -, hd, rfl⟩ := depthStep_eq_some hs
  dsimp only
  by_cases hn : n = p.2.conclusion
  · subst hn
    rw [h, Option.all_some, decide_eq_true_eq] at hd
    exact ⟨_, hd.le, Function.update_self ..⟩
  · exact ⟨k, le_rfl, by rw [Function.update_of_ne hn, h]⟩

/-- An edge that changes something gives its conclusion one more than its premises have. -/
theorem le_of_depthStep_some {p : DerivationEdge} {l l' : Labels} (hs : depthStep p l = some l') {j : Nat}
    (hp : ∀ q ∈ p.2.premises, ∃ k ≤ j, l.depth q = some k) : ∃ k ≤ 1 + j, l'.depth p.2.conclusion = some k := by
  obtain ⟨-, hall, -, rfl⟩ := depthStep_eq_some hs
  exact ⟨_, Nat.add_le_add_left ((premiseDepth_le_iff hall).mpr hp) 1, Function.update_self ..⟩

/-- A change is one of the depth of the conclusion, which was higher or missing. -/
theorem depthStep_changes {p : DerivationEdge} {l l' : Labels} (hs : depthStep p l = some l') :
    l'.depth p.2.conclusion ≠ l.depth p.2.conclusion := by
  obtain ⟨-, -, hd, rfl⟩ := depthStep_eq_some hs
  dsimp only
  rw [Function.update_self]
  intro heq
  rw [← heq, Option.all_some, decide_eq_true_eq] at hd
  exact lt_irrefl _ hd

/-- Where the loop is: depths of derivations, and the nodes up to the level `i` have their final ones. -/
structure Levelled (edges : List DerivationEdge) (extraSeeds : List Hash) (i : Nat) (l : Labels) : Prop where
  kappa : l.kappa = (fixpoint edges extraSeeds).kappa
  attained : Attained (system {p | p ∈ edges} extraSeeds) l.depth
  final {n : Hash} {j : Nat} : j ≤ i → (fixpoint edges extraSeeds).depth n = some j → l.depth n = some j

/-- No depth is below the final one. -/
theorem fixpoint_le {d : Valuation Hash ℕ} (h : Attained (system {p | p ∈ edges} extraSeeds) d) {n : Hash} {k : Nat}
    (hk : d n = some k) : ∃ j ≤ k, (fixpoint edges extraSeeds).depth n = some j := by
  obtain ⟨t, rfl⟩ := h n k hk
  exact fixpoint_settled.le t

theorem Levelled.step {i : Nat} {l l' : Labels} (h : Levelled edges extraSeeds i l) {p : DerivationEdge}
    (hp : p ∈ edges)
    (hs : depthStep p l = some l') : Levelled edges extraSeeds i l' where
  kappa := (depthStep_kappa hs).trans h.kappa
  attained := depthStep_attained hp h.attained hs
  final {n j} hj hn := by
    obtain ⟨k, hk, hl'⟩ := depthStep_le hs (h.final hj hn)
    obtain ⟨j', hj', hn'⟩ := fixpoint_le (depthStep_attained hp h.attained hs) hl'
    rw [hn, Option.some.injEq] at hn'
    rw [hl', Option.some.injEq]
    omega

theorem levelled_raised : Levelled edges extraSeeds 0 (raised edges extraSeeds) where
  kappa := fixpoint_kappa.symm
  attained := by
    rw [raised_depth]
    exact seeded_attained
  final {n j} hj hn := by
    obtain rfl := Nat.le_zero.mp hj
    obtain ⟨t, ht⟩ := fixpoint_attained n 0 hn
    rw [raised_depth]
    obtain hs | ⟨p, hp, hnil, rfl, -⟩ := Tree.source_of_height_eq_zero ht
    · exact seeded_seed_zero hs
    · exact seeded_edge_zero hp hnil

/-- A sweep settles one level more. -/
theorem Levelled.sweep {i : Nat} {l : Labels} (h : Levelled edges extraSeeds i l) :
    Levelled edges extraSeeds (i + 1) (sweep depthStep edges l).1 := by
  have hkept : Levelled edges extraSeeds i (Saturate.sweep depthStep edges l).1 :=
    sweep_inv (fun p hp _ _ h hs => h.step hp hs) h
  -- after its turn, an edge from the levels up to `i` has given its conclusion the next
  have hturn := sweep_establishes (I := Levelled edges extraSeeds i)
    (Q := fun p l => p.2.premises ≠ [] →
      (∀ q ∈ p.2.premises, ∃ k ≤ i, (fixpoint edges extraSeeds).depth q = some k) →
      ∃ k ≤ 1 + i, l.depth p.2.conclusion = some k)
    (fun p hp _ _ h hs => h.step hp hs)
    (fun p hp l h hs hne hprem => by
      refine le_of_depthStep_none hs hne ?_ fun q hq => ?_
      · rw [h.kappa]
        obtain ⟨k, -, hk⟩ := fixpoint_settled.step p hp hne i hprem
        exact depth_isSome_iff.mp (Option.isSome_iff_exists.mpr ⟨k, hk⟩)
      · obtain ⟨k, hk, hq⟩ := hprem q hq
        exact ⟨k, hk, h.final hk hq⟩)
    (fun p hp l l' h hs hne hprem => by
      refine le_of_depthStep_some hs fun q hq => ?_
      obtain ⟨k, hk, hq⟩ := hprem q hq
      exact ⟨k, hk, h.final hk hq⟩)
    (fun p hp q hq l l' h hQ hs hne hprem => by
      obtain ⟨k, hk, hl⟩ := hQ hne hprem
      obtain ⟨k', hk', hl'⟩ := depthStep_le hs hl
      exact ⟨k', hk'.trans hk, hl'⟩) h
  refine ⟨hkept.kappa, hkept.attained, fun {n j} hj hn => ?_⟩
  obtain hj | rfl := Nat.le_succ_iff.mp hj
  · exact hkept.final hj hn
  · obtain ⟨p, hp, rfl, hne, hprem, -⟩ := fixpoint_settled.exists_edge fixpoint_attained hn
    obtain ⟨k, hk, hl⟩ := hturn p hp hne hprem
    obtain ⟨j, hj, hn'⟩ := fixpoint_le hkept.attained hl
    change (fixpoint edges extraSeeds).depth p.2.conclusion = some (i + 1) at hn
    rw [hn, Option.some.injEq] at hn'
    rw [show (system {p | p ∈ edges} extraSeeds).conclusion p = p.2.conclusion from rfl, hl, Option.some.injEq]
    omega

theorem depth_lt_card {n : Hash} {k : Nat} (h : (fixpoint edges extraSeeds).depth n = some k) :
    k < (mentioned edges extraSeeds).card := by
  have hn : n ∈ mentioned edges extraSeeds := by
    obtain ⟨t, -⟩ := fixpoint_attained n k h
    cases t with
    | seed hn => exact mem_mentioned.mpr (.inr hn)
    | step p hp _ => exact conclusion_mem_mentioned hp
  have hprem : ∀ p ∈ edges, ∀ q ∈ p.2.premises, q ∈ mentioned edges extraSeeds :=
    fun p hp q hq => mem_mentioned.mpr (.inl ⟨p, hp, .inr hq⟩)
  exact fixpoint_settled.lt_card fixpoint_attained hprem hn h

/-- Where all levels are settled, no edge changes anything. -/
theorem Levelled.sweep_false {l : Labels} (h : Levelled edges extraSeeds (mentioned edges extraSeeds).card l) :
    (Saturate.sweep depthStep edges l).2 = false := by
  have eq_fixpoint : ∀ {l}, Levelled edges extraSeeds (mentioned edges extraSeeds).card l →
      l.depth = (fixpoint edges extraSeeds).depth := by
    intro l h
    funext n
    cases hn : (fixpoint edges extraSeeds).depth n with
    | some k => exact h.final (depth_lt_card hn).le hn
    | none =>
      cases hl : l.depth n with
      | none => rfl
      | some k =>
        obtain ⟨j, -, hj⟩ := fixpoint_le h.attained hl
        rw [hn] at hj
        cases hj
  refine sweep_snd_eq_false fun p hp => ?_
  cases hs : depthStep p l with
  | none => rfl
  | some l' =>
    refine absurd ?_ (depthStep_changes hs)
    rw [eq_fixpoint h, eq_fixpoint (h.step hp hs)]

/-- The depth loop ends within one sweep more than there are nodes. -/
theorem depth_loop : loop depthStep edges ((mentioned edges extraSeeds).card + 1) (raised edges extraSeeds) =
    some (fixpoint edges extraSeeds) := by
  obtain ⟨t, ht⟩ := loop_stops (I := Levelled edges extraSeeds) (fun _ _ h => h.sweep)
    (fun _ h => h.sweep_false) levelled_raised
  rw [ht, loop_eq_saturate (μ := fun l => depthMeasure edges l.depth) depthStep_lt ht]
  rfl

/-- Both loops of `_fixpoint` end: the κ loop after at most five assignments
for each node mentioned, the depth loop after at most one sweep more than there
are nodes. -/
theorem loops_end (edges : List DerivationEdge) (extraSeeds : List Hash) :
    ∃ n l assignments,
      loop (counted kappaStep) edges n (seeded edges extraSeeds, 0) = some (l, assignments) ∧
      assignments ≤ 5 * (mentioned edges extraSeeds).card ∧
      loop depthStep edges ((mentioned edges extraSeeds).card + 1) l = some (fixpoint edges extraSeeds) := by
  obtain ⟨n, l, c, hloop, hl, hc⟩ := exists_kappa_loop edges extraSeeds
  exact ⟨n, l, c, hloop, hc, hl ▸ depth_loop⟩

end ArxDB.Proof
