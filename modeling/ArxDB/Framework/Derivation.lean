import Mathlib.Data.Fintype.Basic
import Mathlib.Order.Bounds.Basic
import Mathlib.Data.Finset.Lattice.Fold
import Mathlib.Order.Lattice.Nat

/-!
# Derivations over hyperedges

An edge derives its conclusion from all of its premises; a node is derived by
an edge or is a seed. A `Tree` of a node is a finite derivation of it, and its
`strength` the least weight of the edges it uses. `Valuation` gives each node
a strength or none: it is `Sound` when a tree has it, `Closed` when no seed
and no edge gives more. A valuation that is both is exact: it is defined on
the nodes that have a tree (`isSome_iff`), where it is the greatest strength
of one (`isGreatest`). In the same way a valuation by depths that is
`Attained` and `Settled` is the least height of a tree (`eq_some_iff`).
-/

namespace Derivation

variable {ν ε κ : Type*}

/-- Edges with their premises, conclusion and weight, and the seeds. -/
structure System (ν ε κ : Type*) where
  premises : ε → List ν
  conclusion : ε → ν
  weight : ε → κ
  edges : Set ε
  seeds : Set ν

/-- A finite derivation of a node. Each premise has a tree of its own, also
where a premise is repeated. -/
inductive Tree (Y : System ν ε κ) : ν → Type _
  | seed {n : ν} (h : n ∈ Y.seeds) : Tree Y n
  | step (e : ε) (he : e ∈ Y.edges) (sub : (i : Fin (Y.premises e).length) → Tree Y ((Y.premises e).get i)) :
      Tree Y (Y.conclusion e)

namespace Tree

variable {Y : System ν ε κ}

/-- The least weight of the edges used; a seed alone has the top strength. -/
def strength [SemilatticeInf κ] [OrderTop κ] : {n : ν} → Tree Y n → κ
  | _, seed _ => ⊤
  | _, step e _ sub => Y.weight e ⊓ Finset.univ.inf fun i => (sub i).strength

/-- The edges of the derivation. -/
def Uses : {n : ν} → Tree Y n → ε → Prop
  | _, seed _, _ => False
  | _, step e _ sub, e' => e' = e ∨ ∃ i, (sub i).Uses e'

/-- A seed and an edge without premises have height 0. -/
def height : {n : ν} → Tree Y n → ℕ
  | _, seed _ => 0
  | _, step e _ sub => if Y.premises e = [] then 0 else 1 + Finset.univ.sup fun i => (sub i).height

theorem height_step_nil {e : ε} {he : e ∈ Y.edges} (h : Y.premises e = [])
    (sub : (i : Fin (Y.premises e).length) → Tree Y ((Y.premises e).get i)) : (step e he sub).height = 0 := by
  rw [height, if_pos h]

theorem height_step {e : ε} {he : e ∈ Y.edges} (h : Y.premises e ≠ [])
    (sub : (i : Fin (Y.premises e).length) → Tree Y ((Y.premises e).get i)) :
    (step e he sub).height = 1 + Finset.univ.sup fun i => (sub i).height := by
  rw [height, if_neg h]

/-- What derives a node at height 0. -/
theorem source_of_height_eq_zero {n : ν} {t : Tree Y n} (h : t.height = 0) :
    n ∈ Y.seeds ∨ ∃ e ∈ Y.edges, Y.premises e = [] ∧ Y.conclusion e = n ∧ t.Uses e := by
  cases t with
  | seed hn => exact .inl hn
  | step e he sub =>
    by_cases hnil : Y.premises e = []
    · exact .inr ⟨e, he, hnil, rfl, .inl rfl⟩
    · rw [height_step hnil] at h
      omega

theorem le_strength_iff [SemilatticeInf κ] [OrderTop κ] {n : ν} {t : Tree Y n} {k : κ} :
    k ≤ t.strength ↔ ∀ e, t.Uses e → k ≤ Y.weight e := by
  induction t with
  | seed _ => simp [strength, Uses]
  | step e he sub ih =>
    simp only [strength, Uses, le_inf_iff, Finset.le_inf_iff, Finset.mem_univ, true_implies, ih]
    constructor
    · rintro ⟨h, hs⟩ e' (rfl | ⟨i, hi⟩)
      · exact h
      · exact hs i e' hi
    · exact fun h => ⟨h e (.inl rfl), fun i e' hi => h e' (.inr ⟨i, hi⟩)⟩

end Tree

/-- Some derivation of the node uses no edge below `k`. -/
def Derives [LE κ] (Y : System ν ε κ) (k : κ) (n : ν) : Prop := ∃ t : Tree Y n, ∀ e, t.Uses e → k ≤ Y.weight e

namespace Derives

variable [LE κ] {Y : System ν ε κ} {k : κ}

theorem seed {n : ν} (h : n ∈ Y.seeds) : Derives Y k n := ⟨.seed h, fun _ hu => hu.elim⟩

theorem step {e : ε} (he : e ∈ Y.edges) (hk : k ≤ Y.weight e) (h : ∀ p ∈ Y.premises e, Derives Y k p) :
    Derives Y k (Y.conclusion e) := by
  choose t ht using fun i : Fin (Y.premises e).length => h _ (List.get_mem _ i)
  refine ⟨.step e he t, fun e' hu => ?_⟩
  rcases hu with rfl | ⟨i, hi⟩
  · exact hk
  · exact ht i e' hi

/-- What the seeds have and the edges hand on holds of every derived node. -/
theorem induct {X : ν → Prop} (hseed : ∀ n ∈ Y.seeds, X n)
    (hstep : ∀ e ∈ Y.edges, k ≤ Y.weight e → (∀ p ∈ Y.premises e, X p) → X (Y.conclusion e)) {n : ν}
    (h : Derives Y k n) : X n := by
  obtain ⟨t, ht⟩ := h
  induction t with
  | seed hn => exact hseed _ hn
  | step e he sub ih =>
    refine hstep e he (ht e (.inl rfl)) fun p hp => ?_
    obtain ⟨i, rfl⟩ := List.mem_iff_get.mp hp
    exact ih i fun e' hu => ht e' (.inr ⟨i, hu⟩)

/-- How a node is derived. -/
theorem cases {n : ν} (h : Derives Y k n) :
    n ∈ Y.seeds ∨ ∃ e ∈ Y.edges, Y.conclusion e = n ∧ k ≤ Y.weight e ∧ ∀ p ∈ Y.premises e, Derives Y k p := by
  obtain ⟨t, ht⟩ := h
  cases t with
  | seed hn => exact .inl hn
  | step e he sub =>
    refine .inr ⟨e, he, rfl, ht e (.inl rfl), fun p hp => ?_⟩
    obtain ⟨i, rfl⟩ := List.mem_iff_get.mp hp
    exact ⟨sub i, fun e' hu => ht e' (.inr ⟨i, hu⟩)⟩

end Derives

/-- A strength for some of the nodes. -/
abbrev Valuation (ν κ : Type*) := ν → Option κ

namespace Valuation

/-- Nothing gets lost or weaker from `v` to `v'`. -/
def Rises [LE κ] (v v' : Valuation ν κ) : Prop := ∀ n k, v n = some k → ∃ k' ≥ k, v' n = some k'

section Rises

variable [Preorder κ] {v v' v'' : Valuation ν κ}

theorem Rises.refl (v : Valuation ν κ) : Rises v v := fun _ k h => ⟨k, le_rfl, h⟩

theorem Rises.trans (h : Rises v v') (h' : Rises v' v'') : Rises v v'' := by
  intro n k hk
  obtain ⟨k', hle, hk'⟩ := h n k hk
  obtain ⟨k'', hle', hk''⟩ := h' n k' hk'
  exact ⟨k'', hle.trans hle', hk''⟩

theorem Rises.antisymm {κ : Type*} [PartialOrder κ] {v v' : Valuation ν κ} (h : Rises v v') (h' : Rises v' v) :
    v = v' := by
  have hsome : ∀ n k, v n = some k → v' n = some k := by
    intro n k hk
    obtain ⟨k', hle, hk'⟩ := h n k hk
    obtain ⟨k'', hle', hk''⟩ := h' n k' hk'
    obtain rfl : k = k'' := Option.some.inj (hk.symm.trans hk'')
    rw [hk', le_antisymm hle hle']
  funext n
  refine Option.ext fun k => ⟨hsome n k, fun hk => ?_⟩
  obtain ⟨k', -, hv⟩ := h' n k hk
  rw [hv, ← hk, hsome n k' hv]

theorem Rises.update [DecidableEq ν] {n : ν} {k : κ} (h : ∀ k', v n = some k' → k' ≤ k) :
    Rises v (Function.update v n (some k)) := by
  intro m j hj
  by_cases hm : m = n
  · subst hm
    exact ⟨k, h j hj, Function.update_self ..⟩
  · exact ⟨j, le_rfl, by rw [Function.update_of_ne hm, hj]⟩

end Rises

section Strength

variable [LinearOrder κ] [OrderTop κ] {Y : System ν ε κ} {v : Valuation ν κ}

/-- Every strength is that of a tree. -/
def Sound (Y : System ν ε κ) (v : Valuation ν κ) : Prop :=
  ∀ n k, v n = some k → ∃ t : Tree Y n, t.strength = k

/-- No seed and no edge gives more. -/
structure Closed (Y : System ν ε κ) (v : Valuation ν κ) : Prop where
  seed : ∀ n ∈ Y.seeds, v n = some ⊤
  step : ∀ e ∈ Y.edges, ∀ k ≤ Y.weight e, (∀ p ∈ Y.premises e, ∃ k' ≥ k, v p = some k') →
    ∃ k' ≥ k, v (Y.conclusion e) = some k'

theorem Sound.empty : Sound Y fun _ => none := nofun

theorem Sound.update [DecidableEq ν] (h : Sound Y v) {n : ν} {k : κ} (ht : ∃ t : Tree Y n, t.strength = k) :
    Sound Y (Function.update v n (some k)) := by
  intro m j hj
  by_cases hm : m = n
  · subst hm
    rw [Function.update_self, Option.some.injEq] at hj
    exact hj ▸ ht
  · rw [Function.update_of_ne hm] at hj
    exact h m j hj

/-- An edge whose premises have trees of the strengths `ks` has a tree of the
least of these and its weight. -/
theorem Sound.step (h : Sound Y v) {e : ε} (he : e ∈ Y.edges) {k : κ}
    (hk : ∀ j, j ≤ k ↔ j ≤ Y.weight e ∧ ∀ p ∈ Y.premises e, ∃ k' ≥ j, v p = some k')  :
    ∃ t : Tree Y (Y.conclusion e), t.strength = k := by
  obtain ⟨-, hp⟩ := (hk k).mp le_rfl
  choose! s _ hs using hp
  choose t ht using fun i : Fin (Y.premises e).length => h _ _ (hs _ (List.get_mem _ i))
  refine ⟨.step e he t, eq_of_forall_le_iff fun j => ?_⟩
  simp only [Tree.strength, ht, le_inf_iff, Finset.le_inf_iff, Finset.mem_univ, true_implies]
  rw [hk]
  refine and_congr_right fun _ => ⟨fun H p hp => ?_, fun H i => ?_⟩
  · obtain ⟨i, rfl⟩ := List.mem_iff_get.mp hp
    exact ⟨_, H i, hs _ (List.get_mem _ i)⟩
  · obtain ⟨k', hk', e'⟩ := H _ (List.get_mem _ i)
    rw [hs _ (List.get_mem _ i), Option.some.injEq] at e'
    exact e' ▸ hk'

theorem Closed.le (h : Closed Y v) {n : ν} (t : Tree Y n) : ∃ k ≥ t.strength, v n = some k := by
  induction t with
  | seed hn => exact ⟨⊤, le_top, h.seed _ hn⟩
  | step e he sub ih =>
    refine h.step e he _ inf_le_left fun p hp => ?_
    obtain ⟨i, rfl⟩ := List.mem_iff_get.mp hp
    obtain ⟨k, hk, e⟩ := ih i
    exact ⟨k, (inf_le_right.trans (Finset.inf_le (Finset.mem_univ i))).trans hk, e⟩

/-- An exact valuation is defined on the nodes that have a tree, … -/
theorem isSome_iff (hs : Sound Y v) (hc : Closed Y v) (n : ν) :
    (∃ k, v n = some k) ↔ Nonempty (Tree Y n) := by
  constructor
  · rintro ⟨k, hk⟩
    obtain ⟨t, -⟩ := hs n k hk
    exact ⟨t⟩
  · rintro ⟨t⟩
    obtain ⟨k, -, hk⟩ := hc.le t
    exact ⟨k, hk⟩

/-- … and it is there the greatest strength of one. -/
theorem isGreatest (hs : Sound Y v) (hc : Closed Y v) {n : ν} {k : κ} (h : v n = some k) :
    IsGreatest (Set.range (Tree.strength (Y := Y) (n := n))) k := by
  refine ⟨hs n k h, ?_⟩
  rintro _ ⟨t, rfl⟩
  obtain ⟨k', hk, e⟩ := hc.le t
  rw [h, Option.some.injEq] at e
  exact e ▸ hk

/-- A threshold is reached by the value exactly when some tree has no edge below it. -/
theorem exists_le_iff (hs : Sound Y v) (hc : Closed Y v) (n : ν) (k : κ) :
    (∃ k' ≥ k, v n = some k') ↔ Derives Y k n := by
  constructor
  · rintro ⟨k', hk, e⟩
    obtain ⟨t, rfl⟩ := hs n k' e
    exact ⟨t, Tree.le_strength_iff.mp hk⟩
  · rintro ⟨t, ht⟩
    obtain ⟨k', hk, e⟩ := hc.le t
    exact ⟨k', (Tree.le_strength_iff.mpr ht).trans hk, e⟩

/-- The strengths that a node can have as a seed, or by one edge whose premises have theirs in `v`. -/
def supports (Y : System ν ε κ) (v : Valuation ν κ) (n : ν) : Set κ :=
  {k | n ∈ Y.seeds ∨ ∃ e ∈ Y.edges, Y.conclusion e = n ∧ k ≤ Y.weight e ∧ ∀ p ∈ Y.premises e, ∃ k' ≥ k, v p = some k'}

theorem closed_iff : Closed Y v ↔ ∀ n, ∀ k ∈ supports Y v n, ∃ k' ≥ k, v n = some k' := by
  constructor
  · intro h n k hk
    rcases hk with hn | ⟨e, he, rfl, hw, hp⟩
    · exact ⟨⊤, le_top, h.seed n hn⟩
    · exact h.step e he k hw hp
  · intro h
    refine ⟨fun n hn => ?_, fun e he k hw hp => h _ k (.inr ⟨e, he, rfl, hw, hp⟩)⟩
    obtain ⟨k, hk, hv⟩ := h n ⊤ (.inl hn)
    rw [hv, top_le_iff.mp hk]

/-- An exact valuation has at each node the greatest strength that it supports itself, … -/
theorem isGreatest_supports (hs : Sound Y v) (hc : Closed Y v) {n : ν} {k : κ} (h : v n = some k) :
    IsGreatest (supports Y v n) k := by
  refine ⟨?_, fun j hj => ?_⟩
  · obtain ⟨t, rfl⟩ := hs n k h
    cases t with
    | seed hn => exact .inl hn
    | step e he sub =>
      refine .inr ⟨e, he, rfl, inf_le_left, fun p hp => ?_⟩
      obtain ⟨i, rfl⟩ := List.mem_iff_get.mp hp
      obtain ⟨k', hk', hv⟩ := hc.le (sub i)
      exact ⟨k', (inf_le_right.trans (Finset.inf_le (Finset.mem_univ i))).trans hk', hv⟩
  · obtain ⟨k', hle, hk'⟩ := closed_iff.mp hc n j hj
    rw [h, Option.some.injEq] at hk'
    exact hk' ▸ hle

/-- … and nowhere more than another valuation that has no less than it supports. -/
theorem Sound.rises (hs : Sound Y v) {v' : Valuation ν κ} (h : Closed Y v') : Rises v v' := by
  intro n k hk
  obtain ⟨t, rfl⟩ := hs n k hk
  exact h.le t

end Strength

/-! ## Depths -/

section Depth

variable {Y : System ν ε κ} {d : Valuation ν ℕ}

/-- Every depth is the height of a tree. -/
def Attained (Y : System ν ε κ) (d : Valuation ν ℕ) : Prop :=
  ∀ n k, d n = some k → ∃ t : Tree Y n, t.height = k

/-- No seed and no edge gives less. -/
structure Settled (Y : System ν ε κ) (d : Valuation ν ℕ) : Prop where
  seed : ∀ n ∈ Y.seeds, d n = some 0
  source : ∀ e ∈ Y.edges, Y.premises e = [] → d (Y.conclusion e) = some 0
  step : ∀ e ∈ Y.edges, Y.premises e ≠ [] → ∀ j, (∀ p ∈ Y.premises e, ∃ k ≤ j, d p = some k) →
    ∃ k ≤ 1 + j, d (Y.conclusion e) = some k

theorem Attained.empty : Attained Y fun _ => none := nofun

theorem Attained.update [DecidableEq ν] (h : Attained Y d) {n : ν} {k : ℕ} (ht : ∃ t : Tree Y n, t.height = k) :
    Attained Y (Function.update d n (some k)) := by
  intro m j hj
  by_cases hm : m = n
  · subst hm
    rw [Function.update_self, Option.some.injEq] at hj
    exact hj ▸ ht
  · rw [Function.update_of_ne hm] at hj
    exact h m j hj

theorem exists_height_source {e : ε} (he : e ∈ Y.edges) (h : Y.premises e = []) :
    ∃ t : Tree Y (Y.conclusion e), t.height = 0 :=
  ⟨.step e he fun i => absurd i.isLt (by simp [h]), Tree.height_step_nil h _⟩

/-- An edge whose premises have trees of the heights `ks` has a tree one
higher than the greatest of these. -/
theorem Attained.step (h : Attained Y d) {e : ε} (he : e ∈ Y.edges) (hne : Y.premises e ≠ []) {k : ℕ}
    (hk : ∀ j, k ≤ j ↔ ∀ p ∈ Y.premises e, ∃ k' ≤ j, d p = some k') :
    ∃ t : Tree Y (Y.conclusion e), t.height = 1 + k := by
  have hp := (hk k).mp le_rfl
  choose! s _ hs using hp
  choose t ht using fun i : Fin (Y.premises e).length => h _ _ (hs _ (List.get_mem _ i))
  refine ⟨.step e he t, ?_⟩
  rw [Tree.height_step hne]
  refine congrArg (1 + ·) (eq_of_forall_ge_iff fun j => ?_)
  simp only [ht, Finset.sup_le_iff, Finset.mem_univ, true_implies]
  rw [hk]
  refine ⟨fun H p hp => ?_, fun H i => ?_⟩
  · obtain ⟨i, rfl⟩ := List.mem_iff_get.mp hp
    exact ⟨_, H i, hs _ (List.get_mem _ i)⟩
  · obtain ⟨k', hk', e'⟩ := H _ (List.get_mem _ i)
    rw [hs _ (List.get_mem _ i), Option.some.injEq] at e'
    exact e' ▸ hk'

theorem Settled.le (h : Settled Y d) {n : ν} (t : Tree Y n) : ∃ k ≤ t.height, d n = some k := by
  induction t with
  | seed hn => exact ⟨0, le_rfl, h.seed _ hn⟩
  | step e he sub ih =>
    by_cases hnil : Y.premises e = []
    · exact ⟨0, Nat.zero_le _, h.source e he hnil⟩
    · rw [Tree.height_step hnil]
      refine h.step e he hnil _ fun p hp => ?_
      obtain ⟨i, rfl⟩ := List.mem_iff_get.mp hp
      obtain ⟨k, hk, e⟩ := ih i
      exact ⟨k, hk.trans (Finset.le_sup (f := fun i => (sub i).height) (Finset.mem_univ i)), e⟩

/-- The depth of a node is the least height of a tree of it. -/
theorem Settled.eq_some_iff (hs : Settled Y d) (ha : Attained Y d) {n : ν} {k : ℕ} :
    d n = some k ↔ IsLeast (Set.range (Tree.height (Y := Y) (n := n))) k := by
  constructor
  · intro h
    refine ⟨ha n k h, ?_⟩
    rintro _ ⟨t, rfl⟩
    obtain ⟨k', hk, e⟩ := hs.le t
    rw [h, Option.some.injEq] at e
    exact e ▸ hk
  · rintro ⟨⟨t, rfl⟩, hmin⟩
    obtain ⟨k', hk, e⟩ := hs.le t
    obtain ⟨t', rfl⟩ := ha n k' e
    rw [e, le_antisymm hk (hmin ⟨t', rfl⟩)]

/-- A node above the lowest level has an edge from the level below it and from no higher one. -/
theorem Settled.exists_edge (hs : Settled Y d) (ha : Attained Y d) {n : ν} {k : ℕ} (h : d n = some (k + 1)) :
    ∃ e ∈ Y.edges, Y.conclusion e = n ∧ Y.premises e ≠ [] ∧ (∀ p ∈ Y.premises e, ∃ j ≤ k, d p = some j) ∧
      ∃ p ∈ Y.premises e, d p = some k := by
  obtain ⟨t, ht⟩ := ha n _ h
  cases t with
  | seed hn => cases ht
  | step e he sub =>
    have hne : Y.premises e ≠ [] := by
      intro hnil
      rw [Tree.height_step_nil hnil] at ht
      cases ht
    rw [Tree.height_step hne] at ht
    have hle : ∀ p ∈ Y.premises e, ∃ j ≤ k, d p = some j := by
      intro p hp
      obtain ⟨i, rfl⟩ := List.mem_iff_get.mp hp
      obtain ⟨j, hj, hd⟩ := hs.le (sub i)
      have hsup := Finset.le_sup (f := fun i => (sub i).height) (Finset.mem_univ i)
      exact ⟨j, by omega, hd⟩
    refine ⟨e, he, rfl, hne, hle, ?_⟩
    -- were all premises lower, the node would be
    by_contra hno
    have hlt : ∀ p ∈ Y.premises e, ∃ j < k, d p = some j := by
      intro p hp
      obtain ⟨j, hj, hd⟩ := hle p hp
      exact ⟨j, hj.lt_of_ne fun heq => hno ⟨p, hp, heq ▸ hd⟩, hd⟩
    obtain ⟨p, hp⟩ := List.exists_mem_of_ne_nil _ hne
    obtain ⟨j, hj, -⟩ := hlt p hp
    obtain ⟨j', hj', hd⟩ := hs.step e he hne (k - 1) fun p hp => by
      obtain ⟨j, hj, hd⟩ := hlt p hp
      exact ⟨j, by omega, hd⟩
    rw [h, Option.some.injEq] at hd
    omega

/-- Among the nodes there are, the levels up to a node's are all taken, so
its depth is less than the number of nodes. -/
theorem Settled.lt_card [DecidableEq ν] (hs : Settled Y d) (ha : Attained Y d) {V : Finset ν}
    (hV : ∀ e ∈ Y.edges, ∀ p ∈ Y.premises e, p ∈ V) {n : ν} (hn : n ∈ V) {k : ℕ} (h : d n = some k) : k < V.card := by
  have levels : ∀ k n, n ∈ V → d n = some k → ∀ j ≤ k, ∃ m ∈ V, d m = some j := by
    intro k
    induction k with
    | zero =>
      intro n hn h j hj
      obtain rfl := Nat.le_zero.mp hj
      exact ⟨n, hn, h⟩
    | succ k ih =>
      intro n hn h j hj
      obtain rfl | hj := Nat.eq_or_lt_of_le hj
      · exact ⟨n, hn, h⟩
      · obtain ⟨e, he, -, -, -, p, hp, hd⟩ := hs.exists_edge ha h
        exact ih p (hV e he p hp) hd j (Nat.le_of_lt_succ hj)
  have hsub : Finset.range (k + 1) ⊆ V.image fun m => (d m).getD 0 := by
    intro j hj
    obtain ⟨m, hm, hd⟩ := levels k n hn h j (Nat.le_of_lt_succ (Finset.mem_range.mp hj))
    exact Finset.mem_image.mpr ⟨m, hm, by rw [hd, Option.getD_some]⟩
  calc k + 1 = (Finset.range (k + 1)).card := (Finset.card_range _).symm
    _ ≤ (V.image fun m => (d m).getD 0).card := Finset.card_le_card hsub
    _ ≤ V.card := Finset.card_image_le

end Depth

end Valuation

/-! ## More edges -/

section Widen

variable (Y : System ν ε κ)

/-- The system with these edges instead. -/
def System.withEdges (edges : Set ε) : System ν ε κ := { Y with edges := edges }

variable {Y} {edges : Set ε} (hedges : Y.edges ⊆ edges)
include hedges

/-- A tree is one over more edges too. -/
theorem Tree.widen [SemilatticeInf κ] [OrderTop κ] {n : ν} (t : Tree Y n) :
    ∃ t' : Tree (Y.withEdges edges) n, t'.strength = t.strength ∧ t'.height = t.height := by
  induction t with
  | seed hn => exact ⟨.seed hn, rfl, rfl⟩
  | step e he sub ih =>
    choose sub' hstrength hheight using ih
    refine ⟨.step e (hedges he) sub', ?_, ?_⟩
    · exact congrArg (Y.weight e ⊓ ·) (Finset.inf_congr rfl fun i _ => hstrength i)
    · exact congrArg (fun m => if Y.premises e = [] then 0 else 1 + m) (Finset.sup_congr rfl fun i _ => hheight i)

/-- More edges give no node less strength … -/
theorem greatest_widen [LinearOrder κ] [OrderTop κ] {n : ν} {k k' : κ}
    (h : IsGreatest (Set.range fun t : Tree Y n => t.strength) k)
    (h' : IsGreatest (Set.range fun t : Tree (Y.withEdges edges) n => t.strength) k') : k ≤ k' := by
  refine h.mono h' ?_
  rintro _ ⟨t, rfl⟩
  obtain ⟨t', hstrength, -⟩ := t.widen hedges
  exact ⟨t', hstrength⟩

/-- … and no greater height. -/
theorem least_widen [LinearOrder κ] [OrderTop κ] {n : ν} {d d' : ℕ}
    (h : IsLeast (Set.range fun t : Tree Y n => t.height) d)
    (h' : IsLeast (Set.range fun t : Tree (Y.withEdges edges) n => t.height) d') : d' ≤ d := by
  refine h.mono h' ?_
  rintro _ ⟨t, rfl⟩
  obtain ⟨t', -, hheight⟩ := t.widen hedges
  exact ⟨t', hheight⟩

end Widen

/-! ## Short derivations by weak edges -/

section Undercut

variable [LE κ] {Y : System ν ε κ} {k : κ} {n : ν}

/-- There are derivations without an edge below `k`, and one with such an edge is shorter than all of them. -/
def Undercut (Y : System ν ε κ) (k : κ) (n : ν) : Prop :=
  Derives Y k n ∧ ∃ t : Tree Y n, (∃ e, t.Uses e ∧ ¬ k ≤ Y.weight e) ∧
    ∀ t' : Tree Y n, (∀ e, t'.Uses e → k ≤ Y.weight e) → t.height < t'.height

/-- The least height is that of a derivation without an edge below `k` unless these are undercut. -/
theorem exists_height_eq_iff {d : ℕ} (h : IsLeast (Set.range (Tree.height (Y := Y) (n := n))) d)
    (hk : Derives Y k n) :
    (∃ t : Tree Y n, (∀ e, t.Uses e → k ≤ Y.weight e) ∧ t.height = d) ↔ ¬ Undercut Y k n := by
  obtain ⟨⟨t₀, rfl⟩, hmin⟩ := h
  constructor
  · rintro ⟨t, ht, hd⟩ ⟨-, w, -, hw⟩
    have hle : t₀.height ≤ w.height := hmin ⟨w, rfl⟩
    have := hw t ht
    omega
  · intro hu
    by_cases ht₀ : ∀ e, t₀.Uses e → k ≤ Y.weight e
    · exact ⟨t₀, ht₀, rfl⟩
    · push Not at ht₀
      by_contra hne
      refine hu ⟨hk, t₀, ht₀, fun t ht => ?_⟩
      have hle : t₀.height ≤ t.height := hmin ⟨t, rfl⟩
      exact hle.lt_of_ne fun heq => hne ⟨t, ht, heq.symm⟩

end Undercut

end Derivation
