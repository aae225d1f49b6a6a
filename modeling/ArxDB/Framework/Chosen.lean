import ArxDB.Framework.Derivation
import Mathlib.Logic.Relation

/-!
# Chosen edges

While a valuation is raised, each node can keep the edge that gave it its
value. The premises of that edge have at least the value of the node when it
is written, and values only rise, so a node whose value is overwritten later
is none of those that its new premises lead back to (`Justified.raise`).
Hence the chosen edges never lead back to where they started
(`Justified.acyclic`), and those that are reached from a node derive it
(`Justified.derives`), with its value for the least of their weights as long
as none of them is below the value it was chosen for
(`Justified.isLeast_weight`).
-/

namespace Derivation

variable {ν ε κ : Type*}

/-- An edge for some of the nodes. -/
abbrev Choice (ν ε : Type*) := ν → Option ε

section Choice

variable (Y : System ν ε κ) (c : Choice ν ε)

/-- The chosen edges lead from the node back to seeds. -/
inductive Backed : ν → Prop
  | seed {n : ν} (hn : n ∈ Y.seeds) (hc : c n = none) : Backed n
  | edge {n : ν} {e : ε} (hc : c n = some e) (he : e ∈ Y.edges) (hn : Y.conclusion e = n)
      (hp : ∀ p ∈ Y.premises e, Backed p) : Backed n

/-- `m` is a premise of the edge chosen for `n`. -/
def Points (n m : ν) : Prop := ∃ e, c n = some e ∧ m ∈ Y.premises e

/-- The edge is chosen for a premise of `e`. -/
def Follows (e e' : ε) : Prop := ∃ p ∈ Y.premises e, c p = some e'

/-- The edges that are reached from those chosen for the node. -/
def Reached (n : ν) (e : ε) : Prop := ∃ e₀, c n = some e₀ ∧ Relation.ReflTransGen (Follows Y c) e₀ e

/-- The edges alone that are reached from the node. -/
def reachedOnly (n : ν) : System ν ε κ := { Y with edges := {e | e ∈ Y.edges ∧ Reached Y c n e} }

end Choice

variable {Y : System ν ε κ} {c : Choice ν ε} {n : ν} {e : ε}

theorem Reached.step (h : Reached Y c n e) {p : ν} (hp : p ∈ Y.premises e) {e' : ε} (hc : c p = some e') :
    Reached Y c n e' := by
  obtain ⟨e₀, h₀, hr⟩ := h
  exact ⟨e₀, h₀, hr.tail ⟨p, hp, hc⟩⟩

theorem Reached.chosen (h : Reached Y c n e) : ∃ m, c m = some e := by
  obtain ⟨e₀, h₀, hr⟩ := h
  cases hr with
  | refl => exact ⟨n, h₀⟩
  | tail _ hf =>
    obtain ⟨p, -, hp⟩ := hf
    exact ⟨p, hp⟩

theorem Backed.acc (h : Backed Y c n) : Acc (fun m n => Points Y c n m) n := by
  induction h with
  | seed _ hc =>
    refine .intro _ fun m hm => ?_
    obtain ⟨e, he, -⟩ := hm
    rw [hc] at he
    cases he
  | edge hc _ _ _ ih =>
    refine .intro _ fun m hm => ?_
    obtain ⟨e', he', hm⟩ := hm
    rw [hc, Option.some.injEq] at he'
    exact ih m (he' ▸ hm)

/-- What is chosen for a node and for what that leads back to derives it. -/
theorem Backed.tree (h : Backed Y c n) {Z : System ν ε κ} (hprem : Z.premises = Y.premises)
    (hconc : Z.conclusion = Y.conclusion) (hseeds : Z.seeds = Y.seeds) (hn : ∀ e, c n = some e → e ∈ Z.edges)
    (hZ : ∀ e ∈ Z.edges, ∀ e', Follows Y c e e' → e' ∈ Z.edges) : Nonempty (Tree Z n) := by
  induction h with
  | seed hs _ => exact ⟨.seed (hseeds ▸ hs)⟩
  | @edge n e hc _ he _ ih =>
    have hmem := hn e hc
    have sub : ∀ p ∈ Z.premises e, Nonempty (Tree Z p) := by
      intro p hp
      rw [hprem] at hp
      exact ih p hp fun e' he' => hZ e hmem e' ⟨p, hp, he'⟩
    rw [← he, ← hconc]
    exact ⟨.step e hmem fun i => (sub _ (List.get_mem _ i)).some⟩

section Justified

variable [Preorder κ] {v : Valuation ν κ}

/-- The edge of a node concludes it from premises that have at least its
value, and every node that has a value is led back to seeds. -/
structure Justified (Y : System ν ε κ) (v : Valuation ν κ) (c : Choice ν ε) : Prop where
  edge {n : ν} {e : ε} (hc : c n = some e) : e ∈ Y.edges ∧ Y.conclusion e = n ∧
    ∃ k, v n = some k ∧ ∀ p ∈ Y.premises e, ∃ k' ≥ k, v p = some k'
  backed {n : ν} {k : κ} (hv : v n = some k) : Backed Y c n

namespace Justified

/-- Nodes with at least the value `k` are led back as before when the edge of a node below `k` is replaced. -/
theorem backed_update [DecidableEq ν] (h : Justified Y v c) {m : ν} {o : Option ε} {k : κ}
    (hlt : ∀ k', v m = some k' → k' < k) (hb : Backed Y c n) (hk : ∃ k' ≥ k, v n = some k') :
    Backed Y (Function.update c m o) n := by
  induction hb with
  | @seed n hs hc =>
    obtain ⟨k', hle, hk'⟩ := hk
    have hn : n ≠ m := by
      rintro rfl
      exact (hlt k' hk').not_ge hle
    exact .seed hs ((Function.update_of_ne hn ..).trans hc)
  | @edge n e hc he hn' _ ih =>
    obtain ⟨k', hle, hk'⟩ := hk
    have hn : n ≠ m := by
      rintro rfl
      exact (hlt k' hk').not_ge hle
    refine .edge ((Function.update_of_ne hn ..).trans hc) he hn' fun p hp => ih p hp ?_
    obtain ⟨-, -, j, hj, hprem⟩ := h.edge hc
    rw [hk', Option.some.injEq] at hj
    obtain ⟨k'', hle', hk''⟩ := hprem p hp
    exact ⟨k'', hle.trans (hj ▸ hle'), hk''⟩

/-- An edge gives its conclusion a higher value. -/
theorem raise [DecidableEq ν] (h : Justified Y v c) (he : e ∈ Y.edges) {k : κ}
    (hp : ∀ p ∈ Y.premises e, ∃ k' ≥ k, v p = some k') (hlt : ∀ k', v (Y.conclusion e) = some k' → k' < k) :
    Justified Y (Function.update v (Y.conclusion e) (some k)) (Function.update c (Y.conclusion e) (some e)) where
  edge {n e'} hc := by
    have rises : ∀ {p : ν} {j : κ}, (∃ k' ≥ j, v p = some k') →
        ∃ k' ≥ j, Function.update v (Y.conclusion e) (some k) p = some k' := by
      intro p j hj
      obtain ⟨k', hle, hk'⟩ := hj
      obtain ⟨k'', hle', hk''⟩ := Valuation.Rises.update (fun k' hk' => (hlt k' hk').le) p k' hk'
      exact ⟨k'', hle.trans hle', hk''⟩
    by_cases hn : n = Y.conclusion e
    · subst hn
      rw [Function.update_self, Option.some.injEq] at hc
      subst hc
      exact ⟨he, rfl, k, Function.update_self .., fun p hp' => rises (hp p hp')⟩
    · rw [Function.update_of_ne hn] at hc
      obtain ⟨he', hconc, j, hj, hprem⟩ := h.edge hc
      exact ⟨he', hconc, j, (Function.update_of_ne hn ..).trans hj, fun p hp' => rises (hprem p hp')⟩
  backed {n j} hv := by
    have hconc : Backed Y (Function.update c (Y.conclusion e) (some e)) (Y.conclusion e) := by
      refine .edge (Function.update_self ..) he rfl fun p hp' => ?_
      obtain ⟨k', hle, hk'⟩ := hp p hp'
      exact h.backed_update hlt (h.backed hk') ⟨k', hle, hk'⟩
    -- the other nodes are led back as before, through the new edge where they used the old one
    have hother : ∀ {m}, Backed Y c m → Backed Y (Function.update c (Y.conclusion e) (some e)) m := by
      intro m hm
      induction hm with
      | @seed m hs hc =>
        by_cases hm : m = Y.conclusion e
        · rwa [hm]
        · exact .seed hs ((Function.update_of_ne hm ..).trans hc)
      | @edge m e' hc he' hm' _ ih =>
        by_cases hm : m = Y.conclusion e
        · rwa [hm]
        · exact .edge ((Function.update_of_ne hm ..).trans hc) he' hm' ih
    by_cases hn : n = Y.conclusion e
    · rwa [hn]
    · rw [Function.update_of_ne hn] at hv
      exact hother (h.backed hv)

/-- Following the chosen edges never leads back. -/
theorem acyclic (h : Justified Y v c) (n : ν) : ¬ Relation.TransGen (Points Y c) n n := by
  intro hcycle
  obtain ⟨m, hm, -⟩ := Relation.TransGen.head'_iff.mp hcycle
  obtain ⟨e, hc, -⟩ := hm
  obtain ⟨-, -, k, hk, -⟩ := h.edge hc
  have hacc : Acc (Relation.TransGen fun m n => Points Y c n m) n := (h.backed hk).acc.transGen
  have hirrefl : ∀ x, Acc (Relation.TransGen fun m n => Points Y c n m) x →
      ¬ Relation.TransGen (fun m n => Points Y c n m) x x := by
    intro x hx
    induction hx with
    | intro x _ ih => exact fun hxx => ih x hxx hxx
  exact hirrefl n hacc (Relation.transGen_swap.mpr hcycle)

/-- The edges that are reached from a node derive it. -/
theorem derives (h : Justified Y v c) {k : κ} (hv : v n = some k) : Nonempty (Tree (reachedOnly Y c n) n) := by
  refine (h.backed hv).tree rfl rfl rfl (fun e hc => ⟨(h.edge hc).1, e, hc, .refl⟩) fun e he e' hf => ?_
  obtain ⟨p, hp, hc⟩ := hf
  exact ⟨(h.edge hc).1, he.2.step hp hc⟩

/-- An edge that is reached from a node is chosen for one of at least its value. -/
theorem of_reached (h : Justified Y v c) {k : κ} (hv : v n = some k) (hr : Reached Y c n e) :
    ∃ m k', c m = some e ∧ v m = some k' ∧ k ≤ k' := by
  obtain ⟨e₀, h₀, hr⟩ := hr
  induction hr with
  | refl => exact ⟨n, k, h₀, hv, le_rfl⟩
  | @tail e e' _ hf ih =>
    obtain ⟨m, k', hc, hk', hle⟩ := ih
    obtain ⟨p, hp, hc'⟩ := hf
    obtain ⟨-, -, j, hj, hprem⟩ := h.edge hc
    rw [hk', Option.some.injEq] at hj
    obtain ⟨k'', hle', hk''⟩ := hprem p hp
    exact ⟨p, k'', hc', hk'', hle.trans (hj ▸ hle')⟩

/-- The premises of an edge that is reached are seeds or concluded by one that is. -/
theorem premise (h : Justified Y v c) (hr : Reached Y c n e) {p : ν} (hp : p ∈ Y.premises e) :
    p ∈ Y.seeds ∨ ∃ e' ∈ Y.edges, Reached Y c n e' ∧ Y.conclusion e' = p := by
  obtain ⟨m, hm⟩ := hr.chosen
  obtain ⟨-, -, k, -, hprem⟩ := h.edge hm
  obtain ⟨k', -, hk'⟩ := hprem p hp
  cases h.backed hk' with
  | seed hs _ => exact .inl hs
  | edge hc he hn _ => exact .inr ⟨_, he, hr.step hp hc, hn⟩

end Justified

end Justified

/-! ## Strength -/

theorem Tree.uses_mem {t : Tree Y n} (h : t.Uses e) : e ∈ Y.edges := by
  induction t with
  | seed _ => exact h.elim
  | step e' he' sub ih =>
    rcases h with rfl | ⟨i, hi⟩
    · exact he'
    · exact ih i hi

theorem Derives.of_reachedOnly [LE κ] {k : κ} (h : Derives (reachedOnly Y c n) k n) : Derives Y k n := by
  refine Derives.induct (Y := reachedOnly Y c n) (fun m hs => ?_) (fun e he hk hp => ?_) h
  · exact Derives.seed hs
  · exact Derives.step (Y := Y) he.1 hk hp

section Strength

variable [LinearOrder κ] [OrderTop κ] {v : Valuation ν κ}

namespace Tree

/-- Without seeds, the strength of a derivation is the weight of an edge of it. -/
theorem exists_weight_eq_strength (hseeds : Y.seeds = ∅) (t : Tree Y n) :
    ∃ e, t.Uses e ∧ Y.weight e = t.strength := by
  induction t with
  | seed hn => exact absurd (hseeds ▸ hn) (Set.notMem_empty _)
  | step e he sub ih =>
    by_cases hle : Y.weight e ≤ Finset.univ.inf fun i => (sub i).strength
    · exact ⟨e, .inl rfl, (inf_eq_left.mpr hle).symm⟩
    · have hlt := not_le.mp hle
      have hne : (Finset.univ : Finset (Fin (Y.premises e).length)).Nonempty := by
        rw [Finset.nonempty_iff_ne_empty]
        intro hempty
        rw [hempty, Finset.inf_empty] at hlt
        exact not_top_lt hlt
      obtain ⟨i, -, hi⟩ := Finset.exists_mem_eq_inf Finset.univ hne fun i => (sub i).strength
      obtain ⟨e', hu, hw⟩ := ih i
      refine ⟨e', .inr ⟨i, hu⟩, ?_⟩
      rw [hw, strength, inf_eq_right.mpr hlt.le, hi]

end Tree

/-- Where every edge that is reached has at least the value it is chosen for,
the value of a node is the least weight of these. -/
theorem Justified.isLeast_weight (h : Justified Y v c) (hs : Valuation.Sound Y v) (hc : Valuation.Closed Y v)
    (hseeds : Y.seeds = ∅) {k : κ} (hv : v n = some k)
    (hw : ∀ e, Reached Y c n e → ∀ m k', c m = some e → v m = some k' → k' ≤ Y.weight e) :
    IsLeast {j | ∃ e, Reached Y c n e ∧ Y.weight e = j} k := by
  have hlow : ∀ e, Reached Y c n e → k ≤ Y.weight e := by
    intro e he
    obtain ⟨m, k', hm, hk', hle⟩ := h.of_reached hv he
    exact hle.trans (hw e he m k' hm hk')
  refine ⟨?_, fun j hj => ?_⟩
  · obtain ⟨t⟩ := h.derives hv
    obtain ⟨e, hu, he⟩ := t.exists_weight_eq_strength (show (reachedOnly Y c n).seeds = ∅ from hseeds)
    have hreached : ∀ {e}, t.Uses e → Reached Y c n e := fun hu => (Tree.uses_mem hu).2
    refine ⟨e, hreached hu, le_antisymm ?_ (hlow e (hreached hu))⟩
    have hd : Derives Y (Y.weight e) n := by
      refine Derives.of_reachedOnly (c := c) ⟨t, fun e' hu' => ?_⟩
      exact Tree.le_strength_iff.mp he.le e' hu'
    obtain ⟨k', hle, hk'⟩ := (Valuation.exists_le_iff hs hc n _).mpr hd
    rw [hv, Option.some.injEq] at hk'
    exact hk' ▸ hle
  · obtain ⟨e, he, rfl⟩ := hj
    exact hlow e he

end Strength

end Derivation
