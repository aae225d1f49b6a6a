import ArxDB.Proof.Refutation

/-!
# The labelling is grounded

The attack graph has exactly the attacks of refutations on the edges that they
conclude and of edges with opposite conclusions on each other
(`mem_attackers_attackGraph`), which does not depend on the order of the
edges. The loop accepts only edges that belong to every set that contains
what it defends, and stops where none is left to accept, so what is in is the
least fixpoint (`active_grounded`).
-/

namespace ArxDB.Proof

open Impl Impl.Refutation Grounded Saturate

variable {P : Prims} {storage : Storage} {edges : List (Hash × Edge)} {g : Attacks} {a b : Hash}

/-! ## Exactly these attacks -/

/-- What a fold adds when each item adds `R`. -/
theorem mem_attackers_foldl {α : Type} {F : Attacks → α → Attacks} {R : α → Hash → Hash → Prop} {xs : List α}
    (h : ∀ x ∈ xs, ∀ g a b, b ∈ (F g x).attackers a ↔ b ∈ g.attackers a ∨ R x a b) (g : Attacks) :
    b ∈ (xs.foldl F g).attackers a ↔ b ∈ g.attackers a ∨ ∃ x ∈ xs, R x a b := by
  induction xs generalizing g with
  | nil => simp
  | cons x xs ih =>
    rw [List.forall_mem_cons] at h
    rw [List.foldl_cons, ih h.2, h.1, or_assoc]
    simp

/-- A refutation and an edge that is its conclusion. -/
def Refutes (edges : List (Hash × Edge)) (a b : Hash) : Prop :=
  ∃ e e', (a, e) ∈ edges ∧ (b, e') ∈ edges ∧ e.type = .refutation ∧ e.conclusion = b

/-- Edges whose conclusions are one claim in one domain, with opposite polarity. -/
def Contends (P : Prims) (storage : Storage) (edges : List (Hash × Edge)) (a b : Hash) : Prop :=
  ∃ e e' n n', (a, e) ∈ edges ∧ (b, e') ∈ edges ∧ resolveNode P e.conclusion storage = some n ∧
    resolveNode P e'.conclusion storage = some n' ∧ P.equal n.claim n'.claim = true ∧
    P.equal n.domain n'.domain = true ∧ n.polarity.truthy ≠ n'.polarity.truthy

/-- What `attackers` is built from. -/
def Attack (P : Prims) (storage : Storage) (edges : List (Hash × Edge)) (a b : Hash) : Prop :=
  Refutes edges a b ∨ Contends P storage edges a b

theorem mem_attackers_addRefutation {p : Hash × Edge} : b ∈ (addRefutation edges g p).attackers a ↔
    b ∈ g.attackers a ∨ (p.1 = a ∧ p.2.type = .refutation ∧ p.2.conclusion = b ∧ ∃ e, (b, e) ∈ edges) := by
  have hmem : p.2.conclusion ∈ edges.map Prod.fst ↔ ∃ e, (p.2.conclusion, e) ∈ edges := by simp
  unfold addRefutation
  split
  · rename_i h
    rw [hmem] at h
    rw [mem_attackers_add]
    refine or_congr_right ⟨?_, ?_⟩
    · rintro ⟨rfl, rfl⟩
      exact ⟨rfl, h.1, rfl, h.2⟩
    · rintro ⟨rfl, -, rfl, -⟩
      exact ⟨rfl, rfl⟩
  · rename_i h
    rw [hmem] at h
    refine (or_iff_left ?_).symm
    rintro ⟨-, ht, rfl, he⟩
    exact h ⟨ht, he⟩

theorem mem_attackers_contend {p : Hash × Hash} :
    b ∈ (contend g p).attackers a ↔ b ∈ g.attackers a ∨ (p = (a, b) ∨ p = (b, a)) := by
  rw [contend, mem_attackers_add, mem_attackers_add, or_assoc]
  refine or_congr_right (or_congr ?_ ?_)
  · exact ⟨fun h => Prod.ext h.1.symm h.2.symm, fun h => h ▸ ⟨rfl, rfl⟩⟩
  · exact ⟨fun h => Prod.ext h.2.symm h.1.symm, fun h => h ▸ ⟨rfl, rfl⟩⟩

/-- Two items of a proposition with opposite polarity. -/
def Opposed (q : Proposition) (a b : Hash) : Prop :=
  ∃ pol pol', (a, pol) ∈ q.items ∧ (b, pol') ∈ q.items ∧ pol.truthy ≠ pol'.truthy

theorem mem_attackers_addContention_iff {q : Proposition} :
    b ∈ (addContention g q).attackers a ↔ b ∈ g.attackers a ∨ Opposed q a b := by
  rw [addContention, mem_attackers_foldl (R := fun p a b => p = (a, b) ∨ p = (b, a))
    (fun p _ g a b => mem_attackers_contend)]
  refine or_congr_right ⟨?_, ?_⟩
  · rintro ⟨⟨x, y⟩, hp, heq⟩
    rw [List.pair_mem_product, List.mem_map, List.mem_map] at hp
    obtain ⟨⟨⟨_, pol⟩, hx, rfl⟩, ⟨_, pol'⟩, hy, rfl⟩ := hp
    rw [List.mem_filter] at hx hy
    have hpol : pol.truthy = true := hx.2
    have hpol' : pol'.truthy = false := by simpa using hy.2
    rcases heq with heq | heq
    · cases heq
      exact ⟨pol, pol', hx.1, hy.1, by simp [hpol, hpol']⟩
    · cases heq
      exact ⟨pol', pol, hy.1, hx.1, by simp [hpol, hpol']⟩
  · rintro ⟨pol, pol', ha, hb, hne⟩
    have pos : ∀ {h : Hash} {pol : Value}, (h, pol) ∈ q.items → pol.truthy = true →
        h ∈ (q.items.filter fun i => i.2.truthy).map Prod.fst := fun hm ht =>
      List.mem_map.mpr ⟨_, List.mem_filter.mpr ⟨hm, ht⟩, rfl⟩
    have neg : ∀ {h : Hash} {pol : Value}, (h, pol) ∈ q.items → pol.truthy = false →
        h ∈ (q.items.filter fun i => !i.2.truthy).map Prod.fst := fun hm ht =>
      List.mem_map.mpr ⟨_, List.mem_filter.mpr ⟨hm, by simp [ht]⟩, rfl⟩
    cases hpol : pol.truthy with
    | true =>
      have hpol' : pol'.truthy = false := by simpa [hpol] using hne.symm
      exact ⟨(a, b), List.pair_mem_product.mpr ⟨pos ha hpol, neg hb hpol'⟩, .inl rfl⟩
    | false =>
      have hpol' : pol'.truthy = true := by simpa [hpol] using hne.symm
      exact ⟨(b, a), List.pair_mem_product.mpr ⟨pos hb hpol', neg ha hpol⟩, .inr rfl⟩

/-! ## Exactly these propositions -/

/-- A group of `by_prop`: the first item gave the key, and the keys of the others are equal to it. -/
def Founded (P : Prims) (storage : Storage) (edges : List (Hash × Edge)) (q : Proposition) : Prop :=
  ∃ p n items, p ∈ edges ∧ resolveNode P p.2.conclusion storage = some n ∧ q.claim = n.claim ∧ q.domain = n.domain ∧
    q.items = (p.1, n.polarity) :: items ∧ ∀ item ∈ items, ∃ p' n', p' ∈ edges ∧
      resolveNode P p'.2.conclusion storage = some n' ∧ item = (p'.1, n'.polarity) ∧ q.matches P n' = true

theorem appendItem_founded {p : Hash × Edge} {n : Node} (hp : p ∈ edges)
    (hn : resolveNode P p.2.conclusion storage = some n) {qs : List Proposition}
    (h : ∀ q ∈ qs, Founded P storage edges q) : ∀ q ∈ appendItem P p.1 n qs, Founded P storage edges q := by
  induction qs with
  | nil =>
    intro q hq
    rw [appendItem, List.mem_singleton] at hq
    subst hq
    exact ⟨p, n, [], hp, hn, rfl, rfl, rfl, by simp⟩
  | cons q₀ qs ih =>
    rw [List.forall_mem_cons] at h
    rw [appendItem]
    split
    · rename_i hm
      obtain ⟨⟨p₀, n₀, items, hp₀, hn₀, hc, hd, hi, hall⟩, hqs⟩ := h
      rw [List.forall_mem_cons]
      refine ⟨⟨p₀, n₀, items ++ [(p.1, n.polarity)], hp₀, hn₀, hc, hd, by simp [hi], fun item hitem => ?_⟩, hqs⟩
      rcases List.mem_append.mp hitem with hitem | hitem
      · exact hall item hitem
      · exact ⟨p, n, hp, hn, List.mem_singleton.mp hitem, hm⟩
    · rw [List.forall_mem_cons]
      exact ⟨h.1, ih h.2⟩

theorem byProp_founded {es : List (Hash × Edge)} {qs qs' : List Proposition} (hb : byProp P storage es qs = .ok qs')
    (hes : ∀ p ∈ es, p ∈ edges) (h : ∀ q ∈ qs, Founded P storage edges q) : ∀ q ∈ qs', Founded P storage edges q := by
  induction es generalizing qs with
  | nil =>
    cases hb
    exact h
  | cons p es ih =>
    rw [List.forall_mem_cons] at hes
    rw [byProp] at hb
    split at hb
    · exact ih hb hes.2 h
    · rename_i n hn
      split_ifs at hb
      exact ih hb hes.2 (appendItem_founded hes.1 hn h)

theorem matches_iff {n : Node} {q : Proposition} :
    q.matches P n = true ↔ P.equal q.claim n.claim = true ∧ P.equal q.domain n.domain = true := by
  rw [Proposition.matches, Bool.and_eq_true]

theorem Founded.contends (hE : P.EqualLaws) {q : Proposition} (hq : Founded P storage edges q) (h : Opposed q a b) :
    Contends P storage edges a b := by
  obtain ⟨⟨h₀, e₀⟩, n₀, items, hp₀, hn₀, hc, hd, hi, hall⟩ := hq
  obtain ⟨pol, pol', ha, hb, hne⟩ := h
  rw [hi, List.mem_cons] at ha hb
  -- an item is the first one or has an equal key
  rcases ha with ha | ha <;> rcases hb with hb | hb
  · cases ha
    cases hb
    exact absurd rfl hne
  · cases ha
    obtain ⟨p', n', hp', hn', hitem, hm⟩ := hall _ hb
    cases hitem
    obtain ⟨hmc, hmd⟩ := matches_iff.mp hm
    exact ⟨e₀, p'.2, n₀, n', hp₀, hp', hn₀, hn', hc ▸ hmc, hd ▸ hmd, hne⟩
  · cases hb
    obtain ⟨p', n', hp', hn', hitem, hm⟩ := hall _ ha
    cases hitem
    obtain ⟨hmc, hmd⟩ := matches_iff.mp hm
    exact ⟨p'.2, e₀, n', n₀, hp', hp₀, hn', hn₀, Prims.equal_symm (hc ▸ hmc), Prims.equal_symm (hd ▸ hmd), hne⟩
  · obtain ⟨p', n', hp', hn', hitem, hm⟩ := hall _ ha
    cases hitem
    obtain ⟨p'', n'', hp'', hn'', hitem, hm'⟩ := hall _ hb
    cases hitem
    obtain ⟨hmc, hmd⟩ := matches_iff.mp hm
    obtain ⟨hmc', hmd'⟩ := matches_iff.mp hm'
    exact ⟨p'.2, p''.2, n', n'', hp', hp'', hn', hn'', hE.trans (Prims.equal_symm hmc) hmc',
      hE.trans (Prims.equal_symm hmd) hmd', hne⟩

/-- Nodes with equal keys are filed in one group. -/
theorem matches_congr (hE : P.EqualLaws) {n n' : Node} (hclaim : P.equal n.claim n'.claim = true)
    (hdomain : P.equal n.domain n'.domain = true) : Proposition.matches P n' = Proposition.matches P n := by
  funext q
  rw [Bool.eq_iff_iff, matches_iff, matches_iff]
  refine and_congr ⟨fun h => ?_, fun h => ?_⟩ ⟨fun h => ?_, fun h => ?_⟩
  · exact hE.trans h (Prims.equal_symm hclaim)
  · exact hE.trans h hclaim
  · exact hE.trans h (Prims.equal_symm hdomain)
  · exact hE.trans h hdomain

theorem opposed_iff (hE : P.EqualLaws) {props : List Proposition} (hb : byProp P storage edges [] = .ok props) :
    (∃ q ∈ props, Opposed q a b) ↔ Contends P storage edges a b := by
  constructor
  · rintro ⟨q, hq, h⟩
    have hfounded : Founded P storage edges q := byProp_founded hb (fun p hp => hp) (by simp) q hq
    exact hfounded.contends hE h
  · rintro ⟨e, e', n, n', he, he', hn, hn', hclaim, hdomain, hne⟩
    have hclaim' := Prims.equal_symm hclaim
    have hdomain' := Prims.equal_symm hdomain
    obtain ⟨q, hq, hi⟩ := byProp_filed hb (hE.trans hclaim hclaim') (hE.trans hdomain hdomain') he hn
    obtain ⟨q', hq', hi'⟩ := byProp_filed hb (hE.trans hclaim' hclaim) (hE.trans hdomain' hdomain) he' hn'
    rw [matches_congr hE hclaim hdomain, hq, Option.some.injEq] at hq'
    subst hq'
    exact ⟨q, List.mem_of_find?_eq_some hq, _, _, hi, hi', hne⟩

/-! ## The attack graph -/

theorem mem_attackers_attackGraph (hE : P.EqualLaws) (hg : attackGraph P storage edges = .ok g) :
    b ∈ g.attackers a ↔ Attack P storage edges a b := by
  obtain ⟨props, hprops, hg⟩ := bind_eq_ok.mp hg
  cases hg
  rw [mem_attackers_foldl (F := addContention) (R := Opposed) fun _ _ _ _ _ => mem_attackers_addContention_iff,
    opposed_iff hE hprops, mem_attackers_foldl (F := addRefutation edges) fun _ _ _ _ _ => mem_attackers_addRefutation,
    Attack, Refutes]
  refine or_congr_left ?_
  constructor
  · rintro (h | ⟨p, hp, rfl, ht, hc, e', he'⟩)
    · simp [Attacks.empty] at h
    · exact ⟨p.2, e', hp, he', ht, hc⟩
  · rintro ⟨e, e', he, he', ht, hc⟩
    exact .inr ⟨(a, e), he, rfl, ht, hc, e', he'⟩

/-- The claim and domain of every edge's conclusion can be the key of a dict, as
the texts can that a `Node` is declared to have. -/
def Hashable (P : Prims) (storage : Storage) (edges : List (Hash × Edge)) : Prop :=
  ∀ p ∈ edges, ∀ n, resolveNode P p.2.conclusion storage = some n →
    n.claim.hashable = true ∧ n.domain.hashable = true

theorem byProp_ok (hh : Hashable P storage edges) (qs : List Proposition) :
    ∃ props, byProp P storage edges qs = .ok props := by
  induction edges generalizing qs with
  | nil => exact ⟨qs, rfl⟩
  | cons p edges ih =>
    have hh' := List.forall_mem_cons.mp hh
    rw [byProp]
    split
    · exact ih hh'.2 qs
    · rename_i n hn
      obtain ⟨hc, hd⟩ := hh'.1 n hn
      rw [if_pos (by rw [hc, hd]; rfl)]
      exact ih hh'.2 _

theorem attackGraph_ok (hh : Hashable P storage edges) : ∃ g, attackGraph P storage edges = .ok g := by
  obtain ⟨props, hprops⟩ := byProp_ok hh []
  exact ⟨_, bind_eq_ok.mpr ⟨props, hprops, rfl⟩⟩

/-! ## The loop -/

/-- What is in belongs to every set that contains what it defends. -/
theorem label_subset (hg : Coherent g) {hs : List Hash} {S : Set Hash}
    (hS : defence (fun a b => b ∈ g.attackers a) {h | h ∈ hs} S ≤ S) : ((label g hs).inEdges : Set Hash) ⊆ S := by
  have inv : Admissible (fun a b => b ∈ g.attackers a) (label g hs).inEdges (label g hs).outEdges ∧
      ((label g hs).inEdges : Set Hash) ⊆ S := by
    refine saturate_inv (I := fun l : Labelling =>
      Admissible (fun a b => b ∈ g.attackers a) l.inEdges l.outEdges ∧ (l.inEdges : Set Hash) ⊆ S) _ ?_
      ⟨by simpa using Admissible.empty, by simp⟩
    rintro h hh l l' ⟨hl, hin⟩ hstep
    unfold labelStep at hstep
    split_ifs at hstep with hlabel hall
    cases hstep
    rw [not_or] at hlabel
    have hatt : ∀ a, h ∈ g.attackers a → a ∈ (l.outEdges : Set Hash) := fun a ha => hall ((hg a h).mp ha)
    have hacc := hl.accept hlabel.2 hatt
    have hsub := hl.accept_subset hS hin hh hatt
    exact ⟨by simpa using hacc, by simpa using hsub⟩
  exact inv.2

/-- Nothing is left to accept. -/
theorem label_done (hg : Coherent g) {hs : List Hash} {h : Hash} (hh : h ∈ hs)
    (hatt : ∀ a, h ∈ g.attackers a → a ∈ (label g hs).outEdges) : h ∈ (label g hs).inEdges := by
  have hnone : labelStep g h (label g hs) = none := saturate_done _ _ h hh
  have hout := (label_admissible hg hs).notMem_out hatt
  have hsub : g.attackedBy h ⊆ (label g hs).outEdges := fun a ha => hatt a ((hg a h).mpr ha)
  unfold labelStep at hnone
  split_ifs at hnone with hlabel
  exact hlabel.resolve_right hout

theorem label_eq_lfp (hg : Coherent g) (hs : List Hash) :
    ((label g hs).inEdges : Set Hash) = OrderHom.lfp (defence (fun a b => b ∈ g.attackers a) {h | h ∈ hs}) :=
  (label_admissible hg hs).eq_lfp (label_subset hg (OrderHom.map_lfp _).le) fun _ hh hatt => label_done hg hh hatt

/-! ## The active subgraph -/

/-- `compute_active_subgraph`, for the edges in some order. -/
def activeOver (P : Prims) (storage : Storage) (edges : List (Hash × Edge)) : Except PyError ActiveSubgraph := do
  let hs := edges.map Prod.fst
  let g ← attackGraph P storage edges
  let l := label g hs
  pure { inEdges := l.inEdges, outEdges := l.outEdges, undecidedEdges := (hs.toFinset \ l.inEdges) \ l.outEdges }

theorem computeActiveSubgraph_eq :
    computeActiveSubgraph P storage = activeOver P storage (storedEdges P storage) := rfl

/-- The grounded labelling of the edges `E`. -/
structure IsGrounded (attacks : Hash → Hash → Prop) (E : Set Hash) (A : ActiveSubgraph) : Prop where
  inn : (A.inEdges : Set Hash) = OrderHom.lfp (defence attacks E)
  out : ∀ t, t ∈ A.outEdges ↔ ∃ h ∈ A.inEdges, attacks h t
  undecided : ∀ h, h ∈ A.undecidedEdges ↔ h ∈ E ∧ h ∉ A.inEdges ∧ h ∉ A.outEdges
  covers : ∀ h, h ∈ E ↔ h ∈ A.inEdges ∨ h ∈ A.outEdges ∨ h ∈ A.undecidedEdges
  disjoint : Disjoint A.inEdges A.outEdges ∧ Disjoint A.inEdges A.undecidedEdges ∧
    Disjoint A.outEdges A.undecidedEdges

theorem IsGrounded.unique {attacks : Hash → Hash → Prop} {E : Set Hash} {A A' : ActiveSubgraph}
    (h : IsGrounded attacks E A) (h' : IsGrounded attacks E A') : A = A' := by
  have hin : A.inEdges = A'.inEdges := Finset.coe_injective (h.inn.trans h'.inn.symm)
  have hout : A.outEdges = A'.outEdges := by
    ext t
    rw [h.out, h'.out, hin]
  have hund : A.undecidedEdges = A'.undecidedEdges := by
    ext t
    rw [h.undecided, h'.undecided, hin, hout]
  cases A
  cases A'
  simp_all

/-- The hashes of some edges. -/
def hashes (edges : List (Hash × Edge)) : Set Hash := {h | h ∈ edges.map Prod.fst}

theorem mem_hashes_of_attack (h : Attack P storage edges a b) : a ∈ hashes edges ∧ b ∈ hashes edges := by
  obtain ⟨e, e', he, he', -⟩ | ⟨e, e', n, n', he, he', -⟩ := h
  all_goals exact ⟨List.mem_map_of_mem (f := Prod.fst) he, List.mem_map_of_mem (f := Prod.fst) he'⟩

theorem activeOver_grounded (hE : P.EqualLaws) (hh : Hashable P storage edges) :
    ∃ A, activeOver P storage edges = .ok A ∧ IsGrounded (Attack P storage edges) (hashes edges) A := by
  obtain ⟨g, hg⟩ := attackGraph_ok hh
  have hcoh := attackGraph_coherent hg
  have hatt : (fun a b => b ∈ g.attackers a) = Attack P storage edges := by
    funext a b
    exact propext (mem_attackers_attackGraph hE hg)
  have hadm := label_admissible hcoh (edges.map Prod.fst)
  have hlfp := label_eq_lfp hcoh (edges.map Prod.fst)
  rw [hatt] at hadm hlfp
  refine ⟨_, bind_eq_ok.mpr ⟨g, hg, rfl⟩, hlfp, fun t => hadm.mem_out_iff, fun h => ?_, fun h => ?_, ?_⟩
  · simp only [hashes, Finset.mem_sdiff, List.mem_toFinset, Set.mem_ofPred_eq, and_assoc]
  · have hin : h ∈ (label g (edges.map Prod.fst)).inEdges → h ∈ hashes edges := by
      intro hin
      have hmem : h ∈ defence (Attack P storage edges) (hashes edges)
          (OrderHom.lfp (defence (Attack P storage edges) (hashes edges))) := by
        rw [OrderHom.map_lfp]
        exact hlfp ▸ hin
      exact hmem.1
    have hout : h ∈ (label g (edges.map Prod.fst)).outEdges → h ∈ hashes edges := by
      intro hout
      obtain ⟨a, -, ha⟩ := hadm.justified h hout
      exact (mem_hashes_of_attack ha).2
    simp only [Finset.mem_sdiff, List.mem_toFinset]
    rw [hashes, Set.mem_ofPred_eq] at hin hout ⊢
    tauto
  · refine ⟨Finset.disjoint_left.mpr fun h hi => hadm.disjoint h hi, Finset.disjoint_left.mpr fun h hi hu => ?_,
      Finset.disjoint_left.mpr fun h ho hu => ?_⟩
    · simp only [Finset.mem_sdiff] at hu
      exact hu.1.2 hi
    · simp only [Finset.mem_sdiff] at hu
      exact hu.2 ho

theorem attack_perm {edges' : List (Hash × Edge)} (h : edges'.Perm edges) :
    Attack P storage edges' = Attack P storage edges := by
  funext a b
  simp only [Attack, Refutes, Contends, h.mem_iff]

/-- The active subgraph is the grounded labelling of the attack graph, and
does not depend on the order in which the edges are enumerated. -/
theorem active_grounded (hE : P.EqualLaws) (storage : Storage) (hh : Hashable P storage (storedEdges P storage)) :
    ∃ A, computeActiveSubgraph P storage = .ok A ∧
      IsGrounded (Attack P storage (storedEdges P storage)) (hashes (storedEdges P storage)) A ∧
      ∀ edges, edges.Perm (storedEdges P storage) → activeOver P storage edges = .ok A := by
  obtain ⟨A, hA, hgr⟩ := activeOver_grounded hE hh
  refine ⟨A, computeActiveSubgraph_eq.trans hA, hgr, fun edges hperm => ?_⟩
  have hh' : Hashable P storage edges := fun p hp => hh p (hperm.mem_iff.mp hp)
  obtain ⟨A', hA', hgr'⟩ := activeOver_grounded hE hh'
  have hhash : hashes edges = hashes (storedEdges P storage) :=
    Set.ext fun h => (hperm.map Prod.fst).mem_iff
  rw [attack_perm hperm, hhash] at hgr'
  rw [hA', hgr'.unique hgr]

section Example

open Reference

theorem active_grounded_opposed : ∃ A, computeActiveSubgraph reference (CommitCall.run reference opposed) = .ok A ∧
    IsGrounded
      (Attack reference (CommitCall.run reference opposed)
        (storedEdges reference (CommitCall.run reference opposed)))
      (hashes (storedEdges reference (CommitCall.run reference opposed))) A ∧
    ∀ edges, edges.Perm (storedEdges reference (CommitCall.run reference opposed)) →
      activeOver reference (CommitCall.run reference opposed) edges = .ok A := by
  have hh : ∀ p ∈ storedEdges reference (CommitCall.run reference opposed),
      ∀ n ∈ resolveNode reference p.2.conclusion (CommitCall.run reference opposed),
        n.claim.hashable = true ∧ n.domain.hashable = true := by decide +kernel
  exact active_grounded reference_equalLaws _ fun p hp n hn => hh p hp n hn

end Example

end ArxDB.Proof
