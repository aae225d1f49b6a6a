import ArxDB.Framework.Grounded
import ArxDB.Impl.Refutation
import ArxDB.Proof.Reachability
import ArxDB.Proof.Store

/-!
# The active subgraph is consistent

The attack graph has an attack wherever two stored edges conclude one
proposition with opposite polarity (`attackGraph_contend`), and the labelling
loop keeps its labelling admissible (`label_admissible`), so no two edges that
are in attack each other. A node that is derivable over them is concluded by
one of them, so a proposition and its negation are not both derivable
(`active_consistent`).
-/

namespace ArxDB.Proof

open Impl Impl.Refutation Grounded Saturate

variable {P : Prims}

/-! ## Attacks -/

/-- The two dicts hold the same attacks. -/
def Coherent (g : Attacks) : Prop := ∀ a b, b ∈ g.attackers a ↔ a ∈ g.attackedBy b

section Attacks

variable {g : Attacks} {a b h t : Hash}

theorem mem_attackers_add : b ∈ (g.add h t).attackers a ↔ b ∈ g.attackers a ∨ (a = h ∧ b = t) := by
  simp only [Attacks.add]
  by_cases ha : a = h
  · subst ha
    rw [Function.update_self, Finset.mem_insert, or_comm]
    simp
  · simp [ha]

theorem mem_attackedBy_add : a ∈ (g.add h t).attackedBy b ↔ a ∈ g.attackedBy b ∨ (a = h ∧ b = t) := by
  simp only [Attacks.add]
  by_cases hb : b = t
  · subst hb
    rw [Function.update_self, Finset.mem_insert, or_comm]
    simp
  · simp [hb]

theorem coherent_empty : Coherent .empty := by simp [Coherent, Attacks.empty]

theorem Coherent.add (hg : Coherent g) (h t : Hash) : Coherent (g.add h t) := by
  intro a b
  rw [mem_attackers_add, mem_attackedBy_add, hg a b]

theorem Coherent.addContention (hg : Coherent g) (q : Proposition) : Coherent (addContention g q) :=
  List.foldlRecOn _ contend hg fun _ hg _ _ => (hg.add _ _).add _ _

theorem attackers_contend (hb : b ∈ g.attackers a) (p : Hash × Hash) : b ∈ (contend g p).attackers a :=
  mem_attackers_add.mpr (.inl (mem_attackers_add.mpr (.inl hb)))

theorem attackers_addContention (hb : b ∈ g.attackers a) (q : Proposition) :
    b ∈ (addContention g q).attackers a :=
  List.foldlRecOn (motive := fun g => b ∈ g.attackers a) _ contend hb fun _ hb p _ => attackers_contend hb p

/-- Items of opposite polarity attack each other. -/
theorem mem_attackers_addContention {q : Proposition} {pol pol' : Value} (h₁ : (a, pol) ∈ q.items)
    (h₂ : (b, pol') ∈ q.items) (hpos : pol.truthy = true) (hneg : pol'.truthy = false) :
    b ∈ (addContention g q).attackers a := by
  have hpair : (a, b) ∈ List.product ((q.items.filter fun i => i.2.truthy).map Prod.fst)
      ((q.items.filter fun i => !i.2.truthy).map Prod.fst) := by
    rw [List.pair_mem_product]
    refine ⟨List.mem_map.mpr ⟨_, List.mem_filter.mpr ⟨h₁, hpos⟩, rfl⟩, ?_⟩
    exact List.mem_map.mpr ⟨_, List.mem_filter.mpr ⟨h₂, by simp [hneg]⟩, rfl⟩
  exact forall_foldl (Q := fun p g => p.2 ∈ g.attackers p.1)
    (fun p _ g => mem_attackers_add.mpr (.inl (mem_attackers_add.mpr (.inr ⟨rfl, rfl⟩))))
    (fun _ _ p hb => attackers_contend hb p) g _ hpair

end Attacks

/-! ## Propositions -/

/-- The item is under the key of `n`. -/
def Filed (P : Prims) (n : Node) (item : Hash × Value) (qs : List Proposition) : Prop :=
  ∃ q, qs.find? (Proposition.matches P n) = some q ∧ item ∈ q.items

section Propositions

variable {n n' : Node} {item : Hash × Value} {qs qs' : List Proposition} {h : Hash}

theorem filed_appendItem (hclaim : P.equal n.claim n.claim = true) (hdomain : P.equal n.domain n.domain = true) :
    Filed P n (h, n.polarity) (appendItem P h n qs) := by
  induction qs with
  | nil =>
    refine ⟨⟨n.claim, n.domain, [(h, n.polarity)]⟩, List.find?_cons_of_pos ?_, List.mem_singleton.mpr rfl⟩
    rw [Proposition.matches, hclaim, hdomain]
    rfl
  | cons q qs ih =>
    rw [appendItem]
    split
    · rename_i hq
      exact ⟨_, List.find?_cons_of_pos hq, by simp⟩
    · rename_i hq
      obtain ⟨q', hf, hi⟩ := ih
      exact ⟨q', by rw [List.find?_cons_of_neg hq, hf], hi⟩

theorem Filed.appendItem (hf : Filed P n item qs) : Filed P n item (appendItem P h n' qs) := by
  induction qs with
  | nil =>
    obtain ⟨q, hq, -⟩ := hf
    cases hq
  | cons q qs ih =>
    obtain ⟨q', hq', hi⟩ := hf
    rw [Refutation.appendItem]
    by_cases hq : q.matches P n = true
    · rw [List.find?_cons_of_pos hq, Option.some.injEq] at hq'
      subst hq'
      split
      · exact ⟨_, List.find?_cons_of_pos hq, List.mem_append_left _ hi⟩
      · exact ⟨_, List.find?_cons_of_pos hq, hi⟩
    · rw [List.find?_cons_of_neg hq] at hq'
      split
      · exact ⟨q', (List.find?_cons_of_neg (by exact hq)).trans hq', hi⟩
      · obtain ⟨q'', hq'', hi'⟩ := ih ⟨q', hq', hi⟩
        exact ⟨q'', by rw [List.find?_cons_of_neg hq, hq''], hi'⟩

theorem byProp_keeps {storage : Storage} {edges : List (Hash × Edge)} (hb : byProp P storage edges qs = .ok qs')
    (hf : Filed P n item qs) : Filed P n item qs' := by
  induction edges generalizing qs with
  | nil =>
    cases hb
    exact hf
  | cons p edges ih =>
    rw [byProp] at hb
    split at hb
    · exact ih hb hf
    · split_ifs at hb
      exact ih hb hf.appendItem

/-- Every edge whose conclusion resolves is filed under its proposition. -/
theorem byProp_filed {storage : Storage} {edges : List (Hash × Edge)} (hb : byProp P storage edges qs = .ok qs')
    (hclaim : P.equal n.claim n.claim = true) (hdomain : P.equal n.domain n.domain = true) {p : Hash × Edge}
    (hp : p ∈ edges) (hn : resolveNode P p.2.conclusion storage = some n) : Filed P n (p.1, n.polarity) qs' := by
  induction edges generalizing qs with
  | nil => cases hp
  | cons q edges ih =>
    rw [byProp] at hb
    rcases List.mem_cons.mp hp with rfl | hp
    · simp only [hn] at hb
      split_ifs at hb
      exact byProp_keeps hb (filed_appendItem hclaim hdomain)
    · split at hb
      · exact ih hb hp
      · split_ifs at hb
        exact ih hb hp

end Propositions

/-! ## The attack graph -/

section AttackGraph

variable {storage : Storage} {edges : List (Hash × Edge)} {g : Attacks}

theorem attackGraph_coherent (hg : attackGraph P storage edges = .ok g) : Coherent g := by
  obtain ⟨props, -, hg⟩ := bind_eq_ok.mp hg
  cases hg
  have hrefutations : Coherent (edges.foldl (addRefutation edges) .empty) := by
    refine List.foldlRecOn edges (addRefutation edges) coherent_empty fun g hg p _ => ?_
    unfold addRefutation
    split
    exacts [hg.add _ _, hg]
  exact List.foldlRecOn props addContention hrefutations fun g hg q _ => hg.addContention q

/-- Edges that conclude one proposition with opposite polarity attack each other. -/
theorem attackGraph_contend (hg : attackGraph P storage edges = .ok g) {p p' : Hash × Edge} (hp : p ∈ edges)
    (hp' : p' ∈ edges) {n n' : Node} (hn : resolveNode P p.2.conclusion storage = some n)
    (hn' : resolveNode P p'.2.conclusion storage = some n') (hclaim : n'.claim = n.claim)
    (hdomain : n'.domain = n.domain) (hec : P.equal n.claim n.claim = true)
    (hed : P.equal n.domain n.domain = true) (hpos : n.polarity.truthy = true) (hneg : n'.polarity.truthy = false) :
    p'.1 ∈ g.attackers p.1 := by
  obtain ⟨props, hprops, hg⟩ := bind_eq_ok.mp hg
  cases hg
  obtain ⟨q, hq, hi⟩ := byProp_filed hprops hec hed hp hn
  obtain ⟨q', hq', hi'⟩ := byProp_filed hprops (hclaim ▸ hec) (hdomain ▸ hed) hp' hn'
  have hkey : Proposition.matches P n' = Proposition.matches P n := by
    funext q
    rw [Proposition.matches, Proposition.matches, hclaim, hdomain]
  rw [hkey, hq, Option.some.injEq] at hq'
  subst hq'
  exact forall_foldl (Q := fun q (g : Attacks) => (p.1, n.polarity) ∈ q.items → (p'.1, n'.polarity) ∈ q.items →
      p'.1 ∈ g.attackers p.1)
    (fun q _ g h₁ h₂ => mem_attackers_addContention h₁ h₂ hpos hneg)
    (fun _ _ q hb h₁ h₂ => attackers_addContention (hb h₁ h₂) q) _ q (List.mem_of_find?_eq_some hq) hi hi'

end AttackGraph

/-! ## The labelling -/

/-- A labelling is admissible all along. -/
theorem label_admissible {g : Attacks} (hg : Coherent g) (hs : List Hash) :
    Admissible (fun a b => b ∈ g.attackers a) (label g hs).inEdges (label g hs).outEdges := by
  refine saturate_inv (I := fun l : Labelling => Admissible (fun a b => b ∈ g.attackers a) l.inEdges l.outEdges) _ ?_
    (by simpa using Admissible.empty)
  intro h _ l l' hl hstep
  unfold labelStep at hstep
  split_ifs at hstep with hlabel hall
  cases hstep
  rw [not_or] at hlabel
  have := hl.accept hlabel.2 fun a ha => hall ((hg a h).mp ha)
  simpa using this

theorem mem_storedEdges {storage : Storage} {p : Hash × Edge} :
    p ∈ storedEdges P storage ↔ p.1 ∈ storage.graph.allEdges ∧ resolveEdge P p.1 storage = some p.2 := by
  obtain ⟨h, e⟩ := p
  simp [storedEdges]

/-! ## Consistency -/

/-- `Node(claim, domain, polarity)`. -/
def proposition (claim domain : String) (polarity : Bool) : Node := ⟨.str claim, .str domain, .bool polarity⟩

/-- Without hypothetical seeds, what is derivable is concluded by an edge. -/
theorem concluded_of_established {target : Hash} {storage : Storage} {minKappa : Kappa} {active : Finset Hash}
    {r : ReachabilityResult} (hr : Reachability.reachable P target storage minKappa [] (some active) = .ok r)
    (he : r.established = true) : ∃ p ∈ usable P storage (some active), p.2.conclusion = target := by
  obtain ⟨r', hr', hiff⟩ := reachable_derives P target storage minKappa [] (some active)
  rw [hr, Except.ok.injEq] at hr'
  subst hr'
  obtain ⟨t, -⟩ := hiff.mp he
  cases t with
  | seed hn => cases hn
  | step p hp sub => exact ⟨p, hp, rfl⟩

/-- Two usable edges that are in do not conclude a proposition and its negation. -/
theorem not_both_concluded {storage : Storage} {A : ActiveSubgraph} (hA : computeActiveSubgraph P storage = .ok A)
    {claim domain : String} {p p' : Hash × Edge} (hp : p ∈ usable P storage (some A.inEdges))
    (hp' : p' ∈ usable P storage (some A.inEdges))
    (hn : resolveNode P p.2.conclusion storage = some (proposition claim domain true)) :
    resolveNode P p'.2.conclusion storage ≠ some (proposition claim domain false) := by
  intro hn'
  obtain ⟨g, hg, hA⟩ := bind_eq_ok.mp hA
  cases hA
  obtain ⟨hmem, hin, hres, -, -⟩ := hp
  obtain ⟨hmem', hin', hres', -, -⟩ := hp'
  have hattack := attackGraph_contend hg (mem_storedEdges.mpr ⟨hmem, hres⟩) (mem_storedEdges.mpr ⟨hmem', hres'⟩)
    hn hn' rfl rfl (by simp [proposition]) (by simp [proposition]) rfl rfl
  exact (label_admissible (attackGraph_coherent hg) _).conflictFree (hin _ rfl) (hin' _ rfl) hattack

/-- A node that is stored under its hash resolves to itself. -/
theorem resolveNode_proposition (hc : P.CborLaws) {storage : Storage} {M : Set Bytes} (hM : Set.InjOn P.hashBytes M)
    (hmatch : ∀ k blob, ObjectStore.get storage.objects k = some blob → blob ∈ M ∧ P.hashBytes blob = k)
    {claim domain : String} {polarity : Bool} {b : Bytes} (hb : (proposition claim domain polarity).nodeBytes P = .ok b)
    (hbM : b ∈ M) {blob : Bytes} (hg : ObjectStore.get storage.objects (P.hashBytes b) = some blob) :
    resolveNode P (P.hashBytes b) storage = some (proposition claim domain polarity) := by
  obtain ⟨hblob, hhash⟩ := hmatch _ _ hg
  obtain rfl := hM hblob hbM hhash
  obtain ⟨⟨c, d, p⟩, hd, same, -⟩ := node_fromBytes hc hb
  obtain rfl : c = _ := restored_scalar rfl same.claim
  obtain rfl : d = _ := restored_scalar rfl same.domain
  obtain rfl : p = _ := restored_scalar rfl same.polarity
  simp only [resolveNode, hg]
  rw [toOption_eq_some, hd]

/-- A proposition and its negation are not both derivable over the edges that
are in, in any store that has the conclusions of its edges that are no
refutations, and has every blob under its hash. -/
theorem active_consistent (hc : P.CborLaws) (storage : Storage) (claim domain : String)
    (hconclusions : ∀ h ∈ storage.graph.allEdges, ∀ e, resolveEdge P h storage = some e → e.type ≠ .refutation →
      ∃ blob, ObjectStore.get storage.objects e.conclusion = some blob)
    (hmatch : ∀ k blob, ObjectStore.get storage.objects k = some blob → P.hashBytes blob = k)
    (hM : Set.InjOn P.hashBytes {m | (∃ k, ObjectStore.get storage.objects k = some m) ∨
      ∃ polarity, (proposition claim domain polarity).nodeBytes P = .ok m})
    {A : ActiveSubgraph} (hA : computeActiveSubgraph P storage = .ok A) {pos neg : Hash}
    (hpos : (proposition claim domain true).nodeId P = .ok pos)
    (hneg : (proposition claim domain false).nodeId P = .ok neg) {k k' : Kappa} {r r' : ReachabilityResult}
    (hr : Reachability.reachable P pos storage k [] (some A.inEdges) = .ok r)
    (hr' : Reachability.reachable P neg storage k' [] (some A.inEdges) = .ok r') :
    ¬ (r.established = true ∧ r'.established = true) := by
  rintro ⟨he, he'⟩
  obtain ⟨p, hp, hcp⟩ := concluded_of_established hr he
  obtain ⟨p', hp', hcp'⟩ := concluded_of_established hr' he'
  obtain ⟨b, hb, rfl⟩ := nodeId_eq_ok.mp hpos
  obtain ⟨b', hb', rfl⟩ := nodeId_eq_ok.mp hneg
  have resolve : ∀ {q : Hash × Edge} {polarity data}, q ∈ usable P storage (some A.inEdges) →
      (proposition claim domain polarity).nodeBytes P = .ok data → q.2.conclusion = P.hashBytes data →
      resolveNode P q.2.conclusion storage = some (proposition claim domain polarity) := by
    intro q polarity data hq hdata hconclusion
    obtain ⟨blob, hblob⟩ := hconclusions q.1 hq.1 q.2 hq.2.2.1 hq.2.2.2.1
    rw [hconclusion] at hblob ⊢
    exact resolveNode_proposition hc hM (fun k blob h => ⟨.inl ⟨k, h⟩, hmatch k blob h⟩) hdata (.inr ⟨_, hdata⟩) hblob
  exact not_both_concluded hA hp hp' (resolve hp hb hcp) (resolve hp' hb' hcp')

section Example

open Reference

/-- Definitions of a proposition and of its negation. -/
def opposed : List CommitCall :=
  let keys : Keys := ⟨List.replicate 32 7, List.replicate 32 7⟩
  [true, false].map fun polarity =>
    ⟨lenient, keys, 10, none,
      ⟨.bytes keys.pub, [], proposition "a" "math" polarity, .str "r", .definition, none, defaultTimeout⟩⟩

/-- The blobs of `opposed`; its nodes are among them. -/
def opposedBlobs : List Bytes := (opposed.flatMap (blobs reference)).dedup

theorem mem_opposedBlobs_of_node {polarity : Bool} {m : Bytes}
    (h : (proposition "a" "math" polarity).nodeBytes reference = .ok m) : m ∈ opposedBlobs := by
  have key : ∀ polarity, ∀ m ∈ ((proposition "a" "math" polarity).nodeBytes reference).toOption,
      m ∈ opposedBlobs := by
    decide +kernel
  exact key polarity m (toOption_eq_some.mpr h)

theorem active_consistent_opposed :
    ∃ A pos neg r r', computeActiveSubgraph reference (CommitCall.run reference opposed) = .ok A ∧
    (proposition "a" "math" true).nodeId reference = .ok pos ∧
    (proposition "a" "math" false).nodeId reference = .ok neg ∧
    Reachability.reachable reference pos (CommitCall.run reference opposed) .k0 [] (some A.inEdges) = .ok r ∧
    Reachability.reachable reference neg (CommitCall.run reference opposed) .k0 [] (some A.inEdges) = .ok r' ∧
    ¬ (r.established = true ∧ r'.established = true) := by
  have hnodup : (opposedBlobs.map reference.hashBytes).Nodup := by decide +kernel
  obtain ⟨cs, hs⟩ := run_stored reference_cborLaws opposed (callBlobs_injOn hnodup)
  have hsome : (computeActiveSubgraph reference (CommitCall.run reference opposed)).toOption.isSome = true := by
    decide +kernel
  obtain ⟨A, hA⟩ := Option.isSome_iff_exists.mp hsome
  rw [toOption_eq_some] at hA
  have hid : ∀ polarity, ((proposition "a" "math" polarity).nodeId reference).toOption.isSome = true := by
    decide +kernel
  obtain ⟨pos, hpos⟩ := Option.isSome_iff_exists.mp (hid true)
  obtain ⟨neg, hneg⟩ := Option.isSome_iff_exists.mp (hid false)
  rw [toOption_eq_some] at hpos hneg
  obtain ⟨r, hr, -⟩ := reachable_derives reference pos (CommitCall.run reference opposed) .k0 [] (some A.inEdges)
  obtain ⟨r', hr', -⟩ := reachable_derives reference neg (CommitCall.run reference opposed) .k0 [] (some A.inEdges)
  have hconclusions : ∀ h ∈ (CommitCall.run reference opposed).graph.allEdges,
      ∀ e ∈ resolveEdge reference h (CommitCall.run reference opposed),
        (ObjectStore.get (CommitCall.run reference opposed).objects e.conclusion).isSome = true := by decide +kernel
  refine ⟨A, pos, neg, r, r', hA, hpos, hneg, hr, hr', active_consistent reference_cborLaws _ "a" "math"
    (fun h hh e he _ => Option.isSome_iff_exists.mp (hconclusions h hh e he))
    (fun k blob hg => (hs.addressed.hash_eq hg).2) (injOn_of_nodup opposedBlobs (fun m hm => ?_) hnodup)
    hA hpos hneg hr hr'⟩
  rcases hm with ⟨k, hg⟩ | ⟨polarity, hb⟩
  · obtain ⟨c, hc, hm⟩ := (hs.addressed.hash_eq hg).1
    exact List.mem_dedup.mpr (List.mem_flatMap.mpr ⟨c, hc, hm⟩)
  · exact mem_opposedBlobs_of_node hb

end Example

end ArxDB.Proof
