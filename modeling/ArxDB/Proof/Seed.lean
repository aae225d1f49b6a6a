import ArxDB.Impl.Seed
import ArxDB.Proof.Store

/-!
# Seeding again after a failure

A round of `seed` skips an edge whose blob is there (`seedEdge_wp`), on the
assumption that such an edge is committed. `commit_edge_tx` puts the blob
before its transaction, so a run that stops between the two leaves an orphan,
which every later run skips. `Since` says what the rounds of a run have done so
far, whatever was there before, and `Since.orphaned_iff` when a round leaves an
orphan: when there was one, or when the proof that it puts is the edge of a
later round. So a run that is not interrupted commits the whole corpus
exactly if neither is the case (`seed_converges_iff`).
-/

namespace ArxDB.Proof

open Impl Failing

variable {P : Prims}

/-! ## What is put -/

/-- What is there after a put was there or is put. -/
theorem has_of_insert {objects : Files} {b b' : Bytes} (h : Has P (ObjectStore.insert P objects b') b) :
    Has P objects b ∨ b = b' := by
  unfold ObjectStore.insert at h
  split at h
  · exact .inl h
  · rw [Has, ObjectStore.get, ObjectStore.replace] at h
    split at h
    · exact .inr (Option.some.inj h).symm
    · exact .inl h

theorem has_of_putAll {objects : Files} {b : Bytes} {bs : List Bytes} (h : Has P (putAll P objects bs) b) :
    Has P objects b ∨ b ∈ bs := by
  induction bs generalizing objects with
  | nil => exact .inl h
  | cons b' bs ih =>
    obtain h | h := ih h
    · obtain h | rfl := has_of_insert h
      · exact .inl h
      · exact .inr List.mem_cons_self
    · exact .inr (List.mem_cons_of_mem _ h)

/-- The bytes of a node are not those of an edge. -/
theorem nodeBytes_ne_edgeBytes (hc : P.CborLaws) {n : Node} {e : Edge} {b : Bytes} (hn : n.nodeBytes P = .ok b)
    (he : e.edgeBytes P = .ok b) : False := by
  obtain ⟨e', he', -, -⟩ := edge_fromBytes hc he
  exact node_not_edge hc hn e' he'

/-! ## The corpus -/

variable {checkers : Checkers} {corpus : Corpus} {signerPubkey : Bytes}

/-- The commit of a proposal. -/
def seedCall (checkers : Checkers) (keys : Keys) (now : Int) (q : Proposal) : CommitCall :=
  ⟨checkers, keys, now, none, q⟩

/-- `q` is proposed for an edge of the corpus and accepted as `edge`, of these bytes. -/
structure Accepted (P : Prims) (checkers : Checkers) (q : Proposal) (edge : Edge) (data : Bytes) : Prop where
  built : Seed.buildEdge P checkers q = .ok (some edge)
  bytes : edge.edgeBytes P = .ok data

theorem buildEdge_eq_some {keys : Keys} {now : Int} {q : Proposal} {edge : Edge} :
    Seed.buildEdge P checkers q = .ok (some edge) ↔ edge? P (seedCall checkers keys now q) = some edge := by
  rw [edge?_eq_some, Seed.buildEdge, bind_eq_ok]
  refine exists_congr fun v => and_congr_right fun _ => ?_
  cases v.rejected with
  | true => simp [pure, Except.pure]
  | false => simp [bind_eq_ok, pure, Except.pure, seedCall]

/-- The blobs that the corpus can put. -/
def corpusBlobs (P : Prims) (checkers : Checkers) (corpus : Corpus) (signerPubkey : Bytes) : Set Bytes :=
  callBlobs P (corpus.edges.filterMap fun e =>
    (Seed.proposal corpus signerPubkey e).toOption.map (seedCall checkers ⟨[], []⟩ 0))

theorem blobs_mem {e : CorpusEdge} (he : e ∈ corpus.edges) {q : Proposal}
    (hq : Seed.proposal corpus signerPubkey e = .ok q) {keys : Keys} {now : Int} :
    ∀ b ∈ blobs P (seedCall checkers keys now q), b ∈ corpusBlobs P checkers corpus signerPubkey :=
  fun _ hb => ⟨seedCall checkers ⟨[], []⟩ 0 q,
    List.mem_filterMap.mpr ⟨e, he, by rw [hq, Except.toOption, Option.map_some]⟩,
    hb⟩

/-- The blob resolves to an edge. -/
def Found (P : Prims) (s : Storage) (data : Bytes) : Prop := (resolveEdge P (P.hashBytes data) s).isSome = true

/-- What one round does. -/
inductive Round (P : Prims) (checkers : Checkers) (q : Proposal) (s s' : Storage) : Prop
  | rejected : Seed.buildEdge P checkers q = .ok none → s' = s → Round P checkers q s s'
  | skipped {edge : Edge} {data : Bytes} : Accepted P checkers q edge data → Found P s data → s' = s →
      Round P checkers q s s'
  | committed {edge : Edge} {data : Bytes} {keys : Keys} {now : Int} : Accepted P checkers q edge data →
      ¬ Found P s data → Completes P (seedCall checkers keys now q) s edge data s' → Round P checkers q s s'

/-- What a round that fails leaves. -/
inductive Broken (P : Prims) (checkers : Checkers) (q : Proposal) (s s' : Storage) : Prop
  | stopped {keys : Keys} {now : Int} : Stops P (seedCall checkers keys now q) s s' → Broken P checkers q s s'
  | committed {edge : Edge} {data : Bytes} {keys : Keys} {now : Int} : Accepted P checkers q edge data →
      Completes P (seedCall checkers keys now q) s edge data s' → Broken P checkers q s s'

/-- A call whose proposal is accepted is not rejected. -/
theorem verifyAndCommit_accepted {c : CommitCall} {e : Edge} {s : Storage} (h : edge? P c = some e) :
    WP (c.prog P) (fun r _ => r.rejected = false) (fun _ _ => True) s := by
  obtain ⟨v, hv, hrej, -⟩ := edge?_eq_some.mp h
  rw [CommitCall.prog, verifyAndCommit, hv]
  refine .bind (.lift_ok ?_)
  rw [hrej, if_neg Bool.false_ne_true]
  have skip : ∀ {α β : Type} {x : Prog PyError Storage α} {f : α → Prog PyError Storage β} {Q : β → Storage → Prop}
      {s : Storage}, (∀ a s, WP (f a) Q (fun _ _ => True) s) → WP (x >>= f) Q (fun _ _ => True) s :=
    fun h => .bind (WP.triv.mono (fun a s _ => h a s) fun _ _ _ => trivial)
  refine skip fun hs _ => skip fun h _ => skip fun _ _ => skip fun _ _ => skip fun data _ => skip fun r _ => ?_
  exact .pure hrej

theorem seedEdge_wp {keys : Keys} {now : Int} {e : CorpusEdge} {s : Storage} :
    WP (Seed.seedEdge P checkers keys now corpus signerPubkey e)
      (fun _ s' => ∃ q, Seed.proposal corpus signerPubkey e = .ok q ∧ Round P checkers q s s')
      (fun _ s' => s' = s ∨ ∃ q, Seed.proposal corpus signerPubkey e = .ok q ∧ Broken P checkers q s s') s := by
  rw [Seed.seedEdge]
  refine .bind <| .lift (fun q hq => ?_) fun _ _ => .inl rfl
  refine .bind <| .lift (fun o ho => ?_) fun _ _ => .inl rfl
  cases o with
  | none => exact .pure ⟨q, hq, .rejected ho rfl⟩
  | some edge =>
    refine .bind <| .lift (fun h hh => ?_) fun _ _ => .inl rfl
    obtain ⟨data, hdata, rfl⟩ := edgeHash_eq_ok.mp hh
    have hacc : Accepted P checkers q edge data := ⟨ho, hdata⟩
    refine .bind (.read ?_)
    split
    · rename_i hfound
      exact .pure ⟨q, hq, .skipped hacc hfound rfl⟩
    · rename_i hfound
      have hedge : edge? P (seedCall checkers keys now q) = some edge := buildEdge_eq_some.mp ho
      have hprog : verifyAndCommit P checkers keys now q = (seedCall checkers keys now q).prog P := rfl
      rw [hprog]
      refine .bind <| (verifyAndCommit_wp.and (verifyAndCommit_accepted hedge)).mono (fun r s' hr => ?_)
        fun _ s' hs' => ?_
      · obtain ⟨hr, hacc'⟩ := hr
        refine .pure ⟨q, hq, ?_⟩
        obtain ⟨hrej, -⟩ | ⟨edge', data', -, hs'⟩ := hr
        · rw [hacc'] at hrej
          cases hrej
        · obtain rfl : edge = edge' := Option.some.inj (hedge.symm.trans hs'.1)
          obtain rfl : data = data' := Except.ok.inj (hdata.symm.trans hs'.2.1)
          exact .committed hacc hfound hs'
      · refine .inr ⟨q, hq, ?_⟩
        obtain ⟨hs' | ⟨edge', data', hs'⟩, -⟩ := hs'
        · exact .stopped hs'
        · obtain rfl : edge = edge' := Option.some.inj (hedge.symm.trans hs'.1)
          exact .committed ⟨ho, hs'.2.1⟩ hs'

/-! ## The invariant -/

theorem Stored.mono {calls calls' : List CommitCall} {s : Storage} {cs : List (Edge × Bytes)} (h : Stored P calls s cs)
    (hsub : ∀ c ∈ calls, c ∈ calls') : Stored P calls' s cs where
  addressed dest blob hd := by
    obtain ⟨⟨c, hc, hb⟩, hpath⟩ := h.addressed dest blob hd
    exact ⟨⟨c, hsub c hc, hb⟩, hpath⟩
  edges := h.edges
  called p hp := by
    obtain ⟨c, hc, he⟩ := h.called p hp
    exact ⟨c, hsub c hc, he⟩
  graph := h.graph
  log := by
    obtain ⟨es, hlog, hes, hpay⟩ := h.log
    refine ⟨es, hlog, ⟨hes.chain, fun e he => ?_⟩, hpay⟩
    obtain ⟨c, hc, hsigned⟩ := hes.signed e he
    exact ⟨c, hsub c hc, hsigned⟩

/-- The store of some calls that put only these blobs. -/
def StoredBy (P : Prims) (M : Set Bytes) (s : Storage) (cs : List (Edge × Bytes)) : Prop :=
  ∃ calls, callBlobs P calls ⊆ M ∧ Stored P calls s cs

namespace StoredBy

variable {M : Set Bytes} {s s' : Storage} {cs : List (Edge × Bytes)} {c : CommitCall}

theorem empty : StoredBy P M .empty [] := ⟨[], fun _ h => absurd h.choose_spec.1 List.not_mem_nil, .empty⟩

/-- Another call may be counted in. -/
theorem with_call (h : StoredBy P M s cs) (hb : ∀ b ∈ blobs P c, b ∈ M) :
    ∃ calls, c ∈ calls ∧ callBlobs P calls ⊆ M ∧ Stored P calls s cs := by
  obtain ⟨calls, hsub, hs⟩ := h
  refine ⟨c :: calls, List.mem_cons_self, ?_, hs.mono fun _ h => List.mem_cons_of_mem _ h⟩
  intro b hbm
  obtain ⟨c', hc', hb'⟩ := hbm
  obtain rfl | hc' := List.mem_cons.mp hc'
  · exact hb b hb'
  · exact hsub ⟨c', hc', hb'⟩

theorem stops (h : StoredBy P M s cs) (hb : ∀ b ∈ blobs P c, b ∈ M) (hs : Stops P c s s') : StoredBy P M s' cs := by
  obtain ⟨calls, hc, hsub, h⟩ := h.with_call hb
  obtain ⟨bs, hbs, rfl⟩ := hs
  exact ⟨calls, hsub, h.storing fun b hb => ⟨c, hc, hbs.subset hb⟩⟩

theorem completes (hc : P.CborLaws) (hM : Set.InjOn P.hashBytes M) (h : StoredBy P M s cs)
    (hb : ∀ b ∈ blobs P c, b ∈ M) {e : Edge} {data : Bytes} (hs : Completes P c s e data s') :
    StoredBy P M s' (cs ++ [(e, data)]) := by
  obtain ⟨calls, hcall, hsub, h⟩ := h.with_call hb
  exact ⟨calls, hsub, h.completes hc (hM.mono hsub) hcall hs⟩

theorem mem_allEdges (h : StoredBy P M s cs) {k : Hash} : k ∈ s.graph.allEdges ↔ ∃ p ∈ cs, P.hashBytes p.2 = k := by
  obtain ⟨calls, -, h⟩ := h
  exact h.mem_allEdges

theorem mem_of_has (h : StoredBy P M s cs) {b : Bytes} (hb : Has P s.objects b) : b ∈ M := by
  obtain ⟨calls, hsub, h⟩ := h
  exact hsub (h.addressed.hash_eq hb).1

/-- A commit adds the hash of its edge. -/
theorem mem_allEdges_completes (hc : P.CborLaws) (hM : Set.InjOn P.hashBytes M) (h : StoredBy P M s cs)
    (hb : ∀ b ∈ blobs P c, b ∈ M) {e : Edge} {data : Bytes} (hs : Completes P c s e data s') {k : Hash} :
    k ∈ s'.graph.allEdges ↔ k ∈ s.graph.allEdges ∨ k = P.hashBytes data := by
  rw [(h.completes hc hM hb hs).mem_allEdges, h.mem_allEdges]
  simp only [List.mem_append, List.mem_singleton, or_and_right, exists_or, exists_eq_left, eq_comm (a := k)]

/-- What resolves is there. -/
theorem found_iff (hc : P.CborLaws) (hM : Set.InjOn P.hashBytes M) (h : StoredBy P M s cs) {e : Edge} {data : Bytes}
    (he : e.edgeBytes P = .ok data) (hdata : data ∈ M) : Found P s data ↔ Has P s.objects data := by
  obtain ⟨calls, hsub, h⟩ := h
  constructor
  · intro hf
    obtain ⟨e', he'⟩ := Option.isSome_iff_exists.mp hf
    rw [resolveEdge] at he'
    cases hg : ObjectStore.get s.objects (P.hashBytes data) with
    | none => rw [hg] at he'; cases he'
    | some b =>
      obtain ⟨hb, hhash⟩ := h.addressed.hash_eq hg
      obtain rfl := hM (hsub hb) hdata hhash
      exact hg
  · intro hhas
    obtain ⟨e', he', -⟩ := resolveEdge_of_has hc he hhas
    exact Option.isSome_iff_exists.mpr ⟨e', he'⟩

end StoredBy

/-! ## Orphans -/

section Corpus

variable (P checkers corpus signerPubkey)

/-- The edge of the corpus is accepted, as an edge of these bytes. -/
def SeedsAs (e : CorpusEdge) (data : Bytes) : Prop :=
  ∃ q edge, Seed.proposal corpus signerPubkey e = .ok q ∧ Accepted P checkers q edge data

/-- The blob of an accepted edge of the corpus is there, and the edge is not in the index. -/
def Orphaned (s : Storage) : Prop :=
  ∃ e ∈ corpus.edges, ∃ data, SeedsAs P checkers corpus signerPubkey e data ∧ Has P s.objects data ∧
    P.hashBytes data ∉ s.graph.allEdges

/-- If a run on `s` commits `e` after the edges `pre`, then the proof of `e` is
not the bytes of an edge that it has still to commit. -/
def InOrder (s : Storage) (pre : List CorpusEdge) (e : CorpusEdge) : Prop :=
  ∀ data, SeedsAs P checkers corpus signerPubkey e data → ¬ Has P s.objects data →
    (∀ e' ∈ pre, ¬ SeedsAs P checkers corpus signerPubkey e' data) →
    ∀ e' ∈ corpus.edges, ∀ data', SeedsAs P checkers corpus signerPubkey e' data' → e.proofBytes = some data' →
      Has P s.objects data' ∨ ∃ e'' ∈ pre ++ [e], SeedsAs P checkers corpus signerPubkey e'' data'

/-- Each of the edges, after those before it. -/
def AllInOrder (s : Storage) : List CorpusEdge → List CorpusEdge → Prop
  | _, [] => True
  | pre, e :: es => InOrder P checkers corpus signerPubkey s pre e ∧ AllInOrder s (pre ++ [e]) es

/-- What `seed` promises: every accepted edge of the corpus is indexed with its
connectivity and logged, and a further run changes nothing. -/
structure Converged (s : Storage) : Prop where
  stored : ∀ e ∈ corpus.edges, ∀ q edge, Seed.proposal corpus signerPubkey e = .ok q →
    Seed.buildEdge P checkers q = .ok (some edge) → ∃ h, edge.edgeHash P = .ok h ∧ h ∈ s.graph.allEdges ∧
      s.graph.getConnectivity h = some (edge.premises, edge.conclusion) ∧
      ∃ seq entry, AppendLog.get s.log seq = .ok (some entry) ∧ edge.edgeBytes P = .ok entry.payload
  stable : ∀ r : SeedRun, ∃ rows,
    (Seed.seed P checkers r.keys r.clock corpus signerPubkey).exec r.fault s = (.ok rows, s)

/-- The edge is rejected, or its blob is there. -/
def Settled (s : Storage) (e : CorpusEdge) : Prop :=
  (∃ q, Seed.proposal corpus signerPubkey e = .ok q ∧ Seed.buildEdge P checkers q = .ok none) ∨
    ∃ data, SeedsAs P checkers corpus signerPubkey e data ∧ Has P s.objects data

/-- The rounds of a run that returns. -/
inductive Rounds : List CorpusEdge → Storage → Storage → Prop
  | nil {s : Storage} : Rounds [] s s
  | cons {e : CorpusEdge} {es : List CorpusEdge} {q : Proposal} {s s' s'' : Storage} :
      Seed.proposal corpus signerPubkey e = .ok q → Round P checkers q s s' → Rounds es s' s'' → Rounds (e :: es) s s''

/-- What the commit of `e` adds. -/
structure Adds (e : CorpusEdge) (data : Bytes) (s s' : Storage) : Prop where
  grows : ∀ b, Has P s.objects b → Has P s'.objects b
  blobs : ∀ b ∈ edgeBlobs data e.proofBytes, Has P s'.objects b
  only : ∀ e' b, SeedsAs P checkers corpus signerPubkey e' b → Has P s'.objects b →
    Has P s.objects b ∨ b ∈ edgeBlobs data e.proofBytes
  index : ∀ k, k ∈ s'.graph.allEdges ↔ k ∈ s.graph.allEdges ∨ k = P.hashBytes data

/-- What holds after the rounds of `pre`, of a run on `s₀`. -/
structure Since (s₀ : Storage) (pre : List CorpusEdge) (s : Storage) : Prop where
  stored : ∃ cs, StoredBy P (corpusBlobs P checkers corpus signerPubkey) s cs
  grows : ∀ b, Has P s₀.objects b → Has P s.objects b
  indexed : ∀ k ∈ s.graph.allEdges, ∃ b, P.hashBytes b = k ∧
    (Has P s₀.objects b ∨ ∃ e ∈ pre, SeedsAs P checkers corpus signerPubkey e b)
  settled : ∀ e ∈ pre, Settled P checkers corpus signerPubkey s e

end Corpus

theorem SeedsAs.unique {e : CorpusEdge} {data data' : Bytes} (h : SeedsAs P checkers corpus signerPubkey e data)
    (h' : SeedsAs P checkers corpus signerPubkey e data') : data = data' := by
  obtain ⟨q, edge, hq, hedge, hdata⟩ := h
  obtain ⟨q', edge', hq', hedge', hdata'⟩ := h'
  obtain rfl : q = q' := Except.ok.inj (hq.symm.trans hq')
  obtain rfl : edge = edge' := Option.some.inj (Except.ok.inj (hedge.symm.trans hedge'))
  exact Except.ok.inj (hdata.symm.trans hdata')

theorem Settled.has {s : Storage} {e : CorpusEdge} {data : Bytes} (h : Settled P checkers corpus signerPubkey s e)
    (hs : SeedsAs P checkers corpus signerPubkey e data) : Has P s.objects data := by
  obtain ⟨q, hq, hrej⟩ | ⟨data', hs', hhas⟩ := h
  · obtain ⟨q', edge, hq', hacc, -⟩ := hs
    obtain rfl : q = q' := Except.ok.inj (hq.symm.trans hq')
    rw [hrej] at hacc
    cases hacc
  · exact hs.unique hs' ▸ hhas

theorem Settled.mono {s s' : Storage} {e : CorpusEdge} (h : Settled P checkers corpus signerPubkey s e)
    (hgrows : ∀ b, Has P s.objects b → Has P s'.objects b) : Settled P checkers corpus signerPubkey s' e := by
  obtain h | ⟨data, hs, hhas⟩ := h
  exacts [.inl h, .inr ⟨data, hs, hgrows data hhas⟩]

/-- The bytes proposed for an edge are its own. -/
theorem proofBytes_of_proposal {e : CorpusEdge} {q : Proposal} (h : Seed.proposal corpus signerPubkey e = .ok q) :
    q.proofBytes = e.proofBytes := by
  obtain ⟨premises, -, h⟩ := bind_eq_ok.mp h
  obtain ⟨conclusion, -, h⟩ := bind_eq_ok.mp h
  obtain rfl := Except.ok.inj h
  rfl

section Rounds

variable (hc : P.CborLaws) (hM : Set.InjOn P.hashBytes (corpusBlobs P checkers corpus signerPubkey))

theorem SeedsAs.mem {e : CorpusEdge} (he : e ∈ corpus.edges) {data : Bytes}
    (h : SeedsAs P checkers corpus signerPubkey e data) : data ∈ corpusBlobs P checkers corpus signerPubkey := by
  obtain ⟨q, edge, hq, hedge, hdata⟩ := h
  have hmem : data ∈ blobs P (seedCall checkers ⟨[], []⟩ 0 q) → data ∈ corpusBlobs P checkers corpus signerPubkey :=
    blobs_mem he hq data
  refine hmem ?_
  rw [blobs_eq (buildEdge_eq_some.mp hedge) hdata]
  exact List.mem_append_right _ List.mem_cons_self

/-- A round, also one that fails, leaves a store of what it had and its own call. -/
theorem StoredBy.broken {s s' : Storage} {cs : List (Edge × Bytes)} {M : Set Bytes} (hc : P.CborLaws)
    (hM : Set.InjOn P.hashBytes M) (h : StoredBy P M s cs) {q : Proposal}
    (hb : ∀ keys now, ∀ b ∈ blobs P (seedCall checkers keys now q), b ∈ M) (hr : Broken P checkers q s s') :
    ∃ cs', StoredBy P M s' cs' := by
  cases hr with
  | stopped hs => exact ⟨cs, h.stops (hb _ _) hs⟩
  | committed _ hs => exact ⟨_, h.completes hc hM (hb _ _) hs⟩

theorem StoredBy.round {s s' : Storage} {cs : List (Edge × Bytes)} {M : Set Bytes} (hc : P.CborLaws)
    (hM : Set.InjOn P.hashBytes M) (h : StoredBy P M s cs) {q : Proposal}
    (hb : ∀ keys now, ∀ b ∈ blobs P (seedCall checkers keys now q), b ∈ M) (hr : Round P checkers q s s') :
    ∃ cs', StoredBy P M s' cs' := by
  cases hr with
  | rejected _ hs => exact ⟨cs, hs ▸ h⟩
  | skipped _ _ hs => exact ⟨cs, hs ▸ h⟩
  | committed _ _ hs => exact ⟨_, h.completes hc hM (hb _ _) hs⟩

/-- What every round keeps the rounds keep. -/
theorem seedFrom_inv {I : Storage → Prop} {E : PyError → Storage → Prop} {keys : Keys} {clock : Nat → Int}
    (step : ∀ e ∈ corpus.edges, ∀ now s, I s →
      WP (Seed.seedEdge P checkers keys now corpus signerPubkey e) (fun _ s' => I s') E s)
    {es : List CorpusEdge} (hes : ∀ e ∈ es, e ∈ corpus.edges) {i : Nat} {s : Storage} (hs : I s) :
    WP (Seed.seedFrom P checkers keys clock corpus signerPubkey i es) (fun _ s' => I s') E s := by
  induction es generalizing i s with
  | nil => exact .pure hs
  | cons e es ih =>
    rw [List.forall_mem_cons] at hes
    refine .bind ((step e hes.1 (clock i) s hs).mono (fun row s' hs' => ?_) fun _ _ h => h)
    exact .bind ((ih hes.2 hs').mono (fun rows s'' h => .pure h) fun _ _ h => h)

/-- The rounds that a run makes, if it returns. -/
theorem seedFrom_rounds {keys : Keys} {clock : Nat → Int} {es : List CorpusEdge} {i : Nat} {s : Storage} :
    WP (Seed.seedFrom P checkers keys clock corpus signerPubkey i es)
      (fun _ s' => Rounds P checkers corpus signerPubkey es s s') (fun _ _ => True) s := by
  induction es generalizing i s with
  | nil => exact .pure .nil
  | cons e es ih =>
    refine .bind (seedEdge_wp.mono (fun row s' h => ?_) fun _ _ _ => trivial)
    obtain ⟨q, hq, hr⟩ := h
    exact .bind (ih.mono (fun rows s'' h => .pure (.cons hq hr h)) fun _ _ _ => trivial)

/-- A settled edge is passed over. -/
theorem Settled.seedEdge (hc : P.CborLaws) {s : Storage} {e : CorpusEdge}
    (h : Settled P checkers corpus signerPubkey s e) {keys : Keys} {now : Int} :
    WP (Seed.seedEdge P checkers keys now corpus signerPubkey e) (fun _ s' => s' = s) (fun _ _ => False) s := by
  rw [Seed.seedEdge]
  obtain ⟨q, hq, hrej⟩ | ⟨data, ⟨q, edge, hq, hacc⟩, hhas⟩ := h
  · rw [hq]
    refine .bind (.lift_ok ?_)
    rw [hrej]
    exact .bind (.lift_ok (.pure rfl))
  · obtain ⟨e', he', -⟩ := resolveEdge_of_has hc hacc.bytes hhas
    rw [hq]
    refine .bind (.lift_ok ?_)
    rw [hacc.built]
    refine .bind (.lift_ok ?_)
    dsimp only
    rw [edgeHash_eq_ok.mpr ⟨data, hacc.bytes, rfl⟩]
    refine .bind (.lift_ok (.bind (.read ?_)))
    rw [he', Option.isSome_some, if_pos rfl]
    exact .pure rfl

/-- A run over settled edges returns and changes nothing. -/
theorem seedFrom_settled (hc : P.CborLaws) {s : Storage} {keys : Keys} {clock : Nat → Int} {es : List CorpusEdge}
    (h : ∀ e ∈ es, Settled P checkers corpus signerPubkey s e) {i : Nat} :
    WP (Seed.seedFrom P checkers keys clock corpus signerPubkey i es) (fun _ s' => s' = s) (fun _ _ => False) s := by
  induction es generalizing i with
  | nil => exact .pure rfl
  | cons e es ih =>
    rw [List.forall_mem_cons] at h
    refine .bind ((h.1.seedEdge hc).mono (fun row s' hs => ?_) fun _ _ h => h)
    obtain rfl := hs
    exact .bind ((ih h.2).mono (fun rows s' hs => .pure hs) fun _ _ h => h)

include hc hM

/-- In every state that seed runs lead to, wherever they stop. -/
theorem seedRun_storedBy (runs : List SeedRun) :
    ∃ cs, StoredBy P (corpusBlobs P checkers corpus signerPubkey)
      (SeedRun.run P checkers corpus signerPubkey runs) cs := by
  have step : ∀ r s, (∃ cs, StoredBy P (corpusBlobs P checkers corpus signerPubkey) s cs) →
      ∃ cs, StoredBy P (corpusBlobs P checkers corpus signerPubkey)
        (SeedRun.exec P checkers corpus signerPubkey s r) cs := by
    intro r s hs
    let I s := ∃ cs, StoredBy P (corpusBlobs P checkers corpus signerPubkey) s cs
    have h : WP (Seed.seed P checkers r.keys r.clock corpus signerPubkey) (fun _ s' => I s') (fun _ s' => I s') s :=
      seedFrom_inv ?_ (fun _ h => h) hs
    · exact h.state r.fault
    rintro e he now s ⟨cs, hs⟩
    refine seedEdge_wp.mono (fun _ s' h => ?_) fun _ s' h => ?_
    · obtain ⟨q, hq, hr⟩ := h
      exact hs.round hc hM (fun _ _ => blobs_mem he hq) hr
    · obtain rfl | ⟨q, hq, hr⟩ := h
      · exact ⟨cs, hs⟩
      · exact hs.broken hc hM (fun _ _ => blobs_mem he hq) hr
  exact List.foldlRecOn (motive := fun s => ∃ cs, StoredBy P (corpusBlobs P checkers corpus signerPubkey) s cs) runs
    (SeedRun.exec P checkers corpus signerPubkey) ⟨[], .empty⟩ fun s hs r _ => step r s hs

/-- A round that returns leaves the edge settled and changes nothing, or commits it. -/
theorem round_cases {s s' : Storage} {cs : List (Edge × Bytes)}
    (h : StoredBy P (corpusBlobs P checkers corpus signerPubkey) s cs) {e : CorpusEdge} (he : e ∈ corpus.edges)
    {q : Proposal} (hq : Seed.proposal corpus signerPubkey e = .ok q) (hr : Round P checkers q s s') :
    (s' = s ∧ Settled P checkers corpus signerPubkey s e) ∨
      ∃ data, SeedsAs P checkers corpus signerPubkey e data ∧ ¬ Has P s.objects data ∧
        Adds P checkers corpus signerPubkey e data s s' := by
  cases hr with
  | rejected hrej hs => exact .inl ⟨hs, .inl ⟨q, hq, hrej⟩⟩
  | skipped hacc hfound hs =>
    have hseeds : SeedsAs P checkers corpus signerPubkey e _ := ⟨q, _, hq, hacc⟩
    exact .inl ⟨hs, .inr ⟨_, hseeds, (h.found_iff hc hM hacc.bytes (hseeds.mem he)).mp hfound⟩⟩
  | committed hacc hfound hs =>
    rename_i edge data keys now
    have hseeds : SeedsAs P checkers corpus signerPubkey e data := ⟨q, edge, hq, hacc⟩
    have hb : ∀ b ∈ blobs P (seedCall checkers keys now q), b ∈ corpusBlobs P checkers corpus signerPubkey :=
      blobs_mem he hq
    have hproof : q.proofBytes = e.proofBytes := proofBytes_of_proposal hq
    have hblobs : blobs P (seedCall checkers keys now q) =
        nodeBlobs P (q.premises ++ [q.conclusion]) ++ edgeBlobs data e.proofBytes := by
      rw [blobs_eq (buildEdge_eq_some.mp hacc.built) hacc.bytes, ← hproof]
      rfl
    have hobjects : s'.objects = putAll P s.objects (blobs P (seedCall checkers keys now q)) := by
      obtain ⟨-, -, entry, -, rfl⟩ := hs
      rfl
    refine .inr ⟨data, hseeds, fun hhas => hfound ((h.found_iff hc hM hacc.bytes (hseeds.mem he)).mpr hhas),
      fun b hhas => ?_, fun b hbm => ?_, fun e' b hs' hhas => ?_, fun k => h.mem_allEdges_completes hc hM hb hs⟩
    · rw [hobjects]
      exact hhas.putAll _
    · obtain ⟨calls, hsub, hst⟩ := h
      rw [hobjects]
      refine Addressed.has_putAll (M := corpusBlobs P checkers corpus signerPubkey) (fun dest blob hd => ?_) hM hb b ?_
      · exact ⟨hsub (hst.addressed dest blob hd).1, (hst.addressed dest blob hd).2⟩
      · rw [hblobs]
        exact List.mem_append_right _ hbm
    · rw [hobjects] at hhas
      obtain hhas | hmem := has_of_putAll hhas
      · exact .inl hhas
      rw [hblobs] at hmem
      obtain hnode | hmem := List.mem_append.mp hmem
      · obtain ⟨n, -, hn⟩ := List.mem_filterMap.mp hnode
        obtain ⟨_, _, _, hacc'⟩ := hs'
        exact (nodeBytes_ne_edgeBytes hc (toOption_eq_some.mp hn) hacc'.bytes).elim
      · exact .inr hmem

theorem Since.round {s₀ s s' : Storage} {pre : List CorpusEdge} (h : Since P checkers corpus signerPubkey s₀ pre s)
    {e : CorpusEdge} (he : e ∈ corpus.edges) {q : Proposal} (hq : Seed.proposal corpus signerPubkey e = .ok q)
    (hr : Round P checkers q s s') : Since P checkers corpus signerPubkey s₀ (pre ++ [e]) s' := by
  obtain ⟨cs, hs⟩ := h.stored
  have hstored := hs.round hc hM (fun _ _ => blobs_mem he hq) hr
  have hmem : ∀ {b}, (∃ e' ∈ pre, SeedsAs P checkers corpus signerPubkey e' b) →
      ∃ e' ∈ pre ++ [e], SeedsAs P checkers corpus signerPubkey e' b :=
    fun ⟨e', he', hb⟩ => ⟨e', List.mem_append_left _ he', hb⟩
  obtain ⟨rfl, hset⟩ | ⟨data, hseeds, -, hadds⟩ := round_cases hc hM hs he hq hr
  · refine ⟨hstored, h.grows, fun k hk => ?_, forall_mem_concat h.settled hset⟩
    obtain ⟨b, rfl, hb⟩ := h.indexed k hk
    exact ⟨b, rfl, hb.imp id hmem⟩
  · refine ⟨hstored, fun b hb => hadds.grows b (h.grows b hb), fun k hk => ?_, ?_⟩
    · obtain hk | rfl := (hadds.index k).mp hk
      · obtain ⟨b, rfl, hb⟩ := h.indexed k hk
        exact ⟨b, rfl, hb.imp id hmem⟩
      · exact ⟨data, rfl, .inr ⟨e, by simp, hseeds⟩⟩
    · refine forall_mem_concat (fun e' he' => (h.settled e' he').mono hadds.grows) ?_
      exact .inr ⟨data, hseeds, hadds.blobs data List.mem_cons_self⟩

omit hc in
/-- Without an orphan an edge of the corpus is there if it was there before or has been passed. -/
theorem Since.has_iff {s₀ s : Storage} {pre : List CorpusEdge} (h : Since P checkers corpus signerPubkey s₀ pre s)
    (hno : ¬ Orphaned P checkers corpus signerPubkey s) {e : CorpusEdge} (he : e ∈ corpus.edges) {data : Bytes}
    (hs : SeedsAs P checkers corpus signerPubkey e data) :
    Has P s.objects data ↔ Has P s₀.objects data ∨ ∃ e' ∈ pre, SeedsAs P checkers corpus signerPubkey e' data := by
  obtain ⟨cs, hcs⟩ := h.stored
  have hset : ∀ {b}, (∃ e' ∈ pre, SeedsAs P checkers corpus signerPubkey e' b) → Has P s.objects b :=
    fun ⟨e', he', hb⟩ => (h.settled e' he').has hb
  constructor
  · intro hhas
    have hk : P.hashBytes data ∈ s.graph.allEdges := by
      by_contra hk
      exact hno ⟨e, he, data, hs, hhas, hk⟩
    obtain ⟨b, hb, hfrom⟩ := h.indexed _ hk
    obtain rfl : b = data := hM (hcs.mem_of_has (hfrom.elim (h.grows b) hset)) (hs.mem he) hb
    exact hfrom
  · rintro (hhas | hpre)
    exacts [h.grows data hhas, hset hpre]

/-- A round leaves no orphan if there was none and it is in order. -/
theorem Since.orphaned_iff {s₀ s s' : Storage} {pre : List CorpusEdge}
    (h : Since P checkers corpus signerPubkey s₀ pre s) {e : CorpusEdge} (he : e ∈ corpus.edges) {q : Proposal}
    (hq : Seed.proposal corpus signerPubkey e = .ok q) (hr : Round P checkers q s s') :
    ¬ Orphaned P checkers corpus signerPubkey s' ↔
      ¬ Orphaned P checkers corpus signerPubkey s ∧ InOrder P checkers corpus signerPubkey s₀ pre e := by
  obtain ⟨cs, hs⟩ := h.stored
  have h' := h.round hc hM he hq hr
  constructor
  · intro hno'
    have hno : ¬ Orphaned P checkers corpus signerPubkey s := by
      rintro ⟨e', he', data', hs', hhas, hk⟩
      refine hno' ⟨e', he', data', hs', ?_⟩
      obtain ⟨rfl, -⟩ | ⟨data, hseeds, hnot, hadds⟩ := round_cases hc hM hs he hq hr
      · exact ⟨hhas, hk⟩
      · refine ⟨hadds.grows _ hhas, fun hk' => ?_⟩
        obtain hk' | heq := (hadds.index _).mp hk'
        · exact hk hk'
        · exact hnot (hM (hs'.mem he') (hseeds.mem he) heq ▸ hhas)
    refine ⟨hno, fun data hseeds hnot hpre e' he' data' hs' hproof => ?_⟩
    have hnone : ¬ Has P s.objects data := by
      rw [h.has_iff hM hno he hseeds]
      rintro (h₀ | ⟨e'', he'', hs''⟩)
      exacts [hnot h₀, hpre e'' he'' hs'']
    obtain ⟨-, hset⟩ | ⟨data₁, hseeds₁, -, hadds⟩ := round_cases hc hM hs he hq hr
    · exact absurd (hset.has hseeds) hnone
    · refine (h'.has_iff hM hno' he' hs').mp (hadds.blobs data' ?_)
      rw [hproof]
      exact List.mem_cons_of_mem _ List.mem_cons_self
  · rintro ⟨hno, hord⟩ ⟨e', he', data', hs', hhas, hk⟩
    have hindexed : Has P s.objects data' → P.hashBytes data' ∈ s.graph.allEdges := by
      intro hhas
      by_contra hk
      exact hno ⟨e', he', data', hs', hhas, hk⟩
    obtain ⟨rfl, -⟩ | ⟨data, hseeds, hnot, hadds⟩ := round_cases hc hM hs he hq hr
    · exact hk (hindexed hhas)
    have hold : Has P s.objects data' → False := fun hhas => hk ((hadds.index _).mpr (.inl (hindexed hhas)))
    have hnew : data' = data → False := by
      rintro rfl
      exact hk ((hadds.index _).mpr (.inr rfl))
    obtain hhas | hmem := hadds.only e' data' hs' hhas
    · exact hold hhas
    obtain hmem | hproof := List.mem_cons.mp hmem
    · exact hnew hmem
    have hnot₀ := hnot ∘ (h.has_iff hM hno he hseeds).mpr
    obtain h₀ | ⟨e'', he'', hs''⟩ :=
      hord data hseeds (hnot₀ ∘ .inl) (fun e'' he'' hs'' => hnot₀ (.inr ⟨e'', he'', hs''⟩))
      e' he' data' hs' (Option.mem_toList.mp hproof)
    · exact hold (h.grows _ h₀)
    obtain he'' | he'' := List.mem_append.mp he''
    · exact hold ((h.settled e'' he'').has hs'')
    · obtain rfl := List.mem_singleton.mp he''
      exact hnew (hs''.unique hseeds)

/-- And so do the rounds of a run. -/
theorem Since.rounds {s₀ s s' : Storage} {pre es : List CorpusEdge} (h : Since P checkers corpus signerPubkey s₀ pre s)
    (hes : ∀ e ∈ es, e ∈ corpus.edges) (hr : Rounds P checkers corpus signerPubkey es s s') :
    Since P checkers corpus signerPubkey s₀ (pre ++ es) s' ∧
      (¬ Orphaned P checkers corpus signerPubkey s' ↔
        ¬ Orphaned P checkers corpus signerPubkey s ∧ AllInOrder P checkers corpus signerPubkey s₀ pre es) := by
  induction hr generalizing pre with
  | nil => exact ⟨by rwa [List.append_nil], by rw [AllInOrder, and_true]⟩
  | cons hq hr _ ih =>
    rw [List.forall_mem_cons] at hes
    obtain ⟨h', hiff⟩ := ih (h.round hc hM hes.1 hq hr) hes.2
    rw [List.append_assoc, List.singleton_append] at h'
    exact ⟨h', by rw [hiff, h.orphaned_iff hc hM hes.1 hq hr, AllInOrder, and_assoc]⟩

/-- Where every edge is settled, what is missing to what `seed` promises is an orphan. -/
theorem Since.converged_iff {s₀ s : Storage} (h : Since P checkers corpus signerPubkey s₀ corpus.edges s) :
    Converged P checkers corpus signerPubkey s ↔ ¬ Orphaned P checkers corpus signerPubkey s := by
  obtain ⟨cs, calls, hsub, hst⟩ := h.stored
  constructor
  · rintro hconv ⟨e, he, data, ⟨q, edge, hq, hacc⟩, -, hk⟩
    obtain ⟨k, hk', hmem, -⟩ := hconv.stored e he q edge hq hacc.built
    obtain ⟨data', hdata', rfl⟩ := edgeHash_eq_ok.mp hk'
    obtain rfl : data = data' := Except.ok.inj (hacc.bytes.symm.trans hdata')
    exact hk hmem
  · intro hno
    refine ⟨fun e he q edge hq hbuilt => ?_, fun r => ?_⟩
    · obtain ⟨q', hq', hrej⟩ | ⟨data, ⟨q', edge', hq', hacc⟩, hhas⟩ := h.settled e he
      · obtain rfl : q = q' := Except.ok.inj (hq.symm.trans hq')
        rw [hrej] at hbuilt
        cases hbuilt
      obtain rfl : q = q' := Except.ok.inj (hq.symm.trans hq')
      obtain rfl : edge = edge' := Option.some.inj (Except.ok.inj (hbuilt.symm.trans hacc.built))
      have hk : P.hashBytes data ∈ s.graph.allEdges := by
        by_contra hk
        exact hno ⟨e, he, data, ⟨q, edge, hq, hacc⟩, hhas, hk⟩
      obtain ⟨e₁, he₁, same, hbytes⟩ := resolveEdge_of_has hc hacc.bytes hhas
      obtain ⟨e₂, he₂, -, -, hconn, -, -, seq, entry, hget, hpay⟩ :=
        (hst.consistent hc (hM.mono hsub)).edges _ hk
      obtain rfl : e₁ = e₂ := Option.some.inj (he₁.symm.trans he₂)
      refine ⟨_, edgeHash_eq_ok.mpr ⟨data, hacc.bytes, rfl⟩, hk, ?_, seq, entry, hget, ?_⟩
      · rw [hconn, same.premises, same.conclusion]
      · rw [hacc.bytes, ← hbytes, hpay]
    · have hrun : WP (Seed.seed P checkers r.keys r.clock corpus signerPubkey) (fun _ s' => s' = s)
          (fun _ _ => False) s := seedFrom_settled hc h.settled
      rcases hx : (Seed.seed P checkers r.keys r.clock corpus signerPubkey).exec r.fault s with ⟨_ | rows, s'⟩
      · exact (hrun.error hx).elim
      · obtain rfl := hrun.ok hx
        exact ⟨rows, rfl⟩

/-- After seed runs, wherever they stopped, a run that is not interrupted and
returns leaves what `seed` promises if and only if there was no orphan before it
and its edges are in order. -/
theorem seed_converges_iff (runs : List SeedRun) (keys : Keys) (clock : Nat → Int) (rows : List SeedRow) (s' : Storage)
    (hlast : (Seed.seed P checkers keys clock corpus signerPubkey).exec none
      (SeedRun.run P checkers corpus signerPubkey runs) = (.ok rows, s')) :
    Converged P checkers corpus signerPubkey s' ↔
      ¬ Orphaned P checkers corpus signerPubkey (SeedRun.run P checkers corpus signerPubkey runs) ∧
        AllInOrder P checkers corpus signerPubkey (SeedRun.run P checkers corpus signerPubkey runs)
          [] corpus.edges := by
  have hs := seedRun_storedBy hc hM runs
  have hrounds := seedFrom_rounds.ok hlast
  have h₀ : Since P checkers corpus signerPubkey (SeedRun.run P checkers corpus signerPubkey runs) []
      (SeedRun.run P checkers corpus signerPubkey runs) := by
    refine ⟨hs, fun _ h => h, fun k hk => ?_, fun e he => absurd he List.not_mem_nil⟩
    obtain ⟨cs, calls, -, hst⟩ := hs
    obtain ⟨p, hp, rfl⟩ := hst.mem_allEdges.mp hk
    exact ⟨p.2, rfl, .inl (hst.edges p hp).has⟩
  obtain ⟨h, hiff⟩ := h₀.rounds hc hM (fun _ h => h) hrounds
  rw [h.converged_iff hc hM, hiff]

end Rounds

section Example

open Reference

/-- The bytes of the edge that a corpus edge is accepted as. -/
def seedData? (P : Prims) (checkers : Checkers) (corpus : Corpus) (signerPubkey : Bytes) (e : CorpusEdge) :
    Option Bytes := do
  let q ← (Seed.proposal corpus signerPubkey e).toOption
  let edge ← (Seed.buildEdge P checkers q).toOption.join
  (edge.edgeBytes P).toOption

theorem SeedsAs.eq_some {e : CorpusEdge} {data : Bytes} (h : SeedsAs P checkers corpus signerPubkey e data) :
    seedData? P checkers corpus signerPubkey e = some data := by
  obtain ⟨q, edge, hq, hedge, hdata⟩ := h
  simp only [seedData?, hq, hedge, hdata, Except.toOption, Option.bind_eq_bind, Option.bind_some, Option.join_some]

/-- `b` cited from `a`, with a proof. -/
def citedCorpus : Corpus where
  nodes := [⟨"a", .str "a", .str "math", .bool true⟩, ⟨"b", .str "b", .str "math", .bool true⟩]
  edges := [⟨"a-b", .citation, ["a"], "b", .str "r", .k1, some [3]⟩]

/-- A key pair of equal bytes. -/
def seedKeys : Keys := ⟨List.replicate 32 7, List.replicate 32 7⟩

/-- The storage after a run that fails at this statement. -/
def failedSeed (fault : Nat) : Storage :=
  SeedRun.run reference lenient citedCorpus seedKeys.pub [⟨seedKeys, fun _ => 10, some fault⟩]

/-- A run on it that is not interrupted. -/
def reseed (fault : Nat) : Except PyError (List SeedRow) × Storage :=
  (Seed.seed reference lenient seedKeys (fun _ => 20) citedCorpus seedKeys.pub).exec none (failedSeed fault)

theorem citedCorpus_injOn :
    Set.InjOn reference.hashBytes (corpusBlobs reference lenient citedCorpus seedKeys.pub) :=
  callBlobs_injOn (by decide +kernel)

/-- After a run that stops before the put of the edge the next commits it. -/
theorem seed_converges_cited : ∃ rows s', reseed 3 = (.ok rows, s') ∧
    Converged reference lenient citedCorpus seedKeys.pub s' := by
  have hok : (reseed 3).1.toOption.isSome = true := by decide +kernel
  obtain ⟨rows, hrows⟩ := Option.isSome_iff_exists.mp hok
  rw [toOption_eq_some] at hrows
  have hrun : reseed 3 = (.ok rows, (reseed 3).2) := by rw [← hrows]
  refine ⟨rows, (reseed 3).2, hrun, ?_⟩
  refine (seed_converges_iff reference_cborLaws citedCorpus_injOn [⟨seedKeys, fun _ => 10, some 3⟩]
    seedKeys (fun _ => 20)
    rows _ hrun).mpr ⟨?_, ?_⟩
  · rintro ⟨e, he, data, hs, hhas, -⟩
    have hnot : ∀ e ∈ citedCorpus.edges, ∀ data ∈ seedData? reference lenient citedCorpus seedKeys.pub e,
        ObjectStore.get (failedSeed 3).objects (reference.hashBytes data) = none := by decide +kernel
    have := hhas.symm.trans (hnot e he data hs.eq_some)
    cases this
  · refine ⟨fun data hs _ _ e' he' data' hs' _ => .inr ⟨_, List.mem_singleton_self _, ?_⟩, trivial⟩
    obtain rfl := List.mem_singleton.mp he'
    exact hs'

/-- After one that stops behind it the next skips it, and it is never in the index or the log. -/
theorem seed_skips_orphan : Set.InjOn reference.hashBytes (corpusBlobs reference lenient citedCorpus seedKeys.pub) ∧
    ∃ rows s', reseed 8 = (.ok rows, s') ∧ rows.map SeedRow.status = [.skip] ∧ s'.graph.allEdges = [] ∧ s'.log = [] ∧
      ¬ Converged reference lenient citedCorpus seedKeys.pub s' := by
  have hok : (reseed 8).1.toOption.map (List.map SeedRow.status) = some [.skip] := by decide +kernel
  obtain ⟨rows, hrows, hstatus⟩ := Option.map_eq_some_iff.mp hok
  rw [toOption_eq_some] at hrows
  have hgraph : (reseed 8).2.graph.allEdges = [] := by decide +kernel
  have hrun : reseed 8 = (.ok rows, (reseed 8).2) := by rw [← hrows]
  refine ⟨citedCorpus_injOn, rows, _, hrun, hstatus, hgraph, by decide +kernel, fun hconv => ?_⟩
  have haccepted : ∃ e ∈ citedCorpus.edges, ((Seed.proposal citedCorpus seedKeys.pub e).toOption.bind fun q =>
      (Seed.buildEdge reference lenient q).toOption.join).isSome = true := by decide +kernel
  obtain ⟨e, he, hsome⟩ := haccepted
  obtain ⟨edge, hedge⟩ := Option.isSome_iff_exists.mp hsome
  obtain ⟨q, hq, hedge⟩ := Option.bind_eq_some_iff.mp hedge
  obtain ⟨k, -, hk, -⟩ := hconv.stored e he q edge (toOption_eq_some.mp hq)
    (toOption_eq_some.mp (Option.join_eq_some_iff.mp hedge))
  rw [hgraph] at hk
  cases hk

end Example

end ArxDB.Proof
