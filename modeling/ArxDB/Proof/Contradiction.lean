import ArxDB.Proof.Grades
import ArxDB.Proof.Refutation
import ArxDB.Reference.Backends

/-!
# A claim and its negation

What a claim without premises needs of ELENCHUS (`unvetoed_iff`) and of the back
ends to be accepted at κ2 or more (`strong_iff`). It is the same for the claim
and for its negation, so the two are kept apart only where the claim is not
confirmed (`contradiction_iff`), and over a run of commits where no claim is
confirmed under both signs.
-/

namespace ArxDB.Proof

open Impl Verifier Checker Text Derivation

variable {P : Prims} {I : Interp} {B : Seconds → Backends} {conclusion : Node} {rule : Value} {edgeType : EdgeType}
  {proofBytes : Option Bytes} {timeoutSeconds : Seconds}

/-! ## What ELENCHUS admits -/

/-- ELENCHUS has nothing against a claim without premises: the domain can be
hashed; in a hard domain, and not across domains, the claim and the rule do not
speak of the self-model; the rule of a derivational edge can be stripped. -/
structure Admitted (P : Prims) (I : Interp) (claim domain rule : Value) (edgeType : EdgeType) : Prop where
  hashable : domain.hashable = true
  silent : (Elenchus.hardDomains.any fun d => domain.isStr d) = true → edgeType ∉ Elenchus.crossDomainTypes →
    ∀ t ∈ Elenchus.tokens (Elenchus.formatted I claim ++ ' ' :: Elenchus.formatted I rule),
      t ∉ Elenchus.selfModelTerms.map String.toList
  stripped : edgeType ∈ Elenchus.derivationalTypes → (∃ s, rule = .str s) ∨ ∃ b, rule = .bytes b

theorem selfModelLeak_admits : (∃ o, Elenchus.selfModelLeak I conclusion rule edgeType = .ok o ∧
      ∀ flag ∈ o, flag.severity ≠ .hardVeto) ↔
    conclusion.domain.hashable = true ∧
      ((Elenchus.hardDomains.any fun d => conclusion.domain.isStr d) = true → edgeType ∉ Elenchus.crossDomainTypes →
        ∀ t ∈ Elenchus.tokens (Elenchus.formatted I conclusion.claim ++ ' ' :: Elenchus.formatted I rule),
          t ∉ Elenchus.selfModelTerms.map String.toList) := by
  rw [Elenchus.selfModelLeak, Elenchus.hashed]
  cases conclusion.domain.hashable with
  | false => simp [bind, Except.bind]
  | true =>
    cases Elenchus.hardDomains.any fun d => conclusion.domain.isStr d with
    | false => simp [bind, Except.bind, pure, Except.pure]
    | true =>
      by_cases hcross : edgeType ∈ Elenchus.crossDomainTypes
      · simp [hcross, bind, Except.bind, pure, Except.pure]
      · simp only [hcross, bind, Except.bind, pure, Except.pure, Bool.not_true, Bool.false_eq_true, if_true, if_false,
          true_and, true_imp_iff, not_false_eq_true]
        split_ifs with hany
        · refine iff_of_false (by simp) fun h => ?_
          obtain ⟨t, ht, hterm⟩ := List.any_eq_true.mp hany
          exact h t ht (of_decide_eq_true hterm)
        · refine iff_of_true (by simp) fun t ht hterm => ?_
          exact hany (List.any_eq_true.mpr ⟨t, ht, decide_eq_true hterm⟩)

/-- The rule of a derivational edge is at worst flagged. -/
theorem emptyRule_admits : (∃ o, Elenchus.emptyRule rule edgeType = .ok o ∧ ∀ flag ∈ o, flag.severity ≠ .hardVeto) ↔
    (edgeType ∈ Elenchus.derivationalTypes → (∃ s, rule = .str s) ∨ ∃ b, rule = .bytes b) := by
  have hblank : (∃ b, Elenchus.blank rule = .ok b) ↔ (∃ s, rule = .str s) ∨ ∃ b, rule = .bytes b := by
    cases rule <;> simp [Elenchus.blank]
  rw [Elenchus.emptyRule]
  by_cases ht : edgeType ∈ Elenchus.derivationalTypes
  · rw [← hblank]
    simp only [ht, not_true, if_false, true_imp_iff]
    cases Elenchus.blank rule with
    | error e => simp [bind, Except.bind]
    | ok b => cases b <;> simp [bind, Except.bind, pure, Except.pure]
  · simp [ht, pure, Except.pure]

/-- The flags that are fired veto where one of them does. -/
theorem verdictOf_eq_hardVeto {flags : List Flag} :
    verdictOf flags = .hardVeto ↔ ∃ flag ∈ flags, flag.severity = .hardVeto := by
  have hany : flags.any (fun flag => decide (flag.severity = .hardVeto)) = true ↔
      ∃ flag ∈ flags, flag.severity = .hardVeto := by simp
  rw [verdictOf, ← hany]
  split_ifs with h h' <;> simp_all

/-- Without premises three of the predicates are silent. -/
theorem unvetoed_iff : Unvetoed P I B [] conclusion rule edgeType ↔
    Admitted P I conclusion.claim conclusion.domain rule edgeType := by
  have hadmits : Admitted P I conclusion.claim conclusion.domain rule edgeType ↔
      (∃ o, Elenchus.selfModelLeak I conclusion rule edgeType = .ok o ∧ ∀ flag ∈ o, flag.severity ≠ .hardVeto) ∧
      ∃ o, Elenchus.emptyRule rule edgeType = .ok o ∧ ∀ flag ∈ o, flag.severity ≠ .hardVeto := by
    rw [selfModelLeak_admits, emptyRule_admits]
    exact ⟨fun h => ⟨⟨h.hashable, h.silent⟩, h.stripped⟩, fun h => ⟨h.1.1, h.1.2, h.2⟩⟩
  have hcategory : Elenchus.categoryError P I [] conclusion edgeType = .ok none := rfl
  have hsequitur : Elenchus.nonSequitur [] conclusion edgeType = .ok none := rfl
  have hcircular : Elenchus.circularity I [] conclusion edgeType = .ok none := rfl
  rw [hadmits, Unvetoed]
  simp only [evaluate, Backends.checkers, Elenchus.predicates, List.mapM_cons, List.mapM_nil, hcategory, hsequitur,
    hcircular]
  cases Elenchus.selfModelLeak I conclusion rule edgeType with
  | error e => simp [bind, Except.bind]
  | ok leak =>
    cases Elenchus.emptyRule rule edgeType with
    | error e => simp [bind, Except.bind]
    | ok empty =>
      simp only [bind, Except.bind, pure, Except.pure, Except.ok.injEq, exists_eq_left', ne_eq, verdictOf_eq_hardVeto]
      cases leak <;> cases empty <;> simp

/-! ## What the back ends confirm -/

/-- The back end of a checker confirms the claim (for Lean: the proof). -/
def Confirms (B : Backends) (claim : Value) (proofBytes : Option Bytes) (timeoutSeconds : Seconds) :
    CheckerKind → Prop
  | .roster => ∃ s, claim = .str s ∧ (roster.map String.toList).contains (normalize s.toList) = true
  | .z3 => Armed B timeoutSeconds ∧ ∃ φ, parse B claim = .ok φ ∧ B.z3Solve [] φ = .ok .unsat
  | .cas => Armed B timeoutSeconds ∧ ∃ s sides exprs, claim = .str s ∧ splitOnce '=' s.toList = some sides ∧
      parseSides B sides = .ok exprs ∧ B.simplifiesToZero exprs.1 exprs.2 = .ok true
  | .spectral => Armed B timeoutSeconds ∧ ∃ s parts, claim = .str s ∧ splitOnce ' ' (strip s.toList) = some parts ∧
      evalSpectral B (strip parts.1) (strip parts.2) = .ok true
  | .lean => ∃ run, B.lean = some run ∧ proofBytes.getD [] ≠ [] ∧ B.tempFile (proofBytes.getD []) = .ok () ∧
      run (proofBytes.getD []) = .ok 0

/-- What a checker grants, where that is one κ of at least κ2. -/
theorem grants_strong {k : Kappa} (hk : Kappa.k2 ≤ k) {p : Prop} : (∃ j, Kappa.k2 ≤ j ∧ j = k ∧ p) ↔ p := by
  constructor
  · intro h
    obtain ⟨j, -, -, hp⟩ := h
    exact hp
  · intro hp
    exact ⟨k, hk, rfl, hp⟩

/-- Without premises a checker grants κ2 or more exactly where its back end confirms the claim. -/
theorem grants_iff_confirms {B : Backends} {kind : CheckerKind} :
    (∃ k, Kappa.k2 ≤ k ∧ Grants B [] conclusion proofBytes timeoutSeconds k kind) ↔
      Confirms B conclusion.claim proofBytes timeoutSeconds kind := by
  cases kind with
  | roster =>
    simp only [Grants, Confirms]
    constructor
    · intro h
      obtain ⟨k, hk, s, hs, rfl⟩ := h
      refine ⟨s, hs, ?_⟩
      -- a claim that is not listed is granted κ1
      by_contra hlisted
      rw [if_neg hlisted] at hk
      exact absurd hk (by decide)
    · intro h
      obtain ⟨s, hs, hlisted⟩ := h
      exact ⟨.kInf, by decide, s, hs, (if_pos hlisted).symm⟩
  | z3 =>
    simp only [Grants, Confirms, grants_strong (show Kappa.k2 ≤ .k3 by decide)]
    refine and_congr_right fun _ => ?_
    have hparse : ∀ exprs, parseAll B [] conclusion = .ok exprs ↔
        ∃ φ, parse B conclusion.claim = .ok φ ∧ ([], φ) = exprs := by
      intro exprs
      have heq : parseAll B [] conclusion = (parse B conclusion.claim >>= fun φ => .ok ([], φ)) := rfl
      rw [heq, bind_eq_ok]
      simp only [Except.ok.injEq]
    constructor
    · intro h
      obtain ⟨exprs, hexprs, hunsat⟩ := h
      obtain ⟨φ, hφ, rfl⟩ := (hparse exprs).mp hexprs
      exact ⟨φ, hφ, hunsat⟩
    · intro h
      obtain ⟨φ, hφ, hunsat⟩ := h
      exact ⟨([], φ), (hparse _).mpr ⟨φ, hφ, rfl⟩, hunsat⟩
  | cas => exact grants_strong (show Kappa.k2 ≤ .k2 by decide)
  | spectral => exact grants_strong (show Kappa.k2 ≤ .k2 by decide)
  | lean => exact grants_strong (show Kappa.k2 ≤ .k3 by decide)

/-! ## Acceptance -/

/-- The claim is accepted without premises at κ2 or more. -/
def Strong (P : Prims) (I : Interp) (B : Seconds → Backends) (conclusion : Node) (rule : Value) (edgeType : EdgeType)
    (proofBytes : Option Bytes) (timeoutSeconds : Seconds) : Prop :=
  ∃ v, verify (Backends.checkers P I B) [] conclusion rule edgeType proofBytes timeoutSeconds = .ok v ∧
    v.rejected = false ∧ Kappa.k2 ≤ v.kappa

/-- ELENCHUS has nothing against the claim, and the back end of the type confirms it. -/
def Stands (P : Prims) (I : Interp) (B : Seconds → Backends) (claim domain rule : Value) (edgeType : EdgeType)
    (proofBytes : Option Bytes) (timeoutSeconds : Seconds) : Prop :=
  Admitted P I claim domain rule edgeType ∧
    ∃ kind, checkerFor edgeType proofBytes = some kind ∧
      Confirms (B timeoutSeconds) claim proofBytes timeoutSeconds kind

/-- Whatever its sign. -/
theorem strong_iff : Strong P I B conclusion rule edgeType proofBytes timeoutSeconds ↔
    Stands P I B conclusion.claim conclusion.domain rule edgeType proofBytes timeoutSeconds := by
  have hgrades : Strong P I B conclusion rule edgeType proofBytes timeoutSeconds ↔
      Unvetoed P I B [] conclusion rule edgeType ∧
        ∃ k, Kappa.k2 ≤ k ∧ Grades B [] conclusion edgeType proofBytes timeoutSeconds k := by
    constructor
    · intro h
      obtain ⟨v, hv, hrej, hk⟩ := h
      obtain ⟨hveto, hgrade⟩ := verify_grades.mp ⟨v, hv, hrej, rfl⟩
      exact ⟨hveto, v.kappa, hk, hgrade⟩
    · intro h
      obtain ⟨hveto, k, hk, hgrade⟩ := h
      obtain ⟨v, hv, hrej, rfl⟩ := verify_grades.mpr ⟨hveto, hgrade⟩
      exact ⟨v, hv, hrej, hk⟩
  rw [hgrades, unvetoed_iff, Stands]
  refine and_congr_right fun _ => ?_
  simp only [Grades]
  cases checkerFor edgeType proofBytes with
  | some kind =>
    simp only [Option.some.injEq, exists_eq_left']
    exact grants_iff_confirms
  | none =>
    -- the defaults are at most κ1
    refine iff_of_false (fun h => ?_) (by simp)
    obtain ⟨k, hk, hdefault⟩ := h
    cases edgeType <;> cases hdefault <;> exact absurd hk (by decide)

/-- The sign of the conclusion is not read. -/
theorem verify_signed {premises : List Node} (sign : Value) :
    verify (Backends.checkers P I B) premises { conclusion with polarity := sign } rule edgeType proofBytes
        timeoutSeconds =
      verify (Backends.checkers P I B) premises conclusion rule edgeType proofBytes timeoutSeconds := by
  have hsign : unsigned { conclusion with polarity := sign } = unsigned conclusion := rfl
  rw [← verify_unsigned, hsign, verify_unsigned]

/-! ## Runs -/

/-- The claim of a call stands. -/
def CallStands (P : Prims) (I : Interp) (B : Seconds → Backends) (c : CommitCall) : Prop :=
  Stands P I B c.proposal.conclusion.claim c.proposal.conclusion.domain c.proposal.rule c.proposal.edgeType
    c.proposal.proofBytes c.proposal.timeoutSeconds

/-- Some query answers that the proposition is reachable at κ2, over all edges or over active ones. -/
def Reached (P : Prims) (storage : Storage) (n : Node) : Prop :=
  ∃ target activeEdges r, n.nodeId P = .ok target ∧
    Reachability.reachable P target storage .k2 [] activeEdges = .ok r ∧ r.established = true

/-- A node with the bytes of a proposition is that proposition. -/
theorem eq_proposition (hc : P.CborLaws) {n : Node} {claim domain : String} {sign : Bool} {b : Bytes}
    (hn : n.nodeBytes P = .ok b) (hp : (proposition claim domain sign).nodeBytes P = .ok b) :
    n = proposition claim domain sign := by
  obtain ⟨n', hd, same, -⟩ := node_fromBytes hc hp
  obtain ⟨n'', hd', same', -⟩ := node_fromBytes hc hn
  obtain rfl : n' = n'' := Except.ok.inj (hd.symm.trans hd')
  obtain ⟨c, d, p⟩ := n
  obtain ⟨c', d', p'⟩ := n'
  obtain rfl : c' = _ := restored_scalar rfl same.claim
  obtain rfl : d' = _ := restored_scalar rfl same.domain
  obtain rfl : p' = _ := restored_scalar rfl same.polarity
  obtain rfl : c = _ := eq_of_restored rfl same'.claim
  obtain rfl : d = _ := eq_of_restored rfl same'.domain
  obtain rfl : p = _ := eq_of_restored rfl same'.polarity
  rfl

/-- What a run of calls without premises reaches at κ2 stands for one of its calls. -/
theorem exists_standing (hc : P.CborLaws) {calls : List CommitCall} {M : Set Bytes} (hM : Set.InjOn P.hashBytes M)
    (hcalls : callBlobs P calls ⊆ M)
    (hrun : ∀ c ∈ calls, c.proposal.premises = [] ∧ c.checkers = Backends.checkers P I B)
    {claim domain : String} {sign : Bool}
    (hn : ∀ b, (proposition claim domain sign).nodeBytes P = .ok b → b ∈ M)
    (h : Reached P (CommitCall.run P calls) (proposition claim domain sign)) :
    ∃ c ∈ calls, c.proposal.conclusion = proposition claim domain sign ∧ CallStands P I B c := by
  obtain ⟨target, activeEdges, r, htarget, hr, hest⟩ := h
  obtain ⟨r', hr', hiff⟩ := reachable_derives P target (CommitCall.run P calls) .k2 [] activeEdges
  obtain rfl : r = r' := Except.ok.inj (hr.symm.trans hr')
  obtain ⟨t, ht⟩ := hiff.mp hest
  obtain ⟨p, hp, hconcl, hkappa⟩ : ∃ p ∈ usable P (CommitCall.run P calls) activeEdges, p.2.conclusion = target ∧
      Kappa.k2 ≤ p.2.kappa := by
    cases t with
    | seed hs => cases hs
    | step p hp sub => exact ⟨p, hp, rfl, ht p (.inl rfl)⟩
  obtain ⟨cs, hcs⟩ := run_stored hc calls (hM.mono hcalls)
  obtain ⟨q, hq, hhash⟩ := hcs.mem_allEdges.mp hp.1
  obtain ⟨e, he, same, -⟩ := resolveEdge_of_has hc (hcs.edges q hq).edgeBytes (hcs.edges q hq).has
  obtain rfl : e = p.2 := Option.some.inj ((hhash ▸ he).symm.trans hp.2.2.1)
  obtain ⟨c, hcall, hedge⟩ := hcs.called q hq
  have hblobs := blobs_eq hedge (hcs.edges q hq).edgeBytes
  obtain ⟨v, hv, hrej, ps, -, k, hk, hbuilt⟩ := edge?_eq_some.mp hedge
  refine ⟨c, hcall, ?_, ?_⟩
  · obtain ⟨b, hb, hbk⟩ := nodeId_eq_ok.mp hk
    obtain ⟨b', hb', hbt⟩ := nodeId_eq_ok.mp htarget
    have hmem : b ∈ M := by
      refine hcalls ⟨c, hcall, ?_⟩
      rw [hblobs]
      exact List.mem_append_left _ (List.mem_filterMap.mpr ⟨_, List.mem_append_right _ (List.mem_singleton.mpr rfl),
        toOption_eq_some.mpr hb⟩)
    have hid : P.hashBytes b = P.hashBytes b' := by
      rw [hbk, hbt, ← hconcl, same.conclusion, ← hbuilt]
      rfl
    obtain rfl := hM hmem (hn b' hb') hid
    exact eq_proposition hc hb hb'
  · rw [CallStands, ← strong_iff]
    rw [(hrun c hcall).1, (hrun c hcall).2] at hv
    have hstrong : v.kappa = p.2.kappa := by
      rw [same.kappa, ← hbuilt]
      rfl
    exact ⟨v, hv, hrej, hstrong ▸ hkappa⟩

/-- `verify` answers a claim and its negation alike. So both are accepted at κ2
or more exactly where each of the two types confirms the claim; a run of calls
without premises that confirms no claim under both signs reaches no claim
together with its negation. -/
theorem contradiction_iff (P : Prims) (I : Interp) (B : Seconds → Backends) :
    (∀ (premises : List Node) (conclusion : Node) (sign rule : Value) (t : EdgeType) (proof : Option Bytes)
      (s : Seconds), verify (Backends.checkers P I B) premises { conclusion with polarity := sign } rule t proof s =
        verify (Backends.checkers P I B) premises conclusion rule t proof s) ∧
    (∀ (claim domain rule rule' : Value) (t t' : EdgeType) (proof proof' : Option Bytes) (s s' : Seconds),
      ¬ (Strong P I B ⟨claim, domain, .bool true⟩ rule t proof s ∧
          Strong P I B ⟨claim, domain, .bool false⟩ rule' t' proof' s') ↔
        ¬ (Stands P I B claim domain rule t proof s ∧ Stands P I B claim domain rule' t' proof' s')) ∧
    (P.CborLaws → ∀ (calls : List CommitCall) (claim domain : String),
      Set.InjOn P.hashBytes (callBlobs P calls ∪ {b | ∃ sign, (proposition claim domain sign).nodeBytes P = .ok b}) →
      (∀ c ∈ calls, c.proposal.premises = [] ∧ c.checkers = Backends.checkers P I B) →
      (∀ c ∈ calls, ∀ c' ∈ calls, c.proposal.conclusion = proposition claim domain true →
        c'.proposal.conclusion = proposition claim domain false → ¬ (CallStands P I B c ∧ CallStands P I B c')) →
      ¬ (Reached P (CommitCall.run P calls) (proposition claim domain true) ∧
          Reached P (CommitCall.run P calls) (proposition claim domain false))) := by
  refine ⟨fun _ _ sign _ _ _ _ => verify_signed sign, ?_, ?_⟩
  · intro claim domain rule rule' t t' proof proof' s s'
    rw [strong_iff, strong_iff]
  · intro hc calls claim domain hM hrun hopp hboth
    have hn : ∀ sign b, (proposition claim domain sign).nodeBytes P = .ok b →
        b ∈ callBlobs P calls ∪ {b | ∃ sign, (proposition claim domain sign).nodeBytes P = .ok b} :=
      fun sign b hb => .inr ⟨sign, hb⟩
    obtain ⟨c, hcall, hcon, hstands⟩ := exists_standing hc hM Set.subset_union_left hrun (hn true) hboth.1
    obtain ⟨c', hcall', hcon', hstands'⟩ := exists_standing hc hM Set.subset_union_left hrun (hn false) hboth.2
    exact hopp c hcall c' hcall' hcon hcon' ⟨hstands, hstands'⟩

section Example

open Reference

/-- A proposal of a listed axiom, or of its negation. -/
def axiomProposal (sign : Bool) (edgeType : EdgeType) : Proposal where
  signerPubkey := .bytes (List.replicate 32 7)
  premises := []
  conclusion := proposition "0 is a natural number" "math" sign
  rule := .str "axiom"
  edgeType := edgeType
  proofBytes := none
  timeoutSeconds := defaultTimeout

/-- The axiom defined, and then its negation by an edge of this type. -/
def axiomAndNegation (edgeType : EdgeType) : List CommitCall :=
  let keys : Keys := ⟨List.replicate 32 7, List.replicate 32 7⟩
  [⟨Backends.checkers reference interp backends, keys, 10, none, axiomProposal true .definition⟩,
    ⟨Backends.checkers reference interp backends, keys, 20, none, axiomProposal false edgeType⟩]

theorem axiom_strong (sign : Bool) : Strong reference interp backends
    (proposition "0 is a natural number" "math" sign) (.str "axiom") .definition none defaultTimeout := by
  refine strong_iff.mpr ⟨⟨rfl, ?_, fun h => absurd h (by decide)⟩, .roster, rfl, _, rfl, by decide +kernel⟩
  cases sign <;> decide +kernel

/-- What an edge of a run establishes at κ∞ is reached. -/
theorem reached_of_edge {storage : Storage} {n : Node}
    (hid : (n.nodeId reference).toOption.isSome = true)
    (hedge : ∀ k ∈ (n.nodeId reference).toOption, ∃ p ∈ Reachability.derivationEdges reference storage none,
      p.2.premises = [] ∧ p.2.conclusion = k ∧ p.2.kappa = .kInf) : Reached reference storage n := by
  obtain ⟨k, hk⟩ := Option.isSome_iff_exists.mp hid
  obtain ⟨p, hp, hnil, hconcl, hkappa⟩ := hedge k hk
  obtain ⟨r, hr, hiff⟩ := reachable_derives reference k storage .k2 [] none
  refine ⟨k, none, r, toOption_eq_some.mp hk, hr, hiff.mpr ?_⟩
  rw [← hconcl]
  refine Derives.step (Y := system _ []) (mem_derivationEdges.mp hp) (show Kappa.k2 ≤ p.2.kappa from hkappa ▸ le_top)
    fun q hq => ?_
  rw [show (system _ []).premises p = [] from hnil] at hq
  cases hq

/-- Both definitions are accepted at κ∞, and the run reaches both. -/
theorem axiom_and_negation : (∀ sign, Strong reference interp backends
      (proposition "0 is a natural number" "math" sign) (.str "axiom") .definition none defaultTimeout) ∧
    ∀ sign, Reached reference (CommitCall.run reference (axiomAndNegation .definition))
      (proposition "0 is a natural number" "math" sign) := by
  refine ⟨axiom_strong, fun sign => ?_⟩
  cases sign
  · exact reached_of_edge (by decide +kernel) (by decide +kernel)
  · exact reached_of_edge (by decide +kernel) (by decide +kernel)

/-- The axiom is defined and its negation only cited: the run reaches the axiom alone. -/
theorem contradiction_iff_cited :
    Reached reference (CommitCall.run reference (axiomAndNegation .citation))
      (proposition "0 is a natural number" "math" true) ∧
    ¬ Reached reference (CommitCall.run reference (axiomAndNegation .citation))
      (proposition "0 is a natural number" "math" false) := by
  have hreached : Reached reference (CommitCall.run reference (axiomAndNegation .citation))
      (proposition "0 is a natural number" "math" true) :=
    reached_of_edge (by decide +kernel) (by decide +kernel)
  have hboth : ¬ (Reached reference (CommitCall.run reference (axiomAndNegation .citation))
        (proposition "0 is a natural number" "math" true) ∧
      Reached reference (CommitCall.run reference (axiomAndNegation .citation))
        (proposition "0 is a natural number" "math" false)) := by
    refine (contradiction_iff reference interp backends).2.2 reference_cborLaws
      (axiomAndNegation .citation) _ _ ?_ ?_ ?_
    · refine injOn_of_nodup ((axiomAndNegation .citation).flatMap (blobs reference) ++
        [true, false].filterMap fun sign =>
          ((proposition "0 is a natural number" "math" sign).nodeBytes reference).toOption).dedup (fun m hm => ?_)
        (by decide +kernel)
      rw [List.mem_dedup, List.mem_append]
      obtain hm | hm := hm
      · obtain ⟨c, hc, hm⟩ := hm
        exact .inl (List.mem_flatMap.mpr ⟨c, hc, hm⟩)
      · obtain ⟨sign, hm⟩ := hm
        exact .inr (List.mem_filterMap.mpr ⟨sign, by cases sign <;> decide, toOption_eq_some.mpr hm⟩)
    · exact List.forall_mem_cons.mpr ⟨⟨rfl, rfl⟩, List.forall_mem_singleton.mpr ⟨rfl, rfl⟩⟩
    · -- no checker confirms a citation
      intro c _ c' hc' _ hcon' hstand
      obtain rfl | hc' := List.mem_cons.mp hc'
      · exact absurd (congrArg (fun n => n.polarity.truthy) hcon') (by decide)
      · obtain rfl := List.mem_singleton.mp hc'
        obtain ⟨kind, hk, -⟩ := hstand.2.2
        cases hk
  exact ⟨hreached, fun h => hboth ⟨hreached, h⟩⟩

end Example

end ArxDB.Proof
