import ArxDB.Proof.Pipeline
import ArxDB.Reference.Backends

/-!
# Deductions

What a deduction at κ3 says of its nodes. Without a proof Z3 is asked whether
the claims of the premises entail the claim of the conclusion, whatever the
signs, so that the answer is about the propositions exactly where every sign
is positive, or the timeout cannot be set (`deduction_sound_iff`). With a proof
Lean is run on the source alone, so that the source is bound to no proposal
(`proof_bound_iff`).
-/

namespace ArxDB.Proof

open Impl Verifier Checker

variable {P : Prims} {I : Interp} {premises : List Node} {conclusion : Node} {rule : Value} {timeoutSeconds : Seconds}

/-! ## Z3 -/

/-- Z3 as an oracle for `unsat`, over what its formulas mean. `x == x` holds
in every assignment and `x < x` in none. -/
structure Z3Oracle (B : Backends) where
  Assignment : Type
  nonempty : Nonempty Assignment
  Holds : Assignment → B.Formula → Prop
  unsat_iff (ps : List B.Formula) (c : B.Formula) :
    B.z3Solve ps c = .ok .unsat ↔ ∀ σ, (∀ p ∈ ps, Holds σ p) → Holds σ c
  equal : ∃ φ, B.z3Eval "x == x" = .ok (some φ) ∧ ∀ σ, Holds σ φ
  less : ∃ φ, B.z3Eval "x < x" = .ok (some φ) ∧ ∀ σ, ¬ Holds σ φ

namespace Z3Oracle

section Meaning

variable {B : Backends}

/-- The proposition of a node: its claim, or the negation of its claim. -/
def Asserted (O : Z3Oracle B) (σ : O.Assignment) (n : Node) : Prop :=
  ∃ φ, parse B n.claim = .ok φ ∧ (if n.polarity.truthy then O.Holds σ φ else ¬ O.Holds σ φ)

/-- The propositions of the premises entail that of the conclusion. -/
def Entails (O : Z3Oracle B) (premises : List Node) (conclusion : Node) : Prop :=
  ∀ σ, (∀ p ∈ premises, O.Asserted σ p) → O.Asserted σ conclusion

variable (O : Z3Oracle B)

/-- A deduction that Z3 passes: the claims parse, and those of the premises entail that of the conclusion. -/
theorem entails_of_passed {r : CheckerResult} (hr : z3Check B premises conclusion timeoutSeconds = .ok r)
    (hpass : r.passed = true) : Armed B timeoutSeconds ∧ ∃ exprs, parseAll B premises conclusion = .ok exprs ∧
      ∀ σ, (∀ p ∈ exprs.1, O.Holds σ p) → O.Holds σ exprs.2 := by
  obtain ⟨harmed, hguarded⟩ := ok_of_bounded hr hpass
  obtain ⟨exprs, hp, hrun⟩ := ok_of_guarded hguarded hpass
  obtain ⟨a, ha, hres⟩ := bind_eq_ok.mp hrun
  cases hres
  cases a with
  | unsat => exact ⟨harmed, exprs, hp, (O.unsat_iff _ _).mp ha⟩
  | sat => cases hpass
  | unknown => cases hpass

/-- A node of this sign whose proposition always holds (`b`), or never does. -/
def trivialNode (b : Bool) (sign : Value) : Node where
  claim := .str (if sign.truthy = b then "x == x" else "x < x")
  domain := .str "algebra"
  polarity := sign

/-- What the claim of such a node parses to: what always holds, or never does. -/
theorem parse_trivialNode : ∃ formula : Bool → B.Formula, (∀ b σ, O.Holds σ (formula b) ↔ b = true) ∧
    ∀ b sign, parse B (trivialNode b sign).claim = .ok (formula (decide (sign.truthy = b))) := by
  obtain ⟨φ, hφ, htrue⟩ := O.equal
  obtain ⟨ψ, hψ, hfalse⟩ := O.less
  refine ⟨fun b => if b then φ else ψ, fun b σ => ?_, fun b sign => ?_⟩
  · cases b
    · simpa using hfalse σ
    · simpa using htrue σ
  · by_cases h : sign.truthy = b
    · simp only [trivialNode, h, if_true, parse, hφ, bind, Except.bind, pure, Except.pure, decide_true]
    · simp only [trivialNode, h, if_false, parse, hψ, bind, Except.bind, pure, Except.pure, decide_false,
        Bool.false_eq_true]

theorem asserted_trivialNode {b : Bool} {sign : Value} {σ : O.Assignment} :
    O.Asserted σ (trivialNode b sign) ↔ b = true := by
  obtain ⟨formula, hholds, hparse⟩ := O.parse_trivialNode
  have hasserted : O.Asserted σ (trivialNode b sign) ↔
      if sign.truthy then O.Holds σ (formula (decide (sign.truthy = b)))
      else ¬ O.Holds σ (formula (decide (sign.truthy = b))) := by
    constructor
    · intro h
      obtain ⟨φ, hφ, h⟩ := h
      obtain rfl : formula _ = φ := Except.ok.inj ((hparse b sign).symm.trans hφ)
      exact h
    · intro h
      exact ⟨_, hparse b sign, h⟩
  rw [hasserted, hholds]
  cases sign.truthy <;> cases b <;> simp

include O

/-- From premises whose propositions always hold to a conclusion whose
proposition never does: Z3 passes it where some sign is negative. -/
theorem z3Check_trivial {signs : List Value} {sign : Value} (harmed : Armed B timeoutSeconds)
    (h : ∃ w ∈ sign :: signs, w.truthy = false) :
    z3Check B (signs.map (trivialNode true)) (trivialNode false sign) timeoutSeconds = .ok ⟨true, .k3, none⟩ := by
  obtain ⟨formula, hholds, hparse⟩ := O.parse_trivialNode
  have hall : parseAll B (signs.map (trivialNode true)) (trivialNode false sign) =
      .ok (signs.map fun w => formula (decide (w.truthy = true)), formula (decide (sign.truthy = false))) := by
    have hpremises : (signs.map (trivialNode true)).mapM (fun p => parse B p.claim) =
        .ok (signs.map fun w => formula (decide (w.truthy = true))) := by
      rw [List.mapM_map]
      simp only [Function.comp_def, hparse]
      exact List.mapM_pure
    simp only [parseAll, hpremises, hparse, bind, Except.bind, pure, Except.pure]
  have hunsat : B.z3Solve (signs.map fun w => formula (decide (w.truthy = true)))
      (formula (decide (sign.truthy = false))) = .ok .unsat := by
    rw [O.unsat_iff]
    intro σ hσ
    rw [hholds, decide_eq_true_eq]
    obtain ⟨w, hw, hneg⟩ := h
    rcases List.mem_cons.mp hw with rfl | hw
    · exact hneg
    · have hw := (hholds _ σ).mp (hσ _ (List.mem_map_of_mem hw))
      rw [decide_eq_true_eq, hneg] at hw
      cases hw
  simp only [z3Check, bounded_of_armed harmed, hall, guarded, hunsat]
  rfl

end Meaning

section Verified

variable {B : Seconds → Backends} (O : Z3Oracle (B timeoutSeconds))

/-- Under this timeout every accepted deduction from premises of these signs to
a conclusion of this sign is sound. -/
def Sound (O : Z3Oracle (B timeoutSeconds)) (P : Prims) (I : Interp) (signs : List Value) (sign : Value) : Prop :=
  ∀ premises conclusion rule v, premises.map Node.polarity = signs → conclusion.polarity = sign →
    verify (Backends.checkers P I B) premises conclusion rule .deduction none timeoutSeconds = .ok v →
    v.rejected = false →
      O.Entails premises conclusion

/-- Positive signs are the ones that the check reads. -/
theorem entails_of_positive {v : VerificationResult} (hp : ∀ p ∈ premises, p.polarity.truthy = true)
    (hc : conclusion.polarity.truthy = true)
    (hv : verify (Backends.checkers P I B) premises conclusion rule .deduction none timeoutSeconds = .ok v)
    (hacc : v.rejected = false) : O.Entails premises conclusion := by
  obtain ⟨r, hr, hpass, -⟩ := checked_of_accepted hv hacc (show checkerFor _ _ = some .z3 from rfl)
  obtain ⟨-, exprs, hparse, hent⟩ := O.entails_of_passed hr hpass
  obtain ⟨ps, hps, hparse⟩ := bind_eq_ok.mp hparse
  obtain ⟨c, hconcl, hparse⟩ := bind_eq_ok.mp hparse
  cases hparse
  intro σ hσ
  refine ⟨c, hconcl, ?_⟩
  rw [if_pos hc]
  apply hent σ
  intro φ hφ
  obtain ⟨p, hmem, hφp⟩ := mem_of_mapM hps hφ
  obtain ⟨φ', hφ', hholds⟩ := hσ p hmem
  rw [if_pos (hp p hmem)] at hholds
  obtain rfl : φ = φ' := Except.ok.inj (hφp.symm.trans hφ')
  exact hholds

include O in
theorem accepted_trivial {signs : List Value} {sign : Value} (harmed : Armed (B timeoutSeconds) timeoutSeconds)
    (h : ∃ w ∈ sign :: signs, w.truthy = false) :
    ∃ v, verify (Backends.checkers P I B) (signs.map (trivialNode true)) (trivialNode false sign) (.str "modus ponens")
      .deduction none timeoutSeconds = .ok v ∧ v.rejected = false := by
  have he : evaluate (Backends.checkers P I B) (signs.map (trivialNode true)) (trivialNode false sign)
      (.str "modus ponens")
      .deduction = .ok ⟨.pass, []⟩ := by
    refine evaluate_plain (d := "algebra") (by decide) (by decide) ?_ rfl (.inr ?_) (.inr ?_)
    · intro p hp
      obtain ⟨w, -, rfl⟩ := List.mem_map.mp hp
      exact ⟨⟨⟨_, rfl⟩, _, rfl⟩, rfl⟩
    · rw [trivialNode]
      split <;> rfl
    · rw [trivialNode]
      split <;> rfl
  have hk : checkerFor .deduction none = some .z3 := rfl
  obtain ⟨v, hv, hacc, -⟩ := accepted_of_checked he hk (O.z3Check_trivial harmed h) rfl
  exact ⟨v, hv, hacc⟩

end Verified

end Z3Oracle

variable {B : Seconds → Backends}

/-- Over nodes of given signs and under a given timeout every accepted
deduction is sound exactly where all the signs are positive, or where no
deduction is accepted, since the timeout cannot be set. -/
theorem deduction_sound_iff (O : Z3Oracle (B timeoutSeconds)) (P : Prims) (I : Interp) (signs : List Value)
    (sign : Value) :
    O.Sound P I signs sign ↔ (Armed (B timeoutSeconds) timeoutSeconds → ∀ w ∈ sign :: signs, w.truthy = true) := by
  constructor
  · intro h harmed w hw
    by_contra hneg
    obtain ⟨v, hv, hacc⟩ := O.accepted_trivial (P := P) (I := I) harmed ⟨w, hw, Bool.eq_false_iff.mpr hneg⟩
    obtain ⟨σ⟩ := O.nonempty
    have hsigns : (signs.map (Z3Oracle.trivialNode true)).map Node.polarity = signs := by
      rw [List.map_map]
      exact List.map_id signs
    have hent := h _ _ _ v hsigns rfl hv hacc σ fun p hp => by
      obtain ⟨w, -, rfl⟩ := List.mem_map.mp hp
      exact O.asserted_trivialNode.mpr rfl
    cases O.asserted_trivialNode.mp hent
  · intro h premises conclusion rule v hsigns hsign hv hacc
    have hk : checkerFor .deduction none = some .z3 := rfl
    obtain ⟨r, hr, hpass, -⟩ := checked_of_accepted hv hacc hk
    have h := h (O.entails_of_passed hr hpass).1
    rw [List.forall_mem_cons] at h
    refine O.entails_of_positive (fun p hp => ?_) (hsign ▸ h.1) hv hacc
    exact h.2 _ (hsigns ▸ List.mem_map_of_mem hp)

/-! ## Lean -/

/-- The Lean kernel as an oracle: given the time, a run accepts the sources that
type-check, which prove the statements that they contain. `entailment` states in
Lean that premises entail a conclusion; it states different conclusions
differently. -/
structure LeanOracle (B : Seconds → Backends) where
  run : Seconds → Bytes → Except PyError Int
  lean (timeoutSeconds : Seconds) : (B timeoutSeconds).lean = some (run timeoutSeconds)
  TypeChecks : Bytes → Prop
  run_iff (source : Bytes) : (∃ timeoutSeconds, run timeoutSeconds source = .ok 0) ↔ TypeChecks source
  Statement : Type
  statements : Bytes → List Statement
  entailment : List Node → Node → Statement
  entailment_inj {ps ps' : List Node} {c c' : Node} : entailment ps c = entailment ps' c' → c = c'

namespace LeanOracle

/-- The source proves that the premises entail the conclusion. -/
def Proves (O : LeanOracle B) (source : Bytes) (premises : List Node) (conclusion : Node) : Prop :=
  O.TypeChecks source ∧ O.entailment premises conclusion ∈ O.statements source

/-- Under some timeout the source reaches Lean, which accepts it. -/
def Passes (O : LeanOracle B) (source : Bytes) : Prop :=
  ∃ timeoutSeconds, (B timeoutSeconds).tempFile source = .ok () ∧ O.run timeoutSeconds source = .ok 0

/-- Under some timeout the deduction is accepted at κ3 with this source. -/
def Accepts (P : Prims) (I : Interp) (B : Seconds → Backends) (source : Bytes) (premises : List Node)
    (conclusion : Node)
    (rule : Value) : Prop :=
  ∃ timeoutSeconds v,
    verify (Backends.checkers P I B) premises conclusion rule .deduction (some source) timeoutSeconds =
    .ok v ∧ v.rejected = false ∧ v.kappa = .k3

/-- The source proves what it is accepted for. -/
def Bound (O : LeanOracle B) (P : Prims) (I : Interp) (source : Bytes) : Prop :=
  ∀ premises conclusion rule, Accepts P I B source premises conclusion rule → O.Proves source premises conclusion

/-- The source is accepted for two conclusions only where it proves both. -/
def Unshared (O : LeanOracle B) (P : Prims) (I : Interp) (source : Bytes) : Prop :=
  ∀ premises conclusion rule premises' conclusion' rule', conclusion ≠ conclusion' →
    Accepts P I B source premises conclusion rule → Accepts P I B source premises' conclusion' rule' →
      O.Proves source premises conclusion ∧ O.Proves source premises' conclusion'

variable (O : LeanOracle B) {source : Bytes}

theorem leanCheck_eq (hsource : source ≠ []) : leanCheck (B timeoutSeconds) (some source) =
    ((B timeoutSeconds).tempFile source >>= fun _ => guarded leanCatches "lean timed out or failed to run"
      (O.run timeoutSeconds source) fun n =>
        if n = 0 then .ok ⟨true, .k3, none⟩ else .ok (Checker.failure "lean rejected the proof")) := by
  have hne : (some source).getD [] ≠ [] := hsource
  simp only [leanCheck, O.lean, hne, if_false]
  rfl

theorem passes_of_passed (hsource : source ≠ []) {r : CheckerResult}
    (hr : leanCheck (B timeoutSeconds) (some source) = .ok r) (hpass : r.passed = true) : O.Passes source := by
  rw [O.leanCheck_eq hsource, bind_eq_ok] at hr
  obtain ⟨u, hfile, hr⟩ := hr
  obtain ⟨n, hrun, hr⟩ := ok_of_guarded hr hpass
  by_cases hn : n = 0
  · subst hn
    exact ⟨_, hfile, hrun⟩
  · rw [if_neg hn] at hr
    cases hr
    cases hpass

theorem leanCheck_of_passes (hsource : source ≠ []) (h : O.Passes source) :
    ∃ timeoutSeconds, leanCheck (B timeoutSeconds) (some source) = .ok ⟨true, .k3, none⟩ := by
  obtain ⟨timeoutSeconds, hfile, hrun⟩ := h
  refine ⟨timeoutSeconds, ?_⟩
  rw [O.leanCheck_eq hsource, hfile, hrun]
  rfl

theorem passes_of_accepts (hsource : source ≠ []) (h : Accepts P I B source premises conclusion rule) :
    O.Passes source := by
  obtain ⟨timeoutSeconds, v, hv, hacc, -⟩ := h
  have hk : checkerFor .deduction (some source) = some .lean := if_pos hsource
  obtain ⟨r, hr, hpass, -⟩ := checked_of_accepted hv hacc hk
  exact O.passes_of_passed hsource hr hpass

/-- A conclusion without premises, that ELENCHUS passes. -/
def plainNode (s : String) : Node where
  claim := .str s
  domain := .str "algebra"
  polarity := .bool true

theorem plainNode_injective : Function.Injective plainNode := by
  intro s t h
  exact Value.str.inj (congrArg Node.claim h)

/-- A source that passes is accepted for whatever ELENCHUS passes. -/
theorem accepts_plainNode (hsource : source ≠ []) (h : O.Passes source) (s : String) :
    Accepts P I B source [] (plainNode s) (.str "proof") := by
  have he : evaluate (Backends.checkers P I B) [] (plainNode s) (.str "proof") .deduction = .ok ⟨.pass, []⟩ :=
    evaluate_plain (d := "algebra") (by decide) (by decide) (fun p hp => absurd hp List.not_mem_nil) rfl (.inl rfl)
      (.inl rfl)
  have hk : checkerFor .deduction (some source) = some .lean := if_pos hsource
  obtain ⟨timeoutSeconds, hcheck⟩ := O.leanCheck_of_passes hsource h
  exact ⟨timeoutSeconds, accepted_of_checked he hk hcheck rfl⟩

/-- There is always a claim that the source does not prove. -/
theorem exists_unproved (source : Bytes) : ∃ s, ¬ O.Proves source [] (plainNode s) := by
  have hinj : Function.Injective fun s => O.entailment [] (plainNode s) :=
    fun s t h => plainNode_injective (O.entailment_inj h)
  by_contra hnone
  have hall : ∀ s, O.Proves source [] (plainNode s) := fun s => by_contra fun hs => hnone ⟨s, hs⟩
  have hfin : (Set.range fun s => O.entailment [] (plainNode s)).Finite :=
    (List.finite_toSet (O.statements source)).subset (Set.range_subset_iff.mpr fun s => (hall s).2)
  exact Set.infinite_range_of_injective hinj hfin

end LeanOracle

/-- A source is bound to what it proves exactly where it is never accepted. -/
theorem proof_bound_iff (O : LeanOracle B) (P : Prims) (I : Interp) (source : Bytes) (hsource : source ≠ []) :
    (O.Bound P I source ↔ ¬ O.Passes source) ∧ (O.Unshared P I source ↔ ¬ O.Passes source) := by
  obtain ⟨s, hs⟩ := O.exists_unproved source
  refine ⟨⟨fun h hpass => ?_, fun h premises conclusion rule hacc => ?_⟩,
    fun h hpass => ?_, fun h premises conclusion rule premises' conclusion' rule' hne hacc hacc' => ?_⟩
  · exact hs (h _ _ _ (O.accepts_plainNode hsource hpass s))
  · exact absurd (O.passes_of_accepts hsource hacc) h
  · obtain ⟨t, ht⟩ := exists_ne s
    have hne : LeanOracle.plainNode s ≠ LeanOracle.plainNode t := fun h => ht (LeanOracle.plainNode_injective h).symm
    exact hs (h _ _ _ _ _ _ hne (O.accepts_plainNode hsource hpass s) (O.accepts_plainNode hsource hpass _)).1
  · exact absurd (O.passes_of_accepts hsource hacc) h

section Example

open Reference

theorem backends_unsat_iff (ps : List Bool) (c : Bool) :
    Except.ok (ε := PyError) (if ps.all id && !c then Z3Answer.sat else .unsat) = .ok .unsat ↔
      ((∀ p ∈ ps, p = true) → c = true) := by
  have hall : ps.all id = true ↔ ∀ p ∈ ps, p = true := List.all_eq_true
  rw [← hall, Except.ok.injEq]
  generalize ps.all id = b
  cases b <;> cases c <;> decide

/-- Closed comparisons, read as the truth values that they are evaluated to. -/
def closedOracle : Z3Oracle (backends defaultTimeout) where
  Assignment := Unit
  nonempty := ⟨()⟩
  Holds _ φ := φ = true
  unsat_iff ps c := (backends_unsat_iff ps c).trans (forall_const Unit).symm
  equal := ⟨true, rfl, fun _ => rfl⟩
  less := ⟨false, rfl, fun _ => Bool.false_ne_true⟩

/-- `¬(x == x)`. -/
def negatedIdentity : Node := ⟨.str "x == x", .str "math", .bool false⟩

theorem negated_identity_accepted :
    (∃ v, verify (Backends.checkers reference interp backends) [] negatedIdentity (.str "reflexivity") .deduction
      none defaultTimeout = .ok v ∧ v.rejected = false ∧ v.kappa = .k3) ∧
    ¬ closedOracle.Entails [] negatedIdentity ∧ ¬ closedOracle.Sound reference interp [] (.bool false) := by
  have he : evaluate (Backends.checkers reference interp backends) [] negatedIdentity (.str "reflexivity")
      .deduction = .ok ⟨.pass, []⟩ := by decide +kernel
  have hcheck : z3Check (backends defaultTimeout) [] negatedIdentity defaultTimeout =
      .ok ⟨true, .k3, none⟩ := by decide +kernel
  have hk : checkerFor .deduction none = some .z3 := rfl
  have hacc := accepted_of_checked he hk hcheck rfl
  have hent : ¬ closedOracle.Entails [] negatedIdentity := by
    intro h
    obtain ⟨φ, hφ, hholds⟩ := h () (fun p hp => absurd hp List.not_mem_nil)
    obtain rfl : true = φ := Except.ok.inj hφ
    exact hholds rfl
  refine ⟨hacc, hent, fun h => hent ?_⟩
  obtain ⟨v, hv, hrej, -⟩ := hacc
  exact h [] negatedIdentity _ v rfl rfl hv hrej

theorem deduction_sound_closed : closedOracle.Sound reference interp [] (.bool false) ↔
    (Armed (backends defaultTimeout) defaultTimeout → ∀ w ∈ [Value.bool false], w.truthy = true) :=
  deduction_sound_iff closedOracle reference interp [] (.bool false)

/-- The comment proves nothing. -/
def commentOracle : LeanOracle backends where
  run _ source := .ok (if source = [0x2d, 0x2d] then 0 else 1)
  lean _ := rfl
  TypeChecks source := source = [0x2d, 0x2d]
  run_iff source := by
    have : Nonempty Seconds := ⟨defaultTimeout⟩
    rw [Except.ok.injEq, exists_const]
    split <;> simp [*]
  Statement := List Node × Node
  statements _ := []
  entailment ps c := (ps, c)
  entailment_inj h := congrArg Prod.snd h

theorem comment_proves_anything :
    LeanOracle.Accepts reference interp backends [0x2d, 0x2d] [] (LeanOracle.plainNode "0 = 1") (.str "proof") ∧
    ¬ commentOracle.Bound reference interp [0x2d, 0x2d] ∧ ¬ commentOracle.Unshared reference interp [0x2d, 0x2d] := by
  have hpass : commentOracle.Passes [0x2d, 0x2d] := ⟨defaultTimeout, rfl, rfl⟩
  have hacc := fun s => commentOracle.accepts_plainNode (P := reference) (I := interp) (by decide) hpass s
  have hunproved : ∀ s, ¬ commentOracle.Proves [0x2d, 0x2d] [] (LeanOracle.plainNode s) :=
    fun s h => List.not_mem_nil h.2
  refine ⟨hacc _, fun h => hunproved "0 = 1" (h _ _ _ (hacc _)), fun h => hunproved "0 = 1" ?_⟩
  have hne : LeanOracle.plainNode "0 = 1" ≠ LeanOracle.plainNode "0 = 2" :=
    fun h => absurd (LeanOracle.plainNode_injective h) (by decide)
  exact (h _ _ _ _ _ _ hne (hacc _) (hacc _)).1

theorem proof_bound_comment : (commentOracle.Bound reference interp [0x2d, 0x2d] ↔
      ¬ commentOracle.Passes [0x2d, 0x2d]) ∧
    (commentOracle.Unshared reference interp [0x2d, 0x2d] ↔ ¬ commentOracle.Passes [0x2d, 0x2d]) :=
  proof_bound_iff commentOracle reference interp [0x2d, 0x2d] (by decide)

end Example

end ArxDB.Proof
