import ArxDB.Impl.Checkers
import ArxDB.Proof.Encoding

/-!
# The verification pipeline

The three ways through `verify` (`verify_veto`, `verify_checker`,
`verify_unchecked`), what it takes to be accepted where there is a checker
(`checked_of_accepted`, `accepted_of_checked`), and what the predicates and
checkers read: no node's polarity (`verify_unsigned`). On nodes with text fields
the predicates always answer (`evaluate_ok`).
-/

namespace ArxDB.Proof

open Impl Verifier Text

variable {P : Prims} {I : Interp} {B : Seconds → Backends} {checkers : Checkers} {premises : List Node}
  {conclusion : Node} {rule : Value} {edgeType : EdgeType} {proofBytes : Option Bytes} {timeoutSeconds : Seconds}

/-! ## The result -/

/-- The result of a rejection: of a veto, or of a checker that fails. -/
def rejection (elenchus : ElenchusResult) (checker : Option CheckerResult) (edgeType : EdgeType) (rule : Value) :
    VerificationResult where
  verdict := .hardVeto
  kappa := .k0
  elenchus := elenchus
  checker := checker
  edgeType := edgeType
  rule := rule

/-- The result of a check that passes. -/
def acceptance (elenchus : ElenchusResult) (result : CheckerResult) (edgeType : EdgeType) (rule : Value) :
    VerificationResult where
  verdict := elenchus.verdict
  kappa := result.kappa
  elenchus := elenchus
  checker := some result
  edgeType := edgeType
  rule := rule

/-- `verify` after a check. -/
def concluded (elenchus : ElenchusResult) (result : CheckerResult) (edgeType : EdgeType) (rule : Value) :
    VerificationResult :=
  if result.passed then acceptance elenchus result edgeType rule else rejection elenchus (some result) edgeType rule

section Verify

variable {elenchus : ElenchusResult} (he : evaluate checkers premises conclusion rule edgeType = .ok elenchus)
include he

theorem verify_veto (hv : elenchus.verdict = .hardVeto) :
    verify checkers premises conclusion rule edgeType proofBytes timeoutSeconds =
      .ok (rejection elenchus none edgeType rule) := by
  simp only [verify, he, hv, bind, Except.bind, if_true]
  rfl

theorem verify_checker (hv : elenchus.verdict ≠ .hardVeto) {kind : CheckerKind}
    (hk : checkerFor edgeType proofBytes = some kind) :
    verify checkers premises conclusion rule edgeType proofBytes timeoutSeconds =
      (fun r => concluded elenchus r edgeType rule) <$>
        checkers.check kind premises conclusion rule proofBytes timeoutSeconds := by
  simp only [verify, he, hv, hk, bind, Except.bind, if_false]
  cases checkers.check kind premises conclusion rule proofBytes timeoutSeconds with
  | error err => rfl
  | ok r =>
    simp only [Functor.map, Except.map, concluded]
    cases r.passed <;> rfl

theorem verify_unchecked (hv : elenchus.verdict ≠ .hardVeto) (hk : checkerFor edgeType proofBytes = none) :
    ∃ v, verify checkers premises conclusion rule edgeType proofBytes timeoutSeconds = .ok v ∧
      v.verdict = elenchus.verdict ∧ defaultKappa edgeType = .ok v.kappa := by
  simp only [verify, he, hv, hk, bind, Except.bind, if_false]
  cases edgeType
  case definition | numerical | spectral => simp [checkerFor] at hk
  case deduction =>
    simp only [checkerFor] at hk
    split at hk <;> cases hk
  all_goals exact ⟨_, rfl, rfl, rfl⟩

end Verify

/-- What passes a checker is what is accepted. -/
theorem checked_of_accepted {kind : CheckerKind} {v : VerificationResult}
    (hv : verify checkers premises conclusion rule edgeType proofBytes timeoutSeconds = .ok v)
    (hacc : v.rejected = false)
    (hk : checkerFor edgeType proofBytes = some kind) :
    ∃ r, checkers.check kind premises conclusion rule proofBytes timeoutSeconds = .ok r ∧ r.passed = true ∧
    v.kappa = r.kappa := by
  cases he : evaluate checkers premises conclusion rule edgeType with
  | error e =>
    rw [verify, he] at hv
    cases hv
  | ok elenchus =>
    by_cases hveto : elenchus.verdict = .hardVeto
    · rw [verify_veto he hveto] at hv
      cases hv
      cases hacc
    · rw [verify_checker he hveto hk, map_eq_ok] at hv
      obtain ⟨r, hr, rfl⟩ := hv
      refine ⟨r, hr, ?_⟩
      cases hpass : r.passed with
      | true => simp only [concluded, hpass, if_true, acceptance, and_self]
      | false =>
        simp only [concluded, hpass, Bool.false_eq_true, if_false, rejection, VerificationResult.rejected,
          decide_true] at hacc
        cases hacc

/-- A proposal that ELENCHUS passes is accepted with what its checker passes. -/
theorem accepted_of_checked {kind : CheckerKind} {r : CheckerResult}
    (he : evaluate checkers premises conclusion rule edgeType = .ok ⟨.pass, []⟩)
    (hk : checkerFor edgeType proofBytes = some kind)
    (hr : checkers.check kind premises conclusion rule proofBytes timeoutSeconds = .ok r) (hpass : r.passed = true) :
    ∃ v, verify checkers premises conclusion rule edgeType proofBytes timeoutSeconds = .ok v ∧ v.rejected = false ∧
      v.kappa = r.kappa := by
  rw [verify_checker he (by decide) hk, hr]
  refine ⟨_, rfl, ?_⟩
  simp only [concluded, hpass, if_true]
  exact ⟨rfl, rfl⟩

/-! ## The timer -/

section Bounded

variable {B : Backends} {x : Except PyError CheckerResult}

/-- Setting the timer of `run_bounded` raises this. -/
def TimerRaises (B : Backends) (timeoutSeconds : Seconds) (e : PyError) : Prop :=
  timeoutSeconds.nonpositive = false ∧ B.timer = some (.error e)

/-- `run_bounded` sets its timer, or needs none. -/
def Armed (B : Backends) (timeoutSeconds : Seconds) : Prop := ∀ e, ¬ TimerRaises B timeoutSeconds e

theorem bounded_of_armed (h : Armed B timeoutSeconds) :
    Checker.bounded B timeoutSeconds x = Checker.exceptTimeout x := by
  unfold Checker.bounded Checker.runBounded
  split_ifs with ht
  · rfl
  · cases hB : B.timer with
    | none => rfl
    | some timer =>
      cases timer with
      | ok u => rfl
      | error e => exact absurd ⟨Bool.eq_false_iff.mpr ht, hB⟩ (h e)

theorem bounded_of_timerRaises {e : PyError} (h : TimerRaises B timeoutSeconds e) :
    Checker.bounded B timeoutSeconds x = Checker.exceptTimeout (.error e) := by
  simp only [Checker.bounded, Checker.runBounded, h.1, h.2, Bool.false_eq_true, if_false]
  rfl

/-- What passes under a bound passes without it, and the timer was set. -/
theorem ok_of_bounded {r : CheckerResult} (h : Checker.bounded B timeoutSeconds x = .ok r) (hpass : r.passed = true) :
    Armed B timeoutSeconds ∧ x = .ok r := by
  have ok_of_exceptTimeout : ∀ {x}, Checker.exceptTimeout x = .ok r → x = .ok r := by
    intro x h
    cases x with
    | ok r' => exact h
    | error e =>
      cases e <;> cases h
      cases hpass
  have harmed : Armed B timeoutSeconds := by
    intro e he
    rw [bounded_of_timerRaises he] at h
    cases ok_of_exceptTimeout h
  rw [bounded_of_armed harmed] at h
  exact ⟨harmed, ok_of_exceptTimeout h⟩

end Bounded

/-- What passes a guarded step passes the rest. -/
theorem ok_of_guarded {α : Type} {catches : PyError → Bool} {message : String} {x : Except PyError α}
    {f : α → Except PyError CheckerResult} {r : CheckerResult} (h : Checker.guarded catches message x f = .ok r)
    (hpass : r.passed = true) : ∃ a, x = .ok a ∧ f a = .ok r := by
  cases x with
  | ok a => exact ⟨a, rfl, h⟩
  | error e =>
    simp only [Checker.guarded] at h
    split at h <;> cases h
    cases hpass

/-! ## Polarity -/

/-- The node without its sign. -/
def unsigned (n : Node) : Node := { n with polarity := .bool true }

@[simp] theorem unsigned_claim (n : Node) : (unsigned n).claim = n.claim := rfl
@[simp] theorem unsigned_domain (n : Node) : (unsigned n).domain = n.domain := rfl

section Unsigned

open Elenchus

theorem categoryError_unsigned : categoryError P I (premises.map unsigned) (unsigned conclusion) edgeType =
    categoryError P I premises conclusion edgeType := by
  simp only [categoryError, List.map_eq_nil_iff, List.mapM_map, List.any_map, List.map_map, Function.comp_def,
    unsigned_domain]

theorem selfModelLeak_unsigned :
    selfModelLeak I (unsigned conclusion) rule edgeType = selfModelLeak I conclusion rule edgeType := rfl

theorem nonSequitur_unsigned : nonSequitur (premises.map unsigned) (unsigned conclusion) edgeType =
    nonSequitur premises conclusion edgeType := by
  simp only [nonSequitur, List.map_eq_nil_iff, List.mapM_map, Function.comp_def, unsigned_claim]

theorem sharedFrom_unsigned {classes : List String} :
    sharedFrom I classes (premises.map unsigned) = sharedFrom I classes premises := by
  induction premises with
  | nil => rfl
  | cons p ps ih => simp only [List.map_cons, sharedFrom, unsigned_claim, ih]

theorem circularity_unsigned : circularity I (premises.map unsigned) (unsigned conclusion) edgeType =
    circularity I premises conclusion edgeType := by
  simp only [circularity, List.map_eq_nil_iff, unsigned_claim, sharedFrom_unsigned]

theorem evaluate_unsigned :
    evaluate (Backends.checkers P I B) (premises.map unsigned) (unsigned conclusion) rule edgeType =
      evaluate (Backends.checkers P I B) premises conclusion rule edgeType := by
  simp only [evaluate, Backends.checkers, predicates, List.mapM_cons, List.mapM_nil, categoryError_unsigned,
    selfModelLeak_unsigned, nonSequitur_unsigned, circularity_unsigned]

theorem check_unsigned {B : Backends} {kind : CheckerKind} :
    Checker.check B kind (premises.map unsigned) (unsigned conclusion) rule proofBytes timeoutSeconds =
      Checker.check B kind premises conclusion rule proofBytes timeoutSeconds := by
  cases kind
  case z3 => simp only [Checker.check, Checker.z3Check, Checker.parseAll, List.mapM_map, Function.comp_def,
    unsigned_claim]
  all_goals rfl

/-- No polarity is read. -/
theorem verify_unsigned :
    verify (Backends.checkers P I B) (premises.map unsigned) (unsigned conclusion) rule edgeType proofBytes
        timeoutSeconds =
      verify (Backends.checkers P I B) premises conclusion rule edgeType proofBytes timeoutSeconds := by
  have hcheck : ∀ kind, (Backends.checkers P I B).check kind (premises.map unsigned) (unsigned conclusion) rule
      proofBytes timeoutSeconds = (Backends.checkers P I B).check kind premises conclusion rule proofBytes
        timeoutSeconds := fun kind => check_unsigned
  simp only [verify, evaluate_unsigned, hcheck]

end Unsigned

/-! ## Texts -/

/-- Claim and domain are texts, as `Node` declares them. -/
structure TextNode (n : Node) : Prop where
  claim : ∃ s, n.claim = .str s
  domain : ∃ s, n.domain = .str s

section Total

open Elenchus

variable (hp : ∀ p ∈ premises, TextNode p) (hc : TextNode conclusion)

theorem TextNode.hashed {n : Node} (h : TextNode n) : Elenchus.hashed n.domain = .ok () := by
  obtain ⟨s, hs⟩ := h.domain
  rw [hs]
  rfl

theorem TextNode.tokensOf {n : Node} (h : TextNode n) : ∃ ts, Elenchus.tokensOf n.claim = .ok ts := by
  obtain ⟨s, hs⟩ := h.claim
  rw [hs]
  exact ⟨_, rfl⟩

theorem TextNode.classify {n : Node} (h : TextNode n) : ∃ cs, Elenchus.classify I n.claim = .ok cs := by
  obtain ⟨s, hs⟩ := h.claim
  rw [hs]
  exact ⟨_, rfl⟩

include hp hc in
theorem categoryError_ok : ∃ o, categoryError P I premises conclusion edgeType = .ok o := by
  obtain ⟨us, hus⟩ := exists_mapM fun p h => ⟨(), (hp p h).hashed⟩
  have htext : (premises.map Node.domain).all isText = true := by
    rw [List.all_map, List.all_eq_true]
    intro p h
    obtain ⟨s, hs⟩ := (hp p h).domain
    rw [Function.comp_apply, hs]
    rfl
  simp only [categoryError, hus, hc.hashed, htext, Bool.true_or, bind, Except.bind, pure, Except.pure, if_true]
  split_ifs
  all_goals exact ⟨_, rfl⟩

include hc in
theorem selfModelLeak_ok : ∃ o, selfModelLeak I conclusion rule edgeType = .ok o := by
  simp only [selfModelLeak, hc.hashed, bind, Except.bind, pure, Except.pure]
  split_ifs
  all_goals exact ⟨_, rfl⟩

include hp hc in
theorem nonSequitur_ok : ∃ o, nonSequitur premises conclusion edgeType = .ok o := by
  obtain ⟨ts, hts⟩ := exists_mapM fun p h => (hp p h).tokensOf
  obtain ⟨ts', hts'⟩ := hc.tokensOf
  simp only [nonSequitur, hts, hts', bind, Except.bind, pure, Except.pure]
  split_ifs
  all_goals exact ⟨_, rfl⟩

theorem emptyRule_ok (hr : ∃ s, rule = .str s) : ∃ o, emptyRule rule edgeType = .ok o := by
  obtain ⟨s, rfl⟩ := hr
  simp only [emptyRule, blank, bind, Except.bind, pure, Except.pure]
  split_ifs
  all_goals exact ⟨_, rfl⟩

theorem sharedFrom_ok {classes : List String} (hp : ∀ p ∈ premises, TextNode p) :
    ∃ o, sharedFrom I classes premises = .ok o := by
  induction premises with
  | nil => exact ⟨_, rfl⟩
  | cons p ps ih =>
    rw [List.forall_mem_cons] at hp
    obtain ⟨cs, hcs⟩ := hp.1.classify (I := I)
    simp only [sharedFrom, hcs, bind, Except.bind, pure, Except.pure]
    split_ifs
    · exact ⟨_, rfl⟩
    · exact ih hp.2

include hp hc in
theorem circularity_ok : ∃ o, circularity I premises conclusion edgeType = .ok o := by
  obtain ⟨cs, hcs⟩ := hc.classify (I := I)
  simp only [circularity, hcs, bind, Except.bind, pure, Except.pure]
  split_ifs
  · exact ⟨_, rfl⟩
  · exact ⟨_, rfl⟩
  · exact sharedFrom_ok hp
  · exact ⟨_, rfl⟩

include hp hc in
/-- On texts ELENCHUS always answers. -/
theorem evaluate_ok (hr : ∃ s, rule = .str s) :
    ∃ elenchus, evaluate (Backends.checkers P I B) premises conclusion rule edgeType = .ok elenchus := by
  obtain ⟨o₁, h₁⟩ : ∃ o, categoryError P I premises conclusion edgeType = .ok o := categoryError_ok hp hc
  obtain ⟨o₂, h₂⟩ : ∃ o, selfModelLeak I conclusion rule edgeType = .ok o := selfModelLeak_ok hc
  obtain ⟨o₃, h₃⟩ : ∃ o, nonSequitur premises conclusion edgeType = .ok o := nonSequitur_ok hp hc
  obtain ⟨o₄, h₄⟩ : ∃ o, emptyRule rule edgeType = .ok o := emptyRule_ok hr
  obtain ⟨o₅, h₅⟩ : ∃ o, circularity I premises conclusion edgeType = .ok o := circularity_ok hp hc
  simp only [evaluate, Backends.checkers, predicates, List.mapM_cons, List.mapM_nil, h₁, h₂, h₃, h₄, h₅, bind,
    Except.bind, pure, Except.pure]
  exact ⟨_, rfl⟩

end Total

section Plain

open Elenchus

theorem categoryError_same {d : String} (hp : ∀ p ∈ premises, TextNode p ∧ p.domain = .str d)
    (hc : conclusion.domain = .str d) : categoryError P I premises conclusion edgeType = .ok none := by
  cases premises with
  | nil => rfl
  | cons p ps =>
    obtain ⟨us, hus⟩ := exists_mapM fun q h => ⟨(), (hp q h).1.hashed⟩
    have hany : ((p :: ps).any fun q => P.equal q.domain conclusion.domain) = true := by
      rw [List.any_eq_true]
      refine ⟨p, List.mem_cons_self, ?_⟩
      rw [(hp p List.mem_cons_self).2, hc]
      exact beq_self_eq_true d
    have hhash : Elenchus.hashed conclusion.domain = .ok () := by rw [hc]; rfl
    simp only [categoryError, hus, hhash, hany, bind, Except.bind, pure, Except.pure, if_true]
    split_ifs
    all_goals rfl

theorem selfModelLeak_soft {d : String} (hd : d ∉ hardDomains) (hc : conclusion.domain = .str d) :
    selfModelLeak I conclusion rule edgeType = .ok none := by
  have hhard : (hardDomains.any fun d' => (Value.str d).isStr d') = false := by
    rw [List.any_eq_false]
    intro d' h heq
    exact hd ((beq_iff_eq.mp heq) ▸ h)
  have hhash : Elenchus.hashed (.str d) = .ok () := rfl
  simp only [selfModelLeak, hc, hhash, hhard, bind, Except.bind, pure, Except.pure, Bool.not_false, if_true]

theorem nonSequitur_plain (hp : ∀ p ∈ premises, TextNode p)
    (htokens : premises = [] ∨ tokensOf conclusion.claim = .ok []) :
    nonSequitur premises conclusion edgeType = .ok none := by
  by_cases hnil : premises = []
  · subst hnil
    rfl
  · obtain ⟨ts, hts⟩ := exists_mapM fun p h => (hp p h).tokensOf
    simp only [nonSequitur, hnil, hts, htokens.resolve_left hnil, bind, Except.bind, pure, Except.pure, if_false,
      List.any_nil, Bool.false_eq_true]
    split_ifs
    all_goals rfl

theorem emptyRule_named {r : String} (hr : strip r.toList ≠ []) : emptyRule (.str r) edgeType = .ok none := by
  simp only [emptyRule, blank, hr, bind, Except.bind, pure, Except.pure, decide_false, Bool.false_eq_true, if_false]
  split_ifs
  all_goals rfl

theorem circularity_plain (hclass : premises = [] ∨ classify I conclusion.claim = .ok []) :
    circularity I premises conclusion edgeType = .ok none := by
  by_cases hnil : premises = []
  · subst hnil
    rfl
  · simp only [circularity, hnil, hclass.resolve_left hnil, bind, Except.bind, pure, Except.pure, if_false, if_true]
    split_ifs
    all_goals rfl

/-- ELENCHUS passes a named step within a domain that is not a hard one, when
the conclusion has no token and no class. -/
theorem evaluate_plain {d r : String} (hd : d ∉ hardDomains) (hr : strip r.toList ≠ [])
    (hp : ∀ p ∈ premises, TextNode p ∧ p.domain = .str d) (hc : conclusion.domain = .str d)
    (htokens : premises = [] ∨ tokensOf conclusion.claim = .ok [])
    (hclass : premises = [] ∨ classify I conclusion.claim = .ok []) :
    evaluate (Backends.checkers P I B) premises conclusion (.str r) edgeType = .ok ⟨.pass, []⟩ := by
  simp only [evaluate, Backends.checkers, predicates, List.mapM_cons, List.mapM_nil, categoryError_same hp hc,
    selfModelLeak_soft hd hc, nonSequitur_plain (fun p h => (hp p h).1) htokens, emptyRule_named hr,
    circularity_plain hclass, bind, Except.bind, pure, Except.pure]
  rfl

end Plain

end ArxDB.Proof
