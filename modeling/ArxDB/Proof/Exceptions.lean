import ArxDB.Impl.Server
import ArxDB.Proof.Pipeline
import ArxDB.Reference.Backends

/-!
# Exceptions in the checkers

Each checker handles some classes of exceptions at some of its steps
(`Raises`). An exception that its step handles is a clean failure, and so a
rejection; one that it does not handle leaves `verify`, and `/commit` answers
with an internal error. That no exception leaves is exactly what `verify`
needs to always answer (`verify_answers_iff`).
-/

namespace ArxDB.Proof

open Impl Verifier Checker Text Failing

variable {P : Prims} {I : Interp} {premises : List Node} {conclusion : Node} {rule : Value} {edgeType : EdgeType}
  {proofBytes : Option Bytes} {timeoutSeconds : Seconds}

/-- The checkers that `run_bounded` runs. -/
def Timed : CheckerKind → Bool
  | .z3 | .cas | .spectral => true
  | .roster | .lean => false

/-- Setting the timer, or the evaluation of a claim or of a proof, raises an
exception at a step that handles these classes. -/
inductive Raises (B : Backends) (premises : List Node) (conclusion : Node) (proofBytes : Option Bytes)
    (timeoutSeconds : Seconds) : CheckerKind → (PyError → Bool) → PyError → Prop
  | timer {kind : CheckerKind} {e : PyError} : Timed kind = true → TimerRaises B timeoutSeconds e →
      Raises B premises conclusion proofBytes timeoutSeconds kind (· = .checkerTimeout) e
  | parse {e : PyError} : Armed B timeoutSeconds → parseAll B premises conclusion = .error e →
      Raises B premises conclusion proofBytes timeoutSeconds .z3 (fun e => z3Catches e || e = .checkerTimeout) e
  | solve {exprs : List B.Formula × B.Formula} {e : PyError} : Armed B timeoutSeconds →
      parseAll B premises conclusion = .ok exprs → B.z3Solve exprs.1 exprs.2 = .error e →
      Raises B premises conclusion proofBytes timeoutSeconds .z3 (· = .checkerTimeout) e
  | sides {s : String} {sides : List Char × List Char} {e : PyError} : Armed B timeoutSeconds →
      conclusion.claim = .str s → splitOnce '=' s.toList = some sides → parseSides B sides = .error e →
      Raises B premises conclusion proofBytes timeoutSeconds .cas (fun _ => true) e
  | simplify {s : String} {sides : List Char × List Char} {exprs : B.Expression × B.Expression} {e : PyError} :
      Armed B timeoutSeconds → conclusion.claim = .str s → splitOnce '=' s.toList = some sides →
      parseSides B sides = .ok exprs → B.simplifiesToZero exprs.1 exprs.2 = .error e →
      Raises B premises conclusion proofBytes timeoutSeconds .cas (· = .checkerTimeout) e
  | matrix {s : String} {prop expr : List Char} {e : PyError} : Armed B timeoutSeconds → conclusion.claim = .str s →
      splitOnce ' ' (strip s.toList) = some (prop, expr) → evalSpectral B (strip prop) (strip expr) = .error e →
      Raises B premises conclusion proofBytes timeoutSeconds .spectral
        (fun e => spectralCatches e || e = .checkerTimeout) e
  | file {run : Bytes → Except PyError Int} {e : PyError} : B.lean = some run → proofBytes.getD [] ≠ [] →
      B.tempFile (proofBytes.getD []) = .error e →
      Raises B premises conclusion proofBytes timeoutSeconds .lean (fun _ => false) e
  | run {run : Bytes → Except PyError Int} {e : PyError} : B.lean = some run → proofBytes.getD [] ≠ [] →
      B.tempFile (proofBytes.getD []) = .ok () → run (proofBytes.getD []) = .error e →
      Raises B premises conclusion proofBytes timeoutSeconds .lean leanCatches e

/-! ## The checkers -/

section Check

variable {B : Backends}

/-- A clean failure where the bound handles the exception. -/
theorem exceptTimeout_error {e : PyError} :
    if e = .checkerTimeout then ∃ m, exceptTimeout (.error e) = .ok (failure m)
    else exceptTimeout (.error e) = .error e := by
  split
  · rename_i ht
    subst ht
    exact ⟨_, rfl⟩
  · rename_i ht
    cases e <;> first | rfl | exact absurd rfl ht

theorem guarded_error {α : Type} {catches : PyError → Bool} {message : String} {e : PyError}
    {f : α → Except PyError CheckerResult} : guarded catches message (.error e) f =
      if catches e then .ok (failure message) else .error e := rfl

/-- The same at a step that handles some classes. -/
theorem exceptTimeout_guarded_error {α : Type} {catches : PyError → Bool} {message : String} {e : PyError}
    {f : α → Except PyError CheckerResult} :
    if catches e || e = .checkerTimeout then
      ∃ m, exceptTimeout (guarded catches message (.error e) f) = .ok (failure m)
    else exceptTimeout (guarded catches message (.error e) f) = .error e := by
  rw [guarded_error]
  by_cases hc : catches e = true
  · simp only [hc, Bool.true_or, if_true]
    exact ⟨_, rfl⟩
  · simp only [hc, Bool.false_or, decide_eq_true_eq, Bool.false_eq_true, if_false]
    exact exceptTimeout_error

/-- A checker whose evaluation raises fails cleanly where the step handles the exception, and raises it elsewhere. -/
theorem check_of_raises (rule : Value) {kind : CheckerKind} {handles : PyError → Bool} {e : PyError}
    (h : Raises B premises conclusion proofBytes timeoutSeconds kind handles e) :
    if handles e then ∃ m, check B kind premises conclusion rule proofBytes timeoutSeconds = .ok (failure m)
    else check B kind premises conclusion rule proofBytes timeoutSeconds = .error e := by
  cases h with
  | timer hk ht =>
    have key := exceptTimeout_error (e := e)
    cases kind
    case roster | lean => cases hk
    all_goals
      simp only [check, z3Check, casCheck, spectralCheck, bounded_of_timerRaises ht, decide_eq_true_eq]
      exact key
  | parse harmed h =>
    rw [check, z3Check, h, bounded_of_armed harmed]
    exact exceptTimeout_guarded_error
  | solve harmed h h' =>
    have key := exceptTimeout_error (e := e)
    simp only [check, z3Check, bounded_of_armed harmed, h, guarded, h', bind, Except.bind, decide_eq_true_eq]
    exact key
  | sides harmed hs hsplit h =>
    simp only [check, casCheck, bounded_of_armed harmed, hs, hsplit, h, guarded, if_true]
    exact ⟨_, rfl⟩
  | simplify harmed hs hsplit h h' =>
    have key := exceptTimeout_error (e := e)
    simp only [check, casCheck, bounded_of_armed harmed, hs, hsplit, h, guarded, h', bind, Except.bind,
      decide_eq_true_eq]
    exact key
  | matrix harmed hs hsplit h =>
    simp only [check, spectralCheck, bounded_of_armed harmed, hs, hsplit, h]
    exact exceptTimeout_guarded_error
  | file hl hp h =>
    simp only [check, leanCheck, hl, hp, h, bind, Except.bind, if_false, Bool.false_eq_true]
  | run hl hp h h' =>
    simp only [check, leanCheck, hl, hp, h, h', bind, Except.bind, if_false, guarded]
    split
    · exact ⟨_, rfl⟩
    · rfl

/-- A checker whose evaluation does not raise answers. -/
theorem check_ok (rule : Value) {kind : CheckerKind} (hc : ∃ s, conclusion.claim = .str s)
    (h : ¬ ∃ handles e, Raises B premises conclusion proofBytes timeoutSeconds kind handles e) :
    ∃ r, check B kind premises conclusion rule proofBytes timeoutSeconds = .ok r := by
  obtain ⟨s, hs⟩ := hc
  have armed : Timed kind = true → Armed B timeoutSeconds := fun hk e ht => h ⟨_, e, .timer hk ht⟩
  cases kind with
  | roster =>
    simp only [check, rosterCheck, checkRoster, hs]
    exact ⟨_, rfl⟩
  | z3 =>
    have harmed := armed rfl
    rw [check, z3Check, bounded_of_armed harmed]
    cases hp : parseAll B premises conclusion with
    | error e => exact absurd ⟨_, e, .parse harmed hp⟩ h
    | ok exprs =>
      cases hsolve : B.z3Solve exprs.1 exprs.2 with
      | error e => exact absurd ⟨_, e, .solve harmed hp hsolve⟩ h
      | ok a =>
        simp only [guarded, hsolve]
        exact ⟨_, rfl⟩
  | cas =>
    have harmed := armed rfl
    rw [check, casCheck, bounded_of_armed harmed, hs]
    cases hsplit : splitOnce '=' s.toList with
    | none =>
      simp only [hsplit]
      exact ⟨_, rfl⟩
    | some sides =>
      cases hp : parseSides B sides with
      | error e => exact absurd ⟨_, e, .sides harmed hs hsplit hp⟩ h
      | ok exprs =>
        cases hz : B.simplifiesToZero exprs.1 exprs.2 with
        | error e => exact absurd ⟨_, e, .simplify harmed hs hsplit hp hz⟩ h
        | ok b =>
          simp only [hsplit, hp, guarded, hz]
          cases b <;> exact ⟨_, rfl⟩
  | spectral =>
    have harmed := armed rfl
    rw [check, spectralCheck, bounded_of_armed harmed, hs]
    cases hsplit : splitOnce ' ' (strip s.toList) with
    | none =>
      simp only [hsplit]
      exact ⟨_, rfl⟩
    | some parts =>
      cases hm : evalSpectral B (strip parts.1) (strip parts.2) with
      | error e => exact absurd ⟨_, e, .matrix harmed hs hsplit hm⟩ h
      | ok b =>
        simp only [hsplit, hm, guarded]
        cases b <;> exact ⟨_, rfl⟩
  | lean =>
    cases hl : B.lean with
    | none =>
      simp only [check, leanCheck, hl]
      exact ⟨_, rfl⟩
    | some run =>
      by_cases hp : proofBytes.getD [] = []
      · simp only [check, leanCheck, hl, hp, if_true]
        exact ⟨_, rfl⟩
      · cases hf : B.tempFile (proofBytes.getD []) with
        | error e => exact absurd ⟨_, e, .file hl hp hf⟩ h
        | ok u =>
          cases hr : run (proofBytes.getD []) with
          | error e => exact absurd ⟨_, e, .run hl hp hf hr⟩ h
          | ok n =>
            simp only [check, leanCheck, hl, hp, hf, hr, bind, Except.bind, if_false, guarded]
            split <;> exact ⟨_, rfl⟩

end Check

/-! ## Proposals -/

/-- The checker that a proposal is dispatched to raises in its evaluation. -/
def Raised (B : Seconds → Backends) (q : Proposal) (handles : PyError → Bool) (e : PyError) : Prop :=
  ∃ kind, checkerFor q.edgeType q.proofBytes = some kind ∧
    Raises (B q.timeoutSeconds) q.premises q.conclusion q.proofBytes q.timeoutSeconds kind handles e

/-- `verify` returns, with a veto where the checker raised, and so does `/commit`. -/
structure Answers (P : Prims) (I : Interp) (B : Seconds → Backends) (q : Proposal) : Prop where
  result : ∃ v,
    verify (Backends.checkers P I B) q.premises q.conclusion q.rule q.edgeType q.proofBytes
      q.timeoutSeconds = .ok v ∧
    ∀ handles e, Raised B q handles e → v.verdict = .hardVeto ∧ v.kappa = .k0
  commit : ∀ (app : App) (body : CommitBody) (now : Int) (s : Storage), Server.proposal app body = .ok q →
    ∀ handles e, Raised B q handles e →
      ∃ r, (Server.commit P app (Backends.checkers P I B) now body).exec none s = (.ok r, s) ∧ r.rejected = true

/-- A proposal that `verify` rejects changes nothing. -/
theorem exec_commit_rejected {app : App} {body : CommitBody} {now : Int} {s : Storage} {checkers : Checkers}
    {q : Proposal} {v : VerificationResult} (hq : Server.proposal app body = .ok q)
    (hv : verify checkers q.premises q.conclusion q.rule q.edgeType q.proofBytes q.timeoutSeconds = .ok v)
    (hveto : v.verdict = .hardVeto) :
    ∃ r, (Server.commit P app checkers now body).exec none s = (.ok r, s) ∧ r.rejected = true := by
  have hrej : v.rejected = true := by rw [VerificationResult.rejected, hveto]; rfl
  refine ⟨{ verification := v, edge := none, edgeHash := none, logEntry := none }, ?_, hrej⟩
  have hrun : Server.commit P app checkers now body =
      pure { verification := v, edge := none, edgeHash := none, logEntry := none } := by
    rw [Server.commit, hq]
    show verifyAndCommit P checkers app.keys now q = _
    rw [verifyAndCommit, hv]
    exact if_pos hrej
  rw [hrun]
  rfl

/-- Where `verify` returns and ELENCHUS does not veto, the checker handles whatever its evaluation raises. -/
theorem handled_of_verify {B : Seconds → Backends} {q : Proposal} {elenchus : ElenchusResult} {v : VerificationResult}
    (hev : evaluate (Backends.checkers P I B) q.premises q.conclusion q.rule q.edgeType = .ok elenchus)
    (hveto : elenchus.verdict ≠ .hardVeto)
    (hv : verify (Backends.checkers P I B) q.premises q.conclusion q.rule q.edgeType q.proofBytes
      q.timeoutSeconds = .ok v) {handles : PyError → Bool} {e : PyError} (h : Raised B q handles e) :
    handles e = true := by
  obtain ⟨kind, hk, hraises⟩ := h
  by_contra hh
  have hcheck := check_of_raises q.rule hraises
  rw [if_neg hh] at hcheck
  rw [verify_checker hev hveto hk, map_eq_ok] at hv
  obtain ⟨r, hr, -⟩ := hv
  rw [show (Backends.checkers P I B).check _ _ _ _ _ _ = _ from hcheck] at hr
  cases hr

/-- Where ELENCHUS vetoes or the checker handles what its evaluation raises,
`verify` returns, with a veto if it raised. -/
theorem verify_of_handled {B : Seconds → Backends} {q : Proposal} {elenchus : ElenchusResult}
    (hc : ∃ s, q.conclusion.claim = .str s)
    (hev : evaluate (Backends.checkers P I B) q.premises q.conclusion q.rule q.edgeType = .ok elenchus)
    (hhandled : elenchus.verdict ≠ .hardVeto → ∀ handles e, Raised B q handles e → handles e = true) :
    ∃ v, verify (Backends.checkers P I B) q.premises q.conclusion q.rule q.edgeType q.proofBytes
        q.timeoutSeconds = .ok v ∧
      ∀ handles e, Raised B q handles e → v.verdict = .hardVeto ∧ v.kappa = .k0 := by
  by_cases hveto : elenchus.verdict = .hardVeto
  · exact ⟨_, verify_veto hev hveto, fun _ _ _ => ⟨rfl, rfl⟩⟩
  cases hk : checkerFor q.edgeType q.proofBytes with
  | none =>
    obtain ⟨v, hv, -⟩ := verify_unchecked hev hveto hk
    refine ⟨v, hv, fun handles e hraised => ?_⟩
    obtain ⟨kind, hk', -⟩ := hraised
    rw [hk] at hk'
    cases hk'
  | some kind =>
    rw [verify_checker hev hveto hk]
    show ∃ v, _ <$> Checker.check (B q.timeoutSeconds) kind q.premises q.conclusion q.rule q.proofBytes
      q.timeoutSeconds = _ ∧ _
    by_cases hraised : ∃ handles e, Raises (B q.timeoutSeconds) q.premises q.conclusion q.proofBytes
        q.timeoutSeconds kind handles e
    · obtain ⟨handles, e, hraises⟩ := hraised
      have hcheck := check_of_raises q.rule hraises
      rw [if_pos (hhandled hveto handles e ⟨kind, hk, hraises⟩)] at hcheck
      obtain ⟨m, hm⟩ := hcheck
      rw [hm]
      exact ⟨_, rfl, fun _ _ _ => ⟨rfl, rfl⟩⟩
    · obtain ⟨r, hr⟩ := check_ok q.rule hc hraised
      rw [hr]
      refine ⟨_, rfl, fun handles e h => ?_⟩
      obtain ⟨kind', hk', hraises⟩ := h
      obtain rfl : kind = kind' := Option.some.inj (hk.symm.trans hk')
      exact absurd ⟨handles, e, hraises⟩ hraised

/-- `verify` answers as it should exactly where ELENCHUS answers and either
vetoes or the checker handles whatever its evaluation raises; on texts
ELENCHUS does answer. -/
theorem verify_answers_iff (P : Prims) (I : Interp) (B : Seconds → Backends) (q : Proposal)
    (hc : ∃ s, q.conclusion.claim = .str s) :
    (Answers P I B q ↔
      ∃ elenchus, evaluate (Backends.checkers P I B) q.premises q.conclusion q.rule q.edgeType = .ok elenchus ∧
        (elenchus.verdict ≠ .hardVeto → ∀ handles e, Raised B q handles e → handles e = true)) ∧
    ((∀ p ∈ q.premises, TextNode p) → TextNode q.conclusion → (∃ s, q.rule = .str s) →
      ∃ elenchus, evaluate (Backends.checkers P I B) q.premises q.conclusion q.rule q.edgeType = .ok elenchus) := by
  refine ⟨⟨fun h => ?_, fun h => ?_⟩, fun hp hc hr => evaluate_ok hp hc hr⟩
  · obtain ⟨v, hv, -⟩ := h.result
    cases hev : evaluate (Backends.checkers P I B) q.premises q.conclusion q.rule q.edgeType with
    | error e =>
      rw [verify, hev] at hv
      cases hv
    | ok elenchus => exact ⟨elenchus, rfl, fun hveto _ _ hraised => handled_of_verify hev hveto hv hraised⟩
  · obtain ⟨elenchus, hev, hhandled⟩ := h
    have hresult := verify_of_handled hc hev hhandled
    refine ⟨hresult, fun app body now s hq handles e hraised => ?_⟩
    obtain ⟨v, hv, hraise⟩ := hresult
    exact exec_commit_rejected hq hv (hraise handles e hraised).1

section Example

open Reference

/-- The evaluation of `1/0 > x` divides by zero. -/
def dividing (timeoutSeconds : Seconds) : Backends :=
  { backends timeoutSeconds with z3Eval := fun s => if s = "1/0 > x" then .error .zeroDivisionError else .ok none }

/-- The deduction of `1/0 > x` from nothing. -/
def quotient : Proposal where
  signerPubkey := .bytes []
  premises := []
  conclusion := ⟨.str "1/0 > x", .str "math", .bool true⟩
  rule := .str "arithmetic"
  edgeType := .deduction
  proofBytes := none
  timeoutSeconds := defaultTimeout

theorem evaluate_quotient : evaluate (Backends.checkers reference interp dividing) quotient.premises quotient.conclusion
    quotient.rule quotient.edgeType = .ok ⟨.pass, []⟩ := by decide +kernel

theorem division_by_zero_raises : ¬ Answers reference interp dividing quotient := by
  intro h
  obtain ⟨v, hv, -⟩ := h.result
  have hcheck : check (dividing quotient.timeoutSeconds) .z3 quotient.premises quotient.conclusion quotient.rule
      quotient.proofBytes quotient.timeoutSeconds =
      .error .zeroDivisionError := by decide +kernel
  rw [verify_checker evaluate_quotient (by decide) (show checkerFor _ _ = some .z3 from rfl), map_eq_ok] at hv
  obtain ⟨r, hr, -⟩ := hv
  cases hcheck.symm.trans hr

theorem verify_answers_quotient : Answers reference interp dividing quotient ↔
    ∃ elenchus,
      evaluate (Backends.checkers reference interp dividing) quotient.premises quotient.conclusion quotient.rule
        quotient.edgeType = .ok elenchus ∧
      (elenchus.verdict ≠ .hardVeto → ∀ handles e, Raised dividing quotient handles e → handles e = true) :=
  (verify_answers_iff reference interp dividing quotient ⟨_, rfl⟩).1

end Example

end ArxDB.Proof
