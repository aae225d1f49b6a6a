import ArxDB.Proof.Pipeline

/-!
# The κ of an accepted edge

What each checker grants, and on what its back end answers (`check_grants`);
and so the κ of an accepted proposal, which its type and that answer decide
(`verify_grades`). A checker's κ is that of its kind, but for the roster's,
which also passes what it does not list.
-/

namespace ArxDB.Proof

open Impl Verifier Checker Text

variable {P : Prims} {I : Interp} {premises : List Node} {conclusion : Node} {rule : Value} {edgeType : EdgeType}
  {proofBytes : Option Bytes} {timeoutSeconds : Seconds} {k : Kappa}

/-! ## Checks -/

/-- The check passes at this κ. -/
def PassesAt (k : Kappa) (x : Except PyError CheckerResult) : Prop := ∃ r, x = .ok r ∧ r.passed = true ∧ r.kappa = k

theorem passesAt_ok {r : CheckerResult} : PassesAt k (.ok r) ↔ r.passed = true ∧ r.kappa = k := by
  simp only [PassesAt, Except.ok.injEq, exists_eq_left']

theorem passesAt_pass {j : Kappa} : PassesAt k (.ok ⟨true, j, none⟩) ↔ k = j := by
  rw [passesAt_ok]
  exact ⟨fun h => h.2.symm, fun h => ⟨rfl, h.symm⟩⟩

theorem passesAt_failure {message : String} : ¬ PassesAt k (.ok (failure message)) := by
  rw [passesAt_ok]
  exact fun h => absurd h.1 Bool.false_ne_true

theorem passesAt_error {e : PyError} : ¬ PassesAt k (.error e) := by
  intro h
  obtain ⟨r, hr, -⟩ := h
  cases hr

theorem passesAt_bind {α : Type} {x : Except PyError α} {f : α → Except PyError CheckerResult} :
    PassesAt k (x >>= f) ↔ ∃ a, x = .ok a ∧ PassesAt k (f a) := by
  cases x with
  | ok a => simp only [Except.ok.injEq, exists_eq_left']; rfl
  | error e => exact iff_of_false passesAt_error (by simp)

theorem passesAt_guarded {α : Type} {catches : PyError → Bool} {message : String} {x : Except PyError α}
    {f : α → Except PyError CheckerResult} :
    PassesAt k (guarded catches message x f) ↔ ∃ a, x = .ok a ∧ PassesAt k (f a) := by
  cases x with
  | ok a => simp only [Except.ok.injEq, exists_eq_left', guarded]
  | error e =>
    simp only [guarded, reduceCtorEq, false_and, exists_false, iff_false]
    split
    · exact passesAt_failure
    · exact passesAt_error

theorem passesAt_bounded {B : Backends} {x : Except PyError CheckerResult} :
    PassesAt k (bounded B timeoutSeconds x) ↔ Armed B timeoutSeconds ∧ PassesAt k x := by
  constructor
  · intro h
    obtain ⟨r, hr, hpass, hk⟩ := h
    obtain ⟨harmed, hx⟩ := ok_of_bounded hr hpass
    exact ⟨harmed, r, hx, hpass, hk⟩
  · intro h
    obtain ⟨harmed, r, rfl, hpass, hk⟩ := h
    exact ⟨r, bounded_of_armed harmed, hpass, hk⟩

/-- A check that ends with the answer of a test. -/
theorem passesAt_if {p : Prop} [Decidable p] {j : Kappa} {message : String} :
    PassesAt k (if p then .ok ⟨true, j, none⟩ else .ok (failure message)) ↔ k = j ∧ p := by
  by_cases hp : p
  · rw [if_pos hp, passesAt_pass, and_iff_left hp]
  · rw [if_neg hp]
    exact iff_of_false passesAt_failure fun h => hp h.2

theorem passesAt_z3Result {a : Z3Answer} : PassesAt k (.ok (z3Result a)) ↔ k = .k3 ∧ a = .unsat := by
  cases a with
  | unsat => simpa [z3Result] using passesAt_pass
  | sat => simpa [z3Result] using passesAt_failure
  | unknown => simpa [z3Result] using passesAt_failure

/-! ## What the checkers grant -/

section Grants

variable {B : Backends}

/-- The checker of this kind grants this κ: the roster by whether it lists the
claim, the others theirs where the back end confirms the step, and those that
are bounded where the timer is set. -/
def Grants (B : Backends) (premises : List Node) (conclusion : Node) (proofBytes : Option Bytes)
    (timeoutSeconds : Seconds) (k : Kappa) : CheckerKind → Prop
  | .roster => ∃ s, conclusion.claim = .str s ∧
      k = if (roster.map String.toList).contains (normalize s.toList) then .kInf else .k1
  | .lean => k = .k3 ∧ ∃ run, B.lean = some run ∧ proofBytes.getD [] ≠ [] ∧
      B.tempFile (proofBytes.getD []) = .ok () ∧ run (proofBytes.getD []) = .ok 0
  | .z3 => k = .k3 ∧ Armed B timeoutSeconds ∧ ∃ exprs, parseAll B premises conclusion = .ok exprs ∧
      B.z3Solve exprs.1 exprs.2 = .ok .unsat
  | .cas => k = .k2 ∧ Armed B timeoutSeconds ∧ ∃ s sides exprs, conclusion.claim = .str s ∧
      splitOnce '=' s.toList = some sides ∧ parseSides B sides = .ok exprs ∧
      B.simplifiesToZero exprs.1 exprs.2 = .ok true
  | .spectral => k = .k2 ∧ Armed B timeoutSeconds ∧ ∃ s parts, conclusion.claim = .str s ∧
      splitOnce ' ' (strip s.toList) = some parts ∧ evalSpectral B (strip parts.1) (strip parts.2) = .ok true

theorem rosterCheck_grants : PassesAt k (rosterCheck conclusion) ↔
    Grants B premises conclusion proofBytes timeoutSeconds k .roster := by
  rw [rosterCheck, passesAt_bind, Grants, checkRoster]
  cases conclusion.claim with
  | str s =>
    simp only [Except.ok.injEq, exists_eq_left', Value.str.injEq]
    exact passesAt_pass
  | _ => simp

theorem leanCheck_grants : PassesAt k (leanCheck B proofBytes) ↔
    Grants B premises conclusion proofBytes timeoutSeconds k .lean := by
  rw [leanCheck, Grants]
  cases B.lean with
  | none => simpa using passesAt_failure
  | some run =>
    simp only [Option.some.injEq, exists_eq_left']
    by_cases hp : proofBytes.getD [] = []
    · simpa [hp] using passesAt_failure
    · simp only [hp, if_false, passesAt_bind, passesAt_guarded, passesAt_if, ne_eq, not_false_eq_true, true_and]
      constructor
      · intro h
        obtain ⟨u, hfile, n, hrun, hk, rfl⟩ := h
        exact ⟨hk, hfile, hrun⟩
      · intro h
        obtain ⟨hk, hfile, hrun⟩ := h
        exact ⟨(), hfile, 0, hrun, hk, rfl⟩

theorem z3Check_grants : PassesAt k (z3Check B premises conclusion timeoutSeconds) ↔
    Grants B premises conclusion proofBytes timeoutSeconds k .z3 := by
  simp only [z3Check, passesAt_bounded, passesAt_guarded, passesAt_bind, Grants]
  constructor
  · intro h
    obtain ⟨harmed, exprs, hparse, a, ha, hpass⟩ := h
    obtain ⟨hk, rfl⟩ := passesAt_z3Result.mp hpass
    exact ⟨hk, harmed, exprs, hparse, ha⟩
  · intro h
    obtain ⟨hk, harmed, exprs, hparse, ha⟩ := h
    exact ⟨harmed, exprs, hparse, .unsat, ha, passesAt_z3Result.mpr ⟨hk, rfl⟩⟩

theorem casCheck_grants : PassesAt k (casCheck B conclusion timeoutSeconds) ↔
    Grants B premises conclusion proofBytes timeoutSeconds k .cas := by
  rw [casCheck, passesAt_bounded, Grants, and_left_comm]
  refine and_congr_right fun _ => ?_
  cases conclusion.claim with
  | str s =>
    simp only [Value.str.injEq, exists_and_left, exists_eq_left']
    cases splitOnce '=' s.toList with
    | none => simpa using passesAt_failure
    | some sides =>
      simp only [passesAt_guarded, passesAt_bind, Option.some.injEq, exists_eq_left']
      constructor
      · intro h
        obtain ⟨exprs, hparse, b, hb, hpass⟩ := h
        obtain ⟨hk, rfl⟩ := passesAt_if.mp hpass
        exact ⟨hk, exprs, hparse, hb⟩
      · intro h
        obtain ⟨hk, exprs, hparse, hb⟩ := h
        exact ⟨exprs, hparse, true, hb, passesAt_if.mpr ⟨hk, rfl⟩⟩
  | _ => simpa using passesAt_error

theorem spectralCheck_grants : PassesAt k (spectralCheck B conclusion timeoutSeconds) ↔
    Grants B premises conclusion proofBytes timeoutSeconds k .spectral := by
  rw [spectralCheck, passesAt_bounded, Grants, and_left_comm]
  refine and_congr_right fun _ => ?_
  cases conclusion.claim with
  | str s =>
    simp only [Value.str.injEq, exists_and_left, exists_eq_left']
    cases splitOnce ' ' (strip s.toList) with
    | none => simpa using passesAt_failure
    | some parts =>
      simp only [passesAt_guarded, Option.some.injEq, exists_eq_left']
      constructor
      · intro h
        obtain ⟨b, hb, hpass⟩ := h
        obtain ⟨hk, rfl⟩ := passesAt_if.mp hpass
        exact ⟨hk, hb⟩
      · intro h
        exact ⟨true, h.2, passesAt_if.mpr ⟨h.1, rfl⟩⟩
  | _ => simpa using passesAt_error

/-- A checker passes at a κ exactly where it grants it. -/
theorem check_grants {kind : CheckerKind} :
    PassesAt k (check B kind premises conclusion rule proofBytes timeoutSeconds) ↔
      Grants B premises conclusion proofBytes timeoutSeconds k kind := by
  cases kind with
  | roster => exact rosterCheck_grants
  | lean => exact leanCheck_grants
  | z3 => exact z3Check_grants
  | cas => exact casCheck_grants
  | spectral => exact spectralCheck_grants

end Grants

/-! ## Acceptance -/

variable {B : Seconds → Backends}

/-- The type of the edge has this κ: what its checker grants, or else the default. -/
def Grades (B : Seconds → Backends) (premises : List Node) (conclusion : Node) (edgeType : EdgeType)
    (proofBytes : Option Bytes) (timeoutSeconds : Seconds) (k : Kappa) : Prop :=
  match checkerFor edgeType proofBytes with
  | some kind => Grants (B timeoutSeconds) premises conclusion proofBytes timeoutSeconds k kind
  | none => defaultKappa edgeType = .ok k

/-- ELENCHUS answers, and does not veto. -/
def Unvetoed (P : Prims) (I : Interp) (B : Seconds → Backends) (premises : List Node) (conclusion : Node)
    (rule : Value) (edgeType : EdgeType) : Prop :=
  ∃ elenchus, evaluate (Backends.checkers P I B) premises conclusion rule edgeType = .ok elenchus ∧
    elenchus.verdict ≠ .hardVeto

theorem concluded_grades {elenchus : ElenchusResult} (hveto : elenchus.verdict ≠ .hardVeto)
    {x : Except PyError CheckerResult} :
    (∃ v, (fun r => concluded elenchus r edgeType rule) <$> x = .ok v ∧ v.rejected = false ∧ v.kappa = k) ↔
      PassesAt k x := by
  constructor
  · intro h
    obtain ⟨v, hv, hrej, hk⟩ := h
    obtain ⟨r, hr, rfl⟩ := map_eq_ok.mp hv
    cases hpass : r.passed with
    | true =>
      simp only [concluded, hpass, if_true] at hk
      exact ⟨r, hr, hpass, hk⟩
    | false =>
      simp only [concluded, hpass, Bool.false_eq_true, if_false] at hrej
      cases hrej
  · intro h
    obtain ⟨r, rfl, hpass, hk⟩ := h
    refine ⟨_, rfl, ?_⟩
    simp only [concluded, hpass, if_true, acceptance, VerificationResult.rejected, hveto, decide_false]
    exact ⟨trivial, hk⟩

/-- A proposal is accepted at a κ exactly when ELENCHUS does not veto it and its type has that κ. -/
theorem verify_grades :
    (∃ v, verify (Backends.checkers P I B) premises conclusion rule edgeType proofBytes timeoutSeconds = .ok v ∧
      v.rejected = false ∧ v.kappa = k) ↔
    Unvetoed P I B premises conclusion rule edgeType ∧
      Grades B premises conclusion edgeType proofBytes timeoutSeconds k := by
  rw [Unvetoed, Grades]
  cases he : evaluate (Backends.checkers P I B) premises conclusion rule edgeType with
  | error e => simp [verify, he, bind, Except.bind]
  | ok elenchus =>
    simp only [Except.ok.injEq, exists_eq_left']
    by_cases hveto : elenchus.verdict = .hardVeto
    · rw [verify_veto he hveto]
      refine iff_of_false (fun h => ?_) fun h => h.1 hveto
      obtain ⟨v, hv, hrej, -⟩ := h
      cases hv
      cases hrej
    · rw [ne_eq, and_iff_right hveto]
      cases hk : checkerFor edgeType proofBytes with
      | some kind =>
        rw [verify_checker he hveto hk, concluded_grades hveto]
        exact check_grants
      | none =>
        obtain ⟨v, hv, hverdict, hkappa⟩ : ∃ v, verify (Backends.checkers P I B) premises conclusion rule edgeType
          proofBytes timeoutSeconds = .ok v ∧ _ := verify_unchecked he hveto hk
        simp only [hv, hkappa, Except.ok.injEq, exists_eq_left', VerificationResult.rejected, hverdict, hveto,
          decide_false, true_and]

end ArxDB.Proof
