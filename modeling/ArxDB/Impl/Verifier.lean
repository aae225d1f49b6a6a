import ArxDB.Impl.Kappa

/-!
# `elenchus.py`, `verifier.py`

The tiering pipeline. The ELENCHUS predicates and the formal checkers are
arguments (`Checkers`): they read claim texts and call solvers, and what they
answer may change from call to call.
-/

namespace ArxDB.Impl

/-- A fired ELENCHUS predicate. -/
structure Flag where
  name : String
  severity : Verdict
  message : String
deriving DecidableEq, Repr

/-- `ElenchusResult`. -/
structure ElenchusResult where
  verdict : Verdict
  flags : List Flag
deriving DecidableEq, Repr

/-- `CheckerResult`. -/
structure CheckerResult where
  passed : Bool
  kappa : Kappa
  errorMsg : Option String
deriving DecidableEq, Repr

/-- A Python float, as a number of seconds. -/
inductive Seconds where
  | finite (q : Rat)
  | inf | negInf | nan
deriving DecidableEq, Repr

/-- `timeout_seconds <= 0`. -/
def Seconds.nonpositive : Seconds → Bool
  | .finite q => q ≤ 0
  | .negInf => true
  | .inf | .nan => false

/-- `timeout_seconds: float = 5.0`. -/
def defaultTimeout : Seconds := .finite 5

/-- The checkers that a proposal can be dispatched to. -/
inductive CheckerKind where
  | roster | lean | z3 | cas | spectral
deriving DecidableEq, Repr

/-- What is run on a proposal: the predicates in order, and a checker by its kind. -/
structure Checkers where
  predicates : List (List Node → Node → Value → EdgeType → Except PyError (Option Flag))
  check : CheckerKind → List Node → Node → Value → Option Bytes → Seconds → Except PyError CheckerResult

/-- `VerificationResult`. -/
structure VerificationResult where
  verdict : Verdict
  kappa : Kappa
  elenchus : ElenchusResult
  checker : Option CheckerResult
  edgeType : EdgeType
  rule : Value

/-- `rejected`. -/
def VerificationResult.rejected (v : VerificationResult) : Bool := v.verdict = .hardVeto

namespace Verifier

/-- The verdict that the fired flags add up to. -/
def verdictOf (flags : List Flag) : Verdict :=
  if flags.any (·.severity = .hardVeto) then .hardVeto
  else if flags ≠ [] then .softFlag
  else .pass

/-- `evaluate`. -/
def evaluate (checkers : Checkers) (premises : List Node) (conclusion : Node) (rule : Value)
    (edgeType : EdgeType) : Except PyError ElenchusResult := do
  let fired ← checkers.predicates.mapM fun pred => pred premises conclusion rule edgeType
  let flags := fired.filterMap id
  pure { verdict := verdictOf flags, flags }

/-- `_DEFAULT_KAPPA`, for the types that have no checker. -/
def defaultKappa : EdgeType → Except PyError Kappa
  | .reduction => .ok .k1
  | .refutation => .ok .k1
  | .analogy => .ok .k0
  | .citation => .ok .k1
  | _ => .error .keyError

/-- `_checker_for`: a deduction goes to Lean when it comes with a proof that is not empty. -/
def checkerFor (edgeType : EdgeType) (proofBytes : Option Bytes) : Option CheckerKind :=
  match edgeType with
  | .definition => some .roster
  | .deduction => if proofBytes.getD [] ≠ [] then some .lean else some .z3
  | .numerical => some .cas
  | .spectral => some .spectral
  | _ => none

/-- `verify`. -/
def verify (checkers : Checkers) (premises : List Node) (conclusion : Node) (rule : Value)
    (edgeType : EdgeType) (proofBytes : Option Bytes) (timeoutSeconds : Seconds) :
    Except PyError VerificationResult := do
  let elenchus ← evaluate checkers premises conclusion rule edgeType
  if elenchus.verdict = .hardVeto then
    return { verdict := .hardVeto, kappa := .k0, elenchus, checker := none, edgeType, rule }
  match checkerFor edgeType proofBytes with
  | none =>
    return { verdict := elenchus.verdict, kappa := ← defaultKappa edgeType, elenchus, checker := none, edgeType,
             rule }
  | some kind =>
    let result ← checkers.check kind premises conclusion rule proofBytes timeoutSeconds
    if !result.passed then
      return { verdict := .hardVeto, kappa := .k0, elenchus, checker := some result, edgeType, rule }
    return { verdict := elenchus.verdict, kappa := result.kappa, elenchus, checker := some result, edgeType,
             rule }

end Verifier

end ArxDB.Impl
