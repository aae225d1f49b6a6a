import ArxDB.Impl.Elenchus

/-!
# `checkers/`

The formal checkers over what they call: the evaluation of claim texts, Z3,
SymPy, NumPy and the Lean binary (`Backends`). Claims are texts, as `Node`
declares them; messages are given without the values that they quote.
-/

namespace ArxDB.Impl

open Text

/-- What `Solver.check` answers. -/
inductive Z3Answer where
  | unsat | sat | unknown
deriving DecidableEq, Repr

/-- A property that `spectral_check._check` knows. -/
inductive SpectralProperty where
  | selfAdjoint | symmetric | realSpectrum | complexSpectrum | rankLeq (k : Int) | lowRank
deriving DecidableEq, Repr

/-- What the checkers call, under one timeout. A call that runs out of time
raises `CheckerTimeout`, and `TimeoutExpired` in Lean. -/
structure Backends where
  /-- Where there is SIGALRM: `signal.signal` and `setitimer` for this timeout,
  and the same again to take the timer back. -/
  timer : Option (Except PyError Unit)
  Formula : Type
  /-- `eval` in the namespace of Z3: a `BoolRef`, or some other object. -/
  z3Eval : String → Except PyError (Option Formula)
  /-- A solver, with the timeout in milliseconds as its own, for the conjunction
  of the premises and the negated conclusion; for `sat`, the text of its model. -/
  z3Solve : List Formula → Formula → Except PyError Z3Answer
  Expression : Type
  parseExpr : List Char → Except PyError Expression
  /-- `simplify(lhs - rhs) == 0`; where it is, also the texts of the sides. -/
  simplifiesToZero : Expression → Expression → Except PyError Bool
  Object : Type
  /-- `eval` in the namespace of NumPy and mpmath. -/
  spectralEval : List Char → Except PyError Object
  Matrix : Type
  /-- `np.asarray(obj, dtype=complex)`. -/
  asArray : Object → Except PyError Matrix
  shape : Matrix → List Nat
  /-- `int(s)`. -/
  int : List Char → Except PyError Int
  /-- The computation of `_check`, in floating point. -/
  spectral : SpectralProperty → Matrix → Except PyError Bool
  /-- Write the source to a temporary file. -/
  tempFile : Bytes → Except PyError Unit
  /-- Run `LEAN_BINARY`, if there is one, on a source, for at most the timeout: its return code. -/
  lean : Option (Bytes → Except PyError Int)

namespace Checker

/-- A clean failure. -/
def failure (message : String) : CheckerResult := ⟨false, .k0, some message⟩

/-- `run_bounded`. Without a positive timeout, and where there is no SIGALRM, nothing bounds `fn`. -/
def runBounded (timer : Option (Except PyError Unit)) (timeoutSeconds : Seconds) (fn : Except PyError CheckerResult) :
    Except PyError CheckerResult :=
  if timeoutSeconds.nonpositive then fn
  else match timer with
    | none => fn
    | some timer => do
      timer
      fn

/-- `except CheckerTimeout`. -/
def exceptTimeout : Except PyError CheckerResult → Except PyError CheckerResult
  | .error .checkerTimeout => .ok (failure "checker exceeded its budget")
  | r => r

/-- `try: … except (…) as e: return CheckerResult(False, …)`, then the rest. -/
def guarded {α : Type} (catches : PyError → Bool) (message : String) (x : Except PyError α)
    (f : α → Except PyError CheckerResult) : Except PyError CheckerResult :=
  match x with
  | .ok a => f a
  | .error e => if catches e then .ok (failure message) else .error e

/-! ## `roster.py` -/

/-- `ROSTER`. -/
def roster : List String := [
  "0 is a natural number",
  "the successor of a natural number is a natural number",
  "a prime is an integer greater than 1 with exactly two positive divisors",
  "the empty set has no elements",
  "for all x, x = x"]

/-- `_normalize`. -/
def normalize (s : List Char) : List Char := ([' '] : List Char).intercalate (split s)

/-- `check_roster`: κ∞ for a claim that the roster lists, and κ1 for any other. -/
def checkRoster (n : Node) : Except PyError Kappa :=
  match n.claim with
  | .str s => .ok (if (roster.map String.toList).contains (normalize s.toList) then .kInf else .k1)
  | _ => .error .attributeError

/-- `check` of `roster.py`, which always passes. -/
def rosterCheck (conclusion : Node) : Except PyError CheckerResult := do
  let k ← checkRoster conclusion
  pure ⟨true, k, none⟩

variable (B : Backends)

/-- `run_bounded` with these back ends, in the `try` of a checker. -/
def bounded (timeoutSeconds : Seconds) (fn : Except PyError CheckerResult) : Except PyError CheckerResult :=
  exceptTimeout (runBounded B.timer timeoutSeconds fn)

/-! ## `z3_check.py` -/

/-- `_parse`. -/
def parse : Value → Except PyError B.Formula
  | .str s => do
    match ← B.z3Eval s with
    | some φ => pure φ
    | none => throw .valueError
  | _ => .error .typeError

/-- `except (ValueError, SyntaxError, NameError, TypeError)`. -/
def z3Catches : PyError → Bool
  | .valueError | .syntaxError | .nameError | .typeError => true
  | _ => false

/-- The claims of the premises and of the conclusion, parsed. -/
def parseAll (premises : List Node) (conclusion : Node) : Except PyError (List B.Formula × B.Formula) := do
  let premiseExprs ← premises.mapM fun p => parse B p.claim
  let conclExpr ← parse B conclusion.claim
  pure (premiseExprs, conclExpr)

/-- The answer of the solver. -/
def z3Result : Z3Answer → CheckerResult
  | .unsat => ⟨true, .k3, none⟩
  | .sat => failure "counter-model found"
  | .unknown => failure "z3 returned unknown"

/-- `Z3Checker.check`. -/
def z3Check (premises : List Node) (conclusion : Node) (timeoutSeconds : Seconds) : Except PyError CheckerResult :=
  bounded B timeoutSeconds <| guarded z3Catches "parse error" (parseAll B premises conclusion) fun exprs => do
    pure (z3Result (← B.z3Solve exprs.1 exprs.2))

/-! ## `cas_check.py` -/

/-- The two sides, parsed. -/
def parseSides (sides : List Char × List Char) : Except PyError (B.Expression × B.Expression) := do
  let lhs ← B.parseExpr sides.1
  let rhs ← B.parseExpr sides.2
  pure (lhs, rhs)

/-- `CasChecker.check`, with `except Exception` around the parser. -/
def casCheck (conclusion : Node) (timeoutSeconds : Seconds) : Except PyError CheckerResult :=
  bounded B timeoutSeconds <| match conclusion.claim with
    | .str s => match splitOnce '=' s.toList with
      | none => .ok (failure "claim is not an equation")
      | some sides => guarded (fun _ => true) "parse error" (parseSides B sides) fun e => do
        if ← B.simplifiesToZero e.1 e.2 then pure ⟨true, .k2, none⟩ else pure (failure "sides are not equal")
    | _ => .error .typeError

/-! ## `spectral_check.py` -/

/-- `_as_matrix`. -/
def asMatrix (obj : B.Object) : Except PyError B.Matrix := do
  let arr ← B.asArray obj
  match B.shape arr with
  | [m, n] => if m = n then pure arr else throw .valueError
  | _ => throw .valueError

/-- The property of a name; `rank_leq:` is followed by a number. -/
def spectralProperty (prop : List Char) : Except PyError SpectralProperty :=
  if prop = "self_adjoint".toList then .ok .selfAdjoint
  else if prop = "symmetric".toList then .ok .symmetric
  else if prop = "real_spectrum".toList then .ok .realSpectrum
  else if prop = "complex_spectrum".toList then .ok .complexSpectrum
  else if "rank_leq:".toList.isPrefixOf prop then .rankLeq <$> B.int (prop.drop "rank_leq:".length)
  else if prop = "low_rank".toList then .ok .lowRank
  else .error .valueError

/-- The matrix, and whether it has the property. -/
def evalSpectral (prop expr : List Char) : Except PyError Bool := do
  let M ← asMatrix B (← B.spectralEval expr)
  B.spectral (← spectralProperty B prop) M

/-- `except (ValueError, SyntaxError, NameError, TypeError, ZeroDivisionError)`. -/
def spectralCatches : PyError → Bool
  | .valueError | .syntaxError | .nameError | .typeError | .zeroDivisionError => true
  | _ => false

/-- `SpectralChecker.check`. -/
def spectralCheck (conclusion : Node) (timeoutSeconds : Seconds) : Except PyError CheckerResult :=
  bounded B timeoutSeconds <| match conclusion.claim with
    | .str s => match splitOnce ' ' (strip s.toList) with
      | none => .ok (failure "claim must be '<property> <matrix_expr>'")
      | some (prop, expr) => guarded spectralCatches "error" (evalSpectral B (strip prop) (strip expr)) fun ok =>
        if ok then .ok ⟨true, .k2, none⟩ else .ok (failure "property failed")
    | _ => .error .attributeError

/-! ## `lean_check.py` -/

/-- `except subprocess.TimeoutExpired` and `except OSError`. -/
def leanCatches : PyError → Bool
  | .timeoutExpired | .osError => true
  | _ => false

/-- `LeanChecker.check`, whose timeout is that of the process. -/
def leanCheck (proofBytes : Option Bytes) : Except PyError CheckerResult :=
  match B.lean with
  | none => .ok (failure "lean binary not found")
  | some run =>
    if proofBytes.getD [] = [] then .ok (failure "no proof supplied")
    else do
      B.tempFile (proofBytes.getD [])
      guarded leanCatches "lean timed out or failed to run" (run (proofBytes.getD [])) fun returncode =>
        if returncode = 0 then .ok ⟨true, .k3, none⟩ else .ok (failure "lean rejected the proof")

/-- The checker of each kind. -/
def check : CheckerKind → List Node → Node → Value → Option Bytes → Seconds → Except PyError CheckerResult
  | .roster, _, conclusion, _, _, _ => rosterCheck conclusion
  | .lean, _, _, _, proofBytes, _ => leanCheck B proofBytes
  | .z3, premises, conclusion, _, _, timeoutSeconds => z3Check B premises conclusion timeoutSeconds
  | .cas, _, conclusion, _, _, timeoutSeconds => casCheck B conclusion timeoutSeconds
  | .spectral, _, conclusion, _, _, timeoutSeconds => spectralCheck B conclusion timeoutSeconds

end Checker

/-- The predicates of ELENCHUS and the checkers, over the back ends under each timeout. -/
def Backends.checkers (P : Prims) (I : Interp) (B : Seconds → Backends) : Checkers where
  predicates := Elenchus.predicates P I
  check kind premises conclusion rule proofBytes timeoutSeconds :=
    Checker.check (B timeoutSeconds) kind premises conclusion rule proofBytes timeoutSeconds

end ArxDB.Impl
