import ArxDB.Impl.Checkers
import ArxDB.Reference.Prims

/-!
# Back ends that can be run

`backends` knows two formulas, which it decides as Z3 does, and one source of
Lean; its other parts fail.
-/

namespace ArxDB.Reference

open Impl

/-- `setitimer`, which takes the nanoseconds in 64 bits. -/
def setTimer : Seconds → Except PyError Unit
  | .finite q => if q * 10 ^ 9 < 2 ^ 63 then .ok () else .error .overflowError
  | .inf | .negInf => .error .overflowError
  | .nan => .error .valueError

/-- Formulas without variables, as Z3 decides them; of the sources Lean knows the comment `--`. -/
def backends (timeoutSeconds : Seconds) : Backends where
  timer := some (setTimer timeoutSeconds)
  Formula := Bool
  z3Eval s := .ok (if s = "x == x" then some true else if s = "x < x" then some false else none)
  z3Solve ps c := .ok (if ps.all id && !c then .sat else .unsat)
  Expression := Unit
  parseExpr _ := .error .valueError
  simplifiesToZero _ _ := .ok false
  Object := Unit
  spectralEval _ := .error .nameError
  Matrix := Unit
  asArray _ := .error .valueError
  shape _ := []
  int _ := .error .valueError
  spectral _ _ := .ok false
  tempFile _ := .ok ()
  lean := some fun source => .ok (if source = [0x2d, 0x2d] then 0 else 1)

end ArxDB.Reference
