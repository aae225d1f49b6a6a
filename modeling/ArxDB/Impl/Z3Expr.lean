import ArxDB.Impl.Checkers

/-!
# Claims for Z3

What `eval` makes of the text of a claim in the namespace of `z3_check.py`.
`Claim` is the syntax of such a text: numbers from the variables and integer
constants, comparisons, Python's connectives and those of Z3. The values are
Python's own or expressions of Z3, which come from the overloaded operators.
-/

namespace ArxDB.Impl.Z3Expr

/-! ## Expressions of Z3 -/

/-- The variables of the sort Real in `_VARS`. -/
inductive RealVar where
  | x | y | z
deriving DecidableEq, Repr

/-- The variables of the sort Int in `_VARS`. -/
inductive IntVar where
  | n | m
deriving DecidableEq, Repr

/-- Expressions of the sort Int. -/
inductive IntTerm where
  | var (v : IntVar)
  | val (k : Int)
  | add (a b : IntTerm)
  | mul (a b : IntTerm)
deriving DecidableEq, Repr

/-- Expressions of the sort Real. -/
inductive RealTerm where
  | var (v : RealVar)
  | val (k : Int)
  | toReal (t : IntTerm)
  | add (a b : RealTerm)
  | mul (a b : RealTerm)
deriving DecidableEq, Repr

/-- A comparison operator. -/
inductive Op where
  | eq | ne | lt | le | gt | ge
deriving DecidableEq, Repr

/-- A `BoolRef`. `==` makes an equality, `!=` a `distinct`. -/
inductive Formula where
  | lit (b : Bool)
  | int (op : Op) (a b : IntTerm)
  | real (op : Op) (a b : RealTerm)
  | iff (a b : Formula)
  | distinct (a b : Formula)
  | not (a : Formula)
  | implies (a b : Formula)
  | and (args : List Formula)
  | or (args : List Formula)
deriving Repr

mutual

/-- `a.eq(b)`: the same expression. -/
def Formula.same : Formula → Formula → Bool
  | .lit a, .lit b => a == b
  | .int op a b, .int op' a' b' => op == op' && a == a' && b == b'
  | .real op a b, .real op' a' b' => op == op' && a == a' && b == b'
  | .iff a b, .iff a' b' => a.same a' && b.same b'
  | .distinct a b, .distinct a' b' => a.same a' && b.same b'
  | .not a, .not a' => a.same a'
  | .implies a b, .implies a' b' => a.same a' && b.same b'
  | .and args, .and args' => sameAll args args'
  | .or args, .or args' => sameAll args args'
  | _, _ => false

/-- The same expressions in the same order. -/
def sameAll : List Formula → List Formula → Bool
  | [], [] => true
  | a :: args, a' :: args' => a.same a' && sameAll args args'
  | _, _ => false

end

/-! ## Values -/

/-- A number: a Python `int`, or an `ArithRef`. -/
inductive Number where
  | int (k : Int)
  | intRef (t : IntTerm)
  | realRef (t : RealTerm)
deriving DecidableEq, Repr

/-- A truth value: a Python `bool`, or a `BoolRef`. -/
inductive Val where
  | bool (b : Bool)
  | ref (φ : Formula)
deriving Repr

/-- Two numbers of one sort. -/
inductive Coerced where
  | int (a b : Int)
  | intRef (a b : IntTerm)
  | realRef (a b : RealTerm)
deriving DecidableEq, Repr

/-- `_coerce_exprs`: constants become values of the other sort, and an Int
beside a Real is converted. -/
def coerce : Number → Number → Coerced
  | .int a, .int b => .int a b
  | .int a, .intRef b => .intRef (.val a) b
  | .intRef a, .int b => .intRef a (.val b)
  | .intRef a, .intRef b => .intRef a b
  | .int a, .realRef b => .realRef (.val a) b
  | .intRef a, .realRef b => .realRef (.toReal a) b
  | .realRef a, .int b => .realRef a (.val b)
  | .realRef a, .intRef b => .realRef a (.toReal b)
  | .realRef a, .realRef b => .realRef a b

/-- `a + b`. -/
def Number.add (a b : Number) : Number :=
  match coerce a b with
  | .int a b => .int (a + b)
  | .intRef a b => .intRef (.add a b)
  | .realRef a b => .realRef (.add a b)

/-- `a * b`. -/
def Number.mul (a b : Number) : Number :=
  match coerce a b with
  | .int a b => .int (a * b)
  | .intRef a b => .intRef (.mul a b)
  | .realRef a b => .realRef (.mul a b)

/-- The operator with its operands exchanged. -/
def Op.reflected : Op → Op
  | .eq => .eq
  | .ne => .ne
  | .lt => .gt
  | .le => .ge
  | .gt => .lt
  | .ge => .le

/-- The comparison of two `int`s. -/
def Op.onInts : Op → Int → Int → Bool
  | .eq, a, b => a = b
  | .ne, a, b => a ≠ b
  | .lt, a, b => a < b
  | .le, a, b => a ≤ b
  | .gt, a, b => b < a
  | .ge, a, b => b ≤ a

/-- `a op b`, where one of them is coerced to the other's sort. -/
def related (op : Op) (a b : Number) : Val :=
  match coerce a b with
  | .int a b => .bool (op.onInts a b)
  | .intRef a b => .ref (.int op a b)
  | .realRef a b => .ref (.real op a b)

/-- `a op b`. An `int` on the left does not know expressions, so the reflected
method of the right operand is called. -/
def compare (op : Op) : Number → Number → Val
  | .int a, .int b => .bool (op.onInts a b)
  | .int a, b => related op.reflected b (.int a)
  | a, b => related op a b

/-- The value as an argument of a connective of Z3. -/
def Val.formula : Val → Formula
  | .bool b => .lit b
  | .ref φ => φ

/-- `a == b` of truth values, and `a != b`. -/
def equate (op : Bool) : Val → Val → Val
  | .bool a, .bool b => .bool ((a == b) == op)
  | .bool a, .ref φ => .ref (if op then .iff φ (.lit a) else .distinct φ (.lit a))
  | .ref φ, v => .ref (if op then .iff φ v.formula else .distinct φ v.formula)

/-- `bool(v)`: of an equality, whether its sides are the same expression. -/
def truth : Val → Except PyError Bool
  | .bool b => .ok b
  | .ref (.lit b) => .ok b
  | .ref (.int .eq a b) => .ok (a == b)
  | .ref (.real .eq a b) => .ok (a == b)
  | .ref (.iff a b) => .ok (a.same b)
  | .ref _ => .error .z3Exception

/-! ## Claims -/

/-- The arithmetic of a claim. -/
inductive Term where
  | real (v : RealVar)
  | int (v : IntVar)
  | const (k : Int)
  | add (a b : Term)
  | mul (a b : Term)
deriving DecidableEq, Repr

/-- The syntax of a claim. `compare` is a chain of comparisons, the last three
`and`, `or` and `not` of Python, those before `And`, `Or`, `Not` and `Implies`
of Z3; `equal` and `differ` compare truth values. -/
inductive Claim where
  | compare (a : Term) (op : Op) (b : Term) (rest : List (Op × Term))
  | equal (a b : Claim)
  | differ (a b : Claim)
  | And (args : List Claim)
  | Or (args : List Claim)
  | Not (a : Claim)
  | Implies (a b : Claim)
  | and (a b : Claim)
  | or (a b : Claim)
  | not (a : Claim)
deriving Repr

/-- What `eval` makes of a term. -/
def Term.eval : Term → Number
  | .real v => .realRef (.var v)
  | .int v => .intRef (.var v)
  | .const k => .int k
  | .add a b => a.eval.add b.eval
  | .mul a b => a.eval.mul b.eval

/-- `a op b op' c …`: each comparison but the last is tested before the next is made. -/
def chain (a : Number) (op : Op) (b : Number) : List (Op × Term) → Except PyError Val
  | [] => .ok (compare op a b)
  | (op', c) :: rest => do
    let v := compare op a b
    if ← truth v then chain b op' c.eval rest else pure v

mutual

/-- What `eval` makes of a claim. -/
def Claim.eval : Claim → Except PyError Val
  | .compare a op b rest => chain a.eval op b.eval rest
  | .equal a b => do
    let v ← a.eval
    pure (equate true v (← b.eval))
  | .differ a b => do
    let v ← a.eval
    pure (equate false v (← b.eval))
  | .And args => do pure (.ref (.and (← evalAll args)))
  | .Or args => do pure (.ref (.or (← evalAll args)))
  | .Not a => do pure (.ref (.not (← a.eval).formula))
  | .Implies a b => do
    let v ← a.eval
    pure (.ref (.implies v.formula (← b.eval).formula))
  | .and a b => do
    let v ← a.eval
    if ← truth v then b.eval else pure v
  | .or a b => do
    let v ← a.eval
    if ← truth v then pure v else b.eval
  | .not a => do pure (.bool !(← truth (← a.eval)))

/-- The arguments of a connective of Z3. -/
def evalAll : List Claim → Except PyError (List Formula)
  | [] => .ok []
  | a :: args => do
    let v ← a.eval
    pure (v.formula :: (← evalAll args))

end

/-- `isinstance(expr, z3.BoolRef)`. -/
def Val.boolRef : Val → Option Formula
  | .bool _ => none
  | .ref φ => some φ

/-- `_parse`. -/
def parse (claim : Claim) : Except PyError Formula := do
  match (← claim.eval).boolRef with
  | some φ => pure φ
  | none => throw .valueError

end ArxDB.Impl.Z3Expr

namespace ArxDB.Impl

/-- The back ends whose claims Python reads as this syntax, with a solver for these formulas. -/
def Backends.ofClaims (B : Backends) (python : String → Except PyError Z3Expr.Claim)
    (solve : List Z3Expr.Formula → Z3Expr.Formula → Except PyError Z3Answer) : Backends :=
  { B with
    Formula := Z3Expr.Formula
    z3Eval := fun s => do pure (← (← python s).eval).boolRef
    z3Solve := solve }

end ArxDB.Impl
