import ArxDB.Impl.Z3Expr
import ArxDB.Proof.Encoding
import Mathlib.Data.Real.Basic

/-!
# What the text of a claim means to Z3

Python's `and`, `or`, `not` and chained comparisons ask an operand for its
truth value, which for an equality is whether its sides are the same
expression (`truth`). Where no equality between different expressions is asked
(`Misreads`), a formula that `_parse` returns means the claim read as
mathematics (`parse_faithful`). Where one is asked that some assignment
satisfies, there are claims with it that lose their meaning (`misread_and_iff`,
`misread_or_iff`, `misread_not_iff`).
-/

namespace ArxDB.Proof.ClaimText

open Impl Impl.Z3Expr

/-! ## Meaning -/

/-- A value for each of the variables. -/
structure Assignment where
  real : RealVar → ℝ
  int : IntVar → ℤ

variable {σ : Assignment}

/-- The relation of a comparison operator. -/
def Rel {α : Type} [LinearOrder α] : Op → α → α → Prop
  | .eq, a, b => a = b
  | .ne, a, b => a ≠ b
  | .lt, a, b => a < b
  | .le, a, b => a ≤ b
  | .gt, a, b => b < a
  | .ge, a, b => b ≤ a

/-- The value of a term of the integers. -/
def intValue (σ : Assignment) : IntTerm → ℤ
  | .var v => σ.int v
  | .val k => k
  | .add a b => intValue σ a + intValue σ b
  | .mul a b => intValue σ a * intValue σ b

/-- The value of a term of the reals. -/
noncomputable def realValue (σ : Assignment) : RealTerm → ℝ
  | .var v => σ.real v
  | .val k => k
  | .toReal t => intValue σ t
  | .add a b => realValue σ a + realValue σ b
  | .mul a b => realValue σ a * realValue σ b

mutual

/-- The formula is true under the assignment. -/
def Holds (σ : Assignment) : Formula → Prop
  | .lit b => b = true
  | .int op a b => Rel op (intValue σ a) (intValue σ b)
  | .real op a b => Rel op (realValue σ a) (realValue σ b)
  | .iff a b => Holds σ a ↔ Holds σ b
  | .distinct a b => ¬ (Holds σ a ↔ Holds σ b)
  | .not a => ¬ Holds σ a
  | .implies a b => Holds σ a → Holds σ b
  | .and args => HoldsAll σ args
  | .or args => HoldsAny σ args

/-- All of them are true. -/
def HoldsAll (σ : Assignment) : List Formula → Prop
  | [] => True
  | a :: args => Holds σ a ∧ HoldsAll σ args

/-- One of them is true. -/
def HoldsAny (σ : Assignment) : List Formula → Prop
  | [] => False
  | a :: args => Holds σ a ∨ HoldsAny σ args

end

/-- The number that a term denotes. -/
noncomputable def termValue (σ : Assignment) : Term → ℝ
  | .real v => σ.real v
  | .int v => σ.int v
  | .const k => k
  | .add a b => termValue σ a + termValue σ b
  | .mul a b => termValue σ a * termValue σ b

/-- All the comparisons of a chain hold. -/
def ChainMeans (σ : Assignment) (a : Term) (op : Op) (b : Term) : List (Op × Term) → Prop
  | [] => Rel op (termValue σ a) (termValue σ b)
  | (op', c) :: rest => Rel op (termValue σ a) (termValue σ b) ∧ ChainMeans σ b op' c rest

mutual

/-- The claim, read as mathematics, is true under the assignment. -/
def Means (σ : Assignment) : Claim → Prop
  | .compare a op b rest => ChainMeans σ a op b rest
  | .equal a b => Means σ a ↔ Means σ b
  | .differ a b => ¬ (Means σ a ↔ Means σ b)
  | .And args => MeansAll σ args
  | .Or args => MeansAny σ args
  | .Not a => ¬ Means σ a
  | .Implies a b => Means σ a → Means σ b
  | .and a b => Means σ a ∧ Means σ b
  | .or a b => Means σ a ∨ Means σ b
  | .not a => ¬ Means σ a

/-- All of them are true. -/
def MeansAll (σ : Assignment) : List Claim → Prop
  | [] => True
  | a :: args => Means σ a ∧ MeansAll σ args

/-- One of them is true. -/
def MeansAny (σ : Assignment) : List Claim → Prop
  | [] => False
  | a :: args => Means σ a ∨ MeansAny σ args

end

/-- A formula that `_parse` returns means the claim. -/
def Faithful (e : Claim) : Prop := ∀ φ, parse e = .ok φ → ∀ σ, Holds σ φ ↔ Means σ e

/-! ## Numbers -/

/-- The value of a number of either sort. -/
noncomputable def numValue (σ : Assignment) : Number → ℝ
  | .int k => k
  | .intRef t => intValue σ t
  | .realRef t => realValue σ t

/-- The two numbers of one sort denote the two numbers. -/
theorem coerce_cases (a b : Number) :
    (∃ j k, a = .int j ∧ b = .int k ∧ coerce a b = .int j k) ∨
    (∃ s t, coerce a b = .intRef s t ∧ ∀ σ, numValue σ a = intValue σ s ∧ numValue σ b = intValue σ t) ∨
    ∃ s t, coerce a b = .realRef s t ∧ ∀ σ, numValue σ a = realValue σ s ∧ numValue σ b = realValue σ t := by
  cases a <;> cases b
  case int.int j k => exact .inl ⟨j, k, rfl, rfl, rfl⟩
  case int.intRef | intRef.int | intRef.intRef => exact .inr (.inl ⟨_, _, rfl, fun σ => ⟨rfl, rfl⟩⟩)
  all_goals exact .inr (.inr ⟨_, _, rfl, fun σ => ⟨rfl, rfl⟩⟩)

theorem numValue_add (a b : Number) : numValue σ (a.add b) = numValue σ a + numValue σ b := by
  obtain ⟨j, k, rfl, rfl, h⟩ | ⟨s, t, h, hv⟩ | ⟨s, t, h, hv⟩ := coerce_cases a b
  · rw [Number.add, h]
    exact Int.cast_add j k
  · rw [Number.add, h, (hv σ).1, (hv σ).2]
    exact Int.cast_add _ _
  · rw [Number.add, h, (hv σ).1, (hv σ).2]
    rfl

theorem numValue_mul (a b : Number) : numValue σ (a.mul b) = numValue σ a * numValue σ b := by
  obtain ⟨j, k, rfl, rfl, h⟩ | ⟨s, t, h, hv⟩ | ⟨s, t, h, hv⟩ := coerce_cases a b
  · rw [Number.mul, h]
    exact Int.cast_mul j k
  · rw [Number.mul, h, (hv σ).1, (hv σ).2]
    exact Int.cast_mul _ _
  · rw [Number.mul, h, (hv σ).1, (hv σ).2]
    rfl

theorem numValue_eval (t : Term) : numValue σ t.eval = termValue σ t := by
  induction t with
  | real v => rfl
  | int v => rfl
  | const k => rfl
  | add a b iha ihb => rw [Term.eval, numValue_add, iha, ihb, termValue]
  | mul a b iha ihb => rw [Term.eval, numValue_mul, iha, ihb, termValue]

/-! ## Comparisons -/

/-- The value is true under the assignment. -/
def ValHolds (σ : Assignment) (v : Val) : Prop := Holds σ v.formula

theorem rel_cast (op : Op) (a b : ℤ) : Rel op (a : ℝ) (b : ℝ) ↔ Rel op a b := by
  cases op <;> simp [Rel]

theorem onInts_iff (op : Op) (a b : ℤ) : op.onInts a b = true ↔ Rel op a b := by
  cases op <;> simp [Rel, Op.onInts]

theorem rel_reflected (op : Op) (a b : ℝ) : Rel op.reflected a b ↔ Rel op b a := by
  cases op <;> simp [Rel, Op.reflected, eq_comm]

theorem valHolds_related (op : Op) (a b : Number) :
    ValHolds σ (related op a b) ↔ Rel op (numValue σ a) (numValue σ b) := by
  obtain ⟨j, k, rfl, rfl, h⟩ | ⟨s, t, h, hv⟩ | ⟨s, t, h, hv⟩ := coerce_cases a b
  · rw [related, h]
    exact (onInts_iff op j k).trans (rel_cast op j k).symm
  · rw [related, h, (hv σ).1, (hv σ).2, rel_cast]
    exact Iff.rfl
  · rw [related, h, (hv σ).1, (hv σ).2]
    exact Iff.rfl

theorem valHolds_compare (op : Op) (a b : Number) :
    ValHolds σ (compare op a b) ↔ Rel op (numValue σ a) (numValue σ b) := by
  cases a with
  | int j =>
    cases b with
    | int k => exact (onInts_iff op j k).trans (rel_cast op j k).symm
    | intRef t =>
      have h := valHolds_related (σ := σ) op.reflected (.intRef t) (.int j)
      exact h.trans (rel_reflected op _ _)
    | realRef t =>
      have h := valHolds_related (σ := σ) op.reflected (.realRef t) (.int j)
      exact h.trans (rel_reflected op _ _)
  | _ => exact valHolds_related op _ b

theorem valHolds_bool (b : Bool) : ValHolds σ (.bool b) ↔ b = true := Iff.rfl

theorem valHolds_equate (v w : Val) : (ValHolds σ (equate true v w) ↔ (ValHolds σ v ↔ ValHolds σ w)) ∧
    (ValHolds σ (equate false v w) ↔ ¬ (ValHolds σ v ↔ ValHolds σ w)) := by
  cases v with
  | bool a =>
    cases w with
    | bool b =>
      simp only [equate, valHolds_bool]
      revert a b
      decide
    | ref φ => exact ⟨Iff.comm, not_congr Iff.comm⟩
  | ref φ => exact ⟨Iff.rfl, Iff.rfl⟩

/-! ## Truth values -/

/-- An equality between different expressions. -/
inductive Misread : Val → Prop
  | int {a b : IntTerm} : a ≠ b → Misread (.ref (.int .eq a b))
  | real {a b : RealTerm} : a ≠ b → Misread (.ref (.real .eq a b))
  | iff {a b : Formula} : a.same b = false → Misread (.ref (.iff a b))

mutual

theorem same_holds : ∀ {a b : Formula}, a.same b = true → (Holds σ a ↔ Holds σ b)
  | .lit a, b, h => by
    cases b <;> simp_all [Formula.same]
  | .int op a b, c, h => by
    cases c <;> simp_all [Formula.same]
  | .real op a b, c, h => by
    cases c <;> simp_all [Formula.same]
  | .iff a b, c, h => by
    cases c <;> simp only [Formula.same, Bool.and_eq_true, Bool.false_eq_true] at h
    rw [Holds, Holds, same_holds h.1, same_holds h.2]
  | .distinct a b, c, h => by
    cases c <;> simp only [Formula.same, Bool.and_eq_true, Bool.false_eq_true] at h
    rw [Holds, Holds, same_holds h.1, same_holds h.2]
  | .not a, c, h => by
    cases c <;> simp only [Formula.same, Bool.false_eq_true] at h
    rw [Holds, Holds, same_holds h]
  | .implies a b, c, h => by
    cases c <;> simp only [Formula.same, Bool.and_eq_true, Bool.false_eq_true] at h
    rw [Holds, Holds, same_holds h.1, same_holds h.2]
  | .and args, c, h => by
    cases c <;> simp only [Formula.same, Bool.false_eq_true] at h
    rw [Holds, Holds, (sameAll_holds h).1]
  | .or args, c, h => by
    cases c <;> simp only [Formula.same, Bool.false_eq_true] at h
    rw [Holds, Holds, (sameAll_holds h).2]

theorem sameAll_holds : ∀ {as bs : List Formula}, sameAll as bs = true →
    (HoldsAll σ as ↔ HoldsAll σ bs) ∧ (HoldsAny σ as ↔ HoldsAny σ bs)
  | [], bs, h => by
    cases bs with
    | nil => exact ⟨Iff.rfl, Iff.rfl⟩
    | cons b bs => cases h
  | a :: as, bs, h => by
    cases bs with
    | nil => cases h
    | cons b bs =>
      simp only [sameAll, Bool.and_eq_true] at h
      rw [HoldsAll, HoldsAll, HoldsAny, HoldsAny, same_holds h.1, (sameAll_holds h.2).1, (sameAll_holds h.2).2]
      exact ⟨Iff.rfl, Iff.rfl⟩

end

/-- What has a truth value: a value without variables, or an equality. -/
theorem truth_cases {v : Val} {b : Bool} (h : truth v = .ok b) : v.formula = .lit b ∨
    (∃ s t, v = .ref (.int .eq s t) ∧ (s == t) = b) ∨ (∃ s t, v = .ref (.real .eq s t) ∧ (s == t) = b) ∨
    ∃ s t, v = .ref (.iff s t) ∧ s.same t = b := by
  cases v with
  | bool c =>
    cases h
    exact .inl rfl
  | ref φ =>
    cases φ with
    | lit c =>
      cases h
      exact .inl rfl
    | int op s t =>
      cases op <;> cases h
      exact .inr (.inl ⟨s, t, rfl, rfl⟩)
    | real op s t =>
      cases op <;> cases h
      exact .inr (.inr (.inl ⟨s, t, rfl, rfl⟩))
    | iff s t =>
      cases h
      exact .inr (.inr (.inr ⟨s, t, rfl, rfl⟩))
    | _ => cases h

/-- What is found true holds in every assignment. -/
theorem valHolds_of_truth {v : Val} (h : truth v = .ok true) : ValHolds σ v := by
  obtain h | ⟨s, t, rfl, hst⟩ | ⟨s, t, rfl, hst⟩ | ⟨s, t, rfl, hst⟩ := truth_cases h
  · rw [ValHolds, h]
    exact rfl
  · rw [beq_iff_eq] at hst
    exact congrArg (intValue σ) hst
  · rw [beq_iff_eq] at hst
    exact congrArg (realValue σ) hst
  · exact same_holds hst

/-- What is found false holds in none, unless it is misread. -/
theorem not_valHolds_of_truth {v : Val} (h : truth v = .ok false) (hm : ¬ Misread v) : ¬ ValHolds σ v := by
  obtain h | ⟨s, t, rfl, hst⟩ | ⟨s, t, rfl, hst⟩ | ⟨s, t, rfl, hst⟩ := truth_cases h
  · rw [ValHolds, h]
    exact Bool.false_ne_true
  · exact absurd (.int (beq_eq_false_iff_ne.mp hst)) hm
  · exact absurd (.real (beq_eq_false_iff_ne.mp hst)) hm
  · exact absurd (.iff hst) hm

theorem truth_of_misread {v : Val} (h : Misread v) : truth v = .ok false := by
  cases h with
  | int h => exact congrArg Except.ok (beq_eq_false_iff_ne.mpr h)
  | real h => exact congrArg Except.ok (beq_eq_false_iff_ne.mpr h)
  | iff h => exact congrArg Except.ok h

/-! ## Claims -/

/-- In the chain a comparison that is not the last is misread. -/
inductive ChainMisreads : Number → Op → Number → List (Op × Term) → Prop
  | here {a b : Number} {op : Op} {link : Op × Term} {rest : List (Op × Term)} : Misread (compare op a b) →
      ChainMisreads a op b (link :: rest)
  | next {a b : Number} {op op' : Op} {c : Term} {rest : List (Op × Term)} : truth (compare op a b) = .ok true →
      ChainMisreads b op' c.eval rest → ChainMisreads a op b ((op', c) :: rest)

/-- The evaluation of the claim asks an equality between different expressions for its truth value. -/
inductive Misreads : Claim → Prop
  | compare {a b : Term} {op : Op} {rest : List (Op × Term)} : ChainMisreads a.eval op b.eval rest →
      Misreads (.compare a op b rest)
  | equal_left {a b : Claim} : Misreads a → Misreads (.equal a b)
  | equal_right {a b : Claim} : Misreads b → Misreads (.equal a b)
  | differ_left {a b : Claim} : Misreads a → Misreads (.differ a b)
  | differ_right {a b : Claim} : Misreads b → Misreads (.differ a b)
  | And {a : Claim} {args : List Claim} : a ∈ args → Misreads a → Misreads (.And args)
  | Or {a : Claim} {args : List Claim} : a ∈ args → Misreads a → Misreads (.Or args)
  | Not {a : Claim} : Misreads a → Misreads (.Not a)
  | Implies_left {a b : Claim} : Misreads a → Misreads (.Implies a b)
  | Implies_right {a b : Claim} : Misreads b → Misreads (.Implies a b)
  | and {a b : Claim} {v : Val} : a.eval = .ok v → Misread v → Misreads (.and a b)
  | and_left {a b : Claim} : Misreads a → Misreads (.and a b)
  | and_right {a b : Claim} {v : Val} : a.eval = .ok v → truth v = .ok true → Misreads b → Misreads (.and a b)
  | or {a b : Claim} {v : Val} : a.eval = .ok v → Misread v → Misreads (.or a b)
  | or_left {a b : Claim} : Misreads a → Misreads (.or a b)
  | or_right {a b : Claim} {v : Val} : a.eval = .ok v → truth v = .ok false → Misreads b → Misreads (.or a b)
  | not {a : Claim} {v : Val} : a.eval = .ok v → Misread v → Misreads (.not a)
  | not_arg {a : Claim} : Misreads a → Misreads (.not a)

theorem chain_holds {a b : Term} {op : Op} {rest : List (Op × Term)} {v : Val}
    (h : chain a.eval op b.eval rest = .ok v) (hm : ¬ ChainMisreads a.eval op b.eval rest) :
    ValHolds σ v ↔ ChainMeans σ a op b rest := by
  have hlink : ∀ {a b : Term} {op : Op}, ValHolds σ (compare op a.eval b.eval) ↔
      Rel op (termValue σ a) (termValue σ b) := by
    intro a b op
    rw [valHolds_compare, numValue_eval, numValue_eval]
  induction rest generalizing a op b with
  | nil =>
    cases h
    exact hlink
  | cons link rest ih =>
    obtain ⟨op', c⟩ := link
    rw [ChainMeans, ← hlink]
    obtain ⟨t, ht, h⟩ := bind_eq_ok.mp h
    cases t with
    | true =>
      have hrest : ValHolds σ v ↔ ChainMeans σ b op' c rest := ih h fun hm' => hm (.next ht hm')
      rw [hrest]
      exact (and_iff_right (valHolds_of_truth ht)).symm
    | false =>
      cases h
      have hfalse : ¬ ValHolds σ (compare op a.eval b.eval) := not_valHolds_of_truth ht fun hm' => hm (.here hm')
      exact iff_of_false hfalse fun h => hfalse h.1

mutual

/-- What a claim evaluates to means the claim, unless something is misread. -/
theorem eval_holds : ∀ (e : Claim) {v : Val}, e.eval = .ok v → ¬ Misreads e → (ValHolds σ v ↔ Means σ e)
  | .compare a op b rest, v, h, hm => by
    rw [Claim.eval] at h
    rw [Means]
    exact chain_holds h fun hm' => hm (.compare hm')
  | .equal a b, v, h, hm => by
    rw [Claim.eval] at h
    obtain ⟨u, hu, h⟩ := bind_eq_ok.mp h
    obtain ⟨w, hw, h⟩ := bind_eq_ok.mp h
    cases h
    rw [Means, (valHolds_equate u w).1, eval_holds a hu fun h => hm (.equal_left h),
      eval_holds b hw fun h => hm (.equal_right h)]
  | .differ a b, v, h, hm => by
    rw [Claim.eval] at h
    obtain ⟨u, hu, h⟩ := bind_eq_ok.mp h
    obtain ⟨w, hw, h⟩ := bind_eq_ok.mp h
    cases h
    rw [Means, (valHolds_equate u w).2, eval_holds a hu fun h => hm (.differ_left h),
      eval_holds b hw fun h => hm (.differ_right h)]
  | .And args, v, h, hm => by
    rw [Claim.eval] at h
    obtain ⟨φs, hφs, h⟩ := bind_eq_ok.mp h
    cases h
    rw [Means, ← (evalAll_holds args hφs fun a ha h => hm (.And ha h)).1]
    exact Iff.rfl
  | .Or args, v, h, hm => by
    rw [Claim.eval] at h
    obtain ⟨φs, hφs, h⟩ := bind_eq_ok.mp h
    cases h
    rw [Means, ← (evalAll_holds args hφs fun a ha h => hm (.Or ha h)).2]
    exact Iff.rfl
  | .Not a, v, h, hm => by
    rw [Claim.eval] at h
    obtain ⟨u, hu, h⟩ := bind_eq_ok.mp h
    cases h
    rw [Means, ← eval_holds a hu fun h => hm (.Not h)]
    exact Iff.rfl
  | .Implies a b, v, h, hm => by
    rw [Claim.eval] at h
    obtain ⟨u, hu, h⟩ := bind_eq_ok.mp h
    obtain ⟨w, hw, h⟩ := bind_eq_ok.mp h
    cases h
    rw [Means, ← eval_holds a hu fun h => hm (.Implies_left h), ← eval_holds b hw fun h => hm (.Implies_right h)]
    exact Iff.rfl
  | .and a b, v, h, hm => by
    rw [Claim.eval] at h
    obtain ⟨u, hu, h⟩ := bind_eq_ok.mp h
    obtain ⟨t, ht, h⟩ := bind_eq_ok.mp h
    rw [Means, ← eval_holds a hu fun h => hm (.and_left h)]
    cases t with
    | true =>
      rw [eval_holds b h fun h => hm (.and_right hu ht h)]
      exact (and_iff_right (valHolds_of_truth ht)).symm
    | false =>
      obtain rfl : u = v := Except.ok.inj h
      have hfalse : ¬ ValHolds σ u := not_valHolds_of_truth ht fun h => hm (.and hu h)
      exact iff_of_false hfalse fun h => hfalse h.1
  | .or a b, v, h, hm => by
    rw [Claim.eval] at h
    obtain ⟨u, hu, h⟩ := bind_eq_ok.mp h
    obtain ⟨t, ht, h⟩ := bind_eq_ok.mp h
    rw [Means, ← eval_holds a hu fun h => hm (.or_left h)]
    cases t with
    | true =>
      cases h
      exact iff_of_true (valHolds_of_truth ht) (.inl (valHolds_of_truth ht))
    | false =>
      rw [eval_holds b h fun h => hm (.or_right hu ht h)]
      exact (or_iff_right (not_valHolds_of_truth ht fun h => hm (.or hu h))).symm
  | .not a, v, h, hm => by
    rw [Claim.eval] at h
    obtain ⟨u, hu, h⟩ := bind_eq_ok.mp h
    obtain ⟨t, ht, h⟩ := bind_eq_ok.mp h
    cases h
    rw [Means, ← eval_holds a hu fun h => hm (.not_arg h)]
    cases t with
    | true => exact iff_of_false Bool.false_ne_true fun h => h (valHolds_of_truth ht)
    | false => exact iff_of_true rfl (not_valHolds_of_truth ht fun h => hm (.not hu h))

theorem evalAll_holds : ∀ (args : List Claim) {φs : List Formula}, evalAll args = .ok φs →
    (∀ a ∈ args, ¬ Misreads a) → (HoldsAll σ φs ↔ MeansAll σ args) ∧ (HoldsAny σ φs ↔ MeansAny σ args)
  | [], φs, h, _ => by
    cases h
    exact ⟨Iff.rfl, Iff.rfl⟩
  | a :: args, φs, h, hm => by
    rw [List.forall_mem_cons] at hm
    rw [evalAll] at h
    obtain ⟨v, hv, h⟩ := bind_eq_ok.mp h
    obtain ⟨ψs, hψs, h⟩ := bind_eq_ok.mp h
    cases h
    have ha : Holds σ v.formula ↔ Means σ a := eval_holds a hv hm.1
    have hargs := evalAll_holds args hψs hm.2
    rw [HoldsAll, HoldsAny, MeansAll, MeansAny, ha, hargs.1, hargs.2]
    exact ⟨Iff.rfl, Iff.rfl⟩

end

/-! ## `_parse` -/

theorem parse_eq_ok {e : Claim} {φ : Formula} : parse e = .ok φ ↔ e.eval = .ok (.ref φ) := by
  rw [parse, bind_eq_ok]
  constructor
  · intro h
    obtain ⟨v, hv, h⟩ := h
    cases v with
    | bool b => cases h
    | ref ψ =>
      cases h
      exact hv
  · intro h
    exact ⟨_, h, rfl⟩

/-- The checker's `_parse` of a text that Python reads as a claim. -/
theorem parse_ofClaims {B : Backends} {python : String → Except PyError Claim}
    {solve : List Formula → Formula → Except PyError Z3Answer} {s : String} :
    Checker.parse (B.ofClaims python solve) (.str s) = python s >>= parse := by
  simp only [Checker.parse, Backends.ofClaims, bind, Except.bind]
  cases python s with
  | error e => rfl
  | ok e =>
    simp only [parse, bind, Except.bind]
    cases e.eval with
    | error err => rfl
    | ok v => cases v <;> rfl

theorem faithful_of_not_misreads {e : Claim} (hm : ¬ Misreads e) : Faithful e :=
  fun _ h _ => eval_holds e (parse_eq_ok.mp h) hm

/-! ## Where something is misread -/

/-- `x < x`. -/
def never : Claim := .compare (.real .x) .lt (.real .x) []

/-- `x <= x`. -/
def always : Claim := .compare (.real .x) .le (.real .x) []

theorem not_misreads_compare {a b : Term} {op : Op} : ¬ Misreads (.compare a op b []) := by
  intro h
  cases h with
  | compare h => cases h

theorem not_means_never : ¬ Means σ never := lt_irrefl _

theorem Misread.exists_ref {v : Val} (h : Misread v) : ∃ φ, v = .ref φ := by
  cases h <;> exact ⟨_, rfl⟩

section Operand

variable {e c : Claim} {v : Val} (hv : e.eval = .ok v)
include hv

theorem eval_and {t : Bool} (ht : truth v = .ok t) : (Claim.and e c).eval = if t then c.eval else .ok v := by
  rw [Claim.eval, hv]
  show (truth v >>= fun t => if t then c.eval else pure v) = _
  rw [ht]
  rfl

theorem eval_or {t : Bool} (ht : truth v = .ok t) : (Claim.or e c).eval = if t then .ok v else c.eval := by
  rw [Claim.eval, hv]
  show (truth v >>= fun t => if t then pure v else c.eval) = _
  rw [ht]
  rfl

theorem eval_not {t : Bool} (ht : truth v = .ok t) : (Claim.not e).eval = .ok (.bool !t) := by
  rw [Claim.eval, hv]
  show (truth v >>= fun t => pure (Val.bool !t)) = _
  rw [ht]
  rfl

variable (hm : ¬ Misreads e)
include hm

/-- An equality loses the rest of an `and` exactly where it is misread and can hold. -/
theorem misread_and_iff :
    (∀ c, ¬ Misreads c → Faithful (.and e c)) ↔ ¬ (Misread v ∧ ∃ σ, Means σ e) := by
  constructor
  · intro h hmis
    obtain ⟨hmis, σ, hσ⟩ := hmis
    obtain ⟨φ, rfl⟩ := hmis.exists_ref
    have hparse : parse (.and e never) = .ok φ := parse_eq_ok.mpr (eval_and hv (truth_of_misread hmis))
    have hφ : Holds σ φ := (eval_holds e hv hm).mpr hσ
    exact not_means_never ((h never not_misreads_compare φ hparse σ).mp hφ).2
  · intro h c hc φ hφ σ
    by_cases hmis : Misread v
    · have hnone : ¬ Means σ e := fun hσ => h ⟨hmis, σ, hσ⟩
      rw [parse_eq_ok, eval_and hv (truth_of_misread hmis)] at hφ
      obtain rfl : v = .ref φ := Except.ok.inj hφ
      have hholds : Holds σ φ ↔ Means σ e := eval_holds e hv hm
      rw [Means, hholds]
      exact iff_of_false hnone fun h => hnone h.1
    · refine faithful_of_not_misreads (fun hm' => ?_) φ hφ σ
      cases hm' with
      | and hv' hmis' => exact hmis (Except.ok.inj (hv.symm.trans hv') ▸ hmis')
      | and_left h => exact hm h
      | and_right _ _ h => exact hc h

/-- It is lost from an `or` in the same cases. -/
theorem misread_or_iff :
    (∀ c, ¬ Misreads c → Faithful (.or e c)) ↔ ¬ (Misread v ∧ ∃ σ, Means σ e) := by
  constructor
  · intro h hmis
    obtain ⟨hmis, σ, hσ⟩ := hmis
    have hparse : parse (.or e never) = .ok (.real .lt (.var .x) (.var .x)) :=
      parse_eq_ok.mpr (eval_or hv (truth_of_misread hmis))
    exact lt_irrefl _ ((h never not_misreads_compare _ hparse σ).mpr (.inl hσ))
  · intro h c hc φ hφ σ
    by_cases hmis : Misread v
    · have hnone : ¬ Means σ e := fun hσ => h ⟨hmis, σ, hσ⟩
      rw [parse_eq_ok, eval_or hv (truth_of_misread hmis)] at hφ
      have hholds : Holds σ φ ↔ Means σ c := eval_holds c hφ hc
      rw [Means, hholds]
      exact (or_iff_right hnone).symm
    · refine faithful_of_not_misreads (fun hm' => ?_) φ hφ σ
      cases hm' with
      | or hv' hmis' => exact hmis (Except.ok.inj (hv.symm.trans hv') ▸ hmis')
      | or_left h => exact hm h
      | or_right _ _ h => exact hc h

/-- Its negation, a Python `bool`, is wrong under `And` in the same cases. -/
theorem misread_not_iff :
    (∀ c, ¬ Misreads c → Faithful (.And [.not e, c])) ↔ ¬ (Misread v ∧ ∃ σ, Means σ e) := by
  constructor
  · intro h hmis
    obtain ⟨hmis, σ, hσ⟩ := hmis
    have heval : (Claim.And [.not e, always]).eval =
        .ok (.ref (.and [.lit true, .real .le (.var .x) (.var .x)])) := by
      rw [Claim.eval, evalAll, eval_not hv (truth_of_misread hmis)]
      rfl
    have hmeans := (h always not_misreads_compare _ (parse_eq_ok.mpr heval) σ).mp ⟨rfl, le_refl _, trivial⟩
    exact hmeans.1 hσ
  · intro h c hc φ hφ σ
    by_cases hmis : Misread v
    · have hnone : ¬ Means σ e := fun hσ => h ⟨hmis, σ, hσ⟩
      rw [parse_eq_ok, Claim.eval, evalAll, eval_not hv (truth_of_misread hmis)] at hφ
      obtain ⟨φs, hφs, hφ⟩ := bind_eq_ok.mp hφ
      cases hφ
      obtain ⟨b, hb, hφs⟩ := bind_eq_ok.mp hφs
      obtain rfl : Val.bool true = b := Except.ok.inj hb
      obtain ⟨ψs, hψs, hφs⟩ := bind_eq_ok.mp hφs
      cases hφs
      have hc : ∀ a ∈ [c], ¬ Misreads a := List.forall_mem_singleton.mpr hc
      have hargs : HoldsAll σ ψs ↔ MeansAll σ [c] := (evalAll_holds [c] hψs hc).1
      rw [Holds, HoldsAll, Means, MeansAll, hargs]
      exact and_congr_left' (iff_of_true rfl hnone)
    · refine faithful_of_not_misreads (fun hm' => ?_) φ hφ σ
      cases hm' with
      | And ha h =>
        rcases List.mem_cons.mp ha with rfl | ha
        · cases h with
          | not hv' hmis' => exact hmis (Except.ok.inj (hv.symm.trans hv') ▸ hmis')
          | not_arg h => exact hm h
        · obtain rfl := List.mem_singleton.mp ha
          exact hc h

end Operand

/-- A formula that `_parse` returns means the claim where no equality between
different expressions is asked for its truth value, and so does what the
checker's `_parse` makes of a text that Python reads as the claim; and an operand makes every
claim with it in `and`, in `or` or negated keep its meaning exactly where it is
not such an equality that some assignment satisfies. -/
theorem parse_faithful (e : Claim) : (¬ Misreads e → Faithful e ∧
      ∀ (B : Backends) (python : String → Except PyError Claim)
        (solve : List Formula → Formula → Except PyError Z3Answer) (s : String) (φ : Formula), python s = .ok e →
        Checker.parse (B.ofClaims python solve) (.str s) = .ok φ → ∀ σ, Holds σ φ ↔ Means σ e) ∧
    ∀ v, e.eval = .ok v → ¬ Misreads e →
      ((∀ c, ¬ Misreads c → Faithful (.and e c)) ↔ ¬ (Misread v ∧ ∃ σ, Means σ e)) ∧
      ((∀ c, ¬ Misreads c → Faithful (.or e c)) ↔ ¬ (Misread v ∧ ∃ σ, Means σ e)) ∧
      ((∀ c, ¬ Misreads c → Faithful (.And [.not e, c])) ↔ ¬ (Misread v ∧ ∃ σ, Means σ e)) := by
  refine ⟨fun hm => ⟨faithful_of_not_misreads hm, fun B python solve s φ hs hφ => ?_⟩,
    fun _ hv hm => ⟨misread_and_iff hv hm, misread_or_iff hv hm, misread_not_iff hv hm⟩⟩
  have hparse : Checker.parse (B.ofClaims python solve) (.str s) = python s >>= parse := parse_ofClaims
  rw [hparse, hs] at hφ
  exact faithful_of_not_misreads hm φ hφ

section Example

/-- `x == y == z`. -/
def chained : Claim := .compare (.real .x) .eq (.real .y) [(.eq, .real .z)]

theorem chained_loses_link : parse chained = .ok (.real .eq (.var .x) (.var .y)) ∧ ¬ Faithful chained := by
  have hparse : parse chained = .ok (.real .eq (.var .x) (.var .y)) := rfl
  refine ⟨hparse, fun h => ?_⟩
  let σ : Assignment := ⟨fun v => match v with | .z => 1 | _ => 0, fun _ => 0⟩
  have hmeans : Means σ chained := (h _ hparse σ).mp rfl
  exact zero_ne_one hmeans.2

/-- `0 < 1 and And(0 < 1 < x, Implies(x == y, Not(n != m)))`. -/
def connected : Claim :=
  .and (.compare (.const 0) .lt (.const 1) []) (.And [
    .compare (.const 0) .lt (.const 1) [(.lt, .real .x)],
    .Implies (.compare (.real .x) .eq (.real .y) []) (.Not (.compare (.int .n) .ne (.int .m) []))])

theorem not_misreads_connected : ¬ Misreads connected := by
  intro h
  cases h with
  | and hv hm =>
    cases hv
    cases hm
  | and_left h => exact not_misreads_compare h
  | and_right _ _ h =>
    cases h with
    | And ha h =>
      rcases List.mem_pair.mp ha with rfl | rfl
      · cases h with
        | compare h =>
          cases h with
          | here hm => cases hm
          | next _ h => cases h
      · cases h with
        | Implies_left h => exact not_misreads_compare h
        | Implies_right h =>
          cases h with
          | Not h => exact not_misreads_compare h

theorem parse_faithful_connected :
    parse connected = .ok (.and [.real .gt (.var .x) (.val 1), .implies (.real .eq (.var .x) (.var .y))
      (.not (.int .ne (.var .n) (.var .m)))]) ∧ Faithful connected :=
  ⟨rfl, ((parse_faithful connected).1 not_misreads_connected).1⟩

end Example

end ArxDB.Proof.ClaimText
