import ArxDB.Impl.Text
import ArxDB.Impl.Verifier

/-!
# `elenchus.py`

The predicates. A method that a value does not have is an `AttributeError`;
messages are given without the values that they quote.
-/

namespace ArxDB.Impl.Elenchus

open Text

/-! ## Configuration -/

/-- `_STOPWORDS`. -/
def stopwords : List String := [
  "the", "and", "or", "not", "if", "then", "for", "all", "some", "such",
  "that", "this", "these", "those", "which", "where", "when", "there",
  "here", "with", "from", "into", "onto", "over", "under", "between",
  "implies", "imply", "equivalent", "equals", "equal", "therefore",
  "hence", "thus", "since", "because", "given", "let", "be", "is", "are",
  "was", "were", "has", "have", "had", "does", "do", "did", "any", "every",
  "each", "both", "either", "neither", "nor", "only", "also", "than",
  "about", "above", "below", "within", "without", "via", "per", "onto"]

/-- `SELF_MODEL_TERMS`. -/
def selfModelTerms : List String :=
  ["consciousness", "conscious", "qualia", "sentient", "sentience", "awareness"]

/-- `HARD_DOMAINS`. -/
def hardDomains : List String := ["math", "physics", "logic", "number theory"]

/-- `DERIVATIONAL_TYPES`. -/
def derivationalTypes : List EdgeType := [.deduction, .numerical]

/-- `CROSS_DOMAIN_TYPES`. -/
def crossDomainTypes : List EdgeType := [.reduction, .analogy]

/-- `CIRCULARITY_TYPES`. -/
def circularityTypes : List EdgeType := [.deduction, .numerical, .spectral, .reduction]

/-- The signatures of `RH_EQUIVALENCE`. The third is written as two, without
and with its optional group. -/
def rhSignatures : List (List Piece) := [
  [.text "riemann", .spaces, .text "hypothesis"],
  [.bound, .text "rh", .bound],
  [.text "all", .spaces, .text "zeros", .gap 30, .text "critical", .spaces, .text "line"],
  [.text "all", .spaces, .text "non", .hyphen, .text "trivial", .spaces, .text "zeros", .gap 30, .text "critical",
    .spaces, .text "line"],
  [.text "de", .spaces, .text "bruijn"],
  [.text "newman", .spaces, .text "constant"],
  [.bound, .text "λ", .spaces, .text "=", .spaces, .text "0", .bound],
  [.bound, .text "lambda", .spaces, .text "=", .spaces, .text "0", .bound],
  [.text "curvature", .gap 20, .text "non", .spaces, .text "negative"],
  [.bound, .text "κ", .spaces, .either ["≥", ">=", ">"], .spaces, .text "0", .bound],
  [.bound, .text "kappa", .spaces, .either ["≥", ">=", ">"], .spaces, .text "0", .bound],
  [.text "li", .spaces, .text "coefficients"],
  [.text "li", .either ["'", ""], .text "s", .spaces, .text "criterion"],
  [.bound, .text "λ", .either ["_", ""], .text "n", .spaces, .either ["≥", ">=", ">"], .spaces, .text "0", .bound],
  [.bound, .text "lambda", .either ["_", ""], .text "n", .spaces, .either ["≥", ">=", ">"], .spaces, .text "0", .bound],
  [.text "h", .either ["_", ""], .text "0", .bound, .gap 30, .text "real", .spaces, .text "zeros"],
  [.text "polya", .spaces, .text "criterion"]]

/-- `EQUIVALENCE_CLASSES`: the names and the signatures. -/
def equivalenceClasses : List (String × List (List Piece)) := [("rh_equivalence", rhSignatures)]

/-! ## Texts of nodes -/

/-- `v.lower()`, for `_tokens`. -/
def lowered : Value → Except PyError (List Char)
  | .str s => .ok s.toList
  | .bytes _ => .error .typeError
  | _ => .error .attributeError

/-- `_tokens` of a text. -/
def tokens (s : List Char) : List (List Char) :=
  (words s).filter fun t => 2 < t.length ∧ t ∉ stopwords.map String.toList

/-- `_tokens`. -/
def tokensOf (v : Value) : Except PyError (List (List Char)) := tokens <$> lowered v

/-- `f"{v}"`. -/
def formatted (I : Interp) : Value → List Char
  | .str s => s.toList
  | v => (I.str v).toList

/-- `_classify`. -/
def classify (I : Interp) : Value → Except PyError (List String)
  | .str s => .ok ((equivalenceClasses.filter fun c => c.2.any fun sig => search I sig s.toList).map Prod.fst)
  | _ => .error .typeError

/-- `not rule.strip()`. -/
def blank : Value → Except PyError Bool
  | .str s => .ok (strip s.toList = [])
  | .bytes b => .ok (b.all fun x => (9 ≤ x && x ≤ 13) || x = 32)
  | _ => .error .attributeError

/-- `hash(v)`. -/
def hashed (v : Value) : Except PyError Unit :=
  if v.hashable then .ok () else .error .typeError

/-- A text. -/
def isText : Value → Bool
  | .str _ => true
  | _ => false

/-! ## The predicates -/

section Predicates

variable (P : Prims) (I : Interp) (premises : List Node) (conclusion : Node) (rule : Value) (edgeType : EdgeType)

/-- `_category_error`. -/
def categoryError : Except PyError (Option Flag) := do
  if premises = [] then return none
  if edgeType ∈ crossDomainTypes then return none
  let _ ← premises.mapM fun p => hashed p.domain
  let _ ← hashed conclusion.domain
  if premises.any fun p => P.equal p.domain conclusion.domain then return none
  let domains := premises.map Node.domain
  if domains.all isText || I.sortable domains then
    return some ⟨"category_error", .hardVeto, "conclusion domain not in premise domains"⟩
  throw .typeError

/-- `_self_model_leak`. -/
def selfModelLeak : Except PyError (Option Flag) := do
  let _ ← hashed conclusion.domain
  if !(hardDomains.any fun d => conclusion.domain.isStr d) then return none
  if edgeType ∈ crossDomainTypes then return none
  let text := formatted I conclusion.claim ++ ' ' :: formatted I rule
  if (tokens text).any (· ∈ selfModelTerms.map String.toList) then
    return some ⟨"self_model_leak", .hardVeto, "self-model/consciousness terms in a hard-domain claim"⟩
  return none

/-- `_non_sequitur`. -/
def nonSequitur : Except PyError (Option Flag) := do
  if premises = [] then return none
  if edgeType ∉ derivationalTypes then return none
  let premiseTokens ← premises.mapM fun p => tokensOf p.claim
  let conclusionTokens ← tokensOf conclusion.claim
  if conclusionTokens.any (· ∉ premiseTokens.flatten) then
    return some ⟨"non_sequitur", .hardVeto, "conclusion introduces concepts absent from premises"⟩
  return none

/-- `_empty_rule`. -/
def emptyRule : Except PyError (Option Flag) := do
  if edgeType ∉ derivationalTypes then return none
  if ← blank rule then return some ⟨"empty_rule", .softFlag, "derivational edge has no named inference rule"⟩
  return none

/-- The loop of `_circularity` over the premises. -/
def sharedFrom (classes : List String) : List Node → Except PyError (Option Flag)
  | [] => .ok none
  | p :: ps => do
    let shared := (← classify I p.claim).filter (· ∈ classes)
    if shared ≠ [] then
      return some ⟨"circularity", .hardVeto, "conclusion and a premise both belong to one equivalence class"⟩
    sharedFrom classes ps

/-- `_circularity`. -/
def circularity : Except PyError (Option Flag) := do
  if premises = [] then return none
  if edgeType ∉ circularityTypes then return none
  let classes ← classify I conclusion.claim
  if classes = [] then return none
  sharedFrom I classes premises

end Predicates

/-- `PREDICATES`. -/
def predicates (P : Prims) (I : Interp) : List (List Node → Node → Value → EdgeType → Except PyError (Option Flag)) := [
  fun premises conclusion _ edgeType => categoryError P I premises conclusion edgeType,
  fun _ conclusion rule edgeType => selfModelLeak I conclusion rule edgeType,
  fun premises conclusion _ edgeType => nonSequitur premises conclusion edgeType,
  fun _ _ rule edgeType => emptyRule rule edgeType,
  fun premises conclusion _ edgeType => circularity I premises conclusion edgeType]

end ArxDB.Impl.Elenchus
