import ArxDB.Impl.Primitives

/-!
# Texts

What the verifier uses of Python's `str` and `re`, on lists of characters. A
search succeeds or not, whatever it matches first.
-/

namespace ArxDB.Impl

/-- What is left to the interpreter: its table of letters and digits beyond
ASCII, `str(v)` of a value that is no text, and whether values that are not
all texts can be sorted. -/
structure Interp where
  alnum : Char → Bool
  str : Value → String
  sortable : List Value → Bool

namespace Text

/-- `c.isspace()`. -/
def isSpace (c : Char) : Bool :=
  let n := c.toNat
  (9 ≤ n && n ≤ 13) || (28 ≤ n && n ≤ 32) || n = 0x85 || n = 0xa0 || n = 0x1680 || (0x2000 ≤ n && n ≤ 0x200a) ||
    n = 0x2028 || n = 0x2029 || n = 0x202f || n = 0x205f || n = 0x3000

/-- `s.strip()`. -/
def strip (s : List Char) : List Char := ((s.dropWhile isSpace).reverse.dropWhile isSpace).reverse

/-- Maximal runs of the characters that satisfy `p`; `run` is the one being read. -/
def runs (p : Char → Bool) : List Char → List Char → List (List Char)
  | run, [] => if run = [] then [] else [run]
  | run, c :: cs =>
    if p c then runs p (run ++ [c]) cs
    else if run = [] then runs p [] cs
    else run :: runs p [] cs

/-- `s.split()`. -/
def split (s : List Char) : List (List Char) := runs (!isSpace ·) [] s

/-- `s.split(sep, 1)`, for a text that has the separator. -/
def splitOnce (sep : Char) (s : List Char) : Option (List Char × List Char) :=
  if sep ∈ s then some (s.takeWhile (· ≠ sep), (s.dropWhile (· ≠ sep)).drop 1) else none

/-- What `c.lower()` has for `[a-z0-9]` to match: besides the capital letters
of ASCII only U+0130 and U+212A have a small letter of ASCII in them. -/
def lower (c : Char) : List Char :=
  if c.isUpper then [c.toLower]
  else if c.toNat = 0x130 then ['i', Char.ofNat 0x307]
  else if c.toNat = 0x212a then ['k']
  else [c]

/-- `re.findall(r"[a-z0-9]+", s.lower())`. -/
def words (s : List Char) : List (List Char) := runs (fun c => c.isLower || c.isDigit) [] (s.flatMap lower)

/-! ## Patterns -/

/-- A piece of a pattern. -/
inductive Piece where
  | text (s : String)
  /-- `\s*` -/
  | spaces
  /-- `.{0,n}` -/
  | gap (n : Nat)
  /-- `\b` -/
  | bound
  /-- `(?:a|b|…)` -/
  | either (ss : List String)
  /-- `[-\s]?` -/
  | hyphen

/-- `\w`. -/
def isWord (I : Interp) (c : Char) : Bool := if c.toNat < 128 then c.isAlphanum || c = '_' else I.alnum c

/-- Whether `c`, of a text, matches `p`, of a pattern, when case is ignored.
The patterns have small letters only; some letters have further forms. -/
def foldEq (p c : Char) : Bool :=
  c = p || (c.isUpper && c.toLower = p) || (p = 'i' && (c.toNat = 0x130 || c.toNat = 0x131)) ||
    (p = 's' && c.toNat = 0x17f) || (p = 'k' && c.toNat = 0x212a) || (p = 'λ' && c = 'Λ') ||
    (p = 'κ' && (c = 'Κ' || c.toNat = 0x3f0))

/-- What is left after a literal, and the character before it. -/
def literal : List Char → Option Char → List Char → Option (Option Char × List Char)
  | [], prev, cs => some (prev, cs)
  | _ :: _, _, [] => none
  | p :: ps, _, c :: cs => if foldEq p c then literal ps (some c) cs else none

/-- What is left after up to `n` characters that satisfy `p`, in every way. -/
def ways (p : Char → Bool) : Nat → Option Char → List Char → List (Option Char × List Char)
  | 0, prev, cs => [(prev, cs)]
  | _ + 1, prev, [] => [(prev, [])]
  | n + 1, prev, c :: cs => (prev, c :: cs) :: if p c then ways p n (some c) cs else []

/-- Whether the pattern matches here. -/
def matchAt (I : Interp) : List Piece → Option Char → List Char → Bool
  | [], _, _ => true
  | .text s :: ps, prev, cs => (literal s.toList prev cs).any fun r => matchAt I ps r.1 r.2
  | .spaces :: ps, prev, cs => (ways isSpace cs.length prev cs).any fun r => matchAt I ps r.1 r.2
  | .gap n :: ps, prev, cs => (ways (· ≠ '\n') n prev cs).any fun r => matchAt I ps r.1 r.2
  | .bound :: ps, prev, cs => (prev.any (isWord I) != cs.head?.any (isWord I)) && matchAt I ps prev cs
  | .either ss :: ps, prev, cs => ss.any fun s => (literal s.toList prev cs).any fun r => matchAt I ps r.1 r.2
  | .hyphen :: ps, prev, cs => (ways (fun c => c = '-' || isSpace c) 1 prev cs).any fun r => matchAt I ps r.1 r.2

/-- `re.search(pattern, s, re.IGNORECASE) is not None`, from here on. -/
def searchFrom (I : Interp) (pattern : List Piece) (prev : Option Char) : List Char → Bool
  | [] => matchAt I pattern prev []
  | c :: cs => matchAt I pattern prev (c :: cs) || searchFrom I pattern (some c) cs

/-- `re.search(pattern, s, re.IGNORECASE) is not None`. -/
def search (I : Interp) (pattern : List Piece) (s : List Char) : Bool := searchFrom I pattern none s

end Text

end ArxDB.Impl
