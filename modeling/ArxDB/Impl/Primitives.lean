import ArxDB.Framework.Dict
import Mathlib.Algebra.Ring.Int.Defs
import Mathlib.Algebra.Ring.Nat
import Mathlib.Data.Set.Function
import Mathlib.Data.List.Sort
import Mathlib.Data.Nat.Digits.Defs
import Mathlib.Tactic.Common

/-!
# Bytes, values and the third-party primitives

`Value` is the objects that the code encodes and decodes, `Hash` the 34-byte
multihash, and `Prims` what the code calls: BLAKE3, `cbor2`, `fxamacker/cbor`
and Ed25519. Everything else of the model is a function of a `Prims`. What a
result needs of the libraries is a hypothesis with a name: `CborLaws`,
`GoCborLaws`, `CborTotal`, `CborDefined`, `CborTruncated`, `GoCborTotal`,
`CborAgree`, `EqualLaws`, `Prims.KeyPair`, and `Set.InjOn P.hashBytes M` for "no
two of the messages `M` collide" (no function to 32 bytes is injective on all
messages).
-/

namespace ArxDB.Impl

/-- `bytes`. -/
abbrev Bytes := List UInt8

/-- The exceptions raised, by class, a class of the code or of Python standing
for its subclasses too. `fault` is a statement that fails from outside: an I/O
error, a locked database, an interrupt; `other` is any class not listed. -/
inductive PyError where
  | keyError | typeError | valueError | indexError | attributeError
  | encodeError | decodeError | integrityError | fault
  | syntaxError | nameError | zeroDivisionError | overflowError | recursionError | osError | timeoutExpired
  | checkerTimeout | z3Exception
  | other (name : String)
  | apiError (status : Nat) (message : String)
deriving DecidableEq, Repr

/-- What the code can ask of an object that a `Value` does not take apart: its
encoding (of a text, that of its code points, which `cbor2` refuses to write),
`bool(o)`, whether `hash(o)` is defined, `len(o)`, `for x in o`, `o[s]` for a
text, `bytes(o)` and `o.hex()`. -/
structure Foreign (V : Type) where
  enc : Bytes
  truthy : Bool
  hashable : Bool
  len : Except PyError Nat
  iter : Except PyError (List V)
  getItem : String → Except PyError V
  toBytes : Except PyError Bytes
  hex : Except PyError String

/-- An object without parts and without `hex`, such as a date. -/
def Foreign.inert {V : Type} (enc : Bytes) : Foreign V where
  enc := enc
  truthy := true
  hashable := true
  len := .error .typeError
  iter := .error .typeError
  getItem _ := .error .typeError
  toBytes := .error .typeError
  hex := .error .attributeError

/-- A float. -/
def Foreign.float {V : Type} (enc : Bytes) (truthy : Bool) (hex : String) : Foreign V :=
  { Foreign.inert enc with truthy, hex := .ok hex }

/-- Whether the object is a text: one that has no UTF-8 form, for it holds a lone surrogate. -/
def Foreign.isText {V : Type} (o : Foreign V) : Bool := o.enc.head?.any fun b => 0x60 ≤ b && b < 0x80

/-- The Python objects that the code encodes, and that `cbor2` and `json` make.
The elements of a set are in the order of an iteration over it, the items of a
dict in the order in which it was filled. `str` is a text that has a UTF-8 form;
`other` is any object besides these (a float, a tag, a date, any other text). -/
inductive Value where
  | none
  | bool (b : Bool)
  | int (n : Int)
  | bytes (b : Bytes)
  | str (s : String)
  | list (xs : List Value)
  | tuple (xs : List Value)
  | set (xs : List Value)
  | frozenset (xs : List Value)
  | dict (kvs : List (Value × Value))
  | other (o : Foreign Value)

namespace Value

/-- The same structure, up to the order in which dicts were filled. -/
inductive Same : Value → Value → Prop
  | refl (v : Value) : Same v v
  | list {xs ys : List Value} : List.Forall₂ Same xs ys → Same (.list xs) (.list ys)
  | dict {kvs kvs' kvs'' : List (Value × Value)} : kvs.Perm kvs' →
      kvs'.map Prod.fst = kvs''.map Prod.fst →
      List.Forall₂ Same (kvs'.map Prod.snd) (kvs''.map Prod.snd) → Same (.dict kvs) (.dict kvs'')

/-- Without parts. -/
def scalar : Value → Bool
  | .list _ | .tuple _ | .set _ | .frozenset _ | .dict _ => false
  | _ => true

/-- What `_canonicalize` is called on in turn: elements, keys and values. -/
def parts : Value → List Value
  | .list xs | .tuple xs | .set xs | .frozenset xs => xs
  | .dict kvs => kvs.map Prod.fst ++ kvs.map Prod.snd
  | _ => []

/-- Every text in it, at any depth, has a UTF-8 form. -/
inductive Utf8 : Value → Prop
  | intro {v : Value} : (∀ o, v = .other o → o.isText = false) → (∀ x ∈ v.parts, Utf8 x) → Utf8 v

/-- What CBOR writes of an integer besides its sign. -/
def argument : Int → Nat
  | .ofNat n => n
  | .negSucc n => n

/-- `None`, a number, a byte string or a text. -/
def simple : Value → Bool
  | .none | .bool _ | .int _ | .bytes _ | .str _ => true
  | _ => false

/-- Values that CBOR has a form for: whatever has a length has one below
`2 ^ 64` (an integer is as long as its bytes), keys have no parts, and there is
no `other` part. -/
inductive Plain : Value → Prop
  | none : Plain .none
  | bool (b : Bool) : Plain (.bool b)
  | int {n : Int} : (Nat.digits 256 (argument n)).length < 2 ^ 64 → Plain (.int n)
  | bytes {b : Bytes} : b.length < 2 ^ 64 → Plain (.bytes b)
  | str {s : String} : s.utf8ByteSize < 2 ^ 64 → Plain (.str s)
  | list {xs : List Value} : xs.length < 2 ^ 64 → (∀ x ∈ xs, Plain x) → Plain (.list xs)
  | dict {kvs : List (Value × Value)} : kvs.length < 2 ^ 64 → (∀ kv ∈ kvs, kv.1.scalar = true) →
      (∀ kv ∈ kvs, Plain kv.1) → (∀ kv ∈ kvs, Plain kv.2) → Plain (.dict kvs)

/-- Whether the value is the text `s`. -/
def isStr (s : String) : Value → Bool
  | .str t => t == s
  | _ => false

/-- A dict with text keys. -/
def record (fields : List (String × Value)) : Value := .dict (fields.map fun f => (.str f.1, f.2))

/-- `d[s]` for a text key. -/
def getItem (d : Value) (s : String) : Except PyError Value :=
  match d with
  | .dict kvs => match kvs.find? (·.1.isStr s) with
    | some kv => .ok kv.2
    | Option.none => .error .keyError
  | .other o => o.getItem s
  | _ => .error .typeError

/-- `for x in v`. -/
def iter : Value → Except PyError (List Value)
  | .list xs | .tuple xs | .set xs | .frozenset xs => .ok xs
  | .dict kvs => .ok (kvs.map Prod.fst)
  | .str s => .ok (s.toList.map fun c => .str c.toString)
  | .bytes b => .ok (b.map fun x => .int x.toNat)
  | .other o => o.iter
  | _ => .error .typeError

/-- `bool(v)`. -/
def truthy : Value → Bool
  | .none => false
  | .bool b => b
  | .int n => n ≠ 0
  | .bytes b => b ≠ []
  | .str s => s ≠ ""
  | .list xs | .tuple xs | .set xs | .frozenset xs => !xs.isEmpty
  | .dict kvs => !kvs.isEmpty
  | .other o => o.truthy

/-- The integer that a number is; `True` is 1 and `False` is 0. -/
def asInt : Value → Option Int
  | .int n => some n
  | .bool b => some (if b then 1 else 0)
  | _ => Option.none

/-- An element of the argument of `bytes(…)`: an integer in `range(256)`. -/
def toByte : Value → Except PyError UInt8
  | .int n => if 0 ≤ n ∧ n < 256 then .ok (UInt8.ofNat n.toNat) else .error .valueError
  | .bool b => .ok (if b then 1 else 0)
  | _ => .error .typeError

/-- `bytes(v)`: a number is a length, and the elements of a list or a set or the
keys of a dict are the bytes. -/
def toBytes : Value → Except PyError Bytes
  | .bytes b => .ok b
  | .list xs | .tuple xs | .set xs | .frozenset xs => xs.mapM toByte
  | .dict kvs => kvs.mapM fun kv => kv.1.toByte
  | .other o => o.toBytes
  | .int n =>
    if n < 0 then .error .valueError
    else if n < 2 ^ 63 then .ok (List.replicate n.toNat 0) else .error .overflowError
  | .bool b => .ok (if b then [0] else [])
  | _ => .error .typeError

/-- `len(v)`. -/
def len : Value → Except PyError Nat
  | .bytes b => .ok b.length
  | .str s => .ok s.length
  | .list xs | .tuple xs | .set xs | .frozenset xs => .ok xs.length
  | .dict kvs => .ok kvs.length
  | .other o => o.len
  | _ => .error .typeError

/-- `a, b = v`. -/
def unpack (v : Value) : Except PyError (Value × Value) := do
  match ← v.iter with
  | [a, b] => .ok (a, b)
  | _ => .error .valueError

mutual

/-- Whether `hash(v)` is defined. -/
def hashable : Value → Bool
  | .list _ | .set _ | .dict _ => false
  | .tuple xs => hashableAll xs
  | .other o => o.hashable
  | _ => true

/-- All elements are hashable. -/
def hashableAll : List Value → Bool
  | [] => true
  | x :: xs => hashable x && hashableAll xs

end

end Value

/-! ## Hashes -/

/-- `Hash`: a `bytes` of length 34. -/
structure Hash where
  raw : Bytes
  size : raw.length = 34
deriving DecidableEq

namespace Hash

theorem ext {a b : Hash} (h : a.raw = b.raw) : a = b := by
  cases a; cases b; cases h; rfl

theorem raw_inj {a b : Hash} : a.raw = b.raw ↔ a = b := ⟨ext, fun h => h ▸ rfl⟩

/-- `Hash(raw)` for a byte string. -/
def new (raw : Bytes) : Except PyError Hash :=
  if h : raw.length = 34 then .ok ⟨raw, h⟩ else .error .valueError

theorem new_raw (h : Hash) : new h.raw = .ok h := by
  simp [new, h.size]

theorem new_eq_ok {raw : Bytes} {h : Hash} : new raw = .ok h ↔ raw = h.raw := by
  constructor
  · intro e
    unfold new at e
    split at e
    · injection e with e
      rw [← e]
    · simp at e
  · rintro rfl
    exact new_raw h

/-- `Hash(v)` for a decoded value: its length must be 34, and `bytes(v)` must
be defined. -/
def ofValue (v : Value) : Except PyError Hash := do
  if (← v.len) ≠ 34 then throw .valueError
  new (← v.toBytes)

end Hash

theorem length_zeros : (List.replicate 34 (0 : UInt8)).length = 34 := List.length_replicate

/-- `ORDER BY` on a BLOB column: by bytes, lexicographically. -/
instance : LE Hash := ⟨fun a b => a.raw ≤ b.raw⟩

instance : DecidableRel (fun a b : Hash => a ≤ b) :=
  fun a b => inferInstanceAs (Decidable (a.raw ≤ b.raw))

instance : LT Hash := ⟨fun a b => a.raw < b.raw⟩

/-! ## The libraries -/

/-- A value of Go's `any` that the log's CBOR records hold. -/
inductive GoAny where
  | int64 (n : Int64)
  | uint64 (n : UInt64)
  | bytes (b : Bytes)
  | nil
  | other (enc : Bytes)
deriving DecidableEq, Repr

/-- The value after a round trip: what is not negative comes back unsigned. -/
def GoAny.decoded : GoAny → GoAny
  | .int64 n => if 0 ≤ n then .uint64 n.toUInt64 else .int64 n
  | v => v

/-- The same value as `cbor2` has it. -/
def GoAny.value : GoAny → Value
  | .int64 n => .int n.toInt
  | .uint64 n => .int n.toNat
  | .bytes b => .bytes b
  | .nil => .none
  | .other enc => .other (.inert enc)

/-- What the code calls: BLAKE3, `cbor2.dumps(…, canonical=True)` and
`cbor2.loads`, with the `==` of tuples, frozensets and objects that a `Value`
does not take apart, canonical `cbor.Marshal` of a `[]any` and `cbor.Unmarshal`
into one, and Ed25519; and the depth to which the stack of the interpreter takes
`_canonicalize`. -/
structure Prims where
  blake3 : Bytes → Vector UInt8 32
  dumps : Value → Except PyError Bytes
  loads : Bytes → Except PyError Value
  equalOther : Value → Value → Bool
  equalOther_comm (v w : Value) : equalOther v w = equalOther w v
  recursionLimit : Nat
  marshal : List GoAny → Option Bytes
  unmarshal : Bytes → Option (List GoAny)
  ed25519Sign : Bytes → Bytes → Vector UInt8 64
  ed25519Verify : Bytes → Bytes → Bytes → Bool

namespace Prims

variable (P : Prims)

/-- `hash_bytes`: `0x1e ‖ 0x20 ‖ BLAKE3(data)`. -/
def hashBytes (data : Bytes) : Hash :=
  ⟨0x1e :: 0x20 :: (P.blake3 data).toList, by simp⟩

/-- `v == w`, for values that are hashable. -/
def equal (v w : Value) : Bool :=
  if v.simple && w.simple then match v, w with
    | .none, .none => true
    | .bytes a, .bytes b => a == b
    | .str a, .str b => a == b
    | v, w => match v.asInt, w.asInt with
      | some m, some n => m == n
      | _, _ => false
  else P.equalOther v w

/-- `d[k] = v`. -/
def setItem {α : Type} (d : Dict P.equal α) (k : Value) (v : α) : Except PyError (Dict P.equal α) :=
  if k.hashable then .ok (d.set k v) else .error .typeError

/-- `keys.sign`. -/
def sign (priv message : Bytes) : Except PyError Bytes :=
  if priv.length = 32 then .ok (P.ed25519Sign priv message).toList else .error .valueError

/-- `keys.verify`. -/
def verify (pub message sig : Bytes) : Except PyError Bool :=
  if pub.length ≠ 32 then .error .valueError
  else if sig.length ≠ 64 then .error .valueError
  else .ok (P.ed25519Verify pub message sig)

/-- `pub` is the public key of `priv`: it accepts what `priv` signs. -/
structure KeyPair (priv pub : Bytes) : Prop where
  priv_size : priv.length = 32
  pub_size : pub.length = 32
  accepts (message : Bytes) : P.ed25519Verify pub message (P.ed25519Sign priv message).toList = true

@[simp] theorem equal_str (s t : String) : P.equal (.str s) (.str t) = (s == t) := rfl

theorem equal_comm (v w : Value) : P.equal v w = P.equal w v := by
  unfold equal
  rw [Bool.and_comm, P.equalOther_comm]
  split
  · cases v <;> cases w <;> first | rfl | exact Bool.beq_comm
  · rfl

variable {P} in
theorem equal_symm {v w : Value} (h : P.equal v w = true) : P.equal w v = true := P.equal_comm v w ▸ h

/-- What the code relies on in `==` of objects that are keys of a dict. (A
float that is not a number is not equal to itself.) -/
structure EqualLaws : Prop where
  trans {u v w : Value} : P.equal u v = true → P.equal v w = true → P.equal u w = true

/-- What the code relies on in `fxamacker/cbor`: the seven fields of a log entry,
integers and byte strings, survive a round trip, and a nil slice, written as
null, comes back as nil. -/
structure GoCborLaws : Prop where
  unmarshal_marshal {xs : List GoAny} {b : Bytes} : xs.length = 7 → (∀ x ∈ xs, ∀ enc, x ≠ .other enc) →
    P.marshal xs = some b → P.unmarshal b = some (xs.map GoAny.decoded)

/-- What `fxamacker/cbor` encodes: the five fields that are signed of a log entry
and the seven that are stored, integers, byte strings and nils, of lengths below
`2 ^ 64`. -/
structure GoCborTotal : Prop where
  marshal {xs : List GoAny} : xs.length = 5 ∨ xs.length = 7 → (∀ x ∈ xs, ∀ enc, x ≠ .other enc) →
    (∀ b, .bytes b ∈ xs → b.length < 2 ^ 64) → ∃ b, P.marshal xs = some b

variable {P}

theorem KeyPair.verify_sign {priv pub : Bytes} (k : P.KeyPair priv pub) {message sig : Bytes}
    (h : P.sign priv message = .ok sig) : P.verify pub message sig = .ok true := by
  simp only [sign, k.priv_size, if_true, Except.ok.injEq] at h
  subst h
  simp [verify, k.pub_size, k.accepts]

end Prims

end ArxDB.Impl
