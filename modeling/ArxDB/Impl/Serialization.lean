import ArxDB.Impl.Primitives

/-!
# `serialization.py`

`_canonicalize` rewrites tuples and sets at every depth that the stack of the
interpreter takes it to, and what it returns is encoded by `cbor2`. What the
code relies on in `cbor2` is said of what `_canonicalize` returns.
-/

namespace ArxDB.Impl

namespace Serialization

variable (P : Prims)

/-- `_sort_key`. -/
def sortKey (x : Value) : Except PyError Bytes := P.dumps x

/-- `sorted(xs, key=_sort_key)`. -/
def sorted (xs : List Value) : Except PyError (List Value) := do
  let keyed ← xs.mapM fun x => do pure (← sortKey P x, x)
  pure ((keyed.insertionSort fun a b => a.1 ≤ b.1).map Prod.snd)

/-- `_canonicalize`, with room on the stack for so many calls inside one another. -/
def canonicalize : Nat → Value → Except PyError Value
  | 0, _ => .error .recursionError
  | n + 1, .dict kvs => do
    let d ← kvs.foldlM (fun d kv => do P.setItem d (← canonicalize n kv.1) (← canonicalize n kv.2)) Dict.empty
    pure (.dict d.items)
  | n + 1, .list xs => do pure (.list (← xs.mapM (canonicalize n)))
  | n + 1, .tuple xs => do pure (.list (← xs.mapM (canonicalize n)))
  | n + 1, .set xs => do pure (.list (← sorted P (← xs.mapM (canonicalize n))))
  | n + 1, .frozenset xs => do pure (.list (← sorted P (← xs.mapM (canonicalize n))))
  | _ + 1, v => .ok v

end Serialization

namespace Prims

variable (P : Prims)

/-- `canonical_encode`. -/
def canonicalEncode (v : Value) : Except PyError Bytes := do
  P.dumps (← Serialization.canonicalize P P.recursionLimit v)

/-- `canonical_decode`. -/
def canonicalDecode (data : Bytes) : Except PyError Value := P.loads data

/-! ## What the code relies on in `cbor2` -/

/-- Decoding undoes the encoding of what `_canonicalize` returns, and the
canonical encoding does not depend on the order in which dicts were filled. -/
structure CborLaws : Prop where
  loads_dumps {n : Nat} {v c : Value} {b : Bytes} : Serialization.canonicalize P n v = .ok c → P.dumps c = .ok b →
    ∃ w, P.loads b = .ok w ∧ Value.Same c w
  dumps_same {v w : Value} : Value.Same v w → P.dumps v = P.dumps w

/-- The message that a log entry is signed with is encoded exactly when CBOR has
a form for its parts. -/
structure CborTotal : Prop where
  message {seq timestampNs : Int} {signerPubkey : Bytes} {entryHash prevLogHash : Hash} :
    (∃ b, P.canonicalEncode (.list [
        .int seq, .int timestampNs, .bytes signerPubkey, .bytes entryHash.raw, .bytes prevLogHash.raw]) = .ok b) ↔
      (Value.int seq).Plain ∧ (Value.int timestampNs).Plain ∧ (Value.bytes signerPubkey).Plain

/-- `cbor2` encodes what `_canonicalize` returns without running out of stack, if
CBOR has a form for it, and it encodes no text that has no UTF-8 form. -/
structure CborDefined : Prop where
  dumps {n : Nat} {v c : Value} : n ≤ P.recursionLimit → Serialization.canonicalize P n v = .ok c → c.Plain →
    ∃ b, P.dumps c = .ok b
  utf8 {n : Nat} {v c : Value} {b : Bytes} : Serialization.canonicalize P n v = .ok c → P.dumps c = .ok b → c.Utf8

/-- Of a file that was not written to its end: the beginning of an encoding does not decode. -/
structure CborTruncated : Prop where
  loads_take {v : Value} {b : Bytes} {n : Nat} : P.dumps v = .ok b → n < b.length →
    ∃ e, P.loads (b.take n) = .error e

/-- What `fxamacker/cbor` makes of the message that a log entry is signed with, a
list of five integers and byte strings, `canonical_encode` makes of it too. -/
structure CborAgree : Prop where
  encode_marshal {xs : List GoAny} {b : Bytes} : xs.length = 5 → (∀ x ∈ xs, ∀ enc, x ≠ .other enc) →
    P.marshal xs = some b → P.canonicalEncode (.list (xs.map GoAny.value)) = .ok b

end Prims

end ArxDB.Impl
