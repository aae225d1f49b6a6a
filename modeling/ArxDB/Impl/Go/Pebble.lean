import ArxDB.Framework.Failing
import ArxDB.Impl.Primitives
import Std.Data.ExtTreeMap

/-!
# The Pebble database

A map from keys to values in the order of the keys' bytes. An indexed batch
holds the writes staged so far and reads through them; a commit applies them
all, in their order, to the database as it is then.

A Go `[]byte` is a `Slice`, for what tells nil from empty.
-/

namespace ArxDB.Impl.Go

open Failing Prog

/-- A `[]byte`: nil, or these bytes. -/
abbrev Slice := Option Bytes

/-- The bytes that it holds: none for nil. -/
def Slice.bytes (b : Slice) : Bytes := b.getD []

/-- A proto3 `bytes` field as it is delivered: nil when it is absent or empty. -/
def Slice.ofField (b : Bytes) : Slice := if b = [] then none else some b

/-- The slice as a value of `any`. -/
def Slice.toAny : Slice → GoAny
  | some b => .bytes b
  | none => .nil

/-- `copy(h[:], b)` into a zero `Hash`. -/
def copyHash (b : Bytes) : Hash :=
  ⟨(b ++ List.replicate 34 0).take 34, by simp⟩

theorem copyHash_raw (h : Hash) : copyHash h.raw = h :=
  Hash.ext (by simp [copyHash, h.size])

/-- The errors of the Go packages. `library` is an error from outside: Pebble,
the CBOR library or the file system. -/
inductive GoError where
  | library
  /-- `pebble.ErrNotFound` -/
  | notFound
  /-- "log entry: expected 7 fields, got %d" -/
  | fieldCount (n : Nat)
  /-- "log entry: field %d: %w" -/
  | field (i : Nat) (e : GoError)
  /-- "log entry: field %d not bytes" -/
  | fieldNotBytes (i : Nat)
  /-- "integer overflow: %d" -/
  | overflow (x : UInt64)
  /-- "not an integer: %T" -/
  | notInteger (v : GoAny)
  /-- "expected bytes, got %T" -/
  | notBytes (v : GoAny)
  /-- "hash must be 34 bytes, got %d" -/
  | hashSize (n : Nat)
  /-- "private key must be 32 bytes, got %d" -/
  | keySize (n : Nat)
  /-- the panic "makeslice: cap out of range" -/
  | makeslice
  /-- "seq %d out of range [0, %d)" -/
  | seqRange (seq : Int64) (n : Nat)
  /-- "cannot build an inclusion proof for an empty tree" -/
  | emptyTree
  /-- "leaf index %d out of range [0, %d)" -/
  | leafRange (index : Int) (n : Nat)
deriving DecidableEq, Repr

/-- The committed state. -/
abbrev Pebble := Std.ExtTreeMap Bytes Bytes compare

/-- The `Set`s of an indexed batch. -/
abbrev Batch := List (Bytes × Bytes)

namespace Pebble

/-- What `b.Commit(nil)` makes of the database. -/
def commit (db : Pebble) (b : Batch) : Pebble := b.foldl (fun db kv => db.insert kv.1 kv.2) db

/-- The entries of an iterator from `lower` up to `upper`. -/
def scan (db : Pebble) (lower : Bytes) (upper : Option Bytes) : List (Bytes × Bytes) :=
  db.toList.filter fun kv => lower ≤ kv.1 && match upper with
    | some upper => kv.1 < upper
    | none => true

end Pebble

namespace Batch

/-- `b.Get(key)`: the batch's own writes first, then the database's. -/
def get (b : Batch) (db : Pebble) (key : Bytes) : Option Bytes := (db.commit b)[key]?

/-- `b.Set(key, value, nil)`. -/
def set (b : Batch) (key value : Bytes) : Prog GoError Pebble Batch := do
  statement .library
  pure (b ++ [(key, value)])

end Batch

end ArxDB.Impl.Go
