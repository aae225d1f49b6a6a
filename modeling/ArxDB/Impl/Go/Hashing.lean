import ArxDB.Impl.Go.Pebble
import ArxDB.Impl.Hashing

/-!
# `hashing.go`

A Go string is its bytes, and `hex.DecodeString` takes nothing but digits.
-/

namespace ArxDB.Impl.Go

/-- The value of a hexadecimal digit; a byte beyond ASCII is none. -/
def hexValue (b : UInt8) : Option Nat := Impl.hexValue (Char.ofNat b.toNat)

/-- `hex.DecodeString`. The error is `InvalidByteError` or `ErrLength`. -/
def decodeString : Bytes → Except GoError Bytes
  | [] => .ok []
  | [_] => .error .library
  | p :: q :: src =>
    match hexValue p, hexValue q with
    | some a, some b => (UInt8.ofNat (a * 16 + b) :: ·) <$> decodeString src
    | _, _ => .error .library

/-- `FromHex`. -/
def fromHex (hexstr : Bytes) : Except GoError Hash := do
  let raw ← decodeString hexstr
  if h : raw.length = 34 then pure ⟨raw, h⟩ else throw (.hashSize raw.length)

end ArxDB.Impl.Go
