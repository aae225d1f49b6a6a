import ArxDB.Impl.ObjectStore

/-!
# `hashing.py`

Hashes as text. `bytes.fromhex` takes digits of either case in pairs, with
white space of ASCII between the pairs.
-/

namespace ArxDB.Impl

/-- White space of ASCII. -/
def asciiSpace (c : Char) : Bool := (9 ≤ c.toNat && c.toNat ≤ 13) || c.toNat = 32

/-- The value of a hexadecimal digit. -/
def hexValue (c : Char) : Option Nat :=
  if '0' ≤ c ∧ c ≤ '9' then some (c.toNat - 48)
  else if 'a' ≤ c ∧ c ≤ 'f' then some (c.toNat - 87)
  else if 'A' ≤ c ∧ c ≤ 'F' then some (c.toNat - 55)
  else none

/-- The byte of two digits. -/
def hexPair (c d : Char) : Option UInt8 := do UInt8.ofNat ((← hexValue c) * 16 + (← hexValue d))

/-- `bytes.fromhex`. -/
def fromhex : List Char → Except PyError Bytes
  | [] => .ok []
  | [c] => if asciiSpace c then .ok [] else .error .valueError
  | c :: d :: cs =>
    if asciiSpace c then fromhex (d :: cs)
    else match hexPair c d with
      | some b => (b :: ·) <$> fromhex cs
      | none => .error .valueError

namespace Hash

/-- `from_hex`. -/
def fromHex (hexstr : List Char) : Except PyError Hash := do new (← fromhex hexstr)

end Hash

end ArxDB.Impl
