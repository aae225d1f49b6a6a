import ArxDB.Framework.Failing
import ArxDB.Impl.Primitives

/-!
# `object_store.py`

Blobs are files under `objects/xx/…`, named by the hex of their hash. A blob
is written to a temporary file that `os.replace` moves into place, so a file
that is there is complete.
-/

namespace ArxDB.Impl

open Failing Prog

/-- A hexadecimal digit, in lower case. -/
def hexDigit (n : Nat) : Char := "0123456789abcdef".toList.getD n '0'

/-- The two digits of a byte. -/
def hexByte (b : UInt8) : List Char := [hexDigit (b.toNat / 16), hexDigit (b.toNat % 16)]

/-- `h.hex()`. -/
def Hash.hex (h : Hash) : List Char := h.raw.flatMap hexByte

/-- A file name under the root: the directory and the name in it. -/
abbrev Path := List Char × List Char

/-- The files under `objects/`. -/
abbrev Files := Path → Option Bytes

namespace ObjectStore

/-- `_path`: `objects/{hex[:2]}/{hex[2:]}`. -/
def path (h : Hash) : Path := (h.hex.take 2, h.hex.drop 2)

/-- `get`. -/
def get (objects : Files) (h : Hash) : Option Bytes := objects (path h)

/-- `has`. -/
def has (objects : Files) (h : Hash) : Bool := (objects (path h)).isSome

/-- `os.replace` of a temporary file holding `data`. -/
def replace (objects : Files) (dest : Path) (data : Bytes) : Files :=
  fun p => if p = dest then some data else objects p

/-- What `put` does to the files. -/
def insert (P : Prims) (objects : Files) (data : Bytes) : Files :=
  if has objects (P.hashBytes data) then objects
  else replace objects (path (P.hashBytes data)) data

/-- `put`. It can fail while the temporary file is written, and once more
after that has been moved into place. -/
def put (P : Prims) (data : Bytes) : Prog PyError Files Hash := do
  statement .fault
  update fun objects => insert P objects data
  statement .fault
  pure (P.hashBytes data)

end ObjectStore

end ArxDB.Impl
