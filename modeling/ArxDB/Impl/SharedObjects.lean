import ArxDB.Impl.Go.Storage

/-!
# `object_store.py` and `object_store.go` over one root

`put` of either store with its temporary file, change by change: the file is
created, filled, and moved into place. A put that raises removes its temporary
file; one whose process is killed, or whose removal fails, leaves it there.
-/

namespace ArxDB.Impl.SharedObjects

open Failing Prog

/-- `unlink`. -/
def remove (files : Files) (path : Path) : Files := fun p => if p = path then none else files p

/-- `os.replace` and `os.Rename`. -/
def rename (files : Files) (src dest : Path) : Files :=
  fun p => if p = dest then files src else if p = src then none else files p

/-- How a put goes: the random part of its temporary file's name, how many
bytes a first write leaves there, after how many changes it stops (`none`: it
does not), and whether its temporary file is removed if it does. -/
structure Course where
  random : List Char
  cut : Nat
  fault : Option Nat
  tidy : Bool

/-- What is done to the files between the check for `dest` and the return. -/
def writes (tmp dest : Path) (data : Bytes) (cut : Nat) : List (Files → Files) :=
  [fun files => ObjectStore.replace files tmp [],
    fun files => ObjectStore.replace files tmp (data.take cut),
    fun files => ObjectStore.replace files tmp data,
    fun files => rename files tmp dest]

variable {ε α : Type}

/-- `x`, and the removal of the temporary file when `x` raises. -/
def cleaning (tidy : Bool) (tmp : Path) (x : Prog ε Files α) : Prog ε Files α := fun r =>
  match x r with
  | (.ok a, r') => (.ok a, r')
  | (.error e, r') => (.error e, if tidy then { r' with state := remove r'.state tmp } else r')

/-- `tmp` of `object_store.py`: in the root. -/
def pyTmp (c : Course) : Path := ([], ".tmp_".toList ++ c.random)

/-- `tmp` of `object_store.go`: in the directory of the blob. -/
def goTmp (h : Hash) (c : Course) : Path := (h.hex.take 2, ".tmp-".toList ++ c.random)

/-- `put` of `object_store.py`. Once the file is in place, the `finally` can still raise. -/
def pyPut (P : Prims) (c : Course) (data : Bytes) : Prog PyError Files Hash := do
  let h := P.hashBytes data
  if ← read fun files => ObjectStore.has files h then pure h
  else
    cleaning c.tidy (pyTmp c) (changes .fault (writes (pyTmp c) (ObjectStore.path h) data c.cut))
    statement .fault
    pure h

/-- `Put` of `object_store.go`. -/
def goPut (P : Prims) (c : Course) (data : Bytes) : Prog Go.GoError Files Hash := do
  let h := P.hashBytes data
  if ← read fun files => Go.ObjectStore.has files h then pure h
  else
    cleaning c.tidy (goTmp h c) (changes .library (writes (goTmp h c) (Go.ObjectStore.shardPath h) data c.cut))
    pure h

/-- The two stores. -/
inductive Engine where
  | python
  | go
deriving DecidableEq, Repr

/-- A put through one of the stores. -/
structure Call where
  engine : Engine
  data : Bytes
  course : Course

/-- What a store reads under a hash. -/
def get : Engine → Files → Hash → Option Bytes
  | .python => ObjectStore.get
  | .go => Go.ObjectStore.get

/-- Whether a store has a hash. -/
def has : Engine → Files → Hash → Bool
  | .python => ObjectStore.has
  | .go => Go.ObjectStore.has

variable (P : Prims)

/-- The files after the call. -/
def Call.exec (files : Files) (c : Call) : Files :=
  match c.engine with
  | .python => ((pyPut P c.course c.data).exec c.course.fault files).2
  | .go => ((goPut P c.course c.data).exec c.course.fault files).2

/-- The files after the calls, in a new root. -/
def run (calls : List Call) : Files := calls.foldl (Call.exec P) fun _ => none

end ArxDB.Impl.SharedObjects
