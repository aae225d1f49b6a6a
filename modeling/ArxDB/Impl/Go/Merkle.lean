import ArxDB.Impl.Go.Pebble

/-!
# `merkle.go`

The tree of `merkle.py` again, its levels read by index.
-/

namespace ArxDB.Impl.Go.Merkle

variable (P : Prims)

/-- `leafNode`. -/
def leafNode (leaf : Hash) : Hash := P.hashBytes (0x00 :: leaf.raw)

/-- `internalNode`. -/
def internalNode (left right : Hash) : Hash := P.hashBytes (0x01 :: (left.raw ++ right.raw))

/-- `emptyRoot`. -/
def emptyRoot : Hash := P.hashBytes [0x02]

/-- `next`: the level above, a node for each `i` that is even. -/
def next (level : List Hash) : List Hash :=
  List.ofFn fun j : Fin ((level.length + 1) / 2) =>
    have hj : 2 * j.val < level.length := by omega
    let left := level[2 * j.val]
    let right := if h : 2 * j.val + 1 < level.length then level[2 * j.val + 1] else left
    internalNode P left right

theorem length_next (level : List Hash) : (next P level).length = (level.length + 1) / 2 := List.length_ofFn

/-- The levels, up to a single node. -/
def climb (level : List Hash) : List Hash :=
  if 1 < level.length then climb (next P level) else level
termination_by level.length
decreasing_by rw [length_next]; omega

/-- `RootHash`. -/
def rootHash (leafHashes : List Hash) : Hash :=
  match climb P (leafHashes.map (leafNode P)) with
  | root :: _ => root
  | [] => emptyRoot P

/-- `InclusionProof`. -/
structure InclusionProof where
  leafHash : Hash
  index : Int
  path : List Hash
deriving DecidableEq

/-- `siblingIdx`. -/
def siblingIdx (level : List Hash) (idx : Nat) : Nat :=
  if idx % 2 = 0 then if level.length ≤ idx + 1 then idx else idx + 1 else idx - 1

/-- `path`, from a level and an index in it. -/
def siblings (level : List Hash) (idx : Nat) : List Hash :=
  if 1 < level.length then
    level[siblingIdx level idx]?.toList ++ siblings (next P level) (idx / 2)
  else []
termination_by level.length
decreasing_by rw [length_next]; omega

/-- `BuildInclusionProof`. -/
def buildInclusionProof (leafHashes : List Hash) (index : Int) : Except GoError InclusionProof :=
  if leafHashes = [] then .error .emptyTree
  else if index < 0 ∨ leafHashes.length ≤ index then .error (.leafRange index leafHashes.length)
  else match leafHashes[index.toNat]? with
    | none => .error (.leafRange index leafHashes.length)
    | some leafHash => .ok {
        leafHash, index, path := siblings P (leafHashes.map (leafNode P)) index.toNat }

/-- The loop of `VerifyInclusion`; `/` and `%` round towards zero. -/
def verifyFrom : List Hash → Int → Hash → Hash
  | [], _, current => current
  | sibling :: path, idx, current =>
    verifyFrom path (idx.tdiv 2)
      (if idx.tmod 2 = 0 then internalNode P current sibling else internalNode P sibling current)

/-- `VerifyInclusion`. -/
def verifyInclusion (proof : InclusionProof) (root : Hash) : Bool :=
  verifyFrom P proof.path proof.index (leafNode P proof.leafHash) = root

end ArxDB.Impl.Go.Merkle
