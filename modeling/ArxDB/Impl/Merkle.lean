import ArxDB.Framework.HashTree
import ArxDB.Impl.Primitives

/-!
# `merkle.py`

The Merkle root of a list of leaf hashes, and the proof that a leaf is in it.
`messages` lists everything that `rootHash` hashes on the way.
-/

namespace ArxDB.Impl.Merkle

variable (P : Prims)

/-- What is hashed for a leaf. -/
def leafMessage (leaf : Hash) : Bytes := 0x00 :: leaf.raw

/-- What is hashed for an inner node. -/
def internalMessage (left right : Hash) : Bytes := 0x01 :: (left.raw ++ right.raw)

/-- What is hashed for no leaves. -/
def emptyMessage : Bytes := [0x02]

/-- `_leaf_node`. -/
def leafNode (leaf : Hash) : Hash := P.hashBytes (leafMessage leaf)

/-- `_internal_node`. -/
def internalNode (left right : Hash) : Hash := P.hashBytes (internalMessage left right)

/-- `_empty_root`. -/
def emptyRoot : Hash := P.hashBytes emptyMessage

/-- `root_hash`. The `while` loop is `HashTree.climb`: each round pairs up the
level, the last node with itself where it is odd. -/
def rootHash (leafHashes : List Hash) : Hash :=
  match HashTree.climb (internalNode P) (leafHashes.map (leafNode P)) with
  | root :: _ => root
  | [] => emptyRoot P

/-- `MerkleInclusionProof`. -/
structure InclusionProof where
  leafHash : Hash
  index : Int
  path : List Hash
deriving DecidableEq

/-- `sibling_idx`; the last node of an odd level is its own sibling. -/
def siblingIdx (level : List Hash) (idx : Nat) : Nat :=
  if idx % 2 = 0 then if level.length ≤ idx + 1 then idx else idx + 1 else idx - 1

/-- `path`, from a level and an index in it. -/
def siblings (level : List Hash) (idx : Nat) : List Hash :=
  if 1 < level.length then
    level[siblingIdx level idx]?.toList ++ siblings (HashTree.up (internalNode P) level) (idx / 2)
  else []
termination_by level.length
decreasing_by rw [HashTree.length_up]; omega

/-- `inclusion_proof`. -/
def inclusionProof (leafHashes : List Hash) (index : Int) : Except PyError InclusionProof :=
  if leafHashes = [] then .error .indexError
  else if index < 0 ∨ leafHashes.length ≤ index then .error .indexError
  else match leafHashes[index.toNat]? with
    | none => .error .indexError
    | some leafHash => .ok {
        leafHash, index, path := siblings P (leafHashes.map (leafNode P)) index.toNat }

/-- The loop of `verify_inclusion`. -/
def verifyFrom : List Hash → Int → Hash → Hash
  | [], _, current => current
  | sibling :: path, idx, current =>
    verifyFrom path (idx / 2) (if idx % 2 = 0 then internalNode P current sibling else internalNode P sibling current)

/-- `verify_inclusion`. -/
def verifyInclusion (proof : InclusionProof) (root : Hash) : Bool :=
  verifyFrom P proof.path proof.index (leafNode P proof.leafHash) = root

/-- The messages that `rootHash` hashes. -/
def messages (leafHashes : List Hash) : List Bytes :=
  emptyMessage :: leafHashes.map leafMessage ++
    (HashTree.joins (internalNode P) (leafHashes.map (leafNode P))).map fun p => internalMessage p.1 p.2

end ArxDB.Impl.Merkle
