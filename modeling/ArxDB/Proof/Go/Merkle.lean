import ArxDB.Impl.Go.Merkle
import ArxDB.Impl.Merkle

/-!
# The two Merkle trees

`merkle.go` reads a level by index where `merkle.py` pairs it up; the levels,
the roots and the proofs are the same.
-/

namespace ArxDB.Proof.Go

open Impl (Hash Prims)
open Impl.Go

variable {P : Prims}

theorem next_eq (level : List Hash) : Merkle.next P level = HashTree.up (Impl.Merkle.internalNode P) level := by
  apply List.ext_getElem
  · rw [Merkle.length_next, HashTree.length_up]
  · intro j hj hj'
    rw [Merkle.length_next] at hj
    have hlt : 2 * j < level.length := by omega
    simp only [Merkle.next, List.getElem_ofFn, HashTree.up, List.getElem_map,
      HashTree.getElem_pairs level j (by simpa using hj) hlt]
    rfl

theorem climb_eq (level : List Hash) : Merkle.climb P level = HashTree.climb (Impl.Merkle.internalNode P) level := by
  induction level using HashTree.climb.induct (Impl.Merkle.internalNode P) with
  | case1 level h ih => rw [Merkle.climb, if_pos h, next_eq, ih, ← HashTree.climb_of_one_lt _ h]
  | case2 level h => rw [Merkle.climb, if_neg h, HashTree.climb_of_le_one _ (by omega)]

theorem rootHash_eq (leafHashes : List Hash) : Merkle.rootHash P leafHashes = Impl.Merkle.rootHash P leafHashes := by
  unfold Merkle.rootHash
  rw [climb_eq]
  rfl

theorem siblings_eq (level : List Hash) (idx : Nat) :
    Merkle.siblings P level idx = Impl.Merkle.siblings P level idx := by
  induction level, idx using Impl.Merkle.siblings.induct P with
  | case1 level idx h ih =>
    rw [Merkle.siblings, if_pos h, next_eq, ih]
    conv_rhs => rw [Impl.Merkle.siblings, if_pos h]
    rfl
  | case2 level idx h => rw [Merkle.siblings, if_neg h, Impl.Merkle.siblings, if_neg h]

end ArxDB.Proof.Go
