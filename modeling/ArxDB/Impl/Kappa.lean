import ArxDB.Impl.Schema
import Mathlib.Data.ENat.Basic

/-!
# `kappa.py`

The order of the κ scale. `rank` is a float in the code, with whole values and
infinity only: an extended natural number here.
-/

namespace ArxDB.Impl.Kappa

/-- `rank`. -/
def rank : Kappa → ℕ∞
  | k0 => 0
  | k1 => 1
  | k2 => 2
  | k3 => 3
  | kInf => ⊤

theorem rank_injective : Function.Injective rank := by
  intro a b h
  cases a <;> cases b <;> first | rfl | (exact absurd h (by decide))

/-- Kappas are compared by rank. -/
instance : LinearOrder Kappa := LinearOrder.lift' rank rank_injective

theorem le_def {a b : Kappa} : a ≤ b ↔ rank a ≤ rank b := Iff.rfl

theorem lt_def {a b : Kappa} : a < b ↔ rank a < rank b := Iff.rfl

instance : OrderTop Kappa where
  top := kInf
  le_top k := by cases k <;> decide

/-- `min(k, *ks, key=rank)`: the first of the least. -/
def least (k : Kappa) (ks : List Kappa) : Kappa := ks.foldl (fun m k => if rank k < rank m then k else m) k

/-- `min_kappa(*ks)`. -/
def minKappa : List Kappa → Except PyError Kappa
  | k :: ks => .ok (least k ks)
  | [] => .error .valueError

/-- `max(k, *ks, key=rank)`: the first of the greatest. -/
def greatest (k : Kappa) (ks : List Kappa) : Kappa := ks.foldl (fun m k => if rank m < rank k then k else m) k

/-- `max_kappa(*ks)`. -/
def maxKappa : List Kappa → Except PyError Kappa
  | k :: ks => .ok (greatest k ks)
  | [] => .error .valueError

/-- Conjunction. -/
def parallel (ks : List Kappa) : Except PyError Kappa := minKappa ks

/-- Independent derivations. -/
def corroborate (ks : List Kappa) : Except PyError Kappa := maxKappa ks

theorem le_least_iff {j k : Kappa} {ks : List Kappa} : j ≤ least k ks ↔ j ≤ k ∧ ∀ l ∈ ks, j ≤ l := by
  induction ks generalizing k with
  | nil => simp [least]
  | cons l ks ih =>
    rw [least, List.foldl_cons, ← least, ih, List.forall_mem_cons, ← and_assoc]
    refine and_congr_left fun _ => ?_
    split
    · rename_i h
      exact ⟨fun hj => ⟨hj.trans (lt_def.mpr h).le, hj⟩, And.right⟩
    · rename_i h
      exact ⟨fun hj => ⟨hj, hj.trans (le_def.mpr (not_lt.mp h))⟩, And.left⟩

end ArxDB.Impl.Kappa
