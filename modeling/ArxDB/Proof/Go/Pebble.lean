import ArxDB.Impl.Go.GraphIndex
import ArxDB.Spec.Store
import Mathlib.Data.List.Lex

/-!
# Commits and prefix scans

What a committed batch leaves under a key, and that the range up to
`prefixUpperBound` holds the keys with the prefix and no others.
-/

namespace ArxDB.Proof.Go

open Impl Impl.Go BigEndian

variable {db : Pebble} {b b' : Batch} {k k' v : Bytes}

theorem ofField_bytes (data : Bytes) : (Slice.ofField data).bytes = data := by
  unfold Slice.ofField
  split
  · rename_i h
    exact h.symm
  · rfl

@[simp] theorem commit_nil : db.commit [] = db := rfl

@[simp] theorem commit_cons {kv : Bytes × Bytes} : db.commit (kv :: b) = Pebble.commit (db.insert kv.1 kv.2) b := rfl

theorem commit_append : db.commit (b ++ b') = (db.commit b).commit b' := List.foldl_append

theorem getElem?_insert : (db.insert k v)[k']? = if k = k' then some v else db[k']? := by
  simp [Std.ExtTreeMap.getElem?_insert]

/-- A batch that does not write a key leaves it as it is. -/
theorem getElem?_commit_of_ne (h : ∀ kv ∈ b, kv.1 ≠ k) : (db.commit b)[k]? = db[k]? := by
  induction b generalizing db with
  | nil => rfl
  | cons kv b ih =>
    rw [commit_cons, ih fun kv' hkv' => h kv' (List.mem_cons_of_mem _ hkv'), getElem?_insert,
      if_neg (h kv List.mem_cons_self)]

/-- What a commit leaves under a key depends on what was under that key only. -/
theorem getElem?_commit_congr {db' : Pebble} (h : db[k]? = db'[k]?) : (db.commit b)[k]? = (db'.commit b)[k]? := by
  induction b generalizing db db' with
  | nil => exact h
  | cons kv b ih =>
    refine ih ?_
    rw [getElem?_insert, getElem?_insert, h]

/-- What is under a key after a commit was there or is written by the batch. -/
theorem getElem?_commit (h : (db.commit b)[k]? = some v) : (k, v) ∈ b ∨ db[k]? = some v := by
  induction b generalizing db with
  | nil => exact .inr h
  | cons kv b ih =>
    rcases ih h with hm | hm
    · exact .inl (List.mem_cons_of_mem _ hm)
    · rw [getElem?_insert] at hm
      split at hm
      · rename_i hk
        obtain rfl := Option.some.inj hm
        exact .inl (hk ▸ List.mem_cons_self)
      · exact .inr hm

/-- Where a batch writes to a key only what it is to hold, the key holds what
it held before or what the batch writes. -/
theorem getElem?_commit_iff (hdb : ∀ v', db[k]? = some v' → v' = v) (hb : ∀ v', (k, v') ∈ b → v' = v) :
    (db.commit b)[k]? = some v ↔ db[k]? = some v ∨ (k, v) ∈ b := by
  refine ⟨fun h => (getElem?_commit h).symm, fun h => ?_⟩
  induction b generalizing db with
  | nil => exact h.resolve_right (by simp)
  | cons kv b ih =>
    have hb' : ∀ v', (k, v') ∈ b → v' = v := fun v' hv' => hb v' (List.mem_cons_of_mem _ hv')
    by_cases hk : kv.1 = k
    · obtain ⟨k', v'⟩ := kv
      obtain rfl : k' = k := hk
      obtain rfl : v' = v := hb v' List.mem_cons_self
      have hv : (db.insert k' v')[k']? = some v' := by rw [getElem?_insert, if_pos rfl]
      exact ih (fun w hw => by simpa [hv] using hw.symm) hb' (.inl hv)
    · refine ih (fun w hw => hdb w ?_) hb' ?_
      · rwa [getElem?_insert, if_neg hk] at hw
      · rw [getElem?_insert, if_neg hk]
        refine h.imp_right fun h => ?_
        rcases List.mem_cons.mp h with rfl | h
        · exact absurd rfl hk
        · exact h

/-! ## Scans -/

/-- The keys with a prefix are those from it up to its upper bound, or all
from it on when it has none. -/
theorem prefix_iff_prefixUpperBound {p k : Bytes} :
    p <+: k ↔ p ≤ k ∧ ∀ ub, GraphIndex.prefixUpperBound p = some ub → k < ub := by
  induction p generalizing k with
  | nil => simp [GraphIndex.prefixUpperBound]
  | cons x p ih =>
    cases k with
    | nil => simp
    | cons y k =>
      rw [List.cons_prefix_cons, ih, List.cons_le_cons_iff, GraphIndex.prefixUpperBound]
      cases hp : GraphIndex.prefixUpperBound p with
      | some ub =>
        simp only [Option.some.injEq, forall_eq', List.cons_lt_cons_iff]
        constructor
        · rintro ⟨rfl, hle, hlt⟩
          exact ⟨.inr ⟨rfl, hle⟩, .inr ⟨rfl, hlt⟩⟩
        · rintro ⟨hle | ⟨rfl, hle⟩, hlt | ⟨hy, hlt⟩⟩
          · exact absurd (UInt8.lt_trans hle hlt) (UInt8.lt_irrefl _)
          · exact absurd (hy ▸ hle) (UInt8.lt_irrefl _)
          · exact absurd hlt (UInt8.lt_irrefl _)
          · exact ⟨rfl, hle, hlt⟩
      | none =>
        by_cases hx : x < 0xff
        · have hx1 : ∀ z : UInt8, z < x + 1 ↔ z ≤ x := by
            intro z
            rw [UInt8.lt_iff_toNat_lt, UInt8.le_iff_toNat_le, UInt8.toNat_add]
            rw [UInt8.lt_iff_toNat_lt] at hx
            simp at hx ⊢
            omega
          simp only [if_pos hx, Option.some.injEq, forall_eq', List.cons_lt_cons_iff, hx1, List.not_lt_nil,
            and_false, or_false, reduceCtorEq, false_implies, implies_true, and_true]
          constructor
          · rintro ⟨rfl, hle⟩
            exact ⟨.inr ⟨rfl, hle⟩, UInt8.le_refl _⟩
          · rintro ⟨hle | hle, hy⟩
            · exact absurd (UInt8.lt_of_lt_of_le hle hy) (UInt8.lt_irrefl _)
            · exact hle
        · -- no byte is above `x`
          have hmax : ¬ x < y := by
            rw [UInt8.lt_iff_toNat_lt] at hx ⊢
            have := y.toNat_lt
            simp at hx
            omega
          simp [hx, hmax]

theorem mem_scan {kv : Bytes × Bytes} {lower : Bytes} {upper : Option Bytes} :
    kv ∈ db.scan lower upper ↔ db[kv.1]? = some kv.2 ∧ lower ≤ kv.1 ∧ ∀ ub, upper = some ub → kv.1 < ub := by
  rw [Pebble.scan, List.mem_filter, ← Std.ExtTreeMap.mem_toList_iff_getElem?_eq_some]
  cases upper <;> simp

/-- A scan of a prefix finds the keys that start with it. -/
theorem mem_scanned {kv : Bytes × Bytes} {p : Bytes} :
    kv ∈ db.scan p (GraphIndex.prefixUpperBound p) ↔ db[kv.1]? = some kv.2 ∧ p <+: kv.1 := by
  rw [mem_scan, prefix_iff_prefixUpperBound]

theorem compare_eq_lt {a b : Bytes} : compare a b = .lt ↔ a < b := by
  induction a generalizing b with
  | nil => cases b <;> simp
  | cons x a ih =>
    cases b with
    | nil => simp
    | cons y b =>
      rw [List.compare_cons_cons, Ordering.then_eq_lt, ih, List.cons_lt_cons_iff, Std.compare_eq_lt,
        Std.compare_eq_iff_eq]

/-- A scan goes up the keys. -/
theorem scan_ascending {lower : Bytes} {upper : Option Bytes} :
    (db.scan lower upper).Pairwise (fun a b => a.1 < b.1) :=
  (Std.ExtTreeMap.ordered_keys_toList.imp compare_eq_lt.mp).filter _

theorem append_lt_append_iff {p a b : Bytes} : p ++ a < p ++ b ↔ a < b := by
  induction p with
  | nil => rfl
  | cons x p ih => simp [ih]

/-- A scan of a prefix that is followed by a hash in every key lists the hashes. -/
theorem lists_scan {p : Bytes} {n : Nat} (hn : p.length = n)
    (h : ∀ k v, db[k]? = some v → p <+: k → ∃ x : Hash, k = p ++ x.raw) :
    Spec.Lists ((db.scan p (GraphIndex.prefixUpperBound p)).map fun kv => copyHash (kv.1.drop n))
      {x | ∃ v, db[p ++ x.raw]? = some v} where
  ascending := by
    refine List.pairwise_map.mpr (scan_ascending.imp_of_mem fun {kv kv'} hkv hkv' hlt => ?_)
    obtain ⟨hget, hpre⟩ := mem_scanned.mp hkv
    obtain ⟨hget', hpre'⟩ := mem_scanned.mp hkv'
    obtain ⟨x, hx⟩ := h _ _ hget hpre
    obtain ⟨x', hx'⟩ := h _ _ hget' hpre'
    rw [hx, hx', append_lt_append_iff] at hlt
    rw [hx, hx', ← hn, List.drop_left, List.drop_left, copyHash_raw, copyHash_raw]
    exact hlt
  mem {x} := by
    rw [List.mem_map]
    constructor
    · intro hx
      obtain ⟨kv, hkv, rfl⟩ := hx
      obtain ⟨hget, hpre⟩ := mem_scanned.mp hkv
      obtain ⟨x, hx⟩ := h _ _ hget hpre
      refine ⟨kv.2, ?_⟩
      rw [hx, ← hn, List.drop_left, copyHash_raw, ← hx]
      exact hget
    · intro hx
      obtain ⟨v, hv⟩ := hx
      refine ⟨(p ++ x.raw, v), mem_scanned.mpr ⟨hv, List.prefix_append _ _⟩, ?_⟩
      rw [← hn, List.drop_left, copyHash_raw]

/-- A scan of a prefix that is followed by a position in every key finds the
values in the order of their positions. -/
theorem scan_positions {p : Bytes} {values : List Bytes} (hlen : values.length < 256 ^ 8)
    (h : ∀ k v, p <+: k → (db[k]? = some v ↔ ∃ i, values[i]? = some v ∧ k = p ++ be 8 i)) :
    (db.scan p (GraphIndex.prefixUpperBound p)).map Prod.snd = values := by
  have hscan : db.scan p (GraphIndex.prefixUpperBound p) = values.zipIdx.map fun v => (p ++ be 8 v.2, v.1) := by
    have hirrefl : Std.Irrefl (fun a b : Bytes × Bytes => a.1 < b.1) := ⟨fun a => List.lt_irrefl _⟩
    have hantisymm : Std.Antisymm (fun a b : Bytes × Bytes => a.1 < b.1) :=
      ⟨fun a b hab hba => absurd (List.lt_trans hab hba) (List.lt_irrefl _)⟩
    have hasc : (values.zipIdx.map fun v => (p ++ be 8 v.2, v.1)).Pairwise (fun a b => a.1 < b.1) := by
      rw [List.pairwise_map, List.pairwise_iff_getElem]
      intro i j hi hj hij
      rw [List.length_zipIdx] at hi hj
      simp only [List.getElem_zipIdx, append_lt_append_iff, Nat.zero_add]
      exact be_lt_be (by omega) hij
    refine scan_ascending.eq_of_mem_iff hasc fun kv => ?_
    rw [mem_scanned]
    simp only [List.mem_map, List.mem_zipIdx_iff_getElem?, Prod.exists]
    constructor
    · intro hkv
      obtain ⟨i, hi, hk⟩ := (h _ _ hkv.2).mp hkv.1
      exact ⟨kv.2, i, hi, by rw [← hk]⟩
    · intro hkv
      obtain ⟨v, i, hi, rfl⟩ := hkv
      exact ⟨(h _ _ (List.prefix_append _ _)).mpr ⟨i, hi, rfl⟩, List.prefix_append _ _⟩
  rw [hscan, List.map_map]
  exact List.zipIdx_map_fst 0 values

end ArxDB.Proof.Go
