import ArxDB.Proof.Go.Adjacency

/-!
# Prefix scans are exact

The upper bound of a prefix ends the keys that start with it, and a prefix that
has none is one that no larger key fails to start with. Every key of the
database is of one of the families, so a scan for a read of the graph finds the
keys of one family, and of one owner where the prefix names one
(`prefix_scans_exact`).
-/

namespace ArxDB.Proof.Go

open Impl (Bytes Hash Prims)
open Impl.Go

theorem prefixUpperBound_eq_none_iff {p : Bytes} : GraphIndex.prefixUpperBound p = none ↔ ∀ x ∈ p, x = 0xff := by
  induction p with
  | nil => simp [GraphIndex.prefixUpperBound]
  | cons x p ih =>
    rw [List.forall_mem_cons, ← ih, GraphIndex.prefixUpperBound]
    cases GraphIndex.prefixUpperBound p with
    | some ub => simp
    | none =>
      have hx : x < 0xff ↔ ¬ x = 0xff := by
        have := x.toNat_lt
        rw [UInt8.lt_iff_toNat_lt, ← UInt8.toNat_inj]
        simp
        omega
      simp [hx]

/-- The scan of the prefix finds the keys of the family. -/
def Selects (db : Pebble) (p : Bytes) (family : Key → Prop) : Prop :=
  ∀ kv, kv ∈ db.scan p (GraphIndex.prefixUpperBound p) ↔
    db[kv.1]? = some kv.2 ∧ ∃ key : Key, key.bytes = kv.1 ∧ family key

theorem Filed.selects {calls : List Registration} {db : Pebble} (h : Filed calls db) {p : Bytes} {family : Key → Prop}
    (hp : ∀ key : Key, p <+: key.bytes ↔ family key) : Selects db p family := by
  intro kv
  rw [mem_scanned]
  refine and_congr_right fun hkv => ?_
  obtain ⟨key, hkey⟩ := h.key hkv
  rw [← hkey, hp]
  constructor
  · exact fun hf => ⟨key, rfl, hf⟩
  · intro hf
    obtain ⟨key', hk, hf⟩ := hf
    exact Key.bytes_inj hk ▸ hf

/-- The scans of the graph's reads. -/
structure ScansExact (db : Pebble) : Prop where
  allNodes : Selects db ['n'.toUInt8] fun key => ∃ n, key = .node n
  allEdges : Selects db ['e'.toUInt8] fun key => ∃ e, key = .edge e
  getConnectivity (e : Hash) : Selects db (GraphIndex.premisePrefix e) fun key => ∃ pos, key = .premise e pos
  incomingEdges (n : Hash) : Selects db (GraphIndex.incomingPrefix n) fun key => ∃ e, key = .incoming n e
  outgoingEdges (n : Hash) : Selects db (GraphIndex.outgoingPrefix n) fun key => ∃ e, key = .outgoing n e

theorem Filed.scansExact {calls : List Registration} {db : Pebble} (h : Filed calls db) : ScansExact db where
  allNodes := h.selects fun key => ⟨Key.of_prefix_node, by rintro ⟨n, rfl⟩; exact ⟨_, rfl⟩⟩
  allEdges := h.selects fun key => ⟨Key.of_prefix_edge, by rintro ⟨e, rfl⟩; exact ⟨_, rfl⟩⟩
  getConnectivity e := h.selects fun key => ⟨Key.of_prefix_premise, by rintro ⟨pos, rfl⟩; exact ⟨_, rfl⟩⟩
  incomingEdges n := h.selects fun key => ⟨Key.of_prefix_incoming, by rintro ⟨e, rfl⟩; exact ⟨_, rfl⟩⟩
  outgoingEdges n := h.selects fun key => ⟨Key.of_prefix_outgoing, by rintro ⟨e, rfl⟩; exact ⟨_, rfl⟩⟩

theorem prefix_scans_exact :
    (∀ p k : Bytes, (∃ x ∈ p, x ≠ 0xff) →
      ∃ ub, GraphIndex.prefixUpperBound p = some ub ∧ (p <+: k ↔ p ≤ k ∧ k < ub)) ∧
    (∀ p k : Bytes, (∀ x ∈ p, x = 0xff) → GraphIndex.prefixUpperBound p = none ∧ (p <+: k ↔ p ≤ k)) ∧
    ∀ (P : Prims) (ops : List Op), ScansExact (Session.run P ops).storage.db := by
  refine ⟨fun p k hp => ?_, fun p k hp => ?_, fun P ops => (filed_run P ops).scansExact⟩
  · have hsome : GraphIndex.prefixUpperBound p ≠ none := by
      rw [ne_eq, prefixUpperBound_eq_none_iff]
      push Not
      exact hp
    obtain ⟨ub, hub⟩ := Option.ne_none_iff_exists'.mp hsome
    refine ⟨ub, hub, ?_⟩
    rw [prefix_iff_prefixUpperBound, hub]
    simp
  · have hnone := prefixUpperBound_eq_none_iff.mpr hp
    refine ⟨hnone, ?_⟩
    rw [prefix_iff_prefixUpperBound, hnone]
    simp

end ArxDB.Proof.Go
