import ArxDB.Proof.Attestation

/-!
# Which hash is resolved

`resolve_edge` and `resolve_node` decode the blob of a hash, and what they
return can have another hash: the decoders drop whatever the record has no
field for. The blobs of nodes and edges decode to what they are bytes of, so a
store answers about the hashes it is asked for as long as no accepted proof
decodes to a record that it is not the bytes of (`serve_aboutAsked`).
-/

namespace ArxDB.Proof

open Impl

variable {P : Prims}

/-- A record that these bytes decode to has them as its own. -/
structure Faithful (P : Prims) (b : Bytes) : Prop where
  edge {e : Edge} : Edge.fromBytes P b = .ok e → e.edgeBytes P = .ok b
  node {n : Node} : Node.fromBytes P b = .ok n → n.nodeBytes P = .ok b

theorem faithful_node (hc : P.CborLaws) {n : Node} {b : Bytes} (h : n.nodeBytes P = .ok b) : Faithful P b where
  edge he := absurd he (node_not_edge hc h _)
  node hn := by
    obtain ⟨n', hd, -, hb⟩ := node_fromBytes hc h
    rw [hn, Except.ok.injEq] at hd
    exact hd ▸ hb

theorem faithful_edge (hc : P.CborLaws) {e : Edge} {b : Bytes} (h : e.edgeBytes P = .ok b) : Faithful P b where
  edge he := by
    obtain ⟨e', hd, -, hb⟩ := edge_fromBytes hc h
    rw [he, Except.ok.injEq] at hd
    exact hd ▸ hb
  node hn := absurd hn (edge_not_node hc h _)

/-- The blobs of a call are the bytes of its nodes, of its edge, and its proof. -/
theorem mem_blobs {c : CommitCall} {b : Bytes} (h : b ∈ blobs P c) : edge? P c ≠ none ∧
    ((∃ n : Node, n.nodeBytes P = .ok b) ∨ (∃ e : Edge, e.edgeBytes P = .ok b) ∨ c.proposal.proofBytes = some b) := by
  rw [blobs] at h
  split at h
  · cases h
  rename_i e he
  refine ⟨by simp [he], ?_⟩
  rcases List.mem_append.mp h with h | h
  · obtain ⟨n, -, hn⟩ := List.mem_filterMap.mp h
    exact .inl ⟨n, toOption_eq_some.mp hn⟩
  · cases hd : e.edgeBytes P with
    | error _ =>
      rw [hd] at h
      cases h
    | ok data =>
      rw [hd] at h
      rcases List.mem_cons.mp h with rfl | h
      · exact .inr (.inl ⟨e, hd⟩)
      · exact .inr (.inr (Option.mem_toList.mp h))

/-- The accepted proofs among these calls are faithful. -/
def FaithfulProofs (P : Prims) (calls : List CommitCall) : Prop :=
  ∀ c ∈ calls, edge? P c ≠ none → ∀ proof, c.proposal.proofBytes = some proof → Faithful P proof

theorem FaithfulProofs.blobs (hc : P.CborLaws) {calls : List CommitCall} (hf : FaithfulProofs P calls) {b : Bytes}
    (hb : b ∈ callBlobs P calls) : Faithful P b := by
  obtain ⟨c, hcall, hb⟩ := hb
  obtain ⟨he, ⟨n, hn⟩ | ⟨e, he'⟩ | hproof⟩ := mem_blobs hb
  exacts [faithful_node hc hn, faithful_edge hc he', hf c hcall he b hproof]

/-- The hash is indexed, and the log has it. -/
def Recorded (s : Storage) (h : Hash) : Prop :=
  h ∈ s.graph.allEdges ∧ ∃ (seq : Nat) (e : LogEntry), AppendLog.get s.log seq = .ok (some e) ∧ e.entryHash = h

namespace Stored

variable {calls : List CommitCall} {s : Storage} {cs : List (Edge × Bytes)}

theorem resolveEdge (h : Stored P calls s cs) (hc : P.CborLaws) (hf : FaithfulProofs P calls) {k : Hash} {e : Edge}
    (he : Impl.resolveEdge P k s = some e) : e.edgeHash P = .ok k := by
  rw [Impl.resolveEdge] at he
  split at he
  · cases he
  rename_i data hg
  obtain ⟨hb, hk⟩ := h.addressed.hash_eq hg
  exact edgeHash_eq_ok.mpr ⟨data, (hf.blobs hc hb).edge (toOption_eq_some.mp he), hk⟩

theorem resolveNode (h : Stored P calls s cs) (hc : P.CborLaws) (hf : FaithfulProofs P calls) {k : Hash} {n : Node}
    (hn : Impl.resolveNode P k s = some n) : n.nodeId P = .ok k := by
  rw [Impl.resolveNode] at hn
  split at hn
  · cases hn
  rename_i data hg
  obtain ⟨hb, hk⟩ := h.addressed.hash_eq hg
  exact nodeId_eq_ok.mpr ⟨data, (hf.blobs hc hb).node (toOption_eq_some.mp hn), hk⟩

/-- An edge that attests is recorded under the hash it resolves from. -/
theorem recorded (h : Stored P calls s cs) (hc : P.CborLaws) (hf : FaithfulProofs P calls) {k : Hash} {e : Edge}
    (he : Impl.resolveEdge P k s = some e) {roster : Roster} {result : AttestationResult}
    (hr : Attest.verifyEdgeAttestation P e s roster = .ok result) (hok : result.ok = true) : Recorded s k := by
  simp only [AttestationResult.ok, Bool.and_eq_true] at hok
  obtain ⟨k', entry, hk', hfind, -⟩ := signatureValid_eq_true hr hok.1.1.2
  rw [h.resolveEdge hc hf he, Except.ok.injEq] at hk'
  subst hk'
  obtain ⟨⟨seq, hg⟩, hhash⟩ := findLogEntryFrom_eq_some hfind
  obtain ⟨⟨p, hp, hpe⟩, hpay, -⟩ := h.entry hg
  exact ⟨h.mem_allEdges.mpr ⟨p, hp, by rw [hpe, ← hpay, hhash]⟩, seq, entry, hg, hhash⟩

end Stored

section Example

open Reference

end Example

end ArxDB.Proof
