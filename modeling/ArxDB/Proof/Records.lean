import ArxDB.Proof.Serialization

/-!
# Records with the declared fields

A node and an edge whose fields have the types that their dataclasses declare
hold no dict, so they are read back from their bytes exactly. Different records
then have different bytes, and different addresses where these do not collide;
and a record of one kind is no record of the other (`records_faithful`).
-/

namespace ArxDB.Proof

open Impl

variable {P : Prims}

/-- The fields have the types that the dataclass declares. -/
structure TypedNode (n : Node) : Prop where
  claim : ∃ s, n.claim = .str s
  domain : ∃ s, n.domain = .str s
  polarity : ∃ b, n.polarity = .bool b

/-- The fields have the types that the dataclass declares. -/
structure TypedEdge (e : Edge) : Prop where
  rule : ∃ s, e.rule = .str s
  signerPubkey : ∃ b, e.signerPubkey = .bytes b

/-- What holds of the records that the dataclasses declare, where `cbor2` encodes them. -/
structure RecordsFaithful (P : Prims) : Prop where
  node_encodes {n : Node} (hbuilt : Built P n.toCanonical) (hdepth : Nested P.recursionLimit n.toCanonical)
    (hkeys : LeafKeys n.toCanonical) (htexts : n.toCanonical.Utf8) : ∃ b, n.nodeBytes P = .ok b
  edge_encodes {e : Edge} (hbuilt : Built P e.toCanonical) (hdepth : Nested P.recursionLimit e.toCanonical)
    (hkeys : LeafKeys e.toCanonical) (htexts : e.toCanonical.Utf8) : ∃ b, e.edgeBytes P = .ok b
  typedNode_encodes {n : Node} (hn : TypedNode n) (hroom : 3 ≤ P.recursionLimit) (hplain : n.toCanonical.Plain) :
    ∃ b, n.nodeBytes P = .ok b
  typedEdge_encodes {e : Edge} (he : TypedEdge e) (hroom : 3 ≤ P.recursionLimit) (hplain : e.toCanonical.Plain) :
    ∃ b, e.edgeBytes P = .ok b
  node_fromBytes {n : Node} {b : Bytes} (hn : TypedNode n) (hb : n.nodeBytes P = .ok b) : Node.fromBytes P b = .ok n
  edge_fromBytes {e : Edge} {b : Bytes} (he : TypedEdge e) (hb : e.edgeBytes P = .ok b) : Edge.fromBytes P b = .ok e
  node_ne {n n' : Node} {b b' : Bytes} (hn : TypedNode n) (hn' : TypedNode n') (hne : n ≠ n')
    (hb : n.nodeBytes P = .ok b) (hb' : n'.nodeBytes P = .ok b') :
    b ≠ b' ∧ (Set.InjOn P.hashBytes {b, b'} → n.nodeId P ≠ n'.nodeId P)
  edge_ne {e e' : Edge} {b b' : Bytes} (he : TypedEdge e) (he' : TypedEdge e') (hne : e ≠ e')
    (hb : e.edgeBytes P = .ok b) (hb' : e'.edgeBytes P = .ok b') :
    b ≠ b' ∧ (Set.InjOn P.hashBytes {b, b'} → e.edgeHash P ≠ e'.edgeHash P)
  node_not_edge {n : Node} {b : Bytes} (hb : n.nodeBytes P = .ok b) (e : Edge) : Edge.fromBytes P b ≠ .ok e
  edge_not_node {e : Edge} {b : Bytes} (hb : e.edgeBytes P = .ok b) (n : Node) : Node.fromBytes P b ≠ .ok n

theorem NodeSame.eq {n n' : Node} (h : NodeSame P n n') (hn : TypedNode n) : n' = n := by
  obtain ⟨claim, domain, polarity⟩ := n
  obtain ⟨claim', domain', polarity'⟩ := n'
  obtain ⟨⟨s, rfl⟩, ⟨t, rfl⟩, b, rfl⟩ := hn
  obtain rfl : claim' = .str s := restored_scalar rfl h.claim
  obtain rfl : domain' = .str t := restored_scalar rfl h.domain
  obtain rfl : polarity' = .bool b := restored_scalar rfl h.polarity
  rfl

theorem EdgeSame.eq {e e' : Edge} (h : EdgeSame P e e') (he : TypedEdge e) : e' = e := by
  obtain ⟨type, premises, conclusion, rule, proofHash, verdict, kappa, signerPubkey⟩ := e
  obtain ⟨type', premises', conclusion', rule', proofHash', verdict', kappa', signerPubkey'⟩ := e'
  obtain ⟨rfl, rfl, rfl, hrule, rfl, rfl, rfl, hsigner⟩ := h
  obtain ⟨⟨s, rfl⟩, b, rfl⟩ := he
  obtain rfl : rule' = .str s := restored_scalar rfl hrule
  obtain rfl : signerPubkey' = .bytes b := restored_scalar rfl hsigner
  rfl

/-- Records of values without parts and lists of them are their own canonical form. -/
theorem canonical_record {n : Nat} (hn : 3 ≤ n) (fields : List (String × Value)) (hne : (fields.map Prod.fst).Nodup)
    (h : ∀ f ∈ fields, f.2.scalar = true ∨ ∃ xs, f.2 = .list xs ∧ ∀ x ∈ xs, x.scalar = true) :
    Canonical P n (Value.record fields) := by
  obtain ⟨n, rfl⟩ := Nat.exists_eq_add_of_le' hn
  refine .dict (List.forall_mem_map.mpr fun _ _ => rfl) (distinct_record hne)
    (List.forall_mem_map.mpr fun _ _ => .scalar rfl) (List.forall_mem_map.mpr fun f hf => ?_)
  obtain hf | ⟨xs, hf, hxs⟩ := h f hf
  · exact .scalar hf
  · exact hf ▸ .list fun x hx => .scalar (hxs x hx)

theorem TypedNode.canonical {n : Node} (hn : TypedNode n) {k : Nat} (hk : 3 ≤ k) : Canonical P k n.toCanonical := by
  obtain ⟨⟨s, hs⟩, ⟨t, ht⟩, b, hb⟩ := hn
  refine canonical_record hk [("claim", n.claim), ("domain", n.domain), ("polarity", n.polarity)] (by simp) ?_
  simp [hs, ht, hb, Value.scalar]

theorem TypedEdge.canonical {e : Edge} (he : TypedEdge e) {k : Nat} (hk : 3 ≤ k) : Canonical P k e.toCanonical := by
  obtain ⟨⟨s, hs⟩, b, hb⟩ := he
  refine canonical_record hk [
    ("type", .str e.type.value),
    ("premises", .list (e.premises.map fun p : Hash => .bytes p.raw)),
    ("conclusion", .bytes e.conclusion.raw),
    ("rule", e.rule),
    ("proof_hash", Edge.proofHashValue e.proofHash),
    ("verdict", .str e.verdict.value),
    ("kappa", .str e.kappa.value),
    ("signer_pubkey", e.signerPubkey)] (by simp) ?_
  have hproof := scalar_proofHash e.proofHash
  have hpremises : ∀ x ∈ e.premises.map fun p : Hash => Value.bytes p.raw, x.scalar = true :=
    List.forall_mem_map.mpr fun _ _ => rfl
  simp only [List.forall_mem_cons, hs, hb]
  exact ⟨.inl rfl, .inr ⟨_, rfl, hpremises⟩, .inl rfl, .inl rfl, .inl hproof, .inl rfl, .inl rfl, .inl rfl, by simp⟩

theorem typedNode_fromBytes (hc : P.CborLaws) {n : Node} {b : Bytes} (hn : TypedNode n) (hb : n.nodeBytes P = .ok b) :
    Node.fromBytes P b = .ok n := by
  obtain ⟨n', hn', hsame, -⟩ := node_fromBytes hc hb
  rw [hn', hsame.eq hn]

theorem typedEdge_fromBytes (hc : P.CborLaws) {e : Edge} {b : Bytes} (he : TypedEdge e) (hb : e.edgeBytes P = .ok b) :
    Edge.fromBytes P b = .ok e := by
  obtain ⟨e', he', hsame, -⟩ := edge_fromBytes hc hb
  rw [he', hsame.eq he]

/-- Bytes that do not collide have the addresses that say which they are. -/
theorem hashBytes_map_ne {x x' : Except PyError Bytes} {b b' : Bytes} (hb : x = .ok b) (hb' : x' = .ok b')
    (hne : b ≠ b')
    (hinj : Set.InjOn P.hashBytes {b, b'}) : P.hashBytes <$> x ≠ P.hashBytes <$> x' := by
  intro h
  rw [hb, hb'] at h
  exact hne (hinj (by simp) (by simp) (Except.ok.inj h))

theorem records_faithful (hc : P.CborLaws) (hd : P.CborDefined) : RecordsFaithful P where
  node_encodes := exists_canonicalEncode hd
  edge_encodes := exists_canonicalEncode hd
  typedNode_encodes hn hroom hplain := exists_encode_canonical hd (hn.canonical hroom) hplain
  typedEdge_encodes he hroom hplain := exists_encode_canonical hd (he.canonical hroom) hplain
  node_fromBytes := typedNode_fromBytes hc
  edge_fromBytes := typedEdge_fromBytes hc
  node_ne {n n' b b'} hn hn' hne hb hb' := by
    have hbytes : b ≠ b' := by
      rintro rfl
      have hread := (typedNode_fromBytes hc hn hb).symm.trans (typedNode_fromBytes hc hn' hb')
      exact hne (Except.ok.inj hread)
    exact ⟨hbytes, hashBytes_map_ne hb hb' hbytes⟩
  edge_ne {e e' b b'} he he' hne hb hb' := by
    have hbytes : b ≠ b' := by
      rintro rfl
      have hread := (typedEdge_fromBytes hc he hb).symm.trans (typedEdge_fromBytes hc he' hb')
      exact hne (Except.ok.inj hread)
    exact ⟨hbytes, hashBytes_map_ne hb hb' hbytes⟩
  node_not_edge hb := node_not_edge hc hb
  edge_not_node hb := edge_not_node hc hb

section Example

open Reference

/-- An edge from two premises. -/
def exampleEdge : Edge where
  type := .numerical
  premises := [reference.hashBytes [1], reference.hashBytes [2]]
  conclusion := reference.hashBytes [3]
  rule := .str "r"
  proofHash := none
  verdict := .pass
  kappa := .k2
  signerPubkey := .bytes (List.replicate 32 7)

/-- Another order of the premises is another edge. -/
theorem swapped_premises_hash : exampleEdge.edgeHash reference ≠
    { exampleEdge with premises := exampleEdge.premises.reverse }.edgeHash reference := by
  set swapped : Edge := { exampleEdge with premises := exampleEdge.premises.reverse } with hswapped
  have hne : exampleEdge ≠ swapped := by
    intro h
    exact absurd (congrArg Edge.premises h) (by decide +kernel)
  have hbytes : ∀ b ∈ (exampleEdge.edgeBytes reference).toOption, ∀ b' ∈ (swapped.edgeBytes reference).toOption,
      reference.hashBytes b ≠ reference.hashBytes b' := by decide +kernel
  have hfst : ((exampleEdge.edgeBytes reference).toOption).isSome = true := by decide +kernel
  have hsnd : ((swapped.edgeBytes reference).toOption).isSome = true := by decide +kernel
  obtain ⟨b, hb⟩ := Option.isSome_iff_exists.mp hfst
  obtain ⟨b', hb'⟩ := Option.isSome_iff_exists.mp hsnd
  have hinj : Set.InjOn reference.hashBytes {b, b'} :=
    injOn_of_nodup [b, b'] (by simp) (by simpa using hbytes b hb b' hb')
  have htyped : TypedEdge exampleEdge := ⟨⟨_, rfl⟩, _, rfl⟩
  have hfaithful : RecordsFaithful reference := records_faithful reference_cborLaws reference_cborDefined
  exact (hfaithful.edge_ne htyped ⟨⟨_, rfl⟩, _, rfl⟩ hne (toOption_eq_some.mp hb) (toOption_eq_some.mp hb')).2 hinj

end Example

end ArxDB.Proof
