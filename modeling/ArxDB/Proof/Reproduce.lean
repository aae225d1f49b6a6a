import ArxDB.Proof.Attestation
import ArxDB.Proof.Pipeline

/-!
# Reproducing accepted edges

What an accepted edge leaves is never taken away: its blobs stay
(`Kept.blobs`), and the log begins with verified entries of which one is its
own (`Kept.log`), so the first entry with its hash is verified whatever is
appended later. From these records `verify` accepts again what it accepted
(`verify_agree`), as long as the checkers do, timeouts aside.
-/

namespace ArxDB.Proof

open Impl Failing

variable {P : Prims}

/-! ## Verifying again -/

/-- Checkers that answer the same of a proposal and of what is read back of it;
what passes under its timeout passes under the default one. -/
structure Agree (P : Prims) (q : Proposal) (checkers checkers' : Checkers) : Prop where
  predicates : List.Forall₂ (fun pred pred' => ∀ (ns : List Node) (n : Node) (rule : Value),
    List.Forall₂ (NodeSame P) q.premises ns → NodeSame P q.conclusion n → Restored P q.rule rule →
    pred q.premises q.conclusion q.rule q.edgeType = pred' ns n rule q.edgeType)
    checkers.predicates checkers'.predicates
  check {kind : CheckerKind} {ns : List Node} {n : Node} {rule : Value} {result : CheckerResult} :
    List.Forall₂ (NodeSame P) q.premises ns → NodeSame P q.conclusion n → Restored P q.rule rule →
    checkers.check kind q.premises q.conclusion q.rule q.proofBytes q.timeoutSeconds = .ok result →
    result.passed = true → checkers'.check kind ns n rule q.proofBytes defaultTimeout = .ok result

section Verify

variable {q : Proposal} {checkers checkers' : Checkers} (h : Agree P q checkers checkers') {ns : List Node} {n : Node}
  {rule : Value} (hns : List.Forall₂ (NodeSame P) q.premises ns) (hn : NodeSame P q.conclusion n)
  (hrule : Restored P q.rule rule)
include h hns hn hrule

theorem evaluate_agree : Verifier.evaluate checkers q.premises q.conclusion q.rule q.edgeType =
    Verifier.evaluate checkers' ns n rule q.edgeType := by
  have hfired : checkers.predicates.mapM (fun pred => pred q.premises q.conclusion q.rule q.edgeType) =
      checkers'.predicates.mapM (fun pred => pred ns n rule q.edgeType) := by
    have hp := h.predicates
    generalize checkers.predicates = preds at hp ⊢
    generalize checkers'.predicates = preds' at hp ⊢
    induction hp with
    | nil => rfl
    | cons hpred _ ih => rw [List.mapM_cons, List.mapM_cons, hpred ns n rule hns hn hrule, ih]
  rw [Verifier.evaluate, hfired]
  rfl

/-- What is accepted is accepted again, with the same verdict and strength. -/
theorem verify_agree {v : VerificationResult}
    (hv : Verifier.verify checkers q.premises q.conclusion q.rule q.edgeType q.proofBytes q.timeoutSeconds = .ok v)
    (hacc : v.rejected = false) : ∃ v', Verifier.verify checkers' ns n rule q.edgeType q.proofBytes defaultTimeout =
      .ok v' ∧ v'.verdict = v.verdict ∧ v'.kappa = v.kappa := by
  cases he : Verifier.evaluate checkers q.premises q.conclusion q.rule q.edgeType with
  | error e =>
    rw [Verifier.verify, he] at hv
    cases hv
  | ok elenchus =>
    have he' := (evaluate_agree h hns hn hrule).symm.trans he
    by_cases hveto : elenchus.verdict = .hardVeto
    · rw [verify_veto he hveto] at hv
      cases hv
      cases hacc
    cases hk : Verifier.checkerFor q.edgeType q.proofBytes with
    | none =>
      obtain ⟨w, hw, hverdict, hkappa⟩ := verify_unchecked he hveto hk
      obtain ⟨w', hw', hverdict', hkappa'⟩ := verify_unchecked he' hveto hk
      obtain rfl : v = w := Except.ok.inj (hv.symm.trans hw)
      exact ⟨w', hw', hverdict'.trans hverdict.symm, Except.ok.inj (hkappa'.symm.trans hkappa)⟩
    | some kind =>
      obtain ⟨r, hr, hpass, -⟩ := checked_of_accepted hv hacc hk
      have hr' := h.check hns hn hrule hr hpass
      rw [verify_checker he hveto hk, hr] at hv
      cases hv
      refine ⟨_, by rw [verify_checker he' hveto hk, hr']; rfl, ?_⟩
      simp only [concluded, hpass, if_true, acceptance, and_self]

end Verify

/-! ## What an accepted edge leaves -/

/-- The blobs of the `verify_and_commit` calls among these. -/
def verifiedBlobs (P : Prims) (calls : List StorageCall) : Set Bytes :=
  {m | ∃ c, .verifyAndCommit c ∈ calls ∧ m ∈ blobs P c}

/-- Whatever a call does, it puts blobs of its proposal and adds at most one entry. -/
theorem exec_grows (call : StorageCall) (s : Storage) :
    (∃ bs, (∀ b ∈ bs, b ∈ verifiedBlobs P [call]) ∧ (call.exec P s).objects = putAll P s.objects bs) ∧
      Extends P call.keys call.now s.log (call.exec P s).log := by
  cases call with
  | append keys now fault payload =>
    have key : WP (Storage.append P keys now payload) (fun _ s' => s'.objects = s.objects)
        (fun _ s' => s'.objects = s.objects) s := by
      refine append_wp.mono ?_ ?_
      · rintro e s' ⟨-, rfl⟩
        rfl
      · rintro - s' (rfl | ⟨e, -, rfl⟩) <;> rfl
    exact ⟨⟨[], by simp, key.state fault⟩, WP.state append_extends fault⟩
  | verifyAndCommit c =>
    have completes : ∀ {e data s'}, Completes P c s e data s' →
        (∃ bs, (∀ b ∈ bs, b ∈ verifiedBlobs P [.verifyAndCommit c]) ∧ s'.objects = putAll P s.objects bs) ∧
          Extends P c.keys c.now s.log s'.log := by
      intro e data s' h
      obtain ⟨-, -, entry, ha, rfl⟩ := h
      exact ⟨⟨blobs P c, fun b hb => ⟨c, by simp, hb⟩, rfl⟩, .inr ⟨_, entry, ha, rfl⟩⟩
    refine WP.state (I := fun s' => (∃ bs, (∀ b ∈ bs, b ∈ verifiedBlobs P [.verifyAndCommit c]) ∧
      s'.objects = putAll P s.objects bs) ∧ Extends P c.keys c.now s.log s'.log) (verifyAndCommit_wp.mono ?_ ?_) c.fault
    · rintro r s' (⟨-, -, rfl⟩ | ⟨e, data, -, h⟩)
      · exact ⟨⟨[], by simp, rfl⟩, .inl rfl⟩
      · exact completes h
    · rintro - s' (⟨bs, hbs, rfl⟩ | ⟨e, data, h⟩)
      · exact ⟨⟨bs, fun b hb => ⟨c, by simp, hbs.subset hb⟩, rfl⟩, .inl rfl⟩
      · exact completes h

/-- Objects under their own hashes, and a chain of verified entries. -/
structure Sound (P : Prims) (M : Set Bytes) (s : Storage) : Prop where
  addressed : Addressed P M s.objects
  log : ∃ es, s.log = es.map LogEntry.row ∧ Chain P es ∧ ∀ e ∈ es, AppendLog.verifyEntry P e = .ok true

theorem Sound.exec {M : Set Bytes} {s : Storage} (h : Sound P M s) {call : StorageCall}
    (hM : verifiedBlobs P [call] ⊆ M) (hk : P.KeyPair call.keys.priv call.keys.pub) : Sound P M (call.exec P s) := by
  obtain ⟨⟨bs, hbs, hobj⟩, hext⟩ := exec_grows (P := P) call s
  obtain ⟨es, hs, hc, hv⟩ := h.log
  refine ⟨hobj ▸ h.addressed.putAll fun b hb => hM (hbs b hb), ?_⟩
  rcases hext with hlog | ⟨payload, e, ha, hlog⟩
  · exact ⟨es, hlog.trans hs, hc, hv⟩
  · rw [hs] at ha hlog
    exact ⟨es ++ [e], by rw [hlog, List.map_append]; rfl, hc.append ha, forall_mem_concat hv (ha.verified hk)⟩

theorem run_sound {calls : List StorageCall} {M : Set Bytes} (hM : verifiedBlobs P calls ⊆ M)
    (hk : ∀ call ∈ calls, P.KeyPair call.keys.priv call.keys.pub) : Sound P M (StorageCall.run P calls) := by
  induction calls using List.reverseRecOn with
  | nil => exact ⟨.empty, [], rfl, .nil, by simp⟩
  | append_singleton calls call ih =>
    have hsub : ∀ {l : List StorageCall}, (∀ x ∈ l, x ∈ calls ++ [call]) → verifiedBlobs P l ⊆ M := by
      rintro l hl m ⟨c, hc, hm⟩
      exact hM ⟨c, hl _ hc, hm⟩
    have hrun : StorageCall.run P (calls ++ [call]) = call.exec P (StorageCall.run P calls) := List.foldl_concat ..
    rw [hrun]
    refine (ih (hsub fun x hx => List.mem_append_left _ hx) fun x hx => hk x (List.mem_append_left _ hx)).exec ?_ ?_
    · exact hsub fun x hx => by simp_all
    · exact hk call (by simp)

/-- The blobs of an accepted call are there, and the log begins with verified
entries, of which one is for the edge's bytes `data`. -/
structure Kept (P : Prims) (c : CommitCall) (data : Bytes) (s : Storage) : Prop where
  blobs : ∀ b ∈ Proof.blobs P c, Has P s.objects b
  log : ∃ es later, s.log = (es ++ later).map LogEntry.row ∧ Chain P (es ++ later) ∧
    (∀ e ∈ es, AppendLog.verifyEntry P e = .ok true) ∧ ∃ e ∈ es, e.payload = data

theorem Kept.exec {c : CommitCall} {data : Bytes} {s : Storage} (h : Kept P c data s) (call : StorageCall) :
    Kept P c data (call.exec P s) := by
  obtain ⟨⟨bs, -, hobj⟩, hext⟩ := exec_grows (P := P) call s
  obtain ⟨es, later, hs, hc, hv, hdata⟩ := h.log
  refine ⟨fun b hb => hobj ▸ (h.blobs b hb).putAll bs, ?_⟩
  rcases hext with hlog | ⟨payload, e, ha, hlog⟩
  · exact ⟨es, later, hlog.trans hs, hc, hv, hdata⟩
  · rw [hs] at ha hlog
    refine ⟨es, later ++ [e], ?_, ?_, hv, hdata⟩
    · simp [hlog]
    · rw [← List.append_assoc]
      exact hc.append ha

theorem Kept.foldl {c : CommitCall} {data : Bytes} {s : Storage} (h : Kept P c data s) (calls : List StorageCall) :
    Kept P c data (calls.foldl (StorageCall.exec P) s) := by
  induction calls generalizing s with
  | nil => exact h
  | cons call calls ih => exact ih (h.exec call)

/-- An accepted call leaves its blobs and its entry. -/
theorem Sound.kept {M : Set Bytes} {s : Storage} (h : Sound P M s) {c : CommitCall}
    (hM : Set.InjOn P.hashBytes M) (hsub : verifiedBlobs P [.verifyAndCommit c] ⊆ M)
    (hk : P.KeyPair c.keys.priv c.keys.pub) {e : Edge} {data : Bytes} {s' : Storage}
    (hs' : Completes P c s e data s') : Kept P c data s' := by
  obtain ⟨-, -, entry, ha, rfl⟩ := hs'
  obtain ⟨es, hs, hc, hv⟩ := h.log
  refine ⟨h.addressed.has_putAll hM fun b hb => hsub ⟨c, by simp, hb⟩, es ++ [entry], [], ?_, ?_, ?_, entry, by simp,
    ha.payload⟩
  · rw [List.append_nil, List.map_append, ← hs]
    rfl
  · rw [hs] at ha
    rw [List.append_nil]
    exact hc.append ha
  · exact forall_mem_concat hv (ha.verified hk)

/-! ## Reading the records back -/

theorem resolvable_eq_ok {s : Storage} {message : String} {k : Hash} {n : Node} (h : resolveNode P k s = some n) :
    Server.resolvable P s message k = .ok n := by
  simp only [Server.resolvable, h]

/-- Nodes whose blobs are there are read back by their hashes. -/
theorem resolvable_nodes (hc : P.CborLaws) {s : Storage} (message : String) {ns : List Node} {hs : List Hash}
    (h : ns.mapM (Node.nodeId P) = .ok hs) (hhas : ∀ b ∈ nodeBlobs P ns, Has P s.objects b) :
    ∃ ns', hs.mapM (Server.resolvable P s message) = .ok ns' ∧ List.Forall₂ (NodeSame P) ns ns' ∧
      ns'.mapM (Node.nodeId P) = .ok hs ∧ ∀ k ∈ hs, ∃ n, resolveNode P k s = some n ∧ n.nodeId P = .ok k := by
  induction ns generalizing hs with
  | nil =>
    cases h
    exact ⟨[], rfl, .nil, rfl, by simp⟩
  | cons n ns ih =>
    rw [List.mapM_cons] at h
    obtain ⟨k, hk, h⟩ := bind_eq_ok.mp h
    obtain ⟨ks, hks, h⟩ := bind_eq_ok.mp h
    cases h
    obtain ⟨b, hb, rfl⟩ := nodeId_eq_ok.mp hk
    have hblobs : nodeBlobs P (n :: ns) = b :: nodeBlobs P ns := by simp [nodeBlobs, toOption_eq_some.mpr hb]
    rw [hblobs, List.forall_mem_cons] at hhas
    obtain ⟨n', hn', same, hb'⟩ := resolveNode_of_has hc hb hhas.1
    obtain ⟨ns', hns', hsame, hids, hres⟩ := ih hks hhas.2
    have hid : n'.nodeId P = .ok (P.hashBytes b) := nodeId_eq_ok.mpr ⟨b, hb', rfl⟩
    refine ⟨n' :: ns', ?_, .cons same hsame, ?_, List.forall_mem_cons.mpr ⟨⟨n', hn', hid⟩, hres⟩⟩
    · rw [List.mapM_cons, resolvable_eq_ok hn', hns']
      rfl
    · rw [List.mapM_cons, hid, hids]
      rfl

/-- The proof is read back as it was given, also when it is empty or missing. -/
theorem Kept.proof {c : CommitCall} {e : Edge} {data : Bytes} {s : Storage} (h : Kept P c data s)
    (he : edge? P c = some e) (hd : e.edgeBytes P = .ok data) :
    e.proofHash.bind (ObjectStore.get s.objects) = c.proposal.proofBytes := by
  rw [(edge?_refs he).2.1]
  cases hp : c.proposal.proofBytes with
  | none => rfl
  | some proof => exact h.blobs proof (by rw [blobs_eq he hd, hp]; simp)

/-- The first entry with the hash of the edge is verified. -/
theorem Kept.findLogEntry {c : CommitCall} {data : Bytes} {s : Storage} (h : Kept P c data s) :
    ∃ entry, Attest.findLogEntry s (P.hashBytes data) = .ok (some entry) ∧
    AppendLog.verifyEntry P entry = .ok true := by
  obtain ⟨es, later, hs, hc, hv, entry, hentry, rfl⟩ := h.log
  have hsome : (es.find? (·.entryHash = P.hashBytes entry.payload)).isSome := by
    rw [List.find?_isSome]
    exact ⟨entry, hentry, by simpa using hc.hashed entry (List.mem_append_left _ hentry)⟩
  obtain ⟨first, hfirst⟩ := Option.isSome_iff_exists.mp hsome
  refine ⟨first, ?_, hv first (List.mem_of_find?_eq_some hfirst)⟩
  rw [hc.findLogEntry hs, List.find?_append, hfirst]
  rfl

/-- A key that is bound identifies an agent. -/
theorem identify_isSome {roster : Roster} {agent : String} {key : Bytes} (h : (agent, key) ∈ roster.entries) :
    (roster.identify (.bytes key)).isSome := by
  rw [Roster.identify, Option.isSome_map, List.find?_isSome]
  exact ⟨_, h, by simp⟩

/-- What the blobs of an accepted call decode to. -/
structure ReadBack (P : Prims) (c : CommitCall) (s : Storage) (data : Bytes) (e e' : Edge) (ns : List Node) (n : Node) :
    Prop where
  edge : resolveEdge P (P.hashBytes data) s = some e'
  same : EdgeSame P e e'
  edgeHash : e'.edgeHash P = .ok (P.hashBytes data)
  premises : e.premises.mapM (Server.resolvable P s "premise node not resolvable") = .ok ns
  samePremises : List.Forall₂ (NodeSame P) c.proposal.premises ns
  premiseHashes : ns.mapM (Node.nodeId P) = .ok e.premises
  conclusion : resolveNode P e.conclusion s = some n
  sameConclusion : NodeSame P c.proposal.conclusion n
  conclusionHash : n.nodeId P = .ok e.conclusion
  resolved : ∀ k ∈ e.conclusion :: e.premises, ∃ n, resolveNode P k s = some n ∧ n.nodeId P = .ok k

/-- A signer key is read back as it was given. -/
theorem signer_readBack {c : CommitCall} {e e' : Edge} {data : Bytes} {s : Storage} {ns : List Node} {n : Node}
    (he : edge? P c = some e) (hread : ReadBack P c s data e e' ns n) {key : Bytes}
    (hsigner : c.proposal.signerPubkey = .bytes key) : e'.signerPubkey = .bytes key := by
  have hsame := hread.same.signerPubkey
  obtain ⟨result, -, -, hs, -, k, -, rfl⟩ := edge?_eq_some.mp he
  change Restored P c.proposal.signerPubkey e'.signerPubkey at hsame
  rw [hsigner] at hsame
  exact restored_scalar rfl hsame

section Kept

variable {c : CommitCall} {e : Edge} {data : Bytes} {s : Storage} (h : Kept P c data s) (he : edge? P c = some e)
  (hd : e.edgeBytes P = .ok data)
include h he hd

theorem Kept.readBack (hc : P.CborLaws) : ∃ e' ns n, ReadBack P c s data e e' ns n := by
  have hblobs := blobs_eq he hd
  obtain ⟨result, -, -, hs, hhs, k, hk, rfl⟩ := edge?_eq_some.mp he
  have hnode : ∀ b ∈ nodeBlobs P (c.proposal.premises ++ [c.proposal.conclusion]), Has P s.objects b :=
    fun b hb => h.blobs b (hblobs ▸ List.mem_append_left _ hb)
  rw [nodeBlobs, List.filterMap_append] at hnode
  obtain ⟨e', hres, same, hbytes⟩ := resolveEdge_of_has hc hd (h.blobs data (by rw [hblobs]; simp))
  obtain ⟨ns, hns, hsame, hids, hnodes⟩ := resolvable_nodes hc "premise node not resolvable" hhs
    fun b hb => hnode b (List.mem_append_left _ hb)
  obtain ⟨b, hb, rfl⟩ := nodeId_eq_ok.mp hk
  have hhas : Has P s.objects b := hnode b (List.mem_append_right _ (by simp [toOption_eq_some.mpr hb]))
  obtain ⟨n, hn, hnsame, hnb⟩ := resolveNode_of_has hc hb hhas
  have hid : n.nodeId P = .ok (P.hashBytes b) := nodeId_eq_ok.mpr ⟨b, hnb, rfl⟩
  exact ⟨e', ns, n, hres, same, edgeHash_eq_ok.mpr ⟨data, hbytes, rfl⟩, hns, hsame, hids, hn, hnsame, hid,
    List.forall_mem_cons.mpr ⟨⟨n, hn, hid⟩, hnodes⟩⟩

theorem Kept.proofs (k : Hash) (hk : e.proofHash = some k) :
    ∃ proof, ObjectStore.get s.objects k = some proof ∧ P.hashBytes proof = k := by
  have hproof := h.proof he hd
  have href := (edge?_refs he).2.1
  rw [hk] at hproof href
  obtain ⟨proof, hp, rfl⟩ := Option.map_eq_some_iff.mp href.symm
  exact ⟨proof, hproof.trans hp, rfl⟩

variable {e' : Edge} {ns : List Node} {n : Node} (hread : ReadBack P c s data e e' ns n)
include hread

theorem Kept.attested {roster : Roster} {agent : String} {key : Bytes} (hsigner : c.proposal.signerPubkey = .bytes key)
    (hbound : (agent, key) ∈ roster.entries) :
    ∃ attestation, Attest.verifyEdgeAttestation P e' s roster = .ok attestation ∧ attestation.ok = true := by
  obtain ⟨entry, hfind, hvalid⟩ := h.findLogEntry
  refine ⟨_, verifyEdgeAttestation_eq roster hread.edgeHash hfind hvalid, ?_⟩
  rw [AttestationResult.ok, signer_readBack he hread hsigner, identify_isSome hbound, hread.same.proofHash]
  cases hp : e.proofHash with
  | none => rfl
  | some k =>
    obtain ⟨proof, hget, hpk⟩ := h.proofs he hd k hp
    simp [hget, Attest.intact, hpk]

/-- Verified again, by checkers that answer the same. -/
theorem Kept.verified {checkers : Checkers} (hcheck : Agree P c.proposal c.checkers checkers) :
    ∃ result, Verifier.verify checkers ns n e'.rule e'.type (e'.proofHash.bind (ObjectStore.get s.objects))
      defaultTimeout = .ok result ∧ result.verdict = e.verdict ∧ result.kappa = e.kappa := by
  have hproof := h.proof he hd
  obtain ⟨result, hver, hacc, hs, hhs, k, hk, rfl⟩ := edge?_eq_some.mp he
  rw [hread.same.proofHash, hread.same.type, hproof]
  exact verify_agree hcheck hread.samePremises hread.sameConclusion hread.same.rule hver hacc

end Kept

/-- The edge with the hash `h` is read back as `e`, its nodes and its proof are
there, it is attested, and verifying it again gives what it records. -/
structure Reproducible (P : Prims) (app : App) (checkers : Checkers) (s : Storage) (h : Hash) (e : Edge) : Prop where
  resolved : ∃ e', resolveEdge P h s = some e' ∧ EdgeSame P e e' ∧
    ∃ attestation, Attest.verifyEdgeAttestation P e' s app.roster = .ok attestation ∧ attestation.ok = true
  nodes : ∀ k ∈ e.conclusion :: e.premises, ∃ n, resolveNode P k s = some n ∧ n.nodeId P = .ok k
  proof : ∀ k, e.proofHash = some k → ∃ proof, ObjectStore.get s.objects k = some proof ∧ P.hashBytes proof = k
  reproduced : ∃ report, Server.reproduce P app checkers s h = .ok report ∧ report.reproduced = true ∧
    report.reVerified.verdict = e.verdict ∧ report.reVerified.kappa = e.kappa

theorem Kept.reproducible (hc : P.CborLaws) {c : CommitCall} {e : Edge} {data : Bytes} {s : Storage}
    (h : Kept P c data s) (he : edge? P c = some e) (hd : e.edgeBytes P = .ok data) {app : App} {agent : String}
    {key : Bytes} (hsigner : c.proposal.signerPubkey = .bytes key) (hbound : (agent, key) ∈ app.roster.entries)
    {checkers : Checkers} (hcheck : Agree P c.proposal c.checkers checkers) :
    Reproducible P app checkers s (P.hashBytes data) e := by
  obtain ⟨e', ns, n, hread⟩ := h.readBack he hd hc
  obtain ⟨attestation, hatt, hok⟩ := h.attested he hd hread hsigner hbound
  obtain ⟨result, hver, hverdict, hkappa⟩ := h.verified he hd hread hcheck
  refine ⟨⟨e', hread.edge, hread.same, attestation, hatt, hok⟩, hread.resolved, h.proofs he hd, ?_⟩
  have hpremises : e'.premises.mapM (Server.resolvable P s "premise node not resolvable") = .ok ns := by
    rw [hread.same.premises, hread.premises]
  have hconclusion : Server.resolvable P s "conclusion node not resolvable" e'.conclusion = .ok n := by
    rw [hread.same.conclusion]
    exact resolvable_eq_ok hread.conclusion
  have hsig : Server.signerHex e'.signerPubkey = .ok () := by
    rw [signer_readBack he hread hsigner]
    rfl
  have hreport : Server.reproduce P app checkers s (P.hashBytes data) = .ok {
      edge := e', embedded := (e'.verdict, e'.kappa), reVerified := result,
      verdictMatch := decide (result.verdict = e'.verdict), kappaMatch := decide (result.kappa = e'.kappa), attestation,
      reproduced := decide (result.verdict = e'.verdict) && decide (result.kappa = e'.kappa) && attestation.ok } := by
    simp only [Server.reproduce, hread.edge, hpremises, hconclusion, hver, hatt, hsig, hread.edgeHash,
      hread.premiseHashes, hread.conclusionHash, bind, Except.bind, pure, Except.pure]
  refine ⟨_, hreport, ?_, hverdict, hkappa⟩
  simp [hverdict, hkappa, hread.same.verdict, hread.same.kappa, hok]

/-! ## Every later state -/

/-- An edge that `verify_and_commit` accepted, for a signer that the roster
binds and on a storage whose key pairs match, is reproducible in every state
that later calls lead to, under whichever keys. -/
theorem accepted_reproducible (hc : P.CborLaws) (before after : List StorageCall) (c : CommitCall)
    (hM : Set.InjOn P.hashBytes (verifiedBlobs P (before ++ [.verifyAndCommit c])))
    (hk : ∀ call ∈ before ++ [.verifyAndCommit c], P.KeyPair call.keys.priv call.keys.pub)
    {r : CommitResult} (hr : ((c.prog P).exec c.fault (StorageCall.run P before)).1 = .ok r) {e : Edge} {h : Hash}
    (he : r.edge = some e) (hh : r.edgeHash = some h) {app : App} {agent : String} {key : Bytes}
    (hsigner : c.proposal.signerPubkey = .bytes key) (hbound : (agent, key) ∈ app.roster.entries)
    {checkers : Checkers} (hcheck : Agree P c.proposal c.checkers checkers) :
    Reproducible P app checkers (StorageCall.run P (before ++ .verifyAndCommit c :: after)) h e := by
  have hsub : ∀ {l : List StorageCall}, (∀ x ∈ l, x ∈ before ++ [.verifyAndCommit c]) →
      verifiedBlobs P l ⊆ verifiedBlobs P (before ++ [.verifyAndCommit c]) := by
    rintro l hl m ⟨c', hc', hm⟩
    exact ⟨c', hl _ hc', hm⟩
  have hsound : Sound P _ (StorageCall.run P before) :=
    run_sound (hsub fun x hx => List.mem_append_left _ hx) fun x hx => hk x (List.mem_append_left _ hx)
  have hexec : (c.prog P).exec c.fault (StorageCall.run P before) = (.ok r, c.exec P (StorageCall.run P before)) :=
    Prod.ext hr rfl
  rcases verifyAndCommit_wp.ok hexec with ⟨-, hnone, -⟩ | ⟨e', data, hacc, hcomp⟩
  · rw [hnone] at he
    cases he
  · have hedge := hacc.edge
    have hhash := hacc.edgeHash
    rw [he, Option.some.injEq] at hedge
    rw [hh, Option.some.injEq] at hhash
    subst hedge hhash
    have hkept := hsound.kept hM (hsub fun x hx => by simp_all) (hk (.verifyAndCommit c) (by simp)) hcomp
    have hrun : StorageCall.run P (before ++ .verifyAndCommit c :: after) =
        after.foldl (StorageCall.exec P) (c.exec P (StorageCall.run P before)) := by
      rw [StorageCall.run, List.foldl_append]
      rfl
    rw [hrun]
    exact (hkept.foldl after).reproducible hc hcomp.1 hcomp.2.1 hsigner hbound hcheck

section Example

open Reference

/-- Checkers that look at nothing agree with themselves. -/
theorem lenient_agree (q : Proposal) : Agree P q lenient lenient :=
  ⟨.nil, fun _ _ _ h _ => h⟩

/-- A citation with a premise twice and an empty proof. -/
def citation : CommitCall :=
  ⟨lenient, exampleApp.keys, 10, none,
    ⟨.bytes exampleApp.keys.pub, [mathNode "a", mathNode "a"], mathNode "b", .str "r", .citation, some [],
      defaultTimeout⟩⟩

/-- It is made after an append, and then once more. -/
theorem accepted_reproducible_citation : ∃ h e, Reproducible reference exampleApp lenient
    (StorageCall.run reference ([.append exampleApp.keys 5 none [1]] ++ .verifyAndCommit citation ::
      [.verifyAndCommit citation, .append exampleApp.keys 50 none [2]])) h e := by
  have haccepted : (((citation.prog reference).exec citation.fault
      (StorageCall.run reference [.append exampleApp.keys 5 none [1]])).1.toOption.bind fun r =>
        r.edge.bind fun _ => r.edgeHash).isSome = true := by decide +kernel
  obtain ⟨h, haccepted⟩ := Option.isSome_iff_exists.mp haccepted
  obtain ⟨r, hr, haccepted⟩ := Option.bind_eq_some_iff.mp haccepted
  obtain ⟨e, he, hh⟩ := Option.bind_eq_some_iff.mp haccepted
  have hM : Set.InjOn reference.hashBytes
      (verifiedBlobs reference ([.append exampleApp.keys 5 none [1]] ++ [.verifyAndCommit citation])) := by
    refine injOn_of_nodup (blobs reference citation).dedup ?_ (by decide +kernel)
    rintro m ⟨c, hc, hm⟩
    simp only [List.cons_append, List.nil_append, List.mem_cons, reduceCtorEq, StorageCall.verifyAndCommit.injEq,
      List.not_mem_nil, or_false, false_or] at hc
    rw [List.mem_dedup, ← hc]
    exact hm
  refine ⟨h, e, accepted_reproducible reference_cborLaws _ _ citation hM ?_ (toOption_eq_some.mp hr) he hh rfl
    (List.mem_cons_self : ("server", List.replicate 32 7) ∈ exampleApp.roster.entries) (lenient_agree _)⟩
  intro call hcall
  simp only [List.cons_append, List.nil_append, List.mem_cons, List.not_mem_nil, or_false] at hcall
  rcases hcall with rfl | rfl
  · exact reference_keyPair rfl
  · exact reference_keyPair rfl

end Example

end ArxDB.Proof
