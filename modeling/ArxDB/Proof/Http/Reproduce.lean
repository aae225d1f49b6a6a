import ArxDB.Proof.Http.History

/-!
# The hash of an answer, asked for again

What an accepted edge leaves is kept by every later request
(`kept_of_accepted`). So whoever takes the hash from the answer to `/commit` can
have the edge attested and reproduced from then on, with the proof that was
sent (`accepted_reproduces`).
-/

namespace ArxDB.Proof.Http

open Impl Impl.Http

variable {P : Prims} {L : Lib} {app : App}

/-! ## Requests that ask for a hash -/

variable (P app) in
theorem route_attest {r : HttpRequest} {t : Value} (hr : Asks L r "/attest" "edge_hash" t) (s : Storage) :
    ∃ body, body.getItem "edge_hash" = .ok t ∧ route P L app s r = (answer (attest P app s body), s) := by
  obtain ⟨hmethod, hpath, body, hbody, ht⟩ := hr
  refine ⟨body, ht, ?_⟩
  simp only [route, endpoint, hmethod, hpath, hbody, reduceCtorEq, false_and, true_and, if_false,
    show ("/attest" : String) ≠ "/query/reachable" by decide, show ("/attest" : String) ≠ "/query/path" by decide,
    show ("/attest" : String) ≠ "/reproduce" by decide, if_true]
  rfl

variable (P app) in
theorem route_reproduce {r : HttpRequest} {t : Value} (hr : Asks L r "/reproduce" "edge_hash" t) (s : Storage) :
    ∃ body, body.getItem "edge_hash" = .ok t ∧
      route P L app s r = (answer (reproduce P app r.checkers s body), s) := by
  obtain ⟨hmethod, hpath, body, hbody, ht⟩ := hr
  refine ⟨body, ht, ?_⟩
  simp only [route, endpoint, hmethod, hpath, hbody, reduceCtorEq, false_and, true_and, if_false,
    show ("/reproduce" : String) ≠ "/query/reachable" by decide, show ("/reproduce" : String) ≠ "/query/path" by decide,
    if_true]
  rfl

/-! ## What is kept -/

/-- The blobs and the entry of an accepted edge are there after all later requests. -/
theorem kept_of_accepted (hk : P.KeyPair app.keys.priv app.keys.pub) (before after : List HttpRequest) (r : HttpRequest)
    (hM : Set.InjOn P.hashBytes (storable P L app (before ++ [r]))) {t : Value}
    (ha : accepted (r, (route P L app (serve P L app before).storage r).1) = some t) :
    ∃ c e data, call? L app r = some c ∧ edge? P c = some e ∧ e.edgeBytes P = .ok data ∧
      t = h (some (P.hashBytes data)) ∧ Kept P c data (serve P L app (before ++ r :: after)).storage := by
  rcases route_outcome P L app (serve P L app before).storage r with
    ⟨hnone, -⟩ | ⟨c, e, data, hc, hcomp, hsome | ⟨hnone, -⟩⟩
  · rw [ha] at hnone
    cases hnone
  · rw [ha, Option.some.injEq] at hsome
    refine ⟨c, e, data, hc, hcomp.1, hcomp.2.1, hsome, ?_⟩
    have hkeys : c.keys = app.keys := by
      have hmem : StorageCall.verifyAndCommit c ∈ calls L app [r] := by
        rw [calls, List.filterMap_cons_some hc]
        exact List.mem_cons_self
      exact keys_of_mem_calls hmem
    have hsound : Sound P (storable P L app (before ++ [r])) (serve P L app before).storage := by
      rw [← run_calls]
      refine run_sound (verifiedBlobs_calls fun x hx => List.mem_append_left _ hx) fun call hcall => ?_
      rw [keys_of_mem_calls hcall]
      exact hk
    have hown : verifiedBlobs P [.verifyAndCommit c] ⊆ storable P L app (before ++ [r]) := by
      rintro m ⟨c', hc', hm⟩
      obtain rfl := StorageCall.verifyAndCommit.inj (List.mem_singleton.mp hc')
      exact ⟨c', List.mem_filterMap.mpr ⟨r, by simp, hc⟩, hm⟩
    have hkept := hsound.kept hM hown (by rw [hkeys]; exact hk) hcomp
    have hrun : (serve P L app (before ++ r :: after)).storage =
        (calls L app after).foldl (StorageCall.exec P) (route P L app (serve P L app before).storage r).2 := by
      rw [← run_calls, calls, List.filterMap_append, List.filterMap_cons_some hc, List.map_append, List.map_cons,
        StorageCall.run, List.foldl_append, List.foldl_cons, ← calls, ← StorageCall.run, run_calls, route_storage, hc]
      rfl
    rw [hrun]
    exact hkept.foldl _
  · rw [ha] at hnone
    cases hnone

/-! ## The answers -/

/-- What `/attest` answers about the hash `k`. -/
def attestRecord (k : Hash) (a : AttestationResult) : Value := .record [
  ("edge_hash", h (some k)), ("signer_agent_id", agentValue a.signerAgentId),
  ("signature_valid", .bool a.signatureValid), ("proof_bound", .bool a.proofBound),
  ("proof_intact", .bool a.proofIntact), ("ok", .bool a.ok)]

theorem jsonable_agent (agent : Option String) : (agentValue agent).jsonable = true := by cases agent <;> rfl

theorem jsonable_attest (k : Hash) (a : AttestationResult) : (attestRecord k a).jsonable = true := by
  apply jsonable_record
  simp only [List.forall_mem_cons, List.not_mem_nil, false_implies, implies_true, and_true]
  exact ⟨jsonable_h _, jsonable_agent _, rfl, rfl, rfl, rfl⟩

theorem attest_eq {s : Storage} {body : Value} {k : Hash} {a : AttestationResult}
    (hb : body.getItem "edge_hash" = .ok (h (some k))) (ha : Server.attest P app s k = .ok a) :
    attest P app s body = .ok (attestRecord k a) := by
  simp only [attest, hb, hexToHash_h, ha, bind, Except.bind]
  rfl

section Answers

variable {c : CommitCall} {e e' : Edge} {data : Bytes} {s : Storage} {ns : List Node} {n : Node} {key : Bytes}
  {agent : String} (hkept : Kept P c data s) (he : edge? P c = some e) (hd : e.edgeBytes P = .ok data)
  (hread : ReadBack P c s data e e' ns n) (hsigner : c.proposal.signerPubkey = .bytes key)
  (hbound : (agent, key) ∈ app.roster.entries)
include hkept he hd hread hsigner hbound

theorem attestation_of_kept : ∃ a, Attest.verifyEdgeAttestation P e' s app.roster = .ok a ∧ a.ok = true ∧
    a.signerAgentId = app.roster.identify c.proposal.signerPubkey := by
  obtain ⟨entry, hfind, hvalid⟩ := hkept.findLogEntry
  obtain ⟨a, ha, hok⟩ := hkept.attested he hd hread hsigner hbound
  refine ⟨a, ha, hok, ?_⟩
  rw [verifyEdgeAttestation_eq app.roster hread.edgeHash hfind hvalid, Except.ok.injEq] at ha
  rw [← ha, signer_readBack he hread hsigner, hsigner]

/-- `/attest` answers that the edge is attested. -/
theorem attest_of_kept {body : Value} (hb : body.getItem "edge_hash" = .ok (h (some (P.hashBytes data)))) :
    ∃ v, answer (attest P app s body) = ⟨200, v⟩ ∧ v.getItem "ok" = .ok (.bool true) ∧
      v.getItem "signer_agent_id" = .ok (agentValue (app.roster.identify c.proposal.signerPubkey)) ∧
      v.getItem "edge_hash" = .ok (h (some (P.hashBytes data))) := by
  obtain ⟨a, ha, hok, hagent⟩ := attestation_of_kept hkept he hd hread hsigner hbound
  have hserver : Server.attest P app s (P.hashBytes data) = .ok a := by
    rw [Server.attest, hread.edge]
    exact ha
  refine ⟨attestRecord (P.hashBytes data) a, ?_, ?_, ?_, rfl⟩
  · rw [attest_eq hb hserver, answer, if_pos (jsonable_attest _ _)]
  · rw [← hok]
    rfl
  · rw [← hagent]
    rfl

/-- `/reproduce` answers that the edge is reproduced, with the proof that was sent. -/
theorem reproduce_of_kept {checkers : Checkers} (hcheck : Agree P c.proposal c.checkers checkers)
    (hjson : JsonProposal c.proposal)
    {body : Value} (hb : body.getItem "edge_hash" = .ok (h (some (P.hashBytes data)))) :
    ∃ v, answer (reproduce P app checkers s body) = ⟨200, v⟩ ∧ v.getItem "reproduced" = .ok (.bool true) ∧
      v.getItem "proof" = .ok (proofValue c.proposal.proofBytes) := by
  obtain ⟨a, ha, hok, -⟩ := attestation_of_kept hkept he hd hread hsigner hbound
  obtain ⟨result, hver, hverdict, hkappa⟩ := hkept.verified he hd hread hcheck
  have hpremises : e'.premises.mapM (Server.resolvable P s "premise node not resolvable") = .ok ns := by
    rw [hread.same.premises, hread.premises]
  have hconclusion : Server.resolvable P s "conclusion node not resolvable" e'.conclusion = .ok n := by
    rw [hread.same.conclusion]
    exact resolvable_eq_ok hread.conclusion
  have hproof : e'.proofHash.bind (ObjectStore.get s.objects) = c.proposal.proofBytes := by
    rw [hread.same.proofHash]
    exact hkept.proof he hd
  rw [hproof] at hver
  have hrule : e'.rule.jsonable = true := by
    obtain ⟨_, -, -, _, -, _, -, rfl⟩ := edge?_eq_some.mp he
    exact jsonable_restored hread.same.rule hjson.rule
  have hnode : JsonNode n := NodeSame.json hread.sameConclusion (hjson.nodes _ (by simp))
  obtain ⟨dicts, hdicts⟩ : ∃ dicts, List.Forall₂ (fun n d => nodeToDict P n = .ok d ∧ d.jsonable = true) ns dicts := by
    refine forall₂_of_exists fun n' hn' => ?_
    obtain ⟨n₀, hn₀, same⟩ := exists_of_forall₂ hread.samePremises hn'
    obtain ⟨k, -, hk⟩ := exists_of_forall₂ (List.Forall₂.flip (mapM_eq_ok_iff.mp hread.premiseHashes)) hn'
    exact ⟨_, nodeToDict_eq hk, jsonable_node (NodeSame.json same (hjson.nodes n₀ (List.mem_append_left _ hn₀))) k⟩
  have hmapM : ns.mapM (nodeToDict P) = .ok dicts := mapM_eq_ok_iff.mpr (hdicts.imp fun _ _ h => h.1)
  have hproofJson : (proofValue c.proposal.proofBytes).jsonable = true := by cases c.proposal.proofBytes <;> rfl
  have hvm : decide (result.verdict = e'.verdict) = true := by simp [hverdict, hread.same.verdict]
  have hkm : decide (result.kappa = e'.kappa) = true := by simp [hkappa, hread.same.kappa]
  refine ⟨.record [
    ("edge", edgeRecord e' key (P.hashBytes data)), ("premises", .list dicts), ("conclusion", .record [
      ("claim", n.claim), ("domain", n.domain), ("polarity", n.polarity), ("node_id", h (some e.conclusion))]),
    ("rule", e'.rule), ("proof", proofValue c.proposal.proofBytes),
    ("embedded", .record [("verdict", .str e'.verdict.value), ("kappa", .str e'.kappa.value)]),
    ("re_verified", verificationToDict result), ("verdict_match", .bool true), ("kappa_match", .bool true),
    ("attestation", .record [
      ("signer_agent_id", agentValue a.signerAgentId), ("signature_valid", .bool a.signatureValid),
      ("proof_bound", .bool a.proofBound), ("proof_intact", .bool a.proofIntact), ("ok", .bool true)]),
    ("reproduced", .bool true)], ?_, rfl, rfl⟩
  have hsignerDict := edgeToDict_eq (signer_readBack he hread hsigner) hread.edgeHash
  simp only [reproduce, hb, hexToHash_h, hread.edge, hpremises, hconclusion, hproof, hver, ha, hsignerDict, hmapM,
    nodeToDict_eq hread.conclusionHash, hvm, hkm, hok, bind, Except.bind, pure, Except.pure, Bool.and_self]
  rw [answer, if_pos]
  apply jsonable_record
  simp only [List.forall_mem_cons, List.not_mem_nil, false_implies, implies_true, and_true]
  refine ⟨jsonable_edge hrule key _, ?_, jsonable_node hnode _, hrule, hproofJson, rfl, rfl, rfl, rfl, ?_, rfl⟩
  · rw [jsonable_list]
    intro d hd
    obtain ⟨_, -, hd⟩ := exists_of_forall₂ hdicts hd
    exact hd.2
  · apply jsonable_record
    simp only [List.forall_mem_cons, List.not_mem_nil, false_implies, implies_true, and_true]
    exact ⟨jsonable_agent _, rfl, rfl, rfl, rfl⟩

end Answers

/-- A proposal was sent with this proof, of which the answer has the text. -/
def ProofText (proof : Option Bytes) (v : Value) : Prop :=
  match proof with
  | some b => ∃ text, v = .ofChars text ∧ Base64.decode text = some b
  | none => v = .none

theorem proofText (proof : Option Bytes) : ProofText proof (proofValue proof) := by
  cases proof with
  | none => rfl
  | some b => exact ⟨Base64.encode b, rfl, Base64.decode_encode b⟩

/-- The proposal of a call is that of its request. -/
theorem call?_eq {r : HttpRequest} {c : CommitCall} (hcall : call? L app r = some c) {q : Proposal}
    (hq : readBody L r.body >>= proposal L app = .ok q) : c = ⟨r.checkers, app.keys, r.now, r.fault, q⟩ := by
  unfold call? at hcall
  split_ifs at hcall
  rw [hq] at hcall
  exact (Option.some.inj hcall).symm

/-- Wherever the blobs and the entry of an edge are kept, an application whose
roster binds its signer answers that it is attested and reproduced. -/
theorem answers_of_kept (hc : P.CborLaws) (hL : LoadsJson L) {author : App} {r : HttpRequest} {c : CommitCall}
    (hcall : call? L author r = some c) {q : Proposal} (hq : readBody L r.body >>= proposal L author = .ok q) {e : Edge}
    {data : Bytes} (he : edge? P c = some e) (hd : e.edgeBytes P = .ok data) {s : Storage} (hkept : Kept P c data s)
    {agent : String} {key : Bytes} (hsigner : q.signerPubkey = .bytes key)
    (hbound : (agent, key) ∈ app.roster.entries) :
    (∀ a, Asks L a "/attest" "edge_hash" (h (some (P.hashBytes data))) →
      ∃ v, (route P L app s a).1 = ⟨200, v⟩ ∧ v.getItem "ok" = .ok (.bool true) ∧
        v.getItem "edge_hash" = .ok (h (some (P.hashBytes data))) ∧
        v.getItem "signer_agent_id" = .ok (agentValue (app.roster.identify (.bytes key)))) ∧
    ∀ b, Asks L b "/reproduce" "edge_hash" (h (some (P.hashBytes data))) → Agree P q r.checkers b.checkers →
      ∃ v proof, (route P L app s b).1 = ⟨200, v⟩ ∧ v.getItem "reproduced" = .ok (.bool true) ∧
        v.getItem "proof" = .ok proof ∧ ProofText q.proofBytes proof := by
  have hjson := call?_json hL hcall
  obtain rfl := call?_eq hcall hq
  obtain ⟨e', ns, n, hread⟩ := hkept.readBack he hd hc
  refine ⟨fun a hasks => ?_, fun b hasks hcheck => ?_⟩
  · obtain ⟨body, hb, hroute⟩ := route_attest P app hasks s
    obtain ⟨v, hv, hok, hagent, hhash⟩ := attest_of_kept hkept he hd hread hsigner hbound hb
    exact ⟨v, by rw [hroute, hv], hok, hhash, hsigner ▸ hagent⟩
  · obtain ⟨body, hb, hroute⟩ := route_reproduce P app hasks s
    obtain ⟨v, hv, hrep, hproof⟩ := reproduce_of_kept hkept he hd hread hsigner hbound hcheck hjson hb
    exact ⟨v, _, by rw [hroute, hv], hrep, hproof, proofText _⟩

/-- The hash that `/commit` answers for an accepted edge, whose signer the
roster binds, is good for every later state: whatever is requested in between,
`/attest` of it answers that the edge is attested, under the signer's agent,
and `/reproduce` of it, by checkers that answer the same, that it is
reproduced, with the text of the proof that was sent. -/
theorem accepted_reproduces (hc : P.CborLaws) (hL : LoadsJson L) (hk : P.KeyPair app.keys.priv app.keys.pub)
    (before after : List HttpRequest) (r : HttpRequest)
    (hM : Set.InjOn P.hashBytes (storable P L app (before ++ [r]))) {t : Value}
    (ha : accepted (r, (route P L app (serve P L app before).storage r).1) = some t) {q : Proposal}
    (hq : readBody L r.body >>= proposal L app = .ok q) {agent : String} {key : Bytes}
    (hsigner : q.signerPubkey = .bytes key) (hbound : (agent, key) ∈ app.roster.entries) :
    (∀ a, Asks L a "/attest" "edge_hash" t →
      ∃ v, (route P L app (serve P L app (before ++ r :: after)).storage a).1 = ⟨200, v⟩ ∧
        v.getItem "ok" = .ok (.bool true) ∧ v.getItem "edge_hash" = .ok t ∧
        v.getItem "signer_agent_id" = .ok (agentValue (app.roster.identify (.bytes key)))) ∧
    ∀ b, Asks L b "/reproduce" "edge_hash" t → Agree P q r.checkers b.checkers →
      ∃ v proof, (route P L app (serve P L app (before ++ r :: after)).storage b).1 = ⟨200, v⟩ ∧
        v.getItem "reproduced" = .ok (.bool true) ∧ v.getItem "proof" = .ok proof ∧ ProofText q.proofBytes proof := by
  obtain ⟨c, e, data, hcall, he, hd, rfl, hkept⟩ := kept_of_accepted hk before after r hM ha
  exact answers_of_kept hc hL hcall hq he hd hkept hsigner hbound

section Example

open Reference

/-- The text of the hash of the example's last edge. -/
def lastHash : String := String.ofList
  ((serve reference (exampleLib exampleBodies) exampleApp exampleRequests).storage.log.getLast?.elim []
    fun row => row.entryHash.flatMap hexByte)

/-- The bodies of the example, and one that asks for this hash. -/
def askingBodies : List Value := exampleBodies ++ [.record [("edge_hash", .str lastHash)]]

theorem askingBodies_json : LoadsJson (exampleLib askingBodies) := exampleLib_json (by decide +kernel)

theorem eq_str_of_any {o : Option Value} {s : String} (ho : o.any (·.isStr s) = true) : o = some (.str s) := by
  rcases o with _ | v
  · cases ho
  · cases v
    case str t => rw [beq_iff_eq.mp ho]
    all_goals cases ho

/-- The last of the example's citations, asked for after it was made once more. -/
theorem accepted_reproduces_cited : ∃ v proof,
    (route reference (exampleLib askingBodies) exampleApp
      (serve reference (exampleLib askingBodies) exampleApp (exampleRequests.dropLast ++ request .POST "/commit" 1 ::
        [request .POST "/commit" 1])).storage (request .POST "/reproduce" 3)).1 = ⟨200, v⟩ ∧
    v.getItem "reproduced" = .ok (.bool true) ∧ v.getItem "proof" = .ok proof ∧
    ProofText (some [0x70, 0x72, 0x6f, 0x6f, 0x66]) proof := by
  have haccepted : accepted (request .POST "/commit" 1, (route reference (exampleLib askingBodies) exampleApp
      (serve reference (exampleLib askingBodies) exampleApp exampleRequests.dropLast).storage
        (request .POST "/commit" 1)).1) =
        some (.str lastHash) := eq_str_of_any (by decide +kernel)
  have hM : Set.InjOn reference.hashBytes (storable reference (exampleLib askingBodies) exampleApp
      (exampleRequests.dropLast ++ [request .POST "/commit" 1])) := callBlobs_injOn (by decide +kernel)
  have hq : readBody (exampleLib askingBodies) (request .POST "/commit" 1).body >>=
      proposal (exampleLib askingBodies) exampleApp = .ok ⟨.bytes (List.replicate 32 7), [mathNode "a"], mathNode "b",
        .str "", .citation, some [0x70, 0x72, 0x6f, 0x6f, 0x66], defaultTimeout⟩ := rfl
  have hasks : Asks (exampleLib askingBodies) (request .POST "/reproduce" 3) "/reproduce" "edge_hash"
      (.str lastHash) :=
    ⟨rfl, by decide, _, rfl, rfl⟩
  exact (accepted_reproduces reference_cborLaws askingBodies_json (reference_keyPair rfl) exampleRequests.dropLast
    [request .POST "/commit" 1] (request .POST "/commit" 1) hM haccepted hq rfl
    (List.mem_cons_self : ("server", List.replicate 32 7) ∈ exampleApp.roster.entries)).2 _ hasks (lenient_agree _)

end Example

end ArxDB.Proof.Http
