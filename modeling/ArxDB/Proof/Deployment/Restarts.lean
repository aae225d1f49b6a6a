import ArxDB.Proof.Deployment.Boots

/-!
# Accepted edges and restarts

What a server has stored when it accepts an edge is kept by everything that
is run on its directory afterwards (`kept_of_accepted`), and a later server
binds whom it bound. So the hash of the answer is good for every server that
is ever started on the directory (`accepted_outlives_restarts`).
-/

namespace ArxDB.Proof.Deployment

open Impl Impl.DataRoot Failing Prog

variable {P : Prims} {L : Lib} {corpus : Corpus}

/-- What an application has stored after these requests. -/
def storedAt (P : Prims) (L : Lib) (app : App) (root : DataRoot) (m : ServeMain)
    (requests : List HttpRequest) : Storage :=
  (requests.foldl (Http.serveOne P L app) ⟨(m.started P root).storage, []⟩).storage

theorem storedAt_calls {app : App} {root : DataRoot} {m : ServeMain} (requests : List HttpRequest) :
    storedAt P L app root m requests =
      (Http.calls L app requests).foldl (StorageCall.exec P) (m.started P root).storage := served_calls requests _

/-- What is kept is kept by whole sessions. -/
theorem Session.kept {M : Set Bytes} {s s' : Storage} (h : Session P M s s') {c : CommitCall} {data : Bytes}
    (hkept : Kept P c data s) : Kept P c data s' := by
  obtain ⟨calls, -, -, rfl⟩ := h
  exact hkept.foldl calls

theorem Session.sound {M : Set Bytes} {s : Storage} (h : Session P M .empty s) : Sound P M s := by
  obtain ⟨calls, hk, hM, rfl⟩ := h
  exact run_sound hM hk

theorem exec_serve {root : DataRoot} {m : ServeMain} {app : App} (happ : m.app? P root = some app) :
    (Boot.exec P L corpus root (.serve m)).storage = storedAt P L app root m m.requests := by
  show (m.exec P L root).storage = _
  rw [ServeMain.exec, happ]
  rfl

section Cbor

variable (hc : P.CborLaws) (ht : P.CborTruncated)
include hc ht

/-- The key pair of a server is in its file from then on. -/
theorem server_held {before : List Boot} {m : ServeMain} (hg : ∀ b ∈ before ++ [.serve m], Generates P b) {app : App}
    (happ : m.app? P (Boot.run P L corpus before) = some app) :
    Holds P (Boot.run P L corpus (before ++ [.serve m])) .serverKeypair app.keys ∧ app.signerPubkey = app.keys.pub := by
  rw [List.forall_mem_append, List.forall_mem_singleton] at hg
  have hroot := run_directory L corpus hc ht hg.1
  have hstarts := starts_of_app? hc ht hroot hg.2 happ
  have hlater := started_later L corpus hc ht hroot hg.2 (List.forall_mem_nil _)
  rw [run_append]
  exact ⟨hlater.server hstarts.keys, hstarts.signer⟩

/-- What a server has stored comes from what was run before and its requests. -/
theorem storedAt_session {before : List Boot} {m : ServeMain}
    (hg : ∀ b ∈ before ++ [.serve m], Generates P b) {app : App}
    (happ : m.app? P (Boot.run P L corpus before) = some app) (requests : List HttpRequest)
    (hsub : ∀ r ∈ requests, r ∈ m.requests) :
    Session P (runBlobs P L corpus (Boot.run P L corpus (before ++ [.serve m])) (before ++ [.serve m])) .empty
      (storedAt P L app (Boot.run P L corpus before) m requests) := by
  have hlater := run_later L corpus hc ht hg
  obtain ⟨hheld, hsigner⟩ := server_held hc ht hg happ
  rw [List.forall_mem_append, List.forall_mem_singleton] at hg
  have hroot := run_directory L corpus hc ht hg.1
  have hown : Session P (bootBlobs P L corpus (Boot.run P L corpus (before ++ [.serve m])) (.serve m))
      (Boot.run P L corpus before).storage (storedAt P L app (Boot.run P L corpus before) m requests) := by
    refine ⟨Http.calls L app requests, fun c hcall => ?_, fun b hb => ?_, ?_⟩
    · rw [Http.keys_of_mem_calls hcall]
      exact hheld.pair
    · exact ⟨app, hheld, hsigner, Http.verifiedBlobs_calls hsub hb⟩
    · rw [storedAt_calls, (started_steps hc ht hroot hg.2).2]
  refine (foldl_session L corpus hc ht .empty hg.1).trans hown (fun m' hm => ?_) fun m' hm => ?_
  · obtain ⟨b, hb, hm⟩ := hm
    exact ⟨b, List.mem_append_left _ hb, bootBlobs_later hlater b hm⟩
  · exact ⟨.serve m, List.mem_append_right _ List.mem_cons_self, hm⟩

/-- The blobs and the entry of an accepted edge are there after all later runs
and the requests to another server. -/
theorem kept_of_accepted {before later : List Boot} {m m' : ServeMain} {rs rs' : List HttpRequest} {r : HttpRequest}
    (hreq : m.requests = rs ++ r :: rs')
    (hg : ∀ b ∈ before ++ .serve m :: later ++ [.serve m'], Generates P b)
    (hM : Set.InjOn P.hashBytes
      (runBlobs P L corpus (Boot.run P L corpus (before ++ [.serve m])) (before ++ [.serve m])))
    {app : App} (happ : m.app? P (Boot.run P L corpus before) = some app) {t : Value}
    (ha : Http.accepted (r, (Http.route P L app (storedAt P L app (Boot.run P L corpus before) m rs) r).1) = some t)
    (app' : App) (requests : List HttpRequest) :
    ∃ c e data, Http.call? L app r = some c ∧ edge? P c = some e ∧ e.edgeBytes P = .ok data ∧
      t = Http.h (some (P.hashBytes data)) ∧
      Kept P c data (storedAt P L app' (Boot.run P L corpus (before ++ .serve m :: later)) m' requests) := by
  rw [List.forall_mem_append, List.forall_mem_append, List.forall_mem_cons, List.forall_mem_singleton] at hg
  obtain ⟨⟨hbefore, hm, hlater⟩, hm'⟩ := hg
  have hroot := run_directory L corpus hc ht hbefore
  have hgm : ∀ b ∈ before ++ [.serve m], Generates P b :=
    List.forall_mem_append.mpr ⟨hbefore, List.forall_mem_singleton.mpr hm⟩
  obtain ⟨hheld, hsigner⟩ := server_held hc ht hgm happ
  have hsound := (storedAt_session hc ht hgm happ rs fun x hx => by
    rw [hreq]
    exact List.mem_append_left _ hx).sound
  rcases Http.route_outcome P L app (storedAt P L app (Boot.run P L corpus before) m rs) r with
    ⟨hnone, -⟩ | ⟨c, e, data, hcall, hcomp, hsome | ⟨hnone, -⟩⟩
  · rw [ha] at hnone
    cases hnone
  · rw [ha, Option.some.injEq] at hsome
    refine ⟨c, e, data, hcall, hcomp.1, hcomp.2.1, hsome, ?_⟩
    have hmem : StorageCall.verifyAndCommit c ∈ Http.calls L app m.requests := by
      rw [hreq]
      exact List.mem_map_of_mem (List.mem_filterMap.mpr ⟨r, List.mem_append_right _ List.mem_cons_self, hcall⟩)
    have hown : verifiedBlobs P [.verifyAndCommit c] ⊆
        runBlobs P L corpus (Boot.run P L corpus (before ++ [.serve m])) (before ++ [.serve m]) := by
      rintro b ⟨c', hc', hb⟩
      obtain rfl := StorageCall.verifyAndCommit.inj (List.mem_singleton.mp hc')
      exact ⟨.serve m, List.mem_append_right _ List.mem_cons_self, app, hheld, hsigner,
        Http.verifiedBlobs_calls (fun _ h => h) ⟨c', hmem, hb⟩⟩
    have hpair : P.KeyPair c.keys.priv c.keys.pub := by
      rw [show c.keys = app.keys from Http.keys_of_mem_calls hmem]
      exact hheld.pair
    have hkept := hsound.kept hM hown hpair hcomp
    have hserved : storedAt P L app (Boot.run P L corpus before) m m.requests =
        (Http.calls L app rs').foldl (StorageCall.exec P)
          (Http.route P L app (storedAt P L app (Boot.run P L corpus before) m rs) r).2 := by
      rw [hreq, storedAt, List.foldl_append, List.foldl_cons, served_calls]
      rfl
    have hexec : Kept P c data (Boot.run P L corpus (before ++ [.serve m])).storage := by
      rw [run_append]
      show Kept P c data (Boot.exec P L corpus (Boot.run P L corpus before) (.serve m)).storage
      rw [exec_serve happ, hserved]
      exact hkept.foldl _
    have hroot' := run_directory L corpus hc ht hgm
    have hrun : Boot.run P L corpus (before ++ .serve m :: later) =
        later.foldl (Boot.exec P L corpus) (Boot.run P L corpus (before ++ [.serve m])) := by
      rw [List.append_cons, run_append]
    have hsteps := run_steps L corpus hc ht hroot' hlater
    rw [hrun, storedAt_calls, (started_steps hc ht hsteps.consistent hm').2]
    exact ((foldl_session L corpus hc ht hroot' hlater).kept hexec).foldl _
  · rw [ha] at hnone
    cases hnone

/-- The hash that a server answered for an accepted edge, whose signer its
roster binds, is good for every server that is ever started on its directory,
whatever is run in between and wherever it is stopped: `/attest` of it answers
that the edge is attested, and `/reproduce` of it, by checkers that answer the
same, that it is reproduced, with the text of the proof that was sent. -/
theorem accepted_outlives_restarts (hL : Http.LoadsJson L) (before later : List Boot) (m m' : ServeMain)
    (rs rs' : List HttpRequest) (r : HttpRequest) (hreq : m.requests = rs ++ r :: rs')
    (hg : ∀ b ∈ before ++ .serve m :: later ++ [.serve m'], Generates P b)
    (hM : Set.InjOn P.hashBytes
      (runBlobs P L corpus (Boot.run P L corpus (before ++ [.serve m])) (before ++ [.serve m])))
    {app app' : App} (happ : m.app? P (Boot.run P L corpus before) = some app)
    (happ' : m'.app? P (Boot.run P L corpus (before ++ .serve m :: later)) = some app') {t : Value}
    (ha : Http.accepted (r, (Http.route P L app (storedAt P L app (Boot.run P L corpus before) m rs) r).1) = some t)
    {q : Proposal} (hq : Http.readBody L r.body >>= Http.proposal L app = .ok q) {agent : String} {key : Bytes}
    (hsigner : q.signerPubkey = .bytes key) (hbound : (agent, key) ∈ app.roster.entries)
    (requests : List HttpRequest) :
    (∀ a, Http.Asks L a "/attest" "edge_hash" t →
      ∃ v, (Http.route P L app'
          (storedAt P L app' (Boot.run P L corpus (before ++ .serve m :: later)) m' requests) a).1 =
          ⟨200, v⟩ ∧ v.getItem "ok" = .ok (.bool true) ∧ v.getItem "edge_hash" = .ok t ∧
        v.getItem "signer_agent_id" = .ok (Http.agentValue (app'.roster.identify (.bytes key)))) ∧
    ∀ b, Http.Asks L b "/reproduce" "edge_hash" t → Agree P q r.checkers b.checkers →
      ∃ v proof,
        (Http.route P L app' (storedAt P L app' (Boot.run P L corpus (before ++ .serve m :: later)) m' requests) b).1 =
          ⟨200, v⟩ ∧ v.getItem "reproduced" = .ok (.bool true) ∧ v.getItem "proof" = .ok proof ∧
        Http.ProofText q.proofBytes proof := by
  obtain ⟨c, e, data, hcall, he, hd, rfl, hkept⟩ := kept_of_accepted hc ht hreq hg hM happ ha app' requests
  obtain ⟨root, root', hstarts, hl, hstarts'⟩ := starts_twice hc ht hg happ happ'
  exact Http.answers_of_kept hc hL hcall hq he hd hkept hsigner
    (hstarts.roster.subset hc ht hl hstarts'.roster _ hbound)

end Cbor

section Example

open Reference Http

/-- A server that accepts two citations. -/
def citing : ServeMain := ⟨keysOf 7, none, [request .POST "/commit" 0, request .POST "/commit" 1]⟩

theorem citing_isSome :
    (citing.app? reference (Boot.run reference (exampleLib askingBodies) exampleCorpus [])).isSome = true := by
  decide +kernel

/-- The app that it starts. -/
def citingApp : App :=
  (citing.app? reference (Boot.run reference (exampleLib askingBodies) exampleCorpus [])).get citing_isSome

theorem citing_app? :
    citing.app? reference (Boot.run reference (exampleLib askingBodies) exampleCorpus []) = some citingApp :=
  (Option.some_get citing_isSome).symm

theorem citing_holds :
    Holds reference (Boot.run reference (exampleLib askingBodies) exampleCorpus ([] ++ [.serve citing]))
      .serverKeypair (keysOf 7) :=
  ⟨by decide +kernel, keysOf_pair 7⟩

theorem citing_injOn : Set.InjOn reference.hashBytes (runBlobs reference (exampleLib askingBodies) exampleCorpus
    (Boot.run reference (exampleLib askingBodies) exampleCorpus ([] ++ [.serve citing])) ([] ++ [.serve citing])) := by
  have h : Set.InjOn reference.hashBytes (storable reference (exampleLib askingBodies) exampleApp citing.requests) :=
    callBlobs_injOn (by decide +kernel)
  refine h.mono ?_
  rintro b ⟨boot, hboot, hb⟩
  obtain rfl := List.mem_singleton.mp hboot
  obtain ⟨app, hkeys, hsigner, hb⟩ := hb
  obtain ⟨keys, roster, signerPubkey⟩ := app
  obtain rfl : keys = keysOf 7 := hkeys.unique citing_holds
  obtain rfl : signerPubkey = (keysOf 7).pub := hsigner
  exact hb

/-- The second citation is reproduced by a server that is started after a run
of the seed script that was stopped. -/
theorem accepted_outlives_restarts_cited : ∃ app v proof,
    (server 5).app? reference
      (Boot.run reference (exampleLib askingBodies) exampleCorpus
        ([] ++ .serve citing :: [.seed (seeding (some 90))])) = some app ∧
    (route reference (exampleLib askingBodies) app (storedAt reference (exampleLib askingBodies) app
      (Boot.run reference (exampleLib askingBodies) exampleCorpus ([] ++ .serve citing :: [.seed (seeding (some 90))]))
        (server 5) []) (request .POST "/reproduce" 3)).1 = ⟨200, v⟩ ∧
    v.getItem "reproduced" = .ok (.bool true) ∧ v.getItem "proof" = .ok proof ∧
    ProofText (some [0x70, 0x72, 0x6f, 0x6f, 0x66]) proof := by
  have happ : ((server 5).app? reference (Boot.run reference (exampleLib askingBodies) exampleCorpus
      ([] ++ .serve citing :: [.seed (seeding (some 90))]))).isSome = true := by decide +kernel
  obtain ⟨app, happ⟩ := Option.isSome_iff_exists.mp happ
  have haccepted : accepted (request .POST "/commit" 1, (route reference (exampleLib askingBodies) citingApp
      (storedAt reference (exampleLib askingBodies) citingApp
        (Boot.run reference (exampleLib askingBodies) exampleCorpus []) citing [request .POST "/commit" 0])
      (request .POST "/commit" 1)).1) = some (.str lastHash) := eq_str_of_any (by decide +kernel)
  have hg : ∀ b ∈ [] ++ Boot.serve citing :: [.seed (seeding (some 90))] ++ [.serve (server 5)],
      Generates reference b := by
    simp only [List.cons_append, List.nil_append, List.forall_mem_cons, List.not_mem_nil, false_implies, implies_true,
      and_true]
    exact ⟨keysOf_pair 7, ⟨keysOf_pair 3, keysOf_pair 4⟩, keysOf_pair 5⟩
  have hq : readBody (exampleLib askingBodies) (request .POST "/commit" 1).body >>=
      proposal (exampleLib askingBodies) citingApp = .ok ⟨.bytes citingApp.signerPubkey, [mathNode "a"], mathNode "b",
        .str "", .citation, some [0x70, 0x72, 0x6f, 0x6f, 0x66], defaultTimeout⟩ := rfl
  have hasks : Asks (exampleLib askingBodies) (request .POST "/reproduce" 3) "/reproduce" "edge_hash" (.str lastHash) :=
    ⟨rfl, by decide, _, rfl, rfl⟩
  have hbound : (serverAgent, citingApp.signerPubkey) ∈ citingApp.roster.entries := by decide +kernel
  obtain ⟨v, proof, hv⟩ := (accepted_outlives_restarts reference_cborLaws reference_cborTruncated askingBodies_json [] _
    citing (server 5) [request .POST "/commit" 0] [] (request .POST "/commit" 1) rfl hg citing_injOn citing_app? happ
    haccepted hq rfl hbound []).2 _ hasks (lenient_agree _)
  exact ⟨app, v, proof, happ, hv⟩

end Example

end ArxDB.Proof.Deployment
