import ArxDB.Impl.Server
import ArxDB.Proof.HashChain
import ArxDB.Proof.Store

/-!
# What an attestation says

`verify_edge_attestation` names the agent of the edge's `signer_pubkey`
whenever the first log entry of the edge is valid and its proof is intact
(`attestsAs_iff`); the key that the entry is signed under is not looked at. So
whether an edge attests only as agents who signed it is up to the keys in the
log: to those of the entries with its hash, in any store, and to the server's
own key in a store that requests have written (`provenance_iff`).
-/

namespace ArxDB.Proof

open Impl Failing

variable {P : Prims}

/-! ## `verify_edge_attestation` -/

theorem findLogEntryFrom_eq_some {log : Log} {h : Hash} {seqs : List Nat} {e : LogEntry}
    (hf : Attest.findLogEntryFrom log h seqs = .ok (some e)) :
    (∃ seq : Nat, AppendLog.get log seq = .ok (some e)) ∧ e.entryHash = h := by
  induction seqs with
  | nil => cases hf
  | cons seq seqs ih =>
    obtain ⟨entry, hg, hf⟩ := bind_eq_ok.mp hf
    cases entry with
    | none => cases hf
    | some e' =>
      simp only at hf
      split at hf
      · rename_i he
        cases hf
        exact ⟨⟨seq, hg⟩, he⟩
      · exact ih hf

theorem findLogEntryFrom_of_forall₂ {log : Log} {h : Hash} {seqs : List Nat} {es : List LogEntry}
    (hr : List.Forall₂ (fun (seq : Nat) e => AppendLog.get log seq = .ok (some e)) seqs es) :
    Attest.findLogEntryFrom log h seqs = .ok (es.find? (·.entryHash = h)) := by
  induction hr with
  | nil => rfl
  | @cons seq e seqs es hg _ ih =>
    simp only [Attest.findLogEntryFrom, hg, bind, Except.bind, List.find?_cons]
    by_cases he : e.entryHash = h <;> simp [he, ih]

/-- In a log that was only appended to, the first entry with the hash is found. -/
theorem Chain.findLogEntry {s : Storage} {es : List LogEntry} (hc : Chain P es) (hs : s.log = es.map LogEntry.row)
    (h : Hash) : Attest.findLogEntry s h = .ok (es.find? (·.entryHash = h)) := by
  rw [Attest.findLogEntry, hs, List.length_map]
  refine findLogEntryFrom_of_forall₂ ?_
  have hes := entries_iff.mp hc.entries
  rwa [List.length_map] at hes

/-- `verify_edge_attestation(…).ok`, with this `signer_agent_id`. -/
def AttestsAs (P : Prims) (edge : Edge) (s : Storage) (roster : Roster) (A : String) : Prop :=
  ∃ result, Attest.verifyEdgeAttestation P edge s roster = .ok result ∧ result.ok = true ∧
    result.signerAgentId = some A

/-- The first log entry of the edge is valid, and the proof is intact. -/
def Integral (P : Prims) (edge : Edge) (s : Storage) : Prop :=
  (∃ h e, edge.edgeHash P = .ok h ∧ Attest.findLogEntry s h = .ok (some e) ∧ AppendLog.verifyEntry P e = .ok true) ∧
    ∀ h, edge.proofHash = some h → ∃ blob, ObjectStore.get s.objects h = some blob ∧ P.hashBytes blob = h

theorem intact_eq_true {h : Hash} {blob : Option Bytes} :
    Attest.intact P h blob = true ↔ ∃ b, blob = some b ∧ P.hashBytes b = h := by
  cases blob <;> simp [Attest.intact]

theorem verifyEdgeAttestation_eq {edge : Edge} {s : Storage} (roster : Roster) {h : Hash} {e : LogEntry} {valid : Bool}
    (hh : edge.edgeHash P = .ok h) (hf : Attest.findLogEntry s h = .ok (some e))
    (hv : AppendLog.verifyEntry P e = .ok valid) :
    Attest.verifyEdgeAttestation P edge s roster = .ok {
      signerAgentId := roster.identify edge.signerPubkey
      signatureValid := valid
      proofBound := edge.proofHash.all fun k => (ObjectStore.get s.objects k).isSome
      proofIntact := edge.proofHash.all fun k => Attest.intact P k (ObjectStore.get s.objects k) } := by
  simp only [Attest.verifyEdgeAttestation, hh, hf, hv, bind, Except.bind]
  cases edge.proofHash <;> rfl

/-- A valid signature is that of the first log entry with the edge's hash. -/
theorem signatureValid_eq_true {edge : Edge} {s : Storage} {roster : Roster} {result : AttestationResult}
    (hr : Attest.verifyEdgeAttestation P edge s roster = .ok result) (hv : result.signatureValid = true) :
    ∃ h e, edge.edgeHash P = .ok h ∧ Attest.findLogEntry s h = .ok (some e) ∧
      AppendLog.verifyEntry P e = .ok true := by
  obtain ⟨h, hh, hr'⟩ := bind_eq_ok.mp hr
  obtain ⟨entry, hf, hr'⟩ := bind_eq_ok.mp hr'
  cases entry with
  | none =>
    obtain ⟨valid, hs, hr'⟩ := bind_eq_ok.mp hr'
    cases hs
    cases hp : edge.proofHash <;> rw [hp] at hr' <;> cases hr' <;> cases hv
  | some e =>
    obtain ⟨valid, hs, -⟩ := bind_eq_ok.mp hr'
    have heq := verifyEdgeAttestation_eq roster hh hf hs
    rw [hr, Except.ok.injEq] at heq
    rw [heq] at hv
    exact ⟨h, e, hh, hf, hs.trans (congrArg _ hv)⟩

theorem attestsAs_iff {edge : Edge} {s : Storage} {roster : Roster} {A : String} :
    AttestsAs P edge s roster A ↔ roster.identify edge.signerPubkey = some A ∧ Integral P edge s := by
  have intact : (edge.proofHash.all fun k => Attest.intact P k (ObjectStore.get s.objects k)) = true ↔
      ∀ h, edge.proofHash = some h → ∃ blob, ObjectStore.get s.objects h = some blob ∧ P.hashBytes blob = h := by
    simp [Option.all_eq_true, intact_eq_true]
  constructor
  · rintro ⟨result, hr, hok, hA⟩
    obtain ⟨h, e, hh, hf, hv⟩ : ∃ h e, edge.edgeHash P = .ok h ∧ Attest.findLogEntry s h = .ok (some e) ∧
        AppendLog.verifyEntry P e = .ok true := by
      simp only [AttestationResult.ok, Bool.and_eq_true] at hok
      exact signatureValid_eq_true hr hok.1.1.2
    rw [verifyEdgeAttestation_eq roster hh hf hv, Except.ok.injEq] at hr
    subst hr
    simp only [AttestationResult.ok, Bool.and_eq_true] at hok
    exact ⟨hA, ⟨h, e, hh, hf, hv⟩, intact.mp hok.2⟩
  · rintro ⟨hA, ⟨h, e, hh, hf, hv⟩, hproof⟩
    refine ⟨_, verifyEdgeAttestation_eq roster hh hf hv, ?_, hA⟩
    have bound : (edge.proofHash.all fun k => (ObjectStore.get s.objects k).isSome) = true := by
      rw [Option.all_eq_true]
      intro k hk
      obtain ⟨blob, hb, -⟩ := hproof k hk
      rw [hb]
      rfl
    simp only [AttestationResult.ok, hA, bound, intact.mpr hproof]
    rfl

/-! ## Requests -/

/-- The call that a request makes, unless its body is refused. -/
def call? (app : App) (r : Request) : Option CommitCall :=
  (Server.proposal app r.body).toOption.map fun q => ⟨r.checkers, app.keys, r.now, r.fault, q⟩

theorem exec_request (app : App) (s : Storage) (r : Request) :
    r.exec P app s = (call? app r).elim s (CommitCall.exec P s) := by
  rw [Request.exec, Server.commit, call?]
  cases Server.proposal app r.body <;> rfl

/-- What requests do is what their calls do. -/
theorem serve_eq (app : App) (requests : List Request) :
    Request.serve P app requests = CommitCall.run P (requests.filterMap (call? app)) := by
  have key : ∀ s, requests.foldl (Request.exec P app) s =
      (requests.filterMap (call? app)).foldl (CommitCall.exec P) s := by
    induction requests with
    | nil => exact fun _ => rfl
    | cons r requests ih =>
      intro s
      rw [List.foldl_cons, ih, exec_request]
      cases hr : call? app r with
      | none => rw [List.filterMap_cons_none hr]; rfl
      | some c => rw [List.filterMap_cons_some hr]; rfl
  exact key .empty

/-- The blobs that these requests can store. -/
def requestBlobs (P : Prims) (app : App) (requests : List Request) : Set Bytes :=
  callBlobs P (requests.filterMap (call? app))

theorem keys_of_call? {app : App} {requests : List Request} {c : CommitCall}
    (h : c ∈ requests.filterMap (call? app)) : c.keys = app.keys := by
  obtain ⟨r, -, hr⟩ := List.mem_filterMap.mp h
  obtain ⟨q, -, rfl⟩ := Option.map_eq_some_iff.mp hr
  rfl

/-! ## Authorship -/

/-- The keys that the edge's bytes are validly signed under in the log. -/
def edgeSigners (P : Prims) (edge : Edge) (s : Storage) : Set Bytes :=
  {pub | ∃ (seq : Nat) (e : LogEntry), AppendLog.get s.log seq = .ok (some e) ∧ edge.edgeBytes P = .ok e.payload ∧
    AppendLog.verifyEntry P e = .ok true ∧ e.signerPubkey = pub}

/-- The agent signed the edge: one of its keys did. -/
def SignedBy (P : Prims) (edge : Edge) (s : Storage) (roster : Roster) (A : String) : Prop :=
  ∃ pub ∈ edgeSigners P edge s, (A, pub) ∈ roster.entries

/-- The edge's bytes are in the log. -/
def InLog (P : Prims) (edge : Edge) (s : Storage) : Prop :=
  ∃ (seq : Nat) (e : LogEntry), AppendLog.get s.log seq = .ok (some e) ∧ edge.edgeBytes P = .ok e.payload

/-! ## Any store -/

/-- `e` is a log entry with the edge's hash. -/
def EntryOf (P : Prims) (edge : Edge) (s : Storage) (e : LogEntry) : Prop :=
  (∃ seq : Nat, AppendLog.get s.log seq = .ok (some e)) ∧ edge.edgeHash P = .ok e.entryHash

/-- Nobody has tampered with what belongs to the edge: the rows of the log are
numbered and can be read, the entries with its hash verify, and its proof is
the blob that its hash is of. -/
structure Untampered (P : Prims) (edge : Edge) (s : Storage) : Prop where
  read : ∃ es, Entries s.log es
  signed : ∀ e, EntryOf P edge s e → AppendLog.verifyEntry P e = .ok true
  proof : ∀ h, edge.proofHash = some h → ∃ blob, ObjectStore.get s.objects h = some blob ∧ P.hashBytes blob = h

/-- The payloads of the log, and the edge's bytes. -/
def logBlobs (P : Prims) (edge : Edge) (s : Storage) : Set Bytes :=
  {m | (∃ row ∈ s.log, row.payload = m) ∨ edge.edgeBytes P = .ok m}

section AnyStore

variable {edge : Edge} {s : Storage} {roster : Roster} {e : LogEntry} {A : String}

/-- A valid entry with the edge's hash, under a key of the agent, is the agent's signature of the edge. -/
theorem EntryOf.signedBy (he : EntryOf P edge s e) (hM : Set.InjOn P.hashBytes (logBlobs P edge s))
    (hv : AppendLog.verifyEntry P e = .ok true) (hA : (A, e.signerPubkey) ∈ roster.entries) :
    SignedBy P edge s roster A := by
  obtain ⟨⟨seq, hg⟩, hhash⟩ := he
  obtain ⟨data, hd, hdata⟩ := edgeHash_eq_ok.mp hhash
  have hpay : e.payload ∈ logBlobs P edge s := .inl ⟨_, (mem_of_get hg).1, rfl⟩
  have hsame : e.payload = data := hM hpay (.inr hd) ((verifyEntry_eq_true.mp hv).1.symm.trans hdata.symm)
  exact ⟨_, ⟨seq, e, hg, hsame ▸ hd, hv, rfl⟩, hA⟩

/-- A signature of the edge is an entry with its hash. -/
theorem SignedBy.entryOf (h : SignedBy P edge s roster A) :
    ∃ e, EntryOf P edge s e ∧ (A, e.signerPubkey) ∈ roster.entries := by
  obtain ⟨_, ⟨seq, e, hg, hb, hv, rfl⟩, hA⟩ := h
  exact ⟨e, ⟨⟨seq, hg⟩, edgeHash_eq_ok.mpr ⟨_, hb, (verifyEntry_eq_true.mp hv).1.symm⟩⟩, hA⟩

/-- What is found for an integral edge is a valid entry with its hash. -/
theorem Integral.entryOf (h : Integral P edge s) :
    ∃ e, EntryOf P edge s e ∧ AppendLog.verifyEntry P e = .ok true := by
  obtain ⟨⟨k, e, hk, hf, hv⟩, -⟩ := h
  obtain ⟨hg, rfl⟩ := findLogEntryFrom_eq_some hf
  exact ⟨e, ⟨hg, hk⟩, hv⟩

/-- Where nobody has tampered, an edge with an entry is integral. -/
theorem Untampered.integral (h : Untampered P edge s) (he : EntryOf P edge s e) : Integral P edge s := by
  obtain ⟨es, hes⟩ := h.read
  have hfind := findLogEntryFrom_of_forall₂ (h := e.entryHash) (entries_iff.mp hes)
  have hsome : (es.find? (·.entryHash = e.entryHash)).isSome := by
    rw [List.find?_isSome]
    obtain ⟨seq, hg⟩ := he.1
    exact ⟨e, hes.mem_of_get hg, by simp⟩
  obtain ⟨e₁, he₁⟩ := Option.isSome_iff_exists.mp hsome
  rw [he₁] at hfind
  obtain ⟨hg₁, hhash⟩ := findLogEntryFrom_eq_some hfind
  exact ⟨⟨_, e₁, he.2, hfind, h.signed e₁ ⟨hg₁, hhash ▸ he.2⟩⟩, h.proof⟩

end AnyStore

/-! ## Stores of requests -/

section Calls

variable {calls : List CommitCall} {s : Storage} {cs : List (Edge × Bytes)} {edge : Edge}

/-- Under matching key pairs, calls leave what they log untampered. -/
theorem Stored.untampered (h : Stored P calls s cs) (hc : P.CborLaws)
    (hk : ∀ c ∈ calls, P.KeyPair c.keys.priv c.keys.pub) (hlog : InLog P edge s) : Untampered P edge s := by
  obtain ⟨es, hes, hlogged, -⟩ := h.log
  refine ⟨⟨es, hes ▸ hlogged.chain.entries⟩, fun e he => ?_, fun k hproof => ?_⟩
  · obtain ⟨⟨seq, hg⟩, -⟩ := he
    obtain ⟨-, -, c, hcall, -, hv⟩ := h.entry hg
    exact hv (hk c hcall)
  · obtain ⟨seq, e, hg, hb⟩ := hlog
    obtain ⟨⟨p, hp, hpe⟩, -, -⟩ := h.entry hg
    obtain ⟨d, same, same'⟩ := edgeSame_of_bytes hc hb (hpe ▸ (h.edges p hp).edgeBytes)
    obtain ⟨b, rfl, hhas⟩ := (h.edges p hp).proof k (by rw [← same'.proofHash, same.proofHash, hproof])
    exact ⟨b, hhas, rfl⟩

theorem Stored.entryOf (h : Stored P calls s cs) {seq : Nat} {e : LogEntry}
    (hg : AppendLog.get s.log seq = .ok (some e)) (hb : edge.edgeBytes P = .ok e.payload) : EntryOf P edge s e :=
  ⟨⟨seq, hg⟩, edgeHash_eq_ok.mpr ⟨_, hb, (h.entry hg).2.1.symm⟩⟩

/-- What is found for an edge is an entry of its bytes. -/
theorem Stored.payload_of_found (h : Stored P calls s cs)
    (hM : Set.InjOn P.hashBytes {m | m ∈ callBlobs P calls ∨ edge.edgeBytes P = .ok m}) {k : Hash} {e : LogEntry}
    (hk : edge.edgeHash P = .ok k) (hf : Attest.findLogEntry s k = .ok (some e)) :
    (∃ seq : Nat, AppendLog.get s.log seq = .ok (some e)) ∧ edge.edgeBytes P = .ok e.payload := by
  obtain ⟨⟨seq, hg⟩, he⟩ := findLogEntryFrom_eq_some hf
  obtain ⟨⟨p, hp, hpe⟩, hhash, -⟩ := h.entry hg
  obtain ⟨data, hd, rfl⟩ := edgeHash_eq_ok.mp hk
  have hpay : e.payload ∈ callBlobs P calls := hpe ▸ (h.addressed.hash_eq (h.edges p hp).has).1
  rw [hM (.inl hpay) (.inr hd) (hhash.symm.trans he)]
  exact ⟨⟨seq, hg⟩, hd⟩

/-- Calls under one key: an edge that they log attests only as agents who
signed it exactly when its agent is bound to that key. -/
theorem Stored.attests_signed_iff (h : Stored P calls s cs) (hc : P.CborLaws)
    (hM : Set.InjOn P.hashBytes {m | m ∈ callBlobs P calls ∨ edge.edgeBytes P = .ok m}) {keys : Keys}
    (hkeys : ∀ c ∈ calls, c.keys = keys) (hk : P.KeyPair keys.priv keys.pub) (roster : Roster) :
    (∀ A, AttestsAs P edge s roster A → SignedBy P edge s roster A) ↔
      ∀ A, roster.identify edge.signerPubkey = some A → InLog P edge s → (A, keys.pub) ∈ roster.entries := by
  have signer : ∀ {seq : Nat} {e : LogEntry}, AppendLog.get s.log seq = .ok (some e) → e.signerPubkey = keys.pub := by
    intro seq e hg
    obtain ⟨-, -, c, hcall, hpub, -⟩ := h.entry hg
    rw [hpub, hkeys c hcall]
  constructor
  · intro hprop A hA hlog
    have hs := h.untampered hc (fun c hcall => hkeys c hcall ▸ hk) hlog
    obtain ⟨seq, e, hg, hb⟩ := hlog
    have hint := hs.integral (h.entryOf hg hb)
    obtain ⟨pub, ⟨seq, e, hg, -, -, rfl⟩, hbound⟩ := hprop A (attestsAs_iff.mpr ⟨hA, hint⟩)
    rwa [signer hg] at hbound
  · intro hcond A hA
    obtain ⟨hA, ⟨k, e, hhash, hf, hv⟩, -⟩ := attestsAs_iff.mp hA
    obtain ⟨⟨seq, hg⟩, hb⟩ := h.payload_of_found hM hhash hf
    exact ⟨_, ⟨seq, e, hg, hb, hv, signer hg⟩, hcond A hA ⟨seq, e, hg, hb⟩⟩

end Calls

/-- Whether an edge attests only as agents who signed it. In any store: when
all entries with its hash are under keys of the agent of its `signer_pubkey`;
and if nobody has tampered, exactly when one of them is, or there is none. In
a store that requests have written, if it is in the log: exactly when that
agent is bound to the server's key. -/
theorem provenance_iff (hc : P.CborLaws) (edge : Edge) :
    (∀ (s : Storage) (roster : Roster), Set.InjOn P.hashBytes (logBlobs P edge s) →
      ((∀ A, roster.identify edge.signerPubkey = some A →
          ∀ e, EntryOf P edge s e → (A, e.signerPubkey) ∈ roster.entries) →
        ∀ A, AttestsAs P edge s roster A → SignedBy P edge s roster A) ∧
      (Untampered P edge s →
        ((∀ A, AttestsAs P edge s roster A → SignedBy P edge s roster A) ↔
          ∀ A, roster.identify edge.signerPubkey = some A → (∃ e, EntryOf P edge s e) →
            ∃ e, EntryOf P edge s e ∧ (A, e.signerPubkey) ∈ roster.entries))) ∧
    ∀ (app : App) (requests : List Request), P.KeyPair app.keys.priv app.keys.pub →
      Set.InjOn P.hashBytes {m | m ∈ requestBlobs P app requests ∨ edge.edgeBytes P = .ok m} →
      ((∀ A, AttestsAs P edge (Request.serve P app requests) app.roster A →
          SignedBy P edge (Request.serve P app requests) app.roster A) ↔
        ∀ A, app.roster.identify edge.signerPubkey = some A → InLog P edge (Request.serve P app requests) →
          (A, app.keys.pub) ∈ app.roster.entries) := by
  refine ⟨fun s roster hM => ⟨fun hkeys A hA => ?_, fun hs => ⟨fun hprop A hA hentry => ?_, fun hkeys A hA => ?_⟩⟩,
    fun app requests hk hM => ?_⟩
  · obtain ⟨hA, hint⟩ := attestsAs_iff.mp hA
    obtain ⟨e, he, hv⟩ := hint.entryOf
    exact he.signedBy hM hv (hkeys A hA e he)
  · obtain ⟨e, he⟩ := hentry
    exact (hprop A (attestsAs_iff.mpr ⟨hA, hs.integral he⟩)).entryOf
  · obtain ⟨hA, hint⟩ := attestsAs_iff.mp hA
    obtain ⟨e₁, he₁, -⟩ := hint.entryOf
    obtain ⟨e, he, hbound⟩ := hkeys A hA ⟨e₁, he₁⟩
    exact he.signedBy hM (hs.signed e he) hbound
  · rw [serve_eq]
    obtain ⟨cs, h⟩ := run_stored hc (requests.filterMap (call? app)) (hM.mono fun m hm => .inl hm)
    exact h.attests_signed_iff hc hM (fun c hcall => keys_of_call? hcall) hk app.roster

section Example

open Reference

/-- A server whose key is not `"alice"`'s, with her in its roster. -/
def exampleApp : App where
  keys := ⟨List.replicate 32 7, List.replicate 32 7⟩
  roster := ⟨[("server", List.replicate 32 7), ("alice", List.replicate 32 8)], by decide, by decide, by decide⟩
  signerPubkey := List.replicate 32 7

/-- A citation of a claim, in the name of a key. -/
def citeRequest (claim : String) (proof signer : Option Bytes) : Request :=
  ⟨lenient, 10, none, ⟨none, some (.dict [(.str "claim", .str claim)]), none, some (.str "citation"), proof,
    signer, none⟩⟩

/-- The edge that it commits. -/
def citeEdge (claim : String) (proof : Option Bytes) (signer : Bytes) : Edge where
  type := .citation
  premises := []
  conclusion := ((mathNode claim).nodeId reference).toOption.getD AppendLog.genesisPrevHash
  rule := .str ""
  proofHash := proof.map reference.hashBytes
  verdict := .pass
  kappa := .k1
  signerPubkey := .bytes signer

/-- The server is asked for a citation in the name of `"alice"`'s key. -/
def forged : List Request := [citeRequest "a" none (some (List.replicate 32 8))]

/-- The edge that it commits. -/
def forgedEdge : Edge := citeEdge "a" none (List.replicate 32 8)

theorem forged_injOn : Set.InjOn reference.hashBytes
    {m | m ∈ requestBlobs reference exampleApp forged ∨ forgedEdge.edgeBytes reference = .ok m} := by
  refine injOn_of_nodup ((forgedEdge.edgeBytes reference).toOption.toList ++
    (forged.filterMap (call? exampleApp)).flatMap (blobs reference)).dedup (fun m hm => ?_) (by decide +kernel)
  rw [List.mem_dedup, List.mem_append]
  rcases hm with ⟨c, hc, hm⟩ | hm
  · exact .inr (List.mem_flatMap.mpr ⟨c, hc, hm⟩)
  · exact .inl (by simp [toOption_eq_some, hm])

/-- Anyone can have an edge attested as `"alice"`'s. -/
theorem forged_attests : ¬ ∀ (app : App) (requests : List Request) (edge : Edge) (A : String),
    reference.KeyPair app.keys.priv app.keys.pub →
    Set.InjOn reference.hashBytes {m | m ∈ requestBlobs reference app requests ∨ edge.edgeBytes reference = .ok m} →
    AttestsAs reference edge (Request.serve reference app requests) app.roster A →
    SignedBy reference edge (Request.serve reference app requests) app.roster A := by
  intro h
  have hattests :
      AttestsAs reference forgedEdge (Request.serve reference exampleApp forged) exampleApp.roster "alice" :=
    ⟨⟨some "alice", true, true, true⟩, by decide +kernel, rfl, rfl⟩
  obtain ⟨pub, ⟨seq, e, hg, -, -, rfl⟩, hbound⟩ :=
    h exampleApp forged forgedEdge "alice" (reference_keyPair rfl) forged_injOn hattests
  have hrows : ∀ row ∈ (Request.serve reference exampleApp forged).log, row.signerPubkey = List.replicate 32 7 := by
    decide +kernel
  rw [show e.signerPubkey = List.replicate 32 7 from hrows _ (mem_of_get hg).1] at hbound
  exact absurd hbound (by decide)

/-- The store that the request leaves. -/
def forgedStore : Storage := Request.serve reference exampleApp forged

/-- The same citation in the server's own name. -/
def ownEdge : Edge := citeEdge "a" none (List.replicate 32 7)

/-- The store that its request leaves. -/
def ownStore : Storage := Request.serve reference exampleApp [citeRequest "a" none none]

theorem logBlobs_injOn {edge : Edge} {s : Storage}
    (h : (((edge.edgeBytes reference).toOption.toList ++ s.log.map LogRow.payload).dedup.map
      reference.hashBytes).Nodup) : Set.InjOn reference.hashBytes (logBlobs reference edge s) := by
  refine injOn_of_nodup _ (fun m hm => ?_) h
  rw [List.mem_dedup, List.mem_append]
  rcases hm with ⟨row, hrow, rfl⟩ | hm
  · exact .inr (List.mem_map_of_mem hrow)
  · exact .inl (by simp [toOption_eq_some, hm])

theorem forged_untampered : Untampered reference forgedEdge forgedStore := by
  have hM : Set.InjOn reference.hashBytes (requestBlobs reference exampleApp forged) :=
    forged_injOn.mono fun m hm => .inl hm
  obtain ⟨cs, h⟩ := run_stored reference_cborLaws (forged.filterMap (call? exampleApp)) hM
  rw [← serve_eq] at h
  have hlogged : ∃ row ∈ forgedStore.log, forgedEdge.edgeBytes reference = .ok row.payload := by decide +kernel
  obtain ⟨row, hrow, hb⟩ := hlogged
  obtain ⟨es, hes, hchain, -⟩ := h.log
  rw [show forgedStore.log = es.map LogEntry.row from hes] at hrow
  obtain ⟨e, he, rfl⟩ := List.mem_map.mp hrow
  obtain ⟨i, hi, rfl⟩ := List.mem_iff_getElem.mp he
  exact h.untampered reference_cborLaws (fun c hcall => keys_of_call? hcall ▸ reference_keyPair rfl)
    ⟨i, es[i], hes ▸ hchain.chain.entries.2 i hi, hb⟩

theorem provenance_forged :
    (∀ A, AttestsAs reference ownEdge ownStore exampleApp.roster A →
      SignedBy reference ownEdge ownStore exampleApp.roster A) ∧
    ((∀ A, AttestsAs reference forgedEdge forgedStore exampleApp.roster A →
        SignedBy reference forgedEdge forgedStore exampleApp.roster A) ↔
      ∀ A, exampleApp.roster.identify forgedEdge.signerPubkey = some A →
        (∃ e, EntryOf reference forgedEdge forgedStore e) →
        ∃ e, EntryOf reference forgedEdge forgedStore e ∧ (A, e.signerPubkey) ∈ exampleApp.roster.entries) ∧
    ((∀ A, AttestsAs reference forgedEdge forgedStore exampleApp.roster A →
        SignedBy reference forgedEdge forgedStore exampleApp.roster A) ↔
      ∀ A, exampleApp.roster.identify forgedEdge.signerPubkey = some A → InLog reference forgedEdge forgedStore →
        (A, exampleApp.keys.pub) ∈ exampleApp.roster.entries) := by
  refine ⟨((provenance_iff reference_cborLaws ownEdge).1 ownStore exampleApp.roster
      (logBlobs_injOn (by decide +kernel))).1 fun A hA e he => ?_,
    ((provenance_iff reference_cborLaws forgedEdge).1 forgedStore exampleApp.roster
      (logBlobs_injOn (by decide +kernel))).2 forged_untampered,
    (provenance_iff reference_cborLaws forgedEdge).2 exampleApp forged (reference_keyPair rfl) forged_injOn⟩
  obtain ⟨⟨seq, hg⟩, -⟩ := he
  have hrows : ∀ row ∈ ownStore.log, row.signerPubkey = List.replicate 32 7 := by decide +kernel
  obtain rfl : "server" = A := Option.some.inj hA
  rw [show e.signerPubkey = List.replicate 32 7 from hrows _ (mem_of_get hg).1]
  decide

end Example

end ArxDB.Proof
