import ArxDB.Proof.Deployment.Identity
import ArxDB.Proof.Http.Reproduce
import ArxDB.Proof.Seed

/-!
# Runs of the scripts

Each run keeps the files as `Steps` says and works on the storage by calls
under one of the key pairs (`Called`).
-/

namespace ArxDB.Proof.Deployment

open Impl Impl.DataRoot Failing Prog

variable {P : Prims} {L : Lib} {corpus : Corpus}

/-! ## The calls of a run -/

/-- Calls under these keys, of which the blobs are among `M`. -/
def Called (P : Prims) (keys : Keys) (M : Set Bytes) (s s' : Storage) : Prop :=
  ∃ calls : List StorageCall, (∀ c ∈ calls, c.keys = keys) ∧ verifiedBlobs P calls ⊆ M ∧
    s' = calls.foldl (StorageCall.exec P) s

namespace Called

variable {keys : Keys} {M : Set Bytes} {s s' s'' : Storage}

theorem refl : Called P keys M s s := ⟨[], nofun, fun _ h => absurd h.choose_spec.1 List.not_mem_nil, rfl⟩

theorem trans (h : Called P keys M s s') (h' : Called P keys M s' s'') : Called P keys M s s'' := by
  obtain ⟨calls, hk, hM, rfl⟩ := h
  obtain ⟨calls', hk', hM', rfl⟩ := h'
  refine ⟨calls ++ calls', List.forall_mem_append.mpr ⟨hk, hk'⟩, ?_, (List.foldl_append ..).symm⟩
  rintro m ⟨c, hc, hm⟩
  obtain hc | hc := List.mem_append.mp hc
  · exact hM ⟨c, hc, hm⟩
  · exact hM' ⟨c, hc, hm⟩

theorem append {now : Int} {fault : Option Nat} {payload : Bytes} :
    Called P keys M s ((Storage.append P keys now payload).exec fault s).2 := by
  refine ⟨[.append keys now fault payload], List.forall_mem_singleton.mpr rfl, ?_, rfl⟩
  rintro m ⟨c, hc, -⟩
  cases List.mem_singleton.mp hc

theorem verifyAndCommit {c : CommitCall} (hk : c.keys = keys) (hM : ∀ b ∈ blobs P c, b ∈ M) :
    Called P keys M s (c.exec P s) := by
  refine ⟨[.verifyAndCommit c], List.forall_mem_singleton.mpr hk, ?_, rfl⟩
  rintro m ⟨c', hc', hm⟩
  obtain rfl := StorageCall.verifyAndCommit.inj (List.mem_singleton.mp hc')
  exact hM m hm

end Called

theorem commitRoster_called {keys : Keys} {now : Int} {roster : Roster} (M : Set Bytes) {s : Storage} :
    WP (Attest.commitRoster P keys now roster) (fun _ s' => Called P keys M s s')
      (fun _ s' => Called P keys M s s') s := by
  refine .bind <| .statement .refl <| .bind <| .read ?_
  split
  · refine .bind <| .lift (fun data _ => .bind <| WP.run.mono ?_ ?_) fun _ _ => .refl
    · rintro entry s' ⟨n, hn⟩
      rw [show s' = _ from (congrArg Prod.snd hn).symm]
      exact .pure .append
    · rintro e s' ⟨n, hn⟩
      rw [show s' = _ from (congrArg Prod.snd hn).symm]
      exact .append
  · refine .bind <| .statement .refl <| .bind <| .read <| .bind <| .lift (fun entry _ => ?_) fun _ _ => .refl
    split
    · exact .pure .refl
    · exact .bind <| .lift (fun _ _ => .pure .refl) fun _ _ => .refl

theorem seedEdge_called {checkers : Checkers} {keys : Keys} {signerPubkey : Bytes} {now : Int} {e : CorpusEdge}
    (he : e ∈ corpus.edges) {s : Storage} :
    WP (Seed.seedEdge P checkers keys now corpus signerPubkey e)
      (fun _ s' => Called P keys (corpusBlobs P checkers corpus signerPubkey) s s')
      (fun _ s' => Called P keys (corpusBlobs P checkers corpus signerPubkey) s s') s := by
  refine .bind <| .lift (fun q hq => .bind <| .lift (fun edge _ => ?_) fun _ _ => .refl) fun _ _ => .refl
  split
  · exact .pure .refl
  refine .bind <| .lift (fun h _ => .bind <| .read ?_) fun _ _ => .refl
  split
  · exact .pure .refl
  have hcall : ∀ n s', (Impl.verifyAndCommit P checkers keys now q).exec n s = s' →
      Called P keys (corpusBlobs P checkers corpus signerPubkey) s s'.2 := by
    rintro n s' rfl
    exact .verifyAndCommit (c := ⟨checkers, keys, now, n, q⟩) rfl fun b hb =>
      blobs_mem he hq b (show b ∈ blobs P (seedCall checkers keys now q) from hb)
  exact .bind <| WP.run.mono (fun _ _ ⟨n, hn⟩ => .pure (hcall n _ hn)) fun _ _ ⟨n, hn⟩ => hcall n _ hn

theorem seed_called {checkers : Checkers} {keys : Keys} {clock : Nat → Int} {signerPubkey : Bytes} {s : Storage} :
    WP (Seed.seed P checkers keys clock corpus signerPubkey)
      (fun _ s' => Called P keys (corpusBlobs P checkers corpus signerPubkey) s s')
      (fun _ s' => Called P keys (corpusBlobs P checkers corpus signerPubkey) s s') s := by
  refine seedFrom_inv (I := Called P keys (corpusBlobs P checkers corpus signerPubkey) s)
    (fun e he now s' hs' => ?_) (fun _ h => h) .refl
  exact (seedEdge_called he).mono (fun _ _ h => hs'.trans h) fun _ _ h => hs'.trans h

/-- The log goes on. -/
theorem foldl_exec_prefix (calls : List StorageCall) (s : Storage) :
    s.log <+: (calls.foldl (StorageCall.exec P) s).log := by
  induction calls generalizing s with
  | nil => exact List.prefix_rfl
  | cons call calls ih =>
    refine List.IsPrefix.trans ?_ (ih _)
    rcases (exec_grows (P := P) call s).2 with h | ⟨_, _, -, h⟩
    · rw [h]
    · rw [h]
      exact List.prefix_append ..

theorem Called.log_prefix {keys : Keys} {M : Set Bytes} {s s' : Storage} (h : Called P keys M s s') :
    s.log <+: s'.log := by
  obtain ⟨calls, -, -, rfl⟩ := h
  exact foldl_exec_prefix calls s

/-- The first entry of the log is for the roster. -/
def Genesis (P : Prims) (roster : Roster) (log : Log) : Prop :=
  ∃ row rest, log = row :: rest ∧ roster.rosterBytes P = .ok row.payload

theorem Genesis.grow {roster : Roster} {log log' : Log} (h : Genesis P roster log) (hp : log <+: log') :
    Genesis P roster log' := by
  obtain ⟨row, rest, rfl, hb⟩ := h
  obtain ⟨later, rfl⟩ := hp
  exact ⟨row, rest ++ later, rfl, hb⟩

/-- On an empty log `commit_roster` logs the roster. -/
theorem commitRoster_first {keys : Keys} {now : Int} {roster : Roster} {s : Storage} :
    WP (Attest.commitRoster P keys now roster) (fun _ s' => s.log = [] → Genesis P roster s'.log)
      (fun _ _ => True) s := by
  refine .bind <| .statement trivial <| .bind <| .read ?_
  split
  · refine .bind <| .lift (fun data hdata => .bind <| append_wp.mono ?_ fun _ _ _ => trivial) fun _ _ => trivial
    rintro e s' ⟨ha, rfl⟩
    refine .pure fun hnil => ⟨e.row, [], ?_, ?_⟩
    · show s.log ++ [e.row] = _
      rw [hnil, List.nil_append]
    · exact hdata.trans (congrArg Except.ok ha.payload.symm)
  · rename_i hlen
    exact WP.triv.mono (fun _ _ _ hnil => absurd (by rw [hnil]; rfl) hlen) fun _ _ _ => trivial

/-! ## The scripts -/

/-- The storage is as it was, or was worked on under the key pair of this file. -/
def Worked (P : Prims) (f : RootFile) (M : Keys → Set Bytes) (root root' : DataRoot) : Prop :=
  root'.storage = root.storage ∨ ∃ keys, Holds P root' f keys ∧ Called P keys (M keys) root.storage root'.storage

/-- What a run of the seed script leaves that returns. -/
structure SeedsTo (P : Prims) (corpus : Corpus) (m : SeedMain) (root : DataRoot) (report : SeedReport)
    (root' : DataRoot)
    (signer keys : Keys) (roster : Roster) : Prop where
  persisted : Persisted P signer keys roster m.anchoredAt report.anchor root'
  called : Called P signer (corpusBlobs P m.checkers corpus signer.pub) root.storage root'.storage
  genesis : root.storage.log = [] → Genesis P roster root'.storage.log
  attested : Seed.verifySeedAttestation P m.checkers corpus root'.storage roster signer.pub = .ok report.attested

theorem main_wp {m : SeedMain} {root : DataRoot} (h : Consistent P root)
    (hg : P.KeyPair m.generated.priv m.generated.pub)
    (hg' : P.KeyPair m.serverGenerated.priv m.serverGenerated.pub) :
    WP (m.main P corpus)
      (fun report root' => Steps P root root' ∧
        ∃ signer keys roster, SeedsTo P corpus m root report root' signer keys roster)
      (fun _ root' => Steps P root root' ∧
        Worked P .seedKeypair (fun signer => corpusBlobs P m.checkers corpus signer.pub) root root') root := by
  refine .bind <| (loadOrCreateKeypair_wp h.seedFile hg).mono ?_ ?_
  swap
  · rintro - root₁ hstep
    exact ⟨hstep.steps h (.inl rfl), .inl hstep.storage⟩
  rintro signer root₁ ⟨hsigner, hstep₁⟩
  have h₁ := hstep₁.steps h (.inl rfl)
  refine .bind <| (loadOrCreateKeypair_wp h₁.consistent.serverFile hg').mono ?_ ?_
  swap
  · rintro - root₂ hstep
    exact ⟨h₁.trans (hstep.steps h₁.consistent (.inr rfl)), .inl (hstep.storage.trans hstep₁.storage)⟩
  rintro keys root₂ ⟨hkeys, hstep₂⟩
  have h₂ := h₁.trans (hstep₂.steps h₁.consistent (.inr rfl))
  have hs₂ : root₂.storage = root.storage := hstep₂.storage.trans hstep₁.storage
  replace hsigner : Holds P root₂ .seedKeypair signer := (hstep₂.steps h₁.consistent (.inr rfl)).later.seed hsigner
  refine .bind <| .statement ⟨h₂, .inl hs₂⟩ <| .bind <| .lift (fun roster hroster => ?_) fun _ _ => ⟨h₂, .inl hs₂⟩
  have hentries := entries_new hroster
  have holds : ∀ {root₃ : DataRoot}, root₃.file = root₂.file → Holds P root₃ .seedKeypair signer :=
    fun hfile => holds_of_eq (congrFun hfile _) hsigner
  have steps : ∀ {root₃ : DataRoot}, root₃.file = root₂.file → Steps P root root₃ :=
    fun hfile => h₂.trans (.of_file h₂.consistent hfile)
  refine .bind <| (onStorage_wp ((commitRoster_called (corpusBlobs P m.checkers corpus signer.pub)).and
    commitRoster_first)).mono ?_ ?_
  swap
  · rintro - root₃ ⟨hfile, hcalled, -⟩
    exact ⟨steps hfile, .inr ⟨signer, holds hfile, hs₂ ▸ hcalled⟩⟩
  rintro - root₃ ⟨hfile₃, hcalled₃, hgenesis⟩
  refine .bind <| (onStorage_wp seed_called).mono ?_ ?_
  swap
  · rintro - root₄ ⟨hfile, hcalled⟩
    replace hfile := hfile.trans hfile₃
    exact ⟨steps hfile, .inr ⟨signer, holds hfile, hs₂ ▸ hcalled₃.trans hcalled⟩⟩
  rintro rows root₄ ⟨hfile₄, hcalled₄⟩
  replace hfile₄ := hfile₄.trans hfile₃
  rw [hs₂] at hcalled₃ hgenesis
  have hcalled : Called P signer (corpusBlobs P m.checkers corpus signer.pub) root.storage root₄.storage :=
    hcalled₃.trans hcalled₄
  have stopped : Steps P root root₄ ∧
      Worked P .seedKeypair (fun signer => corpusBlobs P m.checkers corpus signer.pub) root root₄ :=
    ⟨steps hfile₄, .inr ⟨signer, holds hfile₄, hcalled⟩⟩
  refine .bind <| .read <| .bind <| .lift (fun _ _ => ?_) fun _ _ => stopped
  refine .bind <| .read <| .bind <| .lift (fun attested hattested => ?_) fun _ _ => stopped
  refine .bind <| .lift (fun _ _ => ?_) fun _ _ => stopped
  refine .bind <| (persistAnchor_wp (steps hfile₄).consistent (holds hfile₄) (holds_of_eq (congrFun hfile₄ _) hkeys)
    hentries).mono ?_ ?_
  swap
  · rintro - root₅ ⟨hsteps, hs⟩
    exact ⟨(steps hfile₄).trans hsteps, .inr ⟨signer, hsteps.later.seed (holds hfile₄), hs ▸ hcalled⟩⟩
  rintro record root₅ ⟨hpersisted, hsteps, hs⟩
  have stopped₅ : Steps P root root₅ ∧
      Worked P .seedKeypair (fun signer => corpusBlobs P m.checkers corpus signer.pub) root root₅ :=
    ⟨(steps hfile₄).trans hsteps, .inr ⟨signer, hpersisted.holdsSigner, hs ▸ hcalled⟩⟩
  refine .bind <| .lift (fun _ _ => ?_) fun _ _ => stopped₅
  refine .bind <| .statement stopped₅ <|
    .pure ⟨stopped₅.1, signer, keys, roster, hpersisted, hs ▸ hcalled, fun hnil => ?_, ?_⟩
  · rw [hs]
    exact (hgenesis hnil).grow hcalled₄.log_prefix
  · rw [hs]
    exact hattested

/-! ## Runs -/

/-- What `generate_keypair` is relied on for. -/
def Generates (P : Prims) : Boot → Prop
  | .seed m => P.KeyPair m.generated.priv m.generated.pub ∧ P.KeyPair m.serverGenerated.priv m.serverGenerated.pub
  | .serve m => P.KeyPair m.generated.priv m.generated.pub

theorem run_append (boots later : List Boot) : Boot.run P L corpus (boots ++ later) =
    later.foldl (Boot.exec P L corpus) (Boot.run P L corpus boots) := List.foldl_append ..

theorem served_calls {app : App} (requests : List HttpRequest) (v : Http.Served) :
    (requests.foldl (Http.serveOne P L app) v).storage =
      (Http.calls L app requests).foldl (StorageCall.exec P) v.storage := by
  induction requests generalizing v with
  | nil => rfl
  | cons r requests ih =>
    rw [List.foldl_cons, ih, Http.serveOne, Http.route_storage, Http.calls, Http.calls]
    cases hr : Http.call? L app r with
    | none => rw [List.filterMap_cons_none hr]; rfl
    | some c => rw [List.filterMap_cons_some hr]; rfl

/-- The blobs that a run can store, by the key pairs that are there after it. -/
def bootBlobs (P : Prims) (L : Lib) (corpus : Corpus) (root : DataRoot) : Boot → Set Bytes
  | .seed m => {b | ∃ signer, Holds P root .seedKeypair signer ∧ b ∈ corpusBlobs P m.checkers corpus signer.pub}
  | .serve m => {b | ∃ app, Holds P root .serverKeypair app.keys ∧ app.signerPubkey = app.keys.pub ∧
      b ∈ Http.storable P L app m.requests}

section Cbor

variable (hc : P.CborLaws) (ht : P.CborTruncated)
include hc ht

/-- What starting a server does, whether it starts or not. -/
theorem started_steps {root : DataRoot} (h : Consistent P root) {m : ServeMain} (hg : Generates P (.serve m)) :
    Steps P root (m.started P root) ∧ (m.started P root).storage = root.storage :=
  WP.state (I := fun root' => Steps P root root' ∧ root'.storage = root.storage)
    ((start_wp hc ht h hg).mono (fun _ _ h => h.2) fun _ _ h => h) m.fault

theorem starts_of_app? {root : DataRoot} (h : Consistent P root) {m : ServeMain}
    (hg : Generates P (.serve m)) {app : App}
    (happ : m.app? P root = some app) : Starts P (m.started P root) app :=
  ((start_wp hc ht h hg).ok (Prod.ext (toOption_eq_some.mp happ) rfl)).1

section Directory

variable (L corpus)

theorem exec_steps {root : DataRoot} (h : Consistent P root) {b : Boot} (hg : Generates P b) :
    Steps P root (b.exec P L corpus root) := by
  cases b with
  | seed m =>
    exact WP.state (I := Steps P root) ((main_wp h hg.1 hg.2).mono (fun _ _ h => h.1) fun _ _ h => h.1) m.fault
  | serve m =>
    have hstarted := (started_steps hc ht h hg).1
    show Steps P root (m.exec P L root)
    unfold ServeMain.exec
    split
    · exact hstarted
    · exact hstarted.trans (.of_file hstarted.consistent rfl)

theorem run_steps {root : DataRoot} (h : Consistent P root) {boots : List Boot} (hg : ∀ b ∈ boots, Generates P b) :
    Steps P root (boots.foldl (Boot.exec P L corpus) root) := by
  induction boots generalizing root with
  | nil => exact .refl h
  | cons b boots ih =>
    rw [List.forall_mem_cons] at hg
    have hstep := exec_steps L corpus hc ht h hg.1
    exact hstep.trans (ih hstep.consistent hg.2)

theorem run_directory {boots : List Boot} (hg : ∀ b ∈ boots, Generates P b) :
    Consistent P (Boot.run P L corpus boots) :=
  (run_steps L corpus hc ht .empty hg).consistent

theorem run_later {boots later : List Boot} (hg : ∀ b ∈ boots ++ later, Generates P b) :
    Later P (Boot.run P L corpus boots) (Boot.run P L corpus (boots ++ later)) := by
  rw [List.forall_mem_append] at hg
  rw [run_append]
  exact (run_steps L corpus hc ht (run_directory L corpus hc ht hg.1) hg.2).later

end Directory

/-! ## A directory as a session -/

/-- Calls under key pairs that match, of which the blobs are among `M`. -/
def Session (P : Prims) (M : Set Bytes) (s s' : Storage) : Prop :=
  ∃ calls : List StorageCall, (∀ c ∈ calls, P.KeyPair c.keys.priv c.keys.pub) ∧ verifiedBlobs P calls ⊆ M ∧
    s' = calls.foldl (StorageCall.exec P) s

omit hc ht in
theorem Called.session {keys : Keys} {M M' : Set Bytes} {s s' : Storage} (h : Called P keys M s s')
    (hk : P.KeyPair keys.priv keys.pub) (hM : M ⊆ M') : Session P M' s s' := by
  obtain ⟨calls, hkeys, hsub, hs⟩ := h
  refine ⟨calls, fun c hcall => ?_, hsub.trans hM, hs⟩
  rw [hkeys c hcall]
  exact hk

omit hc ht in
theorem Session.refl {M : Set Bytes} {s : Storage} : Session P M s s :=
  ⟨[], nofun, fun _ h => absurd h.choose_spec.1 List.not_mem_nil, rfl⟩

omit hc ht in
theorem Session.trans {M M' M'' : Set Bytes} {s s' s'' : Storage} (h : Session P M s s') (h' : Session P M' s' s'')
    (hM : M ⊆ M'') (hM' : M' ⊆ M'') : Session P M'' s s'' := by
  obtain ⟨calls, hk, hsub, rfl⟩ := h
  obtain ⟨calls', hk', hsub', rfl⟩ := h'
  refine ⟨calls ++ calls', List.forall_mem_append.mpr ⟨hk, hk'⟩, ?_, (List.foldl_append ..).symm⟩
  rintro m ⟨c, hcall, hm⟩
  obtain hcall | hcall := List.mem_append.mp hcall
  · exact hM (hsub ⟨c, hcall, hm⟩)
  · exact hM' (hsub' ⟨c, hcall, hm⟩)

theorem exec_session {root : DataRoot} (h : Consistent P root) {b : Boot} (hg : Generates P b) :
    Session P (bootBlobs P L corpus (b.exec P L corpus root) b) root.storage (b.exec P L corpus root).storage := by
  cases b with
  | seed m =>
    refine WP.state (I := fun root' => Session P (bootBlobs P L corpus root' (.seed m)) root.storage root'.storage)
      ((main_wp h hg.1 hg.2).mono ?_ ?_) m.fault
    · rintro report root' ⟨-, signer, keys, roster, hseeds⟩
      exact hseeds.called.session hseeds.persisted.holdsSigner.pair fun b hb =>
        ⟨signer, hseeds.persisted.holdsSigner, hb⟩
    · rintro - root' ⟨-, hs | ⟨signer, hsigner, hcalled⟩⟩
      · exact hs ▸ .refl
      · exact hcalled.session hsigner.pair fun b hb => ⟨signer, hsigner, hb⟩
  | serve m =>
    have hs := (started_steps hc ht h hg).2
    cases happ : m.app? P root with
    | none =>
      have hexec : Boot.exec P L corpus root (.serve m) = m.started P root := by
        show m.exec P L root = _
        rw [ServeMain.exec, happ]
      rw [hexec, hs]
      exact .refl
    | some app =>
      have hstarts := starts_of_app? hc ht h hg happ
      have hexec : Boot.exec P L corpus root (.serve m) =
          { m.started P root with storage := (m.served P L app root).storage } := by
        show m.exec P L root = _
        rw [ServeMain.exec, happ]
      rw [hexec]
      refine ⟨Http.calls L app m.requests, fun c hcall => ?_, fun b hb => ?_, ?_⟩
      · rw [Http.keys_of_mem_calls hcall]
        exact hstarts.keys.pair
      · exact ⟨app, ⟨hstarts.keys.file, hstarts.keys.pair⟩, hstarts.signer, Http.verifiedBlobs_calls (fun _ h => h) hb⟩
      · rw [← hs]
        exact served_calls m.requests _

/-- The blobs that these runs can store. -/
def runBlobs (P : Prims) (L : Lib) (corpus : Corpus) (root : DataRoot) (boots : List Boot) : Set Bytes :=
  {m | ∃ b ∈ boots, m ∈ bootBlobs P L corpus root b}

omit hc ht in
theorem bootBlobs_later {root root' : DataRoot} (h : Later P root root') (b : Boot) :
    bootBlobs P L corpus root b ⊆ bootBlobs P L corpus root' b := by
  cases b with
  | seed m =>
    rintro _ ⟨signer, hsigner, hb⟩
    exact ⟨signer, h.seed hsigner, hb⟩
  | serve m =>
    rintro _ ⟨app, hkeys, hsigner, hb⟩
    exact ⟨app, h.server hkeys, hsigner, hb⟩

variable (L corpus) in
theorem foldl_session {root : DataRoot} (h : Consistent P root) {boots : List Boot} (hg : ∀ b ∈ boots, Generates P b) :
    Session P (runBlobs P L corpus (boots.foldl (Boot.exec P L corpus) root) boots) root.storage
      (boots.foldl (Boot.exec P L corpus) root).storage := by
  induction boots generalizing root with
  | nil => exact .refl
  | cons b boots ih =>
    rw [List.forall_mem_cons] at hg
    have hstep := exec_steps L corpus hc ht h hg.1
    refine (exec_session hc ht h hg.1).trans (ih hstep.consistent hg.2) (fun m hm => ?_) fun m hm => ?_
    · exact ⟨b, List.mem_cons_self, bootBlobs_later (run_steps L corpus hc ht hstep.consistent hg.2).later b hm⟩
    · obtain ⟨b', hb', hm⟩ := hm
      exact ⟨b', List.mem_cons_of_mem _ hb', hm⟩

omit hc ht in
theorem Session.log_prefix {M : Set Bytes} {s s' : Storage} (h : Session P M s s') : s.log <+: s'.log := by
  obtain ⟨calls, -, -, rfl⟩ := h
  exact foldl_exec_prefix calls s

/-! ## The theorem -/

/-- Of two rosters on one directory the later names whom the earlier names. -/
theorem Loaded.subset {root root' : DataRoot} {r r' : Roster} (h : Loaded P root r) (hl : Later P root root')
    (h' : Loaded P root' r') : ∀ e ∈ r.entries, e ∈ r'.entries := by
  intro e he
  obtain ⟨hbs, hcomplete⟩ := h
  generalize r.entries = bs at hbs hcomplete he
  cases hbs with
  | served hkeys =>
    obtain rfl := List.mem_singleton.mp he
    exact h'.bindings.server (hl.server hkeys)
  | seeded hsigner hkeys =>
    obtain ⟨signer, keys, hsigner', hkeys', hw⟩ := hl.seeded ⟨_, _, hsigner, hkeys, hcomplete.written⟩
    rw [(hl.seed hsigner).unique hsigner', (hl.server hkeys).unique hkeys'] at he
    obtain ⟨bytes, hbytes, hfile⟩ := h'.complete
    obtain ⟨r'', hr'', hentries⟩ := fromBytes_rosterFormat hc h'.bindings.binds hbytes
    rw [Dict.ofList_eq_iff.mpr h'.bindings.nodup] at hentries
    have hboth := Bindings.seeded hsigner' hkeys'
    obtain ⟨-, hentries'⟩ := hw.read hc ht hboth.binds hboth.nodup hfile hr''
    rw [← hentries, hentries']
    exact he

variable (L corpus) in
/-- What was there when a server started is there after it and all later runs. -/
theorem started_later {root : DataRoot} (h : Consistent P root) {m : ServeMain} (hm : Generates P (.serve m))
    {later : List Boot} (hg : ∀ b ∈ later, Generates P b) :
    Later P (m.started P root) ((Boot.serve m :: later).foldl (Boot.exec P L corpus) root) := by
  have hstarted := (started_steps hc ht h hm).1
  have hexec : Steps P (m.started P root) (Boot.exec P L corpus root (.serve m)) := by
    show Steps P _ (m.exec P L root)
    unfold ServeMain.exec
    split
    · exact .refl hstarted.consistent
    · exact .of_file hstarted.consistent rfl
  exact (hexec.trans (run_steps L corpus hc ht hexec.consistent hg)).later

omit hc ht in
theorem mem_of_resolve {r : Roster} {agent : String} {key : Bytes} (h : r.resolve agent = some key) :
    (agent, key) ∈ r.entries := by
  obtain ⟨l, l', hl, -⟩ := List.lookup_eq_some_iff.mp h
  rw [hl]
  exact List.mem_append_right _ List.mem_cons_self

omit hc ht in
theorem resolve_of_mem {r : Roster} {agent : String} {key : Bytes} (h : (agent, key) ∈ r.entries) :
    r.resolve agent = some key := Dict.lookup_of_mem r.nodup h

/-- Two servers that start on one directory, the second of them on what the
first found and whatever was run since. -/
theorem starts_twice {before later : List Boot} {m m' : ServeMain}
    (hg : ∀ b ∈ before ++ .serve m :: later ++ [.serve m'], Generates P b) {app app' : App}
    (happ : m.app? P (Boot.run P L corpus before) = some app)
    (happ' : m'.app? P (Boot.run P L corpus (before ++ .serve m :: later)) = some app') :
    ∃ root root', Starts P root app ∧ Later P root root' ∧ Starts P root' app' := by
  rw [List.forall_mem_append, List.forall_mem_append, List.forall_mem_cons, List.forall_mem_singleton] at hg
  obtain ⟨⟨hbefore, hm, hlater⟩, hm'⟩ := hg
  have hroot := run_directory L corpus hc ht hbefore
  rw [run_append] at happ'
  have hroot' := (run_steps L corpus hc ht hroot (List.forall_mem_cons.mpr ⟨hm, hlater⟩)).consistent
  have hl := started_later L corpus hc ht hroot hm hlater
  exact ⟨_, _, starts_of_app? hc ht hroot hm happ, hl.trans (started_steps hc ht hroot' hm').1.later,
    starts_of_app? hc ht hroot' hm' happ'⟩

/-- Whatever scripts are run on a directory, and wherever they are stopped:
every server that starts signs as itself, its roster binds it, and each that is
started later has its keys and names everyone that it names. -/
theorem identities_kept (before later : List Boot) (m m' : ServeMain)
    (hg : ∀ b ∈ before ++ .serve m :: later ++ [.serve m'], Generates P b) {app app' : App}
    (happ : m.app? P (Boot.run P L corpus before) = some app)
    (happ' : m'.app? P (Boot.run P L corpus (before ++ .serve m :: later)) = some app') :
    P.KeyPair app.keys.priv app.keys.pub ∧ app.signerPubkey = app.keys.pub ∧
      app.roster.resolve serverAgent = some app.keys.pub ∧
      app'.keys = app.keys ∧
        ∀ agent key, app.roster.resolve agent = some key → app'.roster.resolve agent = some key := by
  obtain ⟨root, root', hstarts, hl, hstarts'⟩ := starts_twice hc ht hg happ happ'
  refine ⟨hstarts.keys.pair, hstarts.signer, resolve_of_mem (hstarts.roster.bindings.server hstarts.keys),
    hstarts'.keys.unique (hl.server hstarts.keys), fun agent key hres => resolve_of_mem ?_⟩
  exact hstarts.roster.subset hc ht hl hstarts'.roster _ (mem_of_resolve hres)

end Cbor

section Example

open Reference

/-- Two nodes, of which one is cited for the other. -/
def exampleCorpus : Corpus where
  nodes := [⟨"N5", .str "a", .str "math", .bool true⟩, ⟨"N7", .str "b", .str "math", .bool true⟩]
  edges := [⟨"E1", .citation, [], "N5", .str "", .k1, none⟩, ⟨"E2", .citation, ["N5"], "N7", .str "", .k1, some [1]⟩]

/-- A key pair whose bytes are all this one. -/
def keysOf (b : UInt8) : Keys := ⟨List.replicate 32 b, List.replicate 32 b⟩

theorem keysOf_pair (b : UInt8) : reference.KeyPair (keysOf b).priv (keysOf b).pub :=
  reference_keyPair (by simp [keysOf])

/-- A server that would generate this key pair. -/
def server (b : UInt8) : ServeMain := ⟨keysOf b, none, []⟩

/-- A server that is stopped after ten bytes of it. -/
def stoppedServer (b : UInt8) : ServeMain := ⟨keysOf b, some 11, []⟩

/-- A run of the seed script over `exampleCorpus`. -/
def seeding (fault : Option Nat) : SeedMain := ⟨keysOf 3, keysOf 4, lenient, 10, fun i => 20 + i, 90, fault⟩

/-- A server is stopped, another one is started, a run of the seed script is
stopped, and a third server is started. -/
theorem identities_kept_restarted : ∃ app app',
    (server 2).app? reference
        (Boot.run reference (Http.exampleLib []) exampleCorpus [.serve (stoppedServer 1)]) = some app ∧
    (server 5).app? reference (Boot.run reference (Http.exampleLib []) exampleCorpus
      ([.serve (stoppedServer 1)] ++ .serve (server 2) :: [.seed (seeding (some 90))])) = some app' ∧
    app'.keys = app.keys ∧ app.roster.resolve serverAgent = some app.keys.pub := by
  have happ : ((server 2).app? reference
      (Boot.run reference (Http.exampleLib []) exampleCorpus [.serve (stoppedServer 1)])).isSome = true := by
    decide +kernel
  have happ' : ((server 5).app? reference (Boot.run reference (Http.exampleLib []) exampleCorpus
      ([.serve (stoppedServer 1)] ++ .serve (server 2) :: [.seed (seeding (some 90))]))).isSome = true := by
    decide +kernel
  obtain ⟨app, happ⟩ := Option.isSome_iff_exists.mp happ
  obtain ⟨app', happ'⟩ := Option.isSome_iff_exists.mp happ'
  have hg : ∀ b ∈ [Boot.serve (stoppedServer 1)] ++ .serve (server 2) :: [.seed (seeding (some 90))] ++
      [.serve (server 5)],
      Generates reference b := by
    simp only [List.cons_append, List.nil_append, List.forall_mem_cons, List.not_mem_nil, false_implies, implies_true,
      and_true]
    exact ⟨keysOf_pair 1, keysOf_pair 2, ⟨keysOf_pair 3, keysOf_pair 4⟩, keysOf_pair 5⟩
  obtain ⟨-, -, hres, hkeys, -⟩ := identities_kept reference_cborLaws reference_cborTruncated _ _ _ _ hg happ happ'
  exact ⟨app, app', happ, happ', hkeys, hres⟩

end Example

end ArxDB.Proof.Deployment
