import ArxDB.Proof.Deployment.Boots
import ArxDB.Proof.Query

/-!
# The trust anchor of a seeded directory

A run of the seed script that returns leaves the roster and an anchor of the
whole log, which verifies. The log only goes on and the roster stays, so both
remain good for what the anchor counted (`seed_anchors`).
-/

namespace ArxDB.Proof.Deployment

open Impl Impl.DataRoot Failing Prog

variable {P : Prims} {L : Lib} {corpus : Corpus}

/-- The files are this roster and this record, which is an anchor of all that
is logged. -/
structure Anchored (P : Prims) (record : AnchorRecord) (roster : Roster) (root : DataRoot) : Prop where
  rosterFile : ∃ bytes, roster.rosterBytes P = .ok bytes ∧ root.file .roster = some bytes
  anchorFile : ∃ bytes, record.anchorBytes P = .ok bytes ∧ root.file .anchor = some bytes
  rosterHash : roster.rosterHash P = .ok record.rosterHash
  entryCount : record.entryCount = root.storage.log.length
  rootHash : AppendLog.rootHash P root.storage.log = .ok record.rootHash
  valid : Attest.verifyHistory P root.storage record.rootHash = .ok true

section Cbor

variable (hc : P.CborLaws) (ht : P.CborTruncated)
include hc ht

variable (L corpus) in
/-- The log of a directory is a chain of verified entries. -/
theorem run_log {boots : List Boot} (hg : ∀ b ∈ boots, Generates P b) :
    ∃ es, (Boot.run P L corpus boots).storage.log = es.map LogEntry.row ∧ Chain P es ∧
      ∀ e ∈ es, AppendLog.verifyEntry P e = .ok true := by
  obtain ⟨calls, hk, -, hs⟩ := foldl_session L corpus hc ht .empty hg
  have hsound : Sound P Set.univ (StorageCall.run P calls) := run_sound (Set.subset_univ _) hk
  rw [show (Boot.run P L corpus boots).storage = StorageCall.run P calls from hs]
  exact hsound.log

/-- What the roster of both key pairs binds stays what it binds. -/
theorem Persisted.loaded {signer keys : Keys} {roster : Roster} {now : Int} {record : AnchorRecord}
    {root root' : DataRoot}
    (h : Persisted P signer keys roster now record root) (hl : Later P root root') {r : Roster}
    (hr : Loaded P root' r) :
    r.entries = roster.entries := by
  obtain ⟨bytes, hbytes, hfile⟩ := h.rosterFile
  have hboth := Bindings.seeded h.holdsSigner h.holdsServer
  rw [← h.entries] at hboth
  have hloaded : Loaded P root roster := ⟨hboth, bytes, hbytes, hfile⟩
  have hsub := hloaded.subset hc ht hl hr
  rw [h.entries] at hsub ⊢
  obtain ⟨hbs, -⟩ := hr
  generalize r.entries = bs at hbs hsub
  cases hbs with
  | served =>
    have := hsub _ List.mem_cons_self
    simp [serverAgent] at this
  | seeded hsigner hkeys => rw [(hl.seed h.holdsSigner).unique hsigner, (hl.server h.holdsServer).unique hkeys]

omit hc ht in
/-- `persist_anchor` of a chain of verified entries. -/
theorem Persisted.anchor {signer keys : Keys} {roster : Roster} {now : Int} {record : AnchorRecord} {root : DataRoot}
    (h : Persisted P signer keys roster now record root)
    (hlog : ∃ es, root.storage.log = es.map LogEntry.row ∧ Chain P es ∧
      ∀ e ∈ es, AppendLog.verifyEntry P e = .ok true) :
    Anchored P record roster root := by
  have hanchored := h.anchored
  rw [Attest.anchor] at hanchored
  obtain ⟨rootHash, hrootHash, hanchored⟩ := bind_eq_ok.mp hanchored
  obtain ⟨rosterHash, hrosterHash, hanchored⟩ := bind_eq_ok.mp hanchored
  obtain rfl := Except.ok.inj hanchored
  obtain ⟨es, hs, hes, hv⟩ := hlog
  refine ⟨h.rosterFile, h.anchorFile, hrosterHash, rfl, hrootHash, ?_⟩
  rw [hs, rootHash_map_row hes.seq] at hrootHash
  rw [← Except.ok.inj hrootHash]
  exact hes.verifyHistory hv hs

/-- A run of the seed script that returns, on whatever was run before, leaves
files that are a trust anchor of all that is logged. After all later runs the
entries that the anchor counts still have its root, every server that starts
has the roster of the files, and if that run was the first to log, then the log
begins with the roster. -/
theorem seed_anchors (before later : List Boot) (m : SeedMain)
    (hg : ∀ b ∈ before ++ .seed m :: later, Generates P b) {report : SeedReport} {root : DataRoot}
    (hm : (m.main P corpus).exec m.fault (Boot.run P L corpus before) = (.ok report, root)) :
    ∃ roster : Roster, Anchored P report.anchor roster root ∧
      AppendLog.rootHash P
          ((Boot.run P L corpus (before ++ .seed m :: later)).storage.log.take report.anchor.entryCount) =
        .ok report.anchor.rootHash ∧
      (∀ m' app', Generates P (.serve m') →
        m'.app? P (Boot.run P L corpus (before ++ .seed m :: later)) = some app' →
          app'.roster.entries = roster.entries) ∧
      ((Boot.run P L corpus before).storage.log = [] →
        Genesis P roster (Boot.run P L corpus (before ++ .seed m :: later)).storage.log) := by
  have hrun : Boot.run P L corpus (before ++ [.seed m]) = root := by
    rw [Boot.run, List.foldl_concat]
    exact congrArg Prod.snd hm
  have hrun' : Boot.run P L corpus (before ++ .seed m :: later) = later.foldl (Boot.exec P L corpus) root := by
    rw [List.append_cons, Boot.run, List.foldl_append]
    exact congrArg (later.foldl (Boot.exec P L corpus)) hrun
  rw [List.forall_mem_append, List.forall_mem_cons] at hg
  obtain ⟨hbefore, hgm, hlater⟩ := hg
  have hroot := run_directory L corpus hc ht hbefore
  obtain ⟨hsteps, signer, keys, roster, hseeds⟩ := (main_wp hroot hgm.1 hgm.2).ok hm
  have hcalled := foldl_session L corpus hc ht hsteps.consistent hlater
  have hkeep := run_steps L corpus hc ht hsteps.consistent hlater
  have hlog := run_log L corpus hc ht
    (List.forall_mem_append.mpr ⟨hbefore, List.forall_mem_singleton.mpr hgm⟩)
  rw [hrun] at hlog
  have hanchored := hseeds.persisted.anchor hlog
  rw [hrun']
  refine ⟨roster, hanchored, ?_, fun m' app' hgm' happ' => ?_, fun hnil => ?_⟩
  · obtain ⟨rest, hrest⟩ := hcalled.log_prefix
    rw [← hrest, hanchored.entryCount, List.take_left]
    exact hanchored.rootHash
  · have hstarts := starts_of_app? hc ht hkeep.consistent hgm' happ'
    exact hseeds.persisted.loaded hc ht
      (hkeep.later.trans (started_steps hc ht hkeep.consistent hgm').1.later) hstarts.roster
  · exact (hseeds.genesis hnil).grow hcalled.log_prefix

end Cbor

/-! ## A run that returns -/

/-- The queries of the exit criteria answer. -/
theorem exitCriteria_ok {n5 n7 : Node} {k5 k7 : Hash} (h5 : Seed.node corpus "N5" = .ok n5) (h5' : n5.nodeId P = .ok k5)
    (h7 : Seed.node corpus "N7" = .ok n7) (h7' : n7.nodeId P = .ok k7) (s : Storage) :
    ∃ r, Seed.exitCriteria P corpus s = .ok r := by
  obtain ⟨a, ha, -⟩ := reachable_derives P k5 s .k0 [] none
  obtain ⟨b, hb, -⟩ := reachable_derives P k7 s .k1 [] none
  obtain ⟨c, hc, -⟩ := pathDiscovery_reachable (P := P) s k7 .k1
  exact ⟨(a, b, c), by
    simp only [Seed.exitCriteria, h5, h5', h7, h7', ha, hb, hc, bind, Except.bind, pure, Except.pure]⟩

/-- `main` without the queries that it prints. -/
def quiet (P : Prims) (corpus : Corpus) (m : SeedMain) : Prog PyError DataRoot SeedReport := do
  let keys ← loadOrCreateKeypair .seedKeypair m.generated
  let serverKeys ← loadOrCreateKeypair .serverKeypair m.serverGenerated
  statement .fault
  let roster ← lift (Seed.roster keys.pub serverKeys.pub)
  let _ ← onStorage (Attest.commitRoster P keys m.now roster)
  let rows ← onStorage (Seed.seed P m.checkers keys m.clock corpus keys.pub)
  let attested ← lift (← read fun root => Seed.verifySeedAttestation P m.checkers corpus root.storage roster keys.pub)
  let _ ← lift (roster.rosterHash P)
  let anchor ← Seed.persistAnchor P roster m.anchoredAt
  let _ ← lift (anchor.anchorHash P)
  statement .fault
  pure { rows, attested, anchor }

theorem main_eq_quiet (h : ∀ s, ∃ r, Seed.exitCriteria P corpus s = .ok r) (m : SeedMain) :
    m.main P corpus = quiet P corpus m := by
  have skip : ∀ {α : Type} (x : Prog PyError DataRoot α),
      (Prog.read (fun root => Seed.exitCriteria P corpus root.storage) >>= fun r => lift r >>= fun _ => x) = x := by
    intro α x
    funext r
    obtain ⟨a, ha⟩ := h r.state.storage
    simp only [bind, Prog.read, lift, ha]
  unfold SeedMain.main quiet
  simp only [skip]

section Example

open Reference

/-- The example's nodes have ids. -/
theorem exampleCorpus_exit (s : Storage) : ∃ r, Seed.exitCriteria reference exampleCorpus s = .ok r := by
  have h5 : ((Seed.node exampleCorpus "N5").toOption.bind fun n => (n.nodeId reference).toOption).isSome = true := by
    decide +kernel
  have h7 : ((Seed.node exampleCorpus "N7").toOption.bind fun n => (n.nodeId reference).toOption).isSome = true := by
    decide +kernel
  obtain ⟨k5, h5⟩ := Option.isSome_iff_exists.mp h5
  obtain ⟨n5, hn5, h5⟩ := Option.bind_eq_some_iff.mp h5
  obtain ⟨k7, h7⟩ := Option.isSome_iff_exists.mp h7
  obtain ⟨n7, hn7, h7⟩ := Option.bind_eq_some_iff.mp h7
  exact exitCriteria_ok (toOption_eq_some.mp hn5) (toOption_eq_some.mp h5) (toOption_eq_some.mp hn7)
    (toOption_eq_some.mp h7) s

/-- A server that accepts a citation. -/
def citingOnce : ServeMain := ⟨keysOf 4, none, [Http.request .POST "/commit" 0]⟩

/-- A run of the seed script is stopped after its first edge, another one
returns, and then a server logs one more edge. -/
theorem seed_anchors_reseeded : ∃ report root, ∃ roster : Roster,
    ((seeding none).main reference exampleCorpus).exec none
      (Boot.run reference (Http.exampleLib Http.exampleBodies) exampleCorpus [.seed (seeding (some 150))]) =
        (.ok report, root) ∧
    Anchored reference report.anchor roster root ∧ report.rows.map SeedRow.status = [.skip, .matched] ∧
    (let later := Boot.run reference (Http.exampleLib Http.exampleBodies) exampleCorpus
      ([.seed (seeding (some 150))] ++ .seed (seeding none) :: [.serve citingOnce])
    report.anchor.entryCount < later.storage.log.length ∧
    AppendLog.rootHash reference (later.storage.log.take report.anchor.entryCount) = .ok report.anchor.rootHash) := by
  have hrun : (((quiet reference exampleCorpus (seeding none)).exec none
      (Boot.run reference (Http.exampleLib Http.exampleBodies) exampleCorpus
        [.seed (seeding (some 150))])).1.toOption.map
        fun report => (report.rows.map SeedRow.status, report.anchor.entryCount)) = some ([.skip, .matched], 2) := by
    decide +kernel
  rw [← main_eq_quiet exampleCorpus_exit] at hrun
  obtain ⟨report, hreport, hrows⟩ := Option.map_eq_some_iff.mp hrun
  have hm := exec_eq_ok (toOption_eq_some.mp hreport)
  have hg : ∀ b ∈ [Boot.seed (seeding (some 150))] ++ .seed (seeding none) :: [.serve citingOnce],
      Generates reference b := by
    simp only [List.cons_append, List.nil_append, List.forall_mem_cons, List.not_mem_nil, false_implies, implies_true,
      and_true]
    exact ⟨⟨keysOf_pair 3, keysOf_pair 4⟩, ⟨keysOf_pair 3, keysOf_pair 4⟩, keysOf_pair 4⟩
  obtain ⟨roster, hanchored, hroot, -⟩ := seed_anchors (L := Http.exampleLib Http.exampleBodies) reference_cborLaws
    reference_cborTruncated [.seed (seeding (some 150))] [.serve citingOnce] (seeding none) hg hm
  obtain ⟨hrows, hcount⟩ := Prod.mk.inj hrows
  refine ⟨report, _, roster, hm, hanchored, hrows, ?_, hroot⟩
  rw [hcount, Boot.run, List.foldl_append, List.foldl_cons, Boot.exec, main_eq_quiet exampleCorpus_exit]
  decide +kernel

end Example

end ArxDB.Proof.Deployment
