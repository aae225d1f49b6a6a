import ArxDB.Proof.Go.Ceremony
import ArxDB.Proof.Go.Daemon

/-!
# Reading the log back

Along every schedule the daemon holds under a number what was committed last
under it (`Stored`). So entries can be read back, and `verify_history` run over
them, exactly when no payload was empty (`entries_survive_iff`): an empty
`bytes` field is delivered as nil and encoded as null, which is not bytes.
-/

namespace ArxDB.Proof.Go

open Impl (Bytes GoAny Hash Prims)
open Impl.Go Failing BigEndian Staged

variable {P : Prims} {kp : Keypair} {db : Pebble} {s : Storage} {acked : List (Rpc × Pending)}

/-! ## What a request stages -/

/-- `d` is staged for the request, from this database: the next entry, after writes to the graph. -/
def StagesNext (P : Prims) (kp : Keypair) (rpc : Rpc) (d : Pending) (db : Pebble) : Prop :=
  ∃ pre, (∀ kv ∈ pre, Tagged graphTags kv.1) ∧
    Next P kp rpc.now db pre (.ofField rpc.request.payload) d.batch d.response.entry

theorem stage_next {rpc : Rpc} : WP (Service.stage P kp rpc.now rpc.request)
    (fun d _ => StagesNext P kp rpc d s.db) (fun _ _ => True) s := by
  obtain ⟨request, now, fault⟩ := rpc
  cases request with
  | append entry =>
    refine .bind (.mapError (stageAppend_wp.mono (fun r s' h => ?_) fun _ _ _ => trivial))
    exact .pure ⟨[], by simp, h.1⟩
  | commitEdge premises conclusion edgeData proof =>
    refine .bind (.lift (fun conclusion' _ => ?_) fun _ _ => trivial)
    refine .bind (.lift (fun premises' _ => ?_) fun _ _ => trivial)
    refine .bind (.mapError (stageEdgeTx_wp.mono (fun r s' h => ?_) fun _ _ _ => trivial))
    obtain ⟨-, hn, rfl⟩ := h
    exact .pure ⟨_, fun kv hkv => (edgeSets_keys hkv).1, hn⟩

theorem prepare_next {rpc : Rpc} {d : Pending} (h : ((Daemon.protocol P kp).prepare rpc s).1 = some d) :
    StagesNext P kp rpc d s.db := by
  have hok := toOption_eq_some.mp h
  exact stage_next.ok (Prod.ext hok rfl)

/-- The entry is one for this request: of its payload, signed by the daemon, and encoded. -/
structure Answers (P : Prims) (kp : Keypair) (request : Request) (le : LogEntry) : Prop where
  payload : le.payload = .ofField request.payload
  entryHash : le.entryHash = P.hashBytes request.payload
  signerPubkey : le.signerPubkey = kp.pub
  signed : ∃ message,
    AppendLog.signatureMessage P le.seq le.timestampNs kp.pub le.entryHash le.prevLogHash = .ok message ∧
    sign P kp.priv message = .ok le.signature
  encoded : ∃ data, AppendLog.encodeEntry P le = .ok data

theorem StagesNext.answers {rpc : Rpc} {d : Pending} (h : StagesNext P kp rpc d db) :
    Answers P kp rpc.request d.response.entry := by
  obtain ⟨pre, -, hn⟩ := h
  have hhash := hn.entryHash
  rw [ofField_bytes] at hhash
  have hsigned := hn.signed
  rw [← hn.timestampNs] at hsigned
  obtain ⟨data, henc, -⟩ := hn.sets
  exact ⟨hn.payload, hhash, hn.signerPubkey, hsigned, data, henc⟩

/-! ## What is held under a number -/

/-- The request that committed last under a number. -/
def latest (acked : List (Rpc × Pending)) (seq : Int64) : Option (Rpc × Pending) :=
  acked.reverse.find? fun a => a.2.response.entry.seq = seq

theorem latest_concat {a : Rpc × Pending} {seq : Int64} :
    latest (acked ++ [a]) seq = if a.2.response.entry.seq = seq then some a else latest acked seq := by
  rw [latest, List.reverse_append, List.reverse_singleton, List.singleton_append, List.find?_cons]
  by_cases h : a.2.response.entry.seq = seq
  · simp [h]
  · simp [h, latest]

theorem mem_of_latest {a : Rpc × Pending} {seq : Int64} (h : latest acked seq = some a) : a ∈ acked :=
  List.mem_reverse.mp (List.mem_of_find?_eq_some h)

theorem exists_latest {a : Rpc × Pending} (h : a ∈ acked) : ∃ a', latest acked a.2.response.entry.seq = some a' := by
  apply Option.isSome_iff_exists.mp
  rw [latest, List.find?_isSome]
  exact ⟨a, List.mem_reverse.mpr h, by simp⟩

/-- The database holds what was committed last, under every number below the length. -/
structure Stored (P : Prims) (kp : Keypair) (acked : List (Rpc × Pending)) (db : Pebble) : Prop where
  entry (seq : Int64) : db[AppendLog.entryKey seq]?.map .ok =
    (latest acked seq).map fun a => AppendLog.encodeEntry P a.2.response.entry
  covered {seq : Int64} (h₀ : 0 ≤ seq) (h : seq < AppendLog.len db) : ∃ a ∈ acked, a.2.response.entry.seq = seq
  answers {a : Rpc × Pending} (h : a ∈ acked) : Answers P kp a.1.request a.2.response.entry

theorem Stored.empty : Stored P kp [] ∅ where
  entry seq := by
    rw [Std.ExtTreeMap.getElem?_empty]
    rfl
  covered {seq} h₀ h := by
    rw [AppendLog.len, Std.ExtTreeMap.getElem?_empty, Int64.lt_iff_toInt_lt] at h
    rw [Int64.le_iff_toInt_le] at h₀
    exact absurd h (Int.not_lt.mpr h₀)
  answers h := by cases h

/-- A commit of what was staged when fewer entries had been committed. -/
theorem Stored.commit {acked₁ : List (Rpc × Pending)} {db₁ : Pebble} {rpc : Rpc} {d : Pending}
    (hpre : acked₁ <+: acked) (h₁ : Stored P kp acked₁ db₁) (h : Stored P kp acked db)
    (hd : Stages P rpc.request d) (hseq : d.response.entry.seq = AppendLog.len db₁)
    (hans : Answers P kp rpc.request d.response.entry) :
    Stored P kp (acked ++ [(rpc, d)]) (db.commit d.batch) := by
  obtain ⟨⟨enc, henc, hget⟩, hother, hlen, -⟩ := hd.commit db
  refine ⟨fun seq => ?_, fun {seq} h₀ hlt => ?_, fun {a} ha => ?_⟩
  · rw [latest_concat]
    by_cases he : d.response.entry.seq = seq
    · subst he
      rw [if_pos rfl, hget, Option.map_some, Option.map_some, henc]
    · rw [if_neg he, hother _ (Ne.symm he)]
      exact h.entry seq
  · -- the numbers below that of the entry were covered when it was staged
    rw [hlen] at hlt
    rcases lt_succ_cases hlt h₀ with hlt | rfl
    · obtain ⟨a, ha, hs⟩ := h₁.covered h₀ (hseq ▸ hlt)
      exact ⟨a, List.mem_append_left _ (hpre.subset ha), hs⟩
    · exact ⟨(rpc, d), List.mem_append_right _ List.mem_cons_self, rfl⟩
  · rcases List.mem_append.mp ha with ha | ha
    · exact h.answers ha
    · obtain rfl := List.mem_singleton.mp ha
      exact hans

theorem stored_rule (P : Prims) (kp : Keypair) :
    StaleRule (Daemon.protocol P kp) Daemon.start fun acked s => Stored P kp acked s.db where
  init := .empty
  prepare rpc h := by
    rw [prepare_db]
    exact h
  commit hpre h₁ h hd := by
    obtain ⟨hst, hseq⟩ := prepare_eq_some hd
    exact Stored.commit hpre h₁ h hst hseq (prepare_next hd).answers

/-! ## What a client verifies -/

theorem pub_size (kp : Keypair) : kp.pub.length = 32 := by
  rw [Keypair.pub, List.length_drop, kp.size]

/-- The client verifies an entry of the daemon against the signature that the daemon made. -/
theorem Answers.verifyEntry {request : Request} {le : LogEntry} (agree : P.CborAgree)
    (h : Answers P kp request le) : ∃ message, GrpcStorage.verifyEntry P (clientEntry le) =
      .ok (P.ed25519Verify kp.pub message (P.ed25519Sign kp.priv message).toList) := by
  obtain ⟨message, hm, hs⟩ := h.signed
  have hsig : le.signature = (P.ed25519Sign kp.priv message).toList := by
    rw [sign] at hs
    split at hs
    · cases hs
    · exact (Except.ok.inj hs).symm
  have hmessage : Impl.AppendLog.signatureMessage P le.seq.toInt le.timestampNs.toInt kp.pub le.entryHash
      le.prevLogHash = .ok message := agree.encode_marshal rfl (by simp) (encode_eq_ok.mp hm)
  have hpayload : P.hashBytes le.payload.bytes = le.entryHash := by
    rw [h.payload, ofField_bytes, h.entryHash]
  refine ⟨message, ?_⟩
  rw [GrpcStorage.verifyEntry, Impl.AppendLog.verifyEntry, clientEntry, h.signerPubkey, hsig]
  simp only [hpayload, hmessage, Prims.verify, pub_size, Vector.length_toList, bind, Except.bind,
    Except.mapError, ne_eq,
    not_true_eq_false, if_false]

theorem client_get_ofNat {i : Nat} (hi : i < 2 ^ 63) {le : LogEntry}
    (h : AppendLog.get P s.db (.ofNat i) = .ok (some le)) : GrpcStorage.get P s i = .ok (some (clientEntry le)) := by
  have hseq : ¬ ((i : Int) < -2 ^ 63 ∨ 2 ^ 63 ≤ (i : Int)) := by omega
  rw [GrpcStorage.get, if_neg hseq, Service.getEntry, Int64.ofInt_eq_ofNat, h]
  show some <$> GrpcStorage.logEntryFromProto le = _
  rw [logEntryFromProto_eq]
  rfl

/-- Entries that are read and checked without an exception. -/
theorem verifyHistoryFrom_returns {seqs : List Nat} (prev : Hash) (acc : List Hash)
    (h : ∀ seq ∈ seqs, ∃ e valid, GrpcStorage.get P s (seq : Nat) = .ok (some e) ∧
      GrpcStorage.verifyEntry P e = .ok valid) :
    ∃ r, GrpcStorage.verifyHistoryFrom P s seqs prev acc = .ok r := by
  induction seqs generalizing prev acc with
  | nil => exact ⟨_, rfl⟩
  | cons seq seqs ih =>
    obtain ⟨e, valid, hget, hv⟩ := h seq List.mem_cons_self
    have hrest := ih e.entryHash (acc ++ [e.entryHash]) fun seq' hseq' => h seq' (List.mem_cons_of_mem _ hseq')
    simp only [GrpcStorage.verifyHistoryFrom, hget, hv, bind, Except.bind]
    by_cases hp : e.prevLogHash = prev
    · cases valid with
      | false => exact ⟨_, rfl⟩
      | true => simpa [hp] using hrest
    · cases valid with
      | false => exact ⟨_, rfl⟩
      | true => exact ⟨none, by simp [hp, pure, Except.pure]⟩

/-- Entries that are linked and all verified. -/
theorem verifyHistoryFrom_of_linked {seqs : List Nat} {es : List Impl.LogEntry} {prev : Hash} (acc : List Hash)
    (hread : List.Forall₂ (fun (seq : Nat) e => GrpcStorage.get P s seq = .ok (some e)) seqs es)
    (hv : ∀ e ∈ es, GrpcStorage.verifyEntry P e = .ok true) (hl : Proof.Linked prev es) :
    GrpcStorage.verifyHistoryFrom P s seqs prev acc = .ok (some (acc ++ es.map Impl.LogEntry.entryHash)) := by
  induction hread generalizing prev acc with
  | nil =>
    rw [List.map_nil, List.append_nil]
    rfl
  | @cons seq e seqs es hget _ ih =>
    obtain ⟨hp, hl⟩ := hl
    rw [List.forall_mem_cons] at hv
    have hrest := ih (acc ++ [e.entryHash]) hv.2 hl
    rw [List.append_assoc, List.singleton_append] at hrest
    rw [List.map_cons, ← hrest]
    simp [GrpcStorage.verifyHistoryFrom, hget, hv.1, hp, bind, Except.bind]

theorem tipHash_clientEntry (log : List LogEntry) :
    tipHash Impl.AppendLog.genesisPrevHash (log.map clientEntry) =
      (log.getLast?.map LogEntry.entryHash).getD AppendLog.genesisPrevHash := by
  rcases List.eq_nil_or_concat' log with rfl | ⟨log, le, rfl⟩
  · rfl
  · simp [tipHash, clientEntry]

/-- The entries are linked as the client links them. -/
theorem linked_clientEntry {log : List LogEntry} (h : Linked P log) :
    Proof.Linked Impl.AppendLog.genesisPrevHash (log.map clientEntry) := by
  have key : ∀ i ≤ log.length, Proof.Linked Impl.AppendLog.genesisPrevHash ((log.take i).map clientEntry) := by
    intro i
    induction i with
    | zero => exact fun _ => trivial
    | succ i ih =>
      intro hi
      have hlt : i < log.length := hi
      have hget : log[i]? = some log[i] := List.getElem?_eq_getElem hlt
      rw [List.take_add_one, hget, Option.toList_some, List.map_append, List.map_singleton, linked_concat]
      refine ⟨ih (by omega), ?_⟩
      rw [tipHash_clientEntry]
      exact h.prevLogHash hget
  have hall := key log.length le_rfl
  rwa [List.take_length] at hall

/-! ## Every schedule -/

/-- What a client may expect of a log: entries come back as they were stored,
every number below the length has the entry that was appended last under it,
and the history can be checked against a root. -/
structure EntriesSurvive (P : Prims) (t : Server Storage Rpc Pending) : Prop where
  roundTrip {a : Rpc × Pending} (h : a ∈ t.acked) : ∃ data, AppendLog.encodeEntry P a.2.response.entry = .ok data ∧
    AppendLog.decodeEntry P data = .ok a.2.response.entry
  get {seq : Int64} (h₀ : 0 ≤ seq) (h : seq < AppendLog.len t.shared.db) : ∃ a, latest t.acked seq = some a ∧
    a.2.response.entry.payload.bytes = a.1.request.payload ∧
    AppendLog.get P t.shared.db seq = .ok (some a.2.response.entry)
  history (root : Hash) : ∃ valid, GrpcStorage.verifyHistory P t.shared root = .ok valid

theorem Answers.decoded {request : Request} {le : LogEntry} {data : Bytes} (laws : P.GoCborLaws)
    (h : Answers P kp request le) (henc : AppendLog.encodeEntry P le = .ok data) :
    AppendLog.decodeEntry P data = .ok le ↔ request.payload ≠ [] := by
  rw [decodeEntry_encodeEntry laws henc, h.payload, Slice.ofField]
  by_cases hp : request.payload = []
  · simp [hp]
  · simp [hp]

theorem Stored.get {t : Server Storage Rpc Pending} (laws : P.GoCborLaws) (h : Stored P kp t.acked t.shared.db)
    (hne : ∀ a ∈ t.acked, a.1.request.payload ≠ []) {seq : Int64} (h₀ : 0 ≤ seq)
    (hlt : seq < AppendLog.len t.shared.db) : ∃ a, latest t.acked seq = some a ∧
      a.2.response.entry.payload.bytes = a.1.request.payload ∧
      AppendLog.get P t.shared.db seq = .ok (some a.2.response.entry) := by
  obtain ⟨a', ha', rfl⟩ := h.covered h₀ hlt
  obtain ⟨a, ha⟩ := exists_latest ha'
  have hans := h.answers (mem_of_latest ha)
  obtain ⟨data, henc⟩ := hans.encoded
  have hheld := h.entry a'.2.response.entry.seq
  rw [ha, Option.map_some, henc, Option.map_eq_some_iff] at hheld
  obtain ⟨data', hget, hdata⟩ := hheld
  obtain rfl := Except.ok.inj hdata
  refine ⟨a, ha, by rw [hans.payload, ofField_bytes], ?_⟩
  simp only [AppendLog.get, hget, (hans.decoded laws henc).mpr (hne a (mem_of_latest ha))]
  rfl

/-- In one state. -/
theorem Stored.survive_iff {t : Server Storage Rpc Pending} (laws : P.GoCborLaws) (agree : P.CborAgree)
    (h : Stored P kp t.acked t.shared.db) : EntriesSurvive P t ↔
      (∀ a ∈ t.acked, a.1.request.payload ≠ []) ∧ ¬ AppendLog.len t.shared.db < 0 := by
  constructor
  · intro hs
    refine ⟨fun a ha => ?_, fun hneg => ?_⟩
    · obtain ⟨data, henc, hdec⟩ := hs.roundTrip ha
      exact ((h.answers ha).decoded laws henc).mp hdec
    · obtain ⟨valid, hvalid⟩ := hs.history AppendLog.genesisPrevHash
      have hlen : GrpcStorage.len t.shared = .error (.raised .valueError) := by
        rw [GrpcStorage.len]
        exact if_pos hneg
      rw [GrpcStorage.verifyHistory, hlen] at hvalid
      cases hvalid
  · intro hcond
    obtain ⟨hne, hlen⟩ := hcond
    refine ⟨fun {a} ha => ?_, fun h₀ hlt => h.get laws hne h₀ hlt, fun root => ?_⟩
    · obtain ⟨data, henc⟩ := (h.answers ha).encoded
      exact ⟨data, henc, ((h.answers ha).decoded laws henc).mpr (hne a ha)⟩
    · have hread : ∀ i ∈ List.range (AppendLog.len t.shared.db).toInt.toNat, ∃ e valid,
          GrpcStorage.get P t.shared (i : Nat) = .ok (some e) ∧ GrpcStorage.verifyEntry P e = .ok valid := by
        intro i hi
        have hmax := Int64.toInt_lt (AppendLog.len t.shared.db)
        have hi := List.mem_range.mp hi
        have h63 : i < 2 ^ 63 := by omega
        have h₀ : (0 : Int64) ≤ .ofNat i := by
          rw [Int64.le_iff_toInt_le, Int64.toInt_ofNat_of_lt h63]
          exact Int.natCast_nonneg i
        have hlt : Int64.ofNat i < AppendLog.len t.shared.db := by
          rw [Int64.lt_iff_toInt_lt, Int64.toInt_ofNat_of_lt h63]
          omega
        obtain ⟨a, ha, -, hget⟩ := h.get laws hne h₀ hlt
        obtain ⟨message, hv⟩ := (h.answers (mem_of_latest ha)).verifyEntry agree
        exact ⟨_, _, client_get_ofNat h63 hget, hv⟩
      obtain ⟨r, hr⟩ := verifyHistoryFrom_returns Impl.AppendLog.genesisPrevHash [] hread
      rw [GrpcStorage.verifyHistory, client_len_eq_ok.mpr ⟨hlen, rfl⟩]
      simp only [bind, Except.bind, hr]
      cases r with
      | none => exact ⟨false, rfl⟩
      | some hs => exact ⟨_, rfl⟩

/-! ## Undisturbed schedules -/

/-- The entries that were committed, in order. -/
def committed (acked : List (Rpc × Pending)) : List LogEntry := acked.map fun a => a.2.response.entry

theorem linked_rule (P : Prims) (kp : Keypair) : Rule (Daemon.protocol P kp) Daemon.start
    (fun acked s => acked.length ≤ 2 ^ 63 → LogHolds P (committed acked) s.db ∧ Linked P (committed acked))
    (fun rpc d s => StagesNext P kp rpc d s.db) where
  init _ := by
    refine ⟨.empty, fun h => ?_, fun h => ?_, fun h => ?_⟩
    all_goals cases h
  prepare rpc h := by
    rw [prepare_db]
    exact h
  fresh h := by
    rw [prepare_db]
    exact prepare_next h
  still rpc h := by
    rw [prepare_db]
    exact h
  commit h hd hlt := by
    rw [List.length_append, List.length_singleton] at hlt
    obtain ⟨hholds, hlinked⟩ := h (by omega)
    obtain ⟨pre, hpre, hn⟩ := hd
    rw [committed, List.map_append, List.map_singleton]
    exact hholds.next hlinked (by rw [committed, List.length_map]; omega) hpre hn

/-- `verify_history` accepts the log of an undisturbed schedule with the root that the daemon gives. -/
theorem verifyHistory_undisturbed (laws : P.GoCborLaws) (agree : P.CborAgree) (hkp : P.KeyPair kp.priv kp.pub)
    {steps : List (Step Rpc)} {t : Server Storage Rpc Pending} (h : Daemon.run P kp steps = some t)
    (hu : Undisturbed steps) (hlt : t.acked.length < 2 ^ 63) (hne : ∀ a ∈ t.acked, a.1.request.payload ≠ []) :
    ∃ root, GrpcStorage.rootHash P t.shared = .ok root ∧ GrpcStorage.verifyHistory P t.shared root = .ok true := by
  have hstored : Stored P kp t.acked t.shared.db := (stored_rule P kp).run h
  obtain ⟨hholds, hlinked⟩ := (linked_rule P kp).run hu h (by omega)
  have hcount : (committed t.acked).length = t.acked.length := List.length_map ..
  have hlen : (AppendLog.len t.shared.db).toInt = t.acked.length := by
    rw [hholds.len, hcount, Int64.toInt_ofNat_of_lt hlt]
  have hneg : ¬ AppendLog.len t.shared.db < 0 := by
    rw [hholds.len, hcount]
    exact ofNat_nonneg hlt
  have hread : List.Forall₂ (fun (seq : Nat) e => GrpcStorage.get P t.shared seq = .ok (some e))
      (List.range t.acked.length) ((committed t.acked).map clientEntry) := by
    rw [List.forall₂_iff_get]
    refine ⟨by simp [hcount], fun i h₁ h₂ => ?_⟩
    have hi : i < t.acked.length := by simpa using h₁
    have hget := hholds.get laws (by omega) (.ofNat i)
    have hentry : (committed t.acked)[i]? = some t.acked[i].2.response.entry := by simp [committed, hi]
    have hpay : t.acked[i].2.response.entry.payload ≠ none := by
      rw [(hstored.answers (List.getElem_mem hi)).payload, Slice.ofField, if_neg (hne _ (List.getElem_mem hi))]
      exact Option.some_ne_none _
    rw [entryAt_ofNat (by omega), hentry, Option.elim_some, if_neg hpay] at hget
    simpa [committed] using client_get_ofNat (by omega) hget
  have hverified : ∀ e ∈ (committed t.acked).map clientEntry, GrpcStorage.verifyEntry P e = .ok true := by
    intro e he
    obtain ⟨le, hle, rfl⟩ := List.mem_map.mp he
    obtain ⟨a, ha, rfl⟩ := List.mem_map.mp hle
    obtain ⟨message, hv⟩ := (hstored.answers ha).verifyEntry agree
    rw [hv, hkp.accepts]
  have hloop := verifyHistoryFrom_of_linked [] hread hverified (linked_clientEntry hlinked)
  have hhashes : ((committed t.acked).map clientEntry).map Impl.LogEntry.entryHash =
      (committed t.acked).map LogEntry.entryHash := by
    rw [List.map_map]
    rfl
  rw [List.nil_append, hhashes] at hloop
  refine ⟨_, client_rootHash_eq_ok.mpr ⟨_, hholds.entryHashes (by omega), rfl⟩, ?_⟩
  rw [GrpcStorage.verifyHistory, client_len_eq_ok.mpr ⟨hneg, rfl⟩]
  simp only [bind, Except.bind, hlen, Int.toNat_natCast, hloop, pure, Except.pure, decide_true]

/-! ## The log of a run -/

/-- Along a run of the daemon the entries survive, in any state that it
reaches, exactly when no request that commits has an empty payload and the
length stays below `2 ^ 63`. Where besides no request commits between the two
steps of another, `verify_history` accepts the log. -/
theorem entries_survive_iff (laws : P.GoCborLaws) (agree : P.CborAgree) (kp : Keypair) {steps : List (Step Rpc)}
    {t : Server Storage Rpc Pending} (h : Daemon.run P kp steps = some t) :
    ((∀ pre t', pre <+: steps → Daemon.run P kp pre = some t' → EntriesSurvive P t') ↔
      (∀ before rpc between, CommitsAfter steps before rpc between → rpc.request.payload ≠ []) ∧
        ∀ pre t', pre <+: steps → Daemon.run P kp pre = some t' → ¬ AppendLog.len t'.shared.db < 0) ∧
    (P.KeyPair kp.priv kp.pub → Undisturbed steps → Staged.commits steps < 2 ^ 63 →
      (∀ before rpc between, CommitsAfter steps before rpc between → rpc.request.payload ≠ []) →
      ∃ root, GrpcStorage.rootHash P t.shared = .ok root ∧ GrpcStorage.verifyHistory P t.shared root = .ok true) := by
  have hstored : ∀ {pre t'}, Daemon.run P kp pre = some t' → Stored P kp t'.acked t'.shared.db :=
    fun h => (stored_rule P kp).run h
  refine ⟨⟨fun ok => ⟨fun before rpc between hc => ?_, fun pre t' hpre ht => ?_⟩, fun hcond pre t' hpre ht => ?_⟩,
    fun hkp hu hlt hne => ?_⟩
  · obtain ⟨t', ht⟩ := Protocol.run_prefix hc h
    have hall := ((hstored ht).survive_iff laws agree).mp (ok _ t' hc ht)
    -- the request that this prefix commits is answered at its end
    obtain ⟨s, before', rpc', between', s₁, d, -, hsplit, hn, -, -, rfl⟩ := Protocol.run_commit ht
    obtain ⟨-, rfl, -⟩ := split_unique hsplit hn.symm
    exact hall.1 (rpc, d) (List.mem_append_right _ List.mem_cons_self)
  · exact (((hstored ht).survive_iff laws agree).mp (ok pre t' hpre ht)).2
  · obtain ⟨hne, hlen⟩ := hcond
    refine ((hstored ht).survive_iff laws agree).mpr ⟨fun a ha => ?_, hlen pre t' hpre ht⟩
    obtain ⟨before, between, hc⟩ := Protocol.run_acked ht ha
    exact hne before a.1 between (hc.mono hpre)
  · have hcount := (Protocol.length_run h).2
    refine verifyHistory_undisturbed laws agree hkp h hu (by omega) fun a ha => ?_
    obtain ⟨before, between, hc⟩ := Protocol.run_acked h ha
    exact hne before a.1 between hc

section Example

open Reference

/-- An append without a payload: its entry is committed and cannot be read back. -/
theorem empty_payload_unreadable : ¬ ∀ steps t, Daemon.run reference exampleKeypair steps = some t →
    EntriesSurvive reference t := by
  intro h
  have hrun : (Daemon.run reference exampleKeypair (serial [⟨.append [], 1, none⟩])).map
      (fun t => (AppendLog.len t.shared.db, (AppendLog.get reference t.shared.db 0).toOption)) = some (1, none) := by
    decide +kernel
  obtain ⟨t, ht, hlen⟩ := Option.map_eq_some_iff.mp hrun
  rw [Prod.mk.injEq] at hlen
  have h₀ : (0 : Int64) ≤ 0 := by decide
  have hlt : (0 : Int64) < AppendLog.len t.shared.db := by
    rw [hlen.1]
    decide
  obtain ⟨a, -, -, hget⟩ := (h _ t ht).get h₀ hlt
  rw [hget] at hlen
  cases hlen.2

/-- An append and an edge, one after the other. -/
theorem entries_survive_serial :
    ∃ t root, Daemon.run reference exampleKeypair (serial [exampleAppend 1, exampleEdge]) = some t ∧
      EntriesSurvive reference t ∧ GrpcStorage.rootHash reference t.shared = .ok root ∧
      GrpcStorage.verifyHistory reference t.shared root = .ok true := by
  have hsome : (Daemon.run reference exampleKeypair (serial [exampleAppend 1, exampleEdge])).isSome := by
    decide +kernel
  obtain ⟨t, ht⟩ := Option.isSome_iff_exists.mp hsome
  have hne : ∀ before rpc between, CommitsAfter (serial [exampleAppend 1, exampleEdge]) before rpc between →
      rpc.request.payload ≠ [] := by
    intro before rpc between h
    have hmem := mem_of_prepare_mem_serial h.mem
    simp only [List.mem_cons, List.not_mem_nil, or_false] at hmem
    rcases hmem with rfl | rfl
    · decide
    · decide
  have hlens : ∀ pre ∈ (serial [exampleAppend 1, exampleEdge]).inits,
      (Daemon.run reference exampleKeypair pre).all fun t => ¬ AppendLog.len t.shared.db < 0 := by decide +kernel
  have hlen : ∀ pre t', pre <+: serial [exampleAppend 1, exampleEdge] →
      Daemon.run reference exampleKeypair pre = some t' → ¬ AppendLog.len t'.shared.db < 0 := by
    intro pre t' hpre ht'
    have hall := hlens pre ((List.mem_inits ..).mpr hpre)
    rw [ht', Option.all_some] at hall
    exact of_decide_eq_true hall
  have key := entries_survive_iff reference_goCborLaws reference_cborAgree exampleKeypair ht
  have hkp : reference.KeyPair exampleKeypair.priv exampleKeypair.pub := reference_keyPair (by decide)
  obtain ⟨root, hroot, hv⟩ := key.2 hkp (undisturbed_serial _) (by decide) hne
  exact ⟨t, root, ht, key.1.mpr ⟨hne, hlen⟩ _ t (List.prefix_refl _) ht, hroot, hv⟩

end Example

end ArxDB.Proof.Go
