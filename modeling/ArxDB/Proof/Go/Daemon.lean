import ArxDB.Impl.Go.Service
import ArxDB.Proof.Go.Operations
import ArxDB.Reference.Prims

/-!
# Concurrent appends

A handler reads the length of the log when it prepares and writes the entry
under that number when it commits, whatever has been committed in between. So
the daemon loses an update exactly when some request commits between the two
steps of another (`no_lost_update_iff`); besides, an entry with an empty
payload is acknowledged but cannot be read back.
-/

namespace ArxDB.Proof.Go

open Impl (Bytes GoAny Hash Prims)
open Impl.Go Failing BigEndian Staged

variable {P : Prims} {kp : Keypair} {db : Pebble}

/-! ## What a handler stages -/

/-- `d` stages the entry number `seq` for the request, with what else is in
its batch under graph keys, among which the edge's. -/
structure Stages (P : Prims) (request : Request) (d : Pending) : Prop where
  payload : d.response.entry.payload = .ofField request.payload
  batch : ∃ graph enc, AppendLog.encodeEntry P d.response.entry = .ok enc ∧
    d.batch = graph ++ [(AppendLog.entryKey d.response.entry.seq, enc),
      (AppendLog.entryHashKey d.response.entry.seq, d.response.entry.entryHash.raw),
      (AppendLog.logLenKey, be 8 (d.response.entry.seq + 1).toUInt64.toNat)] ∧
    ∀ kv ∈ graph, Tagged graphTags kv.1 ∧ (['e'.toUInt8] <+: kv.1 →
      (∃ ps c pr, request = .commitEdge ps c request.payload pr) ∧
        kv.1 = GraphIndex.edgeKey (P.hashBytes request.payload))

theorem len_commit_graph {graph : Batch} (h : ∀ kv ∈ graph, Tagged graphTags kv.1) :
    AppendLog.len (db.commit graph) = AppendLog.len db := by
  rw [AppendLog.len, getElem?_commit_of_ne fun kv hkv => (h kv hkv).ne tagged_logLenKey, AppendLog.len]

/-- A handler leaves the database as it is, and stages the entry whose number
is the length that it read. -/
theorem stage_wp {now : Int64} {request : Request} {s : Storage} :
    WP (Service.stage P kp now request)
      (fun d s' => (Stages P request d ∧ d.response.entry.seq = AppendLog.len s.db) ∧ s'.db = s.db)
      (fun _ s' => s'.db = s.db) s := by
  cases request with
  | append entry =>
    refine .bind (.mapError (stageAppend_wp.mono (fun r s' h => ?_) fun _ _ h => by rw [h]))
    obtain ⟨b, le⟩ := r
    obtain ⟨hle, hs⟩ := h
    obtain ⟨enc, henc, hb⟩ := hle.sets
    exact .pure ⟨⟨⟨hle.payload, [], enc, henc, hb, by simp⟩, hle.seq⟩, by rw [hs]⟩
  | commitEdge premises conclusion edgeData proof =>
    refine .bind (.lift (fun conclusion' _ => ?_) fun _ _ => rfl)
    refine .bind (.lift (fun premises' _ => ?_) fun _ _ => rfl)
    refine .bind (.mapError (stageEdgeTx_wp.mono (fun r s' h => ?_) fun _ _ h => h.1))
    obtain ⟨b, h, le⟩ := r
    obtain ⟨-, hle, rfl⟩ := h
    obtain ⟨enc, henc, hb⟩ := hle.sets
    rw [ofField_bytes] at hle hb
    refine .pure ⟨⟨⟨hle.payload, _, enc, henc, hb, fun kv hkv => ?_⟩, ?_⟩, rfl⟩
    · exact ⟨(edgeSets_keys hkv).1, fun hp => ⟨⟨premises, conclusion, proof, rfl⟩, (edgeSets_keys hkv).2 hp⟩⟩
    · exact hle.seq.trans (len_commit_graph fun kv hkv => (edgeSets_keys hkv).1)

theorem prepare_db (rpc : Rpc) (s : Storage) : ((Daemon.protocol P kp).prepare rpc s).2.db = s.db :=
  (stage_wp.mono (fun _ _ h => h.2) fun _ _ h => h).state (I := fun s' : Storage => s'.db = s.db) rpc.fault

theorem prepare_eq_some {rpc : Rpc} {s : Storage} {d : Pending}
    (h : ((Daemon.protocol P kp).prepare rpc s).1 = some d) :
    Stages P rpc.request d ∧ d.response.entry.seq = AppendLog.len s.db := by
  have hok := toOption_eq_some.mp h
  exact (stage_wp.ok (Prod.ext hok rfl)).1

/-! ## What a commit does -/

/-- What a commit does to the log and to the edges. -/
theorem Stages.commit {request : Request} {d : Pending} (h : Stages P request d) (db : Pebble) :
    (∃ enc, AppendLog.encodeEntry P d.response.entry = .ok enc ∧
      (db.commit d.batch)[AppendLog.entryKey d.response.entry.seq]? = some enc) ∧
    (∀ n, n ≠ d.response.entry.seq → (db.commit d.batch)[AppendLog.entryKey n]? = db[AppendLog.entryKey n]?) ∧
    AppendLog.len (db.commit d.batch) = d.response.entry.seq + 1 ∧
    ∀ k v, (db.commit d.batch)[k]? = some v → ['e'.toUInt8] <+: k → db[k]? = some v ∨
      (∃ ps c pr, request = .commitEdge ps c request.payload pr) ∧
        k = GraphIndex.edgeKey (P.hashBytes request.payload) := by
  obtain ⟨graph, enc, henc, hb, hg⟩ := h.batch
  have hlog : ∀ {k}, Tagged logTags k → (db.commit graph)[k]? = db[k]? := fun hk =>
    getElem?_commit_of_ne fun kv hkv => (hg kv hkv).1.ne hk
  rw [hb, commit_append]
  simp only [commit_cons, commit_nil, getElem?_insert, AppendLog.len]
  refine ⟨⟨enc, henc, ?_⟩, fun n hn => ?_, ?_, fun k v hv hk => ?_⟩
  · rw [if_neg (entryKey_ne_logLenKey _).symm, if_neg (entryKey_ne_entryHashKey _ _).symm, if_pos trivial]
  · rw [if_neg (entryKey_ne_logLenKey _).symm, if_neg (entryKey_ne_entryHashKey _ _).symm,
      if_neg fun e => hn (entryKey_inj e).symm, hlog (tagged_entryKey n)]
  · rw [if_pos trivial]
    exact toLen_be _
  · have hne : ∀ {k'}, Tagged logTags k' → k' ≠ k := by
      rintro _ hk' rfl
      obtain ⟨rest, rfl⟩ := hk
      exact (Tagged.ne ⟨'e', by decide, rest, rfl⟩ hk') rfl
    rw [if_neg (hne tagged_logLenKey), if_neg (hne (tagged_entryHashKey _)), if_neg (hne (tagged_entryKey _))] at hv
    rcases getElem?_commit hv with hm | hm
    · exact .inr ((hg _ hm).2 hk)
    · exact .inl hm

/-! ## Undisturbed schedules -/

/-- The database holds the acknowledged entries, in their order, and the edges
that were acknowledged. -/
structure Holds (P : Prims) (acked : List (Rpc × Pending)) (db : Pebble) : Prop where
  len : AppendLog.len db = .ofNat acked.length
  seq : ∀ i (h : i < acked.length), acked[i].2.response.entry.seq = .ofNat i
  entry : ∀ a ∈ acked, ∃ enc, AppendLog.encodeEntry P a.2.response.entry = .ok enc ∧
    db[AppendLog.entryKey a.2.response.entry.seq]? = some enc
  payload : ∀ a ∈ acked, a.2.response.entry.payload = .ofField a.1.request.payload
  edge : ∀ k v, db[k]? = some v → ['e'.toUInt8] <+: k → ∃ a ∈ acked,
    (∃ ps c pr, a.1.request = .commitEdge ps c a.1.request.payload pr) ∧
      k = GraphIndex.edgeKey (P.hashBytes a.1.request.payload)

/-- A commit of the next entry. -/
theorem Holds.commit {acked : List (Rpc × Pending)} {rpc : Rpc} {d : Pending} (h : Holds P acked db)
    (hlt : acked.length < 2 ^ 63) (hd : Stages P rpc.request d) (hseq : d.response.entry.seq = AppendLog.len db) :
    Holds P (acked ++ [(rpc, d)]) (db.commit d.batch) := by
  obtain ⟨hentry, hother, hlen, hedge⟩ := hd.commit db
  rw [h.len] at hseq
  refine ⟨?_, fun i hi => ?_, fun a ha => ?_, fun a ha => ?_, fun k v hv hk => ?_⟩
  · rw [hlen, hseq, List.length_append, List.length_singleton, Int64.ofNat_add]
    rfl
  · by_cases hi' : i < acked.length
    · rw [List.getElem_append_left hi']
      exact h.seq i hi'
    · rw [List.length_append, List.length_singleton] at hi
      obtain rfl : i = acked.length := by omega
      simpa using hseq
  · rcases List.mem_append.mp ha with ha | ha
    · obtain ⟨enc, henc, hget⟩ := h.entry a ha
      refine ⟨enc, henc, ?_⟩
      -- an earlier entry has an earlier number
      obtain ⟨i, hi, rfl⟩ := List.mem_iff_getElem.mp ha
      rw [hother _ fun e => ?_]
      · exact hget
      · rw [h.seq i hi, hseq] at e
        have := ofNat_inj (by omega) hlt e
        omega
    · obtain rfl := List.mem_singleton.mp ha
      exact hentry
  · rcases List.mem_append.mp ha with ha | ha
    · exact h.payload a ha
    · obtain rfl := List.mem_singleton.mp ha
      exact hd.payload
  · rcases hedge k v hv hk with hv | hv
    · obtain ⟨a, ha, hr⟩ := h.edge k v hv hk
      exact ⟨a, List.mem_append_left _ ha, hr⟩
    · exact ⟨_, List.mem_append_right _ List.mem_cons_self, hv⟩

theorem holds_rule : Rule (Daemon.protocol P kp) Daemon.start
    (fun acked s => acked.length ≤ 2 ^ 63 → Holds P acked s.db)
    (fun rpc d s => Stages P rpc.request d ∧ d.response.entry.seq = AppendLog.len s.db) where
  init _ := by
    have hnone : ∀ k : Bytes, Daemon.start.db[k]? = none := fun k => Std.ExtTreeMap.getElem?_empty
    refine ⟨?_, by simp, by simp, by simp, fun k v hv => ?_⟩
    · rw [AppendLog.len, hnone]
      rfl
    · rw [hnone] at hv
      cases hv
  prepare rpc h := by
    rw [prepare_db]
    exact h
  fresh h := by
    rw [prepare_db]
    exact prepare_eq_some h
  still rpc h := by
    rw [prepare_db]
    exact h
  commit h hd hlt := by
    rw [List.length_append, List.length_singleton] at hlt
    exact (h (by omega)).commit (by omega) hd.1 hd.2

/-! ## No lost update -/

/-- No acknowledged append is lost. -/
structure NoLostUpdate (P : Prims) (s : Server Storage Rpc Pending) : Prop where
  distinct : (s.acked.map fun a => a.2.response.entry.seq).Nodup
  length : (AppendLog.len s.shared.db).toInt = s.acked.length
  readable : ∀ a ∈ s.acked, AppendLog.get P s.shared.db a.2.response.entry.seq = .ok (some a.2.response.entry)
  edges : ∀ h ∈ GraphIndex.allEdges s.shared.db, ∃ a ∈ s.acked, ∃ ps c edgeData pr,
    a.1.request = .commitEdge ps c edgeData pr ∧ P.hashBytes edgeData = h ∧
      ∃ seq e, AppendLog.get P s.shared.db seq = .ok (some e) ∧ e.payload.bytes = edgeData

theorem Holds.noLostUpdate (laws : P.GoCborLaws) {s : Server Storage Rpc Pending} (h : Holds P s.acked s.shared.db)
    (hlt : s.acked.length < 2 ^ 63) (hne : ∀ a ∈ s.acked, a.1.request.payload ≠ []) : NoLostUpdate P s := by
  have hread : ∀ a ∈ s.acked, AppendLog.get P s.shared.db a.2.response.entry.seq = .ok (some a.2.response.entry) := by
    intro a ha
    obtain ⟨enc, henc, hget⟩ := h.entry a ha
    have hp : a.2.response.entry.payload = some a.1.request.payload := by
      rw [h.payload a ha, Slice.ofField, if_neg (hne a ha)]
    simp only [AppendLog.get, hget, decodeEntry_encodeEntry laws henc, hp]
    rfl
  refine ⟨?_, ?_, hread, fun e he => ?_⟩
  · rw [List.nodup_iff_injective_getElem]
    intro i j hij
    have hi := i.isLt
    have hj := j.isLt
    simp only [List.length_map] at hi hj
    simp only [List.getElem_map, h.seq _ hi, h.seq _ hj] at hij
    exact Fin.ext (ofNat_inj (by omega) (by omega) hij)
  · rw [h.len, Int64.toInt_ofNat_of_lt hlt]
  · simp only [GraphIndex.allEdges, List.mem_map, mem_scanned] at he
    obtain ⟨kv, ⟨hv, hk⟩, rfl⟩ := he
    obtain ⟨a, ha, ⟨ps, c, pr, hr⟩, hkey⟩ := h.edge _ _ hv hk
    refine ⟨a, ha, ps, c, _, pr, hr, ?_, _, _, hread a ha, ?_⟩
    · rw [hkey]
      exact (copyHash_raw _).symm
    · rw [h.payload a ha, ofField_bytes]

/-- When nothing is lost up to a commit, then nothing committed since its
request was prepared, and the payload can be read back. -/
theorem commit_of_noLostUpdate (laws : P.GoCborLaws) {before between : List (Step Rpc)} {rpc : Rpc}
    {s₁ s' : Server Storage Rpc Pending} (h₁ : Daemon.run P kp before = some s₁)
    (h : Daemon.run P kp (before ++ .prepare rpc :: between ++ [.commit (prepares before)]) = some s')
    (ok₁ : NoLostUpdate P s₁) (ok : NoLostUpdate P s') :
    (∀ j, .commit j ∉ between) ∧ rpc.request.payload ≠ [] := by
  obtain ⟨s, before', rpc', between', s₁', d, hs, hsplit, hn, h₁', hd, rfl⟩ := Protocol.run_commit h
  obtain ⟨rfl, rfl, rfl⟩ := split_unique hsplit hn.symm
  obtain rfl : s₁ = s₁' := by
    rw [Daemon.run, h₁'] at h₁
    exact (Option.some.inj h₁).symm
  obtain ⟨hst, hseq⟩ := prepare_eq_some hd
  obtain ⟨⟨enc, henc, hget⟩, -, hlen, -⟩ := hst.commit s.shared.db
  constructor
  · -- the number that was read is the number of commits before the prepare
    have hread : d.response.entry.seq.toInt = Staged.commits before := by
      rw [hseq, ok₁.length, (Protocol.length_run h₁).2]
    have hnow : (d.response.entry.seq + 1).toInt = Staged.commits before + Staged.commits between + 1 := by
      have hacked := (Protocol.length_run h).2
      have := ok.length
      rw [hacked] at this
      simp only [Daemon.protocol, hlen, commits_append] at this
      rw [this]
      simp [Staged.commits, Step.isCommit]
    have hlt := d.response.entry.seq.toInt_lt
    have hzero : Staged.commits between = 0 := by
      rw [Int64.toInt_add, hread, show (1 : Int64).toInt = 1 from rfl, Int.bmod] at hnow
      split at hnow <;> omega
    intro j hj
    exact List.countP_eq_zero.mp hzero _ hj rfl
  · intro hp
    have hr := ok.readable (rpc, d) (List.mem_append_right _ List.mem_cons_self)
    have hnil : d.response.entry.payload = none := by
      rw [hst.payload, hp]
      rfl
    simp only [Daemon.protocol, AppendLog.get, hget, decodeEntry_encodeEntry laws henc, hnil] at hr
    cases hr

/-- Along a run of the daemon nothing is lost, in any state that it reaches,
exactly when no request commits between the two steps of another, fewer than
`2 ^ 63` requests commit, and none of them has an empty payload. -/
theorem no_lost_update_iff (laws : P.GoCborLaws) (kp : Keypair) {steps : List (Step Rpc)}
    {s : Server Storage Rpc Pending} (h : Daemon.run P kp steps = some s) :
    (∀ pre s', pre <+: steps → Daemon.run P kp pre = some s' → NoLostUpdate P s') ↔
      Undisturbed steps ∧ Staged.commits steps < 2 ^ 63 ∧
        ∀ before rpc between, CommitsAfter steps before rpc between → rpc.request.payload ≠ [] := by
  have committed : (∀ pre s', pre <+: steps → Daemon.run P kp pre = some s' → NoLostUpdate P s') →
      ∀ before rpc between, CommitsAfter steps before rpc between →
        (∀ j, .commit j ∉ between) ∧ rpc.request.payload ≠ [] := by
    intro ok before rpc between hc
    have hpre : before <+: steps := (by simp : before <+: _).trans hc
    obtain ⟨s₁, h₁⟩ := Protocol.run_prefix hpre h
    obtain ⟨s', h'⟩ := Protocol.run_prefix hc h
    exact commit_of_noLostUpdate laws h₁ h' (ok _ _ hpre h₁) (ok _ _ hc h')
  constructor
  · intro ok
    refine ⟨fun before rpc between hc => (committed ok before rpc between hc).1, ?_,
      fun before rpc between hc => (committed ok before rpc between hc).2⟩
    have hlen := (ok steps s (List.prefix_refl _) h).length
    have hlt := (AppendLog.len s.shared.db).toInt_lt
    rw [(Protocol.length_run h).2] at hlen
    omega
  · rintro ⟨hu, hlt, hne⟩ pre s' hpre hs
    have hlt' : s'.acked.length < 2 ^ 63 := by
      obtain ⟨rest, rfl⟩ := hpre
      rw [(Protocol.length_run hs).2]
      rw [commits_append] at hlt
      omega
    refine (holds_rule.run (hu.mono hpre) hs (by omega)).noLostUpdate laws hlt' fun a ha => ?_
    obtain ⟨before, between, hc⟩ := Protocol.run_acked hs ha
    exact hne before a.1 between (hc.mono hpre)

section Example

/-- An append of one byte. -/
def exampleAppend (b : UInt8) : Rpc := ⟨.append [b], 1, none⟩

/-- An edge without premises. -/
def exampleEdge : Rpc := ⟨.commitEdge [] (List.replicate 34 0) [3] none, 2, none⟩

/-- One after the other, an append and an edge are both kept. -/
theorem no_lost_update_serial :
    ∃ s, Daemon.run Reference.reference exampleKeypair (serial [exampleAppend 1, exampleEdge]) = some s ∧
      NoLostUpdate Reference.reference s := by
  have hsome : (Daemon.run Reference.reference exampleKeypair (serial [exampleAppend 1, exampleEdge])).isSome := by
    decide +kernel
  obtain ⟨s, hs⟩ := Option.isSome_iff_exists.mp hsome
  have hne : ∀ before rpc between, CommitsAfter (serial [exampleAppend 1, exampleEdge]) before rpc between →
      rpc.request.payload ≠ [] := by
    intro before rpc between h
    have hmem := mem_of_prepare_mem_serial h.mem
    simp only [List.mem_cons, List.not_mem_nil, or_false] at hmem
    rcases hmem with rfl | rfl
    · decide
    · decide
  have kept := (no_lost_update_iff Reference.reference_goCborLaws exampleKeypair hs).mpr
    ⟨undisturbed_serial _, by decide, hne⟩
  exact ⟨s, hs, kept _ s (List.prefix_refl _) hs⟩

/-- Two appends that are both prepared before either commits are acknowledged
under the same number, and the first is gone. -/
theorem two_appends_one_entry :
    ¬ ∀ steps s, Daemon.run Reference.reference exampleKeypair steps = some s → NoLostUpdate Reference.reference s := by
  intro h
  have hrun : (Daemon.run Reference.reference exampleKeypair
      [.prepare (exampleAppend 1), .prepare (exampleAppend 2), .commit 0, .commit 1]).map
        (fun s => s.acked.map fun a => a.2.response.entry.seq) = some [0, 0] := by decide +kernel
  obtain ⟨s, hs, hseqs⟩ := Option.map_eq_some_iff.mp hrun
  have hdistinct := (h _ s hs).distinct
  rw [hseqs] at hdistinct
  exact absurd hdistinct (by decide)

end Example

end ArxDB.Proof.Go
