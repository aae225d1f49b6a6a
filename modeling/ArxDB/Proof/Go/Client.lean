import ArxDB.Impl.Go.Client
import ArxDB.Proof.Go.Ceremony

/-!
# What a client reads and commits

The reads of a `GrpcStorage` are those of the daemon's storage
(`client_getConnectivity_eq` and so on), and its `commit_edge_tx` is
`CommitEdgeTx` of the same edge (`client_commitEdgeTx_ok`).
-/

namespace ArxDB.Proof.Go

open Impl (Bytes Hash Prims)
open Impl.Go Failing

variable {P : Prims} {kp : Keypair} {now : Int64} {s s' : Storage}

/-! ## Hashes on the wire -/

theorem toHash_raw (h : Hash) : Service.toHash h.raw = .ok h := by rw [Service.toHash, dif_pos h.size]

theorem mapM_toHash_raw (hs : List Hash) : (hs.map Hash.raw).mapM Service.toHash = .ok hs := by
  have h : hs.mapM (Service.toHash ∘ Hash.raw) = .ok (hs.map id) := mapM_eq_ok fun h _ => toHash_raw h
  rw [List.mapM_map, h, List.map_id]

theorem mapM_hash_raw (hs : List Hash) : (hs.map Hash.raw).mapM GrpcStorage.hash = .ok hs := by
  have h : hs.mapM (GrpcStorage.hash ∘ Hash.raw) = .ok (hs.map id) := by
    refine mapM_eq_ok fun h _ => ?_
    rw [Function.comp, GrpcStorage.hash, Hash.new_raw]
    rfl
  rw [List.mapM_map, h, List.map_id]

/-! ## Reads -/

theorem client_getObject_eq (h : Hash) : GrpcStorage.getObject s h = .ok (ObjectStore.get s.objects h) := by
  rw [GrpcStorage.getObject, Service.getObject, List.mapM_cons, List.mapM_nil, toHash_raw]
  cases hg : ObjectStore.get s.objects h with
  | none => simp [hg, bind, Except.bind, pure, Except.pure, Except.mapError]
  | some b => simp [hg, bind, Except.bind, pure, Except.pure, Except.mapError]

theorem client_getConnectivity_eq (e : Hash) :
    GrpcStorage.getConnectivity s e = .ok (GraphIndex.getConnectivity s.db e) := by
  rw [GrpcStorage.getConnectivity, Service.getConnectivity, toHash_raw]
  cases h : GraphIndex.getConnectivity s.db e with
  | none => simp [h, bind, Except.bind, pure, Except.pure, Except.mapError]
  | some r =>
    have hpremises := mapM_hash_raw r.1
    rw [List.mapM_map] at hpremises
    simp [h, bind, Except.bind, pure, Except.pure, Except.mapError, hpremises, GrpcStorage.hash, Hash.new_raw]

theorem client_incomingEdges_eq (n : Hash) :
    GrpcStorage.incomingEdges s n = .ok (GraphIndex.incomingEdges s.db n) := by
  rw [GrpcStorage.incomingEdges, Service.incomingEdges, toHash_raw]
  exact mapM_hash_raw _

theorem client_outgoingEdges_eq (n : Hash) :
    GrpcStorage.outgoingEdges s n = .ok (GraphIndex.outgoingEdges s.db n) := by
  rw [GrpcStorage.outgoingEdges, Service.outgoingEdges, toHash_raw]
  exact mapM_hash_raw _

theorem client_allNodes_eq : GrpcStorage.allNodes s = .ok (GraphIndex.allNodes s.db) := mapM_hash_raw _

theorem client_allEdges_eq : GrpcStorage.allEdges s = .ok (GraphIndex.allEdges s.db) := mapM_hash_raw _

/-! ## The log -/

theorem toInt_ofInt {seq : Int} (h : ¬ (seq < -2 ^ 63 ∨ 2 ^ 63 ≤ seq)) : (Int64.ofInt seq).toInt = seq :=
  Int64.toInt_ofInt_of_le (by omega) (by omega)

theorem entryAt_ofInt {log : List LogEntry} {seq : Int} (h : ¬ (seq < -2 ^ 63 ∨ 2 ^ 63 ≤ seq)) :
    entryAt log (.ofInt seq) = if seq < 0 then none else log[seq.toNat]? := by
  have hneg : Int64.ofInt seq < 0 ↔ seq < 0 := by
    rw [Int64.lt_iff_toInt_lt, toInt_ofInt h]
    rfl
  rw [entryAt, toInt_ofInt h]
  exact if_congr hneg rfl rfl

/-- The client's entries are those of the store. -/
theorem client_get_eq {a : Abstract} (h : Represents P a s.db) (laws : P.GoCborLaws) (h63 : a.log.length < 2 ^ 63)
    (hpay : ∀ le ∈ a.log, le.payload ≠ none) {seq : Int} (hseq : ¬ (seq < -2 ^ 63 ∨ 2 ^ 63 ≤ seq)) :
    GrpcStorage.get P s seq = .ok ((if seq < 0 then none else a.log[seq.toNat]?).map clientEntry) := by
  rw [GrpcStorage.get, if_neg hseq, Service.getEntry, h.get_log laws h63 hpay, entryAt_ofInt hseq]
  cases (if seq < 0 then none else a.log[seq.toNat]?) with
  | none => rfl
  | some le =>
    show some <$> GrpcStorage.logEntryFromProto le = _
    rw [logEntryFromProto_eq]
    rfl

theorem inclusionProof_range {hs : List Hash} {seq : Int} (h : ¬ (0 ≤ seq ∧ seq < hs.length)) :
    (Impl.Merkle.inclusionProof P hs seq).toOption = none := by
  have hout : seq < 0 ∨ hs.length ≤ seq := by omega
  rw [Impl.Merkle.inclusionProof, if_pos hout, ite_self]
  rfl

/-- The service's bounds, as those of the list. -/
theorem inRange_iff {n : Nat} (hlen : AppendLog.len s.db = .ofNat n) (h63 : n < 2 ^ 63) {seq : Int}
    (hseq : ¬ (seq < -2 ^ 63 ∨ 2 ^ 63 ≤ seq)) :
    (Int64.ofInt seq < 0 ∨ AppendLog.len s.db ≤ Int64.ofInt seq) ↔ ¬ (0 ≤ seq ∧ seq < n) := by
  rw [hlen, Int64.lt_iff_toInt_lt, Int64.le_iff_toInt_le, toInt_ofInt hseq, Int64.toInt_ofNat_of_lt h63]
  show seq < 0 ∨ (n : Int) ≤ seq ↔ _
  omega

/-- The client's proofs are those of `merkle.py` for the same hashes. -/
theorem client_getInclusionProof_eq {hs : List Hash} (hhs : AppendLog.entryHashes s.db = .ok hs)
    (hlen : AppendLog.len s.db = .ofNat hs.length) (h63 : hs.length < 2 ^ 63) (seq : Int) :
    (GrpcStorage.getInclusionProof P s seq).toOption = (Impl.Merkle.inclusionProof P hs seq).toOption := by
  by_cases hr : 0 ≤ seq ∧ seq < hs.length
  · obtain ⟨i, rfl⟩ := Int.eq_ofNat_of_zero_le hr.1
    have hi : i < hs.length := by omega
    have hseq : ¬ ((i : Int) < -2 ^ 63 ∨ 2 ^ 63 ≤ (i : Int)) := by omega
    have hne : hs ≠ [] := by
      rintro rfl
      cases hi
    have hout : ¬ ((i : Int) < 0 ∨ (hs.length : Int) ≤ i) := by omega
    have hget : AppendLog.getInclusionProof P s.db (.ofInt i) =
        .ok ⟨hs[i], i, Impl.Merkle.siblings P (hs.map (Impl.Merkle.leafNode P)) i⟩ := by
      have hneg : ¬ (Int64.ofInt i < 0 ∨ (hs.length : Int) ≤ (Int64.ofInt i).toInt) := by
        rw [Int64.lt_iff_toInt_lt, toInt_ofInt hseq]
        exact hout
      rw [AppendLog.getInclusionProof, hhs]
      show (if _ then _ else _) = _
      rw [if_neg hneg, toInt_ofInt hseq, Merkle.buildInclusionProof, if_neg hne, if_neg hout]
      simp only [Int.toNat_natCast, List.getElem?_eq_getElem hi, siblings_eq]
      rfl
    have hindex : (Int64.ofInt i).toInt = i := toInt_ofInt hseq
    have hpath := mapM_hash_raw (Impl.Merkle.siblings P (hs.map (Impl.Merkle.leafNode P)) i)
    have hservice : Service.inclusionProof P s (.ofInt i) = .ok ⟨hs[i].raw, .ofInt i,
        (Impl.Merkle.siblings P (hs.map (Impl.Merkle.leafNode P)) i).map Hash.raw, true⟩ := by
      rw [Service.inclusionProof, Service.len]
      show (if _ then _ else _) = _
      rw [if_neg (by rw [inRange_iff hlen h63 hseq]; exact not_not_intro hr), hget]
      rfl
    rw [GrpcStorage.getInclusionProof, if_neg hseq, hservice, Impl.Merkle.inclusionProof, if_neg hne, if_neg hout]
    simp only [Int.toNat_natCast, List.getElem?_eq_getElem hi]
    simp only [Except.mapError, bind, Except.bind, pure, Except.pure, Bool.not_true, Bool.false_eq_true, if_false,
      hpath, GrpcStorage.hash, Hash.new_raw, hindex]
    rfl
  · rw [inclusionProof_range hr, GrpcStorage.getInclusionProof]
    split
    · rfl
    · rename_i hseq
      have hservice : Service.inclusionProof P s (.ofInt seq) = .ok ⟨[], 0, [], false⟩ := by
        rw [Service.inclusionProof, Service.len]
        show (if _ then _ else _) = _
        rw [if_pos ((inRange_iff hlen h63 hseq).mpr hr)]
        rfl
      rw [hservice]
      rfl

/-! ## A commit -/

/-- What a commit that returns has done. -/
theorem client_commitEdgeTx_ok {premises : List Hash} {conclusion : Hash} {edgeData : Bytes} {proof : Option Bytes}
    {r : Hash × Impl.LogEntry}
    (h : GrpcStorage.commitEdgeTx P kp now none premises conclusion edgeData proof s = (.ok r, s')) :
    ∃ le b, Next P kp now s.db (edgeSets (P.hashBytes edgeData) premises conclusion) (.ofField edgeData) b le ∧
      s' = ⟨storedBlobs P (.ofField edgeData) proof s.objects, s.db.commit b⟩ := by
  have hwp : WP (Service.handle P kp now (.commitEdge (premises.map Hash.raw) conclusion.raw edgeData proof))
      (fun response s' => ∃ b, Next P kp now s.db (edgeSets (P.hashBytes edgeData) premises conclusion)
          (.ofField edgeData) b response.entry ∧
        s' = ⟨storedBlobs P (.ofField edgeData) proof s.objects, s.db.commit b⟩) (fun _ _ => True) s := by
    rw [Service.handle, Service.stage, toHash_raw, mapM_toHash_raw]
    refine .bind (.bind (.lift_ok (.bind (.lift_ok (.bind (.mapError (stageEdgeTx_wp.mono (fun r s' h => ?_)
      fun _ _ _ => trivial)))))))
    obtain ⟨-, hn, rfl⟩ := h
    refine .pure (.bind (.mapError (commit_wp.mono (fun _ s' h => .pure ?_) fun _ _ _ => trivial)))
    rw [ofField_bytes] at hn
    exact ⟨_, hn, h⟩
  rw [GrpcStorage.commitEdgeTx] at h
  rcases hx : (Service.handle P kp now (.commitEdge (premises.map Hash.raw) conclusion.raw edgeData proof)).exec none s
    with ⟨_ | response, s₁⟩
  · rw [hx] at h
    cases (Prod.ext_iff.mp h).1
  · obtain ⟨b, hn, hs⟩ := hwp.ok hx
    rw [hx] at h
    obtain rfl : s₁ = s' := (Prod.ext_iff.mp h).2
    exact ⟨response.entry, b, hn, hs⟩

end ArxDB.Proof.Go
