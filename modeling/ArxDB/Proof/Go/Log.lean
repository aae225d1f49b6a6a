import ArxDB.Impl.Go.Storage
import ArxDB.Proof.Encoding
import ArxDB.Proof.Go.Pebble

/-!
# What a batch holds

The keys that `RegisterEdge` and `appendInBatch` write, and the round trip of
an entry: it decodes to itself unless its payload is nil.
-/

namespace ArxDB.Proof.Go

open Impl (Bytes GoAny Hash Prims)
open Impl.Go Failing BigEndian

variable {P : Prims} {kp : Keypair} {db : Pebble} {b : Batch}

/-! ## Keys -/

theorem toUInt64_lt (n : Int64) : n.toUInt64.toNat < 256 ^ 8 := by
  have := n.toUInt64.toNat_lt
  omega

theorem entryKey_inj {m n : Int64} (h : AppendLog.entryKey m = AppendLog.entryKey n) : m = n := by
  have hb := be_inj (toUInt64_lt m) (toUInt64_lt n) (List.cons.inj h).2
  rw [← Int64.toInt64_toUInt64 m, ← Int64.toInt64_toUInt64 n, UInt64.toNat_inj.mp hb]

theorem toLen_be (n : Int64) : AppendLog.toLen (be 8 n.toUInt64.toNat) = n := by
  rw [AppendLog.toLen, List.take_of_length_le (by simp), ofBe_be, Nat.mod_eq_of_lt (toUInt64_lt n),
    UInt64.ofNat_toNat, Int64.toInt64_toUInt64]

theorem ofNat_inj {m n : Nat} (hm : m < 2 ^ 63) (hn : n < 2 ^ 63) (h : Int64.ofNat m = Int64.ofNat n) : m = n := by
  have := congrArg Int64.toInt h
  rw [Int64.toInt_ofNat_of_lt hm, Int64.toInt_ofNat_of_lt hn] at this
  exact_mod_cast this

/-- The key starts with one of the tags. -/
def Tagged (tags : List Char) (k : Bytes) : Prop := ∃ t ∈ tags, ∃ rest, k = t.toUInt8 :: rest

/-- The tags of the graph's keys. -/
def graphTags : List Char := ['n', 'e', 'p', 'c', 'o']

/-- The tags of the log's keys. -/
def logTags : List Char := ['l', 'h', 'm']

theorem tagged_entryKey (n : Int64) : Tagged logTags (AppendLog.entryKey n) := ⟨'l', by decide, _, rfl⟩

theorem tagged_entryHashKey (n : Int64) : Tagged logTags (AppendLog.entryHashKey n) := ⟨'h', by decide, _, rfl⟩

theorem tagged_logLenKey : Tagged logTags AppendLog.logLenKey := ⟨'m', by decide, _, rfl⟩

theorem Tagged.ne {k k' : Bytes} (h : Tagged graphTags k) (h' : Tagged logTags k') : k ≠ k' := by
  obtain ⟨t, ht, rest, rfl⟩ := h
  obtain ⟨t', ht', rest', rfl⟩ := h'
  have hne : ∀ t ∈ graphTags, ∀ t' ∈ logTags, t.toUInt8 ≠ t'.toUInt8 := by
    simp [graphTags, logTags]
    decide
  exact fun e => hne t ht t' ht' (List.cons.inj e).1

theorem entryKey_ne_entryHashKey (m n : Int64) : AppendLog.entryKey m ≠ AppendLog.entryHashKey n :=
  fun e => absurd (List.cons.inj e).1 (by decide)

theorem entryKey_ne_logLenKey (n : Int64) : AppendLog.entryKey n ≠ AppendLog.logLenKey :=
  fun e => absurd (List.cons.inj e).1 (by decide)

/-! ## `RegisterEdge` -/

/-- What `RegisterEdge` adds to a batch. -/
def edgeSets (edge : Hash) (premises : List Hash) (conclusion : Hash) : Batch :=
  (GraphIndex.nodeKey conclusion, []) :: premises.map (fun p => (GraphIndex.nodeKey p, [])) ++
    (GraphIndex.edgeKey edge, conclusion.raw) ::
      premises.zipIdx.map (fun p => (GraphIndex.premiseKey edge p.2, p.1.raw)) ++
    (GraphIndex.incomingKey conclusion edge, []) :: premises.map (fun p => (GraphIndex.outgoingKey p edge, []))

theorem set_wp {key value : Bytes} :
    WP (b.set key value) (fun b' db' => b' = b ++ [(key, value)] ∧ db' = db) (fun _ db' => db' = db) db :=
  .bind (.statement rfl (.pure ⟨rfl, rfl⟩))

theorem sets_wp {α : Type} {key : α → Bytes} {value : α → Bytes} {l : List α} :
    WP (l.foldlM (fun b x => Batch.set b (key x) (value x)) b)
      (fun b' db' => b' = b ++ l.map (fun x => (key x, value x)) ∧ db' = db) (fun _ db' => db' = db) db := by
  refine WP.foldlM (I := fun done b' db' => b' = b ++ done.map (fun x => (key x, value x)) ∧ db' = db)
    (fun done x rest b' db' _ h => ?_) (by simp)
  obtain ⟨rfl, rfl⟩ := h
  exact set_wp.mono (fun _ _ h => by simpa using h) fun _ _ h => h

theorem registerEdge_wp {edge : Hash} {premises : List Hash} {conclusion : Hash} :
    WP (GraphIndex.registerEdge b edge premises conclusion)
      (fun b' db' => b' = b ++ edgeSets edge premises conclusion ∧ db' = db) (fun _ db' => db' = db) db := by
  have next : ∀ {α : Type} {b : Batch} {x : Prog GoError Pebble Batch} {f : Batch → Prog GoError Pebble α}
      {sets : Batch} {Q : α → Pebble → Prop},
      WP x (fun b' db' => b' = b ++ sets ∧ db' = db) (fun _ db' => db' = db) db →
      WP (f (b ++ sets)) Q (fun _ db' => db' = db) db → WP (x >>= f) Q (fun _ db' => db' = db) db := by
    intro α b x f sets Q hx hf
    refine .bind (hx.mono ?_ fun _ _ h => h)
    rintro _ _ ⟨rfl, rfl⟩
    exact hf
  unfold GraphIndex.registerEdge
  refine next set_wp (next sets_wp (next set_wp (next sets_wp (next set_wp ?_))))
  exact sets_wp.mono (fun _ _ h => by simpa [edgeSets] using h) fun _ _ h => h

/-- `RegisterEdge` writes graph keys, and no edge key but that of the edge. -/
theorem edgeSets_keys {edge : Hash} {premises : List Hash} {conclusion : Hash} {kv : Bytes × Bytes}
    (h : kv ∈ edgeSets edge premises conclusion) :
    Tagged graphTags kv.1 ∧ (['e'.toUInt8] <+: kv.1 → kv.1 = GraphIndex.edgeKey edge) := by
  have other : ∀ t rest, t ∈ graphTags → t ≠ 'e' → kv.1 = t.toUInt8 :: rest →
      Tagged graphTags kv.1 ∧ (['e'.toUInt8] <+: kv.1 → kv.1 = GraphIndex.edgeKey edge) := by
    intro t rest ht hne hk
    refine ⟨⟨t, ht, rest, hk⟩, fun hp => absurd ?_ hne⟩
    rw [hk, List.cons_prefix_cons] at hp
    have he : ∀ t ∈ graphTags, 'e'.toUInt8 = t.toUInt8 → t = 'e' := by
      simp [graphTags]
      decide
    exact he t ht hp.1
  simp only [edgeSets, List.append_assoc, List.cons_append, List.mem_cons, List.mem_append, List.mem_map] at h
  rcases h with rfl | ⟨p, -, rfl⟩ | rfl | ⟨p, -, rfl⟩ | rfl | ⟨p, -, rfl⟩
  · exact other 'n' _ (by decide) (by decide) rfl
  · exact other 'n' _ (by decide) (by decide) rfl
  · exact ⟨⟨'e', by decide, _, rfl⟩, fun _ => rfl⟩
  · exact other 'p' _ (by decide) (by decide) rfl
  · exact other 'c' _ (by decide) (by decide) rfl
  · exact other 'o' _ (by decide) (by decide) rfl

/-! ## Entries -/

theorem encode_eq_ok {xs : List GoAny} {data : Bytes} : encode P xs = .ok data ↔ P.marshal xs = some data := by
  unfold encode
  split <;> simp [*]

theorem toInt64_decoded (n : Int64) : toInt64 (GoAny.int64 n).decoded = .ok n := by
  simp only [GoAny.decoded]
  split
  · rename_i h
    have hlt : ¬ n.toUInt64.toNat > 2 ^ 63 - 1 := by
      have := n.toInt_lt
      have h0 : 0 ≤ n.toInt := by simpa [Int64.le_iff_toInt_le] using h
      obtain ⟨m, hm⟩ := Int.eq_ofNat_of_zero_le h0
      rw [← Int64.ofInt_toInt n, hm, Int64.ofInt_eq_ofNat, Int64.toUInt64_ofNat', UInt64.toNat_ofNat']
      omega
    rw [toInt64, if_neg hlt, Int64.toInt64_toUInt64]
  · rfl

theorem toHash_bytes (h : Hash) : toHash (.bytes h.raw) = .ok h := by
  simp [toHash, h.size]

/-- An entry survives the round trip exactly when its payload is not nil. -/
theorem decodeEntry_encodeEntry (laws : P.GoCborLaws) {e : LogEntry} {data : Bytes}
    (h : AppendLog.encodeEntry P e = .ok data) :
    AppendLog.decodeEntry P data = match e.payload with
      | some _ => .ok e
      | none => .error (.fieldNotBytes 6) := by
  obtain ⟨seq, ts, pub, eh, ph, sig, payload⟩ := e
  have hdec := laws.unmarshal_marshal rfl (by cases payload <;> simp [AppendLog.entryFields, Slice.toAny])
    (encode_eq_ok.mp h)
  rw [AppendLog.decodeEntry, decodeInto, hdec]
  cases payload
  all_goals
    simp only [AppendLog.entryFields, Slice.toAny, List.map_cons, List.map_nil, bind, Except.bind, toInt64_decoded]
    simp [GoAny.decoded, toHash_bytes, toBytes, Except.mapError]
  all_goals rfl

/-! ## `appendInBatch` -/

/-- `le` is the next entry as the batch reads the log, and it is what was added to the batch. -/
structure Appended (P : Prims) (kp : Keypair) (now : Int64) (db : Pebble) (b : Batch) (entry : Slice)
    (b' : Batch) (le : LogEntry) : Prop where
  seq : le.seq = AppendLog.len (db.commit b)
  timestampNs : le.timestampNs = now
  signerPubkey : le.signerPubkey = kp.pub
  entryHash : le.entryHash = P.hashBytes entry.bytes
  payload : le.payload = entry
  sets : ∃ enc, AppendLog.encodeEntry P le = .ok enc ∧
    b' = b ++ [(AppendLog.entryKey le.seq, enc), (AppendLog.entryHashKey le.seq, le.entryHash.raw),
      (AppendLog.logLenKey, be 8 (le.seq + 1).toUInt64.toNat)]

theorem lenInBatch_wp : WP (AppendLog.lenInBatch b) (fun seq db' => seq = AppendLog.len (db.commit b) ∧ db' = db)
    (fun _ db' => db' = db) db := by
  refine .bind (.statement rfl (.bind (.read ?_)))
  simp only [Batch.get, AppendLog.len]
  split <;> exact .pure ⟨rfl, rfl⟩

/-- The link of the entry number `seq`. -/
def prevHash (db : Pebble) (seq : Int64) : Option Hash :=
  if seq = 0 then some AppendLog.genesisPrevHash else (db[AppendLog.entryHashKey (seq - 1)]?).map copyHash

theorem prevHashInBatch_wp {seq : Int64} : WP (AppendLog.prevHashInBatch b seq)
    (fun h db' => prevHash (db.commit b) seq = some h ∧ db' = db) (fun _ db' => db' = db) db := by
  unfold AppendLog.prevHashInBatch prevHash
  split
  · exact .pure ⟨rfl, rfl⟩
  · refine .bind (.statement rfl (.bind (.read ?_)))
    simp only [Batch.get]
    split
    · rename_i h
      exact .pure ⟨by rw [h]; rfl, rfl⟩
    · exact .lift (fun _ h => by cases h) fun _ _ => rfl

/-- `le` is the next entry, linked to the one before it and signed. -/
structure Next (P : Prims) (kp : Keypair) (now : Int64) (db : Pebble) (b : Batch) (entry : Slice)
    (b' : Batch) (le : LogEntry) : Prop extends Appended P kp now db b entry b' le where
  prevLogHash : prevHash (db.commit b) le.seq = some le.prevLogHash
  signed : ∃ message, AppendLog.signatureMessage P le.seq now kp.pub le.entryHash le.prevLogHash = .ok message ∧
    sign P kp.priv message = .ok le.signature

/-- The keys of the entry are added to the batch; it is the next entry if it is given the next number. -/
theorem appendAt_wp {now : Int64} {entry : Slice} {seq : Int64} :
    WP (AppendLog.appendAt P kp now b entry seq)
      (fun r db' => (∃ enc, r.1 = b ++ [(AppendLog.entryKey r.2.seq, enc),
          (AppendLog.entryHashKey r.2.seq, r.2.entryHash.raw),
          (AppendLog.logLenKey, be 8 (r.2.seq + 1).toUInt64.toNat)]) ∧
        (seq = AppendLog.len (db.commit b) → Next P kp now db b entry r.1 r.2) ∧ db' = db)
      (fun _ db' => db' = db) db := by
  unfold AppendLog.appendAt
  refine .bind (prevHashInBatch_wp.mono ?_ fun _ _ h => h)
  rintro prevHash _ ⟨hprev, rfl⟩
  refine .bind (.lift (fun message hm => ?_) fun _ _ => rfl)
  refine .bind (.lift (fun sig hs => ?_) fun _ _ => rfl)
  refine .bind (.lift (fun enc henc => ?_) fun _ _ => rfl)
  refine .bind (set_wp.mono ?_ fun _ _ h => h)
  rintro _ _ ⟨rfl, rfl⟩
  refine .bind (set_wp.mono ?_ fun _ _ h => h)
  rintro _ _ ⟨rfl, rfl⟩
  refine .bind (set_wp.mono ?_ fun _ _ h => h)
  rintro _ _ ⟨rfl, rfl⟩
  exact .pure ⟨⟨enc, by simp⟩,
    fun hseq => ⟨⟨hseq, rfl, rfl, rfl, rfl, enc, henc, by simp⟩, hprev, message, hm, hs⟩, rfl⟩

theorem appendInBatch_next {now : Int64} {entry : Slice} :
    WP (AppendLog.appendInBatch P kp now b entry)
      (fun r db' => Next P kp now db b entry r.1 r.2 ∧ db' = db) (fun _ db' => db' = db) db := by
  refine .bind (lenInBatch_wp.mono ?_ fun _ _ h => h)
  rintro seq _ ⟨hseq, rfl⟩
  exact appendAt_wp.mono (fun _ _ h => ⟨h.2.1 hseq, h.2.2⟩) fun _ _ h => h

end ArxDB.Proof.Go
