import ArxDB.Proof.Atomic
import ArxDB.Proof.Go.Objects
import ArxDB.Proof.Go.Session

/-!
# `CommitEdgeTx` is all or nothing

`WellFormed M n s` is what every session keeps (`run_wellFormed`) in which `n`
entries were appended: the files are blobs of `M` under their own hashes, the
numbers below `n` are taken, and a premise key has its edge. From there a
commit leaves the database as it was when it fails. When it returns, its entry
can be read unless the edge data is nil or the number has gone past `2 ^ 63`
(`WellFormed.allOrNothing_iff`).
-/

namespace ArxDB.Proof.Go

open Impl (Bytes GoAny Hash Prims Files)
open Impl.Go BigEndian Failing

variable {P : Prims} {kp : Keypair} {now : Int64} {db : Pebble} {b : Batch} {k v : Bytes}

/-! ## What is promised -/

/-- In `s'` the edge, its blobs and its entry `e` can be read. Besides, the log
reads as in `s`. -/
structure Visible (P : Prims) (premises : List Hash) (conclusion : Hash) (edgeData proof : Slice) (s : Storage)
    (e : LogEntry) (s' : Storage) : Prop where
  blobs {b : Bytes} (hb : b ∈ edgeBlobs edgeData.bytes proof) : ObjectStore.get s'.objects (P.hashBytes b) = some b
  payload : e.payload = edgeData
  len : (AppendLog.len s'.db).toInt = (AppendLog.len s.db).toInt + 1
  free : AppendLog.get P s.db (AppendLog.len s.db) = .ok none
  get (seq : Int64) :
    AppendLog.get P s'.db seq = if seq = AppendLog.len s.db then .ok (some e) else AppendLog.get P s.db seq
  entryHashes : ∃ hs, AppendLog.entryHashes s.db = .ok hs ∧ AppendLog.entryHashes s'.db = .ok (hs ++ [e.entryHash])
  indexed : P.hashBytes edgeData.bytes ∈ GraphIndex.allEdges s'.db
  /-- Nothing is said of a hash that was indexed before. -/
  edge (h : P.hashBytes edgeData.bytes ∉ GraphIndex.allEdges s.db) :
    GraphIndex.getConnectivity s'.db (P.hashBytes edgeData.bytes) = some (premises, conclusion) ∧
    P.hashBytes edgeData.bytes ∈ GraphIndex.incomingEdges s'.db conclusion ∧
    ∀ p ∈ premises, P.hashBytes edgeData.bytes ∈ GraphIndex.outgoingEdges s'.db p

/-- Whichever statement of a commit fails, if one does. -/
def AllOrNothing (P : Prims) (kp : Keypair) (now : Int64) (premises : List Hash) (conclusion : Hash)
    (edgeData proof : Slice) (s : Storage) : Prop :=
  WP (Storage.commitEdgeTx P kp now premises conclusion edgeData proof)
    (fun r s' => r.1 = P.hashBytes edgeData.bytes ∧ Visible P premises conclusion edgeData proof s r.2 s')
    (fun _ s' => s'.db = s.db ∧
      Gains P ObjectStore.shardPath (edgeBlobs edgeData.bytes proof) s.objects s'.objects) s

/-! ## Keys stay -/

theorem isSome_commit (h : (db[k]?).isSome) : ((db.commit b)[k]?).isSome := by
  induction b generalizing db with
  | nil => exact h
  | cons kv b ih =>
    refine ih ?_
    rw [getElem?_insert]
    split
    · rfl
    · exact h

theorem isSome_commit_of_mem (h : (k, v) ∈ b) : ((db.commit b)[k]?).isSome := by
  induction b generalizing db with
  | nil => cases h
  | cons kv b ih =>
    rcases List.mem_cons.mp h with rfl | h
    · have hk : (db.insert k v)[k]? = some v := by rw [getElem?_insert, if_pos rfl]
      rw [commit_cons]
      exact isSome_commit (Option.isSome_of_eq_some hk)
    · exact ih h

/-! ## The index -/

/-- Every premise key is of an edge that is there. -/
def Rooted (db : Pebble) : Prop :=
  ∀ e k v, db[k]? = some v → GraphIndex.premisePrefix e <+: k → (db[GraphIndex.edgeKey e]?).isSome

theorem tagged_of_premise {e : Hash} (h : GraphIndex.premisePrefix e <+: k) : Tagged graphTags k := by
  obtain ⟨rest, rfl⟩ := h
  exact ⟨'p', by decide, _, rfl⟩

/-- Sets without premise keys. -/
theorem Rooted.commit (h : Rooted db) (hb : ∀ kv ∈ b, ∀ e, ¬ GraphIndex.premisePrefix e <+: kv.1) :
    Rooted (db.commit b) := by
  intro e k v hv hp
  rcases getElem?_commit hv with hv | hv
  · exact absurd hp (hb _ hv e)
  · exact isSome_commit (h e k v hv hp)

theorem Rooted.edgeSets (P : Prims) (h : Rooted db) {edge conclusion : Hash} {premises : List Hash}
    (hlen : premises.length < 2 ^ 63) :
    Rooted (db.commit (edgeSets edge premises conclusion)) := by
  intro e k v hv hp
  rcases getElem?_commit hv with hv | hv
  · obtain ⟨key, rfl, hheld⟩ := (mem_edgeSets (P := P) hlen).mp hv
    obtain ⟨pos, rfl⟩ := Key.of_prefix_premise hp
    cases hheld with
    | premise he _ =>
      obtain ⟨rfl, -⟩ := single_edges he
      have hmem : (GraphIndex.edgeKey e, conclusion.raw) ∈ Go.edgeSets e premises conclusion := by simp [Go.edgeSets]
      exact isSome_commit_of_mem hmem
  · exact isSome_commit (h e k v hv hp)

theorem getConnectivity_congr {db' : Pebble} {e : Hash} (he : db'[GraphIndex.edgeKey e]? = db[GraphIndex.edgeKey e]?)
    (hp : ∀ k, GraphIndex.premisePrefix e <+: k → db'[k]? = db[k]?) :
    GraphIndex.getConnectivity db' e = GraphIndex.getConnectivity db e := by
  have hscan := scan_congr hp
  rw [GraphIndex.getConnectivity, GraphIndex.getConnectivity, he]
  split
  · rfl
  · exact congrArg some (congrArg₂ Prod.mk (congrArg _ hscan) rfl)

/-- An edge whose key is there is listed. -/
theorem mem_allEdges_of_key {e : Hash} (h : (db[GraphIndex.edgeKey e]?).isSome) : e ∈ GraphIndex.allEdges db := by
  obtain ⟨v, hv⟩ := Option.isSome_iff_exists.mp h
  refine List.mem_map.mpr ⟨(GraphIndex.edgeKey e, v), mem_scanned.mpr ⟨hv, ?_⟩, copyHash_raw e⟩
  exact List.prefix_append ['e'.toUInt8] e.raw

theorem mem_edgesUnder {pre : Bytes} {e : Hash} (hpre : pre.length = 1 + 34) (h : (db[pre ++ e.raw]?).isSome) :
    e ∈ GraphIndex.edgesUnder db pre := by
  obtain ⟨v, hv⟩ := Option.isSome_iff_exists.mp h
  refine List.mem_map.mpr ⟨(pre ++ e.raw, v), mem_scanned.mpr ⟨hv, List.prefix_append _ _⟩, ?_⟩
  rw [← hpre, List.drop_left, copyHash_raw]

section Register

variable {edge conclusion : Hash} {premises : List Hash} {sets : Batch}

/-- The connectivity of an edge that was not there, whatever is logged with it. -/
theorem getConnectivity_registered (P : Prims) (h : Rooted db) (hnew : db[GraphIndex.edgeKey edge]? = none)
    (hlen : premises.length < 2 ^ 63) (hsets : ∀ kv ∈ sets, Tagged logTags kv.1) :
    GraphIndex.getConnectivity (db.commit (edgeSets edge premises conclusion ++ sets)) edge =
      some (premises, conclusion) := by
  have hrep : Represents P (single edge premises conclusion)
      ((∅ : Pebble).commit (edgeSets edge premises conclusion)) := Represents.empty.addEdge hlen fun _ he => by cases he
  -- under the edge's keys there was nothing, as in an empty database
  have hsame : ∀ k, Tagged graphTags k → db[k]? = none → (db.commit (edgeSets edge premises conclusion ++ sets))[k]? =
      ((∅ : Pebble).commit (edgeSets edge premises conclusion))[k]? := by
    intro k hk hnone
    rw [commit_append, getElem?_commit_of_ne fun kv hkv => (hk.ne (hsets kv hkv)).symm]
    exact getElem?_commit_congr (hnone.trans Std.ExtTreeMap.getElem?_empty.symm)
  rw [getConnectivity_congr (hsame _ ⟨'e', by decide, _, rfl⟩ hnew), hrep.getConnectivity, Spec.Store.edges_addEdge,
    if_pos rfl]
  intro k hk
  refine hsame k ?_ ?_
  · exact tagged_of_premise hk
  · rw [Option.eq_none_iff_forall_ne_some]
    intro v hv
    have := h edge k v hv hk
    rw [hnew] at this
    cases this

theorem mem_allEdges_registered :
    edge ∈ GraphIndex.allEdges (db.commit (edgeSets edge premises conclusion ++ sets)) := by
  have hmem : (GraphIndex.edgeKey edge, conclusion.raw) ∈ edgeSets edge premises conclusion ++ sets := by
    simp [edgeSets]
  exact mem_allEdges_of_key (isSome_commit_of_mem hmem)

theorem mem_incomingEdges_registered :
    edge ∈ GraphIndex.incomingEdges (db.commit (edgeSets edge premises conclusion ++ sets)) conclusion := by
  have hmem : (GraphIndex.incomingKey conclusion edge, []) ∈ edgeSets edge premises conclusion ++ sets := by
    simp [edgeSets]
  exact mem_edgesUnder (by simp [GraphIndex.incomingPrefix, conclusion.size]) (isSome_commit_of_mem hmem)

theorem mem_outgoingEdges_registered {p : Hash} (hp : p ∈ premises) :
    edge ∈ GraphIndex.outgoingEdges (db.commit (edgeSets edge premises conclusion ++ sets)) p := by
  have hmem : (GraphIndex.outgoingKey p edge, []) ∈ edgeSets edge premises conclusion ++ sets := by
    simp only [edgeSets, List.mem_append, List.mem_cons, List.mem_map]
    exact .inl (.inr (.inr ⟨p, hp, rfl⟩))
  exact mem_edgesUnder (by simp [GraphIndex.outgoingPrefix, p.size]) (isSome_commit_of_mem hmem)

end Register

/-! ## The log -/

/-- The log keys are those of the numbers below `n`, as far as 64 bits tell them apart. -/
structure Numbered (n : Nat) (db : Pebble) : Prop where
  len : AppendLog.len db = .ofNat n
  entry (seq : Int64) : (db[AppendLog.entryKey seq]?).isSome ↔ ∃ m < n, seq = .ofNat m
  entryHash (seq : Int64) : (db[AppendLog.entryHashKey seq]?).isSome ↔ ∃ m < n, seq = .ofNat m

namespace Numbered

variable {n : Nat}

theorem empty : Numbered 0 (∅ : Pebble) where
  len := by rw [AppendLog.len, Std.ExtTreeMap.getElem?_empty]; rfl
  entry seq := by rw [Std.ExtTreeMap.getElem?_empty]; simp
  entryHash seq := by rw [Std.ExtTreeMap.getElem?_empty]; simp

theorem congr {db' : Pebble} (h : Numbered n db) (hk : ∀ k, Tagged logTags k → db'[k]? = db[k]?) : Numbered n db' where
  len := by rw [AppendLog.len, hk _ tagged_logLenKey]; exact h.len
  entry seq := by rw [hk _ (tagged_entryKey seq)]; exact h.entry seq
  entryHash seq := by rw [hk _ (tagged_entryHashKey seq)]; exact h.entryHash seq

/-- Writes to the graph. -/
theorem graph (h : Numbered n db) (hb : ∀ kv ∈ b, Tagged graphTags kv.1) : Numbered n (db.commit b) :=
  h.congr fun _ hk => getElem?_commit_of_ne fun kv hkv => (hb kv hkv).ne hk

theorem lt_succ_iff {seq : Int64} : (∃ m < n + 1, seq = .ofNat m) ↔ seq = .ofNat n ∨ ∃ m < n, seq = .ofNat m := by
  constructor
  · intro h
    obtain ⟨m, hm, rfl⟩ := h
    rcases Nat.lt_or_ge m n with hlt | hge
    · exact .inr ⟨m, hlt, rfl⟩
    · exact .inl (by rw [show m = n by omega])
  · intro h
    rcases h with rfl | ⟨m, hm, rfl⟩
    · exact ⟨n, by omega, rfl⟩
    · exact ⟨m, by omega, rfl⟩

theorem next (h : Numbered n db) {le : LogEntry} {enc : Bytes} (hseq : le.seq = .ofNat n) :
    Numbered (n + 1) (db.commit (entrySets le enc)) where
  len := by
    have hget : (db.commit (entrySets le enc))[AppendLog.logLenKey]? = some (be 8 (le.seq + 1).toUInt64.toNat) :=
      (getElem?_commit_entrySets .logLen).trans (if_pos rfl)
    rw [AppendLog.len, hget, hseq, Int64.ofNat_add]
    exact toLen_be _
  entry seq := by
    have hget : (db.commit (entrySets le enc))[AppendLog.entryKey seq]? = _ := getElem?_commit_entrySets (.entry seq)
    rw [hget, lt_succ_iff, ← h.entry, ← hseq]
    by_cases he : seq = le.seq
    · simp [he]
    · simp [he, Key.bytes]
  entryHash seq := by
    have hget : (db.commit (entrySets le enc))[AppendLog.entryHashKey seq]? = _ :=
      getElem?_commit_entrySets (.entryHash seq)
    rw [hget, lt_succ_iff, ← h.entryHash, ← hseq]
    by_cases he : seq = le.seq
    · simp [he]
    · simp [he, Key.bytes]

/-- Below the length there is a hash to link to. -/
theorem prevHash (h : Numbered n db) : (prevHash db (.ofNat n)).isSome := by
  unfold Go.prevHash
  split
  · rfl
  · rename_i hn
    obtain ⟨m, rfl⟩ : ∃ m, n = m + 1 := Nat.exists_eq_succ_of_ne_zero fun h0 => hn (by rw [h0]; rfl)
    have hpred : Int64.ofNat (m + 1) - 1 = .ofNat m := by
      rw [Int64.ofNat_add, show Int64.ofNat 1 = 1 from rfl, Int64.add_sub_cancel]
    rw [Option.isSome_map, hpred]
    exact (h.entryHash _).mpr ⟨m, by omega, rfl⟩

/-- A number below `2 ^ 63` that is not given yet. -/
theorem free (h : Numbered n db) (hn : n < 2 ^ 63) : AppendLog.get P db (AppendLog.len db) = .ok none := by
  have hnone : db[AppendLog.entryKey (.ofNat n)]? = none := by
    rw [← Option.not_isSome_iff_eq_none, h.entry]
    intro hm
    obtain ⟨m, hm, e⟩ := hm
    have := ofNat_inj (by omega) hn e.symm
    omega
  rw [h.len, AppendLog.get, hnone]

theorem entryHashes (h : Numbered n db) (hn : n < 2 ^ 63) :
    AppendLog.entryHashes db = .ok ((List.range n).map fun m =>
      (db[AppendLog.entryHashKey (.ofNat m)]?).elim AppendLog.genesisPrevHash copyHash) := by
  rw [AppendLog.entryHashes, h.len, if_neg (ofNat_nonneg hn), Int64.toInt_ofNat_of_lt hn, Int.toNat_natCast]
  refine mapM_eq_ok fun m hm => ?_
  obtain ⟨v, hv⟩ := Option.isSome_iff_exists.mp ((h.entryHash (.ofNat m)).mpr ⟨m, List.mem_range.mp hm, rfl⟩)
  rw [hv]
  rfl

end Numbered

section Log

variable {n : Nat} {le : LogEntry} {enc : Bytes}

/-- The entry is read under its number unless its payload is nil, and every other as before. -/
theorem get_next (laws : P.GoCborLaws) (henc : AppendLog.encodeEntry P le = .ok enc) (seq : Int64) :
    AppendLog.get P (db.commit (entrySets le enc)) seq =
      if seq = le.seq then (if le.payload = none then .error (.fieldNotBytes 6) else .ok (some le))
      else AppendLog.get P db seq := by
  have hget : (db.commit (entrySets le enc))[AppendLog.entryKey seq]? = _ := getElem?_commit_entrySets (.entry seq)
  rw [AppendLog.get, hget]
  by_cases he : seq = le.seq
  · simp only [he, reduceCtorEq, if_false, if_true]
    rw [decodeEntry_encodeEntry laws henc]
    cases le.payload with
    | none => rfl
    | some payload => rfl
  · simp only [reduceCtorEq, Key.entry.injEq, he, if_false, Key.bytes]
    rw [AppendLog.get]

/-- One more hash, that of the entry. -/
theorem entryHashes_next (h : Numbered n db) (hn : n + 1 < 2 ^ 63) (hseq : le.seq = .ofNat n) (enc : Bytes) :
    ∃ hs, AppendLog.entryHashes db = .ok hs ∧
      AppendLog.entryHashes (db.commit (entrySets le enc)) = .ok (hs ++ [le.entryHash]) := by
  refine ⟨_, h.entryHashes (by omega), ?_⟩
  have hget : ∀ seq, (db.commit (entrySets le enc))[AppendLog.entryHashKey seq]? = _ :=
    fun seq => getElem?_commit_entrySets (.entryHash seq)
  rw [(h.next hseq).entryHashes hn, List.range_succ, List.map_append]
  congr 2
  · refine List.map_congr_left fun m hm => ?_
    have hne : Int64.ofNat m ≠ le.seq := by
      intro e
      have hm := List.mem_range.mp hm
      have := ofNat_inj (by omega) (by omega) (e.trans hseq)
      omega
    rw [hget]
    simp [hne, Key.bytes]
  · rw [List.map_singleton, hget]
    simp [hseq, copyHash_raw]

end Log

/-! ## What every call keeps -/

/-- The blobs that a call can put. -/
def written : Call → List Bytes
  | .put data => [data]
  | .commitEdge _ _ edgeData proof => edgeBlobs edgeData.1.bytes proof
  | _ => []

/-- How many entries these calls appended. -/
def entryCount (returned : List (Call × Reply)) : Nat := (returned.filterMap fun r => payload? r.1).length

/-- What every run keeps, with the number of entries. -/
structure WellFormed (P : Prims) (M : Set Bytes) (n : Nat) (s : Storage) : Prop where
  addressed : Addressed P M s.objects
  rooted : Rooted s.db
  numbered : Numbered n s.db

namespace WellFormed

variable {M : Set Bytes} {n : Nat} {s : Storage}

theorem start : WellFormed P M 0 Session.start.storage where
  addressed := .empty
  rooted e k v hv := by
    rw [show Session.start.storage.db = ∅ from rfl, Std.ExtTreeMap.getElem?_empty] at hv
    cases hv
  numbered := .empty

/-- A batch that appends an entry, after the graph's part of it. -/
theorem next {pre : Batch} {entry : Slice} {le : LogEntry} (h : WellFormed P M n s)
    (hpre : ∀ kv ∈ pre, Tagged graphTags kv.1) (hrooted : Rooted (s.db.commit pre))
    (hn : Next P kp now s.db pre entry b le) {objects : Files} (hobjects : Addressed P M objects) :
    WellFormed P M (n + 1) ⟨objects, s.db.commit b⟩ := by
  obtain ⟨enc, -, rfl⟩ := hn.sets
  have hnumbered := h.numbered.graph hpre
  refine ⟨hobjects, ?_, ?_⟩
  · rw [commit_append]
    exact hrooted.commit fun kv hkv e hp => (tagged_of_premise hp).ne (entrySets_keys hkv) rfl
  · rw [commit_append]
    exact hnumbered.next (hn.seq.trans hnumbered.len)

theorem done {call : Call} {reply : Reply} {s' : Storage} (h : WellFormed P M n s) (hM : ∀ b ∈ written call, b ∈ M)
    (hdone : Call.Done P kp now s call reply s') : WellFormed P M (n + entryCount [(call, reply)]) s' := by
  cases call with
  | put data =>
    obtain ⟨-, rfl⟩ := hdone
    exact ⟨h.addressed.gains hM (gains_inserted (List.mem_singleton_self _)), h.rooted, h.numbered⟩
  | registerNode node =>
    obtain ⟨-, rfl⟩ := hdone
    refine ⟨h.addressed, h.rooted.commit fun kv hkv e hp => ?_, h.numbered.graph fun kv hkv => ?_⟩
    · obtain rfl := List.mem_singleton.mp hkv
      have hkey : GraphIndex.premisePrefix e <+: (Key.node node).bytes := hp
      obtain ⟨pos, hpos⟩ := Key.of_prefix_premise hkey
      cases hpos
    · obtain rfl := List.mem_singleton.mp hkv
      exact ⟨'n', by decide, _, rfl⟩
  | registerEdge edge premises conclusion =>
    obtain ⟨-, rfl⟩ := hdone
    exact ⟨h.addressed, h.rooted.edgeSets P premises.2, h.numbered.graph fun kv hkv => (edgeSets_keys hkv).1⟩
  | append entry =>
    obtain ⟨le, b, -, hn, rfl⟩ := hdone
    have hrooted : Rooted (s.db.commit []) := h.rooted
    exact h.next (by simp) hrooted hn h.addressed
  | commitEdge premises conclusion edgeData proof =>
    obtain ⟨le, b, -, hn, rfl⟩ := hdone
    exact h.next (fun kv hkv => (edgeSets_keys hkv).1) (h.rooted.edgeSets P premises.2) hn
      (h.addressed.gains hM (gains_storedBlobs _ _))

theorem failed {call : Call} {s' : Storage} (h : WellFormed P M n s) (hM : ∀ b ∈ written call, b ∈ M)
    (hfail : Call.Failed P s call s') : WellFormed P M n s' := by
  refine ⟨?_, hfail.db ▸ h.rooted, hfail.db ▸ h.numbered⟩
  cases call with
  | commitEdge premises conclusion edgeData proof =>
    rcases hfail.2 with hobjects | hobjects | hobjects
    · exact hobjects ▸ h.addressed
    · exact hobjects ▸ h.addressed.gains hM (gains_inserted List.mem_cons_self)
    · exact hobjects ▸ h.addressed.gains hM (gains_storedBlobs _ _)
  | put => exact (congrArg Storage.objects hfail) ▸ h.addressed
  | registerNode => exact (congrArg Storage.objects hfail) ▸ h.addressed
  | registerEdge => exact (congrArg Storage.objects hfail) ▸ h.addressed
  | append => exact (congrArg Storage.objects hfail) ▸ h.addressed

end WellFormed

/-- After any calls, whichever of them fail. -/
theorem run_wellFormed (ops : List Op) {M : Set Bytes} (hM : ∀ b ∈ ops.flatMap (fun op => written op.call), b ∈ M) :
    WellFormed P M (entryCount (Session.run P ops).returned) (Session.run P ops).storage := by
  induction ops using List.reverseRecOn with
  | nil => exact .start
  | append_singleton ops op ih =>
    rw [List.flatMap_append] at hM
    have h := ih fun b hb => hM b (List.mem_append_left _ hb)
    have hop : ∀ b ∈ written op.call, b ∈ M := fun b hb => hM b (List.mem_append_right _ (by simpa using hb))
    rw [run_concat]
    rcases step_cases (P := P) (Session.run P ops) op with ⟨reply, hdone, hret⟩ | ⟨hfail, hret⟩
    · rw [hret, entryCount, List.filterMap_append, List.length_append]
      exact h.done hop hdone
    · rw [hret]
      exact h.failed hop hfail

/-! ## A call that no statement fails -/

section Returns

variable {M : Set Bytes} {n : Nat} {s : Storage}

theorem put_returns (data : Bytes) : Returns (Storage.onObjects (ObjectStore.put P data)) s := by
  refine .zoom (.read_bind ?_)
  split
  · exact .pure _
  · exact .statement_bind (.update_bind (.pure _))

theorem set_returns (key value : Bytes) : Returns (b.set key value) db := .statement_bind (.pure _)

theorem registerEdge_returns (edge : Hash) (premises : List Hash) (conclusion : Hash) :
    Returns (GraphIndex.registerEdge b edge premises conclusion) db := by
  refine .bind (set_returns _ _) fun _ _ _ => .bind (.foldlM (fun _ _ _ => set_returns _ _) _ _ _) fun _ _ _ => ?_
  refine .bind (set_returns _ _) fun _ _ _ => .bind (.foldlM (fun _ _ _ => set_returns _ _) _ _ _) fun _ _ _ => ?_
  exact .bind (set_returns _ _) fun _ _ _ => .foldlM (fun _ _ _ => set_returns _ _) _ _ _

theorem encode_ok (total : P.GoCborTotal) {xs : List GoAny} (hlen : xs.length = 5 ∨ xs.length = 7)
    (ho : ∀ x ∈ xs, ∀ enc, x ≠ .other enc) (hb : ∀ b, .bytes b ∈ xs → b.length < 2 ^ 64) :
    ∃ data, encode P xs = .ok data := by
  obtain ⟨data, h⟩ := total.marshal hlen ho hb
  exact ⟨data, encode_eq_ok.mpr h⟩

theorem signatureMessage_ok (total : P.GoCborTotal) (kp : Keypair) (seq now : Int64) (entryHash prevHash : Hash) :
    ∃ message, AppendLog.signatureMessage P seq now kp.pub entryHash prevHash = .ok message := by
  refine encode_ok total (.inl rfl) (by simp) fun b hb => ?_
  simp only [List.mem_cons, reduceCtorEq, GoAny.bytes.injEq, List.not_mem_nil, or_false, false_or] at hb
  rcases hb with rfl | rfl | rfl
  · rw [Keypair.pub, List.length_drop, kp.size]
    decide
  · rw [entryHash.size]
    decide
  · rw [prevHash.size]
    decide

theorem encodeEntry_ok (total : P.GoCborTotal) (le : LogEntry) (hpub : le.signerPubkey.length < 2 ^ 64)
    (hsig : le.signature.length < 2 ^ 64) (hpayload : le.payload.bytes.length < 2 ^ 63) :
    ∃ enc, AppendLog.encodeEntry P le = .ok enc := by
  have hentry := le.entryHash.size
  have hprev := le.prevLogHash.size
  refine encode_ok total (.inr rfl) ?_ ?_
  · cases hp : le.payload with
    | none => simp [AppendLog.entryFields, Slice.toAny, hp]
    | some payload => simp [AppendLog.entryFields, Slice.toAny, hp]
  · intro b hb
    cases hp : le.payload with
    | none =>
      simp only [AppendLog.entryFields, Slice.toAny, hp, List.mem_cons, reduceCtorEq, GoAny.bytes.injEq,
        List.not_mem_nil, or_false, false_or] at hb
      rcases hb with rfl | rfl | rfl | rfl
      all_goals omega
    | some payload =>
      rw [hp, Slice.bytes, Option.getD_some] at hpayload
      simp only [AppendLog.entryFields, Slice.toAny, hp, List.mem_cons, reduceCtorEq, GoAny.bytes.injEq,
        List.not_mem_nil, or_false, false_or] at hb
      rcases hb with rfl | rfl | rfl | rfl | rfl
      all_goals omega

theorem appendInBatch_returns (total : P.GoCborTotal) {entry : Slice} (hlen : entry.bytes.length < 2 ^ 63)
    (hprev : (prevHash (db.commit b) (AppendLog.len (db.commit b))).isSome) :
    Returns (AppendLog.appendInBatch P kp now b entry) db := by
  have len : Returns (AppendLog.lenInBatch b) db := by
    refine .statement_bind (.read_bind ?_)
    split
    · exact .pure _
    · exact .pure _
  refine .bind len fun seq db' hseq => ?_
  obtain ⟨hseq, rfl⟩ := lenInBatch_wp.ok hseq
  rw [← hseq] at hprev
  have prev : Returns (AppendLog.prevHashInBatch b seq) db' := by
    unfold prevHash at hprev
    unfold AppendLog.prevHashInBatch
    split
    · exact .pure _
    · rename_i hne
      rw [if_neg hne, Option.isSome_map] at hprev
      obtain ⟨val, hval⟩ := Option.isSome_iff_exists.mp hprev
      refine .statement_bind (.read_bind ?_)
      rw [Batch.get, hval]
      exact .pure _
  refine .bind prev fun prevHash _ hp => ?_
  obtain ⟨-, rfl⟩ := prevHashInBatch_wp.ok hp
  obtain ⟨message, hm⟩ := signatureMessage_ok total kp seq now (P.hashBytes entry.bytes) prevHash
  have hpriv : kp.priv.length = 32 := by
    rw [Keypair.priv, List.length_take, kp.size]
    decide
  have hpub : kp.pub.length = 32 := by
    rw [Keypair.pub, List.length_drop, kp.size]
  have hsign : sign P kp.priv message = .ok (P.ed25519Sign kp.priv message).toList := by
    rw [sign, if_neg (by simp [hpriv])]
  obtain ⟨enc, henc⟩ := encodeEntry_ok total ⟨seq, now, kp.pub, P.hashBytes entry.bytes, prevHash,
    (P.ed25519Sign kp.priv message).toList, entry⟩ (by simp [hpub]) (by simp) hlen
  refine .lift_bind hm (.lift_bind hsign (.lift_bind henc ?_))
  exact .bind (set_returns _ _) fun _ _ _ => .bind (set_returns _ _) fun _ _ _ => .bind (set_returns _ _) fun _ _ _ =>
    .pure _

/-- Where the numbers below the next one are taken, a commit can fail at a statement only. -/
theorem commitEdgeTx_returns (total : P.GoCborTotal) (hn : Numbered n s.db) (kp : Keypair) (now : Int64)
    (premises : List Hash) (conclusion : Hash) {edgeData : Slice} (hlen : edgeData.bytes.length < 2 ^ 63)
    (proof : Slice) :
    Returns (Storage.commitEdgeTx P kp now premises conclusion edgeData proof) s := by
  have stage : ∀ s' : Storage, s'.db = s.db → Returns (Storage.onDb do
      let b ← GraphIndex.registerEdge [] (P.hashBytes edgeData.bytes) premises conclusion
      let r ← AppendLog.appendInBatch P kp now b edgeData
      pure (r.1, P.hashBytes edgeData.bytes, r.2)) s' := by
    intro s' hdb
    refine .zoom (.bind (registerEdge_returns _ _ _) fun b db hb => .bind ?_ fun _ _ _ => .pure _)
    obtain ⟨rfl, rfl⟩ := registerEdge_wp.ok hb
    have hn' := hn.graph (b := [] ++ edgeSets (P.hashBytes edgeData.bytes) premises conclusion)
      fun kv hkv => (edgeSets_keys hkv).1
    rw [hdb]
    exact appendInBatch_returns total hlen (hn'.len ▸ hn'.prevHash)
  have commit : ∀ (b : Batch) (s' : Storage), Returns (Storage.commit b) s' :=
    fun b s' => .statement_bind (.update _)
  refine .bind (.bind (put_returns _) fun _ s₁ h₁ => ?_) fun r _ _ => .bind (commit _ _) fun _ _ _ => .pure _
  obtain ⟨-, rfl⟩ := put_wp.ok h₁
  cases proof with
  | none => exact stage _ rfl
  | some proof =>
    refine .bind (put_returns _) fun _ s₂ h₂ => ?_
    obtain ⟨-, rfl⟩ := put_wp.ok h₂
    exact stage _ rfl

end Returns

/-! ## A commit -/

section Commit

variable {M : Set Bytes} {n : Nat} {s : Storage} {premises : List Hash} {conclusion : Hash} {edgeData proof : Slice}

theorem WellFormed.visible (laws : P.GoCborLaws) (h : WellFormed P M n s) (hinj : Set.InjOn P.hashBytes M)
    (hM : ∀ b ∈ edgeBlobs edgeData.bytes proof, b ∈ M) (hlen : premises.length < 2 ^ 63) (hdata : edgeData ≠ none)
    (hn : n + 1 < 2 ^ 63) {le : LogEntry}
    (hnext : Next P kp now s.db (edgeSets (P.hashBytes edgeData.bytes) premises conclusion) edgeData b le) :
    Visible P premises conclusion edgeData proof s le
      ⟨storedBlobs P edgeData proof s.objects, s.db.commit b⟩ := by
  obtain ⟨enc, henc, rfl⟩ := hnext.sets
  have hgraph : ∀ kv ∈ edgeSets (P.hashBytes edgeData.bytes) premises conclusion, Tagged graphTags kv.1 :=
    fun kv hkv => (edgeSets_keys hkv).1
  have hsame : ∀ k, Tagged logTags k →
      (s.db.commit (edgeSets (P.hashBytes edgeData.bytes) premises conclusion))[k]? = s.db[k]? :=
    fun k hk => getElem?_commit_of_ne fun kv hkv => (hgraph kv hkv).ne hk
  have hnumbered := h.numbered.graph hgraph
  have hseq : le.seq = .ofNat n := hnext.seq.trans hnumbered.len
  have hlogged : s.db.commit (edgeSets (P.hashBytes edgeData.bytes) premises conclusion ++ entrySets le enc) =
      Pebble.commit (s.db.commit (edgeSets (P.hashBytes edgeData.bytes) premises conclusion)) (entrySets le enc) :=
    commit_append
  have hlen' : AppendLog.len
      (s.db.commit (edgeSets (P.hashBytes edgeData.bytes) premises conclusion ++ entrySets le enc)) =
      .ofNat (n + 1) := by
    rw [hlogged]
    exact (hnumbered.next hseq).len
  exact {
    blobs := h.addressed.get_storedBlobs hinj hM
    payload := hnext.payload
    len := by
      rw [h.numbered.len, Int64.toInt_ofNat_of_lt (by omega)]
      refine (congrArg Int64.toInt hlen').trans ?_
      rw [Int64.toInt_ofNat_of_lt hn, Nat.cast_add, Nat.cast_one]
    free := h.numbered.free (by omega)
    get := by
      intro seq
      have hget : AppendLog.get P (s.db.commit (edgeSets (P.hashBytes edgeData.bytes) premises conclusion)) seq =
          AppendLog.get P s.db seq := by rw [AppendLog.get, hsame _ (tagged_entryKey seq), AppendLog.get]
      have hpay : le.payload ≠ none := by rwa [hnext.payload]
      rw [h.numbered.len, ← hseq, ← hget]
      refine (congrArg (AppendLog.get P · seq) hlogged).trans ?_
      rw [get_next laws henc, if_neg hpay]
    entryHashes := by
      obtain ⟨hs, hhs, hhs'⟩ := entryHashes_next hnumbered hn hseq enc
      exact ⟨hs, (entryHashes_congr hsame).symm.trans hhs, (congrArg AppendLog.entryHashes hlogged).trans hhs'⟩
    indexed := mem_allEdges_registered
    edge := fun hnew => by
      have hnone : s.db[GraphIndex.edgeKey (P.hashBytes edgeData.bytes)]? = none := by
        rw [← Option.not_isSome_iff_eq_none]
        exact fun hk => hnew (mem_allEdges_of_key hk)
      exact ⟨getConnectivity_registered P h.rooted hnone hlen fun kv hkv => entrySets_keys hkv,
        mem_incomingEdges_registered, fun p hp => mem_outgoingEdges_registered hp⟩ }

theorem commitEdgeTx_gains :
    WP (Storage.commitEdgeTx P kp now premises conclusion edgeData proof) (fun _ _ => True)
      (fun _ s' => s'.db = s.db ∧
        Gains P ObjectStore.shardPath (edgeBlobs edgeData.bytes proof) s.objects s'.objects) s := by
  refine commitEdgeTx_wp.mono (fun _ _ _ => trivial) fun _ s' hs' => ⟨hs'.1, ?_⟩
  rcases hs'.2 with hobjects | hobjects | hobjects
  · exact hobjects ▸ .refl
  · exact hobjects ▸ gains_inserted List.mem_cons_self
  · exact hobjects ▸ gains_storedBlobs _ _

/-- A commit keeps the promise exactly when the edge data is not nil and the
log has room: the entry of nil data cannot be read, and the length after the
last number is negative. -/
theorem WellFormed.allOrNothing_iff (laws : P.GoCborLaws) (total : P.GoCborTotal) (h : WellFormed P M n s)
    (hinj : Set.InjOn P.hashBytes M) (hM : ∀ b ∈ edgeBlobs edgeData.bytes proof, b ∈ M)
    (hlen : premises.length < 2 ^ 63) (hsize : edgeData.bytes.length < 2 ^ 63) :
    AllOrNothing P kp now premises conclusion edgeData proof s ↔ edgeData ≠ none ∧ n + 1 < 2 ^ 63 := by
  constructor
  · intro hall
    obtain ⟨r, s', hrun⟩ := (commitEdgeTx_returns total h.numbered kp now premises conclusion hsize proof).exec
    obtain ⟨-, hvis⟩ := hall.ok hrun
    obtain ⟨-, b, hnext, hs'⟩ := commitEdgeTx_wp.ok hrun
    refine ⟨fun hnil => ?_, ?_⟩
    · obtain ⟨enc, henc, hb⟩ := hnext.sets
      have hget := hvis.get (AppendLog.len s.db)
      have hpay : r.2.payload = none := hvis.payload.trans hnil
      have hseq : AppendLog.len s.db = r.2.seq := by
        rw [hnext.seq, (h.numbered.graph fun kv hkv => (edgeSets_keys hkv).1).len, h.numbered.len]
      have hdb : s'.db = Pebble.commit (s.db.commit (edgeSets (P.hashBytes edgeData.bytes) premises conclusion))
          (entrySets r.2 enc) := by
        rw [hs', hb]
        exact commit_append
      rw [if_pos rfl, hdb, get_next laws henc, if_pos hseq, if_pos hpay] at hget
      cases hget
    · obtain ⟨hs, hhs, -⟩ := hvis.entryHashes
      have hpos : ¬ AppendLog.len s.db < 0 := not_neg_of_entryHashes hhs
      have hlt := Int64.toInt_lt (AppendLog.len s.db)
      have hlt' := Int64.toInt_lt (AppendLog.len s'.db)
      -- the next number is not given yet, so the length has not wrapped around
      have hle : ¬ (AppendLog.len s.db).toInt.toNat < n := by
        intro hm
        have hkey := (h.numbered.entry (AppendLog.len s.db)).mpr ⟨_, hm, (ofNat_toNat hpos).symm⟩
        obtain ⟨val, hval⟩ := Option.isSome_iff_exists.mp hkey
        have hfree := hvis.free
        rw [AppendLog.get, hval] at hfree
        cases hdec : AppendLog.decodeEntry P val with
        | error e => simp [hdec, Functor.map, Except.map] at hfree
        | ok le => simp [hdec, Functor.map, Except.map] at hfree
      have hsucc := hvis.len
      have hn : n < 2 ^ 63 := by omega
      rw [h.numbered.len, Int64.toInt_ofNat_of_lt hn] at hsucc
      omega
  · intro hcond
    refine (commitEdgeTx_wp.and commitEdgeTx_gains).mono (fun r s' hs' => ?_) fun _ _ hs' => hs'.2
    obtain ⟨⟨hhash, b, hnext, rfl⟩, -⟩ := hs'
    exact ⟨hhash, h.visible laws hinj hM hlen hcond.1 hcond.2 hnext⟩

end Commit

/-- After any calls, whichever of them fail, and whichever statement of a
commit fails: `commit_edge_tx` is all or nothing for all arguments, and
`CommitEdgeTx` for just those with edge data that is not nil, as long as fewer
than `2 ^ 63 - 1` entries were appended. -/
theorem commit_all_or_nothing_iff (laws : P.GoCborLaws) (total : P.GoCborTotal) :
    (∀ (calls : List Impl.WriteCall) (keys : Impl.Keys) (now : Int) (premises : List Hash) (conclusion : Hash)
        (edgeData : Bytes) (proof : Option Bytes),
      Set.InjOn P.hashBytes {b | b ∈ edgeBlobs edgeData proof ++ calls.flatMap Proof.written} →
      Proof.AllOrNothing P keys now premises conclusion edgeData proof (Impl.WriteCall.run P calls)) ∧
    ∀ (ops : List Op) (kp : Keypair) (now : Int64) (premises : Hashes) (conclusion : Hash)
      (edgeData : Impl.Go.ByteSlice)
        (proof : Slice),
      Set.InjOn P.hashBytes {b | b ∈ edgeBlobs edgeData.1.bytes proof ++ ops.flatMap fun op => written op.call} →
      (AllOrNothing P kp now premises.1 conclusion edgeData.1 proof (Session.run P ops).storage ↔
        edgeData.1 ≠ none ∧ entryCount (Session.run P ops).returned + 1 < 2 ^ 63) := by
  constructor
  · intro calls keys now premises conclusion edgeData proof hinj
    have h := Proof.run_wellFormed (P := P) calls fun b hb => List.mem_append_right (edgeBlobs edgeData proof) hb
    exact h.allOrNothing hinj fun b hb => List.mem_append_left _ hb
  · intro ops kp now premises conclusion edgeData proof hinj
    have h := run_wellFormed (P := P) ops fun b hb => List.mem_append_right (edgeBlobs edgeData.1.bytes proof) hb
    exact h.allOrNothing_iff laws total hinj (fun b hb => List.mem_append_left _ hb) premises.2 edgeData.2

section Example

open Reference

/-- A put of the empty blob. -/
def exampleWrites : List Impl.WriteCall := [⟨⟨List.replicate 32 7, List.replicate 32 7⟩, 10, none, .put []⟩]

theorem commit_all_or_nothing_example :
    Proof.AllOrNothing reference ⟨List.replicate 32 7, List.replicate 32 7⟩ 20 [exampleHash 3, exampleHash 3]
      (exampleHash 4) [] (some [9]) (Impl.WriteCall.run reference exampleWrites) ∧
    AllOrNothing reference exampleKeypair 20 [exampleHash 3, exampleHash 3] (exampleHash 4) (some []) (some [9])
      (Session.run reference exampleOps).storage := by
  have writes : ∀ b ∈ edgeBlobs [] (some [9]) ++ exampleWrites.flatMap Proof.written, b ∈ [[], [9]] := by decide
  have calls : ∀ b ∈ edgeBlobs [] (some [9]) ++ exampleOps.flatMap fun op => written op.call, b ∈ [[], [9], [6]] := by
    decide
  have both := commit_all_or_nothing_iff reference_goCborLaws reference_goCborTotal
  refine ⟨both.1 exampleWrites _ _ _ _ _ _ (injOn_of_nodup [[], [9]] writes (by decide +kernel)), ?_⟩
  have hiff := both.2 exampleOps exampleKeypair 20 ⟨[exampleHash 3, exampleHash 3], by decide⟩ (exampleHash 4)
    ⟨some [], by decide⟩ (some [9]) (injOn_of_nodup [[], [9], [6]] calls (by decide +kernel))
  have hcount : entryCount (Session.run reference exampleOps).returned + 1 < 2 ^ 63 := by decide +kernel
  exact hiff.mpr ⟨Option.some_ne_none _, hcount⟩

/-- The edge data of a `CommitEdge` request without any is nil, and its entry cannot be read. -/
theorem commitEdge_nil_data : ¬ AllOrNothing reference exampleKeypair 20 [] (exampleHash 4) (.ofField []) none
    (Session.run reference []).storage := by
  intro hall
  have h : WellFormed reference {[]} (entryCount (Session.run reference []).returned)
      (Session.run reference []).storage := run_wellFormed [] (by simp)
  have blobs : ∀ b ∈ edgeBlobs (Slice.ofField []).bytes none, b ∈ ({[]} : Set Bytes) := by
    intro b hb
    exact List.mem_singleton.mp hb
  exact ((h.allOrNothing_iff reference_goCborLaws reference_goCborTotal (Set.injOn_singleton _ _) blobs (by simp)
    (by decide)).mp hall).1 rfl

end Example

end ArxDB.Proof.Go
