import ArxDB.Impl.EdgeCall
import ArxDB.Proof.Go.Atomic
import ArxDB.Proof.Go.Client
import ArxDB.Proof.Store

/-!
# The Go engine in place of SQLite

The same calls of `commit_edge_tx` on the tables of SQLite and, through the
client, on the key families of the daemon. Both are the store of the registered
edges (`StoreOf`) with a chain of the same payloads (`fields_eq`), so nearly
every read answers the same. `outgoing_edges` of SQLite selects from
`premises`, with a row for each position of a premise, where a scan meets a key
once: they agree exactly if no call repeats a premise (`drop_in_iff`).
-/

namespace ArxDB.Proof

open Impl Failing

variable {P : Prims}

/-! ## Lists in ascending order -/

theorem Hash.le_total (a b : Hash) : a ≤ b ∨ b ≤ a := List.le_total a.raw b.raw

theorem Hash.le_trans {a b c : Hash} (h : a ≤ b) (h' : b ≤ c) : a ≤ c := List.le_trans (α := UInt8) h h'

instance : Std.Asymm (fun a b : Hash => a < b) := ⟨fun _ _ h h' => List.lt_irrefl _ (List.lt_trans h h')⟩

theorem nodup_of_lists {l : List Hash} {S : Set Hash} (h : Spec.Lists l S) : l.Nodup := by
  refine List.Pairwise.imp (fun {a b} (hlt : a < b) => ?_) h.ascending
  rintro rfl
  exact List.lt_irrefl _ hlt

theorem lists_orderByHash {l : List Hash} {S : Set Hash} (hl : l.Nodup) (hmem : ∀ x, x ∈ l ↔ x ∈ S) :
    Spec.Lists (GraphIndex.orderByHash l) S where
  ascending := by
    have htotal : Std.Total (fun a b : Hash => a ≤ b) := ⟨Hash.le_total⟩
    have htrans : IsTrans Hash (fun a b => a ≤ b) := ⟨fun _ _ _ => Hash.le_trans⟩
    have hsorted := List.pairwise_insertionSort (fun a b : Hash => a ≤ b) l
    have hnodup : (GraphIndex.orderByHash l).Nodup := (List.perm_insertionSort _ l).nodup_iff.mpr hl
    refine (hsorted.and hnodup).imp fun {a b} h => ?_
    by_contra hlt
    exact h.2 (Hash.ext (List.le_antisymm h.1 hlt))
  mem {x} := by rw [GraphIndex.orderByHash, List.mem_insertionSort, hmem]

/-! ## The registered edges as a store -/

/-- The graph of the store is that of these edges. -/
structure StoreOf (rs : List EdgeRecord) (a : Go.Abstract) : Prop where
  nodes (n : Hash) : n ∈ a.nodes ↔ ∃ r ∈ rs, n ∈ r.conclusion :: r.premises
  edges (e : Hash) (x : List Hash × Hash) :
    a.edges e = some x ↔ ∃ r ∈ rs, r.edgeHash = e ∧ (r.premises, r.conclusion) = x

namespace StoreOf

variable {rs : List EdgeRecord} {a : Go.Abstract}

theorem empty : StoreOf [] Spec.Store.empty where
  nodes n := by simp [Spec.Store.empty]
  edges e x := by simp [Spec.Store.empty]

/-- An edge is added, with the same ends if it was there. -/
theorem addEdge (h : StoreOf rs a) {r : EdgeRecord} (hf : Functional (rs ++ [r])) :
    StoreOf (rs ++ [r]) (a.addEdge r.edgeHash r.premises r.conclusion) where
  nodes n := by
    have hnew : n ∈ (a.addEdge r.edgeHash r.premises r.conclusion).nodes ↔
        n = r.conclusion ∨ n ∈ a.nodes ∨ n ∈ r.premises :=
      Iff.rfl
    rw [hnew, h.nodes]
    simp only [List.mem_append, List.mem_singleton, or_and_right, exists_or, exists_eq_left]
    rw [List.mem_cons]
    exact or_left_comm
  edges e x := by
    have hr : r ∈ rs ++ [r] := List.mem_append_right _ (List.mem_singleton_self r)
    rw [Spec.Store.edges_addEdge]
    split
    · rename_i he
      rw [Option.some.injEq]
      constructor
      · rintro rfl
        exact ⟨r, hr, he.symm, rfl⟩
      · rintro ⟨r', hr', rfl, rfl⟩
        rw [hf r' hr' r hr he]
    · rename_i he
      rw [h.edges]
      simp only [List.mem_append, List.mem_singleton, or_and_right, exists_or, exists_eq_left, iff_self_or]
      rintro ⟨rfl, -⟩
      exact absurd rfl he

end StoreOf

namespace Represents

variable {g : GraphIndex} {rs : List EdgeRecord} {a : Go.Abstract}

theorem lists_allNodes (h : Represents g rs) (ha : StoreOf rs a) : Spec.Lists g.allNodes a.nodes :=
  lists_orderByHash h.nodes_nodup fun n => by rw [h.nodes, ha.nodes]

theorem lists_allEdges (h : Represents g rs) (ha : StoreOf rs a) : Spec.Lists g.allEdges a.allEdges := by
  refine lists_orderByHash h.edges_nodup fun e => ?_
  have hmem : e ∈ a.allEdges ↔ ∃ x, a.edges e = some x := Option.isSome_iff_exists
  simp only [hmem, ha.edges, List.mem_map, h.edges]
  constructor
  · rintro ⟨_, ⟨r, hr, rfl⟩, rfl⟩
    exact ⟨_, r, hr, rfl, rfl⟩
  · rintro ⟨_, r, hr, rfl, -⟩
    exact ⟨_, ⟨r, hr, rfl⟩, rfl⟩

theorem lists_incomingEdges (h : Represents g rs) (ha : StoreOf rs a) (n : Hash) :
    Spec.Lists (g.incomingEdges n) (a.incoming n) := by
  refine lists_orderByHash (h.edges_nodup.sublist (List.filter_sublist.map _)) fun e => ?_
  have hmem : e ∈ a.incoming n ↔ ∃ ps, a.edges e = some (ps, n) := Iff.rfl
  simp only [hmem, ha.edges, List.mem_map, List.mem_filter, decide_eq_true_eq, h.edges]
  constructor
  · rintro ⟨_, ⟨⟨r, hr, rfl⟩, rfl⟩, rfl⟩
    exact ⟨_, r, hr, rfl, rfl⟩
  · rintro ⟨_, r, hr, rfl, hx⟩
    obtain ⟨rfl, rfl⟩ := Prod.mk.inj hx
    exact ⟨_, ⟨⟨r, hr, rfl⟩, rfl⟩, rfl⟩

/-- The rows of a premise, each of which gives an edge of the answer. -/
theorem mem_outgoingEdges (h : Represents g rs) {n e : Hash} :
    e ∈ g.outgoingEdges n ↔ ∃ r ∈ rs, r.edgeHash = e ∧ n ∈ r.premises := by
  rw [GraphIndex.outgoingEdges, GraphIndex.orderByHash, List.mem_insertionSort]
  simp only [List.mem_map, List.mem_filter, decide_eq_true_eq, h.premises]
  constructor
  · rintro ⟨_, ⟨⟨r, hr, hrow⟩, hn⟩, rfl⟩
    obtain ⟨i, hi, rfl⟩ := mem_premiseRows.mp hrow
    exact ⟨r, hr, rfl, hn ▸ List.getElem_mem hi⟩
  · rintro ⟨r, hr, rfl, hn⟩
    obtain ⟨i, hi, rfl⟩ := List.mem_iff_getElem.mp hn
    exact ⟨_, ⟨⟨r, hr, mem_premiseRows.mpr ⟨i, hi, rfl⟩⟩, rfl⟩, rfl⟩

/-- An edge is listed once for a premise that it has once. -/
theorem nodup_outgoingEdges_iff (h : Represents g rs) (hf : Functional rs) :
    (∀ n, (g.outgoingEdges n).Nodup) ↔ ∀ r ∈ rs, r.premises.Nodup := by
  have hperm : ∀ n, (g.outgoingEdges n).Nodup ↔
      ((g.premises.filter (·.premiseHash = n)).map PremiseRow.edgeHash).Nodup :=
    fun n => (List.perm_insertionSort _ _).nodup_iff
  simp only [hperm]
  constructor
  · intro hn r hr
    rw [List.nodup_iff_injective_get]
    intro i j hij
    have hrow : ∀ i (hi : i < r.premises.length), (⟨r.edgeHash, r.premises[i], i⟩ : PremiseRow) ∈ g.premises :=
      fun i hi => (h.premises _).mpr ⟨r, hr, mem_premiseRows.mpr ⟨i, hi, rfl⟩⟩
    have hrows := List.inj_on_of_nodup_map (hn (r.premises.get i))
      (List.mem_filter.mpr ⟨hrow i i.2, decide_eq_true rfl⟩)
      (List.mem_filter.mpr ⟨hrow j j.2, decide_eq_true hij.symm⟩) rfl
    exact Fin.ext (PremiseRow.mk.inj hrows).2.2
  · intro hnodup n
    refine List.Nodup.map_on (fun row hrow row' hrow' he => ?_) ((List.Nodup.of_map _ h.premises_nodup).filter _)
    obtain ⟨hrow, hn⟩ := List.mem_filter.mp hrow
    obtain ⟨hrow', hn'⟩ := List.mem_filter.mp hrow'
    obtain ⟨r, hr, hrow⟩ := (h.premises row).mp hrow
    obtain ⟨r', hr', hrow'⟩ := (h.premises row').mp hrow'
    obtain ⟨i, hi, rfl⟩ := mem_premiseRows.mp hrow
    obtain ⟨j, hj, rfl⟩ := mem_premiseRows.mp hrow'
    obtain rfl := hf r hr r' hr' he
    have hpremise := (of_decide_eq_true hn).trans (of_decide_eq_true hn').symm
    obtain rfl : i = j := ((hnodup r hr).getElem_inj_iff).mp hpremise
    rfl

theorem lists_outgoingEdges (h : Represents g rs) (ha : StoreOf rs a) {n : Hash} (hn : (g.outgoingEdges n).Nodup) :
    Spec.Lists (g.outgoingEdges n) (a.outgoing n) := by
  have hrows := (List.perm_insertionSort (fun a b : Hash => a ≤ b) _).nodup_iff.mp hn
  refine lists_orderByHash hrows fun e => ?_
  have hmem : e ∈ a.outgoing n ↔ ∃ ps c, a.edges e = some (ps, c) ∧ n ∈ ps := Iff.rfl
  have hout := h.mem_outgoingEdges (n := n) (e := e)
  rw [GraphIndex.outgoingEdges, GraphIndex.orderByHash, List.mem_insertionSort] at hout
  rw [hout, hmem]
  simp only [ha.edges]
  constructor
  · rintro ⟨r, hr, he, hp⟩
    exact ⟨_, _, ⟨r, hr, he, rfl⟩, hp⟩
  · rintro ⟨_, _, ⟨r, hr, he, hx⟩, hp⟩
    obtain ⟨rfl, rfl⟩ := Prod.mk.inj hx
    exact ⟨r, hr, he, hp⟩

theorem getConnectivity_eq_edges (h : Represents g rs) (hf : Functional rs) (ha : StoreOf rs a) (e : Hash) :
    g.getConnectivity e = a.edges e := by
  by_cases he : ∃ r ∈ rs, r.edgeHash = e
  · obtain ⟨r, hr, rfl⟩ := he
    rw [h.getConnectivity_eq hf hr]
    exact ((ha.edges _ _).mpr ⟨r, hr, rfl, rfl⟩).symm
  · have hnone : g.edges.find? (·.edgeHash = e) = none := by
      rw [List.find?_eq_none]
      intro row hrow hk
      obtain ⟨r, hr, rfl⟩ := (h.edges row).mp hrow
      exact he ⟨r, hr, of_decide_eq_true hk⟩
    have hedge : a.edges e = none := by
      rw [Option.eq_none_iff_forall_ne_some]
      intro x hx
      obtain ⟨r, hr, hre, -⟩ := (ha.edges e x).mp hx
      exact he ⟨r, hr, hre⟩
    rw [GraphIndex.getConnectivity, hnone, hedge]

end Represents

/-! ## The two runs -/

variable {keys : Keys} {kp : Go.Keypair} {calls : List EdgeCall} {s : Storage} {s' : Go.Storage}

/-- The edge of a call. -/
def EdgeCall.record (P : Prims) (c : EdgeCall) : EdgeRecord := ⟨P.hashBytes c.edgeData, c.premises, c.conclusion⟩

/-- The blobs that calls put. -/
def EdgeCall.allBlobs (calls : List EdgeCall) : List Bytes := calls.flatMap fun c => edgeBlobs c.edgeData c.proof

/-- What the calls leave in an SQLite storage. -/
structure OnSqlite (P : Prims) (calls : List EdgeCall) (s : Storage) : Prop where
  objects : s.objects = putAll P (fun _ => none) (EdgeCall.allBlobs calls)
  graph : Functional (calls.map (EdgeCall.record P)) → Represents s.graph (calls.map (EdgeCall.record P))
  log : ∃ es, s.log = es.map LogEntry.row ∧ Chain P es ∧ es.map LogEntry.payload = calls.map EdgeCall.edgeData

/-- What they leave in the daemon's. -/
structure OnGo (P : Prims) (calls : List EdgeCall) (s : Go.Storage) : Prop where
  objects : s.objects = (EdgeCall.allBlobs calls).foldl (fun objects b => Go.inserted P b objects) (fun _ => none)
  numbered : Go.Numbered calls.length s.db
  store : calls.length < 2 ^ 63 → Functional (calls.map (EdgeCall.record P)) →
    ∃ a, Go.Represents P a s.db ∧ StoreOf (calls.map (EdgeCall.record P)) a ∧ Go.Linked P a.log ∧
      a.log.map Go.LogEntry.payload = calls.map fun c => Go.Slice.ofField c.edgeData

theorem foldlM_concat_eq_ok {ε σ α : Type} {f : σ → α → Except ε σ} {l : List α} {a : α} {s s' : σ} :
    (l ++ [a]).foldlM f s = .ok s' ↔ ∃ s₀, l.foldlM f s = .ok s₀ ∧ f s₀ a = .ok s' := by
  rw [List.foldlM_append]
  cases l.foldlM f s with
  | error e => simp [bind, Except.bind]
  | ok s₀ => simp only [List.foldlM_cons, List.foldlM_nil, bind_pure, Except.ok.injEq, exists_eq_left']; rfl

/-- What a call that returns has done. -/
theorem sqlite_ok {c : EdgeCall} {s₀ : Storage} (h : EdgeCall.sqlite P keys s₀ c = .ok s) :
    ∃ e, Commits P keys c.timeNs c.premises c.conclusion c.edgeData c.proof s₀ e s := by
  rw [EdgeCall.sqlite] at h
  rcases hx : (Storage.commitEdgeTx P keys c.timeNs c.premises c.conclusion c.edgeData c.proof).exec none s₀ with
    ⟨_ | r, s₁⟩
  · rw [hx] at h
    cases h
  · rw [hx] at h
    obtain rfl := Except.ok.inj h
    exact ⟨r.2, (commitEdgeTx_wp.ok hx).2⟩

theorem grpc_ok {c : EdgeCall} {s₀ : Go.Storage} (h : EdgeCall.grpc P kp s₀ c = .ok s') :
    ∃ le b, Go.Next P kp c.unixNano s₀.db (Go.edgeSets (P.hashBytes c.edgeData) c.premises c.conclusion)
        (.ofField c.edgeData) b le ∧
      s' = ⟨Go.storedBlobs P (.ofField c.edgeData) c.proof s₀.objects, s₀.db.commit b⟩ := by
  rw [EdgeCall.grpc] at h
  rcases hx : Go.GrpcStorage.commitEdgeTx P kp c.unixNano none c.premises c.conclusion c.edgeData c.proof s₀ with
    ⟨_ | r, s₁⟩
  · rw [hx] at h
    cases h
  · rw [hx] at h
    obtain rfl := Except.ok.inj h
    exact Go.client_commitEdgeTx_ok hx

theorem allBlobs_concat {c : EdgeCall} :
    EdgeCall.allBlobs (calls ++ [c]) = EdgeCall.allBlobs calls ++ edgeBlobs c.edgeData c.proof := by
  rw [EdgeCall.allBlobs, List.flatMap_append, List.flatMap_singleton, EdgeCall.allBlobs]

theorem Functional.left {rs rs' : List EdgeRecord} (h : Functional (rs ++ rs')) : Functional rs :=
  fun r hr r' hr' => h r (List.mem_append_left _ hr) r' (List.mem_append_left _ hr')

theorem onSqlite_of_run (h : EdgeCall.runSqlite P keys calls = .ok s) : OnSqlite P calls s := by
  induction calls using List.reverseRecOn generalizing s with
  | nil =>
    obtain rfl := Except.ok.inj h
    exact ⟨rfl, fun _ => .empty, [], rfl, .nil, rfl⟩
  | append_singleton calls c ih =>
    obtain ⟨s₀, h₀, h⟩ := foldlM_concat_eq_ok.mp h
    obtain ⟨e, happ, rfl⟩ := sqlite_ok h
    have hs := ih h₀
    refine ⟨?_, fun hf => ?_, ?_⟩
    · rw [allBlobs_concat, putAll_append, ← hs.objects, edgeBlobs, ← storedBlobs_eq]
    · rw [List.map_append] at hf ⊢
      exact (hs.graph hf.left).register hf
    · obtain ⟨es, hlog, hchain, hpay⟩ := hs.log
      rw [hlog] at happ
      refine ⟨es ++ [e], ?_, hchain.append happ, ?_⟩
      · rw [List.map_append, ← hlog]
        rfl
      · rw [List.map_append, List.map_append, hpay, List.map_singleton, happ.payload, List.map_singleton]

theorem onGo_of_run (h : EdgeCall.runGrpc P kp calls = .ok s') : OnGo P calls s' := by
  induction calls using List.reverseRecOn generalizing s' with
  | nil =>
    obtain rfl := Except.ok.inj h
    refine ⟨rfl, .empty, fun _ _ => ⟨_, .empty, .empty, ?_, rfl⟩⟩
    exact ⟨by simp [Spec.Store.empty], by simp [Spec.Store.empty], by simp [Spec.Store.empty]⟩
  | append_singleton calls c ih =>
    obtain ⟨s₀, h₀, h⟩ := foldlM_concat_eq_ok.mp h
    obtain ⟨le, b, hn, rfl⟩ := grpc_ok h
    have hs := ih h₀
    have hgraph : ∀ kv ∈ Go.edgeSets (P.hashBytes c.edgeData) c.premises c.conclusion, Go.Tagged Go.graphTags kv.1 :=
      fun kv hkv => (Go.edgeSets_keys hkv).1
    refine ⟨?_, ?_, fun hlen hf => ?_⟩
    · rw [allBlobs_concat, List.foldl_append, ← hs.objects, Go.storedBlobs, Go.ofField_bytes]
      cases c.proof <;> rfl
    · obtain ⟨enc, -, rfl⟩ := hn.sets
      have hnumbered := hs.numbered.graph hgraph
      rw [List.length_append, List.length_singleton, Go.commit_append]
      exact hnumbered.next (hn.seq.trans hnumbered.len)
    · rw [List.length_append, List.length_singleton] at hlen
      rw [List.map_append] at hf ⊢
      obtain ⟨a, hrep, hstore, hlinked, hpay⟩ := hs.store (by omega) hf.left
      have hlog : a.log.length = calls.length := by simpa using congrArg List.length hpay
      have hedge : ∀ x, a.edges (P.hashBytes c.edgeData) = some x → x = (c.premises.1, c.conclusion) := by
        intro x hx
        obtain ⟨r, hr, hre, rfl⟩ := (hstore.edges _ x).mp hx
        have hrec : r = EdgeCall.record P c :=
          hf r (List.mem_append_left _ hr) _ (List.mem_append_right _ (List.mem_singleton_self _)) hre
        rw [hrec, EdgeCall.record]
      have hrep' := hrep.addEdge c.premises.2 hedge
      have hlen' : (a.addEdge (P.hashBytes c.edgeData) c.premises.1 c.conclusion).log.length < 2 ^ 63 := by
        show a.log.length < 2 ^ 63
        omega
      have hadded := hstore.addEdge hf
      refine ⟨_, hrep'.next hlen' hn, ⟨hadded.nodes, hadded.edges⟩, Go.Linked.next hlinked hrep' hlen' hn, ?_⟩
      rw [Spec.Store.append, List.map_append, List.map_append, List.map_singleton, List.map_singleton,
        hn.payload, ← hpay]
      rfl

/-! ## The reads -/

/-- What of an entry does not depend on the time and the key of its append. -/
def LogEntry.fields (e : LogEntry) : Int × Hash × Hash × Bytes := (e.seq, e.entryHash, e.prevLogHash, e.payload)

/-- Every read answers the same. A number that is looked up is one of 64 bits,
as both databases take it. -/
structure SameReads (P : Prims) (s : Storage) (s' : Go.Storage) : Prop where
  getConnectivity (e : Hash) : Go.GrpcStorage.getConnectivity s' e = .ok (s.graph.getConnectivity e)
  incomingEdges (n : Hash) : Go.GrpcStorage.incomingEdges s' n = .ok (s.graph.incomingEdges n)
  outgoingEdges (n : Hash) : Go.GrpcStorage.outgoingEdges s' n = .ok (s.graph.outgoingEdges n)
  allNodes : Go.GrpcStorage.allNodes s' = .ok s.graph.allNodes
  allEdges : Go.GrpcStorage.allEdges s' = .ok s.graph.allEdges
  getObject (h : Hash) : Go.GrpcStorage.getObject s' h = .ok (ObjectStore.get s.objects h)
  len : Go.GrpcStorage.len s' = .ok s.log.length
  get (seq : Int) (hseq : ¬ (seq < -2 ^ 63 ∨ 2 ^ 63 ≤ seq)) : ∃ e e', AppendLog.get s.log seq = .ok e ∧
    Go.GrpcStorage.get P s' seq = .ok e' ∧ e'.map LogEntry.fields = e.map LogEntry.fields
  rootHash : ∃ root, AppendLog.rootHash P s.log = .ok root ∧ Go.GrpcStorage.rootHash P s' = .ok root
  getInclusionProof (seq : Int) :
    (Go.GrpcStorage.getInclusionProof P s' seq).toOption = (AppendLog.getInclusionProof P s.log seq).toOption

theorem get_putAll_eq {objects objects' : Files} (h : ∀ k, Go.ObjectStore.get objects' k = ObjectStore.get objects k)
    (bs : List Bytes) (k : Hash) :
    Go.ObjectStore.get (bs.foldl (fun objects b => Go.inserted P b objects) objects') k =
      ObjectStore.get (putAll P objects bs) k := by
  induction bs generalizing objects objects' with
  | nil => exact h k
  | cons b bs ih =>
    refine ih fun k => ?_
    have hhas : Go.ObjectStore.has objects' (P.hashBytes b) = ObjectStore.has objects (P.hashBytes b) :=
      congrArg Option.isSome (h (P.hashBytes b))
    show Go.ObjectStore.get (Go.inserted P b objects') k = ObjectStore.get (ObjectStore.insert P objects b) k
    rw [Go.inserted, ObjectStore.insert, hhas]
    split
    · exact h k
    · have hpath : Go.ObjectStore.shardPath k = Go.ObjectStore.shardPath (P.hashBytes b) ↔
          ObjectStore.path k = ObjectStore.path (P.hashBytes b) :=
        ⟨fun e => congrArg _ (Go.shardPath_inj e), fun e => congrArg _ (path_inj e)⟩
      simp only [Go.ObjectStore.get, ObjectStore.get, ObjectStore.replace, hpath]
      exact if_congr Iff.rfl rfl (h k)

section Log

variable {es : List LogEntry}

theorem get_map_row_eq (h : Chain P es) (seq : Int) :
    AppendLog.get (es.map LogEntry.row) seq = .ok (if seq < 0 then none else es[seq.toNat]?) := by
  by_cases hr : 0 ≤ seq ∧ seq < es.length
  · obtain ⟨i, rfl⟩ := Int.eq_ofNat_of_zero_le hr.1
    have hi : i < es.length := by omega
    rw [get_map_row h.seq hi, if_neg (by omega), Int.toNat_natCast, List.getElem?_eq_getElem hi]
  · have hnone : AppendLog.row? (es.map LogEntry.row) seq = none := by
      rw [AppendLog.row?, List.find?_eq_none]
      intro r hrow
      obtain ⟨e, he, rfl⟩ := List.mem_map.mp hrow
      obtain ⟨j, hj, rfl⟩ := List.mem_iff_getElem.mp he
      simp only [LogEntry.row, h.seq j hj, decide_eq_true_eq]
      omega
    have hlist : (if seq < 0 then none else es[seq.toNat]?) = none := by
      split
      · rfl
      · exact List.getElem?_eq_none (by omega)
    rw [AppendLog.get, hnone, hlist]

theorem prevLogHash_of_linked {prev : Hash} (h : Linked prev es) {i : Nat} (hi : i < es.length) :
    es[i].prevLogHash = ((es.take i).getLast?.map LogEntry.entryHash).getD prev := by
  cases i with
  | zero => exact linked_zero h hi
  | succ k =>
    have hk : k < es.length := by omega
    rw [linked_succ h hi, List.getLast?_take, if_neg (Nat.succ_ne_zero k), Nat.add_sub_cancel,
      List.getElem?_eq_getElem hk]
    rfl

/-- Chains of the same payloads have the same fields. -/
theorem fields_eq {log : List Go.LogEntry} {datas : List Bytes} (hchain : Chain P es) (hlinked : Go.Linked P log)
    (hes : es.map LogEntry.payload = datas) (hlog : log.map Go.LogEntry.payload = datas.map Go.Slice.ofField)
    (hlen : datas.length < 2 ^ 63) (i : Nat) :
    (log[i]?.map Go.clientEntry).map LogEntry.fields = es[i]?.map LogEntry.fields := by
  have hlength : es.length = datas.length := by rw [← hes, List.length_map]
  have hlength' : log.length = datas.length := by simpa using congrArg List.length hlog
  by_cases hi : i < datas.length
  swap
  · rw [List.getElem?_eq_none (by omega), List.getElem?_eq_none (by omega)]
    rfl
  have hpay : ∀ j (hj : j < datas.length), es[j].payload = datas[j] := by
    intro j hj
    subst hes
    rw [List.getElem_map]
  have hpay' : ∀ j (hj : j < datas.length), log[j].payload.bytes = datas[j] := by
    intro j hj
    have hmap : (log.map Go.LogEntry.payload)[j]? = some (Go.Slice.ofField datas[j]) := by
      rw [hlog, List.getElem?_map, List.getElem?_eq_getElem hj]
      rfl
    rw [List.getElem?_map, List.getElem?_eq_getElem (by omega), Option.map_some, Option.some.injEq] at hmap
    rw [hmap, Go.ofField_bytes]
  have hhash : ∀ j (hj : j < datas.length), log[j].entryHash = es[j].entryHash := by
    intro j hj
    rw [hlinked.entryHash (List.getElem_mem _), hpay' j hj, hchain.hashed _ (List.getElem_mem _), hpay j hj]
  have hprev : log[i].prevLogHash = es[i].prevLogHash := by
    rw [hlinked.prevLogHash (List.getElem?_eq_getElem _), prevLogHash_of_linked hchain.linked]
    have hmaps : (log.take i).map Go.LogEntry.entryHash = (es.take i).map LogEntry.entryHash := by
      refine List.ext_getElem (by simp; omega) fun j hj _ => ?_
      rw [List.length_map, List.length_take] at hj
      rw [List.getElem_map, List.getElem_map, List.getElem_take, List.getElem_take, hhash j (by omega)]
    rw [← List.getLast?_map, ← List.getLast?_map, hmaps]
    rfl
  have hseq : log[i].seq.toInt = es[i].seq := by
    rw [hlinked.seq (List.getElem?_eq_getElem _), Int64.toInt_ofNat_of_lt (by omega), hchain.seq]
  rw [List.getElem?_eq_getElem (by omega), List.getElem?_eq_getElem (by omega)]
  simp only [Option.map_some, LogEntry.fields, Go.clientEntry, hseq, hhash i hi, hprev, hpay i hi, hpay' i hi]

end Log

/-! ## Both together -/

/-- The edge data determines the edge. -/
def Determined (calls : List EdgeCall) : Prop :=
  ∀ c ∈ calls, ∀ c' ∈ calls, c.edgeData = c'.edgeData → c.premises = c'.premises ∧ c.conclusion = c'.conclusion

theorem Determined.functional (h : Determined calls)
    (hM : Set.InjOn P.hashBytes {b | ∃ c ∈ calls, c.edgeData = b}) : Functional (calls.map (EdgeCall.record P)) := by
  intro r hr r' hr' he
  obtain ⟨c, hc, rfl⟩ := List.mem_map.mp hr
  obtain ⟨c', hc', rfl⟩ := List.mem_map.mp hr'
  have hdata : c.edgeData = c'.edgeData := hM ⟨c, hc, rfl⟩ ⟨c', hc', rfl⟩ he
  obtain ⟨hpremises, hconclusion⟩ := h c hc c' hc' hdata
  rw [EdgeCall.record, EdgeCall.record, hdata, hpremises, hconclusion]

section Both

variable (laws : P.GoCborLaws) (hsql : OnSqlite P calls s) (hgo : OnGo P calls s')
  (hf : Functional (calls.map (EdgeCall.record P)))
include hsql hgo hf

/-- As long as the numbers of the log are of 63 bits, an edge is listed as often as by SQLite if no premise repeats. -/
theorem outgoingEdges_iff (h63 : calls.length < 2 ^ 63) :
    (∀ n, Go.GrpcStorage.outgoingEdges s' n = .ok (s.graph.outgoingEdges n)) ↔
      ∀ c ∈ calls, c.premises.1.Nodup := by
  obtain ⟨a, hrep, hstore, -, -⟩ := hgo.store h63 hf
  have hgraph := hsql.graph hf
  have hnodup : (∀ r ∈ calls.map (EdgeCall.record P), r.premises.Nodup) ↔ ∀ c ∈ calls, c.premises.1.Nodup :=
    List.forall_mem_map
  rw [← hnodup, ← hgraph.nodup_outgoingEdges_iff hf]
  simp only [Go.client_outgoingEdges_eq, Except.ok.injEq]
  refine forall_congr' fun n => ⟨fun h => ?_, fun h => ?_⟩
  · rw [← h]
    exact nodup_of_lists (hrep.outgoingEdges n)
  · exact (hrep.outgoingEdges n).unique (hgraph.lists_outgoingEdges hstore h)

include laws

theorem sameReads_of_nodup (h63 : calls.length < 2 ^ 63) (hne : ∀ c ∈ calls, c.edgeData ≠ [])
    (hnodup : ∀ c ∈ calls, c.premises.1.Nodup) : SameReads P s s' := by
  obtain ⟨a, hrep, hstore, hlinked, hpay⟩ := hgo.store h63 hf
  obtain ⟨es, hlog, hchain, hes⟩ := hsql.log
  have hgraph := hsql.graph hf
  have hlen : a.log.length = calls.length := by simpa using congrArg List.length hpay
  have hlen' : es.length = calls.length := by simpa using congrArg List.length hes
  have hdatas : a.log.map Go.LogEntry.payload = (calls.map EdgeCall.edgeData).map Go.Slice.ofField := by
    rw [hpay, List.map_map]
    rfl
  have hfields := fields_eq hchain hlinked hes hdatas (by rwa [List.length_map])
  have hnil : ∀ le ∈ a.log, le.payload ≠ none := by
    intro le hle hnone
    have hmem := List.mem_map_of_mem (f := Go.LogEntry.payload) hle
    rw [hpay, hnone] at hmem
    obtain ⟨c, hc, hc'⟩ := List.mem_map.mp hmem
    rw [Go.Slice.ofField, if_neg (hne c hc)] at hc'
    cases hc'
  have hhashes : a.log.map Go.LogEntry.entryHash = es.map LogEntry.entryHash := by
    refine List.ext_getElem (by simp [hlen, hlen']) fun i hi hi' => ?_
    rw [List.length_map] at hi hi'
    have h := hfields i
    rw [List.getElem?_eq_getElem hi, List.getElem?_eq_getElem hi'] at h
    rw [List.getElem_map, List.getElem_map]
    exact congrArg (fun f => f.2.1) (Option.some.inj h)
  have hentry := hrep.entryHashes (by omega)
  have hcount : Go.AppendLog.len s'.db = .ofNat a.log.length := hrep.len
  exact {
    getConnectivity := fun e => by
      rw [Go.client_getConnectivity_eq, hrep.getConnectivity, hgraph.getConnectivity_eq_edges hf hstore]
    incomingEdges := fun n => by
      rw [Go.client_incomingEdges_eq, (hrep.incomingEdges n).unique (hgraph.lists_incomingEdges hstore n)]
    outgoingEdges := (outgoingEdges_iff hsql hgo hf h63).mpr hnodup
    allNodes := by rw [Go.client_allNodes_eq, hrep.allNodes.unique (hgraph.lists_allNodes hstore)]
    allEdges := by rw [Go.client_allEdges_eq, hrep.allEdges.unique (hgraph.lists_allEdges hstore)]
    getObject := fun h => by
      have hempty : ∀ k, Go.ObjectStore.get (fun _ => none) k = ObjectStore.get (fun _ => none) k := fun _ => rfl
      rw [Go.client_getObject_eq, hgo.objects, hsql.objects, get_putAll_eq hempty]
    len := by
      rw [Go.client_len_eq_ok, hcount, hlog, List.length_map, hlen', hlen, Int64.toInt_ofNat_of_lt h63]
      exact ⟨Go.ofNat_nonneg h63, rfl⟩
    get := fun seq hseq => by
      have hget := get_map_row_eq hchain seq
      rw [← hlog] at hget
      refine ⟨_, _, hget, Go.client_get_eq hrep laws (by omega) hnil hseq, ?_⟩
      split
      · rfl
      · exact hfields seq.toNat
    rootHash := by
      have hroot : AppendLog.rootHash P (es.map LogEntry.row) = _ := rootHash_map_row hchain.seq
      exact ⟨_, hlog ▸ hroot, Go.client_rootHash_eq_ok.mpr ⟨_, hentry, by rw [hhashes]⟩⟩
    getInclusionProof := fun seq => by
      rw [Go.client_getInclusionProof_eq hentry (by rw [hcount, List.length_map])
        (by rw [List.length_map]; omega), hlog,
        AppendLog.getInclusionProof, entryHashes_map_row hchain.seq, hhashes]
      show _ = (if _ then _ else _ : Except PyError Merkle.InclusionProof).toOption
      split
      · rename_i hout
        exact Go.inclusionProof_range (by omega)
      · rfl }

end Both

/-- After calls that return on both backends, every read answers the same if and
only if no call repeats a premise, and fewer than `2 ^ 63` were made. -/
theorem drop_in_iff (laws : P.GoCborLaws) (calls : List EdgeCall) (keys : Keys) (kp : Go.Keypair) (s : Storage)
    (s' : Go.Storage) (hdet : Determined calls) (hne : ∀ c ∈ calls, c.edgeData ≠ [])
    (hM : Set.InjOn P.hashBytes {b | ∃ c ∈ calls, c.edgeData = b}) (hs : EdgeCall.runSqlite P keys calls = .ok s)
    (hs' : EdgeCall.runGrpc P kp calls = .ok s') :
    SameReads P s s' ↔ calls.length < 2 ^ 63 ∧ ∀ c ∈ calls, c.premises.1.Nodup := by
  have hsql := onSqlite_of_run hs
  have hgo := onGo_of_run hs'
  have hf := hdet.functional hM
  constructor
  · intro h
    obtain ⟨es, hlog, -, hes⟩ := hsql.log
    have hlength : s.log.length = calls.length := by
      rw [hlog, List.length_map]
      simpa using congrArg List.length hes
    have h63 : calls.length < 2 ^ 63 := by
      have hlen := (Go.client_len_eq_ok.mp h.len).2
      have hlt := Int64.toInt_lt (Go.AppendLog.len s'.db)
      omega
    exact ⟨h63, (outgoingEdges_iff hsql hgo hf h63).mp h.outgoingEdges⟩
  · rintro ⟨h63, hnodup⟩
    exact sameReads_of_nodup laws hsql hgo hf h63 hne hnodup

section Example

open Reference

/-- An edge from these premises, committed twice. -/
def edgeFrom (premises : Go.Hashes) : List EdgeCall :=
  List.replicate 2 ⟨premises, Go.exampleHash 4, [5], some [], 10, 20⟩

/-- The edge committed to the SQLite storage. -/
def sqliteFrom (premises : Go.Hashes) : Except PyError Storage :=
  EdgeCall.runSqlite reference ⟨List.replicate 32 7, List.replicate 32 7⟩ (edgeFrom premises)

/-- The edge committed through the Go daemon. -/
def grpcFrom (premises : Go.Hashes) : Except Go.ClientError Go.Storage :=
  EdgeCall.runGrpc reference Go.exampleKeypair (edgeFrom premises)

theorem drop_in_single : ∃ s s', sqliteFrom ⟨[Go.exampleHash 3], by decide⟩ = .ok s ∧
    grpcFrom ⟨[Go.exampleHash 3], by decide⟩ = .ok s' ∧ SameReads reference s s' := by
  have hsqlite : (sqliteFrom ⟨[Go.exampleHash 3], by decide⟩).toOption.isSome = true := by decide +kernel
  have hgrpc : (grpcFrom ⟨[Go.exampleHash 3], by decide⟩).toOption.isSome = true := by decide +kernel
  obtain ⟨s, hs⟩ := Option.isSome_iff_exists.mp hsqlite
  obtain ⟨s', hs'⟩ := Option.isSome_iff_exists.mp hgrpc
  rw [toOption_eq_some] at hs hs'
  refine ⟨s, s', hs, hs', (drop_in_iff reference_goCborLaws _ _ _ s s' ?_ ?_ ?_ hs hs').mpr ⟨by decide, ?_⟩⟩
  · intro c hc c' hc' _
    rw [List.eq_of_mem_replicate hc, List.eq_of_mem_replicate hc']
    exact ⟨rfl, rfl⟩
  · intro c hc
    rw [List.eq_of_mem_replicate hc]
    exact List.cons_ne_nil _ _
  · rintro _ ⟨c, hc, rfl⟩ _ ⟨c', hc', rfl⟩ _
    rw [List.eq_of_mem_replicate hc, List.eq_of_mem_replicate hc']
  · intro c hc
    rw [List.eq_of_mem_replicate hc]
    exact List.nodup_singleton _

/-- SQLite lists an edge for each time that it has the premise, the daemon once. -/
theorem outgoing_repeated : ∃ s s', sqliteFrom ⟨[Go.exampleHash 3, Go.exampleHash 3], by decide⟩ = .ok s ∧
    grpcFrom ⟨[Go.exampleHash 3, Go.exampleHash 3], by decide⟩ = .ok s' ∧
    s.graph.outgoingEdges (Go.exampleHash 3) = [reference.hashBytes [5], reference.hashBytes [5]] ∧
    Go.GrpcStorage.outgoingEdges s' (Go.exampleHash 3) = .ok [reference.hashBytes [5]] ∧
    ¬ SameReads reference s s' := by
  have hsqlite : (sqliteFrom ⟨[Go.exampleHash 3, Go.exampleHash 3], by decide⟩).toOption.map
      (fun s => s.graph.outgoingEdges (Go.exampleHash 3)) =
        some [reference.hashBytes [5], reference.hashBytes [5]] := by
    decide +kernel
  have hgrpc : (grpcFrom ⟨[Go.exampleHash 3, Go.exampleHash 3], by decide⟩).toOption.map
      (fun s => Go.GraphIndex.outgoingEdges s.db (Go.exampleHash 3)) = some [reference.hashBytes [5]] := by
    decide +kernel
  obtain ⟨s, hs, hout⟩ := Option.map_eq_some_iff.mp hsqlite
  obtain ⟨s', hs', hout'⟩ := Option.map_eq_some_iff.mp hgrpc
  have hclient : Go.GrpcStorage.outgoingEdges s' (Go.exampleHash 3) = .ok [reference.hashBytes [5]] := by
    rw [Go.client_outgoingEdges_eq, hout']
  refine ⟨s, s', toOption_eq_some.mp hs, toOption_eq_some.mp hs', hout, hclient, fun h => ?_⟩
  have hsame := (h.outgoingEdges (Go.exampleHash 3)).symm.trans hclient
  rw [hout, Except.ok.injEq] at hsame
  exact absurd (congrArg List.length hsame) (by decide)

end Example

end ArxDB.Proof
