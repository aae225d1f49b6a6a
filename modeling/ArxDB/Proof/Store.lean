import ArxDB.Impl.Resolve
import ArxDB.Impl.Session
import ArxDB.Proof.Encoding
import ArxDB.Proof.History
import ArxDB.Proof.Index
import ArxDB.Proof.Objects
import ArxDB.Reference.Prims

/-!
# What `verify_and_commit` leaves in a store

`verifyAndCommit_wp` says what a call does, whichever statement it fails at:
it puts blobs of its proposal, and it either commits the whole edge or leaves
the database as it was. `Stored P calls s cs` is the invariant: the objects
are blobs of the calls under their own hashes, the index and the log are those
of the committed edges `cs`, and the blobs that these refer to are there.
Every call keeps it (`Stored.exec`), so it holds after every run
(`run_stored`), and with it the reads of the store agree (`run_consistent`).
-/

namespace ArxDB.Proof

open Impl Failing

variable {P : Prims}

/-! ## What a call can store -/

/-- The edge that the call commits, unless it rejects the proposal or raises. -/
def edge? (P : Prims) (c : CommitCall) : Option Edge := do
  let q := c.proposal
  let result ← (Verifier.verify c.checkers q.premises q.conclusion q.rule q.edgeType q.proofBytes
    q.timeoutSeconds).toOption
  guard (result.rejected = false)
  let premiseHashes ← (q.premises.mapM (Node.nodeId P)).toOption
  let conclusionHash ← (q.conclusion.nodeId P).toOption
  some (q.edge P premiseHashes conclusionHash result)

/-- The bytes of these nodes, as far as they are encoded. -/
def nodeBlobs (P : Prims) (ns : List Node) : List Bytes := ns.filterMap fun n => (n.nodeBytes P).toOption

/-- The blobs that the call puts, in order, if it does not fail before. -/
def blobs (P : Prims) (c : CommitCall) : List Bytes :=
  match edge? P c with
  | none => []
  | some e => nodeBlobs P (c.proposal.premises ++ [c.proposal.conclusion]) ++
      ((e.edgeBytes P).toOption.elim [] fun data => data :: c.proposal.proofBytes.toList)

theorem edge?_eq_some {c : CommitCall} {e : Edge} : edge? P c = some e ↔
    ∃ result, Verifier.verify c.checkers c.proposal.premises c.proposal.conclusion c.proposal.rule
        c.proposal.edgeType c.proposal.proofBytes c.proposal.timeoutSeconds = .ok result ∧ result.rejected = false ∧
      ∃ premiseHashes, c.proposal.premises.mapM (Node.nodeId P) = .ok premiseHashes ∧
      ∃ conclusionHash, c.proposal.conclusion.nodeId P = .ok conclusionHash ∧
        c.proposal.edge P premiseHashes conclusionHash result = e := by
  simp only [edge?, Option.bind_eq_bind, Option.bind_eq_some_iff, toOption_eq_some, Option.guard_eq_some',
    exists_and_left, exists_const, Option.some.injEq]

/-! ## What a call does -/

theorem putNode_wp {n : Node} {s : Storage} :
    WP (Storage.putNode P n) (fun _ s' => s' = storing P s (nodeBlobs P [n]))
      (fun _ s' => s' = s ∨ s' = storing P s (nodeBlobs P [n])) s := by
  refine .bind <| .lift (fun data hd => .bind ?_) fun _ _ => .inl rfl
  have hn : nodeBlobs P [n] = [data] := by simp [nodeBlobs, toOption_eq_some.mpr hd]
  rw [hn]
  refine put_wp.mono ?_ ?_
  · rintro - s' ⟨-, rfl⟩
    exact .pure rfl
  · rintro - s' (rfl | rfl)
    exacts [.inl rfl, .inr rfl]

/-- Nodes are put in order, until one fails. -/
theorem putNodes_wp {ns : List Node} {s : Storage} :
    WP (ns.forM (Storage.putNode P)) (fun _ s' => s' = storing P s (nodeBlobs P ns))
      (fun _ s' => ∃ bs, bs <+: nodeBlobs P ns ∧ s' = storing P s bs) s := by
  refine WP.forM (I := fun done s' => s' = storing P s (nodeBlobs P done)) ?_ rfl
  rintro done n rest rfl s' rfl
  have hdone : nodeBlobs P (done ++ [n]) = nodeBlobs P done ++ nodeBlobs P [n] := List.filterMap_append
  have hsplit : nodeBlobs P (done ++ n :: rest) = nodeBlobs P (done ++ [n]) ++ nodeBlobs P rest := by
    rw [List.append_cons]
    exact List.filterMap_append
  rw [hsplit, hdone]
  refine putNode_wp.mono ?_ ?_
  · rintro - s' rfl
    rw [storing_storing]
  · rintro - s' (rfl | rfl)
    · exact ⟨_, by rw [List.append_assoc]; exact List.prefix_append _ _, rfl⟩
    · exact ⟨_, List.prefix_append _ _, storing_storing _ _ _⟩

/-- `s'` is `s` after a whole call, which committed `e`. -/
def Completes (P : Prims) (c : CommitCall) (s : Storage) (e : Edge) (data : Bytes) (s' : Storage) : Prop :=
  edge? P c = some e ∧ e.edgeBytes P = .ok data ∧ ∃ entry, Appended P c.keys c.now data s.log entry ∧
    s' = { storing P s (blobs P c) with db := committed P e.premises e.conclusion data s.db entry }

/-- `s'` is `s` after a call that stopped before its commit. -/
def Stops (P : Prims) (c : CommitCall) (s s' : Storage) : Prop := ∃ bs, bs <+: blobs P c ∧ s' = storing P s bs

theorem Stops.refl (c : CommitCall) (s : Storage) : Stops P c s s := ⟨[], List.nil_prefix, rfl⟩

/-- `r` is the result of a call that committed `e`. -/
structure Accepts (P : Prims) (r : CommitResult) (e : Edge) (data : Bytes) : Prop where
  rejected : r.rejected = false
  edge : r.edge = some e
  edgeHash : r.edgeHash = some (P.hashBytes data)

/-- A call returns rejected and does nothing, returns with the edge committed,
or raises before or after its commit. -/
theorem verifyAndCommit_wp {c : CommitCall} {s : Storage} :
    WP (c.prog P) (fun r s' => (r.rejected = true ∧ r.edge = none ∧ s' = s) ∨
        ∃ e data, Accepts P r e data ∧ Completes P c s e data s')
      (fun _ s' => Stops P c s s' ∨ ∃ e data, Completes P c s e data s') s := by
  rw [CommitCall.prog, verifyAndCommit]
  refine .bind <| .lift (fun result hr => ?_) fun _ _ => .inl (.refl c s)
  split
  · rename_i hrej
    exact .pure (.inl ⟨hrej, rfl, rfl⟩)
  rename_i hrej
  rw [Bool.not_eq_true] at hrej
  refine .bind <| .lift (fun hs hhs => ?_) fun _ _ => .inl (.refl c s)
  refine .bind <| .lift (fun h hh => ?_) fun _ _ => .inl (.refl c s)
  set e := c.proposal.edge P hs h result with he
  have hedge : edge? P c = some e := edge?_eq_some.mpr ⟨result, hr, hrej, hs, hhs, h, hh, rfl⟩
  have hblobs : blobs P c = nodeBlobs P c.proposal.premises ++ nodeBlobs P [c.proposal.conclusion] ++
      ((e.edgeBytes P).toOption.elim [] fun data => data :: c.proposal.proofBytes.toList) := by
    rw [blobs, hedge, nodeBlobs, List.filterMap_append, ← nodeBlobs, ← nodeBlobs]
  refine .bind <| putNodes_wp.mono ?_ ?_
  rotate_left
  · rintro - s' ⟨bs, hbs, rfl⟩
    exact .inl ⟨bs, by rw [hblobs, List.append_assoc]; exact hbs.trans (List.prefix_append _ _), rfl⟩
  rintro - s₁ rfl
  refine .bind <| putNode_wp.mono ?_ ?_
  rotate_left
  · rintro - s' (rfl | rfl)
    · exact .inl ⟨_, by rw [hblobs, List.append_assoc]; exact List.prefix_append _ _, rfl⟩
    · exact .inl ⟨_, by rw [hblobs]; exact List.prefix_append _ _, storing_storing _ _ _⟩
  rintro - s₂ rfl
  rw [storing_storing]
  refine .bind <| .lift (fun data hd => ?_) fun _ _ => .inl ⟨_, by rw [hblobs]; exact List.prefix_append _ _, rfl⟩
  rw [toOption_eq_some.mpr hd, Option.elim_some] at hblobs
  have hcommit : ∀ entry s', Commits P c.keys c.now hs h data c.proposal.proofBytes
      (storing P s (nodeBlobs P c.proposal.premises ++ nodeBlobs P [c.proposal.conclusion])) entry s' →
      Completes P c s e data s' := by
    rintro entry s' ⟨ha, rfl⟩
    refine ⟨hedge, hd, entry, ha, ?_⟩
    rw [hblobs]
    simp only [storedBlobs_eq, storing, putAll_append]
    rfl
  refine .bind <| commitEdgeTx_wp.mono ?_ ?_
  · rintro ⟨_, entry⟩ s' ⟨rfl, hs'⟩
    exact .pure (.inr ⟨e, data, ⟨hrej, rfl, rfl⟩, hcommit entry s' hs'⟩)
  · rintro - s' (⟨hdb, hobj⟩ | ⟨entry, hs'⟩)
    · refine .inl ?_
      rw [Stops, hblobs]
      obtain ⟨objects, db⟩ := s'
      obtain rfl : db = s.db := hdb
      rcases hobj with rfl | rfl | rfl
      · exact ⟨_, List.prefix_append _ _, rfl⟩
      · refine ⟨nodeBlobs P c.proposal.premises ++ nodeBlobs P [c.proposal.conclusion] ++ [data], ?_, ?_⟩
        · rw [List.prefix_append_right_inj]
          exact List.prefix_append [data] _
        · simp only [storing, putAll_append]
          rfl
      · refine ⟨_, List.prefix_rfl, ?_⟩
        simp only [storedBlobs_eq, storing, putAll_append]
    · exact .inr ⟨e, data, hcommit entry s' hs'⟩

/-! ## The invariant -/

/-- The blobs that these calls can put. -/
def callBlobs (P : Prims) (calls : List CommitCall) : Set Bytes := {m | ∃ c ∈ calls, m ∈ blobs P c}

/-- An edge and the blobs that it refers to are there. -/
structure EdgeStored (P : Prims) (objects : Files) (e : Edge) (data : Bytes) : Prop where
  edgeBytes : e.edgeBytes P = .ok data
  has : Has P objects data
  nodes : ∀ h ∈ e.conclusion :: e.premises, ∃ (n : Node) (b : Bytes), n.nodeBytes P = .ok b ∧
    P.hashBytes b = h ∧ Has P objects b
  proof : ∀ h, e.proofHash = some h → ∃ b, P.hashBytes b = h ∧ Has P objects b

/-- The entries that these calls wrote, each under the keys of its call. -/
structure Logged (P : Prims) (calls : List CommitCall) (es : List LogEntry) : Prop where
  chain : Chain P es
  signed : ∀ e ∈ es, ∃ c ∈ calls, e.signerPubkey = c.keys.pub ∧
    (P.KeyPair c.keys.priv c.keys.pub → AppendLog.verifyEntry P e = .ok true)

/-- The edges `cs`, with their bytes, are what was committed to `s` by some of the calls. -/
structure Stored (P : Prims) (calls : List CommitCall) (s : Storage) (cs : List (Edge × Bytes)) : Prop where
  addressed : Addressed P (callBlobs P calls) s.objects
  edges : ∀ p ∈ cs, EdgeStored P s.objects p.1 p.2
  called : ∀ p ∈ cs, ∃ c ∈ calls, edge? P c = some p.1
  graph : Represents s.graph (cs.map fun p => ⟨P.hashBytes p.2, p.1.premises, p.1.conclusion⟩)
  log : ∃ es, s.log = es.map LogEntry.row ∧ Logged P calls es ∧ es.map LogEntry.payload = cs.map Prod.snd

theorem EdgeStored.putAll {objects : Files} {e : Edge} {data : Bytes} (h : EdgeStored P objects e data)
    (bs : List Bytes) : EdgeStored P (putAll P objects bs) e data where
  edgeBytes := h.edgeBytes
  has := h.has.putAll bs
  nodes k hk := by
    obtain ⟨n, b, hn, hb, hh⟩ := h.nodes k hk
    exact ⟨n, b, hn, hb, hh.putAll bs⟩
  proof k hk := by
    obtain ⟨b, hb, hh⟩ := h.proof k hk
    exact ⟨b, hb, hh.putAll bs⟩

theorem nodeId_eq_ok {n : Node} {h : Hash} : n.nodeId P = .ok h ↔ ∃ b, n.nodeBytes P = .ok b ∧ P.hashBytes b = h :=
  map_eq_ok

theorem edgeHash_eq_ok {e : Edge} {h : Hash} : e.edgeHash P = .ok h ↔ ∃ b, e.edgeBytes P = .ok b ∧ P.hashBytes b = h :=
  map_eq_ok

/-- The edge of a call refers to nodes of its proposal and to its proof, and is not vetoed. -/
theorem edge?_refs {c : CommitCall} {e : Edge} (h : edge? P c = some e) :
    e.verdict ≠ .hardVeto ∧ e.proofHash = c.proposal.proofBytes.map P.hashBytes ∧
      ∀ k ∈ e.conclusion :: e.premises, ∃ n ∈ c.proposal.premises ++ [c.proposal.conclusion], n.nodeId P = .ok k := by
  obtain ⟨result, -, hrej, hs, hhs, k, hk, rfl⟩ := edge?_eq_some.mp h
  refine ⟨of_decide_eq_false hrej, rfl, ?_⟩
  rw [List.forall_mem_cons]
  refine ⟨⟨_, by simp, hk⟩, fun k' hk' => ?_⟩
  obtain ⟨n, hn, e⟩ := mem_of_mapM hhs hk'
  exact ⟨n, List.mem_append_left _ hn, e⟩

theorem blobs_eq {c : CommitCall} {e : Edge} {data : Bytes} (he : edge? P c = some e) (hd : e.edgeBytes P = .ok data) :
    blobs P c = nodeBlobs P (c.proposal.premises ++ [c.proposal.conclusion]) ++
      data :: c.proposal.proofBytes.toList := by
  rw [blobs, he]
  simp only [hd]
  rfl

/-- After the blobs of a call are put, its edge is stored. -/
theorem Addressed.edgeStored {M : Set Bytes} {objects : Files} (h : Addressed P M objects)
    (hM : Set.InjOn P.hashBytes M) {c : CommitCall} (hb : ∀ b ∈ blobs P c, b ∈ M) {e : Edge} {data : Bytes}
    (he : edge? P c = some e) (hd : e.edgeBytes P = .ok data) :
    EdgeStored P (Proof.putAll P objects (blobs P c)) e data := by
  have has := h.has_putAll hM hb
  have hblobs := blobs_eq he hd
  obtain ⟨-, hproof, hnodes⟩ := edge?_refs he
  refine ⟨hd, has _ (by simp [hblobs]), fun k hk => ?_, fun k hk => ?_⟩
  · obtain ⟨n, hn, hk⟩ := hnodes k hk
    obtain ⟨b, hb, rfl⟩ := nodeId_eq_ok.mp hk
    refine ⟨n, b, hb, rfl, has b ?_⟩
    rw [hblobs]
    exact List.mem_append_left _ (List.mem_filterMap.mpr ⟨n, hn, toOption_eq_some.mpr hb⟩)
  · rw [hproof, Option.map_eq_some_iff] at hk
    obtain ⟨b, hb, rfl⟩ := hk
    exact ⟨b, rfl, has b (by simp [hblobs, hb])⟩

/-- Edges with the same bytes have the same fields. -/
theorem edgeSame_of_bytes (hc : P.CborLaws) {e e' : Edge} {data : Bytes} (h : e.edgeBytes P = .ok data)
    (h' : e'.edgeBytes P = .ok data) : ∃ d, EdgeSame P e d ∧ EdgeSame P e' d := by
  obtain ⟨d, hd, same, -⟩ := edge_fromBytes hc h
  obtain ⟨d', hd', same', -⟩ := edge_fromBytes hc h'
  rw [hd, Except.ok.injEq] at hd'
  exact ⟨d, same, hd' ▸ same'⟩

theorem functional_of_edgeStored (hc : P.CborLaws) {M : Set Bytes} (hM : Set.InjOn P.hashBytes M) {objects : Files}
    (ha : Addressed P M objects) {cs : List (Edge × Bytes)} (h : ∀ p ∈ cs, EdgeStored P objects p.1 p.2) :
    Functional (cs.map fun p => ⟨P.hashBytes p.2, p.1.premises, p.1.conclusion⟩) := by
  intro r hr r' hr' e
  obtain ⟨p, hp, rfl⟩ := List.mem_map.mp hr
  obtain ⟨q, hq, rfl⟩ := List.mem_map.mp hr'
  have hdata := hM (ha.hash_eq (h p hp).has).1 (ha.hash_eq (h q hq).has).1 e
  obtain ⟨d, same, same'⟩ := edgeSame_of_bytes hc (h p hp).edgeBytes (hdata ▸ (h q hq).edgeBytes)
  simp only [hdata, ← same.premises, ← same.conclusion, same'.premises, same'.conclusion]

namespace Stored

variable {calls : List CommitCall} {s : Storage} {cs : List (Edge × Bytes)}

theorem empty : Stored P calls .empty [] where
  addressed := .empty
  edges := by simp
  called := by simp
  graph := .empty
  log := ⟨[], rfl, ⟨.nil, by simp⟩, rfl⟩

theorem storing (h : Stored P calls s cs) {bs : List Bytes} (hb : ∀ b ∈ bs, b ∈ callBlobs P calls) :
    Stored P calls (Proof.storing P s bs) cs where
  addressed := h.addressed.putAll hb
  edges p hp := (h.edges p hp).putAll bs
  called := h.called
  graph := h.graph
  log := h.log

section Laws

variable (hc : P.CborLaws) (hM : Set.InjOn P.hashBytes (callBlobs P calls))
include hc hM

theorem functional (h : Stored P calls s cs) :
    Functional (cs.map fun p => ⟨P.hashBytes p.2, p.1.premises, p.1.conclusion⟩) :=
  functional_of_edgeStored hc hM h.addressed h.edges

/-- A commit adds its edge. -/
theorem completes (h : Stored P calls s cs) {c : CommitCall} (hcall : c ∈ calls) {e : Edge} {data : Bytes}
    {s' : Storage} (hs' : Completes P c s e data s') : Stored P calls s' (cs ++ [(e, data)]) := by
  obtain ⟨he, hd, entry, ha, rfl⟩ := hs'
  have hb : ∀ b ∈ blobs P c, b ∈ callBlobs P calls := fun b hb => ⟨c, hcall, hb⟩
  have hstored := h.addressed.edgeStored hM hb he hd
  have hedges : ∀ p ∈ cs ++ [(e, data)], EdgeStored P (putAll P s.objects (blobs P c)) p.1 p.2 :=
    forall_mem_concat (fun p hp => (h.edges p hp).putAll _) hstored
  refine ⟨h.addressed.putAll hb, hedges, forall_mem_concat h.called ⟨c, hcall, he⟩, ?_, ?_⟩
  · have hf := functional_of_edgeStored hc hM (h.addressed.putAll hb) hedges
    rw [List.map_append] at hf ⊢
    exact h.graph.register hf
  · obtain ⟨es, hlog, hes, hpay⟩ := h.log
    rw [hlog] at ha
    refine ⟨es ++ [entry], ?_, ⟨hes.chain.append ha, ?_⟩, ?_⟩
    · rw [List.map_append, ← hlog]
      rfl
    · exact forall_mem_concat hes.signed ⟨c, hcall, ha.signerPubkey, ha.verified⟩
    · rw [List.map_append, List.map_append, hpay, List.map_singleton, ha.payload]
      rfl

/-- Every call keeps the invariant, whichever statement it fails at. -/
theorem exec (h : Stored P calls s cs) {c : CommitCall} (hcall : c ∈ calls) :
    ∃ cs', Stored P calls (c.exec P s) cs' := by
  have hstop : ∀ {s'}, Stops P c s s' → ∃ cs', Stored P calls s' cs' := by
    rintro _ ⟨bs, hbs, rfl⟩
    exact ⟨cs, h.storing fun b hb => ⟨c, hcall, hbs.subset hb⟩⟩
  refine WP.state (I := fun s' => ∃ cs', Stored P calls s' cs') (verifyAndCommit_wp.mono ?_ ?_) c.fault
  · rintro r s' (⟨-, -, rfl⟩ | ⟨e, data, -, hs'⟩)
    exacts [⟨cs, h⟩, ⟨_, h.completes hc hM hcall hs'⟩]
  · rintro - s' (hs' | ⟨e, data, hs'⟩)
    exacts [hstop hs', ⟨_, h.completes hc hM hcall hs'⟩]

end Laws

end Stored

/-- In every state that calls lead to. -/
theorem run_stored (hc : P.CborLaws) (calls : List CommitCall) (hM : Set.InjOn P.hashBytes (callBlobs P calls)) :
    ∃ cs, Stored P calls (CommitCall.run P calls) cs := by
  have key : ∀ (rest : List CommitCall) s cs, (∀ c ∈ rest, c ∈ calls) → Stored P calls s cs →
      ∃ cs', Stored P calls (rest.foldl (CommitCall.exec P) s) cs' := by
    intro rest
    induction rest with
    | nil => exact fun s cs _ h => ⟨cs, h⟩
    | cons c rest ih =>
      intro s cs hrest h
      rw [List.forall_mem_cons] at hrest
      obtain ⟨cs', h'⟩ := h.exec hc hM hrest.1
      exact ih _ cs' hrest.2 h'
  exact key calls .empty [] (fun _ h => h) .empty

/-! ## What the reads answer -/

theorem resolveEdge_of_has (hc : P.CborLaws) {s : Storage} {e : Edge} {data : Bytes} (he : e.edgeBytes P = .ok data)
    (h : Has P s.objects data) :
    ∃ e', resolveEdge P (P.hashBytes data) s = some e' ∧ EdgeSame P e e' ∧ e'.edgeBytes P = .ok data := by
  obtain ⟨e', hd, same, hb⟩ := edge_fromBytes hc he
  refine ⟨e', ?_, same, hb⟩
  rw [Has] at h
  simp only [resolveEdge, h]
  rw [toOption_eq_some, hd]

theorem resolveNode_of_has (hc : P.CborLaws) {s : Storage} {n : Node} {b : Bytes} (hn : n.nodeBytes P = .ok b)
    (h : Has P s.objects b) :
    ∃ n', resolveNode P (P.hashBytes b) s = some n' ∧ NodeSame P n n' ∧ n'.nodeBytes P = .ok b := by
  obtain ⟨n', hd, same, hb⟩ := node_fromBytes hc hn
  refine ⟨n', ?_, same, hb⟩
  rw [Has] at h
  simp only [resolveNode, h]
  rw [toOption_eq_some, hd]

/-- The objects, the index and the log agree. -/
structure Consistent (P : Prims) (s : Storage) : Prop where
  /-- An indexed hash is that of an edge whose parts are all there. -/
  edges : ∀ h ∈ s.graph.allEdges, ∃ e, resolveEdge P h s = some e ∧ e.edgeHash P = .ok h ∧
    e.verdict ≠ .hardVeto ∧ s.graph.getConnectivity h = some (e.premises, e.conclusion) ∧
    (∀ k ∈ e.conclusion :: e.premises, ∃ n, resolveNode P k s = some n ∧ n.nodeId P = .ok k) ∧
    (∀ k, e.proofHash = some k → ∃ proof, ObjectStore.get s.objects k = some proof ∧ P.hashBytes proof = k) ∧
    ∃ seq entry, AppendLog.get s.log seq = .ok (some entry) ∧ e.edgeBytes P = .ok entry.payload
  /-- What is logged is the bytes of an indexed edge. -/
  log : ∀ row ∈ s.log, ∃ h ∈ s.graph.allEdges, ∃ e, resolveEdge P h s = some e ∧ e.edgeBytes P = .ok row.payload
  /-- The nodes are the premises and conclusions of the indexed edges. -/
  nodes : ∀ k, k ∈ s.graph.allNodes ↔
    ∃ h ∈ s.graph.allEdges, ∃ e, resolveEdge P h s = some e ∧ k ∈ e.conclusion :: e.premises

namespace Stored

variable {calls : List CommitCall} {s : Storage} {cs : List (Edge × Bytes)}

theorem mem_allEdges (h : Stored P calls s cs) {k : Hash} :
    k ∈ s.graph.allEdges ↔ ∃ p ∈ cs, P.hashBytes p.2 = k := by
  rw [h.graph.mem_allEdges]
  simp

/-- An entry that is read was written by a call, for an edge that it committed. -/
theorem entry (h : Stored P calls s cs) {seq : Int} {e : LogEntry} (hg : AppendLog.get s.log seq = .ok (some e)) :
    (∃ p ∈ cs, p.2 = e.payload) ∧ e.entryHash = P.hashBytes e.payload ∧
      ∃ c ∈ calls, e.signerPubkey = c.keys.pub ∧
        (P.KeyPair c.keys.priv c.keys.pub → AppendLog.verifyEntry P e = .ok true) := by
  obtain ⟨es, hlog, hes, hpay⟩ := h.log
  have hrow := (mem_of_get hg).1
  rw [hlog] at hrow
  obtain ⟨e', he, hrow⟩ := List.mem_map.mp hrow
  rw [row_inj.mp hrow] at he
  have hmem : e.payload ∈ cs.map Prod.snd := hpay ▸ List.mem_map_of_mem he
  exact ⟨List.mem_map.mp hmem, hes.chain.hashed e he, hes.signed e he⟩

theorem consistent (hc : P.CborLaws) (hM : Set.InjOn P.hashBytes (callBlobs P calls)) (h : Stored P calls s cs) :
    Consistent P s := by
  have resolve : ∀ p ∈ cs, ∃ e, resolveEdge P (P.hashBytes p.2) s = some e ∧ EdgeSame P p.1 e ∧
      e.edgeBytes P = .ok p.2 := fun p hp => resolveEdge_of_has hc (h.edges p hp).edgeBytes (h.edges p hp).has
  obtain ⟨es, hlog, hes, hpay⟩ := h.log
  refine ⟨fun k hk => ?_, fun row hrow => ?_, fun k => ?_⟩
  · obtain ⟨p, hp, rfl⟩ := h.mem_allEdges.mp hk
    obtain ⟨e, he, same, hb⟩ := resolve p hp
    obtain ⟨-, -, hnodes, hproof⟩ := h.edges p hp
    obtain ⟨c, -, hcall⟩ := h.called p hp
    refine ⟨e, he, edgeHash_eq_ok.mpr ⟨_, hb, rfl⟩, ?_, ?_, fun k hk => ?_, fun k hk => ?_, ?_⟩
    · rw [same.verdict]
      exact (edge?_refs hcall).1
    · rw [same.premises, same.conclusion]
      exact h.graph.getConnectivity_eq (h.functional hc hM) (List.mem_map_of_mem hp)
    · rw [same.premises, same.conclusion] at hk
      obtain ⟨n, b, hn, rfl, hhas⟩ := hnodes k hk
      obtain ⟨n', hn', -, hb'⟩ := resolveNode_of_has hc hn hhas
      exact ⟨n', hn', nodeId_eq_ok.mpr ⟨b, hb', rfl⟩⟩
    · rw [same.proofHash] at hk
      obtain ⟨b, rfl, hhas⟩ := hproof k hk
      exact ⟨b, hhas, rfl⟩
    · have hmem : p.2 ∈ es.map LogEntry.payload := hpay ▸ List.mem_map_of_mem hp
      obtain ⟨entry, hentry, hep⟩ := List.mem_map.mp hmem
      obtain ⟨i, hi, rfl⟩ := List.mem_iff_getElem.mp hentry
      exact ⟨i, es[i], hlog ▸ get_map_row hes.chain.seq hi, hep ▸ hb⟩
  · rw [hlog] at hrow
    obtain ⟨entry, hentry, rfl⟩ := List.mem_map.mp hrow
    have hmem : entry.payload ∈ cs.map Prod.snd := hpay ▸ List.mem_map_of_mem hentry
    obtain ⟨p, hp, hep⟩ := List.mem_map.mp hmem
    obtain ⟨e, he, -, hb⟩ := resolve p hp
    exact ⟨_, h.mem_allEdges.mpr ⟨p, hp, rfl⟩, e, he, hb.trans (congrArg _ hep)⟩
  · rw [h.graph.mem_allNodes]
    constructor
    · rintro ⟨r, hr, hk⟩
      obtain ⟨p, hp, rfl⟩ := List.mem_map.mp hr
      obtain ⟨e, he, same, -⟩ := resolve p hp
      exact ⟨_, h.mem_allEdges.mpr ⟨p, hp, rfl⟩, e, he, by rw [same.premises, same.conclusion]; exact hk⟩
    · rintro ⟨k', hk', e, he, hk⟩
      obtain ⟨p, hp, rfl⟩ := h.mem_allEdges.mp hk'
      obtain ⟨e', he', same, -⟩ := resolve p hp
      rw [he, Option.some.injEq] at he'
      rw [he', same.premises, same.conclusion] at hk
      exact ⟨_, List.mem_map_of_mem hp, hk⟩

end Stored

/-- A call that returns rejected changes nothing. -/
theorem exec_of_rejected {c : CommitCall} {s : Storage} {r : CommitResult}
    (h : ((c.prog P).exec c.fault s).1 = .ok r) (hr : r.rejected = true) : c.exec P s = s := by
  have hexec : (c.prog P).exec c.fault s = (.ok r, c.exec P s) := Prod.ext h rfl
  have key := verifyAndCommit_wp.ok hexec
  rcases key with ⟨-, -, hs⟩ | ⟨e, data, hacc, -⟩
  · exact hs
  · have hr' := hacc.rejected
    rw [hr] at hr'
    cases hr'

/-- In every state that calls lead to, whichever of them are rejected or fail,
the objects, the index and the log agree; and there a call that is rejected
changes nothing. -/
theorem run_consistent (hc : P.CborLaws) (calls : List CommitCall)
    (hM : Set.InjOn P.hashBytes (callBlobs P calls)) :
    Consistent P (CommitCall.run P calls) ∧
      ∀ (c : CommitCall) r, ((c.prog P).exec c.fault (CommitCall.run P calls)).1 = .ok r → r.rejected = true →
        c.exec P (CommitCall.run P calls) = CommitCall.run P calls := by
  obtain ⟨cs, h⟩ := run_stored hc calls hM
  exact ⟨h.consistent hc hM, fun c r hr hrej => exec_of_rejected hr hrej⟩

section Example

open Reference

/-- Checkers that pass everything. -/
def lenient : Checkers := ⟨[], fun _ _ _ _ _ _ => .ok ⟨true, .k2, none⟩⟩

/-- The claim, in the domain `"math"`. -/
def mathNode (claim : String) : Node := ⟨.str claim, .str "math", .bool true⟩

/-- A citation of `b` from `a` with a proof, the same with a failure at its
tenth statement, and a definition of `a`. -/
def commits : List CommitCall :=
  let keys : Keys := ⟨List.replicate 32 7, List.replicate 32 7⟩
  let cite : Proposal := ⟨.bytes keys.pub, [mathNode "a"], mathNode "b", .str "r", .citation, some [3], .finite 5⟩
  let define : Proposal := ⟨.bytes keys.pub, [], mathNode "a", .str "r", .definition, none, .finite 5⟩
  [⟨lenient, keys, 10, none, cite⟩, ⟨lenient, keys, 20, some 9, cite⟩, ⟨lenient, keys, 30, none, define⟩]

theorem callBlobs_injOn {calls : List CommitCall}
    (h : ((calls.flatMap (blobs reference)).dedup.map reference.hashBytes).Nodup) :
    Set.InjOn reference.hashBytes (callBlobs reference calls) := by
  refine injOn_of_nodup _ (fun m hm => ?_) h
  obtain ⟨c, hc, hm⟩ := hm
  exact List.mem_dedup.mpr (List.mem_flatMap.mpr ⟨c, hc, hm⟩)

theorem run_consistent_commits : Consistent reference (CommitCall.run reference commits) ∧
    (CommitCall.run reference commits).graph.allEdges.length = 2 :=
  ⟨(run_consistent reference_cborLaws commits (callBlobs_injOn (by decide +kernel))).1, by decide +kernel⟩

end Example

end ArxDB.Proof
