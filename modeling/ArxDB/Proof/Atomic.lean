import ArxDB.Impl.Session
import ArxDB.Proof.History
import ArxDB.Proof.Index
import ArxDB.Proof.Objects

/-!
# `commit_edge_tx` is all or nothing

`WellFormed M s` is what every sequence of writes keeps (`run_wellFormed`),
whichever statements fail: the files are blobs of `M` under their own hashes,
the log is numbered, and a premise row has its edge. From there a commit either
raises and leaves the database as it was, with at most the blobs of the edge
gained, or makes the edge, its blobs and its one entry visible
(`WellFormed.allOrNothing`).
-/

namespace ArxDB.Proof

open Impl Failing

variable {P : Prims} {keys : Keys} {now : Int}

/-! ## What is promised -/

/-- In `s'` the edge, its blobs and its entry `e` can be read. Besides, the log
reads as in `s`. -/
structure Visible (P : Prims) (premises : List Hash) (conclusion : Hash) (edgeData : Bytes) (proof : Option Bytes)
    (s : Storage) (e : LogEntry) (s' : Storage) : Prop where
  blobs {b : Bytes} (hb : b ∈ edgeBlobs edgeData proof) : ObjectStore.get s'.objects (P.hashBytes b) = some b
  payload : e.payload = edgeData
  length : s'.log.length = s.log.length + 1
  free : AppendLog.get s.log s.log.length = .ok none
  get (seq : Int) : AppendLog.get s'.log seq = if seq = s.log.length then .ok (some e) else AppendLog.get s.log seq
  entryHashes : ∃ hs, AppendLog.entryHashes s.log = .ok hs ∧ AppendLog.entryHashes s'.log = .ok (hs ++ [e.entryHash])
  indexed : P.hashBytes edgeData ∈ s'.graph.allEdges
  /-- Nothing is said of a hash that was indexed before. -/
  edge (h : P.hashBytes edgeData ∉ s.graph.allEdges) :
    s'.graph.getConnectivity (P.hashBytes edgeData) = some (premises, conclusion) ∧
    P.hashBytes edgeData ∈ s'.graph.incomingEdges conclusion ∧
    ∀ p ∈ premises, P.hashBytes edgeData ∈ s'.graph.outgoingEdges p

/-- Whichever statement of a commit fails, if one does. -/
def AllOrNothing (P : Prims) (keys : Keys) (now : Int) (premises : List Hash) (conclusion : Hash) (edgeData : Bytes)
    (proof : Option Bytes) (s : Storage) : Prop :=
  WP (Storage.commitEdgeStatements P keys now premises conclusion edgeData proof)
    (fun r s' => r.1 = P.hashBytes edgeData ∧ Visible P premises conclusion edgeData proof s r.2 s')
    (fun _ s' => s'.db = s.db ∧ Gains P ObjectStore.path (edgeBlobs edgeData proof) s.objects s'.objects) s

/-! ## The index -/

/-- Every premise row is of an edge that is there. -/
def Rooted (g : GraphIndex) : Prop := ∀ row ∈ g.premises, ∃ r ∈ g.edges, r.edgeHash = row.edgeHash

theorem insertAll_eq_append {α κ : Type} [DecidableEq κ] {key : α → κ} {rows table : List α}
    (hnodup : (rows.map key).Nodup) (hnew : ∀ r ∈ table, ∀ r' ∈ rows, key r ≠ key r') :
    insertAll key rows table = table ++ rows := by
  induction rows generalizing table with
  | nil => simp [insertAll]
  | cons row rows ih =>
    rw [List.map_cons, List.nodup_cons] at hnodup
    have hrow : insertOrIgnore key row table = table ++ [row] := by
      rw [insertOrIgnore, if_neg]
      simpa using fun r hr => hnew r hr row List.mem_cons_self
    rw [insertAll, List.foldl_cons, hrow, ← insertAll, ih hnodup.2, List.append_assoc, List.singleton_append]
    intro r hr r' hr'
    rcases List.mem_append.mp hr with hr | hr
    · exact hnew r hr r' (List.mem_cons_of_mem _ hr')
    · obtain rfl := List.mem_singleton.mp hr
      exact fun e => hnodup.1 (e ▸ List.mem_map_of_mem hr')

section Register

variable {g : GraphIndex} {edgeHash conclusion : Hash} {premises : List Hash}

theorem Rooted.insertNode (h : Rooted g) (node : Hash) : Rooted (g.insertNode node) := h

theorem Rooted.insertEdge (h : Rooted g) (row : EdgeRow) : Rooted (g.insertEdge row) := by
  intro p hp
  obtain ⟨r, hr, he⟩ := h p hp
  refine ⟨r, ?_, he⟩
  change r ∈ insertOrIgnore EdgeRow.edgeHash row g.edges
  unfold insertOrIgnore
  split
  · exact hr
  · exact List.mem_append_left _ hr

theorem exists_insertEdge (row : EdgeRow) : ∃ r ∈ (g.insertEdge row).edges, r.edgeHash = row.edgeHash := by
  change ∃ r ∈ insertOrIgnore EdgeRow.edgeHash row g.edges, r.edgeHash = row.edgeHash
  unfold insertOrIgnore
  split
  · rename_i hany
    obtain ⟨r, hr, he⟩ := List.any_eq_true.mp hany
    exact ⟨r, hr, of_decide_eq_true he⟩
  · exact ⟨row, List.mem_append_right _ (List.mem_singleton_self _), rfl⟩

/-- A premise row is inserted after its edge. -/
theorem Rooted.insertPremise (h : Rooted g) {row : PremiseRow} (he : ∃ r ∈ g.edges, r.edgeHash = row.edgeHash) :
    Rooted (g.insertPremise row) := by
  intro p hp
  change p ∈ insertOrIgnore (fun r => (r.edgeHash, r.position)) row g.premises at hp
  unfold insertOrIgnore at hp
  split at hp
  · exact h p hp
  · rcases List.mem_append.mp hp with hp | hp
    · exact h p hp
    · obtain rfl := List.mem_singleton.mp hp
      exact he

/-- Wherever `register_edge` stops. -/
theorem registerEdge_rooted (h : Rooted g) :
    WP (GraphIndex.registerEdge edgeHash premises conclusion) (fun _ g' => Rooted g') (fun _ g' => Rooted g') g := by
  refine .bind <| .bind <| .statement h <| .update <| .bind ?_
  have node : ∀ done p rest, premises = done ++ p :: rest → ∀ g' : GraphIndex, Rooted g' →
      WP (GraphIndex.registerNode p) (fun _ g'' => Rooted g'') (fun _ g'' => Rooted g'') g' :=
    fun _ p _ _ g' h' => .bind <| .statement h' <| .update (h'.insertNode p)
  have premise : ∀ done p rest, premises.zipIdx = done ++ p :: rest → ∀ g' : GraphIndex,
      (Rooted g' ∧ ∃ r ∈ g'.edges, r.edgeHash = edgeHash) →
      WP (do Prog.statement PyError.fault; Prog.update (GraphIndex.insertPremise ⟨edgeHash, p.1, p.2⟩))
        (fun _ g'' => Rooted g'' ∧ ∃ r ∈ g''.edges, r.edgeHash = edgeHash) (fun _ g'' => Rooted g'') g' :=
    fun _ p _ _ g' h' => .bind <| .statement h'.1 <| .update ⟨h'.1.insertPremise h'.2, h'.2⟩
  refine (WP.forM (I := fun _ g' => Rooted g') node (h.insertNode conclusion)).mono (fun _ g' h' => ?_) fun _ _ h' => h'
  refine .bind <| .statement h' <| .bind <| .update ?_
  exact (WP.forM (I := fun _ g' => Rooted g' ∧ ∃ r ∈ g'.edges, r.edgeHash = edgeHash) premise
    ⟨h'.insertEdge _, exists_insertEdge _⟩).mono (fun _ _ h' => h'.1) fun _ _ h' => h'

theorem rooted_registered (h : Rooted g) : Rooted (registered edgeHash premises conclusion g) := by
  have nodes : ∀ (ps : List Hash) (g : GraphIndex), Rooted g → Rooted (ps.foldl (fun g p => g.insertNode p) g) := by
    intro ps
    induction ps with
    | nil => exact fun _ h => h
    | cons p ps ih => exact fun g h => ih _ (h.insertNode p)
  have rows : ∀ (ps : List (Hash × Nat)) (g : GraphIndex), Rooted g → (∃ r ∈ g.edges, r.edgeHash = edgeHash) →
      Rooted (ps.foldl (fun g p => g.insertPremise ⟨edgeHash, p.1, p.2⟩) g) := by
    intro ps
    induction ps with
    | nil => exact fun _ h _ => h
    | cons p ps ih => exact fun g h he => ih _ (h.insertPremise he) he
  exact rows _ _ ((nodes _ _ (h.insertNode conclusion)).insertEdge _) (exists_insertEdge _)

theorem mem_allEdges_registered : edgeHash ∈ (registered edgeHash premises conclusion g).allEdges := by
  rw [registered_eq g ⟨edgeHash, premises, conclusion⟩, GraphIndex.allEdges, GraphIndex.orderByHash,
    List.mem_insertionSort, List.mem_map]
  exact exists_insertEdge (g := g) ⟨edgeHash, conclusion⟩

section New

variable (h : Rooted g) (hnew : edgeHash ∉ g.allEdges)
include h hnew

/-- The tables after an edge that was not there is registered. -/
theorem registered_new (premises : List Hash) (conclusion : Hash) :
    (registered edgeHash premises conclusion g).edges = g.edges ++ [⟨edgeHash, conclusion⟩] ∧
    (registered edgeHash premises conclusion g).premises =
      g.premises ++ EdgeRecord.premiseRows ⟨edgeHash, premises, conclusion⟩ := by
  have hedge : ∀ r ∈ g.edges, r.edgeHash ≠ edgeHash := by
    intro r hr e
    rw [GraphIndex.allEdges, GraphIndex.orderByHash, List.mem_insertionSort] at hnew
    exact hnew (e ▸ List.mem_map_of_mem hr)
  rw [registered_eq g ⟨edgeHash, premises, conclusion⟩]
  refine ⟨?_, insertAll_eq_append (EdgeRecord.premiseRows_keys_nodup _) fun row hrow row' hrow' e => ?_⟩
  · rw [insertOrIgnore, if_neg]
    simpa using hedge
  · obtain ⟨i, hi, rfl⟩ := mem_premiseRows.mp hrow'
    obtain ⟨r, hr, he⟩ := h row hrow
    exact hedge r hr (he.trans (congrArg Prod.fst e))

theorem getConnectivity_registered :
    (registered edgeHash premises conclusion g).getConnectivity edgeHash = some (premises, conclusion) := by
  obtain ⟨hedges, hrows⟩ := registered_new h hnew premises conclusion
  rw [GraphIndex.allEdges, GraphIndex.orderByHash, List.mem_insertionSort] at hnew
  have hfind : (registered edgeHash premises conclusion g).edges.find? (fun r => decide (r.edgeHash = edgeHash)) =
      some ⟨edgeHash, conclusion⟩ := by
    have hnone : g.edges.find? (fun r => decide (r.edgeHash = edgeHash)) = none := by
      rw [List.find?_eq_none]
      intro r hr e
      exact hnew (of_decide_eq_true e ▸ List.mem_map_of_mem hr)
    rw [hedges, List.find?_append, hnone]
    simp
  have hfilter : (registered edgeHash premises conclusion g).premises.filter (fun r => decide (r.edgeHash = edgeHash)) =
      EdgeRecord.premiseRows ⟨edgeHash, premises, conclusion⟩ := by
    rw [hrows, List.filter_append, List.filter_eq_nil_iff.mpr, List.nil_append, List.filter_eq_self.mpr]
    · intro row hrow
      obtain ⟨i, hi, rfl⟩ := mem_premiseRows.mp hrow
      exact decide_eq_true rfl
    · intro row hrow e
      obtain ⟨r, hr, he⟩ := h row hrow
      exact hnew (of_decide_eq_true e ▸ he ▸ List.mem_map_of_mem hr)
  have hsorted : (EdgeRecord.premiseRows ⟨edgeHash, premises, conclusion⟩).Pairwise
      fun a b => a.position ≤ b.position := (EdgeRecord.premiseRows_sorted _).imp fun h => h.le
  have hmap : (EdgeRecord.premiseRows ⟨edgeHash, premises, conclusion⟩).map PremiseRow.premiseHash = premises := by
    rw [EdgeRecord.premiseRows, List.map_map]
    exact List.zipIdx_map_fst 0 premises
  rw [GraphIndex.getConnectivity, hfind]
  dsimp only
  rw [hfilter, hsorted.insertionSort_eq, hmap]

theorem mem_incomingEdges_registered :
    edgeHash ∈ (registered edgeHash premises conclusion g).incomingEdges conclusion := by
  obtain ⟨hedges, -⟩ := registered_new h hnew premises conclusion
  rw [GraphIndex.incomingEdges, GraphIndex.orderByHash, List.mem_insertionSort, hedges]
  simp

theorem mem_outgoingEdges_registered {p : Hash} (hp : p ∈ premises) :
    edgeHash ∈ (registered edgeHash premises conclusion g).outgoingEdges p := by
  obtain ⟨-, hrows⟩ := registered_new h hnew premises conclusion
  obtain ⟨i, hi, rfl⟩ := List.mem_iff_getElem.mp hp
  rw [GraphIndex.outgoingEdges, GraphIndex.orderByHash, List.mem_insertionSort, List.mem_map, hrows]
  refine ⟨⟨edgeHash, _, i⟩, List.mem_filter.mpr ⟨List.mem_append_right _ ?_, decide_eq_true rfl⟩, rfl⟩
  exact mem_premiseRows.mpr ⟨i, hi, rfl⟩

end New

end Register

/-! ## The log -/

/-- The rows are entries, numbered from 0. -/
def Numbered (log : Log) : Prop :=
  ∃ es : List LogEntry, log = es.map LogEntry.row ∧ ∀ i (h : i < es.length), es[i].seq = i

theorem seq_concat {es : List LogEntry} (hseq : ∀ i (h : i < es.length), es[i].seq = i) {e : LogEntry}
    (he : e.seq = es.length) : ∀ i (h : i < (es ++ [e]).length), (es ++ [e])[i].seq = i := by
  intro i hi
  rcases Nat.lt_or_ge i es.length with hlt | hge
  · rw [List.getElem_append_left hlt]
    exact hseq i hlt
  · obtain rfl : i = es.length := by
      rw [List.length_append, List.length_singleton] at hi
      omega
    rw [List.getElem_concat_length rfl, he]

theorem Numbered.extends {log log' : Log} (h : Numbered log) (hext : Extends P keys now log log') : Numbered log' := by
  rcases hext with rfl | ⟨payload, e, ha, rfl⟩
  · exact h
  · obtain ⟨es, rfl, hseq⟩ := h
    exact ⟨es ++ [e], by simp, seq_concat hseq (by rw [ha.seq, List.length_map])⟩

/-- The next entry is read under the length, and every other as before. -/
theorem Numbered.get {log : Log} (h : Numbered log) {e : LogEntry} (he : e.seq = log.length) (seq : Int) :
    AppendLog.get (log ++ [e.row]) seq =
      if seq = log.length then .ok (some e) else AppendLog.get log seq := by
  obtain ⟨es, rfl, hseq⟩ := h
  have hrow : AppendLog.row? (es.map LogEntry.row ++ [e.row]) seq =
      (AppendLog.row? (es.map LogEntry.row) seq).or
        (if seq = (es.map LogEntry.row).length then some e.row else none) := by
    rw [AppendLog.row?, List.find?_append, AppendLog.row?]
    congr 1
    rw [List.find?_singleton]
    simp only [LogEntry.row, he, decide_eq_true_eq, eq_comm (a := seq)]
  split
  · rename_i hs
    rw [get_eq_some, hrow, if_pos hs, hs, List.length_map, row?_map_row_length hseq, Option.none_or]
  · rename_i hs
    rw [AppendLog.get, hrow, if_neg hs, Option.or_none, AppendLog.get]

theorem Numbered.free {log : Log} (h : Numbered log) : AppendLog.get log log.length = .ok none := by
  obtain ⟨es, rfl, hseq⟩ := h
  rw [AppendLog.get, List.length_map, row?_map_row_length hseq]

theorem Numbered.entryHashes {log : Log} (h : Numbered log) {e : LogEntry} (he : e.seq = log.length) :
    ∃ hs, AppendLog.entryHashes log = .ok hs ∧ AppendLog.entryHashes (log ++ [e.row]) = .ok (hs ++ [e.entryHash]) := by
  obtain ⟨es, rfl, hseq⟩ := h
  rw [List.length_map] at he
  refine ⟨_, entryHashes_map_row hseq, ?_⟩
  have happ := entryHashes_map_row (seq_concat hseq he)
  rw [List.map_append, List.map_append] at happ
  exact happ

/-! ## What every write keeps -/

/-- The blobs that a call can put. -/
def written (c : WriteCall) : List Bytes :=
  match c.op with
  | .put data => [data]
  | .log (.commitEdgeTx _ _ edgeData proof) => edgeBlobs edgeData proof
  | _ => []

/-- What every run keeps: the blobs match their hashes, the graph has no
dangling row, and the entries are numbered. -/
structure WellFormed (P : Prims) (M : Set Bytes) (s : Storage) : Prop where
  addressed : Addressed P M s.objects
  rooted : Rooted s.graph
  numbered : Numbered s.log

namespace WellFormed

variable {M : Set Bytes} {s : Storage}

theorem empty : WellFormed P M .empty := ⟨.empty, by simp [Rooted, Storage.empty, GraphIndex.empty], [], rfl, by simp⟩

/-- A call that writes the log alone. -/
theorem logged {s' : Storage} (h : WellFormed P M s) (hobjects : s'.objects = s.objects) (hgraph : s'.graph = s.graph)
    (hext : Extends P keys now s.log s'.log) : WellFormed P M s' :=
  ⟨hobjects ▸ h.addressed, hgraph ▸ h.rooted, h.numbered.extends hext⟩

theorem putAll (h : WellFormed P M s) {bs : List Bytes} (hb : ∀ b ∈ bs, b ∈ M) :
    WellFormed P M { s with objects := putAll P s.objects bs } :=
  ⟨h.addressed.putAll hb, h.rooted, h.numbered⟩

theorem commits {s' : Storage} {premises : List Hash} {conclusion : Hash} {edgeData : Bytes} {proof : Option Bytes}
    {e : LogEntry} (h : WellFormed P M s) (hM : ∀ b ∈ edgeBlobs edgeData proof, b ∈ M)
    (hs' : Commits P keys now premises conclusion edgeData proof s e s') : WellFormed P M s' := by
  obtain ⟨ha, rfl⟩ := hs'
  refine ⟨?_, rooted_registered h.rooted, h.numbered.extends (.inr ⟨_, e, ha, rfl⟩)⟩
  rw [storedBlobs_eq]
  exact h.addressed.putAll hM

theorem onGraph (h : WellFormed P M s) {x : Prog PyError GraphIndex Unit}
    (hx : WP x (fun _ g => Rooted g) (fun _ g => Rooted g) s.graph) :
    WP (Storage.onDb (Storage.onGraph x)) (fun _ s' => WellFormed P M s') (fun _ s' => WellFormed P M s') s := by
  have graph : ∀ g : GraphIndex, Rooted g → WellFormed P M { s with db := { s.db with graph := g } } :=
    fun _ hg => ⟨h.addressed, hg, h.numbered⟩
  rw [Storage.onDb, Storage.onGraph]
  exact .zoom <| .zoom <| hx.mono (fun _ => graph) fun _ => graph

theorem put (h : WellFormed P M s) {data : Bytes} (hM : data ∈ M) :
    WP (Storage.put P data) (fun _ s' => WellFormed P M s') (fun _ s' => WellFormed P M s') s := by
  have hdata : WellFormed P M { s with objects := ObjectStore.insert P s.objects data } :=
    ⟨h.addressed.insert hM, h.rooted, h.numbered⟩
  refine put_wp.mono ?_ ?_
  · rintro - s' ⟨-, rfl⟩
    exact hdata
  · rintro - s' (rfl | rfl)
    exacts [h, hdata]

theorem append (h : WellFormed P M s) (payload : Bytes) :
    WP (Storage.append P keys now payload) (fun _ s' => WellFormed P M s') (fun _ s' => WellFormed P M s') s := by
  refine append_wp.mono ?_ ?_
  · rintro e s' ⟨ha, rfl⟩
    exact h.logged rfl rfl (.inr ⟨_, e, ha, rfl⟩)
  · rintro - s' (rfl | ⟨e, ha, rfl⟩)
    · exact h
    · exact h.logged rfl rfl (.inr ⟨_, e, ha, rfl⟩)

theorem commitRoster (h : WellFormed P M s) (roster : Roster) :
    WP (Attest.commitRoster P keys now roster) (fun _ s' => WellFormed P M s') (fun _ s' => WellFormed P M s') s := by
  refine .bind <| .statement h <| .bind <| .read ?_
  split
  · refine .bind <| .lift (fun data _ => .bind ?_) fun _ _ => h
    exact (h.append data).mono (fun _ _ h => .pure h) fun _ _ h => h
  · refine .bind <| .statement h <| .bind <| .read <| .bind <| .lift (fun entry0 _ => ?_) fun _ _ => h
    cases entry0 with
    | none => exact .pure h
    | some entry0 => exact .bind <| .lift (fun _ _ => .pure h) fun _ _ => h

theorem commitEdgeTx (h : WellFormed P M s) {premises : List Hash} {conclusion : Hash} {edgeData : Bytes}
    {proof : Option Bytes} (hM : ∀ b ∈ edgeBlobs edgeData proof, b ∈ M) :
    WP (Storage.commitEdgeTx P keys now premises conclusion edgeData proof) (fun _ s' => WellFormed P M s')
      (fun _ s' => WellFormed P M s') s := by
  refine commitEdgeTx_wp.mono (fun r s' hs' => h.commits hM hs'.2) fun _ s' hs' => ?_
  rcases hs' with ⟨hdb, hobjects⟩ | ⟨e, hs'⟩
  · have haddr : Addressed P M s'.objects := by
      rcases hobjects with hobjects | hobjects | hobjects
      · exact hobjects ▸ h.addressed
      · exact hobjects ▸ h.addressed.insert (hM _ List.mem_cons_self)
      · rw [hobjects, storedBlobs_eq]
        exact h.addressed.putAll hM
    exact ⟨haddr, by rw [Storage.graph, hdb]; exact h.rooted, by rw [Storage.log, hdb]; exact h.numbered⟩
  · exact h.commits hM hs'

/-- Every call keeps it, whichever statement it fails at. -/
theorem exec (h : WellFormed P M s) {c : WriteCall} (hM : ∀ b ∈ written c, b ∈ M) : WellFormed P M (c.exec P s) := by
  refine WP.state (I := fun s' => WellFormed P M s') ?_ c.fault
  obtain ⟨keys, now, fault, op⟩ := c
  cases op with
  | put data => exact .bind <| (h.put (hM _ List.mem_cons_self)).mono (fun _ _ h => .pure h) fun _ _ h => h
  | registerNode node => exact h.onGraph (.bind <| .statement h.rooted <| .update (h.rooted.insertNode node))
  | registerEdge edgeHash premises conclusion => exact h.onGraph (registerEdge_rooted h.rooted)
  | log op =>
    cases op with
    | append payload => exact .bind <| (h.append payload).mono (fun _ _ h => .pure h) fun _ _ h => h
    | commitRoster roster => exact .bind <| (h.commitRoster roster).mono (fun _ _ h => .pure h) fun _ _ h => h
    | commitEdgeTx premises conclusion edgeData proof =>
      exact .bind <| (h.commitEdgeTx hM).mono (fun _ _ h => .pure h) fun _ _ h => h

end WellFormed

/-- After any writes, whichever of them fail. -/
theorem run_wellFormed (calls : List WriteCall) {M : Set Bytes} (hM : ∀ b ∈ calls.flatMap written, b ∈ M) :
    WellFormed P M (WriteCall.run P calls) := by
  induction calls using List.reverseRecOn with
  | nil => exact .empty
  | append_singleton calls c ih =>
    rw [List.flatMap_append] at hM
    rw [WriteCall.run, List.foldl_concat]
    refine WellFormed.exec (ih fun b hb => hM b (List.mem_append_left _ hb)) fun b hb => ?_
    exact hM b (List.mem_append_right _ (by simpa using hb))

/-! ## A commit -/

section Commit

variable {M : Set Bytes} {s : Storage} {premises : List Hash} {conclusion : Hash} {edgeData : Bytes}
  {proof : Option Bytes}

theorem WellFormed.visible (h : WellFormed P M s) (hinj : Set.InjOn P.hashBytes M)
    (hM : ∀ b ∈ edgeBlobs edgeData proof, b ∈ M) {e : LogEntry} {s' : Storage}
    (hs' : Commits P keys now premises conclusion edgeData proof s e s') :
    Visible P premises conclusion edgeData proof s e s' := by
  obtain ⟨ha, rfl⟩ := hs'
  have hblobs := h.addressed.has_putAll hinj hM
  rw [edgeBlobs, ← storedBlobs_eq] at hblobs
  exact {
    blobs := hblobs _
    payload := ha.payload
    length := by simp [Storage.log, committed]
    free := h.numbered.free
    get := h.numbered.get ha.seq
    entryHashes := h.numbered.entryHashes ha.seq
    indexed := mem_allEdges_registered
    edge := fun hnew => ⟨getConnectivity_registered h.rooted hnew, mem_incomingEdges_registered h.rooted hnew,
      fun p hp => mem_outgoingEdges_registered h.rooted hnew hp⟩ }

theorem commitEdgeStatements_gains :
    WP (Storage.commitEdgeStatements P keys now premises conclusion edgeData proof) (fun _ _ => True)
      (fun _ s' => s'.db = s.db ∧ Gains P ObjectStore.path (edgeBlobs edgeData proof) s.objects s'.objects) s := by
  refine commitEdgeStatements_wp.mono (fun _ _ _ => trivial) fun _ s' hs' => ⟨hs'.1, ?_⟩
  rcases hs'.2 with hobjects | hobjects | hobjects
  · exact hobjects ▸ .refl
  · exact hobjects ▸ .insert List.mem_cons_self
  · rw [hobjects, storedBlobs_eq]
    exact .putAll fun _ hb => hb

theorem WellFormed.allOrNothing (h : WellFormed P M s) (hinj : Set.InjOn P.hashBytes M)
    (hM : ∀ b ∈ edgeBlobs edgeData proof, b ∈ M) : AllOrNothing P keys now premises conclusion edgeData proof s :=
  (commitEdgeStatements_wp.and commitEdgeStatements_gains).mono
    (fun _ _ hs' => ⟨hs'.1.1, h.visible hinj hM hs'.1.2⟩) fun _ _ hs' => hs'.2

end Commit

end ArxDB.Proof
