import ArxDB.Impl.Go.Layer
import ArxDB.Proof.DropIn
import ArxDB.Proof.Earned

/-!
# Clients of one daemon

Any number of `verify_and_commit`s before one daemon, interleaved between any
two of its actions, whichever of their statements fail and whoever dies. Blobs
stay where they are and indexed edges stay indexed (`layerRely`), so a client
that gets to its commit finds everything there that its edge refers to
(`verifyAndCommit_keeps`). Of the log nothing is kept: two commits that read the
same length write the same entry.
-/

namespace ArxDB.Proof.Go

open Impl (Bytes Hash Prims Files Edge Node CommitCall CommitResult Kappa)
open Impl.Go BigEndian Failing Threads

variable {P : Prims} {kp : Keypair} {now : Int64} {ι : Type} {clients : ι → Client}

/-! ## What clients commit -/

/-- The call that a client makes, under the daemon's key pair. -/
def clientCall (kp : Keypair) (c : Client) : CommitCall :=
  ⟨c.checkers, ⟨kp.priv, kp.pub⟩, c.now.toInt, none, c.proposal⟩

/-- The blobs that the clients can put. -/
def clientBlobs (P : Prims) (kp : Keypair) (clients : ι → Client) : Set Bytes :=
  {m | ∃ i, m ∈ Proof.blobs P (clientCall kp (clients i))}

/-- The edge, as it is registered. -/
def edgeRecord (P : Prims) (q : Edge × Bytes) : EdgeRecord := ⟨P.hashBytes q.2, q.1.premises, q.1.conclusion⟩

/-- The edge is that of a client, all of whose blobs can be read. -/
def Backed (P : Prims) (kp : Keypair) (clients : ι → Client) (objects : Files) (q : Edge × Bytes) : Prop :=
  ∃ i, Proof.edge? P (clientCall kp (clients i)) = some q.1 ∧ q.1.edgeBytes P = .ok q.2 ∧
    ∀ b ∈ Proof.blobs P (clientCall kp (clients i)), ObjectStore.get objects (P.hashBytes b) = some b

/-- The graph keys are those of the edges `cs`, whatever the log keys are. -/
def GraphHolds (P : Prims) (cs : List (Edge × Bytes)) (db : Pebble) : Prop :=
  ∃ (a : Abstract) (db' : Pebble), Represents P a db' ∧ StoreOf (cs.map (edgeRecord P)) a ∧
    ∀ k, Tagged graphTags k → db[k]? = db'[k]?

/-- What the interleavings keep: the edges `cs`, with their bytes, are on record. -/
structure Layered (P : Prims) (kp : Keypair) (clients : ι → Client) (s : Storage) (cs : List (Edge × Bytes)) :
    Prop where
  addressed : Addressed P (clientBlobs P kp clients) s.objects
  backed : ∀ q ∈ cs, Backed P kp clients s.objects q
  graph : GraphHolds P cs s.db

theorem Backed.mem {objects : Files} {q : Edge × Bytes} (h : Backed P kp clients objects q) :
    q.2 ∈ clientBlobs P kp clients := by
  obtain ⟨i, he, hd, -⟩ := h
  refine ⟨i, ?_⟩
  rw [Proof.blobs_eq he hd]
  simp

theorem Backed.mono {objects objects' : Files} {q : Edge × Bytes} (h : Backed P kp clients objects q)
    (hr : ∀ k b, ObjectStore.get objects k = some b → ObjectStore.get objects' k = some b) :
    Backed P kp clients objects' q := by
  obtain ⟨i, he, hd, hb⟩ := h
  exact ⟨i, he, hd, fun b hmem => hr _ _ (hb b hmem)⟩

theorem functional_of_backed (hc : P.CborLaws) (hM : Set.InjOn P.hashBytes (clientBlobs P kp clients)) {objects : Files}
    {cs : List (Edge × Bytes)} (h : ∀ q ∈ cs, Backed P kp clients objects q) : Functional (cs.map (edgeRecord P)) := by
  intro r hr r' hr' he
  obtain ⟨p, hp, rfl⟩ := List.mem_map.mp hr
  obtain ⟨q, hq, rfl⟩ := List.mem_map.mp hr'
  have hdata : p.2 = q.2 := hM (h p hp).mem (h q hq).mem he
  obtain ⟨-, -, hpd, -⟩ := h p hp
  obtain ⟨-, -, hqd, -⟩ := h q hq
  obtain ⟨d, same, same'⟩ := edgeSame_of_bytes hc hpd (hdata ▸ hqd)
  simp only [edgeRecord, hdata, ← same.premises, ← same.conclusion, same'.premises, same'.conclusion]

/-! ## The graph -/

namespace GraphHolds

variable {cs : List (Edge × Bytes)} {db : Pebble} {k : Hash}

theorem empty : GraphHolds P [] ∅ := ⟨_, ∅, .empty, .empty, fun _ _ => rfl⟩

/-- An edge is committed, whatever is logged with it. -/
theorem commit (h : GraphHolds P cs db) {q : Edge × Bytes} (hf : Functional ((cs ++ [q]).map (edgeRecord P)))
    (hlen : q.1.premises.length < 2 ^ 63) {sets : Batch} (hsets : ∀ kv ∈ sets, Tagged logTags kv.1) :
    GraphHolds P (cs ++ [q]) (db.commit (edgeSets (P.hashBytes q.2) q.1.premises q.1.conclusion ++ sets)) := by
  obtain ⟨a, db', hrep, hstore, hsame⟩ := h
  rw [List.map_append] at hf
  have hedge : ∀ x, a.edges (P.hashBytes q.2) = some x → x = (q.1.premises, q.1.conclusion) := by
    intro x hx
    obtain ⟨r, hr, hre, rfl⟩ := (hstore.edges _ x).mp hx
    have hrec : r = edgeRecord P q :=
      hf r (List.mem_append_left _ hr) _ (List.mem_append_right _ (List.mem_singleton_self _)) hre
    rw [hrec, edgeRecord]
  refine ⟨_, _, hrep.addEdge hlen hedge, ?_, fun k hk => ?_⟩
  · rw [List.map_append]
    exact hstore.addEdge hf
  · rw [commit_append, getElem?_commit_of_ne fun kv hkv => (hk.ne (hsets kv hkv)).symm]
    exact getElem?_commit_congr (hsame k hk)

theorem mem_allEdges (h : GraphHolds P cs db) : k ∈ GraphIndex.allEdges db ↔ ∃ q ∈ cs, P.hashBytes q.2 = k := by
  obtain ⟨a, db', hrep, hstore, hsame⟩ := h
  have hview : GraphIndex.allEdges db = GraphIndex.allEdges db' :=
    congrArg Spec.GraphView.allEdges (graphView_congr hsame)
  have hmem : k ∈ a.allEdges ↔ ∃ x, a.edges k = some x := Option.isSome_iff_exists
  rw [hview, hrep.allEdges.mem, hmem]
  simp only [hstore.edges]
  constructor
  · intro hx
    obtain ⟨x, r, hr, hre, -⟩ := hx
    obtain ⟨q, hq, rfl⟩ := List.mem_map.mp hr
    exact ⟨q, hq, hre⟩
  · intro hq
    obtain ⟨q, hq, hk⟩ := hq
    exact ⟨_, edgeRecord P q, List.mem_map_of_mem hq, hk, rfl⟩

theorem mem_allNodes (h : GraphHolds P cs db) :
    k ∈ GraphIndex.allNodes db ↔ ∃ q ∈ cs, k ∈ q.1.conclusion :: q.1.premises := by
  obtain ⟨a, db', hrep, hstore, hsame⟩ := h
  have hview : GraphIndex.allNodes db = GraphIndex.allNodes db' :=
    congrArg Spec.GraphView.allNodes (graphView_congr hsame)
  rw [hview, hrep.allNodes.mem, hstore.nodes]
  simp [edgeRecord]

theorem getConnectivity (h : GraphHolds P cs db) {q : Edge × Bytes} (hq : q ∈ cs) :
    GraphIndex.getConnectivity db (P.hashBytes q.2) = some (q.1.premises, q.1.conclusion) := by
  obtain ⟨a, db', hrep, hstore, hsame⟩ := h
  have hview : GraphIndex.getConnectivity db = GraphIndex.getConnectivity db' :=
    congrArg Spec.GraphView.connectivity (graphView_congr hsame)
  rw [hview, hrep.getConnectivity, hstore.edges]
  exact ⟨edgeRecord P q, List.mem_map_of_mem hq, rfl, rfl⟩

end GraphHolds

/-! ## The rely -/

/-- What can be read under a hash stays. -/
def filesRely (P : Prims) (M : Set Bytes) : Rely Files where
  inv objects := Addressed P M objects
  rel objects objects' := ∀ h b, ObjectStore.get objects h = some b → ObjectStore.get objects' h = some b
  refl _ := fun _ _ h => h
  trans h h' := fun k b hb => h' k b (h k b hb)

/-- An edge that is indexed stays so, too. -/
def layerRely (P : Prims) (kp : Keypair) (clients : ι → Client) : Rely Storage where
  inv s := ∃ cs, Layered P kp clients s cs
  rel s s' := (filesRely P (clientBlobs P kp clients)).rel s.objects s'.objects ∧
    ∀ h ∈ GraphIndex.allEdges s.db, h ∈ GraphIndex.allEdges s'.db
  refl _ := ⟨fun _ _ h => h, fun _ h => h⟩
  trans h h' := ⟨fun k b hb => h'.1 k b (h.1 k b hb), fun k hk => h'.2 k (h.2 k hk)⟩

/-- The blob can be read under its hash. -/
def Readable (P : Prims) (data : Bytes) (s : Storage) : Prop := ObjectStore.get s.objects (P.hashBytes data) = some data

section Objects

variable {M : Set Bytes} {data : Bytes} {objects : Files} {fault : Option Nat}

theorem get_replace {h k : Hash} : ObjectStore.get (Impl.ObjectStore.replace objects (ObjectStore.shardPath h) data) k =
    if k = h then some data else ObjectStore.get objects k := by
  simp only [ObjectStore.get, Impl.ObjectStore.replace]
  exact if_congr ⟨fun e => shardPath_inj e, fun e => e ▸ rfl⟩ rfl rfl

/-- What is there under a blob's hash is the blob, also where another client has put it since the stat. -/
theorem Addressed.get_eq (h : Addressed P M objects) (hM : Set.InjOn P.hashBytes M) (hb : data ∈ M) {b : Bytes}
    (hg : ObjectStore.get objects (P.hashBytes data) = some b) : b = data :=
  hM (h.hash_eq hg).1 hb (h.hash_eq hg).2

theorem Addressed.replace (h : Addressed P M objects) (hb : data ∈ M) :
    Addressed P M (Impl.ObjectStore.replace objects (ObjectStore.shardPath (P.hashBytes data)) data) := by
  intro dest blob hblob
  rw [Impl.ObjectStore.replace] at hblob
  split at hblob
  · rename_i hdest
    obtain rfl := Option.some.inj hblob
    exact ⟨hb, hdest⟩
  · exact h dest blob hblob

theorem objectStore_putThread_keeps (hM : Set.InjOn P.hashBytes M) (hb : data ∈ M) :
    KeepsTo (filesRely P M) (OnOk fun _ objects => ObjectStore.get objects (P.hashBytes data) = some data)
      (ObjectStore.putThread P data fault) objects := by
  intro objects' _ hi
  refine ⟨hi, (filesRely P M).refl _, fun _ _ => trivial, ?_⟩
  dsimp only [id]
  split
  · rename_i hhas
    obtain ⟨b, hg⟩ := Option.isSome_iff_exists.mp hhas
    have hdata := Addressed.get_eq hi hM hb hg
    exact KeepsTo.ok fun o hr _ => hr _ _ (hdata ▸ hg)
  · refine KeepsTo.ofProg fun o _ ho => ?_
    have hget : ∀ k, ObjectStore.get (Impl.ObjectStore.replace o (ObjectStore.shardPath (P.hashBytes data)) data) k =
        if k = P.hashBytes data then some data else ObjectStore.get o k := fun k => get_replace
    refine .bind (.statement ⟨ho, (filesRely P M).refl _⟩ (.bind (.update (.pure ⟨?_, ?_, ?_⟩))))
    · exact Addressed.replace ho hb
    · intro k b hk
      rw [hget]
      split
      · rename_i he
        subst he
        rw [Addressed.get_eq ho hM hb hk]
      · exact hk
    · intro o' hr _
      refine hr _ _ ?_
      rw [hget, if_pos rfl]

end Objects

section Layer

variable {s : Storage} {cs : List (Edge × Bytes)}

namespace Layered

theorem start : Layered P kp clients Daemon.start [] where
  addressed := .empty
  backed _ hq := absurd hq List.not_mem_nil
  graph := .empty

theorem objects (h : Layered P kp clients s cs) {objects : Files} (ha : Addressed P (clientBlobs P kp clients) objects)
    (hr : (filesRely P (clientBlobs P kp clients)).rel s.objects objects) :
    Layered P kp clients { s with objects } cs where
  addressed := ha
  backed q hq := (h.backed q hq).mono hr
  graph := h.graph

theorem commit (hc : P.CborLaws) (hM : Set.InjOn P.hashBytes (clientBlobs P kp clients))
    (h : Layered P kp clients s cs) {q : Edge × Bytes} (hq : Backed P kp clients s.objects q)
    (hlen : q.1.premises.length < 2 ^ 63) {sets : Batch} (hsets : ∀ kv ∈ sets, Tagged logTags kv.1) :
    Layered P kp clients
      { s with db := s.db.commit (edgeSets (P.hashBytes q.2) q.1.premises q.1.conclusion ++ sets) } (cs ++ [q]) := by
  have hbacked : ∀ p ∈ cs ++ [q], Backed P kp clients s.objects p := forall_mem_concat h.backed hq
  exact ⟨h.addressed, hbacked, h.graph.commit (functional_of_backed hc hM hbacked) hlen hsets⟩

/-- The edge is indexed then, and what was. -/
theorem mem_allEdges_commit (hc : P.CborLaws) (hM : Set.InjOn P.hashBytes (clientBlobs P kp clients))
    (h : Layered P kp clients s cs) {q : Edge × Bytes} (hq : Backed P kp clients s.objects q)
    (hlen : q.1.premises.length < 2 ^ 63) {sets : Batch} (hsets : ∀ kv ∈ sets, Tagged logTags kv.1) {k : Hash}
    (hk : k = P.hashBytes q.2 ∨ k ∈ GraphIndex.allEdges s.db) :
    k ∈ GraphIndex.allEdges (s.db.commit (edgeSets (P.hashBytes q.2) q.1.premises q.1.conclusion ++ sets)) := by
  rw [(h.commit hc hM hq hlen hsets).graph.mem_allEdges]
  rcases hk with rfl | hk
  · exact ⟨q, by simp, rfl⟩
  · obtain ⟨q', hq', hk⟩ := h.graph.mem_allEdges.mp hk
    exact ⟨q', List.mem_append_left _ hq', hk⟩

end Layered

variable {data : Bytes} {fault : Option Nat}

theorem putThread_keeps (hM : Set.InjOn P.hashBytes (clientBlobs P kp clients)) (hb : data ∈ clientBlobs P kp clients) :
    KeepsTo (layerRely P kp clients) (OnOk fun _ s => Readable P data s) (Storage.putThread P data fault) s := by
  refine KeepsTo.zoom (R := layerRely P kp clients)
    (Q := OnOk fun _ objects => ObjectStore.get objects (P.hashBytes data) = some data) (fun _ _ => rfl)
    (fun s hi => ?_) (fun s s' hr => hr.1) (fun s objects hi ha hr => ?_)
    (objectStore_putThread_keeps hM hb)
  · obtain ⟨cs, hcs⟩ := hi
    exact hcs.addressed
  · obtain ⟨cs, hcs⟩ := hi
    exact ⟨⟨cs, hcs.objects ha hr⟩, hr, fun _ h => h⟩

end Layer

/-! ## `CommitEdge` -/

/-- The batch of the edge, and the length of the log. -/
theorem stage_keeps {R : Rely Storage} {s : Storage} {edge conclusion : Hash} {premises : List Hash}
    {fault : Option Nat} :
    KeepsTo R (OnOk fun r _ => r.1 = edgeSets edge premises conclusion) (Thread.ofProg (Storage.onDb do
      let b ← GraphIndex.registerEdge [] edge premises conclusion
      let seq ← AppendLog.lenInBatch b
      pure (b, seq)) fault) s := by
  refine KeepsTo.ofReads fun s => .zoom (.bind (registerEdge_wp.mono (fun b db h => ?_) fun _ db h => ?_))
  · obtain ⟨rfl, rfl⟩ := h
    refine .bind (lenInBatch_wp.mono (fun seq db h => .pure ?_) fun _ db h => ?_)
    · obtain ⟨-, rfl⟩ := h
      exact ⟨rfl, rfl⟩
    · rw [h]
  · rw [h]

/-- With the batch of an entry after it. -/
theorem append_keeps {R : Rely Storage} {s : Storage} {b : Batch} {entry : Slice} {seq : Int64} {fault : Option Nat} :
    KeepsTo R (OnOk fun r _ => ∃ sets, r.1 = b ++ sets ∧ ∀ kv ∈ sets, Tagged logTags kv.1)
      (Thread.ofProg (Storage.onDb (AppendLog.appendAt P kp now b entry seq)) fault) s := by
  refine KeepsTo.ofReads fun s => .zoom (appendAt_wp.mono (fun r db h => ?_) fun _ db h => ?_)
  · obtain ⟨⟨enc, hsets⟩, -, rfl⟩ := h
    exact ⟨⟨entrySets r.2 enc, hsets, fun _ h => entrySets_keys h⟩, rfl⟩
  · rw [h]

theorem putProof_keeps {s : Storage} (hM : Set.InjOn P.hashBytes (clientBlobs P kp clients)) {proof : Slice}
    (hb : ∀ b ∈ proof.toList, b ∈ clientBlobs P kp clients) (hi : (layerRely P kp clients).inv s) {fault : Option Nat} :
    KeepsTo (layerRely P kp clients) (OnOk fun _ s => ∀ b ∈ proof.toList, Readable P b s)
      (match proof with
        | some proof => (Storage.putThread P proof fault).andThen fun _ => .done (.ok ())
        | none => .done (.ok ())) s := by
  cases proof with
  | none => exact KeepsTo.ok fun _ _ _ => List.forall_mem_nil _
  | some proof =>
    refine KeepsTo.andThen (putThread_keeps hM (hb proof (List.mem_singleton_self _))) hi fun _ s₁ _ _ hproof =>
      KeepsTo.ok fun s' hr hi' => ?_
    exact List.forall_mem_singleton.mpr (hproof s' hr hi')

section Commit

variable (hc : P.CborLaws) (hM : Set.InjOn P.hashBytes (clientBlobs P kp clients))
include hc hM

variable {s : Storage} {i : ι} {e : Edge} {edgeData : Slice} (he : Proof.edge? P (clientCall kp (clients i)) = some e)
  (hd : e.edgeBytes P = .ok edgeData.bytes)
include he hd

/-- A commit whose nodes can be read: the edge is indexed when it returns, and from then on. -/
theorem commitEdgeTxThread_keeps (hlen : e.premises.length < 2 ^ 63) (hi : (layerRely P kp clients).inv s)
    (hnodes : ∀ b ∈ nodeBlobs P ((clients i).proposal.premises ++ [(clients i).proposal.conclusion]), Readable P b s)
    (now : Int64) (faults : Nat → Option Nat) :
    KeepsTo (layerRely P kp clients)
      (OnOk fun r s => r.1 = P.hashBytes edgeData.bytes ∧ P.hashBytes edgeData.bytes ∈ GraphIndex.allEdges s.db)
      (Storage.commitEdgeTxThread P kp now e.premises e.conclusion edgeData (clients i).proposal.proofBytes faults)
      s := by
  let R := layerRely P kp clients
  have hblobs : Proof.blobs P (clientCall kp (clients i)) = _ := Proof.blobs_eq he hd
  have hmem : ∀ b ∈ edgeData.bytes :: (clients i).proposal.proofBytes.toList, b ∈ clientBlobs P kp clients := by
    intro b hb
    exact ⟨i, hblobs ▸ List.mem_append_right _ hb⟩
  refine KeepsTo.andThen (putThread_keeps hM (hmem _ List.mem_cons_self)) hi fun _ s₁ hr₁ hi₁ hput => ?_
  refine KeepsTo.andThen (putProof_keeps hM (fun b hb => hmem b (List.mem_cons_of_mem _ hb)) hi₁) hi₁
    fun _ s₂ hr₂ hi₂ hproof => ?_
  refine KeepsTo.andThen stage_keeps hi₂ fun r s₃ hr₃ hi₃ hbatch => ?_
  have hstaged := hbatch s₃ (R.refl _) hi₃
  refine KeepsTo.andThen append_keeps hi₃ fun r' s₄ hr₄ hi₄ hbatch' => ?_
  obtain ⟨sets, happended, hsets⟩ := hbatch' s₄ (R.refl _) hi₄
  rw [hstaged] at happended
  have hcommit : KeepsTo R (OnOk fun _ s => P.hashBytes edgeData.bytes ∈ GraphIndex.allEdges s.db)
      (Thread.ofProg (Storage.commit r'.1) (faults 4)) s₄ := by
    refine KeepsTo.ofProg fun s' hr' hi' => commit_wp.mono (fun _ s'' h => ?_) fun _ s'' h => ?_
    · rw [h, happended]
      obtain ⟨cs, hcs⟩ := hi'
      -- all blobs of the call can be read by now
      have hsince : R.rel s₂ s' := R.trans hr₃ (R.trans hr₄ hr')
      have hbacked : Backed P kp clients s'.objects (e, edgeData.bytes) := by
        refine ⟨i, he, hd, fun b hb => ?_⟩
        rw [hblobs, List.mem_append, List.mem_cons] at hb
        rcases hb with hb | rfl | hb
        · exact (R.trans hr₂ hsince).1 _ _ (hr₁.1 _ _ (hnodes b hb))
        · exact hput s' (R.trans hr₂ hsince) ⟨cs, hcs⟩
        · exact hproof s' hsince ⟨cs, hcs⟩ b hb
      have hindexed := fun k => hcs.mem_allEdges_commit hc hM hbacked hlen hsets (k := k)
      refine ⟨⟨_, hcs.commit hc hM hbacked hlen hsets⟩, ⟨fun _ _ h => h, fun k hk => hindexed k (.inr hk)⟩, ?_⟩
      exact fun s₅ hr₅ _ => hr₅.2 _ (hindexed _ (.inl rfl))
    · rw [h]
      exact ⟨hi', R.refl _⟩
  exact KeepsTo.andThen hcommit hi₄ fun _ s₅ _ _ hindexed => KeepsTo.ok fun s' hr' hi' => ⟨rfl, hindexed s' hr' hi'⟩

/-- The same through the client. -/
theorem client_commitEdgeTxThread_keeps {data : Bytes} (hd' : edgeData = .ofField data)
    (hlen : e.premises.length < 2 ^ 63) (hi : (layerRely P kp clients).inv s)
    (hnodes : ∀ b ∈ nodeBlobs P ((clients i).proposal.premises ++ [(clients i).proposal.conclusion]), Readable P b s)
    (now : Int64) (faults : Nat → Option Nat) :
    KeepsTo (layerRely P kp clients)
      (OnOk fun r s => r.1 = P.hashBytes edgeData.bytes ∧ P.hashBytes edgeData.bytes ∈ GraphIndex.allEdges s.db)
      (GrpcStorage.commitEdgeTxThread P kp now e.premises e.conclusion data (clients i).proposal.proofBytes faults)
      s := by
  have hargs : (do pure (← Service.toHash e.conclusion.raw, ← (e.premises.map Hash.raw).mapM Service.toHash) :
      Except Status (Hash × List Hash)) = .ok (e.conclusion, e.premises) := by
    rw [toHash_raw, mapM_toHash_raw]
    rfl
  rw [GrpcStorage.commitEdgeTxThread, Service.commitEdgeThread, hargs, ← hd']
  have hrpc := commitEdgeTxThread_keeps hc hM he hd hlen hi hnodes now faults
  refine KeepsTo.andThen (KeepsTo.mapError (KeepsTo.mapError hrpc hi) hi) hi fun response s' _ _ hq => ?_
  have hresponse : (do pure (← GrpcStorage.hash response.1.raw, ← GrpcStorage.logEntryFromProto response.2) :
      Except ClientError (Hash × Impl.LogEntry)) = .ok (response.1, clientEntry response.2) := by
    rw [GrpcStorage.hash, Hash.new_raw, logEntryFromProto_eq]
    rfl
  rw [hresponse]
  exact KeepsTo.ok hq

end Commit

/-! ## `verify_and_commit` -/

section Client

variable {s : Storage}

theorem client_putThread_keeps (hM : Set.InjOn P.hashBytes (clientBlobs P kp clients)) {data : Bytes}
    (hb : data ∈ clientBlobs P kp clients) (hi : (layerRely P kp clients).inv s) (fault : Option Nat) :
    KeepsTo (layerRely P kp clients) (OnOk fun _ s => Readable P data s) (GrpcStorage.putThread P data fault) s := by
  refine KeepsTo.andThen (KeepsTo.mapError (KeepsTo.mapError (putThread_keeps hM hb) hi) hi) hi fun h s' _ _ hq => ?_
  rw [GrpcStorage.hash, Hash.new_raw]
  exact KeepsTo.ok hq

theorem putNodes_keeps (hM : Set.InjOn P.hashBytes (clientBlobs P kp clients)) {ns : List Node}
    (hb : ∀ b ∈ nodeBlobs P ns, b ∈ clientBlobs P kp clients) (hi : (layerRely P kp clients).inv s)
    (faults : Nat → Nat → Option Nat) (k : Nat) :
    KeepsTo (layerRely P kp clients) (OnOk fun _ s => ∀ b ∈ nodeBlobs P ns, Readable P b s)
      (GrpcStorage.putNodes P faults k ns) s := by
  induction ns generalizing s k with
  | nil => exact KeepsTo.ok fun _ _ _ => List.forall_mem_nil _
  | cons n ns ih =>
    rw [GrpcStorage.putNodes]
    cases hn : n.nodeBytes P with
    | error e => exact KeepsTo.error
    | ok data =>
      have hblobs : nodeBlobs P (n :: ns) = data :: nodeBlobs P ns := by simp [nodeBlobs, hn, Except.toOption]
      rw [hblobs, List.forall_mem_cons] at hb
      rw [hblobs]
      refine KeepsTo.andThen (client_putThread_keeps hM hb.1 hi _) hi fun _ s₁ hr₁ hi₁ hput => ?_
      refine (ih hb.2 hi₁ (k + 1)).mono fun r s' hr hi' hrest a ha => ?_
      exact List.forall_mem_cons.mpr ⟨hput s' hr hi', hrest a ha⟩

/-- What a client that returns has done. -/
def Answered (P : Prims) (kp : Keypair) (c : Client) (r : CommitResult) (s : Storage) : Prop :=
  r.rejected = false → ∃ e data, Proof.edge? P (clientCall kp c) = some e ∧ e.edgeBytes P = .ok data ∧
    r.edgeHash = some (P.hashBytes data) ∧ P.hashBytes data ∈ GraphIndex.allEdges s.db

theorem verifyAndCommit_keeps (hc : P.CborLaws) (hM : Set.InjOn P.hashBytes (clientBlobs P kp clients)) (i : ι)
    (hlen : (clients i).proposal.premises.length < 2 ^ 63) (hi : (layerRely P kp clients).inv s) :
    KeepsTo (layerRely P kp clients) (OnOk (Answered P kp (clients i)))
      (GrpcStorage.verifyAndCommit P kp (clients i)) s := by
  rw [GrpcStorage.verifyAndCommit]
  cases hv : Impl.Verifier.verify (clients i).checkers (clients i).proposal.premises (clients i).proposal.conclusion
      (clients i).proposal.rule (clients i).proposal.edgeType (clients i).proposal.proofBytes
      (clients i).proposal.timeoutSeconds with
  | error e => exact KeepsTo.error
  | ok result =>
    dsimp only
    split
    · rename_i hrej
      refine KeepsTo.ok fun _ _ _ hr => ?_
      rw [CommitResult.rejected, hrej] at hr
      cases hr
    · rename_i hrej
      cases hhashes : (do pure (← (clients i).proposal.premises.mapM (Node.nodeId P),
          ← (clients i).proposal.conclusion.nodeId P) : Except Impl.PyError (List Hash × Hash)) with
      | error e => exact KeepsTo.error
      | ok hashes =>
        obtain ⟨premiseHashes, conclusionHash⟩ := hashes
        obtain ⟨ps, hps, hconclusion⟩ := bind_eq_ok.mp hhashes
        obtain ⟨k, hk, hpair⟩ := bind_eq_ok.mp hconclusion
        cases hpair
        have he : Proof.edge? P (clientCall kp (clients i)) =
            some ((clients i).proposal.edge P premiseHashes conclusionHash result) :=
          Proof.edge?_eq_some.mpr ⟨result, hv, by simpa using hrej, premiseHashes, hps, conclusionHash, hk, rfl⟩
        have hnodes : ∀ b ∈ nodeBlobs P ((clients i).proposal.premises ++ [(clients i).proposal.conclusion]),
            b ∈ clientBlobs P kp clients := by
          intro b hb
          refine ⟨i, ?_⟩
          rw [Proof.blobs, he]
          exact List.mem_append_left _ hb
        refine KeepsTo.andThen (putNodes_keeps hM hnodes hi _ 0) hi fun _ s₁ _ hi₁ hput => ?_
        cases hd : ((clients i).proposal.edge P premiseHashes conclusionHash result).edgeBytes P with
        | error e => exact KeepsTo.error
        | ok edgeData =>
          have hlength : premiseHashes.length < 2 ^ 63 := by
            rw [← (mapM_eq_ok_iff.mp hps).length_eq]
            exact hlen
          have hcommit := client_commitEdgeTxThread_keeps hc hM he (by rwa [ofField_bytes]) rfl hlength hi₁
            (fun b hb => hput s₁ ((layerRely P kp clients).refl _) hi₁ b hb) (clients i).now
            ((clients i).faults ((clients i).proposal.premises.length + 1))
          refine KeepsTo.andThen hcommit hi₁ fun committed s₂ _ _ hq => KeepsTo.ok fun s' hr hi' _ => ?_
          obtain ⟨hhash, hindexed⟩ := hq s' hr hi'
          rw [ofField_bytes] at hhash hindexed
          exact ⟨_, edgeData, he, hd, congrArg some hhash, hindexed⟩

theorem start_keeps (hc : P.CborLaws) (hM : Set.InjOn P.hashBytes (clientBlobs P kp clients))
    (hlen : ∀ i, (clients i).proposal.premises.length < 2 ^ 63) :
    PoolKeeps (layerRely P kp clients) (fun _ _ _ => True) (fun i => OnOk (Answered P kp (clients i)))
      (GrpcStorage.start P kp clients) where
  inv := ⟨[], .start⟩
  threads i := verifyAndCommit_keeps hc hM i (hlen i) ⟨[], .start⟩

end Client

end ArxDB.Proof.Go
