import ArxDB.Impl.Go.Session
import ArxDB.Proof.Go.Log

/-!
# What the calls of the Go engine do

One specification for each writing call, over both outcomes. A call that
fails leaves the database as it was.
-/

namespace ArxDB.Proof.Go

open Impl (Bytes GoAny Hash Prims Files)
open Impl.Go Failing

variable {P : Prims} {kp : Keypair} {now : Int64} {s : Storage}

/-- A key pair of the reference libraries. -/
def exampleKeypair : Keypair := ⟨List.replicate 64 7, List.length_replicate⟩

/-! ## Objects -/

/-- The files after `Put`. -/
def inserted (P : Prims) (data : Bytes) (objects : Files) : Files :=
  if ObjectStore.has objects (P.hashBytes data) then objects
  else Impl.ObjectStore.replace objects (ObjectStore.shardPath (P.hashBytes data)) data

theorem objectStore_put_wp {objects : Files} {data : Bytes} :
    WP (ObjectStore.put P data) (fun h objects' => h = P.hashBytes data ∧ objects' = inserted P data objects)
      (fun _ objects' => objects' = objects) objects := by
  refine .bind (.read ?_)
  split
  · rename_i h
    exact .pure ⟨rfl, by rw [inserted, if_pos h]⟩
  · rename_i h
    refine .bind (.statement rfl (.bind (.update (.pure ⟨rfl, ?_⟩))))
    rw [inserted, if_neg h]

theorem put_wp {data : Bytes} :
    WP (Storage.onObjects (ObjectStore.put P data))
      (fun h s' => h = P.hashBytes data ∧ s' = { s with objects := inserted P data s.objects })
      (fun _ s' => s' = s) s := by
  refine .zoom (objectStore_put_wp.mono (fun h objects' hput => ?_) fun _ objects' hput => ?_)
  · exact ⟨hput.1, by rw [hput.2]⟩
  · rw [hput]

/-- The blobs of an edge, stored. -/
def storedBlobs (P : Prims) (edgeData proof : Slice) (objects : Files) : Files :=
  let objects' := inserted P edgeData.bytes objects
  proof.elim objects' (inserted P · objects')

/-! ## The database -/

theorem commit_wp {b : Batch} :
    WP (Storage.commit b) (fun _ s' => s' = { s with db := s.db.commit b }) (fun _ s' => s' = s) s :=
  .bind (.statement rfl (.update rfl))

/-- A batch is staged and committed. -/
theorem committed_wp {x : Prog GoError Pebble Batch} {sets : Batch}
    (h : WP x (fun b db => b = sets ∧ db = s.db) (fun _ db => db = s.db) s.db) :
    WP (Storage.onDb x >>= Storage.commit) (fun _ s' => s' = { s with db := s.db.commit sets })
      (fun _ s' => s' = s) s := by
  refine .bind (.zoom (h.mono (fun b db hb => ?_) fun _ db hdb => ?_))
  · obtain ⟨rfl, rfl⟩ := hb
    exact commit_wp
  · rw [hdb]

theorem registerNodeTx_wp {node : Hash} :
    WP (Storage.registerNodeTx node)
      (fun _ s' => s' = { s with db := s.db.commit [(GraphIndex.nodeKey node, [])] }) (fun _ s' => s' = s) s :=
  committed_wp set_wp

theorem registerEdgeTx_wp {edge : Hash} {premises : List Hash} {conclusion : Hash} :
    WP (Storage.registerEdgeTx edge premises conclusion)
      (fun _ s' => s' = { s with db := s.db.commit (edgeSets edge premises conclusion) }) (fun _ s' => s' = s) s :=
  committed_wp registerEdge_wp

/-! ## `Append` -/

theorem stageAppend_wp {entry : Slice} :
    WP (Storage.stageAppend P kp now entry) (fun r s' => Next P kp now s.db [] entry r.1 r.2 ∧ s' = s)
      (fun _ s' => s' = s) s := by
  unfold Storage.stageAppend
  refine .zoom (appendInBatch_next.mono (fun r db h => ⟨h.1, ?_⟩) fun _ db h => ?_)
  · rw [h.2]
  · rw [h]

theorem append_wp {entry : Slice} :
    WP (Storage.append P kp now entry)
      (fun le s' => ∃ b, Next P kp now s.db [] entry b le ∧ s' = { s with db := s.db.commit b })
      (fun _ s' => s' = s) s := by
  refine .bind (stageAppend_wp.mono (fun r s' h => ?_) fun _ _ h => h)
  obtain ⟨hnext, rfl⟩ := h
  refine .bind (commit_wp.mono (fun _ s' h => ?_) fun _ _ h => h)
  exact .pure ⟨_, hnext, h⟩

/-! ## `CommitEdgeTx` -/

section CommitEdgeTx

variable {premises : List Hash} {conclusion : Hash} {edgeData proof : Slice}

/-- `s'` has the database of `s`, and at most the blobs of the edge besides its objects. -/
def Unindexed (P : Prims) (edgeData proof : Slice) (s s' : Storage) : Prop :=
  s'.db = s.db ∧ (s'.objects = s.objects ∨ s'.objects = inserted P edgeData.bytes s.objects ∨
    s'.objects = storedBlobs P edgeData proof s.objects)

/-- The part of `CommitEdgeTx` after the blobs. -/
theorem stageEdge_wp {edge : Hash} :
    WP (Storage.onDb do
      let b ← GraphIndex.registerEdge [] edge premises conclusion
      let r ← AppendLog.appendInBatch P kp now b edgeData
      pure (r.1, edge, r.2))
      (fun r s' => r.2.1 = edge ∧ Next P kp now s.db (edgeSets edge premises conclusion) edgeData r.1 r.2.2 ∧ s' = s)
      (fun _ s' => s' = s) s := by
  refine .zoom (.bind (registerEdge_wp.mono (fun b db h => ?_) fun _ db h => ?_))
  · obtain ⟨rfl, rfl⟩ := h
    refine .bind (appendInBatch_next.mono (fun r db h => .pure ⟨rfl, h.1, ?_⟩) fun _ db h => ?_)
    · rw [h.2]
    · rw [h]
  · rw [h]

theorem stageEdgeTx_wp :
    WP (Storage.stageEdgeTx P kp now premises conclusion edgeData proof)
      (fun r s' => r.2.1 = P.hashBytes edgeData.bytes ∧
        Next P kp now s.db (edgeSets (P.hashBytes edgeData.bytes) premises conclusion) edgeData r.1 r.2.2 ∧
        s' = { s with objects := storedBlobs P edgeData proof s.objects })
      (fun _ s' => Unindexed P edgeData proof s s') s := by
  refine .bind (put_wp.mono (fun _ s₁ h₁ => ?_) fun _ s' h => ⟨by rw [h], .inl (by rw [h])⟩)
  obtain ⟨-, rfl⟩ := h₁
  have last : ∀ objects,
      (objects = inserted P edgeData.bytes s.objects ∨ objects = storedBlobs P edgeData proof s.objects) →
      ∀ (_ : GoError) s', s' = { s with objects } → Unindexed P edgeData proof s s' := by
    intro objects h _ s' hs'
    subst hs'
    exact ⟨rfl, .inr h⟩
  cases proof with
  | none => exact .bind (.pure (stageEdge_wp.mono (fun _ _ h => h) (last _ (.inl rfl))))
  | some proof =>
    refine .bind (put_wp.mono (fun _ s₂ h₂ => ?_) (last _ (.inl rfl)))
    obtain ⟨-, rfl⟩ := h₂
    exact stageEdge_wp.mono (fun _ _ h => h) (last _ (.inr rfl))

theorem commitEdgeTx_wp :
    WP (Storage.commitEdgeTx P kp now premises conclusion edgeData proof)
      (fun r s' => r.1 = P.hashBytes edgeData.bytes ∧
        ∃ b, Next P kp now s.db (edgeSets (P.hashBytes edgeData.bytes) premises conclusion) edgeData b r.2 ∧
          s' = ⟨storedBlobs P edgeData proof s.objects, s.db.commit b⟩)
      (fun _ s' => Unindexed P edgeData proof s s') s := by
  refine .bind (stageEdgeTx_wp.mono (fun r s' h => ?_) fun _ _ h => h)
  obtain ⟨hhash, hnext, rfl⟩ := h
  refine .bind (commit_wp.mono (fun _ s' h => ?_) fun _ s' h => ?_)
  · exact .pure ⟨hhash, _, hnext, h⟩
  · rw [h]
    exact ⟨rfl, .inr (.inr rfl)⟩

end CommitEdgeTx

/-! ## Any call -/

/-- What a call does that returns. -/
def Call.Done (P : Prims) (kp : Keypair) (now : Int64) (s : Storage) : Call → Reply → Storage → Prop
  | .put data, reply, s' =>
    reply = .put (P.hashBytes data) ∧ s' = { s with objects := inserted P data s.objects }
  | .registerNode node, reply, s' =>
    reply = .registered ∧ s' = { s with db := s.db.commit [(GraphIndex.nodeKey node, [])] }
  | .registerEdge edge premises conclusion, reply, s' =>
    reply = .registered ∧ s' = { s with db := s.db.commit (edgeSets edge premises conclusion) }
  | .append entry, reply, s' => ∃ le b, reply = .append le ∧ Next P kp now s.db [] entry b le ∧
    s' = { s with db := s.db.commit b }
  | .commitEdge premises conclusion edgeData proof, reply, s' => ∃ le b,
    reply = .commitEdge (P.hashBytes edgeData.1.bytes) le ∧
      Next P kp now s.db (edgeSets (P.hashBytes edgeData.1.bytes) premises conclusion) edgeData b le ∧
      s' = ⟨storedBlobs P edgeData proof s.objects, s.db.commit b⟩

/-- What a call leaves that fails. -/
def Call.Failed (P : Prims) (s : Storage) : Call → Storage → Prop
  | .commitEdge _ _ edgeData proof, s' => Unindexed P edgeData proof s s'
  | _, s' => s' = s

theorem call_wp (call : Call) :
    WP (call.prog P kp now) (fun reply s' => Call.Done P kp now s call reply s')
      (fun _ s' => Call.Failed P s call s') s := by
  cases call with
  | put data => exact .bind (put_wp.mono (fun h s' hs => .pure ⟨by rw [hs.1], hs.2⟩) fun _ _ h => h)
  | registerNode node => exact .bind (registerNodeTx_wp.mono (fun _ s' hs => .pure ⟨rfl, hs⟩) fun _ _ h => h)
  | registerEdge edge premises conclusion =>
    exact .bind (registerEdgeTx_wp.mono (fun _ s' hs => .pure ⟨rfl, hs⟩) fun _ _ h => h)
  | append entry =>
    refine .bind (append_wp.mono (fun le s' hs => ?_) fun _ _ h => h)
    obtain ⟨b, hnext, hs⟩ := hs
    exact .pure ⟨le, b, rfl, hnext, hs⟩
  | commitEdge premises conclusion edgeData proof =>
    refine .bind (commitEdgeTx_wp.mono (fun r s' hs => ?_) fun _ _ h => h)
    obtain ⟨hhash, b, hnext, hs⟩ := hs
    exact .pure ⟨r.2, b, by rw [hhash], hnext, hs⟩

theorem Call.Failed.db {call : Call} {s' : Storage} (h : Call.Failed P s call s') : s'.db = s.db := by
  cases call with
  | commitEdge => exact h.1
  | put => exact congrArg Storage.db h
  | registerNode => exact congrArg Storage.db h
  | registerEdge => exact congrArg Storage.db h
  | append => exact congrArg Storage.db h

theorem run_concat {ops : List Op} {op : Op} : Session.run P (ops ++ [op]) = (Session.run P ops).step P op :=
  List.foldl_concat ..

/-- A step of a session: the call is done and recorded, or has failed. -/
theorem step_cases (s : Session) (op : Op) :
    (∃ reply, Call.Done P op.kp op.now s.storage op.call reply (s.step P op).storage ∧
      (s.step P op).returned = s.returned ++ [(op.call, reply)]) ∨
    (Call.Failed P s.storage op.call (s.step P op).storage ∧ (s.step P op).returned = s.returned) := by
  have hwp : WP (op.call.prog P op.kp op.now) _ _ s.storage := call_wp op.call
  rcases hx : (op.call.prog P op.kp op.now).exec op.fault s.storage with ⟨e | reply, s'⟩
  · exact .inr ⟨by simpa only [Session.step, hx] using hwp.error hx, by simp only [Session.step, hx]⟩
  · exact .inl ⟨reply, by simpa only [Session.step, hx] using hwp.ok hx, by simp only [Session.step, hx]⟩

end ArxDB.Proof.Go
