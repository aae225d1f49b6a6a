import ArxDB.Impl.Go.Crash
import ArxDB.Proof.Go.Atomic
import ArxDB.Reference.Prims

/-!
# Crashes of the Go engine

The order of a commit is right: an indexed edge has its file (`Kept`), whichever
statement a call stops at. But the file may not have reached the disk when the
batch has, and what a crash has cut short stays so, since `Put` takes a path
that exists for a blob that is stored. So the index and the files agree after
every run exactly if no crash loses a part of a file (`crash_consistent_iff`).
-/

namespace ArxDB.Proof.Go

open Impl (Bytes Hash Prims Files Path)
open Impl.Go Failing

variable {P : Prims} {s s' : Storage}

/-- Every indexed edge has its blob, and what is read under a hash has that hash. -/
structure CrashConsistent (P : Prims) (s : Storage) : Prop where
  indexed : ∀ e ∈ GraphIndex.allEdges s.db, ∃ b, ObjectStore.get s.objects e = some b ∧ P.hashBytes b = e
  addressed : ∀ h b, ObjectStore.get s.objects h = some b → P.hashBytes b = h

/-- A crash that keeps so much leaves contents of the same hash in every blob that can be read. -/
def Intact (P : Prims) (keep : Path → Nat) (objects : Files) : Prop :=
  ∀ h b, ObjectStore.get objects h = some b →
    P.hashBytes (b.take (keep (ObjectStore.shardPath h))) = P.hashBytes b

/-- What calls keep: files lie under their hashes, and an edge key has a file. -/
structure Kept (P : Prims) (s : Storage) : Prop where
  addressed : Addressed P Set.univ s.objects
  indexed : ∀ k v, s.db[k]? = some v → ['e'.toUInt8] <+: k → ∃ b, k = GraphIndex.edgeKey (P.hashBytes b) ∧
    ObjectStore.get s.objects (P.hashBytes b) = some b

/-- What is there stays as it is. -/
theorem get_of_gains {objects objects' : Files} {blobs : List Bytes} {h : Hash} {b : Bytes}
    (hg : Gains P ObjectStore.shardPath blobs objects objects') (hb : ObjectStore.get objects h = some b) :
    ObjectStore.get objects' h = some b := by
  obtain hsame | ⟨hnone, -⟩ := hg (ObjectStore.shardPath h)
  · exact hsame.trans hb
  · rw [ObjectStore.get, hnone] at hb
    cases hb

/-- Something of the edge's hash can be read after its blobs are put. -/
theorem exists_get_storedBlobs {M : Set Bytes} {objects : Files} (h : Addressed P M objects) (edgeData proof : Slice) :
    ∃ b, ObjectStore.get (storedBlobs P edgeData proof objects) (P.hashBytes edgeData.bytes) = some b ∧
      P.hashBytes b = P.hashBytes edgeData.bytes := by
  obtain ⟨b, hb, hhash⟩ := h.exists_get_inserted edgeData.bytes
  refine ⟨b, ?_, hhash⟩
  cases proof with
  | none => exact hb
  | some proof => exact get_of_gains (gains_inserted (List.mem_singleton_self proof)) hb

namespace Kept

theorem start : Kept P Session.start.storage where
  addressed := .empty
  indexed k v hv := by
    rw [Session.start, Std.ExtTreeMap.getElem?_empty] at hv
    cases hv

theorem crashConsistent (h : Kept P s) : CrashConsistent P s where
  indexed e he := by
    obtain ⟨kv, hkv, rfl⟩ := List.mem_map.mp he
    obtain ⟨hv, hp⟩ := mem_scanned.mp hkv
    obtain ⟨b, hk, hb⟩ := h.indexed _ _ hv hp
    have hcopy : copyHash (kv.1.drop 1) = P.hashBytes b := by
      rw [hk, GraphIndex.edgeKey, List.drop_one, List.tail_cons, copyHash_raw]
    exact ⟨b, hcopy ▸ hb, hcopy.symm⟩
  addressed k b hb := (h.addressed.hash_eq hb).2

/-- Files are added, and the database is left as it is. -/
theorem files (h : Kept P s) {blobs : List Bytes} (hdb : s'.db = s.db)
    (hg : Gains P ObjectStore.shardPath blobs s.objects s'.objects) : Kept P s' where
  addressed := h.addressed.gains (fun _ _ => trivial) hg
  indexed k v hv hp := by
    obtain ⟨b, hk, hb⟩ := h.indexed k v (hdb ▸ hv) hp
    exact ⟨b, hk, get_of_gains hg hb⟩

theorem put (h : Kept P s) (data : Bytes) (fault : Option Nat) : Kept P (Event.exec P s (.put data fault)) := by
  have hput : WP (Storage.onObjects (ObjectStore.put P data)) (fun _ s' => Kept P s') (fun _ s' => Kept P s') s := by
    refine put_wp.mono (fun r s' hs' => ?_) fun _ s' hs' => hs' ▸ h
    obtain ⟨-, rfl⟩ := hs'
    exact h.files rfl (gains_inserted (List.mem_singleton_self data))
  exact hput.state fault

/-- The blob of an edge is there before its batch is committed. -/
theorem commitEdge (h : Kept P s) (kp : Keypair) (now : Int64) (premises : Hashes) (conclusion : Hash)
    (edgeData : Impl.Go.ByteSlice) (proof : Slice) (fault : Option Nat) :
    Kept P (Event.exec P s (.commitEdge kp now premises conclusion edgeData proof fault)) := by
  have hcommit : WP (Storage.commitEdgeTx P kp now premises conclusion edgeData proof) (fun _ s' => Kept P s')
      (fun _ s' => Kept P s') s := by
    refine (commitEdgeTx_wp.and commitEdgeTx_gains).mono (fun r s' hs' => ?_) fun _ s' hs' => ?_
    · obtain ⟨⟨-, b, hnext, rfl⟩, -⟩ := hs'
      obtain ⟨enc, -, rfl⟩ := hnext.sets
      have hgains : Gains P ObjectStore.shardPath (edgeBlobs edgeData.1.bytes proof) s.objects
          (storedBlobs P edgeData proof s.objects) := gains_storedBlobs edgeData.1 proof
      refine ⟨h.addressed.gains (fun _ _ => trivial) hgains, fun k v hv hp => ?_⟩
      obtain hmem | hold := getElem?_commit hv
      · obtain hedge | hlog := List.mem_append.mp hmem
        · obtain ⟨blob, hblob, hhash⟩ := exists_get_storedBlobs h.addressed edgeData.1 proof
          have hk : k = GraphIndex.edgeKey (P.hashBytes edgeData.1.bytes) := (edgeSets_keys hedge).2 hp
          exact ⟨blob, by rw [hk, hhash], by rwa [hhash]⟩
        · obtain ⟨rest, rfl⟩ := hp
          exact absurd rfl (Tagged.ne ⟨'e', by decide, rest, rfl⟩ (entrySets_keys hlog))
      · obtain ⟨blob, hk, hblob⟩ := h.indexed k v hold hp
        exact ⟨blob, hk, get_of_gains hgains hblob⟩
    · exact h.files hs'.2.1 hs'.2.2
  exact hcommit.state fault

theorem crash (h : Kept P s) {keep : Path → Nat} (hkeep : Intact P keep s.objects) : Kept P (s.crash keep) where
  addressed dest b hb := by
    obtain ⟨b', hb', rfl⟩ := Option.map_eq_some_iff.mp hb
    obtain ⟨-, rfl⟩ := h.addressed dest b' hb'
    exact ⟨trivial, by rw [hkeep _ b' hb']⟩
  indexed k v hv hp := by
    obtain ⟨b, rfl, hb⟩ := h.indexed k v hv hp
    have hhash := hkeep _ b hb
    refine ⟨b.take (keep (ObjectStore.shardPath (P.hashBytes b))), by rw [hhash], ?_⟩
    rw [hhash]
    exact congrArg (Option.map _) hb

end Kept

/-- The events so far, and each crash among them cuts nothing off. -/
theorem run_kept {events : List Event} (h : ∀ pre keep rest, events = pre ++ .crash keep :: rest →
    Intact P keep (Event.run P pre).objects) : Kept P (Event.run P events) := by
  induction events using List.reverseRecOn with
  | nil => exact .start
  | append_singleton events event ih =>
    have hrun : Event.run P (events ++ [event]) = Event.exec P (Event.run P events) event := List.foldl_concat ..
    have hkept := ih fun pre keep rest he =>
        h pre keep (rest ++ [event]) (by rw [he, List.append_assoc, List.cons_append])
    rw [hrun]
    cases event with
    | put data fault => exact hkept.put data fault
    | commitEdge kp now premises conclusion edgeData proof fault => exact hkept.commitEdge ..
    | crash keep => exact hkept.crash (h events keep [] rfl)

/-- In every state that puts, commits and crashes lead to, wherever a call
stops, if and only if no crash cuts off a blob that can be read. -/
theorem crash_consistent_iff (P : Prims) (events : List Event) :
    (∀ pre, pre <+: events → CrashConsistent P (Event.run P pre)) ↔
      ∀ pre keep rest, events = pre ++ .crash keep :: rest → Intact P keep (Event.run P pre).objects := by
  constructor
  · intro h pre keep rest he k b hb
    have hbefore := h pre (he ▸ List.prefix_append _ _)
    have hafter := h (pre ++ [.crash keep]) ⟨rest, by rw [he, List.append_assoc, List.singleton_append]⟩
    have hrun : Event.run P (pre ++ [.crash keep]) = (Event.run P pre).crash keep := List.foldl_concat ..
    rw [hrun] at hafter
    have hcut : ObjectStore.get ((Event.run P pre).crash keep).objects k =
        some (b.take (keep (ObjectStore.shardPath k))) := congrArg (Option.map _) hb
    rw [hafter.addressed k _ hcut, hbefore.addressed k b hb]
  · intro h pre hpre
    obtain ⟨rest, rfl⟩ := hpre
    refine (run_kept fun pre' keep rest' he => ?_).crashConsistent
    exact h pre' keep (rest' ++ rest) (by rw [he, List.append_assoc, List.cons_append])

section Example

open Reference

/-- A commit, a crash that empties all files, and a put of the same edge data. -/
def emptied : List Event :=
  [.commitEdge exampleKeypair 10 ⟨[exampleHash 3], by decide⟩ (exampleHash 4) ⟨some [5], by decide⟩ none none,
    .crash fun _ => 0, .put [5] none]

/-- The edge is indexed, its blob reads as empty, and a put does not mend it. -/
theorem emptied_stays : reference.hashBytes [5] ∈ GraphIndex.allEdges (Event.run reference emptied).db ∧
    ObjectStore.get (Event.run reference emptied).objects (reference.hashBytes [5]) = some [] ∧
    ¬ CrashConsistent reference (Event.run reference emptied) := by
  have hmem : reference.hashBytes [5] ∈ GraphIndex.allEdges (Event.run reference emptied).db := by decide +kernel
  have hget : ObjectStore.get (Event.run reference emptied).objects (reference.hashBytes [5]) = some [] := by
    decide +kernel
  refine ⟨hmem, hget, fun h => ?_⟩
  have hne : reference.hashBytes [] ≠ reference.hashBytes [5] := by decide +kernel
  exact hne (h.addressed _ _ hget)

end Example

end ArxDB.Proof.Go
