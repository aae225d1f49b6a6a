import ArxDB.Proof.Objects
import ArxDB.Proof.Go.Operations

/-!
# Content addressing in the Go engine

`Put` takes a path that exists for a blob that is stored. As long as no two
blobs collide the files are blobs under their own hashes (`Addressed`), and
what was put can be read (`Addressed.get_storedBlobs`).
-/

namespace ArxDB.Proof.Go

open Impl (Bytes Hash Prims Files)
open Impl.Go

variable {P : Prims} {M : Set Bytes} {objects : Files} {blob : Bytes}

/-- A file name stands for one hash. -/
theorem shardPath_inj {h h' : Hash} (e : ObjectStore.shardPath h = ObjectStore.shardPath h') : h = h' :=
  Hash.ext (flatMap_hexByte_inj (congrArg Prod.snd e))

theorem gains_inserted {blobs : List Bytes} (hb : blob ∈ blobs) :
    Gains P ObjectStore.shardPath blobs objects (inserted P blob objects) := by
  unfold inserted
  split
  · exact .refl
  · rename_i h
    exact .replace hb h

theorem gains_storedBlobs (edgeData proof : Slice) :
    Gains P ObjectStore.shardPath (edgeBlobs edgeData.bytes proof) objects (storedBlobs P edgeData proof objects) := by
  have hdata : Gains P ObjectStore.shardPath (edgeBlobs edgeData.bytes proof) objects
      (inserted P edgeData.bytes objects) := gains_inserted List.mem_cons_self
  cases proof with
  | none => exact hdata
  | some proof => exact hdata.trans (gains_inserted (List.mem_cons_of_mem _ (List.mem_singleton_self _)))

/-- A blob that can be read under its hash stays there. -/
theorem get_inserted (h : ObjectStore.get objects (P.hashBytes blob) = some blob) (blob' : Bytes) :
    ObjectStore.get (inserted P blob' objects) (P.hashBytes blob) = some blob := by
  have gains : Gains P ObjectStore.shardPath [blob'] objects (inserted P blob' objects) :=
    gains_inserted (List.mem_singleton_self _)
  rcases gains (ObjectStore.shardPath (P.hashBytes blob)) with hsame | ⟨hnone, -⟩
  · exact hsame.trans h
  · rw [ObjectStore.get, hnone] at h
    cases h

/-- Every file is one of the blobs `M`, under its hash. -/
def Addressed (P : Prims) (M : Set Bytes) (objects : Files) : Prop :=
  ∀ dest blob, objects dest = some blob → blob ∈ M ∧ dest = ObjectStore.shardPath (P.hashBytes blob)

namespace Addressed

theorem empty : Addressed P M (fun _ => none) := nofun

theorem gains {objects' : Files} {blobs : List Bytes} (h : Addressed P M objects) (hM : ∀ b ∈ blobs, b ∈ M)
    (hg : Gains P ObjectStore.shardPath blobs objects objects') : Addressed P M objects' := by
  intro dest blob hblob
  rcases hg dest with hsame | ⟨-, b, hb, hdest, hb'⟩
  · exact h dest blob (hsame ▸ hblob)
  · obtain rfl := Option.some.inj (hb'.symm.trans hblob)
    exact ⟨hM _ hb, hdest⟩

/-- A blob that is read by a hash has that hash. -/
theorem hash_eq (h : Addressed P M objects) {k : Hash} (hg : ObjectStore.get objects k = some blob) :
    blob ∈ M ∧ P.hashBytes blob = k := by
  obtain ⟨hb, e⟩ := h _ _ hg
  exact ⟨hb, (shardPath_inj e).symm⟩

/-- Something of that hash can be read after it is put, also where no blobs are known not to collide. -/
theorem exists_get_inserted (h : Addressed P M objects) (blob : Bytes) :
    ∃ b, ObjectStore.get (inserted P blob objects) (P.hashBytes blob) = some b ∧ P.hashBytes b = P.hashBytes blob := by
  unfold inserted
  split
  · rename_i hhas
    obtain ⟨b, hg⟩ := Option.isSome_iff_exists.mp hhas
    exact ⟨b, hg, (h.hash_eq hg).2⟩
  · exact ⟨blob, if_pos rfl, rfl⟩

theorem get_inserted_self (h : Addressed P M objects) (hinj : Set.InjOn P.hashBytes M) (hb : blob ∈ M) :
    ObjectStore.get (inserted P blob objects) (P.hashBytes blob) = some blob := by
  obtain ⟨b, hg, e⟩ := h.exists_get_inserted blob
  have hblob : ∀ b ∈ [blob], b ∈ M := by simpa using hb
  have hM := (h.gains hblob (gains_inserted (List.mem_singleton_self _))).hash_eq hg
  rw [hg, hinj hM.1 hb e]

/-- The blobs of an edge can be read after they are put. -/
theorem get_storedBlobs (h : Addressed P M objects) (hinj : Set.InjOn P.hashBytes M) {edgeData proof : Slice}
    (hM : ∀ b ∈ edgeBlobs edgeData.bytes proof, b ∈ M) {b : Bytes} (hb : b ∈ edgeBlobs edgeData.bytes proof) :
    ObjectStore.get (storedBlobs P edgeData proof objects) (P.hashBytes b) = some b := by
  have hdata := h.get_inserted_self hinj (hM _ List.mem_cons_self)
  cases proof with
  | none =>
    obtain rfl := List.mem_singleton.mp hb
    exact hdata
  | some proof =>
    have h' := h.gains hM (gains_inserted List.mem_cons_self)
    rcases List.mem_cons.mp hb with rfl | hb
    · exact get_inserted hdata proof
    · obtain rfl := List.mem_singleton.mp hb
      exact h'.get_inserted_self hinj (hM _ (List.mem_cons_of_mem _ (List.mem_singleton_self _)))

end Addressed

end ArxDB.Proof.Go
