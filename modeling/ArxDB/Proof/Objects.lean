import ArxDB.Proof.Operations

/-!
# Content addressing

Paths are injective (`path_inj`), so as long as no two blobs collide an object
store only ever holds a blob under its own hash (`Addressed`), and a blob that
was stored stays there (`Addressed.has_putAll`, `Has.putAll`).
-/

namespace ArxDB.Proof

open Impl

variable {P : Prims}

/-! ## Paths -/

theorem hexDigit_inj {m n : Nat} (hm : m < 16) (hn : n < 16) (h : hexDigit m = hexDigit n) : m = n := by
  have key : ∀ i j : Fin 16, hexDigit i = hexDigit j → i = j := by decide
  simpa using key ⟨m, hm⟩ ⟨n, hn⟩ h

theorem hexByte_inj {a b : UInt8} (h : hexByte a = hexByte b) : a = b := by
  have ha := a.toNat_lt
  have hb := b.toNat_lt
  simp only [hexByte, List.cons.injEq, and_true] at h
  have h₁ := hexDigit_inj (by omega) (by omega) h.1
  have h₂ := hexDigit_inj (by omega) (by omega) h.2
  exact UInt8.toNat_inj.mp (by omega)

theorem flatMap_hexByte_inj {a b : Bytes} (h : a.flatMap hexByte = b.flatMap hexByte) : a = b := by
  induction a generalizing b with
  | nil =>
    cases b with
    | nil => rfl
    | cons y b => cases h
  | cons x a ih =>
    cases b with
    | nil => cases h
    | cons y b =>
      rw [List.flatMap_cons, List.flatMap_cons] at h
      obtain ⟨hx, hr⟩ := List.append_inj h rfl
      rw [hexByte_inj hx, ih hr]

/-- A file name stands for one hash. -/
theorem path_inj {h h' : Hash} (e : ObjectStore.path h = ObjectStore.path h') : h = h' := by
  rw [ObjectStore.path, ObjectStore.path, Prod.mk.injEq] at e
  have hex : h.hex = h'.hex := by
    rw [← List.take_append_drop 2 h.hex, e.1, e.2, List.take_append_drop]
  exact Hash.ext (flatMap_hexByte_inj hex)

/-! ## Blobs stored one after the other -/

/-- The files after these blobs are put. -/
def putAll (P : Prims) (objects : Files) (blobs : List Bytes) : Files := blobs.foldl (ObjectStore.insert P) objects

theorem putAll_cons (objects : Files) (b : Bytes) (blobs : List Bytes) :
    putAll P objects (b :: blobs) = putAll P (ObjectStore.insert P objects b) blobs := rfl

@[simp] theorem putAll_append (objects : Files) (blobs blobs' : List Bytes) :
    putAll P objects (blobs ++ blobs') = putAll P (putAll P objects blobs) blobs' := List.foldl_append

/-- `s` with these blobs put as well. -/
def storing (P : Prims) (s : Storage) (blobs : List Bytes) : Storage := { s with objects := putAll P s.objects blobs }

@[simp] theorem storing_storing (s : Storage) (blobs blobs' : List Bytes) :
    storing P (storing P s blobs) blobs' = storing P s (blobs ++ blobs') := by
  simp [storing]

theorem storedBlobs_eq (edgeData : Bytes) (proof : Option Bytes) (objects : Files) :
    storedBlobs P edgeData proof objects = putAll P objects (edgeData :: proof.toList) := by
  cases proof <;> rfl

/-- The blob is there, under its hash. -/
def Has (P : Prims) (objects : Files) (blob : Bytes) : Prop := ObjectStore.get objects (P.hashBytes blob) = some blob

theorem Has.insert {objects : Files} {blob : Bytes} (h : Has P objects blob) (blob' : Bytes) :
    Has P (ObjectStore.insert P objects blob') blob := by
  unfold ObjectStore.insert
  split
  · exact h
  · rename_i hhas
    have hne : ObjectStore.path (P.hashBytes blob) ≠ ObjectStore.path (P.hashBytes blob') := by
      intro e
      rw [Has, ObjectStore.get, e] at h
      exact hhas (Option.isSome_iff_exists.mpr ⟨blob, h⟩)
    simpa [Has, ObjectStore.get, ObjectStore.replace, hne] using h

theorem Has.putAll {objects : Files} {blob : Bytes} (h : Has P objects blob) (blobs : List Bytes) :
    Has P (putAll P objects blobs) blob := by
  induction blobs generalizing objects with
  | nil => exact h
  | cons b blobs ih => exact ih (h.insert b)

/-- Every file is one of the blobs `M`, under its hash. -/
def Addressed (P : Prims) (M : Set Bytes) (objects : Files) : Prop :=
  ∀ dest blob, objects dest = some blob → blob ∈ M ∧ dest = ObjectStore.path (P.hashBytes blob)

namespace Addressed

variable {M : Set Bytes} {objects : Files} {blob : Bytes}

theorem empty : Addressed P M (fun _ => none) := nofun

theorem insert (h : Addressed P M objects) (hb : blob ∈ M) : Addressed P M (ObjectStore.insert P objects blob) := by
  unfold ObjectStore.insert
  split
  · exact h
  · intro dest blob' hd
    unfold ObjectStore.replace at hd
    split at hd
    · rename_i e
      rw [Option.some.injEq] at hd
      exact hd ▸ ⟨hb, e⟩
    · exact h dest blob' hd

/-- A blob that is read by a hash has that hash. -/
theorem hash_eq (h : Addressed P M objects) {k : Hash} (hg : ObjectStore.get objects k = some blob) :
    blob ∈ M ∧ P.hashBytes blob = k := by
  obtain ⟨hb, e⟩ := h _ _ hg
  exact ⟨hb, (path_inj e).symm⟩

/-- What is put can be read. -/
theorem has_insert (h : Addressed P M objects) (hM : Set.InjOn P.hashBytes M) (hb : blob ∈ M) :
    Has P (ObjectStore.insert P objects blob) blob := by
  unfold ObjectStore.insert
  split
  · rename_i hhas
    obtain ⟨blob', hg⟩ := Option.isSome_iff_exists.mp hhas
    obtain ⟨hb', e⟩ := h.hash_eq hg
    rw [Has, ObjectStore.get, hg, hM hb' hb e]
  · simp [Has, ObjectStore.get, ObjectStore.replace]

theorem putAll {blobs : List Bytes} (h : Addressed P M objects) (hb : ∀ b ∈ blobs, b ∈ M) :
    Addressed P M (putAll P objects blobs) := by
  induction blobs generalizing objects with
  | nil => exact h
  | cons b blobs ih =>
    rw [List.forall_mem_cons] at hb
    exact ih (h.insert hb.1) hb.2

/-- Every blob of the list is there afterwards. -/
theorem has_putAll {blobs : List Bytes} (h : Addressed P M objects) (hM : Set.InjOn P.hashBytes M)
    (hb : ∀ b ∈ blobs, b ∈ M) : ∀ b ∈ blobs, Has P (Proof.putAll P objects blobs) b := by
  induction blobs generalizing objects with
  | nil => simp
  | cons b blobs ih =>
    rw [List.forall_mem_cons] at hb ⊢
    rw [putAll_cons]
    exact ⟨(h.has_insert hM hb.1).putAll blobs, ih (h.insert hb.1) hb.2⟩

end Addressed

/-! ## What files are gained -/

/-- `objects'` is `objects` with at most some of these blobs added, each under its own hash. -/
def Gains (P : Prims) (path : Hash → Path) (blobs : List Bytes) (objects objects' : Files) : Prop :=
  ∀ dest, objects' dest = objects dest ∨
    objects dest = none ∧ ∃ b ∈ blobs, dest = path (P.hashBytes b) ∧ objects' dest = some b

/-- The blobs of an edge. -/
def edgeBlobs (edgeData : Bytes) (proof : Option Bytes) : List Bytes := edgeData :: proof.toList

namespace Gains

variable {path : Hash → Path} {blobs : List Bytes} {objects objects' objects'' : Files}

theorem refl : Gains P path blobs objects objects := fun _ => .inl rfl

theorem trans (h : Gains P path blobs objects objects') (h' : Gains P path blobs objects' objects'') :
    Gains P path blobs objects objects'' := by
  intro dest
  rcases h' dest with h' | ⟨hnone, hb⟩
  · rw [h']
    exact h dest
  · rcases h dest with h | ⟨-, b, -, -, h⟩
    · exact .inr ⟨h ▸ hnone, hb⟩
    · rw [hnone] at h
      cases h

/-- A blob that is not there is written. -/
theorem replace {b : Bytes} (hb : b ∈ blobs) (hnone : ¬ (objects (path (P.hashBytes b))).isSome = true) :
    Gains P path blobs objects (ObjectStore.replace objects (path (P.hashBytes b)) b) := by
  intro dest
  by_cases hdest : dest = path (P.hashBytes b)
  · refine .inr ⟨?_, b, hb, hdest, if_pos hdest⟩
    rw [hdest]
    exact Option.not_isSome_iff_eq_none.mp hnone
  · exact .inl (if_neg hdest)

theorem insert {b : Bytes} (hb : b ∈ blobs) :
    Gains P ObjectStore.path blobs objects (ObjectStore.insert P objects b) := by
  unfold ObjectStore.insert
  split
  · exact refl
  · rename_i h
    exact replace hb h

theorem putAll {bs : List Bytes} (hb : ∀ b ∈ bs, b ∈ blobs) :
    Gains P ObjectStore.path blobs objects (putAll P objects bs) := by
  induction bs generalizing objects with
  | nil => exact refl
  | cons b bs ih =>
    rw [List.forall_mem_cons] at hb
    exact (insert hb.1).trans (ih hb.2)

end Gains

end ArxDB.Proof
