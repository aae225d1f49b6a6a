import ArxDB.Impl.SharedObjects
import ArxDB.Proof.Go.Objects
import ArxDB.Reference.Prims

/-!
# Two object stores over one root

A put of either store changes the blobs, the files that are not temporary, by
at most the one it stores (`blobs_exec`), and no hash has its blob at a
temporary path. So a store finds exactly what was put through it (`exists_get_run_iff`,
`get_run`). It does not find what was put through the other one: `object_store.py`
leaves the first two digits out of the name of a file, `object_store.go` does
not.
-/

namespace ArxDB.Proof.SharedObjects

open Impl Impl.SharedObjects Failing Prog Reference

variable {P : Prims} {files : Files} {calls : List Call}

/-! ## Paths -/

/-- The path of the blob of a hash. -/
def blobPath : Engine → Hash → Path
  | .python => ObjectStore.path
  | .go => Go.ObjectStore.shardPath

/-- A path at which a put may have its temporary file. -/
def isTemp (p : Path) : Bool := p.1 == [] || p.2.head? == some '.'

theorem get_eq (e : Engine) (files : Files) (h : Hash) : get e files h = files (blobPath e h) := by
  cases e <;> rfl

theorem has_eq (e : Engine) (files : Files) (h : Hash) : has e files h = (get e files h).isSome := by
  cases e <;> rfl

theorem length_hex (h : Hash) : h.hex.length = 68 := by
  have hlen : ∀ b : Bytes, (b.flatMap hexByte).length = 2 * b.length := by
    intro b
    induction b with
    | nil => rfl
    | cons x b ih =>
      rw [List.flatMap_cons, List.length_append, ih, List.length_cons]
      show 2 + _ = _
      omega
  rw [Hash.hex, hlen, h.size]

theorem hexDigit_ne_dot (n : Nat) : hexDigit n ≠ '.' := by
  unfold hexDigit
  by_cases hn : n < 16
  · have key : ∀ i : Fin 16, "0123456789abcdef".toList.getD i '0' ≠ '.' := by decide
    exact key ⟨n, hn⟩
  · have hnone : "0123456789abcdef".toList[n]? = none := List.getElem?_eq_none (Nat.le_of_not_lt hn)
    rw [List.getD_eq_getElem?_getD, hnone]
    decide

theorem dot_not_mem_hex (h : Hash) : '.' ∉ h.hex := by
  intro hmem
  obtain ⟨b, -, hb⟩ := List.mem_flatMap.mp hmem
  simp only [hexByte, List.mem_cons, List.not_mem_nil, or_false] at hb
  obtain hb | hb := hb <;> exact hexDigit_ne_dot _ hb.symm

theorem not_isTemp_blobPath (e : Engine) (h : Hash) : isTemp (blobPath e h) = false := by
  have hdir : h.hex.take 2 ≠ [] := by
    intro he
    have := congrArg List.length he
    rw [List.length_take, length_hex] at this
    simp at this
  have hname : ∀ name : List Char, (∀ c ∈ name, c ∈ h.hex) → name.head? ≠ some '.' := by
    intro name hsub he
    exact dot_not_mem_hex h (hsub '.' (List.mem_of_mem_head? he))
  cases e with
  | python =>
    have hdot := hname (h.hex.drop 2) fun c => List.mem_of_mem_drop
    rw [isTemp, Bool.or_eq_false_iff, beq_eq_false_iff_ne, beq_eq_false_iff_ne]
    exact ⟨hdir, hdot⟩
  | go =>
    have hdot := hname h.hex fun _ hc => hc
    rw [isTemp, Bool.or_eq_false_iff, beq_eq_false_iff_ne, beq_eq_false_iff_ne]
    exact ⟨hdir, hdot⟩

/-- No two hashes, and not the two stores, share a path. -/
theorem blobPath_inj {e e' : Engine} {h h' : Hash} (heq : blobPath e h = blobPath e' h') : e = e' ∧ h = h' := by
  have hlen : (blobPath e h).2.length = (blobPath e' h').2.length := by rw [heq]
  have length_drop : ∀ h : Hash, (h.hex.drop 2).length = 66 := by
    intro h
    rw [List.length_drop, length_hex]
  cases e <;> cases e' <;> simp only [blobPath, ObjectStore.path, Go.ObjectStore.shardPath, length_drop,
    length_hex] at hlen
  · exact ⟨rfl, path_inj heq⟩
  · omega
  · omega
  · exact ⟨rfl, Proof.Go.shardPath_inj heq⟩

/-! ## What a put does to the blobs -/

/-- The files without the temporary ones. -/
def blobs (files : Files) : Files := fun p => if isTemp p then none else files p

/-- `files` with a blob put through a store that has none of its hash. -/
def place (P : Prims) (e : Engine) (files : Files) (data : Bytes) : Files :=
  if has e files (P.hashBytes data) then files
  else ObjectStore.replace files (blobPath e (P.hashBytes data)) data

/-- The put is not stopped before its fourth change, which moves its file into place. -/
def Finishes (c : Call) : Prop := ∀ n, c.course.fault = some n → 4 ≤ n

instance (c : Call) : Decidable (Finishes c) :=
  decidable_of_iff (∀ n ∈ c.course.fault, 4 ≤ n) (by simp [Finishes])

theorem get_blobs (e : Engine) (h : Hash) : get e (blobs files) h = get e files h := by
  rw [get_eq, get_eq, blobs, not_isTemp_blobPath]
  rfl

theorem has_blobs (e : Engine) (h : Hash) : has e (blobs files) h = has e files h := by
  rw [has_eq, has_eq, get_blobs]

/-- What is written at temporary paths changes no blob. -/
theorem blobs_congr {files files' : Files} (h : ∀ p, isTemp p = false → files p = files' p) :
    blobs files = blobs files' := by
  funext p
  rw [blobs, blobs]
  split_ifs with hp
  · rfl
  · exact h p (Bool.eq_false_iff.mpr hp)

theorem ne_of_isTemp {p tmp : Path} (hp : isTemp p = false) (ht : isTemp tmp = true) : p ≠ tmp := by
  rintro rfl
  rw [hp] at ht
  cases ht

theorem blobs_replace {tmp : Path} (ht : isTemp tmp = true) (data : Bytes) :
    blobs (ObjectStore.replace files tmp data) = blobs files :=
  blobs_congr fun _ hp => if_neg (ne_of_isTemp hp ht)

theorem blobs_remove {tmp : Path} (ht : isTemp tmp = true) : blobs (remove files tmp) = blobs files :=
  blobs_congr fun _ hp => if_neg (ne_of_isTemp hp ht)

theorem blobs_rename {tmp dest : Path} (ht : isTemp tmp = true) (hd : isTemp dest = false) {data : Bytes}
    (hdata : files tmp = some data) : blobs (rename files tmp dest) = ObjectStore.replace (blobs files) dest data := by
  funext p
  simp only [blobs, rename, ObjectStore.replace, hdata]
  by_cases hp : p = dest
  · simp [hp, hd]
  · by_cases hpt : p = tmp
    · subst hpt
      simp [hp, ht]
    · simp [hp, hpt]

section Cleaning

variable {ε : Type} (e : ε) {tmp : Path} (ht : isTemp tmp = true) (dest : Path) (files : Files) (data : Bytes)
  (cut : Nat) (tidy : Bool)

include ht

theorem cleaning_done (hd : isTemp dest = false) {n : Option Nat} (h : ∀ k ∈ n, 4 ≤ k) : ∃ files' left,
    cleaning tidy tmp (changes e (writes tmp dest data cut)) ⟨files, n⟩ = (.ok (), ⟨files', left⟩) ∧
      blobs files' = ObjectStore.replace (blobs files) dest data := by
  have hrun := changes_done e (writes tmp dest data cut) files h
  refine ⟨_, _, by rw [cleaning, hrun], ?_⟩
  show blobs (rename (ObjectStore.replace (ObjectStore.replace (ObjectStore.replace files _ _) _ _) _ _) _ _) = _
  rw [blobs_rename ht hd (if_pos rfl), blobs_replace ht, blobs_replace ht, blobs_replace ht]

theorem cleaning_stopped {k : Nat} (h : k < 4) : ∃ files',
    cleaning tidy tmp (changes e (writes tmp dest data cut)) ⟨files, some k⟩ = (.error e, ⟨files', none⟩) ∧
      blobs files' = blobs files := by
  have hrun := changes_stopped e (writes tmp dest data cut) files h
  have hblobs : blobs (((writes tmp dest data cut).take k).foldl (fun s u => u s) files) = blobs files := by
    have hk : k = 0 ∨ k = 1 ∨ k = 2 ∨ k = 3 := by omega
    obtain rfl | rfl | rfl | rfl := hk <;> simp [writes, blobs_replace ht]
  cases tidy with
  | false => exact ⟨_, by rw [cleaning, hrun]; rfl, hblobs⟩
  | true => exact ⟨_, by rw [cleaning, hrun]; rfl, (blobs_remove ht).trans hblobs⟩

end Cleaning

theorem pyTmp_isTemp (c : Course) : isTemp (pyTmp c) = true := rfl

theorem goTmp_isTemp (h : Hash) (c : Course) : isTemp (goTmp h c) = true := by
  have hdot : (goTmp h c).2.head? = some '.' := rfl
  rw [isTemp, hdot]
  exact Bool.or_true _

/-- The blobs after a put: what it does once its file is in place changes none. -/
theorem blobs_put {ε : Type} (e : ε) {tmp : Path} (ht : isTemp tmp = true) (engine : Engine) (c : Course) (data : Bytes)
    (tail : Prog ε Files Hash) (htail : ∀ n s, (tail.exec n s).2 = s) (files : Files) :
    blobs ((Prog.read (fun files => has engine files (P.hashBytes data)) >>= fun found =>
      if found = true then pure (P.hashBytes data)
      else cleaning c.tidy tmp (changes e (writes tmp (blobPath engine (P.hashBytes data)) data c.cut)) >>=
        fun _ => tail).exec c.fault files).2 =
      if Finishes ⟨engine, data, c⟩ then place P engine (blobs files) data else blobs files := by
  rw [exec_read_bind, place, has_blobs]
  by_cases hhas : has engine files (P.hashBytes data) = true
  · rw [if_pos hhas, if_pos hhas, ite_self]
    rfl
  rw [if_neg hhas, if_neg hhas]
  by_cases hc : Finishes ⟨engine, data, c⟩
  · obtain ⟨files', left, hrun, hblobs⟩ :=
      cleaning_done e ht _ files data c.cut c.tidy (not_isTemp_blobPath engine (P.hashBytes data)) hc
    rw [if_pos hc, exec_bind_ok hrun, htail]
    exact hblobs
  · obtain ⟨k, hfault, hk⟩ : ∃ k, c.fault = some k ∧ k < 4 := by simpa [Finishes] using hc
    obtain ⟨files', hrun, hblobs⟩ :=
      cleaning_stopped e ht (blobPath engine (P.hashBytes data)) files data c.cut c.tidy hk
    rw [if_neg hc, hfault, exec_bind_error hrun]
    exact hblobs

/-- A put that finishes places its blob, and one that does not changes no blob. -/
theorem blobs_exec (files : Files) (c : Call) :
    blobs (c.exec P files) = if Finishes c then place P c.engine (blobs files) c.data else blobs files := by
  obtain ⟨engine, data, c⟩ := c
  cases engine with
  | python =>
    apply blobs_put PyError.fault (pyTmp_isTemp c) .python c data (statement .fault >>= fun _ => pure _)
    intro n s
    rcases n with _ | _ | n <;> rfl
  | go => exact blobs_put Go.GoError.library (goTmp_isTemp _ c) .go c data (pure _) (fun _ _ => rfl) files

/-- What `ObjectStore.put` says of `put`, where no temporary file is looked at. -/
theorem blobs_python (files : Files) {c : Call} (hc : c.engine = .python) :
    ∃ n, blobs (c.exec P files) = ((ObjectStore.put P c.data).exec n (blobs files)).2 := by
  rw [blobs_exec, hc]
  split_ifs
  · exact ⟨none, rfl⟩
  · exact ⟨some 0, rfl⟩

theorem blobs_go (files : Files) {c : Call} (hc : c.engine = .go) :
    ∃ n, blobs (c.exec P files) = ((Go.ObjectStore.put P c.data).exec n (blobs files)).2 := by
  rw [blobs_exec, hc]
  by_cases hhas : Go.ObjectStore.has (blobs files) (P.hashBytes c.data) = true
  · refine ⟨none, ?_⟩
    rw [Go.ObjectStore.put, exec_read_bind, if_pos hhas]
    exact (congrArg (ite _ · _) (if_pos hhas)).trans (ite_self _)
  · split_ifs
    · refine ⟨none, ?_⟩
      rw [Go.ObjectStore.put, exec_read_bind, if_neg hhas]
      exact if_neg hhas
    · refine ⟨some 0, ?_⟩
      rw [Go.ObjectStore.put, exec_read_bind, if_neg hhas]
      rfl

/-! ## Runs -/

theorem run_concat (calls : List Call) (c : Call) : run P (calls ++ [c]) = c.exec P (run P calls) := by
  rw [run, List.foldl_append]
  rfl

/-- A put that finishes through the store `e`, of data with the hash `h`. -/
def Stores (P : Prims) (e : Engine) (h : Hash) (c : Call) : Prop :=
  c.engine = e ∧ Finishes c ∧ P.hashBytes c.data = h

/-- Data with the hash `h` was stored through `e`. -/
def StoredThrough (P : Prims) (e : Engine) (calls : List Call) (h : Hash) : Prop := ∃ c ∈ calls, Stores P e h c

theorem storedThrough_concat {e : Engine} {h : Hash} {c : Call} :
    StoredThrough P e (calls ++ [c]) h ↔ StoredThrough P e calls h ∨ Stores P e h c := by
  simp [StoredThrough, or_and_right, exists_or]

/-- After a put that stores `h` the hash has a blob: the one that was there, or the data. -/
theorem get_exec_stores {e : Engine} {h : Hash} {c : Call} (hs : Stores P e h c) (files : Files) :
    get e (c.exec P files) h = some ((get e files h).getD c.data) := by
  obtain ⟨rfl, hc, rfl⟩ := hs
  rw [← get_blobs, blobs_exec, if_pos hc, place, has_blobs, has_eq]
  cases hget : get c.engine files (P.hashBytes c.data) with
  | some b =>
    rw [Option.isSome_some, if_pos rfl, get_blobs, hget]
    rfl
  | none =>
    rw [Option.isSome_none, if_neg Bool.false_ne_true, get_eq]
    exact if_pos rfl

theorem get_exec_other {e : Engine} {h : Hash} {c : Call} (hs : ¬Stores P e h c) (files : Files) :
    get e (c.exec P files) h = get e files h := by
  rw [← get_blobs, blobs_exec]
  split_ifs with hc
  · rw [place]
    split_ifs
    · exact get_blobs e h
    · have hne : blobPath e h ≠ blobPath c.engine (P.hashBytes c.data) := by
        intro heq
        obtain ⟨he, hh⟩ := blobPath_inj heq
        exact hs ⟨he.symm, hc, hh.symm⟩
      rw [get_eq, ObjectStore.replace, if_neg hne]
      exact (get_eq e _ h).symm.trans (get_blobs e h)
  · exact get_blobs e h

/-- A store finds a blob exactly for the hashes stored through it. -/
theorem exists_get_run_iff {e : Engine} {h : Hash} :
    (∃ b, get e (run P calls) h = some b) ↔ StoredThrough P e calls h := by
  induction calls using List.reverseRecOn with
  | nil => cases e <;> exact iff_of_false (fun ⟨_, hb⟩ => nomatch hb) (fun ⟨_, hc, _⟩ => nomatch hc)
  | append_singleton calls c ih =>
    rw [run_concat, storedThrough_concat, ← ih]
    by_cases hs : Stores P e h c
    · exact iff_of_true ⟨_, get_exec_stores hs _⟩ (.inr hs)
    · rw [get_exec_other hs, or_iff_left hs]

/-- What it finds is the data of a put through it: no temporary file, and nothing cut short. -/
theorem get_run {e : Engine} {h : Hash} {b : Bytes} (hb : get e (run P calls) h = some b) :
    ∃ c ∈ calls, Stores P e h c ∧ c.data = b := by
  induction calls using List.reverseRecOn with
  | nil => cases e <;> cases hb
  | append_singleton calls c ih =>
    rw [run_concat] at hb
    have earlier (hb : get e (run P calls) h = some b) : ∃ c' ∈ calls ++ [c], Stores P e h c' ∧ c'.data = b := by
      obtain ⟨c', hc', hs⟩ := ih hb
      exact ⟨c', List.mem_append_left _ hc', hs⟩
    by_cases hs : Stores P e h c
    · rw [get_exec_stores hs] at hb
      cases hget : get e (run P calls) h with
      | some b' => exact earlier (by simpa [hget] using hb)
      | none => exact ⟨c, by simp, hs, by simpa [hget] using hb⟩
    · exact earlier (get_exec_other hs _ ▸ hb)

/-- So each finds what was put through either exactly if it was put through both or neither. -/
theorem reads_iff {h : Hash} :
    (∀ e, (∃ b, get e (run P calls) h = some b) ↔ ∃ e', StoredThrough P e' calls h) ↔
      (StoredThrough P .python calls h ↔ StoredThrough P .go calls h) := by
  have hany : (∃ e', StoredThrough P e' calls h) ↔ StoredThrough P .python calls h ∨ StoredThrough P .go calls h :=
    ⟨fun ⟨e, he⟩ => by cases e <;> [exact .inl he; exact .inr he], fun he => he.elim (⟨_, ·⟩) (⟨_, ·⟩)⟩
  simp only [exists_get_run_iff, hany]
  constructor
  · intro hall
    have hpython := hall .python
    have hgo := hall .go
    tauto
  · intro hsame e
    cases e <;> tauto

/-! ## One map -/

/-- What one map would do for a hash: both stores find it when it was stored
through either, what they find was put, and no put writes what is stored
through the other store. -/
structure OneMap (P : Prims) (calls : List Call) (h : Hash) : Prop where
  get_iff (e : Engine) : (∃ b, get e (run P calls) h = some b) ↔ ∃ e', StoredThrough P e' calls h
  has_iff (e : Engine) : has e (run P calls) h = true ↔ ∃ e', StoredThrough P e' calls h
  blob (e : Engine) (b : Bytes) : get e (run P calls) h = some b → ∃ c ∈ calls, (∃ e', Stores P e' h c) ∧ c.data = b
  noop (before : List Call) (c : Call) (after : List Call) : calls = before ++ c :: after → P.hashBytes c.data = h →
    (∃ e' ≠ c.engine, StoredThrough P e' before h) → c.exec P (run P before) = run P before

/-- Where no put writes what is stored through the other store, a hash is stored through one of them only. -/
theorem stored_once {h : Hash} (hnoop : ∀ before c after, calls = before ++ c :: after → P.hashBytes c.data = h →
    (∃ e' ≠ c.engine, StoredThrough P e' before h) → c.exec P (run P before) = run P before) {e e' : Engine}
    (he : StoredThrough P e calls h) (he' : StoredThrough P e' calls h) : e = e' := by
  induction calls using List.reverseRecOn generalizing e e' with
  | nil =>
    obtain ⟨_, hc, -⟩ := he
    cases hc
  | append_singleton calls c ih =>
    have earlier : ∀ {e e'}, StoredThrough P e calls h → StoredThrough P e' calls h → e = e' := by
      apply ih
      intro before c' after heq
      exact hnoop before c' (after ++ [c]) (by rw [heq, List.append_assoc, List.cons_append])
    -- the last put would write what is stored already
    have last : ∀ {e e'}, Stores P e h c → StoredThrough P e' calls h → e = e' := by
      intro e e' hs hstored
      by_contra hne
      have hsame := hnoop calls c [] rfl hs.2.2 ⟨e', fun heq => hne (hs.1.symm.trans heq.symm), hstored⟩
      have hget := get_exec_stores hs (run P calls)
      rw [hsame] at hget
      exact hne (earlier (exists_get_run_iff.mp ⟨_, hget⟩) hstored)
    obtain he | he := storedThrough_concat.mp he
    · obtain he' | he' := storedThrough_concat.mp he'
      · exact earlier he he'
      · exact (last he' he).symm
    · obtain he' | he' := storedThrough_concat.mp he'
      · exact last he he'
      · exact he.1.symm.trans he'.1

/-- The two stores are one map for a hash exactly when no put stores data with it. -/
theorem oneMap_iff (P : Prims) (calls : List Call) (h : Hash) :
    OneMap P calls h ↔ ∀ c ∈ calls, P.hashBytes c.data = h → ¬Finishes c := by
  constructor
  · intro hone c hc hh hcomplete
    have hany : ∃ e', StoredThrough P e' calls h := ⟨c.engine, c, hc, rfl, hcomplete, hh⟩
    have hpython := exists_get_run_iff.mp ((hone.get_iff .python).mpr hany)
    have hgo := exists_get_run_iff.mp ((hone.get_iff .go).mpr hany)
    cases stored_once hone.noop hpython hgo
  · intro hnone
    have hstored : ∀ {e}, ¬StoredThrough P e calls h := fun ⟨c, hc, hs⟩ => hnone c hc hs.2.2 hs.2.1
    have hget : ∀ e, ¬∃ b, get e (run P calls) h = some b := fun e hb => hstored (exists_get_run_iff.mp hb)
    have hany : ¬∃ e', StoredThrough P e' calls h := fun ⟨_, he⟩ => hstored he
    refine ⟨fun e => iff_of_false (hget e) hany, fun e => ?_, fun e b hb => absurd ⟨b, hb⟩ (hget e), ?_⟩
    · rw [has_eq, Option.isSome_iff_exists]
      exact iff_of_false (hget e) hany
    · rintro before c after rfl - ⟨e', -, c', hc', hs⟩
      exact absurd ⟨c', List.mem_append_left _ hc', hs⟩ hstored

/-- An empty blob put through `object_store.py`: `object_store.go` does not find
it, and puts it a second time. -/
theorem go_misses_python_blob :
    let put : Engine → Call := fun e => ⟨e, [], ⟨['0'], 0, none, true⟩⟩
    let h := reference.hashBytes []
    get .python (run reference [put .python]) h = some [] ∧ get .go (run reference [put .python]) h = none ∧
      has .go (run reference [put .python]) h = false ∧
      (put .go).exec reference (run reference [put .python]) (Go.ObjectStore.shardPath h) = some [] := by
  decide +kernel

end ArxDB.Proof.SharedObjects
