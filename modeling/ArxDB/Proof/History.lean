import ArxDB.Impl.Session
import ArxDB.Proof.Operations
import ArxDB.Reference.Prims

/-!
# The log and its verification

`Chain P es` says that `es` are the entries of a log that was only appended
to: numbered from 0, each verified, each linked to the entry before. Appending
under a matching key pair keeps it (`Chain.append`), so every run of calls
does (`run_chain`), and `verify_history` accepts a chain with its own root
(`Chain.verifyHistory`). What `verify_history` accepts is spelt out by
`verifyHistory_eq_true`.
-/

namespace ArxDB.Proof

open Impl Failing

variable {P : Prims}

/-! ## Entries and rows -/

theorem row_entry (e : LogEntry) : e.row.entry = .ok e := by
  simp only [LogRow.entry, LogEntry.row, Hash.new_raw]
  rfl

theorem row_inj {e e' : LogEntry} : e.row = e'.row ↔ e = e' := by
  constructor
  · intro h
    have := row_entry e
    rw [h, row_entry, Except.ok.injEq] at this
    exact this.symm
  · exact fun h => h ▸ rfl

theorem entry_eq_ok {r : LogRow} {e : LogEntry} : r.entry = .ok e ↔ r = e.row := by
  constructor
  · intro h
    simp only [LogRow.entry] at h
    cases h₁ : Hash.new r.entryHash with
    | error _ => simp only [h₁] at h; cases h
    | ok eh =>
      cases h₂ : Hash.new r.prevLogHash with
      | error _ => simp only [h₁, h₂] at h; cases h
      | ok ph =>
        simp only [h₁, h₂] at h
        cases h
        obtain ⟨_, _, _, _, _, _, _⟩ := r
        simp only [LogEntry.row, LogRow.mk.injEq, true_and, and_true]
        exact ⟨Hash.new_eq_ok.mp h₁, Hash.new_eq_ok.mp h₂⟩
  · rintro rfl
    exact row_entry e

theorem get_eq_some {log : Log} {seq : Int} {e : LogEntry} :
    AppendLog.get log seq = .ok (some e) ↔ AppendLog.row? log seq = some e.row := by
  unfold AppendLog.get
  split
  · rename_i r hr
    rw [hr, Option.some.injEq, ← entry_eq_ok]
    cases h : r.entry with
    | error _ => simp [Functor.map, Except.map]
    | ok e' => simp [Functor.map, Except.map]
  · rename_i h
    simp [h]

/-- What is read is a row of that number. -/
theorem mem_of_get {log : Log} {seq : Int} {e : LogEntry} (h : AppendLog.get log seq = .ok (some e)) :
    e.row ∈ log ∧ e.seq = seq := by
  rw [get_eq_some, AppendLog.row?] at h
  have hs := List.find?_some h
  exact ⟨List.mem_of_find?_eq_some h, of_decide_eq_true hs⟩

/-- Each entry is linked to the one before, the first one to `prev`. -/
def Linked : Hash → List LogEntry → Prop
  | _, [] => True
  | prev, e :: es => e.prevLogHash = prev ∧ Linked e.entryHash es

/-- The hash that the next entry links to. -/
def tipHash (prev : Hash) (es : List LogEntry) : Hash := es.foldl (fun _ e => e.entryHash) prev

theorem linked_concat {prev : Hash} {es : List LogEntry} {e : LogEntry} :
    Linked prev (es ++ [e]) ↔ Linked prev es ∧ e.prevLogHash = tipHash prev es := by
  induction es generalizing prev with
  | nil => simp [Linked, tipHash]
  | cons a es ih => simp only [List.cons_append, Linked, ih, and_assoc]; rfl

theorem linked_zero {prev : Hash} : ∀ {es : List LogEntry}, Linked prev es → ∀ h : 0 < es.length,
    es[0].prevLogHash = prev
  | _ :: _, hl, _ => hl.1

theorem linked_succ {prev : Hash} : ∀ {es : List LogEntry}, Linked prev es →
    ∀ {k : Nat} (h : k + 1 < es.length), es[k + 1].prevLogHash = es[k].entryHash
  | _ :: es, hl, 0, h => linked_zero hl.2 (by simpa using h)
  | _ :: es, hl, k + 1, h => linked_succ hl.2 (by simpa using h)

/-! ## Reading a log -/

theorem mapM_new (es : List LogEntry) :
    (es.map LogEntry.row).mapM (fun row => Hash.new row.entryHash) = .ok (es.map LogEntry.entryHash) := by
  induction es with
  | nil => rfl
  | cons e es ih =>
    rw [List.map_cons, List.mapM_cons, ih]
    simp only [LogEntry.row, Hash.new_raw]
    rfl

section Numbered

variable {es : List LogEntry} (hseq : ∀ i (h : i < es.length), es[i].seq = i)
include hseq

theorem row?_map_row {i : Nat} (h : i < es.length) : AppendLog.row? (es.map LogEntry.row) i = some es[i].row := by
  rw [AppendLog.row?, List.find?_eq_some_iff_getElem]
  refine ⟨by simp [LogEntry.row, hseq i h], i, by simpa using h, by simp, fun j hj => ?_⟩
  simp only [List.getElem_map, LogEntry.row, hseq j (hj.trans h), Bool.not_eq_true',
    decide_eq_false_iff_not]
  omega

theorem nodup_rows : (es.map LogEntry.row).Nodup := by
  refine List.Nodup.of_map LogRow.seq ?_
  rw [List.map_map, List.nodup_iff_injective_get]
  intro i j hij
  have hi := hseq i (by simpa using i.isLt)
  have hj := hseq j (by simpa using j.isLt)
  simp only [List.get_eq_getElem, List.getElem_map, Function.comp_apply, LogEntry.row, hi, hj] at hij
  exact Fin.ext (by omega)

/-- As many rows as there are in the log are all of them. -/
theorem perm_rows {log : Log} (hmem : ∀ e ∈ es, e.row ∈ log) (hlen : es.length = log.length) :
    log.Perm (es.map LogEntry.row) := by
  have hsub : es.map LogEntry.row ⊆ log := fun r hr => by
    obtain ⟨e, he, rfl⟩ := List.mem_map.mp hr
    exact hmem e he
  exact (((nodup_rows hseq).subperm hsub).perm_of_length_le (by simp [hlen])).symm

theorem row?_map_row_length : AppendLog.row? (es.map LogEntry.row) es.length = none := by
  rw [AppendLog.row?, List.find?_eq_none]
  intro r hr
  obtain ⟨e, he, rfl⟩ := List.mem_map.mp hr
  obtain ⟨j, hj, rfl⟩ := List.mem_iff_getElem.mp he
  simp only [LogEntry.row, hseq j hj, decide_eq_true_eq]
  omega

theorem get_map_row {i : Nat} (h : i < es.length) :
    AppendLog.get (es.map LogEntry.row) i = .ok (some es[i]) := by
  simp only [AppendLog.get, row?_map_row hseq h, row_entry]
  rfl

theorem prevHash_map_row :
    AppendLog.prevHash (es.map LogEntry.row) es.length = .ok (tipHash AppendLog.genesisPrevHash es) := by
  rcases List.eq_nil_or_concat' es with rfl | ⟨es', e, rfl⟩
  · rfl
  · have hr := row?_map_row hseq (i := es'.length) (by simp)
    have hn : ((es' ++ [e]).length : Int) ≠ 0 := by rw [List.length_append, List.length_singleton]; omega
    have hp : ((es' ++ [e]).length : Int) - 1 = es'.length := by rw [List.length_append]; simp
    rw [List.getElem_concat_length rfl] at hr
    rw [AppendLog.prevHash, if_neg hn, hp, hr]
    simp [LogEntry.row, Hash.new_raw, tipHash]

theorem entryHashes_map_row : AppendLog.entryHashes (es.map LogEntry.row) = .ok (es.map LogEntry.entryHash) := by
  rw [AppendLog.entryHashes, List.Pairwise.insertionSort_eq, mapM_new]
  rw [List.pairwise_iff_getElem]
  intro i j hi hj hij
  simp only [List.length_map] at hi hj
  simp only [List.getElem_map, LogEntry.row, hseq i hi, hseq j hj]
  omega

theorem rootHash_map_row : AppendLog.rootHash P (es.map LogEntry.row) =
    .ok (Merkle.rootHash P (es.map LogEntry.entryHash)) := by
  rw [AppendLog.rootHash, entryHashes_map_row hseq]
  rfl

end Numbered

/-! ## What `verify_history` accepts -/

theorem verifyHistoryFrom_eq_some {log : Log} {seqs : List Nat} {prev : Hash} {acc hs : List Hash} :
    Attest.verifyHistoryFrom P log seqs prev acc = .ok (some hs) ↔
      ∃ es, List.Forall₂ (fun (seq : Nat) e => AppendLog.get log seq = .ok (some e)) seqs es ∧
        (∀ e ∈ es, AppendLog.verifyEntry P e = .ok true) ∧ Linked prev es ∧
        hs = acc ++ es.map LogEntry.entryHash := by
  induction seqs generalizing prev acc with
  | nil => simp [Attest.verifyHistoryFrom, Linked, eq_comm]
  | cons seq seqs ih =>
    simp only [List.forall₂_cons_left_iff]
    constructor
    · intro h
      simp only [Attest.verifyHistoryFrom] at h
      match hg : AppendLog.get log seq with
      | .error _ => rw [hg] at h; cases h
      | .ok none => rw [hg] at h; cases h
      | .ok (some e) =>
        match hv : AppendLog.verifyEntry P e with
        | .error _ => rw [hg] at h; simp only [bind, Except.bind, hv] at h; cases h
        | .ok false => rw [hg] at h; simp only [bind, Except.bind, hv] at h; cases h
        | .ok true =>
          rw [hg] at h
          simp only [bind, Except.bind, hv] at h
          by_cases hp : e.prevLogHash = prev
          · simp only [hp, ne_eq, not_true_eq_false] at h
            obtain ⟨es, h₁, h₂, h₃, rfl⟩ := ih.mp h
            exact ⟨e :: es, ⟨e, es, rfl, h₁, rfl⟩, List.forall_mem_cons.mpr ⟨hv, h₂⟩, ⟨hp, h₃⟩, by simp⟩
          · simp only [hp, ne_eq, not_false_eq_true] at h
            cases h
    · rintro ⟨_, ⟨e, es, hg, h₁, rfl⟩, h₂, ⟨hp, h₃⟩, rfl⟩
      rw [List.forall_mem_cons] at h₂
      simp only [Attest.verifyHistoryFrom, hg, bind, Except.bind, h₂.1, hp, ne_eq, not_true_eq_false]
      exact ih.mpr ⟨es, h₁, h₂.2, h₃, by simp⟩

/-- The entries that `get` reads, from 0 to the length. -/
def Entries (log : Log) (es : List LogEntry) : Prop :=
  es.length = log.length ∧ ∀ i (h : i < es.length), AppendLog.get log i = .ok (some es[i])

theorem entries_iff {log : Log} {es : List LogEntry} : Entries log es ↔
    List.Forall₂ (fun (seq : Nat) e => AppendLog.get log seq = .ok (some e)) (List.range log.length) es := by
  rw [List.forall₂_iff_get]
  constructor
  · rintro ⟨hl, h⟩
    exact ⟨by simp [hl], fun i h₁ h₂ => by simpa using h i h₂⟩
  · rintro ⟨hl, h⟩
    rw [List.length_range] at hl
    exact ⟨hl.symm, fun i hi => by simpa using h i (by rw [List.length_range, hl]; exact hi) hi⟩

/-- No entry is at another place. -/
theorem Entries.mem_of_get {log : Log} {es : List LogEntry} (h : Entries log es) {seq : Int} {e : LogEntry}
    (hg : AppendLog.get log seq = .ok (some e)) : e ∈ es := by
  have row : ∀ i (hi : i < es.length), es[i].row ∈ log ∧ es[i].seq = i := fun i hi => Proof.mem_of_get (h.2 i hi)
  have hrows : log.Perm (es.map LogEntry.row) := by
    refine perm_rows (fun i hi => (row i hi).2) (fun e he => ?_) h.1
    obtain ⟨i, hi, rfl⟩ := List.mem_iff_getElem.mp he
    exact (row i hi).1
  obtain ⟨e', he', heq⟩ := List.mem_map.mp (hrows.subset (Proof.mem_of_get hg).1)
  rwa [← row_inj.mp heq]

/-- `verify_history` answers `True` exactly when every `seq` below the length
has an entry, all are verified and linked, and their hashes have the root. -/
theorem verifyHistory_eq_true {s : Storage} {root : Hash} :
    Attest.verifyHistory P s root = .ok true ↔
      ∃ es, Entries s.log es ∧ (∀ e ∈ es, AppendLog.verifyEntry P e = .ok true) ∧
        Linked AppendLog.genesisPrevHash es ∧ Merkle.rootHash P (es.map LogEntry.entryHash) = root := by
  have key := fun hs => @verifyHistoryFrom_eq_some P s.log (List.range s.log.length) AppendLog.genesisPrevHash [] hs
  simp only [← entries_iff, List.nil_append] at key
  rw [Attest.verifyHistory]
  rcases h : Attest.verifyHistoryFrom P s.log (List.range s.log.length) AppendLog.genesisPrevHash [] with _ | _ | hs
  · simp only [h, reduceCtorEq, false_iff, not_exists, not_and] at key
    simp only [bind, Except.bind, reduceCtorEq, false_iff, not_exists, not_and]
    exact fun es h₁ h₂ h₃ _ => key _ es h₁ h₂ h₃ rfl
  · simp only [h, Except.ok.injEq, reduceCtorEq, false_iff, not_exists, not_and] at key
    simp only [bind, Except.bind, pure, Except.pure, Except.ok.injEq, Bool.false_eq_true, false_iff, not_exists,
      not_and]
    exact fun es h₁ h₂ h₃ _ => key _ es h₁ h₂ h₃ rfl
  · simp only [h, Except.ok.injEq, Option.some.injEq] at key
    simp only [bind, Except.bind, pure, Except.pure, Except.ok.injEq, decide_eq_true_eq]
    constructor
    · rintro rfl
      obtain ⟨es, h₁, h₂, h₃, rfl⟩ := (key hs).mp rfl
      exact ⟨es, h₁, h₂, h₃, rfl⟩
    · rintro ⟨es, h₁, h₂, h₃, rfl⟩
      rw [(key _).mpr ⟨es, h₁, h₂, h₃, rfl⟩]

/-! ## Chains -/

/-- The entries of a log that was only appended to. -/
structure Chain (P : Prims) (es : List LogEntry) : Prop where
  seq : ∀ i (h : i < es.length), es[i].seq = i
  hashed : ∀ e ∈ es, e.entryHash = P.hashBytes e.payload
  linked : Linked AppendLog.genesisPrevHash es

theorem forall_mem_concat {α : Type} {p : α → Prop} {l : List α} {a : α} (hl : ∀ x ∈ l, p x) (ha : p a) :
    ∀ x ∈ l ++ [a], p x := by
  intro x hx
  rcases List.mem_append.mp hx with hx | hx
  · exact hl x hx
  · rwa [List.mem_singleton.mp hx]

/-- What is signed under a matching key pair is verified. -/
theorem Appended.verified {keys : Keys} {now : Int} {payload : Bytes} {log : Log} {e : LogEntry}
    (ha : Appended P keys now payload log e) (hk : P.KeyPair keys.priv keys.pub) :
    AppendLog.verifyEntry P e = .ok true := by
  obtain ⟨message, hm, hs⟩ := ha.signed
  rw [← ha.timestampNs, ← ha.signerPubkey] at hm
  rw [AppendLog.verifyEntry, if_neg (by rw [ha.payload, ha.entryHash]; exact fun h => h rfl), hm, ha.signerPubkey]
  exact hk.verify_sign hs

namespace Chain

variable {es : List LogEntry}

theorem nil : Chain P [] := ⟨by simp, by simp, trivial⟩

theorem entries (h : Chain P es) : Entries (es.map LogEntry.row) es :=
  ⟨by simp, fun _ => get_map_row h.seq⟩

/-- `verify_history` accepts a verified chain with its own root. -/
theorem verifyHistory (h : Chain P es) (hv : ∀ e ∈ es, AppendLog.verifyEntry P e = .ok true) {s : Storage}
    (hs : s.log = es.map LogEntry.row) :
    Attest.verifyHistory P s (Merkle.rootHash P (es.map LogEntry.entryHash)) = .ok true :=
  verifyHistory_eq_true.mpr ⟨es, hs ▸ h.entries, hv, h.linked, rfl⟩

/-- `append` continues the chain. -/
theorem append (h : Chain P es) {keys : Keys} {now : Int} {payload : Bytes} {e : LogEntry}
    (ha : Appended P keys now payload (es.map LogEntry.row) e) : Chain P (es ++ [e]) where
  seq i hi := by
    rw [List.length_append, List.length_singleton] at hi
    rcases Nat.lt_succ_iff_lt_or_eq.mp hi with hi | rfl
    · rw [List.getElem_append_left hi, h.seq i hi]
    · rw [List.getElem_concat_length rfl, ha.seq, List.length_map]
  hashed := forall_mem_concat h.hashed (by rw [ha.entryHash, ha.payload])
  linked := by
    have hp := ha.prevLogHash
    rw [List.length_map, prevHash_map_row h.seq, Except.ok.injEq] at hp
    exact linked_concat.mpr ⟨h.linked, hp.symm⟩

end Chain

/-! ## Runs -/

/-- The log after a call: as it was, or with one more entry. -/
def Extends (P : Prims) (keys : Keys) (now : Int) (log log' : Log) : Prop :=
  log' = log ∨ ∃ payload e, Appended P keys now payload log e ∧ log' = log ++ [e.row]

theorem commitFails_extends {keys : Keys} {now : Int} {premises : List Hash} {conclusion : Hash}
    {edgeData : Bytes} {proof : Option Bytes} {s s' : Storage}
    (h : CommitFails P keys now premises conclusion edgeData proof s s') : Extends P keys now s.log s'.log := by
  rcases h with ⟨h, -⟩ | ⟨e, ha, rfl⟩
  · exact .inl (by rw [Storage.log, h])
  · exact .inr ⟨_, e, ha, rfl⟩

theorem append_extends {keys : Keys} {now : Int} {payload : Bytes} {s : Storage} :
    WP (Storage.append P keys now payload) (fun _ (s' : Storage) => Extends P keys now s.log s'.log)
      (fun _ (s' : Storage) => Extends P keys now s.log s'.log) s := by
  refine append_wp.mono ?_ ?_
  · rintro e s' ⟨ha, rfl⟩
    exact .inr ⟨_, e, ha, rfl⟩
  · rintro - s' (rfl | ⟨e, ha, rfl⟩)
    · exact .inl rfl
    · exact .inr ⟨_, e, ha, rfl⟩

theorem commitRoster_extends {keys : Keys} {now : Int} {roster : Roster} {s : Storage} :
    WP (Attest.commitRoster P keys now roster) (fun _ (s' : Storage) => Extends P keys now s.log s'.log)
      (fun _ (s' : Storage) => Extends P keys now s.log s'.log) s := by
  refine .bind <| .statement (.inl rfl) <| .bind <| .read ?_
  split
  · refine .bind <| .lift (fun data _ => .bind ?_) fun _ _ => .inl rfl
    exact append_extends.mono (fun _ _ h => .pure h) fun _ _ h => h
  · refine .bind <| .statement (.inl rfl) <| .bind <| .read <| .bind <| .lift (fun entry0 _ => ?_) fun _ _ => .inl rfl
    cases entry0 with
    | none => exact .pure (.inl rfl)
    | some entry0 => exact .bind <| .lift (fun _ _ => .pure (.inl rfl)) fun _ _ => .inl rfl

/-- Whatever a call does, it adds at most one entry to the log, at its end. -/
theorem exec_extends (c : LogCall) (s : Storage) : Extends P c.keys c.now s.log (c.exec P s).log := by
  refine WP.state (I := fun (s' : Storage) => Extends P c.keys c.now s.log s'.log) ?_ c.fault
  rw [LogCall.prog]
  split
  · exact .bind <| append_extends.mono (fun _ _ h => .pure h) fun _ _ h => h
  · exact .bind <| commitRoster_extends.mono (fun _ _ h => .pure h) fun _ _ h => h
  · refine .bind <| commitEdgeTx_wp.mono ?_ fun _ _ h => commitFails_extends h
    rintro r s' ⟨-, ha, rfl⟩
    exact .pure (.inr ⟨_, r.2, ha, rfl⟩)

theorem foldl_prefix (calls : List LogCall) (s : Storage) : s.log <+: (calls.foldl (LogCall.exec P) s).log := by
  induction calls generalizing s with
  | nil => exact List.prefix_rfl
  | cons c calls ih =>
    refine List.IsPrefix.trans ?_ (ih _)
    rcases exec_extends (P := P) c s with h | ⟨_, e, -, h⟩
    · rw [h]
    · rw [h]
      exact List.prefix_append _ _

/-- Calls continue a chain, and a verified one if they are made under matching key pairs. -/
theorem foldl_chain (calls : List LogCall) {s : Storage} {es : List LogEntry} (hs : s.log = es.map LogEntry.row)
    (hc : Chain P es) :
    ∃ es', (calls.foldl (LogCall.exec P) s).log = es'.map LogEntry.row ∧ Chain P es' ∧
      ((∀ c ∈ calls, P.KeyPair c.keys.priv c.keys.pub) → (∀ e ∈ es, AppendLog.verifyEntry P e = .ok true) →
        ∀ e ∈ es', AppendLog.verifyEntry P e = .ok true) := by
  induction calls generalizing s es with
  | nil => exact ⟨es, hs, hc, fun _ hv => hv⟩
  | cons c calls ih =>
    rcases exec_extends (P := P) c s with h | ⟨_, e, ha, h⟩
    · obtain ⟨es', h₁, h₂, h₃⟩ := ih (h.trans hs) hc
      exact ⟨es', h₁, h₂, fun hk => h₃ (List.forall_mem_cons.mp hk).2⟩
    · rw [hs] at ha h
      have hs' : (c.exec P s).log = (es ++ [e]).map LogEntry.row := by rw [h, List.map_append]; rfl
      obtain ⟨es', h₁, h₂, h₃⟩ := ih hs' (hc.append ha)
      refine ⟨es', h₁, h₂, fun hk hv => ?_⟩
      rw [List.forall_mem_cons] at hk
      exact h₃ hk.2 (forall_mem_concat hv (ha.verified hk.1))

theorem run_chain (calls : List LogCall) :
    ∃ es, (LogCall.run P calls).log = es.map LogEntry.row ∧ Chain P es ∧
      ((∀ c ∈ calls, P.KeyPair c.keys.priv c.keys.pub) → ∀ e ∈ es, AppendLog.verifyEntry P e = .ok true) := by
  obtain ⟨es, h₁, h₂, h₃⟩ := foldl_chain (P := P) calls (s := .empty) rfl .nil
  exact ⟨es, h₁, h₂, fun hk => h₃ hk (by simp)⟩

/-- In every state that calls under matching key pairs lead to, whichever of
them fail: the rows are those of a chain, `verify_history` accepts them with
their own root, and further calls only add rows at the end. -/
theorem run_verifyHistory (calls : List LogCall) (hk : ∀ c ∈ calls, P.KeyPair c.keys.priv c.keys.pub) :
    (∃ es : List LogEntry, (LogCall.run P calls).log = es.map LogEntry.row ∧
      (∀ i (h : i < es.length), es[i].seq = i) ∧
      (∀ e ∈ es, AppendLog.verifyEntry P e = .ok true) ∧
      (∀ h : 0 < es.length, es[0].prevLogHash = AppendLog.genesisPrevHash) ∧
      ∀ k (h : k + 1 < es.length), es[k + 1].prevLogHash = es[k].entryHash) ∧
    (∃ root, AppendLog.rootHash P (LogCall.run P calls).log = .ok root ∧
      Attest.verifyHistory P (LogCall.run P calls) root = .ok true) ∧
    ∀ more, (LogCall.run P calls).log <+: (LogCall.run P (calls ++ more)).log := by
  obtain ⟨es, hs, hc, hv⟩ := run_chain calls
  refine ⟨⟨es, hs, hc.seq, hv hk, ?_, ?_⟩, ⟨_, ?_, hc.verifyHistory (hv hk) hs⟩, fun more => ?_⟩
  · exact linked_zero hc.linked
  · exact fun k h => linked_succ hc.linked h
  · rw [hs, rootHash_map_row hc.seq]
  · rw [LogCall.run, LogCall.run, List.foldl_append]
    exact foldl_prefix more _

section Example

open Reference

/-- An append, a commit that fails at its seventh statement, the genesis
roster (too late), and a commit that succeeds. -/
def session : List LogCall :=
  let keys : Keys := ⟨List.replicate 32 7, List.replicate 32 7⟩
  let node := reference.hashBytes [5]
  [⟨keys, 10, none, .append [1]⟩, ⟨keys, 20, some 6, .commitEdgeTx [node] node [2] (some [3])⟩,
    ⟨keys, 30, none, .commitRoster ⟨[], by simp, by simp, by simp⟩⟩,
    ⟨keys, 40, none, .commitEdgeTx [node] node [2] (some [3])⟩]

theorem run_verifyHistory_session :
    (LogCall.run reference session).log.length = 2 ∧
      ∃ root, AppendLog.rootHash reference (LogCall.run reference session).log = .ok root ∧
        Attest.verifyHistory reference (LogCall.run reference session) root = .ok true :=
  ⟨by decide +kernel, (run_verifyHistory session (by simp [session, reference_keyPair])).2.1⟩

end Example

end ArxDB.Proof
