import ArxDB.Proof.Encoding
import ArxDB.Proof.Tamper

/-!
# Malformed columns

`verify_history` goes up from entry 0. It raises exactly where the first row
that does not pass has a column of a wrong length that is looked at before
another check fails (`verifyHistoryFrom_eq_error`); on every other content it
decides whether the history is valid (`decides_history_iff`).
-/

namespace ArxDB.Proof

open Impl Failing

variable {P : Prims} {log : Log} {es : List LogEntry}

/-! ## One row -/

/-- A row as SQLite holds it: integers of 64 bits, and no BLOB that CBOR could not head. -/
structure Storable (r : LogRow) : Prop where
  seq : -2 ^ 63 ≤ r.seq ∧ r.seq < 2 ^ 63
  timestampNs : -2 ^ 63 ≤ r.timestampNs ∧ r.timestampNs < 2 ^ 63
  signerPubkey : r.signerPubkey.length < 2 ^ 64

/-- What the checks of one entry ask, besides its link: its hash is that of
its payload, and its signature, of the right size, verifies under its key. -/
structure Attested (P : Prims) (e : LogEntry) : Prop where
  hashed : e.entryHash = P.hashBytes e.payload
  key_size : e.signerPubkey.length = 32
  signature_size : e.signature.length = 64
  signed : ∃ message, AppendLog.signatureMessage P e.seq e.timestampNs e.signerPubkey e.entryHash e.prevLogHash =
    .ok message ∧ P.ed25519Verify e.signerPubkey message e.signature = true

/-- The row makes the checks raise: a hash has a wrong length, or the payload
is intact and the key or the signature has a wrong length. -/
def Malformed (P : Prims) (r : LogRow) : Prop :=
  r.entryHash.length ≠ 34 ∨ r.prevLogHash.length ≠ 34 ∨
    (r.entryHash = (P.hashBytes r.payload).raw ∧ (r.signerPubkey.length ≠ 32 ∨ r.signature.length ≠ 64))

theorem hash_new_eq_error {raw : Bytes} : (∃ err, Hash.new raw = .error err) ↔ raw.length ≠ 34 := by
  unfold Hash.new
  split
  · simp [*]
  · simp [*]

theorem signatureMessage_ok (hc : P.CborTotal) {e : LogEntry} (hs : Storable e.row) :
    ∃ message, AppendLog.signatureMessage P e.seq e.timestampNs e.signerPubkey e.entryHash e.prevLogHash =
      .ok message := by
  exact hc.message.mpr
    ⟨plain_int hs.seq.1 hs.seq.2, plain_int hs.timestampNs.1 hs.timestampNs.2, .bytes hs.signerPubkey⟩

theorem attested_iff {e : LogEntry} : Attested P e ↔ AppendLog.verifyEntry P e = .ok true := by
  rw [verifyEntry_eq_true]
  constructor
  · rintro ⟨hh, hk, hsig, message, hm, hv⟩
    exact ⟨hh, message, hm, by simp [Prims.verify, hk, hsig, hv]⟩
  · rintro ⟨hh, message, hm, hv⟩
    unfold Prims.verify at hv
    split_ifs at hv with hk hsig
    exact ⟨hh, not_not.mp hk, not_not.mp hsig, message, hm, Except.ok.inj hv⟩

theorem verifyEntry_eq_error (hc : P.CborTotal) {e : LogEntry} (hs : Storable e.row) :
    (∃ err, AppendLog.verifyEntry P e = .error err) ↔
      e.entryHash = P.hashBytes e.payload ∧ (e.signerPubkey.length ≠ 32 ∨ e.signature.length ≠ 64) := by
  obtain ⟨message, hm⟩ := signatureMessage_ok hc hs
  by_cases hh : P.hashBytes e.payload = e.entryHash
  · by_cases hk : e.signerPubkey.length = 32
    · by_cases hsig : e.signature.length = 64
      · simp [AppendLog.verifyEntry, hh, hm, bind, Except.bind, Prims.verify, hk, hsig]
      · simp [AppendLog.verifyEntry, hh, hm, bind, Except.bind, Prims.verify, hk, hsig]
    · simp [AppendLog.verifyEntry, hh, hm, bind, Except.bind, Prims.verify, hk]
  · simp [AppendLog.verifyEntry, hh, Ne.symm hh]

theorem get_eq_error {seq : Int} : (∃ err, AppendLog.get log seq = .error err) ↔
    ∃ r, AppendLog.row? log seq = some r ∧ (r.entryHash.length ≠ 34 ∨ r.prevLogHash.length ≠ 34) := by
  unfold AppendLog.get
  cases hr : AppendLog.row? log seq with
  | none => simp
  | some r =>
    simp only [Option.some.injEq, exists_eq_left', ← hash_new_eq_error]
    cases h₁ : Hash.new r.entryHash with
    | error err => simp [LogRow.entry, h₁, bind, Except.bind, Functor.map, Except.map]
    | ok h =>
      cases h₂ : Hash.new r.prevLogHash with
      | error err => simp [LogRow.entry, h₁, h₂, bind, Except.bind, Functor.map, Except.map]
      | ok h' => simp [LogRow.entry, h₁, h₂, bind, Except.bind, pure, Except.pure, Functor.map, Except.map]

/-! ## The loop -/

/-- The row of this number makes the checks raise. -/
def Stuck (P : Prims) (log : Log) (seq : Nat) : Prop :=
  (∃ err, AppendLog.get log seq = .error err) ∨
    ∃ e, AppendLog.get log seq = .ok (some e) ∧ ∃ err, AppendLog.verifyEntry P e = .error err

/-- The rows before `seq` pass, and the row of that number makes the checks raise. -/
def StuckAt (P : Prims) (log : Log) (seqs : List Nat) (prev : Hash) : Prop :=
  ∃ pre seq post es, seqs = pre ++ seq :: post ∧
    List.Forall₂ (fun (seq : Nat) e => AppendLog.get log seq = .ok (some e)) pre es ∧
    (∀ e ∈ es, AppendLog.verifyEntry P e = .ok true) ∧ Linked prev es ∧ Stuck P log seq

theorem stuckAt_cons {seq : Nat} {seqs : List Nat} {prev : Hash} : StuckAt P log (seq :: seqs) prev ↔
    Stuck P log seq ∨ ∃ e, AppendLog.get log seq = .ok (some e) ∧ AppendLog.verifyEntry P e = .ok true ∧
      e.prevLogHash = prev ∧ StuckAt P log seqs e.entryHash := by
  constructor
  · rintro ⟨_ | ⟨_, pre⟩, seq', post, es, hseqs, hread, hv, hl, hstuck⟩
    · cases hseqs
      exact .inl hstuck
    · cases hseqs
      cases hread with
      | cons hg hread =>
        rw [List.forall_mem_cons] at hv
        exact .inr ⟨_, hg, hv.1, hl.1, pre, seq', post, _, rfl, hread, hv.2, hl.2, hstuck⟩
  · rintro (h | ⟨e, hg, hv, rfl, pre, seq', post, es, rfl, hread, hvs, hl, hstuck⟩)
    · exact ⟨[], seq, seqs, [], rfl, .nil, by simp, trivial, h⟩
    · exact ⟨seq :: pre, seq', post, e :: es, rfl, .cons hg hread, List.forall_mem_cons.mpr ⟨hv, hvs⟩,
        ⟨rfl, hl⟩, hstuck⟩

/-- The loop raises exactly where a row that it gets to makes the checks raise. -/
theorem verifyHistoryFrom_eq_error {seqs : List Nat} {prev : Hash} {acc : List Hash} :
    (∃ err, Attest.verifyHistoryFrom P log seqs prev acc = .error err) ↔ StuckAt P log seqs prev := by
  induction seqs generalizing prev acc with
  | nil => simp [Attest.verifyHistoryFrom, StuckAt]
  | cons seq seqs ih =>
    rw [stuckAt_cons, Stuck]
    simp only [Attest.verifyHistoryFrom]
    rcases AppendLog.get log seq with _ | _ | e
    · simp [bind, Except.bind]
    · simp [bind, Except.bind, pure, Except.pure]
    · rcases hv : AppendLog.verifyEntry P e with _ | _ | _
      · simp [bind, Except.bind, hv]
      · simp [bind, Except.bind, hv, pure, Except.pure]
      · by_cases hp : e.prevLogHash = prev
        · simp [bind, Except.bind, hv, hp, ih]
        · simp [bind, Except.bind, hv, hp, pure, Except.pure]

/-! ## The rows -/

/-- Rows of the log, from number 0, that pass every check. -/
structure Passed (P : Prims) (log : Log) (es : List LogEntry) : Prop where
  mem : ∀ e ∈ es, e.row ∈ log
  seq : ∀ i (h : i < es.length), es[i].seq = i
  attested : ∀ e ∈ es, Attested P e
  linked : Linked AppendLog.genesisPrevHash es

/-- The rows are exactly those of `es`, numbered from 0, and all pass: their
hashes, of the right size by their type, are those of the payloads, the
signatures verify, and the links start at the genesis sentinel; and the
entries have this Merkle root. -/
structure ValidHistory (P : Prims) (log : Log) (root : Hash) (es : List LogEntry) : Prop where
  rows : log.Perm (es.map LogEntry.row)
  seq : ∀ i (h : i < es.length), es[i].seq = i
  attested : ∀ e ∈ es, Attested P e
  linked : Linked AppendLog.genesisPrevHash es
  root : Merkle.rootHash P (es.map LogEntry.entryHash) = root

namespace Passed

variable {es : List LogEntry} (h : Passed P log es)
include h

theorem subset : es.map LogEntry.row ⊆ log := by
  intro r hr
  obtain ⟨e, he, rfl⟩ := List.mem_map.mp hr
  exact h.mem e he

/-- As many rows as there are in the log are all of them. -/
theorem perm (hlen : es.length = log.length) : log.Perm (es.map LogEntry.row) :=
  perm_rows h.seq h.mem hlen

/-- A row of the next number is one more. -/
theorem lt_length {r : LogRow} (hr : r ∈ log) (hs : r.seq = es.length) : es.length < log.length := by
  have hnot : r ∉ es.map LogEntry.row := by
    intro hmem
    obtain ⟨e, he, rfl⟩ := List.mem_map.mp hmem
    obtain ⟨i, hi, rfl⟩ := List.mem_iff_getElem.mp he
    rw [LogEntry.row, h.seq i hi] at hs
    dsimp only at hs
    omega
  have hsub : r :: es.map LogEntry.row ⊆ log := List.cons_subset.mpr ⟨hr, h.subset⟩
  have := ((List.nodup_cons.mpr ⟨hnot, nodup_rows h.seq⟩).subperm hsub).length_le
  simpa using this

end Passed

section Distinct

variable (hseq : (log.map LogRow.seq).Nodup)
include hseq

theorem row?_eq_some {seq : Int} {r : LogRow} : AppendLog.row? log seq = some r ↔ r ∈ log ∧ r.seq = seq := by
  constructor
  · intro h
    exact ⟨List.mem_of_find?_eq_some h, by simpa using List.find?_some h⟩
  · rintro ⟨hr, rfl⟩
    obtain ⟨r', hr'⟩ := Option.isSome_iff_exists.mp (List.find?_isSome (p := (·.seq = r.seq)).mpr ⟨r, hr, by simp⟩)
    have hs : r'.seq = r.seq := by simpa using List.find?_some hr'
    rw [AppendLog.row?, hr', List.inj_on_of_nodup_map hseq (List.mem_of_find?_eq_some hr') hr hs]

theorem passed_iff {es : List LogEntry} : Passed P log es ↔
    (∀ i (h : i < es.length), AppendLog.get log i = .ok (some es[i])) ∧
      (∀ e ∈ es, AppendLog.verifyEntry P e = .ok true) ∧ Linked AppendLog.genesisPrevHash es := by
  constructor
  · rintro ⟨hm, hs, ha, hl⟩
    refine ⟨fun i h => ?_, fun e he => attested_iff.mp (ha e he), hl⟩
    exact get_eq_some.mpr ((row?_eq_some hseq).mpr ⟨hm _ (List.getElem_mem h), hs i h⟩)
  · rintro ⟨hg, hv, hl⟩
    have row : ∀ i (h : i < es.length), es[i].row ∈ log ∧ es[i].seq = i := fun i h => mem_of_get (hg i h)
    refine ⟨fun e he => ?_, fun i h => (row i h).2, fun e he => attested_iff.mpr (hv e he), hl⟩
    obtain ⟨i, h, rfl⟩ := List.mem_iff_getElem.mp he
    exact (row i h).1

theorem verifyHistory_valid {s : Storage} (hs : s.log = log) {root : Hash} :
    Attest.verifyHistory P s root = .ok true ↔ ∃ es, ValidHistory P s.log root es := by
  subst hs
  rw [verifyHistory_eq_true]
  constructor
  · rintro ⟨es, ⟨hlen, hg⟩, hv, hl, hroot⟩
    have hp := (passed_iff hseq).mpr ⟨hg, hv, hl⟩
    exact ⟨es, hp.perm hlen, hp.seq, hp.attested, hl, hroot⟩
  · rintro ⟨es, hrows, hes, ha, hl, hroot⟩
    have hp : Passed P s.log es := ⟨fun e he => hrows.mem_iff.mpr (List.mem_map_of_mem he), hes, ha, hl⟩
    obtain ⟨hg, hv, -⟩ := (passed_iff hseq).mp hp
    exact ⟨es, ⟨by simpa using hrows.length_eq.symm, hg⟩, hv, hl, hroot⟩

/-- Where the loop over all numbers raises. -/
theorem stuckAt_range : StuckAt P log (List.range log.length) AppendLog.genesisPrevHash ↔
    ∃ es, Passed P log es ∧ es.length < log.length ∧ Stuck P log es.length := by
  constructor
  · rintro ⟨pre, seq, post, es, hrange, hread, hv, hl, hstuck⟩
    have hlen : pre.length < log.length := by
      have := congrArg List.length hrange
      rw [List.length_range, List.length_append, List.length_cons] at this
      omega
    have hpre : pre = List.range pre.length := by
      have := congrArg (List.take pre.length) hrange
      rw [List.take_left', List.take_range, min_eq_left hlen.le] at this
      · exact this.symm
      · rfl
    have hseq' : seq = pre.length := by
      have := congrArg (·[pre.length]?) hrange
      simpa [hlen] using this.symm
    rw [hpre] at hread
    obtain ⟨hes, hg⟩ := List.forall₂_iff_get.mp hread
    rw [List.length_range] at hes
    refine ⟨es, (passed_iff hseq).mpr ⟨fun i h => ?_, hv, hl⟩, hes ▸ hlen, by rwa [← hes, ← hseq']⟩
    simpa using hg i (by rw [List.length_range]; omega) h
  · rintro ⟨es, hp, hlen, hstuck⟩
    obtain ⟨hg, hv, hl⟩ := (passed_iff hseq).mp hp
    obtain ⟨post, hpost⟩ : List.range (es.length + 1) <+: List.range log.length := by
      have := List.take_prefix (es.length + 1) (List.range log.length)
      rwa [List.take_range, min_eq_left hlen] at this
    refine ⟨List.range es.length, es.length, post, es, ?_, ?_, hv, hl, hstuck⟩
    · rw [← hpost, List.range_succ, List.append_assoc, List.singleton_append]
    · rw [List.forall₂_iff_get]
      exact ⟨by simp, fun i h₁ h₂ => by simpa using hg i h₂⟩

theorem stuck_iff (hc : P.CborTotal) (hst : ∀ r ∈ log, Storable r) {seq : Nat} :
    Stuck P log seq ↔ ∃ r ∈ log, r.seq = seq ∧ Malformed P r := by
  constructor
  · rintro (h | ⟨e, hg, h⟩)
    · obtain ⟨r, hr, hsize⟩ := get_eq_error.mp h
      obtain ⟨hmem, hs⟩ := (row?_eq_some hseq).mp hr
      exact ⟨r, hmem, hs, hsize.elim .inl fun h => .inr (.inl h)⟩
    · obtain ⟨hmem, hs⟩ := (row?_eq_some hseq).mp (get_eq_some.mp hg)
      obtain ⟨hh, hsize⟩ := (verifyEntry_eq_error hc (hst _ hmem)).mp h
      exact ⟨e.row, hmem, hs, .inr (.inr ⟨congrArg Hash.raw hh, hsize⟩)⟩
  · rintro ⟨r, hmem, hs, hmal⟩
    have hrow := (row?_eq_some hseq).mpr ⟨hmem, hs⟩
    by_cases h₁ : r.entryHash.length = 34
    · by_cases h₂ : r.prevLogHash.length = 34
      · obtain ⟨hh, hsize⟩ := (hmal.resolve_left (not_not.mpr h₁)).resolve_left (not_not.mpr h₂)
        let e : LogEntry :=
          ⟨r.seq, r.timestampNs, r.signerPubkey, ⟨r.entryHash, h₁⟩, ⟨r.prevLogHash, h₂⟩, r.signature, r.payload⟩
        exact .inr ⟨e, get_eq_some.mpr hrow, (verifyEntry_eq_error hc (e := e) (hst r hmem)).mpr ⟨Hash.ext hh, hsize⟩⟩
      · exact .inl (get_eq_error.mpr ⟨r, hrow, .inr h₂⟩)
    · exact .inl (get_eq_error.mpr ⟨r, hrow, .inl h₁⟩)

end Distinct

/-- `verify_history` raises exactly where the rows before a malformed one pass. -/
theorem verifyHistory_eq_error (hc : P.CborTotal) {s : Storage} (hseq : (s.log.map LogRow.seq).Nodup)
    (hst : ∀ r ∈ s.log, Storable r) (root : Hash) :
    (∃ err, Attest.verifyHistory P s root = .error err) ↔
      ∃ es, Passed P s.log es ∧ ∃ r ∈ s.log, r.seq = es.length ∧ Malformed P r := by
  have hraise : (∃ err, Attest.verifyHistory P s root = .error err) ↔
      ∃ err, Attest.verifyHistoryFrom P s.log (List.range s.log.length) AppendLog.genesisPrevHash [] = .error err := by
    rw [Attest.verifyHistory]
    rcases Attest.verifyHistoryFrom P s.log (List.range s.log.length) AppendLog.genesisPrevHash [] with _ | _ | hs
    all_goals simp [bind, Except.bind, pure, Except.pure]
  rw [hraise, verifyHistoryFrom_eq_error, stuckAt_range hseq]
  simp only [stuck_iff hseq hc hst]
  constructor
  · rintro ⟨es, hp, -, h⟩
    exact ⟨es, hp, h⟩
  · rintro ⟨es, hp, r, hr, hs, hmal⟩
    exact ⟨es, hp, hp.lt_length hr hs, r, hr, hs, hmal⟩

/-- `verify_history` decides whether the history is valid, without raising,
unless the rows before a malformed one pass. -/
theorem decides_history_iff (hc : P.CborTotal) (s : Storage) (hseq : (s.log.map LogRow.seq).Nodup)
    (hst : ∀ r ∈ s.log, Storable r) (root : Hash) :
    (∃ b, Attest.verifyHistory P s root = .ok b ∧ (b = true ↔ ∃ es, ValidHistory P s.log root es)) ↔
      ¬ ∃ es, Passed P s.log es ∧ ∃ r ∈ s.log, r.seq = es.length ∧ Malformed P r := by
  rw [← verifyHistory_eq_error hc hseq hst root, ← verifyHistory_valid hseq rfl]
  cases Attest.verifyHistory P s root with
  | error err => simp
  | ok b => simp

section Example

open Reference

/-- The row of one append, its signature cut to one byte. -/
def cutSignature : Storage :=
  { Storage.empty with db := ⟨.empty, (oneEntry 10 7).log.map fun r => { r with signature := [1] }⟩ }

theorem cutSignature_stored : ∀ r ∈ cutSignature.log, Storable r := by
  intro r hr
  obtain rfl := List.mem_singleton.mp hr
  exact ⟨by decide, by decide, by decide⟩

/-- The history is not valid, and the check raises. -/
theorem cut_signature_raises : (∀ root, Attest.verifyHistory reference cutSignature root = .error .valueError) ∧
    (cutSignature.log.map LogRow.seq).Nodup ∧ (∀ r ∈ cutSignature.log, Storable r) ∧
    ¬ ∀ (s : Storage) (root : Hash), (s.log.map LogRow.seq).Nodup → (∀ r ∈ s.log, Storable r) →
      ∃ b, Attest.verifyHistory reference s root = .ok b ∧ (b = true ↔ ∃ es, ValidHistory reference s.log root es) := by
  have hraise : ∀ root, Attest.verifyHistory reference cutSignature root = .error .valueError := by
    intro root
    have hloop : Attest.verifyHistoryFrom reference cutSignature.log (List.range cutSignature.log.length)
        AppendLog.genesisPrevHash [] = .error .valueError := by decide +kernel
    rw [Attest.verifyHistory, hloop]
    rfl
  refine ⟨hraise, by decide +kernel, cutSignature_stored, fun h => ?_⟩
  obtain ⟨b, hb, -⟩ := h cutSignature AppendLog.genesisPrevHash (by decide +kernel) cutSignature_stored
  rw [hraise] at hb
  cases hb

theorem decides_history_cut : (∃ b, Attest.verifyHistory reference cutSignature AppendLog.genesisPrevHash = .ok b ∧
      (b = true ↔ ∃ es, ValidHistory reference cutSignature.log AppendLog.genesisPrevHash es)) ↔
    ¬ ∃ es, Passed reference cutSignature.log es ∧ ∃ r ∈ cutSignature.log, r.seq = es.length ∧ Malformed reference r :=
  decides_history_iff reference_cborTotal cutSignature (by decide +kernel) cutSignature_stored _

end Example

end ArxDB.Proof
