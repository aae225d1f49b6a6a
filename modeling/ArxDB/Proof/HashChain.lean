import ArxDB.Proof.History
import ArxDB.Reference.Prims

/-!
# What an entry commits to

`prev_log_hash` is the hash of the previous payload: it covers none of the
other fields of the entry before, its own link included. So the final entry
of a valid log determines the log exactly when there is no other entry
(`final_entry_determines_iff`); an earlier one can be signed again at another
time, or by someone else (`exists_resign`).
-/

namespace ArxDB.Proof

open Impl

variable {P : Prims}

/-- Every entry passes `verify_entry`, and the links are as `append` makes them. -/
def ValidLog (P : Prims) (es : List LogEntry) : Prop :=
  (∀ e ∈ es, AppendLog.verifyEntry P e = .ok true) ∧ Linked AppendLog.genesisPrevHash es

theorem verifyEntry_eq_true {e : LogEntry} : AppendLog.verifyEntry P e = .ok true ↔
    e.entryHash = P.hashBytes e.payload ∧
      ∃ message, AppendLog.signatureMessage P e.seq e.timestampNs e.signerPubkey e.entryHash e.prevLogHash =
        .ok message ∧ P.verify e.signerPubkey message e.signature = .ok true := by
  unfold AppendLog.verifyEntry
  split
  · rename_i h
    simp only [Except.ok.injEq, Bool.false_eq_true, false_iff, not_and]
    exact fun h' => absurd h'.symm h
  · rename_i h
    rw [not_not] at h
    rcases AppendLog.signatureMessage P e.seq e.timestampNs e.signerPubkey e.entryHash e.prevLogHash with _ | m
    · simp [bind, Except.bind]
    · simp only [bind, Except.bind, h, true_and, Except.ok.injEq, exists_eq_left']

theorem hashBytes_ne_genesis (m : Bytes) : P.hashBytes m ≠ AppendLog.genesisPrevHash := by
  intro h
  have := congrArg (fun h : Hash => h.raw.head?) h
  simp [Prims.hashBytes, AppendLog.genesisPrevHash, List.replicate] at this

section Resign

variable (hc : P.CborTotal) {keys : Keys} (hk : P.KeyPair keys.priv keys.pub)
include hc hk

/-- Whoever has a key pair can sign an entry again. -/
theorem exists_resign {e : LogEntry} (he : AppendLog.verifyEntry P e = .ok true) {t : Int} (h₀ : 0 ≤ t)
    (h₁ : t < 2 ^ 63) : ∃ e' : LogEntry, e'.timestampNs = t ∧ e'.signerPubkey = keys.pub ∧ e'.seq = e.seq ∧
      e'.payload = e.payload ∧ e'.entryHash = e.entryHash ∧ e'.prevLogHash = e.prevLogHash ∧
      AppendLog.verifyEntry P e' = .ok true := by
  obtain ⟨hh, m, hm, -⟩ := verifyEntry_eq_true.mp he
  obtain ⟨hseq, -, -⟩ := hc.message.mp ⟨m, hm⟩
  obtain ⟨m', hm'⟩ : ∃ m', AppendLog.signatureMessage P e.seq t keys.pub e.entryHash e.prevLogHash = .ok m' := by
    exact hc.message.mpr ⟨hseq, plain_int (by omega) h₁, .bytes (by rw [hk.pub_size]; decide)⟩
  obtain ⟨sig, hs⟩ : ∃ sig, P.sign keys.priv m' = .ok sig := ⟨_, if_pos hk.priv_size⟩
  exact ⟨⟨e.seq, t, keys.pub, e.entryHash, e.prevLogHash, sig, e.payload⟩, rfl, rfl, rfl, rfl, rfl, rfl,
    verifyEntry_eq_true.mpr ⟨hh, m', hm', hk.verify_sign hs⟩⟩

end Resign

/-- A log of one entry is the only valid log that ends in it: no payload hashes to the genesis sentinel. -/
theorem eq_of_getLast?_singleton {e : LogEntry} (hl : ValidLog P [e]) {l' : List LogEntry} (hl' : ValidLog P l')
    (h : l'.getLast? = some e) : l' = [e] := by
  obtain ⟨l, rfl⟩ := List.getLast?_eq_some_iff.mp h
  rcases List.eq_nil_or_concat' l with rfl | ⟨l, d, rfl⟩
  · rfl
  · have hp := (linked_concat.mp hl'.2).2
    rw [hl.2.1] at hp
    obtain ⟨hd, -⟩ := verifyEntry_eq_true.mp (hl'.1 d (by simp))
    refine absurd ?_ (hashBytes_ne_genesis (P := P) d.payload)
    rw [hp, ← hd, tipHash, List.foldl_append]
    rfl

/-- The final entry of a valid log determines the log exactly when there is no other entry. -/
theorem final_entry_determines_iff (hc : P.CborTotal) (hk : ∃ keys : Keys, P.KeyPair keys.priv keys.pub)
    {l : List LogEntry} (hl : ValidLog P l) :
    (∀ l', ValidLog P l' → l'.getLast? = l.getLast? → l' = l) ↔ l.length ≤ 1 := by
  constructor
  · intro h
    match l, hl, h with
    | [], _, _ => simp
    | [_], _, _ => simp
    | d :: e :: l, hl, h =>
      obtain ⟨keys, hk⟩ := hk
      obtain ⟨t, h₀, h₁, ht⟩ : ∃ t : Int, 0 ≤ t ∧ t < 2 ^ 63 ∧ t ≠ d.timestampNs := by
        rcases eq_or_ne d.timestampNs 0 with h | h
        · exact ⟨1, by decide, by decide, by rw [h]; decide⟩
        · exact ⟨0, le_rfl, by decide, h.symm⟩
      obtain ⟨d', ht', -, -, -, hh, hp, hv⟩ := exists_resign hc hk (hl.1 d List.mem_cons_self) h₀ h₁
      have hvalid : ValidLog P (d' :: e :: l) := by
        refine ⟨List.forall_mem_cons.mpr ⟨hv, fun x hx => hl.1 x (List.mem_cons_of_mem _ hx)⟩, ?_⟩
        exact ⟨hp.trans hl.2.1, hl.2.2.1.trans hh.symm, hl.2.2.2⟩
      have := h _ hvalid (by simp)
      rw [List.cons.injEq] at this
      exact absurd (ht'.symm.trans (congrArg _ this.1)) ht
  · intro h l' hl' hlast
    match l, hl, h with
    | [], _, _ => simpa using hlast
    | [e], hl, _ => exact eq_of_getLast?_singleton hl hl' hlast

section Example

open Reference

/-- The entry of a payload, signed at time `t` under a key of `x`. -/
def signedAt (x : UInt8) (seq t : Int) (payload : Bytes) (prevLogHash : Hash) : LogEntry :=
  let pub := List.replicate 32 x
  let entryHash := reference.hashBytes payload
  let message := (AppendLog.signatureMessage reference seq t pub entryHash prevLogHash).toOption.getD []
  ⟨seq, t, pub, entryHash, prevLogHash, (reference.ed25519Sign pub message).toList, payload⟩

/-- The payloads `[1]`, at time `t`, and `[2]`, at 20. -/
def twoEntries (t : Int) : List LogEntry :=
  [signedAt 7 0 t [1] AppendLog.genesisPrevHash, signedAt 7 1 20 [2] (reference.hashBytes [1])]

theorem twoEntries_valid {t : Int} (h : AppendLog.verifyEntry reference
    (signedAt 7 0 t [1] AppendLog.genesisPrevHash) = .ok true) : ValidLog reference (twoEntries t) :=
  ⟨List.forall_mem_cons.mpr ⟨h, by simpa [twoEntries] using (by decide +kernel :
    AppendLog.verifyEntry reference (signedAt 7 1 20 [2] (reference.hashBytes [1])) = .ok true)⟩, rfl, rfl, trivial⟩

/-- The time of the first entry does not show in the last. -/
theorem final_entry_two_times : ¬ ∀ l l' : List LogEntry, ValidLog reference l → ValidLog reference l' →
    Set.InjOn reference.hashBytes {m | m ∈ l.map LogEntry.payload ∨ m ∈ l'.map LogEntry.payload} →
    l.getLast? = l'.getLast? → l = l' := by
  intro h
  have hM : Set.InjOn reference.hashBytes
      {m | m ∈ (twoEntries 10).map LogEntry.payload ∨ m ∈ (twoEntries 11).map LogEntry.payload} :=
    injOn_of_nodup [[1], [2]] (fun m hm => by simpa [twoEntries, signedAt] using hm) (by decide +kernel)
  have := h (twoEntries 10) (twoEntries 11) (twoEntries_valid (by decide +kernel))
    (twoEntries_valid (by decide +kernel)) hM rfl
  exact absurd this (by decide +kernel)

theorem final_entry_determines_two :
    (∀ l', ValidLog reference l' → l'.getLast? = (twoEntries 10).getLast? → l' = twoEntries 10) ↔
      (twoEntries 10).length ≤ 1 :=
  final_entry_determines_iff reference_cborTotal ⟨⟨List.replicate 32 7, List.replicate 32 7⟩, reference_keyPair rfl⟩
    (twoEntries_valid (by decide +kernel))

end Example

end ArxDB.Proof
