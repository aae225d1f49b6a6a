import ArxDB.Proof.Encoding
import ArxDB.Proof.HashChain
import ArxDB.Proof.Merkle

/-!
# Who signed, and when

The root covers the payloads; the signer and the timestamp of an entry are
covered by its own signature only, under whatever key the entry names. So a
history that `verify_history` accepts has the signers and timestamps of the
log whose root it is checked against exactly when it names no key that the
log does not (`signers_kept_iff`).
-/

namespace ArxDB.Proof

open Impl

variable {P : Prims}

/-- The public keys that entries of a log are signed under. -/
def signers (log : Log) : Set Bytes := {pub | ∃ r ∈ log, r.signerPubkey = pub}

/-- No signature of `log'` under a key of `log` is forged: what it signs was
signed under that key in `log`. -/
def Unforged (P : Prims) (log log' : Log) : Prop :=
  ∀ (i : Nat) e' message, AppendLog.get log' i = .ok (some e') → e'.signerPubkey ∈ signers log →
    AppendLog.signatureMessage P e'.seq e'.timestampNs e'.signerPubkey e'.entryHash e'.prevLogHash = .ok message →
    P.verify e'.signerPubkey message e'.signature = .ok true →
    ∃ e : LogEntry, e.row ∈ log ∧ e.signerPubkey = e'.signerPubkey ∧
      AppendLog.signatureMessage P e.seq e.timestampNs e.signerPubkey e.entryHash e.prevLogHash = .ok message

/-- The entries of the two logs agree on signer and time. -/
def SignersKept (log log' : Log) : Prop :=
  ∀ i : Nat, i < log.length → ∀ e e', AppendLog.get log i = .ok (some e) → AppendLog.get log' i = .ok (some e') →
    e'.signerPubkey = e.signerPubkey ∧ e'.timestampNs = e.timestampNs

/-- For the log of a run and a log of the same length that `verify_history`
accepts with some root (that of the run, or any other): signers and
timestamps are kept exactly when every entry is signed under a key of the run. -/
theorem signers_kept_iff (hc : P.CborLaws) (calls : List LogCall) (s' : Storage)
    (hlen : s'.log.length = (LogCall.run P calls).log.length) {root : Hash}
    (hv : Attest.verifyHistory P s' root = .ok true) (hf : Unforged P (LogCall.run P calls).log s'.log) :
    SignersKept (LogCall.run P calls).log s'.log ↔
      ∀ i : Nat, i < s'.log.length → ∀ e', AppendLog.get s'.log i = .ok (some e') →
        e'.signerPubkey ∈ signers (LogCall.run P calls).log := by
  obtain ⟨es, hs, hchain, -⟩ := run_chain (P := P) calls
  obtain ⟨es', hread, hverified, -⟩ := verifyHistory_eq_true.mp hv
  have hlen' : (LogCall.run P calls).log.length = es.length := by rw [hs, List.length_map]
  constructor
  · intro h i hi e' he'
    have hi' : i < es.length := by omega
    have hget := get_map_row hchain.seq hi'
    rw [← hs] at hget
    exact ⟨es[i].row, (mem_of_get hget).1, (h i (by omega) _ e' hget he').1.symm⟩
  · intro h i hi e e' he he'
    have hi' : i < es'.length := by rw [hread.1]; omega
    have hve : AppendLog.verifyEntry P e' = .ok true := by
      have := hread.2 i hi'
      rw [he', Except.ok.injEq, Option.some.injEq] at this
      exact this ▸ hverified _ (List.getElem_mem hi')
    obtain ⟨-, m, hm, hsig⟩ := verifyEntry_eq_true.mp hve
    obtain ⟨d, hd, -, hdm⟩ := hf i e' m he' (h i (by omega) e' he') hm hsig
    -- the message names its entry: `d` is entry `i` of the run
    obtain ⟨hseq, ht, hp, -, -⟩ := signatureMessage_inj hc hdm hm
    rw [(mem_of_get he').2] at hseq
    rw [hs] at hd he
    obtain ⟨d', hd', hrow⟩ := List.mem_map.mp hd
    obtain ⟨j, hj, rfl⟩ := List.mem_iff_getElem.mp hd'
    have hdd : es[j] = d := row_inj.mp hrow
    have hij : j = i := by
      have := hchain.seq j hj
      rw [hdd, hseq] at this
      omega
    subst hij
    rw [get_map_row hchain.seq hj, Except.ok.injEq, Option.some.injEq, hdd] at he
    rw [← he]
    exact ⟨hp.symm, ht.symm⟩

section Example

open Reference

/-- A storage of these entries. -/
def storageOf (es : List LogEntry) : Storage := { Storage.empty with db := ⟨.empty, es.map LogEntry.row⟩ }

/-- A storage whose log is the payload `[1]`, signed at time `t` under a key of `x`. -/
def oneEntry (t : Int) (x : UInt8) : Storage := storageOf [signedAt x 0 t [1] AppendLog.genesisPrevHash]

theorem run_oneEntry : (LogCall.run reference (appends [[1]])).log = (oneEntry 10 7).log := by decide +kernel

theorem oneEntry_get {t : Int} {x : UInt8} {i : Int} {e : LogEntry}
    (h : AppendLog.get (oneEntry t x).log i = .ok (some e)) :
    e.timestampNs = t ∧ e.signerPubkey = List.replicate 32 x := by
  have := List.mem_singleton.mp (mem_of_get h).1
  rw [LogEntry.row, LogEntry.row, LogRow.mk.injEq] at this
  exact ⟨this.2.1, this.2.2.1⟩

theorem oneEntry_unforged : Unforged reference (oneEntry 10 7).log (oneEntry 99 8).log := by
  rintro i e' m he' ⟨r, hr, hp⟩
  rw [List.mem_singleton.mp hr, (oneEntry_get he').2] at hp
  exact absurd hp (by decide +kernel)

theorem oneEntry_verifyHistory : Attest.verifyHistory reference (oneEntry 99 8)
    (Merkle.rootHash reference [reference.hashBytes [1]]) = .ok true := by decide +kernel

/-- Entry 0, signed again at another time under a fresh key, is accepted. -/
theorem signers_kept_fresh_key : ¬ ∀ (calls : List LogCall) (s' : Storage) (root : Hash),
    (∀ c ∈ calls, reference.KeyPair c.keys.priv c.keys.pub) →
    s'.log.length = (LogCall.run reference calls).log.length →
    AppendLog.rootHash reference (LogCall.run reference calls).log = .ok root →
    Set.InjOn reference.hashBytes {m | m ∈ hashed reference (payloads (LogCall.run reference calls).log) ∨
      m ∈ hashed reference (payloads s'.log)} →
    Unforged reference (LogCall.run reference calls).log s'.log →
    Attest.verifyHistory reference s' root = .ok true → SignersKept (LogCall.run reference calls).log s'.log := by
  intro h
  have hM : Set.InjOn reference.hashBytes {m | m ∈ hashed reference (payloads (oneEntry 10 7).log) ∨
      m ∈ hashed reference (payloads (oneEntry 99 8).log)} :=
    injOn_of_nodup (hashed reference [[1]]) (fun m hm => hm.elim id id) (by decide +kernel)
  have hroot : AppendLog.rootHash reference (LogCall.run reference (appends [[1]])).log =
      .ok (Merkle.rootHash reference [reference.hashBytes [1]]) := by decide +kernel
  have := h (appends [[1]]) (oneEntry 99 8) _ (by simp [appends, reference_keyPair]) (by decide +kernel) hroot
    (run_oneEntry ▸ hM) (run_oneEntry ▸ oneEntry_unforged) oneEntry_verifyHistory
  obtain ⟨e, he⟩ : ∃ e, AppendLog.get (oneEntry 10 7).log (0 : Nat) = .ok (some e) := ⟨_, rfl⟩
  obtain ⟨e', he'⟩ : ∃ e', AppendLog.get (oneEntry 99 8).log (0 : Nat) = .ok (some e') := ⟨_, rfl⟩
  rw [run_oneEntry] at this
  have ht := (this 0 (by decide +kernel) e e' he he').2
  rw [(oneEntry_get he).1, (oneEntry_get he').1] at ht
  exact absurd ht (by decide)

/-- The payloads `[1]` and `[2]`, the second signed at time `t` under a key of `x`. -/
def lastSigned (t : Int) (x : UInt8) : List LogEntry :=
  [signedAt 7 0 10 [1] AppendLog.genesisPrevHash, signedAt x 1 t [2] (reference.hashBytes [1])]

theorem run_lastSigned : (LogCall.run reference (appends [[1], [2]])).log = (storageOf (lastSigned 10 7)).log := by
  decide +kernel

theorem storageOf_get {es : List LogEntry} {i : Int} {e : LogEntry}
    (h : AppendLog.get (storageOf es).log i = .ok (some e)) : e ∈ es := by
  obtain ⟨e', he', hrow⟩ := List.mem_map.mp (mem_of_get h).1
  rwa [← row_inj.mp hrow]

/-- The signature under the run's key is that of the run's first entry. -/
theorem lastSigned_unforged :
    Unforged reference (storageOf (lastSigned 10 7)).log (storageOf (lastSigned 99 8)).log := by
  rintro i e' m he' hkey hm -
  rcases List.mem_pair.mp (storageOf_get he') with rfl | rfl
  · exact ⟨_, List.mem_cons_self, rfl, hm⟩
  · obtain ⟨r, hr, hp⟩ := hkey
    have hkeys : ∀ r ∈ (storageOf (lastSigned 10 7)).log, r.signerPubkey = List.replicate 32 7 := by decide +kernel
    exact absurd ((hkeys r hr).symm.trans hp) (by decide +kernel)

theorem signers_kept_two :
    SignersKept (LogCall.run reference (appends [[1], [2]])).log (storageOf (lastSigned 99 8)).log ↔
    ∀ i : Nat, i < (storageOf (lastSigned 99 8)).log.length →
      ∀ e', AppendLog.get (storageOf (lastSigned 99 8)).log i = .ok (some e') →
        e'.signerPubkey ∈ signers (LogCall.run reference (appends [[1], [2]])).log :=
  signers_kept_iff reference_cborLaws (appends [[1], [2]]) (storageOf (lastSigned 99 8)) (by decide +kernel)
    (by decide +kernel : Attest.verifyHistory reference (storageOf (lastSigned 99 8))
      (Merkle.rootHash reference ([[1], [2]].map reference.hashBytes)) = .ok true)
    (run_lastSigned ▸ lastSigned_unforged)

end Example

end ArxDB.Proof
