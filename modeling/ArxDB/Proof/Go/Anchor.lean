import ArxDB.Impl.Go.Client
import ArxDB.Proof.Go.Merkle
import ArxDB.Proof.Go.Served
import ArxDB.Proof.Merkle

/-!
# Anchoring while others commit

`anchor` on a `GrpcStorage` reads the root, then the count. The record is
coherent exactly when the log at the first read and the log at the second have
the same filling (`anchor_coherent_iff`): when nothing was committed in
between, or only what does not show in the root.
-/

namespace ArxDB.Proof.Go

open Impl (AnchorRecord Bytes Hash Prims Roster)
open Impl.Go HashTree

variable {P : Prims} {kp : Keypair} {s s' : Storage} {roster : Roster} {now : Int} {record : AnchorRecord}

/-- The record's root is that of the first `entry_count` entries of the log. -/
def Coherent (P : Prims) (s : Storage) (record : AnchorRecord) : Prop :=
  ∃ hs, AppendLog.entryHashes s.db = .ok hs ∧
    record.rootHash = Impl.Merkle.rootHash P (hs.take record.entryCount)

theorem client_rootHash_eq_ok {root : Hash} : GrpcStorage.rootHash P s = .ok root ↔
    ∃ hs, AppendLog.entryHashes s.db = .ok hs ∧ root = Impl.Merkle.rootHash P hs := by
  rw [GrpcStorage.rootHash, Service.rootHash, AppendLog.rootHash]
  cases AppendLog.entryHashes s.db with
  | error e =>
    constructor
    · intro h
      cases h
    · rintro ⟨hs, h, -⟩
      cases h
  | ok hs =>
    simp only [Functor.map, Except.map, Except.mapError, bind, Except.bind, GrpcStorage.hash, Impl.Hash.new_raw,
      rootHash_eq, Except.ok.injEq, exists_eq_left', eq_comm]

theorem client_len_eq_ok {n : Nat} : GrpcStorage.len s = .ok n ↔
    ¬ AppendLog.len s.db < 0 ∧ n = (AppendLog.len s.db).toInt.toNat := by
  simp only [GrpcStorage.len, Service.len, Except.mapError, bind, Except.bind]
  by_cases h : AppendLog.len s.db < 0
  · simp [h]
  · simp [h, eq_comm]

/-- What `anchor` returns. -/
theorem anchor_eq_ok : GrpcStorage.anchor P roster now s s' = .ok record ↔
    ∃ hs rosterHash, AppendLog.entryHashes s.db = .ok hs ∧ ¬ AppendLog.len s'.db < 0 ∧
      roster.rosterHash P = .ok rosterHash ∧
      record = ⟨Impl.Merkle.rootHash P hs, (AppendLog.len s'.db).toInt.toNat, now, rosterHash⟩ := by
  constructor
  · intro h
    rw [GrpcStorage.anchor] at h
    cases hroot : GrpcStorage.rootHash P s with
    | error e => rw [hroot] at h; cases h
    | ok root =>
      cases hlen : GrpcStorage.len s' with
      | error e => rw [hroot, hlen] at h; cases h
      | ok n =>
        cases hroster : roster.rosterHash P with
        | error e => rw [hroot, hlen, hroster] at h; cases h
        | ok rosterHash =>
          rw [hroot, hlen, hroster] at h
          cases h
          obtain ⟨hs, hhs, rfl⟩ := client_rootHash_eq_ok.mp hroot
          obtain ⟨hn, rfl⟩ := client_len_eq_ok.mp hlen
          exact ⟨hs, rosterHash, hhs, hn, rfl, rfl⟩
  · rintro ⟨hs, rosterHash, hhs, hn, hroster, rfl⟩
    rw [GrpcStorage.anchor, client_rootHash_eq_ok.mpr ⟨hs, hhs, rfl⟩, client_len_eq_ok.mpr ⟨hn, rfl⟩, hroster]
    rfl

/-- For one client that anchors while the daemon serves `between`, after
`before`: the record is coherent exactly when the log that `RootHash` read and
the log that `Len` read have the same filling. In a log of fewer than `2 ^ 63`
entries these are the payloads committed in `before`, and in both. -/
theorem anchor_coherent_iff (P : Prims) (kp : Keypair) (roster : Roster) (now : Int) (before between : List Rpc)
    (hM : Set.InjOn P.hashBytes {m | ∃ hs,
      (AppendLog.entryHashes (Daemon.serve P kp before).storage.db = .ok hs ∨
        AppendLog.entryHashes (Daemon.serve P kp (before ++ between)).storage.db = .ok hs) ∧
      m ∈ Impl.Merkle.messages P hs}) :
    ((∀ record, GrpcStorage.anchor P roster now (Daemon.serve P kp before).storage
          (Daemon.serve P kp (before ++ between)).storage = .ok record →
        Coherent P (Daemon.serve P kp (before ++ between)).storage record) ↔
      ∀ hs hs' rosterHash, AppendLog.entryHashes (Daemon.serve P kp before).storage.db = .ok hs →
        AppendLog.entryHashes (Daemon.serve P kp (before ++ between)).storage.db = .ok hs' →
        roster.rosterHash P = .ok rosterHash → fill hs = fill hs') ∧
    ∀ rpcs, (Daemon.serve P kp rpcs).returned.length < 2 ^ 63 →
      AppendLog.entryHashes (Daemon.serve P kp rpcs).storage.db =
        .ok (((Daemon.serve P kp rpcs).returned.map fun r => r.1.payload).map P.hashBytes) := by
  have hcount := serve_counted P kp (before ++ between)
  generalize (Daemon.serve P kp before).storage = s at hM ⊢
  generalize (Daemon.serve P kp (before ++ between)).storage = s' at hM hcount ⊢
  have root_iff : ∀ {hs hs'}, AppendLog.entryHashes s.db = .ok hs → AppendLog.entryHashes s'.db = .ok hs' →
      (Impl.Merkle.rootHash P hs = Impl.Merkle.rootHash P hs' ↔ fill hs = fill hs') := by
    intro hs hs' h h'
    exact rootHash_eq_iff hM (fun m hm => ⟨hs, .inl h, hm⟩) fun m hm => ⟨hs', .inr h', hm⟩
  have hlen : ∀ {hs'}, AppendLog.entryHashes s'.db = .ok hs' → hs'.take (AppendLog.len s'.db).toInt.toNat = hs' := by
    intro hs' h'
    obtain ⟨hs, hhs, hl⟩ := hcount.entryHashes (not_neg_of_entryHashes h')
    rw [h', Except.ok.injEq] at hhs
    subst hhs
    exact List.take_of_length_le hl.le
  refine ⟨⟨fun hco hs hs' rosterHash h h' hr => ?_, fun hfill record h => ?_⟩, fun rpcs hshort => ?_⟩
  · obtain ⟨hs₂, hhs₂, hroot⟩ := hco _ (anchor_eq_ok.mpr ⟨hs, rosterHash, h, not_neg_of_entryHashes h', hr, rfl⟩)
    rw [h', Except.ok.injEq] at hhs₂
    subst hhs₂
    rw [hlen h'] at hroot
    exact (root_iff h h').mp hroot
  · obtain ⟨hs, rosterHash, hhs, hn, hr, rfl⟩ := anchor_eq_ok.mp h
    obtain ⟨hs', hhs', -⟩ := hcount.entryHashes hn
    refine ⟨hs', hhs', ?_⟩
    rw [hlen hhs']
    exact (root_iff hhs hhs').mpr (hfill hs hs' rosterHash hhs hhs' hr)
  · have hholds := serve_holdsAnswered rpcs hshort
    have hshort' : (answered (Daemon.serve P kp rpcs)).length < 2 ^ 63 := by
      rw [answered, List.length_map]
      exact hshort
    rw [hholds.holds.entryHashes hshort', hholds.hashes]

section Example

open Reference

/-- An append of one byte. -/
def appendRpc (b : UInt8) : Rpc := ⟨.append [b], 10, none⟩

/-- Another client appends between the two reads: the record has the root of
one entry and the count of two. -/
theorem anchor_torn : ¬ ∀ (before between : List Rpc) (record : AnchorRecord),
    GrpcStorage.anchor reference aliceRoster 20 (Daemon.serve reference exampleKeypair before).storage
      (Daemon.serve reference exampleKeypair (before ++ between)).storage = .ok record →
    Coherent reference (Daemon.serve reference exampleKeypair (before ++ between)).storage record := by
  intro h
  have hroster : ∃ r, aliceRoster.rosterHash reference = .ok r := ⟨_, rfl⟩
  obtain ⟨r, hr⟩ := hroster
  have h₁ : AppendLog.entryHashes (Daemon.serve reference exampleKeypair [appendRpc 1]).storage.db =
      .ok [reference.hashBytes [1]] := by decide +kernel
  have h₂ : AppendLog.entryHashes (Daemon.serve reference exampleKeypair
      ([appendRpc 1] ++ [appendRpc 2])).storage.db =
      .ok [reference.hashBytes [1], reference.hashBytes [2]] := by decide +kernel
  have hlen : (AppendLog.len (Daemon.serve reference exampleKeypair
      ([appendRpc 1] ++ [appendRpc 2])).storage.db).toInt.toNat = 2 := by decide +kernel
  obtain ⟨hs, hhs, hroot⟩ := h [appendRpc 1] [appendRpc 2] _
    (anchor_eq_ok.mpr ⟨_, r, h₁, not_neg_of_entryHashes h₂, hr, rfl⟩)
  rw [h₂, Except.ok.injEq] at hhs
  subst hhs
  have hne : Impl.Merkle.rootHash reference [reference.hashBytes [1]] ≠
      Impl.Merkle.rootHash reference [reference.hashBytes [1], reference.hashBytes [2]] := by decide +kernel
  rw [hlen] at hroot
  exact hne hroot

/-- Three entries, and the last one once more between the two reads. -/
def thrice : List Rpc := [appendRpc 1, appendRpc 2, appendRpc 3]

/-- The logs of three and of four entries have the same filling, so the record is coherent. -/
theorem anchor_coherent_repeated : ∃ record,
    GrpcStorage.anchor reference aliceRoster 20 (Daemon.serve reference exampleKeypair thrice).storage
      (Daemon.serve reference exampleKeypair (thrice ++ [appendRpc 3])).storage = .ok record ∧
    Coherent reference (Daemon.serve reference exampleKeypair (thrice ++ [appendRpc 3])).storage record := by
  have hroster : ∃ r, aliceRoster.rosterHash reference = .ok r := ⟨_, rfl⟩
  obtain ⟨r, hr⟩ := hroster
  have h₁ : AppendLog.entryHashes (Daemon.serve reference exampleKeypair thrice).storage.db =
      .ok ([[1], [2], [3]].map reference.hashBytes) := by decide +kernel
  have h₂ : AppendLog.entryHashes (Daemon.serve reference exampleKeypair (thrice ++ [appendRpc 3])).storage.db =
      .ok ([[1], [2], [3], [3]].map reference.hashBytes) := by decide +kernel
  have hM : Set.InjOn reference.hashBytes {m | ∃ hs,
      (AppendLog.entryHashes (Daemon.serve reference exampleKeypair thrice).storage.db = .ok hs ∨
        AppendLog.entryHashes (Daemon.serve reference exampleKeypair (thrice ++ [appendRpc 3])).storage.db = .ok hs) ∧
      m ∈ Impl.Merkle.messages reference hs} := by
    refine injOn_of_nodup (Impl.Merkle.messages reference ([[1], [2], [3]].map reference.hashBytes) ++
      Impl.Merkle.messages reference ([[1], [2], [3], [3]].map reference.hashBytes)).dedup ?_ (by decide +kernel)
    rintro m ⟨hs, hhs, hm⟩
    rw [List.mem_dedup, List.mem_append]
    rcases hhs with hhs | hhs
    · rw [h₁, Except.ok.injEq] at hhs
      exact .inl (hhs ▸ hm)
    · rw [h₂, Except.ok.injEq] at hhs
      exact .inr (hhs ▸ hm)
  have hanchor : ∃ record, GrpcStorage.anchor reference aliceRoster 20
      (Daemon.serve reference exampleKeypair thrice).storage
      (Daemon.serve reference exampleKeypair (thrice ++ [appendRpc 3])).storage = .ok record :=
    ⟨_, anchor_eq_ok.mpr ⟨_, r, h₁, not_neg_of_entryHashes h₂, hr, rfl⟩⟩
  obtain ⟨record, hanchor⟩ := hanchor
  refine ⟨record, hanchor,
    (anchor_coherent_iff reference exampleKeypair aliceRoster 20 thrice [appendRpc 3] hM).1.mpr ?_ _ hanchor⟩
  intro hs hs' rosterHash h h' _
  rw [h₁, Except.ok.injEq] at h
  rw [h₂, Except.ok.injEq] at h'
  subst h h'
  decide +kernel

end Example

end ArxDB.Proof.Go
