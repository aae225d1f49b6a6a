import ArxDB.Proof.Encoding
import ArxDB.Proof.History
import ArxDB.Reference.Prims

/-!
# What the root binds

Two lists of hashes have the same Merkle root exactly when they are the same
after filling (`rootHash_eq_iff`), if no two of the messages hashed collide.
For the logs of two runs (`rootHash_determines_payloads_iff`) this is the
exact condition under which the root tells their payloads apart: an append
goes unnoticed when the log has an odd number, three or more, of blocks of
some size `2 ^ k` and the last block is that payload `2 ^ k` times.
-/

namespace ArxDB.Proof

open Impl HashTree

variable {P : Prims}

theorem leafMessage_inj {a b : Hash} : Merkle.leafMessage a = Merkle.leafMessage b ↔ a = b := by
  simp [Merkle.leafMessage, Hash.raw_inj]

theorem internalMessage_inj {a b c d : Hash} :
    Merkle.internalMessage a b = Merkle.internalMessage c d ↔ a = c ∧ b = d := by
  simp only [Merkle.internalMessage, List.cons.injEq, true_and]
  constructor
  · intro h
    obtain ⟨h₁, h₂⟩ := List.append_inj h (a.size.trans c.size.symm)
    exact ⟨Hash.ext h₁, Hash.ext h₂⟩
  · rintro ⟨rfl, rfl⟩
    rfl

section Root

variable {hs hs' : List Hash} {M : Set Bytes} (hM : Set.InjOn P.hashBytes M)
  (h₁ : ∀ m ∈ Merkle.messages P hs, m ∈ M) (h₂ : ∀ m ∈ Merkle.messages P hs', m ∈ M)

theorem rootHash_eq_head (h : hs ≠ []) :
    climb (Merkle.internalNode P) (hs.map (Merkle.leafNode P)) = [Merkle.rootHash P hs] := by
  obtain ⟨r, hr⟩ := List.length_eq_one_iff.mp (length_climb (Merkle.internalNode P)
    (l := hs.map (Merkle.leafNode P)) (by simpa using h))
  rw [Merkle.rootHash, hr]

theorem rootHash_nil : Merkle.rootHash P [] = P.hashBytes Merkle.emptyMessage := by
  rw [Merkle.rootHash, List.map_nil, climb_of_le_one _ (by simp)]
  rfl

/-- The root of a list that is not empty is the hash of a leaf or of a pair. -/
theorem rootHash_eq_hash (h : hs ≠ []) : ∃ m ∈ Merkle.messages P hs, m ≠ Merkle.emptyMessage ∧
    Merkle.rootHash P hs = P.hashBytes m := by
  have hr := rootHash_eq_head (P := P) h
  rcases Nat.lt_or_ge 1 (hs.map (Merkle.leafNode P)).length with hl | hl
  · obtain ⟨p, hp, e⟩ := climb_eq_node (Merkle.internalNode P) hl
    rw [hr, List.cons.injEq] at e
    exact ⟨_, List.mem_append_right _ (List.mem_map_of_mem hp), by simp [Merkle.internalMessage, Merkle.emptyMessage],
      e.1⟩
  · obtain ⟨x, rfl⟩ : ∃ x, hs = [x] := by
      rw [← List.length_eq_one_iff]
      have := List.length_pos_iff.mpr h
      rw [List.length_map] at hl
      omega
    rw [climb_of_le_one _ hl, List.map_singleton, List.cons.injEq] at hr
    exact ⟨_, List.mem_append_left _ (by simp : Merkle.leafMessage x ∈ _), by
      simp [Merkle.leafMessage, Merkle.emptyMessage], hr.1.symm⟩

include hM h₁ h₂

theorem leafNode_ne_internalNode {x : Hash} (hx : x ∈ hs.map (Merkle.leafNode P)) {p : Hash × Hash}
    (hp : p ∈ joins (Merkle.internalNode P) (hs'.map (Merkle.leafNode P))) :
    x ≠ Merkle.internalNode P p.1 p.2 := by
  obtain ⟨y, hy, rfl⟩ := List.mem_map.mp hx
  intro e
  have := hM (h₁ _ (List.mem_append_left _ (List.mem_cons_of_mem _ (List.mem_map_of_mem hy))))
    (h₂ _ (List.mem_append_right _ (List.mem_map_of_mem hp))) e
  simp [Merkle.leafMessage, Merkle.internalMessage] at this

/-- Lists of hashes with the same root have the same filling. -/
theorem rootHash_eq_iff : Merkle.rootHash P hs = Merkle.rootHash P hs' ↔ fill hs = fill hs' := by
  constructor
  · intro h
    have he : Merkle.emptyMessage ∈ M := h₁ _ (List.mem_append_left _ List.mem_cons_self)
    by_cases hn : hs = []
    · subst hn
      by_cases hn' : hs' = []
      · rw [hn']
      · obtain ⟨m, hm, hne, hr⟩ := rootHash_eq_hash (P := P) hn'
        exact absurd (hM he (h₂ m hm) (rootHash_nil.symm.trans (h.trans hr))).symm hne
    by_cases hn' : hs' = []
    · subst hn'
      obtain ⟨m, hm, hne, hr⟩ := rootHash_eq_hash (P := P) hn
      exact absurd (hM (h₁ m hm) he (hr.symm.trans (h.trans rootHash_nil))) hne
    have hnode : Set.InjOn (fun p : Hash × Hash => Merkle.internalNode P p.1 p.2)
        {p | Merkle.internalMessage p.1 p.2 ∈ M} := by
      intro p hp q hq e
      obtain ⟨e₁, e₂⟩ := internalMessage_inj.mp (hM hp hq e)
      exact Prod.ext e₁ e₂
    have hf := fill_eq_of_climb_eq hnode
      (fun p hp => h₁ _ (List.mem_append_right _ (List.mem_map_of_mem hp)))
      (fun p hp => h₂ _ (List.mem_append_right _ (List.mem_map_of_mem hp)))
      (fun x hx p hp => leafNode_ne_internalNode hM h₁ h₂ hx hp)
      (fun x hx p hp => leafNode_ne_internalNode hM h₂ h₁ hx hp)
      (by simpa using hn) (by simpa using hn') (by rw [rootHash_eq_head hn, rootHash_eq_head hn', h])
    rw [fill_map, fill_map] at hf
    have hleaf : Set.InjOn (Merkle.leafNode P) {x | Merkle.leafMessage x ∈ M} :=
      fun x hx y hy e => leafMessage_inj.mp (hM hx hy e)
    refine eq_of_map_eq hleaf (fun x hx => ?_) (fun x hx => ?_) hf
    · exact h₁ _ (List.mem_append_left _ (List.mem_cons_of_mem _ (List.mem_map_of_mem (mem_fill.mp hx))))
    · exact h₂ _ (List.mem_append_left _ (List.mem_cons_of_mem _ (List.mem_map_of_mem (mem_fill.mp hx))))
  · intro h
    simp only [Merkle.rootHash]
    rw [← climb_fill, fill_map, h, ← fill_map, climb_fill]

end Root

/-! ## The logs of two runs -/

/-- What the entries attest to. -/
def payloads (log : Log) : List Bytes := log.map LogRow.payload

/-- Everything that is hashed for the root of a log with these payloads. -/
def hashed (P : Prims) (payloads : List Bytes) : List Bytes :=
  payloads ++ Merkle.messages P (payloads.map P.hashBytes)

theorem run_rootHash (calls : List LogCall) : AppendLog.rootHash P (LogCall.run P calls).log =
    .ok (Merkle.rootHash P ((payloads (LogCall.run P calls).log).map P.hashBytes)) := by
  obtain ⟨es, hs, hc, -⟩ := run_chain (P := P) calls
  have : es.map LogEntry.entryHash = (payloads (es.map LogEntry.row)).map P.hashBytes := by
    rw [payloads, List.map_map, List.map_map]
    exact List.map_congr_left fun e he => hc.hashed e he
  rw [hs, rootHash_map_row hc.seq, this]

theorem payloadRoot_eq_iff {p q : List Bytes}
    (hM : Set.InjOn P.hashBytes {m | m ∈ hashed P p ∨ m ∈ hashed P q}) :
    Merkle.rootHash P (p.map P.hashBytes) = Merkle.rootHash P (q.map P.hashBytes) ↔ fill p = fill q := by
  rw [rootHash_eq_iff hM (fun m hm => .inl (List.mem_append_right _ hm)) fun m hm => .inr (List.mem_append_right _ hm),
    fill_map, fill_map]
  constructor
  · refine eq_of_map_eq hM (fun m hm => .inl ?_) fun m hm => .inr ?_
    · exact List.mem_append_left _ (mem_fill.mp hm)
    · exact List.mem_append_left _ (mem_fill.mp hm)
  · exact fun h => by rw [h]

/-- Whether the root tells the logs of two runs apart: it does unless their
payloads differ and have the same filling. And it changes with an append
unless the log has an odd number, at least three, of blocks of `2 ^ k`
entries and the last block is that payload throughout. -/
theorem rootHash_determines_payloads_iff (calls calls' : List LogCall)
    (hM : Set.InjOn P.hashBytes {m | m ∈ hashed P (payloads (LogCall.run P calls).log) ∨
      m ∈ hashed P (payloads (LogCall.run P calls').log)}) :
    ((AppendLog.rootHash P (LogCall.run P calls).log = AppendLog.rootHash P (LogCall.run P calls').log →
        payloads (LogCall.run P calls).log = payloads (LogCall.run P calls').log) ↔
      ¬ (payloads (LogCall.run P calls).log ≠ payloads (LogCall.run P calls').log ∧
        fill (payloads (LogCall.run P calls).log) = fill (payloads (LogCall.run P calls').log))) ∧
    ∀ row, (LogCall.run P calls').log = (LogCall.run P calls).log ++ [row] →
      (AppendLog.rootHash P (LogCall.run P calls').log ≠ AppendLog.rootHash P (LogCall.run P calls).log ↔
        ¬ ∃ k b, (LogCall.run P calls).log.length = 2 ^ k * (2 * b + 3) ∧
          (payloads (LogCall.run P calls).log).drop ((LogCall.run P calls).log.length - 2 ^ k) =
            List.replicate (2 ^ k) row.payload) := by
  rw [run_rootHash, run_rootHash]
  simp only [ne_eq, Except.ok.injEq]
  refine ⟨?_, fun row h => not_congr ?_⟩
  · rw [payloadRoot_eq_iff hM, not_and, not_imp_comm, not_not]
  · have hp : payloads (LogCall.run P calls').log = payloads (LogCall.run P calls).log ++ [row.payload] := by
      rw [h, payloads, List.map_append]
      rfl
    rw [eq_comm, payloadRoot_eq_iff hM, eq_comm, hp, fill_concat_eq_iff, payloads, List.length_map]

/-! ## Anchor records -/

/-- What is in the record that `anchor` makes of the log of a run. -/
theorem anchor_run {calls : List LogCall} {roster : Roster} {now : Int} {record : AnchorRecord}
    (h : Attest.anchor P (LogCall.run P calls) roster now = .ok record) :
    record.rootHash = Merkle.rootHash P ((payloads (LogCall.run P calls).log).map P.hashBytes) ∧
      record.entryCount = (payloads (LogCall.run P calls).log).length := by
  obtain ⟨root, hroot, h⟩ := bind_eq_ok.mp h
  obtain ⟨rosterHash, -, h⟩ := bind_eq_ok.mp h
  rw [run_rootHash, Except.ok.injEq] at hroot
  cases h
  exact ⟨hroot.symm, by rw [payloads, List.length_map]⟩

/-- The records of two runs have the same root and the same count exactly
when the logs hold the same payloads: with the length fixed, no two lists of
payloads have the same filling. -/
theorem anchor_binds_payloads (calls calls' : List LogCall) (roster roster' : Roster) (now now' : Int)
    {record record' : AnchorRecord}
    (h : Attest.anchor P (LogCall.run P calls) roster now = .ok record)
    (h' : Attest.anchor P (LogCall.run P calls') roster' now' = .ok record')
    (hM : Set.InjOn P.hashBytes {m | m ∈ hashed P (payloads (LogCall.run P calls).log) ∨
      m ∈ hashed P (payloads (LogCall.run P calls').log)}) :
    record.rootHash = record'.rootHash ∧ record.entryCount = record'.entryCount ↔
      payloads (LogCall.run P calls).log = payloads (LogCall.run P calls').log := by
  obtain ⟨hroot, hcount⟩ := anchor_run h
  obtain ⟨hroot', hcount'⟩ := anchor_run h'
  rw [hroot, hroot', hcount, hcount', payloadRoot_eq_iff hM]
  constructor
  · intro e
    exact fill_inj_of_length e.1 e.2
  · intro e
    rw [e]
    exact ⟨rfl, rfl⟩

section Example

open Reference

/-- A session that appends each payload in turn. -/
def appends (payloads : List Bytes) : List LogCall :=
  payloads.map fun p => ⟨⟨List.replicate 32 7, List.replicate 32 7⟩, 10, none, .append p⟩

theorem hashed_injOn :
    Set.InjOn reference.hashBytes {m |
      m ∈ hashed reference (payloads (LogCall.run reference (appends [[1], [2], [3]])).log) ∨
      m ∈ hashed reference (payloads (LogCall.run reference (appends [[1], [2], [3], [3]])).log)} :=
  injOn_of_nodup (hashed reference [[1], [2], [3]] ++ hashed reference [[1], [2], [3], [3]]).dedup
    (fun m hm => by
      rw [List.mem_dedup, List.mem_append]
      have h₁ : payloads (LogCall.run reference (appends [[1], [2], [3]])).log = [[1], [2], [3]] := by decide +kernel
      have h₂ : payloads (LogCall.run reference (appends [[1], [2], [3], [3]])).log = [[1], [2], [3], [3]] := by
        decide +kernel
      rwa [h₁, h₂] at hm)
    (by decide +kernel)

/-- The root of `[a, b, c]` is that of `[a, b, c, c]`. -/
theorem rootHash_repeated_last : ¬ ∀ calls calls' : List LogCall,
    Set.InjOn reference.hashBytes {m | m ∈ hashed reference (payloads (LogCall.run reference calls).log) ∨
      m ∈ hashed reference (payloads (LogCall.run reference calls').log)} →
    AppendLog.rootHash reference (LogCall.run reference calls).log =
      AppendLog.rootHash reference (LogCall.run reference calls').log →
    payloads (LogCall.run reference calls).log = payloads (LogCall.run reference calls').log :=
  fun h => absurd (h _ _ hashed_injOn (by decide +kernel)) (by decide +kernel)

theorem rootHash_determines_payloads_three_four :
    (AppendLog.rootHash reference (LogCall.run reference (appends [[1], [2], [3]])).log =
        AppendLog.rootHash reference (LogCall.run reference (appends [[1], [2], [3], [3]])).log →
      payloads (LogCall.run reference (appends [[1], [2], [3]])).log =
        payloads (LogCall.run reference (appends [[1], [2], [3], [3]])).log) ↔
    ¬ (payloads (LogCall.run reference (appends [[1], [2], [3]])).log ≠
        payloads (LogCall.run reference (appends [[1], [2], [3], [3]])).log ∧
      fill (payloads (LogCall.run reference (appends [[1], [2], [3]])).log) =
        fill (payloads (LogCall.run reference (appends [[1], [2], [3], [3]])).log)) :=
  (rootHash_determines_payloads_iff _ _ hashed_injOn).1

/-- A roster of one agent. -/
def aliceRoster : Roster := ⟨[("alice", List.replicate 32 1)], by decide, by decide, by decide⟩

theorem anchor_binds_payloads_three :
    ∃ record record' : AnchorRecord,
      Attest.anchor reference (LogCall.run reference (appends [[1], [2], [3]])) aliceRoster 20 = .ok record ∧
      Attest.anchor reference (LogCall.run reference (appends [[1], [2], [3], [3]])) aliceRoster 30 = .ok record' ∧
      (record.rootHash = record'.rootHash ∧ record.entryCount = record'.entryCount ↔
        payloads (LogCall.run reference (appends [[1], [2], [3]])).log =
          payloads (LogCall.run reference (appends [[1], [2], [3], [3]])).log) := by
  have hroster : ∃ h, aliceRoster.rosterHash reference = .ok h := ⟨_, rfl⟩
  obtain ⟨rosterHash, hr⟩ := hroster
  have hanchor : ∀ calls now, ∃ record,
      Attest.anchor reference (LogCall.run reference calls) aliceRoster now = .ok record := by
    intro calls now
    rw [Attest.anchor, run_rootHash, hr]
    exact ⟨_, rfl⟩
  obtain ⟨record, h⟩ := hanchor (appends [[1], [2], [3]]) 20
  obtain ⟨record', h'⟩ := hanchor (appends [[1], [2], [3], [3]]) 30
  exact ⟨record, record', h, h', anchor_binds_payloads _ _ _ _ _ _ h h' hashed_injOn⟩

end Example

end ArxDB.Proof
