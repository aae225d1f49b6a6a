import ArxDB.Proof.Encoding
import ArxDB.Reference.Prims

/-!
# A roster read back from a list of bindings

`Roster.from_bytes` fills a dict from the bindings (`fromBytes_rosterFormat`),
so that of two bindings of an agent the later one takes the place of the
earlier. The agent's last key is found (`resolve_of_entries`), but the earlier
one is gone: the bytes come back, and the superseded keys with them, exactly
when no agent is bound two times.
-/

namespace ArxDB.Proof

open Impl Reference

variable {P : Prims} {bs : List (String × Bytes)} {data : Bytes} {r : Roster}

/-- Bindings that `__post_init__` accepts: named agents and keys of 32 bytes. -/
structure Binds (bs : List (String × Bytes)) : Prop where
  named : ∀ b ∈ bs, b.1 ≠ ""
  sized : ∀ b ∈ bs, b.2.length = 32

/-- What a rotation promises of the roster read from `data`: the same bytes,
the last key of each agent, and each agent by every key that was only its. -/
structure Rotates (P : Prims) (bs : List (String × Bytes)) (data : Bytes) (r : Roster) : Prop where
  bytes : r.rosterBytes P = .ok data
  latest (agentId : String) : r.resolve agentId = bs.reverse.lookup agentId
  historical {agentId : String} {pubkey : Bytes} : (agentId, pubkey) ∈ bs →
    (∀ b ∈ bs, b.2 = pubkey → b.1 = agentId) → r.identify (.bytes pubkey) = some agentId

/-! ## The dict that `from_bytes` fills -/

theorem fill_bindings (bs : List (String × Bytes)) (d : Dict P.equal Bytes) (items : List (String × Bytes))
    (hd : d.items = items.map (Prod.map .str id)) :
    ∃ d', Roster.fill P (bs.map fun e => .list [.str e.1, .bytes e.2]) d = .ok d' ∧
      d'.items = (bs.foldl (fun items b => Dict.insert (· == ·) b.1 b.2 items) items).map (Prod.map .str id) := by
  induction bs generalizing d items with
  | nil => exact ⟨d, rfl, hd⟩
  | cons b bs ih =>
    have hset : (d.set (.str b.1) b.2).items = (Dict.insert (· == ·) b.1 b.2 items).map (Prod.map .str id) := by
      rw [Dict.items_set, hd]
      exact Dict.insert_map (fun _ _ => rfl) b.1 b.2 items
    exact ih _ _ hset

theorem Binds.ofList (h : Binds bs) : Binds (Dict.ofList bs) where
  named b hb := h.named b (Dict.mem_ofList hb)
  sized b hb := h.sized b (Dict.mem_ofList hb)

/-- Read back, a list of bindings is what is left when each is set in turn. -/
theorem fromBytes_rosterFormat (hc : P.CborLaws) (hb : Binds bs) (h : P.canonicalEncode (rosterFormat bs) = .ok data) :
    ∃ r, Roster.fromBytes P data = .ok r ∧ r.entries = Dict.ofList bs := by
  obtain ⟨w, hw, hbindings⟩ := rosterFormat_loads hc h
  obtain ⟨d, hd, hitems⟩ := fill_bindings bs (Dict.empty : Dict P.equal Bytes) [] rfl
  have htexts : Roster.texts d.items = some (Dict.ofList bs) := by
    rw [hitems]
    exact Roster.texts_map _
  let r : Roster := ⟨Dict.ofList bs, Dict.nodup_ofList, hb.ofList.named, hb.ofList.sized⟩
  have hnew : Roster.ofDict P d = .ok r := by
    unfold Roster.ofDict
    split
    · simp_all
    · rename_i entries he
      obtain rfl : Dict.ofList bs = entries := Option.some.inj (htexts.symm.trans he)
      exact dif_pos ⟨hb.ofList.named, hb.ofList.sized⟩
  refine ⟨r, ?_, rfl⟩
  unfold Roster.fromBytes Prims.canonicalDecode
  rw [hw]
  show (w.getItem "bindings" >>= _) = _
  rw [hbindings]
  show (Roster.fill P _ _ >>= _) = _
  rw [hd]
  exact hnew

/-! ## What a key finds -/

/-- The last binding of an agent is the one found, rotated or not. -/
theorem resolve_of_entries (h : r.entries = Dict.ofList bs) (agentId : String) :
    r.resolve agentId = bs.reverse.lookup agentId := by
  rw [Roster.resolve, h, Dict.lookup_ofList]

/-- A key that is listed with one agent only is that agent's. -/
theorem identify_of_only {agentId : String} {pubkey : Bytes} (hmem : (agentId, pubkey) ∈ r.entries)
    (honly : ∀ e ∈ r.entries, e.2 = pubkey → e.1 = agentId) : r.identify (.bytes pubkey) = some agentId := by
  have hsome : (r.entries.find? fun e => e.2 = pubkey).isSome :=
    List.find?_isSome.mpr ⟨_, hmem, decide_eq_true rfl⟩
  obtain ⟨e, he⟩ := Option.isSome_iff_exists.mp hsome
  have hk := List.find?_some he
  simp only [decide_eq_true_eq] at hk
  have hagent := honly e (List.mem_of_find?_eq_some he) hk
  simp only [Roster.identify, he, Option.map_some, hagent]

/-- A key that a later binding of its only agent replaced is nobody's. -/
theorem identify_superseded (h : r.entries = Dict.ofList bs) (agentId : String) {pubkey : Bytes}
    (honly : ∀ b ∈ bs, b.2 = pubkey → b.1 = agentId) (hlast : bs.reverse.lookup agentId ≠ some pubkey) :
    r.identify (.bytes pubkey) = none := by
  have hnone : r.entries.find? (fun e => e.2 = pubkey) = none := by
    rw [List.find?_eq_none]
    intro e he hk
    simp only [decide_eq_true_eq] at hk
    obtain rfl : e.1 = agentId := honly e (Dict.mem_ofList (h ▸ he)) hk
    apply hlast
    rw [← Dict.lookup_ofList, ← h, ← hk]
    exact Dict.lookup_of_mem r.nodup he
  simp only [Roster.identify, hnone, Option.map_none]

/-! ## When rotation keeps what it promises -/

/-- A list of bindings rotates as promised exactly when no agent is in it two times. -/
theorem rotates_iff (hc : P.CborLaws) (hb : Binds bs) (h : P.canonicalEncode (rosterFormat bs) = .ok data) :
    (∃ r, Roster.fromBytes P data = .ok r ∧ Rotates P bs data r) ↔ (bs.map Prod.fst).Nodup := by
  obtain ⟨r, hr, hentries⟩ := fromBytes_rosterFormat hc hb h
  have same_iff : r.rosterBytes P = .ok data ↔ Dict.ofList bs = bs := by
    show P.canonicalEncode (rosterFormat r.entries) = .ok data ↔ _
    rw [hentries]
    exact ⟨fun he => rosterFormat_inj hc he h, fun he => he.symm ▸ h⟩
  rw [← Dict.ofList_eq_iff, ← same_iff]
  constructor
  · rintro ⟨r', hr', hrot⟩
    obtain rfl : r = r' := Except.ok.inj (hr.symm.trans hr')
    exact hrot.bytes
  · intro hbytes
    have hkept : r.entries = bs := hentries.trans (same_iff.mp hbytes)
    refine ⟨r, hr, hbytes, resolve_of_entries hentries, fun hmem honly => ?_⟩
    apply identify_of_only
    · exact hkept.symm ▸ hmem
    · exact hkept.symm ▸ honly

/-- Two agents with a key each come back as they were written. -/
theorem rotates_two_agents : ∃ data r, Roster.fromBytes reference data = .ok r ∧
    Rotates reference [("alice", List.replicate 32 1), ("bob", List.replicate 32 2)] data r := by
  let bs : List (String × Bytes) := [("alice", List.replicate 32 1), ("bob", List.replicate 32 2)]
  have hb : Binds bs := ⟨by decide, by decide⟩
  obtain ⟨data, h⟩ := Option.isSome_iff_exists.mp (show (Cbor.encode (rosterFormat bs)).isSome by decide +kernel)
  exact ⟨data, (rotates_iff reference_cborLaws hb (reference_dumps.mpr h)).mpr (by decide)⟩

/-- Alice's first key after she is bound to a second one: the roster read back
has other bytes, and the first key is nobody's. -/
theorem superseded_key_lost : ∃ data r,
    reference.canonicalEncode
      (rosterFormat [("alice", List.replicate 32 1), ("alice", List.replicate 32 2)]) = .ok data ∧
    Roster.fromBytes reference data = .ok r ∧ r.rosterBytes reference ≠ .ok data ∧
    r.resolve "alice" = some (List.replicate 32 2) ∧ r.identify (.bytes (List.replicate 32 1)) = none := by
  let bs : List (String × Bytes) := [("alice", List.replicate 32 1), ("alice", List.replicate 32 2)]
  have hb : Binds bs := ⟨by decide, by decide⟩
  obtain ⟨data, h⟩ := Option.isSome_iff_exists.mp (show (Cbor.encode (rosterFormat bs)).isSome by decide +kernel)
  obtain ⟨r, hr, hentries⟩ := fromBytes_rosterFormat reference_cborLaws hb (reference_dumps.mpr h)
  refine ⟨data, r, reference_dumps.mpr h, hr, fun he => ?_, ?_, ?_⟩
  · have hsame : r.entries = bs := rosterFormat_inj reference_cborLaws he (reference_dumps.mpr h)
    exact absurd (hentries.symm.trans hsame) (by decide)
  · rw [resolve_of_entries hentries]
    decide
  · exact identify_superseded hentries "alice" (by decide) (by decide)

end ArxDB.Proof
