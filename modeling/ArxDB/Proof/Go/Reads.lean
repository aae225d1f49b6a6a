import ArxDB.Proof.Go.Represents

/-!
# What is read

On a database that represents an abstract store, each read of the Go engine is
the read of the abstract store.
-/

namespace ArxDB.Proof.Go

open Impl (Bytes GoAny Hash Prims)
open Impl.Go BigEndian

variable {P : Prims} {a : Abstract} {db : Pebble}

/-! ## Frames -/

/-- Every read of the graph. -/
def graphView (db : Pebble) : Spec.GraphView Hash where
  allNodes := GraphIndex.allNodes db
  allEdges := GraphIndex.allEdges db
  connectivity := GraphIndex.getConnectivity db
  incoming := GraphIndex.incomingEdges db
  outgoing := GraphIndex.outgoingEdges db

/-- Every read of the log. -/
structure LogView where
  len : Int64
  get : Int64 → Except GoError (Option LogEntry)
  rootHash : Except GoError Hash
  inclusionProof : Int64 → Except GoError Merkle.InclusionProof

/-- The reads of this database. -/
def logView (P : Prims) (db : Pebble) : LogView where
  len := AppendLog.len db
  get := AppendLog.get P db
  rootHash := AppendLog.rootHash P db
  inclusionProof := AppendLog.getInclusionProof P db

theorem scan_congr {db' : Pebble} {p : Bytes} (h : ∀ k, p <+: k → db'[k]? = db[k]?) :
    db'.scan p (GraphIndex.prefixUpperBound p) = db.scan p (GraphIndex.prefixUpperBound p) := by
  have hirrefl : Std.Irrefl (fun a b : Bytes × Bytes => a.1 < b.1) := ⟨fun a => List.lt_irrefl _⟩
  have hantisymm : Std.Antisymm (fun a b : Bytes × Bytes => a.1 < b.1) :=
    ⟨fun a b hab hba => absurd (List.lt_trans hab hba) (List.lt_irrefl _)⟩
  refine scan_ascending.eq_of_mem_iff scan_ascending fun kv => ?_
  rw [mem_scanned, mem_scanned]
  exact and_congr_left fun hk => by rw [h _ hk]

theorem graphView_congr {db' : Pebble} (h : ∀ k, Tagged graphTags k → db'[k]? = db[k]?) :
    graphView db' = graphView db := by
  have hscan : ∀ t p, t ∈ graphTags → db'.scan (t.toUInt8 :: p) (GraphIndex.prefixUpperBound (t.toUInt8 :: p)) =
      db.scan (t.toUInt8 :: p) (GraphIndex.prefixUpperBound (t.toUInt8 :: p)) := by
    intro t p ht
    refine scan_congr fun k hk => h k ?_
    obtain ⟨rest, rfl⟩ := hk
    exact ⟨t, ht, p ++ rest, rfl⟩
  have hn := hscan 'n' [] (by decide)
  have he := hscan 'e' [] (by decide)
  simp only [graphView, Spec.GraphView.mk.injEq]
  refine ⟨by rw [GraphIndex.allNodes, hn, GraphIndex.allNodes], by rw [GraphIndex.allEdges, he, GraphIndex.allEdges],
    funext fun e => ?_, funext fun n => congrArg _ (hscan 'c' _ (by decide)),
    funext fun n => congrArg _ (hscan 'o' _ (by decide))⟩
  have hget := h (GraphIndex.edgeKey e) ⟨'e', by decide, _, rfl⟩
  have hp := hscan 'p' e.raw (by decide)
  rw [GraphIndex.getConnectivity, GraphIndex.getConnectivity, hget]
  split
  · rfl
  · exact congrArg some (congrArg₂ Prod.mk (congrArg _ hp) rfl)

theorem len_congr {db' : Pebble} (h : ∀ k, Tagged logTags k → db'[k]? = db[k]?) :
    AppendLog.len db' = AppendLog.len db := by
  rw [AppendLog.len, h _ tagged_logLenKey, AppendLog.len]

theorem entryHashes_congr {db' : Pebble} (h : ∀ k, Tagged logTags k → db'[k]? = db[k]?) :
    AppendLog.entryHashes db' = AppendLog.entryHashes db := by
  simp only [AppendLog.entryHashes, len_congr h, h _ (tagged_entryHashKey _)]

/-- The hashes are read where the length is not negative. -/
theorem not_neg_of_entryHashes {hs : List Hash} (h : AppendLog.entryHashes db = .ok hs) : ¬ AppendLog.len db < 0 := by
  intro hlen
  rw [AppendLog.entryHashes, if_pos hlen] at h
  cases h

theorem logView_congr {db' : Pebble} (h : ∀ k, Tagged logTags k → db'[k]? = db[k]?) : logView P db' = logView P db := by
  have hlen := len_congr h
  have hhashes := entryHashes_congr h
  have hget : AppendLog.get P db' = AppendLog.get P db :=
    funext fun seq => by rw [AppendLog.get, h _ (tagged_entryKey seq), AppendLog.get]
  simp only [logView, hlen, hget, AppendLog.rootHash, hhashes, LogView.mk.injEq, true_and]
  exact funext fun seq => by rw [AppendLog.getInclusionProof, hhashes, AppendLog.getInclusionProof]

/-! ## The connectivity of an edge -/

/-- The edge's key holds its conclusion, and its premise keys the premises. -/
theorem getConnectivity_eq_some {e c : Hash} {ps : List Hash} (hedge : db[GraphIndex.edgeKey e]? = some c.raw)
    (hlen : ps.length < 2 ^ 63) (hps : ∀ k v, GraphIndex.premisePrefix e <+: k →
      (db[k]? = some v ↔ ∃ i, (ps.map Hash.raw)[i]? = some v ∧ k = GraphIndex.premiseKey e i)) :
    GraphIndex.getConnectivity db e = some (ps, c) := by
  have hscan : (db.scan (GraphIndex.premisePrefix e) (GraphIndex.prefixUpperBound (GraphIndex.premisePrefix e))).map
      Prod.snd = ps.map Hash.raw := scan_positions (by rw [List.length_map]; omega) hps
  have hread : (db.scan (GraphIndex.premisePrefix e) (GraphIndex.prefixUpperBound (GraphIndex.premisePrefix e))).map
      (fun kv => copyHash kv.2) = ps := by
    rw [show (fun kv : Bytes × Bytes => copyHash kv.2) = copyHash ∘ Prod.snd from rfl, ← List.map_map, hscan,
      List.map_map, show copyHash ∘ Hash.raw = id from funext copyHash_raw, List.map_id]
  simp only [GraphIndex.getConnectivity, hedge, hread, copyHash_raw]

namespace Represents

/-! ## The graph -/

/-- A scan of a family whose keys are `p` and a hash. -/
theorem lists {p : Bytes} {n : Nat} (h : Represents P a db) (hn : p.length = n) (owner : Hash → Key)
    (hkey : ∀ x, (owner x).bytes = p ++ x.raw) (hpre : ∀ key : Key, p <+: key.bytes → ∃ x, key = owner x) :
    Spec.Lists ((db.scan p (GraphIndex.prefixUpperBound p)).map fun kv => copyHash (kv.1.drop n))
      {x | ∃ v, Held P a (owner x) v} := by
  have hform : ∀ k v, db[k]? = some v → p <+: k → ∃ x : Hash, k = p ++ x.raw := by
    intro k v hk hp
    obtain ⟨key, rfl, -⟩ := h.get.mp hk
    obtain ⟨x, rfl⟩ := hpre key hp
    exact ⟨x, hkey x⟩
  have hscan := lists_scan hn hform
  refine ⟨hscan.ascending, hscan.mem.trans (exists_congr fun v => ?_)⟩
  rw [← hkey, h.getElem?]

theorem allNodes (h : Represents P a db) : Spec.Lists (GraphIndex.allNodes db) a.nodes := by
  have hl := h.lists (n := 1) rfl .node (fun _ => rfl) fun _ => Key.of_prefix_node
  refine ⟨hl.ascending, fun {x} => hl.mem.trans ⟨fun hx => ?_, fun hx => ⟨[], .node hx⟩⟩⟩
  obtain ⟨v, hv⟩ := hx
  cases hv with
  | node hn => exact hn

theorem allEdges (h : Represents P a db) : Spec.Lists (GraphIndex.allEdges db) a.allEdges := by
  have hl := h.lists (n := 1) rfl .edge (fun _ => rfl) fun _ => Key.of_prefix_edge
  refine ⟨hl.ascending, fun {x} => hl.mem.trans ⟨fun hx => ?_, fun hx => ?_⟩⟩
  · obtain ⟨v, hv⟩ := hx
    cases hv with
    | edge he => exact Option.isSome_of_eq_some he
  · obtain ⟨⟨ps, c⟩, he⟩ := Option.isSome_iff_exists.mp hx
    exact ⟨c.raw, .edge he⟩

theorem incomingEdges (h : Represents P a db) (n : Hash) :
    Spec.Lists (GraphIndex.incomingEdges db n) (a.incoming n) := by
  have hl := h.lists (p := GraphIndex.incomingPrefix n) (n := 1 + 34) (by simp [GraphIndex.incomingPrefix, n.size])
    (.incoming n) (fun _ => rfl) fun _ => Key.of_prefix_incoming
  refine ⟨hl.ascending, fun {x} => hl.mem.trans ⟨fun hx => ?_, fun hx => ?_⟩⟩
  · obtain ⟨v, hv⟩ := hx
    cases hv with
    | incoming he => exact ⟨_, he⟩
  · obtain ⟨ps, he⟩ := hx
    exact ⟨[], .incoming he⟩

theorem outgoingEdges (h : Represents P a db) (n : Hash) :
    Spec.Lists (GraphIndex.outgoingEdges db n) (a.outgoing n) := by
  have hl := h.lists (p := GraphIndex.outgoingPrefix n) (n := 1 + 34) (by simp [GraphIndex.outgoingPrefix, n.size])
    (.outgoing n) (fun _ => rfl) fun _ => Key.of_prefix_outgoing
  refine ⟨hl.ascending, fun {x} => hl.mem.trans ⟨fun hx => ?_, fun hx => ?_⟩⟩
  · obtain ⟨v, hv⟩ := hx
    cases hv with
    | outgoing he hp => exact ⟨_, _, he, hp⟩
  · obtain ⟨ps, c, he, hp⟩ := hx
    exact ⟨[], .outgoing he hp⟩

theorem getConnectivity (h : Represents P a db) (e : Hash) : GraphIndex.getConnectivity db e = a.edges e := by
  have hget : ∀ v, db[GraphIndex.edgeKey e]? = some v ↔ Held P a (.edge e) v := fun v => h.getElem? (.edge e)
  cases he : a.edges e with
  | none =>
    have hnone : db[GraphIndex.edgeKey e]? = none := by
      rw [Option.eq_none_iff_forall_ne_some]
      intro v hv
      cases (hget v).mp hv with
      | edge he' => simp [he] at he'
    rw [GraphIndex.getConnectivity, hnone]
  | some r =>
    obtain ⟨ps, c⟩ := r
    have hsome : db[GraphIndex.edgeKey e]? = some c.raw := (hget _).mpr (.edge he)
    refine getConnectivity_eq_some hsome (h.premises he) fun k v hp => ?_
    rw [h.get]
    constructor
    · intro hk
      obtain ⟨key, rfl, hv⟩ := hk
      obtain ⟨pos, rfl⟩ := Key.of_prefix_premise hp
      cases hv with
      | premise he' hp' =>
        rw [he] at he'
        cases he'
        exact ⟨pos.toNat, by rw [List.getElem?_map, hp']; rfl, rfl⟩
    · intro hi
      obtain ⟨i, hi, rfl⟩ := hi
      obtain ⟨p, hp', rfl⟩ := List.getElem?_map ▸ hi |> Option.map_eq_some_iff.mp
      have hi' := (List.getElem?_eq_some_iff.mp hp').1
      have hlen := h.premises he
      have hpos : (UInt64.ofNat i).toNat = i := UInt64.toNat_ofNat_of_lt' (by rw [UInt64.size]; omega)
      exact ⟨.premise e (.ofNat i), by rw [Key.bytes, hpos], .premise he (by rwa [hpos])⟩

/-! ## The log -/

theorem len (h : Represents P a db) : AppendLog.len db = .ofNat a.log.length := by
  by_cases hlog : a.log = []
  · have hnone : db[AppendLog.logLenKey]? = none := by
      rw [Option.eq_none_iff_forall_ne_some]
      intro v hv
      cases (h.getElem? .logLen).mp hv with
      | logLen h => exact h hlog
    rw [AppendLog.len, hnone, hlog]
    rfl
  · have hget := (h.getElem? .logLen).mpr (.logLen hlog)
    rw [Key.bytes] at hget
    rw [AppendLog.len, hget]
    exact toLen_be _

/-- An entry is read back unless its payload is nil. -/
theorem get_entry (h : Represents P a db) (laws : P.GoCborLaws) (hlen : a.log.length < 2 ^ 63) (seq : Int64) :
    AppendLog.get P db seq = (entryAt a.log seq).elim (.ok none) fun le =>
      if le.payload = none then .error (.fieldNotBytes 6) else .ok (some le) := by
  have hget : ∀ v, db[AppendLog.entryKey seq]? = some v ↔ Held P a (.entry seq) v := fun v => h.getElem? (.entry seq)
  cases he : entryAt a.log seq with
  | none =>
    have hnone : db[AppendLog.entryKey seq]? = none := by
      rw [Option.eq_none_iff_forall_ne_some]
      intro v hv
      cases (hget v).mp hv with
      | entry he' => simp [he] at he'
    rw [AppendLog.get, hnone]
    rfl
  | some le =>
    obtain ⟨i, hi, -⟩ := (entryAt_eq_some hlen.le).mp he
    obtain ⟨enc, henc⟩ := h.encoded (List.mem_of_getElem? hi)
    rw [AppendLog.get, (hget enc).mpr (.entry he henc)]
    simp only [decodeEntry_encodeEntry laws henc, Option.elim_some]
    cases hp : le.payload with
    | none => rfl
    | some payload => rfl

theorem get_log (h : Represents P a db) (laws : P.GoCborLaws) (hlen : a.log.length < 2 ^ 63)
    (hpay : ∀ le ∈ a.log, le.payload ≠ none) (seq : Int64) : AppendLog.get P db seq = .ok (entryAt a.log seq) := by
  rw [h.get_entry laws hlen]
  cases he : entryAt a.log seq with
  | none => rfl
  | some le =>
    obtain ⟨i, hi, -⟩ := (entryAt_eq_some hlen.le).mp he
    rw [Option.elim_some, if_neg (hpay le (List.mem_of_getElem? hi))]

theorem entryHashes (h : Represents P a db) (hlen : a.log.length < 2 ^ 63) :
    AppendLog.entryHashes db = .ok (a.log.map LogEntry.entryHash) := by
  rw [AppendLog.entryHashes, h.len, if_neg (ofNat_nonneg hlen), Int64.toInt_ofNat_of_lt hlen, Int.toNat_natCast]
  refine (mapM_eq_ok (g := fun i => (a.log.map LogEntry.entryHash)[i]?.getD AppendLog.genesisPrevHash)
    fun i hi => ?_).trans (congrArg Except.ok (List.ext_getElem (by simp) fun i hi _ => ?_))
  · have hi := List.mem_range.mp hi
    have hget := (h.getElem? (.entryHash (.ofNat i))).mpr
      (.entryHash ((entryAt_ofNat (by omega)).trans (List.getElem?_eq_getElem hi)))
    rw [Key.bytes] at hget
    simp [hget, copyHash_raw, hi]
  · have hi : i < a.log.length := by simpa using hi
    simp [hi]

theorem rootHash (h : Represents P a db) (hlen : a.log.length < 2 ^ 63) :
    AppendLog.rootHash P db = .ok (Merkle.rootHash P (a.log.map LogEntry.entryHash)) := by
  rw [AppendLog.rootHash, h.entryHashes hlen]
  rfl

end Represents

end ArxDB.Proof.Go
