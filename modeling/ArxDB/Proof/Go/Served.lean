import ArxDB.Impl.Go.Service
import ArxDB.Proof.Go.Session

/-!
# The log of the daemon

Requests one after the other, as far as the log goes: nothing is asked here of
the edges, which may be registered again with other premises. `LogHolds` is
what the log keys hold, `Counted` that every number below the length has a
hash; the first needs a log of fewer than `2 ^ 63` entries, the second does not.
-/

namespace ArxDB.Proof.Go

open Impl (Bytes GoAny Hash Prims)
open Impl.Go BigEndian Failing

variable {P : Prims} {kp : Keypair} {log : List LogEntry} {db : Pebble}

/-! ## The log keys -/

/-- An abstract store with a log alone. -/
def logOnly (log : List LogEntry) : Abstract := ⟨∅, fun _ => none, log⟩

/-- The log keys hold these entries. -/
def LogHolds (P : Prims) (log : List LogEntry) (db : Pebble) : Prop :=
  ∃ db' : Pebble, Represents P (logOnly log) db' ∧ ∀ k, Tagged logTags k → db[k]? = db'[k]?

theorem LogHolds.empty : LogHolds P [] ∅ := ⟨∅, .empty, fun _ _ => rfl⟩

theorem LogHolds.logView (h : LogHolds P log db) : ∃ db' : Pebble, Represents P (logOnly log) db' ∧
    logView P db = logView P db' := by
  obtain ⟨db', hrep, hk⟩ := h
  exact ⟨db', hrep, logView_congr hk⟩

theorem LogHolds.len (h : LogHolds P log db) : AppendLog.len db = .ofNat log.length := by
  obtain ⟨db', hrep, hv⟩ := h.logView
  have hlen : AppendLog.len db = AppendLog.len db' := congrArg LogView.len hv
  rw [hlen, hrep.len]
  rfl

theorem LogHolds.entryHashes (h : LogHolds P log db) (hlen : log.length < 2 ^ 63) :
    AppendLog.entryHashes db = .ok (log.map LogEntry.entryHash) := by
  obtain ⟨db', hrep, hk⟩ := h
  rw [entryHashes_congr hk]
  exact hrep.entryHashes hlen

theorem LogHolds.get (h : LogHolds P log db) (laws : P.GoCborLaws) (hlen : log.length < 2 ^ 63) (seq : Int64) :
    AppendLog.get P db seq = (entryAt log seq).elim (.ok none) fun le =>
      if le.payload = none then .error (.fieldNotBytes 6) else .ok (some le) := by
  obtain ⟨db', hrep, hv⟩ := h.logView
  have hget : AppendLog.get P db = AppendLog.get P db' := congrArg LogView.get hv
  rw [hget, hrep.get_entry laws hlen]
  rfl

/-- A staged entry is also the next one of any database with the same log keys. -/
theorem Next.transfer {now : Int64} {pre b : Batch} {entry : Slice} {le : LogEntry} {db' : Pebble}
    (hn : Next P kp now db pre entry b le) (hk : ∀ k, Tagged logTags k → (db.commit pre)[k]? = db'[k]?) :
    ∃ sets, b = pre ++ sets ∧ Next P kp now db' [] entry sets le := by
  obtain ⟨enc, henc, hb⟩ := hn.sets
  have hlen := len_congr hk
  have hprev : prevHash (db.commit pre) = prevHash db' := by
    funext seq
    rw [prevHash, hk _ (tagged_entryHashKey _), prevHash]
  exact ⟨_, hb, ⟨⟨hn.seq.trans hlen, hn.timestampNs, hn.signerPubkey, hn.entryHash, hn.payload, enc, henc, rfl⟩,
    hprev ▸ hn.prevLogHash, hn.signed⟩⟩

/-- An entry after writes to the graph. -/
theorem LogHolds.next {now : Int64} {pre b : Batch} {entry : Slice} {le : LogEntry} (h : LogHolds P log db)
    (hl : Linked P log) (hlen : log.length < 2 ^ 63) (hpre : ∀ kv ∈ pre, Tagged graphTags kv.1)
    (hn : Next P kp now db pre entry b le) : LogHolds P (log ++ [le]) (db.commit b) ∧ Linked P (log ++ [le]) := by
  obtain ⟨db', hrep, hk⟩ := h
  have hk' : ∀ k, Tagged logTags k → (db.commit pre)[k]? = db'[k]? := by
    intro k hkey
    rw [← hk k hkey]
    exact getElem?_commit_of_ne fun kv hkv => (hpre kv hkv).ne hkey
  obtain ⟨sets, rfl, hn'⟩ := hn.transfer hk'
  have hrep' : Represents P (logOnly log) (db'.commit []) := hrep
  have hlinked : Linked P ((logOnly log).append le).log := Linked.next hl hrep' hlen hn'
  refine ⟨⟨_, hrep'.next hlen hn', fun k hkey => ?_⟩, hlinked⟩
  rw [commit_append]
  exact getElem?_commit_congr (hk' k hkey)

/-! ## A request -/

/-- What a request leaves that is answered with success. -/
def Handled (P : Prims) (kp : Keypair) (now : Int64) (request : Request) (s : Storage) (response : Response)
    (s' : Storage) : Prop :=
  ∃ pre b, (∀ kv ∈ pre, Tagged graphTags kv.1) ∧
    Next P kp now s.db pre (.ofField request.payload) b response.entry ∧ s'.db = s.db.commit b

theorem handle_wp {now : Int64} {request : Request} {s : Storage} :
    WP (Service.handle P kp now request) (fun response s' => Handled P kp now request s response s')
      (fun _ s' => s'.db = s.db) s := by
  have commit : ∀ {pre : Batch} {d : Pending} {s₁ : Storage}, (∀ kv ∈ pre, Tagged graphTags kv.1) →
      Next P kp now s.db pre (.ofField request.payload) d.batch d.response.entry → s₁.db = s.db →
      WP (do
          Prog.mapError (fun e : GoError => (⟨.internal, request.context, e⟩ : Status)) (Storage.commit d.batch)
          pure d.response)
        (fun response s' => Handled P kp now request s response s') (fun _ s' => s'.db = s.db) s₁ := by
    intro pre d s₁ hpre hn hdb
    refine .bind (.mapError (commit_wp.mono (fun _ s' h => ?_) fun _ s' h => by rw [h, hdb]))
    exact .pure ⟨pre, d.batch, hpre, hn, by rw [h, hdb]⟩
  cases request with
  | append entry =>
    refine .bind (.bind (.mapError (stageAppend_wp.mono (fun r s' h => ?_) fun _ _ h => by rw [h])))
    obtain ⟨hn, rfl⟩ := h
    exact .pure (commit (by simp) hn rfl)
  | commitEdge premises conclusion edgeData proof =>
    refine .bind (.bind (.lift (fun conclusion' _ => ?_) fun _ _ => rfl))
    refine .bind (.lift (fun premises' _ => ?_) fun _ _ => rfl)
    refine .bind (.mapError (stageEdgeTx_wp.mono (fun r s' h => ?_) fun _ _ h => h.1))
    obtain ⟨-, hn, rfl⟩ := h
    exact .pure (commit (fun kv hkv => (edgeSets_keys hkv).1) hn rfl)

theorem serve_concat {rpcs : List Rpc} {rpc : Rpc} :
    Daemon.serve P kp (rpcs ++ [rpc]) = Daemon.serveOne P kp (Daemon.serve P kp rpcs) rpc := List.foldl_concat ..

/-- One request: answered with success and recorded, or with the database as it was. -/
theorem serveOne_cases (P : Prims) (kp : Keypair) (s : Daemon.Served) (rpc : Rpc) :
    (∃ response, Handled P kp rpc.now rpc.request s.storage response (Daemon.serveOne P kp s rpc).storage ∧
      (Daemon.serveOne P kp s rpc).returned = s.returned ++ [(rpc.request, response)]) ∨
    ((Daemon.serveOne P kp s rpc).storage.db = s.storage.db ∧
      (Daemon.serveOne P kp s rpc).returned = s.returned) := by
  have hwp : WP (Service.handle P kp rpc.now rpc.request) _ _ s.storage := handle_wp
  rcases hx : (Service.handle P kp rpc.now rpc.request).exec rpc.fault s.storage with ⟨e | response, s'⟩
  · exact .inr ⟨by simpa only [Daemon.serveOne, hx] using hwp.error hx, by simp only [Daemon.serveOne, hx]⟩
  · exact .inl ⟨response, by simpa only [Daemon.serveOne, hx] using hwp.ok hx, by simp only [Daemon.serveOne, hx]⟩

/-! ## Requests one after the other -/

/-- The entries that were answered. -/
def answered (s : Daemon.Served) : List LogEntry := s.returned.map fun r => r.2.entry

/-- The log holds the entries that were answered, which are the payloads asked for. -/
structure HoldsAnswered (P : Prims) (s : Daemon.Served) : Prop where
  holds : LogHolds P (answered s) s.storage.db
  linked : Linked P (answered s)
  payload {r : Request × Response} (h : r ∈ s.returned) : r.2.entry.payload = .ofField r.1.payload

theorem HoldsAnswered.serveOne {s : Daemon.Served} (h : HoldsAnswered P s) (rpc : Rpc)
    (hlen : (Daemon.serveOne P kp s rpc).returned.length < 2 ^ 63) : HoldsAnswered P (Daemon.serveOne P kp s rpc) := by
  rcases serveOne_cases P kp s rpc with ⟨response, hdone, hret⟩ | ⟨hdb, hret⟩
  · obtain ⟨pre, b, hpre, hn, hdb⟩ := hdone
    have hans : answered (Daemon.serveOne P kp s rpc) = answered s ++ [response.entry] := by
      rw [answered, hret, List.map_append]
      rfl
    have hlen' : (answered s).length < 2 ^ 63 := by
      rw [hret, List.length_append] at hlen
      rw [answered, List.length_map]
      omega
    obtain ⟨hholds, hlinked⟩ := h.holds.next h.linked hlen' hpre hn
    refine ⟨by rw [hans, hdb]; exact hholds, by rw [hans]; exact hlinked, fun {r} hr => ?_⟩
    rw [hret, List.mem_append] at hr
    rcases hr with hr | hr
    · exact h.payload hr
    · obtain rfl := List.mem_singleton.mp hr
      exact hn.payload
  · refine ⟨by rw [answered, hret, hdb]; exact h.holds, by rw [answered, hret]; exact h.linked, fun {r} hr => ?_⟩
    exact h.payload (hret ▸ hr)

theorem returned_length_le (s : Daemon.Served) (rpc : Rpc) :
    s.returned.length ≤ (Daemon.serveOne P kp s rpc).returned.length := by
  rcases serveOne_cases P kp s rpc with ⟨response, -, hret⟩ | ⟨-, hret⟩
  · rw [hret, List.length_append]
    omega
  · rw [hret]

theorem serve_holdsAnswered (rpcs : List Rpc) (hlen : (Daemon.serve P kp rpcs).returned.length < 2 ^ 63) :
    HoldsAnswered P (Daemon.serve P kp rpcs) := by
  induction rpcs using List.reverseRecOn with
  | nil =>
    refine ⟨.empty, ⟨fun h => ?_, fun h => ?_, fun h => ?_⟩, fun h => ?_⟩
    all_goals cases h
  | append_singleton rpcs rpc ih =>
    rw [serve_concat] at hlen ⊢
    exact (ih (Nat.lt_of_le_of_lt (returned_length_le _ rpc) hlen)).serveOne rpc hlen

/-- The hashes of a log that holds what was answered. -/
theorem HoldsAnswered.hashes {s : Daemon.Served} (h : HoldsAnswered P s) :
    (answered s).map LogEntry.entryHash = (s.returned.map fun r => r.1.payload).map P.hashBytes := by
  rw [answered, List.map_map, List.map_map]
  refine List.map_congr_left fun r hr => ?_
  have hhash := h.linked.entryHash (List.mem_map_of_mem hr)
  rw [h.payload hr, ofField_bytes] at hhash
  exact hhash

/-! ## Hashes by number -/

/-- Every number below the length has a hash. -/
def Counted (db : Pebble) : Prop :=
  ∀ seq : Int64, 0 ≤ seq → seq < AppendLog.len db → ∃ h : Hash, db[AppendLog.entryHashKey seq]? = some h.raw

theorem Counted.congr {db' : Pebble} (h : Counted db) (hk : ∀ k, Tagged logTags k → db'[k]? = db[k]?) :
    Counted db' := by
  intro seq h₀ hlt
  rw [len_congr hk] at hlt
  rw [hk _ (tagged_entryHashKey seq)]
  exact h seq h₀ hlt

/-- A number up to the length is below it or is it; at the last number there is none. -/
theorem lt_succ_cases {seq len : Int64} (h : seq < len + 1) (h₀ : 0 ≤ seq) : seq < len ∨ seq = len := by
  rw [Int64.lt_iff_toInt_lt, Int64.toInt_add] at h
  rw [Int64.lt_iff_toInt_lt, ← Int64.toInt_inj]
  rw [Int64.le_iff_toInt_le] at h₀
  have h₁ := Int64.toInt_lt len
  have h₂ := Int64.le_toInt len
  have h1 : (1 : Int64).toInt = 1 := rfl
  have h0 : (0 : Int64).toInt = 0 := rfl
  rw [h1, Int.bmod_def] at h
  omega

theorem Counted.next {now : Int64} {pre b : Batch} {entry : Slice} {le : LogEntry} (h : Counted db)
    (hpre : ∀ kv ∈ pre, Tagged graphTags kv.1) (hn : Next P kp now db pre entry b le) : Counted (db.commit b) := by
  obtain ⟨enc, -, rfl⟩ := hn.sets
  rw [commit_append]
  change Counted ((db.commit pre).commit (entrySets le enc))
  have hp : Counted (db.commit pre) :=
    h.congr fun k hk => getElem?_commit_of_ne fun kv hkv => (hpre kv hkv).ne hk
  have hlen : AppendLog.len ((db.commit pre).commit (entrySets le enc)) = le.seq + 1 := by
    have hget : ((db.commit pre).commit (entrySets le enc))[AppendLog.logLenKey]? =
        some (be 8 (le.seq + 1).toUInt64.toNat) := (getElem?_commit_entrySets .logLen).trans (if_pos rfl)
    rw [AppendLog.len, hget]
    exact toLen_be _
  intro seq h₀ hlt
  rw [hlen] at hlt
  have hget : ((db.commit pre).commit (entrySets le enc))[AppendLog.entryHashKey seq]? = _ :=
    getElem?_commit_entrySets (.entryHash seq)
  by_cases he : seq = le.seq
  · subst he
    exact ⟨le.entryHash, by simpa using hget⟩
  · have hold : seq < AppendLog.len (db.commit pre) := by
      rcases lt_succ_cases hlt h₀ with hlt | heq
      · rwa [hn.seq] at hlt
      · exact absurd heq he
    obtain ⟨h', hh'⟩ := hp seq h₀ hold
    refine ⟨h', ?_⟩
    rw [← hh']
    simpa [he, Key.bytes] using hget

theorem serve_counted (P : Prims) (kp : Keypair) (rpcs : List Rpc) : Counted (Daemon.serve P kp rpcs).storage.db := by
  induction rpcs using List.reverseRecOn with
  | nil =>
    intro seq h₀ hlt
    have hlen : AppendLog.len (∅ : Pebble) = 0 := by
      rw [AppendLog.len, Std.ExtTreeMap.getElem?_empty]
    rw [show (Daemon.serve P kp []).storage.db = ∅ from rfl, hlen] at hlt
    exact absurd hlt (by rw [Int64.lt_iff_toInt_lt, not_lt, ← Int64.le_iff_toInt_le]; exact h₀)
  | append_singleton rpcs rpc ih =>
    rw [serve_concat]
    rcases serveOne_cases P kp (Daemon.serve P kp rpcs) rpc with ⟨response, hdone, -⟩ | ⟨hdb, -⟩
    · obtain ⟨pre, b, hpre, hn, hdb⟩ := hdone
      rw [hdb]
      exact ih.next hpre hn
    · rw [hdb]
      exact ih

/-- Where the length is not negative, the hashes of the log can be read. -/
theorem Counted.entryHashes (h : Counted db) (hlen : ¬ AppendLog.len db < 0) :
    ∃ hs, AppendLog.entryHashes db = .ok hs ∧ hs.length = (AppendLog.len db).toInt.toNat := by
  have hlt := Int64.toInt_lt (AppendLog.len db)
  have hget : ∀ i ∈ List.range (AppendLog.len db).toInt.toNat,
      ∃ h : Hash, db[AppendLog.entryHashKey (.ofNat i)]? = some h.raw := by
    intro i hi
    have hi := List.mem_range.mp hi
    have hi' : i < 2 ^ 63 := by omega
    refine h _ ?_ ?_
    · rw [Int64.le_iff_toInt_le, Int64.toInt_ofNat_of_lt hi']
      exact Int.natCast_nonneg i
    · rw [Int64.lt_iff_toInt_lt, Int64.toInt_ofNat_of_lt hi']
      omega
  have : Nonempty Hash := ⟨AppendLog.genesisPrevHash⟩
  choose! f hf using hget
  refine ⟨(List.range (AppendLog.len db).toInt.toNat).map f, ?_, by simp⟩
  rw [AppendLog.entryHashes, if_neg hlen]
  refine mapM_eq_ok fun i hi => ?_
  simp only [hf i hi, copyHash_raw]

end ArxDB.Proof.Go
