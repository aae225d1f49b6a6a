import ArxDB.Impl.Commit

/-!
# What the storage operations do

One specification for each operation of `storage.py` and its parts, over both
outcomes: what is written when it returns (`put_wp`, `registerEdge_wp`,
`append_wp`, `commitEdgeTx_wp`), and what is left when it raises, at whichever
statement. A `commit_edge_tx` that raises has either committed everything or
left the database as it was.
-/

namespace ArxDB.Proof

open Impl Failing

variable {P : Prims} {keys : Keys} {now : Int}

/-! ## Objects -/

theorem objectStore_put_wp {objects : Files} {data : Bytes} :
    WP (ObjectStore.put P data) (fun h objects' => h = P.hashBytes data ∧
        objects' = ObjectStore.insert P objects data)
      (fun _ objects' => objects' = objects ∨ objects' = ObjectStore.insert P objects data) objects :=
  .bind <| .statement (.inl rfl) <| .bind <| .update <| .bind <| .statement (.inr rfl) <|
    .pure ⟨rfl, rfl⟩

theorem put_wp {s : Storage} {data : Bytes} :
    WP (Storage.put P data) (fun h s' => h = P.hashBytes data ∧
        s' = { s with objects := ObjectStore.insert P s.objects data })
      (fun _ s' => s' = s ∨ s' = { s with objects := ObjectStore.insert P s.objects data }) s := by
  rw [Storage.put, Storage.onObjects]
  refine .zoom (objectStore_put_wp.mono ?_ ?_)
  · rintro - o ⟨rfl, rfl⟩
    exact ⟨rfl, rfl⟩
  · rintro - o (rfl | rfl)
    · exact .inl rfl
    · exact .inr rfl

/-! ## The index -/

/-- The index after `register_edge`. -/
def registered (edgeHash : Hash) (premises : List Hash) (conclusion : Hash) (g : GraphIndex) : GraphIndex :=
  premises.zipIdx.foldl (fun g p => g.insertPremise ⟨edgeHash, p.1, p.2⟩)
    ((premises.foldl (fun g p => g.insertNode p) (g.insertNode conclusion)).insertEdge ⟨edgeHash, conclusion⟩)

/-- A loop of statements that each make one change. -/
theorem forM_update_wp {ε σ γ : Type} {e : ε} {f : γ → σ → σ} {l : List γ} {s : σ} :
    WP (l.forM fun c => do Prog.statement e; Prog.update (f c))
      (fun _ s' => s' = l.foldl (fun s c => f c s) s) (fun _ _ => True) s := by
  have step : ∀ (done : List γ) c rest, l = done ++ c :: rest → ∀ s', s' = done.foldl (fun s c => f c s) s →
      WP (do Prog.statement e; Prog.update (f c)) (fun _ s' => s' = (done ++ [c]).foldl (fun s c => f c s) s)
        (fun _ _ => True) s' :=
    fun done c _ _ s' h => .bind <| .statement trivial <| .update (by simp [h])
  have h₀ : s = ([] : List γ).foldl (fun s c => f c s) s := rfl
  exact WP.forM step h₀

theorem registerEdge_wp {g : GraphIndex} {edgeHash : Hash} {premises : List Hash} {conclusion : Hash} :
    WP (GraphIndex.registerEdge edgeHash premises conclusion)
      (fun _ g' => g' = registered edgeHash premises conclusion g) (fun _ _ => True) g := by
  refine .bind <| .bind <| .statement trivial <| .update <| .bind <| forM_update_wp.mono ?_ fun _ _ h => h
  rintro - g' rfl
  refine .bind <| .statement trivial <| .bind <| .update <| forM_update_wp.mono ?_ fun _ _ h => h
  rintro - g' rfl
  rfl

/-! ## The log -/

/-- `e` is the entry that `append(payload)` makes at the end of `log`. -/
structure Appended (P : Prims) (keys : Keys) (now : Int) (payload : Bytes) (log : Log) (e : LogEntry) : Prop where
  seq : e.seq = log.length
  timestampNs : e.timestampNs = now
  signerPubkey : e.signerPubkey = keys.pub
  entryHash : e.entryHash = P.hashBytes payload
  prevLogHash : AppendLog.prevHash log log.length = .ok e.prevLogHash
  payload : e.payload = payload
  signed : ∃ message, AppendLog.signatureMessage P e.seq now keys.pub e.entryHash e.prevLogHash = .ok message ∧
    P.sign keys.priv message = .ok e.signature

theorem insert_wp {log : Log} {row : LogRow} {E : PyError → Log → Prop} {Q : Unit → Log → Prop}
    (hQ : AppendLog.row? log row.seq = none → Q () (log ++ [row])) (hE : ∀ e, E e log) :
    WP (AppendLog.insert row) Q E log := by
  refine .bind <| .read ?_
  split
  · exact .lift (fun _ h => by cases h) fun e _ => hE e
  · rename_i h
    exact .update (hQ (by simpa using h))

theorem appendLog_append_wp {log : Log} {payload : Bytes} :
    WP (AppendLog.append P keys now payload)
      (fun e log' => Appended P keys now payload log e ∧ log' = log ++ [e.row])
      (fun _ log' => log' = log ∨ ∃ e, Appended P keys now payload log e ∧ log' = log ++ [e.row]) log := by
  refine .bind <| .statement (.inl rfl) <| .bind <| .read <| .bind <| .statement (.inl rfl) <| .bind <|
    .read <| .bind <| .lift (fun prev hp => ?_) fun _ _ => .inl rfl
  refine .bind <| .lift (fun message hm => .bind <| .lift (fun signature hs => ?_) fun _ _ => .inl rfl)
    fun _ _ => .inl rfl
  have key : Appended P keys now payload log ⟨log.length, now, keys.pub, P.hashBytes payload, prev, signature,
      payload⟩ := ⟨rfl, rfl, rfl, rfl, hp, rfl, message, hm, hs⟩
  exact .bind <| .statement (.inl rfl) <| .bind <| insert_wp
    (fun _ => .bind <| .statement (.inr ⟨_, key, rfl⟩) <| .pure ⟨key, rfl⟩) fun _ => .inl rfl

theorem append_wp {s : Storage} {payload : Bytes} :
    WP (Storage.append P keys now payload)
      (fun e s' => Appended P keys now payload s.log e ∧
        s' = { s with db := { s.db with log := s.log ++ [e.row] } })
      (fun _ s' => s' = s ∨ ∃ e, Appended P keys now payload s.log e ∧
        s' = { s with db := { s.db with log := s.log ++ [e.row] } }) s := by
  rw [Storage.append, Storage.onDb, Storage.onLog]
  refine .zoom (.zoom (appendLog_append_wp.mono ?_ ?_))
  · rintro e log ⟨h, rfl⟩
    exact ⟨h, rfl⟩
  · rintro - log (rfl | ⟨e, h, rfl⟩)
    · exact .inl rfl
    · exact .inr ⟨e, h, rfl⟩

/-! ## `commit_edge_tx` -/

/-- The blobs of an edge, stored. -/
def storedBlobs (P : Prims) (edgeData : Bytes) (proof : Option Bytes) (objects : Files) : Files :=
  let objects' := ObjectStore.insert P objects edgeData
  proof.elim objects' (ObjectStore.insert P objects')

/-- The database after a commit that logs `e`. -/
def committed (P : Prims) (premises : List Hash) (conclusion : Hash) (edgeData : Bytes) (db : Db)
    (e : LogEntry) : Db :=
  ⟨registered (P.hashBytes edgeData) premises conclusion db.graph, db.log ++ [e.row]⟩

/-- `s'` is `s` after a commit that logs `e`. -/
def Commits (P : Prims) (keys : Keys) (now : Int) (premises : List Hash) (conclusion : Hash) (edgeData : Bytes)
    (proof : Option Bytes) (s : Storage) (e : LogEntry) (s' : Storage) : Prop :=
  Appended P keys now edgeData s.log e ∧
    s' = ⟨storedBlobs P edgeData proof s.objects, committed P premises conclusion edgeData s.db e⟩

/-- `s'` is `s` after a commit that raised: with the database as it was and
some of the blobs, or after the whole commit. -/
def CommitFails (P : Prims) (keys : Keys) (now : Int) (premises : List Hash) (conclusion : Hash)
    (edgeData : Bytes) (proof : Option Bytes) (s s' : Storage) : Prop :=
  (s'.db = s.db ∧ (s'.objects = s.objects ∨ s'.objects = ObjectStore.insert P s.objects edgeData ∨
    s'.objects = storedBlobs P edgeData proof s.objects)) ∨
  ∃ e, Commits P keys now premises conclusion edgeData proof s e s'

section CommitEdgeTx

variable {premises : List Hash} {conclusion : Hash} {edgeData : Bytes} {proof : Option Bytes}

theorem commitOnly_wp {db : Db} :
    WP (Prog.transactionOnly .fault do
        Storage.onGraph (GraphIndex.registerEdge (P.hashBytes edgeData) premises conclusion)
        Storage.onLog (AppendLog.append P keys now edgeData))
      (fun e db' => Appended P keys now edgeData db.log e ∧ db' = committed P premises conclusion edgeData db e)
      (fun _ db' => db' = db) db := by
  refine .transactionOnly (fun _ => rfl) <| .bind <| .zoom <| registerEdge_wp.mono ?_ fun _ _ _ => trivial
  rintro - g rfl
  refine .zoom <| appendLog_append_wp.mono ?_ fun _ _ _ => trivial
  rintro e log ⟨h, rfl⟩
  exact ⟨h, rfl⟩

theorem commitTransaction_wp {db : Db} :
    WP (Prog.transaction .fault do
        Storage.onGraph (GraphIndex.registerEdge (P.hashBytes edgeData) premises conclusion)
        Storage.onLog (AppendLog.append P keys now edgeData))
      (fun e db' => Appended P keys now edgeData db.log e ∧ db' = committed P premises conclusion edgeData db e)
      (fun _ db' => db' = db ∨ ∃ e, Appended P keys now edgeData db.log e ∧
        db' = committed P premises conclusion edgeData db e) db := by
  rw [Prog.transaction_eq]
  refine .bind <| commitOnly_wp.mono ?_ fun _ _ h => .inl h
  exact fun e _ h => .bind <| .statement (.inr ⟨e, h⟩) <| .pure h

/-- A commit that raises before its `COMMIT` is done leaves the database as it was. -/
theorem commitEdgeStatements_wp {s : Storage} :
    WP (Storage.commitEdgeStatements P keys now premises conclusion edgeData proof)
      (fun r s' => r.1 = P.hashBytes edgeData ∧
        Commits P keys now premises conclusion edgeData proof s r.2 s')
      (fun _ s' => s'.db = s.db ∧ (s'.objects = s.objects ∨ s'.objects = ObjectStore.insert P s.objects edgeData ∨
        s'.objects = storedBlobs P edgeData proof s.objects)) s := by
  have tx : WP (do
      let logEntry ← Storage.onDb <| Prog.transactionOnly .fault do
        Storage.onGraph (GraphIndex.registerEdge (P.hashBytes edgeData) premises conclusion)
        Storage.onLog (AppendLog.append P keys now edgeData)
      pure (P.hashBytes edgeData, logEntry))
      (fun r s' => r.1 = P.hashBytes edgeData ∧
        Commits P keys now premises conclusion edgeData proof s r.2 s')
      (fun _ s' => s'.db = s.db ∧ (s'.objects = s.objects ∨ s'.objects = ObjectStore.insert P s.objects edgeData ∨
        s'.objects = storedBlobs P edgeData proof s.objects))
      ⟨storedBlobs P edgeData proof s.objects, s.db⟩ := by
    refine .bind <| .zoom <| commitOnly_wp.mono ?_ ?_
    · rintro e db ⟨h, rfl⟩
      exact .pure ⟨rfl, h, rfl⟩
    · rintro - db rfl
      exact ⟨rfl, .inr (.inr rfl)⟩
  refine .bind <| put_wp.mono ?_ ?_
  · rintro - s' ⟨-, rfl⟩
    rcases proof with _ | proof
    · exact tx
    · refine .bind <| put_wp.mono ?_ ?_
      · rintro - s' ⟨-, rfl⟩
        exact tx
      · rintro - s' (rfl | rfl)
        · exact ⟨rfl, .inr (.inl rfl)⟩
        · exact ⟨rfl, .inr (.inr rfl)⟩
  · rintro - s' (rfl | rfl)
    · exact ⟨rfl, .inl rfl⟩
    · exact ⟨rfl, .inr (.inl rfl)⟩

/-- `commit_edge_tx` can fail only once more, after its `COMMIT`. -/
theorem commitEdgeTx_eq :
    Storage.commitEdgeTx P keys now premises conclusion edgeData proof =
      Storage.commitEdgeStatements P keys now premises conclusion edgeData proof >>= fun r =>
        Prog.statement .fault >>= fun _ => pure r := by
  have tx : ∀ x : Prog PyError Db LogEntry, Storage.onDb (Prog.transaction .fault x) =
      Storage.onDb (Prog.transactionOnly .fault x) >>= fun a => Prog.statement .fault >>= fun _ => pure a := by
    intro x
    rw [Storage.onDb, Prog.transaction_eq, Prog.zoom_bind_statement]
    rfl
  unfold Storage.commitEdgeTx Storage.commitEdgeStatements
  cases proof with
  | none =>
    simp only [tx, Prog.bind_assoc]
    rfl
  | some proof =>
    simp only [tx, Prog.bind_assoc]
    rfl

theorem commitEdgeTx_wp {s : Storage} :
    WP (Storage.commitEdgeTx P keys now premises conclusion edgeData proof)
      (fun r s' => r.1 = P.hashBytes edgeData ∧
        Commits P keys now premises conclusion edgeData proof s r.2 s')
      (fun _ s' => CommitFails P keys now premises conclusion edgeData proof s s') s := by
  rw [commitEdgeTx_eq]
  refine .bind <| commitEdgeStatements_wp.mono ?_ fun _ _ h => .inl h
  exact fun r _ h => .bind <| .statement (.inr ⟨r.2, h.2⟩) <| .pure h

end CommitEdgeTx

end ArxDB.Proof
