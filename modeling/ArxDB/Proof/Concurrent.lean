import ArxDB.Impl.Concurrent
import ArxDB.Proof.History

/-!
# Interleaved connections

What every interleaving of the clients' statements keeps (`logRely`): the rows
are those of a chain, and the log only grows. A count that another client has
overtaken is the number of an existing row, so the insertion fails; where it
succeeds, the log is the one that was counted and the link is that of its last
entry (`insertThread_keeps`). A thread that runs with nobody else is the call
that it stands for (`alone_thread`).
-/

namespace ArxDB.Proof

open Impl Failing Threads

variable {P : Prims} {keys : Keys} {now : Int} {payload : Bytes}

/-! ## Alone -/

theorem insert_run (log : Log) (row : LogRow) (n : Option Nat) : AppendLog.insert row ⟨log, n⟩ =
    (if (AppendLog.row? log row.seq).isSome then .error .integrityError else .ok (),
      ⟨if (AppendLog.row? log row.seq).isSome then log else log ++ [row], n⟩) := by
  simp only [AppendLog.insert, bind, Prog.read]
  cases (AppendLog.row? log row.seq).isSome <;> rfl

/-- With nobody else, the statements of `append` are `append`. -/
theorem alone_appendThread (log : Log) :
    (AppendLog.appendThread P keys now payload).alone log = (AppendLog.append P keys now payload).exec none log := by
  have same : (AppendLog.appendThread P keys now payload).alone log = (AppendLog.insertThread
      (AppendLog.newEntry P keys now payload log.length (AppendLog.prevHash log log.length))).alone log := by
    simp only [AppendLog.appendThread, Thread.alone]
    split
    · rename_i hn
      simp only [hn, AppendLog.prevHash, if_true]
      rfl
    · rfl
  rw [same]
  simp only [AppendLog.append, Prog.exec, bind, Prog.statement, Prog.read, Prog.lift, AppendLog.newEntry]
  cases hp : AppendLog.prevHash log log.length with
  | error e => rfl
  | ok prev =>
    simp only [Except.bind]
    cases hm : AppendLog.signatureMessage P log.length now keys.pub (P.hashBytes payload) prev with
    | error e => rfl
    | ok message =>
      simp only []
      cases hs : P.sign keys.priv message with
      | error e => rfl
      | ok signature =>
        simp only [pure, Except.pure, AppendLog.insertThread, atomically, Thread.alone, Prog.exec, insert_run]
        cases (AppendLog.row? log _).isSome <;> rfl

/-- With nobody else, the parts of `commit_edge_tx` are `commit_edge_tx`. -/
theorem alone_commitEdgeTxThread {premises : List Hash} {conclusion : Hash} {edgeData : Bytes} {proof : Option Bytes}
    (s : Storage) :
    (Storage.commitEdgeTxThread P keys now premises conclusion edgeData proof fun _ => none).alone s =
      ((Storage.commitEdgeTx P keys now premises conclusion edgeData proof).exec none s).map
        (Except.map Prod.snd) id := by
  have key : ∀ (x : Prog PyError Storage LogEntry) (s : Storage),
      (atomically x none fun logEntry => .done (.ok logEntry)).alone s =
        (Prog.exec (do let logEntry ← x; pure (P.hashBytes edgeData, logEntry)) none s).map
          (Except.map Prod.snd) id := by
    intro x s
    simp only [atomically, Thread.alone, Prog.exec, bind]
    cases x ⟨s, none⟩ with
    | mk r s => cases r <;> rfl
  cases proof with
  | none => exact key _ _
  | some proof => exact key _ _

/-- With nobody else, a client whose statements do not fail makes its call. -/
theorem alone_thread {c : LogClient} (h : c.Faultless) (s : Storage) :
    (c.thread P).alone s = (c.call P).exec none s := by
  cases c with
  | append keys now payload =>
    have hzoom := @Thread.alone_zoom _ _ _ Storage.log (fun log s => { s with db := { s.db with log } })
      (fun _ _ => rfl) (fun _ => rfl) (fun _ _ _ => rfl) (AppendLog.appendThread P keys now payload) s
    rw [LogClient.thread]
    rw [hzoom, alone_appendThread]
    rfl
  | commitEdgeTx keys now premises conclusion edgeData proof faults =>
    obtain rfl : faults = fun _ => none := funext h
    rw [LogClient.thread, alone_commitEdgeTxThread]
    simp only [LogClient.call, Prog.exec, bind]
    rcases Storage.commitEdgeTx P keys now premises conclusion edgeData proof ⟨s, none⟩ with ⟨_ | _, _⟩ <;> rfl

/-! ## The log -/

/-- What an append returns, where its insertion finds the log. -/
def IsNext : Except PyError LogEntry → Log → Prop
  | .ok e, log => e.seq = log.length
  | .error _, _ => True

/-- What was returned is in the log. -/
def IsLogged : Except PyError LogEntry → Log → Prop
  | .ok e, log => e.row ∈ log
  | .error _, _ => True

/-- The log is a chain, and it only grows. -/
def logRely (P : Prims) : Rely Log where
  inv log := ∃ es, log = es.map LogEntry.row ∧ Chain P es
  rel log log' := log <+: log'
  refl _ := List.prefix_rfl
  trans h h' := h.trans h'

theorem newEntry_appended {log : Log} {e : LogEntry}
    (h : AppendLog.newEntry P keys now payload log.length (AppendLog.prevHash log log.length) = .ok e) :
    Appended P keys now payload log e := by
  cases hp : AppendLog.prevHash log log.length with
  | error _ => rw [hp] at h; cases h
  | ok prev =>
    cases hm : AppendLog.signatureMessage P log.length now keys.pub (P.hashBytes payload) prev with
    | error _ => simp only [AppendLog.newEntry, hp, bind, Except.bind, hm] at h; cases h
    | ok message =>
      cases hs : P.sign keys.priv message with
      | error _ => simp only [AppendLog.newEntry, hp, bind, Except.bind, hm, hs] at h; cases h
      | ok signature =>
        simp only [AppendLog.newEntry, hp, bind, Except.bind, hm, hs, pure, Except.pure, Except.ok.injEq] at h
        subst h
        exact ⟨rfl, rfl, rfl, rfl, hp, rfl, message, hm, hs⟩

/-- The previous hash is read of a row that stays. -/
theorem prevHash_of_grown {log log' : Log} (h : (logRely P).inv log) (hp : log <+: log') :
    AppendLog.prevHash log' log.length = AppendLog.prevHash log log.length := by
  obtain ⟨es, rfl, hc⟩ := h
  obtain ⟨rest, rfl⟩ := hp
  have hprev := prevHash_map_row hc.seq
  rw [List.length_map] at *
  simp only [AppendLog.prevHash] at hprev ⊢
  split
  · rfl
  · rename_i hn
    rw [if_neg hn] at hprev
    cases hr : AppendLog.row? (es.map LogEntry.row) (es.length - 1) with
    | none => rw [hr] at hprev; cases hprev
    | some row =>
      have happ : AppendLog.row? (es.map LogEntry.row ++ rest) (es.length - 1) = some row := by
        rw [AppendLog.row?] at hr ⊢
        rw [List.find?_append, hr]
        rfl
      rw [happ]

theorem insertThread_ne_done {x : Except PyError LogEntry} {e : LogEntry} :
    AppendLog.insertThread x ≠ .done (.ok e) := by
  cases x <;> simp [AppendLog.insertThread, atomically]

/-- One action of a thread that runs a program. -/
theorem keeps_atomically {σ α β : Type} {x : Prog PyError σ α} {fault : Option Nat}
    {k : α → Thread σ (Except PyError β)} {R : Rely σ} {News Q : Except PyError β → σ → Prop} {s : σ}
    (h : ∀ s', R.rel s s' → R.inv s' → WP x
      (fun a s'' => R.inv s'' ∧ R.rel s' s'' ∧ (∀ b, k a = .done b → News b s') ∧ Keeps R News Q (k a) s'')
      (fun e s'' => R.inv s'' ∧ R.rel s' s'' ∧ News (.error e) s' ∧ Keeps R News Q (.done (.error e)) s'') s') :
    Keeps R News Q (atomically x fault k) s := by
  intro s' hr hi
  have hx := h s' hr hi
  rcases hres : x.exec fault s' with ⟨_ | _, s''⟩
  · obtain ⟨hinv, hrel, hnews, hnext⟩ := hx.error hres
    simp only [hres]
    refine ⟨hinv, hrel, ?_, hnext⟩
    rintro b hb
    cases hb
    exact hnews
  · obtain ⟨hinv, hrel, hnews, hnext⟩ := hx.ok hres
    simp only [hres]
    exact ⟨hinv, hrel, hnews, hnext⟩

theorem error_keeps {R : Rely Log} {e : PyError} {log : Log} :
    Keeps R IsNext IsLogged (.done (.error e)) log := fun _ _ _ => trivial

/-- The entry was made for `log`: where nobody has appended since, the row
continues the chain, and elsewhere the number is taken. -/
theorem insertThread_keeps {log : Log} {x : Except PyError LogEntry}
    (hx : ∀ e, x = .ok e → Appended P keys now payload log e) :
    Keeps (logRely P) IsNext IsLogged (AppendLog.insertThread x) log := by
  cases x with
  | error e => exact error_keeps
  | ok e =>
    have ha := hx e rfl
    refine keeps_atomically fun log' hp hi => insert_wp (fun hnone => ?_) fun e => ?_
    · obtain ⟨es, rfl, hc⟩ := hi
      have hlen : log.length = es.length := by
        have hle := hp.length_le
        rw [List.length_map] at hle
        refine le_antisymm hle (not_lt.mp fun hlt => ?_)
        rw [LogEntry.row, ha.seq, row?_map_row hc.seq hlt] at hnone
        cases hnone
      have heq : log = es.map LogEntry.row := hp.eq_of_length (by rw [hlen, List.length_map])
      rw [heq] at ha
      refine ⟨⟨es ++ [e], by simp, hc.append ha⟩, List.prefix_append _ _, ?_, fun log'' hp' _ => ?_⟩
      · intro b hb
        cases hb
        exact ha.seq
      · exact hp'.subset (by simp)
    · exact ⟨hi, List.prefix_rfl, trivial, error_keeps⟩

theorem appendThread_keeps {log : Log} :
    Keeps (logRely P) IsNext IsLogged (AppendLog.appendThread P keys now payload) log := by
  intro log₀ _ hi
  have fresh : ∀ log', log₀ <+: log' → Keeps (logRely P) IsNext IsLogged (AppendLog.insertThread
      (AppendLog.newEntry P keys now payload log₀.length (AppendLog.prevHash log' log₀.length))) log₀ := by
    intro log' hp
    rw [prevHash_of_grown hi hp]
    exact insertThread_keeps fun _ => newEntry_appended
  refine ⟨hi, List.prefix_rfl, ?_, ?_⟩
  · intro b hb
    dsimp only at hb
    split at hb
    · cases b with
      | error _ => trivial
      | ok e => exact absurd hb insertThread_ne_done
    · cases hb
  · dsimp only
    split
    · rename_i hn
      have h₀ := fresh log₀ List.prefix_rfl
      simp only [hn, AppendLog.prevHash, if_true] at h₀
      rw [hn]
      exact h₀
    · intro log' hp hi'
      refine ⟨hi', List.prefix_rfl, ?_, (fresh log' hp).rely hp⟩
      intro b hb
      cases b with
      | error _ => trivial
      | ok e => exact absurd hb insertThread_ne_done

/-! ## The clients -/

/-- What the clients return, in a storage. -/
abbrev StorageKeeps (P : Prims) (t : Thread Storage (Except PyError LogEntry)) (s : Storage) : Prop :=
  Keeps ((logRely P).comap Storage.log) (fun a s => IsNext a s.log) (fun a s => IsLogged a s.log) t s

theorem atomically_ne_done {σ α β : Type} {x : Prog PyError σ α} {fault : Option Nat}
    {k : α → Thread σ (Except PyError β)} {b : Except PyError β} : atomically x fault k ≠ .done b := by
  simp [atomically]

theorem put_keeps {data : Bytes} {fault : Option Nat} {k : Hash → Thread Storage (Except PyError LogEntry)}
    {s : Storage} (hne : ∀ h b, k h ≠ .done b) (hk : ∀ h s, StorageKeeps P (k h) s) :
    StorageKeeps P (atomically (Storage.put P data) fault k) s := by
  refine keeps_atomically fun s' _ hi => put_wp.mono ?_ ?_
  · rintro h s'' ⟨-, rfl⟩
    exact ⟨hi, List.prefix_rfl, fun b hb => absurd hb (hne h b), hk h _⟩
  · rintro e s'' (rfl | rfl)
    · exact ⟨hi, List.prefix_rfl, trivial, fun _ _ _ => trivial⟩
    · exact ⟨hi, List.prefix_rfl, trivial, fun _ _ _ => trivial⟩

section CommitEdgeTx

variable {premises : List Hash} {conclusion : Hash} {edgeData : Bytes} {proof : Option Bytes}

theorem transaction_keeps {fault : Option Nat} {s : Storage} :
    StorageKeeps P (atomically (Storage.onDb <| Prog.transaction .fault do
        Storage.onGraph (GraphIndex.registerEdge (P.hashBytes edgeData) premises conclusion)
        Storage.onLog (AppendLog.append P keys now edgeData)) fault fun logEntry => .done (.ok logEntry)) s := by
  refine keeps_atomically fun s' _ hi => ?_
  have grown : ∀ e, Appended P keys now edgeData s'.log e → (logRely P).inv (s'.log ++ [e.row]) := by
    intro e ha
    obtain ⟨es, hs, hc⟩ := hi
    rw [hs] at ha
    exact ⟨es ++ [e], by rw [hs, List.map_append]; rfl, hc.append ha⟩
  refine .zoom <| commitTransaction_wp.mono ?_ ?_
  · rintro e db ⟨ha, rfl⟩
    refine ⟨grown e ha, List.prefix_append _ _, ?_,
      fun s'' hp _ => hp.subset (List.mem_append_right _ (List.mem_singleton_self _))⟩
    rintro b hb
    cases hb
    exact ha.seq
  · rintro e db (rfl | ⟨e, ha, rfl⟩)
    · exact ⟨hi, List.prefix_rfl, trivial, fun _ _ _ => trivial⟩
    · exact ⟨grown e ha, List.prefix_append _ _, trivial, fun _ _ _ => trivial⟩

theorem commitEdgeTxThread_keeps {faults : Nat → Option Nat} {s : Storage} :
    StorageKeeps P (Storage.commitEdgeTxThread P keys now premises conclusion edgeData proof faults) s := by
  refine put_keeps (fun _ b => ?_) fun _ s => ?_
  · cases proof <;> exact atomically_ne_done
  · cases proof with
    | none => exact transaction_keeps
    | some proof => exact put_keeps (fun _ _ => atomically_ne_done) fun _ _ => transaction_keeps

end CommitEdgeTx

theorem client_keeps (c : LogClient) (s : Storage) : StorageKeeps P (c.thread P) s := by
  cases c with
  | append keys now payload =>
    have hset : ∀ (log : Log) (s : Storage), ({ s with db := { s.db with log } } : Storage).log = log := fun _ _ => rfl
    exact Keeps.zoom hset appendThread_keeps
  | commitEdgeTx => exact commitEdgeTxThread_keeps

/-! ## Every interleaving -/

section Pool

variable {ι : Type} [DecidableEq ι]

omit [DecidableEq ι] in
theorem start_keeps (P : Prims) (clients : ι → LogClient) :
    PoolKeeps ((logRely P).comap Storage.log) (fun _ a s => IsNext a s.log)
    (fun _ a s => IsLogged a s.log) (LogClient.start P clients) :=
  ⟨⟨[], rfl, .nil⟩, fun i => client_keeps (clients i) _⟩

omit [DecidableEq ι] in
theorem start_not_returned {clients : ι → LogClient} (i : ι) (a : Except PyError LogEntry) :
    ¬ (LogClient.start P clients).Returned i a := by
  intro h
  have ht : (clients i).thread P = .done a := h
  cases hc : clients i with
  | append =>
    rw [hc] at ht
    cases ht
  | commitEdgeTx =>
    rw [hc] at ht
    exact atomically_ne_done ht

theorem logged_seq_ne {a b : Except PyError LogEntry} {e e' : LogEntry} {log : Log} (hi : (logRely P).inv log)
    (ha : IsLogged a log) (hb : IsNext b log) (hae : a = .ok e) (hbe : b = .ok e') : e.seq ≠ e'.seq := by
  obtain ⟨es, rfl, hc⟩ := hi
  subst hae hbe
  obtain ⟨e₀, he₀, hrow⟩ := List.mem_map.mp ha
  rw [row_inj] at hrow
  subst hrow
  obtain ⟨k, hk, rfl⟩ := List.mem_iff_getElem.mp he₀
  have hn : e'.seq = ((es.map LogEntry.row).length : Int) := hb
  rw [hc.seq k hk, hn, List.length_map]
  omega

/-- A client with nobody else makes its call. In every state that an
interleaving of the clients leads to: the rows are numbered from 0 and each
links to the one before; none is overwritten or lost later; and the appends
that returned are all there, under distinct numbers. -/
theorem run_interleaved (clients : ι → LogClient) (schedule : List ι) :
    (∀ i s, (clients i).Faultless → ((clients i).thread P).alone s = ((clients i).call P).exec none s) ∧
    (∃ es : List LogEntry, ((LogClient.start P clients).run schedule).shared.log = es.map LogEntry.row ∧
      (∀ (k : Nat) e, es[k]? = some e → e.seq = k) ∧
      (∀ e, es[0]? = some e → e.prevLogHash = AppendLog.genesisPrevHash) ∧
      (∀ k e e', es[k]? = some e → es[k + 1]? = some e' → e'.prevLogHash = e.entryHash) ∧
      ∀ i e, ((LogClient.start P clients).run schedule).Returned i (.ok e) → e ∈ es) ∧
    (∀ later, ((LogClient.start P clients).run schedule).shared.log <+:
      ((LogClient.start P clients).run (schedule ++ later)).shared.log) ∧
    ∀ i j e e', i ≠ j → ((LogClient.start P clients).run schedule).Returned i (.ok e) →
      ((LogClient.start P clients).run schedule).Returned j (.ok e') → e.seq ≠ e'.seq := by
  have hpool := (run_keeps (start_keeps P clients) schedule).1
  refine ⟨fun i s h => alone_thread h s, ?_, fun later => ?_, ?_⟩
  · obtain ⟨es, hs, hc⟩ := hpool.inv
    refine ⟨es, hs, fun k e h => ?_, fun e h => ?_, fun k e e' h h' => ?_, fun i e hr => ?_⟩
    · obtain ⟨hk, rfl⟩ := List.getElem?_eq_some_iff.mp h
      exact hc.seq k hk
    · obtain ⟨hk, rfl⟩ := List.getElem?_eq_some_iff.mp h
      exact linked_zero hc.linked hk
    · obtain ⟨hk, rfl⟩ := List.getElem?_eq_some_iff.mp h
      obtain ⟨hk', rfl⟩ := List.getElem?_eq_some_iff.mp h'
      exact linked_succ hc.linked hk'
    · have hlogged : e.row ∈ ((LogClient.start P clients).run schedule).shared.log := hpool.returned hr
      rw [show ((LogClient.start P clients).run schedule).shared.log = es.map LogEntry.row from hs] at hlogged
      obtain ⟨e', he', hrow⟩ := List.mem_map.mp hlogged
      exact row_inj.mp hrow ▸ he'
  · rw [Pool.run_append]
    exact (run_keeps hpool later).2
  · intro i j e e' hij hi hj
    have distinct := run_distinct (fun a b => ∀ e e', a = .ok e → b = .ok e' → e.seq ≠ e'.seq)
      (start_keeps P clients) start_not_returned
      (fun a b h e e' hb ha => (h e' e ha hb).symm)
      (fun _ _ _ _ _ hinv ha hb e e' => logged_seq_ne hinv ha hb) schedule hij hi hj
    exact distinct e e' rfl rfl

end Pool

end ArxDB.Proof
