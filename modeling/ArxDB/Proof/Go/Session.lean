import ArxDB.Proof.Go.Reads
import ArxDB.Reference.Prims

/-!
# The Go engine implements the store

Along a session the database represents the abstract store that the calls that
returned have made (`run_implements`), so that every read is a read of that
store (`implements_store`). A call on the log does not touch the graph, nor a
call on the graph the log.
-/

namespace ArxDB.Proof.Go

open Impl (Bytes GoAny Hash Prims)
open Impl.Go BigEndian Failing

variable {P : Prims} {kp : Keypair} {a : Abstract} {db : Pebble}

/-! ## The abstract store of a session -/

/-- What a call that returned has done to the store. -/
def after (P : Prims) : Call × Reply → Abstract → Abstract
  | (.registerNode node, _), a => a.addNode node
  | (.registerEdge edge premises conclusion, _), a => a.addEdge edge premises conclusion
  | (.append _, .append le), a => a.append le
  | (.commitEdge premises conclusion edgeData _, .commitEdge _ le), a =>
    (a.addEdge (P.hashBytes edgeData.1.bytes) premises conclusion).append le
  | _, a => a

/-- The abstract store after the calls that returned. -/
def abstract (P : Prims) (returned : List (Call × Reply)) : Abstract :=
  returned.foldl (fun a r => after P r a) .empty

theorem abstract_concat {returned : List (Call × Reply)} {r : Call × Reply} :
    abstract P (returned ++ [r]) = after P r (abstract P returned) := List.foldl_concat ..

/-- The edge that a call registers. -/
def edge? (P : Prims) : Call → Option (Hash × List Hash × Hash)
  | .registerEdge edge premises conclusion => some (edge, premises, conclusion)
  | .commitEdge premises conclusion edgeData _ => some (P.hashBytes edgeData.1.bytes, premises, conclusion)
  | _ => none

/-- The payload that a call appends. -/
def payload? : Call → Option Slice
  | .append entry => some entry.1
  | .commitEdge _ _ edgeData _ => some edgeData.1
  | _ => none

/-- Every edge has been registered with the same premises and conclusion, and
every payload appended was not nil. -/
structure Regular (P : Prims) (returned : List (Call × Reply)) : Prop where
  functional : ∀ r ∈ returned, ∀ r' ∈ returned, ∀ e x x',
    edge? P r.1 = some (e, x) → edge? P r'.1 = some (e, x') → x = x'
  payload : ∀ r ∈ returned, payload? r.1 ≠ some none

theorem Regular.mono {returned returned' : List (Call × Reply)} (h : Regular P (returned ++ returned')) :
    Regular P returned where
  functional r hr r' hr' := h.functional r (List.mem_append_left _ hr) r' (List.mem_append_left _ hr')
  payload r hr := h.payload r (List.mem_append_left _ hr)

/-- The entries are numbered from 0, hash their payloads and link to the entry before. -/
structure Linked (P : Prims) (log : List LogEntry) : Prop where
  seq {i : Nat} {le : LogEntry} (h : log[i]? = some le) : le.seq = .ofNat i
  entryHash {le : LogEntry} (h : le ∈ log) : le.entryHash = P.hashBytes le.payload.bytes
  prevLogHash {i : Nat} {le : LogEntry} (h : log[i]? = some le) :
    le.prevLogHash = ((log.take i).getLast?.map LogEntry.entryHash).getD AppendLog.genesisPrevHash

/-! ## One call -/

/-- The entry that is staged is the next one of the log. -/
theorem Represents.next {now : Int64} {pre b : Batch} {entry : Slice} {le : LogEntry}
    (h : Represents P a (db.commit pre)) (hlen : a.log.length < 2 ^ 63) (hn : Next P kp now db pre entry b le) :
    Represents P (a.append le) (db.commit b) := by
  obtain ⟨enc, henc, rfl⟩ := hn.sets
  rw [commit_append]
  exact h.append hlen (hn.seq.trans h.len) henc

theorem Represents.prevHash (h : Represents P a db) (hlen : a.log.length < 2 ^ 63) :
    prevHash db (.ofNat a.log.length) =
      some ((a.log.getLast?.map LogEntry.entryHash).getD AppendLog.genesisPrevHash) := by
  rcases List.eq_nil_or_concat a.log with hlog | ⟨log, le, hlog⟩
  · rw [hlog]
    rfl
  · have hlast : entryAt a.log (.ofNat log.length) = some le := by
      rw [hlog, List.length_concat] at hlen
      rw [entryAt_ofNat (by omega), hlog]
      simp
    have hne : Int64.ofNat a.log.length ≠ 0 := by
      intro e
      have := ofNat_inj hlen (by decide) (e.trans (show 0 = Int64.ofNat 0 from rfl))
      rw [hlog, List.length_concat] at this
      omega
    have hget := (h.getElem? (.entryHash (.ofNat log.length))).mpr (.entryHash hlast)
    rw [Key.bytes] at hget
    have hpred : Int64.ofNat a.log.length - 1 = .ofNat log.length := by
      rw [hlog, List.length_concat, Int64.ofNat_add, show Int64.ofNat 1 = 1 from rfl, Int64.add_sub_cancel]
    rw [Go.prevHash, if_neg hne, hpred, hget, hlog]
    simp [copyHash_raw]

theorem Linked.next {now : Int64} {pre b : Batch} {entry : Slice} {le : LogEntry} (hl : Linked P a.log)
    (h : Represents P a (db.commit pre)) (hlen : a.log.length < 2 ^ 63) (hn : Next P kp now db pre entry b le) :
    Linked P (a.append le).log := by
  have hseq : le.seq = .ofNat a.log.length := hn.seq.trans h.len
  have hprev := h.prevHash hlen
  rw [← hseq, hn.prevLogHash] at hprev
  refine ⟨fun {i le'} hi => ?_, fun {le'} hle => ?_, fun {i le'} hi => ?_⟩
  · rcases getElem?_concat_eq_some.mp hi with hi | ⟨rfl, rfl⟩
    · exact hl.seq hi
    · exact hseq
  · rcases List.mem_append.mp hle with hle | hle
    · exact hl.entryHash hle
    · obtain rfl := List.mem_singleton.mp hle
      rw [hn.entryHash, hn.payload]
  · rcases getElem?_concat_eq_some.mp hi with hi | ⟨rfl, rfl⟩
    · rw [hl.prevLogHash hi, Spec.Store.append, List.take_append_of_le_length (List.getElem?_eq_some_iff.mp hi).1.le]
    · rw [Spec.Store.append, List.take_left]
      exact Option.some.inj hprev

/-! ## A session -/

/-- What a session keeps: the database is that of the abstract store, whose
log is linked and holds the payloads appended. -/
structure Implements (P : Prims) (returned : List (Call × Reply)) (a : Abstract) (db : Pebble) : Prop where
  represents : Represents P a db
  linked : Linked P a.log
  payloads : a.log.map LogEntry.payload = returned.filterMap fun r => payload? r.1
  edges {e : Hash} {x : List Hash × Hash} (h : a.edges e = some x) : ∃ r ∈ returned, edge? P r.1 = some (e, x)

namespace Implements

variable {returned : List (Call × Reply)} {r : Call × Reply}

/-- The edges after a call that adds one of its own. -/
theorem edges_after {a' : Abstract} (h : Implements P returned a db)
    (hedges : ∀ e x, a'.edges e = some x → a.edges e = some x ∨ edge? P r.1 = some (e, x)) {e : Hash}
    {x : List Hash × Hash} (he : a'.edges e = some x) : ∃ r' ∈ returned ++ [r], edge? P r'.1 = some (e, x) := by
  rcases hedges e x he with he | he
  · obtain ⟨r', hr', he⟩ := h.edges he
    exact ⟨r', List.mem_append_left _ hr', he⟩
  · exact ⟨r, List.mem_append_right _ (List.mem_singleton_self _), he⟩

/-- A call that appends nothing. -/
theorem graph {a' : Abstract} {db' : Pebble} (h : Implements P returned a db) (hrep : Represents P a' db')
    (hlog : a'.log = a.log) (hpay : payload? r.1 = none)
    (hedges : ∀ e x, a'.edges e = some x → a.edges e = some x ∨ edge? P r.1 = some (e, x)) :
    Implements P (returned ++ [r]) a' db' where
  represents := hrep
  linked := hlog ▸ h.linked
  payloads := by simp [hlog, hpay, h.payloads]
  edges := h.edges_after hedges

/-- A call that appends an entry, after the graph's part of its batch. -/
theorem next {a' : Abstract} {now : Int64} {pre b : Batch} {entry : Slice} {le : LogEntry}
    (h : Implements P returned a db) (hrep : Represents P a' (db.commit pre)) (hlog : a'.log = a.log)
    (hlen : a.log.length < 2 ^ 63) (hn : Next P kp now db pre entry b le) (hpay : payload? r.1 = some entry)
    (hedges : ∀ e x, a'.edges e = some x → a.edges e = some x ∨ edge? P r.1 = some (e, x)) :
    Implements P (returned ++ [r]) (a'.append le) (db.commit b) where
  represents := hrep.next (hlog ▸ hlen) hn
  linked := Linked.next (hlog ▸ h.linked) hrep (hlog ▸ hlen) hn
  payloads := by simp [Spec.Store.append, hlog, hpay, h.payloads, hn.payload]
  edges := h.edges_after hedges

theorem done {s s' : Storage} {call : Call} {reply : Reply} {now : Int64} (h : Implements P returned a s.db)
    (hdone : Call.Done P kp now s call reply s') (hreg : Regular P (returned ++ [(call, reply)]))
    (hlen : (after P (call, reply) a).log.length < 2 ^ 63) :
    Implements P (returned ++ [(call, reply)]) (after P (call, reply) a) s'.db := by
  have hf : ∀ e x, edge? P call = some (e, x) → ∀ r, a.edges e = some r → r = x := by
    intro e x he r hr
    obtain ⟨r', hr', he'⟩ := h.edges hr
    exact hreg.functional r' (List.mem_append_left _ hr') _ (List.mem_append_right _ (List.mem_singleton_self _)) e r x
      he' he
  have hadd : ∀ e₀ x₀, edge? P call = some (e₀, x₀) → ∀ e x, (a.addEdge e₀ x₀.1 x₀.2).edges e = some x →
      a.edges e = some x ∨ edge? P call = some (e, x) := by
    intro e₀ x₀ he₀ e x he
    rw [Spec.Store.edges_addEdge] at he
    split at he
    · rename_i hee
      cases he
      exact .inr (hee ▸ he₀)
    · exact .inl he
  cases call with
  | put data =>
    obtain ⟨rfl, rfl⟩ := hdone
    exact h.graph h.represents rfl rfl fun _ _ he => .inl he
  | registerNode node =>
    obtain ⟨rfl, rfl⟩ := hdone
    exact h.graph h.represents.addNode rfl rfl fun _ _ he => .inl he
  | registerEdge edge premises conclusion =>
    obtain ⟨rfl, rfl⟩ := hdone
    exact h.graph (h.represents.addEdge premises.2 (hf _ _ rfl)) rfl rfl (hadd _ _ rfl)
  | append entry =>
    obtain ⟨le, b, rfl, hn, rfl⟩ := hdone
    rw [after, Spec.Store.append, List.length_append] at hlen
    have hrep : Represents P a (s.db.commit []) := h.represents
    exact h.next hrep rfl (by omega) hn rfl fun _ _ he => .inl he
  | commitEdge premises conclusion edgeData proof =>
    obtain ⟨le, b, rfl, hn, rfl⟩ := hdone
    rw [after, Spec.Store.append, List.length_append] at hlen
    exact h.next (h.represents.addEdge premises.2 (hf _ _ rfl)) rfl
      (Nat.lt_of_le_of_lt (Nat.le_add_right _ _) hlen) hn rfl
      (hadd _ _ rfl)

end Implements

theorem log_length_le (r : Call × Reply) : a.log.length ≤ (after P r a).log.length := by
  obtain ⟨call, reply⟩ := r
  cases call <;> cases reply <;> simp [after, Spec.Store.append, Spec.Store.addNode, Spec.Store.addEdge]

theorem run_implements (ops : List Op) (hreg : Regular P (Session.run P ops).returned)
    (hlen : (abstract P (Session.run P ops).returned).log.length < 2 ^ 63) :
    Implements P (Session.run P ops).returned (abstract P (Session.run P ops).returned)
      (Session.run P ops).storage.db := by
  induction ops using List.reverseRecOn with
  | nil =>
    refine ⟨.empty, ⟨fun h => ?_, fun h => ?_, fun h => ?_⟩, rfl, fun h => ?_⟩
    all_goals cases h
  | append_singleton ops op ih =>
    rw [run_concat] at hreg hlen ⊢
    rcases step_cases (P := P) (Session.run P ops) op with ⟨reply, hdone, hret⟩ | ⟨hfail, hret⟩
    · rw [hret] at hreg hlen ⊢
      rw [abstract_concat] at hlen ⊢
      exact (ih hreg.mono (Nat.lt_of_le_of_lt (log_length_le _) hlen)).done hdone hreg hlen
    · rw [hret] at hreg hlen ⊢
      rw [hfail.db]
      exact ih hreg hlen

/-! ## The reads -/

/-- Every read of the database is the read of the store. -/
structure ReadsAs (P : Prims) (a : Abstract) (db : Pebble) : Prop where
  allNodes : Spec.Lists (GraphIndex.allNodes db) a.nodes
  allEdges : Spec.Lists (GraphIndex.allEdges db) a.allEdges
  getConnectivity (e : Hash) : GraphIndex.getConnectivity db e = a.edges e
  incomingEdges (n : Hash) : Spec.Lists (GraphIndex.incomingEdges db n) (a.incoming n)
  outgoingEdges (n : Hash) : Spec.Lists (GraphIndex.outgoingEdges db n) (a.outgoing n)
  len : (AppendLog.len db).toInt = a.log.length
  get (seq : Int64) : AppendLog.get P db seq = .ok (entryAt a.log seq)
  rootHash : AppendLog.rootHash P db = .ok (Merkle.rootHash P (a.log.map LogEntry.entryHash))

/-- In every session in which an edge is always registered with the same
premises and conclusion, no payload is nil and the log stays below `2 ^ 63`
entries, the reads are those of the abstract store, whose log holds the
payloads appended, numbered and linked. In every state, `Append` changes no
read of the graph, and registering a node or an edge no read of the log. -/
theorem implements_store (laws : P.GoCborLaws) (ops : List Op)
    (hreg : Regular P (Session.run P ops).returned)
    (hlen : (abstract P (Session.run P ops).returned).log.length < 2 ^ 63) :
    ReadsAs P (abstract P (Session.run P ops).returned) (Session.run P ops).storage.db ∧
    (abstract P (Session.run P ops).returned).log.map LogEntry.payload =
      (Session.run P ops).returned.filterMap (fun r => payload? r.1) ∧
    Linked P (abstract P (Session.run P ops).returned).log ∧
    ∀ (s : Session) (op : Op),
      ((∃ entry, op.call = .append entry) → graphView (s.step P op).storage.db = graphView s.storage.db) ∧
      ((∃ node, op.call = .registerNode node) ∨ (∃ e ps c, op.call = .registerEdge e ps c) →
        logView P (s.step P op).storage.db = logView P s.storage.db) := by
  have h := run_implements ops hreg hlen
  have hpay : ∀ le ∈ (abstract P (Session.run P ops).returned).log, le.payload ≠ none := by
    intro le hle hnone
    have hmem := List.mem_map_of_mem (f := LogEntry.payload) hle
    rw [h.payloads, List.mem_filterMap] at hmem
    obtain ⟨r, hr, hp⟩ := hmem
    exact hreg.payload r hr (hnone ▸ hp)
  refine ⟨?_, h.payloads, h.linked, fun s op => ⟨fun hop => ?_, fun hop => ?_⟩⟩
  · exact {
      allNodes := h.represents.allNodes
      allEdges := h.represents.allEdges
      getConnectivity := h.represents.getConnectivity
      incomingEdges := h.represents.incomingEdges
      outgoingEdges := h.represents.outgoingEdges
      len := by rw [h.represents.len, Int64.toInt_ofNat_of_lt hlen]
      get := h.represents.get_log laws hlen hpay
      rootHash := h.represents.rootHash hlen }
  · obtain ⟨entry, hop⟩ := hop
    rcases step_cases (P := P) s op with ⟨reply, hdone, -⟩ | ⟨hfail, -⟩
    · rw [hop] at hdone
      obtain ⟨le, b, -, hn, hs⟩ := hdone
      obtain ⟨enc, -, hb⟩ := hn.sets
      rw [hs, hb]
      exact graphView_congr fun k hk => getElem?_commit_of_ne fun kv hkv => (hk.ne (entrySets_keys hkv)).symm
    · rw [hfail.db]
  · rcases step_cases (P := P) s op with ⟨reply, hdone, -⟩ | ⟨hfail, -⟩
    · rcases hop with ⟨node, hop⟩ | ⟨e, ps, c, hop⟩
      · rw [hop] at hdone
        rw [hdone.2]
        refine logView_congr fun k hk => getElem?_commit_of_ne fun kv hkv => ?_
        obtain rfl := List.mem_singleton.mp hkv
        exact Tagged.ne ⟨'n', by decide, _, rfl⟩ hk
      · rw [hop] at hdone
        rw [hdone.2]
        exact logView_congr fun k hk => getElem?_commit_of_ne fun kv hkv => (edgeSets_keys hkv).1.ne hk
    · rw [hfail.db]

section Example

open Reference

theorem regular_of_nodup {returned : List (Call × Reply)} {calls : List Call} (h : returned.map Prod.fst = calls)
    (hedges : ((calls.filterMap (edge? P)).map Prod.fst).Nodup) (hpay : ∀ c ∈ calls, payload? c ≠ some none) :
    Regular P returned where
  functional r hr r' hr' e x x' he he' := by
    have hmem : ∀ r ∈ returned, ∀ y, edge? P r.1 = some y → y ∈ calls.filterMap (edge? P) :=
      fun r hr y hy => List.mem_filterMap.mpr ⟨r.1, h ▸ List.mem_map_of_mem hr, hy⟩
    exact congrArg Prod.snd (List.inj_on_of_nodup_map hedges (hmem r hr _ he) (hmem r' hr' _ he') rfl)
  payload r hr := hpay r.1 (h ▸ List.mem_map_of_mem hr)

/-- A hash of 34 equal bytes. -/
def exampleHash (b : UInt8) : Hash := ⟨List.replicate 34 b, List.length_replicate⟩

/-- A node, an edge with a repeated premise, an entry and an edge with its entry. -/
def exampleCalls : List Call :=
  [.registerNode (exampleHash 1),
   .registerEdge (exampleHash 2) ⟨[exampleHash 3, exampleHash 3], by decide⟩ (exampleHash 255),
    .append ⟨some [4], by decide⟩,
    .commitEdge ⟨[exampleHash 255], by decide⟩ (exampleHash 5) ⟨some [6], by decide⟩ (some [])]

/-- The calls, each with a key pair and a time. -/
def exampleOps : List Op := exampleCalls.map fun call => ⟨exampleKeypair, call, 10, none⟩

theorem implements_store_example :
    ReadsAs reference (abstract reference (Session.run reference exampleOps).returned)
      (Session.run reference exampleOps).storage.db := by
  have hcalls : (Session.run reference exampleOps).returned.map Prod.fst = exampleCalls := by
    decide +kernel
  have hreg := regular_of_nodup (P := reference) hcalls (by decide +kernel) (by decide)
  exact (implements_store reference_goCborLaws exampleOps hreg (by decide +kernel)).1

end Example

end ArxDB.Proof.Go
