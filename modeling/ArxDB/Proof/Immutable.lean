import ArxDB.Framework.Record
import ArxDB.Proof.Atomic
import ArxDB.Reference.Prims

/-!
# Edges that are presented again

`register_edge` leaves an edge row alone that is there, and a premise row whose
position is taken. The two are told apart by different keys, so a call that
presents an indexed edge with more premises than it has adds the rest to it, and
one that fails between its rows leaves the premises it got to. The tables are
the edges of the calls so far (`Rows`), each kept as it was found. An edge stays
what one call presented exactly when neither of the two happens
(`edges_immutable_iff`).
-/

namespace ArxDB.Proof

open Impl Failing Record

variable {P : Prims} {g g' : GraphIndex} {s : Storage} {rs : List Registration} {e c : Hash} {ps : List Hash}

/-! ## The rows of the edges -/

/-- The tables after these edges were written, each position once. -/
structure Rows (g : GraphIndex) (rs : List Registration) : Prop where
  edges (row : EdgeRow) : row ∈ g.edges ↔ ∃ ps, record keep rs row.edgeHash = some (ps, row.conclusion)
  premises (row : PremiseRow) : row ∈ g.premises ↔
    ∃ r, record keep rs row.edgeHash = some r ∧ r.1[row.position]? = some row.premiseHash
  nodup : (g.premises.map PremiseRow.key).Nodup

theorem mem_premiseRows_iff {row : PremiseRow} :
    row ∈ EdgeRecord.premiseRows ⟨e, ps, c⟩ ↔ row.edgeHash = e ∧ ps[row.position]? = some row.premiseHash := by
  rw [mem_premiseRows]
  constructor
  · intro h
    obtain ⟨i, hi, rfl⟩ := h
    exact ⟨rfl, List.getElem?_eq_getElem hi⟩
  · intro h
    obtain ⟨rfl, hp⟩ := h
    obtain ⟨hi, hp⟩ := List.getElem?_eq_some_iff.mp hp
    exact ⟨row.position, hi, by rw [hp]⟩

namespace Rows

theorem empty : Rows .empty [] := by
  constructor <;> simp [GraphIndex.empty]

/-- Calls that write no edge. -/
theorem congr (h : Rows g rs) (hedges : g'.edges = g.edges) (hpremises : g'.premises = g.premises) :
    Rows g' rs :=
  ⟨hedges ▸ h.edges, hpremises ▸ h.premises, hpremises ▸ h.nodup⟩

theorem edge_free (h : Rows g rs) : (∀ row ∈ g.edges, row.edgeHash ≠ e) ↔ record keep rs e = none := by
  constructor
  · intro hfree
    by_contra hsome
    obtain ⟨r, hr⟩ := Option.ne_none_iff_exists'.mp hsome
    exact hfree ⟨e, r.2⟩ ((h.edges _).mpr ⟨r.1, hr⟩) rfl
  · rintro hnone row hrow rfl
    obtain ⟨ps, hps⟩ := (h.edges row).mp hrow
    rw [hnone] at hps
    cases hps

theorem premise_free (h : Rows g rs) {pos : Nat} : (∀ row ∈ g.premises, PremiseRow.key row ≠ (e, pos)) ↔
    (record keep rs e).bind (fun r => r.1[pos]?) = none := by
  constructor
  · intro hfree
    by_contra hsome
    obtain ⟨p, hp⟩ := Option.ne_none_iff_exists'.mp hsome
    obtain ⟨r, hr, hp⟩ := Option.bind_eq_some_iff.mp hp
    exact hfree ⟨e, p, pos⟩ ((h.premises _).mpr ⟨r, hr, hp⟩) rfl
  · rintro hnone row hrow hk
    obtain ⟨rfl, rfl⟩ := Prod.mk.inj hk
    obtain ⟨r, hr, hp⟩ := (h.premises row).mp hrow
    rw [hr, Option.bind_some, hp] at hnone
    cases hnone

/-- An edge, with the premises that were written. -/
theorem write (h : Rows g rs) (hedges : g'.edges = insertOrIgnore EdgeRow.edgeHash ⟨e, c⟩ g.edges)
    (hpremises : g'.premises = insertAll PremiseRow.key (EdgeRecord.premiseRows ⟨e, ps, c⟩) g.premises) :
    Rows g' (rs ++ [(e, ps, c)]) := by
  refine ⟨fun row => ?_, fun row => ?_, hpremises ▸ nodup_insertAll h.nodup⟩
  · obtain ⟨e', c'⟩ := row
    rw [hedges, mem_insertOrIgnore_iff, h.edges, h.edge_free, record_concat]
    by_cases he : e = e'
    · subst he
      rw [if_pos rfl]
      cases record keep rs e with
      | none => simp [eq_comm]
      | some r => simp [keep, Prod.ext_iff]
    · simp [he, Ne.symm he]
  · obtain ⟨e', p, pos⟩ := row
    rw [hpremises, mem_insertAll_iff (EdgeRecord.premiseRows_keys_nodup _), h.premises, mem_premiseRows_iff,
      PremiseRow.key, h.premise_free, record_concat]
    by_cases he : e = e'
    · subst he
      rw [if_pos rfl]
      cases record keep rs e with
      | none => simp
      | some r =>
        simp only [Option.elim_some, keep, Option.some.injEq, exists_eq_left', getElem?_overwrite, Option.bind_some,
          true_and]
        cases r.1[pos]? <;> simp
    · simp [he, Ne.symm he]

theorem getConnectivity (h : Rows g rs) (e : Hash) : g.getConnectivity e = record keep rs e := by
  cases hrec : record keep rs e with
  | none =>
    rw [GraphIndex.getConnectivity, List.find?_eq_none.mpr]
    intro row hrow
    simpa using h.edge_free.mpr hrec row hrow
  | some r =>
    refine getConnectivity_of_rows (r := ⟨e, r.1, r.2⟩) ((h.edges _).mpr ⟨r.1, hrec⟩) ?_ (fun row => ?_) h.nodup
    · rintro row hrow rfl
      obtain ⟨ps, hps⟩ := (h.edges row).mp hrow
      rw [hrec, Option.some.injEq] at hps
      exact (congrArg Prod.snd hps).symm
    · rw [mem_premiseRows_iff, h.premises, and_comm]
      refine and_congr_right fun he => ?_
      rw [he, hrec]
      simp

end Rows

/-! ## Calls -/

/-- The edge that a call presents. -/
def presents (P : Prims) (c : WriteCall) : Option Registration :=
  match c.op with
  | .registerEdge edgeHash premises conclusion => some (edgeHash, premises, conclusion)
  | .log (.commitEdgeTx premises conclusion edgeData _) => some (P.hashBytes edgeData, premises, conclusion)
  | _ => none

/-- The edge, with the premises that `register_edge` gets to when it fails at a
statement: the endpoints come first, then the edge, then its premises. -/
def upTo (call : Registration) (fault : Option Nat) : Option Registration :=
  fault.elim (some call) fun n =>
    if n < call.2.1.length + 2 then none
    else some (call.1, call.2.1.take (n - (call.2.1.length + 2)), call.2.2)

/-- What a call writes of the edge that it presents. A `commit_edge_tx` writes
all of it if it gets to its `COMMIT`. -/
def reached (P : Prims) (s : Storage) (c : WriteCall) : Option Registration :=
  match c.op with
  | .registerEdge edgeHash premises conclusion => upTo (edgeHash, premises, conclusion) c.fault
  | .log (.commitEdgeTx _ _ _ _) => if (c.exec P s).log.length = s.log.length then none else presents P c
  | _ => none

/-- The edges that the calls wrote, in their order. -/
def reachedFrom (P : Prims) (s : Storage) : List WriteCall → List Registration
  | [] => []
  | c :: calls => (reached P s c).toList ++ reachedFrom P (c.exec P s) calls

theorem reachedFrom_append {calls calls' : List WriteCall} : reachedFrom P s (calls ++ calls') =
    reachedFrom P s calls ++ reachedFrom P (calls.foldl (WriteCall.exec P) s) calls' := by
  induction calls generalizing s with
  | nil => rfl
  | cons c calls ih => rw [List.cons_append, reachedFrom, reachedFrom, ih, List.append_assoc, List.foldl_cons]

theorem reachedFrom_concat {calls : List WriteCall} {call : WriteCall} : reachedFrom P .empty (calls ++ [call]) =
    reachedFrom P .empty calls ++ (reached P (WriteCall.run P calls) call).toList := by
  rw [reachedFrom_append, reachedFrom, reachedFrom, List.append_nil, WriteCall.run]

theorem reachedFrom_mono {pre calls : List WriteCall} (h : pre <+: calls) :
    reachedFrom P .empty pre <+: reachedFrom P .empty calls := by
  obtain ⟨rest, rfl⟩ := h
  rw [reachedFrom_append]
  exact List.prefix_append _ _

/-! ### `register_edge` -/

theorem premiseRows_take (n : Nat) :
    EdgeRecord.premiseRows ⟨e, ps.take n, c⟩ = (EdgeRecord.premiseRows ⟨e, ps, c⟩).take n := by
  refine List.ext_getElem? fun i => ?_
  simp only [EdgeRecord.premiseRows, List.getElem?_map, List.getElem?_zipIdx, List.getElem?_take]
  split <;> simp

theorem registerEdge_eq : GraphIndex.registerEdge e ps c =
    Prog.changes .fault ((c :: ps).map GraphIndex.insertNode ++
      GraphIndex.insertEdge ⟨e, c⟩ :: (EdgeRecord.premiseRows ⟨e, ps, c⟩).map GraphIndex.insertPremise) := by
  have := Prog.lawfulMonad (ε := PyError) (σ := GraphIndex)
  simp only [Prog.changes, List.forM_eq_forM, List.forM_append, List.forM_cons, List.map_cons, List.cons_append,
    List.forM_map, GraphIndex.registerEdge, GraphIndex.registerNode, EdgeRecord.premiseRows, bind_assoc]
  rfl

theorem foldl_insertNode (ns : List Hash) : ((ns.map GraphIndex.insertNode).foldl (fun g u => u g) g).edges = g.edges ∧
    ((ns.map GraphIndex.insertNode).foldl (fun g u => u g) g).premises = g.premises := by
  induction ns generalizing g with
  | nil => exact ⟨rfl, rfl⟩
  | cons n ns ih => exact ih (g := g.insertNode n)

theorem foldl_insertPremise (rows : List PremiseRow) :
    (rows.map GraphIndex.insertPremise).foldl (fun g u => u g) g =
      { g with premises := insertAll PremiseRow.key rows g.premises } := by
  induction rows generalizing g with
  | nil => rfl
  | cons row rows ih => exact ih (g := g.insertPremise row)

/-- Nodes, then the edge, then these of its premises. -/
theorem Rows.inserts (h : Rows g rs) (ns : List Hash) :
    Rows ((ns.map GraphIndex.insertNode ++
      GraphIndex.insertEdge ⟨e, c⟩ :: (EdgeRecord.premiseRows ⟨e, ps, c⟩).map GraphIndex.insertPremise).foldl
        (fun g u => u g) g) (rs ++ [(e, ps, c)]) := by
  rw [List.foldl_append, List.foldl_cons, foldl_insertPremise]
  have hnodes := foldl_insertNode (g := g) ns
  exact (h.congr hnodes.1 hnodes.2).write rfl rfl

theorem Rows.registerEdge (h : Rows g rs) (fault : Option Nat) :
    Rows ((GraphIndex.registerEdge e ps c).exec fault g).2 (rs ++ (upTo (e, ps, c) fault).toList) := by
  rw [registerEdge_eq, Prog.exec_changes]
  cases fault with
  | none => exact h.inserts (c :: ps)
  | some n =>
    have hlen : ((c :: ps).map GraphIndex.insertNode).length = ps.length + 1 := by simp
    rw [Option.elim_some, upTo, Option.elim_some]
    by_cases hn : n < ps.length + 2
    · -- it fails before the edge
      have hle : n ≤ ((c :: ps).map GraphIndex.insertNode).length := by omega
      have hnodes := foldl_insertNode (g := g) ((c :: ps).take n)
      rw [if_pos hn, List.take_append_of_le_length hle, ← List.map_take, Option.toList_none, List.append_nil]
      exact h.congr hnodes.1 hnodes.2
    · have hge : ((c :: ps).map GraphIndex.insertNode).length ≤ n := by omega
      have hsub : n - ((c :: ps).map GraphIndex.insertNode).length = n - (ps.length + 2) + 1 := by omega
      rw [if_neg hn, List.take_append, List.take_of_length_le hge, hsub, List.take_succ_cons, ← List.map_take,
        ← premiseRows_take]
      exact h.inserts (c :: ps)

/-! ### Every call -/

theorem Rows.commitEdgeTx (h : Rows s.graph rs) {keys : Keys} {now : Int} {data : Bytes} {proof : Option Bytes}
    {s' : Storage} {entry : LogEntry} (hs : Commits P keys now ps c data proof s entry s') :
    Rows s'.graph (rs ++ [(P.hashBytes data, ps, c)]) := by
  obtain ⟨-, rfl⟩ := hs
  have heq := registered_eq s.graph ⟨P.hashBytes data, ps, c⟩
  exact h.write (congrArg GraphIndex.edges heq) (congrArg GraphIndex.premises heq)

theorem append_graph {keys : Keys} {now : Int} {payload : Bytes} :
    WP (Storage.append P keys now payload) (fun _ (s' : Storage) => s'.graph = s.graph)
      (fun _ (s' : Storage) => s'.graph = s.graph) s := by
  refine append_wp.mono ?_ ?_
  · rintro entry s' ⟨-, rfl⟩
    rfl
  · rintro - s' (rfl | ⟨entry, -, rfl⟩)
    · rfl
    · rfl

theorem commitRoster_graph {keys : Keys} {now : Int} {roster : Roster} :
    WP (Attest.commitRoster P keys now roster) (fun _ (s' : Storage) => s'.graph = s.graph)
      (fun _ (s' : Storage) => s'.graph = s.graph) s := by
  refine .bind <| .statement rfl <| .bind <| .read ?_
  split
  · refine .bind <| .lift (fun data _ => .bind ?_) fun _ _ => rfl
    exact append_graph.mono (fun _ _ h => .pure h) fun _ _ h => h
  · refine .bind <| .statement rfl <| .bind <| .read <| .bind <| .lift (fun entry0 _ => ?_) fun _ _ => rfl
    cases entry0 with
    | none => exact .pure rfl
    | some entry0 => exact .bind <| .lift (fun _ _ => .pure rfl) fun _ _ => rfl

/-- Calls that present no edge. -/
theorem exec_graph {call : WriteCall} (hcall : presents P call = none) :
    (call.exec P s).graph.edges = s.graph.edges ∧ (call.exec P s).graph.premises = s.graph.premises := by
  have same : ∀ s' : Storage, s'.graph = s.graph →
      s'.graph.edges = s.graph.edges ∧ s'.graph.premises = s.graph.premises :=
    fun s' hs => ⟨congrArg GraphIndex.edges hs, congrArg GraphIndex.premises hs⟩
  refine WP.state
    (I := fun (s' : Storage) => s'.graph.edges = s.graph.edges ∧ s'.graph.premises = s.graph.premises)
    ?_ call.fault
  obtain ⟨keys, now, fault, op⟩ := call
  cases op with
  | put data =>
    refine .bind <| put_wp.mono ?_ ?_
    · rintro - s' ⟨-, rfl⟩
      exact .pure ⟨rfl, rfl⟩
    · rintro - s' (rfl | rfl)
      · exact ⟨rfl, rfl⟩
      · exact ⟨rfl, rfl⟩
  | registerNode node =>
    change WP (Storage.onDb (Storage.onGraph (GraphIndex.registerNode node))) _ _ s
    rw [Storage.onDb, Storage.onGraph]
    exact .zoom <| .zoom <| .bind <| .statement ⟨rfl, rfl⟩ <| .update ⟨rfl, rfl⟩
  | registerEdge edgeHash premises conclusion => cases hcall
  | log op =>
    cases op with
    | append payload => exact .bind <| append_graph.mono (fun _ s' hs => .pure (same s' hs)) fun _ s' hs => same s' hs
    | commitRoster roster =>
      exact .bind <| commitRoster_graph.mono (fun _ s' hs => .pure (same s' hs)) fun _ s' hs => same s' hs
    | commitEdgeTx premises conclusion edgeData proof => cases hcall

/-- A `commit_edge_tx`, however it ends. -/
theorem exec_commitEdgeTx {keys : Keys} {now : Int} {fault : Option Nat} {data : Bytes} {proof : Option Bytes}
    {call : WriteCall} (hcall : call = ⟨keys, now, fault, .log (.commitEdgeTx ps c data proof)⟩) :
    (call.exec P s).db = s.db ∨ ∃ entry, Commits P keys now ps c data proof s entry (call.exec P s) := by
  subst hcall
  refine WP.state (I := fun s' => s'.db = s.db ∨ ∃ entry, Commits P keys now ps c data proof s entry s') ?_ fault
  refine .bind <| commitEdgeTx_wp.mono (fun r _ hs => .pure (.inr ⟨r.2, hs.2⟩)) fun _ s' hs => ?_
  exact hs.imp And.left id

/-- The tables after one more call are those after what it writes. -/
theorem Rows.exec (h : Rows s.graph rs) (call : WriteCall) :
    Rows (call.exec P s).graph (rs ++ (reached P s call).toList) := by
  have kept : presents P call = none → reached P s call = none →
      Rows (call.exec P s).graph (rs ++ (reached P s call).toList) := by
    intro hcall hnone
    rw [hnone, Option.toList_none, List.append_nil]
    exact h.congr (exec_graph hcall).1 (exec_graph hcall).2
  obtain ⟨keys, now, fault, op⟩ := call
  cases op with
  | put data => exact kept rfl rfl
  | registerNode node => exact kept rfl rfl
  | registerEdge edgeHash premises conclusion => exact h.registerEdge fault
  | log op =>
    cases op with
    | append payload => exact kept rfl rfl
    | commitRoster roster => exact kept rfl rfl
    | commitEdgeTx premises conclusion edgeData proof =>
      rw [reached]
      rcases exec_commitEdgeTx (P := P) (s := s) rfl with hdb | ⟨entry, hs⟩
      · rw [Storage.log, Storage.graph, hdb, if_pos rfl, Option.toList_none, List.append_nil]
        exact h
      · rw [if_neg (by simp [hs.2, Storage.log, committed])]
        exact h.commitEdgeTx hs

theorem rows_run (P : Prims) (calls : List WriteCall) :
    Rows (WriteCall.run P calls).graph (reachedFrom P .empty calls) := by
  induction calls using List.reverseRecOn with
  | nil => exact .empty
  | append_singleton calls call ih =>
    rw [WriteCall.run, List.foldl_concat, reachedFrom_concat]
    exact ih.exec call

/-! ## What stays -/

/-- The edges that the calls presented. -/
def presented (P : Prims) (calls : List WriteCall) : List Registration := calls.filterMap (presents P)

theorem presented_mono {pre calls : List WriteCall} (h : pre <+: calls) {w : Registration} (hw : w ∈ presented P pre) :
    w ∈ presented P calls := (h.filterMap _).subset hw

/-- Whatever is read of an edge is what one of the calls so far presented, and
is read of it from then on. -/
def Immutable (P : Prims) (calls : List WriteCall) : Prop :=
  ∀ pre, pre <+: calls → ∀ e r, (WriteCall.run P pre).graph.getConnectivity e = some r →
    (e, r) ∈ presented P pre ∧
    ∀ post, pre <+: post → post <+: calls → (WriteCall.run P post).graph.getConnectivity e = some r

/-- What the call writes of its edge: no more premises than the first of `pre`
to write it, or, if it is the first, what one of the calls presented. -/
def Fits (P : Prims) (pre : List WriteCall) (call : WriteCall) : Prop :=
  ∀ w, reached P (WriteCall.run P pre) call = some w →
    (∀ r, first (reachedFrom P .empty pre) w.1 = some r → w.2.1.length ≤ r.1.length) ∧
    (first (reachedFrom P .empty pre) w.1 = none → w ∈ presented P (pre ++ [call]))

variable {calls pre : List WriteCall}

theorem Immutable.record_eq_first (h : Immutable P calls) (hpre : pre <+: calls) (k : Hash) :
    record keep (reachedFrom P .empty pre) k = first (reachedFrom P .empty pre) k := by
  induction pre using List.reverseRecOn generalizing k with
  | nil => rfl
  | append_singleton pre call ih =>
    have hpart : pre <+: pre ++ [call] := List.prefix_append _ _
    cases hfirst : first (reachedFrom P .empty pre) k with
    | some r =>
      have hrec := (ih (hpart.trans hpre) k).trans hfirst
      have hstays := (h pre (hpart.trans hpre) k r (((rows_run P pre).getConnectivity k).trans hrec)).2 _ hpart hpre
      rw [← (rows_run P _).getConnectivity, hstays]
      exact (first_mono (reachedFrom_mono hpart) hfirst).symm
    | none =>
      have hrec := (ih (hpart.trans hpre) k).trans hfirst
      rw [reachedFrom_concat]
      cases reached P (WriteCall.run P pre) call with
      | none => rw [Option.toList_none, List.append_nil, hrec, hfirst]
      | some w => rw [Option.toList_some, record_concat, first_concat, hrec, hfirst, Option.elim_none, Option.none_or]

theorem Immutable.fits (h : Immutable P calls) {call : WriteCall} (hpre : pre ++ [call] <+: calls) :
    Fits P pre call := by
  intro w hw
  have hpart : pre <+: pre ++ [call] := List.prefix_append _ _
  have hbefore := h.record_eq_first (hpart.trans hpre)
  have hafter := h.record_eq_first hpre
  have hconcat : reachedFrom P .empty (pre ++ [call]) = reachedFrom P .empty pre ++ [w] := by
    rw [reachedFrom_concat, hw, Option.toList_some]
  refine ⟨(record_keep_concat_iff hbefore).mp (hconcat ▸ hafter), fun hnone => ?_⟩
  refine (h _ hpre w.1 w.2 ?_).1
  rw [(rows_run P _).getConnectivity, hafter, hconcat, first_concat, hnone, Option.none_or, if_pos rfl]

/-- Calls that fit leave every edge as it was first written. -/
theorem record_eq_first_of_fits (h : ∀ pre call, pre ++ [call] <+: calls → Fits P pre call) (hpre : pre <+: calls) :
    (∀ k, record keep (reachedFrom P .empty pre) k = first (reachedFrom P .empty pre) k) ∧
    ∀ k r, first (reachedFrom P .empty pre) k = some r → (k, r) ∈ presented P pre := by
  induction pre using List.reverseRecOn with
  | nil => exact ⟨fun _ => rfl, fun _ _ hr => nomatch hr⟩
  | append_singleton pre call ih =>
    have hpart : pre <+: pre ++ [call] := List.prefix_append _ _
    obtain ⟨hkept, hpresented⟩ := ih (hpart.trans hpre)
    have hfits := h pre call hpre
    rw [Fits] at hfits
    rw [reachedFrom_concat]
    cases hw : reached P (WriteCall.run P pre) call with
    | none =>
      rw [Option.toList_none, List.append_nil]
      exact ⟨hkept, fun k r hr => presented_mono hpart (hpresented k r hr)⟩
    | some w =>
      obtain ⟨hagain, hnew⟩ := hfits w hw
      rw [Option.toList_some]
      refine ⟨(record_keep_concat_iff hkept).mpr hagain, fun k r hr => ?_⟩
      rw [first_concat] at hr
      cases hfirst : first (reachedFrom P .empty pre) k with
      | some r' =>
        rw [hfirst, Option.some_or] at hr
        exact presented_mono hpart (hpresented k r (hfirst.trans hr))
      | none =>
        rw [hfirst, Option.none_or] at hr
        split at hr
        · rename_i hk
          subst hk
          cases hr
          exact hnew hfirst
        · cases hr

/-- In every run of calls, whichever of them fail, an edge that is read once is
what one call presented and never changes, exactly when every call fits. -/
theorem edges_immutable_iff (P : Prims) (calls : List WriteCall) :
    Immutable P calls ↔ ∀ pre call, pre ++ [call] <+: calls → Fits P pre call := by
  refine ⟨fun h pre call hpre => h.fits hpre, fun h pre hpre e r hr => ?_⟩
  obtain ⟨hkept, hpresented⟩ := record_eq_first_of_fits h hpre
  rw [(rows_run P pre).getConnectivity, hkept] at hr
  refine ⟨hpresented e r hr, fun post hpost hcalls => ?_⟩
  rw [(rows_run P post).getConnectivity, (record_eq_first_of_fits h hcalls).1]
  exact first_mono (reachedFrom_mono hpost) hr

section Example

open Reference

/-- An edge with one premise, and then with two. -/
def extendedEdge : List WriteCall :=
  let keys : Keys := ⟨List.replicate 32 7, List.replicate 32 7⟩
  let hash (b : UInt8) := reference.hashBytes [b]
  [⟨keys, 10, none, .registerEdge (hash 1) [hash 2] (hash 4)⟩,
    ⟨keys, 20, none, .registerEdge (hash 1) [hash 2, hash 3] (hash 4)⟩]

/-- The second premise is added to the edge that is there. -/
theorem extended_edge_changes : ¬ Immutable reference extendedEdge := by
  intro h
  have hfirst : (WriteCall.run reference (extendedEdge.take 1)).graph.getConnectivity (reference.hashBytes [1]) =
      some ([reference.hashBytes [2]], reference.hashBytes [4]) := by decide +kernel
  have hlast : (WriteCall.run reference extendedEdge).graph.getConnectivity (reference.hashBytes [1]) =
      some ([reference.hashBytes [2], reference.hashBytes [3]], reference.hashBytes [4]) := by decide +kernel
  have hstays := (h _ (List.take_prefix 1 _) _ _ hfirst).2 _ (List.take_prefix 1 _) (List.prefix_refl _)
  rw [hlast] at hstays
  exact absurd hstays (by decide +kernel)

end Example

end ArxDB.Proof
