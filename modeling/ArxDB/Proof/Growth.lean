import ArxDB.Proof.Depth
import ArxDB.Proof.Earned

/-!
# Answers only grow

A commit adds edges and takes none away, and the record of a stored hash stays
what it was (`usable_grows`). So over all edges no later answer is weaker:
whatever is committed in between, what was established still is, at no smaller
κ and no greater depth (`answers_grow`), also from hypothetical seeds. Only the
active subgraph can lose an edge.
-/

namespace ArxDB.Proof

open Impl Impl.Reachability Derivation Valuation

variable {P : Prims}

/-! ## What stays -/

theorem run_append (calls more : List CommitCall) :
    CommitCall.run P (calls ++ more) = more.foldl (CommitCall.exec P) (CommitCall.run P calls) := List.foldl_append ..

theorem log_grows (calls more : List CommitCall) {row : LogRow} (h : row ∈ (CommitCall.run P calls).log) :
    row ∈ (CommitCall.run P (calls ++ more)).log := by
  rw [run_append]
  exact List.foldlRecOn (motive := fun s : Storage => row ∈ s.log) more _ h fun s h c _ => mem_log_exec h

/-- What a hash is resolved to depends on the stored bytes only. -/
theorem resolveEdge_eq {s s' : Storage} {data : Bytes} (h : Has P s.objects data) (h' : Has P s'.objects data) :
    resolveEdge P (P.hashBytes data) s' = resolveEdge P (P.hashBytes data) s := by
  rw [Has] at h h'
  simp only [resolveEdge, h, h']

/-- An edge that counts does so after more commits. -/
theorem usable_grows (hc : P.CborLaws) (calls more : List CommitCall)
    (hM : Set.InjOn P.hashBytes (callBlobs P (calls ++ more))) :
    usable P (CommitCall.run P calls) none ⊆ usable P (CommitCall.run P (calls ++ more)) none := by
  have hsub : callBlobs P calls ⊆ callBlobs P (calls ++ more) := by
    intro m hm
    obtain ⟨c, hcall, hm⟩ := hm
    exact ⟨c, List.mem_append_left _ hcall, hm⟩
  obtain ⟨cs, hcs⟩ := run_stored hc calls (hM.mono hsub)
  obtain ⟨cs', hcs'⟩ := run_stored hc (calls ++ more) hM
  intro p hp
  obtain ⟨hindexed, -, hresolve, hcounts⟩ := hp
  obtain ⟨q, hq, hhash⟩ := hcs.mem_allEdges.mp hindexed
  obtain ⟨es, hlog, -, hpay⟩ := hcs.log
  obtain ⟨es', hlog', -, hpay'⟩ := hcs'.log
  -- its entry is still logged, so its hash is still indexed and its bytes are there
  have hlater : ∃ q' ∈ cs', q'.2 = q.2 := by
    have hmem : q.2 ∈ es.map LogEntry.payload := hpay ▸ List.mem_map_of_mem hq
    obtain ⟨entry, hentry, hdata⟩ := List.mem_map.mp hmem
    have hrow : entry.row ∈ (CommitCall.run P (calls ++ more)).log :=
      log_grows calls more (hlog ▸ List.mem_map_of_mem hentry)
    rw [hlog'] at hrow
    obtain ⟨entry', hentry', hrow'⟩ := List.mem_map.mp hrow
    have hmem' : q.2 ∈ es'.map LogEntry.payload := by
      rw [← hdata, ← row_inj.mp hrow']
      exact List.mem_map_of_mem hentry'
    rw [hpay'] at hmem'
    exact List.mem_map.mp hmem'
  obtain ⟨q', hq', hdata⟩ := hlater
  refine ⟨hcs'.mem_allEdges.mpr ⟨q', hq', hdata ▸ hhash⟩, nofun, ?_, hcounts⟩
  rw [← hresolve, ← hhash]
  exact resolveEdge_eq (hcs.edges q hq).has (hdata ▸ (hcs'.edges q' hq').has)

/-! ## The answers -/

section Answers

variable {target : Hash} {storage : Storage} {minKappa : Kappa} {extraSeeds : List Hash}
  {activeEdges : Option (Finset Hash)} {r : ReachabilityResult}
  (hr : reachable P target storage minKappa extraSeeds activeEdges = .ok r)
include hr

theorem reachable_kappa_greatest {k : Kappa} (hk : r.kappa = some k) :
    IsGreatest (Set.range fun t : Tree (system (usable P storage activeEdges) extraSeeds) target => t.strength) k := by
  rw [(reachable_labels hr).1, fixpoint_kappa] at hk
  rw [usable_eq]
  exact isGreatest raised_sound raised_closed hk

/-- Where there is a derivation there is a κ and a depth. -/
theorem reachable_labelled (t : Tree (system (usable P storage activeEdges) extraSeeds) target) :
    (∃ k, r.kappa = some k) ∧ ∃ d, r.depth = some d := by
  rw [usable_eq] at t
  rw [(reachable_labels hr).1, (reachable_labels hr).2, fixpoint_kappa]
  exact ⟨(isSome_iff raised_sound raised_closed target).mpr ⟨t⟩, Option.isSome_iff_exists.mp (fixpoint_depth t)⟩

end Answers

/-- Whatever is committed after an answer, the same query, over all edges and
from the same hypothetical seeds, answers no less: what was established is so,
the κ is no smaller and the depth no greater. -/
theorem answers_grow (hc : P.CborLaws) (calls more : List CommitCall)
    (hM : Set.InjOn P.hashBytes (callBlobs P (calls ++ more))) (target : Hash) (minKappa : Kappa)
    (extraSeeds : List Hash) :
    ∃ r r', reachable P target (CommitCall.run P calls) minKappa extraSeeds none = .ok r ∧
      reachable P target (CommitCall.run P (calls ++ more)) minKappa extraSeeds none = .ok r' ∧
      (r.established = true → r'.established = true) ∧ (∀ k, r.kappa = some k → ∃ k' ≥ k, r'.kappa = some k') ∧
      ∀ d, r.depth = some d → ∃ d' ≤ d, r'.depth = some d' := by
  have hedges : (system (usable P (CommitCall.run P calls) none) extraSeeds).edges ⊆
      usable P (CommitCall.run P (calls ++ more)) none := usable_grows hc calls more hM
  obtain ⟨r, hr, hest⟩ := reachable_derives P target (CommitCall.run P calls) minKappa extraSeeds none
  obtain ⟨r', hr', hest'⟩ := reachable_derives P target (CommitCall.run P (calls ++ more)) minKappa extraSeeds none
  refine ⟨r, r', hr, hr', fun h => ?_, fun k hk => ?_, fun d hd => ?_⟩
  · obtain ⟨t, ht⟩ := hest.mp h
    obtain ⟨t', hstrength, -⟩ := t.widen hedges
    refine hest'.mpr ⟨t', Tree.le_strength_iff.mp ?_⟩
    exact hstrength.symm ▸ Tree.le_strength_iff.mpr ht
  · have hgreatest := reachable_kappa_greatest hr hk
    obtain ⟨t, -⟩ := hgreatest.1
    obtain ⟨t', -⟩ := t.widen hedges
    obtain ⟨⟨k', hk'⟩, -⟩ := reachable_labelled hr' t'
    exact ⟨k', greatest_widen hedges hgreatest (reachable_kappa_greatest hr' hk'), hk'⟩
  · have hleast := (reachable_depth_iff hr).mp hd
    obtain ⟨t, -⟩ := hleast.1
    obtain ⟨t', -⟩ := t.widen hedges
    obtain ⟨-, d', hd'⟩ := reachable_labelled hr' t'
    exact ⟨d', least_widen hedges hleast ((reachable_depth_iff hr').mp hd'), hd'⟩

section Example

open Reference

/-- The axiom of the cited run is established at κ∞, and still is after the
citation. -/
theorem answers_grow_cited : ∃ a, (mathNode "0 is a natural number").nodeBytes reference = .ok a ∧
    Established reference (CommitCall.run reference axiomCited) .kInf (reference.hashBytes a) := by
  obtain ⟨a, ha⟩ : ∃ a, (mathNode "0 is a natural number").nodeBytes reference = .ok a := ⟨_, rfl⟩
  have hM : Set.InjOn reference.hashBytes (callBlobs reference axiomCited) := callBlobs_injOn (by decide +kernel)
  have hB : ∀ c ∈ axiomCited.take 1, c.checkers = Backends.checkers reference interp backends :=
    List.forall_mem_singleton.mpr rfl
  have haccepted : AcceptedIn reference (axiomCited.take 1) axiomCited[0] := by
    have hreturned : ((axiomCited[0].prog reference).exec axiomCited[0].fault
        (CommitCall.run reference [])).1.toOption.any (fun r => r.rejected = false) = true := by decide +kernel
    obtain ⟨r, hr, hrej⟩ := Option.any_eq_true _ _ |>.mp hreturned
    exact ⟨[], [], r, rfl, toOption_eq_some.mp hr, of_decide_eq_true hrej⟩
  have hdefined : Earned reference interp backends {c | AcceptedIn reference (axiomCited.take 1) c} .kInf a :=
    .step axiomCited[0] haccepted (by decide) (axiomCited_unvetoed _ (by simp)) .kInf le_rfl
      ⟨_, rfl, by decide +kernel⟩ a ha [] rfl nofun
  have hsub : callBlobs reference (axiomCited.take 1) ⊆ callBlobs reference axiomCited := fun m hm => by
    obtain ⟨c, hcall, hm⟩ := hm
    exact ⟨c, List.mem_of_mem_take hcall, hm⟩
  obtain ⟨r₁, hr₁, hest⟩ : Established reference (CommitCall.run reference (axiomCited.take 1)) .kInf
      (reference.hashBytes a) :=
    established_derives.mpr ((run_carries reference_cborLaws (hM.mono hsub)).derives hB hdefined)
  obtain ⟨r, r', hr, hr', hgrows, -⟩ := answers_grow reference_cborLaws (axiomCited.take 1) (axiomCited.drop 1)
    (by rwa [List.take_append_drop]) (reference.hashBytes a) .kInf []
  obtain rfl : r₁ = r := Except.ok.inj (hr₁.symm.trans hr)
  rw [List.take_append_drop] at hr'
  exact ⟨a, ha, r', hr', hgrows hest⟩

end Example

end ArxDB.Proof
