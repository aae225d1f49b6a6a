import ArxDB.Proof.Grades
import ArxDB.Proof.Reachability
import ArxDB.Proof.Reproduce
import ArxDB.Reference.Backends

/-!
# Strength is earned

What a store answers to be established, over all its edges and without
hypotheses, against what the calls that filled it proposed: a proposition is
`Earned` at a κ by steps that ELENCHUS did not veto and whose types have that
κ at least. Every answer is earned by calls of the run, and what accepted calls
earn is answered (`established_earned`), whatever other calls did in between;
at κ∞ this is an axiom of the roster.
-/

namespace ArxDB.Proof

open Impl Verifier Checker Text Derivation

variable {P : Prims} {I : Interp} {B : Seconds → Backends}

/-! ## What calls earn -/

/-- The proposition with these bytes follows at κ `k` by proposals of `S`, each
let pass by ELENCHUS and graded `k` or better, from no others. -/
inductive Earned (P : Prims) (I : Interp) (B : Seconds → Backends) (S : Set CommitCall) (k : Kappa) : Bytes → Prop
  | step (c : CommitCall) (hc : c ∈ S) (htype : c.proposal.edgeType ≠ .refutation)
      (hpass : Unvetoed P I B c.proposal.premises c.proposal.conclusion c.proposal.rule c.proposal.edgeType)
      (j : Kappa) (hk : k ≤ j)
      (hgrade : Grades B c.proposal.premises c.proposal.conclusion c.proposal.edgeType c.proposal.proofBytes
        c.proposal.timeoutSeconds j)
      (b : Bytes) (hb : c.proposal.conclusion.nodeBytes P = .ok b)
      (bs : List Bytes) (hbs : c.proposal.premises.mapM (Node.nodeBytes P) = .ok bs)
      (hprem : ∀ b' ∈ bs, Earned P I B S k b') : Earned P I B S k b

/-- Some answer has a property exactly when the answer that there is has it. -/
theorem exists_ok_iff {ε α : Type} {x : Except ε α} {a : α} (h : x = .ok a) {Q : α → Prop} :
    (∃ a', x = .ok a' ∧ Q a') ↔ Q a := by
  simp [h]

/-- The query answers that the node is established at this κ. -/
def Established (P : Prims) (storage : Storage) (k : Kappa) (target : Hash) : Prop :=
  ∃ r, Reachability.reachable P target storage k [] none = .ok r ∧ r.established = true

theorem established_derives {storage : Storage} {k : Kappa} {target : Hash} :
    Established P storage k target ↔ Derives (system (usable P storage none) []) k target := by
  obtain ⟨r, hr, hiff⟩ := reachable_derives P target storage k [] none
  exact (exists_ok_iff hr).trans hiff

/-! ## The edge of a call -/

/-- The accepted call was graded with the κ of its edge. -/
theorem edge?_grades {c : CommitCall} (hB : c.checkers = Backends.checkers P I B) {e : Edge} (he : edge? P c = some e) :
    Unvetoed P I B c.proposal.premises c.proposal.conclusion c.proposal.rule c.proposal.edgeType ∧
      Grades B c.proposal.premises c.proposal.conclusion c.proposal.edgeType c.proposal.proofBytes
        c.proposal.timeoutSeconds e.kappa := by
  obtain ⟨v, hv, hrej, ps, -, k, -, rfl⟩ := edge?_eq_some.mp he
  rw [hB] at hv
  exact verify_grades.mp ⟨v, hv, hrej, rfl⟩

/-- Its premises and conclusion are the hashes of the bytes of those of the proposal. -/
theorem edge?_bytes {c : CommitCall} {e : Edge} (he : edge? P c = some e) :
    ∃ b bs, c.proposal.conclusion.nodeBytes P = .ok b ∧ c.proposal.premises.mapM (Node.nodeBytes P) = .ok bs ∧
      e.conclusion = P.hashBytes b ∧ e.premises = bs.map P.hashBytes := by
  obtain ⟨v, -, -, ps, hps, k, hk, rfl⟩ := edge?_eq_some.mp he
  obtain ⟨b, hb, rfl⟩ := nodeId_eq_ok.mp hk
  obtain ⟨bs, hbs⟩ := exists_mapM (f := Node.nodeBytes P) fun n hn => by
    obtain ⟨k, -, hnk⟩ := exists_of_forall₂ (List.Forall₂.flip (mapM_eq_ok_iff.mp hps)) hn
    obtain ⟨b, hb, -⟩ := nodeId_eq_ok.mp hnk
    exact ⟨b, hb⟩
  refine ⟨b, bs, hb, hbs, rfl, ?_⟩
  have hids : c.proposal.premises.mapM (Node.nodeId P) = .ok (bs.map P.hashBytes) := by
    rw [mapM_eq_ok_iff, List.forall₂_map_right_iff]
    exact (mapM_eq_ok_iff.mp hbs).imp fun n b hb => nodeId_eq_ok.mpr ⟨b, hb, rfl⟩
  exact Except.ok.inj (hps.symm.trans hids)

theorem edge?_blobs {c : CommitCall} {e : Edge} {data : Bytes} (he : edge? P c = some e) (hd : e.edgeBytes P = .ok data)
    {n : Node} (hn : n ∈ c.proposal.premises ++ [c.proposal.conclusion]) {b : Bytes} (hb : n.nodeBytes P = .ok b) :
    b ∈ blobs P c := by
  rw [blobs_eq he hd]
  exact List.mem_append_left _ (List.mem_filterMap.mpr ⟨n, hn, toOption_eq_some.mpr hb⟩)

/-! ## Edges that calls made -/

/-- The edges were made by calls of `S`, and those of the calls of `A` are among them. -/
structure Carries (P : Prims) (S A : Set CommitCall) (U : Set Reachability.DerivationEdge) : Prop where
  made (p : Reachability.DerivationEdge) (hp : p ∈ U) : p.2.type ≠ .refutation ∧
    ∃ c ∈ S, ∃ e data, edge? P c = some e ∧ e.edgeBytes P = .ok data ∧ EdgeSame P e p.2
  has (c : CommitCall) (hc : c ∈ A) : c ∈ S ∧ ∃ e, edge? P c = some e ∧ (e.type ≠ .refutation →
    ∃ p ∈ U, p.2.premises = e.premises ∧ p.2.conclusion = e.conclusion ∧ p.2.kappa = e.kappa)

namespace Carries

variable {S A : Set CommitCall} {U : Set Reachability.DerivationEdge} {k : Kappa}

/-- What they derive is earned. -/
theorem earned (h : Carries P S A U) {M : Set Bytes} (hM : Set.InjOn P.hashBytes M)
    (hS : ∀ c ∈ S, ∀ b ∈ blobs P c, b ∈ M) (hB : ∀ c ∈ S, c.checkers = Backends.checkers P I B) {target : Hash}
    (hd : Derives (system U []) k target) : ∃ b ∈ M, P.hashBytes b = target ∧ Earned P I B S k b := by
  refine hd.induct (X := fun n => ∃ b ∈ M, P.hashBytes b = n ∧ Earned P I B S k b)
    (fun n hn => absurd hn List.not_mem_nil) fun p hp hk hprem => ?_
  obtain ⟨htype, c, hc, e, data, hedge, hd, same⟩ := h.made p hp
  obtain ⟨b, bs, hb, hbs, hconcl, hprems⟩ := edge?_bytes hedge
  have hblob : ∀ {n b}, n ∈ c.proposal.premises ++ [c.proposal.conclusion] → n.nodeBytes P = .ok b → b ∈ M :=
    fun hn hb => hS c hc _ (edge?_blobs hedge hd hn hb)
  obtain ⟨hpass, hgrade⟩ := edge?_grades (hB c hc) hedge
  have hedgeType : c.proposal.edgeType ≠ .refutation := by
    obtain ⟨v, -, -, ps, -, i, -, hbuilt⟩ := edge?_eq_some.mp hedge
    rw [same.type, ← hbuilt] at htype
    exact htype
  refine ⟨b, hblob (by simp) hb, ?_, .step c hc hedgeType hpass _ (show k ≤ e.kappa from same.kappa ▸ hk) hgrade
    b hb bs hbs fun b' hb' => ?_⟩
  · rw [← hconcl, ← same.conclusion]
    rfl
  · have hmem : P.hashBytes b' ∈ p.2.premises := by
      rw [same.premises, hprems]
      exact List.mem_map_of_mem hb'
    obtain ⟨b'', hM'', hhash', hearned⟩ := hprem _ hmem
    obtain ⟨n, hn, hnb⟩ := mem_of_mapM hbs hb'
    obtain rfl := hM hM'' (hblob (List.mem_append_left _ hn) hnb) hhash'
    exact hearned

/-- What the calls of `A` earn is derived. -/
theorem derives (h : Carries P S A U) (hB : ∀ c ∈ S, c.checkers = Backends.checkers P I B) {b : Bytes}
    (he : Earned P I B A k b) : Derives (system U []) k (P.hashBytes b) := by
  induction he with
  | step c hcall htype hpass j hk hgrade b hb bs hbs hprem ih =>
    obtain ⟨hS, e, he, hcounts⟩ := h.has c hcall
    obtain ⟨b', bs', hb', hbs', hconcl, hprems⟩ := edge?_bytes he
    obtain rfl : b = b' := Except.ok.inj (hb.symm.trans hb')
    obtain rfl : bs = bs' := Except.ok.inj (hbs.symm.trans hbs')
    obtain ⟨v, hv, -, ps, -, i, -, hbuilt⟩ := edge?_eq_some.mp he
    have hkappa : e.kappa = j := by
      rw [hB c hS] at hv
      obtain ⟨v', hv', -, rfl⟩ := verify_grades.mpr ⟨hpass, hgrade⟩
      obtain rfl : v = v' := Except.ok.inj (hv.symm.trans hv')
      rw [← hbuilt]
      rfl
    have hedgeType : e.type ≠ .refutation := by
      rw [← hbuilt]
      exact htype
    obtain ⟨p, hp, hpprem, hpconcl, hpk⟩ := hcounts hedgeType
    rw [← hconcl, ← hpconcl]
    refine Derives.step (Y := system U []) hp (show k ≤ p.2.kappa from hpk ▸ hkappa ▸ hk) fun q hq => ?_
    rw [show (system U []).premises p = bs.map P.hashBytes from hpprem.trans hprems] at hq
    obtain ⟨b', hb', rfl⟩ := List.mem_map.mp hq
    exact ih b' hb'

end Carries

/-- At κ∞ only a listed axiom is graded. -/
theorem Grades.listed {premises : List Node} {conclusion : Node} {edgeType : EdgeType} {proofBytes : Option Bytes}
    {timeoutSeconds : Seconds} (h : Grades B premises conclusion edgeType proofBytes timeoutSeconds .kInf) :
    edgeType = .definition ∧ ∃ s, conclusion.claim = .str s ∧ normalize s.toList ∈ roster.map String.toList := by
  rw [Grades] at h
  cases edgeType
  case definition =>
    obtain ⟨s, hs, hk⟩ := h
    refine ⟨rfl, s, hs, ?_⟩
    split at hk
    · rename_i hlisted
      exact List.contains_iff_mem.mp hlisted
    · cases hk
  case deduction =>
    simp only [checkerFor] at h
    split_ifs at h
    all_goals cases h.1
  case numerical | spectral => cases h.1
  all_goals cases h

/-- A call of `S` defined the proposition with these bytes as an axiom of the roster. -/
def DefinedAxiom (P : Prims) (S : Set CommitCall) (b : Bytes) : Prop :=
  ∃ c ∈ S, c.proposal.edgeType = .definition ∧ c.proposal.conclusion.nodeBytes P = .ok b ∧
    ∃ s, c.proposal.conclusion.claim = .str s ∧ normalize s.toList ∈ roster.map String.toList

theorem Earned.defined {S : Set CommitCall} {b : Bytes} (h : Earned P I B S .kInf b) : DefinedAxiom P S b := by
  cases h with
  | step c hcall htype hpass j hk hgrade _ hb bs hbs hprem =>
    obtain rfl : j = .kInf := top_le_iff.mp hk
    obtain ⟨hdef, s, hs, hlisted⟩ := hgrade.listed
    exact ⟨c, hcall, hdef, hb, s, hs, hlisted⟩

/-! ## Runs -/

/-- The call was made in this run and returned its edge. -/
def AcceptedIn (P : Prims) (calls : List CommitCall) (c : CommitCall) : Prop :=
  ∃ before after r, calls = before ++ c :: after ∧
    ((c.prog P).exec c.fault (CommitCall.run P before)).1 = .ok r ∧ r.rejected = false

theorem mem_log_exec {c : CommitCall} {s : Storage} {row : LogRow} (h : row ∈ s.log) : row ∈ (c.exec P s).log := by
  obtain ⟨-, hext⟩ := exec_grows (P := P) (.verifyAndCommit c) s
  rcases hext with hlog | ⟨payload, e, -, hlog⟩
  · exact hlog ▸ h
  · exact hlog ▸ List.mem_append_left _ h

/-- The edge of an accepted call is logged from then on. -/
theorem AcceptedIn.logged {calls : List CommitCall} {c : CommitCall} (h : AcceptedIn P calls c) :
    ∃ e data, edge? P c = some e ∧ e.edgeBytes P = .ok data ∧
    ∃ row ∈ (CommitCall.run P calls).log, row.payload = data := by
  obtain ⟨before, after, r, rfl, hr, hrej⟩ := h
  have hexec : (c.prog P).exec c.fault (CommitCall.run P before) = (.ok r, c.exec P (CommitCall.run P before)) :=
    Prod.ext hr rfl
  rcases verifyAndCommit_wp.ok hexec with ⟨hrej', -⟩ | ⟨e, data, -, he, hd, entry, ha, hs⟩
  · rw [hrej] at hrej'
    cases hrej'
  · refine ⟨e, data, he, hd, entry.row, ?_, ha.payload⟩
    rw [CommitCall.run, List.foldl_append, List.foldl_cons, ← CommitCall.run]
    refine List.foldlRecOn (motive := fun s : Storage => entry.row ∈ s.log) after _ ?_
      fun s h c _ => mem_log_exec h
    rw [hs]
    exact List.mem_append_right _ (List.mem_singleton.mpr rfl)

theorem pass_or_softFlag {v : Verdict} (h : v ≠ .hardVeto) : v = .pass ∨ v = .softFlag := by
  cases v with
  | pass => exact .inl rfl
  | softFlag => exact .inr rfl
  | hardVeto => exact absurd rfl h

/-- What is logged is usable. -/
theorem usable_of_logged (hc : P.CborLaws) {s : Storage} (hs : Consistent P s) {row : LogRow} (hrow : row ∈ s.log)
    {e : Edge} (he : e.edgeBytes P = .ok row.payload) (htype : e.type ≠ .refutation) :
    ∃ p ∈ usable P s none, p.2.premises = e.premises ∧ p.2.conclusion = e.conclusion ∧ p.2.kappa = e.kappa := by
  obtain ⟨h, hindexed, e', hresolve, he'⟩ := hs.log row hrow
  obtain ⟨e'', hresolve', -, hverdict, -⟩ := hs.edges h hindexed
  obtain rfl : e' = e'' := Option.some.inj (hresolve.symm.trans hresolve')
  obtain ⟨d, same, same'⟩ := edgeSame_of_bytes hc he he'
  refine ⟨(h, e'), ⟨hindexed, nofun, hresolve, ?_, ?_⟩, same'.premises.symm.trans same.premises,
    same'.conclusion.symm.trans same.conclusion, same'.kappa.symm.trans same.kappa⟩
  · rw [← same'.type, same.type]
    exact htype
  · exact pass_or_softFlag hverdict

theorem run_carries (hc : P.CborLaws) {calls : List CommitCall} (hM : Set.InjOn P.hashBytes (callBlobs P calls)) :
    Carries P {c | c ∈ calls} {c | AcceptedIn P calls c} (usable P (CommitCall.run P calls) none) := by
  obtain ⟨cs, hcs⟩ := run_stored hc calls hM
  refine ⟨fun p hp => ?_, fun c hcall => ?_⟩
  · obtain ⟨hindexed, -, hresolve, htype, -⟩ := hp
    obtain ⟨q, hq, hhash⟩ := hcs.mem_allEdges.mp hindexed
    obtain ⟨e, he, same, -⟩ := resolveEdge_of_has hc (hcs.edges q hq).edgeBytes (hcs.edges q hq).has
    obtain rfl : e = p.2 := Option.some.inj ((hhash ▸ he).symm.trans hresolve)
    obtain ⟨c, hcall, hedge⟩ := hcs.called q hq
    exact ⟨htype, c, hcall, q.1, q.2, hedge, (hcs.edges q hq).edgeBytes, same⟩
  · obtain ⟨e, data, he, hd, row, hrow, rfl⟩ := AcceptedIn.logged hcall
    have hmem : c ∈ calls := by
      obtain ⟨before, after, -, rfl, -⟩ := hcall
      simp
    exact ⟨hmem, e, he, usable_of_logged hc (hcs.consistent hc hM) hrow hd⟩

/-- After any run of commits, a node that the query over all edges answers to
be established at a κ is earned at that κ by calls of the run, and what
accepted calls of the run earn is so answered; at κ∞ it was defined as an axiom
that the roster lists. -/
theorem established_earned (hc : P.CborLaws) (calls : List CommitCall) (b : Bytes)
    (hM : Set.InjOn P.hashBytes (insert b (callBlobs P calls))) (hB : ∀ c ∈ calls, c.checkers = Backends.checkers P I B)
    (k : Kappa) :
    (Established P (CommitCall.run P calls) k (P.hashBytes b) → Earned P I B {c | c ∈ calls} k b) ∧
    (Earned P I B {c | AcceptedIn P calls c} k b → Established P (CommitCall.run P calls) k (P.hashBytes b)) ∧
    (Established P (CommitCall.run P calls) .kInf (P.hashBytes b) → DefinedAxiom P {c | c ∈ calls} b) := by
  have hcarries := run_carries hc (hM.mono (Set.subset_insert _ _))
  have hearned : ∀ j, Established P (CommitCall.run P calls) j (P.hashBytes b) → Earned P I B {c | c ∈ calls} j b := by
    intro j h
    obtain ⟨b', hb', hhash, he⟩ := hcarries.earned hM
      (fun c hcall m hm => Set.mem_insert_of_mem b ⟨c, hcall, hm⟩) hB (established_derives.mp h)
    exact hM hb' (Set.mem_insert _ _) hhash ▸ he
  exact ⟨hearned k, fun h => established_derives.mpr (hcarries.derives hB h), fun h => (hearned .kInf h).defined⟩

section Example

open Reference

/-- An axiom, and a citation from it. -/
def axiomCited : List CommitCall :=
  let keys : Keys := ⟨List.replicate 32 7, List.replicate 32 7⟩
  let listed := mathNode "0 is a natural number"
  [⟨Backends.checkers reference interp backends, keys, 10, none,
      ⟨.bytes keys.pub, [], listed, .str "r", .definition, none, defaultTimeout⟩⟩,
    ⟨Backends.checkers reference interp backends, keys, 20, none,
      ⟨.bytes keys.pub, [listed], mathNode "b", .str "r", .citation, none, defaultTimeout⟩⟩]

theorem axiomCited_accepted : ∀ c ∈ axiomCited, AcceptedIn reference axiomCited c := by
  have hreturned : ∀ i : Fin 2, ((axiomCited[i].prog reference).exec axiomCited[i].fault
      (CommitCall.run reference (axiomCited.take i))).1.toOption.any (fun r => r.rejected = false) = true := by
    decide +kernel
  have haccepted : ∀ i : Fin 2, AcceptedIn reference axiomCited axiomCited[i] := by
    intro i
    obtain ⟨r, hr, hrej⟩ := Option.any_eq_true _ _ |>.mp (hreturned i)
    exact ⟨axiomCited.take i, axiomCited.drop (i + 1), r, by simp, toOption_eq_some.mp hr, of_decide_eq_true hrej⟩
  rw [axiomCited, List.forall_mem_cons, List.forall_mem_singleton]
  exact ⟨haccepted 0, haccepted 1⟩

theorem axiomCited_unvetoed : ∀ c ∈ axiomCited, Unvetoed reference interp backends c.proposal.premises
    c.proposal.conclusion c.proposal.rule c.proposal.edgeType := by
  have hpass : ∀ c ∈ axiomCited, evaluate (Backends.checkers reference interp backends) c.proposal.premises
      c.proposal.conclusion c.proposal.rule c.proposal.edgeType = .ok ⟨.pass, []⟩ := by decide +kernel
  exact fun c hc => ⟨_, hpass c hc, by decide⟩

/-- The citation is answered at κ1. -/
theorem established_earned_cited : ∃ b, (mathNode "b").nodeBytes reference = .ok b ∧
    Established reference (CommitCall.run reference axiomCited) .k1 (reference.hashBytes b) := by
  obtain ⟨a, ha⟩ : ∃ a, (mathNode "0 is a natural number").nodeBytes reference = .ok a := ⟨_, rfl⟩
  obtain ⟨b, hb⟩ : ∃ b, (mathNode "b").nodeBytes reference = .ok b := ⟨_, rfl⟩
  have hmem : b ∈ callBlobs reference axiomCited := by
    have hcalls : ∀ b ∈ ((mathNode "b").nodeBytes reference).toOption, b ∈ axiomCited.flatMap (blobs reference) := by
      decide +kernel
    exact List.mem_flatMap.mp (hcalls b (toOption_eq_some.mpr hb))
  have hM : Set.InjOn reference.hashBytes (insert b (callBlobs reference axiomCited)) := by
    rw [Set.insert_eq_of_mem hmem]
    exact callBlobs_injOn (by decide +kernel)
  have hB : ∀ c ∈ axiomCited, c.checkers = Backends.checkers reference interp backends := by
    rw [axiomCited, List.forall_mem_cons, List.forall_mem_singleton]
    exact ⟨rfl, rfl⟩
  have hdefined : Earned reference interp backends {c | AcceptedIn reference axiomCited c} .k1 a :=
    .step axiomCited[0] (axiomCited_accepted _ (by simp)) (by decide) (axiomCited_unvetoed _ (by simp)) .kInf le_top
      ⟨_, rfl, by decide +kernel⟩ a ha [] rfl nofun
  have hcited : Earned reference interp backends {c | AcceptedIn reference axiomCited c} .k1 b :=
    .step axiomCited[1] (axiomCited_accepted _ (by simp)) (by decide) (axiomCited_unvetoed _ (by simp)) .k1 le_rfl
      rfl b hb [a] (mapM_eq_ok_iff.mpr (.cons ha .nil)) (List.forall_mem_singleton.mpr hdefined)
  exact ⟨b, hb, (established_earned reference_cborLaws axiomCited b hM hB .k1).2.1 hcited⟩

end Example

end ArxDB.Proof
