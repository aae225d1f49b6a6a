import ArxDB.Proof.Go.Clients

/-!
# The verification layer on the daemon

However clients of a daemon are interleaved, the objects and the index agree as
they do for one caller (`layer_consistent`), and `reachable` answers at a κ what
was earned at that κ (`layer_earned`). The log need not agree with them: where
two commits overlap, an entry can be lost.
-/

namespace ArxDB.Proof.Go

open Impl (Bytes Hash Prims Edge Node CommitCall CommitResult Kappa)
open Impl.Go Threads

variable {P : Prims} {kp : Keypair} {ι : Type} {clients : ι → Client}

/-! ## Queries -/

section Queries

variable {s : Storage} {h : Hash} {activeEdges : Option (Finset Hash)} {p : Impl.Reachability.DerivationEdge}

/-- The edge that can be read under a hash. -/
def storedEdge? (P : Prims) (s : Storage) (h : Hash) : Option Edge :=
  (ObjectStore.get s.objects h).bind fun data => (Edge.fromBytes P data).toOption

theorem client_resolveEdge_eq : GrpcStorage.resolveEdge P s h = .ok (storedEdge? P s h) := by
  rw [GrpcStorage.resolveEdge, client_getObject_eq, storedEdge?]
  cases ObjectStore.get s.objects h <;> rfl

theorem client_resolveNode_eq : GrpcStorage.resolveNode P s h =
    .ok ((ObjectStore.get s.objects h).bind fun data => (Node.fromBytes P data).toOption) := by
  rw [GrpcStorage.resolveNode, client_getObject_eq]
  cases ObjectStore.get s.objects h <;> rfl

/-- The edges that derive, over the daemon. -/
def usable (P : Prims) (s : Storage) (activeEdges : Option (Finset Hash)) : Set Impl.Reachability.DerivationEdge :=
  {p | p.1 ∈ GraphIndex.allEdges s.db ∧ (∀ active, activeEdges = some active → p.1 ∈ active) ∧
    storedEdge? P s p.1 = some p.2 ∧ p.2.type ≠ .refutation ∧ (p.2.verdict = .pass ∨ p.2.verdict = .softFlag)}

theorem client_derivationEdges_eq : GrpcStorage.derivationEdges P s activeEdges =
    .ok ((GraphIndex.allEdges s.db).filterMap fun h => derivationEdge? activeEdges h (storedEdge? P s h)) := by
  refine bind_eq_ok.mpr ⟨_, client_allEdges_eq, bind_eq_ok.mpr ⟨_, mapM_eq_ok
    (g := fun h => derivationEdge? activeEdges h (storedEdge? P s h)) fun h _ => ?_,
    congrArg Except.ok List.filterMap_map⟩⟩
  unfold derivationEdge?
  by_cases hactive : activeEdges.any (fun active => decide (h ∉ active)) = true
  · rw [if_pos hactive, if_pos hactive]
    rfl
  · rw [if_neg hactive, if_neg hactive, client_resolveEdge_eq]
    cases storedEdge? P s h with
    | none => rfl
    | some e =>
      show (if _ then _ else if _ then _ else _) = Except.ok (if _ then _ else if _ then _ else _)
      split_ifs <;> rfl

theorem usable_eq : usable P s activeEdges = {p | p ∈ (GraphIndex.allEdges s.db).filterMap
    fun h => derivationEdge? activeEdges h (storedEdge? P s h)} := by
  ext p
  simp only [List.mem_filterMap, derivationEdge?_eq_some, usable, Set.mem_ofPred_eq]
  constructor
  · exact fun h => ⟨p.1, h.1, rfl, h.2⟩
  · intro h
    obtain ⟨_, hindexed, rfl, hcounts⟩ := h
    exact ⟨hindexed, hcounts⟩

theorem client_reachable_derives (P : Prims) (target : Hash) (s : Storage) (minKappa : Kappa) (extraSeeds : List Hash)
    (activeEdges : Option (Finset Hash)) :
    ∃ r, GrpcStorage.reachable P s target minKappa extraSeeds activeEdges = .ok r ∧
      (r.established = true ↔ Derivation.Derives (system (usable P s activeEdges) extraSeeds) minKappa target) := by
  rw [usable_eq, ← fixpoint_derives, GrpcStorage.reachable, client_derivationEdges_eq]
  generalize (GraphIndex.allEdges s.db).filterMap _ = edges
  simp only [bind, Except.bind]
  cases hk : (Impl.Reachability.fixpoint edges extraSeeds).kappa target with
  | none => exact ⟨_, rfl, by simp⟩
  | some k =>
    obtain ⟨d, hd⟩ := fixpoint_depth_of_kappa hk
    simp only [hd]
    exact ⟨_, rfl, by simp [Kappa.le_def]⟩

end Queries

/-! ## Consistency -/

/-- The objects and the index of the daemon agree. -/
structure Consistent (P : Prims) (s : Storage) : Prop where
  /-- An indexed hash is that of an edge whose parts are all there. -/
  edges : ∀ h ∈ GraphIndex.allEdges s.db, ∃ e, GrpcStorage.resolveEdge P s h = .ok (some e) ∧ e.edgeHash P = .ok h ∧
    e.verdict ≠ .hardVeto ∧ GrpcStorage.getConnectivity s h = .ok (some (e.premises, e.conclusion)) ∧
    (∀ k ∈ e.conclusion :: e.premises, ∃ n, GrpcStorage.resolveNode P s k = .ok (some n) ∧ n.nodeId P = .ok k) ∧
    ∀ k, e.proofHash = some k → ∃ proof, GrpcStorage.getObject s k = .ok (some proof) ∧ P.hashBytes proof = k
  /-- The nodes are the premises and conclusions of the indexed edges. -/
  nodes : ∀ k, k ∈ GraphIndex.allNodes s.db ↔
    ∃ h ∈ GraphIndex.allEdges s.db, ∃ e, GrpcStorage.resolveEdge P s h = .ok (some e) ∧ k ∈ e.conclusion :: e.premises

section Consistent

variable {s : Storage} {cs : List (Edge × Bytes)}

theorem Backed.storedEdge? (hc : P.CborLaws) {q : Edge × Bytes} (h : Backed P kp clients s.objects q) :
    ∃ e, storedEdge? P s (P.hashBytes q.2) = some e ∧ EdgeSame P q.1 e ∧ e.edgeBytes P = .ok q.2 := by
  obtain ⟨i, he, hd, hb⟩ := h
  obtain ⟨e, hfrom, same, hbytes⟩ := edge_fromBytes hc hd
  refine ⟨e, ?_, same, hbytes⟩
  rw [Go.storedEdge?, hb q.2 (by simp [Proof.blobs_eq he hd]), Option.bind_some, toOption_eq_some, hfrom]

theorem Layered.consistent (hc : P.CborLaws) (h : Layered P kp clients s cs) : Consistent P s := by
  have resolve : ∀ q ∈ cs, ∃ e, GrpcStorage.resolveEdge P s (P.hashBytes q.2) = .ok (some e) ∧ EdgeSame P q.1 e ∧
      e.edgeBytes P = .ok q.2 := by
    intro q hq
    obtain ⟨e, he, same, hb⟩ := (h.backed q hq).storedEdge? hc
    exact ⟨e, client_resolveEdge_eq.trans (congrArg Except.ok he), same, hb⟩
  refine ⟨fun k hk => ?_, fun k => ?_⟩
  · obtain ⟨q, hq, rfl⟩ := h.graph.mem_allEdges.mp hk
    obtain ⟨e, he, same, hb⟩ := resolve q hq
    obtain ⟨i, hcall, hd, hblobs⟩ := h.backed q hq
    obtain ⟨hverdict, hproof, hnodes⟩ := edge?_refs hcall
    refine ⟨e, he, edgeHash_eq_ok.mpr ⟨_, hb, rfl⟩, same.verdict ▸ hverdict, ?_, fun k hk => ?_, fun k hk => ?_⟩
    · rw [client_getConnectivity_eq, h.graph.getConnectivity hq, same.premises, same.conclusion]
    · rw [same.premises, same.conclusion] at hk
      obtain ⟨n, hn, hk⟩ := hnodes k hk
      obtain ⟨b, hb, rfl⟩ := nodeId_eq_ok.mp hk
      obtain ⟨n', hfrom, -, hb'⟩ := node_fromBytes hc hb
      refine ⟨n', ?_, nodeId_eq_ok.mpr ⟨b, hb', rfl⟩⟩
      rw [client_resolveNode_eq, hblobs b (edge?_blobs hcall hd hn hb), Option.bind_some]
      exact congrArg Except.ok (toOption_eq_some.mpr hfrom)
    · rw [same.proofHash, hproof, Option.map_eq_some_iff] at hk
      obtain ⟨b, hb, rfl⟩ := hk
      refine ⟨b, ?_, rfl⟩
      rw [client_getObject_eq, hblobs b]
      rw [Proof.blobs_eq hcall hd]
      simp [show (clientCall kp (clients i)).proposal.proofBytes = some b from hb]
  · rw [h.graph.mem_allNodes]
    constructor
    · intro hk
      obtain ⟨q, hq, hk⟩ := hk
      obtain ⟨e, he, same, -⟩ := resolve q hq
      exact ⟨_, h.graph.mem_allEdges.mpr ⟨q, hq, rfl⟩, e, he, by rwa [same.premises, same.conclusion]⟩
    · intro hk
      obtain ⟨k', hk', e, he, hk⟩ := hk
      obtain ⟨q, hq, rfl⟩ := h.graph.mem_allEdges.mp hk'
      obtain ⟨e', he', same, -⟩ := resolve q hq
      obtain rfl : e' = e := Option.some.inj (Except.ok.inj (he'.symm.trans he))
      exact ⟨q, hq, by rwa [same.premises, same.conclusion] at hk⟩

variable [DecidableEq ι]

/-- In every state that clients of a daemon lead to, however they are
interleaved, whatever fails and whoever dies, the objects and the index agree;
an edge that is indexed stays so; and a client that returns accepted returned
the hash of its edge, which is indexed. -/
theorem layer_consistent (hc : P.CborLaws) (clients : ι → Client)
    (hM : Set.InjOn P.hashBytes (clientBlobs P kp clients))
    (hlen : ∀ i, (clients i).proposal.premises.length < 2 ^ 63) (schedule : List ι) :
    Consistent P ((GrpcStorage.start P kp clients).run schedule).shared ∧
    (∀ more, ∀ h ∈ GraphIndex.allEdges ((GrpcStorage.start P kp clients).run schedule).shared.db,
      h ∈ GraphIndex.allEdges ((GrpcStorage.start P kp clients).run (schedule ++ more)).shared.db) ∧
    ∀ i r, ((GrpcStorage.start P kp clients).run schedule).Returned i (.ok r) →
      Answered P kp (clients i) r ((GrpcStorage.start P kp clients).run schedule).shared := by
  have hpool := (run_keeps (start_keeps hc hM hlen) schedule).1
  obtain ⟨cs, hcs⟩ := hpool.inv
  refine ⟨hcs.consistent hc, fun more h hh => ?_, fun i r hr => hpool.returned hr r rfl⟩
  rw [Pool.run_append]
  exact (run_keeps hpool more).2.2 h hh

end Consistent

/-! ## Strength -/

section Earned

variable {s : Storage} {cs : List (Edge × Bytes)}

theorem Layered.carries (hc : P.CborLaws) (hM : Set.InjOn P.hashBytes (clientBlobs P kp clients))
    (h : Layered P kp clients s cs) {A : Set CommitCall}
    (hA : ∀ c ∈ A, ∃ i, c = clientCall kp (clients i) ∧ ∃ e data, Proof.edge? P c = some e ∧ e.edgeBytes P = .ok data ∧
      P.hashBytes data ∈ GraphIndex.allEdges s.db) :
    Carries P (Set.range fun i => clientCall kp (clients i)) A (usable P s none) := by
  refine ⟨fun p hp => ?_, fun c hcall => ?_⟩
  · obtain ⟨hindexed, -, hresolve, htype, -⟩ := hp
    obtain ⟨q, hq, hhash⟩ := h.graph.mem_allEdges.mp hindexed
    obtain ⟨e, he, same, -⟩ := (h.backed q hq).storedEdge? hc
    obtain rfl : e = p.2 := Option.some.inj ((hhash ▸ he).symm.trans hresolve)
    obtain ⟨i, hedge, hd, -⟩ := h.backed q hq
    exact ⟨htype, _, ⟨i, rfl⟩, q.1, q.2, hedge, hd, same⟩
  · obtain ⟨i, rfl, e, data, he, hd, hindexed⟩ := hA c hcall
    refine ⟨⟨i, rfl⟩, e, he, fun htype => ?_⟩
    obtain ⟨q, hq, hhash⟩ := h.graph.mem_allEdges.mp hindexed
    have hmem : data ∈ clientBlobs P kp clients := ⟨i, by simp [Proof.blobs_eq he hd]⟩
    obtain rfl : q.2 = data := hM (h.backed q hq).mem hmem hhash
    obtain ⟨e', he', -, hb⟩ := (h.backed q hq).storedEdge? hc
    obtain ⟨d, same, same'⟩ := edgeSame_of_bytes hc hd hb
    have hverdict : e'.verdict ≠ .hardVeto := by
      rw [← same'.verdict, same.verdict]
      exact (edge?_refs he).1
    refine ⟨(_, e'), ⟨hindexed, nofun, he', ?_, ?_⟩, same'.premises.symm.trans same.premises,
      same'.conclusion.symm.trans same.conclusion, same'.kappa.symm.trans same.kappa⟩
    · rw [← same'.type, same.type]
      exact htype
    · exact pass_or_softFlag hverdict

/-- The daemon is found to establish the node. -/
def Established (P : Prims) (s : Storage) (k : Kappa) (target : Hash) : Prop :=
  ∃ r, GrpcStorage.reachable P s target k [] none = .ok r ∧ r.established = true

theorem established_derives {k : Kappa} {target : Hash} :
    Established P s k target ↔ Derivation.Derives (system (usable P s none) []) k target := by
  obtain ⟨r, hr, hiff⟩ := client_reachable_derives P target s k [] none
  exact (exists_ok_iff hr).trans hiff

/-- The calls of the clients that have returned accepted. -/
def acceptedCalls (kp : Keypair) (clients : ι → Client) (p : Pool ι Storage (Except ClientError CommitResult)) :
    Set CommitCall :=
  {c | ∃ i r, c = clientCall kp (clients i) ∧ p.Returned i (.ok r) ∧ r.rejected = false}

variable [DecidableEq ι] {B : Impl.Seconds → Impl.Backends} {I : Impl.Interp}

/-- While clients act, a node that the daemon is found to establish at a κ is
earned at that κ by calls of the clients, and what clients that have returned
accepted earn is so found; at κ∞ it was defined as an axiom that the roster
lists. -/
theorem layer_earned (hc : P.CborLaws) (clients : ι → Client) (b : Bytes)
    (hM : Set.InjOn P.hashBytes (insert b (clientBlobs P kp clients)))
    (hlen : ∀ i, (clients i).proposal.premises.length < 2 ^ 63)
    (hB : ∀ i, (clients i).checkers = Impl.Backends.checkers P I B)
    (schedule : List ι) (k : Kappa) :
    (Established P ((GrpcStorage.start P kp clients).run schedule).shared k (P.hashBytes b) →
      Earned P I B (Set.range fun i => clientCall kp (clients i)) k b) ∧
    (Earned P I B (acceptedCalls kp clients ((GrpcStorage.start P kp clients).run schedule)) k b →
      Established P ((GrpcStorage.start P kp clients).run schedule).shared k (P.hashBytes b)) ∧
    (Established P ((GrpcStorage.start P kp clients).run schedule).shared .kInf (P.hashBytes b) →
      DefinedAxiom P (Set.range fun i => clientCall kp (clients i)) b) := by
  have hM' := hM.mono (Set.subset_insert _ _)
  have hpool := (run_keeps (start_keeps hc hM' hlen) schedule).1
  obtain ⟨cs, hcs⟩ := hpool.inv
  have hcarries := hcs.carries hc hM' (A := acceptedCalls kp clients ((GrpcStorage.start P kp clients).run schedule))
    fun c hcall => by
    obtain ⟨i, r, rfl, hr, hrej⟩ := hcall
    obtain ⟨e, data, he, hd, -, hindexed⟩ := hpool.returned hr r rfl hrej
    exact ⟨i, rfl, e, data, he, hd, hindexed⟩
  have hcheckers : ∀ c ∈ Set.range fun i => clientCall kp (clients i), c.checkers = Impl.Backends.checkers P I B := by
    intro c hcall
    obtain ⟨i, rfl⟩ := hcall
    exact hB i
  have hearned : ∀ j, Established P ((GrpcStorage.start P kp clients).run schedule).shared j (P.hashBytes b) →
      Earned P I B (Set.range fun i => clientCall kp (clients i)) j b := by
    intro j h
    obtain ⟨b', hb', hhash, he⟩ := hcarries.earned hM (fun c hcall m hm => by
      obtain ⟨i, rfl⟩ := hcall
      exact Set.mem_insert_of_mem b ⟨i, hm⟩) hcheckers (established_derives.mp h)
    exact hM hb' (Set.mem_insert _ _) hhash ▸ he
  exact ⟨hearned k, fun h => established_derives.mpr (hcarries.derives hcheckers h), fun h => (hearned .kInf h).defined⟩

end Earned

section Example

open Reference

/-- One client defines the axiom, the other cites it. -/
def exampleClients (i : Fin 2) : Client := ⟨axiomCited[i].checkers, axiomCited[i].proposal, 10, fun _ _ => none⟩

/-- They take turns, so that both read the log while it is empty. -/
def exampleTurns : List (Fin 2) := [1, 1] ++ (List.replicate 7 [0, 1]).flatten

theorem exampleClients_injOn :
    Set.InjOn reference.hashBytes (clientBlobs reference exampleKeypair exampleClients) := by
  have hcalls : Set.InjOn reference.hashBytes (callBlobs reference
      ((List.finRange 2).map fun i => clientCall exampleKeypair (exampleClients i))) :=
    callBlobs_injOn (by decide +kernel)
  refine hcalls.mono fun m hm => ?_
  obtain ⟨i, hm⟩ := hm
  exact ⟨_, List.mem_map_of_mem (List.mem_finRange i), hm⟩

/-- The two clients, when both have returned. -/
def exampleRun : Pool (Fin 2) Storage (Except ClientError CommitResult) :=
  (GrpcStorage.start reference exampleKeypair exampleClients).run exampleTurns

/-- Both edges are indexed, and one entry of the log is left. -/
theorem layer_consistent_turns : Consistent reference exampleRun.shared ∧
    (GraphIndex.allEdges exampleRun.shared.db).length = 2 ∧ AppendLog.len exampleRun.shared.db = 1 :=
  ⟨(layer_consistent reference_cborLaws exampleClients exampleClients_injOn (by decide) exampleTurns).1,
    by decide +kernel⟩

theorem exampleRun_accepted (i : Fin 2) :
    clientCall exampleKeypair (exampleClients i) ∈ acceptedCalls exampleKeypair exampleClients exampleRun := by
  have hreturned : ∀ i, ((exampleRun.threads i).result?.bind Except.toOption).any (fun r => r.rejected = false) =
      true := by
    decide +kernel
  obtain ⟨r, hr, hrej⟩ := Option.any_eq_true _ _ |>.mp (hreturned i)
  obtain ⟨r', hr', hok⟩ := Option.bind_eq_some_iff.mp hr
  exact ⟨i, r, rfl, Thread.result?_eq_some.mp (toOption_eq_some.mp hok ▸ hr'), of_decide_eq_true hrej⟩

/-- The citation is found to be established at κ1. -/
theorem layer_earned_turns : ∃ b, (mathNode "b").nodeBytes reference = .ok b ∧
    Established reference exampleRun.shared .k1 (reference.hashBytes b) := by
  obtain ⟨a, ha⟩ : ∃ a, (mathNode "0 is a natural number").nodeBytes reference = .ok a := ⟨_, rfl⟩
  obtain ⟨b, hb⟩ : ∃ b, (mathNode "b").nodeBytes reference = .ok b := ⟨_, rfl⟩
  have hdefined : Earned reference interp backends (acceptedCalls exampleKeypair exampleClients exampleRun) .k1 a :=
    .step _ (exampleRun_accepted 0) (by decide) (axiomCited_unvetoed axiomCited[0] (by simp)) .kInf le_top
      ⟨_, rfl, by decide +kernel⟩ a ha [] rfl nofun
  have hcited : Earned reference interp backends (acceptedCalls exampleKeypair exampleClients exampleRun) .k1 b :=
    .step _ (exampleRun_accepted 1) (by decide) (axiomCited_unvetoed axiomCited[1] (by simp)) .k1 le_rfl
      rfl b hb [a] (mapM_eq_ok_iff.mpr (.cons ha .nil)) (List.forall_mem_singleton.mpr hdefined)
  have hmem : b ∈ clientBlobs reference exampleKeypair exampleClients := by
    have hcall : ∀ b ∈ ((mathNode "b").nodeBytes reference).toOption,
        b ∈ blobs reference (clientCall exampleKeypair (exampleClients 1)) := by decide +kernel
    exact ⟨1, hcall b (toOption_eq_some.mpr hb)⟩
  have hB : ∀ i, (exampleClients i).checkers = Impl.Backends.checkers reference interp backends :=
    Fin.forall_fin_two.mpr ⟨rfl, rfl⟩
  have hM : Set.InjOn reference.hashBytes (insert b (clientBlobs reference exampleKeypair exampleClients)) := by
    rw [Set.insert_eq_of_mem hmem]
    exact exampleClients_injOn
  exact ⟨b, hb, (layer_earned reference_cborLaws exampleClients b hM (by decide) hB exampleTurns .k1).2.1 hcited⟩

end Example

end ArxDB.Proof.Go
