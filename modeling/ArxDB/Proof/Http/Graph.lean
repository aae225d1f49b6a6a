import ArxDB.Proof.Attestation
import ArxDB.Proof.Http.Json

/-!
# The graph that is shown

In every state that requests lead to, each registered hash resolves to a
record that can be written (`stored_node`, `stored_edge`), so `/query/graph`
shows all of them, in the order of their hashes and each under its own, and
what it shows is closed: its nodes are the ends of its edges (`graph_view`).
-/

namespace ArxDB.Proof.Http

open Impl Impl.Http

variable {P : Prims} {L : Lib} {app : App}

/-- The blobs that these requests can store. -/
def storable (P : Prims) (L : Lib) (app : App) (requests : List HttpRequest) : Set Bytes :=
  callBlobs P (requests.filterMap (call? L app))

theorem ofChars_inj {s t : List Char} (h : Value.ofChars s = Value.ofChars t) : s = t :=
  String.ofList_injective (Value.str.inj h)

theorem h_inj {k k' : Hash} (e : h (some k) = h (some k')) : k = k' :=
  Hash.ext (flatMap_hexByte_inj (ofChars_inj e))

/-! ## What is stored can be shown -/

section Stored

variable {calls : List CommitCall} {s : Storage} {cs : List (Edge × Bytes)} (hst : Stored P calls s cs)
  (hc : P.CborLaws) (hM : Set.InjOn P.hashBytes (callBlobs P calls)) (hjson : ∀ c ∈ calls, JsonProposal c.proposal)
include hst hc hM hjson

/-- A registered node resolves to one that can be written, and has the hash it is registered under. -/
theorem stored_node {k : Hash} (hk : k ∈ s.graph.allNodes) :
    ∃ n, resolveNode P k s = some n ∧ n.nodeId P = .ok k ∧ JsonNode n := by
  obtain ⟨reg, hreg, hmem⟩ := hst.graph.mem_allNodes.mp hk
  obtain ⟨p, hp, rfl⟩ := List.mem_map.mp hreg
  obtain ⟨c, hcall, he⟩ := hst.called p hp
  obtain ⟨n, hn, hid⟩ := (edge?_refs he).2.2 k hmem
  obtain ⟨b, hb, rfl⟩ := nodeId_eq_ok.mp hid
  -- the blob that is stored under the hash is the one of this call
  obtain ⟨n₀, b₀, -, hhash, hhas⟩ := (hst.edges p hp).nodes _ hmem
  have hmemb : b ∈ callBlobs P calls := by
    refine ⟨c, hcall, ?_⟩
    rw [blobs_eq he (hst.edges p hp).edgeBytes]
    exact List.mem_append_left _ (List.mem_filterMap.mpr ⟨n, hn, toOption_eq_some.mpr hb⟩)
  obtain rfl := hM (hst.addressed.hash_eq hhas).1 hmemb hhash
  obtain ⟨n', hres, same, hb'⟩ := resolveNode_of_has hc hb hhas
  exact ⟨n', hres, nodeId_eq_ok.mpr ⟨b₀, hb', rfl⟩, NodeSame.json same ((hjson c hcall).nodes n hn)⟩

/-- A registered edge resolves to one that can be written, and has the hash it
is registered under. -/
theorem stored_edge {k : Hash} (hk : k ∈ s.graph.allEdges) :
    ∃ e signer, resolveEdge P k s = some e ∧ e.edgeHash P = .ok k ∧ e.rule.jsonable = true ∧
      e.signerPubkey = .bytes signer ∧ s.graph.getConnectivity k = some (e.premises, e.conclusion) := by
  obtain ⟨p, hp, rfl⟩ := hst.mem_allEdges.mp hk
  obtain ⟨c, hcall, he⟩ := hst.called p hp
  obtain ⟨e, hres, same, hb⟩ := resolveEdge_of_has hc (hst.edges p hp).edgeBytes (hst.edges p hp).has
  obtain ⟨signer, hsigner⟩ := (hjson c hcall).signer
  obtain ⟨_, -, -, _, -, _, -, hedge⟩ := edge?_eq_some.mp he
  have hrule : p.1.rule = c.proposal.rule := hedge ▸ rfl
  have hkey : p.1.signerPubkey = .bytes signer := hedge ▸ hsigner
  refine ⟨e, signer, hres, edgeHash_eq_ok.mpr ⟨_, hb, rfl⟩, ?_, ?_, ?_⟩
  · exact jsonable_restored same.rule (hrule ▸ (hjson c hcall).rule)
  · exact restored_scalar rfl (hkey ▸ same.signerPubkey)
  · rw [same.premises, same.conclusion]
    exact hst.graph.getConnectivity_eq (hst.functional hc hM) (List.mem_map_of_mem hp)

omit hc hM hjson in
/-- The indexed edges are those that are logged. -/
theorem mem_allEdges_iff_logged (k : Hash) : k ∈ s.graph.allEdges ↔ ∃ row ∈ s.log, row.entryHash = k.raw := by
  obtain ⟨es, hlog, hes, hpay⟩ := hst.log
  rw [hst.mem_allEdges, hlog]
  constructor
  · rintro ⟨p, hp, rfl⟩
    have hmem : p.2 ∈ es.map LogEntry.payload := hpay ▸ List.mem_map_of_mem hp
    obtain ⟨e, he, heq⟩ := List.mem_map.mp hmem
    exact ⟨e.row, List.mem_map_of_mem he, congrArg Hash.raw ((hes.chain.hashed e he).trans (by rw [heq]))⟩
  · rintro ⟨row, hrow, hk⟩
    obtain ⟨e, he, rfl⟩ := List.mem_map.mp hrow
    have hmem : e.payload ∈ cs.map Prod.snd := hpay ▸ List.mem_map_of_mem he
    obtain ⟨p, hp, heq⟩ := List.mem_map.mp hmem
    exact ⟨p, hp, by rw [heq, ← hes.chain.hashed e he]; exact Hash.ext hk⟩

end Stored

/-! ## Rows -/

/-- Keys that all resolve to what can be shown give a row each. -/
theorem rows_of_resolved {α : Type} {f : Hash → Option α} {g : α → Except PyError Value} {keys : List Hash}
    {rows : List Value} (hr : List.Forall₂ (fun k row => ∃ a, f k = some a ∧ g a = .ok row) keys rows) :
    (keys.filterMap f).mapM g = .ok rows := by
  induction hr with
  | nil => rfl
  | @cons k row keys rows hk _ ih =>
    obtain ⟨a, ha, hg⟩ := hk
    rw [List.filterMap_cons_some ha, List.mapM_cons, hg, ih]
    rfl

theorem map_of_forall₂ {α β γ : Type} {R : α → β → Prop} {f : α → γ} {g : β → γ} {xs : List α} {ys : List β}
    (hr : List.Forall₂ R xs ys) (he : ∀ x y, R x y → g y = f x) : ys.map g = xs.map f := by
  induction hr with
  | nil => rfl
  | cons hxy _ ih => rw [List.map_cons, List.map_cons, he _ _ hxy, ih]

theorem exists_mem_of_forall₂ {α β : Type} {R : α → β → Prop} {xs : List α} {ys : List β} (hr : List.Forall₂ R xs ys)
    {x : α} (hx : x ∈ xs) : ∃ y ∈ ys, R x y := by
  obtain ⟨y, hy, hxy⟩ := exists_of_forall₂ (show List.Forall₂ (flip R) ys xs from List.Forall₂.flip hr) hx
  exact ⟨y, hy, hxy⟩

/-- The row of the edge `k`, whose ends are those that the index has. -/
structure ShownEdge (P : Prims) (L : Lib) (s : Storage) (k : Hash) (row : Value) : Prop where
  shown : ∃ e, resolveEdge P k s = some e ∧ edgeToDict P e = .ok row
  edgeHash : row.getItem "edge_hash" = .ok (h (some k))
  json : row.jsonable = true
  ends : ∃ ps c, s.graph.getConnectivity k = some (ps, c) ∧ row.getItem "conclusion" = .ok (h (some c)) ∧
    row.getItem "premises" = .ok (.list (ps.map fun p => h (some p)))

/-- The row of the node `k`. -/
structure ShownNode (P : Prims) (s : Storage) (k : Hash) (row : Value) : Prop where
  shown : ∃ n, resolveNode P k s = some n ∧ nodeToDict P n = .ok row
  nodeId : row.getItem "node_id" = .ok (h (some k))
  json : row.jsonable = true

/-- A row of `/query/graph` names the node `k` as an end of its edge. -/
def Names (row : Value) (k : Hash) : Prop :=
  row.getItem "conclusion" = .ok (h (some k)) ∨ ∃ ps, row.getItem "premises" = .ok (.list ps) ∧ h (some k) ∈ ps

theorem ShownEdge.names_iff {s : Storage} {k : Hash} {row : Value} (hrow : ShownEdge P L s k row) (n : Hash) :
    Names row n ↔ ∃ ps c, s.graph.getConnectivity k = some (ps, c) ∧ n ∈ c :: ps := by
  obtain ⟨ps, c, hconn, hc, hps⟩ := hrow.ends
  constructor
  · rintro (hn | ⟨l, hl, hn⟩)
    · rw [hc, Except.ok.injEq] at hn
      exact ⟨ps, c, hconn, h_inj hn ▸ List.mem_cons_self⟩
    · rw [hps, Except.ok.injEq, Value.list.injEq] at hl
      subst hl
      obtain ⟨p, hp, he⟩ := List.mem_map.mp hn
      exact ⟨ps, c, hconn, List.mem_cons_of_mem _ (h_inj he ▸ hp)⟩
  · rintro ⟨ps', c', hconn', hn⟩
    rw [hconn, Option.some.injEq, Prod.mk.injEq] at hconn'
    obtain ⟨rfl, rfl⟩ := hconn'
    obtain rfl | hn := List.mem_cons.mp hn
    · exact .inl hc
    · exact .inr ⟨_, hps, List.mem_map_of_mem hn⟩

theorem exists_shownNode {s : Storage} {k : Hash} {n : Node} (hres : resolveNode P k s = some n)
    (hid : n.nodeId P = .ok k)
    (hn : JsonNode n) : ∃ row, ShownNode P s k row := by
  refine ⟨_, ⟨n, hres, nodeToDict_eq hid⟩, ?_, jsonable_node hn k⟩
  simp only [getItem_record_cons, if_true, show ("claim" : String) ≠ "node_id" by decide,
    show ("domain" : String) ≠ "node_id" by decide, show ("polarity" : String) ≠ "node_id" by decide, if_false]

theorem exists_shownEdge {s : Storage} {k : Hash} {e : Edge} {signer : Bytes} (hres : resolveEdge P k s = some e)
    (hid : e.edgeHash P = .ok k) (hrule : e.rule.jsonable = true) (hsigner : e.signerPubkey = .bytes signer)
    (hconn : s.graph.getConnectivity k = some (e.premises, e.conclusion)) : ∃ row, ShownEdge P L s k row :=
  ⟨edgeRecord e signer k, ⟨e, hres, edgeToDict_eq hsigner hid⟩, rfl, jsonable_edge hrule signer k, e.premises,
    e.conclusion, hconn, rfl, rfl⟩

/-! ## The view -/

/-- A request to `/query/graph`. -/
def IsGraph (r : HttpRequest) : Prop := r.method = .GET ∧ path r.target = "/query/graph"

instance (r : HttpRequest) : Decidable (IsGraph r) := inferInstanceAs (Decidable (_ ∧ _))

theorem route_graph {r : HttpRequest} (hr : IsGraph r) (s : Storage) :
    route P L app s r = (answer (queryGraph P s), s) := by
  obtain ⟨hmethod, hpath⟩ := hr
  have hpaths : ("/query/graph" : String) ≠ "/health" ∧ ("/query/graph" : String) ≠ "/anchor" := by decide
  simp only [route, endpoint, hmethod, hpath, hpaths, and_false, true_and, if_false, if_true]
  rfl

/-- After every run of requests, whatever they ask for and wherever they fail,
`/query/graph` is answered with a row for each registered node and each
registered edge, in the order of their hashes; the nodes are the premises and
conclusions that the edge rows name, and the edges those with a log entry. -/
theorem graph_view (hc : P.CborLaws) (hL : LoadsJson L) (app : App) (requests : List HttpRequest)
    (hM : Set.InjOn P.hashBytes (storable P L app requests)) (r : HttpRequest) (hr : IsGraph r) :
    ∃ nodes edges, route P L app (serve P L app requests).storage r =
        (⟨200, .record [("nodes", .list nodes), ("edges", .list edges)]⟩, (serve P L app requests).storage) ∧
      nodes.map (·.getItem "node_id") =
        (serve P L app requests).storage.graph.allNodes.map (fun k => .ok (h (some k))) ∧
      edges.map (·.getItem "edge_hash") =
        (serve P L app requests).storage.graph.allEdges.map (fun k => .ok (h (some k))) ∧
      (∀ k, k ∈ (serve P L app requests).storage.graph.allNodes ↔ ∃ row ∈ edges, Names row k) ∧
      ∀ k, k ∈ (serve P L app requests).storage.graph.allEdges ↔
        ∃ row ∈ (serve P L app requests).storage.log, row.entryHash = k.raw := by
  rw [serve_storage]
  obtain ⟨cs, hst⟩ := run_stored hc (requests.filterMap (call? L app)) hM
  have hjson : ∀ c ∈ requests.filterMap (call? L app), JsonProposal c.proposal := by
    intro c hmem
    obtain ⟨r, -, hr⟩ := List.mem_filterMap.mp hmem
    exact call?_json hL hr
  generalize CommitCall.run P (requests.filterMap (call? L app)) = s at hst ⊢
  have hnodes : ∀ k ∈ s.graph.allNodes, ∃ row, ShownNode P s k row := by
    intro k hk
    obtain ⟨n, hres, hid, hn⟩ := stored_node hst hc hM hjson hk
    exact exists_shownNode hres hid hn
  have hedges : ∀ k ∈ s.graph.allEdges, ∃ row, ShownEdge P L s k row := by
    intro k hk
    obtain ⟨e, signer, hres, hid, hrule, hsigner, hconn⟩ := stored_edge hst hc hM hjson hk
    exact exists_shownEdge hres hid hrule hsigner hconn
  obtain ⟨nodes, hn⟩ := forall₂_of_exists hnodes
  obtain ⟨edges, he⟩ := forall₂_of_exists hedges
  refine ⟨nodes, edges, ?_, map_of_forall₂ hn fun k row hrow => hrow.nodeId,
    map_of_forall₂ he fun k row hrow => hrow.edgeHash, fun k => ?_, mem_allEdges_iff_logged hst⟩
  · have hpayload : (Value.record [("nodes", .list nodes), ("edges", .list edges)]).jsonable = true := by
      apply jsonable_record
      simp only [List.forall_mem_cons, List.not_mem_nil, false_implies, implies_true, and_true]
      constructor
      · rw [jsonable_list]
        intro row hrow
        obtain ⟨k, -, hk⟩ := exists_of_forall₂ hn hrow
        exact hk.json
      · rw [jsonable_list]
        intro row hrow
        obtain ⟨k, -, hk⟩ := exists_of_forall₂ he hrow
        exact hk.json
    rw [route_graph hr, queryGraph, rows_of_resolved (hn.imp fun k row hrow => hrow.shown),
      rows_of_resolved (he.imp fun k row hrow => hrow.shown)]
    show (answer (.ok _), s) = _
    rw [answer, if_pos hpayload]
  · constructor
    · intro hk
      obtain ⟨reg, hreg, hmem⟩ := hst.graph.mem_allNodes.mp hk
      obtain ⟨p, hp, rfl⟩ := List.mem_map.mp hreg
      have hedge : P.hashBytes p.2 ∈ s.graph.allEdges := hst.mem_allEdges.mpr ⟨p, hp, rfl⟩
      obtain ⟨row, hrow, hr⟩ := exists_mem_of_forall₂ he hedge
      refine ⟨row, hrow, (hr.names_iff k).mpr ⟨p.1.premises, p.1.conclusion, ?_, hmem⟩⟩
      exact hst.graph.getConnectivity_eq (hst.functional hc hM) (List.mem_map_of_mem hp)
    · rintro ⟨row, hrow, hname⟩
      obtain ⟨k', hk', hr⟩ := exists_of_forall₂ he hrow
      obtain ⟨ps, c, hconn, hmem⟩ := (hr.names_iff k).mp hname
      obtain ⟨p, hp, rfl⟩ := hst.mem_allEdges.mp hk'
      have hreg := hst.graph.getConnectivity_eq (hst.functional hc hM) (List.mem_map_of_mem hp)
      rw [hconn, Option.some.injEq, Prod.mk.injEq] at hreg
      obtain ⟨rfl, rfl⟩ := hreg
      exact hst.graph.mem_allNodes.mpr ⟨_, List.mem_map_of_mem hp, hmem⟩

section Example

open Reference

theorem example_injOn : Set.InjOn reference.hashBytes
    (storable reference (exampleLib exampleBodies) exampleApp exampleRequests) := callBlobs_injOn (by decide +kernel)

theorem graph_view_cited : ∃ nodes edges,
    (route reference (exampleLib exampleBodies) exampleApp
        (serve reference (exampleLib exampleBodies) exampleApp exampleRequests).storage
        (request .GET "/query/graph" 0)).1 =
      ⟨200, .record [("nodes", .list nodes), ("edges", .list edges)]⟩ ∧ nodes.length = 2 ∧ edges.length = 2 := by
  obtain ⟨nodes, edges, hroute, hnodes, hedges, -, -⟩ := graph_view reference_cborLaws exampleBodies_json exampleApp
    exampleRequests example_injOn (request .GET "/query/graph" 0) (by decide)
  refine ⟨nodes, edges, by rw [hroute], ?_, ?_⟩
  · have hlen := congrArg List.length hnodes
    rw [List.length_map, List.length_map] at hlen
    rw [hlen]
    decide +kernel
  · have hlen := congrArg List.length hedges
    rw [List.length_map, List.length_map] at hlen
    rw [hlen]
    decide +kernel

end Example

end ArxDB.Proof.Http
