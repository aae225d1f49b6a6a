import ArxDB.Proof.Operations

/-!
# What the index holds

`Represents g rs` says that the tables of `g` are those of the registered
edges `rs`. `register_edge` adds to `rs` (`Represents.register`), and the
reads give back what was registered (`mem_allEdges`, `mem_allNodes`,
`getConnectivity_eq`), as long as an edge hash is always registered with the
same premises and conclusion.
-/

namespace ArxDB.Proof

open Impl

/-! ## Tables with a primary key -/

section Tables

variable {α κ : Type} [DecidableEq κ] {key : α → κ}

theorem mem_insertOrIgnore_iff {row : α} {table : List α} {x : α} :
    x ∈ insertOrIgnore key row table ↔ x ∈ table ∨ x = row ∧ ∀ r ∈ table, key r ≠ key row := by
  unfold insertOrIgnore
  split
  · rename_i hany
    obtain ⟨r, hr, hk⟩ := List.any_eq_true.mp hany
    exact ⟨.inl, fun hx => hx.elim id fun hx => absurd (of_decide_eq_true hk) (hx.2 r hr)⟩
  · rename_i hany
    have hfree : ∀ r ∈ table, key r ≠ key row := by simpa using hany
    rw [List.mem_append, List.mem_singleton, and_iff_left hfree]

theorem mem_insertOrIgnore {row : α} {table : List α} (h : ∀ r ∈ table, key r = key row → r = row) {x : α} :
    x ∈ insertOrIgnore key row table ↔ x ∈ table ∨ x = row := by
  rw [mem_insertOrIgnore_iff]
  refine ⟨fun hx => hx.imp_right And.left, fun hx => ?_⟩
  by_cases hfree : ∀ r ∈ table, key r ≠ key row
  · exact hx.imp_right fun e => ⟨e, hfree⟩
  · simp only [not_forall, ne_eq, not_not] at hfree
    obtain ⟨r, hr, hk⟩ := hfree
    exact .inl (hx.elim id fun e => e ▸ h r hr hk ▸ hr)

theorem nodup_insertOrIgnore {row : α} {table : List α} (h : (table.map key).Nodup) :
    ((insertOrIgnore key row table).map key).Nodup := by
  unfold insertOrIgnore
  split
  · exact h
  · rename_i hany
    rw [List.map_append, List.map_singleton, List.nodup_append]
    refine ⟨h, List.nodup_singleton _, ?_⟩
    rintro k hk _ hk' rfl
    obtain ⟨r, hr, rfl⟩ := List.mem_map.mp hk
    exact hany (List.any_eq_true.mpr ⟨r, hr, decide_eq_true (List.mem_singleton.mp hk')⟩)

/-- Rows inserted one after the other. -/
def insertAll (key : α → κ) (rows table : List α) : List α := rows.foldl (fun t r => insertOrIgnore key r t) table

/-- Of rows with different keys, those go in whose key is free. -/
theorem mem_insertAll_iff {rows table : List α} (hnodup : (rows.map key).Nodup) {x : α} :
    x ∈ insertAll key rows table ↔ x ∈ table ∨ x ∈ rows ∧ ∀ r ∈ table, key r ≠ key x := by
  induction rows generalizing table with
  | nil => simp [insertAll]
  | cons row rows ih =>
    rw [List.map_cons, List.nodup_cons] at hnodup
    have hrow : x ∈ rows → key row ≠ key x := fun hx e => hnodup.1 (e ▸ List.mem_map_of_mem hx)
    rw [insertAll, List.foldl_cons, ← insertAll, ih hnodup.2, mem_insertOrIgnore_iff, List.mem_cons]
    constructor
    · intro h
      rcases h with (hx | ⟨rfl, hfree⟩) | ⟨hx, hfree⟩
      · exact .inl hx
      · exact .inr ⟨.inl rfl, hfree⟩
      · exact .inr ⟨.inr hx, fun r hr => hfree r (mem_insertOrIgnore_iff.mpr (.inl hr))⟩
    · intro h
      rcases h with hx | ⟨rfl | hx, hfree⟩
      · exact .inl (.inl hx)
      · exact .inl (.inr ⟨rfl, hfree⟩)
      · refine .inr ⟨hx, fun r hr => ?_⟩
        rcases mem_insertOrIgnore_iff.mp hr with hr | ⟨rfl, -⟩
        · exact hfree r hr
        · exact hrow hx

theorem mem_insertAll {rows table : List α} (h : ∀ r, r ∈ table ∨ r ∈ rows → ∀ r' ∈ rows, key r = key r' → r = r')
    {x : α} : x ∈ insertAll key rows table ↔ x ∈ table ∨ x ∈ rows := by
  induction rows generalizing table with
  | nil => simp [insertAll]
  | cons row rows ih =>
    have hrow : ∀ r ∈ table, key r = key row → r = row := fun r hr => h r (.inl hr) row List.mem_cons_self
    rw [insertAll, List.foldl_cons, ← insertAll, ih, mem_insertOrIgnore hrow, List.mem_cons, or_assoc]
    intro r hr r' hr' hk
    rw [mem_insertOrIgnore hrow] at hr
    refine h r ?_ r' (List.mem_cons_of_mem _ hr') hk
    rcases hr with (hr | rfl) | hr
    exacts [.inl hr, .inr List.mem_cons_self, .inr (List.mem_cons_of_mem _ hr)]

theorem nodup_insertAll {rows table : List α} (h : (table.map key).Nodup) :
    ((insertAll key rows table).map key).Nodup := by
  induction rows generalizing table with
  | nil => exact h
  | cons row rows ih => exact ih (nodup_insertOrIgnore h)

end Tables

/-! ## The three tables -/

/-- An edge with the premises and the conclusion of a call. -/
abbrev Registration := Hash × List Hash × Hash

/-- An edge as it is registered. -/
structure EdgeRecord where
  edgeHash : Hash
  premises : List Hash
  conclusion : Hash

/-- The primary key of the row. -/
def PremiseRow.key (r : PremiseRow) : Hash × Nat := (r.edgeHash, r.position)

/-- The rows of an edge in `premises`. -/
def EdgeRecord.premiseRows (r : EdgeRecord) : List PremiseRow :=
  r.premises.zipIdx.map fun p => ⟨r.edgeHash, p.1, p.2⟩

theorem registered_eq (g : GraphIndex) (r : EdgeRecord) :
    registered r.edgeHash r.premises r.conclusion g =
      ⟨insertAll id (r.conclusion :: r.premises) g.nodes,
        insertOrIgnore EdgeRow.edgeHash ⟨r.edgeHash, r.conclusion⟩ g.edges,
        insertAll PremiseRow.key r.premiseRows g.premises⟩ := by
  have nodes : ∀ (ps : List Hash) (g : GraphIndex), ps.foldl (fun g p => g.insertNode p) g =
      { g with nodes := insertAll id ps g.nodes } := by
    intro ps
    induction ps with
    | nil => exact fun _ => rfl
    | cons p ps ih => exact fun g => ih _
  have premises : ∀ (ps : List (Hash × Nat)) (g : GraphIndex),
      ps.foldl (fun g p => g.insertPremise ⟨r.edgeHash, p.1, p.2⟩) g =
        { g with premises := insertAll PremiseRow.key (ps.map fun p => ⟨r.edgeHash, p.1, p.2⟩) g.premises } := by
    intro ps
    induction ps with
    | nil => exact fun _ => rfl
    | cons p ps ih => exact fun g => ih _
  rw [registered, nodes, premises]
  rfl

theorem mem_premiseRows {r : EdgeRecord} {row : PremiseRow} : row ∈ r.premiseRows ↔
    ∃ (i : Nat) (h : i < r.premises.length), row = ⟨r.edgeHash, r.premises[i], i⟩ := by
  simp only [EdgeRecord.premiseRows, List.mem_map, Prod.exists, List.mem_zipIdx_iff_getElem?, List.getElem?_eq_some_iff]
  constructor
  · rintro ⟨p, i, ⟨h, hp⟩, rfl⟩
    exact ⟨i, h, by rw [hp]⟩
  · rintro ⟨i, h, rfl⟩
    exact ⟨_, i, ⟨h, rfl⟩, rfl⟩

theorem EdgeRecord.premiseRows_sorted (r : EdgeRecord) : r.premiseRows.Pairwise fun a b => a.position < b.position := by
  rw [EdgeRecord.premiseRows, List.pairwise_map, List.pairwise_iff_getElem]
  intro i j hi hj hij
  simpa using hij

theorem EdgeRecord.premiseRows_keys_nodup (r : EdgeRecord) : (r.premiseRows.map PremiseRow.key).Nodup := by
  refine List.Nodup.of_map Prod.snd ?_
  rw [List.map_map]
  exact List.pairwise_map.mpr (r.premiseRows_sorted.imp fun h => Nat.ne_of_lt h)

/-- An edge with one row in `edges`, and with the rows of these premises. -/
theorem getConnectivity_of_rows {g : GraphIndex} {r : EdgeRecord} (hedge : ⟨r.edgeHash, r.conclusion⟩ ∈ g.edges)
    (hone : ∀ row ∈ g.edges, row.edgeHash = r.edgeHash → row.conclusion = r.conclusion)
    (hrows : ∀ row, row ∈ g.premises ∧ row.edgeHash = r.edgeHash ↔ row ∈ r.premiseRows)
    (hnodup : (g.premises.map PremiseRow.key).Nodup) :
    g.getConnectivity r.edgeHash = some (r.premises, r.conclusion) := by
  obtain ⟨row, hrow⟩ : ∃ row, g.edges.find? (·.edgeHash = r.edgeHash) = some row := by
    rw [← Option.isSome_iff_exists, List.find?_isSome]
    exact ⟨_, hedge, by simp⟩
  have hconclusion : row.conclusion = r.conclusion :=
    hone row (List.mem_of_find?_eq_some hrow) (by simpa using List.find?_some hrow)
  have hmem : ∀ row, row ∈ g.premises.filter (·.edgeHash = r.edgeHash) ↔ row ∈ r.premiseRows := by
    intro row
    rw [List.mem_filter, decide_eq_true_eq, hrows]
  have hdistinct : r.premiseRows.Nodup := r.premiseRows_sorted.imp fun hlt e => absurd (e ▸ hlt) (Nat.lt_irrefl _)
  have hperm := (List.perm_ext_iff_of_nodup ((List.Nodup.of_map _ hnodup).filter _) hdistinct).mpr hmem
  have hsorted : (g.premises.filter (·.edgeHash = r.edgeHash)).insertionSort (fun a b => a.position ≤ b.position) =
      r.premiseRows := by
    refine List.Perm.eq_of_pairwise ?_ (List.pairwise_insertionSort _ _) (r.premiseRows_sorted.imp fun h => h.le)
      ((List.perm_insertionSort _ _).trans hperm)
    intro a b ha hb hab hba
    rw [List.mem_insertionSort, hmem] at ha
    obtain ⟨i, hi, rfl⟩ := mem_premiseRows.mp ha
    obtain ⟨j, hj, rfl⟩ := mem_premiseRows.mp hb
    obtain rfl : i = j := Nat.le_antisymm hab hba
    rfl
  rw [GraphIndex.getConnectivity, hrow]
  simp only [hsorted, hconclusion, EdgeRecord.premiseRows, List.map_map, Function.comp_def]
  rw [show (fun p : Hash × Nat => p.1) = Prod.fst from rfl, List.zipIdx_map_fst]

/-- The tables hold exactly the rows of these edges, each once. -/
structure Represents (g : GraphIndex) (rs : List EdgeRecord) : Prop where
  nodes (n : Hash) : n ∈ g.nodes ↔ ∃ r ∈ rs, n ∈ r.conclusion :: r.premises
  nodes_nodup : g.nodes.Nodup
  edges (row : EdgeRow) : row ∈ g.edges ↔ ∃ r ∈ rs, row = ⟨r.edgeHash, r.conclusion⟩
  edges_nodup : (g.edges.map EdgeRow.edgeHash).Nodup
  premises (row : PremiseRow) : row ∈ g.premises ↔ ∃ r ∈ rs, row ∈ r.premiseRows
  premises_nodup : (g.premises.map PremiseRow.key).Nodup

/-- An edge hash stands for one edge. -/
def Functional (rs : List EdgeRecord) : Prop := ∀ r ∈ rs, ∀ r' ∈ rs, r.edgeHash = r'.edgeHash → r = r'

namespace Represents

variable {g : GraphIndex} {rs : List EdgeRecord}

theorem empty : Represents .empty [] := by
  constructor <;> simp [GraphIndex.empty]

theorem register (h : Represents g rs) {r : EdgeRecord} (hf : Functional (rs ++ [r])) :
    Represents (registered r.edgeHash r.premises r.conclusion g) (rs ++ [r]) := by
  have hr : r ∈ rs ++ [r] := by simp
  have hfun : ∀ r' ∈ rs, r'.edgeHash = r.edgeHash → r' = r := fun r' hr' => hf r' (by simp [hr']) r hr
  have exists_concat : ∀ p : EdgeRecord → Prop, (∃ r' ∈ rs ++ [r], p r') ↔ (∃ r' ∈ rs, p r') ∨ p r := by
    simp [or_and_right, exists_or]
  have hedge : ∀ row ∈ g.edges, row.edgeHash = r.edgeHash → row = ⟨r.edgeHash, r.conclusion⟩ := by
    intro row hrow hk
    obtain ⟨r', hr', rfl⟩ := (h.edges row).mp hrow
    rw [hfun r' hr' hk]
  have hprem : ∀ row, row ∈ g.premises ∨ row ∈ r.premiseRows → ∀ row' ∈ r.premiseRows,
      PremiseRow.key row = PremiseRow.key row' → row = row' := by
    intro row hrow row' hrow' hk
    obtain ⟨j, hj, rfl⟩ := mem_premiseRows.mp hrow'
    rw [PremiseRow.key, PremiseRow.key, Prod.mk.injEq] at hk
    have : row ∈ r.premiseRows := by
      rcases hrow with hrow | hrow
      · obtain ⟨r', hr', hrow⟩ := (h.premises row).mp hrow
        obtain ⟨i, hi, rfl⟩ := mem_premiseRows.mp hrow
        exact hfun r' hr' hk.1 ▸ hrow
      · exact hrow
    obtain ⟨i, hi, rfl⟩ := mem_premiseRows.mp this
    obtain rfl : i = j := hk.2
    rfl
  rw [registered_eq]
  refine ⟨fun n => ?_, ?_, fun row => ?_, nodup_insertOrIgnore h.edges_nodup, fun row => ?_,
    nodup_insertAll h.premises_nodup⟩
  · have hid : ∀ n, n ∈ g.nodes ∨ n ∈ r.conclusion :: r.premises → ∀ n' ∈ r.conclusion :: r.premises,
        id n = id n' → n = n' := fun _ _ _ _ e => e
    rw [mem_insertAll hid, h.nodes, exists_concat]
  · have := @nodup_insertAll _ _ _ id (r.conclusion :: r.premises) g.nodes (by simpa using h.nodes_nodup)
    simpa using this
  · rw [mem_insertOrIgnore hedge, h.edges, exists_concat]
  · rw [mem_insertAll hprem, h.premises, exists_concat]

/-! ### Reads -/

theorem mem_allNodes (h : Represents g rs) {n : Hash} :
    n ∈ g.allNodes ↔ ∃ r ∈ rs, n ∈ r.conclusion :: r.premises := by
  rw [GraphIndex.allNodes, GraphIndex.orderByHash, List.mem_insertionSort, h.nodes]

theorem mem_allEdges (h : Represents g rs) {e : Hash} : e ∈ g.allEdges ↔ ∃ r ∈ rs, r.edgeHash = e := by
  rw [GraphIndex.allEdges, GraphIndex.orderByHash, List.mem_insertionSort, List.mem_map]
  constructor
  · rintro ⟨row, hrow, rfl⟩
    obtain ⟨r, hr, rfl⟩ := (h.edges row).mp hrow
    exact ⟨r, hr, rfl⟩
  · rintro ⟨r, hr, rfl⟩
    exact ⟨_, (h.edges _).mpr ⟨r, hr, rfl⟩, rfl⟩

theorem getConnectivity_eq (h : Represents g rs) (hf : Functional rs) {r : EdgeRecord} (hr : r ∈ rs) :
    g.getConnectivity r.edgeHash = some (r.premises, r.conclusion) := by
  refine getConnectivity_of_rows ((h.edges _).mpr ⟨r, hr, rfl⟩) (fun row hrow hk => ?_) (fun row => ?_) h.premises_nodup
  · obtain ⟨r', hr', rfl⟩ := (h.edges row).mp hrow
    rw [hf r' hr' r hr hk]
  · rw [h.premises]
    constructor
    · rintro ⟨⟨r', hr', hrow⟩, hk⟩
      obtain ⟨i, hi, rfl⟩ := mem_premiseRows.mp hrow
      exact hf r' hr' r hr hk ▸ hrow
    · intro hrow
      refine ⟨⟨r, hr, hrow⟩, ?_⟩
      obtain ⟨i, hi, rfl⟩ := mem_premiseRows.mp hrow
      rfl

end Represents

end ArxDB.Proof
