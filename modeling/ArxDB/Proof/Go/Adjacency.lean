import ArxDB.Framework.Record
import ArxDB.Proof.Go.Atomic

/-!
# Edges that are registered again

`RegisterEdge` sets the keys of its call and deletes none. So of an edge that
was registered before, the conclusion is replaced, the premises are written
over position by position, and the incoming and outgoing keys of the earlier
calls stay (`Filed`). The indexes agree with the edges exactly when this shows
in none of them (`graph_agrees_iff`).
-/

namespace ArxDB.Proof.Go

open Impl (Bytes Hash Prims)
open Impl.Go Record

variable {P : Prims} {db : Pebble} {b : Batch} {k v : Bytes} {calls : List Registration} {e c : Hash} {ps : List Hash}

/-! ## Keys of a registration -/

/-- A key that a batch sets to one value only. -/
theorem getElem?_commit_of_mem (h : (k, v) ∈ b) (hb : ∀ v', (k, v') ∈ b → v' = v) : (db.commit b)[k]? = some v := by
  induction b using List.reverseRecOn with
  | nil => cases h
  | append_singleton b kv ih =>
    rw [commit_append, commit_cons, commit_nil, getElem?_insert]
    by_cases hk : kv.1 = k
    · rw [if_pos hk, hb kv.2 (by rw [← hk]; simp)]
    · rw [if_neg hk]
      refine ih ?_ fun v' hv' => hb v' (List.mem_append_left _ hv')
      refine (List.mem_append.mp h).resolve_right fun hm => hk ?_
      rw [← List.mem_singleton.mp hm]

theorem getElem?_commit_edgeSets (P : Prims) (hlen : ps.length < 2 ^ 63) (key : Key) {x : Option Bytes}
    (hx : ∀ v, Held P (single e ps c) key v ↔ x = some v) :
    (db.commit (edgeSets e ps c))[key.bytes]? = x.or db[key.bytes]? := by
  have hmem : ∀ v, (key.bytes, v) ∈ edgeSets e ps c ↔ x = some v := by
    intro v
    rw [mem_edgeSets (P := P) hlen, ← hx]
    constructor
    · intro h
      obtain ⟨key', hk, hv⟩ := h
      rwa [← Key.bytes_inj hk]
    · exact fun hv => ⟨key, rfl, hv⟩
  cases x with
  | none =>
    rw [Option.none_or]
    refine getElem?_commit_of_ne fun kv hkv he => ?_
    have hv := (hmem kv.2).mp (he ▸ hkv)
    cases hv
  | some v =>
    rw [Option.some_or]
    exact getElem?_commit_of_mem ((hmem v).mpr rfl) fun v' hv' => (Option.some.inj ((hmem v').mp hv')).symm

theorem single_edges_self : (single e ps c).edges e = some (ps, c) := by
  rw [Spec.Store.edges_addEdge, if_pos rfl]

section Keys

variable {e' c' p : Hash}

theorem getElem?_edge (P : Prims) (hlen : ps.length < 2 ^ 63) : (db.commit (edgeSets e ps c))[GraphIndex.edgeKey e']? =
    (if e = e' then some c.raw else none).or db[GraphIndex.edgeKey e']? := by
  refine getElem?_commit_edgeSets P hlen (.edge e') fun v => ⟨fun h => ?_, fun h => ?_⟩
  · cases h with
    | edge he =>
      obtain ⟨rfl, hr⟩ := single_edges he
      cases hr
      rw [if_pos rfl]
  · split at h
    · rename_i he
      subst he
      cases h
      exact .edge single_edges_self
    · cases h

theorem getElem?_premise (P : Prims) (hlen : ps.length < 2 ^ 63) (pos : UInt64) :
    (db.commit (edgeSets e ps c))[GraphIndex.premiseKey e' pos.toNat]? =
      (if e = e' then ps[pos.toNat]?.map Hash.raw else none).or db[GraphIndex.premiseKey e' pos.toNat]? := by
  refine getElem?_commit_edgeSets P hlen (.premise e' pos) fun v => ⟨fun h => ?_, fun h => ?_⟩
  · cases h with
    | premise he hp =>
      obtain ⟨rfl, hr⟩ := single_edges he
      cases hr
      rw [if_pos rfl, hp, Option.map_some]
  · split at h
    · rename_i he
      subst he
      obtain ⟨p, hp, rfl⟩ := Option.map_eq_some_iff.mp h
      exact .premise single_edges_self hp
    · cases h

theorem getElem?_incoming (P : Prims) (hlen : ps.length < 2 ^ 63) :
    (db.commit (edgeSets e ps c))[GraphIndex.incomingKey c' e']? =
      (if e = e' ∧ c = c' then some [] else none).or db[GraphIndex.incomingKey c' e']? := by
  refine getElem?_commit_edgeSets P hlen (.incoming c' e') fun v => ⟨fun h => ?_, fun h => ?_⟩
  · cases h with
    | incoming he =>
      obtain ⟨rfl, hr⟩ := single_edges he
      cases hr
      rw [if_pos ⟨rfl, rfl⟩]
  · split at h
    · rename_i he
      obtain ⟨rfl, rfl⟩ := he
      cases h
      exact .incoming single_edges_self
    · cases h

theorem getElem?_outgoing (P : Prims) (hlen : ps.length < 2 ^ 63) :
    (db.commit (edgeSets e ps c))[GraphIndex.outgoingKey p e']? =
      (if e = e' ∧ p ∈ ps then some [] else none).or db[GraphIndex.outgoingKey p e']? := by
  refine getElem?_commit_edgeSets P hlen (.outgoing p e') fun v => ⟨fun h => ?_, fun h => ?_⟩
  · cases h with
    | outgoing he hp =>
      obtain ⟨rfl, hr⟩ := single_edges he
      cases hr
      rw [if_pos ⟨rfl, hp⟩]
  · split at h
    · rename_i he
      obtain ⟨rfl, hp⟩ := he
      cases h
      exact .outgoing single_edges_self hp
    · cases h

end Keys

/-! ## What the keys hold -/

/-- The graph keys after these calls. -/
structure Filed (calls : List Registration) (db : Pebble) : Prop where
  key {k v : Bytes} (h : db[k]? = some v) : ∃ key : Key, key.bytes = k
  edge (e : Hash) : db[GraphIndex.edgeKey e]? = (record replace calls e).map fun r => r.2.raw
  premise (e : Hash) (pos : UInt64) : db[GraphIndex.premiseKey e pos.toNat]? =
    ((record replace calls e).bind fun r => r.1[pos.toNat]?).map Hash.raw
  incoming {c e : Hash} : (db[GraphIndex.incomingKey c e]?).isSome ↔ ∃ ps, (e, ps, c) ∈ calls
  outgoing {p e : Hash} : (db[GraphIndex.outgoingKey p e]?).isSome ↔ ∃ ps c, (e, ps, c) ∈ calls ∧ p ∈ ps
  size {e : Hash} {r : List Hash × Hash} (h : record replace calls e = some r) : r.1.length < 2 ^ 63

namespace Filed

theorem empty : Filed [] ∅ where
  key {k v} h := by
    rw [Std.ExtTreeMap.getElem?_empty] at h
    cases h
  edge e := by rw [Std.ExtTreeMap.getElem?_empty, record_nil, Option.map_none]
  premise e pos := by rw [Std.ExtTreeMap.getElem?_empty, record_nil, Option.bind_none, Option.map_none]
  incoming {c e} := by
    rw [Std.ExtTreeMap.getElem?_empty]
    simp
  outgoing {p e} := by
    rw [Std.ExtTreeMap.getElem?_empty]
    simp
  size h := by cases h

/-- Keys of another family. -/
def Other (k : Bytes) : Prop := ∃ key : Key, key.bytes = k ∧ ((∃ n, key = .node n) ∨ Tagged logTags k)

theorem Other.ne {key : Key} (h : Other k) (hn : ∀ n, key ≠ .node n) (ht : Tagged graphTags key.bytes) :
    k ≠ key.bytes := by
  rintro rfl
  obtain ⟨key', hk, ⟨n, rfl⟩ | hlog⟩ := h
  · exact hn n (Key.bytes_inj hk).symm
  · exact ht.ne hlog rfl

/-- Sets of nodes and entries. -/
theorem commit (h : Filed calls db) (hb : ∀ kv ∈ b, Other kv.1) : Filed calls (db.commit b) := by
  have hget : ∀ key : Key, (∀ n, key ≠ .node n) → Tagged graphTags key.bytes →
      (db.commit b)[key.bytes]? = db[key.bytes]? :=
    fun key hn ht => getElem?_commit_of_ne fun kv hkv => (hb kv hkv).ne hn ht
  refine ⟨fun {k v} hv => ?_, fun e => ?_, fun e pos => ?_, fun {c e} => ?_, fun {p e} => ?_, h.size⟩
  · rcases getElem?_commit hv with hv | hv
    · obtain ⟨key, hk, -⟩ := hb _ hv
      exact ⟨key, hk⟩
    · exact h.key hv
  · exact (hget (.edge e) (fun _ => Key.noConfusion) ⟨'e', by decide, _, rfl⟩).trans (h.edge e)
  · exact (hget (.premise e pos) (fun _ => Key.noConfusion) ⟨'p', by decide, _, rfl⟩).trans (h.premise e pos)
  · have hsame := hget (.incoming c e) (fun _ => Key.noConfusion) ⟨'c', by decide, _, rfl⟩
    rw [Key.bytes] at hsame
    rw [hsame, h.incoming]
  · have hsame := hget (.outgoing p e) (fun _ => Key.noConfusion) ⟨'o', by decide, _, rfl⟩
    rw [Key.bytes] at hsame
    rw [hsame, h.outgoing]

section Register

variable (P) (h : Filed calls db) (hlen : ps.length < 2 ^ 63)
include P h hlen

theorem edge_register (e' : Hash) : (db.commit (edgeSets e ps c))[GraphIndex.edgeKey e']? =
    (record replace (calls ++ [(e, ps, c)]) e').map fun r => r.2.raw := by
  rw [getElem?_edge P hlen, record_concat, h.edge]
  by_cases he : e = e'
  · subst he
    rw [if_pos rfl, if_pos rfl, Option.some_or]
    cases record replace calls e <;> rfl
  · rw [if_neg he, if_neg he, Option.none_or]

theorem premise_register (e' : Hash) (pos : UInt64) :
    (db.commit (edgeSets e ps c))[GraphIndex.premiseKey e' pos.toNat]? =
      ((record replace (calls ++ [(e, ps, c)]) e').bind fun r => r.1[pos.toNat]?).map Hash.raw := by
  rw [getElem?_premise P hlen, record_concat, h.premise]
  by_cases he : e = e'
  · subst he
    rw [if_pos rfl, if_pos rfl]
    cases record replace calls e with
    | none => simp
    | some r =>
      simp only [Option.elim_some, replace, Option.bind_some, getElem?_overwrite]
      cases ps[pos.toNat]? <;> rfl
  · rw [if_neg he, if_neg he, Option.none_or]

theorem incoming_register {c' e' : Hash} : ((db.commit (edgeSets e ps c))[GraphIndex.incomingKey c' e']?).isSome ↔
    ∃ ps', (e', ps', c') ∈ calls ++ [(e, ps, c)] := by
  rw [getElem?_incoming P hlen]
  by_cases he : e = e' ∧ c = c'
  · obtain ⟨rfl, rfl⟩ := he
    rw [if_pos ⟨rfl, rfl⟩]
    exact iff_of_true rfl ⟨ps, by simp⟩
  · rw [if_neg he, Option.none_or, h.incoming]
    refine exists_congr fun ps' => ?_
    rw [List.mem_append, List.mem_singleton, or_iff_left]
    intro heq
    simp only [Prod.mk.injEq] at heq
    exact he ⟨heq.1.symm, heq.2.2.symm⟩

theorem outgoing_register {p e' : Hash} : ((db.commit (edgeSets e ps c))[GraphIndex.outgoingKey p e']?).isSome ↔
    ∃ ps' c', (e', ps', c') ∈ calls ++ [(e, ps, c)] ∧ p ∈ ps' := by
  rw [getElem?_outgoing P hlen]
  by_cases he : e = e' ∧ p ∈ ps
  · obtain ⟨rfl, hp⟩ := he
    rw [if_pos ⟨rfl, hp⟩]
    exact iff_of_true rfl ⟨ps, c, by simp, hp⟩
  · rw [if_neg he, Option.none_or, h.outgoing]
    refine exists_congr fun ps' => exists_congr fun c' => and_congr_left fun hp => ?_
    rw [List.mem_append, List.mem_singleton, or_iff_left]
    intro heq
    simp only [Prod.mk.injEq] at heq
    exact he ⟨heq.1.symm, heq.2.1 ▸ hp⟩

/-- A registration. -/
theorem register : Filed (calls ++ [(e, ps, c)]) (db.commit (edgeSets e ps c)) where
  key {k v} hv := by
    rcases getElem?_commit hv with hv | hv
    · obtain ⟨key, hk, -⟩ := (mem_edgeSets (P := P) hlen).mp hv
      exact ⟨key, hk⟩
    · exact h.key hv
  edge := h.edge_register P hlen
  premise := h.premise_register P hlen
  incoming := h.incoming_register P hlen
  outgoing := h.outgoing_register P hlen
  size {e' r} hr := by
    rw [record_concat] at hr
    by_cases he : e = e'
    · rw [if_pos he, Option.some.injEq] at hr
      subst hr
      cases hold : record replace calls e' with
      | none => exact hlen
      | some r =>
        have hold := h.size hold
        rw [Option.elim_some, replace, length_overwrite]
        exact max_lt hold hlen
    · rw [if_neg he] at hr
      exact h.size hr

end Register

/-! ## What is read -/

theorem getConnectivity (h : Filed calls db) (e : Hash) : GraphIndex.getConnectivity db e = record replace calls e := by
  have hedge := h.edge e
  cases hrec : record replace calls e with
  | none =>
    rw [hrec, Option.map_none] at hedge
    rw [GraphIndex.getConnectivity, hedge]
  | some r =>
    rw [hrec, Option.map_some] at hedge
    have hlen := h.size hrec
    have hpremise := h.premise e
    rw [hrec] at hpremise
    refine getConnectivity_eq_some hedge hlen fun k v hp => ⟨fun hk => ?_, fun hi => ?_⟩
    · obtain ⟨key, rfl⟩ := h.key hk
      obtain ⟨pos, rfl⟩ := Key.of_prefix_premise hp
      refine ⟨pos.toNat, ?_, rfl⟩
      rw [List.getElem?_map]
      exact (hpremise pos).symm.trans hk
    · obtain ⟨i, hi, rfl⟩ := hi
      have hlt := (List.getElem?_eq_some_iff.mp hi).1
      rw [List.length_map] at hlt
      have hpos : (UInt64.ofNat i).toNat = i := UInt64.toNat_ofNat_of_lt' (by rw [UInt64.size]; omega)
      have hget := hpremise (.ofNat i)
      rw [hpos] at hget
      rw [hget, ← hi, List.getElem?_map]
      rfl

theorem mem_incomingEdges (h : Filed calls db) {n : Hash} :
    e ∈ GraphIndex.incomingEdges db n ↔ ∃ ps, (e, ps, n) ∈ calls := by
  have hscan := lists_scan (p := GraphIndex.incomingPrefix n) (n := 1 + 34)
      (by simp [GraphIndex.incomingPrefix, n.size])
    fun k v hk hp => by
      obtain ⟨key, rfl⟩ := h.key hk
      obtain ⟨e, rfl⟩ := Key.of_prefix_incoming hp
      exact ⟨e, rfl⟩
  rw [← h.incoming, Option.isSome_iff_exists]
  exact hscan.mem

theorem mem_outgoingEdges (h : Filed calls db) {n : Hash} :
    e ∈ GraphIndex.outgoingEdges db n ↔ ∃ ps c, (e, ps, c) ∈ calls ∧ n ∈ ps := by
  have hscan := lists_scan (p := GraphIndex.outgoingPrefix n) (n := 1 + 34)
      (by simp [GraphIndex.outgoingPrefix, n.size])
    fun k v hk hp => by
      obtain ⟨key, rfl⟩ := h.key hk
      obtain ⟨e, rfl⟩ := Key.of_prefix_outgoing hp
      exact ⟨e, rfl⟩
  rw [← h.outgoing, Option.isSome_iff_exists]
  exact hscan.mem

end Filed

/-! ## Sessions -/

/-- The edges that calls registered, in their order. -/
def registrations (P : Prims) (returned : List (Call × Reply)) : List Registration :=
  returned.filterMap fun r => edge? P r.1

theorem registrations_concat {returned : List (Call × Reply)} {r : Call × Reply} :
    registrations P (returned ++ [r]) = registrations P returned ++ (edge? P r.1).toList := by
  rw [registrations, List.filterMap_append]
  cases h : edge? P r.1 <;> simp [h, registrations]

theorem other_entrySets {le : LogEntry} {enc : Bytes} {kv : Bytes × Bytes} (h : kv ∈ entrySets le enc) :
    Filed.Other kv.1 := by
  refine (?_ : ∃ key : Key, key.bytes = kv.1).imp fun key hk => ⟨hk, .inr (entrySets_keys h)⟩
  simp only [entrySets, List.mem_cons, List.not_mem_nil, or_false] at h
  rcases h with rfl | rfl | rfl
  · exact ⟨.entry le.seq, rfl⟩
  · exact ⟨.entryHash le.seq, rfl⟩
  · exact ⟨.logLen, rfl⟩

theorem Filed.done {kp : Keypair} {now : Int64} {s s' : Storage} {call : Call} {reply : Reply}
    (h : Filed calls s.db) (hd : Call.Done P kp now s call reply s') :
    Filed (calls ++ (edge? P call).toList) s'.db := by
  have kept : ∀ {db}, Filed calls db → Filed (calls ++ (none : Option Registration).toList) db := by
    intro db h
    rw [Option.toList_none, List.append_nil]
    exact h
  cases call with
  | put data =>
    rw [hd.2]
    exact kept h
  | registerNode node =>
    rw [hd.2]
    refine kept (h.commit fun kv hkv => ?_)
    rw [List.mem_singleton.mp hkv]
    exact ⟨.node node, rfl, .inl ⟨node, rfl⟩⟩
  | registerEdge edge premises conclusion =>
    rw [hd.2]
    exact h.register P premises.2
  | append entry =>
    obtain ⟨le, b, -, hn, hs⟩ := hd
    obtain ⟨enc, -, hb⟩ := hn.sets
    rw [hs, hb]
    exact kept (h.commit fun kv hkv => other_entrySets hkv)
  | commitEdge premises conclusion edgeData proof =>
    obtain ⟨le, b, -, hn, hs⟩ := hd
    obtain ⟨enc, -, hb⟩ := hn.sets
    rw [hs, hb, commit_append]
    exact (h.register P premises.2).commit fun kv hkv => other_entrySets hkv

/-- What one more call registers, if it returns. -/
theorem registrations_step (P : Prims) (ops : List Op) (op : Op) :
    registrations P (Session.run P (ops ++ [op])).returned = registrations P (Session.run P ops).returned ∨
    ∃ call, registrations P (Session.run P (ops ++ [op])).returned =
      registrations P (Session.run P ops).returned ++ [call] := by
  rw [run_concat]
  rcases step_cases (P := P) (Session.run P ops) op with ⟨reply, -, hret⟩ | ⟨-, hret⟩
  · rw [hret, registrations_concat]
    cases edge? P op.call with
    | none => exact .inl (List.append_nil _)
    | some call => exact .inr ⟨call, rfl⟩
  · exact .inl (by rw [hret])

theorem filed_run (P : Prims) (ops : List Op) :
    Filed (registrations P (Session.run P ops).returned) (Session.run P ops).storage.db := by
  induction ops using List.reverseRecOn with
  | nil => exact .empty
  | append_singleton ops op ih =>
    rw [run_concat]
    rcases step_cases (P := P) (Session.run P ops) op with ⟨reply, hd, hret⟩ | ⟨hfail, hret⟩
    · rw [hret, registrations_concat]
      exact ih.done hd
    · rw [hret, hfail.db]
      exact ih

theorem registrations_mono {pre ops : List Op} (h : pre <+: ops) :
    registrations P (Session.run P pre).returned <+: registrations P (Session.run P ops).returned := by
  induction ops using List.reverseRecOn with
  | nil => rw [List.prefix_nil.mp h]
  | append_singleton ops op ih =>
    rcases List.prefix_concat_iff.mp h with rfl | h
    · exact List.prefix_refl _
    · rcases registrations_step P ops op with heq | ⟨call, heq⟩
      · rw [heq]
        exact ih h
      · rw [heq]
        exact (ih h).trans (List.prefix_append _ _)

/-- Each of the registrations was the last one at some time. -/
theorem exists_run_of_prefix {ops : List Op} {done : List Registration}
    (h : done <+: registrations P (Session.run P ops).returned) :
    ∃ pre, pre <+: ops ∧ registrations P (Session.run P pre).returned = done := by
  induction ops using List.reverseRecOn generalizing done with
  | nil => exact ⟨[], List.prefix_refl _, (List.prefix_nil.mp h).symm⟩
  | append_singleton ops op ih =>
    have earlier : done <+: registrations P (Session.run P ops).returned →
        ∃ pre, pre <+: ops ++ [op] ∧ registrations P (Session.run P pre).returned = done := by
      intro h
      obtain ⟨pre, hpre, hdone⟩ := ih h
      exact ⟨pre, hpre.trans (List.prefix_append _ _), hdone⟩
    rcases registrations_step P ops op with heq | ⟨call, heq⟩
    · exact earlier (heq ▸ h)
    · rw [heq] at h
      rcases List.prefix_concat_iff.mp h with rfl | h
      · exact ⟨ops ++ [op], List.prefix_refl _, heq⟩
      · exact earlier h

/-- The incoming and outgoing indexes agree with the edges, and the edges are those of the calls. -/
structure GraphAgrees (calls : List Registration) (db : Pebble) : Prop where
  incoming {e n : Hash} : e ∈ GraphIndex.incomingEdges db n ↔ ∃ ps, GraphIndex.getConnectivity db e = some (ps, n)
  outgoing {e n : Hash} : e ∈ GraphIndex.outgoingEdges db n ↔
    ∃ ps c, GraphIndex.getConnectivity db e = some (ps, c) ∧ n ∈ ps
  registered {e : Hash} {r : List Hash × Hash} (h : GraphIndex.getConnectivity db e = some r) : (e, r) ∈ calls
  indexed {e : Hash} {r : List Hash × Hash} (h : (e, r) ∈ calls) : (GraphIndex.getConnectivity db e).isSome

theorem Filed.graphAgrees_iff (h : Filed calls db) : GraphAgrees calls db ↔ Agrees calls := by
  constructor
  · intro hg k
    refine ⟨fun {x} => ?_, fun {x} => ?_, fun {r} hr => ?_⟩
    · rw [← h.mem_incomingEdges, hg.incoming, h.getConnectivity]
    · rw [← h.mem_outgoingEdges, hg.outgoing, h.getConnectivity]
    · exact hg.registered ((h.getConnectivity k).trans hr)
  · intro ha
    refine ⟨fun {e n} => ?_, fun {e n} => ?_, fun {e r} hr => ?_, fun {e r} hr => ?_⟩
    · rw [h.mem_incomingEdges, h.getConnectivity]
      exact (ha e).head
    · rw [h.mem_outgoingEdges, h.getConnectivity]
      exact (ha e).member
    · rw [h.getConnectivity] at hr
      exact (ha e).single hr
    · rw [h.getConnectivity]
      exact isSome_record_iff.mpr ⟨r, hr⟩

/-- In every session, the indexes agree with the edges in all states that it
reaches exactly when each registration of an edge on record keeps its
conclusion, loses none of its premises, and leaves the premises of one call. -/
theorem graph_agrees_iff (P : Prims) (ops : List Op) :
    (∀ pre, pre <+: ops →
      GraphAgrees (registrations P (Session.run P pre).returned) (Session.run P pre).storage.db) ↔
      ∀ done call, done ++ [call] <+: registrations P (Session.run P ops).returned → Record.Consistent done call := by
  rw [← agrees_iff]
  constructor
  · intro h done hdone
    obtain ⟨pre, hpre, rfl⟩ := exists_run_of_prefix hdone
    exact (filed_run P pre).graphAgrees_iff.mp (h pre hpre)
  · intro h pre hpre
    exact (filed_run P pre).graphAgrees_iff.mpr (h _ (registrations_mono hpre))

section Example

open Reference

/-- An edge without premises, registered with two conclusions. -/
def movedEdge : List Op :=
  [⟨exampleKeypair, .registerEdge (exampleHash 1) ⟨[], by decide⟩ (exampleHash 2), 10, none⟩,
    ⟨exampleKeypair, .registerEdge (exampleHash 1) ⟨[], by decide⟩ (exampleHash 3), 10, none⟩]

/-- It stays among the edges into the first. -/
theorem moved_edge_still_incoming : ¬ ∀ ops : List Op,
    GraphAgrees (registrations reference (Session.run reference ops).returned)
      (Session.run reference ops).storage.db := by
  intro h
  have hin : exampleHash 1 ∈ GraphIndex.incomingEdges (Session.run reference movedEdge).storage.db (exampleHash 2) := by
    decide +kernel
  have hconn : GraphIndex.getConnectivity (Session.run reference movedEdge).storage.db (exampleHash 1) =
      some ([], exampleHash 3) := by decide +kernel
  obtain ⟨ps, hps⟩ := (h movedEdge).incoming.mp hin
  rw [hconn, Option.some.injEq, Prod.mk.injEq] at hps
  exact absurd hps.2 (by decide)

end Example

end ArxDB.Proof.Go
