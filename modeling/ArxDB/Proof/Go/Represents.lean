import ArxDB.Proof.Go.Keys
import ArxDB.Proof.Go.Operations

/-!
# The database as a store

`Represents a db`: the database holds under its keys what the abstract store
`a` says, and nothing else. Adding a node, an edge or an entry to `a` is a
commit of `db`.
-/

namespace ArxDB.Proof.Go

open Impl (Bytes GoAny Hash Prims)
open Impl.Go BigEndian

/-- The abstract store of the Go layer. -/
abbrev Abstract := Spec.Store Hash LogEntry

variable {P : Prims} {a a' : Abstract} {db : Pebble} {key : Key} {k v v' : Bytes}

/-! ## Entries by number -/

/-- The entry number `seq`. -/
def entryAt (log : List LogEntry) (seq : Int64) : Option LogEntry :=
  if seq < 0 then none else log[seq.toInt.toNat]?

theorem ofNat_nonneg {i : Nat} (hi : i < 2 ^ 63) : ¬ Int64.ofNat i < 0 := by
  rw [Int64.lt_iff_toInt_lt, Int64.toInt_ofNat_of_lt hi]
  exact Int.not_lt.mpr (Int.natCast_nonneg i)

theorem ofNat_toNat {seq : Int64} (h : ¬ seq < 0) : Int64.ofNat seq.toInt.toNat = seq := by
  have h0 : 0 ≤ seq.toInt := by simpa [Int64.lt_iff_toInt_lt] using h
  have hlt := seq.toInt_lt
  apply Int64.toInt_inj.mp
  rw [Int64.toInt_ofNat_of_lt (by omega)]
  omega

theorem entryAt_ofNat {log : List LogEntry} {i : Nat} (hi : i < 2 ^ 63) : entryAt log (.ofNat i) = log[i]? := by
  rw [entryAt, if_neg (ofNat_nonneg hi), Int64.toInt_ofNat_of_lt hi, Int.toNat_natCast]

theorem entryAt_eq_some {log : List LogEntry} (hlen : log.length ≤ 2 ^ 63) {seq : Int64} {le : LogEntry} :
    entryAt log seq = some le ↔ ∃ i, log[i]? = some le ∧ seq = .ofNat i := by
  constructor
  · intro h
    unfold entryAt at h
    split at h
    · cases h
    · rename_i h0
      exact ⟨_, h, (ofNat_toNat h0).symm⟩
  · intro h
    obtain ⟨i, hi, rfl⟩ := h
    have := (List.getElem?_eq_some_iff.mp hi).1
    rw [entryAt_ofNat (by omega), hi]

theorem getElem?_concat_eq_some {α : Type} {l : List α} {x y : α} {i : Nat} :
    (l ++ [x])[i]? = some y ↔ l[i]? = some y ∨ i = l.length ∧ x = y := by
  rcases Nat.lt_trichotomy i l.length with hi | rfl | hi
  · rw [List.getElem?_append_left hi, or_iff_left (by omega)]
  · simp
  · rw [List.getElem?_eq_none (by simp; omega), List.getElem?_eq_none (by omega), or_iff_right (by simp)]
    simp
    omega

theorem entryAt_append {log : List LogEntry} (hlen : log.length < 2 ^ 63) {seq : Int64} {le le' : LogEntry} :
    entryAt (log ++ [le]) seq = some le' ↔ entryAt log seq = some le' ∨ seq = .ofNat log.length ∧ le = le' := by
  rw [entryAt_eq_some (by simp; omega), entryAt_eq_some hlen.le]
  simp only [getElem?_concat_eq_some]
  constructor
  · intro h
    obtain ⟨i, hi | ⟨rfl, rfl⟩, rfl⟩ := h
    · exact .inl ⟨i, hi, rfl⟩
    · exact .inr ⟨rfl, rfl⟩
  · intro h
    rcases h with ⟨i, hi, rfl⟩ | ⟨rfl, rfl⟩
    · exact ⟨i, .inl hi, rfl⟩
    · exact ⟨_, .inr ⟨rfl, rfl⟩, rfl⟩

/-! ## What a key holds -/

/-- What a key of the database holds when it stores `a`. -/
inductive Held (P : Prims) (a : Abstract) : Key → Bytes → Prop
  | node {n : Hash} (h : n ∈ a.nodes) : Held P a (.node n) []
  | edge {e c : Hash} {ps : List Hash} (h : a.edges e = some (ps, c)) : Held P a (.edge e) c.raw
  | premise {e c p : Hash} {ps : List Hash} {pos : UInt64} (h : a.edges e = some (ps, c))
      (hp : ps[pos.toNat]? = some p) : Held P a (.premise e pos) p.raw
  | incoming {e c : Hash} {ps : List Hash} (h : a.edges e = some (ps, c)) : Held P a (.incoming c e) []
  | outgoing {e c p : Hash} {ps : List Hash} (h : a.edges e = some (ps, c)) (hp : p ∈ ps) : Held P a (.outgoing p e) []
  | entry {seq : Int64} {le : LogEntry} {enc : Bytes} (h : entryAt a.log seq = some le)
      (henc : AppendLog.encodeEntry P le = .ok enc) : Held P a (.entry seq) enc
  | entryHash {seq : Int64} {le : LogEntry} (h : entryAt a.log seq = some le) :
      Held P a (.entryHash seq) le.entryHash.raw
  | logLen (h : a.log ≠ []) : Held P a .logLen (be 8 (Int64.ofNat a.log.length).toUInt64.toNat)

namespace Held

theorem unique (h : Held P a key v) (h' : Held P a key v') : v = v' := by
  cases h <;> cases h' <;> first | rfl | skip
  case edge h _ _ h' => rw [h] at h'; cases h'; rfl
  case premise h hp _ _ _ h' hp' => rw [h] at h'; cases h'; rw [hp] at hp'; cases hp'; rfl
  case entry h henc _ h' henc' => rw [h] at h'; cases h'; rw [henc] at henc'; cases henc'; rfl
  case entryHash h _ h' => rw [h] at h'; cases h'; rfl

theorem mono (hnodes : ∀ n ∈ a.nodes, n ∈ a'.nodes) (hedges : ∀ e r, a.edges e = some r → a'.edges e = some r)
    (hlog : a.log = [] ∨ a.log = a'.log) (h : Held P a key v) : Held P a' key v := by
  have hentry : ∀ seq le, entryAt a.log seq = some le → entryAt a'.log seq = some le := by
    intro seq le h
    rcases hlog with hlog | hlog
    · rw [hlog] at h
      simp [entryAt] at h
    · rwa [← hlog]
  cases h with
  | node h => exact .node (hnodes _ h)
  | edge h => exact .edge (hedges _ _ h)
  | premise h hp => exact .premise (hedges _ _ h) hp
  | incoming h => exact .incoming (hedges _ _ h)
  | outgoing h hp => exact .outgoing (hedges _ _ h) hp
  | entry h henc => exact .entry (hentry _ _ h) henc
  | entryHash h => exact .entryHash (hentry _ _ h)
  | logLen h =>
    have hlog := hlog.resolve_left h
    rw [hlog] at h ⊢
    exact .logLen h

end Held

/-- An abstract store with one edge. -/
abbrev single (e : Hash) (ps : List Hash) (c : Hash) : Abstract := Spec.Store.empty.addEdge e ps c

theorem single_edges {e e' c : Hash} {ps : List Hash} {r : List Hash × Hash}
    (h : (single e ps c).edges e' = some r) : e' = e ∧ r = (ps, c) := by
  rw [Spec.Store.edges_addEdge] at h
  split at h
  · rename_i he
    exact ⟨he, (Option.some.inj h).symm⟩
  · cases h

theorem held_addEdge {e c : Hash} {ps : List Hash} (hf : ∀ r, a.edges e = some r → r = (ps, c)) :
    Held P (a.addEdge e ps c) key v ↔ Held P a key v ∨ Held P (single e ps c) key v := by
  constructor
  · intro h
    have hedge : ∀ e' r, (a.addEdge e ps c).edges e' = some r →
        a.edges e' = some r ∨ (single e ps c).edges e' = some r := by
      intro e' r h
      rw [Spec.Store.edges_addEdge] at h ⊢
      split at h
      · rename_i he
        exact .inr (by rw [if_pos he, h])
      · exact .inl h
    cases h with
    | node h =>
      rcases h with h | h | h
      · exact .inr (.node (.inl h))
      · exact .inl (.node h)
      · exact .inr (.node (.inr (.inr h)))
    | edge h => exact (hedge _ _ h).imp .edge .edge
    | premise h hp => exact (hedge _ _ h).imp (.premise · hp) (.premise · hp)
    | incoming h => exact (hedge _ _ h).imp .incoming .incoming
    | outgoing h hp => exact (hedge _ _ h).imp (.outgoing · hp) (.outgoing · hp)
    | entry h henc => exact .inl (.entry h henc)
    | entryHash h => exact .inl (.entryHash h)
    | logLen h => exact .inl (.logLen h)
  · intro h
    rcases h with h | h
    · refine h.mono (fun n hn => .inr (.inl hn)) (fun e' r h => ?_) (.inr rfl)
      rw [Spec.Store.edges_addEdge]
      split
      · rename_i he
        rw [hf r (he ▸ h)]
      · exact h
    · refine h.mono (fun n hn => ?_) (fun e' r h => ?_) (.inl rfl)
      · rcases hn with hn | hn | hn
        · exact .inl hn
        · exact absurd hn (Set.notMem_empty n)
        · exact .inr (.inr hn)
      · obtain ⟨rfl, rfl⟩ := single_edges h
        rw [Spec.Store.edges_addEdge, if_pos rfl]

/-- `RegisterEdge` writes the keys of a store with that edge alone. -/
theorem mem_edgeSets {e c : Hash} {ps : List Hash} (hlen : ps.length < 2 ^ 63) :
    (k, v) ∈ edgeSets e ps c ↔ ∃ key : Key, key.bytes = k ∧ Held P (single e ps c) key v := by
  have he : (single e ps c).edges e = some (ps, c) := by rw [Spec.Store.edges_addEdge, if_pos rfl]
  constructor
  · intro h
    simp only [edgeSets, List.append_assoc, List.cons_append, List.mem_cons, List.mem_append, List.mem_map,
      Prod.mk.injEq, Prod.exists, List.mem_zipIdx_iff_getElem?] at h
    rcases h with ⟨rfl, rfl⟩ | ⟨p, hp, rfl, rfl⟩ | ⟨rfl, rfl⟩ | ⟨p, i, hp, rfl, rfl⟩ | ⟨rfl, rfl⟩ | ⟨p, hp, rfl, rfl⟩
    · exact ⟨.node c, rfl, .node (.inl rfl)⟩
    · exact ⟨.node p, rfl, .node (.inr (.inr hp))⟩
    · exact ⟨.edge e, rfl, .edge he⟩
    · have hi := (List.getElem?_eq_some_iff.mp hp).1
      have hpos : (UInt64.ofNat i).toNat = i := UInt64.toNat_ofNat_of_lt' (by rw [UInt64.size]; omega)
      exact ⟨.premise e (.ofNat i), by rw [Key.bytes, hpos], .premise he (by rwa [hpos])⟩
    · exact ⟨.incoming c e, rfl, .incoming he⟩
    · exact ⟨.outgoing p e, rfl, .outgoing he hp⟩
  · intro h
    obtain ⟨key, rfl, h⟩ := h
    simp only [edgeSets, List.append_assoc, List.cons_append, List.mem_cons, List.mem_append, List.mem_map,
      Prod.mk.injEq, Prod.exists, List.mem_zipIdx_iff_getElem?]
    cases h with
    | node h =>
      rcases h with rfl | h | h
      · exact .inl ⟨rfl, rfl⟩
      · exact absurd h (Set.notMem_empty _)
      · exact .inr (.inl ⟨_, h, rfl, rfl⟩)
    | edge h =>
      obtain ⟨rfl, hr⟩ := single_edges h
      cases hr
      exact .inr (.inr (.inl ⟨rfl, rfl⟩))
    | premise h hp =>
      obtain ⟨rfl, hr⟩ := single_edges h
      cases hr
      exact .inr (.inr (.inr (.inl ⟨_, _, hp, rfl, rfl⟩)))
    | incoming h =>
      obtain ⟨rfl, hr⟩ := single_edges h
      cases hr
      exact .inr (.inr (.inr (.inr (.inl ⟨rfl, rfl⟩))))
    | outgoing h hp =>
      obtain ⟨rfl, hr⟩ := single_edges h
      cases hr
      exact .inr (.inr (.inr (.inr (.inr ⟨_, hp, rfl, rfl⟩))))
    | entry h => simp [entryAt, Spec.Store.addEdge, Spec.Store.empty] at h
    | entryHash h => simp [entryAt, Spec.Store.addEdge, Spec.Store.empty] at h
    | logLen h => exact absurd rfl h

/-- What `appendInBatch` adds to a batch. -/
def entrySets (le : LogEntry) (enc : Bytes) : Batch :=
  [(AppendLog.entryKey le.seq, enc), (AppendLog.entryHashKey le.seq, le.entryHash.raw),
    (AppendLog.logLenKey, be 8 (le.seq + 1).toUInt64.toNat)]

theorem entrySets_keys {le : LogEntry} {enc : Bytes} {kv : Bytes × Bytes} (h : kv ∈ entrySets le enc) :
    Tagged logTags kv.1 := by
  simp only [entrySets, List.mem_cons, List.not_mem_nil, or_false] at h
  rcases h with rfl | rfl | rfl
  exacts [tagged_entryKey _, tagged_entryHashKey _, tagged_logLenKey]

theorem getElem?_commit_entrySets {le : LogEntry} {enc : Bytes} (key : Key) :
    (db.commit (entrySets le enc))[key.bytes]? =
      if key = .logLen then some (be 8 (le.seq + 1).toUInt64.toNat)
      else if key = .entryHash le.seq then some le.entryHash.raw
      else if key = .entry le.seq then some enc
      else db[key.bytes]? := by
  have hkey : ∀ key' : Key, key'.bytes = key.bytes ↔ key = key' :=
    fun key' => ⟨fun e => (Key.bytes_inj e).symm, fun e => e ▸ rfl⟩
  have hlen : AppendLog.logLenKey = key.bytes ↔ key = .logLen := hkey .logLen
  have hhash : AppendLog.entryHashKey le.seq = key.bytes ↔ key = .entryHash le.seq := hkey (.entryHash le.seq)
  have hentry : AppendLog.entryKey le.seq = key.bytes ↔ key = .entry le.seq := hkey (.entry le.seq)
  simp only [entrySets, commit_cons, commit_nil, getElem?_insert, hlen, hhash, hentry]

/-! ## The refinement -/

/-- The database holds what the abstract store says, and nothing else. -/
structure Represents (P : Prims) (a : Abstract) (db : Pebble) : Prop where
  get {k v : Bytes} : db[k]? = some v ↔ ∃ key : Key, key.bytes = k ∧ Held P a key v
  premises {e c : Hash} {ps : List Hash} (h : a.edges e = some (ps, c)) : ps.length < 2 ^ 63
  encoded {le : LogEntry} (h : le ∈ a.log) : ∃ enc, AppendLog.encodeEntry P le = .ok enc

namespace Represents

theorem empty : Represents P Spec.Store.empty ∅ where
  get {k v} := by
    have hnone : (∅ : Pebble)[k]? = none := Std.ExtTreeMap.getElem?_empty
    rw [hnone]
    constructor
    · intro h
      cases h
    · intro h
      obtain ⟨key, -, h⟩ := h
      cases h with
      | node h => exact absurd h (Set.notMem_empty _)
      | edge h => cases h
      | premise h => cases h
      | incoming h => cases h
      | outgoing h => cases h
      | entry h => simp [entryAt, Spec.Store.empty] at h
      | entryHash h => simp [entryAt, Spec.Store.empty] at h
      | logLen h => exact absurd rfl h
  premises h := by cases h
  encoded h := by cases h

theorem getElem? (h : Represents P a db) (key : Key) : db[key.bytes]? = some v ↔ Held P a key v := by
  rw [h.get]
  constructor
  · intro hk
    obtain ⟨key', hb, hv⟩ := hk
    rwa [← Key.bytes_inj hb]
  · exact fun hv => ⟨key, rfl, hv⟩

/-- What a batch adds that writes the keys of `a₁`, where `a'` is `a` with `a₁` added. -/
theorem commit {a₁ : Abstract} {b : Batch} (h : Represents P a db)
    (hb : ∀ {k v}, (k, v) ∈ b ↔ ∃ key : Key, key.bytes = k ∧ Held P a₁ key v)
    (ha : ∀ key v, Held P a' key v ↔ Held P a key v ∨ Held P a₁ key v)
    (hp : ∀ {e c ps}, a'.edges e = some (ps, c) → ps.length < 2 ^ 63) (hl : a'.log = a.log) :
    Represents P a' (db.commit b) where
  get {k v} := by
    constructor
    · intro hv
      rcases getElem?_commit hv with hv | hv
      · obtain ⟨key, hk, hv⟩ := hb.mp hv
        exact ⟨key, hk, (ha _ _).mpr (.inr hv)⟩
      · obtain ⟨key, hk, hv⟩ := h.get.mp hv
        exact ⟨key, hk, (ha _ _).mpr (.inl hv)⟩
    · intro hv
      obtain ⟨key, rfl, hv⟩ := hv
      rw [getElem?_commit_iff]
      · refine ((ha _ _).mp hv).imp (h.getElem? key).mpr fun hv => hb.mpr ⟨key, rfl, hv⟩
      · exact fun v' hv' => ((ha _ _).mpr (.inl ((h.getElem? key).mp hv'))).unique hv
      · intro v' hv'
        obtain ⟨key', hk, hv'⟩ := hb.mp hv'
        rw [Key.bytes_inj hk] at hv'
        exact ((ha _ _).mpr (.inr hv')).unique hv
  premises := hp
  encoded hle := h.encoded (hl ▸ hle)

theorem addEdge {e c : Hash} {ps : List Hash} (h : Represents P a db) (hlen : ps.length < 2 ^ 63)
    (hf : ∀ r, a.edges e = some r → r = (ps, c)) : Represents P (a.addEdge e ps c) (db.commit (edgeSets e ps c)) := by
  refine h.commit (mem_edgeSets hlen) (fun _ _ => held_addEdge hf) (fun {e' c' ps'} he => ?_) rfl
  rw [Spec.Store.edges_addEdge] at he
  split at he
  · cases he
    exact hlen
  · exact h.premises he

theorem addNode {n : Hash} (h : Represents P a db) :
    Represents P (a.addNode n) (db.commit [(GraphIndex.nodeKey n, [])]) := by
  have hb : ∀ {k v}, (k, v) ∈ [(GraphIndex.nodeKey n, ([] : Bytes))] ↔
      ∃ key : Key, key.bytes = k ∧ Held P (Spec.Store.empty.addNode n) key v := by
    intro k v
    rw [List.mem_singleton, Prod.mk.injEq]
    constructor
    · intro hkv
      obtain ⟨rfl, rfl⟩ := hkv
      exact ⟨.node n, rfl, .node (.inl rfl)⟩
    · intro hkv
      obtain ⟨key, rfl, hv⟩ := hkv
      cases hv with
      | node hn =>
        rcases hn with rfl | hn
        · exact ⟨rfl, rfl⟩
        · exact absurd hn (Set.notMem_empty _)
      | edge he => cases he
      | premise he => cases he
      | incoming he => cases he
      | outgoing he => cases he
      | entry hle => simp [entryAt, Spec.Store.addNode, Spec.Store.empty] at hle
      | entryHash hle => simp [entryAt, Spec.Store.addNode, Spec.Store.empty] at hle
      | logLen hlog => exact absurd rfl hlog
  refine h.commit hb (fun key v => ?_) h.premises rfl
  constructor
  · intro hv
    cases hv with
    | node hn =>
      rcases hn with rfl | hn
      · exact .inr (.node (.inl rfl))
      · exact .inl (.node hn)
    | edge he => exact .inl (.edge he)
    | premise he hp => exact .inl (.premise he hp)
    | incoming he => exact .inl (.incoming he)
    | outgoing he hp => exact .inl (.outgoing he hp)
    | entry hle henc => exact .inl (.entry hle henc)
    | entryHash hle => exact .inl (.entryHash hle)
    | logLen hlog => exact .inl (.logLen hlog)
  · intro hv
    rcases hv with hv | hv
    · exact hv.mono (fun _ hn => .inr hn) (fun _ _ he => he) (.inr rfl)
    · refine hv.mono (fun _ hn => ?_) (fun _ _ he => by cases he) (.inl rfl)
      exact .inl (hn.resolve_right (Set.notMem_empty _))

/-! ## The log -/

/-- The next entry is added. -/
theorem append {le : LogEntry} {enc : Bytes} (h : Represents P a db) (hlen : a.log.length < 2 ^ 63)
    (hseq : le.seq = .ofNat a.log.length) (henc : AppendLog.encodeEntry P le = .ok enc) :
    Represents P (a.append le) (db.commit (entrySets le enc)) where
  get {k v} := by
    have hlast : entryAt (a.append le).log le.seq = some le := (entryAt_append hlen).mpr (.inr ⟨hseq, rfl⟩)
    have hkept : ∀ {seq le'}, entryAt a.log seq = some le' → entryAt (a.append le).log seq = some le' :=
      fun h => (entryAt_append hlen).mpr (.inl h)
    have hlog : (a.append le).log ≠ [] := List.append_ne_nil_of_right_ne_nil _ (List.cons_ne_nil _ _)
    have hlen' : le.seq + 1 = .ofNat (a.append le).log.length := by
      rw [hseq, Spec.Store.append, List.length_append, List.length_singleton, Int64.ofNat_add]
      rfl
    -- an earlier entry has another number
    have hne : ∀ {seq le'}, entryAt a.log seq = some le' → seq ≠ le.seq := by
      intro seq le' h e
      obtain ⟨i, hi, rfl⟩ := (entryAt_eq_some hlen.le).mp h
      have := (List.getElem?_eq_some_iff.mp hi).1
      have := ofNat_inj (by omega) hlen (e.trans hseq)
      omega
    constructor
    · intro hv
      simp only [entrySets, commit_cons, commit_nil, getElem?_insert] at hv
      split at hv
      · rename_i hk
        cases hv
        exact ⟨.logLen, hk, hlen' ▸ .logLen hlog⟩
      split at hv
      · rename_i hk
        cases hv
        exact ⟨.entryHash le.seq, hk, .entryHash hlast⟩
      split at hv
      · rename_i hk
        cases hv
        exact ⟨.entry le.seq, hk, .entry hlast henc⟩
      · rename_i hnotLen _ _
        obtain ⟨key, hk, hv⟩ := h.get.mp hv
        refine ⟨key, hk, ?_⟩
        cases hv with
        | node hn => exact .node hn
        | edge he => exact .edge he
        | premise he hp => exact .premise he hp
        | incoming he => exact .incoming he
        | outgoing he hp => exact .outgoing he hp
        | entry hle henc => exact .entry (hkept hle) henc
        | entryHash hle => exact .entryHash (hkept hle)
        | logLen => exact absurd hk hnotLen
    · intro hv
      obtain ⟨key, rfl, hv⟩ := hv
      have hget := h.getElem? (v := v) key
      rw [getElem?_commit_entrySets]
      cases hv with
      | node hn => simpa using hget.mpr (.node hn)
      | edge he => simpa using hget.mpr (.edge he)
      | premise he hp => simpa using hget.mpr (.premise he hp)
      | incoming he => simpa using hget.mpr (.incoming he)
      | outgoing he hp => simpa using hget.mpr (.outgoing he hp)
      | entry hle henc' =>
        rcases (entryAt_append hlen).mp hle with hle | ⟨rfl, rfl⟩
        · simpa [hne hle] using hget.mpr (.entry hle henc')
        · rw [henc] at henc'
          cases henc'
          simp [hseq]
      | entryHash hle =>
        rcases (entryAt_append hlen).mp hle with hle | ⟨rfl, rfl⟩
        · simpa [hne hle] using hget.mpr (.entryHash hle)
        · simp [hseq]
      | logLen => rw [if_pos rfl, hlen']
  premises := h.premises
  encoded hle := by
    rcases List.mem_append.mp hle with hle | hle
    · exact h.encoded hle
    · obtain rfl := List.mem_singleton.mp hle
      exact ⟨enc, henc⟩

end Represents

end ArxDB.Proof.Go
