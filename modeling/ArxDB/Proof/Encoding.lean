import ArxDB.Impl.AppendLog
import ArxDB.Impl.Roster
import ArxDB.Impl.Schema
import Mathlib.Data.Nat.Digits.Lemmas

/-!
# Records and their bytes

What is written of a value is its canonical form, and what is read back of it is
that form again, up to the order in which dicts were filled: `Restored`. A
canonical form is its own (`canonicalize_canonical`), so what is read back has
the bytes that were read (`encode_same`).

Of the records of the model, the five fields that are signed are determined by
the message (`signatureMessage_inj`), and a node or an edge is read back from its
own bytes with the same fields (`node_fromBytes`, `edge_fromBytes`), where those
that Python leaves unchecked are restored.
-/

namespace ArxDB.Proof

open Impl

variable {P : Prims}

/-! ## Computations that can raise -/

theorem bind_eq_ok {ε α β : Type} {x : Except ε α} {f : α → Except ε β} {b : β} :
    x >>= f = .ok b ↔ ∃ a, x = .ok a ∧ f a = .ok b := by
  cases x <;> simp [bind, Except.bind]

theorem map_eq_ok {ε α β : Type} {x : Except ε α} {f : α → β} {b : β} :
    f <$> x = .ok b ↔ ∃ a, x = .ok a ∧ f a = b := by
  cases x <;> simp [Functor.map, Except.map]

theorem toOption_eq_some {ε α : Type} {x : Except ε α} {a : α} : x.toOption = some a ↔ x = .ok a := by
  cases x <;> simp [Except.toOption]

/-! ## Lists, element by element -/

theorem exists_of_forall₂ {α β : Type} {R : α → β → Prop} {xs : List α} {ys : List β} (h : List.Forall₂ R xs ys)
    {y : β} (hy : y ∈ ys) : ∃ x ∈ xs, R x y := by
  induction h with
  | nil => cases hy
  | @cons x _ _ _ hxy _ ih =>
    obtain rfl | hy := List.mem_cons.mp hy
    · exact ⟨x, List.mem_cons_self, hxy⟩
    · obtain ⟨x', hx', h⟩ := ih hy
      exact ⟨x', List.mem_cons_of_mem _ hx', h⟩

/-- A list each of whose elements is the other's is the other. -/
theorem eq_of_forall₂ {α : Type} {R : α → α → Prop} {xs ys : List α} (h : List.Forall₂ R xs ys)
    (heq : ∀ x ∈ xs, ∀ y, R x y → y = x) : ys = xs := by
  induction h with
  | nil => rfl
  | cons hxy _ ih =>
    rw [List.forall_mem_cons] at heq
    rw [heq.1 _ hxy, ih heq.2]

theorem forall₂_of_exists {α β : Type} {R : α → β → Prop} {l : List α} (h : ∀ x ∈ l, ∃ y, R x y) :
    ∃ ys, List.Forall₂ R l ys := by
  induction l with
  | nil => exact ⟨[], .nil⟩
  | cons x xs ih =>
    rw [List.forall_mem_cons] at h
    obtain ⟨y, hy⟩ := h.1
    obtain ⟨ys, hys⟩ := ih h.2
    exact ⟨y :: ys, .cons hy hys⟩

theorem mapM_eq_ok_iff {ε α β : Type} {f : α → Except ε β} {xs : List α} {ys : List β} :
    xs.mapM f = .ok ys ↔ List.Forall₂ (fun x y => f x = .ok y) xs ys := by
  induction xs generalizing ys with
  | nil => simp [pure, Except.pure, eq_comm]
  | cons x xs ih =>
    rw [List.forall₂_cons_left_iff, List.mapM_cons]
    constructor
    · intro h
      obtain ⟨y, hy, h⟩ := bind_eq_ok.mp h
      obtain ⟨ys', hys, e⟩ := bind_eq_ok.mp h
      exact ⟨y, ys', hy, ih.mp hys, (Except.ok.inj e).symm⟩
    · rintro ⟨y, ys', hy, hys, rfl⟩
      exact bind_eq_ok.mpr ⟨y, hy, bind_eq_ok.mpr ⟨ys', ih.mpr hys, rfl⟩⟩

theorem mapM_eq_ok {ε α β : Type} {f : α → Except ε β} {g : α → β} {l : List α} (h : ∀ x ∈ l, f x = .ok (g x)) :
    l.mapM f = .ok (l.map g) :=
  mapM_eq_ok_iff.mpr (List.forall₂_map_right_iff.mpr (List.forall₂_same.mpr h))

theorem exists_mapM {ε α β : Type} {f : α → Except ε β} {xs : List α} (h : ∀ x ∈ xs, ∃ y, f x = .ok y) :
    ∃ ys, xs.mapM f = .ok ys := by
  obtain ⟨ys, hys⟩ := forall₂_of_exists h
  exact ⟨ys, mapM_eq_ok_iff.mpr hys⟩

theorem mem_of_mapM {ε α β : Type} {f : α → Except ε β} {xs : List α} {ys : List β} (h : xs.mapM f = .ok ys)
    {y : β} (hy : y ∈ ys) : ∃ x ∈ xs, f x = .ok y :=
  exists_of_forall₂ (mapM_eq_ok_iff.mp h) hy

/-! ## Canonical forms -/

open Serialization

/-- A list or a tuple of `xs`. -/
def IsSeq (v : Value) (xs : List Value) : Prop := v = .list xs ∨ v = .tuple xs

/-- A set or a frozenset of `xs`. -/
def IsSet (v : Value) (xs : List Value) : Prop := v = .set xs ∨ v = .frozenset xs

theorem kinds (v : Value) :
    v.scalar = true ∨ (∃ xs, IsSeq v xs) ∨ (∃ xs, IsSet v xs) ∨ ∃ kvs, v = .dict kvs := by
  cases v with
  | list xs => exact .inr (.inl ⟨xs, .inl rfl⟩)
  | tuple xs => exact .inr (.inl ⟨xs, .inr rfl⟩)
  | set xs => exact .inr (.inr (.inl ⟨xs, .inl rfl⟩))
  | frozenset xs => exact .inr (.inr (.inl ⟨xs, .inr rfl⟩))
  | dict kvs => exact .inr (.inr (.inr ⟨kvs, rfl⟩))
  | none | bool | int | bytes | str | other => exact .inl rfl

theorem canonicalize_scalar {v : Value} (h : v.scalar = true) (n : Nat) : canonicalize P (n + 1) v = .ok v := by
  cases v <;> first | rfl | cases h

theorem IsSeq.canonicalize_eq_ok {v : Value} {xs : List Value} (h : IsSeq v xs) {n : Nat} {c : Value} :
    canonicalize P (n + 1) v = .ok c ↔
      ∃ cs, List.Forall₂ (fun x c => canonicalize P n x = .ok c) xs cs ∧ Value.list cs = c := by
  have key : canonicalize P (n + 1) v = xs.mapM (canonicalize P n) >>= fun cs => pure (.list cs) := by
    obtain rfl | rfl := h <;> rfl
  rw [key, bind_eq_ok]
  exact exists_congr fun cs => and_congr mapM_eq_ok_iff ⟨Except.ok.inj, congrArg _⟩

theorem IsSet.canonicalize_eq_ok {v : Value} {xs : List Value} (h : IsSet v xs) {n : Nat} {c : Value} :
    canonicalize P (n + 1) v = .ok c ↔ ∃ cs s,
      List.Forall₂ (fun x c => canonicalize P n x = .ok c) xs cs ∧ sorted P cs = .ok s ∧ Value.list s = c := by
  have key : canonicalize P (n + 1) v =
      xs.mapM (canonicalize P n) >>= fun cs => sorted P cs >>= fun s => pure (.list s) := by
    obtain rfl | rfl := h <;> rfl
  rw [key, bind_eq_ok]
  refine exists_congr fun cs => ?_
  rw [bind_eq_ok, ← exists_and_left, mapM_eq_ok_iff]
  exact exists_congr fun s => and_congr_right fun _ => and_congr_right fun _ => ⟨Except.ok.inj, congrArg _⟩

/-- An item of a dict and the item that stands for it. -/
def Item (P : Prims) (n : Nat) (kv c : Value × Value) : Prop :=
  canonicalize P n kv.1 = .ok c.1 ∧ canonicalize P n kv.2 = .ok c.2

/-- The step of the loop over the items of a dict. -/
theorem setItem_eq_ok {n : Nat} {d d' : Dict P.equal Value} {kv : Value × Value} :
    (do P.setItem d (← canonicalize P n kv.1) (← canonicalize P n kv.2)) = .ok d' ↔
      ∃ c, Item P n kv c ∧ c.1.hashable = true ∧ d.set c.1 c.2 = d' := by
  rw [bind_eq_ok]
  constructor
  · rintro ⟨k, hk, h⟩
    obtain ⟨v, hv, h⟩ := bind_eq_ok.mp h
    unfold Prims.setItem at h
    split at h
    · exact ⟨(k, v), ⟨hk, hv⟩, ‹_›, Except.ok.inj h⟩
    · cases h
  · rintro ⟨c, ⟨hk, hv⟩, hc, rfl⟩
    exact ⟨c.1, hk, bind_eq_ok.mpr ⟨c.2, hv, if_pos hc⟩⟩

theorem foldlM_of_items {n : Nat} {kvs cs : List (Value × Value)} (h : List.Forall₂ (Item P n) kvs cs)
    {d : Dict P.equal Value} (hhash : ∀ c ∈ cs, c.1.hashable = true) (hne : Dict.Distinct P.equal (d.items ++ cs)) :
    ∃ d', kvs.foldlM (fun d kv => do P.setItem d (← canonicalize P n kv.1) (← canonicalize P n kv.2)) d = .ok d' ∧
      d'.items = d.items ++ cs := by
  induction h generalizing d with
  | nil => exact ⟨d, rfl, (List.append_nil _).symm⟩
  | @cons kv c kvs cs hkv _ ih =>
    rw [List.forall_mem_cons] at hhash
    have hfresh : ∀ x ∈ d.items, P.equal x.1 c.1 = false := by
      intro x hx
      rw [Dict.Distinct, List.map_append, List.pairwise_append] at hne
      exact hne.2.2 x.1 (List.mem_map_of_mem hx) c.1 (by simp)
    have hset : (d.set c.1 c.2).items = d.items ++ [c] := Dict.insert_fresh hfresh
    rw [← List.singleton_append, ← List.append_assoc, ← hset] at hne
    obtain ⟨d', hd', hitems⟩ := ih hhash.2 hne
    refine ⟨d', ?_, by rw [hitems, hset, List.append_assoc, List.singleton_append]⟩
    rw [List.foldlM_cons, setItem_eq_ok.mpr ⟨c, hkv, hhash.1, rfl⟩]
    exact hd'

/-- The canonical form of a dict whose parts have one. -/
theorem canonicalize_dict {n : Nat} {kvs cs : List (Value × Value)} (h : List.Forall₂ (Item P n) kvs cs)
    (hhash : ∀ c ∈ cs, c.1.hashable = true) (hne : Dict.Distinct P.equal cs) :
    canonicalize P (n + 1) (.dict kvs) = .ok (.dict cs) := by
  obtain ⟨d, hd, hitems⟩ := foldlM_of_items h (d := .empty) hhash hne
  exact bind_eq_ok.mpr ⟨d, hd, congrArg (fun cs => Except.ok (Value.dict cs)) hitems⟩

/-- The parts of a dict whose items were set. -/
theorem items_of_foldlM {n : Nat} {kvs : List (Value × Value)} {d d' : Dict P.equal Value}
    (h : kvs.foldlM (fun d kv => do P.setItem d (← canonicalize P n kv.1) (← canonicalize P n kv.2)) d = .ok d') :
    ∀ kv ∈ kvs, ∃ c, Item P n kv c ∧ c.1.hashable = true := by
  induction kvs generalizing d with
  | nil => simp
  | cons kv kvs ih =>
    rw [List.foldlM_cons] at h
    obtain ⟨d₁, hset, h⟩ := bind_eq_ok.mp h
    obtain ⟨c, hc, hhash, -⟩ := setItem_eq_ok.mp hset
    exact List.forall_mem_cons.mpr ⟨⟨c, hc, hhash⟩, ih h⟩

/-- What holds of the parts set holds of the items. -/
theorem forall_foldlM {Q R : Value → Prop} {n : Nat} {kvs : List (Value × Value)} {d d' : Dict P.equal Value}
    (h : kvs.foldlM (fun d kv => do P.setItem d (← canonicalize P n kv.1) (← canonicalize P n kv.2)) d = .ok d')
    (hd : ∀ i ∈ d.items, Q i.1 ∧ R i.2)
    (hset : ∀ kv ∈ kvs, ∀ c, Item P n kv c → c.1.hashable = true → Q c.1 ∧ R c.2) : ∀ i ∈ d'.items, Q i.1 ∧ R i.2 := by
  induction kvs generalizing d with
  | nil =>
    obtain rfl := Except.ok.inj h
    exact hd
  | cons kv kvs ih =>
    rw [List.foldlM_cons] at h
    rw [List.forall_mem_cons] at hset
    obtain ⟨d₁, hkv, h⟩ := bind_eq_ok.mp h
    obtain ⟨c, hc, hhash, rfl⟩ := setItem_eq_ok.mp hkv
    have hnew := hset.1 c hc hhash
    exact ih h (Dict.forall_insert hd hnew.1 hnew.2) hset.2

/-- What `_canonicalize` returns, and leaves as it is. -/
inductive Canonical (P : Prims) : Nat → Value → Prop
  | scalar {n : Nat} {v : Value} : v.scalar = true → Canonical P (n + 1) v
  | list {n : Nat} {xs : List Value} : (∀ x ∈ xs, Canonical P n x) → Canonical P (n + 1) (.list xs)
  | dict {n : Nat} {kvs : List (Value × Value)} : (∀ kv ∈ kvs, kv.1.hashable = true) → Dict.Distinct P.equal kvs →
      (∀ kv ∈ kvs, Canonical P n kv.1) → (∀ kv ∈ kvs, Canonical P n kv.2) → Canonical P (n + 1) (.dict kvs)

/-- An element with its sort key. -/
def SortKeyed (P : Prims) (c : Value) (k : Bytes × Value) : Prop := P.dumps c = .ok k.1 ∧ k.2 = c

theorem mapM_sortKey_eq_ok {cs : List Value} {keyed : List (Bytes × Value)} :
    (cs.mapM fun c => do pure (← sortKey P c, c)) = .ok keyed ↔ List.Forall₂ (SortKeyed P) cs keyed := by
  have hkey : ∀ c k, (do pure (← sortKey P c, c) : Except PyError (Bytes × Value)) = .ok k ↔ SortKeyed P c k := by
    intro c k
    rw [bind_eq_ok, SortKeyed]
    constructor
    · rintro ⟨b, hb, e⟩
      obtain rfl := Except.ok.inj e
      exact ⟨hb, rfl⟩
    · rintro ⟨hd, rfl⟩
      exact ⟨k.1, hd, rfl⟩
  simp only [mapM_eq_ok_iff, hkey]

theorem values_of_keyed {cs : List Value} {keyed : List (Bytes × Value)} (h : List.Forall₂ (SortKeyed P) cs keyed) :
    keyed.map Prod.snd = cs := by
  induction h with
  | nil => rfl
  | cons hk _ ih => rw [List.map_cons, hk.2, ih]

theorem sorted_eq_ok {cs s : List Value} : sorted P cs = .ok s ↔ ∃ keyed, List.Forall₂ (SortKeyed P) cs keyed ∧
    (keyed.insertionSort fun a b => a.1 ≤ b.1).map Prod.snd = s := by
  rw [sorted, bind_eq_ok]
  refine exists_congr fun keyed => ?_
  rw [mapM_sortKey_eq_ok]
  exact and_congr_right fun _ => ⟨Except.ok.inj, congrArg _⟩

/-- Sorting gives the same elements in some order. -/
theorem perm_of_sorted {cs s : List Value} (h : sorted P cs = .ok s) : s.Perm cs := by
  obtain ⟨keyed, hk, rfl⟩ := sorted_eq_ok.mp h
  exact values_of_keyed hk ▸ (List.perm_insertionSort _ keyed).map Prod.snd

theorem canonical_of_canonicalize {n : Nat} {v c : Value} (h : canonicalize P n v = .ok c) : Canonical P n c := by
  induction n generalizing v c with
  | zero => cases h
  | succ n ih =>
    have parts : ∀ {xs cs : List Value}, List.Forall₂ (fun x c => canonicalize P n x = .ok c) xs cs →
        ∀ c ∈ cs, Canonical P n c := by
      intro xs cs hcs c hc
      obtain ⟨x, -, hx⟩ := exists_of_forall₂ hcs hc
      exact ih hx
    obtain hv | ⟨xs, hv⟩ | ⟨xs, hv⟩ | ⟨kvs, rfl⟩ := kinds v
    · obtain rfl := Except.ok.inj ((canonicalize_scalar hv n).symm.trans h)
      exact .scalar hv
    · obtain ⟨cs, hcs, rfl⟩ := hv.canonicalize_eq_ok.mp h
      exact .list (parts hcs)
    · obtain ⟨cs, s, hcs, hs, rfl⟩ := hv.canonicalize_eq_ok.mp h
      exact .list fun x hx => parts hcs x ((perm_of_sorted hs).mem_iff.mp hx)
    · obtain ⟨d, hd, e⟩ := bind_eq_ok.mp h
      obtain rfl := Except.ok.inj e
      have hitems := forall_foldlM (Q := fun k => k.hashable = true ∧ Canonical P n k) (R := Canonical P n) hd (by simp)
        fun kv _ c hc hhash => ⟨⟨hhash, ih hc.1⟩, ih hc.2⟩
      exact .dict (fun i hi => (hitems i hi).1.1) d.distinct (fun i hi => (hitems i hi).1.2) fun i hi => (hitems i hi).2

/-- The canonical form of a value with parts is a list or a dict. -/
theorem form_of_canonicalize {n : Nat} {v c : Value} (h : canonicalize P n v = .ok c) :
    (v.scalar = true ∧ v = c) ∨ (∃ cs, c = .list cs) ∨ ∃ cs, c = .dict cs := by
  cases n with
  | zero => cases h
  | succ n =>
    obtain hv | ⟨xs, hv⟩ | ⟨xs, hv⟩ | ⟨kvs, rfl⟩ := kinds v
    · exact .inl ⟨hv, Except.ok.inj ((canonicalize_scalar hv n).symm.trans h)⟩
    · obtain ⟨cs, -, rfl⟩ := hv.canonicalize_eq_ok.mp h
      exact .inr (.inl ⟨cs, rfl⟩)
    · obtain ⟨cs, s, -, -, rfl⟩ := hv.canonicalize_eq_ok.mp h
      exact .inr (.inl ⟨s, rfl⟩)
    · obtain ⟨d, -, e⟩ := bind_eq_ok.mp h
      exact .inr (.inr ⟨d.items, (Except.ok.inj e).symm⟩)

theorem canonicalize_canonical {n : Nat} {v : Value} (h : Canonical P n v) : canonicalize P n v = .ok v := by
  induction h with
  | scalar hv => exact canonicalize_scalar hv _
  | list _ ih => exact (IsSeq.canonicalize_eq_ok (.inl rfl)).mpr ⟨_, List.forall₂_same.mpr ih, rfl⟩
  | dict hhash hne _ _ ihk ihv =>
    exact canonicalize_dict (List.forall₂_same.mpr fun kv hkv => ⟨ihk kv hkv, ihv kv hkv⟩) hhash hne

/-! ## Values that are the same -/

/-- A value without parts is the same as itself only. -/
theorem same_scalar {v w : Value} (hv : v.scalar = true) (h : Value.Same v w) : w = v := by
  cases h with
  | refl => rfl
  | list => cases hv
  | dict => cases hv

theorem distinct_perm {kvs kvs' : List (Value × Value)} (h : Dict.Distinct P.equal kvs) (hp : kvs.Perm kvs') :
    Dict.Distinct P.equal kvs' :=
  ((hp.map Prod.fst).pairwise_iff fun {a b} hab => by rwa [P.equal_comm]).mp h

/-- Filled in another order, a canonical form is one. -/
theorem Canonical.same {n : Nat} {v w : Value} (h : Canonical P n v) (hs : Value.Same v w) : Canonical P n w := by
  induction h generalizing w with
  | scalar hv =>
    obtain rfl := same_scalar hv hs
    exact .scalar hv
  | list hxs ih =>
    cases hs with
    | refl => exact .list hxs
    | list h =>
      refine .list fun y hy => ?_
      obtain ⟨x, hx, hxy⟩ := exists_of_forall₂ h hy
      exact ih x hx hxy
  | dict hhash hne hks hvs _ ihv =>
    cases hs with
    | refl => exact .dict hhash hne hks hvs
    | @dict _ kvs' kws hp hkeys hvals =>
      have key : ∀ kw ∈ kws, ∃ kv ∈ kvs', kv.1 = kw.1 := fun kw hkw =>
        List.mem_map.mp (hkeys ▸ List.mem_map_of_mem hkw)
      refine .dict (fun kw hkw => ?_) ?_ (fun kw hkw => ?_) fun kw hkw => ?_
      · obtain ⟨kv, hkv, e⟩ := key kw hkw
        exact e ▸ hhash kv (hp.mem_iff.mpr hkv)
      · rw [Dict.Distinct, ← hkeys]
        exact distinct_perm hne hp
      · obtain ⟨kv, hkv, e⟩ := key kw hkw
        exact e ▸ hks kv (hp.mem_iff.mpr hkv)
      · obtain ⟨v, hv, hsame⟩ := exists_of_forall₂ hvals (List.mem_map_of_mem hkw)
        obtain ⟨kv, hkv, rfl⟩ := List.mem_map.mp hv
        exact ihv kv (hp.mem_iff.mpr hkv) hsame

/-- Lists of values without parts, at any depth: what is read back of them is what was written. -/
inductive Flat : Value → Prop
  | scalar {v : Value} : v.scalar = true → Flat v
  | list {xs : List Value} : (∀ x ∈ xs, Flat x) → Flat (.list xs)

theorem Flat.of_scalars {xs : List Value} (h : ∀ x ∈ xs, x.scalar = true) : Flat (.list xs) :=
  .list fun x hx => .scalar (h x hx)

theorem Flat.same {v w : Value} (h : Flat v) (hs : Value.Same v w) : w = v := by
  induction h generalizing w with
  | scalar hv => exact same_scalar hv hs
  | list _ ih =>
    cases hs with
    | refl => rfl
    | list h => rw [eq_of_forall₂ h fun x hx _ => ih x hx]

theorem Flat.canonicalize_eq {v : Value} (h : Flat v) {n : Nat} {c : Value} (hc : canonicalize P n v = .ok c) :
    c = v := by
  induction h generalizing n c with
  | scalar hv => cases n with
    | zero => cases hc
    | succ n => exact Except.ok.inj (hc.symm.trans (canonicalize_scalar hv n))
  | list _ ih => cases n with
    | zero => cases hc
    | succ n =>
      obtain ⟨cs, hcs, rfl⟩ := (IsSeq.canonicalize_eq_ok (.inl rfl)).mp hc
      rw [eq_of_forall₂ hcs fun x hx _ => ih x hx]

/-- Values without parts and lists of them have a canonical form. -/
theorem canonicalize_scalars {n : Nat} (hn : 2 ≤ n) {xs : List Value} (h : ∀ x ∈ xs, x.scalar = true) :
    canonicalize P n (.list xs) = .ok (.list xs) := by
  obtain ⟨n, rfl⟩ := Nat.exists_eq_add_of_le' hn
  exact canonicalize_canonical (.list fun x hx => .scalar (h x hx))

/-- A key that a dict holds once has the same value in a dict that is the same. -/
theorem getItem_same {kvs : List (Value × Value)} {w : Value} (h : Value.Same (.dict kvs) w) {s : String} {v : Value}
    (hv : ∀ kv ∈ kvs, kv.1.isStr s = true → kv.2 = v) (hs : ∃ kv ∈ kvs, kv.1.isStr s = true) :
    ∃ v', w.getItem s = .ok v' ∧ Value.Same v v' := by
  have found : ∀ kvs' : List (Value × Value), (∀ kv ∈ kvs', kv.1.isStr s = true → Value.Same v kv.2) →
      (∃ kv ∈ kvs', kv.1.isStr s = true) → ∃ v', (Value.dict kvs').getItem s = .ok v' ∧ Value.Same v v' := by
    rintro kvs' hv' ⟨kv, hkv, hk⟩
    have hf : (kvs'.find? fun kv => kv.1.isStr s).isSome := List.find?_isSome.mpr ⟨kv, hkv, hk⟩
    obtain ⟨kv', hf⟩ := Option.isSome_iff_exists.mp hf
    have hk' := List.find?_some hf
    refine ⟨kv'.2, ?_, hv' kv' (List.mem_of_find?_eq_some hf) hk'⟩
    simp only [Value.getItem, hf]
  cases h with
  | refl => exact found kvs (fun kv hkv hk => hv kv hkv hk ▸ .refl _) hs
  | @dict _ kvs' kvs'' hp hkeys hvals =>
    have hv' : ∀ kv ∈ kvs', kv.1.isStr s = true → kv.2 = v := fun kv hkv => hv kv (hp.mem_iff.mpr hkv)
    have hs' : ∃ kv ∈ kvs', kv.1.isStr s = true := by
      obtain ⟨kv, hkv, hk⟩ := hs
      exact ⟨kv, hp.mem_iff.mp hkv, hk⟩
    have hlen : kvs'.length = kvs''.length := by simpa using congrArg List.length hkeys
    have pair : ∀ i (h' : i < kvs'.length) (h'' : i < kvs''.length),
        kvs'[i].1 = kvs''[i].1 ∧ Value.Same kvs'[i].2 kvs''[i].2 := by
      intro i h' h''
      refine ⟨?_, ?_⟩
      · have := List.getElem_of_eq hkeys (i := i) (by simpa using h')
        simpa using this
      · have := hvals.get (i := i) (by simpa using h') (by simpa using h'')
        simpa using this
    refine found kvs'' (fun kv hkv hk => ?_) ?_
    · obtain ⟨i, hi, rfl⟩ := List.mem_iff_getElem.mp hkv
      obtain ⟨h₁, h₂⟩ := pair i (hlen ▸ hi) hi
      rw [← h₁] at hk
      exact hv' _ (List.getElem_mem _) hk ▸ h₂
    · obtain ⟨kv, hkv, hk⟩ := hs'
      obtain ⟨i, hi, rfl⟩ := List.mem_iff_getElem.mp hkv
      obtain ⟨h₁, -⟩ := pair i hi (hlen ▸ hi)
      exact ⟨_, List.getElem_mem (hlen ▸ hi), h₁ ▸ hk⟩

/-- A key that a dict does not hold is not in a dict that is the same. -/
theorem getItem_same_missing {kvs : List (Value × Value)} {w : Value} (h : Value.Same (.dict kvs) w) {s : String}
    (hs : ∀ kv ∈ kvs, kv.1.isStr s = false) : w.getItem s = .error .keyError := by
  have missing : ∀ kvs' : List (Value × Value), (∀ k ∈ kvs'.map Prod.fst, k ∈ kvs.map Prod.fst) →
      (Value.dict kvs').getItem s = .error .keyError := by
    intro kvs' hk
    have hnone : kvs'.find? (fun kv => kv.1.isStr s) = none := by
      rw [List.find?_eq_none]
      intro kv hkv
      obtain ⟨kv', hkv', e⟩ := List.mem_map.mp (hk _ (List.mem_map_of_mem hkv))
      rw [← e, hs kv' hkv']
      decide
    simp only [Value.getItem, hnone]
  cases h with
  | refl => exact missing kvs fun _ hk => hk
  | dict hp hkeys _ => exact missing _ fun k hk => (hp.map _).mem_iff.mpr (hkeys ▸ hk)

/-! ## What is read back -/

/-- `w` is what can be read back of `v`: the same as its canonical form. -/
def Restored (P : Prims) (v w : Value) : Prop := ∃ n c, canonicalize P n v = .ok c ∧ Value.Same c w

theorem Flat.restored {v w : Value} (h : Flat v) (hr : Restored P v w) : w = v := by
  obtain ⟨n, c, hc, hs⟩ := hr
  obtain rfl := h.canonicalize_eq hc
  exact h.same hs

theorem restored_scalar {v w : Value} (hv : v.scalar = true) (h : Restored P v w) : w = v :=
  Flat.restored (.scalar hv) h

/-- What is read back as a value without parts was written as that value. -/
theorem eq_of_restored {v w : Value} (hw : w.scalar = true) (h : Restored P v w) : v = w := by
  obtain ⟨n, c, hc, hs⟩ := h
  obtain rfl : c = w := by
    cases hs with
    | refl => rfl
    | list => cases hw
    | dict => cases hw
  obtain ⟨-, rfl⟩ | ⟨cs, rfl⟩ | ⟨cs, rfl⟩ := form_of_canonicalize hc
  · rfl
  · cases hw
  · cases hw

/-- What is written is read back. -/
theorem encode_loads (hc : P.CborLaws) {v : Value} {b : Bytes} (h : P.canonicalEncode v = .ok b) :
    ∃ w, P.loads b = .ok w ∧ Restored P v w := by
  obtain ⟨c, hcan, hb⟩ := bind_eq_ok.mp h
  obtain ⟨w, hw, hs⟩ := hc.loads_dumps hcan hb
  exact ⟨w, hw, _, c, hcan, hs⟩

/-- A canonical form that CBOR has a form for is encoded. -/
theorem exists_encode_canonical (hd : P.CborDefined) {v : Value} (h : Canonical P P.recursionLimit v) (hp : v.Plain) :
    ∃ b, P.canonicalEncode v = .ok b := by
  have hcan := canonicalize_canonical h
  obtain ⟨b, hb⟩ := hd.dumps le_rfl hcan hp
  exact ⟨b, bind_eq_ok.mpr ⟨v, hcan, hb⟩⟩

/-- What is read back of a canonical form has its bytes. -/
theorem encode_same (hc : P.CborLaws) {v c w : Value} {b : Bytes} (h : canonicalize P P.recursionLimit v = .ok c)
    (hb : P.dumps c = .ok b) (hs : Value.Same c w) : P.canonicalEncode w = .ok b := by
  refine bind_eq_ok.mpr ⟨w, canonicalize_canonical ((canonical_of_canonicalize h).same hs), ?_⟩
  rw [← hc.dumps_same hs, hb]

/-- A field of a record and the field of its canonical form. -/
def Field (P : Prims) (n : Nat) (f c : String × Value) : Prop := c.1 = f.1 ∧ canonicalize P n f.2 = .ok c.2

theorem keys_of_fields {n : Nat} {fields cs : List (String × Value)} (h : List.Forall₂ (Field P n) fields cs) :
    cs.map Prod.fst = fields.map Prod.fst := by
  induction h with
  | nil => rfl
  | cons hf _ ih => rw [List.map_cons, List.map_cons, hf.1, ih]

theorem distinct_record {fields : List (String × Value)} (h : (fields.map Prod.fst).Nodup) :
    Dict.Distinct P.equal (fields.map fun f => (Value.str f.1, f.2)) := by
  rw [Dict.Distinct, List.map_map, List.pairwise_map]
  rw [List.nodup_iff_pairwise_ne, List.pairwise_map] at h
  exact h.imp fun hab => beq_eq_false_iff_ne.mpr hab

/-- The canonical form of a record has the fields in the same order. -/
theorem canonicalize_record {n : Nat} {fields : List (String × Value)} (hne : (fields.map Prod.fst).Nodup) {c : Value}
    (h : canonicalize P n (Value.record fields) = .ok c) :
    ∃ k cs, List.Forall₂ (Field P k) fields cs ∧ c = Value.record cs := by
  cases n with
  | zero => cases h
  | succ n =>
    obtain ⟨d, hd, -⟩ := bind_eq_ok.mp h
    obtain ⟨cs, hcs⟩ := forall₂_of_exists (l := fields) (R := Field P n) fun f hf => by
      obtain ⟨c, hc, -⟩ := items_of_foldlM hd _ (List.mem_map_of_mem hf)
      exact ⟨(f.1, c.2), rfl, hc.2⟩
    refine ⟨n, cs, hcs, Except.ok.inj (h.symm.trans (canonicalize_dict ?_ ?_ ?_))⟩
    · refine List.forall₂_map_left_iff.mpr (List.forall₂_map_right_iff.mpr (hcs.imp fun f c hc => ⟨?_, hc.2⟩))
      cases n with
      | zero => cases hc.2
      | succ n => rw [hc.1, canonicalize_scalar rfl]
    · exact List.forall_mem_map.mpr fun _ _ => rfl
    · exact distinct_record (keys_of_fields hcs ▸ hne)

/-- A record read back: its fields are there, restored, and no others. -/
structure RecordRead (P : Prims) (fields read : List (String × Value)) (w : Value) : Prop where
  restored : List.Forall₂ (fun f r => r.1 = f.1 ∧ Restored P f.2 r.2) fields read
  getItem : ∀ r ∈ read, w.getItem r.1 = .ok r.2
  missing : ∀ s, s ∉ fields.map Prod.fst → w.getItem s = .error .keyError

/-- The fields of a dict that is the same as a canonical form of the fields. -/
theorem recordRead_of_same {k : Nat} {fields cs : List (String × Value)} (hne : (fields.map Prod.fst).Nodup)
    (hcs : List.Forall₂ (Field P k) fields cs) {w : Value} (hs : Value.Same (Value.record cs) w) :
    ∃ read, RecordRead P fields read w ∧ Value.Same (Value.record cs) (Value.record read) := by
  have hkeys := keys_of_fields hcs
  have hitem : ∀ c ∈ cs, ∃ r : String × Value, r.1 = c.1 ∧ w.getItem r.1 = .ok r.2 ∧ Value.Same c.2 r.2 := by
    intro c hc
    have honce : ∀ kv ∈ cs.map fun f => (Value.str f.1, f.2), kv.1.isStr c.1 = true → kv.2 = c.2 := by
      rw [List.forall_mem_map]
      intro c' hc' hk
      rw [← hkeys] at hne
      exact congrArg Prod.snd (List.inj_on_of_nodup_map hne hc' hc (of_decide_eq_true hk))
    obtain ⟨v, hv, hsame⟩ := getItem_same hs honce ⟨_, List.mem_map_of_mem hc, beq_self_eq_true c.1⟩
    exact ⟨(c.1, v), rfl, hv, hsame⟩
  obtain ⟨read, hread⟩ := forall₂_of_exists hitem
  refine ⟨read, ⟨?_, fun r hr => ?_, fun s hs' => ?_⟩, ?_⟩
  · clear hs hne hkeys hitem
    induction hread generalizing fields with
    | nil =>
      obtain rfl := List.forall₂_nil_right_iff.mp hcs
      exact .nil
    | cons hr _ ih =>
      obtain ⟨f, fields, hf, hrest, rfl⟩ := List.forall₂_cons_right_iff.mp hcs
      exact .cons ⟨hr.1.trans hf.1, k, _, hf.2, hr.2.2⟩ (ih hrest)
  · obtain ⟨c, -, hr⟩ := exists_of_forall₂ hread hr
    exact hr.2.1
  · refine getItem_same_missing hs (List.forall_mem_map.mpr fun c hc => ?_)
    refine beq_eq_false_iff_ne.mpr fun e => hs' ?_
    rw [← hkeys, ← e]
    exact List.mem_map_of_mem hc
  · refine .dict (.refl _) ?_ ?_
    · clear hs hne hkeys hitem hcs
      induction hread with
      | nil => rfl
      | cons hr _ ih => rw [List.map_cons, List.map_cons, List.map_cons, List.map_cons, ih, hr.1]
    · simp only [List.forall₂_map_left_iff, List.forall₂_map_right_iff]
      exact hread.imp fun _ _ hr => hr.2.2

/-- What is written of a record is read back, and has the same bytes again. -/
theorem record_loads (hc : P.CborLaws) (fields : List (String × Value)) (hne : (fields.map Prod.fst).Nodup) {b : Bytes}
    (h : P.canonicalEncode (Value.record fields) = .ok b) : ∃ w read, P.loads b = .ok w ∧
      RecordRead P fields read w ∧ P.canonicalEncode (Value.record read) = .ok b := by
  obtain ⟨c, hcan, hb⟩ := bind_eq_ok.mp h
  obtain ⟨w, hw, hs⟩ := hc.loads_dumps hcan hb
  obtain ⟨k, cs, hcs, rfl⟩ := canonicalize_record hne hcan
  obtain ⟨read, hread, hsame⟩ := recordRead_of_same hne hcs hs
  exact ⟨w, read, hw, hread, encode_same hc hcan hb hsame⟩

/-- The fields of a record one by one. -/
theorem restored_cons {s : String} {v : Value} {fields read : List (String × Value)}
    (h : List.Forall₂ (fun f r : String × Value => r.1 = f.1 ∧ Restored P f.2 r.2) ((s, v) :: fields) read) :
    ∃ v' rest, Restored P v v' ∧ List.Forall₂ (fun f r => r.1 = f.1 ∧ Restored P f.2 r.2) fields rest ∧
      read = (s, v') :: rest := by
  obtain ⟨⟨s', v'⟩, rest, ⟨hs, hv⟩, hrest, rfl⟩ := List.forall₂_cons_left_iff.mp h
  obtain rfl : s' = s := hs
  exact ⟨v', rest, hv, hrest, rfl⟩

/-! ## Signed messages -/

/-- An integer of 64 bits has a form. -/
theorem plain_int {n : Int} (h₀ : -2 ^ 63 ≤ n) (h₁ : n < 2 ^ 63) : (Value.int n).Plain := by
  have hsize : Value.argument n < 256 ^ 8 := by
    cases n with
    | ofNat n =>
      rw [Int.ofNat_eq_natCast] at h₁
      show n < 256 ^ 8
      omega
    | negSucc n =>
      show n < 256 ^ 8
      omega
  have hlen := (Nat.digits_length_le_iff (by decide) _).mpr hsize
  exact .int (by omega)

/-- What is signed says which entry it is about. -/
theorem signatureMessage_inj (hc : P.CborLaws) {seq seq' t t' : Int} {pub pub' message : Bytes} {eh eh' ph ph' : Hash}
    (h : AppendLog.signatureMessage P seq t pub eh ph = .ok message)
    (h' : AppendLog.signatureMessage P seq' t' pub' eh' ph' = .ok message) :
    seq = seq' ∧ t = t' ∧ pub = pub' ∧ eh = eh' ∧ ph = ph' := by
  obtain ⟨w, hw, hr⟩ := encode_loads hc h
  obtain ⟨w', hw', hr'⟩ := encode_loads hc h'
  rw [hw, Except.ok.injEq] at hw'
  have e := (Flat.of_scalars (by simp [Value.scalar])).restored hr
  have e' := (Flat.of_scalars (by simp [Value.scalar])).restored hr'
  rw [← hw', e] at e'
  simp only [Value.list.injEq, List.cons.injEq, Value.int.injEq, Value.bytes.injEq, Hash.raw_inj, and_true] at e'
  exact e'

/-! ## Rosters -/

/-- The version-1 format of a list of bindings. -/
def rosterFormat (bindings : List (String × Bytes)) : Value :=
  .dict [
    (.str "version", .int 1),
    (.str "bindings", .list (bindings.map fun e => .list [.str e.1, .bytes e.2]))]

theorem flat_bindings (bindings : List (String × Bytes)) :
    Flat (.list (bindings.map fun e => .list [.str e.1, .bytes e.2])) :=
  .list (List.forall_mem_map.mpr fun _ _ => .of_scalars (by simp [Value.scalar]))

/-- What decodes from the format lists the same bindings. -/
theorem rosterFormat_loads (hc : P.CborLaws) {bs : List (String × Bytes)} {data : Bytes}
    (h : P.canonicalEncode (rosterFormat bs) = .ok data) : ∃ w, P.loads data = .ok w ∧
      w.getItem "bindings" = .ok (.list (bs.map fun e => .list [.str e.1, .bytes e.2])) := by
  obtain ⟨w, _, hw, hread, -⟩ := record_loads hc [("version", .int 1), ("bindings", _)] (by simp) h
  obtain ⟨_, _, -, r₁, rfl⟩ := restored_cons hread.restored
  obtain ⟨v, _, hv, -, rfl⟩ := restored_cons r₁
  obtain rfl := (flat_bindings bs).restored hv
  exact ⟨w, hw, hread.getItem ("bindings", _) (by simp)⟩

theorem rosterFormat_inj (hc : P.CborLaws) {bs bs' : List (String × Bytes)} {data : Bytes}
    (h : P.canonicalEncode (rosterFormat bs) = .ok data) (h' : P.canonicalEncode (rosterFormat bs') = .ok data) :
    bs = bs' := by
  obtain ⟨w, hw, hb⟩ := rosterFormat_loads hc h
  obtain ⟨w', hw', hb'⟩ := rosterFormat_loads hc h'
  rw [hw, Except.ok.injEq] at hw'
  subst hw'
  rw [hb, Except.ok.injEq, Value.list.injEq] at hb'
  have hinj : Function.Injective fun e : String × Bytes => Value.list [.str e.1, .bytes e.2] := by
    intro a b hab
    simp only [Value.list.injEq, List.cons.injEq, Value.str.injEq, Value.bytes.injEq, and_true] at hab
    exact Prod.ext hab.1 hab.2
  exact hinj.list_map hb'

/-- The bytes of a roster say which roster it is. -/
theorem rosterBytes_inj (hc : P.CborLaws) {r r' : Roster} {data : Bytes} (h : r.rosterBytes P = .ok data)
    (h' : r'.rosterBytes P = .ok data) : r = r' := by
  have e : r.entries = r'.entries := rosterFormat_inj hc h h'
  obtain ⟨entries, _, _, _⟩ := r
  obtain ⟨entries', _, _, _⟩ := r'
  obtain rfl : entries = entries' := e
  rfl

/-! ## Nodes -/

/-- The same fields, restored. -/
structure NodeSame (P : Prims) (n n' : Node) : Prop where
  claim : Restored P n.claim n'.claim
  domain : Restored P n.domain n'.domain
  polarity : Restored P n.polarity n'.polarity

/-- What decodes from the bytes of a node. -/
theorem node_loads (hc : P.CborLaws) {n : Node} {b : Bytes} (h : n.nodeBytes P = .ok b) :
    ∃ w n', P.loads b = .ok w ∧ Node.ofValue w = .ok n' ∧ NodeSame P n n' ∧ n'.nodeBytes P = .ok b ∧
      w.getItem "type" = .error .keyError := by
  obtain ⟨w, _, hw, hread, hb⟩ := record_loads hc
    [("claim", n.claim), ("domain", n.domain), ("polarity", n.polarity)] (by simp) h
  obtain ⟨claim, _, hclaim, r₁, rfl⟩ := restored_cons hread.restored
  obtain ⟨domain, _, hdomain, r₂, rfl⟩ := restored_cons r₁
  obtain ⟨polarity, _, hpolarity, r₃, rfl⟩ := restored_cons r₂
  obtain rfl := List.forall₂_nil_left_iff.mp r₃
  refine ⟨w, ⟨claim, domain, polarity⟩, hw, ?_, ⟨hclaim, hdomain, hpolarity⟩, hb, hread.missing _ (by simp)⟩
  simp only [Node.ofValue, hread.getItem ("claim", claim) (by simp), hread.getItem ("domain", domain) (by simp),
    hread.getItem ("polarity", polarity) (by simp)]
  rfl

/-- A node is read back from its bytes, and has the same bytes again. -/
theorem node_fromBytes (hc : P.CborLaws) {n : Node} {b : Bytes} (h : n.nodeBytes P = .ok b) :
    ∃ n', Node.fromBytes P b = .ok n' ∧ NodeSame P n n' ∧ n'.nodeBytes P = .ok b := by
  obtain ⟨w, n', hw, hn', hsame, hb, -⟩ := node_loads hc h
  exact ⟨n', bind_eq_ok.mpr ⟨w, hw, hn'⟩, hsame, hb⟩

/-! ## Edges -/

/-- The same fields, and the two that are unchecked restored. -/
structure EdgeSame (P : Prims) (e e' : Edge) : Prop where
  type : e'.type = e.type
  premises : e'.premises = e.premises
  conclusion : e'.conclusion = e.conclusion
  rule : Restored P e.rule e'.rule
  proofHash : e'.proofHash = e.proofHash
  verdict : e'.verdict = e.verdict
  kappa : e'.kappa = e.kappa
  signerPubkey : Restored P e.signerPubkey e'.signerPubkey

theorem hash_ofValue_bytes (h : Hash) : Hash.ofValue (.bytes h.raw) = .ok h := by
  simp [Hash.ofValue, Value.len, Value.toBytes, h.size, bind, Except.bind, Hash.new_raw]

theorem mapM_ofValue (hs : List Hash) : (hs.map fun p => Value.bytes p.raw).mapM Hash.ofValue = .ok hs := by
  rw [List.mapM_map]
  exact (mapM_eq_ok fun p _ => hash_ofValue_bytes p).trans (congrArg Except.ok (List.map_id hs))

theorem edgeType_ofValue (t : EdgeType) : EdgeType.ofValue (.str t.value) = .ok t := by cases t <;> decide

theorem verdict_ofValue (v : Verdict) : Verdict.ofValue (.str v.value) = .ok v := by cases v <;> decide

theorem kappa_ofValue (k : Kappa) : Kappa.ofValue (.str k.value) = .ok k := by cases k <;> decide

theorem scalar_proofHash (h : Option Hash) : (Edge.proofHashValue h).scalar = true := by cases h <;> rfl

theorem proofHash_ofValue (h : Option Hash) :
    Edge.proofHashOfValue (Edge.proofHashValue h) = .ok h := by
  cases h with
  | none => rfl
  | some h =>
    rw [Edge.proofHashValue, Edge.proofHashOfValue, hash_ofValue_bytes]
    · rfl
    · simp

/-- What decodes from the bytes of an edge. -/
theorem edge_loads (hc : P.CborLaws) {e : Edge} {b : Bytes} (h : e.edgeBytes P = .ok b) :
    ∃ w e', P.loads b = .ok w ∧ Edge.ofValue w = .ok e' ∧ EdgeSame P e e' ∧ e'.edgeBytes P = .ok b ∧
      w.getItem "claim" = .error .keyError := by
  obtain ⟨w, _, hw, hread, hb⟩ := record_loads hc [
    ("type", .str e.type.value),
    ("premises", .list (e.premises.map fun p : Hash => .bytes p.raw)),
    ("conclusion", .bytes e.conclusion.raw),
    ("rule", e.rule),
    ("proof_hash", Edge.proofHashValue e.proofHash),
    ("verdict", .str e.verdict.value),
    ("kappa", .str e.kappa.value),
    ("signer_pubkey", e.signerPubkey)] (by simp) h
  obtain ⟨_, _, h₁, r₁, rfl⟩ := restored_cons hread.restored
  obtain ⟨_, _, h₂, r₂, rfl⟩ := restored_cons r₁
  obtain ⟨_, _, h₃, r₃, rfl⟩ := restored_cons r₂
  obtain ⟨rule, _, hrule, r₄, rfl⟩ := restored_cons r₃
  obtain ⟨_, _, h₅, r₅, rfl⟩ := restored_cons r₄
  obtain ⟨_, _, h₆, r₆, rfl⟩ := restored_cons r₅
  obtain ⟨_, _, h₇, r₇, rfl⟩ := restored_cons r₆
  obtain ⟨signer, _, hsigner, r₈, rfl⟩ := restored_cons r₇
  obtain rfl := List.forall₂_nil_left_iff.mp r₈
  obtain rfl := restored_scalar rfl h₁
  obtain rfl := (Flat.of_scalars (List.forall_mem_map.mpr fun _ _ => rfl)).restored h₂
  obtain rfl := restored_scalar rfl h₃
  obtain rfl := restored_scalar (scalar_proofHash e.proofHash) h₅
  obtain rfl := restored_scalar rfl h₆
  obtain rfl := restored_scalar rfl h₇
  have hget := hread.getItem
  simp only [List.forall_mem_cons] at hget
  obtain ⟨g₁, g₂, g₃, g₄, g₅, g₆, g₇, g₈, -⟩ := hget
  refine ⟨w, { e with rule, signerPubkey := signer }, hw, ?_, ⟨rfl, rfl, rfl, hrule, rfl, rfl, rfl, hsigner⟩, hb,
    hread.missing _ (by simp)⟩
  simp only [Edge.ofValue, g₁, g₂, g₃, g₄, g₅, g₆, g₇, g₈, bind, Except.bind, pure, Except.pure, Value.iter,
    mapM_ofValue, edgeType_ofValue, verdict_ofValue, kappa_ofValue, proofHash_ofValue, hash_ofValue_bytes]

/-- An edge is read back from its bytes, and has the same bytes again. -/
theorem edge_fromBytes (hc : P.CborLaws) {e : Edge} {b : Bytes} (h : e.edgeBytes P = .ok b) :
    ∃ e', Edge.fromBytes P b = .ok e' ∧ EdgeSame P e e' ∧ e'.edgeBytes P = .ok b := by
  obtain ⟨w, e', hw, he', hsame, hb, -⟩ := edge_loads hc h
  exact ⟨e', bind_eq_ok.mpr ⟨w, hw, he'⟩, hsame, hb⟩

/-! ## Nodes are no edges -/

/-- The bytes of a node do not decode to an edge: they have no `type`. -/
theorem node_not_edge (hc : P.CborLaws) {n : Node} {b : Bytes} (h : n.nodeBytes P = .ok b) (e : Edge) :
    Edge.fromBytes P b ≠ .ok e := by
  intro he
  obtain ⟨w, _, hw, -, -, -, hmissing⟩ := node_loads hc h
  obtain ⟨w', hw', he⟩ := bind_eq_ok.mp he
  rw [Prims.canonicalDecode, hw, Except.ok.injEq] at hw'
  rw [← hw', Edge.ofValue, hmissing] at he
  cases he

/-- The bytes of an edge do not decode to a node: they have no `claim`. -/
theorem edge_not_node (hc : P.CborLaws) {e : Edge} {b : Bytes} (h : e.edgeBytes P = .ok b) (n : Node) :
    Node.fromBytes P b ≠ .ok n := by
  intro hn
  obtain ⟨w, _, hw, -, -, -, hmissing⟩ := edge_loads hc h
  obtain ⟨w', hw', hn⟩ := bind_eq_ok.mp hn
  rw [Prims.canonicalDecode, hw, Except.ok.injEq] at hw'
  rw [← hw', Node.ofValue, hmissing] at hn
  cases hn

end ArxDB.Proof
