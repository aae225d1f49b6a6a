import ArxDB.Proof.Encoding
import ArxDB.Reference.Prims

/-!
# The canonical encoding does not depend on the representation

`Alike` is equality up to the order of sets and dicts and to lists and
tuples. `canonicalize_same`: values that are the same have canonical forms
that are, so `canonical_encode` writes the same bytes. Elements of a set are
sorted by their encodings; they hold no dict, so an encoding stands for one of
them only (`dumps_flat_inj`) and the order of the iteration is lost
(`sorted_perm`).

A tuple or a frozenset becomes a list, which is no key of a dict, and every
level of nesting takes a call of its own: a value has an encoding exactly when
it is nested no deeper than the stack allows, all its dicts are keyed by values
without parts and all its texts have a UTF-8 form.
-/

namespace ArxDB.Proof

open Impl Reference

variable {P : Prims}

/-! ## Values -/

open Value (parts)

/-- The keys of a dict. -/
def keys : Value → List Value
  | .dict kvs => kvs.map Prod.fst
  | _ => []

/-- Elements of sets and keys of dicts are hashable, keys are different,
whatever has a length has one below `2 ^ 64`, and an `other` value is a text. -/
def WellBuilt (P : Prims) : Value → Prop
  | .list xs | .tuple xs => xs.length < 2 ^ 64
  | .set xs | .frozenset xs => xs.length < 2 ^ 64 ∧ ∀ x ∈ xs, x.hashable = true
  | .dict kvs => kvs.length < 2 ^ 64 ∧ (∀ kv ∈ kvs, kv.1.hashable = true) ∧ Dict.Distinct P.equal kvs
  | .other o => o.isText = true ∧ o.hashable = true
  | v => v.Plain

/-- Values built from `None`, booleans, integers, byte strings, texts, lists,
tuples, sets, frozensets and dicts, at any depth. -/
inductive Built (P : Prims) : Value → Prop
  | intro {v : Value} : WellBuilt P v → (∀ x ∈ parts v, Built P x) → Built P v

/-- Nested at most `n` deep. -/
inductive Nested : Nat → Value → Prop
  | intro {n : Nat} {v : Value} : (∀ x ∈ parts v, Nested n x) → Nested (n + 1) v

/-- No dict at any depth is keyed by a tuple or a frozenset. -/
inductive LeafKeys : Value → Prop
  | intro {v : Value} : (∀ k ∈ keys v, k.scalar = true) → (∀ x ∈ parts v, LeafKeys x) → LeafKeys v

/-- The same value up to the order in which dicts were filled, the order in
which sets are iterated, and lists for tuples, at any depth. -/
inductive Alike : Value → Value → Prop
  | refl (v : Value) : Alike v v
  | seq {v w : Value} {xs ys : List Value} : IsSeq v xs → IsSeq w ys → xs.length = ys.length →
      (∀ p ∈ xs.zip ys, Alike p.1 p.2) → Alike v w
  | set {xs xs' ys : List Value} : xs.Perm xs' → xs'.length = ys.length → (∀ p ∈ xs'.zip ys, Alike p.1 p.2) →
      Alike (.set xs) (.set ys)
  | frozenset {xs xs' ys : List Value} : xs.Perm xs' → xs'.length = ys.length → (∀ p ∈ xs'.zip ys, Alike p.1 p.2) →
      Alike (.frozenset xs) (.frozenset ys)
  | dict {kvs kvs' kws : List (Value × Value)} : kvs.Perm kvs' → kvs'.length = kws.length →
      (∀ p ∈ kvs'.zip kws, Alike p.1.1 p.2.1) → (∀ p ∈ kvs'.zip kws, Alike p.1.2 p.2.2) →
      Alike (.dict kvs) (.dict kws)

theorem Built.parts {v : Value} (h : Built P v) {x : Value} (hx : x ∈ parts v) : Built P x := by
  obtain ⟨-, hparts⟩ := h
  exact hparts x hx

theorem Utf8.part {v : Value} (h : v.Utf8) {x : Value} (hx : x ∈ parts v) : x.Utf8 := by
  obtain ⟨-, hparts⟩ := h
  exact hparts x hx

theorem utf8_str (s : String) : (Value.str s).Utf8 := .intro (by simp) (by simp [parts])

theorem parts_scalar {v : Value} (h : v.scalar = true) : parts v = [] := by
  cases v <;> first | rfl | cases h

theorem keys_scalar {v : Value} (h : v.scalar = true) : keys v = [] := by
  cases v <;> first | rfl | cases h

theorem IsSeq.parts_eq {v : Value} {xs : List Value} (h : IsSeq v xs) : parts v = xs := by
  obtain rfl | rfl := h <;> rfl

theorem IsSeq.keys_eq {v : Value} {xs : List Value} (h : IsSeq v xs) : keys v = [] := by
  obtain rfl | rfl := h <;> rfl

theorem IsSet.parts_eq {v : Value} {xs : List Value} (h : IsSet v xs) : parts v = xs := by
  obtain rfl | rfl := h <;> rfl

theorem IsSet.keys_eq {v : Value} {xs : List Value} (h : IsSet v xs) : keys v = [] := by
  obtain rfl | rfl := h <;> rfl

theorem key_mem_parts {kvs : List (Value × Value)} {kv : Value × Value} (h : kv ∈ kvs) :
    kv.1 ∈ parts (.dict kvs) ∧ kv.2 ∈ parts (.dict kvs) :=
  ⟨List.mem_append_left _ (List.mem_map_of_mem h), List.mem_append_right _ (List.mem_map_of_mem h)⟩

theorem forall_parts_dict {Q : Value → Prop} {kvs : List (Value × Value)} (h : ∀ kv ∈ kvs, Q kv.1 ∧ Q kv.2) :
    ∀ x ∈ parts (.dict kvs), Q x := by
  intro x hx
  obtain hx | hx := List.mem_append.mp hx
  · obtain ⟨kv, hkv, rfl⟩ := List.mem_map.mp hx
    exact (h kv hkv).1
  · obtain ⟨kv, hkv, rfl⟩ := List.mem_map.mp hx
    exact (h kv hkv).2

theorem keys_of_items {kvs cs : List (Value × Value)} (h : List.Forall₂ (fun kv c => c.1 = kv.1) kvs cs) :
    cs.map Prod.fst = kvs.map Prod.fst := by
  induction h with
  | nil => rfl
  | cons hkv _ ih => rw [List.map_cons, List.map_cons, hkv, ih]

theorem Built.of_scalar {v : Value} (hv : v.scalar = true) (hp : v.Plain) : Built P v := by
  refine .intro ?_ (by simp [parts_scalar hv])
  cases v with
  | none | bool | int | bytes | str => exact hp
  | other => cases hp
  | list | tuple | set | frozenset | dict => cases hv

theorem Nested.of_scalar {v : Value} (hv : v.scalar = true) (n : Nat) : Nested (n + 1) v :=
  .intro (by simp [parts_scalar hv])

theorem LeafKeys.of_scalar {v : Value} (hv : v.scalar = true) : LeafKeys v :=
  .intro (by simp [keys_scalar hv]) (by simp [parts_scalar hv])

theorem WellBuilt.plain {v : Value} (h : WellBuilt P v) (hv : v.scalar = true) (hu : v.Utf8) : v.Plain := by
  cases v with
  | other o =>
    obtain ⟨hu, -⟩ := hu
    simp [hu o rfl, WellBuilt] at h
  | none | bool | int | bytes | str => exact h
  | list | tuple | set | frozenset | dict => cases hv

theorem hashable_scalar {v : Value} (hv : v.scalar = true) (hp : v.Plain) : v.hashable = true := by
  cases hp <;> first | rfl | cases hv

theorem IsSeq.hashable {v : Value} {xs : List Value} (h : IsSeq v xs) (hv : v.hashable = true) :
    ∀ x ∈ xs, x.hashable = true := by
  obtain rfl | rfl := h
  · cases hv
  · have all : ∀ {xs : List Value}, Value.hashableAll xs = true → ∀ x ∈ xs, x.hashable = true := by
      intro xs h
      induction xs with
      | nil => simp
      | cons x xs ih =>
        rw [Value.hashableAll, Bool.and_eq_true] at h
        exact List.forall_mem_cons.mpr ⟨h.1, ih h.2⟩
    exact all (by rwa [Value.hashable] at hv)

open Serialization

/-! ## What has a canonical form -/

/-- What becomes a key of a dict was a value without parts. -/
theorem scalar_of_hashable {n : Nat} {k c : Value} (h : canonicalize P n k = .ok c) (hc : c.hashable = true) :
    k.scalar = true := by
  obtain ⟨hk, -⟩ | ⟨cs, rfl⟩ | ⟨cs, rfl⟩ := form_of_canonicalize h
  · exact hk
  · cases hc
  · cases hc

/-- A value has a canonical form only if the stack takes it and its dicts are keyed by leaves. -/
theorem nested_of_canonicalize {n : Nat} {v c : Value} (h : canonicalize P n v = .ok c) : Nested n v ∧ LeafKeys v := by
  induction n generalizing v c with
  | zero => cases h
  | succ n ih =>
    have elements : ∀ {xs cs : List Value}, List.Forall₂ (fun x c => canonicalize P n x = .ok c) xs cs →
        ∀ x ∈ xs, Nested n x ∧ LeafKeys x := by
      intro xs cs hcs x hx
      obtain ⟨c, -, hc⟩ := exists_of_forall₂ hcs.flip hx
      exact ih hc
    suffices hall : (∀ k ∈ keys v, k.scalar = true) ∧ ∀ x ∈ parts v, Nested n x ∧ LeafKeys x from
      ⟨.intro fun x hx => (hall.2 x hx).1, .intro hall.1 fun x hx => (hall.2 x hx).2⟩
    obtain hv | ⟨xs, hv⟩ | ⟨xs, hv⟩ | ⟨kvs, rfl⟩ := kinds v
    · rw [keys_scalar hv, parts_scalar hv]
      simp
    · obtain ⟨cs, hcs, -⟩ := hv.canonicalize_eq_ok.mp h
      rw [hv.keys_eq, hv.parts_eq]
      exact ⟨by simp, elements hcs⟩
    · obtain ⟨cs, s, hcs, -, -⟩ := hv.canonicalize_eq_ok.mp h
      rw [hv.keys_eq, hv.parts_eq]
      exact ⟨by simp, elements hcs⟩
    · obtain ⟨d, hd, -⟩ := bind_eq_ok.mp h
      have hitems := items_of_foldlM hd
      refine ⟨List.forall_mem_map.mpr fun kv hkv => ?_, forall_parts_dict fun kv hkv => ?_⟩
      · obtain ⟨c, hc, hhash⟩ := hitems kv hkv
        exact scalar_of_hashable hc.1 hhash
      · obtain ⟨c, hc, -⟩ := hitems kv hkv
        exact ⟨ih hc.1, ih hc.2⟩

/-- The elements of a set, sorted. -/
theorem sorted_plain (hd : P.CborDefined) {n : Nat} (hn : n ≤ P.recursionLimit) {cs : List Value}
    (h : ∀ c ∈ cs, Canonical P n c ∧ c.Plain) : ∃ s, sorted P cs = .ok s := by
  obtain ⟨keyed, hk⟩ := forall₂_of_exists (R := SortKeyed P) (l := cs) fun c hc => by
    obtain ⟨b, hb⟩ := hd.dumps hn (canonicalize_canonical (h c hc).1) (h c hc).2
    exact ⟨(b, c), hb, rfl⟩
  exact ⟨_, sorted_eq_ok.mpr ⟨keyed, hk, rfl⟩⟩

/-- A value that the stack takes, keyed by leaves and with texts that have a
UTF-8 form, has a plain canonical form. -/
theorem canonicalize_plain (hd : P.CborDefined) {n : Nat} (hn : n ≤ P.recursionLimit) {v : Value} (hv : Built P v)
    (hdepth : Nested n v) (hl : LeafKeys v) (hu : v.Utf8) : ∃ c, canonicalize P n v = .ok c ∧ c.Plain := by
  induction hdepth with
  | @intro n v _ ih =>
    obtain ⟨hwell, hparts⟩ := hv
    obtain ⟨hleaf, hl⟩ := hl
    have ih : ∀ x ∈ parts v, ∃ c, canonicalize P n x = .ok c ∧ c.Plain := fun x hx =>
      ih x hx (Nat.le_of_succ_le hn) (hparts x hx) (hl x hx) (Utf8.part hu hx)
    have elements : ∀ {xs : List Value}, parts v = xs →
        ∃ cs, List.Forall₂ (fun x c => canonicalize P n x = .ok c) xs cs ∧
        ∀ c ∈ cs, Canonical P n c ∧ c.Plain := by
      rintro xs rfl
      obtain ⟨cs, hcs⟩ := forall₂_of_exists ih
      refine ⟨cs, hcs.imp fun _ _ h => h.1, fun c hc => ?_⟩
      obtain ⟨x, -, hx, hplain⟩ := exists_of_forall₂ hcs hc
      exact ⟨canonical_of_canonicalize hx, hplain⟩
    obtain hscalar | ⟨xs, hseq⟩ | ⟨xs, hset⟩ | ⟨kvs, rfl⟩ := kinds v
    · exact ⟨v, canonicalize_scalar hscalar n, hwell.plain hscalar hu⟩
    · have hlen : xs.length < 2 ^ 64 := by obtain rfl | rfl := hseq <;> exact hwell
      obtain ⟨cs, hcs, hplain⟩ := elements hseq.parts_eq
      exact ⟨.list cs, hseq.canonicalize_eq_ok.mpr ⟨cs, hcs, rfl⟩,
        .list (hcs.length_eq ▸ hlen) fun c hc => (hplain c hc).2⟩
    · have hlen : xs.length < 2 ^ 64 := by obtain rfl | rfl := hset <;> exact hwell.1
      obtain ⟨cs, hcs, hplain⟩ := elements hset.parts_eq
      obtain ⟨s, hs⟩ := sorted_plain hd (Nat.le_of_succ_le hn) hplain
      have hp := perm_of_sorted hs
      refine ⟨.list s, hset.canonicalize_eq_ok.mpr ⟨cs, s, hcs, hs, rfl⟩, .list ?_ fun c hc => ?_⟩
      · rwa [hp.length_eq, ← hcs.length_eq]
      · exact (hplain c (hp.mem_iff.mp hc)).2
    · obtain ⟨hlen, -, hne⟩ := hwell
      have hkey : ∀ kv ∈ kvs, kv.1.scalar = true := List.forall_mem_map.mp hleaf
      obtain ⟨cs, hcs⟩ := forall₂_of_exists (l := kvs)
        (R := fun kv c => c.1 = kv.1 ∧ Item P n kv c ∧ c.1.Plain ∧ c.2.Plain) fun kv hkv => by
          obtain ⟨k, hk, hplaink⟩ := ih kv.1 (key_mem_parts hkv).1
          obtain ⟨c, hc, hplain⟩ := ih kv.2 (key_mem_parts hkv).2
          obtain rfl := (Flat.scalar (hkey kv hkv)).canonicalize_eq hk
          exact ⟨(kv.1, c), rfl, ⟨hk, hc⟩, hplaink, hplain⟩
      have hall : ∀ c ∈ cs, c.1.scalar = true ∧ c.1.Plain ∧ c.2.Plain := by
        intro c hc
        obtain ⟨kv, hkv, e, -, hplain⟩ := exists_of_forall₂ hcs hc
        exact ⟨e ▸ hkey kv hkv, hplain⟩
      have hkeys : cs.map Prod.fst = kvs.map Prod.fst := keys_of_items (hcs.imp fun _ _ h => h.1)
      refine ⟨.dict cs, canonicalize_dict (hcs.imp fun _ _ h => h.2.1) (fun c hc => ?_) ?_, ?_⟩
      · exact hashable_scalar (hall c hc).1 (hall c hc).2.1
      · rwa [Dict.Distinct, hkeys]
      · exact .dict (hcs.length_eq ▸ hlen) (fun c hc => (hall c hc).1) (fun c hc => (hall c hc).2.1)
          fun c hc => (hall c hc).2.2

/-! ## Elements of sets -/

theorem dumps_flat_inj (hc : P.CborLaws) {n : Nat} {c d : Value} {b : Bytes} (hr : Canonical P n c ∧ Flat c)
    (hr' : Canonical P n d ∧ Flat d) (h : P.dumps c = .ok b) (h' : P.dumps d = .ok b) : c = d := by
  obtain ⟨w, hw, hs⟩ := hc.loads_dumps (canonicalize_canonical hr.1) h
  obtain ⟨w', hw', hs'⟩ := hc.loads_dumps (canonicalize_canonical hr'.1) h'
  rw [hw, Except.ok.injEq] at hw'
  rw [← hr.2.same hs, hw', hr'.2.same hs']

theorem key_of_keyed {cs : List Value} {keyed : List (Bytes × Value)} (h : List.Forall₂ (SortKeyed P) cs keyed) :
    ∀ k ∈ keyed, P.dumps k.2 = .ok k.1 ∧ k.2 ∈ cs := by
  intro k hk
  obtain ⟨c, hc, hd, e⟩ := exists_of_forall₂ h hk
  exact ⟨e ▸ hd, e ▸ hc⟩

/-- Sorted by their encodings, elements come out the same from every iteration. -/
theorem sorted_perm (hc : P.CborLaws) {n : Nat} {cs ds s : List Value} (hp : cs.Perm ds)
    (hr : ∀ c ∈ cs, Canonical P n c ∧ Flat c) (h : sorted P cs = .ok s) : sorted P ds = .ok s := by
  obtain ⟨keyed, hk, rfl⟩ := sorted_eq_ok.mp h
  obtain ⟨keyed', hk', hpk⟩ := List.perm_comp_forall₂ hp.symm hk
  refine sorted_eq_ok.mpr ⟨keyed', hk', congrArg (List.map Prod.snd) ?_⟩
  have htotal : Std.Total (fun a b : Bytes × Value => a.1 ≤ b.1) := ⟨fun a b => List.le_total a.1 b.1⟩
  have htrans : IsTrans (Bytes × Value) (fun a b => a.1 ≤ b.1) := ⟨fun _ _ _ => List.le_trans (α := UInt8)⟩
  have hanti : ∀ a b, a ∈ keyed'.insertionSort (fun a b => a.1 ≤ b.1) → b ∈ keyed.insertionSort (fun a b => a.1 ≤ b.1) →
      a.1 ≤ b.1 → b.1 ≤ a.1 → a = b := by
    intro a b ha hb hab hba
    have hkey : a.1 = b.1 := List.le_antisymm hab hba
    obtain ⟨hda, hma⟩ := key_of_keyed hk a (hpk.mem_iff.mp ((List.mem_insertionSort _).mp ha))
    obtain ⟨hdb, hmb⟩ := key_of_keyed hk b ((List.mem_insertionSort _).mp hb)
    exact Prod.ext hkey (dumps_flat_inj hc (hr _ hma) (hr _ hmb) hda (hkey ▸ hdb))
  have hperm := ((List.perm_insertionSort (fun a b => a.1 ≤ b.1) keyed').trans hpk).trans
    (List.perm_insertionSort (fun a b => a.1 ≤ b.1) keyed).symm
  exact hperm.eq_of_pairwise hanti (List.pairwise_insertionSort _ _) (List.pairwise_insertionSort _ _)

/-- The canonical form of a value with a hash holds no dict. -/
theorem flat_of_hashable {v : Value} (hv : Built P v) (hhash : v.hashable = true) {n : Nat} {c : Value}
    (h : canonicalize P n v = .ok c) : Flat c := by
  induction hv generalizing n c with
  | @intro v hwell _ ih =>
    cases n with
    | zero => cases h
    | succ n =>
      obtain hscalar | ⟨xs, hseq⟩ | ⟨xs, hset⟩ | ⟨kvs, rfl⟩ := kinds v
      · obtain rfl := (Flat.scalar hscalar).canonicalize_eq h
        exact .scalar hscalar
      · obtain ⟨cs, hcs, rfl⟩ := hseq.canonicalize_eq_ok.mp h
        refine .list fun c hc => ?_
        obtain ⟨x, hx, hxc⟩ := exists_of_forall₂ hcs hc
        exact ih x (hseq.parts_eq.symm ▸ hx) (hseq.hashable hhash x hx) hxc
      · obtain ⟨cs, s, hcs, hs, rfl⟩ := hset.canonicalize_eq_ok.mp h
        refine .list fun c hc => ?_
        obtain ⟨x, hx, hxc⟩ := exists_of_forall₂ hcs ((perm_of_sorted hs).mem_iff.mp hc)
        have hxs : ∀ x ∈ xs, x.hashable = true := by obtain rfl | rfl := hset <;> exact hwell.2
        exact ih x (hset.parts_eq.symm ▸ hx) (hxs x hx) hxc
      · cases hhash

/-! ## Values that are the same -/

/-- `w` has a canonical form that is the same as `v`'s, if `v` has one. -/
def Follows (P : Prims) (n : Nat) (v w : Value) : Prop :=
  ∀ c, canonicalize P n v = .ok c → ∃ d, canonicalize P n w = .ok d ∧ Value.Same c d

theorem forall₂_follows {n : Nat} {xs ys : List Value} (h : List.Forall₂ (Follows P n) xs ys) {cs : List Value}
    (hcs : List.Forall₂ (fun x c => canonicalize P n x = .ok c) xs cs) :
    ∃ ds, List.Forall₂ (fun y d => canonicalize P n y = .ok d) ys ds ∧ List.Forall₂ Value.Same cs ds := by
  induction h generalizing cs with
  | nil =>
    obtain rfl := List.forall₂_nil_left_iff.mp hcs
    exact ⟨[], .nil, .nil⟩
  | cons hxy _ ih =>
    obtain ⟨c, cs', hc, hrest, rfl⟩ := List.forall₂_cons_left_iff.mp hcs
    obtain ⟨d, hd, hsame⟩ := hxy c hc
    obtain ⟨ds, hds, hall⟩ := ih hrest
    exact ⟨d :: ds, .cons hd hds, .cons hsame hall⟩

/-- Sets that are the same, up to their elements, sort to the same list. -/
theorem set_follows (hc : P.CborLaws) {n : Nat} {v w : Value} {xs xs' ys : List Value} (hv : IsSet v xs)
    (hw : IsSet w ys) (hbuilt : Built P v) (hp : xs.Perm xs') (h : List.Forall₂ (Follows P n) xs' ys) :
    Follows P (n + 1) v w := by
  intro c hcan
  obtain ⟨cs, s, hcs, hs, rfl⟩ := hv.canonicalize_eq_ok.mp hcan
  obtain ⟨cs', hcs', hpc⟩ := List.perm_comp_forall₂ hp.symm hcs
  obtain ⟨ds, hds, hsame⟩ := forall₂_follows h hcs'
  obtain ⟨hwell, hparts⟩ := hbuilt
  have hhash : ∀ x ∈ xs, x.hashable = true := by obtain rfl | rfl := hv <;> exact hwell.2
  have hflat : ∀ c ∈ cs, Canonical P n c ∧ Flat c := by
    intro c hc
    obtain ⟨x, hx, hxc⟩ := exists_of_forall₂ hcs hc
    exact ⟨canonical_of_canonicalize hxc, flat_of_hashable (hparts x (hv.parts_eq.symm ▸ hx)) (hhash x hx) hxc⟩
  obtain rfl : ds = cs' := eq_of_forall₂ hsame fun c hc _ h => (hflat c (hpc.mem_iff.mp hc)).2.same h
  have hsorted := sorted_perm hc hpc.symm hflat hs
  exact ⟨.list s, hw.canonicalize_eq_ok.mpr ⟨ds, s, hds, hsorted, rfl⟩, .refl _⟩

/-- Items of dicts that are the same. -/
theorem items_follow {n : Nat} {kvs kws : List (Value × Value)}
    (h : List.Forall₂ (fun kv kw => Follows P n kv.1 kw.1 ∧ Follows P n kv.2 kw.2) kvs kws)
    {cs : List (Value × Value)} (hcs : List.Forall₂ (Item P n) kvs cs) (hleaf : ∀ c ∈ cs, c.1.scalar = true) :
    ∃ ds, List.Forall₂ (Item P n) kws ds ∧ cs.map Prod.fst = ds.map Prod.fst ∧
      List.Forall₂ Value.Same (cs.map Prod.snd) (ds.map Prod.snd) := by
  induction h generalizing cs with
  | nil =>
    obtain rfl := List.forall₂_nil_left_iff.mp hcs
    exact ⟨[], .nil, rfl, .nil⟩
  | @cons kv kw kvs kws hkv _ ih =>
    obtain ⟨c, cs', hc, hrest, rfl⟩ := List.forall₂_cons_left_iff.mp hcs
    rw [List.forall_mem_cons] at hleaf
    obtain ⟨k, hk, hsamek⟩ := hkv.1 c.1 hc.1
    obtain ⟨v, hv, hsamev⟩ := hkv.2 c.2 hc.2
    obtain ⟨ds, hds, hkeys, hvals⟩ := ih hrest hleaf.2
    obtain rfl : k = c.1 := same_scalar hleaf.1 hsamek
    refine ⟨(c.1, v) :: ds, .cons ⟨hk, hv⟩ hds, ?_, .cons hsamev hvals⟩
    rw [List.map_cons, List.map_cons, hkeys]

theorem forall₂_of_zip {α : Type} {S : α → α → Prop} {xs ys : List α} (hlen : xs.length = ys.length)
    (h : ∀ p ∈ xs.zip ys, p.1 ∈ xs → p.2 ∈ ys → S p.1 p.2) : List.Forall₂ S xs ys := by
  refine List.forall₂_iff_zip.mpr ⟨hlen, fun {a b} hab => ?_⟩
  have hmem := List.of_mem_zip hab
  exact h (a, b) hab hmem.1 hmem.2

/-- The canonical form of a dict: its keys are those of the dict. -/
theorem dict_canonical {n : Nat} {kvs : List (Value × Value)} (hv : Built P (.dict kvs)) {c : Value}
    (h : canonicalize P (n + 1) (.dict kvs) = .ok c) : ∃ cs, List.Forall₂ (Item P n) kvs cs ∧
      (∀ c ∈ cs, c.1.scalar = true ∧ c.1.hashable = true) ∧ Dict.Distinct P.equal cs ∧ c = .dict cs := by
  obtain ⟨⟨-, -, hne⟩, -⟩ := hv
  obtain ⟨d, hd, -⟩ := bind_eq_ok.mp h
  obtain ⟨cs, hcs⟩ := forall₂_of_exists (l := kvs)
    (R := fun kv c => Item P n kv c ∧ c.1 = kv.1 ∧ c.1.scalar = true ∧ c.1.hashable = true) fun kv hkv => by
      obtain ⟨c, hitem, hhash⟩ := items_of_foldlM hd kv hkv
      have hscalar := scalar_of_hashable hitem.1 hhash
      have e := (Flat.scalar hscalar).canonicalize_eq hitem.1
      exact ⟨c, hitem, e, e ▸ hscalar, hhash⟩
  have hkey : ∀ c ∈ cs, c.1.scalar = true ∧ c.1.hashable = true := by
    intro c hc
    obtain ⟨_, _, _, _, h⟩ := exists_of_forall₂ hcs hc
    exact h
  have hdistinct : Dict.Distinct P.equal cs := by
    rwa [Dict.Distinct, keys_of_items (hcs.imp fun _ _ h => h.2.1)]
  have hitems := hcs.imp fun _ _ h => h.1
  exact ⟨cs, hitems, hkey, hdistinct,
    Except.ok.inj (h.symm.trans (canonicalize_dict hitems (fun c hc => (hkey c hc).2) hdistinct))⟩

/-- The texts of a value are in its canonical form. -/
theorem utf8_of_canonicalize {v : Value} (hv : Built P v) {n : Nat} {c : Value} (h : canonicalize P n v = .ok c)
    (hc : c.Utf8) : v.Utf8 := by
  induction hv generalizing n c with
  | @intro v hwell hparts ih =>
    cases n with
    | zero => cases h
    | succ n =>
      have elements : ∀ {xs cs : List Value}, parts v = xs →
          List.Forall₂ (fun x c => canonicalize P n x = .ok c) xs cs → (∀ c ∈ cs, c.Utf8) → ∀ x ∈ parts v, x.Utf8 := by
        rintro _ cs rfl hcs hall x hx
        obtain ⟨c, hc, hxc⟩ := exists_of_forall₂ hcs.flip hx
        exact ih x hx hxc (hall c hc)
      obtain hscalar | ⟨xs, hseq⟩ | ⟨xs, hset⟩ | ⟨kvs, rfl⟩ := kinds v
      · obtain rfl := (Flat.scalar hscalar).canonicalize_eq h
        exact hc
      · obtain ⟨cs, hcs, rfl⟩ := hseq.canonicalize_eq_ok.mp h
        refine .intro ?_ (elements hseq.parts_eq hcs fun c hmem => Utf8.part hc hmem)
        rintro o rfl
        obtain e | e := hseq <;> cases e
      · obtain ⟨cs, s, hcs, hs, rfl⟩ := hset.canonicalize_eq_ok.mp h
        refine .intro ?_ (elements hset.parts_eq hcs fun c hmem => Utf8.part hc ((perm_of_sorted hs).mem_iff.mpr hmem))
        rintro o rfl
        obtain e | e := hset <;> cases e
      · obtain ⟨cs, hcs, -, -, rfl⟩ := dict_canonical (.intro hwell hparts) h
        refine .intro (by simp) (forall_parts_dict fun kv hkv => ?_)
        obtain ⟨c, hmem, hitem⟩ := exists_of_forall₂ hcs.flip hkv
        have hkv := key_mem_parts hkv
        have hmem := key_mem_parts hmem
        exact ⟨ih _ hkv.1 hitem.1 (Utf8.part hc hmem.1), ih _ hkv.2 hitem.2 (Utf8.part hc hmem.2)⟩

/-- Values that are the same have canonical forms that are. -/
theorem canonicalize_same (hc : P.CborLaws) {v w : Value} (h : Alike v w) (hv : Built P v) (hw : Built P w) (n : Nat) :
    Follows P n v w := by
  induction h generalizing n with
  | refl v => exact fun c h => ⟨c, h, .refl c⟩
  | seq hxs hys hlen _ ih =>
    intro c h
    cases n with
    | zero => cases h
    | succ n =>
      obtain ⟨cs, hcs, rfl⟩ := hxs.canonicalize_eq_ok.mp h
      obtain ⟨ds, hds, hsame⟩ := forall₂_follows (forall₂_of_zip hlen fun p hp hx hy =>
        ih p hp (hv.parts (hxs.parts_eq.symm ▸ hx)) (hw.parts (hys.parts_eq.symm ▸ hy)) n) hcs
      exact ⟨.list ds, hys.canonicalize_eq_ok.mpr ⟨ds, hds, rfl⟩, .list hsame⟩
  | set hp hlen _ ih =>
    cases n with
    | zero => exact fun c h => by cases h
    | succ n => exact set_follows hc (.inl rfl) (.inl rfl) hv hp (forall₂_of_zip hlen fun p hmem hx hy =>
        ih p hmem (hv.parts (hp.mem_iff.mpr hx)) (hw.parts hy) n)
  | frozenset hp hlen _ ih =>
    cases n with
    | zero => exact fun c h => by cases h
    | succ n => exact set_follows hc (.inr rfl) (.inr rfl) hv hp (forall₂_of_zip hlen fun p hmem hx hy =>
        ih p hmem (hv.parts (hp.mem_iff.mpr hx)) (hw.parts hy) n)
  | @dict kvs kvs' kws hp hlen _ _ ihk ihv =>
    intro c h
    cases n with
    | zero => cases h
    | succ n =>
      obtain ⟨cs, hcs, hkey, hne, rfl⟩ := dict_canonical hv h
      obtain ⟨cs', hcs', hpc⟩ := List.perm_comp_forall₂ hp.symm hcs
      have hall := forall₂_of_zip (S := fun kv kw : Value × Value => Follows P n kv.1 kw.1 ∧ Follows P n kv.2 kw.2) hlen
        fun p hmem hx hy => by
          have hx := key_mem_parts (hp.mem_iff.mpr hx)
          have hy := key_mem_parts hy
          exact ⟨ihk p hmem (hv.parts hx.1) (hw.parts hy.1) n, ihv p hmem (hv.parts hx.2) (hw.parts hy.2) n⟩
      obtain ⟨ds, hds, hkeys, hvals⟩ := items_follow hall hcs' fun c hc => (hkey c (hpc.mem_iff.mp hc)).1
      refine ⟨.dict ds, canonicalize_dict hds (fun d hd => ?_) ?_, .dict hpc.symm hkeys hvals⟩
      · obtain ⟨c, hc, e⟩ := List.mem_map.mp (hkeys ▸ List.mem_map_of_mem hd : d.1 ∈ cs'.map Prod.fst)
        exact e ▸ (hkey c (hpc.mem_iff.mp hc)).2
      · rw [Dict.Distinct, ← hkeys]
        exact distinct_perm hne hpc.symm

/-! ## The canonical encoding -/

theorem exists_canonicalEncode (hd : P.CborDefined) {v : Value} (hv : Built P v) (hdepth : Nested P.recursionLimit v)
    (hl : LeafKeys v) (hu : v.Utf8) : ∃ b, P.canonicalEncode v = .ok b := by
  obtain ⟨c, h, hplain⟩ := canonicalize_plain hd le_rfl hv hdepth hl hu
  obtain ⟨b, hb⟩ := hd.dumps le_rfl h hplain
  exact ⟨b, bind_eq_ok.mpr ⟨c, h, hb⟩⟩

/-- A value is encoded, with the same bytes for every value alike, exactly when
the stack takes it, all its dicts are keyed by leaves and all its texts have a
UTF-8 form. -/
theorem canonicalEncode_iff (hc : P.CborLaws) (hd : P.CborDefined) {v : Value} (hv : Built P v) :
    ((∃ b, P.canonicalEncode v = .ok b) ∧
      ∀ w, Built P w → Alike v w → P.canonicalEncode w = P.canonicalEncode v) ↔
    Nested P.recursionLimit v ∧ LeafKeys v ∧ v.Utf8 := by
  constructor
  · rintro ⟨⟨b, hb⟩, -⟩
    obtain ⟨c, h, hb⟩ := bind_eq_ok.mp hb
    obtain ⟨hdepth, hl⟩ := nested_of_canonicalize h
    exact ⟨hdepth, hl, utf8_of_canonicalize hv h (hd.utf8 h hb)⟩
  · rintro ⟨hdepth, hl, hu⟩
    obtain ⟨b, hencode⟩ := exists_canonicalEncode hd hv hdepth hl hu
    obtain ⟨c, h, hb⟩ := bind_eq_ok.mp hencode
    refine ⟨⟨b, hencode⟩, fun w hw halike => ?_⟩
    obtain ⟨c', h', hsame⟩ := canonicalize_same hc halike hv hw _ c h
    rw [hencode]
    exact bind_eq_ok.mpr ⟨c', h', by rw [← hc.dumps_same hsame, hb]⟩

/-- A set in a dict, iterated the other way round. -/
theorem nested_set_order :
    reference.canonicalEncode (.dict [(.str "s", .set [.tuple [.int 1], .str "a"])]) =
      reference.canonicalEncode (.dict [(.str "s", .set [.str "a", .tuple [.int 1]])]) := by
  let inner : Value := .tuple [.int 1]
  have hinner : Built reference inner :=
    .intro (by decide : 1 < 2 ^ 64) (List.forall_mem_singleton.mpr (.of_scalar rfl (.int (by decide))))
  have ha : Built reference (.str "a") := .of_scalar rfl (.str (by decide))
  have built : ∀ xs, xs.length < 2 ^ 64 → (∀ x ∈ xs, x = inner ∨ x = .str "a") →
      Built reference (.dict [(.str "s", .set xs)]) := by
    intro xs hlen hxs
    have hset : Built reference (.set xs) := by
      refine .intro ⟨hlen, fun x hx => ?_⟩ fun x hx => ?_
      · obtain rfl | rfl := hxs x hx <;> rfl
      · obtain rfl | rfl := hxs x hx
        · exact hinner
        · exact ha
    refine .intro ⟨(by decide : 1 < 2 ^ 64), by simp [Value.hashable], List.pairwise_singleton _ _⟩ ?_
    exact forall_parts_dict (List.forall_mem_singleton.mpr ⟨.of_scalar rfl (.str (by decide)), hset⟩)
  have hdepth : Nested reference.recursionLimit (.dict [(.str "s", .set [.str "a", inner])]) := by
    refine .intro (forall_parts_dict (List.forall_mem_singleton.mpr ⟨.of_scalar rfl 98, .intro ?_⟩))
    refine List.forall_mem_cons.mpr ⟨.of_scalar rfl 97, List.forall_mem_singleton.mpr (.intro ?_)⟩
    exact List.forall_mem_singleton.mpr (.of_scalar rfl 96)
  have hkeys : LeafKeys (.dict [(.str "s", .set [.str "a", inner])]) := by
    refine .intro (List.forall_mem_singleton.mpr rfl) ?_
    refine forall_parts_dict (List.forall_mem_singleton.mpr ⟨.of_scalar rfl, .intro (by simp [keys]) ?_⟩)
    refine List.forall_mem_cons.mpr ⟨.of_scalar rfl, List.forall_mem_singleton.mpr (.intro (by simp [keys, inner]) ?_)⟩
    exact List.forall_mem_singleton.mpr (.of_scalar rfl)
  have hutf8 : (Value.dict [(.str "s", .set [.str "a", inner])]).Utf8 := by
    refine .intro (by simp) (forall_parts_dict (List.forall_mem_singleton.mpr ⟨utf8_str _, .intro (by simp) ?_⟩))
    refine List.forall_mem_cons.mpr ⟨utf8_str _, List.forall_mem_singleton.mpr (.intro (by simp [inner]) ?_)⟩
    exact List.forall_mem_singleton.mpr (.intro (by simp) (by simp [parts]))
  have halike : Alike (.dict [(.str "s", .set [.str "a", inner])]) (.dict [(.str "s", .set [inner, .str "a"])]) := by
    refine .dict (.refl _) rfl ?_ ?_ <;> simp only [List.zip_cons_cons, List.zip_nil_left, List.forall_mem_singleton]
    · exact .refl _
    · refine .set (List.Perm.swap ..) rfl fun p hp => ?_
      simp only [List.zip_cons_cons, List.zip_nil_left, List.mem_cons, List.not_mem_nil, or_false] at hp
      obtain rfl | rfl := hp <;> exact .refl _
  have hv := built [.str "a", inner] (by decide) (by simp)
  have hw := built [inner, .str "a"] (by decide) (by simp)
  exact ((canonicalEncode_iff reference_cborLaws reference_cborDefined hv).mpr ⟨hdepth, hkeys, hutf8⟩).2 _ hw halike

/-- The dict `{(1, 2): 3}`, which is not nested deep: the key becomes a list, which has no hash. -/
theorem tuple_key_raises : Built reference (.dict [(.tuple [.int 1, .int 2], .int 3)]) ∧
    Nested reference.recursionLimit (.dict [(.tuple [.int 1, .int 2], .int 3)]) ∧
    reference.canonicalEncode (.dict [(.tuple [.int 1, .int 2], .int 3)]) = .error .typeError := by
  have hint : ∀ n ∈ [1, 2, 3], Built reference (.int n) := by
    simp only [List.forall_mem_cons, List.not_mem_nil, false_imp_iff, implies_true, and_true]
    exact ⟨.of_scalar rfl (.int (by decide)), .of_scalar rfl (.int (by decide)), .of_scalar rfl (.int (by decide))⟩
  refine ⟨?_, ?_, rfl⟩
  · have hkey : Built reference (.tuple [.int 1, .int 2]) := by
      refine .intro (by decide : 2 < 2 ^ 64) (List.forall_mem_cons.mpr ⟨hint 1 (by simp), ?_⟩)
      exact List.forall_mem_singleton.mpr (hint 2 (by simp))
    refine .intro ⟨(by decide : 1 < 2 ^ 64), by simp [Value.hashable, Value.hashableAll],
      List.pairwise_singleton _ _⟩ ?_
    exact forall_parts_dict (List.forall_mem_singleton.mpr ⟨hkey, hint 3 (by simp)⟩)
  · refine .intro (forall_parts_dict (List.forall_mem_singleton.mpr ⟨.intro ?_, .of_scalar rfl 98⟩))
    exact List.forall_mem_cons.mpr ⟨.of_scalar rfl 97, List.forall_mem_singleton.mpr (.of_scalar rfl 97)⟩

end ArxDB.Proof
