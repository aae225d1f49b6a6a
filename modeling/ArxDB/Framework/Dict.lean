import Mathlib.Data.List.Induction
import Mathlib.Tactic.Common

/-!
# Dicts in insertion order

The items of a dict are a list of keys and values, the keys compared by an
equality `eq` of their own. Setting a key that is there replaces the value and
keeps the key and its place; a new key comes last (`insert`). No two keys of a
`Dict` are equal. A list of bindings that is set one after the other loses
exactly the bindings that a later one replaces: `lookup_ofList` says what is
found for a key, `ofList_eq_iff` when nothing is lost.
-/

variable {κ ι α : Type}

namespace Dict

/-- The items after `d[k] = v`. -/
def insert (eq : κ → κ → Bool) (k : κ) (v : α) : List (κ × α) → List (κ × α)
  | [] => [(k, v)]
  | x :: xs => if eq x.1 k then (x.1, v) :: xs else x :: insert eq k v xs

/-- No two keys are equal. -/
def Distinct (eq : κ → κ → Bool) (items : List (κ × α)) : Prop :=
  (items.map Prod.fst).Pairwise fun a b => eq a b = false

section Insert

variable {eq : κ → κ → Bool} {k : κ} {v : α} {items : List (κ × α)}

theorem insert_fresh (h : ∀ x ∈ items, eq x.1 k = false) : insert eq k v items = items ++ [(k, v)] := by
  induction items with
  | nil => rfl
  | cons x xs ih =>
    rw [List.forall_mem_cons] at h
    simp only [insert, h.1, ih h.2, List.cons_append, Bool.false_eq_true, if_false]

theorem keys_insert_held (h : ∃ x ∈ items, eq x.1 k = true) :
    (insert eq k v items).map Prod.fst = items.map Prod.fst := by
  induction items with
  | nil => simp at h
  | cons x xs ih =>
    by_cases hx : eq x.1 k = true
    · simp only [insert, hx, if_true, List.map_cons]
    · have hxs : ∃ x ∈ xs, eq x.1 k = true := by simpa [hx] using h
      rw [insert, if_neg hx, List.map_cons, List.map_cons, ih hxs]

/-- Setting a key keeps the keys distinct. -/
theorem Distinct.insert (h : Distinct eq items) (k : κ) (v : α) : Distinct eq (insert eq k v items) := by
  by_cases hk : ∃ x ∈ items, eq x.1 k = true
  · rw [Distinct, keys_insert_held hk]
    exact h
  · have hk' : ∀ x ∈ items, eq x.1 k = false := by simpa using hk
    rw [Distinct, insert_fresh hk', List.map_append, List.pairwise_append]
    refine ⟨h, List.pairwise_singleton _ _, fun a ha b hb => ?_⟩
    obtain ⟨x, hx, rfl⟩ := List.mem_map.mp ha
    obtain rfl : b = k := by simpa using hb
    exact hk' x hx

/-- What holds of the keys and of the values there, and of those set, holds of those there then. -/
theorem forall_insert {Q : κ → Prop} {R : α → Prop} (h : ∀ x ∈ items, Q x.1 ∧ R x.2) (hk : Q k) (hv : R v) :
    ∀ x ∈ insert eq k v items, Q x.1 ∧ R x.2 := by
  induction items with
  | nil =>
    rw [insert, List.forall_mem_singleton]
    exact ⟨hk, hv⟩
  | cons y ys ih =>
    rw [List.forall_mem_cons] at h
    rw [insert]
    split
    · exact List.forall_mem_cons.mpr ⟨⟨h.1.1, hv⟩, h.2⟩
    · exact List.forall_mem_cons.mpr ⟨h.1, ih h.2⟩

/-- Setting commutes with an injection of the keys. -/
theorem insert_map {eq' : ι → ι → Bool} {f : ι → κ} (hf : ∀ a b, eq (f a) (f b) = eq' a b) (a : ι) (v : α)
    (items : List (ι × α)) :
    insert eq (f a) v (items.map (Prod.map f id)) = (insert eq' a v items).map (Prod.map f id) := by
  induction items with
  | nil => rfl
  | cons x xs ih =>
    simp only [insert, List.map_cons, Prod.map_fst, hf, ih]
    split <;> rfl

end Insert

end Dict

/-- An association list without two equal keys. -/
structure Dict (eq : κ → κ → Bool) (α : Type) where
  items : List (κ × α)
  distinct : Dict.Distinct eq items

namespace Dict

/-- `{}`. -/
def empty {eq : κ → κ → Bool} : Dict eq α := ⟨[], List.Pairwise.nil⟩

/-- `d[k] = v`. -/
def set {eq : κ → κ → Bool} (d : Dict eq α) (k : κ) (v : α) : Dict eq α :=
  ⟨insert eq k v d.items, d.distinct.insert k v⟩

@[simp] theorem items_empty {eq : κ → κ → Bool} : (empty : Dict eq α).items = [] := rfl

@[simp] theorem items_set {eq : κ → κ → Bool} (d : Dict eq α) (k : κ) (v : α) :
    (d.set k v).items = insert eq k v d.items := rfl

/-! ## Bindings set one after the other -/

section Bindings

variable [DecidableEq ι] {a b : ι} {v : α} {items bs : List (ι × α)}

theorem lookup_cons : ((b, v) :: items).lookup a = if a = b then some v else items.lookup a := by
  rw [List.lookup_cons]
  by_cases h : a = b
  · rw [if_pos h, beq_iff_eq.mpr h]
  · rw [if_neg h, beq_eq_false_iff_ne.mpr h]

theorem lookup_insert : (insert (· == ·) b v items).lookup a = if a = b then some v else items.lookup a := by
  induction items with
  | nil => rw [insert, lookup_cons]
  | cons x xs ih =>
    obtain ⟨c, w⟩ := x
    by_cases hc : c = b
    · subst hc
      rw [insert, if_pos (beq_self_eq_true c), lookup_cons, lookup_cons]
      split_ifs <;> rfl
    · rw [insert, if_neg (by simpa using hc), lookup_cons, lookup_cons, ih]
      split_ifs <;> simp_all

/-- What is found for the key of an item is its value. -/
theorem lookup_of_mem (h : (items.map Prod.fst).Nodup) (hmem : (a, v) ∈ items) : items.lookup a = some v := by
  induction items with
  | nil => cases hmem
  | cons x xs ih =>
    rw [List.map_cons, List.nodup_cons] at h
    rw [lookup_cons]
    obtain rfl | hmem := List.mem_cons.mp hmem
    · rw [if_pos rfl]
    · have hne : a ≠ x.1 := fun e => h.1 (e ▸ List.mem_map_of_mem hmem)
      rw [if_neg hne, ih h.2 hmem]

/-- Each item is the one set or was there. -/
theorem mem_insert {x : ι × α} (h : x ∈ insert (· == ·) b v items) : x = (b, v) ∨ x ∈ items := by
  induction items with
  | nil => exact .inl (List.mem_singleton.mp h)
  | cons y ys ih =>
    simp only [insert, beq_iff_eq] at h
    split at h
    · rename_i hy
      obtain rfl | h := List.mem_cons.mp h
      · exact .inl (by rw [hy])
      · exact .inr (List.mem_cons_of_mem _ h)
    · obtain rfl | h := List.mem_cons.mp h
      · exact .inr List.mem_cons_self
      · exact (ih h).imp_right (List.mem_cons_of_mem _)

/-- The items after all of `bs` are set. -/
def ofList (bs : List (ι × α)) : List (ι × α) := bs.foldl (fun items b => insert (· == ·) b.1 b.2 items) []

theorem ofList_concat : ofList (bs ++ [(b, v)]) = insert (· == ·) b v (ofList bs) := by
  rw [ofList, List.foldl_append]
  rfl

/-- A key has the value bound to it last. -/
theorem lookup_ofList : (ofList bs).lookup a = bs.reverse.lookup a := by
  induction bs using List.reverseRecOn with
  | nil => rfl
  | append_singleton bs x ih =>
    obtain ⟨b, v⟩ := x
    rw [ofList_concat, lookup_insert, ih, List.reverse_append, List.reverse_singleton, List.singleton_append,
      lookup_cons]

theorem mem_ofList {x : ι × α} (h : x ∈ ofList bs) : x ∈ bs := by
  induction bs using List.reverseRecOn with
  | nil => exact h
  | append_singleton bs y ih =>
    rw [ofList_concat] at h
    rw [List.mem_append, List.mem_singleton]
    exact (mem_insert h).symm.imp_left ih

theorem nodup_ofList : ((ofList bs).map Prod.fst).Nodup := by
  induction bs using List.reverseRecOn with
  | nil => exact List.nodup_nil
  | append_singleton bs x ih =>
    have hd : Distinct (· == ·) (ofList bs) := ih.imp fun h => beq_eq_false_iff_ne.mpr h
    rw [ofList_concat]
    exact (hd.insert x.1 x.2).imp fun h => beq_eq_false_iff_ne.mp h

/-- Nothing is lost exactly when no key is bound two times. -/
theorem ofList_eq_iff : ofList bs = bs ↔ (bs.map Prod.fst).Nodup := by
  refine ⟨fun h => h ▸ nodup_ofList, fun h => ?_⟩
  induction bs using List.reverseRecOn with
  | nil => rfl
  | append_singleton bs x ih =>
    rw [List.map_append, List.nodup_append] at h
    obtain ⟨hbs, -, hx⟩ := h
    rw [ofList_concat, ih hbs]
    refine insert_fresh fun y hy => beq_eq_false_iff_ne.mpr ?_
    exact hx y.1 (List.mem_map_of_mem hy) x.1 (by simp)

end Bindings

end Dict
