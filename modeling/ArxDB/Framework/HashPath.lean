import ArxDB.Framework.HashTree
import Mathlib.Data.Nat.Log

/-!
# Paths in a hash tree

From a node at the bottom a path goes up, at each step beside a sibling and on
the side of a bit (`ascend`). The bits are the binary digits of a position,
the lowest first (`position`). Whatever the path, where it ends in the root of
a list it is as long as the tree is high and started at the element of the
filled list at its position (`getElem?_of_ascend`), if no two of the pairs
hashed collide and no hash of a pair is at the bottom.
-/

namespace HashTree

variable {α : Type*} (node : α → α → α)

/-- A node and its sibling, from the left; the bit says that the node is on the right. -/
def beside (right : Bool) (x sibling : α) : α × α := if right then (sibling, x) else (x, sibling)

/-- Where a path leads to. -/
def ascend : List (Bool × α) → α → α
  | [], x => x
  | (b, s) :: path, x => ascend path (node (beside b x s).1 (beside b x s).2)

/-- Every pair that is hashed on the way. -/
def ascents : List (Bool × α) → α → List (α × α)
  | [], _ => []
  | (b, s) :: path, x => beside b x s :: ascents path (node (beside b x s).1 (beside b x s).2)

/-- The number with these binary digits, the lowest first. -/
def position : List Bool → Nat
  | [] => 0
  | b :: bits => b.toNat + 2 * position bits

theorem position_lt (bits : List Bool) : position bits < 2 ^ bits.length := by
  induction bits with
  | nil => exact Nat.one_pos
  | cons b bits ih =>
    have hb := b.toNat_le
    simp only [position, List.length_cons, pow_succ]
    omega

theorem position_concat (bits : List Bool) (b : Bool) :
    position (bits ++ [b]) = position bits + 2 ^ bits.length * b.toNat := by
  induction bits with
  | nil => simp [position]
  | cons c bits ih =>
    simp only [List.cons_append, position, ih, List.length_cons, pow_succ]
    ring

theorem ascend_concat (path : List (Bool × α)) (b : Bool) (s x : α) : ascend node (path ++ [(b, s)]) x =
    node (beside b (ascend node path x) s).1 (beside b (ascend node path x) s).2 := by
  induction path generalizing x with
  | nil => rfl
  | cons p path ih => exact ih _

theorem ascents_concat (path : List (Bool × α)) (b : Bool) (s x : α) :
    ascents node (path ++ [(b, s)]) x = ascents node path x ++ [beside b (ascend node path x) s] := by
  induction path generalizing x with
  | nil => rfl
  | cons p path ih => exact congrArg _ (ih _)

theorem getElem?_up {l : List α} {j : Nat} (h : 2 * j < l.length) : (up node l)[j]? =
    some (node l[2 * j] (if h' : 2 * j + 1 < l.length then l[2 * j + 1] else l[2 * j])) := by
  have hpair : j < (pairs l).length := by rw [length_pairs]; omega
  rw [up, List.getElem?_map, List.getElem?_eq_getElem hpair, getElem_pairs l j hpair h, Option.map_some]

/-! ## Trees in two halves -/

variable {node} {l m : List α} {r r' : α} {k : Nat}

theorem climb_append (hl : l.length = 2 ^ k) (hm : m.length = 2 ^ k) (h : climb node l = [r])
    (h' : climb node m = [r']) : climb node (l ++ m) = [node r r'] := by
  induction k generalizing l m with
  | zero =>
    rw [climb_of_le_one node (by omega)] at h h'
    subst h h'
    rw [List.singleton_append, climb_of_one_lt node (by simp), climb_of_le_one node (by simp)]
    rfl
  | succ k ih =>
    have hk := Nat.two_pow_pos k
    rw [pow_succ] at hl hm
    rw [climb_of_one_lt node (by omega)] at h h'
    rw [climb_of_one_lt node (by rw [List.length_append]; omega), up_append node m (by omega)]
    exact ih (by rw [length_up]; omega) (by rw [length_up]; omega) h h'

theorem joins_append (hl : l.length = 2 ^ k) (hm : m.length = 2 ^ k) (h : climb node l = [r])
    (h' : climb node m = [r']) {p : α × α} (hp : p ∈ joins node l ∨ p ∈ joins node m ∨ p = (r, r')) :
    p ∈ joins node (l ++ m) := by
  induction k generalizing l m with
  | zero =>
    rw [climb_of_le_one node (by omega)] at h h'
    rw [joins_of_le_one node (by omega), joins_of_le_one node (by omega)] at hp
    subst h h'
    rw [List.singleton_append, joins_of_one_lt node (by simp)]
    exact List.mem_append_left _ (by simpa [pairs] using hp)
  | succ k ih =>
    have hk := Nat.two_pow_pos k
    rw [pow_succ] at hl hm
    have hl₁ : 1 < l.length := by omega
    have hm₁ : 1 < m.length := by omega
    rw [climb_of_one_lt node hl₁] at h
    rw [climb_of_one_lt node hm₁] at h'
    rw [joins_of_one_lt node hl₁, joins_of_one_lt node hm₁] at hp
    rw [joins_of_one_lt node (by rw [List.length_append]; omega), up_append node m (by omega),
      pairs_append m (by omega)]
    have ih := fun hq => ih (by rw [length_up]; omega) (by rw [length_up]; omega) h h' hq
    simp only [List.mem_append] at hp ⊢
    tauto

/-- A full tree is its two halves and the pair of their roots. -/
theorem climb_halves (node : α → α → α) (hlen : l.length = 2 ^ (k + 1)) : ∃ r r',
    climb node (l.take (2 ^ k)) = [r] ∧ climb node (l.drop (2 ^ k)) = [r'] ∧ climb node l = [node r r'] ∧
    ∀ p, p ∈ joins node (l.take (2 ^ k)) ∨ p ∈ joins node (l.drop (2 ^ k)) ∨ p = (r, r') → p ∈ joins node l := by
  have hk := Nat.two_pow_pos k
  rw [pow_succ] at hlen
  have htake : (l.take (2 ^ k)).length = 2 ^ k := by rw [List.length_take]; omega
  have hdrop : (l.drop (2 ^ k)).length = 2 ^ k := by rw [List.length_drop]; omega
  have root : ∀ {m : List α}, m.length = 2 ^ k → ∃ r, climb node m = [r] := by
    intro m hm
    apply List.length_eq_one_iff.mp (length_climb node ?_)
    rw [← List.length_pos_iff]
    omega
  obtain ⟨r, hr⟩ := root htake
  obtain ⟨r', hr'⟩ := root hdrop
  have hclimb := climb_append htake hdrop hr hr'
  rw [List.take_append_drop] at hclimb
  refine ⟨r, r', hr, hr', hclimb, fun p hp => ?_⟩
  have hjoins := joins_append htake hdrop hr hr' hp
  rwa [List.take_append_drop] at hjoins

/-! ## Filled lists -/

theorem length_fill (h : l ≠ []) : (fill l).length = 2 ^ Nat.clog 2 l.length := by
  -- any hash of pairs will do to count the levels
  let left : α → α → α := fun a _ => a
  induction l using climb.induct left with
  | case1 l h₁ ih =>
    have hne : up left l ≠ [] := by
      rw [← List.length_pos_iff, length_up]
      omega
    have heven := (pairs_fill h₁).1
    have hup := congrArg List.length (up_fill left h₁)
    rw [length_up, ih hne, length_up] at hup
    rw [Nat.clog_of_two_le Nat.one_lt_two h₁, pow_succ, show l.length + 2 - 1 = l.length + 1 from rfl]
    omega
  | case2 l h₁ =>
    have := List.length_pos_iff.mpr h
    rw [fill_of_le_one (by omega), show l.length = 1 by omega]
    rfl

theorem joins_fill {p : α × α} (hp : p ∈ joins node (fill l)) : p ∈ joins node l := by
  induction l using climb.induct node with
  | case1 l h ih =>
    rw [joins_of_one_lt node (h.trans_le (length_le_fill l)), up_fill node h] at hp
    rw [joins_of_one_lt node h]
    rcases List.mem_append.mp hp with hp | hp
    · exact List.mem_append_left _ ((pairs_fill h).2 p hp)
    · exact List.mem_append_right _ (ih hp)
  | case2 l h => rwa [fill_of_le_one (by omega)] at hp

/-! ## Where a path starts -/

section Start

variable {S : Set (α × α)} {bottom : Set α} (hS : Set.InjOn (fun p : α × α => node p.1 p.2) S)
  (hbottom : ∀ x ∈ bottom, ∀ p ∈ S, x ≠ node p.1 p.2)

include hS hbottom

/-- A path to the root of a full tree: its last step is beside the root of the other half. -/
theorem getElem?_of_ascend_full {path : List (Bool × α)} {x : α} (hx : x ∈ bottom)
    (hpath : ∀ p ∈ ascents node path x, p ∈ S) (hlen : l.length = 2 ^ k) (hl : ∀ y ∈ l, y ∈ bottom)
    (hjoins : ∀ p ∈ joins node l, p ∈ S) (h : climb node l = [ascend node path x]) :
    path.length = k ∧ l[position (path.map Prod.fst)]? = some x := by
  induction path using List.reverseRecOn generalizing k l with
  | nil =>
    cases k with
    | zero =>
      rw [climb_of_le_one node hlen.le] at h
      subst h
      exact ⟨rfl, rfl⟩
    | succ k =>
      have h₁ : 1 < l.length := hlen ▸ Nat.one_lt_two_pow (Nat.succ_ne_zero k)
      obtain ⟨p, hp, hnode⟩ := climb_eq_node node h₁
      rw [h, List.cons.injEq] at hnode
      exact absurd hnode.1 (hbottom x hx p (hjoins p hp))
  | append_singleton path step ih =>
    obtain ⟨b, s⟩ := step
    rw [ascents_concat, List.forall_mem_append, List.forall_mem_singleton] at hpath
    rw [ascend_concat] at h
    cases k with
    | zero =>
      rw [climb_of_le_one node hlen.le] at h
      exact absurd rfl (hbottom _ (hl _ (h ▸ List.mem_cons_self)) _ hpath.2)
    | succ k =>
      obtain ⟨r, r', hr, hr', hclimb, hhalves⟩ := climb_halves node hlen
      rw [pow_succ] at hlen
      have htake : (l.take (2 ^ k)).length = 2 ^ k := by rw [List.length_take]; omega
      have hdrop : (l.drop (2 ^ k)).length = 2 ^ k := by rw [List.length_drop]; omega
      rw [h, List.cons.injEq] at hclimb
      have hpair := hS hpath.2 (hjoins _ (hhalves _ (.inr (.inr rfl)))) hclimb.1
      rw [List.map_append, List.map_singleton, position_concat, List.length_map, List.length_append,
        List.length_singleton]
      have hpos := position_lt (path.map Prod.fst)
      rw [List.length_map] at hpos
      cases b with
      | false =>
        obtain ⟨rfl, -⟩ := Prod.mk.inj hpair
        obtain ⟨hlen', hget⟩ := ih hpath.1 htake (fun y hy => hl y (List.mem_of_mem_take hy))
          (fun p hp => hjoins p (hhalves p (.inl hp))) hr
        subst hlen'
        rw [List.getElem?_take_of_lt hpos] at hget
        exact ⟨rfl, by simpa using hget⟩
      | true =>
        obtain ⟨-, rfl⟩ := Prod.mk.inj hpair
        obtain ⟨hlen', hget⟩ := ih hpath.1 hdrop (fun y hy => hl y (List.mem_of_mem_drop hy))
          (fun p hp => hjoins p (hhalves p (.inr (.inl hp)))) hr'
        subst hlen'
        rw [List.getElem?_drop] at hget
        refine ⟨rfl, ?_⟩
        rw [Bool.toNat_true, Nat.mul_one, Nat.add_comm]
        exact hget

/-- A path to the root of a list. -/
theorem getElem?_of_ascend {path : List (Bool × α)} {x : α} (hx : x ∈ bottom)
    (hpath : ∀ p ∈ ascents node path x, p ∈ S) (hne : l ≠ []) (hl : ∀ y ∈ l, y ∈ bottom)
    (hjoins : ∀ p ∈ joins node l, p ∈ S) (h : climb node l = [ascend node path x]) :
    path.length = Nat.clog 2 l.length ∧ (fill l)[position (path.map Prod.fst)]? = some x :=
  getElem?_of_ascend_full hS hbottom hx hpath (length_fill hne) (fun y hy => hl y (mem_fill.mp hy))
    (fun p hp => hjoins p (joins_fill hp)) (by rw [climb_fill, h])

end Start

end HashTree
