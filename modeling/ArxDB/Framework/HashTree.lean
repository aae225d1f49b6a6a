import Mathlib.Data.Nat.Factorization.Basic
import Mathlib.Data.Set.Function
import Mathlib.Tactic.Ring

/-!
# Hash trees that repeat the last node of an odd level

A level is paired up (`pairs`), the pairs are hashed to the next level (`up`),
and `climb` goes up until one node is left. Two lists with the same root are
not the same list: `fill` repeats the last block of every level that has an
odd number of them, and the root is that of the filled list
(`climb_fill`). That is all the root forgets: where `node` is injective on
the pairs that are hashed (`joins`), lists with the same root have the same
filling (`fill_eq_of_climb_eq`). `fill_concat_eq_iff` says which element can
be added to a list without changing its filling.
-/

namespace HashTree

variable {α β δ : Type*}

/-- The pairs of a level, from the left; a last odd node is paired with itself. -/
def pairs : List α → List (α × α)
  | a :: b :: l => (a, b) :: pairs l
  | [a] => [(a, a)]
  | [] => []

/-- The level above. -/
def up (node : α → α → α) (l : List α) : List α := (pairs l).map fun p => node p.1 p.2

@[simp] theorem length_pairs : ∀ l : List α, (pairs l).length = (l.length + 1) / 2
  | _ :: _ :: l => by simp only [pairs, List.length_cons, length_pairs l]; omega
  | [_] => by simp [pairs]
  | [] => by simp [pairs]

@[simp] theorem length_up (node : α → α → α) (l : List α) : (up node l).length = (l.length + 1) / 2 := by
  simp [up]

theorem getElem_pairs : ∀ (l : List α) (j : Nat) (hj : j < (pairs l).length) (h : 2 * j < l.length),
    (pairs l)[j] = (l[2 * j], if h' : 2 * j + 1 < l.length then l[2 * j + 1] else l[2 * j])
  | [], j, hj, _ => by simp [pairs] at hj
  | [a], j, hj, _ => by
    have hj : j = 0 := by simpa [pairs] using hj
    subst hj
    simp [pairs]
  | a :: b :: l, 0, _, _ => by simp [pairs]
  | a :: b :: l, j + 1, hj, h => by
    have hj' : j < (pairs l).length := by simpa [pairs] using hj
    have hl : 2 * j < l.length := by simp only [List.length_cons] at h; omega
    have ih := getElem_pairs l j hj' hl
    simp only [pairs, List.getElem_cons_succ, ih, show 2 * (j + 1) = 2 * j + 1 + 1 by omega, List.length_cons,
      Nat.add_lt_add_iff_right]

/-- Level by level up to a single node. -/
def climb (node : α → α → α) (l : List α) : List α :=
  if 1 < l.length then climb node (up node l) else l
termination_by l.length
decreasing_by simp; omega

/-- Every pair that `climb` hashes. -/
def joins (node : α → α → α) (l : List α) : List (α × α) :=
  if 1 < l.length then pairs l ++ joins node (up node l) else []
termination_by l.length
decreasing_by simp; omega

/-- From blocks of `s` entries upwards: where the number of blocks is odd,
the last one is repeated. -/
def fillFrom (s : Nat) (l : List α) : List α :=
  if 0 < s ∧ s < l.length ∧ s ∣ l.length then
    fillFrom (2 * s) (if l.length / s % 2 = 1 then l ++ l.drop (l.length - s) else l)
  else l
termination_by l.length / s
decreasing_by
  rename_i h
  obtain ⟨hs, hl, b, hb⟩ := h
  have h2 : 1 < b := by
    rcases Nat.lt_or_ge 1 b with h | h
    · exact h
    · have := Nat.mul_le_mul_left s h; omega
  rw [hb, Nat.mul_div_cancel_left b hs]
  split
  · rw [List.length_append, List.length_drop, hb, show s * b + (s * b - (s * b - s)) = s * (b + 1) by
      rw [Nat.sub_sub_self (by omega)]; ring, Nat.mul_comm 2 s, Nat.mul_div_mul_left _ _ hs]
    omega
  · rw [hb, Nat.mul_comm 2 s, Nat.mul_div_mul_left _ _ hs]
    omega

/-- The list filled up to a power of two. -/
def fill (l : List α) : List α := fillFrom 1 l

/-! ## Pairs -/

theorem pairs_append : ∀ {l : List α} (m : List α), l.length % 2 = 0 → pairs (l ++ m) = pairs l ++ pairs m
  | _ :: _ :: l, m, h => by
    simp only [List.cons_append, pairs, pairs_append (l := l) m (by simp only [List.length_cons] at h; omega)]
  | [_], _, h => by simp at h
  | [], _, _ => rfl

theorem pairs_drop : ∀ (k : Nat) (l : List α), pairs (l.drop (2 * k)) = (pairs l).drop k
  | 0, _ => rfl
  | _ + 1, [] => by simp [pairs]
  | _ + 1, [_] => by simp [pairs, Nat.mul_add]
  | k + 1, _ :: _ :: l => by
    rw [show 2 * (k + 1) = 2 * k + 1 + 1 by ring]
    simp only [List.drop_succ_cons, pairs]
    exact pairs_drop k l

theorem pairs_inj : ∀ {l m : List α}, l.length % 2 = 0 → m.length % 2 = 0 → pairs l = pairs m → l = m
  | [], [], _, _, _ => rfl
  | a :: b :: l, c :: d :: m, hl, hm, h => by
    simp only [pairs, List.cons.injEq, Prod.mk.injEq] at h
    simp only [List.length_cons] at hl hm
    rw [h.1.1, h.1.2, pairs_inj (by omega) (by omega) h.2]
  | [], _ :: _ :: _, _, _, h => by simp [pairs] at h
  | _ :: _ :: _, [], _, _, h => by simp [pairs] at h
  | [_], _, hl, _, _ => by simp at hl
  | _, [_], _, hm, _ => by simp at hm

theorem mem_of_mem_pairs : ∀ {l : List α} {p : α × α}, p ∈ pairs l → p.1 ∈ l ∧ p.2 ∈ l
  | _ :: _ :: l, p, h => by
    rcases List.mem_cons.mp h with rfl | h
    · simp
    · obtain ⟨h₁, h₂⟩ := mem_of_mem_pairs h
      exact ⟨by simp [h₁], by simp [h₂]⟩
  | [_], _, h => by
    obtain rfl := List.mem_singleton.mp h
    simp

/-- Repeating the last entry of an odd list does not change its pairs. -/
theorem pairs_repeat_last : ∀ {l : List α}, l.length % 2 = 1 → pairs (l ++ l.drop (l.length - 1)) = pairs l
  | a :: b :: l, h => by
    simp only [List.length_cons] at h
    have hd : (a :: b :: l).drop ((a :: b :: l).length - 1) = l.drop (l.length - 1) := by
      rw [show (a :: b :: l).length - 1 = l.length - 1 + 1 + 1 by simp only [List.length_cons]; omega]
      rfl
    rw [hd, List.cons_append, List.cons_append, pairs, pairs, pairs_repeat_last (by omega)]
  | [_], _ => rfl

theorem up_append (node : α → α → α) {l : List α} (m : List α) (h : l.length % 2 = 0) :
    up node (l ++ m) = up node l ++ up node m := by
  simp only [up, pairs_append m h, List.map_append]

theorem up_drop (node : α → α → α) (k : Nat) (l : List α) :
    up node (l.drop (2 * k)) = (up node l).drop k := by
  simp only [up, pairs_drop, List.map_drop]

/-! ## Filling -/

theorem fillFrom_pos {s : Nat} {l : List α} (h : 0 < s ∧ s < l.length ∧ s ∣ l.length) :
    fillFrom s l =
      fillFrom (2 * s) (if l.length / s % 2 = 1 then l ++ l.drop (l.length - s) else l) := by
  rw [fillFrom, if_pos h]

theorem fillFrom_neg {s : Nat} {l : List α} (h : ¬ (0 < s ∧ s < l.length ∧ s ∣ l.length)) :
    fillFrom s l = l := by
  rw [fillFrom, if_neg h]

theorem prefix_fillFrom (s : Nat) (l : List α) : l <+: fillFrom s l := by
  induction s, l using fillFrom.induct with
  | case1 s l h ih =>
    rw [fillFrom_pos h]
    simp only [dite_eq_ite] at ih
    split at ih
    · rename_i ho
      rw [if_pos ho]
      exact (List.prefix_append _ _).trans ih
    · rename_i ho
      rw [if_neg ho]
      exact ih
  | case2 s l h => exact (fillFrom_neg h).symm ▸ List.prefix_rfl

theorem mem_fillFrom {s : Nat} {l : List α} {x : α} : x ∈ fillFrom s l ↔ x ∈ l := by
  induction s, l using fillFrom.induct with
  | case1 s l h ih =>
    rw [fillFrom_pos h]
    simp only [dite_eq_ite] at ih
    rw [ih]
    split
    · rw [List.mem_append]
      exact ⟨fun h => h.elim id List.mem_of_mem_drop, .inl⟩
    · exact Iff.rfl
  | case2 s l h => rw [fillFrom_neg h]

theorem mem_fill {l : List α} {x : α} : x ∈ fill l ↔ x ∈ l := mem_fillFrom

theorem fillFrom_map (f : α → β) (s : Nat) (l : List α) :
    fillFrom s (l.map f) = (fillFrom s l).map f := by
  induction s, l using fillFrom.induct with
  | case1 s l h ih =>
    rw [fillFrom_pos h, fillFrom_pos (by simpa using h)]
    simp only [List.length_map, dite_eq_ite] at ih ⊢
    rw [← ih]
    split <;> simp [List.map_drop]
  | case2 s l h => rw [fillFrom_neg h, fillFrom_neg (by simpa using h)]

theorem fill_map (f : α → β) (l : List α) : fill (l.map f) = (fill l).map f := fillFrom_map f 1 l

/-- On blocks of even size, filling keeps the length even and adds no pair. -/
theorem pairs_fillFrom {t : Nat} {l : List α} (he : l.length % 2 = 0) (ht : t % 2 = 0) :
    (fillFrom t l).length % 2 = 0 ∧ ∀ p ∈ pairs (fillFrom t l), p ∈ pairs l := by
  induction t, l using fillFrom.induct with
  | case1 t l h ih =>
    rw [fillFrom_pos h]
    simp only [dite_eq_ite] at ih
    by_cases ho : l.length / t % 2 = 1
    · simp only [ho, if_true] at ih ⊢
      have hd : l.length - t = 2 * ((l.length - t) / 2) := by omega
      have hp : ∀ p ∈ pairs (l ++ l.drop (l.length - t)), p ∈ pairs l := by
        rw [pairs_append _ he, hd, pairs_drop]
        intro p hp
        rcases List.mem_append.mp hp with hp | hp
        · exact hp
        · exact List.mem_of_mem_drop hp
      obtain ⟨h₁, h₂⟩ := ih (by simp only [List.length_append, List.length_drop]; omega) (by omega)
      exact ⟨h₁, fun p hp' => hp p (h₂ p hp')⟩
    · simp only [ho, if_false] at ih ⊢
      exact ih he (by omega)
  | case2 t l h => rw [fillFrom_neg h]; exact ⟨he, fun p hp => hp⟩

theorem up_fillFrom (node : α → α → α) {s : Nat} {l : List α} (he : l.length % 2 = 0) :
    up node (fillFrom (2 * s) l) = fillFrom s (up node l) := by
  have key : ∀ t : Nat, ∀ l : List α, ∀ s, t = 2 * s → l.length % 2 = 0 →
      up node (fillFrom t l) = fillFrom s (up node l) := by
    intro t l
    induction t, l using fillFrom.induct with
    | case1 t l h ih =>
      rintro s rfl he
      obtain ⟨h₀, h₁, b, hb⟩ := h
      have hb' : (up node l).length = s * b := by
        rw [length_up, hb, show 2 * s * b = 2 * (s * b) by ring]; omega
      have hlb : l.length = 2 * (s * b) := by rw [hb]; ring
      have hq : l.length / (2 * s) = (up node l).length / s := by
        rw [hb, hb', Nat.mul_div_cancel_left _ (by omega), Nat.mul_div_cancel_left _ (by omega)]
      rw [fillFrom_pos ⟨h₀, h₁, b, hb⟩, fillFrom_pos ⟨by omega, by omega, b, hb'⟩, ← hq]
      simp only [dite_eq_ite] at ih
      by_cases ho : l.length / (2 * s) % 2 = 1
      · simp only [ho, if_true] at ih ⊢
        rw [ih (2 * s) rfl (by simp only [List.length_append, List.length_drop]; omega),
          up_append node _ he, show l.length - 2 * s = 2 * ((up node l).length - s) by omega, up_drop]
      · simp only [ho, if_false] at ih ⊢
        exact ih (2 * s) rfl he
    | case2 t l h =>
      rintro s rfl he
      rw [fillFrom_neg h, fillFrom_neg fun h' => h ?_]
      obtain ⟨h₀, h₁, b, hb⟩ := h'
      rw [length_up] at h₁ hb
      refine ⟨by omega, by omega, b, ?_⟩
      rw [Nat.mul_assoc]
      omega
  exact key _ l s rfl he

/-- An odd level with its last node repeated. -/
theorem fill_of_one_lt {l : List α} (h : 1 < l.length) :
    fill l = fillFrom 2 (if l.length % 2 = 1 then l ++ l.drop (l.length - 1) else l) := by
  rw [fill, fillFrom_pos ⟨Nat.one_pos, h, Nat.one_dvd _⟩, Nat.div_one]

theorem fill_of_le_one {l : List α} (h : l.length ≤ 1) : fill l = l :=
  fillFrom_neg fun h' => absurd h'.2.1 (by omega)

/-- Filling a level, seen one level up. -/
theorem up_fill (node : α → α → α) {l : List α} (h : 1 < l.length) :
    up node (fill l) = fill (up node l) := by
  rw [fill_of_one_lt h]
  by_cases ho : l.length % 2 = 1
  · rw [if_pos ho, up_fillFrom node (s := 1) (by simp only [List.length_append, List.length_drop]; omega), fill]
    simp only [up, pairs_repeat_last ho]
  · rw [if_neg ho, up_fillFrom node (s := 1) (by omega), fill]

theorem pairs_fill {l : List α} (h : 1 < l.length) :
    (fill l).length % 2 = 0 ∧ ∀ p ∈ pairs (fill l), p ∈ pairs l := by
  rw [fill_of_one_lt h]
  by_cases ho : l.length % 2 = 1
  · rw [if_pos ho]
    have := pairs_fillFrom (t := 2) (l := l ++ l.drop (l.length - 1))
      (by simp only [List.length_append, List.length_drop]; omega) rfl
    rwa [pairs_repeat_last ho] at this
  · rw [if_neg ho]
    exact pairs_fillFrom (by omega) rfl

/-- A list with a whole number of blocks of `2 ^ k` entries is filled from those. -/
theorem fill_eq_fillFrom_pow {l : List α} : ∀ {k : Nat}, 2 ^ k ∣ l.length → fill l = fillFrom (2 ^ k) l
  | 0, _ => rfl
  | k + 1, h => by
    have hk : 2 ^ k ∣ l.length := (pow_dvd_pow 2 (Nat.le_succ k)).trans h
    rw [fill_eq_fillFrom_pow hk]
    by_cases hl : 2 ^ k < l.length
    · rw [fillFrom_pos ⟨Nat.two_pow_pos k, hl, hk⟩, if_neg, pow_succ']
      obtain ⟨b, hb⟩ := h
      rw [hb, pow_succ, Nat.mul_assoc, Nat.mul_div_cancel_left _ (Nat.two_pow_pos k)]
      omega
    · rw [fillFrom_neg fun h' => hl h'.2.1, fillFrom_neg fun h' => hl ?_]
      exact (Nat.pow_lt_pow_right Nat.one_lt_two (Nat.lt_succ_self k)).trans h'.2.1

/-- One more entry `x` is repeated up to the blocks the list had. -/
theorem fill_concat {l : List α} (hl : 0 < l.length) (x : α) : ∀ {k : Nat}, 2 ^ k ∣ l.length →
    fill (l ++ [x]) = fillFrom (2 ^ k) (l ++ List.replicate (2 ^ k) x)
  | 0, _ => rfl
  | k + 1, h => by
    rw [fill_concat hl x ((pow_dvd_pow 2 (Nat.le_succ k)).trans h)]
    obtain ⟨b, hb⟩ := h
    have hb' : l.length = 2 ^ k * (2 * b) := by rw [hb]; ring
    have hlen : (l ++ List.replicate (2 ^ k) x).length = 2 ^ k * (2 * b + 1) := by
      rw [List.length_append, List.length_replicate, hb']; ring
    have hpos := Nat.two_pow_pos k
    rw [fillFrom_pos ⟨hpos, by rw [List.length_append, List.length_replicate]; omega, ⟨_, hlen⟩⟩, hlen,
      Nat.mul_div_cancel_left _ hpos, if_pos (by omega), pow_succ', ← hlen, List.length_append,
      List.length_replicate, Nat.add_sub_cancel, List.drop_left, List.append_assoc,
      List.replicate_append_replicate, ← Nat.two_mul]

theorem length_le_fill (l : List α) : l.length ≤ (fill l).length := (prefix_fillFrom 1 l).length_le

/-- Lists of one length are told apart by their filling. -/
theorem fill_inj_of_length {l l' : List α} (h : fill l = fill l') (hlen : l.length = l'.length) : l = l' := by
  have p₁ : l <+: fill l' := h ▸ prefix_fillFrom 1 l
  have p₂ : l' <+: fill l' := prefix_fillFrom 1 l'
  exact (List.prefix_of_prefix_length_le p₁ p₂ hlen.le).eq_of_length hlen

/-- The elements that do not show: adding `x` to a list leaves its filling as
it is exactly when the list has an odd number of blocks (three or more) of
some size `2 ^ k` and the last block is `2 ^ k` times `x`. -/
theorem fill_concat_eq_iff {l : List α} {x : α} :
    fill (l ++ [x]) = fill l ↔
      ∃ k b, l.length = 2 ^ k * (2 * b + 3) ∧ l.drop (l.length - 2 ^ k) = List.replicate (2 ^ k) x := by
  constructor
  · intro h
    have hlong := length_le_fill (l ++ [x])
    rw [h, List.length_append, List.length_singleton] at hlong
    have hl : 0 < l.length := by
      rcases Nat.eq_zero_or_pos l.length with h₀ | h₀
      · rw [fill_of_le_one (by omega)] at hlong
        omega
      · exact h₀
    obtain ⟨k, m, ⟨b, rfl⟩, hm⟩ := Nat.exists_eq_two_pow_mul_odd hl.ne'
    have hpos := Nat.two_pow_pos k
    have hdvd : 2 ^ k ∣ l.length := ⟨_, hm⟩
    have hfill := fill_eq_fillFrom_pow hdvd
    rcases b with _ | b
    · rw [hfill, fillFrom_neg fun h' => absurd h'.2.1 (by omega)] at hlong
      omega
    have hlt : 2 ^ k < l.length := by
      rw [hm]
      exact (Nat.lt_mul_iff_one_lt_right hpos).mpr (by omega)
    refine ⟨k, b, by rw [hm]; ring, ?_⟩
    rw [fillFrom_pos ⟨hpos, hlt, hdvd⟩, hm, Nat.mul_div_cancel_left _ hpos, if_pos (by omega), ← hm] at hfill
    have p₁ := prefix_fillFrom (2 * 2 ^ k) (l ++ l.drop (l.length - 2 ^ k))
    have p₂ := prefix_fillFrom (2 ^ k) (l ++ List.replicate (2 ^ k) x)
    rw [← hfill] at p₁
    rw [← fill_concat hl x hdvd, h] at p₂
    have hlen : (l ++ l.drop (l.length - 2 ^ k)).length = (l ++ List.replicate (2 ^ k) x).length := by
      simp only [List.length_append, List.length_drop, List.length_replicate]
      omega
    exact List.append_cancel_left ((List.prefix_of_prefix_length_le p₁ p₂ hlen.le).eq_of_length hlen)
  · rintro ⟨k, b, hb, hd⟩
    have hpos := Nat.two_pow_pos k
    have hl : 0 < l.length := by rw [hb]; exact Nat.mul_pos hpos (by omega)
    have hdvd : 2 ^ k ∣ l.length := ⟨_, hb⟩
    have hlen : (l ++ List.replicate (2 ^ k) x).length = 2 ^ k * (2 * b + 4) := by
      rw [List.length_append, List.length_replicate, hb]; ring
    have hlt : 2 ^ k < l.length := by
      rw [hb]
      exact (Nat.lt_mul_iff_one_lt_right hpos).mpr (by omega)
    rw [fill_concat hl x hdvd, fill_eq_fillFrom_pow hdvd, fillFrom_pos ⟨hpos, hlt, hdvd⟩,
      fillFrom_pos ⟨hpos, by rw [List.length_append]; omega, ⟨_, hlen⟩⟩, hlen,
      Nat.mul_div_cancel_left _ hpos, if_neg (by omega), hd, hb, Nat.mul_div_cancel_left _ hpos,
      if_pos (by omega)]

theorem eq_of_map_eq {f : α → β} {S : Set α} (hS : Set.InjOn f S) :
    ∀ {l m : List α}, (∀ a ∈ l, a ∈ S) → (∀ a ∈ m, a ∈ S) → l.map f = m.map f → l = m
  | [], [], _, _, _ => rfl
  | a :: l, b :: m, hl, hm, h => by
    simp only [List.map_cons, List.cons.injEq] at h
    rw [hS (hl a List.mem_cons_self) (hm b List.mem_cons_self) h.1,
      eq_of_map_eq hS (fun a ha => hl a (List.mem_cons_of_mem _ ha))
        (fun a ha => hm a (List.mem_cons_of_mem _ ha)) h.2]
  | [], _ :: _, _, _, h => by simp at h
  | _ :: _, [], _, _, h => by simp at h

/-! ## The root -/

section Root

variable (node : δ → δ → δ)

theorem climb_of_one_lt {l : List δ} (h : 1 < l.length) : climb node l = climb node (up node l) := by
  rw [climb, if_pos h]

theorem climb_of_le_one {l : List δ} (h : l.length ≤ 1) : climb node l = l := by
  rw [climb, if_neg (by omega)]

theorem joins_of_one_lt {l : List δ} (h : 1 < l.length) :
    joins node l = pairs l ++ joins node (up node l) := by
  rw [joins, if_pos h]

theorem joins_of_le_one {l : List δ} (h : l.length ≤ 1) : joins node l = [] := by
  rw [joins, if_neg (by omega)]

theorem length_climb {l : List δ} (h : l ≠ []) : (climb node l).length = 1 := by
  induction l using climb.induct node with
  | case1 l h₁ ih =>
    rw [climb_of_one_lt node h₁]
    refine ih fun e => ?_
    have := congrArg List.length e
    rw [length_up, List.length_nil] at this
    omega
  | case2 l h₁ =>
    rw [climb_of_le_one node (by omega)]
    have := List.length_pos_iff.mpr h
    omega

/-- The root is that of the filled list. -/
theorem climb_fill (l : List δ) : climb node (fill l) = climb node l := by
  induction l using climb.induct node with
  | case1 l h ih =>
    rw [climb_of_one_lt node h, climb_of_one_lt node (h.trans_le (length_le_fill l)), up_fill node h, ih]
  | case2 l h => rw [fill_of_le_one (by omega)]

/-- Above a level of two nodes or more, the root is the hash of a pair. -/
theorem climb_eq_node {l : List δ} (h : 1 < l.length) :
    ∃ p ∈ joins node l, climb node l = [node p.1 p.2] := by
  induction l using climb.induct node with
  | case1 l h ih =>
    rw [climb_of_one_lt node h, joins_of_one_lt node h]
    rcases Nat.lt_or_ge 1 (up node l).length with hu | hu
    · obtain ⟨p, hp, e⟩ := ih hu
      exact ⟨p, List.mem_append_right _ hp, e⟩
    · rw [climb_of_le_one node hu]
      obtain ⟨p, hp⟩ : ∃ p, pairs l = [p] := by
        rw [← List.length_eq_one_iff, length_pairs]
        rw [length_up] at hu
        omega
      exact ⟨p, by simp [hp], by simp [up, hp]⟩
  | case2 l h' => exact absurd h h'

/-- A node in a pair is of the level itself or the hash of a pair. -/
theorem fst_of_mem_joins {l : List δ} {p : δ × δ} (hp : p ∈ joins node l) :
    p.1 ∈ l ∨ ∃ q ∈ joins node l, p.1 = node q.1 q.2 := by
  induction l using climb.induct node with
  | case1 l h ih =>
    rw [joins_of_one_lt node h] at hp ⊢
    rcases List.mem_append.mp hp with hp | hp
    · exact .inl (mem_of_mem_pairs hp).1
    rcases ih hp with hm | ⟨q, hq, e⟩
    · obtain ⟨q, hq, e⟩ := List.mem_map.mp hm
      exact .inr ⟨q, List.mem_append_left _ hq, e.symm⟩
    · exact .inr ⟨q, List.mem_append_right _ hq, e⟩
  | case2 l h => rw [joins_of_le_one node (by omega)] at hp; cases hp

variable {node}

/-- Where no two different pairs hash alike, and no node of one list is the
hash of a pair of the other, lists with the same root have the same filling. -/
theorem fill_eq_of_climb_eq {S : Set (δ × δ)} (hS : Set.InjOn (fun p : δ × δ => node p.1 p.2) S)
    {l m : List δ} (hl : ∀ p ∈ joins node l, p ∈ S) (hm : ∀ p ∈ joins node m, p ∈ S)
    (hlm : ∀ x ∈ l, ∀ p ∈ joins node m, x ≠ node p.1 p.2)
    (hml : ∀ x ∈ m, ∀ p ∈ joins node l, x ≠ node p.1 p.2)
    (hl₀ : l ≠ []) (hm₀ : m ≠ []) (h : climb node l = climb node m) : fill l = fill m := by
  induction l using climb.induct node generalizing m with
  | case2 l h₁ =>
    rcases Nat.lt_or_ge 1 m.length with h₂ | h₂
    · obtain ⟨p, hp, e⟩ := climb_eq_node node h₂
      rw [climb_of_le_one node (by omega), e] at h
      exact absurd rfl (hlm (node p.1 p.2) (by simp [h]) p hp)
    · rwa [climb_of_le_one node (by omega), climb_of_le_one node h₂, ← fill_of_le_one (l := l) (by omega),
        ← fill_of_le_one h₂] at h
  | case1 l h₁ ih =>
    rcases Nat.lt_or_ge 1 m.length with h₂ | h₂
    swap
    · obtain ⟨p, hp, e⟩ := climb_eq_node node h₁
      rw [climb_of_le_one node h₂, e] at h
      exact absurd rfl (hml (node p.1 p.2) (by simp [← h]) p hp)
    rw [climb_of_one_lt node h₁, climb_of_one_lt node h₂] at h
    have jl := joins_of_one_lt node h₁
    have jm := joins_of_one_lt node h₂
    -- a node of `up a` is not the hash of a pair above `up b`: the pair would hold a node of `a`
    have sep : ∀ {a b : List δ}, 1 < a.length → 1 < b.length → (∀ p ∈ joins node a, p ∈ S) →
        (∀ p ∈ joins node b, p ∈ S) → (∀ x ∈ a, ∀ p ∈ joins node b, x ≠ node p.1 p.2) →
        ∀ x ∈ up node a, ∀ p ∈ joins node (up node b), x ≠ node p.1 p.2 := by
      intro a b ha hb hSa hSb hab x hx p hp e
      obtain ⟨q, hq, rfl⟩ := List.mem_map.mp hx
      rw [joins_of_one_lt node ha] at hSa
      rw [joins_of_one_lt node hb] at hSb hab
      obtain rfl := hS (hSa q (List.mem_append_left _ hq)) (hSb p (List.mem_append_right _ hp)) e
      rcases fst_of_mem_joins node hp with hu | ⟨r, hr, e'⟩
      · obtain ⟨r, hr, e'⟩ := List.mem_map.mp hu
        exact hab q.1 (mem_of_mem_pairs hq).1 r (List.mem_append_left _ hr) e'.symm
      · exact hab q.1 (mem_of_mem_pairs hq).1 r (List.mem_append_right _ hr) e'
    have ne : ∀ {a : List δ}, 1 < a.length → up node a ≠ [] := fun ha e => by
      have := congrArg List.length e
      simp only [length_up, List.length_nil] at this
      omega
    have hu := ih (fun p hp => hl p (jl ▸ List.mem_append_right _ hp))
      (fun p hp => hm p (jm ▸ List.mem_append_right _ hp)) (sep h₁ h₂ hl hm hlm) (sep h₂ h₁ hm hl hml)
      (ne h₁) (ne h₂) h
    rw [← up_fill node h₁, ← up_fill node h₂] at hu
    obtain ⟨el, sl⟩ := pairs_fill h₁
    obtain ⟨em, sm⟩ := pairs_fill h₂
    refine pairs_inj el em (eq_of_map_eq hS (fun p hp => hl p ?_) (fun p hp => hm p ?_) hu)
    · exact jl ▸ List.mem_append_left _ (sl p hp)
    · exact jm ▸ List.mem_append_left _ (sm p hp)

end Root

end HashTree
