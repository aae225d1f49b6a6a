import Mathlib.Order.Basic
import Mathlib.Order.Nat
import Mathlib.Order.WellFounded
import Mathlib.Algebra.Order.BigOperators.Group.List
import Mathlib.Algebra.Order.Group.Nat
import Mathlib.Algebra.Ring.Nat
import Mathlib.Tactic.Common

/-!
# Saturation by sweeps

A sweep goes over a list once and lets each item change the state in place;
the list is swept until a sweep changes nothing. `saturate` is that loop, for
items whose every change lowers a measure in a well-founded order. Whatever a change keeps holds at
the end (`saturate_inv`), and at the end no item has a change left
(`saturate_done`). `loop` is the same loop with a bound on its sweeps: it ends
for some bound (`exists_loop`), and for one that a progress of the sweeps gives
(`loop_stops`); `counted` counts changes. `total` measures a state that is a map, by its values at
some keys.
-/

namespace Saturate

variable {α σ γ : Type*} [Preorder γ] (step : α → σ → Option σ)

/-- One sweep, and whether it changed the state. -/
def sweep : List α → σ → σ × Bool
  | [], s => (s, false)
  | x :: xs, s => match step x s with
    | some s' => ((sweep xs s').1, true)
    | none => sweep xs s

variable {step}

theorem sweep_inv {I : σ → Prop} {xs : List α} (hI : ∀ x ∈ xs, ∀ {s s'}, I s → step x s = some s' → I s')
    {s : σ} (h : I s) : I (sweep step xs s).1 := by
  induction xs generalizing s with
  | nil => exact h
  | cons x xs ih =>
    have ih := fun {s} => ih (fun y hy => hI y (List.mem_cons_of_mem _ hy)) (s := s)
    simp only [sweep]
    split
    · rename_i s' hs
      exact ih (hI x List.mem_cons_self h hs)
    · exact ih h

/-- A sweep that changes nothing leaves the state as it is, and no item had a change. -/
theorem sweep_false {xs : List α} {s : σ} (h : (sweep step xs s).2 = false) :
    (sweep step xs s).1 = s ∧ ∀ x ∈ xs, step x s = none := by
  induction xs with
  | nil => exact ⟨rfl, by simp⟩
  | cons x xs ih =>
    simp only [sweep] at h ⊢
    split at h
    · cases h
    · rename_i hs
      exact ⟨(ih h).1, by simpa [hs] using (ih h).2⟩

/-- A sweep in which no item has a change changes nothing. -/
theorem sweep_snd_eq_false {xs : List α} {s : σ} (h : ∀ x ∈ xs, step x s = none) : (sweep step xs s).2 = false := by
  induction xs with
  | nil => rfl
  | cons x xs ih =>
    rw [List.forall_mem_cons] at h
    simp only [sweep, h.1]
    exact ih h.2

/-- After a sweep each item has what it brings about where its turn comes, if later changes keep it. -/
theorem sweep_establishes {I : σ → Prop} {Q : α → σ → Prop} {xs : List α}
    (hI : ∀ x ∈ xs, ∀ {s s'}, I s → step x s = some s' → I s')
    (hnone : ∀ x ∈ xs, ∀ {s}, I s → step x s = none → Q x s)
    (hsome : ∀ x ∈ xs, ∀ {s s'}, I s → step x s = some s' → Q x s')
    (hQ : ∀ x ∈ xs, ∀ y ∈ xs, ∀ {s s'}, I s → Q x s → step y s = some s' → Q x s') {s : σ} (h : I s) :
    ∀ x ∈ xs, Q x (sweep step xs s).1 := by
  -- what an item brought about in its turn, the rest of the sweep keeps
  have rest : ∀ (x) (ys : List α), x ∈ xs → (∀ y ∈ ys, y ∈ xs) → ∀ {s}, I s → Q x s → Q x (sweep step ys s).1 := by
    intro x ys hx hys s h hq
    exact (sweep_inv (I := fun s => I s ∧ Q x s)
      (fun y hy _ _ h hs => ⟨hI y (hys y hy) h.1 hs, hQ x hx y (hys y hy) h.1 h.2 hs⟩) ⟨h, hq⟩).2
  have key : ∀ ys : List α, (∀ y ∈ ys, y ∈ xs) → ∀ {s}, I s → ∀ x ∈ ys, Q x (sweep step ys s).1 := by
    intro ys
    induction ys with
    | nil => intro _ s _ x hx; cases hx
    | cons y ys ih =>
      intro hys s h x hx
      have hy := hys y List.mem_cons_self
      have hys' := fun z hz => hys z (List.mem_cons_of_mem y hz)
      simp only [sweep]
      split
      · rename_i s' hs
        obtain rfl | hx := List.mem_cons.mp hx
        · exact rest x ys hy hys' (hI x hy h hs) (hsome x hy h hs)
        · exact ih hys' (hI y hy h hs) x hx
      · rename_i hs
        obtain rfl | hx := List.mem_cons.mp hx
        · exact rest x ys hy hys' h (hnone x hy h hs)
        · exact ih hys' h x hx
  exact key xs (fun _ hx => hx) h

theorem sweep_le {μ : σ → γ} {xs : List α}
    (hμ : ∀ x ∈ xs, ∀ s s', step x s = some s' → μ s' < μ s) (s : σ) : μ (sweep step xs s).1 ≤ μ s :=
  sweep_inv (I := fun t => μ t ≤ μ s) (fun x hx _ _ h hs => (hμ x hx _ _ hs).le.trans h) le_rfl

theorem sweep_lt {μ : σ → γ} {xs : List α} (hμ : ∀ x ∈ xs, ∀ s s', step x s = some s' → μ s' < μ s)
    {s : σ} (h : (sweep step xs s).2 = true) : μ (sweep step xs s).1 < μ s := by
  induction xs generalizing s with
  | nil => cases h
  | cons x xs ih =>
    have hμ' := fun y hy => hμ y (List.mem_cons_of_mem x hy)
    simp only [sweep] at h ⊢
    split at h
    · rename_i s' hs
      exact (sweep_le hμ' s').trans_lt (hμ x List.mem_cons_self s s' hs)
    · exact ih hμ' h

variable (step)

/-- Sweep until nothing changes. -/
def saturate [WellFoundedLT γ] (xs : List α) (μ : σ → γ) (hμ : ∀ x ∈ xs, ∀ s s', step x s = some s' → μ s' < μ s)
    (s : σ) : σ :=
  if _h : (sweep step xs s).2 = true then saturate xs μ hμ (sweep step xs s).1 else (sweep step xs s).1
termination_by wellFounded_lt.wrap (μ s)
decreasing_by exact sweep_lt hμ _h

variable [WellFoundedLT γ] {step} {xs : List α} {μ : σ → γ} (hμ : ∀ x ∈ xs, ∀ s s', step x s = some s' → μ s' < μ s)

include hμ in
theorem saturate_induct {motive : σ → Prop}
    (again : ∀ s, (sweep step xs s).2 = true → motive (sweep step xs s).1 → motive s)
    (stop : ∀ s, (sweep step xs s).2 = false → motive s) (s : σ) : motive s := by
  refine (InvImage.wf μ wellFounded_lt).induction s fun s ih => ?_
  by_cases h : (sweep step xs s).2 = true
  · exact again s h (ih _ (sweep_lt hμ h))
  · exact stop s (by simpa using h)

/-- What every change keeps holds of the saturated state. -/
theorem saturate_inv {I : σ → Prop} (hI : ∀ x ∈ xs, ∀ {s s'}, I s → step x s = some s' → I s')
    {s : σ} (h : I s) : I (saturate step xs μ hμ s) := by
  induction s using saturate_induct hμ with
  | again s hs ih =>
    rw [saturate, dif_pos hs]
    exact ih (sweep_inv hI h)
  | stop s hs =>
    rw [saturate, dif_neg (by simp [hs])]
    exact sweep_inv hI h

/-- No item changes the saturated state. -/
theorem saturate_done (s : σ) : ∀ x ∈ xs, step x (saturate step xs μ hμ s) = none := by
  induction s using saturate_induct hμ with
  | again s hs ih =>
    rw [saturate, dif_pos hs]
    exact ih
  | stop s hs =>
    rw [saturate, dif_neg (by simp [hs]), (sweep_false hs).1]
    exact (sweep_false hs).2

/-! ## Counting -/

section Loop

variable (step) (xs)

/-- The loop, given up after so many sweeps. -/
def loop : Nat → σ → Option σ
  | 0, _ => none
  | n + 1, s => if (sweep step xs s).2 = true then loop n (sweep step xs s).1 else some (sweep step xs s).1

/-- A step that counts the changes. -/
def counted (x : α) (s : σ × Nat) : Option (σ × Nat) := (step x s.1).map fun s' => (s', s.2 + 1)

variable {step xs} {n : Nat} {s t : σ}

theorem loop_inv {I : σ → Prop} (hI : ∀ x ∈ xs, ∀ {s s'}, I s → step x s = some s' → I s') (h : I s)
    (hl : loop step xs n s = some t) : I t := by
  induction n generalizing s with
  | zero => cases hl
  | succ n ih =>
    simp only [loop] at hl
    split at hl
    · exact ih (sweep_inv hI h) hl
    · exact Option.some.inj hl ▸ sweep_inv hI h

/-- A loop that ends is `saturate`. -/
theorem loop_eq_saturate (hl : loop step xs n s = some t) : t = saturate step xs μ hμ s := by
  induction n generalizing s with
  | zero => cases hl
  | succ n ih =>
    simp only [loop] at hl
    split at hl
    · rename_i hs
      rw [ih hl, saturate.eq_1 step xs μ hμ s, dif_pos hs]
    · rename_i hs
      rw [saturate, dif_neg hs, Option.some.inj hl]

theorem exists_loop (s : σ) : ∃ n, loop step xs n s = some (saturate step xs μ hμ s) := by
  induction s using saturate_induct hμ with
  | again s hs ih =>
    obtain ⟨n, hn⟩ := ih
    refine ⟨n + 1, ?_⟩
    rw [saturate, dif_pos hs, loop, if_pos hs, hn]
  | stop s hs =>
    refine ⟨1, ?_⟩
    rw [saturate, dif_neg (by simp [hs]), loop, if_neg (by simp [hs])]

/-- Where every sweep makes progress `I` and nothing changes after `n` of them,
the loop ends in one more. -/
theorem loop_stops {I : Nat → σ → Prop} (hI : ∀ i s, I i s → I (i + 1) (sweep step xs s).1)
    (hn : ∀ s, I n s → (sweep step xs s).2 = false) (h : I 0 s) : ∃ t, loop step xs (n + 1) s = some t := by
  induction n generalizing I s with
  | zero => exact ⟨_, if_neg (by rw [hn s h]; exact Bool.false_ne_true)⟩
  | succ n ih =>
    rw [loop]
    split
    · exact ih (I := fun i => I (i + 1)) (fun i => hI (i + 1)) hn (hI 0 s h)
    · exact ⟨_, rfl⟩

theorem sweep_counted (ys : List α) (s : σ) (c : Nat) :
    (sweep (counted step) ys (s, c)).1.1 = (sweep step ys s).1 ∧
      (sweep (counted step) ys (s, c)).2 = (sweep step ys s).2 := by
  induction ys generalizing s c with
  | nil => exact ⟨rfl, rfl⟩
  | cons y ys ih =>
    simp only [sweep, counted]
    cases step y s with
    | none => exact ih s c
    | some s' => exact ⟨(ih s' (c + 1)).1, rfl⟩

/-- Counting does not change the loop. -/
theorem map_loop_counted (n : Nat) (s : σ × Nat) : (loop (counted step) xs n s).map Prod.fst = loop step xs n s.1 := by
  induction n generalizing s with
  | zero => rfl
  | succ n ih =>
    have hsweep : (sweep (counted step) xs s).1.1 = (sweep step xs s.1).1 ∧
        (sweep (counted step) xs s).2 = (sweep step xs s.1).2 := sweep_counted xs s.1 s.2
    obtain ⟨h₁, h₂⟩ := hsweep
    simp only [loop, h₂]
    split
    · rw [ih, h₁]
    · rw [Option.map_some, h₁]

end Loop

/-! ## Measures of maps -/

section Total

variable {ν β : Type*} [DecidableEq ν] {g : β → Nat} {keys : List ν} {f : ν → β} {n : ν} {b : β}

/-- The values of a map at some keys, weighed and added up. -/
def total (g : β → Nat) (keys : List ν) (f : ν → β) : Nat := (keys.map fun m => g (f m)).sum

/-- A change of one value to one that weighs the same. -/
theorem total_update_eq (h : g b = g (f n)) : total g keys (Function.update f n b) = total g keys f := by
  have : (fun m => g (Function.update f n b m)) = fun m => g (f m) := by
    funext m
    by_cases hm : m = n
    · rw [hm, Function.update_self, h]
    · rw [Function.update_of_ne hm]
  rw [total, this, total]

/-- A change of one value, at one of the keys, to one that weighs less. -/
theorem total_update_lt (hn : n ∈ keys) (h : g b < g (f n)) :
    total g keys (Function.update f n b) < total g keys f := by
  refine List.sum_lt_sum _ _ (fun m _ => ?_) ⟨n, hn, ?_⟩
  · by_cases hm : m = n
    · rw [hm, Function.update_self]
      exact h.le
    · rw [Function.update_of_ne hm]
  · rwa [Function.update_self]

end Total

end Saturate
