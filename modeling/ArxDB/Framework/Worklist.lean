import Mathlib.Logic.Relation
import Mathlib.Tactic.Common

/-!
# Searches with a worklist

A search takes an item off its list of things to do, skips it if it was done
before, and else does it and adds what the item leads to. `Search` is what
holds on the way, whatever the order; when nothing is left to do, exactly the
items that the start leads to are done (`Search.mem_iff`).
-/

namespace Worklist

variable {α : Type*} {R : α → α → Prop} {start : Set α} {done todo : List α} {x : α}

/-- What the start leads to. -/
def Leads (R : α → α → Prop) (start : Set α) (x : α) : Prop := ∃ s ∈ start, Relation.ReflTransGen R s x

theorem Leads.step {y : α} (h : Leads R start x) (hxy : R x y) : Leads R start y := by
  obtain ⟨s, hs, hr⟩ := h
  exact ⟨s, hs, hr.tail hxy⟩

/-- Between what is done and what is left to do. -/
structure Search (R : α → α → Prop) (start : Set α) (done todo : List α) : Prop where
  started {x : α} (hx : x ∈ start) : x ∈ done ∨ x ∈ todo
  leads {x : α} (hx : x ∈ done ∨ x ∈ todo) : Leads R start x
  onward {x : α} (hx : x ∈ done) {y : α} (hxy : R x y) : y ∈ done ∨ y ∈ todo

namespace Search

theorem init (h : ∀ x, x ∈ todo ↔ x ∈ start) : Search R start [] todo where
  started hx := .inr ((h _).mpr hx)
  leads hx := ⟨_, (h _).mp (hx.resolve_left List.not_mem_nil), .refl⟩
  onward hx := absurd hx List.not_mem_nil

/-- An item that was done before. -/
theorem skip (h : Search R start done (x :: todo)) (hx : x ∈ done) : Search R start done todo := by
  have shorter : ∀ {y}, y ∈ done ∨ y ∈ x :: todo → y ∈ done ∨ y ∈ todo := by
    intro y hy
    rcases hy with hy | hy
    · exact .inl hy
    · rcases List.mem_cons.mp hy with rfl | hy
      exacts [.inl hx, .inr hy]
  exact ⟨fun hs => shorter (h.started hs), fun hy => h.leads (hy.imp_right (List.mem_cons_of_mem _)),
    fun hy _ hyz => shorter (h.onward hy hyz)⟩

/-- An item is done, and what it leads to is added. -/
theorem visit {todo' : List α} (h : Search R start done (x :: todo)) (hnew : ∀ y, y ∈ todo' ↔ R x y ∨ y ∈ todo) :
    Search R start (x :: done) todo' := by
  have later : ∀ {y}, y ∈ done ∨ y ∈ x :: todo → y ∈ x :: done ∨ y ∈ todo' := by
    intro y hy
    rcases hy with hy | hy
    · exact .inl (List.mem_cons_of_mem _ hy)
    · rcases List.mem_cons.mp hy with rfl | hy
      · exact .inl List.mem_cons_self
      · exact .inr ((hnew y).mpr (.inr hy))
  have hx : Leads R start x := h.leads (.inr List.mem_cons_self)
  refine ⟨fun hs => later (h.started hs), fun {y} hy => ?_, fun {y} hy z hyz => ?_⟩
  · rcases hy with hy | hy
    · rcases List.mem_cons.mp hy with rfl | hy
      exacts [hx, h.leads (.inl hy)]
    · rcases (hnew y).mp hy with hy | hy
      exacts [hx.step hy, h.leads (.inr (List.mem_cons_of_mem _ hy))]
  · rcases List.mem_cons.mp hy with rfl | hy
    · exact .inr ((hnew z).mpr (.inl hyz))
    · exact later (h.onward hy hyz)

/-- Nothing is left to do. -/
theorem mem_iff (h : Search R start done []) : x ∈ done ↔ Leads R start x := by
  have hdone : ∀ {y}, y ∈ done ∨ y ∈ [] → y ∈ done := fun hy => hy.resolve_right List.not_mem_nil
  refine ⟨fun hx => h.leads (.inl hx), fun hx => ?_⟩
  obtain ⟨s, hs, hr⟩ := hx
  induction hr with
  | refl => exact hdone (h.started hs)
  | tail _ hxy ih => exact hdone (h.onward ih hxy)

end Search

end Worklist
