import Mathlib.Data.Set.Insert
import Mathlib.Order.FixedPoints
import Mathlib.Order.CompletePartialOrder

/-!
# Labelling an attack graph

A labelling of the arguments of an attack graph as in or out grows by
accepting an argument all of whose attackers are out, which puts out whatever
that argument attacks. `Admissible` is what acceptance keeps
(`Admissible.accept`), and no two arguments that are in attack each other
(`Admissible.conflictFree`). `defence` maps a set to the arguments that it
defends; where nothing is left to accept, what is in is its least fixpoint
(`Admissible.eq_lfp`), whatever the order of acceptance was.
-/

namespace Grounded

variable {ν : Type*} {attacks : ν → ν → Prop} {inn out : Set ν}

/-- What holds of a labelling reached by accepting arguments. -/
structure Admissible (attacks : ν → ν → Prop) (inn out : Set ν) : Prop where
  /-- An argument is in only when all of its attackers are out. -/
  defended : ∀ h ∈ inn, ∀ a, attacks a h → a ∈ out
  /-- Whatever an argument that is in attacks is out. -/
  defeats : ∀ h ∈ inn, ∀ t, attacks h t → t ∈ out
  /-- An argument is out only when one that is in attacks it. -/
  justified : ∀ t ∈ out, ∃ h ∈ inn, attacks h t
  disjoint : ∀ h ∈ inn, h ∉ out

namespace Admissible

theorem empty : Admissible attacks ∅ ∅ := by
  constructor <;> simp

/-- Accepting an argument that is not out and whose attackers all are. -/
theorem accept (L : Admissible attacks inn out) {h : ν} (hout : h ∉ out)
    (hatt : ∀ a, attacks a h → a ∈ out) :
    Admissible attacks (insert h inn) (out ∪ {t | attacks h t}) where
  defended := by
    rintro g (rfl | hg) a ha
    · exact .inl (hatt a ha)
    · exact .inl (L.defended g hg a ha)
  defeats := by
    rintro g (rfl | hg) t ht
    · exact .inr ht
    · exact .inl (L.defeats g hg t ht)
  justified := by
    rintro t (ht | ht)
    · obtain ⟨g, hg, h⟩ := L.justified t ht
      exact ⟨g, .inr hg, h⟩
    · exact ⟨h, .inl rfl, ht⟩
  disjoint := by
    -- what `h` attacks cannot be in: its attackers would all be out, and `h` is not
    rintro g (rfl | hg) (hg' | hg')
    · exact hout hg'
    · exact hout (hatt g hg')
    · exact L.disjoint g hg hg'
    · exact hout (L.defended g hg h hg')

theorem conflictFree (L : Admissible attacks inn out) {a b : ν} (ha : a ∈ inn) (hb : b ∈ inn) :
    ¬ attacks a b :=
  fun h => L.disjoint b hb (L.defeats a ha b h)

/-- What is out is what an argument that is in attacks. -/
theorem mem_out_iff (L : Admissible attacks inn out) {t : ν} : t ∈ out ↔ ∃ h ∈ inn, attacks h t :=
  ⟨L.justified t, fun ⟨h, hh, ht⟩ => L.defeats h hh t ht⟩

/-- An argument whose attackers are all out is not out. -/
theorem notMem_out (L : Admissible attacks inn out) {h : ν} (hatt : ∀ a, attacks a h → a ∈ out) : h ∉ out := by
  intro ho
  obtain ⟨g, hg, hgh⟩ := L.justified h ho
  exact L.disjoint g hg (hatt g hgh)

end Admissible

/-! ## The least fixpoint -/

/-- The arguments of `E` that a set defends: it attacks all of their attackers. -/
def defence (attacks : ν → ν → Prop) (E : Set ν) : Set ν →o Set ν where
  toFun S := {h | h ∈ E ∧ ∀ a, attacks a h → ∃ g ∈ S, attacks g a}
  monotone' := by
    rintro S T hST h ⟨hE, hd⟩
    refine ⟨hE, fun a ha => ?_⟩
    obtain ⟨g, hg, hga⟩ := hd a ha
    exact ⟨g, hST hg, hga⟩

variable {E : Set ν}

theorem mem_defence {S : Set ν} {h : ν} :
    h ∈ defence attacks E S ↔ h ∈ E ∧ ∀ a, attacks a h → ∃ g ∈ S, attacks g a := Iff.rfl

namespace Admissible

/-- Acceptance stays within every set that contains what it defends. -/
theorem accept_subset (L : Admissible attacks inn out) {S : Set ν} (hS : defence attacks E S ≤ S) (hin : inn ⊆ S)
    {h : ν} (hE : h ∈ E) (hatt : ∀ a, attacks a h → a ∈ out) : insert h inn ⊆ S := by
  refine Set.insert_subset (hS (mem_defence.mpr ⟨hE, fun a ha => ?_⟩)) hin
  obtain ⟨g, hg, hga⟩ := L.justified a (hatt a ha)
  exact ⟨g, hin hg, hga⟩

/-- Where no argument is left to accept, what is in is the least fixpoint. -/
theorem eq_lfp (L : Admissible attacks inn out) (hin : inn ⊆ OrderHom.lfp (defence attacks E))
    (hdone : ∀ h ∈ E, (∀ a, attacks a h → a ∈ out) → h ∈ inn) : inn = OrderHom.lfp (defence attacks E) := by
  refine Set.Subset.antisymm hin (OrderHom.lfp_le _ ?_)
  rintro h ⟨hE, hd⟩
  refine hdone h hE fun a ha => ?_
  obtain ⟨g, hg, hga⟩ := hd a ha
  exact L.defeats g hg a hga

end Admissible

end Grounded
