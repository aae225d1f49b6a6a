import Mathlib.Data.List.Induction
import Mathlib.Data.List.Infix
import Mathlib.Tactic.Common

/-!
# Records that are written again

A store holds one record a key, and a key may be written again: `join old new`
is what becomes of its record. Where a record is a list and a head, the list is
written position by position, so a shorter one leaves the rest of the old
(`overwrite`), and where written positions are left alone it only grows
(`keep`). With it come indexes by head and by member, which are only ever
added to; they agree with the records exactly when every write is `Consistent`
with what is on record (`agrees_iff`).
-/

namespace Record

variable {κ ρ ν : Type}

/-! ## Lists -/

/-- `new` written over `old`, position by position. -/
def overwrite (old new : List ν) : List ν := new ++ old.drop new.length

theorem getElem?_overwrite (old new : List ν) (i : Nat) : (overwrite old new)[i]? = new[i]?.or old[i]? := by
  rw [overwrite]
  by_cases hi : i < new.length
  · rw [List.getElem?_append_left hi, List.getElem?_eq_getElem hi, Option.some_or]
  · have hle : new.length ≤ i := by omega
    rw [List.getElem?_append_right hle, List.getElem?_drop, List.getElem?_eq_none hle, Option.none_or,
      Nat.add_sub_cancel' hle]

theorem length_overwrite (old new : List ν) : (overwrite old new).length = max old.length new.length := by
  rw [overwrite, List.length_append, List.length_drop]
  omega

theorem mem_overwrite_new {old new : List ν} {x : ν} (h : x ∈ new) : x ∈ overwrite old new :=
  List.mem_append_left _ h

/-! ## Records -/

section Keyed

variable [DecidableEq κ] {join : ρ → ρ → ρ} {writes : List (κ × ρ)} {w : κ × ρ} {k : κ} {r : ρ}

/-- What is on record for a key after the writes. -/
def record (join : ρ → ρ → ρ) (writes : List (κ × ρ)) (k : κ) : Option ρ :=
  writes.foldl (fun r w => if w.1 = k then some (r.elim w.2 (join · w.2)) else r) none

@[simp] theorem record_nil : record join [] k = none := rfl

theorem record_concat : record join (writes ++ [w]) k =
    if w.1 = k then some ((record join writes k).elim w.2 (join · w.2)) else record join writes k :=
  List.foldl_concat ..

theorem record_concat_ne (h : w.1 ≠ k) : record join (writes ++ [w]) k = record join writes k := by
  rw [record_concat, if_neg h]

/-- Exactly the keys that were written have a record. -/
theorem isSome_record_iff : (record join writes k).isSome ↔ ∃ r, (k, r) ∈ writes := by
  induction writes using List.reverseRecOn with
  | nil => simp
  | append_singleton writes w ih =>
    rw [record_concat]
    by_cases hw : w.1 = k
    · rw [if_pos hw]
      exact iff_of_true rfl ⟨w.2, by rw [← hw]; simp⟩
    · rw [if_neg hw, ih]
      refine exists_congr fun r => ?_
      rw [List.mem_append, List.mem_singleton, or_iff_left]
      rintro rfl
      exact hw rfl

theorem record_eq_none_iff : record join writes k = none ↔ ∀ r, (k, r) ∉ writes := by
  rw [← Option.not_isSome_iff_eq_none, isSome_record_iff, not_exists]

end Keyed

/-! ## Records that keep what they have -/

section Kept

variable [DecidableEq κ] {writes done : List (κ × List ν × ν)} {w : κ × List ν × ν} {k : κ}

/-- The old head, and the old list over the new. -/
def keep (old new : List ν × ν) : List ν × ν := (overwrite new.1 old.1, old.2)

theorem keep_eq_left_iff {old new : List ν × ν} : keep old new = old ↔ new.1.length ≤ old.1.length := by
  rw [keep, Prod.ext_iff, and_iff_left rfl, overwrite, List.append_right_eq_self, List.drop_eq_nil_iff]

/-- What the first write to a key says. -/
def first (writes : List (κ × ρ)) (k : κ) : Option ρ := (writes.find? fun w => decide (w.1 = k)).map Prod.snd

theorem first_concat {writes : List (κ × ρ)} {w : κ × ρ} :
    first (writes ++ [w]) k = (first writes k).or (if w.1 = k then some w.2 else none) := by
  rw [first, List.find?_append, List.find?_singleton, first]
  by_cases hk : w.1 = k
  · cases writes.find? fun w => decide (w.1 = k) <;> simp [hk]
  · cases writes.find? fun w => decide (w.1 = k) <;> simp [hk]

theorem first_mono {pre writes : List (κ × ρ)} (h : pre <+: writes) {r : ρ} (hr : first pre k = some r) :
    first writes k = some r := by
  obtain ⟨w, hw, rfl⟩ := Option.map_eq_some_iff.mp hr
  rw [first, h.find?_eq_some hw, Option.map_some]

/-- A record stays as it was first written exactly where no write to it has a longer list. -/
theorem record_keep_concat_iff (h : ∀ k, record keep done k = first done k) :
    (∀ k, record keep (done ++ [w]) k = first (done ++ [w]) k) ↔
      ∀ r, first done w.1 = some r → w.2.1.length ≤ r.1.length := by
  have hne : ∀ k, w.1 ≠ k → record keep (done ++ [w]) k = first (done ++ [w]) k := by
    intro k hk
    rw [record_concat_ne hk, first_concat, if_neg hk, Option.or_none, h]
  have heq : record keep (done ++ [w]) w.1 = first (done ++ [w]) w.1 ↔
      ∀ r, first done w.1 = some r → w.2.1.length ≤ r.1.length := by
    rw [record_concat, if_pos rfl, first_concat, if_pos rfl, h]
    cases first done w.1 with
    | none => simp
    | some r => simp [keep_eq_left_iff]
  rw [← heq]
  refine ⟨fun h => h w.1, fun hw k => ?_⟩
  by_cases hk : w.1 = k
  · exact hk ▸ hw
  · exact hne k hk

end Kept

/-! ## Indexes that are only added to -/

section Indexed

variable [DecidableEq κ] {writes done : List (κ × List ν × ν)} {w : κ × List ν × ν}

/-- The new head, and the new list over the old. -/
def replace (old new : List ν × ν) : List ν × ν := (overwrite old.1 new.1, new.2)

/-- The key was written with a head, or with a member, exactly when it has
that on record, and its record is that of one write. -/
structure AgreesAt (writes : List (κ × List ν × ν)) (k : κ) : Prop where
  head {x : ν} : (∃ l, (k, l, x) ∈ writes) ↔ ∃ l, record replace writes k = some (l, x)
  member {x : ν} : (∃ l y, (k, l, y) ∈ writes ∧ x ∈ l) ↔ ∃ l y, record replace writes k = some (l, y) ∧ x ∈ l
  single {r : List ν × ν} (h : record replace writes k = some r) : (k, r) ∈ writes

/-- The indexes agree with the records. -/
def Agrees (writes : List (κ × List ν × ν)) : Prop := ∀ k, AgreesAt writes k

/-- A write to a key on record keeps the head, loses no member, and leaves the list of one write. -/
def Consistent (done : List (κ × List ν × ν)) (w : κ × List ν × ν) : Prop :=
  ∀ l x, record replace done w.1 = some (l, x) →
    w.2.2 = x ∧ (∀ y ∈ l, y ∈ overwrite l w.2.1) ∧ (w.1, overwrite l w.2.1, x) ∈ done ++ [w]

theorem record_replace_concat {l : List ν} {x : ν} (h : record replace done w.1 = some (l, x)) :
    record replace (done ++ [w]) w.1 = some (overwrite l w.2.1, w.2.2) := by
  rw [record_concat, if_pos rfl, h]
  rfl

theorem Agrees.consistent (h : Agrees done) (h' : Agrees (done ++ [w])) : Consistent done w := by
  intro l x hrec
  have hnew : record replace (done ++ [w]) w.1 = some (overwrite l w.2.1, w.2.2) := record_replace_concat hrec
  have hmem : (w.1, l, x) ∈ done ++ [w] := List.mem_append_left _ ((h w.1).single hrec)
  have hhead : w.2.2 = x := by
    obtain ⟨l', hl'⟩ := (h' w.1).head.mp ⟨l, hmem⟩
    rw [hnew, Option.some.injEq, Prod.mk.injEq] at hl'
    exact hl'.2
  refine ⟨hhead, fun y hy => ?_, hhead ▸ (h' w.1).single hnew⟩
  obtain ⟨l', y', hl', hy'⟩ := (h' w.1).member.mp ⟨l, x, hmem, hy⟩
  rw [hnew, Option.some.injEq, Prod.mk.injEq] at hl'
  rwa [hl'.1]

/-- A write to another key. -/
theorem AgreesAt.other {k : κ} (h : AgreesAt done k) (hk : w.1 ≠ k) : AgreesAt (done ++ [w]) k := by
  have hmem : ∀ r, (k, r) ∈ done ++ [w] ↔ (k, r) ∈ done := by
    intro r
    rw [List.mem_append, List.mem_singleton, or_iff_left]
    exact fun e => hk (congrArg Prod.fst e).symm
  refine ⟨fun {x} => ?_, fun {x} => ?_, fun {r} hr => ?_⟩
  · simp only [hmem, record_concat_ne hk, h.head]
  · simp only [hmem, record_concat_ne hk, h.member]
  · rw [record_concat_ne hk] at hr
    exact (hmem r).mpr (h.single hr)

/-- The first write to a key. -/
theorem agreesAt_first {k : κ} {l : List ν} {x : ν} (hrec : record replace done k = none) :
    AgreesAt (done ++ [(k, l, x)]) k := by
  have hmem : ∀ r, (k, r) ∈ done ++ [(k, l, x)] ↔ r = (l, x) := by
    intro r
    simp [record_eq_none_iff.mp hrec r]
  have hnew : record replace (done ++ [(k, l, x)]) k = some (l, x) := by
    rw [record_concat, if_pos rfl, hrec]
    rfl
  refine ⟨fun {y} => ?_, fun {y} => ?_, fun {r} hr => ?_⟩
  · simp only [hmem, hnew, Option.some.injEq, eq_comm]
  · simp only [hmem, hnew, Option.some.injEq, eq_comm]
  · rw [hnew, Option.some.injEq] at hr
    exact (hmem r).mpr hr.symm

/-- A consistent write to a key on record. -/
theorem AgreesAt.again {k : κ} {l l₀ : List ν} {x : ν} (h : AgreesAt done k)
    (hrec : record replace done k = some (l₀, x)) (hmem : ∀ y ∈ l₀, y ∈ overwrite l₀ l)
    (hsingle : (k, overwrite l₀ l, x) ∈ done ++ [(k, l, x)]) : AgreesAt (done ++ [(k, l, x)]) k := by
  have hnew : record replace (done ++ [(k, l, x)]) k = some (overwrite l₀ l, x) := record_replace_concat hrec
  have hcases : ∀ {r}, (k, r) ∈ done ++ [(k, l, x)] → (k, r) ∈ done ∨ r = (l, x) := by
    intro r hr
    simpa using hr
  refine ⟨⟨fun hy => ?_, fun hy => ?_⟩, ⟨fun hy => ?_, fun hy => ?_⟩, fun {r} hr => ?_⟩
  · obtain ⟨l', hl'⟩ := hy
    rcases hcases hl' with hl' | hl'
    · -- an earlier head is the one on record
      obtain ⟨l'', hl''⟩ := h.head.mp ⟨l', hl'⟩
      rw [hrec, Option.some.injEq, Prod.mk.injEq] at hl''
      obtain ⟨-, rfl⟩ := hl''
      exact ⟨_, hnew⟩
    · obtain ⟨-, rfl⟩ := Prod.mk.inj hl'
      exact ⟨_, hnew⟩
  · obtain ⟨l', hl'⟩ := hy
    rw [hnew, Option.some.injEq, Prod.mk.injEq] at hl'
    obtain ⟨-, rfl⟩ := hl'
    exact ⟨_, hsingle⟩
  · obtain ⟨l', y', hl', hy⟩ := hy
    rcases hcases hl' with hl' | hl'
    · obtain ⟨l'', y'', hl'', hy⟩ := h.member.mp ⟨l', y', hl', hy⟩
      rw [hrec, Option.some.injEq, Prod.mk.injEq] at hl''
      obtain ⟨rfl, -⟩ := hl''
      exact ⟨_, _, hnew, hmem _ hy⟩
    · obtain ⟨rfl, -⟩ := Prod.mk.inj hl'
      exact ⟨_, _, hnew, mem_overwrite_new hy⟩
  · obtain ⟨l', y', hl', hy⟩ := hy
    rw [hnew, Option.some.injEq, Prod.mk.injEq] at hl'
    obtain ⟨rfl, -⟩ := hl'
    exact ⟨_, _, hsingle, hy⟩
  · rw [hnew, Option.some.injEq] at hr
    exact hr ▸ hsingle

theorem Agrees.concat (h : Agrees done) (hc : Consistent done w) : Agrees (done ++ [w]) := by
  intro k
  by_cases hk : w.1 = k
  · obtain ⟨k', l, x⟩ := w
    obtain rfl : k' = k := hk
    cases hrec : record replace done k' with
    | none => exact agreesAt_first hrec
    | some r =>
      obtain ⟨rfl, hmem, hsingle⟩ := hc r.1 r.2 hrec
      exact (h k').again hrec hmem hsingle
  · exact (h k).other hk

theorem Agrees.nil : Agrees ([] : List (κ × List ν × ν)) := by
  refine fun k => ⟨by simp, by simp, fun {r} h => ?_⟩
  cases h

/-- The indexes agree with the records all along exactly when every write is consistent. -/
theorem agrees_iff : (∀ pre, pre <+: writes → Agrees pre) ↔ ∀ done w, done ++ [w] <+: writes → Consistent done w := by
  constructor
  · intro h done w hpre
    have hdone : done <+: writes := (List.prefix_append _ _).trans hpre
    exact (h done hdone).consistent (h _ hpre)
  · intro h pre hpre
    induction pre using List.reverseRecOn with
    | nil => exact .nil
    | append_singleton done w ih =>
      have hdone : done <+: writes := (List.prefix_append _ _).trans hpre
      exact (ih hdone).concat (h done w hpre)

end Indexed

end Record
