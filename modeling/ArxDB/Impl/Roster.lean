import ArxDB.Impl.Serialization

/-!
# `roster.py`
-/

namespace ArxDB.Impl

/-- An ordered dict of agents and their keys that passed `__post_init__`. -/
structure Roster where
  entries : List (String × Bytes)
  nodup : (entries.map Prod.fst).Nodup
  named : ∀ e ∈ entries, e.1 ≠ ""
  sized : ∀ e ∈ entries, e.2.length = 32

namespace Roster

/-- The roster of a dict, whose keys are different: the checks of `__post_init__`. -/
def new (entries : List (String × Bytes)) (nodup : (entries.map Prod.fst).Nodup) : Except PyError Roster :=
  if h : (∀ e ∈ entries, e.1 ≠ "") ∧ ∀ e ∈ entries, e.2.length = 32 then .ok ⟨entries, nodup, h.1, h.2⟩
  else .error .valueError

/-- `to_canonical`. -/
def toCanonical (r : Roster) : Value :=
  .dict [
    (.str "version", .int 1),
    (.str "bindings", .list (r.entries.map fun e => .list [.str e.1, .bytes e.2]))]

/-- `roster_bytes`. -/
def rosterBytes (P : Prims) (r : Roster) : Except PyError Bytes := P.canonicalEncode r.toCanonical

/-- `roster_hash`. -/
def rosterHash (P : Prims) (r : Roster) : Except PyError Hash := P.hashBytes <$> r.rosterBytes P

/-- `resolve`: the key bound to an agent. -/
def resolve (r : Roster) (agentId : String) : Option Bytes := r.entries.lookup agentId

/-- `identify`: the first agent whose key it is. No key is equal to a value that is not bytes. -/
def identify (r : Roster) (pubkey : Value) : Option String :=
  match pubkey with
  | .bytes b => (r.entries.find? fun e => e.2 = b).map Prod.fst
  | _ => none

/-- The items of a dict all of whose keys are text. -/
def texts : List (Value × Bytes) → Option (List (String × Bytes))
  | [] => some []
  | (.str s, b) :: items => (texts items).map ((s, b) :: ·)
  | _ :: _ => none

theorem texts_map (entries : List (String × Bytes)) : texts (entries.map (Prod.map .str id)) = some entries := by
  induction entries with
  | nil => rfl
  | cons e entries ih =>
    show (texts _).map _ = _
    rw [ih, Option.map_some]
    rfl

theorem eq_of_texts {items : List (Value × Bytes)} {entries : List (String × Bytes)} (h : texts items = some entries) :
    items = entries.map (Prod.map .str id) := by
  induction items generalizing entries with
  | nil =>
    obtain rfl := Option.some.inj h
    rfl
  | cons x items ih =>
    unfold texts at h
    split at h
    · simp at *
    · rename_i heq
      obtain ⟨rfl, rfl⟩ := List.cons.inj heq
      obtain ⟨entries, he, rfl⟩ := Option.map_eq_some_iff.mp h
      rw [ih he]
      rfl
    · simp at h

variable (P : Prims)

theorem nodup_texts {d : Dict P.equal Bytes} {entries : List (String × Bytes)} (h : texts d.items = some entries) :
    (entries.map Prod.fst).Nodup := by
  have hd := d.distinct
  rw [Dict.Distinct, eq_of_texts h, List.map_map, List.pairwise_map] at hd
  rw [List.nodup_iff_pairwise_ne, List.pairwise_map]
  exact hd.imp fun hab => ne_of_beq_false hab

/-- `Roster(entries)` for a dict: `__post_init__` refuses a key that is not text. -/
def ofDict (d : Dict P.equal Bytes) : Except PyError Roster :=
  match h : texts d.items with
  | none => .error .valueError
  | some entries => new entries (nodup_texts P h)

/-- The items of the dict comprehension in `from_bytes`. -/
def fill : List Value → Dict P.equal Bytes → Except PyError (Dict P.equal Bytes)
  | [], d => .ok d
  | v :: vs, d => do
    let (agentId, pubkey) ← v.unpack
    fill vs (← P.setItem d agentId (← pubkey.toBytes))

/-- `from_bytes`: of an agent that is bound two times the later binding stays. -/
def fromBytes (data : Bytes) : Except PyError Roster := do
  let d ← P.canonicalDecode data
  ofDict P (← fill P (← (← d.getItem "bindings").iter) .empty)

end Roster

end ArxDB.Impl
