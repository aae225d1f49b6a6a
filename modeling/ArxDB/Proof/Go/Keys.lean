import ArxDB.Proof.Go.Log

/-!
# The key families

A key of the database, taken apart. Different keys have different bytes
(`Key.bytes_inj`), and the prefixes that are scanned hold the keys of one
family, or those of one owner in it.
-/

namespace ArxDB.Proof.Go

open Impl (Bytes GoAny Hash Prims)
open Impl.Go BigEndian

/-- A key, by what it stands for. -/
inductive Key where
  | node (node : Hash)
  | edge (edge : Hash)
  | premise (edge : Hash) (pos : UInt64)
  | incoming (conclusion edge : Hash)
  | outgoing (premise edge : Hash)
  | entry (seq : Int64)
  | entryHash (seq : Int64)
  | logLen
deriving DecidableEq

namespace Key

/-- The key, as it is stored. -/
def bytes : Key → Bytes
  | node n => GraphIndex.nodeKey n
  | edge e => GraphIndex.edgeKey e
  | premise e pos => GraphIndex.premiseKey e pos.toNat
  | incoming c e => GraphIndex.incomingKey c e
  | outgoing p e => GraphIndex.outgoingKey p e
  | entry seq => AppendLog.entryKey seq
  | entryHash seq => AppendLog.entryHashKey seq
  | logLen => AppendLog.logLenKey

/-- The first byte. -/
def tag : Key → UInt8
  | node _ => 'n'.toUInt8
  | edge _ => 'e'.toUInt8
  | premise _ _ => 'p'.toUInt8
  | incoming _ _ => 'c'.toUInt8
  | outgoing _ _ => 'o'.toUInt8
  | entry _ => 'l'.toUInt8
  | entryHash _ => 'h'.toUInt8
  | logLen => 'm'.toUInt8

theorem bytes_head (k : Key) : ∃ rest, k.bytes = k.tag :: rest := by
  cases k <;> exact ⟨_, rfl⟩

theorem tag_of_prefix {k : Key} {t : UInt8} {p : Bytes} (h : t :: p <+: k.bytes) : k.tag = t := by
  obtain ⟨rest, hr⟩ := k.bytes_head
  rw [hr, List.cons_prefix_cons] at h
  exact h.1.symm

theorem hashes_inj {a b c d : Hash} (h : a.raw ++ b.raw = c.raw ++ d.raw) : a = c ∧ b = d := by
  obtain ⟨h₁, h₂⟩ := List.append_inj h (a.size.trans c.size.symm)
  exact ⟨Hash.ext h₁, Hash.ext h₂⟩

theorem bytes_inj {k k' : Key} (h : k.bytes = k'.bytes) : k = k' := by
  have htag : k.tag = k'.tag := by
    obtain ⟨rest, hr⟩ := k'.bytes_head
    exact tag_of_prefix (p := rest) (by rw [h, hr])
  cases k <;> cases k' <;> dsimp only [tag] at htag <;> first | exact absurd htag (by decide) | skip
  case node n n' => rw [Hash.ext (List.cons.inj h).2]
  case edge e e' => rw [Hash.ext (List.cons.inj h).2]
  case premise e pos e' pos' =>
    have hlt := pos.toNat_lt
    have hlt' := pos'.toNat_lt
    obtain ⟨h₁, h₂⟩ := List.append_inj (List.cons.inj h).2 (e.size.trans e'.size.symm)
    rw [Hash.ext h₁, UInt64.toNat_inj.mp (be_inj (by omega) (by omega) h₂)]
  case incoming c e c' e' =>
    obtain ⟨rfl, rfl⟩ := hashes_inj (List.cons.inj h).2
    rfl
  case outgoing p e p' e' =>
    obtain ⟨rfl, rfl⟩ := hashes_inj (List.cons.inj h).2
    rfl
  case entry seq seq' => rw [entryKey_inj h]
  case entryHash seq seq' => rw [entryKey_inj (congrArg (List.cons _) (List.cons.inj h).2)]
  case logLen => rfl

/-! ## Scanned prefixes -/

theorem of_prefix_node {k : Key} (h : ['n'.toUInt8] <+: k.bytes) : ∃ n, k = node n := by
  have htag := tag_of_prefix h
  cases k <;> dsimp only [tag] at htag <;> first | exact absurd htag (by decide) | exact ⟨_, rfl⟩

theorem of_prefix_edge {k : Key} (h : ['e'.toUInt8] <+: k.bytes) : ∃ e, k = edge e := by
  have htag := tag_of_prefix h
  cases k <;> dsimp only [tag] at htag <;> first | exact absurd htag (by decide) | exact ⟨_, rfl⟩

/-- What starts with a hash and goes on starts with that hash. -/
theorem of_prefix_hash {x y : Hash} {t : UInt8} {rest : Bytes} (h : t :: x.raw <+: t :: (y.raw ++ rest)) : y = x := by
  rw [List.cons_prefix_cons] at h
  obtain ⟨tail, ht⟩ := h.2
  exact Hash.ext (List.append_inj ht (x.size.trans y.size.symm)).1.symm

theorem of_prefix_premise {k : Key} {e : Hash} (h : GraphIndex.premisePrefix e <+: k.bytes) :
    ∃ pos, k = premise e pos := by
  have htag := tag_of_prefix h
  cases k <;> dsimp only [tag] at htag <;> first | exact absurd htag (by decide) | skip
  case premise e' pos => exact ⟨pos, by rw [of_prefix_hash h]⟩

theorem of_prefix_incoming {k : Key} {c : Hash} (h : GraphIndex.incomingPrefix c <+: k.bytes) :
    ∃ e, k = incoming c e := by
  have htag := tag_of_prefix h
  cases k <;> dsimp only [tag] at htag <;> first | exact absurd htag (by decide) | skip
  case incoming c' e => exact ⟨e, by rw [of_prefix_hash h]⟩

theorem of_prefix_outgoing {k : Key} {p : Hash} (h : GraphIndex.outgoingPrefix p <+: k.bytes) :
    ∃ e, k = outgoing p e := by
  have htag := tag_of_prefix h
  cases k <;> dsimp only [tag] at htag <;> first | exact absurd htag (by decide) | skip
  case outgoing p' e => exact ⟨e, by rw [of_prefix_hash h]⟩

end Key

end ArxDB.Proof.Go
