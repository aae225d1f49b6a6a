import ArxDB.Framework.HashPath
import ArxDB.Proof.Go.Merkle
import ArxDB.Proof.Merkle

/-!
# Inclusion proofs

The siblings that the prover lists lead from a leaf to the root
(`verifyFrom_siblings`), in Python and in Go (`inclusion_complete`). A path
that the verifier accepts is as long as the tree is high and starts at a leaf
of the list (`inclusion_sound`). It is the leaf at the index modulo the width
of the tree, with the last nodes repeated, and so the leaf at the index where
the index is one of the list (`accepted_index_unique`).
-/

namespace ArxDB.Proof

open Impl HashTree

variable {P : Prims} {leaves : List Hash}

/-! ## The steps of the verifier -/

/-- What `verify_inclusion` reads off the index: the node is on the right where it is odd. -/
def steps : List Hash → Int → List (Bool × Hash)
  | [], _ => []
  | sibling :: path, idx => (decide (idx % 2 ≠ 0), sibling) :: steps path (idx / 2)

theorem verifyFrom_eq (path : List Hash) (idx : Int) (current : Hash) :
    Merkle.verifyFrom P path idx current = ascend (Merkle.internalNode P) (steps path idx) current := by
  induction path generalizing idx current with
  | nil => rfl
  | cons sibling path ih =>
    rw [Merkle.verifyFrom, ih, steps, ascend]
    by_cases h : idx % 2 = 0
    · simp [h, beside]
    · simp [h, beside]

theorem length_steps (path : List Hash) (idx : Int) : (steps path idx).length = path.length := by
  induction path generalizing idx with
  | nil => rfl
  | cons sibling path ih => rw [steps, List.length_cons, ih, List.length_cons]

/-- Modulo the width of the tree the bits are the index. -/
theorem position_steps (path : List Hash) (idx : Int) :
    (position ((steps path idx).map Prod.fst) : Int) = idx % 2 ^ path.length := by
  induction path generalizing idx with
  | nil => simp [steps, position]
  | cons sibling path ih =>
    have hbit : ((decide (idx % 2 ≠ 0)).toNat : Int) = idx % 2 := by
      rcases Int.emod_two_eq_zero_or_one idx with h | h
      · simp [h]
      · simp [h]
    have hpos : (0 : Int) < 2 ^ path.length := Int.pow_pos two_pos
    have hlow := Int.emod_nonneg (idx / 2) hpos.ne'
    have hhigh := Int.emod_lt_of_pos (idx / 2) hpos
    have hidx : idx = idx % 2 + 2 * (idx / 2 % 2 ^ path.length) +
        2 ^ (path.length + 1) * (idx / 2 / 2 ^ path.length) := by
      have h₁ := Int.emod_add_mul_ediv idx 2
      have h₂ := Int.emod_add_mul_ediv (idx / 2) (2 ^ path.length)
      calc idx = idx % 2 + 2 * (idx / 2) := h₁.symm
        _ = idx % 2 + 2 * (idx / 2 % 2 ^ path.length + 2 ^ path.length * (idx / 2 / 2 ^ path.length)) := by rw [h₂]
        _ = _ := by ring
    rw [steps, List.map_cons, position, Nat.cast_add, Nat.cast_mul, ih, hbit, List.length_cons]
    conv_rhs => rw [hidx, Int.add_mul_emod_self_left]
    refine (Int.emod_eq_of_lt (by push_cast; omega) ?_).symm
    rw [pow_succ]
    push_cast
    omega

/-- Everything that the verifier hashes. -/
def verifyMessages (P : Prims) (proof : Merkle.InclusionProof) : List Bytes :=
  Merkle.leafMessage proof.leafHash ::
    (ascents (Merkle.internalNode P) (steps proof.path proof.index) (Merkle.leafNode P proof.leafHash)).map
      fun p => Merkle.internalMessage p.1 p.2

/-- The verifier ends in the hash of a leaf or of a pair. -/
theorem verifyFrom_eq_hash (proof : Merkle.InclusionProof) : ∃ m ∈ verifyMessages P proof, m ≠ Merkle.emptyMessage ∧
    Merkle.verifyFrom P proof.path proof.index (Merkle.leafNode P proof.leafHash) = P.hashBytes m := by
  rw [verifyFrom_eq, verifyMessages]
  rcases List.eq_nil_or_concat (steps proof.path proof.index) with hnil | ⟨path, ⟨b, s⟩, hconcat⟩
  · rw [hnil]
    exact ⟨_, List.mem_cons_self, by simp [Merkle.leafMessage, Merkle.emptyMessage], rfl⟩
  · rw [hconcat, List.concat_eq_append, ascend_concat, ascents_concat]
    refine ⟨_, List.mem_cons_of_mem _ (List.mem_map_of_mem (List.mem_append_right _ List.mem_cons_self)), ?_, rfl⟩
    simp [Merkle.internalMessage, Merkle.emptyMessage]

/-! ## What is accepted -/

section Accepted

variable {proof : Merkle.InclusionProof}
  (hM : Set.InjOn P.hashBytes {m | m ∈ Merkle.messages P leaves ∨ m ∈ verifyMessages P proof})
  (h : Merkle.verifyInclusion P proof (Merkle.rootHash P leaves) = true)

include hM h

theorem leaves_ne_nil : leaves ≠ [] := by
  rintro rfl
  obtain ⟨m, hm, hne, hhash⟩ := verifyFrom_eq_hash (P := P) proof
  have hroot := of_decide_eq_true h
  rw [hhash, rootHash_nil] at hroot
  exact hne (hM (.inr hm) (.inl (List.mem_append_left _ List.mem_cons_self)) hroot)

/-- An accepted path is as long as the tree is high, and leads from the leaf at the index modulo its width. -/
theorem accepted_position : proof.path.length = Nat.clog 2 leaves.length ∧
    (fill leaves)[(proof.index % 2 ^ proof.path.length).toNat]? = some proof.leafHash := by
  have hne := leaves_ne_nil hM h
  have hroot : Merkle.verifyFrom P proof.path proof.index (Merkle.leafNode P proof.leafHash) =
      Merkle.rootHash P leaves := of_decide_eq_true h
  let M : Set Bytes := {m | m ∈ Merkle.messages P leaves ∨ m ∈ verifyMessages P proof}
  have hown : ∀ x ∈ leaves, Merkle.leafMessage x ∈ M := fun x hx =>
    .inl (List.mem_append_left _ (List.mem_cons_of_mem _ (List.mem_map_of_mem hx)))
  have hstart : Merkle.leafMessage proof.leafHash ∈ M := .inr List.mem_cons_self
  have hnode : Set.InjOn (fun p : Hash × Hash => Merkle.internalNode P p.1 p.2)
      {p | Merkle.internalMessage p.1 p.2 ∈ M} := by
    intro p hp q hq e
    obtain ⟨e₁, e₂⟩ := internalMessage_inj.mp (hM hp hq e)
    exact Prod.ext e₁ e₂
  have hbottom : ∀ x ∈ Merkle.leafNode P '' {x | Merkle.leafMessage x ∈ M},
      ∀ p ∈ {p : Hash × Hash | Merkle.internalMessage p.1 p.2 ∈ M}, x ≠ Merkle.internalNode P p.1 p.2 := by
    rintro _ ⟨x, hx, rfl⟩ p hp e
    have := hM hx hp e
    simp [Merkle.leafMessage, Merkle.internalMessage] at this
  have hleaves : ∀ y ∈ leaves.map (Merkle.leafNode P), y ∈ Merkle.leafNode P '' {x | Merkle.leafMessage x ∈ M} := by
    intro y hy
    obtain ⟨x, hx, rfl⟩ := List.mem_map.mp hy
    exact Set.mem_image_of_mem _ (hown x hx)
  obtain ⟨hlen, hget⟩ := getElem?_of_ascend hnode hbottom (l := leaves.map (Merkle.leafNode P))
    (Set.mem_image_of_mem _ hstart) (fun p hp => .inr (List.mem_cons_of_mem _ (List.mem_map_of_mem hp)))
    (by simpa using hne) hleaves (fun p hp => .inl (List.mem_append_right _ (List.mem_map_of_mem hp)))
    (by rw [rootHash_eq_head hne, ← hroot, verifyFrom_eq])
  rw [length_steps, List.length_map] at hlen
  rw [fill_map, List.getElem?_map, Option.map_eq_some_iff] at hget
  obtain ⟨x, hx, he⟩ := hget
  have hxl : x ∈ leaves := mem_fill.mp (List.mem_of_getElem? hx)
  obtain rfl : x = proof.leafHash := leafMessage_inj.mp (hM (hown x hxl) hstart he)
  rw [← position_steps, Int.toNat_natCast]
  exact ⟨hlen, hx⟩

end Accepted

/-- Whatever the index and the path, what is accepted is a leaf, with a path as long as the tree is high. -/
theorem inclusion_sound (leaves : List Hash) (proof : Merkle.InclusionProof)
    (hM : Set.InjOn P.hashBytes {m | m ∈ Merkle.messages P leaves ∨ m ∈ verifyMessages P proof})
    (h : Merkle.verifyInclusion P proof (Merkle.rootHash P leaves) = true) :
    proof.leafHash ∈ leaves ∧ proof.path.length = Nat.clog 2 leaves.length := by
  obtain ⟨hlen, hget⟩ := accepted_position hM h
  exact ⟨mem_fill.mp (List.mem_of_getElem? hget), hlen⟩

/-! ## What the prover builds -/

/-- The siblings lead to the root of the level. -/
theorem verifyFrom_siblings {level : List Hash} {idx : Nat} {current root : Hash} (hc : level[idx]? = some current)
    (hr : climb (Merkle.internalNode P) level = [root]) :
    Merkle.verifyFrom P (Merkle.siblings P level idx) idx current = root := by
  induction level, idx using Merkle.siblings.induct P generalizing current with
  | case1 level idx h ih =>
    obtain ⟨hidx, rfl⟩ := List.getElem?_eq_some_iff.mp hc
    have hsib : Merkle.siblingIdx level idx < level.length := by
      unfold Merkle.siblingIdx
      split_ifs <;> omega
    have hup : (up (Merkle.internalNode P) level)[idx / 2]? =
        some (if idx % 2 = 0 then Merkle.internalNode P level[idx] level[Merkle.siblingIdx level idx]
          else Merkle.internalNode P level[Merkle.siblingIdx level idx] level[idx]) := by
      obtain ⟨j, rfl | rfl⟩ := Nat.even_or_odd' idx
      · rw [Nat.mul_div_cancel_left j two_pos, getElem?_up _ hidx, if_pos (by omega)]
        by_cases hj : 2 * j + 1 < level.length
        · have hs : Merkle.siblingIdx level (2 * j) = 2 * j + 1 := by
            rw [Merkle.siblingIdx, if_pos (by omega), if_neg (by omega)]
          simp only [hs, dif_pos hj]
        · have hs : Merkle.siblingIdx level (2 * j) = 2 * j := by
            rw [Merkle.siblingIdx, if_pos (by omega), if_pos (by omega)]
          simp only [hs, dif_neg hj]
      · rw [show (2 * j + 1) / 2 = j by omega, getElem?_up _ (by omega), if_neg (by omega), dif_pos hidx]
        have hs : Merkle.siblingIdx level (2 * j + 1) = 2 * j := by
          rw [Merkle.siblingIdx, if_neg (by omega), Nat.add_sub_cancel]
        simp only [hs]
    rw [climb_of_one_lt _ h] at hr
    rw [Merkle.siblings, if_pos h, List.getElem?_eq_getElem hsib, Option.toList_some, List.singleton_append,
      Merkle.verifyFrom]
    have hmod : ((idx : Int) % 2 = 0) = (idx % 2 = 0) := propext (by omega)
    have hdiv : (idx : Int) / 2 = ((idx / 2 : Nat) : Int) := by omega
    rw [hdiv]
    simp only [hmod]
    exact ih hup hr
  | case2 level idx h =>
    have hidx := (List.getElem?_eq_some_iff.mp hc).1
    obtain rfl : idx = 0 := by omega
    rw [climb_of_le_one _ (by omega)] at hr
    subst hr
    rw [Merkle.siblings, if_neg h, Merkle.verifyFrom]
    exact (Option.some.inj hc).symm

/-! ## Both implementations -/

/-- A proof of `merkle.py` in `merkle.go`. -/
def toGo (proof : Merkle.InclusionProof) : Go.Merkle.InclusionProof := ⟨proof.leafHash, proof.index, proof.path⟩

/-- A proof of `merkle.go` in `merkle.py`. -/
def ofGo (proof : Go.Merkle.InclusionProof) : Merkle.InclusionProof := ⟨proof.leafHash, proof.index, proof.path⟩

/-- For an index that is not negative the two verifiers are the same. -/
theorem goVerifyFrom_eq (path : List Hash) {idx : Int} (h : 0 ≤ idx) (current : Hash) :
    Go.Merkle.verifyFrom P path idx current = Merkle.verifyFrom P path idx current := by
  induction path generalizing idx current with
  | nil => rfl
  | cons sibling path ih =>
    rw [Go.Merkle.verifyFrom, Merkle.verifyFrom, Int.tdiv_eq_ediv_of_nonneg h, Int.tmod_eq_emod_of_nonneg h,
      ih (by omega)]
    rfl

theorem goVerifyInclusion_eq {proof : Merkle.InclusionProof} (h : 0 ≤ proof.index) (root : Hash) :
    Go.Merkle.verifyInclusion P (toGo proof) root = Merkle.verifyInclusion P proof root := by
  rw [Go.Merkle.verifyInclusion, Merkle.verifyInclusion, toGo, goVerifyFrom_eq _ h]
  rfl

/-- `verify_inclusion` and `VerifyInclusion` accept the proof. -/
def AcceptedByBoth (P : Prims) (proof : Merkle.InclusionProof) (root : Hash) : Prop :=
  Merkle.verifyInclusion P proof root = true ∧ Go.Merkle.verifyInclusion P (toGo proof) root = true

/-- The proof says that it is about this index of the list, and names the leaf there. -/
def IsAbout (leaves : List Hash) (index : Int) (proof : Merkle.InclusionProof) : Prop :=
  proof.index = index ∧ leaves[index.toNat]? = some proof.leafHash

theorem acceptedByBoth_siblings {i : Nat} (hi : i < leaves.length) : AcceptedByBoth P
    ⟨leaves[i], i, Merkle.siblings P (leaves.map (Merkle.leafNode P)) i⟩ (Merkle.rootHash P leaves) := by
  have hne : leaves ≠ [] := List.length_pos_iff.mp (Nat.zero_lt_of_lt hi)
  have hleaf : (leaves.map (Merkle.leafNode P))[i]? = some (Merkle.leafNode P leaves[i]) := by
    rw [List.getElem?_map, List.getElem?_eq_getElem hi, Option.map_some]
  have haccept : Merkle.verifyInclusion P ⟨leaves[i], i, Merkle.siblings P (leaves.map (Merkle.leafNode P)) i⟩
      (Merkle.rootHash P leaves) = true := decide_eq_true (verifyFrom_siblings hleaf (rootHash_eq_head hne))
  exact ⟨haccept, (goVerifyInclusion_eq (Int.natCast_nonneg i) _).trans haccept⟩

/-- Both implementations have the same root, and build a proof about every index
of the list, which both accept; for any other index they return an error. -/
theorem inclusion_complete (P : Prims) (leaves : List Hash) :
    Go.Merkle.rootHash P leaves = Merkle.rootHash P leaves ∧
    (∀ index : Int, 0 ≤ index → index < leaves.length →
      (∃ proof, Merkle.inclusionProof P leaves index = .ok proof ∧ IsAbout leaves index proof ∧
        AcceptedByBoth P proof (Merkle.rootHash P leaves)) ∧
      ∃ proof, Go.Merkle.buildInclusionProof P leaves index = .ok proof ∧ IsAbout leaves index (ofGo proof) ∧
        AcceptedByBoth P (ofGo proof) (Merkle.rootHash P leaves)) ∧
    ∀ index : Int, leaves = [] ∨ index < 0 ∨ leaves.length ≤ index →
      (∃ e, Merkle.inclusionProof P leaves index = .error e) ∧
      ∃ e, Go.Merkle.buildInclusionProof P leaves index = .error e := by
  refine ⟨Go.rootHash_eq leaves, fun index h₀ h₁ => ?_, fun index h => ?_⟩
  · obtain ⟨i, rfl⟩ := Int.eq_ofNat_of_zero_le h₀
    have hi : i < leaves.length := by omega
    have hne : leaves ≠ [] := List.length_pos_iff.mp (Nat.zero_lt_of_lt hi)
    have hin : ¬ ((i : Int) < 0 ∨ (leaves.length : Int) ≤ i) := by omega
    rw [Merkle.inclusionProof, Go.Merkle.buildInclusionProof, if_neg hne, if_neg hin, if_neg hne, if_neg hin]
    simp only [Int.toNat_natCast, List.getElem?_eq_getElem hi, Go.siblings_eq]
    have about : ∀ path, IsAbout leaves i ⟨leaves[i], i, path⟩ := fun _ => ⟨rfl, List.getElem?_eq_getElem hi⟩
    exact ⟨⟨_, rfl, about _, acceptedByBoth_siblings hi⟩, _, rfl, about _, acceptedByBoth_siblings hi⟩
  · rw [Merkle.inclusionProof, Go.Merkle.buildInclusionProof]
    by_cases hnil : leaves = []
    · rw [if_pos hnil, if_pos hnil]
      exact ⟨⟨_, rfl⟩, _, rfl⟩
    · rw [if_neg hnil, if_neg hnil, if_pos (h.resolve_left hnil), if_pos (h.resolve_left hnil)]
      exact ⟨⟨_, rfl⟩, _, rfl⟩

/-! ## The index of an accepted proof -/

/-- Where the index is one of the list, what is accepted is the leaf at the index. -/
theorem accepted_getElem? {proof : Merkle.InclusionProof}
    (hM : Set.InjOn P.hashBytes {m | m ∈ Merkle.messages P leaves ∨ m ∈ verifyMessages P proof})
    (h : Merkle.verifyInclusion P proof (Merkle.rootHash P leaves) = true) (h₀ : 0 ≤ proof.index)
    (h₁ : proof.index < leaves.length) : leaves[proof.index.toNat]? = some proof.leafHash := by
  obtain ⟨hlen, hget⟩ := accepted_position hM h
  have hwidth : leaves.length ≤ 2 ^ proof.path.length := hlen ▸ Nat.le_pow_clog Nat.one_lt_two _
  have hmod : proof.index % 2 ^ proof.path.length = proof.index := by
    refine Int.emod_eq_of_lt h₀ (h₁.trans_le ?_)
    exact_mod_cast hwidth
  obtain ⟨rest, hrest⟩ := prefix_fillFrom 1 leaves
  rw [hmod, fill, ← hrest, List.getElem?_append_left (by omega)] at hget
  exact hget

/-- Of pairwise distinct leaves, two proofs for the same one that a verifier
accepts have the same index, the one of the leaf, if both are indices of the list. -/
theorem accepted_index_unique (leaves : List Hash) (hnodup : leaves.Nodup) (p q : Merkle.InclusionProof)
    (hM : Set.InjOn P.hashBytes
      {m | m ∈ Merkle.messages P leaves ∨ m ∈ verifyMessages P p ∨ m ∈ verifyMessages P q})
    (hp : Merkle.verifyInclusion P p (Merkle.rootHash P leaves) = true ∨
      Go.Merkle.verifyInclusion P (toGo p) (Go.Merkle.rootHash P leaves) = true)
    (hq : Merkle.verifyInclusion P q (Merkle.rootHash P leaves) = true ∨
      Go.Merkle.verifyInclusion P (toGo q) (Go.Merkle.rootHash P leaves) = true)
    (hleaf : p.leafHash = q.leafHash) (hp₀ : 0 ≤ p.index) (hp₁ : p.index < leaves.length) (hq₀ : 0 ≤ q.index)
    (hq₁ : q.index < leaves.length) : p.index = q.index ∧ leaves[p.index.toNat]? = some p.leafHash := by
  have accepted : ∀ {r : Merkle.InclusionProof}, 0 ≤ r.index →
      (Merkle.verifyInclusion P r (Merkle.rootHash P leaves) = true ∨
        Go.Merkle.verifyInclusion P (toGo r) (Go.Merkle.rootHash P leaves) = true) →
      Merkle.verifyInclusion P r (Merkle.rootHash P leaves) = true := by
    intro r hr h
    rw [Go.rootHash_eq, goVerifyInclusion_eq hr, or_self] at h
    exact h
  have hpget := accepted_getElem? (hM.mono fun m hm => hm.imp_right .inl) (accepted hp₀ hp) hp₀ hp₁
  have hqget := accepted_getElem? (hM.mono fun m hm => hm.imp_right .inr) (accepted hq₀ hq) hq₀ hq₁
  have hidx : p.index.toNat = q.index.toNat :=
    (List.getElem?_inj (by omega) hnodup).mp (hpget.trans (hleaf ▸ hqget.symm))
  exact ⟨by omega, hpget⟩

section Example

open Reference

/-- The hashes of three one-byte blobs. -/
def threeLeaves : List Hash := [1, 2, 3].map fun n => reference.hashBytes [n]

/-- The proof of the last of three leaves, which is its own sibling. -/
def lastOfThree : Merkle.InclusionProof :=
  ⟨reference.hashBytes [3], 2, Merkle.siblings reference (threeLeaves.map (Merkle.leafNode reference)) 2⟩

theorem proofMessages_injOn {leaves : List Hash} {p q : Merkle.InclusionProof}
    (h : ((Merkle.messages reference leaves ++ verifyMessages reference p ++ verifyMessages reference q).dedup.map
      reference.hashBytes).Nodup) :
    Set.InjOn reference.hashBytes
      {m | m ∈ Merkle.messages reference leaves ∨ m ∈ verifyMessages reference p ∨ m ∈ verifyMessages reference q} :=
  injOn_of_nodup _ (fun m hm => by
    rw [List.mem_dedup, List.mem_append, List.mem_append, or_assoc]
    exact hm) h

theorem inclusion_sound_three : lastOfThree.leafHash ∈ threeLeaves ∧
    lastOfThree.path.length = Nat.clog 2 threeLeaves.length :=
  inclusion_sound threeLeaves lastOfThree
    ((proofMessages_injOn (p := lastOfThree) (q := lastOfThree) (by decide +kernel)).mono fun _ hm => hm.imp_right .inl)
    (by decide +kernel)

theorem inclusion_complete_three : ∃ proof, Merkle.inclusionProof reference threeLeaves 2 = .ok proof ∧
    IsAbout threeLeaves 2 proof ∧ AcceptedByBoth reference proof (Merkle.rootHash reference threeLeaves) :=
  ((inclusion_complete reference threeLeaves).2.1 2 (by decide) (by decide)).1

theorem accepted_index_unique_three : lastOfThree.index = lastOfThree.index ∧
    threeLeaves[lastOfThree.index.toNat]? = some lastOfThree.leafHash :=
  accepted_index_unique threeLeaves (by decide +kernel) lastOfThree lastOfThree
    (proofMessages_injOn (by decide +kernel)) (.inl (by decide +kernel)) (.inr (by decide +kernel)) rfl (by decide)
    (by decide) (by decide) (by decide)

/-- The only leaf of a list is accepted at its index, and at the next one. -/
theorem index_not_fixed : ¬ ∀ (leaves : List Hash) (p q : Merkle.InclusionProof), leaves.Nodup →
    Set.InjOn reference.hashBytes
      {m | m ∈ Merkle.messages reference leaves ∨ m ∈ verifyMessages reference p ∨ m ∈ verifyMessages reference q} →
    Merkle.verifyInclusion reference p (Merkle.rootHash reference leaves) = true →
    Merkle.verifyInclusion reference q (Merkle.rootHash reference leaves) = true →
    p.leafHash = q.leafHash → p.index = q.index ∧ leaves[p.index.toNat]? = some p.leafHash := by
  intro h
  have hindex := (h [reference.hashBytes [1]] ⟨reference.hashBytes [1], 0, []⟩ ⟨reference.hashBytes [1], 1, []⟩
    (by decide +kernel) (proofMessages_injOn (by decide +kernel)) (by decide +kernel) (by decide +kernel) rfl).1
  exact absurd hindex (by decide)

end Example

end ArxDB.Proof
