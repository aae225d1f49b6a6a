import ArxDB.Impl.Text
import ArxDB.Proof.Encoding
import ArxDB.Reference.Cbor

/-!
# Libraries that can be run

`reference` is a `Prims` whose parts are small enough to evaluate: the CBOR
codec, a polynomial in place of BLAKE3, and a keyed digest in place of
Ed25519, under which a public key is its private key. It meets `CborLaws`,
and any key of 32 bytes is a `KeyPair` with itself.
-/

namespace ArxDB.Reference

open Impl

/-- A 32-byte digest. -/
def digest (data : Bytes) : Vector UInt8 32 :=
  let n := data.foldl (fun n x => (n * 263 + x.toNat + 1) % 2 ^ 256) 7
  Vector.ofFn fun i => UInt8.ofNat (n / 256 ^ i.val)

/-- A 64-byte digest of a key and a message. -/
def signature (key message : Bytes) : Vector UInt8 64 := digest (key ++ message) ++ digest (message ++ key)

/-- An element of the array that a log entry is stored as. -/
def marshalElem : GoAny → Option Bytes
  | .int64 n => match n.toInt with
    | .ofNat n => Cbor.sized 0 n []
    | .negSucc n => Cbor.sized 1 n []
  | .uint64 n => Cbor.sized 0 n.toNat []
  | .bytes b => Cbor.sized 2 b.length b
  | .nil => some [0xf6]
  | .other _ => none

/-- An array of at most `2 ^ 64` elements. -/
def marshal (xs : List GoAny) : Option Bytes := do
  Cbor.sized 4 xs.length ((← xs.mapM marshalElem).flatten)

/-- An element, and what follows it. -/
def unmarshalElem (b : Bytes) : Option (GoAny × Bytes) :=
  match Cbor.readHead b with
  | some (0, n, b) => some (.uint64 (.ofNat n), b)
  | some (1, n, b) => if n < 2 ^ 63 then some (.int64 (.ofInt (.negSucc n)), b) else none
  | some (2, n, b) => if n ≤ b.length then some (.bytes (b.take n), b.drop n) else none
  | some (7, 22, b) => some (.nil, b)
  | _ => none

/-- So many elements, and nothing after them. -/
def unmarshalElems : Nat → Bytes → Option (List GoAny)
  | 0, [] => some []
  | 0, _ :: _ => none
  | n + 1, b => do
    let (x, b) ← unmarshalElem b
    pure (x :: (← unmarshalElems n b))

/-- The elements of an array. -/
def unmarshal (b : Bytes) : Option (List GoAny) :=
  match Cbor.readHead b with
  | some (4, n, b) => unmarshalElems n b
  | _ => none

/-- The libraries. -/
def reference : Prims where
  blake3 := digest
  dumps v := match Cbor.encode v with
    | some b => .ok b
    | none => .error .encodeError
  loads b := match Cbor.decode (2 * b.length) b with
    | some (v, _) => .ok v
    | none => .error .decodeError
  equalOther
    | .other a, .other b => a.enc == b.enc
    | _, _ => false
  equalOther_comm v w := by
    cases v <;> cases w <;> first | rfl | exact Bool.beq_comm
  recursionLimit := 100
  marshal := marshal
  unmarshal := unmarshal
  ed25519Sign := signature
  ed25519Verify pub message sig := sig = (signature pub message).toList

/-- An interpreter that knows the letters and digits of ASCII only. -/
def interp : Interp where
  alnum _ := false
  str _ := ""
  sortable _ := false

theorem reference_dumps {v : Value} {b : Bytes} : reference.dumps v = .ok b ↔ Cbor.encode v = some b := by
  simp only [reference]
  split <;> simp [*]

theorem reference_cborLaws : reference.CborLaws where
  loads_dumps {n v c b} _ h := by
    obtain ⟨-, w, hw, hd⟩ := Cbor.decodes_encode (reference_dumps.mp h)
    refine ⟨w, ?_, hw⟩
    have := hd (2 * b.length) [] le_rfl
    rw [List.append_nil] at this
    simp only [reference, this]
  dumps_same h := by simp only [reference, Cbor.encode_same h]

theorem reference_cborTruncated : reference.CborTruncated where
  loads_take h hn := by
    refine ⟨.decodeError, ?_⟩
    simp only [reference, Cbor.decode_take (reference_dumps.mp h) hn]

theorem reference_cborDefined : reference.CborDefined where
  dumps _ _ h := by
    simp only [reference_dumps]
    exact Cbor.encode_plain h
  utf8 _ h := Cbor.utf8_of_encode (reference_dumps.mp h)

/-- A list of values without parts is encoded as it is. -/
theorem reference_encode_list {xs : List Value} {b : Bytes} (h : ∀ x ∈ xs, x.scalar = true) :
    reference.canonicalEncode (.list xs) = .ok b ↔ Cbor.encode (.list xs) = some b := by
  have hc : Serialization.canonicalize reference reference.recursionLimit (.list xs) = .ok (.list xs) :=
    Proof.canonicalize_scalars (show 2 ≤ reference.recursionLimit by decide) h
  rw [Prims.canonicalEncode, hc]
  exact reference_dumps

theorem reference_cborTotal : reference.CborTotal where
  message {seq timestampNs signerPubkey entryHash prevLogHash} := by
    have hash : ∀ h : Hash, (Value.bytes h.raw).Plain := fun h => .bytes (by rw [h.size]; decide)
    let message : List Value :=
      [.int seq, .int timestampNs, .bytes signerPubkey, .bytes entryHash.raw, .bytes prevLogHash.raw]
    have hscalar : ∀ x ∈ message, x.scalar = true := by simp [message, Value.scalar]
    show (∃ b, reference.canonicalEncode (.list message) = .ok b) ↔ _
    simp only [reference_encode_list hscalar]
    rw [Cbor.encode_scalars_isSome (by simp [message]) hscalar]
    simp [message, hash]

theorem unmarshalElem_marshalElem {x : GoAny} {b : Bytes} (h : marshalElem x = some b) (rest : Bytes) :
    unmarshalElem (b ++ rest) = some (x.decoded, rest) := by
  cases x with
  | int64 n =>
    have hlo := n.le_toInt
    have hhi := n.toInt_lt
    simp only [marshalElem] at h
    split at h
    · rename_i m hm
      obtain ⟨hlt, rfl⟩ := Cbor.sized_eq_some.mp h
      have h0 : (0 : Int64) ≤ n := by
        rw [Int64.le_iff_toInt_le, hm]
        simp
      have hu : UInt64.ofNat m = n.toUInt64 := by
        rw [← Int64.ofInt_toInt n, hm]
        exact Int64.toUInt64_ofNat'.symm
      rw [List.append_nil, unmarshalElem, Cbor.readHead_head (by decide) hlt]
      simp only [GoAny.decoded, if_pos h0, hu]
    · rename_i m hm
      obtain ⟨hlt, rfl⟩ := Cbor.sized_eq_some.mp h
      have h0 : ¬ (0 : Int64) ≤ n := by
        rw [Int64.le_iff_toInt_le, hm]
        simp
      rw [List.append_nil, unmarshalElem, Cbor.readHead_head (by decide) hlt]
      simp only [GoAny.decoded, if_neg h0, ← hm, Int64.ofInt_toInt]
      rw [if_pos (by omega)]
  | uint64 n =>
    obtain ⟨hlt, rfl⟩ := Cbor.sized_eq_some.mp h
    rw [List.append_nil, unmarshalElem, Cbor.readHead_head (by decide) hlt]
    simp only [GoAny.decoded, UInt64.ofNat_toNat]
  | bytes v =>
    obtain ⟨hlt, rfl⟩ := Cbor.sized_eq_some.mp h
    rw [List.append_assoc, unmarshalElem, Cbor.readHead_head (by decide) hlt]
    simp [GoAny.decoded]
  | nil =>
    obtain rfl := Option.some.inj h
    rfl
  | other => simp [marshalElem] at h

theorem unmarshalElems_marshal {xs : List GoAny} {bs : List Bytes} (h : xs.mapM marshalElem = some bs) :
    unmarshalElems xs.length bs.flatten = some (xs.map GoAny.decoded) := by
  induction xs generalizing bs with
  | nil =>
    obtain rfl : [] = bs := by simpa using h
    rfl
  | cons x xs ih =>
    simp only [List.mapM_cons, Option.bind_eq_bind, Option.bind_eq_some_iff, pure, Option.some.injEq] at h
    obtain ⟨b, hb, bs, hbs, rfl⟩ := h
    rw [List.flatten_cons, List.length_cons, unmarshalElems, unmarshalElem_marshalElem hb]
    simp [ih hbs]

theorem reference_goCborLaws : reference.GoCborLaws where
  unmarshal_marshal {xs b} _ _ h := by
    simp only [reference, marshal, Option.bind_eq_bind, Option.bind_eq_some_iff, Cbor.sized_eq_some] at h ⊢
    obtain ⟨bs, hbs, hlt, rfl⟩ := h
    rw [unmarshal, Cbor.readHead_head (by decide) hlt]
    exact unmarshalElems_marshal hbs

theorem encode_value {x : GoAny} {b : Bytes} (h : marshalElem x = some b) : Cbor.encode x.value = some b := by
  cases x with
  | int64 n =>
    simp only [marshalElem] at h
    rw [GoAny.value, Cbor.encode]
    cases hn : n.toInt with
    | ofNat m =>
      rw [hn] at h
      exact Cbor.number_of_sized h
    | negSucc m =>
      rw [hn] at h
      exact Cbor.number_of_sized h
  | uint64 n => exact Cbor.number_of_sized h
  | bytes b => exact h
  | nil => exact h
  | other => simp [marshalElem] at h

theorem encodeList_value {xs : List GoAny} {bs : List Bytes} (h : xs.mapM marshalElem = some bs) :
    Cbor.encodeList (xs.map GoAny.value) = some bs.flatten := by
  induction xs generalizing bs with
  | nil =>
    obtain rfl : [] = bs := by simpa using h
    rfl
  | cons x xs ih =>
    simp only [List.mapM_cons, Option.bind_eq_bind, Option.bind_eq_some_iff, pure, Option.some.injEq] at h
    obtain ⟨b, hb, bs, hbs, rfl⟩ := h
    rw [List.map_cons, Cbor.encodeList, encode_value hb, ih hbs]
    rfl

theorem reference_cborAgree : reference.CborAgree where
  encode_marshal {xs b} _ _ h := by
    simp only [reference, marshal, Option.bind_eq_bind, Option.bind_eq_some_iff] at h
    obtain ⟨bs, hbs, hb⟩ := h
    have hscalar : ∀ v ∈ xs.map GoAny.value, v.scalar = true := by
      intro v hv
      obtain ⟨x, -, rfl⟩ := List.mem_map.mp hv
      cases x <;> rfl
    rw [reference_encode_list hscalar, Cbor.encode, encodeList_value hbs, List.length_map]
    exact hb

theorem marshalElem_isSome {x : GoAny} (ho : ∀ enc, x ≠ .other enc) (hb : ∀ b, x = .bytes b → b.length < 2 ^ 64) :
    ∃ b, marshalElem x = some b := by
  cases x with
  | int64 n =>
    have hlo := n.le_toInt
    have hhi := n.toInt_lt
    simp only [marshalElem]
    split
    · rename_i m hm
      rw [hm, Int.ofNat_eq_natCast] at hhi
      exact ⟨_, Cbor.sized_eq_some.mpr ⟨by omega, rfl⟩⟩
    · rename_i m hm
      rw [hm] at hlo
      exact ⟨_, Cbor.sized_eq_some.mpr ⟨by omega, rfl⟩⟩
  | uint64 n =>
    have := n.toNat_lt
    exact ⟨_, Cbor.sized_eq_some.mpr ⟨by omega, rfl⟩⟩
  | bytes b =>
    have := hb b rfl
    exact ⟨_, Cbor.sized_eq_some.mpr ⟨by omega, rfl⟩⟩
  | nil => exact ⟨_, rfl⟩
  | other enc => exact absurd rfl (ho enc)

theorem reference_goCborTotal : reference.GoCborTotal where
  marshal {xs} hlen ho hb := by
    have elems : ∃ bs, xs.mapM marshalElem = some bs := by
      clear hlen
      induction xs with
      | nil => exact ⟨[], rfl⟩
      | cons x xs ih =>
        rw [List.forall_mem_cons] at ho
        obtain ⟨b, hx⟩ := marshalElem_isSome ho.1 fun b hx => hb b (hx ▸ List.mem_cons_self)
        obtain ⟨bs, hxs⟩ := ih ho.2 fun b hmem => hb b (List.mem_cons_of_mem _ hmem)
        exact ⟨b :: bs, by simp [List.mapM_cons, hx, hxs]⟩
    obtain ⟨bs, hbs⟩ := elems
    exact ⟨_, by
      simp only [reference, marshal, hbs, Option.bind_eq_bind, Option.bind_some, Cbor.sized_eq_some]
      exact ⟨by omega, rfl⟩⟩

/-- A value that is equal to what this is equal to; `none` for containers. -/
def keyValue : Value → Option Value
  | .bool b => some (.int (if b then 1 else 0))
  | .other o => some (.other (.inert o.enc))
  | v => if v.scalar then some v else none

theorem reference_equal_iff {v w : Value} :
    reference.equal v w = true ↔ ∃ u, keyValue v = some u ∧ keyValue w = some u := by
  cases v <;> cases w <;>
    simp [Prims.equal, reference, Value.asInt, Value.simple, Value.scalar, keyValue, Foreign.inert] <;> exact eq_comm

theorem reference_equalLaws : reference.EqualLaws where
  trans h h' := by
    obtain ⟨u, hu, hv⟩ := reference_equal_iff.mp h
    obtain ⟨u', hv', hw⟩ := reference_equal_iff.mp h'
    obtain rfl : u = u' := Option.some.inj (hv.symm.trans hv')
    exact reference_equal_iff.mpr ⟨u, hu, hw⟩

theorem reference_keyPair {key : Bytes} (h : key.length = 32) : reference.KeyPair key key where
  priv_size := h
  pub_size := h
  accepts _ := by simp [reference]

/-- Messages of a list without two equal digests do not collide. -/
theorem injOn_of_nodup (l : List Bytes) {M : Set Bytes} (hM : ∀ m ∈ M, m ∈ l)
    (h : (l.map reference.hashBytes).Nodup) : Set.InjOn reference.hashBytes M :=
  fun m hm m' hm' e => List.inj_on_of_nodup_map h (hM m hm) (hM m' hm') e

end ArxDB.Reference
