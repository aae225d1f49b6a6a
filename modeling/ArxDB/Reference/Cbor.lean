import ArxDB.Framework.BigEndian
import ArxDB.Impl.Primitives
import Mathlib.Data.List.Lex
import Mathlib.Data.List.Perm.Basic
import Mathlib.Data.Nat.Digits.Lemmas

/-!
# A canonical CBOR codec

An instance of what the model asks of `cbor2`: integers (from `2 ^ 64` in size
on as bignums), byte and text strings, arrays, maps and the three simple
values, with the canonical order of map keys (shorter first, then by bytes).
Keys are scalars. `decodes_encode` is the round trip, `encode_same` that the
order in which a dict was filled does not show, `encode_plain` that every plain
value has an encoding, and `decode_take` that the beginning of one is not one.
-/

namespace ArxDB.Reference.Cbor

open Impl BigEndian

/-! ## Heads -/

/-- A major type with its argument, in the shortest form. -/
def head (major n : Nat) : Bytes :=
  if n < 24 then [UInt8.ofNat (32 * major + n)]
  else if n < 256 then UInt8.ofNat (32 * major + 24) :: be 1 n
  else if n < 256 ^ 2 then UInt8.ofNat (32 * major + 25) :: be 2 n
  else if n < 256 ^ 4 then UInt8.ofNat (32 * major + 26) :: be 4 n
  else UInt8.ofNat (32 * major + 27) :: be 8 n

/-- An argument of `w` bytes. -/
def readArg (major w : Nat) (b : Bytes) : Option (Nat × Nat × Bytes) :=
  if w ≤ b.length then some (major, ofBe (b.take w), b.drop w) else none

/-- A head, and what follows it. -/
def readHead : Bytes → Option (Nat × Nat × Bytes)
  | [] => none
  | x :: b =>
    let major := x.toNat / 32
    match x.toNat % 32 with
    | 24 => readArg major 1 b
    | 25 => readArg major 2 b
    | 26 => readArg major 4 b
    | 27 => readArg major 8 b
    | n => if n < 24 then some (major, n, b) else none

theorem readArg_be {major w n : Nat} (h : n < 256 ^ w) (rest : Bytes) :
    readArg major w (be w n ++ rest) = some (major, n, rest) := by
  simp [readArg, ofBe_be, Nat.mod_eq_of_lt h]

theorem readHead_head {major n : Nat} (hm : major < 8) (hn : n < 256 ^ 8) (rest : Bytes) :
    readHead (head major n ++ rest) = some (major, n, rest) := by
  have hx : ∀ a, a < 32 → (UInt8.ofNat (32 * major + a)).toNat / 32 = major ∧
      (UInt8.ofNat (32 * major + a)).toNat % 32 = a := by
    intro a ha
    rw [UInt8.toNat_ofNat']
    omega
  unfold head
  split
  · rename_i h
    simp only [List.singleton_append, readHead, (hx n (by omega)).1, (hx n (by omega)).2]
    split <;> first | omega | (rw [if_pos h])
  split
  · rename_i h
    simpa only [List.cons_append, readHead, (hx 24 (by omega)).1, (hx 24 (by omega)).2] using
      readArg_be (w := 1) (by simpa using h) rest
  split
  · rename_i h
    simpa only [List.cons_append, readHead, (hx 25 (by omega)).1, (hx 25 (by omega)).2] using readArg_be h rest
  split
  · rename_i h
    simpa only [List.cons_append, readHead, (hx 26 (by omega)).1, (hx 26 (by omega)).2] using readArg_be h rest
  · simpa only [List.cons_append, readHead, (hx 27 (by omega)).1, (hx 27 (by omega)).2] using readArg_be hn rest

theorem head_pos (major n : Nat) : 0 < (head major n).length := by
  unfold head
  repeat' split
  all_goals simp

/-! ## The encoder -/

/-- The UTF-8 form of a text. -/
def utf8 (s : String) : Bytes := s.toByteArray.data.toList

/-- The text of a UTF-8 form. -/
def ofUtf8 (b : Bytes) : Option String :=
  if h : (ByteArray.mk b.toArray).IsValidUTF8 then some ⟨⟨b.toArray⟩, h⟩ else none

/-- A head whose argument fits, and what follows it. -/
def sized (major n : Nat) (body : Bytes) : Option Bytes :=
  if n < 256 ^ 8 then some (head major n ++ body) else none

/-- The fewest bytes that hold `n`. -/
def width (n : Nat) : Nat := (Nat.digits 256 n).length

/-- A number that fits the head, or a tag and the bytes of the number. -/
def number (major n : Nat) : Option Bytes :=
  if n < 256 ^ 8 then some (head major n)
  else (sized 2 (width n) (be (width n) n)).map (head 6 (2 + major) ++ ·)

/-- Values without parts: what a map key can be. -/
def encodeScalar : Value → Option Bytes
  | .none => some [0xf6]
  | .bool b => some [if b then 0xf5 else 0xf4]
  | .int (.ofNat n) => number 0 n
  | .int (.negSucc n) => number 1 n
  | .bytes b => sized 2 b.length b
  | .str s => sized 3 (utf8 s).length (utf8 s)
  | _ => none

/-- The canonical order of a map's encoded pairs. -/
def key (e : Bytes × Bytes) : List ℕ := e.1.length :: (e.1 ++ e.2).map UInt8.toNat

/-- The pairs in canonical order. -/
def sortPairs (es : List (Bytes × Bytes)) : List (Bytes × Bytes) := es.insertionSort fun a b => key a ≤ key b

mutual
/-- The encoding of a value. -/
def encode : Value → Option Bytes
  | .list xs => do sized 4 xs.length (← encodeList xs)
  | .dict kvs => do sized 5 kvs.length ((sortPairs (← encodePairs kvs)).flatMap fun e => e.1 ++ e.2)
  | .none => encodeScalar .none
  | .bool b => encodeScalar (.bool b)
  | .int n => encodeScalar (.int n)
  | .bytes b => encodeScalar (.bytes b)
  | .str s => encodeScalar (.str s)
  | .tuple _ => none
  | .set _ => none
  | .frozenset _ => none
  | .other _ => none
/-- The encodings of the elements of an array, one after the other. -/
def encodeList : List Value → Option Bytes
  | [] => some []
  | v :: vs => do pure ((← encode v) ++ (← encodeList vs))
/-- The encodings of the items of a map. -/
def encodePairs : List (Value × Value) → Option (List (Bytes × Bytes))
  | [] => some []
  | (k, v) :: kvs => do pure ((← encodeScalar k, ← encode v) :: (← encodePairs kvs))
end

/-! ## The decoder -/

/-- A number from the bytes after its tag. -/
def bignum (f : Nat → Int) (b : Bytes) : Option (Value × Bytes) :=
  match readHead b with
  | some (2, n, b) => if n ≤ b.length then some (.int (f (ofBe (b.take n))), b.drop n) else none
  | _ => none

/-- The item that a head starts, given how arrays and maps go on. -/
def item (list : Nat → Bytes → Option (List Value × Bytes))
    (pairs : Nat → Bytes → Option (List (Value × Value) × Bytes)) (major n : Nat) (b : Bytes) :
    Option (Value × Bytes) :=
  match major with
  | 0 => some (.int n, b)
  | 1 => some (.int (.negSucc n), b)
  | 2 => if n ≤ b.length then some (.bytes (b.take n), b.drop n) else none
  | 3 => if n ≤ b.length then (ofUtf8 (b.take n)).map fun s => (.str s, b.drop n) else none
  | 4 => (list n b).map fun r => (.list r.1, r.2)
  | 5 => (pairs n b).map fun r => (.dict r.1, r.2)
  | 6 => match n with
    | 2 => bignum .ofNat b
    | 3 => bignum .negSucc b
    | _ => none
  | 7 => match n with
    | 20 => some (.bool false, b)
    | 21 => some (.bool true, b)
    | 22 => some (.none, b)
    | _ => none
  | _ => none

mutual
/-- The value that bytes begin with, and what follows it; each level takes fuel. -/
def decode : Nat → Bytes → Option (Value × Bytes)
  | 0, _ => none
  | fuel + 1, b => match readHead b with
    | some (major, n, b) => item (decodeList fuel) (decodePairs fuel) major n b
    | none => none
/-- So many elements. -/
def decodeList : Nat → Nat → Bytes → Option (List Value × Bytes)
  | 0, _, _ => none
  | _ + 1, 0, b => some ([], b)
  | fuel + 1, n + 1, b => do
    let (v, b) ← decode fuel b
    let (vs, b) ← decodeList fuel n b
    some (v :: vs, b)
/-- So many items. -/
def decodePairs : Nat → Nat → Bytes → Option (List (Value × Value) × Bytes)
  | 0, _, _ => none
  | _ + 1, 0, b => some ([], b)
  | fuel + 1, n + 1, b => do
    let (k, b) ← decode fuel b
    let (v, b) ← decode fuel b
    let (kvs, b) ← decodePairs fuel n b
    some ((k, v) :: kvs, b)
end

/-! ## The round trip -/

theorem ofUtf8_utf8 (s : String) : ofUtf8 (utf8 s) = some s := by
  have h : (ByteArray.mk (utf8 s).toArray) = s.toByteArray := by simp [utf8]
  simp only [ofUtf8, h, s.isValidUTF8, dite_true]

theorem sized_eq_some {major n : Nat} {body b : Bytes} :
    sized major n body = some b ↔ n < 256 ^ 8 ∧ b = head major n ++ body := by
  unfold sized
  split
  · rename_i h
    simp only [Option.some.injEq, h, true_and, eq_comm]
  · rename_i h
    simp only [reduceCtorEq, h, false_and]

theorem decode_head {major n : Nat} (hm : major < 8) (hn : n < 256 ^ 8) (fuel : Nat) (rest : Bytes) :
    decode (fuel + 1) (head major n ++ rest) = item (decodeList fuel) (decodePairs fuel) major n rest := by
  rw [decode, readHead_head hm hn]

theorem lt_width (n : Nat) : n < 256 ^ width n := Nat.lt_base_pow_length_digits (by decide)

theorem bignum_sized {n : Nat} {body : Bytes} (h : sized 2 (width n) (be (width n) n) = some body) (f : Nat → Int)
    (rest : Bytes) : bignum f (body ++ rest) = some (.int (f n), rest) := by
  obtain ⟨hlt, rfl⟩ := sized_eq_some.mp h
  rw [bignum, List.append_assoc, readHead_head (by decide) hlt]
  simp [ofBe_be, Nat.mod_eq_of_lt (lt_width n)]

theorem number_eq_some {major n : Nat} {b : Bytes} : number major n = some b ↔
    n < 256 ^ 8 ∧ b = head major n ∨
    ¬ n < 256 ^ 8 ∧ ∃ body, sized 2 (width n) (be (width n) n) = some body ∧ b = head 6 (2 + major) ++ body := by
  unfold number
  split
  · rename_i h
    simp only [Option.some.injEq, h, true_and, not_true_eq_false, false_and, or_false, eq_comm]
  · rename_i h
    simp only [Option.map_eq_some_iff, h, false_and, not_false_eq_true, true_and, false_or, eq_comm (a := b)]

theorem number_of_sized {major n : Nat} {b : Bytes} (h : sized major n [] = some b) : number major n = some b := by
  obtain ⟨hlt, rfl⟩ := sized_eq_some.mp h
  rw [number, if_pos hlt, List.append_nil]

theorem decode_encodeScalar {v : Value} {b : Bytes} (h : encodeScalar v = some b) (fuel : Nat) (rest : Bytes) :
    decode (fuel + 1) (b ++ rest) = some (v, rest) := by
  cases v with
  | none =>
    simp only [encodeScalar, Option.some.injEq] at h
    exact h ▸ @decode_head 7 22 (by decide) (by decide) fuel rest
  | bool v =>
    simp only [encodeScalar, Option.some.injEq] at h
    subst h
    cases v
    · exact @decode_head 7 20 (by decide) (by decide) fuel rest
    · exact @decode_head 7 21 (by decide) (by decide) fuel rest
  | int n =>
    cases n with
    | ofNat n =>
      rcases number_eq_some.mp h with ⟨hn, rfl⟩ | ⟨-, body, hbody, rfl⟩
      · rw [decode_head (by decide) hn]
        rfl
      · rw [List.append_assoc, decode_head (by decide) (by decide)]
        exact bignum_sized hbody .ofNat rest
    | negSucc n =>
      rcases number_eq_some.mp h with ⟨hn, rfl⟩ | ⟨-, body, hbody, rfl⟩
      · rw [decode_head (by decide) hn]
        rfl
      · rw [List.append_assoc, decode_head (by decide) (by decide)]
        exact bignum_sized hbody .negSucc rest
  | bytes v =>
    obtain ⟨hn, rfl⟩ := sized_eq_some.mp h
    rw [List.append_assoc, decode_head (by decide) hn]
    simp [item]
  | str s =>
    obtain ⟨hn, rfl⟩ := sized_eq_some.mp h
    rw [List.append_assoc, decode_head (by decide) hn]
    simp [item, ofUtf8_utf8]
  | list | tuple | set | frozenset | dict | other => simp [encodeScalar] at h

theorem encodeScalar_pos {v : Value} {b : Bytes} (h : encodeScalar v = some b) : 0 < b.length := by
  have hs : ∀ {major n : Nat} {body : Bytes}, sized major n body = some b → 0 < b.length := by
    intro major n body h
    obtain ⟨-, rfl⟩ := sized_eq_some.mp h
    have := head_pos major n
    rw [List.length_append]
    omega
  cases v with
  | none | bool =>
    simp only [encodeScalar, Option.some.injEq] at h
    simp [← h]
  | int n =>
    have hn : ∀ {major n : Nat}, number major n = some b → 0 < b.length := by
      intro major n h
      have := head_pos major n
      have := head_pos 6 (2 + major)
      rcases number_eq_some.mp h with ⟨-, rfl⟩ | ⟨-, body, -, rfl⟩
      · omega
      · rw [List.length_append]
        omega
    cases n <;> exact hn h
  | bytes | str => exact hs h
  | list | tuple | set | frozenset | dict | other => simp [encodeScalar] at h

/-- `b` decodes to a value that is the same as `v`. -/
def Decodes (v : Value) (b : Bytes) : Prop :=
  0 < b.length ∧ ∃ w, Value.Same v w ∧ ∀ fuel rest, 2 * b.length ≤ fuel → decode fuel (b ++ rest) = some (w, rest)

theorem decodes_scalar {v : Value} {b : Bytes} (h : encodeScalar v = some b) : Decodes v b := by
  refine ⟨encodeScalar_pos h, v, .refl v, fun fuel rest hf => ?_⟩
  obtain ⟨fuel, rfl⟩ := Nat.exists_eq_add_of_lt (show 0 < fuel by have := encodeScalar_pos h; omega)
  rw [Nat.zero_add]
  exact decode_encodeScalar h fuel rest

/-- A map's pair and its encoding. -/
def PairDecodes (kv : Value × Value) (e : Bytes × Bytes) : Prop :=
  encodeScalar kv.1 = some e.1 ∧ Decodes kv.2 e.2

theorem sortPairs_perm (es : List (Bytes × Bytes)) : (sortPairs es).Perm es := List.perm_insertionSort _ es

theorem decodePairs_of {kvs : List (Value × Value)} {es : List (Bytes × Bytes)}
    (h : List.Forall₂ PairDecodes kvs es) : ∃ kvs' : List (Value × Value),
      kvs.map Prod.fst = kvs'.map Prod.fst ∧
      List.Forall₂ Value.Same (kvs.map Prod.snd) (kvs'.map Prod.snd) ∧
      ∀ fuel rest, 2 * (es.flatMap fun e => e.1 ++ e.2).length + 1 ≤ fuel →
        decodePairs fuel kvs.length ((es.flatMap fun e => e.1 ++ e.2) ++ rest) = some (kvs', rest) := by
  induction h with
  | nil =>
    refine ⟨[], rfl, .nil, fun fuel rest hf => ?_⟩
    obtain ⟨fuel, rfl⟩ := Nat.exists_eq_add_of_lt (show 0 < fuel by omega)
    rw [Nat.zero_add]
    rfl
  | @cons kv e kvs es hkv _ ih =>
    obtain ⟨kvs', h₁, h₂, h₃⟩ := ih
    obtain ⟨hk, hpos, w, hw, hdec⟩ := hkv
    refine ⟨(kv.1, w) :: kvs', by simp [h₁], .cons hw h₂, fun fuel rest hf => ?_⟩
    have hkpos := encodeScalar_pos hk
    simp only [List.flatMap_cons, List.length_append] at hf
    obtain ⟨fuel, rfl⟩ := Nat.exists_eq_add_of_lt (show 1 < fuel by omega)
    simp only [List.flatMap_cons, List.append_assoc, List.length_cons, Nat.add_comm 1 fuel]
    rw [decodePairs, decode_encodeScalar hk]
    simp only [Option.bind_eq_bind, Option.bind_some]
    rw [hdec _ _ (by omega)]
    simp only [Option.bind_some]
    rw [h₃ _ _ (by omega)]
    rfl

/-- Induction over the parts of lists and dicts. -/
theorem Value.induct {motive : Value → Prop}
    (leaf : ∀ v, (∀ xs, v ≠ .list xs) → (∀ kvs, v ≠ .dict kvs) → motive v)
    (list : ∀ xs, (∀ x ∈ xs, motive x) → motive (.list xs))
    (dict : ∀ kvs : List (Value × Value), (∀ kv ∈ kvs, motive kv.2) → motive (.dict kvs)) : ∀ v, motive v
  | .list xs => list xs fun x hx => Value.induct leaf list dict x
  | .dict kvs => dict kvs fun kv hkv => Value.induct leaf list dict kv.2
  | .none | .bool _ | .int _ | .bytes _ | .str _ | .tuple _ | .set _ | .frozenset _ | .other _ =>
    leaf _ (by simp) (by simp)
termination_by v => sizeOf v
decreasing_by
  · have := List.sizeOf_lt_of_mem hx
    simp
    omega
  · have := List.sizeOf_lt_of_mem hkv
    obtain ⟨k, v⟩ := kv
    simp at this ⊢
    omega

theorem decodes_encodeList {xs : List Value} (ih : ∀ x ∈ xs, ∀ b, encode x = some b → Decodes x b) {b : Bytes}
    (h : encodeList xs = some b) : ∃ ws, List.Forall₂ Value.Same xs ws ∧ ∀ fuel rest, 2 * b.length + 1 ≤ fuel →
      decodeList fuel xs.length (b ++ rest) = some (ws, rest) := by
  induction xs generalizing b with
  | nil =>
    simp only [encodeList, Option.some.injEq] at h
    subst h
    refine ⟨[], .nil, fun fuel rest hf => ?_⟩
    obtain ⟨fuel, rfl⟩ := Nat.exists_eq_add_of_lt (show 0 < fuel by omega)
    rw [Nat.zero_add]
    rfl
  | cons v vs ihs =>
    rw [List.forall_mem_cons] at ih
    simp only [encodeList, Option.bind_eq_bind, Option.bind_eq_some_iff, pure, Option.some.injEq] at h
    obtain ⟨bv, hv, bs, hs, rfl⟩ := h
    obtain ⟨hpos, w, hw, hd⟩ := ih.1 bv hv
    obtain ⟨ws, hws, hds⟩ := ihs ih.2 hs
    refine ⟨w :: ws, .cons hw hws, fun fuel rest hf => ?_⟩
    rw [List.length_append] at hf
    obtain ⟨fuel, rfl⟩ := Nat.exists_eq_add_of_lt (show 0 < fuel by omega)
    rw [Nat.zero_add, List.length_cons, List.append_assoc, decodeList]
    simp only [Option.bind_eq_bind, hd _ _ (show 2 * bv.length ≤ fuel by omega), Option.bind_some,
      hds _ _ (show 2 * bs.length + 1 ≤ fuel by omega)]

theorem decodes_encodePairs {kvs : List (Value × Value)}
    (ih : ∀ kv ∈ kvs, ∀ b, encode kv.2 = some b → Decodes kv.2 b) {es : List (Bytes × Bytes)}
    (h : encodePairs kvs = some es) : List.Forall₂ PairDecodes kvs es := by
  induction kvs generalizing es with
  | nil =>
    simp only [encodePairs, Option.some.injEq] at h
    exact h ▸ .nil
  | cons kv kvs ihs =>
    rw [List.forall_mem_cons] at ih
    simp only [encodePairs, Option.bind_eq_bind, Option.bind_eq_some_iff, pure, Option.some.injEq] at h
    obtain ⟨ek, hk, ev, hv, es, hes, rfl⟩ := h
    exact .cons ⟨hk, ih.1 ev hv⟩ (ihs ih.2 hes)

theorem decodes_encode {v : Value} {b : Bytes} (h : encode v = some b) : Decodes v b := by
  induction v using Value.induct generalizing b with
  | leaf v hl hd =>
    cases v with
    | list xs => exact absurd rfl (hl xs)
    | dict kvs => exact absurd rfl (hd kvs)
    | none | bool | int | bytes | str => exact decodes_scalar h
    | tuple | set | frozenset | other => cases h
  | list xs ih =>
    simp only [encode, Option.bind_eq_bind, Option.bind_eq_some_iff] at h
    obtain ⟨body, hb, h⟩ := h
    obtain ⟨hn, rfl⟩ := sized_eq_some.mp h
    obtain ⟨ws, hs, hd⟩ := decodes_encodeList (fun x hx b => ih x hx) hb
    have hp := head_pos 4 xs.length
    refine ⟨by rw [List.length_append]; omega, .list ws, .list hs, fun fuel rest hf => ?_⟩
    rw [List.length_append] at hf
    obtain ⟨fuel, rfl⟩ := Nat.exists_eq_add_of_lt (show 0 < fuel by omega)
    rw [Nat.zero_add, List.append_assoc, decode_head (by decide) hn]
    simp only [item, hd fuel rest (by omega), Option.map_some]
  | dict kvs ih =>
    simp only [encode, Option.bind_eq_bind, Option.bind_eq_some_iff] at h
    obtain ⟨es, he, h⟩ := h
    obtain ⟨hn, rfl⟩ := sized_eq_some.mp h
    obtain ⟨kvs', hf, hp⟩ :=
      List.perm_comp_forall₂ (sortPairs_perm es) (decodes_encodePairs (fun kv hkv b => ih kv hkv) he).flip
    obtain ⟨kvs'', h₁, h₂, hd⟩ := decodePairs_of hf.flip
    have hpos := head_pos 5 kvs.length
    refine ⟨by rw [List.length_append]; omega, .dict kvs'', .dict hp.symm h₁ h₂, fun fuel rest hfuel => ?_⟩
    rw [List.length_append] at hfuel
    obtain ⟨fuel, rfl⟩ := Nat.exists_eq_add_of_lt (show 0 < fuel by omega)
    rw [Nat.zero_add, List.append_assoc, decode_head (by decide) hn]
    simp only [item, ← hp.length_eq, hd fuel rest (by omega), Option.map_some]

theorem encode_list_isSome {xs : List Value} (h : xs.length < 256 ^ 8) :
    (∃ b, encode (.list xs) = some b) ↔ ∀ x ∈ xs, ∃ b, encode x = some b := by
  have key : ∀ ys : List Value, (∃ b, encodeList ys = some b) ↔ ∀ x ∈ ys, ∃ b, encode x = some b := by
    intro ys
    induction ys with
    | nil => simp [encodeList]
    | cons y ys ih =>
      simp only [encodeList, Option.bind_eq_bind, Option.bind_eq_some_iff, pure, Option.some.injEq,
        List.forall_mem_cons, ← ih]
      constructor
      · rintro ⟨b, bx, hx, bs, hs, -⟩
        exact ⟨⟨bx, hx⟩, bs, hs⟩
      · rintro ⟨⟨bx, hx⟩, bs, hs⟩
        exact ⟨_, bx, hx, bs, hs, rfl⟩
  rw [← key]
  simp only [encode, Option.bind_eq_bind, Option.bind_eq_some_iff, sized_eq_some, h, true_and]
  constructor
  · rintro ⟨b, body, hb, -⟩
    exact ⟨body, hb⟩
  · rintro ⟨body, hb⟩
    exact ⟨_, body, hb, rfl⟩

/-! ## What has an encoding -/

theorem length_utf8 (s : String) : (utf8 s).length = s.utf8ByteSize := by
  rw [utf8, Array.length_toList, ByteArray.size_data, String.size_toByteArray]

theorem number_isSome {major n : Nat} : (∃ b, number major n = some b) ↔ (Nat.digits 256 n).length < 256 ^ 8 := by
  by_cases hn : n < 256 ^ 8
  · have hlen : (Nat.digits 256 n).length ≤ 8 := (Nat.digits_length_le_iff (by decide) n).mpr hn
    exact iff_of_true ⟨_, number_eq_some.mpr (.inl ⟨hn, rfl⟩)⟩ (by omega)
  · constructor
    · intro h
      obtain ⟨b, hb⟩ := h
      obtain ⟨hn', -⟩ | ⟨-, body, hbody, -⟩ := number_eq_some.mp hb
      · exact absurd hn' hn
      · exact (sized_eq_some.mp hbody).1
    · intro h
      exact ⟨_, number_eq_some.mpr (.inr ⟨hn, _, sized_eq_some.mpr ⟨h, rfl⟩, rfl⟩)⟩

theorem sized_isSome {major n : Nat} {body : Bytes} : (∃ b, sized major n body = some b) ↔ n < 2 ^ 64 := by
  simp only [sized_eq_some, exists_and_left, exists_eq, and_true]
  omega

/-- The values without parts that have an encoding are the plain ones. -/
theorem encodeScalar_isSome {v : Value} (hs : v.scalar = true) : (∃ b, encodeScalar v = some b) ↔ v.Plain := by
  cases v with
  | none => exact iff_of_true ⟨_, rfl⟩ .none
  | bool b => exact iff_of_true ⟨_, rfl⟩ (.bool b)
  | int n =>
    have hplain : (Value.int n).Plain ↔ (Nat.digits 256 (Value.argument n)).length < 2 ^ 64 :=
      ⟨fun h => by cases h; assumption, .int⟩
    rw [hplain]
    cases n with
    | ofNat n => exact number_isSome
    | negSucc n => exact number_isSome
  | bytes b => exact sized_isSome.trans ⟨.bytes, fun h => by cases h; assumption⟩
  | str s =>
    refine sized_isSome.trans ?_
    rw [length_utf8]
    exact ⟨.str, fun h => by cases h; assumption⟩
  | other o => exact iff_of_false (by simp [encodeScalar]) (by rintro ⟨⟩)
  | list | tuple | set | frozenset | dict => cases hs

theorem encodePairs_isSome {kvs : List (Value × Value)} (hk : ∀ kv ∈ kvs, ∃ b, encodeScalar kv.1 = some b)
    (hv : ∀ kv ∈ kvs, ∃ b, encode kv.2 = some b) : ∃ es, encodePairs kvs = some es := by
  induction kvs with
  | nil => exact ⟨[], rfl⟩
  | cons kv kvs ih =>
    rw [List.forall_mem_cons] at hk hv
    obtain ⟨ek, hek⟩ := hk.1
    obtain ⟨ev, hev⟩ := hv.1
    obtain ⟨es, hes⟩ := ih hk.2 hv.2
    exact ⟨(ek, ev) :: es, by simp [encodePairs, hek, hev, hes]⟩

theorem encode_scalar {v : Value} (hs : v.scalar = true) : encode v = encodeScalar v := by
  cases v <;> first | rfl | cases hs

theorem parts_of_encodePairs {kvs : List (Value × Value)} {es : List (Bytes × Bytes)} (h : encodePairs kvs = some es) :
    ∀ kv ∈ kvs, ∃ k v, encodeScalar kv.1 = some k ∧ encode kv.2 = some v := by
  induction kvs generalizing es with
  | nil => simp
  | cons kv kvs ih =>
    obtain ⟨k, v⟩ := kv
    simp only [encodePairs, Option.bind_eq_bind, Option.bind_eq_some_iff] at h
    obtain ⟨ek, hk, ev, hv, es, hes, -⟩ := h
    exact List.forall_mem_cons.mpr ⟨⟨ek, ev, hk, hv⟩, ih hes⟩

/-- Texts that have a UTF-8 form are the only ones encoded. -/
theorem utf8_of_encode {v : Value} {b : Bytes} (h : encode v = some b) : v.Utf8 := by
  have scalar : ∀ {v : Value} {b : Bytes}, encodeScalar v = some b → v.Utf8 := by
    intro v b h
    cases v with
    | none | bool | int | bytes | str => exact .intro (by simp) (by simp [Value.parts])
    | list | tuple | set | frozenset | dict | other => simp [encodeScalar] at h
  induction v using Value.induct generalizing b with
  | leaf v hl hd =>
    have hv : v.scalar = true := by
      cases v with
      | list xs => exact absurd rfl (hl xs)
      | dict kvs => exact absurd rfl (hd kvs)
      | tuple | set | frozenset => simp [encode] at h
      | none | bool | int | bytes | str | other => rfl
    exact scalar (encode_scalar hv ▸ h)
  | list xs ih =>
    have hlen : xs.length < 256 ^ 8 := by
      simp only [encode, Option.bind_eq_bind, Option.bind_eq_some_iff] at h
      obtain ⟨_, -, h⟩ := h
      exact (sized_eq_some.mp h).1
    refine .intro (by simp) fun x hx => ?_
    obtain ⟨b, hb⟩ := (encode_list_isSome hlen).mp ⟨b, h⟩ x hx
    exact ih x hx hb
  | dict kvs ih =>
    simp only [encode, Option.bind_eq_bind, Option.bind_eq_some_iff] at h
    obtain ⟨es, hes, -⟩ := h
    refine .intro (by simp) fun x hx => ?_
    obtain hx | hx := List.mem_append.mp hx
    · obtain ⟨kv, hkv, rfl⟩ := List.mem_map.mp hx
      obtain ⟨_, _, hk, -⟩ := parts_of_encodePairs hes kv hkv
      exact scalar hk
    · obtain ⟨kv, hkv, rfl⟩ := List.mem_map.mp hx
      obtain ⟨_, _, -, hv⟩ := parts_of_encodePairs hes kv hkv
      exact ih kv hkv hv

/-- A list of values without parts has an encoding exactly when they are plain. -/
theorem encode_scalars_isSome {xs : List Value} (hlen : xs.length < 256 ^ 8) (hs : ∀ x ∈ xs, x.scalar = true) :
    (∃ b, encode (.list xs) = some b) ↔ ∀ x ∈ xs, x.Plain := by
  rw [encode_list_isSome hlen]
  refine forall₂_congr fun x hx => ?_
  rw [encode_scalar (hs x hx), encodeScalar_isSome (hs x hx)]

/-- Every plain value has an encoding. -/
theorem encode_plain {v : Value} (h : v.Plain) : ∃ b, encode v = some b := by
  induction h with
  | none => exact ⟨_, rfl⟩
  | bool b => exact ⟨_, rfl⟩
  | int hn => exact encode_scalar (v := .int _) rfl ▸ (encodeScalar_isSome rfl).mpr (.int hn)
  | bytes hb => exact encode_scalar (v := .bytes _) rfl ▸ (encodeScalar_isSome rfl).mpr (.bytes hb)
  | str hs => exact encode_scalar (v := .str _) rfl ▸ (encodeScalar_isSome rfl).mpr (.str hs)
  | list hlen _ ih => exact (encode_list_isSome (by omega)).mpr ih
  | dict hlen hscalar hkeys _ _ ih =>
    obtain ⟨es, hes⟩ := encodePairs_isSome (fun kv hkv => (encodeScalar_isSome (hscalar kv hkv)).mpr (hkeys kv hkv)) ih
    simp only [encode, hes, Option.bind_eq_bind, Option.bind_some]
    exact ⟨_, sized_eq_some.mpr ⟨by omega, rfl⟩⟩

/-! ## The order of a dict does not show -/

theorem key_injective : Function.Injective key := by
  rintro ⟨a, b⟩ ⟨c, d⟩ h
  simp only [key, List.cons.injEq] at h
  have h₂ := List.map_injective_iff.mpr (fun _ _ => UInt8.toNat_inj.mp) h.2
  obtain ⟨rfl, rfl⟩ := List.append_inj h₂ h.1
  rfl

theorem sortPairs_eq {es es' : List (Bytes × Bytes)} (h : es.Perm es') : sortPairs es = sortPairs es' := by
  have sorted : ∀ l, (sortPairs l).Pairwise fun a b => key a ≤ key b :=
    fun l => List.pairwise_insertionSort _ l
  refine List.Perm.eq_of_pairwise (fun a b _ _ h₁ h₂ => key_injective (le_antisymm h₁ h₂)) (sorted es) (sorted es') ?_
  exact ((sortPairs_perm es).trans h).trans (sortPairs_perm es').symm

theorem forall₂_imp_mem {α β : Type} {R S : α → β → Prop} {l : List α} {m : List β} (h : List.Forall₂ R l m)
    (H : ∀ a b, a ∈ l → b ∈ m → R a b → S a b) : List.Forall₂ S l m := by
  induction h with
  | nil => exact .nil
  | @cons a b l m hab _ ih =>
    exact .cons (H a b List.mem_cons_self List.mem_cons_self hab)
      (ih fun a b ha hb => H a b (List.mem_cons_of_mem _ ha) (List.mem_cons_of_mem _ hb))

theorem encodePairs_eq_some {kvs : List (Value × Value)} {es : List (Bytes × Bytes)} :
    encodePairs kvs = some es ↔
      List.Forall₂ (fun kv e => encodeScalar kv.1 = some e.1 ∧ encode kv.2 = some e.2) kvs es := by
  induction kvs generalizing es with
  | nil => simp [encodePairs, eq_comm]
  | cons kv kvs ih =>
    simp only [encodePairs, Option.bind_eq_bind, Option.bind_eq_some_iff, pure, Option.some.injEq, ih,
      List.forall₂_cons_left_iff]
    constructor
    · rintro ⟨ek, hk, ev, hv, es, hes, rfl⟩
      exact ⟨(ek, ev), es, ⟨hk, hv⟩, hes, rfl⟩
    · rintro ⟨e, es, ⟨hk, hv⟩, hes, rfl⟩
      exact ⟨e.1, hk, e.2, hv, es, hes, rfl⟩

theorem encode_dict_perm {kvs kvs' : List (Value × Value)} (h : kvs.Perm kvs') :
    encode (.dict kvs) = encode (.dict kvs') := by
  have key : ∀ {kvs kvs' : List (Value × Value)}, kvs.Perm kvs' → ∀ b, encode (.dict kvs) = some b →
      encode (.dict kvs') = some b := by
    intro kvs kvs' h b hb
    simp only [encode, Option.bind_eq_bind, Option.bind_eq_some_iff] at hb ⊢
    obtain ⟨es, hes, hb⟩ := hb
    obtain ⟨es', hes', hp⟩ := List.perm_comp_forall₂ h.symm (encodePairs_eq_some.mp hes)
    exact ⟨es', encodePairs_eq_some.mpr hes', by rwa [sortPairs_eq hp, ← h.length_eq]⟩
  exact Option.ext fun b => ⟨key h b, key h.symm b⟩

theorem encodePairs_congr : ∀ {kvs kvs' : List (Value × Value)}, kvs.map Prod.fst = kvs'.map Prod.fst →
    List.Forall₂ (fun v w => encode v = encode w) (kvs.map Prod.snd) (kvs'.map Prod.snd) →
    encodePairs kvs = encodePairs kvs'
  | [], [], _, _ => rfl
  | (k, v) :: kvs, (k', v') :: kvs', hk, hv => by
    simp only [List.map_cons, List.cons.injEq, List.forall₂_cons] at hk hv
    simp only [encodePairs, hk.1, hv.1, encodePairs_congr hk.2 hv.2]
  | [], _ :: _, hk, _ => by simp at hk
  | _ :: _, [], hk, _ => by simp at hk

theorem encodeList_congr : ∀ {xs ys : List Value}, List.Forall₂ (fun v w => encode v = encode w) xs ys →
    encodeList xs = encodeList ys
  | [], [], _ => rfl
  | v :: vs, w :: ws, .cons h hs => by simp only [encodeList, h, encodeList_congr hs]

/-- Values that are the same have the same encoding. -/
theorem encode_same {v w : Value} (h : Value.Same v w) : encode v = encode w := by
  induction v using Value.induct generalizing w with
  | leaf v hl hd =>
    cases h with
    | refl => rfl
    | list => exact absurd rfl (hl _)
    | dict => exact absurd rfl (hd _)
  | list xs ih =>
    cases h with
    | refl => rfl
    | @list _ ys h =>
      simp only [encode, h.length_eq]
      rw [encodeList_congr (forall₂_imp_mem h fun x y hx _ hxy => ih x hx hxy)]
  | dict kvs ih =>
    cases h with
    | refl => rfl
    | @dict _ kvs' kvs'' hp hk hv =>
      rw [encode_dict_perm hp]
      have hlen : kvs'.length = kvs''.length := by simpa using congrArg List.length hk
      simp only [encode, hlen]
      rw [encodePairs_congr hk (forall₂_imp_mem hv fun x y hx _ hxy => ?_)]
      obtain ⟨kv, hkv, rfl⟩ := List.mem_map.mp hx
      exact ih kv (hp.mem_iff.mpr hkv) hxy

/-! ## Truncated encodings -/

/-- What `d` reads from bytes, `d'` reads from them when more follow. -/
def Extends {α : Type} (d d' : Bytes → Option (α × Bytes)) : Prop :=
  ∀ {b a r}, d b = some (a, r) → ∀ x, d' (b ++ x) = some (a, r ++ x)

theorem readArg_append {major w : Nat} {b r : Bytes} {m n : Nat} (h : readArg major w b = some (m, n, r)) (x : Bytes) :
    readArg major w (b ++ x) = some (m, n, r ++ x) := by
  unfold readArg at h ⊢
  split at h
  · rename_i hw
    rw [Option.some.injEq, Prod.mk.injEq, Prod.mk.injEq] at h
    obtain ⟨rfl, rfl, rfl⟩ := h
    rw [if_pos (by rw [List.length_append]; omega), List.take_append_of_le_length hw, List.drop_append_of_le_length hw]
  · cases h

theorem readHead_append {b r : Bytes} {m n : Nat} (h : readHead b = some (m, n, r)) (x : Bytes) :
    readHead (b ++ x) = some (m, n, r ++ x) := by
  cases b with
  | nil => cases h
  | cons y b =>
    rw [List.cons_append]
    unfold readHead at h ⊢
    dsimp only at h ⊢
    split at h
    · exact readArg_append h x
    · exact readArg_append h x
    · exact readArg_append h x
    · exact readArg_append h x
    · split at h
      · rename_i hlt
        rw [Option.some.injEq, Prod.mk.injEq, Prod.mk.injEq] at h
        obtain ⟨rfl, rfl, rfl⟩ := h
        rw [if_pos hlt]
      · cases h

theorem bignum_extends {f : Nat → Int} : Extends (bignum f) (bignum f) := by
  intro b a r h x
  unfold bignum at h ⊢
  split at h
  · rename_i n b' hb
    rw [readHead_append hb]
    split at h
    · rename_i hn
      rw [Option.some.injEq, Prod.mk.injEq] at h
      obtain ⟨rfl, rfl⟩ := h
      simp only
      rw [if_pos (by rw [List.length_append]; omega), List.take_append_of_le_length hn,
        List.drop_append_of_le_length hn]
    · cases h
  · cases h

theorem map_extends {α β : Type} {d d' : Bytes → Option (α × Bytes)} (h : Extends d d') (f : α → β) :
    Extends (fun b => (d b).map fun r => (f r.1, r.2)) fun b => (d' b).map fun r => (f r.1, r.2) := by
  intro b a r hd x
  obtain ⟨⟨a', r'⟩, hd', he⟩ := Option.map_eq_some_iff.mp hd
  rw [Prod.mk.injEq] at he
  obtain ⟨rfl, rfl⟩ := he
  simp only [h hd' x, Option.map_some]

theorem item_extends {list list' : Nat → Bytes → Option (List Value × Bytes)}
    {pairs pairs' : Nat → Bytes → Option (List (Value × Value) × Bytes)} (hl : ∀ n, Extends (list n) (list' n))
    (hp : ∀ n, Extends (pairs n) (pairs' n)) {major n : Nat} :
    Extends (item list pairs major n) (item list' pairs' major n) := by
  intro b a r h x
  unfold item at h ⊢
  split at h
  · cases h; rfl
  · cases h; rfl
  · split at h
    · rename_i hn
      cases h
      rw [if_pos (by rw [List.length_append]; omega), List.take_append_of_le_length hn,
        List.drop_append_of_le_length hn]
    · cases h
  · split at h
    · rename_i hn
      obtain ⟨s, hs, he⟩ := Option.map_eq_some_iff.mp h
      cases he
      rw [if_pos (by rw [List.length_append]; omega), List.take_append_of_le_length hn,
        List.drop_append_of_le_length hn, hs]
      rfl
    · cases h
  · exact map_extends (hl n) _ h x
  · exact map_extends (hp n) _ h x
  · split at h
    · exact bignum_extends h x
    · exact bignum_extends h x
    · cases h
  · split at h
    · cases h; rfl
    · cases h; rfl
    · cases h; rfl
    · cases h
  · cases h

/-- More fuel and more bytes do not change what is read. -/
theorem decode_extends : ∀ {fuel fuel' : Nat}, fuel ≤ fuel' → Extends (decode fuel) (decode fuel') ∧
    (∀ n, Extends (decodeList fuel n) (decodeList fuel' n)) ∧
    ∀ n, Extends (decodePairs fuel n) (decodePairs fuel' n) := by
  intro fuel
  induction fuel with
  | zero =>
    intro fuel' _
    refine ⟨fun h => ?_, fun n _ _ _ h => ?_, fun n _ _ _ h => ?_⟩
    · rw [decode] at h
      cases h
    · rw [decodeList] at h
      cases h
    · rw [decodePairs] at h
      cases h
  | succ fuel ih =>
    intro fuel' hf
    obtain ⟨fuel', rfl⟩ := Nat.exists_eq_add_of_lt (show 0 < fuel' by omega)
    rw [Nat.zero_add] at hf ⊢
    obtain ⟨hd, hl, hp⟩ := ih (Nat.le_of_succ_le_succ hf)
    refine ⟨fun {b a r} h x => ?_, fun n => ?_, fun n => ?_⟩
    · rw [decode] at h ⊢
      split at h
      · rename_i hb
        rw [readHead_append hb]
        exact item_extends hl hp h x
      · cases h
    · intro b a r h x
      cases n with
      | zero =>
        rw [decodeList] at h ⊢
        cases h
        rfl
      | succ n =>
        rw [decodeList] at h ⊢
        simp only [Option.bind_eq_bind, Option.bind_eq_some_iff] at h
        obtain ⟨⟨v, b'⟩, hv, ⟨vs, b''⟩, hvs, he⟩ := h
        cases he
        simp only [Option.bind_eq_bind, hd hv x, hl n hvs x, Option.bind_some]
    · intro b a r h x
      cases n with
      | zero =>
        rw [decodePairs] at h ⊢
        cases h
        rfl
      | succ n =>
        rw [decodePairs] at h ⊢
        simp only [Option.bind_eq_bind, Option.bind_eq_some_iff] at h
        obtain ⟨⟨k, b₁⟩, hk, ⟨v, b₂⟩, hv, ⟨kvs, b₃⟩, hkvs, he⟩ := h
        cases he
        simp only [Option.bind_eq_bind, hd hk x, hd hv x, hp n hkvs x, Option.bind_some]

/-- The beginning of an encoding is not decoded. -/
theorem decode_take {v : Value} {b : Bytes} (h : encode v = some b) {n : Nat} (hn : n < b.length) :
    decode (2 * (b.take n).length) (b.take n) = none := by
  obtain ⟨-, w, -, hd⟩ := decodes_encode h
  have hwhole := hd (2 * b.length) [] le_rfl
  rw [List.append_nil] at hwhole
  cases hx : decode (2 * (b.take n).length) (b.take n) with
  | none => rfl
  | some r =>
    have hlen : 2 * (b.take n).length ≤ 2 * b.length := by
      rw [List.length_take]
      omega
    have happend := (decode_extends hlen).1 hx (b.drop n)
    rw [List.take_append_drop, hwhole, Option.some.injEq, Prod.mk.injEq] at happend
    have hnil := congrArg List.length happend.2
    simp only [List.length_nil, List.length_append, List.length_drop] at hnil
    omega

end ArxDB.Reference.Cbor
