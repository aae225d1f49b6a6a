import ArxDB.Impl.Go.Hashing
import ArxDB.Proof.Encoding
import ArxDB.Proof.Objects

/-!
# Hashes as text

`fromhex` reads back the digits it is given once white space is taken out
(`fromhex_digits`, `fromhex_of_digits`), and so does `hex.DecodeString`, which
takes no white space (`decodeString_iff`). The two readers of a hash agree on
every text without white space (`hex_readers`).
-/

namespace ArxDB.Proof

open Impl

/-! ## Digits -/

theorem exists_ofNat {c : Char} (h : c.toNat < 128) : ∃ i : Fin 128, c = Char.ofNat i :=
  ⟨⟨c.toNat, h⟩, (Char.ofNat_toNat c).symm⟩

/-- Only characters of ASCII are digits, in either case. -/
theorem lt_of_toLower {c : Char} {n : Nat} (hn : n < 16) (h : c.toLower = hexDigit n) : c.toNat < 128 := by
  have hdigit : ∀ i : Fin 16, (hexDigit i).toNat < 128 := by decide
  have hlt := hdigit ⟨n, hn⟩
  rw [show hexDigit (⟨n, hn⟩ : Fin 16) = c.toLower from h.symm] at hlt
  by_contra hc
  have hcase : ¬ (c.val ≥ 'A'.val ∧ c.val ≤ 'Z'.val) := by
    intro hz
    exact hc (lt_of_le_of_lt (UInt32.le_iff_toNat_le.mp hz.2) (by decide))
  have hsame : c.toLower = c := dif_neg hcase
  rw [hsame] at hlt
  exact hc hlt

theorem lt_of_hexValue {c : Char} {n : Nat} (h : hexValue c = some n) : c.toNat < 128 := by
  have le_toNat : ∀ {a b : Char}, a ≤ b → a.toNat ≤ b.toNat := fun h => UInt32.le_iff_toNat_le.mp h
  unfold hexValue at h
  split_ifs at h with h₁ h₂ h₃
  · exact lt_of_le_of_lt (le_toNat h₁.2) (by decide)
  · exact lt_of_le_of_lt (le_toNat h₂.2) (by decide)
  · exact lt_of_le_of_lt (le_toNat h₃.2) (by decide)

theorem hexValue_eq_some {c : Char} {n : Nat} : hexValue c = some n ↔ n < 16 ∧ c.toLower = hexDigit n := by
  have lt_sixteen : ∀ i : Fin 128, ∀ n ∈ hexValue (Char.ofNat i), n < 16 := by decide +kernel
  have key : ∀ (i : Fin 128) (n : Fin 16), hexValue (Char.ofNat i) = some n.val ↔
      (Char.ofNat i).toLower = hexDigit n := by
    decide +kernel
  constructor
  · intro h
    obtain ⟨i, rfl⟩ := exists_ofNat (lt_of_hexValue h)
    have hn := lt_sixteen i n h
    exact ⟨hn, (key i ⟨n, hn⟩).mp h⟩
  · rintro ⟨hn, h⟩
    obtain ⟨i, rfl⟩ := exists_ofNat (lt_of_toLower hn h)
    exact (key i ⟨n, hn⟩).mpr h

theorem not_space_of_hexValue {c : Char} {n : Nat} (h : hexValue c = some n) : asciiSpace c = false := by
  have key : ∀ i : Fin 128, hexValue (Char.ofNat i) ≠ none → asciiSpace (Char.ofNat i) = false := by decide +kernel
  obtain ⟨i, rfl⟩ := exists_ofNat (lt_of_hexValue h)
  exact key i (by simp [h])

/-- Two digits are the text of the byte they are read as. -/
theorem hexPair_eq_some {c d : Char} {b : UInt8} : hexPair c d = some b ↔ [c, d].map Char.toLower = hexByte b := by
  have hb := b.toNat_lt
  have key : ∀ m n, m < 16 → n < 16 → (UInt8.ofNat (m * 16 + n) = b ↔ m = b.toNat / 16 ∧ n = b.toNat % 16) := by
    intro m n hm hn
    rw [← UInt8.toNat_inj, UInt8.toNat_ofNat']
    omega
  simp only [hexPair, Option.bind_eq_bind, Option.bind_eq_some_iff, Option.some.injEq, hexByte,
    List.map_cons, List.map_nil, List.cons.injEq, and_true, hexValue_eq_some]
  constructor
  · rintro ⟨m, ⟨hm, hc⟩, n, ⟨hn, hd⟩, h⟩
    obtain ⟨rfl, rfl⟩ := (key m n hm hn).mp h
    exact ⟨hc, hd⟩
  · rintro ⟨hc, hd⟩
    exact ⟨b.toNat / 16, ⟨by omega, hc⟩, b.toNat % 16, ⟨by omega, hd⟩, (key _ _ (by omega) (by omega)).mpr ⟨rfl, rfl⟩⟩

/-! ## `bytes.fromhex` -/

/-- What is not white space. -/
def withoutSpace (s : List Char) : List Char := s.filter (!asciiSpace ·)

theorem withoutSpace_cons_space {c : Char} (h : asciiSpace c = true) (s : List Char) :
    withoutSpace (c :: s) = withoutSpace s := by
  rw [withoutSpace, List.filter_cons_of_neg (by simp [h]), withoutSpace]

theorem withoutSpace_cons {c : Char} (h : asciiSpace c = false) (s : List Char) :
    withoutSpace (c :: s) = c :: withoutSpace s := by
  rw [withoutSpace, List.filter_cons_of_pos (by simp [h]), withoutSpace]

theorem space_of_hexPair {c d : Char} {b : UInt8} (h : hexPair c d = some b) :
    asciiSpace c = false ∧ asciiSpace d = false := by
  simp only [hexPair, Option.bind_eq_bind, Option.bind_eq_some_iff] at h
  obtain ⟨m, hm, n, hn, -⟩ := h
  exact ⟨not_space_of_hexValue hm, not_space_of_hexValue hn⟩

/-- What is accepted are the digits of the bytes, in either case. -/
theorem fromhex_digits {s : List Char} {b : Bytes} (h : fromhex s = .ok b) :
    (withoutSpace s).map Char.toLower = b.flatMap hexByte := by
  induction s using fromhex.induct generalizing b with
  | case1 =>
    cases h
    rfl
  | case2 c hc =>
    rw [fromhex, if_pos hc] at h
    cases h
    rw [withoutSpace_cons_space hc]
    rfl
  | case3 c hc =>
    rw [fromhex, if_neg hc] at h
    cases h
  | case4 c d cs hc ih =>
    rw [fromhex, if_pos hc] at h
    rw [withoutSpace_cons_space hc, ih h]
  | case5 c d cs hc b₀ hpair ih =>
    rw [fromhex, if_neg hc, hpair] at h
    obtain ⟨bs, hbs, h⟩ := map_eq_ok.mp h
    subst h
    obtain ⟨hspace, hspace'⟩ := space_of_hexPair hpair
    rw [withoutSpace_cons hspace, withoutSpace_cons hspace', List.flatMap_cons, ← hexPair_eq_some.mp hpair, ← ih hbs]
    rfl
  | case6 c d cs hc hpair =>
    rw [fromhex, if_neg hc, hpair] at h
    cases h

/-- The digits of bytes, in either case, are read as the bytes. -/
theorem fromhex_of_digits {s : List Char} {b : Bytes} (h : s.map Char.toLower = b.flatMap hexByte) :
    fromhex s = .ok b := by
  induction b generalizing s with
  | nil =>
    obtain rfl := List.map_eq_nil_iff.mp h
    rfl
  | cons b₀ b ih =>
    rw [List.flatMap_cons] at h
    obtain ⟨s₀, s₁, rfl, h₀, h₁⟩ := List.map_eq_append_iff.mp h
    have hlen : s₀.length = 2 := by
      rw [← List.length_map (f := Char.toLower), h₀]
      rfl
    obtain ⟨c, d, rfl⟩ := List.length_eq_two.mp hlen
    have hpair := hexPair_eq_some.mpr h₀
    show fromhex (c :: d :: s₁) = _
    rw [fromhex, if_neg (by simp [(space_of_hexPair hpair).1]), hpair, ih h₁]
    rfl

theorem fromHex_eq_ok {s : List Char} {h : Hash} : Hash.fromHex s = .ok h ↔ fromhex s = .ok h.raw := by
  rw [Hash.fromHex]
  cases fromhex s with
  | error e => simp [bind, Except.bind]
  | ok raw =>
    rw [Except.ok.injEq]
    exact Hash.new_eq_ok

theorem hexDigit_of_mem {b : Bytes} {c : Char} (h : c ∈ b.flatMap hexByte) : ∃ n < 16, c = hexDigit n := by
  obtain ⟨x, -, hx⟩ := List.mem_flatMap.mp h
  have hlt := x.toNat_lt
  simp only [hexByte, List.mem_cons, List.not_mem_nil, or_false] at hx
  obtain rfl | rfl := hx
  · exact ⟨_, by omega, rfl⟩
  · exact ⟨_, by omega, rfl⟩

/-- The digits that are written are small letters. -/
theorem map_toLower (b : Bytes) : (b.flatMap hexByte).map Char.toLower = b.flatMap hexByte := by
  have key : ∀ i : Fin 16, (hexDigit i).toLower = hexDigit i := by decide
  have hid : (b.flatMap hexByte).map Char.toLower = (b.flatMap hexByte).map id := by
    refine List.map_congr_left fun c hc => ?_
    obtain ⟨n, hn, rfl⟩ := hexDigit_of_mem hc
    exact key ⟨n, hn⟩
  rw [hid, List.map_id]

theorem fromHex_hex (h : Hash) : Hash.fromHex h.hex = .ok h :=
  fromHex_eq_ok.mpr (fromhex_of_digits (map_toLower h.raw))

/-! ## `hex.DecodeString` -/

theorem decodeString_digits {src : Bytes} {b : Bytes} (h : Go.decodeString src = .ok b) :
    (src.map fun x => (Char.ofNat x.toNat).toLower) = b.flatMap hexByte := by
  induction src using Go.decodeString.induct generalizing b with
  | case1 =>
    cases h
    rfl
  | case2 => cases h
  | case3 p q src m n hm hn ih =>
    rw [Go.decodeString, hm, hn] at h
    obtain ⟨bs, hbs, h⟩ := map_eq_ok.mp h
    subst h
    have hpair : hexPair (Char.ofNat p.toNat) (Char.ofNat q.toNat) = some (UInt8.ofNat (m * 16 + n)) := by
      rw [Go.hexValue] at hm hn
      rw [hexPair, hm, hn]
      rfl
    rw [List.flatMap_cons, ← hexPair_eq_some.mp hpair, ← ih hbs]
    rfl
  | case4 p q src hnone =>
    rw [Go.decodeString] at h
    split at h
    · rename_i m n hm hn
      exact absurd hn (hnone m n hm)
    · cases h

theorem decodeString_of_digits {src : Bytes} {b : Bytes}
    (h : (src.map fun x => (Char.ofNat x.toNat).toLower) = b.flatMap hexByte) : Go.decodeString src = .ok b := by
  induction b generalizing src with
  | nil =>
    obtain rfl := List.map_eq_nil_iff.mp h
    rfl
  | cons b₀ b ih =>
    rw [List.flatMap_cons] at h
    obtain ⟨s₀, s₁, rfl, h₀, h₁⟩ := List.map_eq_append_iff.mp h
    have hlen : s₀.length = 2 := by
      rw [← List.length_map (f := fun x : UInt8 => (Char.ofNat x.toNat).toLower), h₀]
      rfl
    obtain ⟨p, q, rfl⟩ := List.length_eq_two.mp hlen
    have hpair : hexPair (Char.ofNat p.toNat) (Char.ofNat q.toNat) = some b₀ := hexPair_eq_some.mpr h₀
    simp only [hexPair, Option.bind_eq_bind, Option.bind_eq_some_iff, Option.some.injEq] at hpair
    obtain ⟨m, hm, n, hn, rfl⟩ := hpair
    show Go.decodeString (p :: q :: s₁) = _
    rw [Go.decodeString, Go.hexValue, hm, Go.hexValue, hn, ih h₁]
    rfl

/-- A byte beyond ASCII is no digit. -/
theorem ascii_of_digits {c : Char} {b : UInt8} (hb : b ∈ String.utf8EncodeChar c) {n : Nat} (hn : n < 16)
    (h : (Char.ofNat b.toNat).toLower = hexDigit n) : c.toNat < 128 := by
  by_contra hc
  have hbyte : 128 ≤ b.toNat := by
    have hv : ¬ c.val.toNat ≤ 0x7f := fun hv => hc (Nat.lt_succ_of_le hv)
    simp only [String.utf8EncodeChar, if_neg hv] at hb
    split_ifs at hb
    all_goals
      simp only [List.mem_cons, List.not_mem_nil, or_false] at hb
      rcases hb with rfl | rfl | rfl | rfl <;> simp only [UInt8.toNat_ofNat'] <;> omega
  have hlt := lt_of_toLower hn h
  have hvalid : (Char.ofNat b.toNat).toNat = b.toNat := by
    have key : ∀ i : Fin 256, (Char.ofNat i).toNat = i.val := by decide +kernel
    exact key ⟨b.toNat, b.toNat_lt⟩
  rw [hvalid] at hlt
  exact absurd hlt (by omega)

/-- The bytes of a text of ASCII are its characters. -/
theorem utf8_ascii {s : List Char} (h : ∀ c ∈ s, c.toNat < 128) :
    ((s.flatMap String.utf8EncodeChar).map fun x => (Char.ofNat x.toNat).toLower) = s.map Char.toLower := by
  induction s with
  | nil => rfl
  | cons c s ih =>
    rw [List.forall_mem_cons] at h
    have hc : String.utf8EncodeChar c = [UInt8.ofNat c.toNat] := by
      rw [String.utf8EncodeChar]
      exact if_pos (Nat.le_of_lt_succ h.1)
    have hback : Char.ofNat (UInt8.ofNat c.toNat).toNat = c := by
      rw [UInt8.toNat_ofNat', Nat.mod_eq_of_lt (by omega), Char.ofNat_toNat]
    rw [List.flatMap_cons, List.map_append, ih h.2, hc, List.map_singleton, hback]
    rfl

/-- The texts that Go reads are the digits of the bytes, in either case. -/
theorem decodeString_iff {s : List Char} {b : Bytes} :
    Go.decodeString (s.flatMap String.utf8EncodeChar) = .ok b ↔ s.map Char.toLower = b.flatMap hexByte := by
  constructor
  · intro h
    have hdigits := decodeString_digits h
    have hascii : ∀ c ∈ s, c.toNat < 128 := by
      intro c hc
      obtain ⟨x, hx⟩ := List.exists_mem_of_ne_nil _ (String.utf8EncodeChar_ne_nil (c := c))
      have hmem : (Char.ofNat x.toNat).toLower ∈ b.flatMap hexByte :=
        hdigits ▸ List.mem_map_of_mem (List.mem_flatMap.mpr ⟨c, hc, hx⟩)
      obtain ⟨n, hn, hdigit⟩ := hexDigit_of_mem hmem
      exact ascii_of_digits hx hn hdigit
    rw [← utf8_ascii hascii, hdigits]
  · intro h
    have hascii : ∀ c ∈ s, c.toNat < 128 := by
      intro c hc
      obtain ⟨n, hn, hdigit⟩ := hexDigit_of_mem (h ▸ List.mem_map_of_mem hc)
      exact lt_of_toLower hn hdigit
    exact decodeString_of_digits ((utf8_ascii hascii).trans h)

theorem goFromHex_eq_ok {src : Bytes} {h : Hash} : Go.fromHex src = .ok h ↔ Go.decodeString src = .ok h.raw := by
  rw [Go.fromHex]
  cases Go.decodeString src with
  | error e => simp [bind, Except.bind]
  | ok raw =>
    show (if h : raw.length = 34 then _ else _) = _ ↔ _
    by_cases hlen : raw.length = 34
    · rw [dif_pos hlen]
      simp only [pure, Except.pure, Except.ok.injEq, ← Hash.raw_inj]
    · rw [dif_neg hlen]
      simp only [throw, throwThe, MonadExceptOf.throw, Except.ok.injEq, reduceCtorEq, false_iff]
      rintro rfl
      exact hlen h.size

/-- `from_hex` reads a hash from its digits in either case and any white space
that stands between the bytes, `FromHex` from the digits alone. -/
theorem hex_readers (s : List Char) (h : Hash) :
    (Hash.fromHex s = .ok h → (withoutSpace s).map Char.toLower = h.hex) ∧
    (Go.fromHex (s.flatMap String.utf8EncodeChar) = .ok h ↔ s.map Char.toLower = h.hex) ∧
    (Go.fromHex (s.flatMap String.utf8EncodeChar) = .ok h ↔
      Hash.fromHex s = .ok h ∧ ∀ c ∈ s, asciiSpace c = false) := by
  rw [fromHex_eq_ok, goFromHex_eq_ok, decodeString_iff]
  refine ⟨fromhex_digits, Iff.rfl, fun hs => ⟨fromhex_of_digits hs, fun c hc => ?_⟩, fun ⟨hs, hspace⟩ => ?_⟩
  · obtain ⟨n, hn, hdigit⟩ := hexDigit_of_mem (hs ▸ List.mem_map_of_mem hc)
    exact not_space_of_hexValue (hexValue_eq_some.mpr ⟨hn, hdigit⟩)
  · have hall : withoutSpace s = s := List.filter_eq_self.mpr fun c hc => by simp [hspace c hc]
    rw [← fromhex_digits hs, hall]

end ArxDB.Proof
