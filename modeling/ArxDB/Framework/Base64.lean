import Mathlib.Tactic.Common

/-!
# Base64

The encoder pads its text to whole groups of four. The decoder is the lenient
one of `binascii`: it drops what is outside the alphabet, reads six bits at a
time, and stops at the padding that completes a group. It undoes the encoder
(`decode_encode`).
-/

namespace Base64

/-- The character of six bits. -/
def digit (n : Nat) : Char :=
  "ABCDEFGHIJKLMNOPQRSTUVWXYZabcdefghijklmnopqrstuvwxyz0123456789+/".toList.getD n 'A'

/-- The six bits of a character of the alphabet. -/
def value (c : Char) : Option Nat :=
  if 'A' ≤ c ∧ c ≤ 'Z' then some (c.toNat - 65)
  else if 'a' ≤ c ∧ c ≤ 'z' then some (c.toNat - 71)
  else if '0' ≤ c ∧ c ≤ '9' then some (c.toNat + 4)
  else if c = '+' then some 62
  else if c = '/' then some 63
  else none

/-- The four characters of three bytes, of which the last can be padding. -/
def quad (a b c : Nat) : List Char :=
  [digit (a / 4), digit (a % 4 * 16 + b / 16), digit (b % 16 * 4 + c / 64), digit (c % 64)]

/-- `b64encode`. -/
def encode : List UInt8 → List Char
  | a :: b :: c :: rest => quad a.toNat b.toNat c.toNat ++ encode rest
  | [a, b] => (quad a.toNat b.toNat 0).take 3 ++ ['=']
  | [a] => (quad a.toNat 0 0).take 2 ++ ['=', '=']
  | [] => []

/-- The decoder at position `pos` of a group: `left` are the bits of it that
are not out yet, `pads` the padding read in a row. -/
def decodeFrom : Nat → Nat → Nat → List Char → Option (List UInt8)
  | pos, _, _, [] => if pos = 0 then some [] else none
  | pos, left, pads, c :: cs =>
    if c = '=' then
      if 2 ≤ pos then
        if 4 ≤ pos + (pads + 1) then some [] else decodeFrom pos left (pads + 1) cs
      else decodeFrom pos left pads cs
    else match value c with
      | none => decodeFrom pos left pads cs
      | some v =>
        if pos = 0 then decodeFrom 1 v 0 cs
        else if pos = 1 then (UInt8.ofNat (left * 4 + v / 16) :: ·) <$> decodeFrom 2 (v % 16) 0 cs
        else if pos = 2 then (UInt8.ofNat (left * 16 + v / 4) :: ·) <$> decodeFrom 3 (v % 4) 0 cs
        else (UInt8.ofNat (left * 64 + v) :: ·) <$> decodeFrom 0 0 0 cs

/-- `a2b_base64`; `none` is `binascii.Error`. -/
def decode (s : List Char) : Option (List UInt8) := decodeFrom 0 0 0 s

theorem value_digit {n : Nat} (h : n < 64) : value (digit n) = some n := by
  have key : ∀ i : Fin 64, value (digit i) = some i.val := by decide +kernel
  exact key ⟨n, h⟩

theorem digit_ne_pad {n : Nat} (h : n < 64) : digit n ≠ '=' := by
  have key : ∀ i : Fin 64, digit i ≠ '=' := by decide +kernel
  exact key ⟨n, h⟩

/-- One digit. -/
theorem decodeFrom_digit {n : Nat} (h : n < 64) (pos left pads : Nat) (cs : List Char) :
    decodeFrom pos left pads (digit n :: cs) =
      if pos = 0 then decodeFrom 1 n 0 cs
      else if pos = 1 then (UInt8.ofNat (left * 4 + n / 16) :: ·) <$> decodeFrom 2 (n % 16) 0 cs
      else if pos = 2 then (UInt8.ofNat (left * 16 + n / 4) :: ·) <$> decodeFrom 3 (n % 4) 0 cs
      else (UInt8.ofNat (left * 64 + n) :: ·) <$> decodeFrom 0 0 0 cs := by
  rw [decodeFrom, if_neg (digit_ne_pad h), value_digit h]

/-- Two bytes of a group, and the bits of the third that are left. -/
theorem decodeFrom_three (a b : UInt8) {c : Nat} (hc : c < 256) (cs : List Char) :
    decodeFrom 0 0 0 ((quad a.toNat b.toNat c).take 3 ++ cs) = (a :: b :: ·) <$> decodeFrom 3 (c / 64) 0 cs := by
  have ha := a.toNat_lt
  have hb := b.toNat_lt
  simp only [quad, List.take_succ_cons, List.take_zero, List.cons_append, List.nil_append]
  rw [decodeFrom_digit (by omega), if_pos rfl, decodeFrom_digit (by omega), if_neg (by decide), if_pos rfl,
    decodeFrom_digit (by omega), if_neg (by decide), if_neg (by decide), if_pos rfl]
  have h₁ : a.toNat / 4 * 4 + (a.toNat % 4 * 16 + b.toNat / 16) / 16 = a.toNat := by omega
  have h₂ : (a.toNat % 4 * 16 + b.toNat / 16) % 16 * 16 + (b.toNat % 16 * 4 + c / 64) / 4 = b.toNat := by omega
  have h₃ : (b.toNat % 16 * 4 + c / 64) % 4 = c / 64 := by omega
  rw [h₁, h₂, h₃, UInt8.ofNat_toNat, UInt8.ofNat_toNat]
  cases decodeFrom 3 (c / 64) 0 cs <;> rfl

theorem decode_encode (b : List UInt8) : decode (encode b) = some b := by
  unfold decode
  induction b using encode.induct with
  | case1 a b c rest ih =>
    have hc := c.toNat_lt
    have hquad : quad a.toNat b.toNat c.toNat ++ encode rest =
        (quad a.toNat b.toNat c.toNat).take 3 ++ digit (c.toNat % 64) :: encode rest := rfl
    have h : c.toNat / 64 * 64 + c.toNat % 64 = c.toNat := by omega
    rw [encode, hquad, decodeFrom_three a b hc, decodeFrom_digit (by omega), if_neg (by decide), if_neg (by decide),
      if_neg (by decide), h, UInt8.ofNat_toNat, ih]
    rfl
  | case2 a b =>
    rw [encode, decodeFrom_three a b (by decide)]
    rfl
  | case3 a =>
    have ha := a.toNat_lt
    have h : a.toNat / 4 * 4 + (a.toNat % 4 * 16 + 0 / 16) / 16 = a.toNat := by omega
    simp only [encode, quad, List.take_succ_cons, List.take_zero, List.cons_append, List.nil_append]
    rw [decodeFrom_digit (by omega), if_pos rfl, decodeFrom_digit (by omega), if_neg (by decide), if_pos rfl, h,
      UInt8.ofNat_toNat]
    rfl
  | case4 => rfl

end Base64
