import Mathlib.Tactic.Ring

/-!
# Numbers as bytes, the highest first
-/

namespace BigEndian

/-- The last `w` bytes of `n`. -/
def be : Nat → Nat → List UInt8
  | 0, _ => []
  | w + 1, n => UInt8.ofNat (n / 256 ^ w) :: be w n

/-- The number that the bytes are, high byte first. -/
def ofBe (b : List UInt8) : Nat := b.foldl (fun n x => n * 256 + x.toNat) 0

@[simp] theorem length_be (w n : Nat) : (be w n).length = w := by
  induction w with
  | zero => rfl
  | succ w ih => simp [be, ih]

theorem ofBe_be (w n : Nat) : ofBe (be w n) = n % 256 ^ w := by
  have key : ∀ (w acc : Nat), (be w n).foldl (fun n x => n * 256 + x.toNat) acc = acc * 256 ^ w + n % 256 ^ w := by
    intro w
    induction w with
    | zero => simp [be, Nat.mod_one]
    | succ w ih =>
      intro acc
      have hn : n % (256 ^ w * 256) = n % 256 ^ w + 256 ^ w * (n / 256 ^ w % 256) := Nat.mod_mul
      rw [be, List.foldl_cons, ih, UInt8.toNat_ofNat', Nat.pow_succ 256 w, hn]
      ring
  simpa [ofBe] using key w 0

theorem be_inj {w m n : Nat} (hm : m < 256 ^ w) (hn : n < 256 ^ w) (h : be w m = be w n) : m = n := by
  rw [← Nat.mod_eq_of_lt hm, ← Nat.mod_eq_of_lt hn, ← ofBe_be, ← ofBe_be, h]

/-- Bytes of one width compare as the numbers do. -/
theorem be_lt_be_of_mod {w m n : Nat} (h : m % 256 ^ w < n % 256 ^ w) : be w m < be w n := by
  induction w with
  | zero => simp [Nat.mod_one] at h
  | succ w ih =>
    have hm : m % (256 ^ w * 256) = m % 256 ^ w + 256 ^ w * (m / 256 ^ w % 256) := Nat.mod_mul
    have hn : n % (256 ^ w * 256) = n % 256 ^ w + 256 ^ w * (n / 256 ^ w % 256) := Nat.mod_mul
    have hlt : n % 256 ^ w < 256 ^ w := Nat.mod_lt _ (Nat.pow_pos (by decide))
    rw [Nat.pow_succ, hm, hn] at h
    simp only [be, List.cons_lt_cons_iff, UInt8.lt_iff_toNat_lt, ← UInt8.toNat_inj, UInt8.toNat_ofNat']
    rcases Nat.lt_trichotomy (m / 256 ^ w % 256) (n / 256 ^ w % 256) with hd | hd | hd
    · exact .inl hd
    · rw [hd] at h
      exact .inr ⟨hd, ih (by omega)⟩
    · have := Nat.mul_le_mul_left (256 ^ w) (show n / 256 ^ w % 256 + 1 ≤ m / 256 ^ w % 256 from hd)
      rw [Nat.mul_add] at this
      omega

theorem be_lt_be {w m n : Nat} (hn : n < 256 ^ w) (h : m < n) : be w m < be w n :=
  be_lt_be_of_mod (by rwa [Nat.mod_eq_of_lt hn, Nat.mod_eq_of_lt (h.trans hn)])

end BigEndian
