import Mathlib.Data.Nat.Bitwise
import Mathlib.Tactic.IntervalCases

/-! Thirty-two bit words as numbers: shifts, masks and the union of parts that share no bit. -/

namespace Nupp.Words

variable {a b : UInt32}

theorem toNat_shiftRight {n : ℕ} (hb : b.toNat = n) (hn : n < 32) : (a >>> b).toNat = a.toNat / 2 ^ n := by
  rw [UInt32.toNat_shiftRight, hb, Nat.mod_eq_of_lt hn, Nat.shiftRight_eq_div_pow]

theorem toNat_shiftLeft {n : ℕ} (hb : b.toNat = n) (hn : n < 32) :
    (a <<< b).toNat = a.toNat * 2 ^ n % 2 ^ 32 := by
  rw [UInt32.toNat_shiftLeft, hb, Nat.mod_eq_of_lt hn, Nat.shiftLeft_eq]

/-- A mask of the lowest bits. -/
theorem toNat_and_low {n : ℕ} (hb : b.toNat = 2 ^ n - 1) : (a &&& b).toNat = a.toNat % 2 ^ n := by
  rw [UInt32.toNat_and, hb, Nat.and_two_pow_sub_one_eq_mod]

/-- The mask of the second byte. -/
theorem and_second (n : ℕ) : n &&& 65280 = n / 256 % 256 * 256 := by
  have hmask : n &&& 65280 = ((n >>> 8) &&& 255) <<< 8 := by
    refine Nat.eq_of_testBit_eq fun i => ?_
    rw [Nat.testBit_and, Nat.testBit_shiftLeft, Nat.testBit_and, Nat.testBit_shiftRight]
    by_cases hi : 8 ≤ i
    · have hshift : (65280 : ℕ) = 255 <<< 8 := rfl
      rw [hshift, Nat.testBit_shiftLeft]
      simp [hi, Nat.add_sub_cancel' hi]
    · have hlow : Nat.testBit 65280 i = false := by
        interval_cases i <;> decide
      simp [hi, hlow]
  have hbyte : (n >>> 8) &&& 255 = n / 256 % 256 := by
    rw [Nat.shiftRight_eq_div_pow]
    exact Nat.and_two_pow_sub_one_eq_mod _ 8
  rw [hmask, hbyte, Nat.shiftLeft_eq]

theorem toNat_and_second : (a &&& 65280).toNat = a.toNat / 256 % 256 * 256 := by
  rw [UInt32.toNat_and]
  exact and_second a.toNat

/-- The union of high bits and low bits is their sum. -/
theorem toNat_or_low (n : ℕ) (ha : a.toNat % 2 ^ n = 0) (hb : b.toNat < 2 ^ n) :
    (a ||| b).toNat = a.toNat + b.toNat := by
  obtain ⟨c, hc⟩ := Nat.dvd_of_mod_eq_zero ha
  rw [UInt32.toNat_or, hc, Nat.two_pow_add_eq_or_of_lt hb]

theorem toNat_or_high (n : ℕ) (ha : a.toNat < 2 ^ n) (hb : b.toNat % 2 ^ n = 0) :
    (a ||| b).toNat = a.toNat + b.toNat := by
  rw [UInt32.or_comm, toNat_or_low n hb ha, Nat.add_comm]

theorem or_lt_iff (n : ℕ) : (a ||| b).toNat < 2 ^ n ↔ a.toNat < 2 ^ n ∧ b.toNat < 2 ^ n := by
  rw [UInt32.toNat_or]
  constructor
  · intro h
    exact ⟨Nat.left_le_or.trans_lt h, Nat.right_le_or.trans_lt h⟩
  · rintro ⟨ha, hb⟩
    exact Nat.or_lt_two_pow ha hb

end Nupp.Words
