import Mathlib.Data.Finset.Card
import Mathlib.Data.Finset.Range
import Mathlib.Data.Nat.Bitwise
import Mathlib.Tactic.Linarith

/-! The bit operations on numbers: every operand is normalized to a 32-bit word, and every answer is a signed
one. -/

namespace LuaBit

abbrev Word := BitVec 32

/-- The word that a number is normalized to. -/
def word (x : ℤ) : Word := BitVec.ofInt 32 x

def tobit (x : ℤ) : ℤ := (word x).toInt
def band (x y : ℤ) : ℤ := (word x &&& word y).toInt
def bor (x y : ℤ) : ℤ := (word x ||| word y).toInt
def bxor (x y : ℤ) : ℤ := (word x ^^^ word y).toInt
def bnot (x : ℤ) : ℤ := (~~~word x).toInt
def lshift (x n : ℤ) : ℤ := (word x <<< (n % 32).toNat).toInt
def rshift (x n : ℤ) : ℤ := (word x >>> (n % 32).toNat).toInt
def arshift (x n : ℤ) : ℤ := ((word x).sshiftRight (n % 32).toNat).toInt
def rol (x n : ℤ) : ℤ := ((word x).rotateLeft (n % 32).toNat).toInt
def ror (x n : ℤ) : ℤ := ((word x).rotateRight (n % 32).toNat).toInt

@[simp] theorem word_toInt (w : Word) : word w.toInt = w := BitVec.ofInt_toInt

@[simp] theorem word_tobit (x : ℤ) : word (tobit x) = word x := word_toInt _
@[simp] theorem word_band (x y : ℤ) : word (band x y) = word x &&& word y := word_toInt _
@[simp] theorem word_bor (x y : ℤ) : word (bor x y) = word x ||| word y := word_toInt _
@[simp] theorem word_bxor (x y : ℤ) : word (bxor x y) = word x ^^^ word y := word_toInt _
@[simp] theorem word_bnot (x : ℤ) : word (bnot x) = ~~~word x := word_toInt _

@[simp] theorem word_lshift (x : ℤ) {n : ℕ} (h : n < 32) : word (lshift x n) = word x <<< n := by
  rw [lshift, word_toInt, show ((n : ℤ) % 32).toNat = n by omega]

theorem rshift_eq (x : ℤ) {n : ℕ} (h : n < 32) : rshift x n = (word x >>> n).toInt := by
  rw [rshift, show ((n : ℤ) % 32).toNat = n by omega]

@[simp] theorem word_rshift (x : ℤ) {n : ℕ} (h : n < 32) : word (rshift x n) = word x >>> n := by
  rw [rshift_eq x h, word_toInt]

theorem word_sub (x y : ℤ) : word (x - y) = word x - word y := by
  rw [word, word, word, Int.sub_eq_add_neg, BitVec.ofInt_add, BitVec.ofInt_neg, BitVec.sub_eq_add_neg]

@[simp] theorem word_one : word 1 = 1#32 := rfl

theorem band_eq_zero_iff {x y : ℤ} : band x y = 0 ↔ word x &&& word y = 0#32 := by
  rw [band, ← BitVec.toInt_inj, BitVec.toInt_zero]

/-- A number that a word holds without its sign. -/
theorem toNat_word {x : ℕ} (h : x < 2 ^ 32) : (word x).toNat = x := by
  rw [word, BitVec.ofInt_natCast, BitVec.toNat_ofNat, Nat.mod_eq_of_lt h]

@[simp] theorem word_toNat (w : Word) : word (w.toNat : ℤ) = w := by
  rw [word, BitVec.ofInt_natCast, BitVec.ofNat_toNat, BitVec.setWidth_eq]

theorem toInt_of_lt {w : Word} (h : w.toNat < 2 ^ 31) : w.toInt = w.toNat := by
  rw [BitVec.toInt_eq_toNat_cond, if_pos (by omega)]

/-- Shifting a position to the right. -/
theorem rshift_natCast {x n : ℕ} (hx : x < 2 ^ 31) (hn : n < 32) : rshift x n = (x / 2 ^ n : ℕ) := by
  have hword : (word x >>> n).toNat = x / 2 ^ n := by
    rw [BitVec.toNat_ushiftRight, toNat_word (by omega), Nat.shiftRight_eq_div_pow]
  rw [rshift, show ((n : ℤ) % 32).toNat = n by omega, toInt_of_lt, hword]
  rw [hword]
  exact (Nat.div_le_self x _).trans_lt hx

theorem lshift_natCast {x n : ℕ} (hx : x * 2 ^ n < 2 ^ 31) (hn : n < 32) : lshift x n = (x * 2 ^ n : ℕ) := by
  have hx' : x < 2 ^ 32 := by
    have hle := Nat.le_mul_of_pos_right x (Nat.two_pow_pos n)
    omega
  have hword : (word x <<< n).toNat = x * 2 ^ n := by
    rw [BitVec.toNat_shiftLeft, toNat_word hx', Nat.shiftLeft_eq, Nat.mod_eq_of_lt (by omega)]
  rw [lshift, show ((n : ℤ) % 32).toNat = n by omega, toInt_of_lt, hword]
  rw [hword]
  exact hx

/-- The low bits of a position. -/
theorem band_mask {x n : ℕ} (hx : x < 2 ^ 31) (hn : n < 31) : band x ((2 : ℤ) ^ n - 1) = (x % 2 ^ n : ℕ) := by
  have hpow : 2 ^ n < 2 ^ 31 := Nat.pow_lt_pow_right (by decide) hn
  have hpos := Nat.two_pow_pos n
  have hmask : ((2 : ℤ) ^ n - 1) = ((2 ^ n - 1 : ℕ) : ℤ) := by
    rw [Nat.cast_sub hpos]
    norm_num
  have hword : (word x &&& word ((2 : ℤ) ^ n - 1)).toNat = x % 2 ^ n := by
    rw [hmask, BitVec.toNat_and, toNat_word (by omega), toNat_word (by omega), Nat.and_two_pow_sub_one_eq_mod]
  rw [band, toInt_of_lt, hword]
  rw [hword]
  exact (Nat.mod_le x _).trans_lt hx

end LuaBit
