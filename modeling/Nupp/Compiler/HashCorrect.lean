import Mathlib.Tactic.IntervalCases
import Mathlib.Tactic.Ring
import Nupp.Compiler.Hash
import Nupp.Compiler.Xxh64

/-! The arithmetic on halves is that of sixty-four bits, and its loops run through the message as
the published digest does. -/

namespace Nupp.hash

open Standard (Byte)
open Standard.Xxh64 (Lane)
open Noted LuaBit

section Halves

def hiWord (x : Lane) : Word := x.extractLsb' 32 32
def loWord (x : Lane) : Word := x.extractLsb' 0 32

/-- The two halves of a lane. -/
def halves (x : Lane) : Halves := ⟨(hiWord x).toNat, (loWord x).toNat⟩

theorem u32_toInt (w : Word) : u32 w.toInt = w.toNat := by
  rw [u32, BitVec.toInt_eq_toNat_bmod]
  have hlt := w.isLt
  have h : ((w.toNat : ℤ).bmod (2 ^ 32)) % 4294967296 = (w.toNat : ℤ) % 4294967296 :=
    Int.bmod_emod
  rw [h]
  omega

@[simp] theorem word_hi (x : Lane) : word (halves x).hi = hiWord x := word_toNat _
@[simp] theorem word_lo (x : Lane) : word (halves x).lo = loWord x := word_toNat _

theorem toNat_hiWord (x : Lane) : (hiWord x).toNat = x.toNat / 2 ^ 32 := by
  have hlt := x.isLt
  rw [hiWord, BitVec.extractLsb'_toNat, Nat.shiftRight_eq_div_pow]
  omega

theorem toNat_loWord (x : Lane) : (loWord x).toNat = x.toNat % 2 ^ 32 := by
  rw [loWord, BitVec.extractLsb'_toNat, Nat.shiftRight_zero]

/-- Halves are those of a lane when they add up to it. -/
theorem halves_of_add {x : Lane} {hi lo : ℤ} (hlo : 0 ≤ lo) (hlo' : lo < 2 ^ 32)
    (h : hi * 2 ^ 32 + lo = x.toNat) : (⟨hi, lo⟩ : Halves) = halves x := by
  have hhiWord := toNat_hiWord x
  have hloWord := toNat_loWord x
  rw [halves, hhiWord, hloWord]
  congr 1 <;> omega

theorem hiWord_xor (x y : Lane) : hiWord (x ^^^ y) = hiWord x ^^^ hiWord y := by
  ext i
  simp [hiWord]

theorem loWord_xor (x y : Lane) : loWord (x ^^^ y) = loWord x ^^^ loWord y := by
  ext i
  simp [loWord]

/-- What a bit of a half is after a rotation. -/
theorem getLsbD_rotateLeft (x : Lane) {c : ℕ} (hc : c < 32) {i : ℕ} (hi : i < 64) :
    (x.rotateLeft c).getLsbD i = if i < c then x.getLsbD (64 - c + i) else x.getLsbD (i - c) := by
  rw [BitVec.getLsbD_rotateLeft, Nat.mod_eq_of_lt (by omega : c < 64)]
  by_cases hic : i < c
  · simp [hic]
  · simp [hic, hi]

theorem hiWord_rotateLeft (x : Lane) {c : ℕ} (hc : c < 32) :
    hiWord (x.rotateLeft c) = hiWord x <<< c ||| loWord x >>> (32 - c) := by
  ext i hi
  simp only [hiWord, loWord, BitVec.getElem_extractLsb', BitVec.getElem_or,
    BitVec.getElem_shiftLeft, BitVec.getElem_ushiftRight, BitVec.getLsbD_extractLsb']
  rw [getLsbD_rotateLeft x hc (by omega)]
  by_cases hic : i < c
  · have hlt : 32 - c + i < 32 := by omega
    simp [hic, hlt, show ¬ 32 + i < c by omega, show 32 + i - c = 32 - c + i by omega]
  · have hge : ¬ 32 - c + i < 32 := by omega
    simp [hic, hge, show ¬ 32 + i < c by omega, show 32 + i - c = 32 + (i - c) by omega]

theorem loWord_rotateLeft (x : Lane) {c : ℕ} (hc : c < 32) :
    loWord (x.rotateLeft c) = loWord x <<< c ||| hiWord x >>> (32 - c) := by
  ext i hi
  simp only [hiWord, loWord, BitVec.getElem_extractLsb', BitVec.getElem_or,
    BitVec.getElem_shiftLeft, BitVec.getElem_ushiftRight, BitVec.getLsbD_extractLsb']
  rw [getLsbD_rotateLeft x hc (by omega)]
  by_cases hic : i < c
  · have hlt : 32 - c + i < 32 := by omega
    simp [hic, hlt, show 64 - c + i = 32 + (32 - c + i) by omega]
  · have hge : ¬ 32 - c + i < 32 := by omega
    simp [hic, hge]

theorem hiWord_ushiftRight (x : Lane) (c : ℕ) : hiWord (x >>> c) = hiWord x >>> c := by
  ext i hi
  simp only [hiWord, BitVec.getElem_extractLsb', BitVec.getElem_ushiftRight,
    BitVec.getLsbD_ushiftRight, BitVec.getLsbD_extractLsb']
  by_cases hci : c + i < 32
  · simp [hci, show c + (32 + i) = 32 + (c + i) by omega]
  · simp [hci, show 64 ≤ c + (32 + i) by omega]

theorem loWord_ushiftRight (x : Lane) {c : ℕ} (hc : c < 32) :
    loWord (x >>> c) = loWord x >>> c ||| hiWord x <<< (32 - c) := by
  ext i hi
  simp only [hiWord, loWord, BitVec.getElem_extractLsb', BitVec.getElem_or,
    BitVec.getElem_shiftLeft, BitVec.getElem_ushiftRight, BitVec.getLsbD_ushiftRight,
    BitVec.getLsbD_extractLsb']
  by_cases hci : c + i < 32
  · simp [hci, show i < 32 - c by omega]
  · simp [show ¬ i < 32 - c by omega, show c + i = 32 + (i - (32 - c)) by omega]

theorem loWord_ushiftRight_high (x : Lane) {c : ℕ} (hc : 32 ≤ c) :
    loWord (x >>> c) = hiWord x >>> (c - 32) := by
  ext i hi
  simp only [hiWord, loWord, BitVec.getElem_extractLsb', BitVec.getElem_ushiftRight,
    BitVec.getLsbD_ushiftRight, BitVec.getLsbD_extractLsb']
  by_cases hci : c - 32 + i < 32
  · simp [hci, show c + i = 32 + (c - 32 + i) by omega]
  · simp [hci, show 64 ≤ c + i by omega]

end Halves

section Primitives

/-- A computation that answers the halves of a lane, and passes through exact numbers only. -/
def Computes (x : Lane) (r : Run Halves) : Prop := Holds Note.exact (· = halves x) r

theorem holds_number {x : ℤ} (hlow : -2 ^ 53 ≤ x) (hhigh : x ≤ 2 ^ 53) :
    Holds Note.exact (· = x) (number x) :=
  holds_bind (holds_note ⟨hlow, hhigh⟩) fun _ _ => holds_pure rfl

theorem holds_half {x : ℤ} (hlow : 0 ≤ x) (hhigh : x < 2 ^ 32) :
    Holds Note.exact (· = x) (half x) :=
  holds_bind (holds_note ⟨hlow, hhigh⟩) fun _ _ => holds_pure rfl

theorem half_nonneg (w : Word) : 0 ≤ (w.toNat : ℤ) := by omega

theorem half_lt (w : Word) : (w.toNat : ℤ) < 2 ^ 32 := by
  have hlt := w.isLt
  omega

theorem computes_answer {x : Lane} {hi lo : ℤ} (hhi : hi = (hiWord x).toNat)
    (hlo : lo = (loWord x).toNat) : Computes x (answer hi lo) := by
  subst hhi hlo
  refine holds_bind (holds_half (half_nonneg _) (half_lt _)) ?_
  rintro _ rfl
  refine holds_bind (holds_half (half_nonneg _) (half_lt _)) ?_
  rintro _ rfl
  exact holds_pure rfl

theorem computes_add64 (x y : Lane) : Computes (x + y) (add64 (halves x) (halves y)) := by
  have hx := x.isLt
  have hy := y.isLt
  have hlo : (halves x).lo + (halves y).lo = (x.toNat % 2 ^ 32 + y.toNat % 2 ^ 32 : ℕ) := by
    simp only [halves, toNat_loWord]
    push_cast
    rfl
  have hhi : (halves x).hi + (halves y).hi = (x.toNat / 2 ^ 32 + y.toNat / 2 ^ 32 : ℕ) := by
    simp only [halves, toNat_hiWord]
    push_cast
    rfl
  have hsum : (x + y).toNat = (x.toNat + y.toNat) % 2 ^ 64 := BitVec.toNat_add x y
  rw [add64]
  refine holds_bind (holds_number (by omega) (by omega)) ?_
  rintro _ rfl
  split
  · refine holds_bind (holds_number (by omega) (by omega)) ?_
    rintro _ rfl
    refine computes_answer ?_ ?_
    · rw [toNat_hiWord, u32]
      omega
    · rw [toNat_loWord]
      omega
  · refine holds_bind (holds_number (by omega) (by omega)) ?_
    rintro _ rfl
    refine computes_answer ?_ ?_
    · rw [toNat_hiWord, u32]
      omega
    · rw [toNat_loWord]
      omega

theorem computes_xor64 (x y : Lane) : Computes (x ^^^ y) (xor64 (halves x) (halves y)) := by
  refine computes_answer ?_ ?_
  · rw [bxor, u32_toInt, word_hi, word_hi, hiWord_xor]
  · rw [bxor, u32_toInt, word_lo, word_lo, loWord_xor]

theorem computes_rotl64 (x : Lane) {c : ℕ} (h0 : 0 < c) (hc : c < 32) :
    Computes (x.rotateLeft c) (rotl64 (halves x) c) := by
  rw [rotl64, if_neg (by omega), if_neg (by omega), if_pos (by omega)]
  have hcast : ((32 : ℤ) - c) = ((32 - c : ℕ) : ℤ) := by omega
  refine computes_answer ?_ ?_
  · rw [hcast, bor, u32_toInt, word_lshift _ hc, word_rshift _ (by omega), word_hi, word_lo,
      hiWord_rotateLeft x hc]
  · rw [hcast, bor, u32_toInt, word_lshift _ hc, word_rshift _ (by omega), word_hi, word_lo,
      loWord_rotateLeft x hc]

theorem computes_rshift64 (x : Lane) {c : ℕ} (h0 : 0 < c) (hc : c < 64) :
    Computes (x >>> c) (rshift64 (halves x) c) := by
  rw [rshift64, if_neg (by omega)]
  split
  · next h32 =>
    obtain rfl : c = 32 := by omega
    refine computes_answer ?_ ?_
    · rw [toNat_hiWord, BitVec.toNat_ushiftRight, Nat.shiftRight_eq_div_pow]
      have hlt := x.isLt
      omega
    · rw [loWord_ushiftRight_high x le_rfl]
      rfl
  split
  · next hlt =>
    have hcast : ((32 : ℤ) - c) = ((32 - c : ℕ) : ℤ) := by omega
    refine computes_answer ?_ ?_
    · rw [rshift_eq _ (by omega), u32_toInt, word_hi, hiWord_ushiftRight]
    · rw [hcast, bor, u32_toInt, word_lshift _ (by omega), word_rshift _ (by omega), word_hi,
        word_lo, loWord_ushiftRight x (by omega)]
  · have hcast : ((c : ℤ) - 32) = ((c - 32 : ℕ) : ℤ) := by omega
    refine computes_answer ?_ ?_
    · have hlt := x.isLt
      rw [toNat_hiWord, BitVec.toNat_ushiftRight, Nat.shiftRight_eq_div_pow,
        Nat.div_div_eq_div_mul, ← pow_add, Nat.div_eq_of_lt]
      · rfl
      · exact hlt.trans_le (Nat.pow_le_pow_right (by decide) (by omega))
    · rw [hcast, rshift_eq _ (by omega), u32_toInt, word_hi, loWord_ushiftRight_high x (by omega)]

theorem band_low (x : ℤ) : band x 0xFFFF = ((word x).toNat % 65536 : ℕ) := by
  have hmask : (word x &&& word 0xFFFF).toNat = (word x).toNat % 65536 := by
    rw [BitVec.toNat_and]
    exact Nat.and_two_pow_sub_one_eq_mod _ 16
  rw [band, toInt_of_lt (by rw [hmask]; omega), hmask]

theorem band_high (x : ℤ) : band (rshift x 16) 0xFFFF = ((word x).toNat / 65536 : ℕ) := by
  have hlt := (word x).isLt
  have hword : word (rshift x 16) = word x >>> 16 := word_rshift x (by decide : 16 < 32)
  rw [band_low, hword, BitVec.toNat_ushiftRight, Nat.shiftRight_eq_div_pow]
  omega

/-- A product of two limbs. -/
def Column (p : ℤ) : Prop := 0 ≤ p ∧ p ≤ 4294836225

theorem column_mul {a b : ℕ} (ha : a < 65536) (hb : b < 65536) : Column (a * b) := by
  have h : a * b ≤ 65535 * 65535 := Nat.mul_le_mul (by omega) (by omega)
  exact ⟨by positivity, by exact_mod_cast h⟩

/-- The four limbs of a lane, as the products take them out of its halves. -/
theorem limbs (x : Lane) : ∃ l0 l1 l2 l3 : ℕ, l0 < 65536 ∧ l1 < 65536 ∧ l2 < 65536 ∧ l3 < 65536 ∧
    band (halves x).lo 0xFFFF = l0 ∧ band (rshift (halves x).lo 16) 0xFFFF = l1 ∧
    band (halves x).hi 0xFFFF = l2 ∧ band (rshift (halves x).hi 16) 0xFFFF = l3 ∧
    x.toNat = l0 + 2 ^ 16 * l1 + 2 ^ 32 * l2 + 2 ^ 48 * l3 := by
  have hx := x.isLt
  have hlo := toNat_loWord x
  have hhi := toNat_hiWord x
  rw [band_low, band_high, band_low, band_high, word_lo, word_hi, hlo, hhi]
  refine ⟨_, _, _, _, ?_, ?_, ?_, ?_, rfl, rfl, rfl, rfl, ?_⟩
  all_goals omega

/-- The columns, carried from one into the next, add up to the product of the lanes. -/
theorem columns_sum {p00 p10 p01 p20 p11 p02 p30 p21 p12 p03 c1 c2 d2 e2 f2 d3 : ℤ}
    (hc1 : c1 = p00 / 65536 + p10) (hc2 : c2 = c1 % 65536 + p01)
    (hd2 : d2 = c1 / 65536 + c2 / 65536 + p20) (he2 : e2 = d2 % 65536 + p11)
    (hf2 : f2 = e2 % 65536 + p02)
    (hd3 : d3 = d2 / 65536 + e2 / 65536 + f2 / 65536 + p30 + p21 + p12 + p03) :
    (d3 % 65536 * 65536 + f2 % 65536) * 2 ^ 32 + (c2 % 65536 * 65536 + p00 % 65536) =
      (p00 + 2 ^ 16 * (p10 + p01) + 2 ^ 32 * (p20 + p11 + p02) +
        2 ^ 48 * (p30 + p21 + p12 + p03)) % 2 ^ 64 := by
  omega

theorem computes_columns {p00 p10 p01 p20 p11 p02 p30 p21 p12 p03 : ℤ} {x : Lane}
    (h00 : Column p00) (h10 : Column p10) (h01 : Column p01) (h20 : Column p20) (h11 : Column p11)
    (h02 : Column p02) (h30 : Column p30) (h21 : Column p21) (h12 : Column p12) (h03 : Column p03)
    (hx : (x.toNat : ℤ) = (p00 + 2 ^ 16 * (p10 + p01) + 2 ^ 32 * (p20 + p11 + p02) +
      2 ^ 48 * (p30 + p21 + p12 + p03)) % 2 ^ 64) :
    Computes x (do
      let c0 ← number p00
      let c1 ← number (c0 / 65536 + p10)
      let c2 ← number (c1 % 65536 + p01)
      let d2 ← number (c1 / 65536 + c2 / 65536 + p20)
      let e2 ← number (d2 % 65536 + p11)
      let f2 ← number (e2 % 65536 + p02)
      let d3 ← number (d2 / 65536 + e2 / 65536 + f2 / 65536 + p30 + p21 + p12 + p03)
      answer (d3 % 65536 * 65536 + f2 % 65536) (c2 % 65536 * 65536 + c0 % 65536)) := by
  simp only [Column] at h00 h10 h01 h20 h11 h02 h30 h21 h12 h03
  refine holds_bind (holds_number (by omega) (by omega)) ?_
  rintro _ rfl
  refine holds_bind (holds_number (by omega) (by omega)) ?_
  rintro c1 hc1
  refine holds_bind (holds_number (by omega) (by omega)) ?_
  rintro c2 hc2
  refine holds_bind (holds_number (by omega) (by omega)) ?_
  rintro d2 hd2
  refine holds_bind (holds_number (by omega) (by omega)) ?_
  rintro e2 he2
  refine holds_bind (holds_number (by omega) (by omega)) ?_
  rintro f2 hf2
  refine holds_bind (holds_number (by omega) (by omega)) ?_
  rintro d3 hd3
  have hsum := columns_sum hc1 hc2 hd2 he2 hf2 hd3
  rw [← hx] at hsum
  have heq := halves_of_add (by omega) (by omega) hsum
  rw [halves, Halves.mk.injEq] at heq
  exact computes_answer heq.1 heq.2

theorem computes_mul64 (x y : Lane) : Computes (x * y) (mul64 (halves x) (halves y)) := by
  obtain ⟨l0, l1, l2, l3, hl0, hl1, hl2, hl3, ha0, ha1, ha2, ha3, hx⟩ := limbs x
  obtain ⟨m0, m1, m2, m3, hm0, hm1, hm2, hm3, hb0, hb1, hb2, hb3, hy⟩ := limbs y
  have hproduct : ((x * y).toNat : ℤ) = ((l0 : ℤ) * m0 + 2 ^ 16 * (l1 * m0 + l0 * m1) +
      2 ^ 32 * (l2 * m0 + l1 * m1 + l0 * m2) +
      2 ^ 48 * (l3 * m0 + l2 * m1 + l1 * m2 + l0 * m3)) % 2 ^ 64 := by
    have hexpand : ((l0 : ℤ) + 2 ^ 16 * l1 + 2 ^ 32 * l2 + 2 ^ 48 * l3) *
        (m0 + 2 ^ 16 * m1 + 2 ^ 32 * m2 + 2 ^ 48 * m3) =
        (l0 * m0 + 2 ^ 16 * (l1 * m0 + l0 * m1) + 2 ^ 32 * (l2 * m0 + l1 * m1 + l0 * m2) +
          2 ^ 48 * (l3 * m0 + l2 * m1 + l1 * m2 + l0 * m3)) +
        2 ^ 64 * (l3 * m1 + l2 * m2 + l1 * m3 + 2 ^ 16 * (l3 * m2 + l2 * m3) +
          2 ^ 32 * (l3 * m3)) := by
      ring
    rw [BitVec.toNat_mul, hx, hy, ← Int.add_mul_emod_self_left _ (2 ^ 64), ← hexpand]
    push_cast
    rfl
  unfold mul64
  rw [ha0, ha1, ha2, ha3, hb0, hb1, hb2, hb3]
  exact computes_columns (column_mul hl0 hm0) (column_mul hl1 hm0) (column_mul hl0 hm1)
    (column_mul hl2 hm0) (column_mul hl1 hm1) (column_mul hl0 hm2) (column_mul hl3 hm0)
    (column_mul hl2 hm1) (column_mul hl1 hm2) (column_mul hl0 hm3) hproduct

theorem halves_zero : halves 0 = ⟨0, 0⟩ := rfl

theorem computes_round (acc input : Lane) :
    Computes (Standard.Xxh64.round acc input) (round (halves acc) (halves input)) := by
  refine holds_bind (computes_mul64 input Standard.Xxh64.P2) ?_
  rintro _ rfl
  refine holds_bind (computes_add64 acc _) ?_
  rintro _ rfl
  refine holds_bind (computes_rotl64 _ (c := 31) (by decide) (by decide)) ?_
  rintro _ rfl
  exact computes_mul64 _ Standard.Xxh64.P1

theorem computes_mergeRound (acc val : Lane) :
    Computes (Standard.Xxh64.mergeRound acc val) (mergeRound (halves acc) (halves val)) := by
  refine holds_bind (computes_round 0 val) ?_
  rintro _ rfl
  refine holds_bind (computes_xor64 acc _) ?_
  rintro _ rfl
  refine holds_bind (computes_mul64 _ Standard.Xxh64.P1) ?_
  rintro _ rfl
  exact computes_add64 _ Standard.Xxh64.P4

end Primitives

section Message

variable (m : List Byte)

theorem word_byte (i : ℕ) : word (byte m i) = (Standard.byteAt m i).setWidth 32 := by
  have hlt := (Standard.byteAt m i).isLt
  rw [byte, word, BitVec.ofInt_natCast]
  exact BitVec.eq_of_toNat_eq (by simp [Standard.byteAt])

theorem joined_bytes (b0 b1 b2 b3 : Byte) :
    b0.setWidth 32 ||| b1.setWidth 32 <<< 8 ||| b2.setWidth 32 <<< 16 ||| b3.setWidth 32 <<< 24 =
      (b3 ++ b2 ++ b1 ++ b0 : BitVec (8 + 8 + 8 + 8)) := by
  apply BitVec.eq_of_getLsbD_eq
  intro i hi
  have hbeyond : ∀ (b : Byte) (j : ℕ), 8 ≤ j → b.getLsbD j = false := fun b j hj =>
    BitVec.getLsbD_of_ge b j hj
  simp only [BitVec.getLsbD_append, BitVec.getLsbD_or, BitVec.getLsbD_shiftLeft,
    BitVec.getLsbD_setWidth, Nat.sub_sub]
  rcases Nat.lt_or_ge i 8 with h8 | h8
  · simp [h8, hi, show i < 16 by omega, show i < 24 by omega]
  rcases Nat.lt_or_ge i 16 with h16 | h16
  · simp [hbeyond _ i h8, hi, show ¬ i < 8 by omega, h16, show i < 24 by omega,
      show i - 8 < 8 by omega, show i - 8 < 32 by omega]
  rcases Nat.lt_or_ge i 24 with h24 | h24
  · simp [hbeyond _ i h8, hbeyond _ (i - 8) (by omega), hi, show ¬ i < 8 by omega,
      show ¬ i < 16 by omega, h24, show ¬ i - 8 < 8 by omega, show i - 16 < 8 by omega,
      show i - 16 < 32 by omega]
  · simp [hbeyond _ i h8, hbeyond _ (i - 8) (by omega), hbeyond _ (i - 16) (by omega), hi,
      show ¬ i < 8 by omega, show ¬ i < 16 by omega, show ¬ i < 24 by omega,
      show ¬ i - 8 < 8 by omega, show ¬ i - 16 < 8 by omega, show i - 24 < 32 by omega]

theorem holds_halfAt (i : ℕ) :
    Holds Note.exact (· = ((Standard.Xxh64.read32 m i).toNat : ℤ)) (halfAt m i) := by
  have hword : u32 (bor (bor (bor (byte m i) (lshift (byte m (i + 1)) 8))
      (lshift (byte m (i + 2)) 16)) (lshift (byte m (i + 3)) 24)) =
      ((Standard.Xxh64.read32 m i).toNat : ℤ) := by
    have h8 := word_lshift (byte m (i + 1)) (by decide : 8 < 32)
    have h16 := word_lshift (byte m (i + 2)) (by decide : 16 < 32)
    have h24 := word_lshift (byte m (i + 3)) (by decide : 24 < 32)
    have hjoined := joined_bytes (Standard.byteAt m i) (Standard.byteAt m (i + 1))
      (Standard.byteAt m (i + 2)) (Standard.byteAt m (i + 3))
    push_cast at h8 h16 h24
    rw [bor, u32_toInt, word_bor, word_bor, h8, h16, h24, word_byte, word_byte, word_byte, word_byte,
      hjoined]
    rfl
  rw [halfAt, hword]
  exact holds_half (half_nonneg _) (half_lt _)

theorem hiWord_read64 (i : ℕ) :
    hiWord (Standard.Xxh64.read64 m i) = Standard.Xxh64.read32 m (i + 4) := by
  rw [hiWord, Standard.Xxh64.read64, BitVec.extractLsb'_append_eq_of_le (by decide)]
  exact BitVec.extractLsb'_eq_self

theorem loWord_read64 (i : ℕ) :
    loWord (Standard.Xxh64.read64 m i) = Standard.Xxh64.read32 m i := by
  rw [loWord, Standard.Xxh64.read64, BitVec.extractLsb'_append_eq_of_add_le (by decide)]
  exact BitVec.extractLsb'_eq_self

theorem computes_wordAt (i : ℕ) : Computes (Standard.Xxh64.read64 m i) (wordAt m i) := by
  refine holds_bind (holds_halfAt m (i + 4)) ?_
  rintro _ rfl
  refine holds_bind (holds_halfAt m i) ?_
  rintro _ rfl
  refine holds_pure ?_
  rw [halves, hiWord_read64, loWord_read64]

theorem halves_setWidth (w : Word) : halves (w.setWidth 64) = ⟨0, w.toNat⟩ := by
  have hlt := w.isLt
  refine (halves_of_add (by omega) (by omega) ?_).symm
  rw [BitVec.toNat_setWidth]
  omega

theorem halves_byte (b : Byte) : halves (b.setWidth 64) = ⟨0, b.toNat⟩ := by
  have hlt := b.isLt
  refine (halves_of_add (by omega) (by omega) ?_).symm
  rw [BitVec.toNat_setWidth]
  omega

/-- The halves of four lanes. -/
def accumulators (v : Standard.Xxh64.Accumulators) : Accumulators :=
  ⟨halves v.v1, halves v.v2, halves v.v3, halves v.v4⟩

theorem holds_stripe (k : ℕ) (v : Standard.Xxh64.Accumulators) :
    Holds Note.exact (· = accumulators (Standard.Xxh64.stripe m (32 * k) v))
      (stripe m (4 * k) (accumulators v)) := by
  have h0 : 4 * k * 8 = 32 * k := by omega
  have h1 : (4 * k + 1) * 8 = 32 * k + 8 := by omega
  have h2 : (4 * k + 2) * 8 = 32 * k + 16 := by omega
  have h3 : (4 * k + 3) * 8 = 32 * k + 24 := by omega
  rw [stripe, h0, h1, h2, h3]
  refine holds_bind (computes_wordAt m _) ?_
  rintro _ rfl
  refine holds_bind (computes_round v.v1 _) ?_
  rintro _ rfl
  refine holds_bind (computes_wordAt m _) ?_
  rintro _ rfl
  refine holds_bind (computes_round v.v2 _) ?_
  rintro _ rfl
  refine holds_bind (computes_wordAt m _) ?_
  rintro _ rfl
  refine holds_bind (computes_round v.v3 _) ?_
  rintro _ rfl
  refine holds_bind (computes_wordAt m _) ?_
  rintro _ rfl
  refine holds_bind (computes_round v.v4 _) ?_
  rintro _ rfl
  exact holds_pure rfl

theorem holds_stripeLoop {n : ℕ} (seed : Lane) : ∀ turns k, k < n → n ≤ k + turns →
    Holds Note.exact (· = (4 * n, accumulators (Standard.Xxh64.stripes m seed n)))
      (stripeLoop m (n * 4) turns (4 * k) (accumulators (Standard.Xxh64.stripes m seed k))) := by
  intro turns
  induction turns with
  | zero => intro k hk hn; omega
  | succ turns ih =>
    intro k hk hn
    refine holds_bind (holds_stripe m k _) ?_
    rintro _ rfl
    rw [show 4 * k + 4 = 4 * (k + 1) by omega]
    split
    · obtain rfl : k + 1 = n := by omega
      exact holds_pure rfl
    · exact ih (k + 1) (by omega) (by omega)

/-- The complement of the first prime, and one, is its negation. -/
theorem sub_P1 (seed : Lane) :
    seed + (~~~Standard.Xxh64.P1 + 1) = seed - Standard.Xxh64.P1 := by
  rw [BitVec.sub_eq_add_neg, BitVec.neg_eq_not_add]
  rfl

theorem holds_initial (seed : Lane) :
    Holds Note.exact (· = accumulators (.initial seed)) (initial (halves seed)) := by
  have hhi : u32 (bnot P1.hi) = (hiWord (~~~Standard.Xxh64.P1)).toNat := by decide +kernel
  have hlo : u32 (bnot P1.lo) = (loWord (~~~Standard.Xxh64.P1)).toNat := by decide +kernel
  refine holds_bind (computes_add64 seed Standard.Xxh64.P1) ?_
  rintro _ rfl
  refine holds_bind (computes_add64 _ Standard.Xxh64.P2) ?_
  rintro _ rfl
  refine holds_bind (computes_add64 seed Standard.Xxh64.P2) ?_
  rintro _ rfl
  rw [hhi, hlo]
  refine holds_bind (holds_half (half_nonneg _) (half_lt _)) ?_
  rintro _ rfl
  refine holds_bind (holds_half (half_nonneg _) (half_lt _)) ?_
  rintro _ rfl
  refine holds_bind (computes_add64 (~~~Standard.Xxh64.P1) 1) ?_
  rintro _ rfl
  refine holds_bind (computes_add64 seed _) ?_
  rintro _ rfl
  rw [sub_P1]
  exact holds_pure rfl

theorem computes_converge (v : Standard.Xxh64.Accumulators) :
    Computes (Standard.Xxh64.converge v) (converge (accumulators v)) := by
  refine holds_bind (computes_rotl64 v.v1 (c := 1) (by decide) (by decide)) ?_
  rintro _ rfl
  refine holds_bind (computes_rotl64 v.v2 (c := 7) (by decide) (by decide)) ?_
  rintro _ rfl
  refine holds_bind (computes_add64 _ _) ?_
  rintro _ rfl
  refine holds_bind (computes_rotl64 v.v3 (c := 12) (by decide) (by decide)) ?_
  rintro _ rfl
  refine holds_bind (computes_add64 _ _) ?_
  rintro _ rfl
  refine holds_bind (computes_rotl64 v.v4 (c := 18) (by decide) (by decide)) ?_
  rintro _ rfl
  refine holds_bind (computes_add64 _ _) ?_
  rintro _ rfl
  refine holds_bind (computes_mergeRound _ v.v1) ?_
  rintro _ rfl
  refine holds_bind (computes_mergeRound _ v.v2) ?_
  rintro _ rfl
  refine holds_bind (computes_mergeRound _ v.v3) ?_
  rintro _ rfl
  exact computes_mergeRound _ v.v4

/-- Where the stripes end, and what they leave. -/
theorem holds_start (seed : Lane) :
    Holds Note.exact (· = (m.length / 32 * 32, halves (Standard.Xxh64.start m seed)))
      (start m (halves seed)) := by
  unfold start Standard.Xxh64.start
  dsimp only
  split
  · have hloop := holds_stripeLoop m seed m.length 0 (n := m.length / 32) (by omega) (by omega)
    refine holds_bind (holds_initial seed) ?_
    rintro _ rfl
    refine holds_bind hloop ?_
    rintro _ rfl
    refine holds_bind (computes_converge _) ?_
    rintro _ rfl
    refine holds_pure ?_
    rw [show 4 * (m.length / 32) * 8 = m.length / 32 * 32 by omega]
  · refine holds_bind (computes_add64 seed Standard.Xxh64.P5) ?_
    rintro _ rfl
    refine holds_pure ?_
    rw [show m.length / 32 * 32 = 0 by omega]

theorem computes_mixLane (i : ℕ) (acc : Lane) :
    Computes (Standard.Xxh64.mixLane m i acc) (mixLane m i (halves acc)) := by
  refine holds_bind (computes_wordAt m i) ?_
  rintro _ rfl
  refine holds_bind (computes_round 0 _) ?_
  rintro _ rfl
  refine holds_bind (computes_xor64 acc _) ?_
  rintro _ rfl
  refine holds_bind (computes_rotl64 _ (c := 27) (by decide) (by decide)) ?_
  rintro _ rfl
  refine holds_bind (computes_mul64 _ Standard.Xxh64.P1) ?_
  rintro _ rfl
  exact computes_add64 _ Standard.Xxh64.P4

theorem computes_mixHalf (i : ℕ) (acc : Lane) :
    Computes (Standard.Xxh64.mixHalf m i acc) (mixHalf m i (halves acc)) := by
  refine holds_bind (holds_halfAt m i) ?_
  rintro _ rfl
  rw [← halves_setWidth]
  refine holds_bind (computes_mul64 _ Standard.Xxh64.P1) ?_
  rintro _ rfl
  refine holds_bind (computes_xor64 acc _) ?_
  rintro _ rfl
  refine holds_bind (computes_rotl64 _ (c := 23) (by decide) (by decide)) ?_
  rintro _ rfl
  refine holds_bind (computes_mul64 _ Standard.Xxh64.P2) ?_
  rintro _ rfl
  exact computes_add64 _ Standard.Xxh64.P3

theorem computes_mixByte (i : ℕ) (acc : Lane) :
    Computes (Standard.Xxh64.mixByte m i acc) (mixByte m i (halves acc)) := by
  rw [mixByte, show byte m i = ((Standard.byteAt m i).toNat : ℤ) from rfl, ← halves_byte]
  refine holds_bind (computes_mul64 _ Standard.Xxh64.P5) ?_
  rintro _ rfl
  refine holds_bind (computes_xor64 acc _) ?_
  rintro _ rfl
  refine holds_bind (computes_rotl64 _ (c := 11) (by decide) (by decide)) ?_
  rintro _ rfl
  exact computes_mul64 _ Standard.Xxh64.P1

theorem holds_laneLoop {n : ℕ} {at' : ℕ} (acc : Lane) (hn : (m.length - at') / 8 = n) :
    ∀ turns k, k ≤ n → n ≤ k + turns →
    Holds Note.exact (· = (at' + 8 * n, halves (Standard.Xxh64.mixLanes m at' acc n)))
      (laneLoop m turns (at' + 8 * k) (halves (Standard.Xxh64.mixLanes m at' acc k))) := by
  intro turns
  induction turns with
  | zero =>
    intro k hk hturns
    obtain rfl : k = n := by omega
    exact holds_pure rfl
  | succ turns ih =>
    intro k hk hturns
    rw [laneLoop]
    split
    · refine holds_bind (computes_mixLane m _ _) ?_
      rintro _ rfl
      exact ih (k + 1) (by omega) (by omega)
    · obtain rfl : k = n := by omega
      exact holds_pure rfl

theorem holds_byteLoop {n : ℕ} {at' : ℕ} (acc : Lane) (hn : at' + n = m.length) :
    ∀ turns k, k ≤ n → n ≤ k + turns →
    Computes (Standard.Xxh64.mixBytes m at' acc n)
      (byteLoop m turns (at' + k) (halves (Standard.Xxh64.mixBytes m at' acc k))) := by
  intro turns
  induction turns with
  | zero =>
    intro k hk hturns
    obtain rfl : k = n := by omega
    exact holds_pure rfl
  | succ turns ih =>
    intro k hk hturns
    rw [byteLoop]
    split
    · refine holds_bind (computes_mixByte m _ _) ?_
      rintro _ rfl
      exact ih (k + 1) (by omega) (by omega)
    · obtain rfl : k = n := by omega
      exact holds_pure rfl

theorem computes_avalanche (acc : Lane) :
    Computes (Standard.Xxh64.avalanche acc) (avalanche (halves acc)) := by
  refine holds_bind (computes_rshift64 acc (c := 33) (by decide) (by decide)) ?_
  rintro _ rfl
  refine holds_bind (computes_xor64 acc _) ?_
  rintro _ rfl
  refine holds_bind (computes_mul64 _ Standard.Xxh64.P2) ?_
  rintro _ rfl
  refine holds_bind (computes_rshift64 _ (c := 29) (by decide) (by decide)) ?_
  rintro _ rfl
  refine holds_bind (computes_xor64 _ _) ?_
  rintro _ rfl
  refine holds_bind (computes_mul64 _ Standard.Xxh64.P3) ?_
  rintro _ rfl
  refine holds_bind (computes_rshift64 _ (c := 32) (by decide) (by decide)) ?_
  rintro _ rfl
  exact computes_xor64 _ _

/-- Behind the lanes, at most one half of a lane is mixed in. -/
theorem holds_halfStep (acc : Lane) :
    Holds Note.exact (· = (m.length / 4 * 4, halves
        (if 4 ≤ m.length % 8 then Standard.Xxh64.mixHalf m (m.length / 8 * 8) acc else acc)))
      (halfStep m (m.length / 8 * 8) (halves acc)) := by
  unfold halfStep
  by_cases h4 : 4 ≤ m.length % 8
  · rw [if_pos h4, if_pos (by omega)]
    refine holds_bind (computes_mixHalf m _ acc) ?_
    rintro _ rfl
    refine holds_pure ?_
    rw [show m.length / 8 * 8 + 4 = m.length / 4 * 4 by omega]
  · rw [if_neg h4, if_neg (by omega)]
    refine holds_pure ?_
    rw [show m.length / 8 * 8 = m.length / 4 * 4 by omega]

theorem computes_xxh64 (seed : Lane) (h : m.length < 2 ^ 32) :
    Computes (Standard.Xxh64.xxh64 m seed) (xxh64 m (halves seed).hi (halves seed).lo) := by
  have hsize : (⟨0, m.length⟩ : Halves) = halves (BitVec.ofNat 64 m.length) := by
    refine halves_of_add (by omega) (by omega) ?_
    rw [BitVec.toNat_ofNat]
    omega
  have hlanes := fun acc => holds_laneLoop m acc
    (show (m.length - m.length / 32 * 32) / 8 = m.length % 32 / 8 by omega) m.length 0
    (by omega) (by omega)
  have hbytes := fun acc => holds_byteLoop m acc
    (show m.length / 4 * 4 + m.length % 4 = m.length by omega) m.length 0 (by omega) (by omega)
  refine holds_bind (holds_start m seed) ?_
  rintro _ rfl
  rw [hsize]
  refine holds_bind (computes_add64 _ _) ?_
  rintro _ rfl
  refine holds_bind (hlanes _) ?_
  rintro _ rfl
  dsimp only
  rw [show m.length / 32 * 32 + 8 * (m.length % 32 / 8) = m.length / 8 * 8 by omega]
  refine holds_bind (holds_halfStep m _) ?_
  rintro _ rfl
  refine holds_bind (hbytes _) ?_
  rintro _ rfl
  exact computes_avalanche _

/-- The bytes of a half, the least significant first. -/
theorem bytes_toNat (w : Word) : bytes w.toNat =
    (List.range 4).map fun i => ((w.toNat / 256 ^ i % 256 : ℕ) : ℤ) := by
  have hbyte : ∀ n : ℕ, n < 32 → band (rshift (w.toNat : ℤ) n) 0xFF =
      ((w.toNat / 2 ^ n % 256 : ℕ) : ℤ) := by
    intro n hn
    have hword : (w >>> n &&& word 0xFF).toNat = w.toNat / 2 ^ n % 256 := by
      rw [BitVec.toNat_and, BitVec.toNat_ushiftRight, Nat.shiftRight_eq_div_pow]
      exact Nat.and_two_pow_sub_one_eq_mod _ 8
    rw [band, word_rshift _ hn, word_toNat, toInt_of_lt (by rw [hword]; omega), hword]
  have h0 : band (w.toNat : ℤ) 0xFF = ((w.toNat / 2 ^ 0 % 256 : ℕ) : ℤ) := by
    rw [← hbyte 0 (by decide), rshift_eq _ (by decide), band, band]
    simp
  have h8 := hbyte 8 (by decide)
  have h16 := hbyte 16 (by decide)
  have h24 := hbyte 24 (by decide)
  push_cast at h0 h8 h16 h24
  simp [bytes, List.range, List.range.loop, h0, h8, h16, h24]

end Message

end Nupp.hash
