import Mathlib.Data.Int.Log
import Mathlib.Data.Rat.Floor
import Mathlib.Tactic.Linarith
import Mathlib.Tactic.Positivity
import Mathlib.Tactic.FieldSimp
import Mathlib.Tactic.Ring

/-! Round-to-nearest-even to 53 significant bits, over the rationals. The
exponent range is left open, so this is binary64 arithmetic away from overflow
and from the subnormal numbers. -/

namespace Nupp.Binary64

/-- The nearest integer, ties to even. -/
def roundEven (x : ℚ) : ℤ :=
  if x - ⌊x⌋ < 1 / 2 then ⌊x⌋
  else if 1 / 2 < x - ⌊x⌋ then ⌊x⌋ + 1
  else if ⌊x⌋ % 2 = 0 then ⌊x⌋ else ⌊x⌋ + 1

/-- The spacing of the 53-bit numbers in the binade of `x`. -/
def ulp (x : ℚ) : ℚ := 2 ^ (Int.log 2 |x| - 52)

/-- The double nearest to `x`. -/
def fl (x : ℚ) : ℚ := if x = 0 then 0 else roundEven (x / ulp x) * ulp x

theorem roundEven_near (x : ℚ) : |(roundEven x : ℚ) - x| ≤ 1 / 2 := by
  have h0 := Int.floor_le x
  have h1 := Int.lt_floor_add_one x
  unfold roundEven
  split_ifs <;> rw [abs_le] <;> push_cast <;> constructor <;> linarith

theorem roundEven_intCast (n : ℤ) : roundEven n = n := by
  simp [roundEven]

theorem le_roundEven {n : ℤ} {x : ℚ} (h : (n : ℚ) ≤ x) : n ≤ roundEven x := by
  have hf := Int.le_floor.mpr h
  unfold roundEven
  split_ifs <;> omega

theorem roundEven_le {n : ℤ} {x : ℚ} (h : x ≤ n) : roundEven x ≤ n := by
  have h0 := Int.floor_le x
  have hf : ⌊x⌋ ≤ n := by exact_mod_cast h0.trans h
  rcases hf.lt_or_eq with hlt | heq
  · unfold roundEven
    split_ifs <;> omega
  · have hx : x - ⌊x⌋ < 1 / 2 := by rw [heq]; linarith
    rw [roundEven, if_pos hx, heq]

theorem ulp_pos (x : ℚ) : 0 < ulp x := zpow_pos (by norm_num) _

theorem two_zpow_log_le {x : ℚ} (h : x ≠ 0) : (2 : ℚ) ^ Int.log 2 |x| ≤ |x| :=
  Int.zpow_log_le_self (by norm_num) (abs_pos.mpr h)

theorem ulp_eq (x : ℚ) : ulp x = 2 ^ Int.log 2 |x| * 2 ^ (-52 : ℤ) := by
  rw [ulp, sub_eq_add_neg, zpow_add₀ (by norm_num)]

theorem fl_sub_le_half_ulp (x : ℚ) : |fl x - x| ≤ ulp x / 2 := by
  have hu := ulp_pos x
  by_cases hx : x = 0
  · subst hx
    simpa [fl] using (half_pos hu).le
  · have he : fl x - x = ((roundEven (x / ulp x) : ℚ) - x / ulp x) * ulp x := by
      rw [fl, if_neg hx, sub_mul, div_mul_cancel₀ _ hu.ne']
    rw [he, abs_mul, abs_of_pos hu]
    calc _ ≤ 1 / 2 * ulp x := mul_le_mul_of_nonneg_right (roundEven_near _) hu.le
      _ = ulp x / 2 := by ring

/-- The relative error of one rounding is at most `2 ^ -53`. -/
theorem fl_sub_le (x : ℚ) : |fl x - x| ≤ |x| / 2 ^ 53 := by
  by_cases hx : x = 0
  · simp [fl, hx]
  · have hu : ulp x / 2 ≤ |x| / 2 ^ 53 := by
      have hl := two_zpow_log_le hx
      rw [ulp_eq]
      norm_num
      linarith
    exact (fl_sub_le_half_ulp x).trans hu

theorem fl_eq_of_dvd {x : ℚ} {k : ℤ} (h : x = k * ulp x) : fl x = x := by
  by_cases hx : x = 0
  · simp [fl, hx]
  · have hk : x / ulp x = k := by
      rw [div_eq_iff (ulp_pos x).ne']
      exact h
    rw [fl, if_neg hx, hk, roundEven_intCast, ← h]

theorem log_abs_intCast (n : ℤ) : Int.log 2 |(n : ℚ)| = (Nat.log 2 n.natAbs : ℤ) := by
  have he : |(n : ℚ)| = ((n.natAbs : ℕ) : ℚ) := by
    rw [← Int.cast_abs, Int.abs_eq_natAbs]
    simp
  rw [he, Int.log_natCast]

/-- Integers of at most 53 bits are doubles. -/
theorem fl_intCast {n : ℤ} (h : n.natAbs < 2 ^ 53) : fl n = n := by
  by_cases hn : n = 0
  · simp [fl, hn]
  have hlog : Nat.log 2 n.natAbs ≤ 52 := by
    have := Nat.log_lt_of_lt_pow (b := 2) (by omega) h
    omega
  obtain ⟨k, hk⟩ := Nat.exists_eq_add_of_le hlog
  apply fl_eq_of_dvd (k := n * 2 ^ k)
  have hexp : (Nat.log 2 n.natAbs : ℤ) - 52 = -(k : ℤ) := by omega
  rw [ulp, log_abs_intCast, hexp, zpow_neg, zpow_natCast]
  push_cast
  field_simp

/-- A rounding never leaves the binade of its argument downwards. -/
theorem two_zpow_log_le_abs_fl {x : ℚ} (h : x ≠ 0) : (2 : ℚ) ^ Int.log 2 |x| ≤ |fl x| := by
  have hu := ulp_pos x
  have hl := two_zpow_log_le h
  have hp : (2 : ℚ) ^ Int.log 2 |x| = 2 ^ 52 * ulp x := by
    rw [ulp_eq]
    norm_num
    ring
  rw [fl, if_neg h, abs_mul, abs_of_pos hu, hp]
  apply mul_le_mul_of_nonneg_right _ hu.le
  rw [hp] at hl
  rcases le_total 0 x with hx | hx
  · rw [abs_of_nonneg hx] at hl
    have hq : ((2 ^ 52 : ℤ) : ℚ) ≤ x / ulp x := by
      rw [le_div_iff₀ hu]
      exact_mod_cast hl
    have hr : ((2 ^ 52 : ℤ) : ℚ) ≤ roundEven (x / ulp x) := by exact_mod_cast le_roundEven hq
    exact (by exact_mod_cast hr : (2 : ℚ) ^ 52 ≤ _).trans (le_abs_self _)
  · rw [abs_of_nonpos hx] at hl
    have hq : x / ulp x ≤ ((-2 ^ 52 : ℤ) : ℚ) := by
      rw [div_le_iff₀ hu]
      push_cast
      linarith
    have hr : (roundEven (x / ulp x) : ℚ) ≤ ((-2 ^ 52 : ℤ) : ℚ) := by
      exact_mod_cast roundEven_le hq
    have hn := neg_le_abs (roundEven (x / ulp x) : ℚ)
    push_cast at hr
    linarith

/-- An integer of more than 53 bits does not round back among the shorter ones. -/
theorem le_abs_fl_intCast {n : ℤ} (h : 2 ^ 53 ≤ n.natAbs) : (2 : ℚ) ^ 53 ≤ |fl n| := by
  have hn : n ≠ 0 := by
    rintro rfl
    norm_num at h
  have hlog : 53 ≤ Nat.log 2 n.natAbs :=
    (Nat.le_log_iff_pow_le (by norm_num) (by omega)).mpr (by omega)
  have hb := two_zpow_log_le_abs_fl (x := (n : ℚ)) (by exact_mod_cast hn)
  rw [log_abs_intCast, zpow_natCast] at hb
  exact (pow_le_pow_right₀ (by norm_num) hlog).trans hb

/-- Between 53 and 54 bits an inexact rounding moves an integer by exactly one. -/
theorem fl_intCast_near {n : ℤ} (h : n.natAbs < 2 ^ 54) :
    fl n = n ∨ ∃ m : ℤ, fl n = m ∧ (m = n + 1 ∨ m = n - 1) := by
  by_cases hs : n.natAbs < 2 ^ 53
  · exact .inl (fl_intCast hs)
  have hn : n ≠ 0 := by
    rintro rfl
    norm_num at hs
  have hlog : Nat.log 2 n.natAbs = 53 := by
    apply Nat.log_eq_of_pow_le_of_lt_pow <;> omega
  have hu : ulp (n : ℚ) = 2 := by
    rw [ulp, log_abs_intCast, hlog]
    norm_num
  have hf : fl n = ((2 * roundEven ((n : ℚ) / 2) : ℤ) : ℚ) := by
    rw [fl, if_neg (by exact_mod_cast hn), hu]
    push_cast
    ring
  have hnear := fl_sub_le_half_ulp (n : ℚ)
  rw [hu, hf] at hnear
  have hi : |2 * roundEven ((n : ℚ) / 2) - n| ≤ 1 := by
    have : ((|2 * roundEven ((n : ℚ) / 2) - n| : ℤ) : ℚ) ≤ 1 := by
      push_cast
      push_cast at hnear
      linarith
    exact_mod_cast this
  by_cases he : 2 * roundEven ((n : ℚ) / 2) = n
  · exact .inl (by rw [hf, he])
  · refine .inr ⟨_, hf, ?_⟩
    rw [abs_le] at hi
    omega

theorem floor_fl_div_of_pos {a b : ℤ} (ha : a.natAbs < 2 ^ 53) (hb : 0 < b) :
    ⌊fl ((a : ℚ) / b)⌋ = a / b := by
  have hbq : (0 : ℚ) < b := by exact_mod_cast hb
  have herr : |fl ((a : ℚ) / b) - a / b| < 1 / b := by
    have haq : |(a : ℚ)| < 2 ^ 53 := by
      have : (a.natAbs : ℚ) < 2 ^ 53 := by exact_mod_cast ha
      rwa [Nat.cast_natAbs, Int.cast_abs] at this
    refine (fl_sub_le _).trans_lt ?_
    rw [abs_div, abs_of_pos hbq, div_div, div_lt_div_iff₀ (by positivity) hbq]
    nlinarith
  have hx : (a : ℚ) / b = (a / b : ℤ) + (a % b : ℤ) / b := by
    rw [add_div' _ _ _ hbq.ne', ← Int.cast_mul, ← Int.cast_add, Int.ediv_mul_add_emod]
  have hlt : ((a % b : ℤ) : ℚ) + 1 ≤ b := by exact_mod_cast Int.emod_lt_of_pos a hb
  rw [Int.floor_eq_iff]
  rw [abs_lt] at herr
  constructor
  · by_cases hr : a % b = 0
    · rw [hr, Int.cast_zero, zero_div, add_zero] at hx
      have hq : (a / b).natAbs ≤ a.natAbs := Int.natAbs_ediv_le_natAbs a b
      rw [hx, fl_intCast (by omega)]
    · have hpos : (1 : ℚ) ≤ (a % b : ℤ) := by
        have := Int.emod_nonneg a hb.ne'
        exact_mod_cast (by omega : 1 ≤ a % b)
      have : (1 : ℚ) / b ≤ (a % b : ℤ) / b := by gcongr
      linarith
  · have hr : ((a % b : ℤ) : ℚ) / b + 1 / b ≤ 1 := by
      rw [← add_div, div_le_one hbq]
      exact hlt
    linarith

/-- The floor of a rounded quotient of 53-bit integers is the floor of the quotient. -/
theorem floor_fl_div {a b : ℤ} (ha : a.natAbs < 2 ^ 53) (hb : b ≠ 0) :
    ⌊fl ((a : ℚ) / b)⌋ = a.fdiv b := by
  rcases lt_or_gt_of_ne hb with hneg | hpos
  · have h := floor_fl_div_of_pos (a := -a) (b := -b) (by omega) (by omega)
    rw [← Int.neg_fdiv_neg, Int.fdiv_eq_ediv_of_nonneg _ (by omega), ← h]
    push_cast
    rw [neg_div_neg_eq]
  · rw [Int.fdiv_eq_ediv_of_nonneg _ hpos.le]
    exact floor_fl_div_of_pos ha hpos

theorem natAbs_fmod_lt (a : ℤ) {b : ℤ} (hb : b ≠ 0) : (a.fmod b).natAbs < b.natAbs := by
  rcases lt_or_gt_of_ne hb with hneg | hpos
  · have h := Int.fmod_lt_of_pos (-a) (b := -b) (by omega)
    have h' := Int.fmod_nonneg_of_pos (-a) (b := -b) (by omega)
    rw [Int.neg_fmod_neg] at h h'
    omega
  · have h := Int.fmod_lt_of_pos a hpos
    have h' := Int.fmod_nonneg_of_pos a hpos
    omega

/-- Lua's `a % b`, which is `a - floor(a / b) * b` with every step rounded. -/
def luaMod (a b : ℤ) : ℚ := fl (a - fl (⌊fl ((a : ℚ) / b)⌋ * b))

theorem luaMod_eq_sub {a b : ℤ} (ha : a.natAbs < 2 ^ 53) (hb : b.natAbs < 2 ^ 53) (h0 : b ≠ 0) :
    ∃ m : ℤ, fl ((a.fdiv b * b : ℤ) : ℚ) = m ∧ luaMod a b = (a - m : ℤ) ∧
      (a - m).natAbs < 2 ^ 53 := by
  have hdiv := Int.fdiv_mul_add_fmod a b
  have hmod := natAbs_fmod_lt a h0
  obtain ⟨m, hm, hnear⟩ : ∃ m : ℤ, fl ((a.fdiv b * b : ℤ) : ℚ) = m ∧
      (m = a.fdiv b * b ∨ m = a.fdiv b * b + 1 ∨ m = a.fdiv b * b - 1) := by
    rcases fl_intCast_near (n := a.fdiv b * b) (by omega) with h | ⟨m, h, hm⟩
    · exact ⟨_, h, .inl rfl⟩
    · exact ⟨m, h, .inr hm⟩
  have hsmall : (a - m).natAbs < 2 ^ 53 := by omega
  refine ⟨m, hm, ?_, hsmall⟩
  rw [luaMod, floor_fl_div ha h0, ← Int.cast_mul, hm, ← Int.cast_sub, fl_intCast hsmall]

/-- The rounded modulo is the floored one exactly when the multiple of the
divisor it subtracts is a double. -/
theorem luaMod_eq_fmod_iff {a b : ℤ} (ha : a.natAbs < 2 ^ 53) (hb : b.natAbs < 2 ^ 53)
    (h0 : b ≠ 0) :
    luaMod a b = a.fmod b ↔ fl ((a.fdiv b * b : ℤ) : ℚ) = (a.fdiv b * b : ℤ) := by
  obtain ⟨m, hm, he, -⟩ := luaMod_eq_sub ha hb h0
  have hdiv := Int.fdiv_mul_add_fmod a b
  rw [he, hm, Int.cast_inj, Int.cast_inj]
  omega

end Nupp.Binary64
