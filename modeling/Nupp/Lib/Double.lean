import Nupp.Lib.Binary64

/-! Binary64 values with their exponent range: a finite value is a mantissa on a power of
two, counted from the least positive value. -/

namespace Double

open Nupp.Binary64

structure Finite where
  negative : Bool
  mantissa : ℕ
  exponent : ℕ
  mantissa_lt : mantissa < 2 ^ 53
  exponent_le : exponent ≤ 2045
  normal : exponent = 0 ∨ 2 ^ 52 ≤ mantissa
deriving DecidableEq, Repr

inductive Number where
  | finite (x : Finite)
  | infinity (negative : Bool)
  | nan
deriving DecidableEq, Repr

def unit (e : ℕ) : ℚ := 2 ^ ((e : ℤ) - 1074)

namespace Finite

def magnitude (x : Finite) : ℚ := x.mantissa * unit x.exponent

def zero (negative : Bool) : Finite :=
  ⟨negative, 0, 0, by norm_num, by norm_num, .inl rfl⟩

end Finite

/-- The exponent of the values next to `q`. -/
def scale (q : ℚ) : ℕ := (Int.log 2 q + 1022).toNat

/-- The mantissa and the exponent nearest to `q`, ties to even. -/
def nearestParts (q : ℚ) : ℕ × ℕ :=
  let m := (roundEven (q / unit (scale q))).toNat
  if m = 2 ^ 53 then (2 ^ 52, scale q + 1) else (m, scale q)

theorem unit_pos (e : ℕ) : 0 < unit e := zpow_pos (by norm_num) _

theorem unit_succ (e : ℕ) : unit (e + 1) = 2 * unit e := by
  rw [unit, unit, show ((e + 1 : ℕ) : ℤ) - 1074 = ((e : ℤ) - 1074) + 1 by push_cast; ring,
    zpow_add_one₀ (by norm_num)]
  ring

theorem two_pow_mul_unit (n e : ℕ) : (2 : ℚ) ^ n * unit e = 2 ^ ((n : ℤ) + e - 1074) := by
  rw [unit, ← zpow_natCast, ← zpow_add₀ (by norm_num)]
  ring_nf

/-- A value is below the mantissas of its scale, and above the normal ones unless it is
subnormal. -/
theorem scale_spec {q : ℚ} (hq : 0 < q) :
    q < 2 ^ 53 * unit (scale q) ∧ (scale q = 0 ∨ 2 ^ 52 * unit (scale q) ≤ q) := by
  have hlow := Int.zpow_log_le_self (b := 2) (by norm_num) hq
  have hhigh := Int.lt_zpow_succ_log_self (b := 2) (by norm_num) q
  rw [two_pow_mul_unit, two_pow_mul_unit]
  constructor
  · refine hhigh.trans_le ?_
    push_cast
    apply zpow_le_zpow_right₀ (by norm_num)
    unfold scale
    omega
  · rcases Nat.eq_zero_or_pos (scale q) with h0 | hpos
    · exact .inl h0
    · refine .inr (le_trans ?_ hlow)
      push_cast
      apply zpow_le_zpow_right₀ (by norm_num)
      unfold scale at hpos ⊢
      omega

theorem nearestParts_spec {q : ℚ} (hq : 0 < q) :
    (nearestParts q).1 < 2 ^ 53 ∧ ((nearestParts q).2 = 0 ∨ 2 ^ 52 ≤ (nearestParts q).1) := by
  obtain ⟨hhigh, hlow⟩ := scale_spec hq
  have hu := unit_pos (scale q)
  have hle : roundEven (q / unit (scale q)) ≤ 2 ^ 53 := by
    apply roundEven_le
    rw [div_le_iff₀ hu]
    exact_mod_cast hhigh.le
  unfold nearestParts
  simp only
  split_ifs with hcarry
  · norm_num
  · refine ⟨by simp only; omega, hlow.imp id fun hlow => ?_⟩
    have hge : (2 ^ 52 : ℤ) ≤ roundEven (q / unit (scale q)) := by
      apply le_roundEven
      rw [le_div_iff₀ hu]
      exact_mod_cast hlow
    simp only
    omega

/-- The value nearest to `q` in magnitude, infinity past the greatest. -/
def nearest (negative : Bool) (q : ℚ) : Number :=
  if hq : 0 < q then
    if he : (nearestParts q).2 ≤ 2045 then
      .finite ⟨negative, (nearestParts q).1, (nearestParts q).2, (nearestParts_spec hq).1, he,
        (nearestParts_spec hq).2⟩
    else .infinity negative
  else .finite (.zero negative)

theorem roundEven_eq_of_near {x : ℚ} {n : ℤ} (h : |x - n| < 1 / 2) : roundEven x = n := by
  have hnear := roundEven_near x
  have hlt : |(roundEven x : ℚ) - n| < 1 := by
    calc |(roundEven x : ℚ) - n| = |((roundEven x : ℚ) - x) + (x - n)| := by ring_nf
      _ ≤ |(roundEven x : ℚ) - x| + |x - n| := abs_add_le _ _
      _ < 1 := by linarith
  have hint : |roundEven x - n| < 1 := by exact_mod_cast hlt
  have hzero := Int.abs_lt_one_iff.mp hint
  omega

theorem scale_eq {q : ℚ} {e : ℕ} (hq : 0 < q) (hhigh : q < 2 ^ 53 * unit e)
    (hlow : e = 0 ∨ 2 ^ 52 * unit e ≤ q) : scale q = e := by
  obtain ⟨hhigh', hlow'⟩ := scale_spec hq
  have hmono : ∀ {a b : ℕ}, q < 2 ^ 53 * unit a → b = 0 ∨ 2 ^ 52 * unit b ≤ q → b ≤ a := by
    intro a b ha hb
    rcases hb with rfl | hb
    · exact Nat.zero_le a
    · have hlt := hb.trans_lt ha
      rw [two_pow_mul_unit, two_pow_mul_unit] at hlt
      have hexp := (zpow_lt_zpow_iff_right₀ (by norm_num)).mp hlt
      push_cast at hexp
      omega
  exact le_antisymm (hmono hhigh hlow') (hmono hhigh' hlow)

/-- A rational within a quarter of the last place of a value is nearest to it. -/
theorem nearestParts_of_near {x : Finite} {q : ℚ} (hx : 0 < x.mantissa)
    (h : |q - x.magnitude| < x.magnitude / 2 ^ 54) :
    0 < q ∧ nearestParts q = (x.mantissa, x.exponent) := by
  obtain ⟨negative, m, e, hm, he, hnormal⟩ := x
  simp only [Finite.magnitude] at h hx ⊢
  have hu := unit_pos e
  have hm1 : (1 : ℚ) ≤ m := by exact_mod_cast hx
  have hm2 : (m : ℚ) + 1 ≤ 2 ^ 53 := by exact_mod_cast hm
  obtain ⟨habove, hbelow⟩ := abs_lt.mp h
  have hsmall : (m : ℚ) * unit e / 2 ^ 54 ≤ unit e / 2 := by nlinarith
  have hq : 0 < q := by nlinarith
  have hhigh : q < 2 ^ 53 * unit e := by nlinarith
  refine ⟨hq, ?_⟩
  by_cases hlow : e = 0 ∨ 2 ^ 52 * unit e ≤ q
  · have hscale := scale_eq hq hhigh hlow
    have hround : roundEven (q / unit e) = m := by
      apply roundEven_eq_of_near
      rw [show q / unit e - ((m : ℤ) : ℚ) = (q - m * unit e) / unit e by field_simp; push_cast; ring,
        abs_div, abs_of_pos hu, div_lt_iff₀ hu]
      linarith
    simp only [nearestParts, hscale, hround, Int.toNat_natCast]
    rw [if_neg (by omega)]
  · rw [not_or, not_le] at hlow
    obtain ⟨hpos, hlow⟩ := hlow
    obtain ⟨e, rfl⟩ := Nat.exists_eq_succ_of_ne_zero hpos
    have hm52 : m = 2 ^ 52 := by
      have hge := hnormal.resolve_left hpos
      by_contra hne
      have hgt : (2 : ℚ) ^ 52 + 1 ≤ m := by exact_mod_cast (show 2 ^ 52 + 1 ≤ m by omega)
      nlinarith
    subst hm52
    have hu' := unit_pos e
    rw [Nat.succ_eq_add_one, unit_succ] at hlow habove hbelow
    push_cast at habove hbelow
    have hscale : scale q = e := by
      apply scale_eq hq
      · linarith
      · right
        linarith
    have hround : roundEven (q / unit e) = 2 ^ 53 := by
      apply roundEven_eq_of_near
      rw [show q / unit e - ((2 ^ 53 : ℤ) : ℚ) = (q - 2 ^ 53 * unit e) / unit e by
          field_simp; push_cast; ring,
        abs_div, abs_of_pos hu', div_lt_iff₀ hu', abs_lt]
      constructor <;> linarith
    simp [nearestParts, hscale, hround]

theorem nearest_of_near {x : Finite} {q : ℚ} (hx : 0 < x.mantissa)
    (h : |q - x.magnitude| < x.magnitude / 2 ^ 54) : nearest x.negative q = .finite x := by
  obtain ⟨hq, hparts⟩ := nearestParts_of_near hx h
  have he := x.exponent_le
  simp only [nearest, hq, dif_pos, hparts, he]

end Double
