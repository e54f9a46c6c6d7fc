import Mathlib.Algebra.Order.Ring.Star
import Nupp.Runtime.Binary32Fused

/-! The membership test of a literal against the rounding, and the family as a whole. -/

namespace Nupp.math

open Double (Number Finite Representable NearestTo signed)
open Nupp.Single (val val_block exists_block limit Rounds)

section Literals

variable {x : Finite} {turns : ℕ}

theorem finite_ext {y : Finite} (hsign : x.negative = y.negative)
    (hmag : x.magnitude = y.magnitude) : x = y := by
  by_cases hzero : x.mantissa = 0
  · have hzero' : y.mantissa = 0 := by
      rw [← Double.magnitude_eq_zero, ← hmag, Double.magnitude_eq_zero]
      exact hzero
    obtain ⟨s, m, e, hm, he, hnormal⟩ := x
    obtain ⟨s', m', e', hm', he', hnormal'⟩ := y
    simp only at hsign hzero hzero'
    subst hsign hzero hzero'
    have hexp : e = 0 := by omega
    have hexp' : e' = 0 := by omega
    subst hexp hexp'
    rfl
  · have hzero' : y.mantissa ≠ 0 := fun h => hzero (by
      rw [← Double.magnitude_eq_zero, hmag, Double.magnitude_eq_zero]
      exact h)
    have hx := Double.nearest_magnitude (Nat.pos_of_ne_zero hzero)
    have hy := Double.nearest_magnitude (Nat.pos_of_ne_zero hzero')
    rw [hsign, hmag] at hx
    exact Number.finite.inj (hx.symm.trans hy)

/-- What the rounding keeps. -/
theorem round32_fixed (hturns : 1100 < turns) :
    round32 turns (.finite x) = some (.finite x) ↔ ∃ p < limit, x.magnitude = val p := by
  obtain ⟨p, hp, hrounds⟩ := encode32_finite x hturns
  have hround : round32 turns (.finite x) = some (decode32 (signBits x.negative + p)) := by
    rw [round32, hp]
    rfl
  rw [hround, Option.some_inj]
  constructor
  · intro hfixed
    rcases hrounds.le_limit.lt_or_eq with hless | rfl
    · obtain ⟨y, hy, hsign, hmag⟩ := decode32_finite x.negative hless
      rw [hy, Number.finite.injEq] at hfixed
      exact ⟨p, hless, hfixed ▸ hmag⟩
    · rw [decode32_limit] at hfixed
      simp at hfixed
  · rintro ⟨r, hr, hmag⟩
    rw [hmag] at hrounds
    obtain rfl := hrounds.unique (Nupp.Single.rounds_val hr)
    obtain ⟨y, hy, hsign, hmag'⟩ := decode32_finite x.negative hr
    rw [hy, finite_ext hsign (hmag'.trans hmag.symm)]

/-- Below the normal magnitudes: a whole number of the least steps. -/
theorem subnormal_iff {m : ℚ} (hpos : 0 < m) (hless : m < 2 ^ (-126 : ℤ)) :
    (1 ≤ m / 2 ^ (-149 : ℤ) ∧ m / 2 ^ (-149 : ℤ) ≤ 8388607 ∧ Int.fract (m / 2 ^ (-149 : ℤ)) = 0) ↔
      ∃ p < limit, m = val p := by
  have hstep : (0 : ℚ) < 2 ^ (-149 : ℤ) := zpow_pos (by norm_num) _
  have hval : ∀ {p : ℕ}, p ≤ 2 ^ 24 → val p = p * 2 ^ (-149 : ℤ) := by
    intro p hp
    have h := val_block (j := 0) hp (Or.inl rfl)
    rw [Nat.zero_mul, Nat.zero_add] at h
    rw [h]
    norm_num
  have hnormal : val (2 ^ 23) = 2 ^ (-126 : ℤ) := by
    rw [hval (by norm_num)]
    norm_num
  constructor
  · rintro ⟨-, hhigh, hfract⟩
    obtain ⟨k, hk⟩ := Int.fract_eq_zero_iff.mp hfract
    have hnonneg : 0 ≤ k := by
      have hge : (0 : ℚ) ≤ k := hk ▸ (div_pos hpos hstep).le
      exact_mod_cast hge
    obtain ⟨n, rfl⟩ := Int.eq_ofNat_of_zero_le hnonneg
    rw [← hk] at hhigh
    have hn : n ≤ 8388607 := by exact_mod_cast hhigh
    refine ⟨n, by unfold limit; omega, ?_⟩
    rw [hval (by omega), ← Int.cast_natCast, hk, div_mul_cancel₀ _ hstep.ne']
  · rintro ⟨p, -, rfl⟩
    have hp : p < 2 ^ 23 := by
      rw [← hnormal] at hless
      exact Nupp.Single.val_strictMono.lt_iff_lt.mp hless
    have hp' : p ≠ 0 := by
      rintro rfl
      rw [Nupp.Single.val_zero] at hpos
      exact lt_irrefl _ hpos
    rw [hval (by omega), mul_div_cancel_right₀ _ hstep.ne']
    refine ⟨?_, ?_, Int.fract_natCast p⟩
    · exact_mod_cast Nat.one_le_iff_ne_zero.mpr hp'
    · exact_mod_cast (by omega : p ≤ 8388607)

/-- From the normal magnitudes on: a whole number of steps of the binade. -/
theorem normal_iff {m : ℚ} {e : ℤ} (hlow : 2 ^ (-126 : ℤ) ≤ m) (hbin : 2 ^ (e - 1) ≤ m)
    (hbin' : m < 2 ^ e) :
    (e ≤ 128 ∧ Int.fract (m / 2 ^ e * 2 ^ 24) = 0) ↔ ∃ p < limit, m = val p := by
  have hpow : ∀ {a b : ℤ}, (2 : ℚ) ^ a < 2 ^ b → a < b :=
    fun h => (zpow_lt_zpow_iff_right₀ (by norm_num)).mp h
  have hstep : ∀ a : ℤ, (0 : ℚ) < 2 ^ a := fun a => zpow_pos (by norm_num) a
  constructor
  · rintro ⟨he, hfract⟩
    have he' := hpow (hlow.trans_lt hbin')
    obtain ⟨j, hj⟩ : ∃ j : ℕ, e = (j : ℤ) - 125 := ⟨(e + 125).toNat, by omega⟩
    obtain ⟨k, hk⟩ := Int.fract_eq_zero_iff.mp hfract
    have hge : (2 : ℚ) ^ 23 ≤ k := by
      rw [hk, div_mul_eq_mul_div, le_div_iff₀ (hstep e)]
      rw [zpow_sub_one₀ (by norm_num)] at hbin
      linarith
    have hlt : (k : ℚ) < 2 ^ 24 := by
      rw [hk, div_mul_eq_mul_div, div_lt_iff₀ (hstep e)]
      linarith
    have hge' : 2 ^ 23 ≤ k := by exact_mod_cast hge
    have hlt' : k < 2 ^ 24 := by exact_mod_cast hlt
    obtain ⟨n, rfl⟩ := Int.eq_ofNat_of_zero_le (by omega : 0 ≤ k)
    refine ⟨j * 2 ^ 23 + n, by unfold limit; omega, ?_⟩
    rw [val_block (by omega) (Or.inr (by omega)), ← Int.cast_natCast, hk,
      show (j : ℤ) - 149 = e - 24 by omega, zpow_sub₀ (by norm_num)]
    field_simp
  · rintro ⟨p, hp, rfl⟩
    obtain ⟨j, k, rfl, hk, hblock⟩ := exists_block p
    have hnormal : val (2 ^ 23) = 2 ^ (-126 : ℤ) := by
      have h := val_block (j := 0) (k := 2 ^ 23) (by norm_num) (Or.inl rfl)
      norm_num at h ⊢
      exact h
    rw [← hnormal] at hlow
    have hpattern := Nupp.Single.val_strictMono.le_iff_le.mp hlow
    have hk' : 2 ^ 23 ≤ k := by omega
    have hkq : (2 : ℚ) ^ (23 : ℤ) ≤ k := by exact_mod_cast hk'
    have hkq' : (k : ℚ) < 2 ^ (24 : ℤ) := by exact_mod_cast hk
    rw [val_block hk.le hblock] at hbin hbin' ⊢
    have hup := hpow (hbin.trans_lt (b := (k : ℚ) * 2 ^ ((j : ℤ) - 149))
      (c := 2 ^ ((24 : ℤ) + ((j : ℤ) - 149))) (by
        rw [zpow_add₀ (by norm_num)]
        exact mul_lt_mul_of_pos_right hkq' (hstep _)))
    have hdown := hpow (lt_of_le_of_lt (a := (2 : ℚ) ^ ((23 : ℤ) + ((j : ℤ) - 149))) (by
        rw [zpow_add₀ (by norm_num)]
        exact mul_le_mul_of_nonneg_right hkq (hstep _).le) hbin')
    have he : e = (j : ℤ) - 125 := by omega
    have hwhole : (k : ℚ) * 2 ^ ((j : ℤ) - 149) / 2 ^ e * 2 ^ 24 = k := by
      rw [he, show (j : ℤ) - 149 = (j : ℤ) - 125 - 24 by ring, zpow_sub₀ (by norm_num)]
      field_simp
    refine ⟨by unfold limit at hp; omega, ?_⟩
    rw [hwhole]
    exact Int.fract_natCast k

theorem exactFloat_finite : exactFloat (.finite x) = true ↔ ∃ p < limit, x.magnitude = val p := by
  have habs : (Number.finite x).abs.Is x.magnitude := ⟨_, rfl, rfl⟩
  have hself : (Number.finite x).eq (.finite x) = true := decide_eq_true rfl
  have hzero : (Number.ofInt 0).Is 0 := ⟨_, rfl, Double.value_zero false⟩
  have hcond : (!(Number.finite x).eq (.finite x) || (Number.finite x).eq huge ||
      (Number.finite x).eq huge.neg || (Number.finite x).eq (.ofInt 0)) = true ↔
      x.magnitude = 0 := by
    rw [hself, huge_eq, Number.neg, ← Double.abs_value, abs_eq_zero,
      ← Double.eq_iff (Double.is_finite x) hzero]
    simp [Number.eq]
  unfold exactFloat
  by_cases hx : x.magnitude = 0
  · rw [if_pos (hcond.mpr hx), hx]
    exact iff_of_true rfl ⟨0, by norm_num [limit], Nupp.Single.val_zero.symm⟩
  · have hpos : 0 < x.magnitude := lt_of_le_of_ne (Double.magnitude_nonneg x) (Ne.symm hx)
    have hleast := le_of_representable habs.representable hpos
    have hpow : ∀ a : ℤ, (0 : ℚ) < 2 ^ a := fun a => zpow_pos (by norm_num) a
    have hnormal := Double.lt_iff habs (Double.is_exp2 (e := -126) (by norm_num) (by norm_num))
    rw [if_neg (mt hcond.mp hx)]
    simp only
    by_cases hless : x.magnitude < 2 ^ (-126 : ℤ)
    · have hunits := Double.is_div habs (Double.is_exp2 (e := -149) (by norm_num) (by norm_num))
        (hpow _).ne' (by
          rw [div_eq_mul_inv, ← zpow_neg]
          refine Double.representable_shift habs.representable hpos ?_ ?_
          · calc (2 : ℚ) ^ (-1000 : ℤ) ≤ 2 ^ (-1074 : ℤ) * 2 ^ (149 : ℤ) := by
                  rw [← zpow_add₀ (by norm_num)]
                  exact zpow_le_zpow_right₀ (by norm_num) (by norm_num)
              _ ≤ x.magnitude * 2 ^ (149 : ℤ) := mul_le_mul_of_nonneg_right hleast (hpow _).le
          · calc x.magnitude * 2 ^ (149 : ℤ) < 2 ^ (-126 : ℤ) * 2 ^ (149 : ℤ) :=
                  mul_lt_mul_of_pos_right hless (hpow _)
              _ ≤ 2 ^ (960 : ℤ) := by
                  rw [← zpow_add₀ (by norm_num)]
                  exact zpow_le_zpow_right₀ (by norm_num) (by norm_num))
      have hbound : x.magnitude / 2 ^ (-149 : ℤ) < 2 ^ 53 := by
        rw [div_lt_iff₀ (hpow _)]
        refine hless.trans ?_
        norm_num
      have hmod := Double.is_mod_one hunits (div_pos hpos (hpow _)).le hbound
      rw [if_pos (hnormal.mpr hless), Bool.and_eq_true, Bool.and_eq_true,
        Double.le_iff (Double.is_ofInt (by norm_num)) hunits,
        Double.le_iff hunits (Double.is_ofInt (by norm_num)), Double.eq_iff hmod hzero, and_assoc]
      exact_mod_cast subnormal_iff hpos hless
    · have hhas : (Number.finite x).abs.Has false x.magnitude := ⟨_, rfl, rfl, rfl⟩
      obtain ⟨b, e, hfrexp, hb, hlow, hhigh⟩ := Double.frexp_spec hhas hpos
      have hheight : ((16777216 : ℤ) : ℚ) = 2 ^ (24 : ℤ) := by norm_num
      have hhalf : 2 ^ (-1 : ℤ) ≤ x.magnitude / 2 ^ e := by
        rw [le_div_iff₀ (hpow e), ← zpow_add₀ (by norm_num), neg_add_eq_sub]
        exact hlow
      have hone : x.magnitude / 2 ^ e < 1 := (div_lt_one (hpow e)).mpr hhigh
      have hvalue : b.Is (x.magnitude / 2 ^ e) := hb.is
      have hunits := Double.is_mul hvalue (Double.is_ofInt (n := 16777216) (by norm_num)) (by
        rw [hheight]
        refine Double.representable_shift hvalue.representable (div_pos hpos (hpow e)) ?_ ?_
        · calc (2 : ℚ) ^ (-1000 : ℤ) ≤ 2 ^ (-1 : ℤ) * 2 ^ (24 : ℤ) := by
                rw [← zpow_add₀ (by norm_num)]
                exact zpow_le_zpow_right₀ (by norm_num) (by norm_num)
            _ ≤ x.magnitude / 2 ^ e * 2 ^ (24 : ℤ) :=
              mul_le_mul_of_nonneg_right hhalf (hpow _).le
        · calc x.magnitude / 2 ^ e * 2 ^ (24 : ℤ) < 1 * 2 ^ (24 : ℤ) :=
                mul_lt_mul_of_pos_right hone (hpow _)
            _ ≤ 2 ^ (960 : ℤ) := by
              rw [one_mul]
              exact zpow_le_zpow_right₀ (by norm_num) (by norm_num))
      rw [hheight] at hunits
      have hmod := Double.is_mod_one hunits
        (mul_nonneg (div_pos hpos (hpow e)).le (hpow _).le) (by
          have hsmall := mul_lt_mul_of_pos_right hone (hpow 24)
          norm_num at hsmall ⊢
          linarith)
      rw [if_neg (mt hnormal.mp hless), hfrexp]
      simp only
      split
      · next hbig =>
        refine iff_of_false (by simp) fun h => ?_
        have hfits := (normal_iff (not_lt.mp hless) hlow hhigh).mpr h
        omega
      · next hsmall =>
        rw [Double.eq_iff hmod hzero, ← normal_iff (not_lt.mp hless) hlow hhigh]
        exact (and_iff_right (not_lt.mp hsmall)).symm

theorem literalFits_float (hturns : 1100 < turns) (value : Number) :
    literalFits value .float = true ↔ round32 turns value = some value := by
  cases value with
  | finite x => exact exactFloat_finite.trans (round32_fixed hturns).symm
  | infinity s =>
    have hround : round32 turns (.infinity s) = some (.infinity s) := by
      rw [round32, encode32_infinity]
      exact congrArg some (decode32_limit s)
    refine iff_of_true ?_ hround
    cases s with
    | true => simp [literalFits, exactFloat, huge_eq, Number.eq, Number.neg]
    | false => simp [literalFits, exactFloat, huge_eq, Number.eq]
  | nan => exact iff_of_true rfl rfl

end Literals

section Family

/-- What a pattern stands for by its sign and fields. -/
def Names (bits : ℕ) (value : Number) : Prop :=
  if bits % 2 ^ 31 = limit then value = .infinity (2 ^ 31 ≤ bits)
  else value.Has (2 ^ 31 ≤ bits) (val (bits % 2 ^ 31))

variable {turns : ℕ}

theorem decode32_names (hturns : 1100 < turns) {bits : ℕ} (hbits : bits < 2 ^ 32)
    (hnan : nanbits bits = false) :
    Names bits (decode32 bits) ∧ encode32 turns (decode32 bits) = some bits := by
  obtain ⟨s, p, rfl, hp⟩ := exists_sign hbits
  have hlimit : p ≤ limit := by
    by_contra hmore
    rw [(nanbits_iff s hp).mpr (not_le.mp hmore)] at hnan
    exact absurd hnan (by simp)
  have hsign : decide (2 ^ 31 ≤ signBits s + p) = s := by
    cases s with
    | true => simp [signBits, SIGN]
    | false => simpa [signBits] using hp
  have hmod : (signBits s + p) % 2 ^ 31 = p := by
    cases s with
    | true => simp only [signBits, SIGN, if_true]; omega
    | false => simp only [signBits, Bool.false_eq_true, if_false]; omega
  refine ⟨?_, encode32_decode32 hturns s hlimit⟩
  rw [Names, hmod, hsign]
  split
  · next heq =>
    rw [heq]
    exact decode32_limit s
  · next hne => exact decode32_finite s (lt_of_le_of_ne hlimit hne)

/-- The encoding rounds once, decoding undoes it, the sum of a double-double is rounded once,
and a literal is a member when it is kept. -/
theorem binary32_rounds_once (hturns : 1100 < turns) :
    (∀ x : Finite, ∃ p, encode32 turns (.finite x) = some (signBits x.negative + p) ∧
      Rounds x.magnitude p) ∧
    (∀ bits < 2 ^ 32, nanbits bits = false →
      Names bits (decode32 bits) ∧ encode32 turns (decode32 bits) = some bits) ∧
    (∀ value, ∃ r, round32 turns value = some r ∧ round32 turns r = some r) ∧
    (∀ m n : Number, m.le n = true →
      ∃ a b, round32 turns m = some a ∧ round32 turns n = some b ∧ a.le b = true) ∧
    (∀ hi lo : Finite, NearestTo (hi.value + lo.value) hi →
      ∃ p, rounddd turns (.finite hi) (.finite lo) = some (decode32 (signBits hi.negative + p)) ∧
        Rounds |hi.value + lo.value| p) ∧
    ∀ value, literalFits value .float = true ↔ round32 turns value = some value :=
  ⟨fun x => encode32_finite x hturns, fun _ hbits hnan => decode32_names hturns hbits hnan,
    round32_idempotent hturns, fun _ _ h => round32_monotone hturns h,
    fun _ _ hnear => rounddd_rounds hturns hnear, literalFits_float hturns⟩

/-- A tie of the head that its tail decides. -/
theorem binary32_rounds_once_tail :
    ∃ p, rounddd 1101 (.finite ⟨false, 2 ^ 52 + 2 ^ 28, 1022, by norm_num, by norm_num,
        .inr (by norm_num)⟩) (.finite ⟨false, 2 ^ 52, 942, by norm_num, by norm_num,
        .inr le_rfl⟩) = some (decode32 (signBits false + p)) ∧
      Rounds (1 + 2 ^ (-24 : ℤ) + 2 ^ (-80 : ℤ)) p := by
  have hsum := (binary32_rounds_once (by norm_num : 1100 < 1101)).2.2.2.2.1
    ⟨false, 2 ^ 52 + 2 ^ 28, 1022, by norm_num, by norm_num, .inr (by norm_num)⟩
    ⟨false, 2 ^ 52, 942, by norm_num, by norm_num, .inr le_rfl⟩
    (Double.nearestTo_of_le (by norm_num) (by
      norm_num [Finite.value, Finite.magnitude, Double.unit, abs_of_pos]))
  norm_num [Finite.value, Finite.magnitude, Double.unit, abs_of_pos] at hsum ⊢
  exact hsum

end Family

end Nupp.math
