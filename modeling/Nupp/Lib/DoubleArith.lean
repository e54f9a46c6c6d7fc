import Nupp.Lib.Double

/-! Arithmetic on binary64 numbers, every operation the nearest to the exact result, and the
results that are exact. -/

namespace Double

open Nupp.Binary64

namespace Finite

def value (x : Finite) : ℚ := if x.negative then -x.magnitude else x.magnitude

def neg (x : Finite) : Finite := { x with negative := !x.negative }

end Finite

namespace Number

/-- The number nearest to `q`. `negative` is the sign of a zero. -/
def ofRat (negative : Bool) (q : ℚ) : Number :=
  if q = 0 then .finite (.zero negative) else nearest (q < 0) |q|

def neg : Number → Number
  | .finite x => .finite x.neg
  | .infinity s => .infinity !s
  | .nan => .nan

def abs : Number → Number
  | .finite x => .finite { x with negative := false }
  | .infinity _ => .infinity false
  | .nan => .nan

def add : Number → Number → Number
  | .finite x, .finite y => ofRat (x.negative && y.negative) (x.value + y.value)
  | .infinity s, .infinity t => if s = t then .infinity s else .nan
  | .infinity s, .finite _ => .infinity s
  | .finite _, .infinity t => .infinity t
  | _, _ => .nan

def sub (a b : Number) : Number := a.add b.neg

def mul : Number → Number → Number
  | .finite x, .finite y => ofRat (x.negative ^^ y.negative) (x.value * y.value)
  | .infinity s, .infinity t => .infinity (s ^^ t)
  | .infinity s, .finite y => if y.mantissa = 0 then .nan else .infinity (s ^^ y.negative)
  | .finite x, .infinity t => if x.mantissa = 0 then .nan else .infinity (x.negative ^^ t)
  | _, _ => .nan

def div : Number → Number → Number
  | .finite x, .finite y =>
    if y.mantissa = 0 then
      if x.mantissa = 0 then .nan else .infinity (x.negative ^^ y.negative)
    else ofRat (x.negative ^^ y.negative) (x.value / y.value)
  | .infinity s, .finite y => .infinity (s ^^ y.negative)
  | .finite x, .infinity t => .finite (.zero (x.negative ^^ t))
  | _, _ => .nan

def floor : Number → Number
  | .finite x => ofRat x.negative ⌊x.value⌋
  | n => n

/-- `a % b`, which is `a - floor(a / b) * b` with every step rounded. -/
def mod (a b : Number) : Number := a.sub ((a.div b).floor.mul b)

def lt : Number → Number → Bool
  | .finite x, .finite y => x.value < y.value
  | .infinity s, .infinity t => s && !t
  | .infinity s, .finite _ => s
  | .finite _, .infinity t => !t
  | _, _ => false

def le : Number → Number → Bool
  | .finite x, .finite y => x.value ≤ y.value
  | .infinity s, .infinity t => s || !t
  | .infinity s, .finite _ => s
  | .finite _, .infinity t => !t
  | _, _ => false

def eq : Number → Number → Bool
  | .finite x, .finite y => x.value = y.value
  | .infinity s, .infinity t => s = t
  | _, _ => false

def ofInt (n : ℤ) : Number := ofRat false n

/-- `2 ^ e`. -/
def exp2 (e : ℤ) : Number := ofRat false (2 ^ e)

/-- `math.frexp`: a significand of at least one half and below one, and its exponent. -/
def frexp : Number → Number × ℤ
  | .finite x =>
    if x.mantissa = 0 then (.finite x, 0)
    else
      let e := Int.log 2 |x.value| + 1
      (ofRat x.negative (x.value / 2 ^ e), e)
  | n => (n, 0)

end Number

section Values

theorem magnitude_nonneg (x : Finite) : 0 ≤ x.magnitude :=
  mul_nonneg (Nat.cast_nonneg _) (unit_pos _).le

theorem magnitude_eq_zero {x : Finite} : x.magnitude = 0 ↔ x.mantissa = 0 := by
  rw [Finite.magnitude, mul_eq_zero, Nat.cast_eq_zero]
  exact or_iff_left (unit_pos _).ne'

theorem abs_value (x : Finite) : |x.value| = x.magnitude := by
  unfold Finite.value
  split
  · rw [abs_neg, abs_of_nonneg (magnitude_nonneg x)]
  · exact abs_of_nonneg (magnitude_nonneg x)

theorem value_eq_zero {x : Finite} : x.value = 0 ↔ x.mantissa = 0 := by
  rw [← abs_eq_zero, abs_value, magnitude_eq_zero]

theorem value_neg (x : Finite) : x.neg.value = -x.value := by
  have hmag : x.neg.magnitude = x.magnitude := rfl
  cases hsign : x.negative with
  | true => simp [Finite.value, Finite.neg, Finite.magnitude, hsign]
  | false => simp [Finite.value, Finite.neg, Finite.magnitude, hsign]

theorem value_zero (negative : Bool) : (Finite.zero negative).value = 0 := by
  simp [Finite.value, Finite.magnitude, Finite.zero]

theorem magnitude_lt (x : Finite) : x.magnitude < 2 ^ (1024 : ℤ) := by
  have hu := unit_pos x.exponent
  have hm : (x.mantissa : ℚ) < 2 ^ 53 := by exact_mod_cast x.mantissa_lt
  have hle : (2 : ℚ) ^ 53 * unit x.exponent ≤ 2 ^ (1024 : ℤ) := by
    rw [two_pow_mul_unit]
    apply zpow_le_zpow_right₀ (by norm_num)
    have hexp := x.exponent_le
    push_cast
    omega
  calc x.magnitude = x.mantissa * unit x.exponent := rfl
    _ < 2 ^ 53 * unit x.exponent := mul_lt_mul_of_pos_right hm hu
    _ ≤ 2 ^ (1024 : ℤ) := hle

/-- A short integer on a power of two is the magnitude of a number. -/
theorem exists_magnitude {m : ℕ} {e : ℤ} (hm : m < 2 ^ 53) (hlow : -1074 ≤ e) (hhigh : e ≤ 971)
    (negative : Bool) : ∃ x : Finite, x.negative = negative ∧ x.magnitude = m * 2 ^ e := by
  obtain ⟨k, hk⟩ : ∃ k : ℕ, e = (k : ℤ) - 1074 := ⟨(e + 1074).toNat, by omega⟩
  by_cases hzero : m = 0
  · exact ⟨.zero negative, rfl, by simp [Finite.magnitude, Finite.zero, hzero]⟩
  · have hlog : Nat.log 2 m ≤ 52 := by
      have hlt := Nat.log_lt_of_lt_pow (b := 2) hzero hm
      omega
    have hshift : min (52 - Nat.log 2 m) k ≤ k := Nat.min_le_right _ _
    have hpow := Nat.pow_log_le_self 2 hzero
    have hless := Nat.lt_pow_succ_log_self (b := 2) (by norm_num) m
    have hmantissa : m * 2 ^ min (52 - Nat.log 2 m) k < 2 ^ 53 := by
      calc m * 2 ^ min (52 - Nat.log 2 m) k
          < 2 ^ (Nat.log 2 m + 1) * 2 ^ min (52 - Nat.log 2 m) k :=
            Nat.mul_lt_mul_of_pos_right hless (Nat.two_pow_pos _)
        _ = 2 ^ (Nat.log 2 m + 1 + min (52 - Nat.log 2 m) k) := (pow_add _ _ _).symm
        _ ≤ 2 ^ 53 := Nat.pow_le_pow_right (by norm_num) (by omega)
    have hnormal : k - min (52 - Nat.log 2 m) k = 0 ∨
        2 ^ 52 ≤ m * 2 ^ min (52 - Nat.log 2 m) k := by
      by_cases hcase : k ≤ 52 - Nat.log 2 m
      · exact Or.inl (by omega)
      · refine Or.inr ?_
        rw [Nat.min_eq_left (by omega)]
        calc 2 ^ 52 = 2 ^ (Nat.log 2 m + (52 - Nat.log 2 m)) := by rw [Nat.add_sub_cancel' hlog]
          _ = 2 ^ Nat.log 2 m * 2 ^ (52 - Nat.log 2 m) := pow_add _ _ _
          _ ≤ m * 2 ^ (52 - Nat.log 2 m) := Nat.mul_le_mul_right _ hpow
    refine ⟨⟨negative, _, _, hmantissa, by omega, hnormal⟩, rfl, ?_⟩
    have hsplit : (k : ℤ) - 1074 = (min (52 - Nat.log 2 m) k : ℕ) +
        (((k - min (52 - Nat.log 2 m) k : ℕ) : ℤ) - 1074) := by omega
    simp only [Finite.magnitude, unit]
    rw [hk, hsplit, zpow_add₀ (by norm_num), zpow_natCast]
    push_cast
    ring

theorem nearest_magnitude {x : Finite} (hx : 0 < x.mantissa) :
    nearest x.negative x.magnitude = .finite x := by
  have hpos : 0 < x.magnitude := by
    have hne : x.magnitude ≠ 0 := fun hzero => hx.ne' (magnitude_eq_zero.mp hzero)
    exact lt_of_le_of_ne (magnitude_nonneg x) hne.symm
  exact nearest_of_near hx (by rw [sub_self, abs_zero]; positivity)

/-- Every value is an integer on a power of two. -/
theorem value_eq_intCast (x : Finite) : ∃ n : ℤ, n.natAbs < 2 ^ 53 ∧
    x.value = n * 2 ^ ((x.exponent : ℤ) - 1074) := by
  have hm := x.mantissa_lt
  cases hsign : x.negative with
  | true => exact ⟨-x.mantissa, by omega, by simp [Finite.value, Finite.magnitude, unit, hsign]⟩
  | false => exact ⟨x.mantissa, by omega, by simp [Finite.value, Finite.magnitude, unit, hsign]⟩

end Values

section Exact

def Representable (q : ℚ) : Prop := ∃ x : Finite, x.value = q

theorem representable_intCast_mul {n e : ℤ} (hn : n.natAbs < 2 ^ 53) (hlow : -1074 ≤ e)
    (hhigh : e ≤ 971) : Representable (n * 2 ^ e) := by
  obtain ⟨x, hsign, hmag⟩ := exists_magnitude hn hlow hhigh (decide (n < 0))
  refine ⟨x, ?_⟩
  rw [Finite.value, hsign, hmag]
  by_cases hneg : n < 0
  · have hcast : ((n.natAbs : ℕ) : ℚ) = -(n : ℚ) := by
      rw [Nat.cast_natAbs, abs_of_neg hneg, Int.cast_neg]
    rw [if_pos (decide_eq_true hneg), hcast]
    ring
  · have hcast : ((n.natAbs : ℕ) : ℚ) = (n : ℚ) := by
      rw [Nat.cast_natAbs, abs_of_nonneg (not_lt.mp hneg)]
    rw [if_neg (by simpa using hneg), hcast]

theorem representable_intCast {n : ℤ} (hn : n.natAbs < 2 ^ 53) : Representable n := by
  have h := representable_intCast_mul (e := 0) hn (by norm_num) (by norm_num)
  rwa [zpow_zero, mul_one] at h

theorem representable_exp2 {e : ℤ} (hlow : -1074 ≤ e) (hhigh : e ≤ 971) :
    Representable (2 ^ e) := by
  have h := representable_intCast_mul (n := 1) (by norm_num) hlow hhigh
  rwa [Int.cast_one, one_mul] at h

/-- The part of a value beyond its integer part. -/
theorem representable_fract {q : ℚ} (hq : Representable q) (hpos : 0 ≤ q) :
    Representable (Int.fract q) := by
  obtain ⟨x, rfl⟩ := hq
  obtain ⟨n, hn, hvalue⟩ := value_eq_intCast x
  have hexp := x.exponent_le
  have hpow : (0 : ℚ) < 2 ^ ((x.exponent : ℤ) - 1074) := zpow_pos (by norm_num) _
  have hnonneg : 0 ≤ n := by
    by_contra hneg
    have hlt : (n : ℚ) < 0 := by exact_mod_cast not_le.mp hneg
    rw [hvalue] at hpos
    exact absurd hpos (not_le.mpr (mul_neg_of_neg_of_pos hlt hpow))
  rw [hvalue]
  by_cases hinteger : 1074 ≤ x.exponent
  · have hwhole : (n : ℚ) * 2 ^ ((x.exponent : ℤ) - 1074) =
        ((n * 2 ^ (x.exponent - 1074) : ℤ) : ℚ) := by
      have hcast : (x.exponent : ℤ) - 1074 = ((x.exponent - 1074 : ℕ) : ℤ) := by omega
      rw [hcast, zpow_natCast]
      push_cast
      rfl
    rw [hwhole, Int.fract_intCast]
    exact ⟨.zero false, value_zero false⟩
  · obtain ⟨j, hj⟩ : ∃ j : ℕ, (x.exponent : ℤ) - 1074 = -(j : ℤ) :=
      ⟨1074 - x.exponent, by omega⟩
    have hdiv : (n : ℚ) * 2 ^ (-(j : ℤ)) = (n : ℚ) / ((2 ^ j : ℕ) : ℚ) := by
      rw [zpow_neg, zpow_natCast, ← div_eq_mul_inv]
      push_cast
      rfl
    have hfract : Int.fract ((n : ℚ) / ((2 ^ j : ℕ) : ℚ)) =
        ((n % ((2 ^ j : ℕ) : ℤ) : ℤ) : ℚ) / ((2 ^ j : ℕ) : ℚ) :=
      Int.fract_div_intCast_eq_div_intCast_mod
    have hback : ((n % ((2 ^ j : ℕ) : ℤ) : ℤ) : ℚ) / ((2 ^ j : ℕ) : ℚ) =
        ((n % ((2 ^ j : ℕ) : ℤ) : ℤ) : ℚ) * 2 ^ (-(j : ℤ)) := by
      rw [zpow_neg, zpow_natCast, ← div_eq_mul_inv]
      push_cast
      rfl
    have hless : n % ((2 ^ j : ℕ) : ℤ) ≤ n := by
      have hsub := Int.emod_nonneg n (b := ((2 ^ j : ℕ) : ℤ)) (by positivity)
      have hquot := Int.ediv_nonneg hnonneg (b := ((2 ^ j : ℕ) : ℤ)) (by positivity)
      have hadd := Int.mul_ediv_add_emod n ((2 ^ j : ℕ) : ℤ)
      have hprod : 0 ≤ ((2 ^ j : ℕ) : ℤ) * (n / ((2 ^ j : ℕ) : ℤ)) := mul_nonneg (by positivity) hquot
      omega
    have hmod := Int.emod_nonneg n (b := ((2 ^ j : ℕ) : ℤ)) (by positivity)
    rw [hj, hdiv, hfract, hback]
    exact representable_intCast_mul (by omega) (by omega) (by omega)

/-- The integer part of a value is one. -/
theorem representable_floor {q : ℚ} (hq : Representable q) : Representable (⌊q⌋ : ℤ) := by
  obtain ⟨x, rfl⟩ := hq
  obtain ⟨n, hn, hvalue⟩ := value_eq_intCast x
  by_cases hinteger : 1074 ≤ x.exponent
  · have hwhole : x.value = ((n * 2 ^ (x.exponent - 1074) : ℤ) : ℚ) := by
      have hcast : (x.exponent : ℤ) - 1074 = ((x.exponent - 1074 : ℕ) : ℤ) := by omega
      rw [hvalue, hcast, zpow_natCast]
      push_cast
      rfl
    rw [hwhole, Int.floor_intCast, ← hwhole]
    exact ⟨x, rfl⟩
  · have hhalf : (2 : ℚ) ^ ((x.exponent : ℤ) - 1074) ≤ 2⁻¹ := by
      calc (2 : ℚ) ^ ((x.exponent : ℤ) - 1074) ≤ 2 ^ (-1 : ℤ) := zpow_le_zpow_right₀ (by norm_num) (by omega)
        _ = 2⁻¹ := zpow_neg_one 2
    have hpow : (0 : ℚ) < 2 ^ ((x.exponent : ℤ) - 1074) := zpow_pos (by norm_num) _
    have habs : |x.value| ≤ 2 ^ 52 := by
      have hcast : |(n : ℚ)| ≤ 2 ^ 53 := by
        rw [← Int.cast_abs, Int.abs_eq_natAbs]
        exact_mod_cast hn.le
      calc |x.value| = |(n : ℚ)| * 2 ^ ((x.exponent : ℤ) - 1074) := by rw [hvalue, abs_mul, abs_of_pos hpow]
        _ ≤ 2 ^ 53 * 2⁻¹ := mul_le_mul hcast hhalf hpow.le (by positivity)
        _ = 2 ^ 52 := by norm_num
    obtain ⟨hlow, hhigh⟩ := abs_le.mp habs
    have hfloor : ⌊x.value⌋ ≤ 2 ^ 52 := Int.floor_le_iff.mpr (by push_cast; linarith)
    have hfloor' : -(2 ^ 52) ≤ ⌊x.value⌋ := Int.le_floor.mpr (by push_cast; linarith)
    exact representable_intCast (by omega)

/-- The number is finite, of a value. -/
def Number.Is (n : Number) (q : ℚ) : Prop := ∃ x, n = .finite x ∧ x.value = q

variable {a b : Number} {p q : ℚ}

theorem is_finite (x : Finite) : (Number.finite x).Is x.value := ⟨x, rfl, rfl⟩

theorem is_ofRat (negative : Bool) (h : Representable q) : (Number.ofRat negative q).Is q := by
  obtain ⟨x, rfl⟩ := h
  unfold Number.ofRat
  by_cases hzero : x.value = 0
  · rw [if_pos hzero, hzero]
    exact ⟨.zero negative, rfl, value_zero negative⟩
  · have hmantissa : 0 < x.mantissa := Nat.pos_of_ne_zero fun h => hzero (value_eq_zero.mpr h)
    have hmag : 0 < x.magnitude := by
      rw [← abs_value]
      exact abs_pos.mpr hzero
    have hsign : decide (x.value < 0) = x.negative := by
      cases hneg : x.negative with
      | true =>
        have hlt : x.value < 0 := by
          rw [Finite.value, hneg, if_pos rfl]
          linarith
        exact decide_eq_true hlt
      | false =>
        have hge : ¬x.value < 0 := by
          rw [Finite.value, hneg, if_neg (by simp)]
          linarith
        exact decide_eq_false hge
    rw [if_neg hzero, hsign, abs_value, nearest_magnitude hmantissa]
    exact ⟨x, rfl, rfl⟩

theorem Number.Is.representable (h : a.Is q) : Representable q := by
  obtain ⟨x, -, hx⟩ := h
  exact ⟨x, hx⟩

theorem is_neg (h : a.Is q) : a.neg.Is (-q) := by
  obtain ⟨x, rfl, rfl⟩ := h
  exact ⟨x.neg, rfl, value_neg x⟩

theorem is_add (ha : a.Is p) (hb : b.Is q) (h : Representable (p + q)) : (a.add b).Is (p + q) := by
  obtain ⟨x, rfl, rfl⟩ := ha
  obtain ⟨y, rfl, rfl⟩ := hb
  exact is_ofRat _ h

theorem is_sub (ha : a.Is p) (hb : b.Is q) (h : Representable (p - q)) : (a.sub b).Is (p - q) := by
  rw [sub_eq_add_neg] at h ⊢
  exact is_add ha (is_neg hb) h

theorem is_mul (ha : a.Is p) (hb : b.Is q) (h : Representable (p * q)) : (a.mul b).Is (p * q) := by
  obtain ⟨x, rfl, rfl⟩ := ha
  obtain ⟨y, rfl, rfl⟩ := hb
  exact is_ofRat _ h

theorem is_div (ha : a.Is p) (hb : b.Is q) (hq : q ≠ 0) (h : Representable (p / q)) :
    (a.div b).Is (p / q) := by
  obtain ⟨x, rfl, rfl⟩ := ha
  obtain ⟨y, rfl, rfl⟩ := hb
  have hne : y.mantissa ≠ 0 := fun hzero => hq (value_eq_zero.mpr hzero)
  rw [Number.div, if_neg hne]
  exact is_ofRat _ h

theorem is_floor (ha : a.Is p) (h : Representable (⌊p⌋ : ℤ)) : a.floor.Is (⌊p⌋ : ℤ) := by
  obtain ⟨x, rfl, rfl⟩ := ha
  exact is_ofRat _ h

theorem is_ofInt {n : ℤ} (hn : n.natAbs < 2 ^ 53) : (Number.ofInt n).Is n :=
  is_ofRat false (representable_intCast hn)

theorem is_exp2 {e : ℤ} (hlow : -1074 ≤ e) (hhigh : e ≤ 971) : (Number.exp2 e).Is (2 ^ e) :=
  is_ofRat false (representable_exp2 hlow hhigh)

/-- The remainder by one. -/
theorem is_mod_one (ha : a.Is p) (hpos : 0 ≤ p) (hp : p < 2 ^ 53) :
    (a.mod (.ofInt 1)).Is (Int.fract p) := by
  have hone : (Number.ofInt 1).Is ((1 : ℤ) : ℚ) := is_ofInt (by norm_num)
  have hfloor : ⌊p⌋.natAbs < 2 ^ 53 := by
    have hnonneg := Int.floor_nonneg.mpr hpos
    have hlt : ⌊p⌋ < 2 ^ 53 := Int.floor_lt.mpr (by exact_mod_cast hp)
    omega
  have hrep := representable_intCast hfloor
  have hdiv : (a.div (.ofInt 1)).Is p := by
    have hquot := is_div ha hone (by norm_num) (by
      rw [Int.cast_one, div_one]
      exact ha.representable)
    rwa [Int.cast_one, div_one] at hquot
  have hmul : ((a.div (.ofInt 1)).floor.mul (.ofInt 1)).Is (⌊p⌋ : ℤ) := by
    have hprod := is_mul (is_floor hdiv hrep) hone (by
      rw [Int.cast_one, mul_one]
      exact hrep)
    rwa [Int.cast_one, mul_one] at hprod
  exact is_sub ha hmul (representable_fract ha.representable hpos)

theorem is_abs (ha : a.Is p) : a.abs.Is |p| := by
  obtain ⟨x, rfl, rfl⟩ := ha
  exact ⟨_, rfl, by rw [abs_value]; rfl⟩

theorem lt_iff (ha : a.Is p) (hb : b.Is q) : a.lt b = true ↔ p < q := by
  obtain ⟨x, rfl, rfl⟩ := ha
  obtain ⟨y, rfl, rfl⟩ := hb
  exact decide_eq_true_iff

theorem le_iff (ha : a.Is p) (hb : b.Is q) : a.le b = true ↔ p ≤ q := by
  obtain ⟨x, rfl, rfl⟩ := ha
  obtain ⟨y, rfl, rfl⟩ := hb
  exact decide_eq_true_iff

theorem eq_iff (ha : a.Is p) (hb : b.Is q) : a.eq b = true ↔ p = q := by
  obtain ⟨x, rfl, rfl⟩ := ha
  obtain ⟨y, rfl, rfl⟩ := hb
  exact decide_eq_true_iff

/-- A positive value on a further power of two, away from both ends of the range. -/
theorem representable_shift (ha : Representable q) (hpos : 0 < q) {t : ℤ}
    (hlow : 2 ^ (-1000 : ℤ) ≤ q * 2 ^ t) (hhigh : q * 2 ^ t < 2 ^ (960 : ℤ)) :
    Representable (q * 2 ^ t) := by
  obtain ⟨x, rfl⟩ := ha
  obtain ⟨n, hn, hvalue⟩ := value_eq_intCast x
  have hpow : ∀ a : ℤ, (0 : ℚ) < 2 ^ a := fun a => zpow_pos (by norm_num) a
  have hone : 1 ≤ n := by
    by_contra hneg
    have hle : (n : ℚ) ≤ 0 := by exact_mod_cast not_lt.mp hneg
    rw [hvalue] at hpos
    linarith [mul_nonpos_of_nonpos_of_nonneg hle (hpow ((x.exponent : ℤ) - 1074)).le]
  have hone' : (1 : ℚ) ≤ n := by exact_mod_cast hone
  have hless : (n : ℚ) < 2 ^ (53 : ℤ) := by
    have hz : n < 2 ^ 53 := by omega
    exact_mod_cast hz
  rw [hvalue, mul_assoc, ← zpow_add₀ (by norm_num)] at hlow hhigh ⊢
  have hup := (le_mul_of_one_le_left (hpow _).le hone').trans_lt hhigh
  have hdown := hlow.trans_lt (mul_lt_mul_of_pos_right hless (hpow _))
  rw [← zpow_add₀ (by norm_num)] at hdown
  have hexp := (zpow_lt_zpow_iff_right₀ (by norm_num)).mp hup
  have hexp' := (zpow_lt_zpow_iff_right₀ (by norm_num)).mp hdown
  exact representable_intCast_mul hn (by omega) (by omega)

/-- A value of the binade of one on a further power of two. -/
theorem representable_scaled (ha : Representable q) (hlow : 1 ≤ q) (hhigh : q < 2) {t : ℤ}
    (ht : -1000 ≤ t) (ht' : t ≤ 900) : Representable (q * 2 ^ t) := by
  have hpow : (0 : ℚ) < 2 ^ t := zpow_pos (by norm_num) t
  refine representable_shift ha (by linarith) ?_ ?_
  · calc (2 : ℚ) ^ (-1000 : ℤ) ≤ 2 ^ t := zpow_le_zpow_right₀ (by norm_num) ht
      _ ≤ q * 2 ^ t := le_mul_of_one_le_left hpow.le hlow
  · calc q * 2 ^ t < 2 * 2 ^ t := mul_lt_mul_of_pos_right hhigh hpow
      _ = 2 ^ (t + 1) := by rw [zpow_add_one₀ (by norm_num), mul_comm]
      _ ≤ 2 ^ (960 : ℤ) := zpow_le_zpow_right₀ (by norm_num) (by omega)

/-- Half of a value that is not small. -/
theorem representable_half (ha : Representable q) (h : 1 ≤ q) : Representable (q / 2) := by
  obtain ⟨x, rfl⟩ := ha
  obtain ⟨n, hn, hvalue⟩ := value_eq_intCast x
  have hexp := x.exponent_le
  have hpos : 1 ≤ x.exponent := by
    by_contra hzero
    have hexponent : x.exponent = 0 := by omega
    have hmag := magnitude_nonneg x
    have hle : x.magnitude < 1 := by
      have hm : (x.mantissa : ℚ) < 2 ^ 53 := by exact_mod_cast x.mantissa_lt
      calc x.magnitude = x.mantissa * unit 0 := by rw [Finite.magnitude, hexponent]
        _ < 2 ^ 53 * unit 0 := mul_lt_mul_of_pos_right hm (unit_pos 0)
        _ ≤ 1 := by
          rw [two_pow_mul_unit]
          exact zpow_le_one_of_nonpos₀ (by norm_num) (by norm_num)
    have habs := le_abs_self x.value
    rw [abs_value] at habs
    linarith
  have hdiv : (n : ℚ) * 2 ^ ((x.exponent : ℤ) - 1074) / 2 =
      n * 2 ^ ((x.exponent : ℤ) - 1074 - 1) := by
    rw [zpow_sub_one₀ (by norm_num)]
    ring
  rw [hvalue, hdiv]
  exact representable_intCast_mul hn (by omega) (by omega)

/-- Twice a value that is not large. -/
theorem representable_twice (ha : Representable q) (hpos : 0 ≤ q) (h : q < 1) :
    Representable (q * 2) := by
  obtain ⟨x, rfl⟩ := ha
  obtain ⟨n, hn, hvalue⟩ := value_eq_intCast x
  have hexp : x.exponent ≤ 1074 := by
    by_contra hlarge
    have hnormal := x.normal.resolve_left (by omega)
    have hm : (2 : ℚ) ^ 52 ≤ x.mantissa := by exact_mod_cast hnormal
    have hge : 1 ≤ x.magnitude := by
      calc (1 : ℚ) ≤ 2 ^ 52 * unit x.exponent := by
            rw [two_pow_mul_unit]
            exact one_le_zpow₀ (by norm_num) (by push_cast; omega)
        _ ≤ x.mantissa * unit x.exponent := mul_le_mul_of_nonneg_right hm (unit_pos _).le
        _ = x.magnitude := rfl
    rw [← abs_value, abs_of_nonneg hpos] at hge
    linarith
  have hmul : (n : ℚ) * 2 ^ ((x.exponent : ℤ) - 1074) * 2 =
      n * 2 ^ ((x.exponent : ℤ) - 1074 + 1) := by
    rw [zpow_add_one₀ (by norm_num)]
    ring
  rw [hvalue, hmul]
  exact representable_intCast_mul hn (by omega) (by omega)

end Exact

section Signs

/-- The value of a magnitude under a sign. -/
def signed (negative : Bool) (m : ℚ) : ℚ := if negative then -m else m

/-- The number is finite, of a sign and a magnitude. -/
def Number.Has (n : Number) (negative : Bool) (m : ℚ) : Prop :=
  ∃ x, n = .finite x ∧ x.negative = negative ∧ x.magnitude = m

variable {a b : Number} {s t : Bool} {m m' : ℚ}

theorem abs_signed (s : Bool) (hm : 0 ≤ m) : |signed s m| = m := by
  cases s with
  | true => rw [signed, if_pos rfl, abs_neg, abs_of_nonneg hm]
  | false => rw [signed, if_neg (by simp), abs_of_nonneg hm]

theorem signed_neg_iff (s : Bool) (hm : 0 < m) : signed s m < 0 ↔ s = true := by
  cases s with
  | true => simpa [signed] using hm
  | false => simpa [signed] using hm.le

theorem signed_mul (s t : Bool) (m m' : ℚ) :
    signed s m * signed t m' = signed (s ^^ t) (m * m') := by
  cases s with
  | true =>
    cases t with
    | true => simp [signed]
    | false => simp [signed]
  | false =>
    cases t with
    | true => simp [signed]
    | false => simp [signed]

theorem value_eq_signed (x : Finite) : x.value = signed x.negative x.magnitude := rfl

theorem Number.Has.is (h : a.Has s m) : a.Is (signed s m) := by
  obtain ⟨x, rfl, rfl, rfl⟩ := h
  exact is_finite x

theorem Number.Has.nonneg (h : a.Has s m) : 0 ≤ m := by
  obtain ⟨x, -, -, rfl⟩ := h
  exact magnitude_nonneg x

theorem has_ofRat (s : Bool) (hm : 0 ≤ m) (h : Representable m) :
    (Number.ofRat s (signed s m)).Has s m := by
  obtain ⟨x, hx⟩ := h
  have hmag : x.magnitude = m := by
    rw [← abs_value, hx, abs_of_nonneg hm]
  unfold Number.ofRat
  by_cases hzero : m = 0
  · have hvalue : signed s m = 0 := by
      cases s with
      | true => simp [signed, hzero]
      | false => simp [signed, hzero]
    rw [if_pos hvalue, hzero]
    exact ⟨.zero s, rfl, rfl, magnitude_eq_zero.mpr rfl⟩
  · have hpos : 0 < m := lt_of_le_of_ne hm (Ne.symm hzero)
    have habs := abs_signed s hm
    have hvalue : signed s m ≠ 0 := by
      rw [← abs_pos, habs]
      exact hpos
    have hmantissa : 0 < x.mantissa := by
      refine Nat.pos_of_ne_zero fun h => hzero ?_
      rw [← hmag]
      exact magnitude_eq_zero.mpr h
    have hsign : decide (signed s m < 0) = s := by
      rw [Bool.eq_iff_iff, decide_eq_true_iff]
      exact signed_neg_iff s hpos
    rw [if_neg hvalue, habs, hsign, ← hmag]
    exact ⟨{ x with negative := s }, nearest_magnitude (x := { x with negative := s }) hmantissa,
      rfl, rfl⟩

theorem has_mul (ha : a.Has s m) (hb : b.Has t m') (h : Representable (m * m')) :
    (a.mul b).Has (s ^^ t) (m * m') := by
  have hnonneg := mul_nonneg ha.nonneg hb.nonneg
  obtain ⟨x, rfl, rfl, rfl⟩ := ha
  obtain ⟨y, rfl, rfl, rfl⟩ := hb
  rw [Number.mul, value_eq_signed, value_eq_signed, signed_mul]
  exact has_ofRat _ hnonneg h

/-- Two values of one sign. -/
theorem has_add (ha : a.Has s m) (hb : b.Has s m') (h : Representable (m + m')) :
    (a.add b).Has s (m + m') := by
  have hnonneg := add_nonneg ha.nonneg hb.nonneg
  obtain ⟨x, rfl, hs, rfl⟩ := ha
  obtain ⟨y, rfl, ht, rfl⟩ := hb
  have hsum : signed s x.magnitude + signed s y.magnitude =
      signed s (x.magnitude + y.magnitude) := by
    cases s with
    | true => exact (neg_add _ _).symm
    | false => rfl
  rw [Number.add, value_eq_signed, value_eq_signed, hs, ht, Bool.and_self, hsum]
  exact has_ofRat s hnonneg h

theorem has_ofInt {n : ℕ} (hn : n < 2 ^ 53) : (Number.ofInt n).Has false n := by
  have h := has_ofRat false (Nat.cast_nonneg n) (by
    have hrep := representable_intCast (n := n) (by omega)
    rwa [Int.cast_natCast] at hrep)
  rwa [signed, if_neg (by simp), ← Int.cast_natCast] at h

theorem has_exp2 {e : ℤ} (hlow : -1074 ≤ e) (hhigh : e ≤ 971) :
    (Number.exp2 e).Has false (2 ^ e) :=
  has_ofRat false (zpow_nonneg (by norm_num) e) (representable_exp2 hlow hhigh)

/-- `frexp` of a positive number splits it without a rounding. -/
theorem frexp_spec (h : a.Has s m) (hpos : 0 < m) :
    ∃ b e, a.frexp = (b, e) ∧ b.Has s (m / 2 ^ e) ∧ 2 ^ (e - 1) ≤ m ∧ m < 2 ^ e := by
  obtain ⟨x, rfl, rfl, rfl⟩ := h
  have hne : x.mantissa ≠ 0 := fun hzero => hpos.ne' (magnitude_eq_zero.mpr hzero)
  have hpow : ∀ e : ℤ, (0 : ℚ) < 2 ^ e := fun e => zpow_pos (by norm_num) e
  have hlow := Int.zpow_log_le_self (b := 2) (by norm_num) hpos
  have hhigh := Int.lt_zpow_succ_log_self (b := 2) (by norm_num) x.magnitude
  push_cast at hlow hhigh
  generalize he : Int.log 2 x.magnitude + 1 = e at hhigh
  have hlog : Int.log 2 x.magnitude = e - 1 := by omega
  rw [hlog] at hlow
  have hdiv : signed x.negative x.magnitude / 2 ^ e =
      signed x.negative (x.magnitude / 2 ^ e) := by
    cases x.negative with
    | true => exact neg_div _ _
    | false => rfl
  have hrep : Representable (x.magnitude / 2 ^ e) := by
    have hmag : Representable x.magnitude := ⟨{ x with negative := false }, rfl⟩
    rw [div_eq_mul_inv, ← zpow_neg]
    refine representable_shift hmag hpos ?_ ?_
    · calc (2 : ℚ) ^ (-1000 : ℤ) ≤ 2 ^ (-1 : ℤ) := zpow_le_zpow_right₀ (by norm_num) (by norm_num)
        _ = 2 ^ (e - 1) * 2 ^ (-e) := by
          rw [← zpow_add₀ (by norm_num)]
          congr 1
          ring
        _ ≤ x.magnitude * 2 ^ (-e) := mul_le_mul_of_nonneg_right hlow (hpow _).le
    · calc x.magnitude * 2 ^ (-e) < 2 ^ e * 2 ^ (-e) := mul_lt_mul_of_pos_right hhigh (hpow _)
        _ = 2 ^ (0 : ℤ) := by
          rw [← zpow_add₀ (by norm_num), add_neg_cancel]
        _ ≤ 2 ^ (960 : ℤ) := zpow_le_zpow_right₀ (by norm_num) (by norm_num)
  refine ⟨_, e, ?_, has_ofRat x.negative (div_pos hpos (hpow e)).le hrep, hlow, hhigh⟩
  rw [← hdiv, Number.frexp, if_neg hne, abs_value, he]
  rfl

end Signs

section Rounding

/-- A rounding never halves what is not below the least positive value. -/
theorem lt_nearest (s : Bool) {q : ℚ} (hq : 2 ^ (-1074 : ℤ) ≤ q) :
    (∃ x, nearest s q = .finite x ∧ x.negative = s ∧ q / 2 < x.magnitude) ∨
      nearest s q = .infinity s := by
  have hpos : 0 < q := (zpow_pos (by norm_num) _).trans_le hq
  obtain ⟨-, hlow⟩ := scale_spec hpos
  have hu := unit_pos (scale q)
  have hone : 1 ≤ q / unit (scale q) := by
    rw [one_le_div hu]
    rcases hlow with hzero | hlow
    · rw [hzero]
      exact hq
    · linarith
  have hround : q / unit (scale q) / 2 < roundEven (q / unit (scale q)) := by
    have hnear := neg_le_of_abs_le (roundEven_near (q / unit (scale q)))
    rcases hone.lt_or_eq with hmore | heq
    · linarith
    · rw [← heq]
      norm_num [roundEven]
  have hcast : (((roundEven (q / unit (scale q))).toNat : ℕ) : ℚ) =
      roundEven (q / unit (scale q)) := by
    have hnonneg : (0 : ℤ) ≤ roundEven (q / unit (scale q)) := by
      have hlt : (0 : ℚ) < roundEven (q / unit (scale q)) := by linarith
      exact_mod_cast hlt.le
    rw [← Int.cast_natCast, Int.toNat_of_nonneg hnonneg]
  have hparts : q / 2 < (nearestParts q).1 * unit (nearestParts q).2 := by
    have hscaled : q / 2 < roundEven (q / unit (scale q)) * unit (scale q) := by
      rw [← div_lt_iff₀ hu, div_right_comm]
      exact hround
    unfold nearestParts
    simp only
    split
    · next hcarry =>
      rw [← hcast, hcarry] at hscaled
      simp only [unit_succ]
      push_cast at hscaled ⊢
      linarith
    · simp only [hcast]
      exact hscaled
  unfold nearest
  rw [dif_pos hpos]
  split
  · exact Or.inl ⟨_, rfl, rfl, hparts⟩
  · exact Or.inr rfl

/-- Every value is an integer number of the least positive one. -/
theorem value_eq_mul_least (x : Finite) : ∃ n : ℤ, x.value = n * 2 ^ (-1074 : ℤ) := by
  obtain ⟨n, -, hvalue⟩ := value_eq_intCast x
  refine ⟨n * 2 ^ x.exponent, ?_⟩
  rw [hvalue, sub_eq_add_neg, zpow_add₀ (by norm_num), zpow_natCast, Int.cast_mul, Int.cast_pow,
    Int.cast_ofNat, mul_assoc]

/-- Two values that differ do so by at least the least positive one. -/
theorem least_le_sub {x y : Finite} (h : x.value < y.value) :
    2 ^ (-1074 : ℤ) ≤ y.value - x.value := by
  obtain ⟨n, hn⟩ := value_eq_mul_least x
  obtain ⟨m, hm⟩ := value_eq_mul_least y
  have hpow : (0 : ℚ) < 2 ^ (-1074 : ℤ) := zpow_pos (by norm_num) _
  rw [hn, hm] at h ⊢
  have hlt : n < m := by exact_mod_cast lt_of_mul_lt_mul_right h hpow.le
  have hle : (n : ℚ) + 1 ≤ m := by exact_mod_cast hlt
  rw [← sub_mul]
  exact le_mul_of_one_le_left hpow.le (by linarith)

/-- The difference of two values is past half of the exact one, or infinite. -/
theorem sub_spec {x y : Finite} (h : y.value < x.value) :
    (∃ z, (Number.finite x).sub (.finite y) = .finite z ∧ (x.value - y.value) / 2 < z.value) ∨
      (Number.finite x).sub (.finite y) = .infinity false := by
  have hpos : 0 < x.value - y.value := by linarith
  have hsub : (Number.finite x).sub (.finite y) = nearest false (x.value - y.value) := by
    rw [Number.sub, Number.neg, Number.add, value_neg, ← sub_eq_add_neg, Number.ofRat,
      if_neg hpos.ne', abs_of_pos hpos, decide_eq_false (not_lt.mpr hpos.le)]
  rw [hsub]
  refine (lt_nearest false (least_le_sub h)).imp_left ?_
  rintro ⟨z, hz, hsign, hless⟩
  have hvalue : z.value = z.magnitude := by rw [value_eq_signed, hsign, signed, if_neg (by simp)]
  exact ⟨z, hz, hvalue ▸ hless⟩

theorem sub_spec_neg {x y : Finite} (h : x.value < y.value) :
    (∃ z, (Number.finite x).sub (.finite y) = .finite z ∧ z.value < (x.value - y.value) / 2) ∨
      (Number.finite x).sub (.finite y) = .infinity true := by
  have hneg : x.value - y.value < 0 := by linarith
  have hsub : (Number.finite x).sub (.finite y) = nearest true (y.value - x.value) := by
    rw [Number.sub, Number.neg, Number.add, value_neg, ← sub_eq_add_neg, Number.ofRat,
      if_neg hneg.ne, abs_of_neg hneg, decide_eq_true hneg, neg_sub]
  rw [hsub]
  refine (lt_nearest true (least_le_sub h)).imp_left ?_
  rintro ⟨z, hz, hsign, hless⟩
  have hvalue : z.value = -z.magnitude := by rw [value_eq_signed, hsign, signed, if_pos rfl]
  refine ⟨z, hz, ?_⟩
  rw [hvalue]
  linarith

/-- A number leaves no remainder by one exactly if it is an integer. -/
theorem mod_one_eq_zero_iff {a : Number} :
    (a.mod (.ofInt 1)).eq (.ofInt 0) = true ↔ ∃ n : ℤ, a.Is n := by
  have hone : (Number.ofInt 1).Is ((1 : ℤ) : ℚ) := is_ofInt (by norm_num)
  have hzero : (Number.ofInt 0).Is ((0 : ℤ) : ℚ) := is_ofInt (by norm_num)
  cases a with
  | finite x =>
    have hfloor := representable_floor ⟨x, rfl⟩
    have hdiv : ((Number.finite x).div (.ofInt 1)).Is x.value := by
      have hquot := is_div (is_finite x) hone (by norm_num) (by
        rw [Int.cast_one, div_one]
        exact ⟨x, rfl⟩)
      rwa [Int.cast_one, div_one] at hquot
    have hmul : (((Number.finite x).div (.ofInt 1)).floor.mul (.ofInt 1)).Is (⌊x.value⌋ : ℤ) := by
      have hprod := is_mul (is_floor hdiv hfloor) hone (by
        rw [Int.cast_one, mul_one]
        exact hfloor)
      rwa [Int.cast_one, mul_one] at hprod
    rcases (Int.floor_le x.value).eq_or_lt with heq | hlt
    · refine iff_of_true ?_ ⟨⌊x.value⌋, x, rfl, heq.symm⟩
      have hsub := is_sub (is_finite x) hmul (by
        rw [heq, sub_self]
        exact ⟨.zero false, value_zero false⟩)
      exact (eq_iff hsub hzero).mpr (by rw [heq, sub_self, Int.cast_zero])
    · refine iff_of_false (fun hmod => ?_) ?_
      · obtain ⟨y, hy, hvalue⟩ := hmul
        rw [Number.mod, hy] at hmod
        rw [← hvalue] at hlt
        rcases sub_spec hlt with ⟨z, hz, hpos⟩ | hinfinite
        · rw [hz] at hmod
          have hvalue := (eq_iff (is_finite z) hzero).mp hmod
          rw [Int.cast_zero] at hvalue
          linarith
        · obtain ⟨w, hw, -⟩ := hzero
          rw [hinfinite, hw] at hmod
          cases hmod
      · rintro ⟨n, y, hy, hvalue⟩
        cases hy
        rw [hvalue, Int.floor_intCast] at hlt
        exact lt_irrefl _ hlt
  | infinity s =>
    obtain ⟨w, hw, hvalue⟩ := hone
    obtain ⟨z, hz, -⟩ := hzero
    have hmantissa : w.mantissa ≠ 0 := by
      intro h
      rw [value_eq_zero.mpr h] at hvalue
      norm_num at hvalue
    refine iff_of_false (fun hmod => ?_) ?_
    · revert hmod
      rw [hw, hz]
      cases s <;> cases hsign : w.negative <;>
        simp [Number.mod, Number.div, Number.floor, Number.mul, hmantissa, hsign, Number.sub, Number.neg, Number.add,
          Number.eq]
    · rintro ⟨n, y, hy, -⟩
      cases hy
  | nan =>
    refine iff_of_false (fun hmod => ?_) ?_
    · cases hmod
    · rintro ⟨n, y, hy, -⟩
      cases hy

/-- No finite value is nearer to `q`. -/
def NearestTo (q : ℚ) (x : Finite) : Prop := ∀ y : Finite, |q - x.value| ≤ |q - y.value|

variable {q c : ℚ} {x : Finite}

/-- What is on one side of a value is on that side of all it is nearest to. -/
theorem NearestTo.lt_of_lt (h : NearestTo q x) (hc : Representable c) (hlt : x.value < c) :
    q < c := by
  obtain ⟨y, rfl⟩ := hc
  have hnear := h y
  by_contra hge
  rw [not_lt] at hge
  rw [abs_of_pos (by linarith), abs_of_nonneg (by linarith)] at hnear
  linarith

theorem NearestTo.gt_of_gt (h : NearestTo q x) (hc : Representable c) (hlt : c < x.value) :
    c < q := by
  obtain ⟨y, rfl⟩ := hc
  have hnear := h y
  by_contra hge
  rw [not_lt] at hge
  rw [abs_of_neg (by linarith), abs_of_nonpos (by linarith)] at hnear
  linarith

/-- Half of the last place of a mantissa that is not the least of its scale. -/
theorem nearestTo_of_le (hm : 2 ^ 52 < x.mantissa) (h : |q - x.value| ≤ unit x.exponent / 2) :
    NearestTo q x := by
  intro y
  by_contra hless
  rw [not_le] at hless
  have hu := unit_pos x.exponent
  have hgap : |x.value - y.value| < unit x.exponent := by
    calc |x.value - y.value| ≤ |x.value - q| + |q - y.value| := abs_sub_le _ _ _
      _ = |q - x.value| + |q - y.value| := by rw [abs_sub_comm]
      _ < unit x.exponent := by linarith
  obtain ⟨n, -, hx⟩ := value_eq_intCast x
  rcases le_or_gt x.exponent y.exponent with hcoarse | hfine
  · obtain ⟨d, hd⟩ := Nat.exists_eq_add_of_le hcoarse
    obtain ⟨k, -, hy⟩ := value_eq_intCast y
    have hmultiple : y.value = (k * 2 ^ d : ℤ) * unit x.exponent := by
      rw [hy, hd, unit, Nat.cast_add, show (x.exponent : ℤ) + d - 1074 = d + (x.exponent - 1074) by
        ring, zpow_add₀ (by norm_num), zpow_natCast, Int.cast_mul, Int.cast_pow, Int.cast_ofNat,
        mul_assoc]
    have hx' : x.value = n * unit x.exponent := hx
    have hone : |((n - k * 2 ^ d : ℤ) : ℚ)| < 1 := by
      rw [hx', hmultiple, ← sub_mul, abs_mul, abs_of_pos hu, mul_lt_iff_lt_one_left hu] at hgap
      rwa [Int.cast_sub]
    have hzero : n - k * 2 ^ d = 0 := Int.abs_lt_one_iff.mp (by exact_mod_cast hone)
    have heq : x.value = y.value := by
      rw [hx', hmultiple, show n = k * 2 ^ d by omega]
    rw [heq] at hless
    exact lt_irrefl _ hless
  · have hsmall : y.magnitude < 2 ^ 52 * unit x.exponent := by
      have hlt : (y.mantissa : ℚ) < 2 ^ 53 := by exact_mod_cast y.mantissa_lt
      calc y.magnitude < 2 ^ 53 * unit y.exponent := mul_lt_mul_of_pos_right hlt (unit_pos _)
        _ ≤ 2 ^ 52 * unit x.exponent := by
          rw [two_pow_mul_unit, two_pow_mul_unit]
          apply zpow_le_zpow_right₀ (by norm_num)
          push_cast
          omega
    have hlarge : (2 ^ 52 + 1) * unit x.exponent ≤ x.magnitude := by
      have hle : ((2 : ℚ) ^ 52 + 1) ≤ x.mantissa := by exact_mod_cast hm
      exact mul_le_mul_of_nonneg_right hle hu.le
    have htriangle := abs_sub_abs_le_abs_sub x.value y.value
    rw [abs_value, abs_value] at htriangle
    linarith

end Rounding

section Order

variable {a b c : Number}

theorem lt_irrefl (a : Number) : a.lt a = false := by
  rcases a with x | (_ | _) | _ <;> simp [Number.lt]

theorem lt_trans (hab : a.lt b = true) (hbc : b.lt c = true) : a.lt c = true := by
  rcases a with x | (_ | _) | _ <;> rcases b with y | (_ | _) | _ <;> rcases c with z | (_ | _) | _ <;>
    simp_all [Number.lt]
  exact hab.trans hbc

theorem le_trans (hab : a.le b = true) (hbc : b.le c = true) : a.le c = true := by
  rcases a with x | (_ | _) | _ <;> rcases b with y | (_ | _) | _ <;> rcases c with z | (_ | _) | _ <;>
    simp_all [Number.le]
  exact hab.trans hbc

theorem le_of_not_lt (ha : a ≠ .nan) (hb : b ≠ .nan) (h : a.lt b = false) : b.le a = true := by
  rcases a with x | (_ | _) | _ <;> rcases b with y | (_ | _) | _ <;> simp_all [Number.lt, Number.le]

theorem le_of_eq (h : a.eq b = true) : a.le b = true := by
  rcases a with x | (_ | _) | _ <;> rcases b with y | (_ | _) | _ <;>
    simp_all [Number.le, Number.eq]

theorem eq_symm (h : a.eq b = true) : b.eq a = true := by
  rcases a with x | (_ | _) | _ <;> rcases b with y | (_ | _) | _ <;> simp_all [Number.eq]

theorem eq_of_le_of_le (hab : a.le b = true) (hba : b.le a = true) : a.eq b = true := by
  rcases a with x | (_ | _) | _ <;> rcases b with y | (_ | _) | _ <;> simp_all [Number.le, Number.eq]
  exact le_antisymm hab hba

end Order

end Double
