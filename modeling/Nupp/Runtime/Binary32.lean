import Nupp.Lib.DoubleArith
import Nupp.Lib.Loop
import Nupp.Lib.Single
import Mathlib.Data.Nat.Bitwise

/-! The `binary32` family of `runtime/math`, and the membership test of `types/fixedwidth`.
Numbers are doubles; a bit pattern, an exponent and a whole significand are integers that a
double holds exactly. -/

namespace Nupp.math

open Double (Number)

section Patterns

def CANON : ℕ := 2143289344
def PINF : ℕ := 2139095040
def NINF : ℕ := 4286578688
def MAX : ℕ := 2139095039
def NMAX : ℕ := 4286578687
def SIGN : ℕ := 2147483648

def huge : Number := (Number.ofInt 1).div (.ofInt 0)

def half : Number := .ofRat false (1 / 2)

/-- Whether a bit pattern is one of the NaNs rather than a number. -/
def nanbits (bits : ℕ) : Bool := (bits &&& 2139095040) = 2139095040 && (bits &&& 8388607) ≠ 0

def decode32 (bits : ℕ) : Number :=
  let (sign, bits) := if SIGN ≤ bits then ((-1 : ℤ), bits - SIGN) else (1, bits)
  let exponent := (bits - bits % 8388608) / 8388608
  let significand := bits % 8388608
  if exponent = 255 then
    if significand = 0 then (Number.ofInt sign).mul huge
    else ((Number.ofInt 0).div (.ofInt 0)).abs
  else if exponent = 0 then
    ((Number.ofInt sign).mul (.ofInt significand)).mul (.exp2 (-149))
  else
    ((Number.ofInt sign).mul ((Number.ofInt significand).add (.ofInt 8388608))).mul
      (.exp2 ((exponent : ℤ) - 150))

end Patterns

section Encode

/-- The value and the count of the doublings that it has been through. -/
abbrev Scaled := Number × ℤ

def halveOnce (s : Scaled) : Option (Scaled ⊕ Scaled) :=
  if (Number.ofInt 2).le s.1 then some (.inl (s.1.div (.ofInt 2), s.2 + 1)) else some (.inr s)

def doubleOnce (s : Scaled) : Option (Scaled ⊕ Scaled) :=
  if s.1.lt (.ofInt 1) then some (.inl (s.1.mul (.ofInt 2), s.2 - 1)) else some (.inr s)

/-- The unbiased exponent. `turns` bounds the turns of the loop. -/
def normalize (turns : ℕ) (value : Number) : Option Scaled :=
  if (Number.ofInt 2).le value then Loop.loop halveOnce turns (value, 0)
  else Loop.loop doubleOnce turns (value, 0)

/-- The integer that a number is. -/
def wholeOf : Number → ℕ
  | .finite x => ⌊x.value⌋.toNat
  | _ => 0

def encodeScaled (sign : ℕ) (value : Number) (exponent : ℤ) : ℕ :=
  let biased := exponent + 127
  let (significand, biased) :=
    if biased ≤ 0 then (value.mul (.exp2 (exponent + 149)), 0)
    else (value.mul (.ofInt 8388608), biased.toNat)
  let whole := wholeOf (significand.sub (significand.mod (.ofInt 1)))
  let fraction := significand.sub (.ofInt whole)
  let whole := if half.lt fraction || fraction.eq half && whole % 2 = 1 then whole + 1 else whole
  if biased = 0 then sign + whole
  else
    let (whole, biased) := if whole = 16777216 then (8388608, biased + 1) else (whole, biased)
    if 255 ≤ biased then sign + PINF else sign + biased * 8388608 + (whole - 8388608)

def encode32 (turns : ℕ) (value : Number) : Option ℕ :=
  if !value.eq value then some CANON
  else
    let (sign, value) :=
      if value.lt (.ofInt 0) || value.eq (.ofInt 0) && ((Number.ofInt 1).div value).lt (.ofInt 0)
      then (SIGN, value.neg) else (0, value)
    if value.eq huge then some (sign + PINF)
    else if value.eq (.ofInt 0) then some sign
    else
      (normalize turns value).map fun (value, exponent) => encodeScaled sign value exponent

def putbits (bits : ℕ) : Number := decode32 (if nanbits bits then CANON else bits)

def bits32 (turns : ℕ) (value : Number) : Option ℕ := encode32 turns value

def round32 (turns : ℕ) (value : Number) : Option Number := (encode32 turns value).map decode32

end Encode

section DoubleDouble

/-- `1`, `-1` or `0` as a double-double is above, below or on a value. -/
def comparedd (hi lo value : Number) : ℤ :=
  let difference := hi.sub value
  if lo.neg.lt difference then 1 else if difference.lt lo.neg then -1 else 0

def nextup (value : Number) (bits : ℕ) : Number × ℕ :=
  if bits = PINF then (value, bits)
  else if bits = NINF then (putbits NMAX, NMAX)
  else if (bits &&& SIGN) ≠ 0 then
    if bits = SIGN then (putbits 1, 1) else (putbits (bits - 1), bits - 1)
  else (putbits (bits + 1), bits + 1)

def nextdown (value : Number) (bits : ℕ) : Number × ℕ :=
  if bits = NINF then (value, bits)
  else if bits = PINF then (putbits MAX, MAX)
  else if (bits &&& SIGN) ≠ 0 then (putbits (bits + 1), bits + 1)
  else if bits = 0 then (putbits 2147483649, 2147483649)
  else (putbits (bits - 1), bits - 1)

/-- The literal `3.4028235677973366e38`. -/
def overflowAt : Number := .ofRat false (34028235677973366 * 10 ^ 22)

def roundNear (hi lo value : Number) (bits : ℕ) : Number :=
  let side := comparedd hi lo value
  if side = 0 then value
  else
    let (other, otherbits) := if 0 < side then nextup value bits else nextdown value bits
    let toward := comparedd hi lo ((value.add other).mul half)
    let toward := if side < 0 then -toward else toward
    if 0 < toward || toward = 0 && (bits &&& 1) ≠ 0 then putbits otherbits else value

def rounddd (turns : ℕ) (hi lo : Number) : Option Number := do
  let value ← round32 turns hi
  let bits ← bits32 turns value
  if nanbits bits then some (putbits CANON)
  else if bits = PINF then some (if comparedd hi lo overflowAt < 0 then putbits MAX else value)
  else if bits = NINF then
    some (if 0 < comparedd hi lo overflowAt.neg then putbits NMAX else value)
  else some (roundNear hi lo value bits)

end DoubleDouble

section Literals

def exactFloat (value : Number) : Bool :=
  if !value.eq value || value.eq huge || value.eq huge.neg || value.eq (.ofInt 0) then true
  else
    let magnitude := value.abs
    if magnitude.lt (.exp2 (-126)) then
      let units := magnitude.div (.exp2 (-149))
      (Number.ofInt 1).le units && units.le (.ofInt 8388607) &&
        (units.mod (.ofInt 1)).eq (.ofInt 0)
    else
      let (significand, exponent) := magnitude.frexp
      if 128 < exponent then false
      else
        let units := significand.mul (.ofInt 16777216)
        (units.mod (.ofInt 1)).eq (.ofInt 0)

inductive Target
  | float
  | int32
  | uint32
  | int64
  | uint64
  | other

def isWhole (value : Number) : Bool := (value.mod (.ofInt 1)).eq (.ofInt 0)

/-- Whether a numeric literal is a member of the value refinement. -/
def literalFits (value : Number) : Target → Bool
  | .float => exactFloat value
  | .int32 => isWhole value && (Number.ofInt (-2147483648)).le value &&
      value.lt (.ofInt 2147483648)
  | .uint32 => isWhole value && (Number.ofInt 0).le value && value.lt (.ofInt 4294967296)
  | .int64 => isWhole value && (Number.ofInt (-9007199254740992)).le value &&
      value.le (.ofInt 9007199254740992)
  | .uint64 => isWhole value && (Number.ofInt 0).le value && value.le (.ofInt 9007199254740992)
  | .other => false

end Literals

end Nupp.math

/-! The patterns that `encode32` answers: the scaling loops, the rounding of the scaled value,
and the signs. -/

namespace Nupp.math

open Double (Number Finite Representable is_ofInt is_exp2 is_div is_mul is_sub is_mod_one)
open Nupp.Single (val val_block overflow limit Rounds)

section Normalize

/-- The value is scaled into the binade of one, and the count says by how much. -/
structure Normal (q : ℚ) (s : Scaled) : Prop where
  scaled : ∃ p, s.1.Is p ∧ 1 ≤ p ∧ p < 2 ∧ q = p * 2 ^ s.2
  lower : -1074 ≤ s.2
  upper : s.2 ≤ 1023

variable {q : ℚ}

theorem halve_total (hq : Representable q) (hlow : 1 ≤ q) {value : Number} (hvalue : value.Is q)
    {turns : ℕ} (hturns : 1100 < turns) :
    ∃ s, Loop.loop halveOnce turns (value, 0) = some s ∧ Normal q s := by
  have htwo : (Number.ofInt 2).Is ((2 : ℤ) : ℚ) := is_ofInt (by norm_num)
  have hless : q < 2 ^ (1024 : ℤ) := by
    obtain ⟨x, rfl⟩ := hq
    exact (le_abs_self _).trans_lt (Double.abs_value x ▸ Double.magnitude_lt x)
  suffices hstep : Loop.Advances halveOnce
      (fun s => 0 ≤ s.2 ∧ s.2 < 1024 ∧ ∃ p, s.1.Is p ∧ 1 ≤ p ∧ q = p * 2 ^ s.2)
      (fun s => (1024 - s.2).toNat) (Normal q) from
    Loop.loop_total hstep ⟨le_rfl, by norm_num, q, hvalue, hlow, by simp⟩ (by norm_num; omega)
  rintro ⟨v, e⟩ ⟨he, he', p, hp, hone, hscale⟩
  simp only at he he' hp hscale
  have hle : (Number.ofInt 2).le v = true ↔ (2 : ℚ) ≤ p := by
    have hiff := Double.le_iff htwo hp
    rwa [Int.cast_ofNat] at hiff
  by_cases hmore : (2 : ℚ) ≤ p
  · have hhalf := is_div hp htwo (by norm_num) (by
      rw [Int.cast_ofNat]
      exact Double.representable_half hp.representable hone)
    rw [Int.cast_ofNat] at hhalf
    have hnext : q = p / 2 * 2 ^ (e + 1) := by
      rw [hscale, zpow_add_one₀ (by norm_num)]
      ring
    have hbound : e + 1 < 1024 := by
      have hpow : (2 : ℚ) ^ (e + 1) ≤ q := by
        rw [hnext]
        exact le_mul_of_one_le_left (zpow_pos (by norm_num) _).le (by linarith)
      exact (zpow_lt_zpow_iff_right₀ (by norm_num)).mp (hpow.trans_lt hless)
    refine Or.inl ⟨_, by rw [halveOnce, if_pos (hle.mpr hmore)], ⟨by simp only; omega, hbound, _,
      hhalf, by linarith, hnext⟩, ?_⟩
    simp only
    omega
  · exact Or.inr ⟨_, by rw [halveOnce, if_neg (fun h => hmore (hle.mp h))],
      ⟨⟨p, hp, hone, not_le.mp hmore, hscale⟩, by simp only; omega, by simp only; omega⟩⟩

/-- The least positive magnitude. -/
theorem le_of_representable (hq : Representable q) (hpos : 0 < q) : (2 : ℚ) ^ (-1074 : ℤ) ≤ q := by
  obtain ⟨x, rfl⟩ := hq
  have hmantissa : 1 ≤ x.mantissa := by
    rcases Nat.eq_zero_or_pos x.mantissa with hzero | hpos'
    · exact absurd (Double.value_eq_zero.mpr hzero) hpos.ne'
    · exact hpos'
  have hm : (1 : ℚ) ≤ x.mantissa := by exact_mod_cast hmantissa
  calc (2 : ℚ) ^ (-1074 : ℤ) ≤ Double.unit x.exponent :=
        zpow_le_zpow_right₀ (by norm_num) (by omega)
    _ ≤ x.mantissa * Double.unit x.exponent := le_mul_of_one_le_left (Double.unit_pos _).le hm
    _ = x.magnitude := rfl
    _ = x.value := by rw [← Double.abs_value, abs_of_pos hpos]

theorem double_total (hq : Representable q) (hpos : 0 < q) (hhigh : q < 2) {value : Number}
    (hvalue : value.Is q) {turns : ℕ} (hturns : 1100 < turns) :
    ∃ s, Loop.loop doubleOnce turns (value, 0) = some s ∧ Normal q s := by
  have hone : (Number.ofInt 1).Is ((1 : ℤ) : ℚ) := is_ofInt (by norm_num)
  have htwo : (Number.ofInt 2).Is ((2 : ℤ) : ℚ) := is_ofInt (by norm_num)
  have hleast := le_of_representable hq hpos
  suffices hstep : Loop.Advances doubleOnce
      (fun s => s.2 ≤ 0 ∧ -1075 < s.2 ∧ ∃ p, s.1.Is p ∧ 0 < p ∧ p < 2 ∧ q = p * 2 ^ s.2)
      (fun s => (1075 + s.2).toNat) (Normal q) from
    Loop.loop_total hstep ⟨le_rfl, by norm_num, q, hvalue, hpos, hhigh, by simp⟩
      (by norm_num; omega)
  rintro ⟨v, e⟩ ⟨he, he', p, hp, hppos, hptwo, hscale⟩
  simp only at he he' hp hscale
  have hlt : v.lt (.ofInt 1) = true ↔ p < 1 := by
    have hiff := Double.lt_iff hp hone
    rwa [Int.cast_one] at hiff
  by_cases hmore : p < 1
  · have htwice := is_mul hp htwo (by
      rw [Int.cast_ofNat]
      exact Double.representable_twice hp.representable hppos.le hmore)
    rw [Int.cast_ofNat] at htwice
    have hnext : q = p * 2 * 2 ^ (e - 1) := by
      rw [hscale, zpow_sub_one₀ (by norm_num)]
      ring
    have hbound : -1075 < e - 1 := by
      have hpow : (2 : ℚ) ^ (-1074 : ℤ) < 2 ^ (e : ℤ) := by
        calc (2 : ℚ) ^ (-1074 : ℤ) ≤ q := hleast
          _ = p * 2 ^ e := hscale
          _ < 2 ^ e := mul_lt_of_lt_one_left (zpow_pos (by norm_num) _) hmore
      have hexp := (zpow_lt_zpow_iff_right₀ (by norm_num)).mp hpow
      omega
    refine Or.inl ⟨_, by rw [doubleOnce, if_pos (hlt.mpr hmore)], ⟨by simp only; omega, hbound, _,
      htwice, by linarith, by linarith, hnext⟩, ?_⟩
    simp only
    omega
  · exact Or.inr ⟨_, by rw [doubleOnce, if_neg (fun h => hmore (hlt.mp h))],
      ⟨⟨p, hp, not_lt.mp hmore, hptwo, hscale⟩, by simp only; omega, by simp only; omega⟩⟩

theorem normalize_total (hq : Representable q) (hpos : 0 < q) {value : Number}
    (hvalue : value.Is q) {turns : ℕ} (hturns : 1100 < turns) :
    ∃ s, normalize turns value = some s ∧ Normal q s := by
  have htwo : (Number.ofInt 2).Is ((2 : ℤ) : ℚ) := is_ofInt (by norm_num)
  have hle : (Number.ofInt 2).le value = true ↔ (2 : ℚ) ≤ q := by
    have hiff := Double.le_iff htwo hvalue
    rwa [Int.cast_ofNat] at hiff
  unfold normalize
  split
  · next hlarge => exact halve_total hq (by linarith [hle.mp hlarge]) hvalue hturns
  · next hsmall =>
    exact double_total hq hpos (not_le.mp fun h => hsmall (hle.mpr h)) hvalue hturns

end Normalize

section Scaled

variable {q σ : ℚ}

/-- Past the half, or on it with an odd number below. -/
def RoundsUp (σ : ℚ) : Prop := 1 / 2 < Int.fract σ ∨ (Int.fract σ = 1 / 2 ∧ ⌊σ⌋.toNat % 2 = 1)

instance (σ : ℚ) : Decidable (RoundsUp σ) := inferInstanceAs (Decidable (_ ∨ _))

theorem floor_toNat (hpos : 0 ≤ σ) : ((⌊σ⌋.toNat : ℕ) : ℚ) = σ - Int.fract σ := by
  have hcast : ((⌊σ⌋.toNat : ℕ) : ℤ) = ⌊σ⌋ := Int.toNat_of_nonneg (Int.floor_nonneg.mpr hpos)
  rw [← Int.cast_natCast, hcast]
  exact (Int.self_sub_fract σ).symm

/-- The rounding of a whole number of steps of one block. -/
theorem rounds_scaled {j : ℕ} (hpos : 0 ≤ σ) (hless : σ < 2 ^ 24) (hblock : j = 0 ∨ 2 ^ 23 ≤ σ) :
    Rounds (σ * 2 ^ ((j : ℤ) - 149))
      (min (j * 2 ^ 23 + (if RoundsUp σ then ⌊σ⌋.toNat + 1 else ⌊σ⌋.toNat)) limit) := by
  have hwhole := floor_toNat hpos
  have hfract := Int.fract_nonneg σ
  have hfract' := Int.fract_lt_one σ
  have hk : ⌊σ⌋.toNat < 2 ^ 24 := by
    have hlt : ((⌊σ⌋.toNat : ℕ) : ℚ) < ((2 ^ 24 : ℕ) : ℚ) := by
      push_cast
      linarith
    exact_mod_cast hlt
  have hk' : j = 0 ∨ 2 ^ 23 ≤ ⌊σ⌋.toNat := hblock.imp_right fun hge => by
    have hlt : ((2 ^ 23 : ℕ) : ℚ) < ((⌊σ⌋.toNat + 1 : ℕ) : ℚ) := by
      push_cast
      linarith
    have hnat := Nat.cast_lt.mp hlt
    omega
  have hstep : (0 : ℚ) < 2 ^ ((j : ℤ) - 149) := zpow_pos (by norm_num) _
  have hlow := val_block hk.le hk'
  have hhigh := val_block (j := j) (k := ⌊σ⌋.toNat + 1) hk (hk'.imp_right fun h => by omega)
  rw [← Nat.add_assoc, Nat.cast_succ] at hhigh
  rw [hwhole] at hlow hhigh
  have hbelow : σ * 2 ^ ((j : ℤ) - 149) - val (j * 2 ^ 23 + ⌊σ⌋.toNat) =
      Int.fract σ * 2 ^ ((j : ℤ) - 149) := by
    rw [hlow]
    ring
  have habove : val (j * 2 ^ 23 + ⌊σ⌋.toNat + 1) - σ * 2 ^ ((j : ℤ) - 149) =
      (1 - Int.fract σ) * 2 ^ ((j : ℤ) - 149) := by
    rw [hhigh]
    ring
  have hparity : (j * 2 ^ 23 + ⌊σ⌋.toNat) % 2 = ⌊σ⌋.toNat % 2 := by omega
  have hrounds := Nupp.Single.rounds_step (q := σ * 2 ^ ((j : ℤ) - 149))
    (p := j * 2 ^ 23 + ⌊σ⌋.toNat) (u := RoundsUp σ) ?_ ?_ ?_
  · by_cases hup : RoundsUp σ
    · simp only [if_pos hup, ← Nat.add_assoc] at hrounds ⊢
      exact hrounds
    · simp only [if_neg hup] at hrounds ⊢
      exact hrounds
  · exact sub_nonneg.mp (hbelow ▸ mul_nonneg hfract hstep.le)
  · exact sub_pos.mp (habove ▸ mul_pos (by linarith) hstep)
  · rw [hbelow, habove, hparity, mul_lt_mul_iff_of_pos_right hstep, mul_left_inj' hstep.ne',
      RoundsUp]
    constructor
    · rintro (hmore | ⟨htie, hodd⟩)
      · exact Or.inl (by linarith)
      · exact Or.inr ⟨by linarith, hodd⟩
    · rintro (hmore | ⟨htie, hodd⟩)
      · exact Or.inl (by linarith)
      · exact Or.inr ⟨by linarith, hodd⟩

/-- What the source takes the whole part, the fraction and the direction to be. -/
theorem whole_scaled {s : Number} (hs : s.Is σ) (hpos : 0 ≤ σ) (hless : σ < 2 ^ 24) :
    wholeOf (s.sub (s.mod (.ofInt 1))) = ⌊σ⌋.toNat ∧
      ((half.lt (s.sub (.ofInt ⌊σ⌋.toNat)) ||
        (s.sub (.ofInt ⌊σ⌋.toNat)).eq half && ⌊σ⌋.toNat % 2 = 1) = true ↔ RoundsUp σ) := by
  have hfloor : ⌊σ⌋.toNat < 2 ^ 24 := by
    have hlt : ⌊σ⌋ < 2 ^ 24 := Int.floor_lt.mpr (by exact_mod_cast hless)
    have hnonneg := Int.floor_nonneg.mpr hpos
    omega
  have hcast := floor_toNat hpos
  have hint : (Number.ofInt ⌊σ⌋.toNat).Is (((⌊σ⌋.toNat : ℕ) : ℤ) : ℚ) := is_ofInt (by omega)
  have hfract := Double.representable_fract hs.representable hpos
  have hmod := is_mod_one hs hpos (by linarith)
  have hwhole := is_sub hs hmod (by
    rw [← hcast, ← Int.cast_natCast]
    exact hint.representable)
  have hrest := is_sub hs hint (by
    rw [Int.cast_natCast, hcast, sub_sub_cancel]
    exact hfract)
  rw [Int.cast_natCast, hcast, sub_sub_cancel] at hrest
  have hhalf : half.Is (1 / 2) := by
    have hexp := Double.representable_exp2 (e := -1) (by norm_num) (by norm_num)
    rw [zpow_neg_one, inv_eq_one_div] at hexp
    exact Double.is_ofRat false hexp
  constructor
  · obtain ⟨x, hx, hvalue⟩ := hwhole
    rw [hx, wholeOf, hvalue, Int.self_sub_fract, Int.floor_intCast]
  · rw [Bool.or_eq_true, Bool.and_eq_true, Double.lt_iff hhalf hrest, Double.eq_iff hrest hhalf,
      decide_eq_true_iff, RoundsUp]

/-- The fields of a normal pattern, with the carry out of the significand. -/
theorem fields_eq (sign : ℕ) {j w : ℕ} (hlow : 2 ^ 23 ≤ w) (hhigh : w ≤ 2 ^ 24) :
    (if 255 ≤ (if w = 16777216 then (8388608, j + 1 + 1) else (w, j + 1)).2 then sign + PINF
      else sign + (if w = 16777216 then (8388608, j + 1 + 1) else (w, j + 1)).2 * 8388608 +
        ((if w = 16777216 then (8388608, j + 1 + 1) else (w, j + 1)).1 - 8388608)) =
      sign + min (j * 2 ^ 23 + w) limit := by
  unfold PINF limit
  split_ifs <;> simp only at * <;> omega

/-- The rounding and the fields of the pattern. -/
theorem encodeScaled_rounds {value : Number} {e : ℤ} (hvalue : value.Is q) (hlow : 1 ≤ q)
    (hhigh : q < 2) (he : -1074 ≤ e) (he' : e ≤ 1023) (sign : ℕ) :
    ∃ p, encodeScaled sign value e = sign + p ∧ Rounds (q * 2 ^ e) p := by
  by_cases hsub : e + 127 ≤ 0
  · have hsig := is_mul hvalue (is_exp2 (e := e + 149) (by omega) (by omega))
      (Double.representable_scaled hvalue.representable hlow hhigh (by omega) (by omega))
    have hscale : q * 2 ^ e = q * 2 ^ (e + 149) * 2 ^ (((0 : ℕ) : ℤ) - 149) := by
      rw [mul_assoc, ← zpow_add₀ (by norm_num)]
      congr 2
      push_cast
      ring
    have hpow : (2 : ℚ) ^ (e + 149) ≤ 2 ^ (22 : ℤ) := zpow_le_zpow_right₀ (by norm_num) (by omega)
    have hpow' : (0 : ℚ) < 2 ^ (e + 149) := zpow_pos (by norm_num) _
    have hless : q * 2 ^ (e + 149) < 2 ^ 23 := by
      calc q * 2 ^ (e + 149) < 2 * 2 ^ (e + 149) := mul_lt_mul_of_pos_right hhigh hpow'
        _ ≤ 2 * 2 ^ (22 : ℤ) := mul_le_mul_of_nonneg_left hpow (by norm_num)
        _ = 2 ^ 23 := by norm_num
    have hpos : 0 ≤ q * 2 ^ (e + 149) := mul_nonneg (by linarith) hpow'.le
    obtain ⟨hwhole, hup⟩ := whole_scaled hsig hpos (by linarith)
    have hrounds := rounds_scaled (j := 0) hpos (by linarith) (Or.inl rfl)
    rw [← hscale] at hrounds
    refine ⟨_, ?_, hrounds⟩
    have hfloor : ⌊q * 2 ^ (e + 149)⌋.toNat < 2 ^ 23 := by
      have hlt : ⌊q * 2 ^ (e + 149)⌋ < 2 ^ 23 := Int.floor_lt.mpr (by exact_mod_cast hless)
      omega
    have hlimit : (if RoundsUp (q * 2 ^ (e + 149)) then ⌊q * 2 ^ (e + 149)⌋.toNat + 1
        else ⌊q * 2 ^ (e + 149)⌋.toNat) ≤ limit := by
      unfold limit
      split <;> omega
    simp only [encodeScaled, if_pos hsub, hwhole, hup, if_true]
    rw [Nat.zero_mul, Nat.zero_add, Nat.min_eq_left hlimit]
  · have hsig := is_mul hvalue (is_ofInt (n := 8388608) (by norm_num)) (by
      have hrep := Double.representable_scaled hvalue.representable hlow hhigh (t := 23)
        (by norm_num) (by norm_num)
      norm_num at hrep ⊢
      exact hrep)
    have height : ((8388608 : ℤ) : ℚ) = 2 ^ 23 := by norm_num
    rw [height] at hsig
    obtain ⟨j, hj⟩ : ∃ j : ℕ, e + 127 = (j : ℤ) + 1 := ⟨(e + 126).toNat, by omega⟩
    have hscale : q * 2 ^ e = q * 2 ^ 23 * 2 ^ ((j : ℤ) - 149) := by
      have hexp : e = 23 + ((j : ℤ) - 149) := by omega
      rw [hexp, zpow_add₀ (by norm_num), ← mul_assoc]
      norm_num
    have hless : q * 2 ^ 23 < 2 ^ 24 := by linarith
    have hmore : 2 ^ 23 ≤ q * 2 ^ 23 := by linarith
    obtain ⟨hwhole, hup⟩ := whole_scaled hsig (by linarith) hless
    have hrounds := rounds_scaled (j := j) (by linarith) hless (Or.inr hmore)
    rw [← hscale] at hrounds
    refine ⟨_, ?_, hrounds⟩
    have hfloor : ⌊q * 2 ^ 23⌋.toNat < 2 ^ 24 := by
      have hlt : ⌊q * 2 ^ 23⌋ < 2 ^ 24 := Int.floor_lt.mpr (by exact_mod_cast hless)
      omega
    have hfloor' : 2 ^ 23 ≤ ⌊q * 2 ^ 23⌋.toNat := by
      have hge : 2 ^ 23 ≤ ⌊q * 2 ^ 23⌋ := Int.le_floor.mpr (by exact_mod_cast hmore)
      omega
    have hbiased : (e + 127).toNat = j + 1 := by omega
    simp only [encodeScaled, if_neg hsub, hwhole, hup, hbiased]
    rw [if_neg (by omega : ¬(j + 1 = 0))]
    exact fields_eq sign (by split <;> omega) (by split <;> omega)

end Scaled

section Encode

/-- The sign of a pattern. -/
def signBits (negative : Bool) : ℕ := if negative then SIGN else 0

theorem huge_eq : huge = .infinity false := by decide +kernel

theorem ofInt_zero : Number.ofInt 0 = .finite (.zero false) := rfl

/-- The sign that the source reads off, of a zero from the infinity it divides into. -/
theorem sign_test (x : Finite) :
    ((Number.finite x).lt (.ofInt 0) || (Number.finite x).eq (.ofInt 0) &&
      ((Number.ofInt 1).div (.finite x)).lt (.ofInt 0)) = x.negative := by
  have hzero := Double.value_zero false
  have hone : Number.ofInt 1 = .finite ⟨false, 2 ^ 52, 1022, by norm_num, by norm_num,
    .inr le_rfl⟩ := by decide +kernel
  by_cases hx : x.mantissa = 0
  · have hvalue : x.value = 0 := Double.value_eq_zero.mpr hx
    rw [hone, ofInt_zero]
    simp [Number.lt, Number.eq, Number.div, hx, hvalue, hzero]
  · have hvalue : x.value ≠ 0 := fun h => hx (Double.value_eq_zero.mp h)
    have hmag : 0 < x.magnitude := by
      rw [← Double.abs_value]
      exact abs_pos.mpr hvalue
    rw [ofInt_zero]
    cases hsign : x.negative with
    | true =>
      have hneg : x.value < 0 := by
        rw [Finite.value, hsign, if_pos rfl]
        linarith
      simp [Number.lt, hzero, hneg]
    | false =>
      have hpos : 0 < x.value := by
        rw [Finite.value, hsign, if_neg (by simp)]
        exact hmag
      simp [Number.lt, Number.eq, hzero, hpos.le, hvalue]

theorem encode32_finite (x : Finite) {turns : ℕ} (hturns : 1100 < turns) :
    ∃ p, encode32 turns (.finite x) = some (signBits x.negative + p) ∧ Rounds x.magnitude p := by
  have hself : (Number.finite x).eq (.finite x) = true := decide_eq_true rfl
  have hmirror : (if x.negative then (SIGN, (Number.finite x).neg) else (0, .finite x)) =
      (signBits x.negative, Number.finite { x with negative := false }) := by
    cases hsign : x.negative with
    | true => simp [signBits, Number.neg, Finite.neg, hsign]
    | false =>
      obtain ⟨negative, m, e, hm, he, hnormal⟩ := x
      simp only at hsign
      subst hsign
      rfl
  have hvalue : (Number.finite { x with negative := false }).Is x.magnitude := ⟨_, rfl, rfl⟩
  have hzero : (Number.ofInt 0).Is 0 := ⟨_, rfl, Double.value_zero false⟩
  simp only [encode32, hself, Bool.not_true, Bool.false_eq_true, if_false, sign_test, hmirror,
    huge_eq]
  rw [if_neg (by simp [Number.eq])]
  by_cases hx : x.magnitude = 0
  · rw [if_pos ((Double.eq_iff hvalue hzero).mpr hx), hx, ← Nupp.Single.val_zero]
    exact ⟨0, rfl, Nupp.Single.rounds_val (by norm_num [limit])⟩
  · have hpos : 0 < x.magnitude := lt_of_le_of_ne (Double.magnitude_nonneg x) (Ne.symm hx)
    rw [if_neg fun h => hx ((Double.eq_iff hvalue hzero).mp h)]
    obtain ⟨⟨value, e⟩, hrun, ⟨q, hq, hlow, hhigh, hscale⟩, he, he'⟩ :=
      normalize_total hvalue.representable hpos hvalue hturns
    obtain ⟨p, hp, hrounds⟩ := encodeScaled_rounds hq hlow hhigh he he' (signBits x.negative)
    rw [hrun, hscale]
    exact ⟨p, congrArg some hp, hrounds⟩

theorem encode32_infinity (negative : Bool) (turns : ℕ) :
    encode32 turns (.infinity negative) = some (signBits negative + PINF) := by
  cases negative with
  | true => simp [encode32, Number.eq, Number.lt, Number.neg, ofInt_zero, huge_eq, signBits]
  | false =>
    simp [encode32, Number.eq, Number.lt, ofInt_zero, huge_eq, signBits, Number.div]

theorem encode32_nan (turns : ℕ) : encode32 turns .nan = some CANON := rfl

end Encode

end Nupp.math

/-! What a pattern decodes to, and that it is the pattern which its value encodes as: the
rounding to binary32 keeps what it answers and the order of its arguments. -/

namespace Nupp.math

open Double (Number Finite Representable signed)
open Nupp.Single (val limit Rounds)

section Fields

/-- A run of bits under a mask. -/
theorem and_block (n a b : ℕ) : n &&& (2 ^ a - 1) * 2 ^ b = n / 2 ^ b % 2 ^ a * 2 ^ b := by
  apply Nat.eq_of_testBit_eq
  intro i
  rw [Nat.testBit_and, Nat.testBit_mul_two_pow, Nat.testBit_mul_two_pow,
    Nat.testBit_two_pow_sub_one, Nat.testBit_mod_two_pow, Nat.testBit_div_two_pow]
  by_cases hle : b ≤ i
  · rw [Nat.sub_add_cancel hle]
    simp [hle, Bool.and_comm]
  · simp [hle]

/-- A pattern of 32 bits is a sign and the pattern of a magnitude. -/
theorem exists_sign {bits : ℕ} (h : bits < 2 ^ 32) :
    ∃ s p, bits = signBits s + p ∧ p < 2 ^ 31 := by
  by_cases hsign : SIGN ≤ bits
  · exact ⟨true, bits - SIGN, by simp [signBits]; omega, by simp only [SIGN] at *; omega⟩
  · exact ⟨false, bits, by simp [signBits], by simp only [SIGN] at *; omega⟩

theorem nanbits_iff (s : Bool) {p : ℕ} (hp : p < 2 ^ 31) :
    nanbits (signBits s + p) = true ↔ limit < p := by
  have hexp := and_block (signBits s + p) 8 23
  have hsig := Nat.and_two_pow_sub_one_eq_mod (signBits s + p) 23
  norm_num at hexp hsig
  rw [nanbits, Bool.and_eq_true, decide_eq_true_iff, decide_eq_true_iff, hexp, hsig]
  simp only [signBits, SIGN, limit] at *
  split <;> omega

theorem and_sign_iff (s : Bool) {p : ℕ} (hp : p < 2 ^ 31) :
    ((signBits s + p) &&& SIGN) ≠ 0 ↔ s = true := by
  have hsign := and_block (signBits s + p) 1 31
  norm_num at hsign
  rw [SIGN, hsign]
  cases s with
  | true => simp [signBits, SIGN]; omega
  | false => simp [signBits]; omega

end Fields

section Decode

theorem ofInt_sign (s : Bool) : (Number.ofInt (if s then -1 else 1)).Has s 1 := by
  cases s with
  | true => exact Double.has_ofRat true zero_le_one (Double.representable_exp2 (e := 0) (by norm_num)
      (by norm_num) |>.imp fun x hx => by simpa using hx)
  | false => exact Double.has_ofRat false zero_le_one (Double.representable_exp2 (e := 0) (by norm_num)
      (by norm_num) |>.imp fun x hx => by simpa using hx)

/-- The sign and the fields that the source splits a pattern into. -/
theorem decode32_eq (s : Bool) {p : ℕ} (hp : p < 2 ^ 31) :
    decode32 (signBits s + p) =
      if p / 2 ^ 23 = 255 then
        if p % 2 ^ 23 = 0 then (Number.ofInt (if s then -1 else 1)).mul huge
        else ((Number.ofInt 0).div (.ofInt 0)).abs
      else if p / 2 ^ 23 = 0 then
        ((Number.ofInt (if s then -1 else 1)).mul (.ofInt (p % 2 ^ 23 : ℕ))).mul (.exp2 (-149))
      else
        ((Number.ofInt (if s then -1 else 1)).mul
          ((Number.ofInt (p % 2 ^ 23 : ℕ)).add (.ofInt 8388608))).mul
          (.exp2 (((p / 2 ^ 23 : ℕ) : ℤ) - 150)) := by
  have hsplit : (if SIGN ≤ signBits s + p then ((-1 : ℤ), signBits s + p - SIGN)
      else (1, signBits s + p)) = (if s then -1 else 1, p) := by
    cases s with
    | true => simp [signBits]
    | false =>
      rw [if_neg (by simp only [signBits, SIGN, Bool.false_eq_true, if_false]; omega)]
      simp [signBits]
  have hexp : (p - p % 8388608) / 8388608 = p / 8388608 := by omega
  norm_num [decode32, hsplit, hexp]

/-- A whole number of steps under a sign. -/
theorem has_scaled (s : Bool) {a : Number} {n : ℕ} (hn : n < 2 ^ 53) (ha : a.Has false n) {e : ℤ}
    (hlow : -1074 ≤ e) (hhigh : e ≤ 971) :
    (((Number.ofInt (if s then -1 else 1)).mul a).mul (.exp2 e)).Has s (n * 2 ^ e) := by
  have hint := Double.representable_intCast (n := n) (by omega)
  have hrep := Double.representable_intCast_mul (n := n) (by omega) hlow hhigh
  rw [Int.cast_natCast] at hint hrep
  have hprod := Double.has_mul (ofInt_sign s) ha (by rwa [one_mul])
  rw [Bool.xor_false, one_mul] at hprod
  have hscaled := Double.has_mul hprod (Double.has_exp2 hlow hhigh) hrep
  rwa [Bool.xor_false] at hscaled

theorem decode32_finite (s : Bool) {p : ℕ} (hp : p < limit) :
    (decode32 (signBits s + p)).Has s (val p) := by
  have hsig : p % 2 ^ 23 < 2 ^ 23 := Nat.mod_lt _ (by norm_num)
  have hexp : p / 2 ^ 23 < 255 := Nat.div_lt_of_lt_mul (by rw [Nat.mul_comm]; exact hp)
  rw [decode32_eq s (by unfold limit at hp; omega), if_neg hexp.ne, val]
  have hfield := Double.has_ofInt (n := p % 2 ^ 23) (by omega)
  by_cases hsub : p / 2 ^ 23 = 0
  · rw [if_pos hsub, if_pos hsub]
    exact has_scaled s (by omega) hfield (by norm_num) (by norm_num)
  · rw [if_neg hsub, if_neg hsub]
    have hheight := Double.has_ofInt (n := 2 ^ 23) (by norm_num)
    have hsum := Double.has_add hfield hheight (by
      have hrep := Double.representable_intCast (n := ((p % 2 ^ 23 + 2 ^ 23 : ℕ) : ℤ)) (by omega)
      rwa [Int.cast_natCast, Nat.cast_add] at hrep)
    rw [← Nat.cast_add] at hsum
    have hscaled := has_scaled s (by omega) hsum (e := ((p / 2 ^ 23 : ℕ) : ℤ) - 150) (by omega)
      (by omega)
    norm_num at hscaled ⊢
    exact hscaled

theorem decode32_limit (s : Bool) : decode32 (signBits s + limit) = .infinity s := by
  cases s with
  | true => decide +kernel
  | false => decide +kernel

theorem decode32_nan (s : Bool) {p : ℕ} (hlow : limit < p) (hp : p < 2 ^ 31) :
    decode32 (signBits s + p) = .nan := by
  unfold limit at hlow
  have hexp : p / 2 ^ 23 = 255 := by omega
  have hsig : p % 2 ^ 23 ≠ 0 := by omega
  rw [decode32_eq s hp, if_pos hexp, if_neg hsig]
  rfl

end Decode

section Round

variable {turns : ℕ}

/-- A pattern that is no NaN is the pattern of what it decodes to. -/
theorem encode32_decode32 (hturns : 1100 < turns) (s : Bool) {p : ℕ} (hp : p ≤ limit) :
    encode32 turns (decode32 (signBits s + p)) = some (signBits s + p) := by
  rcases hp.lt_or_eq with hless | rfl
  · obtain ⟨y, hy, rfl, hmag⟩ := decode32_finite s hless
    obtain ⟨r, hr, hrounds⟩ := encode32_finite y hturns
    rw [hmag] at hrounds
    rw [hy, hr, hrounds.unique (Nupp.Single.rounds_val hless)]
  · rw [decode32_limit, encode32_infinity]
    rfl

/-- Every number that is no NaN encodes as a pattern that is none. -/
theorem encode32_pattern (hturns : 1100 < turns) {n : Number} (hn : n ≠ .nan) :
    ∃ s p, encode32 turns n = some (signBits s + p) ∧ p ≤ limit := by
  cases n with
  | finite x =>
    obtain ⟨p, hp, hrounds⟩ := encode32_finite x hturns
    exact ⟨_, p, hp, hrounds.le_limit⟩
  | infinity s => exact ⟨s, limit, encode32_infinity s turns, le_rfl⟩
  | nan => exact absurd rfl hn

theorem round32_idempotent (hturns : 1100 < turns) (n : Number) :
    ∃ r, round32 turns n = some r ∧ round32 turns r = some r := by
  by_cases hn : n = .nan
  · subst hn
    exact ⟨.nan, by rw [round32, encode32_nan]; rfl, by rw [round32, encode32_nan]; rfl⟩
  · obtain ⟨s, p, hencode, hp⟩ := encode32_pattern hturns hn
    refine ⟨decode32 (signBits s + p), by rw [round32, hencode]; rfl, ?_⟩
    rw [round32, encode32_decode32 hturns s hp]
    rfl

theorem signed_bounds (s : Bool) {p : ℕ} (hp : p ≤ limit) :
    -val limit ≤ signed s (val p) ∧ signed s (val p) ≤ val limit := by
  have hnonneg := Nupp.Single.val_nonneg p
  have hle : val p ≤ val limit := Nupp.Single.val_strictMono.monotone hp
  cases s with
  | true =>
    have heq : signed true (val p) = -val p := rfl
    exact ⟨by linarith, by linarith⟩
  | false =>
    have heq : signed false (val p) = val p := rfl
    exact ⟨by linarith, by linarith⟩

theorem signed_bounds_lt (s : Bool) {p : ℕ} (hp : p < limit) :
    -val limit < signed s (val p) ∧ signed s (val p) < val limit := by
  have hle : p ≤ limit - 1 := by omega
  have hbelow := Nupp.Single.val_strictMono (show limit - 1 < limit by norm_num [limit])
  have hmono : val p ≤ val (limit - 1) := Nupp.Single.val_strictMono.monotone hle
  have hnonneg := Nupp.Single.val_nonneg p
  cases s with
  | true =>
    have heq : signed true (val p) = -val p := rfl
    exact ⟨by linarith, by linarith⟩
  | false =>
    have heq : signed false (val p) = val p := rfl
    exact ⟨by linarith, by linarith⟩

/-- The order of what two patterns decode to. -/
theorem decode32_le {s t : Bool} {p r : ℕ} (hp : p ≤ limit) (hr : r ≤ limit)
    (h : signed s (val p) ≤ signed t (val r)) :
    (decode32 (signBits s + p)).le (decode32 (signBits t + r)) = true := by
  have hdown : signed true (val limit) = -val limit := rfl
  have hup : signed false (val limit) = val limit := rfl
  rcases hp.lt_or_eq with hless | rfl
  · have hfinite := (decode32_finite s hless).is
    rcases hr.lt_or_eq with hless' | rfl
    · exact (Double.le_iff hfinite (decode32_finite t hless').is).mpr h
    · obtain ⟨x, hx, -⟩ := hfinite
      rw [hx, decode32_limit]
      cases t with
      | true => linarith [(signed_bounds_lt s hless).1]
      | false => rfl
  · rcases hr.lt_or_eq with hless' | rfl
    · obtain ⟨y, hy, -⟩ := (decode32_finite t hless').is
      rw [hy, decode32_limit]
      cases s with
      | true => rfl
      | false => linarith [(signed_bounds_lt t hless').2]
    · rw [decode32_limit, decode32_limit]
      cases s with
      | true => rfl
      | false =>
        cases t with
        | true =>
          have hzero := signed_bounds_lt false (p := 0) (by norm_num [limit])
          linarith
        | false => rfl

/-- The rounded magnitudes are in the order of the values. -/
theorem signed_rounds {x y : Finite} {p r : ℕ} (hp : Rounds x.magnitude p)
    (hr : Rounds y.magnitude r) (h : x.value ≤ y.value) :
    signed x.negative (val p) ≤ signed y.negative (val r) := by
  have hx := Double.magnitude_nonneg x
  have hy := Double.magnitude_nonneg y
  rw [Double.value_eq_signed, Double.value_eq_signed] at h
  have hmono := Nupp.Single.val_strictMono.monotone
  cases hs : x.negative with
  | true =>
    cases ht : y.negative with
    | true =>
      simp only [hs, ht, signed, if_true, neg_le_neg_iff] at h ⊢
      exact hmono (hr.mono hp h)
    | false =>
      exact (neg_nonpos.mpr (Nupp.Single.val_nonneg p)).trans (Nupp.Single.val_nonneg r)
  | false =>
    cases ht : y.negative with
    | true =>
      simp only [hs, ht, signed, if_true, Bool.false_eq_true, if_false] at h ⊢
      have hx0 : x.magnitude = 0 := by linarith
      have hy0 : y.magnitude = 0 := by linarith
      have hzero := Nupp.Single.rounds_val (p := 0) (by norm_num [limit])
      rw [Nupp.Single.val_zero] at hzero
      rw [hx0] at hp
      rw [hy0] at hr
      rw [hp.unique hzero, hr.unique hzero, Nupp.Single.val_zero, neg_zero]
    | false =>
      simp only [hs, ht, signed, Bool.false_eq_true, if_false] at h ⊢
      exact hmono (hp.mono hr h)

/-- Two patterns whose values are in order round the two numbers in order. -/
theorem round32_le {m n : Number} {s t : Bool} {p r : ℕ}
    (hm : encode32 turns m = some (signBits s + p)) (hn : encode32 turns n = some (signBits t + r))
    (hp : p ≤ limit) (hr : r ≤ limit) (h : signed s (val p) ≤ signed t (val r)) :
    ∃ a b, round32 turns m = some a ∧ round32 turns n = some b ∧ a.le b = true :=
  ⟨_, _, by rw [round32, hm]; rfl, by rw [round32, hn]; rfl, decode32_le hp hr h⟩

theorem round32_monotone (hturns : 1100 < turns) {m n : Number} (h : m.le n = true) :
    ∃ a b, round32 turns m = some a ∧ round32 turns n = some b ∧ a.le b = true := by
  cases m with
  | nan => simp [Number.le] at h
  | finite x =>
    obtain ⟨p, hp, hrounds⟩ := encode32_finite x hturns
    cases n with
    | nan => simp [Number.le] at h
    | finite y =>
      obtain ⟨r, hr, hrounds'⟩ := encode32_finite y hturns
      exact round32_le hp hr hrounds.le_limit hrounds'.le_limit
        (signed_rounds hrounds hrounds' (of_decide_eq_true h))
    | infinity t =>
      cases t with
      | true => simp [Number.le] at h
      | false =>
        exact round32_le hp (encode32_infinity false turns) hrounds.le_limit le_rfl
          (signed_bounds _ hrounds.le_limit).2
  | infinity s =>
    cases s with
    | true =>
      have hne : n ≠ .nan := by
        rintro rfl
        simp [Number.le] at h
      obtain ⟨t, r, hr, hlimit⟩ := encode32_pattern hturns hne
      exact round32_le (encode32_infinity true turns) hr le_rfl hlimit (signed_bounds t hlimit).1
    | false =>
      cases n with
      | nan => simp [Number.le] at h
      | finite y => simp [Number.le] at h
      | infinity t =>
        cases t with
        | true => simp [Number.le] at h
        | false =>
          exact round32_le (encode32_infinity false turns) (encode32_infinity false turns) le_rfl
            le_rfl le_rfl

end Round

end Nupp.math
