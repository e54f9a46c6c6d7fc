import Nupp.Runtime.Binary32

/-! `rounddd` rounds the exact sum of a double-double: a comparison with it is right although
its difference is rounded, and one step towards it corrects the rounded head. -/

namespace Nupp.math

open Double (Number Finite Representable NearestTo signed)
open Nupp.Single (val val_block exists_block overflow limit Rounds Nearest)

section Compare

variable {hi lo : Finite}

/-- The comparison, on which side of the exact sum a value is. -/
theorem comparedd_spec (hnear : NearestTo (hi.value + lo.value) hi) (x : Finite) :
    (x.value < hi.value + lo.value ∧ comparedd (.finite hi) (.finite lo) (.finite x) = 1) ∨
      (x.value = hi.value + lo.value ∧ comparedd (.finite hi) (.finite lo) (.finite x) = 0) ∨
      (hi.value + lo.value < x.value ∧
        comparedd (.finite hi) (.finite lo) (.finite x) = -1) := by
  have hlo : (Number.finite lo).neg.Is (-lo.value) := Double.is_neg (Double.is_finite lo)
  have hx := hnear x
  rw [add_sub_cancel_left] at hx
  rcases lt_trichotomy x.value hi.value with hless | heq | hmore
  · have hsum := hnear.gt_of_gt ⟨x, rfl⟩ hless
    have hhalf : -lo.value ≤ (hi.value - x.value) / 2 := by
      rw [abs_of_pos (a := hi.value + lo.value - x.value) (by linarith)] at hx
      linarith [neg_le_abs lo.value]
    have hgreater : (Number.finite lo).neg.lt ((Number.finite hi).sub (.finite x)) = true := by
      rcases Double.sub_spec hless with ⟨z, hz, hlarge⟩ | hinf
      · rw [hz]
        exact (Double.lt_iff hlo (Double.is_finite z)).mpr (by linarith)
      · rw [hinf]
        rfl
    exact Or.inl ⟨hsum, by rw [comparedd, if_pos hgreater]⟩
  · have hdiff : ((Number.finite hi).sub (.finite x)).Is (hi.value - x.value) :=
      Double.is_sub (Double.is_finite hi) (Double.is_finite x) (by
        rw [heq, sub_self]
        exact ⟨.zero false, Double.value_zero false⟩)
    rw [heq, sub_self] at hdiff
    have hgreater := Double.lt_iff hlo hdiff
    have hless := Double.lt_iff hdiff hlo
    rw [heq, comparedd]
    rcases lt_trichotomy lo.value 0 with hneg | hzero | hpos
    · refine Or.inr (Or.inr ⟨by linarith, ?_⟩)
      rw [if_neg (mt hgreater.mp (by linarith)), if_pos (hless.mpr (by linarith))]
    · refine Or.inr (Or.inl ⟨by linarith, ?_⟩)
      rw [if_neg (mt hgreater.mp (by linarith)), if_neg (mt hless.mp (by linarith))]
    · exact Or.inl ⟨by linarith, by rw [if_pos (hgreater.mpr (by linarith))]⟩
  · have hsum := hnear.lt_of_lt ⟨x, rfl⟩ hmore
    have hhalf : (hi.value - x.value) / 2 ≤ -lo.value := by
      rw [abs_of_neg (a := hi.value + lo.value - x.value) (by linarith)] at hx
      linarith [le_abs_self lo.value]
    have hless : ((Number.finite hi).sub (.finite x)).lt (Number.finite lo).neg = true ∧
        ¬(Number.finite lo).neg.lt ((Number.finite hi).sub (.finite x)) = true := by
      rcases Double.sub_spec_neg hmore with ⟨z, hz, hsmall⟩ | hinf
      · rw [hz]
        have hz := Double.is_finite z
        exact ⟨(Double.lt_iff hz hlo).mpr (by linarith),
          mt (Double.lt_iff hlo hz).mp (by linarith)⟩
      · rw [hinf]
        exact ⟨rfl, by simp [Number.neg, Number.lt]⟩
    exact Or.inr (Or.inr ⟨hsum, by rw [comparedd, if_neg hless.2, if_pos hless.1]⟩)

/-- The answer of a comparison that is above a value of this sign, away from zero. -/
def side (s : Bool) : ℤ := if s then -1 else 1

theorem comparedd_signed (hnear : NearestTo (hi.value + lo.value) hi) {v : Number} {s : Bool}
    {c : ℚ} (hv : v.Has s c) :
    (c < signed s (hi.value + lo.value) ∧ comparedd (.finite hi) (.finite lo) v = side s) ∨
      (c = signed s (hi.value + lo.value) ∧ comparedd (.finite hi) (.finite lo) v = 0) ∨
      (signed s (hi.value + lo.value) < c ∧
        comparedd (.finite hi) (.finite lo) v = -side s) := by
  obtain ⟨x, rfl, rfl, rfl⟩ := hv
  have hspec := comparedd_spec hnear x
  rw [Double.value_eq_signed x] at hspec
  cases hs : x.negative with
  | true =>
    simp only [hs, signed, side, if_true, neg_neg] at hspec ⊢
    rcases hspec with ⟨hlt, hcmp⟩ | ⟨heq, hcmp⟩ | ⟨hgt, hcmp⟩
    · exact Or.inr (Or.inr ⟨by linarith, hcmp⟩)
    · exact Or.inr (Or.inl ⟨by linarith, hcmp⟩)
    · exact Or.inl ⟨by linarith, hcmp⟩
  | false =>
    simpa only [hs, signed, side, Bool.false_eq_true, if_false] using hspec

theorem comparedd_infinity (s : Bool) :
    comparedd (.finite hi) (.finite lo) (.infinity s) = -side s := by
  cases s with
  | true => rfl
  | false => rfl

end Compare

section Step

theorem putbits_eq (s : Bool) {p : ℕ} (hp : p ≤ limit) :
    putbits (signBits s + p) = decode32 (signBits s + p) := by
  have hnan : ¬nanbits (signBits s + p) = true :=
    mt (nanbits_iff s (by unfold limit at hp; omega)).mp (by omega)
  rw [putbits, if_neg hnan]

/-- The neighbour further from zero. -/
theorem step_away (s : Bool) {p : ℕ} (hp : p < limit) (value : Number) :
    (if 0 < side s then nextup value (signBits s + p) else nextdown value (signBits s + p)) =
      (decode32 (signBits s + (p + 1)), signBits s + (p + 1)) := by
  have hput := putbits_eq s (p := p + 1) hp
  have hsign := and_sign_iff s (p := p) (by unfold limit at hp; omega)
  unfold limit at hp
  rw [← Nat.add_assoc] at hput
  cases s with
  | true =>
    have hbits : signBits true = SIGN := rfl
    rw [hbits] at hput hsign ⊢
    rw [if_neg (by simp [side]), nextdown, if_neg (by unfold NINF SIGN; omega),
      if_neg (by unfold PINF SIGN; omega), if_pos (hsign.mpr rfl), hput]
    rfl
  | false =>
    have hbits : signBits false = 0 := rfl
    rw [hbits, Nat.zero_add] at hput hsign ⊢
    rw [if_pos (by simp [side]), nextup, if_neg (by unfold PINF; omega),
      if_neg (by unfold NINF; omega), if_neg (by simp [hsign]), hput, Nat.zero_add]

/-- The neighbour nearer to zero. -/
theorem step_back (s : Bool) {p : ℕ} (hp : p + 1 < limit) (value : Number) :
    (if 0 < -side s then nextup value (signBits s + (p + 1))
      else nextdown value (signBits s + (p + 1))) =
      (decode32 (signBits s + p), signBits s + p) := by
  have hput := putbits_eq s (p := p) (by omega)
  have hsign := and_sign_iff s (p := p + 1) (by unfold limit at hp; omega)
  unfold limit at hp
  cases s with
  | true =>
    have hbits : signBits true = SIGN := rfl
    rw [hbits] at hput hsign ⊢
    rw [if_pos (by simp [side]), nextup, if_neg (by unfold PINF SIGN; omega),
      if_neg (by unfold NINF SIGN; omega), if_pos (hsign.mpr rfl), if_neg (by omega),
      ← Nat.add_assoc, Nat.add_sub_cancel, hput]
  | false =>
    have hbits : signBits false = 0 := rfl
    rw [hbits, Nat.zero_add] at hput hsign ⊢
    rw [if_neg (by simp [side]), nextdown, if_neg (by unfold NINF; omega),
      if_neg (by unfold PINF; omega), if_neg (by simp [hsign]), if_neg (by omega),
      Nat.add_sub_cancel, hput, Nat.zero_add]

/-- Two neighbours are an even number of half steps apart from zero together. -/
theorem representable_mid {p : ℕ} (hp : p < limit) :
    Representable (val p + val (p + 1)) ∧ Representable ((val p + val (p + 1)) * (1 / 2)) := by
  obtain ⟨j, k, rfl, hk, hblock⟩ := exists_block p
  have hj : j < 255 := by
    unfold limit at hp
    omega
  have hsum : val (j * 2 ^ 23 + k) + val (j * 2 ^ 23 + k + 1) =
      ((2 * k + 1 : ℤ) : ℚ) * 2 ^ ((j : ℤ) - 149) := by
    rw [Nat.add_assoc, val_block hk.le hblock,
      val_block (k := k + 1) hk (hblock.imp_right fun h => by omega)]
    push_cast
    ring
  have hhalf : ((2 * k + 1 : ℤ) : ℚ) * 2 ^ ((j : ℤ) - 149) * (1 / 2) =
      ((2 * k + 1 : ℤ) : ℚ) * 2 ^ ((j : ℤ) - 150) := by
    rw [show (j : ℤ) - 150 = (j : ℤ) - 149 - 1 by ring, zpow_sub_one₀ (by norm_num)]
    ring
  rw [hsum, hhalf]
  exact ⟨Double.representable_intCast_mul (by omega) (by omega) (by omega),
    Double.representable_intCast_mul (by omega) (by omega) (by omega)⟩

theorem half_has : half.Has false (1 / 2) := by
  have hexp := Double.representable_exp2 (e := -1) (by norm_num) (by norm_num)
  rw [zpow_neg_one, inv_eq_one_div] at hexp
  exact Double.has_ofRat false (by norm_num) hexp

/-- The middle of two neighbours, in either order. -/
theorem mid_has (s : Bool) {p : ℕ} (hp : p + 1 < limit) :
    (((decode32 (signBits s + p)).add (decode32 (signBits s + (p + 1)))).mul half).Has s
        ((val p + val (p + 1)) * (1 / 2)) ∧
      (((decode32 (signBits s + (p + 1))).add (decode32 (signBits s + p))).mul half).Has s
        ((val p + val (p + 1)) * (1 / 2)) := by
  obtain ⟨hsum, hmid⟩ := representable_mid (p := p) (by omega)
  have hlow := decode32_finite s (p := p) (by omega)
  have hhigh := decode32_finite s hp
  have hup := Double.has_mul (Double.has_add hlow hhigh hsum) half_has hmid
  have hdown := Double.has_mul (Double.has_add hhigh hlow (by rwa [add_comm])) half_has
    (by rwa [add_comm])
  rw [Bool.xor_false] at hup hdown
  rw [add_comm (val (p + 1))] at hdown
  exact ⟨hup, hdown⟩

end Step

section Near

variable {hi lo : Finite} {s : Bool} {p : ℕ}

theorem side_mul_self (s : Bool) : side s * side s = 1 := by
  cases s with
  | true => rfl
  | false => rfl

theorem side_ne_zero (s : Bool) : side s ≠ 0 := by
  cases s with
  | true => simp [side]
  | false => simp [side]

/-- The comparison is past the middle, or on it at an odd pattern. -/
def Toward (c : ℤ) (bits : ℕ) : Prop := 0 < c ∨ (c = 0 ∧ bits % 2 = 1)

instance (c : ℤ) (bits : ℕ) : Decidable (Toward c bits) := inferInstanceAs (Decidable (_ ∨ _))

theorem toward_iff {c : ℤ} {m q : ℚ} (bits : ℕ)
    (h : (m < q ∧ c = 1) ∨ (m = q ∧ c = 0) ∨ (q < m ∧ c = -1)) :
    Toward c bits ↔ m < q ∨ (m = q ∧ bits % 2 = 1) := by
  unfold Toward
  rcases h with ⟨hlt, rfl⟩ | ⟨heq, rfl⟩ | ⟨hgt, rfl⟩
  · exact ⟨fun _ => Or.inl hlt, fun _ => Or.inl one_pos⟩
  · exact or_congr (iff_of_false (lt_irrefl 0) heq.not_lt) (and_congr_left' (iff_of_true rfl heq))
  · exact iff_of_false (by omega) (by rintro (hlt | ⟨heq, -⟩) <;> linarith)

theorem signBits_parity (s : Bool) (p : ℕ) : (signBits s + p) % 2 = p % 2 := by
  have heven : signBits s % 2 = 0 := by
    cases s with
    | true => rfl
    | false => rfl
  omega

/-- One step to a side. -/
theorem roundNear_of_side {value : Number} {bits : ℕ} {t : ℤ} {other : Number}
    {otherbits : ℕ} (ht : t * t = 1) (hside : comparedd (.finite hi) (.finite lo) value = t)
    (hnext : (if 0 < t then nextup value bits else nextdown value bits) =
      (other, otherbits)) :
    roundNear (.finite hi) (.finite lo) value bits =
      if Toward (t * comparedd (.finite hi) (.finite lo) ((value.add other).mul half)) bits
      then putbits otherbits else value := by
  have hne : t ≠ 0 := by
    rintro rfl
    simp at ht
  have hflip : ∀ c : ℤ, (if t < 0 then -c else c) = t * c := by
    intro c
    rcases mul_self_eq_one_iff.mp ht with rfl | rfl
    · simp
    · simp
  simp only [roundNear, hside, if_neg hne, hnext, hflip]
  congr 1
  simp only [Toward, Bool.or_eq_true, Bool.and_eq_true, decide_eq_true_eq, Nat.and_one_is_mod]
  simp

theorem roundNear_here (hnear : NearestTo (hi.value + lo.value) hi) (hp : p < limit)
    (heq : val p = signed s (hi.value + lo.value)) :
    roundNear (.finite hi) (.finite lo) (decode32 (signBits s + p)) (signBits s + p) =
      decode32 (signBits s + p) := by
  have hside : comparedd (.finite hi) (.finite lo) (decode32 (signBits s + p)) = 0 := by
    rcases comparedd_signed hnear (decode32_finite s hp) with ⟨hlt, -⟩ | ⟨-, hcmp⟩ | ⟨hgt, -⟩
    · exact absurd heq hlt.ne
    · exact hcmp
    · exact absurd heq hgt.ne'
  simp only [roundNear, hside, if_true]

/-- Between two neighbours and rounded to the lower one first. -/
theorem roundNear_away (hnear : NearestTo (hi.value + lo.value) hi) (hp : p + 1 < limit)
    (hlow : val p < signed s (hi.value + lo.value))
    (hhigh : signed s (hi.value + lo.value) < val (p + 1)) :
    ∃ r, Rounds (signed s (hi.value + lo.value)) r ∧
      roundNear (.finite hi) (.finite lo) (decode32 (signBits s + p)) (signBits s + p) =
        decode32 (signBits s + r) := by
  have hside : comparedd (.finite hi) (.finite lo) (decode32 (signBits s + p)) = side s := by
    rcases comparedd_signed hnear (decode32_finite s (p := p) (by omega)) with
      ⟨-, hcmp⟩ | ⟨heq, -⟩ | ⟨hgt, -⟩
    · exact hcmp
    · exact absurd heq hlow.ne
    · exact absurd hgt (not_lt.mpr hlow.le)
  have hmid := comparedd_signed hnear (mid_has s hp).1
  have htoward := toward_iff (signBits s + p) (c := side s * comparedd (.finite hi) (.finite lo)
      (((decode32 (signBits s + p)).add (decode32 (signBits s + (p + 1)))).mul half))
    (hmid.imp (And.imp_right fun h => by rw [h, side_mul_self])
      (Or.imp (And.imp_right fun h => by rw [h, mul_zero])
        (And.imp_right fun h => by rw [h, mul_neg, side_mul_self])))
  rw [signBits_parity] at htoward
  have hrounds := Nupp.Single.rounds_step hlow.le hhigh (u := Toward _ (signBits s + p)) (by
    rw [htoward]
    exact or_congr ⟨fun h => by linarith, fun h => by linarith⟩
      (and_congr_left' ⟨fun h => by linarith, fun h => by linarith⟩))
  refine ⟨_, hrounds, ?_⟩
  rw [roundNear_of_side (side_mul_self s) hside (step_away s (by omega) _)]
  split
  · rw [Nat.min_eq_left (by omega), putbits_eq s (by omega)]
  · rw [Nat.min_eq_left (by omega)]

/-- Between two neighbours and rounded to the upper one first. -/
theorem roundNear_back (hnear : NearestTo (hi.value + lo.value) hi) (hp : p + 1 < limit)
    (hlow : val p < signed s (hi.value + lo.value))
    (hhigh : signed s (hi.value + lo.value) < val (p + 1)) :
    ∃ r, Rounds (signed s (hi.value + lo.value)) r ∧
      roundNear (.finite hi) (.finite lo) (decode32 (signBits s + (p + 1)))
        (signBits s + (p + 1)) = decode32 (signBits s + r) := by
  have hside : comparedd (.finite hi) (.finite lo) (decode32 (signBits s + (p + 1))) =
      -side s := by
    rcases comparedd_signed hnear (decode32_finite s hp) with ⟨hlt, -⟩ | ⟨heq, -⟩ | ⟨-, hcmp⟩
    · exact absurd hlt (not_lt.mpr hhigh.le)
    · exact absurd heq hhigh.ne'
    · exact hcmp
  have hmid := comparedd_signed hnear (mid_has s hp).2
  have htoward := toward_iff (signBits s + (p + 1)) (q := (val p + val (p + 1)) * (1 / 2))
    (m := signed s (hi.value + lo.value)) (c := -side s * comparedd (.finite hi) (.finite lo)
      (((decode32 (signBits s + (p + 1))).add (decode32 (signBits s + p))).mul half)) (by
    rcases hmid with ⟨hlt, hcmp⟩ | ⟨heq, hcmp⟩ | ⟨hgt, hcmp⟩
    · exact Or.inr (Or.inr ⟨hlt, by rw [hcmp, neg_mul, side_mul_self]⟩)
    · exact Or.inr (Or.inl ⟨heq.symm, by rw [hcmp, mul_zero]⟩)
    · exact Or.inl ⟨hgt, by rw [hcmp, neg_mul_neg, side_mul_self]⟩)
  rw [signBits_parity] at htoward
  have hrounds := Nupp.Single.rounds_step hlow.le hhigh
    (u := ¬Toward _ (signBits s + (p + 1))) (by
    rw [htoward, not_or, not_lt, not_and]
    constructor
    · rintro ⟨hle, hodd⟩
      rcases hle.lt_or_eq with hlt | heq
      · exact Or.inl (by linarith)
      · exact Or.inr ⟨by linarith, by have := hodd heq.symm; omega⟩
    · rintro (hlt | ⟨heq, hodd⟩)
      · exact ⟨by linarith, fun h => by linarith⟩
      · exact ⟨by linarith, fun _ => by omega⟩)
  refine ⟨_, hrounds, ?_⟩
  rw [roundNear_of_side (by rw [neg_mul_neg, side_mul_self]) hside (step_back s hp _)]
  split
  · rw [Nat.min_eq_left (by omega), putbits_eq s (by omega)]
  · rw [Nat.min_eq_left (by omega)]

/-- Past the largest magnitude, the neighbour is infinity and the middle too. -/
theorem roundNear_last (hnear : NearestTo (hi.value + lo.value) hi) (hp : p + 1 = limit)
    (hlow : val p < signed s (hi.value + lo.value)) :
    roundNear (.finite hi) (.finite lo) (decode32 (signBits s + p)) (signBits s + p) =
      decode32 (signBits s + p) := by
  have hfinite := decode32_finite s (p := p) (by omega)
  have hside : comparedd (.finite hi) (.finite lo) (decode32 (signBits s + p)) = side s := by
    rcases comparedd_signed hnear hfinite with ⟨-, hcmp⟩ | ⟨heq, -⟩ | ⟨hgt, -⟩
    · exact hcmp
    · exact absurd heq hlow.ne
    · exact absurd hgt (not_lt.mpr hlow.le)
  have hmid : ((decode32 (signBits s + p)).add (.infinity s)).mul half = .infinity s := by
    obtain ⟨x, hx, -, -⟩ := hfinite
    obtain ⟨y, hy, hsign, hmag⟩ := half_has
    have hne : y.mantissa ≠ 0 := fun hzero => by
      rw [Double.magnitude_eq_zero.mpr hzero] at hmag
      norm_num at hmag
    rw [hx, hy, Number.add, Number.mul, if_neg hne, hsign, Bool.xor_false]
  rw [roundNear_of_side (side_mul_self s) hside (step_away s (by omega) _)]
  rw [hp, decode32_limit, hmid, comparedd_infinity, mul_neg, side_mul_self, if_neg]
  rintro (hlt | ⟨hzero, -⟩)
  · norm_num at hlt
  · norm_num at hzero

end Near

section Whole

variable {hi lo : Finite} {turns : ℕ}

theorem representable_val {p : ℕ} (hp : p ≤ limit) : Representable (val p) := by
  obtain ⟨j, k, rfl, hk, hblock⟩ := exists_block p
  have hj : j < 255 := by
    unfold limit at hp
    omega
  rw [val_block hk.le hblock]
  have hrep := Double.representable_intCast_mul (n := k) (e := (j : ℤ) - 149) (by omega) (by omega)
    (by omega)
  rwa [Int.cast_natCast] at hrep

theorem overflowAt_has : overflowAt.Has false overflow := by
  refine ⟨⟨false, (2 ^ 25 - 1) * 2 ^ 28, 1149, by norm_num, by norm_num, .inr (by norm_num)⟩,
    by decide +kernel, rfl, ?_⟩
  norm_num [Finite.magnitude, Double.unit, overflow]

theorem representable_overflow : Representable overflow := overflowAt_has.is.representable

/-- The sum is on the side of every magnitude that the head is on. -/
theorem signed_side (hnear : NearestTo (hi.value + lo.value) hi) {c : ℚ} (hc : Representable c) :
    (hi.magnitude < c → signed hi.negative (hi.value + lo.value) < c) ∧
      (c < hi.magnitude → c < signed hi.negative (hi.value + lo.value)) := by
  have hhi := Double.value_eq_signed hi
  have hneg : Representable (-c) := by
    obtain ⟨x, rfl⟩ := hc
    exact ⟨x.neg, Double.value_neg x⟩
  cases hs : hi.negative with
  | true =>
    rw [hs, signed, if_pos rfl] at hhi
    rw [signed, if_pos rfl]
    constructor
    · intro hlt
      linarith [hnear.gt_of_gt hneg (by linarith)]
    · intro hlt
      linarith [hnear.lt_of_lt hneg (by linarith)]
  | false =>
    rw [hs, signed, if_neg (by simp)] at hhi
    rw [signed, if_neg (by simp)]
    exact ⟨fun hlt => hnear.lt_of_lt hc (by linarith), fun hlt => hnear.gt_of_gt hc (by linarith)⟩

/-- The sum has the sign of its head. -/
theorem signed_sum (hnear : NearestTo (hi.value + lo.value) hi) :
    signed hi.negative (hi.value + lo.value) = |hi.value + lo.value| := by
  have hnonneg : 0 ≤ signed hi.negative (hi.value + lo.value) := by
    rcases (Double.magnitude_nonneg hi).lt_or_eq with hpos | hzero
    · exact ((signed_side hnear ⟨.zero false, Double.value_zero false⟩).2 hpos).le
    · have hhi : hi.value = 0 := abs_eq_zero.mp ((Double.abs_value hi).trans hzero.symm)
      have hlo := hnear lo
      rw [hhi, zero_add, sub_zero, sub_self, abs_zero] at hlo
      rw [hhi, abs_nonpos_iff.mp hlo, add_zero]
      cases hi.negative with
      | true => exact neg_zero.ge
      | false => exact le_rfl
  rw [← abs_of_nonneg hnonneg]
  cases hi.negative with
  | true => exact abs_neg _
  | false => rfl

/-- The head rounded, and then a step towards the sum. -/
theorem roundNear_rounds (hnear : NearestTo (hi.value + lo.value) hi) {p : ℕ} (hp : p < limit)
    (hhead : Rounds hi.magnitude p) :
    ∃ r, Rounds (signed hi.negative (hi.value + lo.value)) r ∧
      roundNear (.finite hi) (.finite lo) (decode32 (signBits hi.negative + p))
        (signBits hi.negative + p) = decode32 (signBits hi.negative + r) := by
  obtain ⟨hover, hnearest⟩ : hi.magnitude < overflow ∧ Nearest hi.magnitude p := by
    rcases hhead with h | ⟨-, rfl⟩
    · exact h
    · exact absurd hp (lt_irrefl _)
  have hvalp := representable_val hp.le
  rcases lt_trichotomy (val p) (signed hi.negative (hi.value + lo.value)) with hlow | heq | hhigh
  · by_cases hlast : p + 1 = limit
    · have hless := (signed_side hnear representable_overflow).1 hover
      have hp' : p = limit - 1 := by omega
      refine ⟨p, Or.inl ⟨hless, ?_⟩, roundNear_last hnear hlast hlow⟩
      rw [hp'] at hlow ⊢
      exact Nupp.Single.nearest_largest hlow.le hless
    · have hnext : hi.magnitude < val (p + 1) := by
        by_contra hge
        rw [not_lt] at hge
        have hcloser := (hnearest.2 (p + 1) (by omega)).1
        have hsucc := Nupp.Single.val_lt_succ p
        rw [abs_of_nonneg (by linarith), abs_of_nonneg (by linarith)] at hcloser
        linarith
      exact roundNear_away hnear (by omega) hlow
        ((signed_side hnear (representable_val (by omega))).1 hnext)
  · refine ⟨p, ?_, roundNear_here hnear hp heq⟩
    rw [← heq]
    exact Nupp.Single.rounds_val hp
  · obtain ⟨r, rfl⟩ : ∃ r, p = r + 1 := by
      refine Nat.exists_eq_succ_of_ne_zero fun hzero => ?_
      rw [hzero, Nupp.Single.val_zero, signed_sum hnear] at hhigh
      exact absurd hhigh (not_lt.mpr (abs_nonneg _))
    have hprev : val r < hi.magnitude := by
      by_contra hle
      rw [not_lt] at hle
      have hcloser := (hnearest.2 r (by omega)).1
      have hsucc := Nupp.Single.val_lt_succ r
      rw [abs_of_nonpos (by linarith), abs_of_nonpos (by linarith)] at hcloser
      linarith
    exact roundNear_back hnear hp
      ((signed_side hnear (representable_val (by omega))).2 hprev) hhigh

/-- A head that overflows is infinite unless the sum is below half a step past the largest. -/
theorem overflow_rounds (hnear : NearestTo (hi.value + lo.value) hi) (hover : overflow ≤ hi.magnitude)
    {v : Number} (hv : v.Has hi.negative overflow) :
    ∃ r, Rounds (signed hi.negative (hi.value + lo.value)) r ∧
      (if 0 < -side hi.negative * comparedd (.finite hi) (.finite lo) v
        then decode32 (signBits hi.negative + (limit - 1))
        else decode32 (signBits hi.negative + limit)) = decode32 (signBits hi.negative + r) := by
  have hself := side_mul_self hi.negative
  rcases comparedd_signed hnear hv with ⟨hlt, hcmp⟩ | ⟨heq, hcmp⟩ | ⟨hgt, hcmp⟩
  · exact ⟨limit, Or.inr ⟨hlt.le, rfl⟩, by rw [hcmp, neg_mul, hself, if_neg (by norm_num)]⟩
  · exact ⟨limit, Or.inr ⟨heq.le, rfl⟩, by rw [hcmp, mul_zero, if_neg (lt_irrefl 0)]⟩
  · have hlargest : val (limit - 1) < hi.magnitude :=
      (Nupp.Single.val_lt_overflow (by norm_num [limit])).trans_le hover
    have hlow := (signed_side hnear (representable_val (by norm_num [limit]))).2 hlargest
    exact ⟨limit - 1, Or.inl ⟨hgt, Nupp.Single.nearest_largest hlow.le hgt⟩,
      by rw [hcmp, neg_mul_neg, hself, if_pos one_pos]⟩

/-- The one rounding of an exact sum, whatever its head rounds to. -/
theorem rounddd_rounds (hturns : 1100 < turns) (hnear : NearestTo (hi.value + lo.value) hi) :
    ∃ r, rounddd turns (.finite hi) (.finite lo) = some (decode32 (signBits hi.negative + r)) ∧
      Rounds |hi.value + lo.value| r := by
  obtain ⟨p, hencode, hhead⟩ := encode32_finite hi hturns
  have hround : round32 turns (.finite hi) = some (decode32 (signBits hi.negative + p)) := by
    rw [round32, hencode]
    rfl
  have hbits := encode32_decode32 hturns hi.negative hhead.le_limit
  have hless : p < 2 ^ 31 := by
    have hle := hhead.le_limit
    unfold limit at hle
    omega
  have hnan : ¬nanbits (signBits hi.negative + p) = true :=
    mt (nanbits_iff hi.negative hless).mp (not_lt.mpr hhead.le_limit)
  rw [← signed_sum hnear]
  simp only [rounddd, bits32, hround, hbits, Option.bind_eq_bind, Option.bind_some, if_neg hnan]
  rcases hhead.le_limit.lt_or_eq with hfinite | rfl
  · obtain ⟨r, hrounds, hnext⟩ := roundNear_rounds hnear hfinite hhead
    have hinf : signBits hi.negative + p ≠ PINF ∧ signBits hi.negative + p ≠ NINF := by
      unfold limit at hfinite
      cases hi.negative with
      | true => constructor <;> simp only [signBits, SIGN, PINF, NINF, if_true] <;> omega
      | false =>
        constructor <;> simp only [signBits, PINF, NINF, Bool.false_eq_true, if_false] <;> omega
    exact ⟨r, by rw [if_neg hinf.1, if_neg hinf.2, hnext], hrounds⟩
  · have hover : overflow ≤ hi.magnitude := by
      rcases hhead with ⟨-, hnearest⟩ | ⟨hle, -⟩
      · exact absurd hnearest.1 (lt_irrefl _)
      · exact hle
    cases hs : hi.negative with
    | true =>
      have hneg : overflowAt.neg.Has hi.negative overflow := by
        obtain ⟨x, hx, hsign, hmag⟩ := overflowAt_has
        exact ⟨x.neg, by rw [hx, Number.neg], by rw [Finite.neg, hsign, hs]; rfl, hmag⟩
      obtain ⟨r, hrounds, hanswer⟩ := overflow_rounds hnear hover hneg
      rw [hs] at hrounds hanswer
      refine ⟨r, ?_, hrounds⟩
      rw [if_neg (by decide), if_pos (by rfl), ← hanswer, ← putbits_eq true (by norm_num [limit])]
      simp only [side, if_true, neg_neg, one_mul]
      split <;> rfl
    | false =>
      have hpos : overflowAt.Has hi.negative overflow := hs ▸ overflowAt_has
      obtain ⟨r, hrounds, hanswer⟩ := overflow_rounds hnear hover hpos
      rw [hs] at hrounds hanswer
      refine ⟨r, ?_, hrounds⟩
      rw [if_pos (by rfl), ← hanswer, ← putbits_eq false (by norm_num [limit])]
      simp only [side, Bool.false_eq_true, if_false, neg_mul, one_mul, neg_pos]
      split <;> rfl

end Whole

end Nupp.math
