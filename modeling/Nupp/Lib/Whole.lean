import Nupp.Lib.Decimal
import Nupp.Lib.DoubleArith

/-! Whole binary64 numbers in `%.pg`: plain digits below the precision, and from there on an exponent. -/

namespace Decimal

open Double Nupp.Binary64

theorem numeral_mul_ten {n : ℕ} (hn : 0 < n) : numeral (n * 10) = numeral n ++ [48] := by
  rw [numeral, if_neg (by omega), Nat.mul_div_cancel _ (by norm_num), Nat.mul_mod_left]
  rfl

theorem numeral_mul_pow {n : ℕ} (hn : 0 < n) (m : ℕ) : numeral (n * 10 ^ m) = numeral n ++ List.replicate m 48 := by
  induction m with
  | zero => simp
  | succ m ih =>
    rw [pow_succ, ← Nat.mul_assoc, numeral_mul_ten (by positivity), ih, List.replicate_succ', List.append_assoc]

theorem stripZeros_replicate (m : ℕ) : stripZeros (List.replicate m 48) = [] := by
  rw [stripZeros, List.rdropWhile_eq_nil_iff]
  intro b hb
  simp [(List.mem_replicate.mp hb).2]

/-- A whole number below the precision is printed as its digits. -/
theorem formatPositive_whole {p n : ℕ} (hn : 0 < n) (h : n < 10 ^ (p + 1)) :
    formatPositive (p + 1) n = numeral n := by
  have hlow := Nat.pow_log_le_self 10 hn.ne'
  have hhigh := Nat.lt_pow_succ_log_self (b := 10) (by norm_num) n
  have hlog : Nat.log 10 n ≤ p := by
    have hlt := hlow.trans_lt h
    rw [Nat.pow_lt_pow_iff_right (by norm_num)] at hlt
    omega
  generalize hj : Nat.log 10 n = j at hlow hhigh hlog
  have hk : Int.log 10 (n : ℚ) = (j : ℤ) := by rw [Int.log_natCast, hj]
  have hcast : ((p + 1 : ℕ) : ℤ) - 1 = p := by push_cast; ring
  have hdiv : (n : ℚ) / 10 ^ ((j : ℤ) - p) = ((n * 10 ^ (p - j) : ℕ) : ℤ) := by
    have hexp : ((j : ℤ) - p) = -((p - j : ℕ) : ℤ) := by omega
    rw [hexp, zpow_neg, zpow_natCast, div_inv_eq_mul]
    push_cast
    ring
  have hsignificant : significant (p + 1) (n : ℚ) = (n * 10 ^ (p - j), (j : ℤ)) := by
    have hless : n * 10 ^ (p - j) < 10 ^ (p + 1) := by
      calc n * 10 ^ (p - j) < 10 ^ (j + 1) * 10 ^ (p - j) := Nat.mul_lt_mul_of_pos_right hhigh (by positivity)
        _ = 10 ^ (p + 1) := by
          rw [← pow_add]
          congr 1
          omega
    simp only [significant, hk, hcast, hdiv, roundEven_intCast, Int.toNat_natCast, if_neg hless.ne]
  have hlength := numeral_length hlow hhigh
  simp only [formatPositive, hsignificant]
  have hrange : (-4 ≤ (j : ℤ) && (j : ℤ) < ((p + 1 : ℕ) : ℤ)) = true := by
    simp only [Bool.and_eq_true, decide_eq_true_eq]
    omega
  rw [if_pos hrange, if_pos (by omega), Int.toNat_natCast, numeral_mul_pow hn, ← hlength,
    List.take_left, List.drop_left, stripZeros_replicate, withFraction, if_pos rfl]

/-- From the precision on, a number is printed with an exponent. -/
theorem formatPositive_exponent {p : ℕ} {q : ℚ} (h : 10 ^ (p + 1) ≤ q) :
    ∃ d fraction k, isDigit d = true ∧ formatPositive (p + 1) q = withFraction [d] fraction ++ exponentText k ∧
      10 ^ (p + 1) ≤ (significant (p + 1) q).1 * (10 : ℚ) ^ ((significant (p + 1) q).2 - p) := by
  have hpos : 0 < q := lt_of_lt_of_le (by positivity) h
  obtain ⟨hlow, hhigh, -⟩ := significant_spec (p := p) hpos
  have hk : (p : ℤ) + 1 ≤ (significant (p + 1) q).2 := by
    have hlog : (p : ℤ) + 1 ≤ Int.log 10 q := by
      rw [← Int.zpow_le_iff_le_log (by norm_num) hpos]
      exact_mod_cast h
    unfold significant
    simp only
    split_ifs <;> simp only <;> omega
  unfold formatPositive
  generalize significant (p + 1) q = r at hlow hhigh hk ⊢
  obtain ⟨d, k⟩ := r
  simp only at hlow hhigh hk ⊢
  have hrange : ¬(-4 ≤ k && k < ((p + 1 : ℕ) : ℤ)) = true := by
    simp only [Bool.and_eq_true, decide_eq_true_eq]
    push_cast
    omega
  obtain ⟨c, rest, hdigits⟩ := List.exists_cons_of_ne_nil (numeral_ne_nil d)
  refine ⟨c, _, k, isDigit_of_mem_numeral (n := d) (by simp [hdigits]), by rw [if_neg hrange, hdigits]; rfl, ?_⟩
  calc (10 : ℚ) ^ (p + 1) = 10 ^ p * 10 ^ (1 : ℤ) := by rw [zpow_one, pow_succ]
    _ ≤ d * 10 ^ (k - p) := by
      apply mul_le_mul
      · exact_mod_cast hlow
      · exact zpow_le_zpow_right₀ (by norm_num) (by omega)
      · positivity
      · positivity

end Decimal

namespace Double

open Nupp.Binary64

/-- Rounding keeps what is not below a whole number of at most 53 bits. -/
theorem le_nearest (s : Bool) {n : ℕ} {q : ℚ} (hn : 0 < n) (hbits : n ≤ 2 ^ 53) (h : (n : ℚ) ≤ q) :
    (∃ x, nearest s q = .finite x ∧ x.negative = s ∧ (n : ℚ) ≤ x.magnitude) ∨ nearest s q = .infinity s := by
  have hone : (1 : ℚ) ≤ n := by exact_mod_cast hn
  have hpos : 0 < q := by linarith
  obtain ⟨-, hlow⟩ := scale_spec hpos
  have hu := unit_pos (scale q)
  have hround : (n : ℚ) ≤ (roundEven (q / unit (scale q)) : ℤ) * unit (scale q) := by
    by_cases hunit : unit (scale q) ≤ 1
    · obtain ⟨m, hm⟩ : ∃ m : ℕ, unit (scale q) = ((2 : ℚ) ^ m)⁻¹ := by
        have hexp : (scale q : ℤ) - 1074 ≤ 0 := by
          by_contra hgt
          have hmore : 1 < unit (scale q) := by
            rw [unit]
            exact one_lt_zpow₀ (by norm_num) (not_le.mp hgt)
          linarith
        obtain ⟨m, hm⟩ : ∃ m : ℕ, (scale q : ℤ) - 1074 = -(m : ℤ) := ⟨(1074 - (scale q : ℤ)).toNat, by omega⟩
        exact ⟨m, by rw [unit, hm, zpow_neg, zpow_natCast]⟩
      have hge : ((n * 2 ^ m : ℕ) : ℤ) ≤ roundEven (q / unit (scale q)) := by
        apply le_roundEven
        rw [hm, div_inv_eq_mul]
        push_cast
        exact mul_le_mul_of_nonneg_right h (by positivity)
      calc (n : ℚ) = ((n * 2 ^ m : ℕ) : ℤ) * unit (scale q) := by
            rw [hm]
            push_cast
            field_simp
        _ ≤ _ := mul_le_mul_of_nonneg_right (by exact_mod_cast hge) hu.le
    · rw [not_le] at hunit
      have hlow : 2 ^ 52 * unit (scale q) ≤ q := by
        rcases hlow with hzero | hlow
        · have hleast : unit 0 ≤ 1 := by
            rw [unit]
            exact zpow_le_one_of_nonpos₀ (by norm_num) (by norm_num)
          rw [hzero] at hunit
          linarith
        · exact hlow
      have hge : (2 ^ 52 : ℤ) ≤ roundEven (q / unit (scale q)) := by
        apply le_roundEven
        rw [le_div_iff₀ hu]
        exact_mod_cast hlow
      have hge' : (2 ^ 52 : ℚ) ≤ (roundEven (q / unit (scale q)) : ℤ) := by exact_mod_cast hge
      have hcast : (n : ℚ) ≤ 2 ^ 53 := by exact_mod_cast hbits
      have htwo : (2 : ℚ) ≤ unit (scale q) := by
        have hexp : 0 < (scale q : ℤ) - 1074 := by
          by_contra hle
          have hsmall : unit (scale q) ≤ 1 := zpow_le_one_of_nonpos₀ (by norm_num) (not_lt.mp hle)
          exact absurd hunit (not_lt.mpr hsmall)
        calc (2 : ℚ) = 2 ^ (1 : ℤ) := by norm_num
          _ ≤ unit (scale q) := zpow_le_zpow_right₀ (by norm_num) (by omega)
      nlinarith
  have hcast : (((roundEven (q / unit (scale q))).toNat : ℕ) : ℚ) = roundEven (q / unit (scale q)) := by
    have hlt : (0 : ℚ) < (roundEven (q / unit (scale q)) : ℤ) := by
      by_contra hle
      have := mul_nonpos_of_nonpos_of_nonneg (not_lt.mp hle) hu.le
      linarith
    rw [← Int.cast_natCast, Int.toNat_of_nonneg (by exact_mod_cast hlt.le)]
  have hparts : (n : ℚ) ≤ (nearestParts q).1 * unit (nearestParts q).2 := by
    unfold nearestParts
    simp only
    split
    · next hcarry =>
      rw [← hcast, hcarry] at hround
      simp only [unit_succ]
      push_cast at hround ⊢
      linarith
    · simp only [hcast]
      exact hround
  unfold nearest
  rw [dif_pos hpos]
  split
  · exact .inl ⟨_, rfl, rfl, hparts⟩
  · exact .inr rfl

variable {w : Number} {m : ℤ} {n : ℕ}

/-- A number is one integer. -/
theorem is_unique {w : Number} {m m' : ℤ} (h : w.Is m) (h' : w.Is m') : m = m' := by
  obtain ⟨x, rfl, hx⟩ := h
  obtain ⟨y, hy, hvalue⟩ := h'
  cases hy
  exact Int.cast_injective (hx.symm.trans hvalue)

/-- A count from `2 ^ 53` on is a number from there on. -/
theorem ofInt_far (hn : 2 ^ 53 ≤ n) :
    (∃ y, Number.ofInt n = .finite y ∧ 2 ^ 53 ≤ y.value) ∨ Number.ofInt n = .infinity false := by
  have hcount : (0 : ℚ) ≤ ((n : ℤ) : ℚ) := by exact_mod_cast Nat.zero_le n
  have hne : ((n : ℤ) : ℚ) ≠ 0 := by
    have : 0 < n := by omega
    exact_mod_cast this.ne'
  have hfar : ((2 ^ 53 : ℕ) : ℚ) ≤ |((n : ℤ) : ℚ)| := by
    rw [abs_of_nonneg hcount]
    exact_mod_cast hn
  rw [Number.ofInt, Number.ofRat, if_neg hne, decide_eq_false (not_lt.mpr hcount)]
  refine (le_nearest false (by norm_num) (Nat.le_refl _) hfar).imp_left ?_
  rintro ⟨y, hy, hsign, hmag⟩
  refine ⟨y, hy, ?_⟩
  rw [value_eq_signed, hsign, signed, if_neg (by simp)]
  exact_mod_cast hmag

/-- A count, as a number, is on the side of a bound below `2 ^ 53` that it is on. -/
theorem le_ofInt_iff (hw : w.Is m) (hm : |m| < 2 ^ 53) : w.le (.ofInt n) = true ↔ m ≤ n := by
  rcases lt_or_ge n (2 ^ 53) with hn | hn
  · have hcount : (Number.ofInt n).Is ((n : ℤ) : ℚ) := is_ofInt (by omega)
    rw [le_iff hw hcount]
    exact Int.cast_le
  · have hless := (abs_lt.mp hm).2
    refine iff_of_true ?_ (by omega)
    obtain ⟨x, rfl, hx⟩ := hw
    rcases ofInt_far hn with ⟨y, hy, hfar⟩ | hinfinite
    · have hcast : (m : ℚ) ≤ 2 ^ 53 := by exact_mod_cast hless.le
      rw [hy]
      exact decide_eq_true (by linarith)
    · rw [hinfinite]
      rfl

theorem ofInt_le_iff (hw : w.Is m) (hm : |m| < 2 ^ 53) : (Number.ofInt n).le w = true ↔ (n : ℤ) ≤ m := by
  rcases lt_or_ge n (2 ^ 53) with hn | hn
  · have hcount : (Number.ofInt n).Is ((n : ℤ) : ℚ) := is_ofInt (by omega)
    rw [le_iff hcount hw]
    exact Int.cast_le
  · have hless := (abs_lt.mp hm).2
    refine iff_of_false (fun hle => ?_) (by omega)
    obtain ⟨x, rfl, hx⟩ := hw
    rcases ofInt_far hn with ⟨y, hy, hfar⟩ | hinfinite
    · have hcast : (m : ℚ) < 2 ^ 53 := by exact_mod_cast hless
      rw [hy] at hle
      have := of_decide_eq_true hle
      linarith
    · rw [hinfinite] at hle
      cases hle

end Double
