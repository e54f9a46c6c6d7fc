import Mathlib.Data.Rat.Floor
import Mathlib.Order.Monotone.Basic
import Mathlib.Tactic.FieldSimp
import Mathlib.Tactic.Linarith
import Mathlib.Tactic.Positivity
import Mathlib.Tactic.Ring

/-! Binary32 magnitudes in the order of their bit patterns, and the one nearest to a rational,
ties to even. -/

namespace Nupp.Single

/-- The magnitude that a pattern without its sign names. -/
def val (p : ℕ) : ℚ :=
  if p / 2 ^ 23 = 0 then (p % 2 ^ 23 : ℕ) * 2 ^ (-149 : ℤ)
  else (p % 2 ^ 23 + 2 ^ 23 : ℕ) * 2 ^ (((p / 2 ^ 23 : ℕ) : ℤ) - 150)

/-- The first pattern that is not of a finite magnitude. -/
def limit : ℕ := 255 * 2 ^ 23

/-- Half a step past the largest magnitude. -/
def overflow : ℚ := 2 ^ 128 - 2 ^ 103

/-- No finite magnitude is nearer to `q`, and of two as near the one whose pattern is even. -/
def Nearest (q : ℚ) (p : ℕ) : Prop :=
  p < limit ∧ ∀ r < limit, |q - val p| ≤ |q - val r| ∧
    (|q - val p| = |q - val r| → r ≠ p → p % 2 = 0)

/-- What `q` rounds to: infinity from half a step past the largest magnitude on. -/
def Rounds (q : ℚ) (p : ℕ) : Prop := (q < overflow ∧ Nearest q p) ∨ (overflow ≤ q ∧ p = limit)

/-- In a block of patterns the magnitudes are the multiples of one step. -/
theorem val_block {j k : ℕ} (hk : k ≤ 2 ^ 24) (h : j = 0 ∨ 2 ^ 23 ≤ k) :
    val (j * 2 ^ 23 + k) = k * 2 ^ ((j : ℤ) - 149) := by
  unfold val
  by_cases hsub : (j * 2 ^ 23 + k) / 2 ^ 23 = 0
  · have hj : j = 0 := by omega
    have hmod : (j * 2 ^ 23 + k) % 2 ^ 23 = k := by omega
    rw [if_pos hsub, hmod, hj]
    norm_num
  · rw [if_neg hsub]
    have hge : 2 ^ 23 ≤ k := by
      rcases h with rfl | hge
      · omega
      · exact hge
    by_cases htop : k = 2 ^ 24
    · have hdiv : (j * 2 ^ 23 + k) / 2 ^ 23 = j + 2 := by omega
      have hmod : (j * 2 ^ 23 + k) % 2 ^ 23 = 0 := by omega
      have hexp : ((j + 2 : ℕ) : ℤ) - 150 = ((j : ℤ) - 149) + 1 := by omega
      rw [hdiv, hmod, htop, hexp, zpow_add_one₀ (by norm_num)]
      push_cast
      ring
    · have hdiv : (j * 2 ^ 23 + k) / 2 ^ 23 = j + 1 := by omega
      have hmod : (j * 2 ^ 23 + k) % 2 ^ 23 = k - 2 ^ 23 := by omega
      have hexp : ((j + 1 : ℕ) : ℤ) - 150 = (j : ℤ) - 149 := by omega
      rw [hdiv, hmod, hexp, Nat.sub_add_cancel hge]

/-- Every pattern is in a block, and not its last. -/
theorem exists_block (p : ℕ) : ∃ j k, p = j * 2 ^ 23 + k ∧ k < 2 ^ 24 ∧ (j = 0 ∨ 2 ^ 23 ≤ k) := by
  by_cases hsub : p < 2 ^ 23
  · exact ⟨0, p, by omega, by omega, Or.inl rfl⟩
  · exact ⟨p / 2 ^ 23 - 1, p % 2 ^ 23 + 2 ^ 23, by omega, by omega, Or.inr (by omega)⟩

theorem val_lt_succ (p : ℕ) : val p < val (p + 1) := by
  obtain ⟨j, k, rfl, hk, hblock⟩ := exists_block p
  have hstep : (0 : ℚ) < 2 ^ ((j : ℤ) - 149) := zpow_pos (by norm_num) _
  rw [Nat.add_assoc, val_block hk.le hblock, val_block hk (hblock.imp_right fun h => by omega)]
  push_cast
  linarith

theorem val_strictMono : StrictMono val := strictMono_nat_of_lt_succ val_lt_succ

theorem val_zero : val 0 = 0 := by norm_num [val]

theorem val_nonneg (p : ℕ) : 0 ≤ val p := by
  rw [← val_zero]
  exact val_strictMono.monotone (Nat.zero_le p)

theorem val_limit_pred : val (limit - 1) = 2 ^ 128 - 2 ^ 104 := by
  have hsplit : limit - 1 = 253 * 2 ^ 23 + (2 ^ 24 - 1) := by norm_num [limit]
  rw [hsplit, val_block (by norm_num) (Or.inr (by norm_num))]
  norm_num

theorem val_limit : val limit = 2 ^ 128 := by
  have hsplit : limit = 253 * 2 ^ 23 + 2 ^ 24 := by norm_num [limit]
  rw [hsplit, val_block le_rfl (Or.inr (by norm_num))]
  norm_num

section Nearest

variable {q q' : ℚ} {p r : ℕ}

/-- Between two neighbours, nearer to the lower one or as near and that one even. -/
theorem nearest_lower (hp : p < limit) (hlow : val p ≤ q) (hhigh : q ≤ val (p + 1))
    (h : q - val p < val (p + 1) - q ∨ (q - val p = val (p + 1) - q ∧ p % 2 = 0)) :
    Nearest q p := by
  refine ⟨hp, fun r _ => ?_⟩
  rw [abs_of_nonneg (sub_nonneg.mpr hlow)]
  rcases Nat.lt_trichotomy r p with hr | rfl | hr
  · have hless := val_strictMono hr
    rw [abs_of_nonneg (by linarith)]
    exact ⟨by linarith, fun heq => by linarith⟩
  · rw [abs_of_nonneg (sub_nonneg.mpr hlow)]
    exact ⟨le_rfl, fun _ hne => absurd rfl hne⟩
  · have hmore : val (p + 1) ≤ val r := val_strictMono.monotone hr
    rw [abs_of_nonpos (by linarith)]
    rcases h with hlt | ⟨htie, heven⟩
    · exact ⟨by linarith, fun heq => by linarith⟩
    · exact ⟨by linarith, fun _ _ => heven⟩

/-- Between two neighbours, nearer to the upper one or as near and that one even. -/
theorem nearest_upper (hp : p + 1 < limit) (hlow : val p ≤ q) (hhigh : q ≤ val (p + 1))
    (h : val (p + 1) - q < q - val p ∨ (val (p + 1) - q = q - val p ∧ (p + 1) % 2 = 0)) :
    Nearest q (p + 1) := by
  refine ⟨hp, fun r _ => ?_⟩
  rw [abs_of_nonpos (sub_nonpos.mpr hhigh)]
  rcases Nat.lt_trichotomy r (p + 1) with hr | rfl | hr
  · have hless : val r ≤ val p := val_strictMono.monotone (Nat.lt_succ_iff.mp hr)
    rw [abs_of_nonneg (by linarith)]
    rcases h with hlt | ⟨htie, heven⟩
    · exact ⟨by linarith, fun heq => by linarith⟩
    · exact ⟨by linarith, fun _ _ => heven⟩
  · rw [abs_of_nonpos (sub_nonpos.mpr hhigh)]
    exact ⟨le_rfl, fun _ hne => absurd rfl hne⟩
  · have hmore := val_strictMono hr
    rw [abs_of_nonpos (by linarith)]
    exact ⟨by linarith, fun heq => by linarith⟩

theorem nearest_val (hp : p < limit) : Nearest (val p) p :=
  nearest_lower hp le_rfl (val_lt_succ p).le (Or.inl (by linarith [val_lt_succ p]))

theorem Nearest.mono (h : Nearest q p) (h' : Nearest q' r) (hle : q ≤ q') : p ≤ r := by
  by_contra hlt
  rw [not_le] at hlt
  have hval := val_strictMono hlt
  obtain ⟨hnear, htie⟩ := h.2 r h'.1
  obtain ⟨hnear', htie'⟩ := h'.2 p h.1
  have hmid : val p - q ≤ q - val r := by
    have habs := neg_le_abs (q - val p)
    rcases abs_cases (q - val r) with ⟨heq, -⟩ | ⟨heq, hneg⟩
    · linarith
    · linarith
  have hmid' : q' - val r ≤ val p - q' := by
    have habs := le_abs_self (q' - val r)
    rcases abs_cases (q' - val p) with ⟨heq, hpos⟩ | ⟨heq, -⟩
    · linarith
    · linarith
  have hq : q' = q := by linarith
  have hhalf : val p - q = q - val r := by linarith
  have heq : |q - val p| = |q - val r| := by
    rw [abs_of_nonpos (by linarith), abs_of_nonneg (by linarith)]
    linarith
  have heven := htie heq hlt.ne
  have heven' := htie' (by rw [hq]; exact heq.symm) hlt.ne'
  have hnext : r + 1 < p := by omega
  have hbetween := val_strictMono hnext
  have hbetween' := val_lt_succ r
  have hcloser := (h.2 (r + 1) (hnext.trans h.1)).1
  rw [abs_of_nonpos (by linarith)] at hcloser
  rcases abs_cases (q - val (r + 1)) with ⟨habs, -⟩ | ⟨habs, -⟩
  · linarith
  · linarith

theorem Nearest.unique (h : Nearest q p) (h' : Nearest q r) : p = r :=
  le_antisymm (h.mono h' le_rfl) (h'.mono h le_rfl)

theorem Rounds.mono (h : Rounds q p) (h' : Rounds q' r) (hle : q ≤ q') : p ≤ r := by
  rcases h with ⟨hq, hnear⟩ | ⟨hq, rfl⟩
  · rcases h' with ⟨-, hnear'⟩ | ⟨-, rfl⟩
    · exact hnear.mono hnear' hle
    · exact hnear.1.le
  · rcases h' with ⟨hq', -⟩ | ⟨-, rfl⟩
    · exact absurd (hq.trans hle) (not_le.mpr hq')
    · exact le_rfl

theorem Rounds.unique (h : Rounds q p) (h' : Rounds q r) : p = r :=
  le_antisymm (h.mono h' le_rfl) (h'.mono h le_rfl)

theorem Rounds.le_limit (h : Rounds q p) : p ≤ limit := by
  rcases h with ⟨-, hnear⟩ | ⟨-, rfl⟩
  · exact hnear.1.le
  · exact le_rfl

theorem val_lt_overflow (hp : p < limit) : val p < overflow := by
  have hle : val p ≤ val (limit - 1) := val_strictMono.monotone (by omega)
  rw [val_limit_pred] at hle
  have hgap : (2 : ℚ) ^ 128 - 2 ^ 104 < overflow := by norm_num [overflow]
  linarith

theorem rounds_val (hp : p < limit) : Rounds (val p) p :=
  Or.inl ⟨val_lt_overflow hp, nearest_val hp⟩

/-- Above the largest magnitude and less than half a step past it. -/
theorem nearest_largest (hlow : val (limit - 1) ≤ q) (hhigh : q < overflow) :
    Nearest q (limit - 1) := by
  have hsucc : limit - 1 + 1 = limit := by norm_num [limit]
  have hover : overflow = (2 ^ 128 - 2 ^ 104 + 2 ^ 128) / 2 := by norm_num [overflow]
  have hlargest := val_limit_pred
  have hlimit := val_limit
  refine nearest_lower (by norm_num [limit]) hlow ?_ (Or.inl ?_)
  · rw [hsucc, hlimit]
    rw [hover] at hhigh
    rw [hlargest] at hlow
    linarith
  · rw [hsucc, hlimit, hlargest]
    rw [hover] at hhigh
    linarith

/-- One rounding between two neighbours, upwards or not. -/
theorem rounds_step (hlow : val p ≤ q) (hhigh : q < val (p + 1)) {u : Prop} [Decidable u]
    (hup : u ↔ val (p + 1) - q < q - val p ∨ (val (p + 1) - q = q - val p ∧ p % 2 = 1)) :
    Rounds q (min (if u then p + 1 else p) limit) := by
  have hlast : limit - 1 + 1 = limit := by norm_num [limit]
  have hover : overflow = (val (limit - 1) + val limit) / 2 := by
    rw [val_limit_pred, val_limit]
    norm_num [overflow]
  have hodd : (limit - 1) % 2 = 1 := by norm_num [limit]
  rcases Nat.lt_trichotomy p (limit - 1) with hless | rfl | hmore
  · have hsucc : val (p + 1) ≤ val (limit - 1) := val_strictMono.monotone (by omega)
    have hbelow : q < overflow := by linarith [val_lt_overflow (p := limit - 1) (by omega)]
    by_cases hdir : u
    · rw [if_pos hdir, Nat.min_eq_left (by omega)]
      refine Or.inl ⟨hbelow, nearest_upper (by omega) hlow hhigh.le ?_⟩
      exact (hup.mp hdir).imp_right fun ⟨htie, hparity⟩ => ⟨htie, by omega⟩
    · rw [if_neg hdir, Nat.min_eq_left (by omega)]
      refine Or.inl ⟨hbelow, nearest_lower (by omega) hlow hhigh.le ?_⟩
      rcases lt_trichotomy (q - val p) (val (p + 1) - q) with hlt | heq | hgt
      · exact Or.inl hlt
      · refine Or.inr ⟨heq, ?_⟩
        by_contra hparity
        exact hdir (hup.mpr (Or.inr ⟨heq.symm, by omega⟩))
      · exact absurd (hup.mpr (Or.inl hgt)) hdir
  · rw [hlast] at hhigh hup ⊢
    by_cases hdir : u
    · rw [if_pos hdir, Nat.min_self]
      refine Or.inr ⟨?_, rfl⟩
      rcases hup.mp hdir with hlt | ⟨heq, -⟩
      · linarith
      · linarith
    · rw [if_neg hdir, Nat.min_eq_left (by omega)]
      have hbelow : q < overflow := by
        by_contra hge
        rcases lt_or_eq_of_le (not_lt.mp hge) with hlt | heq
        · exact hdir (hup.mpr (Or.inl (by linarith)))
        · exact hdir (hup.mpr (Or.inr ⟨by linarith, hodd⟩))
      exact Or.inl ⟨hbelow, nearest_largest hlow hbelow⟩
  · have hge : val limit ≤ val p := val_strictMono.monotone (by omega)
    have hmin : min (if u then p + 1 else p) limit = limit := by
      split
      · omega
      · omega
    rw [hmin]
    refine Or.inr ⟨?_, rfl⟩
    have hgap : overflow < val limit := by
      rw [val_limit]
      norm_num [overflow]
    linarith

end Nearest

end Nupp.Single
