import Mathlib.Data.Nat.Notation
import Mathlib.Logic.Function.Basic

/-! Loops that count up, as folds over the naturals below a bound: the invariant rule, and
buffers that such a loop fills from a base on. -/

namespace Nupp.Counted

variable {σ α : Type*}

theorem fold_induction {n : ℕ} {f : (i : ℕ) → i < n → σ → σ} {s : σ} (inv : ℕ → σ → Prop)
    (hstart : inv 0 s) (hstep : ∀ i (h : i < n) s, inv i s → inv (i + 1) (f i h s)) :
    inv n (n.fold f s) := by
  induction n with
  | zero => exact hstart
  | succ n ih =>
    rw [Nat.fold_succ]
    exact hstep n _ _ (ih fun i h s hs => hstep i (Nat.lt_succ_of_lt h) s hs)

theorem fold_congr {n : ℕ} {f g : (i : ℕ) → i < n → σ → σ} {s : σ}
    (h : ∀ i (hi : i < n) s, f i hi s = g i hi s) : n.fold f s = n.fold g s := by
  have hfg : f = g := funext fun i => funext fun hi => funext fun s => h i hi s
  rw [hfg]

/-- Two loops keep a relation that every round keeps. -/
theorem fold_rel {τ : Type*} {n : ℕ} {f : (i : ℕ) → i < n → σ → σ} {g : (i : ℕ) → i < n → τ → τ}
    {s : σ} {t : τ} (rel : ℕ → σ → τ → Prop) (hstart : rel 0 s t)
    (hstep : ∀ i (h : i < n) s t, rel i s t → rel (i + 1) (f i h s) (g i h t)) :
    rel n (n.fold f s) (n.fold g t) := by
  induction n with
  | zero => exact hstart
  | succ n ih =>
    rw [Nat.fold_succ, Nat.fold_succ]
    exact hstep n _ _ _ (ih fun i h s t hst => hstep i (Nat.lt_succ_of_lt h) s t hst)

/-- Writing `v i` at `base + i` for each `i` below `n`. -/
def fill (n base : ℕ) (v : ℕ → α) (buffer : ℕ → α) : ℕ → α :=
  n.fold (fun i _ buffer => Function.update buffer (base + i) (v i)) buffer

theorem fill_apply (n base : ℕ) (v : ℕ → α) (buffer : ℕ → α) (j : ℕ) :
    fill n base v buffer j = if base ≤ j ∧ j < base + n then v (j - base) else buffer j := by
  induction n with
  | zero =>
    rw [if_neg (by omega)]
    rfl
  | succ n ih =>
    rw [fill, Nat.fold_succ]
    by_cases hj : j = base + n
    · rw [hj, Function.update_self, if_pos (by omega), Nat.add_sub_cancel_left]
    · rw [Function.update_of_ne hj]
      rw [fill] at ih
      rw [ih]
      by_cases hin : base ≤ j ∧ j < base + n
      · rw [if_pos hin, if_pos (by omega)]
      · rw [if_neg hin, if_neg (by omega)]

end Nupp.Counted
