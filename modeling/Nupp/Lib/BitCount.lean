import Mathlib.Algebra.Group.Nat.Even
import Mathlib.Data.Nat.Bitwise
import Mathlib.Tactic.Ring

/-! The one bits of a number: one less clears the lowest of them. -/

namespace LuaBit

theorem and_pred_odd (u : ℕ) : (2 * u + 1) &&& (2 * u) = 2 * u := by
  apply Nat.eq_of_testBit_eq
  intro b
  cases b with
  | zero => simp
  | succ b =>
    have hhalf : (2 * u + 1) / 2 = u := by omega
    rw [Nat.testBit_and, Nat.testBit_succ, Nat.testBit_succ, hhalf, Nat.mul_div_cancel_left u (by decide), Bool.and_self]

theorem and_pred_even {u : ℕ} (hu : 0 < u) : (2 * u) &&& (2 * u - 1) = 2 * (u &&& (u - 1)) := by
  apply Nat.eq_of_testBit_eq
  intro b
  cases b with
  | zero => simp
  | succ b =>
    have hhalf : (2 * u - 1) / 2 = u - 1 := by omega
    rw [Nat.testBit_and, Nat.testBit_succ, Nat.testBit_succ, Nat.testBit_succ, hhalf,
      Nat.mul_div_cancel_left u (by decide), Nat.mul_div_cancel_left _ (by decide), Nat.testBit_and]

theorem countP_range_succ (p : ℕ → Bool) (n : ℕ) :
    (List.range (n + 1)).countP p = (List.range n).countP (fun b => p (b + 1)) + if p 0 then 1 else 0 := by
  rw [List.range_succ_eq_map, List.countP_cons, List.countP_map]
  rfl

/-- One bit fewer is left. -/
theorem countP_and_pred {n v : ℕ} (hpos : 0 < v) (hv : v < 2 ^ n) :
    (List.range n).countP (v &&& (v - 1)).testBit + 1 = (List.range n).countP v.testBit := by
  induction n generalizing v with
  | zero => omega
  | succ n ih =>
    rw [countP_range_succ, countP_range_succ]
    simp only [Nat.testBit_succ]
    rcases Nat.even_or_odd' v with ⟨u, rfl | rfl⟩
    · have hu : 0 < u := by omega
      rw [and_pred_even hu, Nat.mul_div_cancel_left u (by decide), Nat.mul_div_cancel_left _ (by decide),
        ← ih hu (by rw [pow_succ] at hv; omega)]
      simp [-Nat.testBit_and]
    · rw [Nat.add_sub_cancel, and_pred_odd, Nat.mul_div_cancel_left u (by decide), show (2 * u + 1) / 2 = u by omega]
      simp

end LuaBit
