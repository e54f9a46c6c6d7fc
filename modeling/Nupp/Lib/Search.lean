import Mathlib.Data.List.Basic
import Mathlib.Data.List.TakeDrop
import Mathlib.Data.List.Pairwise
import Mathlib.Data.Nat.Notation

/-! Binary search for the place where a test that holds at first stops holding, and what it cuts
a sorted list into. -/

namespace Search

/-- Halves the numbers from `lo` to `hi` as often as there are numbers between. -/
def narrow (test : ℕ → Bool) : ℕ → ℕ → ℕ → ℕ
  | 0, lo, _ => lo
  | n + 1, lo, hi =>
    if lo < hi then
      if test ((lo + hi) / 2) then narrow test n ((lo + hi) / 2 + 1) hi
      else narrow test n lo ((lo + hi) / 2)
    else lo

/-- The first number from `lo` on, and below `hi`, where the test fails. -/
def boundary (test : ℕ → Bool) (lo hi : ℕ) : ℕ := narrow test (hi - lo) lo hi

theorem le_narrow (test : ℕ → Bool) (n lo hi : ℕ) : lo ≤ narrow test n lo hi := by
  fun_induction narrow test n lo hi with
  | case1 lo => exact Nat.le_refl _
  | case2 n lo hi hlt hmid ih => omega
  | case3 n lo hi hlt hmid ih => exact ih
  | case4 n lo hi hge => exact Nat.le_refl _

theorem le_boundary (test : ℕ → Bool) (lo hi : ℕ) : lo ≤ boundary test lo hi :=
  le_narrow test _ lo hi

theorem narrow_spec {test : ℕ → Bool} {n lo hi : ℕ}
    (hdown : ∀ i j, i ≤ j → test j = true → test i = true) (h : lo ≤ hi) (hn : hi - lo ≤ n) :
    narrow test n lo hi ≤ hi ∧
      (∀ i, lo ≤ i → i < narrow test n lo hi → test i = true) ∧
      ∀ i, narrow test n lo hi ≤ i → i < hi → test i = false := by
  fun_induction narrow test n lo hi with
  | case1 lo hi => exact ⟨h, fun i _ _ => by omega, fun i _ _ => by omega⟩
  | case2 n lo hi hlt hmid ih =>
    obtain ⟨hhigh, hbelow, habove⟩ := ih (by omega) (by omega)
    refine ⟨hhigh, fun i hi' hlt' => ?_, habove⟩
    by_cases hle : i ≤ (lo + hi) / 2
    · exact hdown i _ hle hmid
    · exact hbelow i (by omega) hlt'
  | case3 n lo hi hlt hmid ih =>
    obtain ⟨hhigh, hbelow, habove⟩ := ih (by omega) (by omega)
    refine ⟨by omega, hbelow, fun i hi' hlt' => ?_⟩
    by_cases hle : (lo + hi) / 2 ≤ i
    · cases htest : test i with
      | false => rfl
      | true => exact absurd (hdown _ i hle htest) hmid
    · exact habove i hi' (by omega)
  | case4 n lo hi hge => exact ⟨h, fun i _ _ => by omega, fun i _ _ => by omega⟩

/-- A test that holds up to some number holds below the boundary and nowhere from it on. -/
theorem boundary_spec {test : ℕ → Bool} {lo hi : ℕ}
    (hdown : ∀ i j, i ≤ j → test j = true → test i = true) (h : lo ≤ hi) :
    boundary test lo hi ≤ hi ∧
      (∀ i, lo ≤ i → i < boundary test lo hi → test i = true) ∧
      ∀ i, boundary test lo hi ≤ i → i < hi → test i = false :=
  narrow_spec hdown h (Nat.le_refl _)

section Sorted

variable {α : Type*} {r : α → α → Prop} {l : List α}

/-- In a sorted list an upward test holds from some place on. -/
theorem test_down {up : α → Bool} (hsorted : l.Pairwise r)
    (hup : ∀ a b, r a b → up a = true → up b = true) {i j : ℕ} {a b : α} (hij : i ≤ j)
    (ha : l[i]? = some a) (hb : l[j]? = some b) (h : up a = true) : up b = true := by
  obtain ⟨hi, rfl⟩ := List.getElem?_eq_some_iff.mp ha
  obtain ⟨hj, rfl⟩ := List.getElem?_eq_some_iff.mp hb
  rcases Nat.eq_or_lt_of_le hij with rfl | hlt
  · exact h
  · exact hup _ _ (List.pairwise_iff_getElem.mp hsorted i j hi hj hlt) h

/-- A search, counting from one, parts a sorted list where an upward test begins to hold. -/
theorem boundary_parts {up : α → Bool} (hsorted : l.Pairwise r)
    (hup : ∀ a b, r a b → up a = true → up b = true) :
    (∀ a ∈ l.take (boundary (fun i => l[i - 1]?.any fun a => !up a) 1 (l.length + 1) - 1),
        up a = false) ∧
      ∀ a ∈ l.drop (boundary (fun i => l[i - 1]?.any fun a => !up a) 1 (l.length + 1) - 1),
        up a = true := by
  have hdown : ∀ i j, i ≤ j → (l[j - 1]?.any fun a => !up a) = true →
      (l[i - 1]?.any fun a => !up a) = true := by
    intro i j hij hj
    obtain ⟨b, hb, hnot⟩ := (Option.any_eq_true ..).mp hj
    have hlt := (List.getElem?_eq_some_iff.mp hb).1
    have ha : l[i - 1]? = some l[i - 1] := List.getElem?_eq_getElem (by omega)
    refine (Option.any_eq_true ..).mpr ⟨l[i - 1], ha, ?_⟩
    cases hupa : up l[i - 1] with
    | false => rfl
    | true => simp [test_down hsorted hup (by omega) ha hb hupa] at hnot
  have hlow := le_boundary (fun i => l[i - 1]?.any fun a => !up a) 1 (l.length + 1)
  obtain ⟨hhigh, hbelow, habove⟩ := boundary_spec hdown (show 1 ≤ l.length + 1 by omega)
  generalize boundary (fun i => l[i - 1]?.any fun a => !up a) 1 (l.length + 1) = k at *
  constructor
  · intro a ha
    obtain ⟨j, hj, rfl⟩ := List.mem_take_iff_getElem.mp ha
    have htest := hbelow (j + 1) (by omega) (by omega)
    rw [Nat.add_sub_cancel, List.getElem?_eq_getElem (by omega)] at htest
    simpa using htest
  · intro a ha
    obtain ⟨j, hj, rfl⟩ := List.mem_drop_iff_getElem.mp ha
    have htest := habove (k - 1 + j + 1) (by omega) (by omega)
    rw [Nat.add_sub_cancel, List.getElem?_eq_getElem (by omega)] at htest
    simpa using htest

/-- A list that is sorted stays so with a value between what is before it and what is after. -/
theorem pairwise_insert {k : ℕ} {x : α} (hsorted : l.Pairwise r)
    (hbefore : ∀ a ∈ l.take k, r a x) (hafter : ∀ a ∈ l.drop k, r x a) :
    (l.take k ++ x :: l.drop k).Pairwise r := by
  rw [← List.take_append_drop k l, List.pairwise_append] at hsorted
  obtain ⟨htake, hdrop, hcross⟩ := hsorted
  refine List.pairwise_append.mpr ⟨htake, List.pairwise_cons.mpr ⟨hafter, hdrop⟩, fun a ha b hb => ?_⟩
  rcases List.mem_cons.mp hb with rfl | hb
  · exact hbefore a ha
  · exact hcross a ha b hb

end Sorted

end Search
