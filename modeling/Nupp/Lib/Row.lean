import Mathlib.Data.List.Nodup
import Mathlib.Data.List.Range
import Mathlib.Logic.Function.Basic

/-! Arrays whose slots count from one, written a run of slots at a time, and what their
first slots hold. -/

namespace Nupp.Row

variable {α : Type*}

/-- What the first `n` slots hold. -/
def front (row : ℕ → α) (n : ℕ) : List α := (List.range' 1 n).map row

/-- Writes a list into the slots behind `first`. -/
def fill (row : ℕ → α) (first : ℕ) : List α → ℕ → α
  | [] => row
  | x :: list => fill (Function.update row (first + 1) x) (first + 1) list

@[simp] theorem front_zero (row : ℕ → α) : front row 0 = [] := rfl

@[simp] theorem length_front (row : ℕ → α) (n : ℕ) : (front row n).length = n := by
  simp [front]

theorem front_succ (row : ℕ → α) (n : ℕ) : front row (n + 1) = front row n ++ [row (n + 1)] := by
  simp [front, List.range'_concat, Nat.add_comm]

theorem front_congr {row other : ℕ → α} {n : ℕ} (h : ∀ i, 1 ≤ i → i ≤ n → row i = other i) :
    front row n = front other n := by
  refine List.map_congr_left fun i hi => ?_
  rw [List.mem_range'_1] at hi
  exact h i hi.1 (by omega)

theorem front_update {row : ℕ → α} {n i : ℕ} (x : α) (hi : n < i) :
    front (Function.update row i x) n = front row n :=
  front_congr fun j _ hj => Function.update_of_ne (by omega) _ _

theorem front_push (row : ℕ → α) (n : ℕ) (x : α) :
    front (Function.update row (n + 1) x) (n + 1) = front row n ++ [x] := by
  rw [front_succ, front_update x (Nat.lt_succ_self n), Function.update_self]

/-- Slots behind the front leave it as it is. -/
theorem front_fill_of_le (list : List α) {row : ℕ → α} {n first : ℕ} (h : n ≤ first) :
    front (fill row first list) n = front row n := by
  induction list generalizing row first with
  | nil => rfl
  | cons x list ih =>
    rw [fill, ih (h.trans (Nat.le_succ first)), front_update x (Nat.lt_succ_of_le h)]

/-- Filling right behind the front extends it. -/
theorem front_fill (list : List α) (row : ℕ → α) (n : ℕ) :
    front (fill row n list) (n + list.length) = front row n ++ list := by
  induction list generalizing row n with
  | nil => simp [fill]
  | cons x list ih =>
    have hlen : n + (x :: list).length = n + 1 + list.length := by
      rw [List.length_cons]
      omega
    rw [fill, hlen, ih, front_push, List.append_assoc, List.singleton_append]

theorem mem_front {row : ℕ → α} {n : ℕ} {x : α} : x ∈ front row n ↔ ∃ i, 1 ≤ i ∧ i ≤ n ∧ row i = x := by
  simp only [front, List.mem_map, List.mem_range'_1]
  constructor
  · rintro ⟨i, hi, hx⟩
    exact ⟨i, hi.1, by omega, hx⟩
  · rintro ⟨i, h1, hn, hx⟩
    exact ⟨i, ⟨h1, by omega⟩, hx⟩

/-- Where the front has no two equal slots, a member stands in one slot. -/
theorem existsUnique_slot {row : ℕ → α} {n : ℕ} {x : α} (h : (front row n).Nodup) (hx : x ∈ front row n) :
    ∃! i, 1 ≤ i ∧ i ≤ n ∧ row i = x := by
  obtain ⟨i, h1, hn, hi⟩ := mem_front.mp hx
  refine ⟨i, ⟨h1, hn, hi⟩, ?_⟩
  rintro j ⟨hj1, hjn, hj⟩
  have hinj := List.inj_on_of_nodup_map h
  refine hinj (List.mem_range'_1.mpr ⟨hj1, by omega⟩) (List.mem_range'_1.mpr ⟨h1, by omega⟩) ?_
  rw [hi, hj]

end Nupp.Row
