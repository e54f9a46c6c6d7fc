import Mathlib.Data.List.Basic
import Mathlib.Tactic.Linarith

/-! Code points and the code units of their UTF-8 forms, as numbers. `front` reads the form
at the front of a sequence of units by its lead unit and the ranges of the others. -/

namespace Utf8

def IsSurrogate (c : ℕ) : Prop := 0xD800 ≤ c ∧ c ≤ 0xDFFF

instance (c : ℕ) : Decidable (IsSurrogate c) := inferInstanceAs (Decidable (_ ∧ _))

def IsScalar (c : ℕ) : Prop := c ≤ 0x10FFFF ∧ ¬ IsSurrogate c

instance (c : ℕ) : Decidable (IsScalar c) := inferInstanceAs (Decidable (_ ∧ _))

def units (c : ℕ) : List ℕ :=
  if c < 0x80 then [c]
  else if c < 0x800 then [0xC0 + c / 0x40, 0x80 + c % 0x40]
  else if c < 0x10000 then [0xE0 + c / 0x1000, 0x80 + c / 0x40 % 0x40, 0x80 + c % 0x40]
  else [0xF0 + c / 0x40000, 0x80 + c / 0x1000 % 0x40, 0x80 + c / 0x40 % 0x40, 0x80 + c % 0x40]

def isTail (b : ℕ) : Bool := 0x80 ≤ b && b ≤ 0xBF

/-- The range of the second unit after a lead unit that needs `need` more. -/
def secondLow (lead : ℕ) : ℕ := if lead = 0xE0 then 0xA0 else if lead = 0xF0 then 0x90 else 0x80

def secondHigh (lead : ℕ) : ℕ := if lead = 0xED then 0x9F else if lead = 0xF4 then 0x8F else 0xBF

def isSecond (lead b : ℕ) : Bool := secondLow lead ≤ b && b ≤ secondHigh lead

/-- The scalar a sequence begins with, and the number of its units. -/
def front : List ℕ → Option (ℕ × ℕ)
  | [] => none
  | a :: rest =>
    if a < 0x80 then some (a, 1)
    else if a < 0xC2 then none
    else if a < 0xE0 then
      match rest with
      | b :: _ => if isTail b then some ((a - 0xC0) * 0x40 + (b - 0x80), 2) else none
      | _ => none
    else if a < 0xF0 then
      match rest with
      | b :: c :: _ =>
        if isSecond a b && isTail c then
          some (((a - 0xE0) * 0x40 + (b - 0x80)) * 0x40 + (c - 0x80), 3)
        else none
      | _ => none
    else if a < 0xF5 then
      match rest with
      | b :: c :: d :: _ =>
        if isSecond a b && isTail c && isTail d then
          some ((((a - 0xF0) * 0x40 + (b - 0x80)) * 0x40 + (c - 0x80)) * 0x40 + (d - 0x80), 4)
        else none
      | _ => none
    else none

example : front [0xE2, 0x82, 0xAC, 0x20] = some (0x20AC, 3) := by
  simp [front, isSecond, secondLow, secondHigh, isTail]

theorem isTail_iff {b : ℕ} : isTail b = true ↔ 0x80 ≤ b ∧ b ≤ 0xBF := by
  simp [isTail]

theorem isSecond_iff {lead b : ℕ} : isSecond lead b = true ↔ secondLow lead ≤ b ∧ b ≤ secondHigh lead := by
  simp [isSecond]

theorem isTail_of_isSecond {lead b : ℕ} (h : isSecond lead b = true) : isTail b = true := by
  rw [isSecond_iff] at h
  rw [isTail_iff]
  unfold secondLow secondHigh at h
  split_ifs at h <;> omega

theorem front_one {a : ℕ} (rest : List ℕ) (h : a < 0x80) : front (a :: rest) = some (a, 1) := by
  simp [front, h]

theorem front_two {a b : ℕ} (rest : List ℕ) (hlow : 0xC2 ≤ a) (hhigh : a < 0xE0)
    (hb : isTail b = true) :
    front (a :: b :: rest) = some ((a - 0xC0) * 0x40 + (b - 0x80), 2) := by
  simp only [front, hb, if_true]
  rw [if_neg (by omega), if_neg (by omega), if_pos hhigh]

theorem front_three {a b c : ℕ} (rest : List ℕ) (hlow : 0xE0 ≤ a) (hhigh : a < 0xF0)
    (hb : isSecond a b = true) (hc : isTail c = true) :
    front (a :: b :: c :: rest) =
      some (((a - 0xE0) * 0x40 + (b - 0x80)) * 0x40 + (c - 0x80), 3) := by
  simp only [front, hb, hc, Bool.and_self, if_true]
  rw [if_neg (by omega), if_neg (by omega), if_neg (by omega), if_pos hhigh]

theorem front_four {a b c d : ℕ} (rest : List ℕ) (hlow : 0xF0 ≤ a) (hhigh : a < 0xF5)
    (hb : isSecond a b = true) (hc : isTail c = true) (hd : isTail d = true) :
    front (a :: b :: c :: d :: rest) =
      some ((((a - 0xF0) * 0x40 + (b - 0x80)) * 0x40 + (c - 0x80)) * 0x40 + (d - 0x80), 4) := by
  simp only [front, hb, hc, hd, Bool.and_self, if_true]
  rw [if_neg (by omega), if_neg (by omega), if_neg (by omega), if_neg (by omega), if_pos hhigh]

/-- The four forms. -/
theorem front_cases {l : List ℕ} {c n : ℕ} (h : front l = some (c, n)) :
    (∃ a rest, l = a :: rest ∧ a < 0x80 ∧ c = a ∧ n = 1) ∨
    (∃ a b rest, l = a :: b :: rest ∧ 0xC2 ≤ a ∧ a < 0xE0 ∧ isTail b = true ∧
      c = (a - 0xC0) * 0x40 + (b - 0x80) ∧ n = 2) ∨
    (∃ a b d rest, l = a :: b :: d :: rest ∧ 0xE0 ≤ a ∧ a < 0xF0 ∧ isSecond a b = true ∧
      isTail d = true ∧ c = ((a - 0xE0) * 0x40 + (b - 0x80)) * 0x40 + (d - 0x80) ∧ n = 3) ∨
    ∃ a b d e rest, l = a :: b :: d :: e :: rest ∧ 0xF0 ≤ a ∧ a < 0xF5 ∧ isSecond a b = true ∧
      isTail d = true ∧ isTail e = true ∧
      c = (((a - 0xF0) * 0x40 + (b - 0x80)) * 0x40 + (d - 0x80)) * 0x40 + (e - 0x80) ∧ n = 4 := by
  cases l with
  | nil => cases h
  | cons a rest =>
    simp only [front] at h
    split_ifs at h with h1 h2 h3 h4 h5
    · rw [Option.some.injEq, Prod.mk.injEq] at h
      exact .inl ⟨a, rest, rfl, h1, h.1.symm, h.2.symm⟩
    · match rest, h with
      | b :: rest, h =>
        simp only at h
        split_ifs at h with hb
        rw [Option.some.injEq, Prod.mk.injEq] at h
        exact .inr (.inl ⟨a, b, rest, rfl, by omega, h3, hb, h.1.symm, h.2.symm⟩)
    · match rest, h with
      | b :: d :: rest, h =>
        simp only at h
        split_ifs at h with hb
        rw [Option.some.injEq, Prod.mk.injEq] at h
        rw [Bool.and_eq_true] at hb
        exact .inr (.inr (.inl ⟨a, b, d, rest, rfl, by omega, h4, hb.1, hb.2, h.1.symm, h.2.symm⟩))
    · match rest, h with
      | b :: d :: e :: rest, h =>
        simp only at h
        split_ifs at h with hb
        rw [Option.some.injEq, Prod.mk.injEq] at h
        rw [Bool.and_eq_true, Bool.and_eq_true] at hb
        exact .inr (.inr (.inr
          ⟨a, b, d, e, rest, rfl, by omega, h5, hb.1.1, hb.1.2, hb.2, h.1.symm, h.2.symm⟩))

theorem units_ne_nil (c : ℕ) : units c ≠ [] := by
  unfold units
  split_ifs <;> simp

theorem isSecond_of_scalar {c : ℕ} (h : IsScalar c) (hlow : 0x800 ≤ c) :
    (c < 0x10000 → isSecond (0xE0 + c / 0x1000) (0x80 + c / 0x40 % 0x40) = true) ∧
      (0x10000 ≤ c → isSecond (0xF0 + c / 0x40000) (0x80 + c / 0x1000 % 0x40) = true) := by
  obtain ⟨hmax, hsur⟩ := h
  simp only [IsSurrogate, not_and, not_le] at hsur
  refine ⟨fun hhigh => ?_, fun hhigh => ?_⟩
  · rw [isSecond_iff, secondLow, secondHigh]
    split_ifs <;> omega
  · rw [isSecond_iff, secondLow, secondHigh]
    split_ifs <;> omega

theorem isTail_mod (n : ℕ) : isTail (0x80 + n % 0x40) = true := by
  rw [isTail_iff]
  omega

/-- A scalar is read back from its units. -/
theorem front_units {c : ℕ} (h : IsScalar c) (rest : List ℕ) :
    front (units c ++ rest) = some (c, (units c).length) := by
  have hmax := h.1
  unfold units
  split_ifs with h1 h2 h3
  · exact front_one rest h1
  · rw [List.cons_append, List.cons_append, front_two _ (by omega) (by omega) (isTail_mod _)]
    rw [Option.some.injEq, Prod.mk.injEq]
    exact ⟨by omega, rfl⟩
  · rw [List.cons_append, List.cons_append, List.cons_append,
      front_three _ (by omega) (by omega) ((isSecond_of_scalar h (by omega)).1 h3) (isTail_mod _)]
    rw [Option.some.injEq, Prod.mk.injEq]
    exact ⟨by omega, rfl⟩
  · rw [List.cons_append, List.cons_append, List.cons_append, List.cons_append,
      front_four _ (by omega) (by omega) ((isSecond_of_scalar h (by omega)).2 (by omega))
        (isTail_mod _) (isTail_mod _)]
    rw [Option.some.injEq, Prod.mk.injEq]
    exact ⟨by omega, rfl⟩

/-- What is read is a scalar, spelled by the units read. -/
theorem front_sound {l : List ℕ} {c n : ℕ} (h : front l = some (c, n)) :
    IsScalar c ∧ ∃ rest, l = units c ++ rest ∧ (units c).length = n := by
  rcases front_cases h with ⟨a, rest, rfl, ha, rfl, rfl⟩ |
      ⟨a, b, rest, rfl, hlow, hhigh, hb, hc, rfl⟩ |
      ⟨a, b, d, rest, rfl, hlow, hhigh, hb, hd, hc, rfl⟩ |
      ⟨a, b, d, e, rest, rfl, hlow, hhigh, hb, hd, he, hc, rfl⟩
  · exact ⟨⟨by omega, by simp [IsSurrogate]; omega⟩, rest, by simp [units, ha], by simp [units, ha]⟩
  · rw [isTail_iff] at hb
    have hunits : units c = [a, b] := by
      unfold units
      rw [if_neg (by omega), if_pos (by omega), List.cons.injEq, List.cons.injEq]
      refine ⟨by omega, by omega, rfl⟩
    refine ⟨⟨by omega, by simp only [IsSurrogate]; omega⟩, rest, by simp [hunits], by simp [hunits]⟩
  · have hrange := isSecond_iff.mp hb
    have hbt := isTail_iff.mp (isTail_of_isSecond hb)
    rw [isTail_iff] at hd
    unfold secondLow secondHigh at hrange
    have hbig : 0x800 ≤ c ∧ c < 0x10000 ∧ ¬ IsSurrogate c := by
      simp only [IsSurrogate]
      split_ifs at hrange <;> omega
    have hunits : units c = [a, b, d] := by
      unfold units
      rw [if_neg (by omega), if_neg (by omega), if_pos hbig.2.1]
      simp only [List.cons.injEq, and_true]
      refine ⟨by omega, by omega, by omega⟩
    exact ⟨⟨by omega, hbig.2.2⟩, rest, by simp [hunits], by simp [hunits]⟩
  · have hrange := isSecond_iff.mp hb
    have hbt := isTail_iff.mp (isTail_of_isSecond hb)
    rw [isTail_iff] at hd he
    unfold secondLow secondHigh at hrange
    have hbig : 0x10000 ≤ c ∧ c ≤ 0x10FFFF := by
      split_ifs at hrange <;> omega
    have hunits : units c = [a, b, d, e] := by
      unfold units
      rw [if_neg (by omega), if_neg (by omega), if_neg (by omega)]
      simp only [List.cons.injEq, and_true]
      refine ⟨by omega, by omega, by omega, by omega⟩
    exact ⟨⟨hbig.2, by simp only [IsSurrogate]; omega⟩, rest, by simp [hunits], by simp [hunits]⟩

/-! Sequences of scalars. -/

def spell (cs : List ℕ) : List ℕ := cs.flatMap units

@[simp] theorem spell_nil : spell [] = [] := rfl

@[simp] theorem spell_cons (c : ℕ) (cs : List ℕ) : spell (c :: cs) = units c ++ spell cs := rfl

theorem spell_append (cs ds : List ℕ) : spell (cs ++ ds) = spell cs ++ spell ds := List.flatMap_append

/-- Scalars spelled at the front of a sequence are read before anything else spelled there,
as long as there is something to read. -/
theorem spell_length_le {cs ds rest tail : List ℕ} (hcs : ∀ c ∈ cs, IsScalar c)
    (hds : ∀ d ∈ ds, IsScalar d) (hrest : front rest = none)
    (h : spell cs ++ rest = spell ds ++ tail) : (spell ds).length ≤ (spell cs).length := by
  induction cs generalizing ds with
  | nil =>
    cases ds with
    | nil => exact le_refl _
    | cons d ds =>
      have hd := front_units (hds d List.mem_cons_self) (spell ds ++ tail)
      rw [← List.append_assoc, ← spell_cons, ← h, spell_nil, List.nil_append, hrest] at hd
      cases hd
  | cons c cs ih =>
    cases ds with
    | nil => exact Nat.zero_le _
    | cons d ds =>
      rw [spell_cons, spell_cons, List.append_assoc, List.append_assoc] at h
      have hc := front_units (hcs c List.mem_cons_self) (spell cs ++ rest)
      have hd := front_units (hds d List.mem_cons_self) (spell ds ++ tail)
      rw [h, hd, Option.some.injEq, Prod.mk.injEq] at hc
      obtain ⟨rfl, -⟩ := hc
      have htail := ih (fun x hx => hcs x (List.mem_cons_of_mem _ hx))
        (fun x hx => hds x (List.mem_cons_of_mem _ hx)) (List.append_cancel_left h)
      simp only [spell_cons, List.length_append]
      omega

theorem spell_injective {cs ds : List ℕ} (hcs : ∀ c ∈ cs, IsScalar c) (hds : ∀ d ∈ ds, IsScalar d)
    (h : spell cs = spell ds) : cs = ds := by
  induction cs generalizing ds with
  | nil =>
    cases ds with
    | nil => rfl
    | cons d ds => simp [units_ne_nil] at h
  | cons c cs ih =>
    cases ds with
    | nil => simp [units_ne_nil] at h
    | cons d ds =>
      rw [spell_cons, spell_cons] at h
      have hc := front_units (hcs c List.mem_cons_self) (spell cs)
      have hd := front_units (hds d List.mem_cons_self) (spell ds)
      rw [h, hd, Option.some.injEq, Prod.mk.injEq] at hc
      obtain ⟨rfl, -⟩ := hc
      rw [ih (fun x hx => hcs x (List.mem_cons_of_mem _ hx))
        (fun x hx => hds x (List.mem_cons_of_mem _ hx)) (List.append_cancel_left h)]

end Utf8
