import Nupp.Text.Utf8

/-! Walking a value backwards with `decodebefore`, which visits the positions the forward
walk visits. -/

namespace Nupp.Text

open Loop

variable {s : Bytes}

/-- From a byte back over continuation bytes, at most to the first one. -/
def leadBefore (source : Bytes) : ℕ → ℕ
  | 0 => 0
  | 1 => 1
  | start + 2 =>
    if (byteAt source (start + 2)).any fun b => 128 ≤ b && b ≤ 191 then leadBefore source (start + 1)
    else start + 2

/-- The code point ending just before an offset, and where it starts. -/
def decodebefore (source : Bytes) (byteoffset : ℤ) : Except String (Option ℕ × ℕ) :=
  (offset source byteoffset).map fun p =>
    if p = 1 then (none, 1)
    else
      let start := leadBefore source (p - 1)
      let (codepoint, next) := decode source start
      if next ≠ p then (some replacement, p - 1) else (codepoint, start)

/-! The two walks, as the positions and code points they visit. -/

def stepsStep (source : Bytes) (state : ℕ × List (ℕ × ℕ)) : Option (ℕ × List (ℕ × ℕ) ⊕ List (ℕ × ℕ)) :=
  match decodeat source state.1 with
  | .error _ => none
  | .ok (none, _) => some (.inr state.2)
  | .ok (some codepoint, next) => some (.inl (next, state.2 ++ [(state.1, codepoint)]))

/-- What `decodeat` reads from the first byte on until none is left. -/
def steps (source : Bytes) : Option (List (ℕ × ℕ)) := loop (stepsStep source) (source.length + 1) (1, [])

def stepsBackStep (source : Bytes) (state : ℕ × List (ℕ × ℕ)) :
    Option (ℕ × List (ℕ × ℕ) ⊕ List (ℕ × ℕ)) :=
  match decodebefore source state.1 with
  | .error _ => none
  | .ok (none, _) => some (.inr state.2)
  | .ok (some codepoint, before) => some (.inl (before, state.2 ++ [(before, codepoint)]))

/-- What `decodebefore` reads from the end on until the start. -/
def stepsBack (source : Bytes) : Option (List (ℕ × ℕ)) :=
  loop (stepsBackStep source) (source.length + 1) (source.length + 1, [])

/-! One step forward. -/

/-- The byte at `p` continues a sequence. -/
def IsTailAt (s : Bytes) (p : ℕ) : Prop := ∃ b, byteAt s p = some b ∧ 128 ≤ b ∧ b ≤ 191

theorem byteAt_le {p b : ℕ} (h : byteAt s p = some b) : 1 ≤ p ∧ p ≤ s.length := by
  cases p with
  | zero => cases h
  | succ p =>
    simp only [byteAt, Option.map_eq_some_iff] at h
    obtain ⟨c, hc, -⟩ := h
    obtain ⟨hlt, -⟩ := List.getElem?_eq_some_iff.mp hc
    omega

theorem byteAt_of_le {p : ℕ} (h1 : 1 ≤ p) (hle : p ≤ s.length) : ∃ b, byteAt s p = some b := by
  obtain ⟨p, rfl⟩ : ∃ k, p = k + 1 := ⟨p - 1, by omega⟩
  exact ⟨s[p].toNat, by simp [byteAt, List.getElem?_eq_getElem (show p < s.length by omega)]⟩

theorem continuations_tails {need p code c : ℕ} (h : continuations s need p code = some c) :
    ∀ i, p ≤ i → i < p + need → IsTailAt s i := by
  induction need generalizing p code with
  | zero =>
    intro i hp hi
    omega
  | succ need ih =>
    unfold continuations at h
    cases hb : byteAt s p with
    | none => simp [hb] at h
    | some b =>
      simp only [hb] at h
      split_ifs at h with hbad
      simp only [Bool.or_eq_true, decide_eq_true_eq, not_or, Nat.not_lt] at hbad
      intro i hp hi
      rcases Nat.eq_or_lt_of_le hp with rfl | hlt
      · exact ⟨b, hb, hbad⟩
      · exact ih h i hlt (by omega)

theorem leadForm_low {first need code min : ℕ} (h : leadForm first = some (need, code, min)) :
    194 ≤ first ∧ 1 ≤ need := by
  unfold leadForm at h
  split_ifs at h with h1 h2 h3
  all_goals
    simp only [Option.some.injEq, Prod.mk.injEq] at h
    simp only [Bool.and_eq_true, decide_eq_true_eq] at *
    omega

/-- A step forward is one byte long, or passes over a lead byte and its continuations. -/
theorem decode_step {p : ℕ} (h1 : 1 ≤ p) (hle : p ≤ s.length) :
    ∃ c next, decode s p = (some c, next) ∧ next ≤ s.length + 1 ∧
      (next = p + 1 ∧ (IsTailAt s p → c = replacement) ∨
        p + 1 < next ∧ ¬IsTailAt s p ∧ ∀ i, p < i → i < next → IsTailAt s i) := by
  obtain ⟨first, hfirst⟩ := byteAt_of_le h1 hle
  have htail : ∀ {P : Prop}, (128 ≤ first → first ≤ 191 → P) → IsTailAt s p → P := by
    rintro P h ⟨b, hb, hlow, hhigh⟩
    rw [hfirst] at hb
    cases hb
    exact h hlow hhigh
  unfold decode
  simp only [hfirst]
  by_cases hascii : first < 128
  · rw [if_pos hascii]
    exact ⟨first, p + 1, rfl, by omega, .inl ⟨rfl, htail fun hlow _ => absurd hascii (by omega)⟩⟩
  rw [if_neg hascii]
  have hone : ∃ c next, ((some replacement, p + 1) : Option ℕ × ℕ) = (some c, next) ∧ next ≤ s.length + 1 ∧
      (next = p + 1 ∧ (IsTailAt s p → c = replacement) ∨
        p + 1 < next ∧ ¬IsTailAt s p ∧ ∀ i, p < i → i < next → IsTailAt s i) :=
    ⟨replacement, p + 1, rfl, by omega, .inl ⟨rfl, fun _ => rfl⟩⟩
  cases hform : leadForm first with
  | none => exact hone
  | some form =>
    obtain ⟨need, code, min⟩ := form
    obtain ⟨hlead, hneed⟩ := leadForm_low hform
    dsimp only
    cases hrest : continuations s need (p + 1) code with
    | none => exact hone
    | some c =>
      dsimp only
      split_ifs with hbad
      · exact hone
      · have htails := continuations_tails hrest
        obtain ⟨b, hb, -⟩ := htails (p + need) (by omega) (by omega)
        have hlast := byteAt_le hb
        refine ⟨c, p + need + 1, rfl, by omega, .inr ⟨by omega, htail fun _ hhigh => by omega, ?_⟩⟩
        intro i hp hi
        exact htails i (by omega) (by omega)

/-! One step back. -/

theorem isTailAt_iff {p : ℕ} :
    IsTailAt s p ↔ ((byteAt s p).any fun b => 128 ≤ b && b ≤ 191) = true := by
  unfold IsTailAt
  cases byteAt s p <;> simp

theorem leadBefore_spec (p : ℕ) :
    leadBefore s p ≤ p ∧ (1 ≤ p → 1 ≤ leadBefore s p) ∧
      (leadBefore s p ≤ 1 ∨ ¬IsTailAt s (leadBefore s p)) ∧
      ∀ i, leadBefore s p < i → i ≤ p → IsTailAt s i := by
  induction p with
  | zero => exact ⟨le_refl _, by omega, .inl (Nat.zero_le _), fun i h hi => absurd h (by omega)⟩
  | succ p ih =>
    cases p with
    | zero => exact ⟨le_refl _, fun _ => le_refl _, .inl (le_refl _), fun i h hi => absurd h (by
        simp only [leadBefore] at h ⊢
        omega)⟩
    | succ p =>
      unfold leadBefore
      split_ifs with htail
      · obtain ⟨hle, hpos, hlead, htails⟩ := ih
        refine ⟨by omega, fun _ => hpos (by omega), hlead, fun i hlow hi => ?_⟩
        rcases Nat.eq_or_lt_of_le hi with rfl | hlt
        · exact isTailAt_iff.mpr htail
        · exact htails i hlow (by omega)
      · refine ⟨le_refl _, fun _ => by omega, .inr ?_, fun i hlow hi => absurd hlow (by omega)⟩
        exact fun h => htail (isTailAt_iff.mp h)

/-- No sequence that starts before `p` goes past it. -/
def Boundary (s : Bytes) (p : ℕ) : Prop :=
  ∀ r, 1 ≤ r → r < p → r = 1 ∨ ¬IsTailAt s r → (decode s r).2 ≤ p

theorem Boundary.step {p next : ℕ} {c : Option ℕ} (h : Boundary s p) (h1 : 1 ≤ p) (hle : p ≤ s.length)
    (hstep : decode s p = (c, next)) : Boundary s next := by
  obtain ⟨c', next', hstep', -, hnext⟩ := decode_step h1 hle
  rw [hstep] at hstep'
  cases hstep'
  have hlt : p < next := by
    rcases hnext with ⟨rfl, -⟩ | ⟨hlt, -, -⟩ <;> omega
  intro r hr hrn hlead
  rcases Nat.lt_trichotomy r p with hrp | rfl | hrp
  · exact (h r hr hrp hlead).trans hlt.le
  · rw [hstep]
  · rcases hnext with ⟨rfl, -⟩ | ⟨-, -, htails⟩
    · omega
    · rcases hlead with rfl | hlead
      · omega
      · exact absurd (htails r hrp hrn) hlead

theorem decodebefore_eq {p : ℕ} (h1 : 1 ≤ p) (hle : p ≤ s.length + 1) :
    decodebefore s (p : ℤ) = .ok (if p = 1 then (none, 1)
      else if (decode s (leadBefore s (p - 1))).2 ≠ p then (some replacement, p - 1)
      else ((decode s (leadBefore s (p - 1))).1, leadBefore s (p - 1))) := by
  have hrange : ((p : ℤ) < 1 || (p : ℤ) > s.length + 1) = false := by
    simp only [Bool.or_eq_false_iff, decide_eq_false_iff_not]
    omega
  simp only [decodebefore, offset, hrange]
  rfl

/-- Going back undoes a step from a boundary. -/
theorem decodebefore_step {p next : ℕ} {c : ℕ} (hb : Boundary s p) (h1 : 1 ≤ p) (hle : p ≤ s.length)
    (hstep : decode s p = (some c, next)) : decodebefore s (next : ℤ) = .ok (some c, p) := by
  obtain ⟨c', next', hstep', hbound, hnext⟩ := decode_step h1 hle
  rw [hstep] at hstep'
  cases hstep'
  obtain ⟨hback, hpos, hlead, htails⟩ := leadBefore_spec (s := s) (next - 1)
  have hlt : p < next := by
    rcases hnext with ⟨rfl, -⟩ | ⟨hlt, -, -⟩ <;> omega
  rw [decodebefore_eq (by omega) hbound, if_neg (by omega)]
  -- Where the scan back stops: at `p`, or before it when `p` holds a continuation byte.
  rcases Nat.lt_trichotomy (leadBefore s (next - 1)) p with hbefore | hat | hafter
  · have htail := htails p hbefore (by omega)
    rcases hnext with ⟨rfl, hreplaced⟩ | ⟨-, hnot, -⟩
    · have hends := hb (leadBefore s p) (hpos (by omega)) (by simpa using hbefore) (by
        rw [Nat.add_sub_cancel] at hlead
        rcases hlead with hone | hnot
        · exact .inl (Nat.le_antisymm hone (hpos (by omega)))
        · exact .inr hnot)
      rw [Nat.add_sub_cancel, if_pos (by omega), hreplaced htail]
    · exact absurd htail hnot
  · rw [hat, hstep, if_neg (not_not_intro rfl)]
  · rcases hnext with ⟨rfl, -⟩ | ⟨-, -, hpassed⟩
    · omega
    · rcases hlead with hone | hnot
      · omega
      · exact absurd (hpassed _ hafter (by omega)) hnot

/-! Whole walks. -/

/-- Steps from `p` to `q`, each of which goes back to where it started. -/
def Linked (s : Bytes) : ℕ → List (ℕ × ℕ) → ℕ → Prop
  | p, [], q => p = q
  | p, step :: rest, q => step.1 = p ∧ ∃ next : ℕ, p < next ∧ decodeat s p = .ok (some step.2, next) ∧
      decodebefore s next = .ok (some step.2, p) ∧ Linked s next rest q

theorem decodeat_of_le {p : ℕ} (h1 : 1 ≤ p) (hle : p ≤ s.length + 1) : decodeat s (p : ℤ) = .ok (decode s p) := by
  obtain ⟨k, rfl⟩ : ∃ k, p = k + 1 := ⟨p - 1, by omega⟩
  exact decodeat_eq (by omega)

theorem exists_linked (s : Bytes) (n p : ℕ) (hb : Boundary s p) (h1 : 1 ≤ p) (hle : p ≤ s.length + 1)
    (hn : s.length + 1 - p ≤ n) :
    ∃ list, Linked s p list (s.length + 1) ∧ list.length ≤ s.length + 1 - p := by
  induction n generalizing p with
  | zero => exact ⟨[], show p = s.length + 1 by omega, Nat.zero_le _⟩
  | succ n ih =>
    rcases Nat.eq_or_lt_of_le hle with rfl | hlt
    · exact ⟨[], rfl, Nat.zero_le _⟩
    · obtain ⟨c, next, hstep, hbound, hnext⟩ := decode_step h1 (Nat.lt_succ_iff.mp hlt)
      have hpn : p < next := by
        rcases hnext with ⟨rfl, -⟩ | ⟨h, -, -⟩ <;> omega
      obtain ⟨list, hlist, hlen⟩ := ih next (hb.step h1 (Nat.lt_succ_iff.mp hlt) hstep) (by omega) hbound (by omega)
      refine ⟨(p, c) :: list, ⟨rfl, next, hpn, ?_, ?_, hlist⟩, by rw [List.length_cons]; omega⟩
      · rw [decodeat_of_le h1 hle, hstep]
      · exact decodebefore_step hb h1 (Nat.lt_succ_iff.mp hlt) hstep

theorem decodeat_end : decodeat s ((s.length + 1 : ℕ) : ℤ) = .ok (none, s.length + 1) := by
  have hnone : byteAt s (s.length + 1) = none := by simp [byteAt]
  rw [decodeat_of_le (by omega) (le_refl _), decode, hnone]

theorem loop_stepsStep {p : ℕ} {list : List (ℕ × ℕ)} (h : Linked s p list (s.length + 1)) :
    ∀ (n : ℕ) (read : List (ℕ × ℕ)), list.length < n → loop (stepsStep s) n (p, read) = some (read ++ list) := by
  induction list generalizing p with
  | nil =>
    intro n read hn
    obtain ⟨n, rfl⟩ : ∃ m, n = m + 1 := ⟨n - 1, by simp at hn; omega⟩
    obtain rfl : p = s.length + 1 := h
    simp only [loop, stepsStep, decodeat_end, List.append_nil]
  | cons step rest ih =>
    intro n read hn
    obtain ⟨rfl, next, -, hat, -, hrest⟩ := h
    obtain ⟨n, rfl⟩ : ∃ m, n = m + 1 := ⟨n - 1, by simp at hn; omega⟩
    simp only [loop, stepsStep, hat]
    rw [ih hrest n _ (by simp at hn; omega), List.append_assoc]
    rfl

theorem loop_stepsBackStep {p q : ℕ} {list : List (ℕ × ℕ)} (h : Linked s p list q) :
    ∀ (n : ℕ) (read : List (ℕ × ℕ)), list.length < n →
      loop (stepsBackStep s) n (q, read) = loop (stepsBackStep s) (n - list.length) (p, read ++ list.reverse) := by
  induction list generalizing p with
  | nil =>
    intro n read hn
    obtain rfl : p = q := h
    simp
  | cons step rest ih =>
    intro n read hn
    obtain ⟨rfl, next, -, -, hback, hrest⟩ := h
    rw [List.length_cons] at hn
    rw [ih hrest n read (by omega), List.length_cons, List.reverse_cons, ← List.append_assoc]
    obtain ⟨m, hm⟩ : ∃ m, n - rest.length = m + 1 := ⟨n - rest.length - 1, by omega⟩
    rw [hm, show n - (rest.length + 1) = m by omega]
    simp only [loop, stepsBackStep, hback]

/-- Every step of the walk with `decodeat` is undone by `decodebefore`, and the walk back
from the end visits the same positions and code points the other way round. -/
theorem walks_agree (s : Bytes) :
    ∃ list, Linked s 1 list (s.length + 1) ∧ steps s = some list ∧ stepsBack s = some list.reverse := by
  have hfirst : Boundary s 1 := fun r h1 hlt => absurd hlt (by omega)
  obtain ⟨list, hlinked, hlen⟩ := exists_linked s s.length 1 hfirst (le_refl 1) (by omega) (by omega)
  refine ⟨list, hlinked, loop_stepsStep hlinked _ [] (by omega), ?_⟩
  have hstart : decodebefore s ((1 : ℕ) : ℤ) = .ok (none, 1) := by
    rw [decodebefore_eq (le_refl 1) (by omega), if_pos rfl]
  rw [stepsBack, loop_stepsBackStep hlinked _ [] (by omega)]
  obtain ⟨m, hm⟩ : ∃ m, s.length + 1 - list.length = m + 1 := ⟨s.length - list.length, by omega⟩
  simp only [hm, loop, stepsBackStep, hstart, List.nil_append]

end Nupp.Text
