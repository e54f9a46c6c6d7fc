import Mathlib.Data.List.TakeWhile
import Nupp.Syntax.StringPieces

/-! Which bytes an escape takes, and that it takes the same ones whatever stands behind
them. -/

namespace Nupp.Lexer

/-- Text that ends an escape where `r` ends it. -/
def Follows (r r' : Bytes) : Prop :=
  ∀ c, r'.head? = some c → r.head? = some c ∨ spaceByte c = false ∧ digitByte c = false

/-- Bytes the substitution passes through. -/
def Inert (used : Bytes) : Prop := ∀ x ∈ used, x ≠ 34 ∧ x ≠ 92 ∧ x ≠ 10

/-- An escape that `f` reads off `l`: the bytes it takes, which decide what it denotes. -/
def Takes (f : Bytes → Option (Bytes × Bytes)) (l v r used : Bytes) : Prop :=
  l = used ++ r ∧ ∀ r', Follows r r' → f (used ++ r') = some (v, r')

theorem Follows.of_head {r r' : Bytes} (h : r'.head? = r.head?) : Follows r r' := by
  intro c hc
  exact .inl (h ▸ hc)

/-- A class of bytes that stops where it stopped. -/
theorem dropWhile_follows {pred : UInt8 → Bool} {u r r' : Bytes} (hu : ∀ x ∈ u, pred x = true)
    (hr : ∀ c, r.head? = some c → pred c = false)
    (hpred : ∀ c, spaceByte c = false → digitByte c = false → pred c = false)
    (h : Follows r r') : (u ++ r').takeWhile pred = u ∧ (u ++ r').dropWhile pred = r' := by
  have hhead : ∀ c, r'.head? = some c → pred c = false := by
    intro c hc
    rcases h c hc with hsame | ⟨hspace, hdigit⟩
    · exact hr c hsame
    · exact hpred c hspace hdigit
  have hstop : r'.takeWhile pred = [] ∧ r'.dropWhile pred = r' := by
    cases r' with
    | nil => exact ⟨rfl, rfl⟩
    | cons c r' =>
      have hc := hhead c rfl
      exact ⟨List.takeWhile_cons_of_neg (by simp [hc]), List.dropWhile_cons_of_neg (by simp [hc])⟩
  constructor
  · rw [List.takeWhile_append_of_pos hu, hstop.1, List.append_nil]
  · rw [List.dropWhile_append_of_pos hu, hstop.2]

theorem head_dropWhile {pred : UInt8 → Bool} (l : Bytes) (c : UInt8)
    (h : (l.dropWhile pred).head? = some c) : pred c = false := by
  have hstop := List.head?_dropWhile_not pred l
  rw [h] at hstop
  exact hstop

theorem hexByte_inert {u : Bytes} (h : ∀ x ∈ u, hexByte x = true) : Inert u := by
  intro x hx
  have hhex := h x hx
  refine ⟨?_, ?_, ?_⟩
  · rintro rfl
    exact absurd hhex (by decide)
  · rintro rfl
    exact absurd hhex (by decide)
  · rintro rfl
    exact absurd hhex (by decide)

theorem digitByte_inert {u : Bytes} (h : ∀ x ∈ u, digitByte x = true) : Inert u := by
  intro x hx
  have hdigit := h x hx
  refine ⟨?_, ?_, ?_⟩
  · rintro rfl
    exact absurd hdigit (by decide)
  · rintro rfl
    exact absurd hdigit (by decide)
  · rintro rfl
    exact absurd hdigit (by decide)

theorem hexByte_of_hexValue {c : UInt8} {n : ℕ} (h : hexValue (some c) = some n) : hexByte c = true := by
  rw [hexByte, isHex, h]
  rfl

/-! One family after the other. -/

theorem lineEscape_takes {ch : UInt8} (hch : ch = 10 ∨ ch = 13) (l : Bytes) :
    ∃ used, Takes (fun l => some (lineEscape ch l)) l [10] (lineEscape ch l).2 used ∧
      (used = [] ∨ used = [13] ∧ ch = 10 ∨ used = [10] ∧ ch = 13) := by
  cases l with
  | nil =>
    refine ⟨[], ⟨rfl, fun r' h => ?_⟩, .inl rfl⟩
    cases r' with
    | nil => rfl
    | cons c r' =>
      have hc : ¬(c ≠ ch ∧ (c = 10 ∨ c = 13)) := by
        rintro ⟨-, rfl | rfl⟩
        · rcases h 10 rfl with h | h
          · cases h
          · exact absurd h.1 (by decide)
        · rcases h 13 rfl with h | h
          · cases h
          · exact absurd h.1 (by decide)
      simp only [List.nil_append, lineEscape, if_neg hc]
  | cons next l =>
    by_cases hpair : next ≠ ch ∧ (next = 10 ∨ next = 13)
    · refine ⟨[next], ⟨?_, fun r' _ => ?_⟩, ?_⟩
      · simp only [lineEscape, if_pos hpair, List.singleton_append]
      · simp only [List.singleton_append, lineEscape, if_pos hpair]
      · obtain ⟨hne, rfl | rfl⟩ := hpair
        · exact .inr (.inr ⟨rfl, hch.resolve_left (Ne.symm hne)⟩)
        · exact .inr (.inl ⟨rfl, hch.resolve_right (Ne.symm hne)⟩)
    · refine ⟨[], ⟨?_, fun r' h => ?_⟩, .inl rfl⟩
      · simp only [lineEscape, if_neg hpair, List.nil_append]
      · simp only [lineEscape, if_neg hpair] at h
        cases r' with
        | nil => rfl
        | cons c r' =>
          have hc : ¬(c ≠ ch ∧ (c = 10 ∨ c = 13)) := by
            rcases h c rfl with hsame | ⟨hspace, -⟩
            · cases hsame
              exact hpair
            · rintro ⟨-, rfl | rfl⟩
              · exact absurd hspace (by decide)
              · exact absurd hspace (by decide)
          simp only [List.nil_append, lineEscape, if_neg hc]

theorem spaceEscape_takes (l : Bytes) :
    Takes (fun l => some ([], l.dropWhile spaceByte)) l [] (l.dropWhile spaceByte) (l.takeWhile spaceByte) := by
  refine ⟨List.takeWhile_append_dropWhile.symm, fun r' h => ?_⟩
  have hspaces : ∀ x ∈ l.takeWhile spaceByte, spaceByte x = true := fun _ => List.mem_takeWhile_imp
  have hend := dropWhile_follows hspaces (head_dropWhile l) (fun c hc _ => hc) h
  dsimp only
  rw [hend.2]

theorem hexEscape_takes {l v r : Bytes} (h : hexEscape l = some (v, r)) :
    ∃ used, Takes hexEscape l v r used ∧ Inert used := by
  unfold hexEscape at h
  split at h
  case h_1 hi lo l =>
    simp only [Option.bind_eq_bind, Option.bind_eq_some_iff] at h
    obtain ⟨a, ha, b, hb, hvalue⟩ := h
    cases hvalue
    refine ⟨[hi, lo], ⟨rfl, fun r' _ => ?_⟩, hexByte_inert ?_⟩
    · simp only [List.cons_append, List.nil_append, hexEscape, ha, hb, Option.bind_eq_bind, Option.bind_some]
    · intro x hx
      simp only [List.mem_cons, List.not_mem_nil, or_false] at hx
      rcases hx with rfl | rfl
      · exact hexByte_of_hexValue ha
      · exact hexByte_of_hexValue hb
  case h_2 => cases h

theorem unicodeEscape_takes {l v r : Bytes} (h : unicodeEscape l = some (v, r)) :
    ∃ used, Takes unicodeEscape l v r used ∧ Inert used := by
  unfold unicodeEscape at h
  split at h
  case h_1 l =>
    unfold pointEscape at h
    split at h
    case h_1 l' hrest =>
      split_ifs at h with hvalue
      cases h
      have hl := List.takeWhile_append_dropWhile (p := hexByte) (l := l)
      rw [hrest] at hl
      have hdigits : ∀ x ∈ l.takeWhile hexByte, hexByte x = true := fun _ => List.mem_takeWhile_imp
      refine ⟨123 :: l.takeWhile hexByte ++ [125], ⟨?_, fun r' _ => ?_⟩, ?_⟩
      · simp [hl]
      · have htake : (l.takeWhile hexByte ++ 125 :: r').takeWhile hexByte = l.takeWhile hexByte := by
          rw [List.takeWhile_append_of_pos hdigits, List.takeWhile_cons_of_neg (by decide), List.append_nil]
        have hdrop : (l.takeWhile hexByte ++ 125 :: r').dropWhile hexByte = 125 :: r' := by
          rw [List.dropWhile_append_of_pos hdigits, List.dropWhile_cons_of_neg (by decide)]
        simp only [List.cons_append, List.append_assoc, List.nil_append, unicodeEscape, htake, hdrop,
          pointEscape, if_pos hvalue]
      · intro x hx
        simp only [List.cons_append, List.mem_cons, List.mem_append, List.not_mem_nil, or_false] at hx
        rcases hx with rfl | hx | rfl
        · decide
        · exact hexByte_inert hdigits x hx
        · decide
    case h_2 => cases h
  case h_2 => cases h

theorem decimalEscape_takes {l v r : Bytes} (h : decimalEscape l = some (v, r)) :
    Takes decimalEscape l v r ((l.takeWhile digitByte).take 3) ∧
      Inert ((l.takeWhile digitByte).take 3) := by
  simp only [decimalEscape] at h
  split_ifs at h with hvalue
  obtain ⟨digits, hdigits⟩ : ∃ digits, digits = (l.takeWhile digitByte).take 3 := ⟨_, rfl⟩
  rw [← hdigits] at hvalue h
  cases h
  have hclass : ∀ x ∈ digits, digitByte x = true := fun x hx =>
    List.mem_takeWhile_imp (List.mem_of_mem_take (hdigits ▸ hx))
  have hl : l = digits ++ l.drop digits.length := by
    have hfront : digits <+: l := hdigits ▸ (List.take_prefix _ _).trans (List.takeWhile_prefix _)
    obtain ⟨rest, rfl⟩ := hfront
    rw [List.drop_left]
  rw [← hdigits]
  refine ⟨⟨hl, fun r' hr => ?_⟩, digitByte_inert hclass⟩
  have hsame : ((digits ++ r').takeWhile digitByte).take 3 = digits := by
    by_cases hfull : digits.length = 3
    · rw [List.takeWhile_append_of_pos hclass, List.take_left' hfull]
    · have hlen : (l.takeWhile digitByte).length ≤ 3 := by
        rw [hdigits, List.length_take] at hfull
        omega
      have hall : digits = l.takeWhile digitByte := by rw [hdigits, List.take_of_length_le hlen]
      have hrest : l.drop digits.length = l.dropWhile digitByte := by rw [hall, drop_takeWhile]
      rw [hrest] at hr
      have hend := dropWhile_follows hclass (head_dropWhile l) (fun c _ hc => hc) hr
      rw [hend.1, List.take_of_length_le (hall ▸ hlen)]
  simp only [decimalEscape, hsame, if_pos hvalue, List.drop_left]

/-! Any escape. -/

/-- What an escape takes behind the byte after its backslash: nothing the substitution
changes, but for a line feed in a line break or in skipped space. -/
def Taken (ch : UInt8) (used : Bytes) : Prop :=
  Inert used ∨ ch = 13 ∧ used = [10] ∨ ch = 122 ∧ ∀ x ∈ used, spaceByte x = true

theorem escape_takes {l v r : Bytes} (h : escape l = some (v, r)) :
    ∃ ch used, Takes escape l v r (ch :: used) ∧ Taken ch used := by
  cases l with
  | nil => cases h
  | cons ch l =>
    refine ⟨ch, ?_⟩
    have hlift : ∀ {f : Bytes → Option (Bytes × Bytes)} {used : Bytes}, (∀ l, escape (ch :: l) = f l) →
        Takes f l v r used → Takes escape (ch :: l) v r (ch :: used) := by
      intro f used hf ⟨hl, htakes⟩
      refine ⟨by rw [hl, List.cons_append], fun r' hr => ?_⟩
      rw [List.cons_append, hf, htakes r' hr]
    by_cases hline : ch = 10 ∨ ch = 13
    · have hf : ∀ l, escape (ch :: l) = some (lineEscape ch l) := fun l => if_pos hline
      obtain ⟨used, htakes, hused⟩ := lineEscape_takes hline l
      have hvalue : lineEscape ch l = ([10], (lineEscape ch l).2) := by cases l <;> rfl
      rw [hf, hvalue] at h
      cases h
      refine ⟨used, hlift hf htakes, ?_⟩
      rcases hused with rfl | ⟨rfl, -⟩ | ⟨rfl, rfl⟩
      · exact .inl nofun
      · exact .inl (by simp [Inert])
      · exact .inr (.inl ⟨rfl, rfl⟩)
    by_cases hz : ch = 122
    · have hf : ∀ l, escape (ch :: l) = some ([], l.dropWhile spaceByte) := fun l =>
        (if_neg hline).trans (if_pos hz)
      rw [hf] at h
      cases h
      exact ⟨_, hlift hf (spaceEscape_takes l), .inr (.inr ⟨hz, fun _ => List.mem_takeWhile_imp⟩)⟩
    by_cases hx : ch = 120
    · have hf : ∀ l, escape (ch :: l) = hexEscape l := fun l =>
        (if_neg hline).trans ((if_neg hz).trans (if_pos hx))
      rw [hf] at h
      obtain ⟨used, htakes, hused⟩ := hexEscape_takes h
      exact ⟨used, hlift hf htakes, .inl hused⟩
    by_cases hu : ch = 117
    · have hf : ∀ l, escape (ch :: l) = unicodeEscape l := fun l =>
        (if_neg hline).trans ((if_neg hz).trans ((if_neg hx).trans (if_pos hu)))
      rw [hf] at h
      obtain ⟨used, htakes, hused⟩ := unicodeEscape_takes h
      exact ⟨used, hlift hf htakes, .inl hused⟩
    by_cases hdigit : digitByte ch = true
    · have hf : ∀ l, escape (ch :: l) = decimalEscape (ch :: l) := fun l =>
        (if_neg hline).trans ((if_neg hz).trans ((if_neg hx).trans ((if_neg hu).trans (if_pos hdigit))))
      rw [hf] at h
      obtain ⟨⟨hl, htakes⟩, hused⟩ := decimalEscape_takes h
      rw [List.takeWhile_cons_of_pos hdigit, List.take_succ_cons] at hl htakes hused
      refine ⟨(l.takeWhile digitByte).take 2, ⟨hl, fun r' hr => ?_⟩,
        .inl fun x hx => hused x (List.mem_cons_of_mem _ hx)⟩
      rw [List.cons_append, hf]
      exact htakes r' hr
    · have hf : ∀ l, escape (ch :: l) = (simpleEscapes.lookup ch).map fun b => ([b], l) := fun l =>
        (if_neg hline).trans ((if_neg hz).trans ((if_neg hx).trans ((if_neg hu).trans (if_neg hdigit))))
      rw [hf, Option.map_eq_some_iff] at h
      obtain ⟨b, hb, hvalue⟩ := h
      cases hvalue
      refine ⟨[], ⟨rfl, fun r' _ => ?_⟩, .inl nofun⟩
      rw [List.singleton_append, hf, hb]
      rfl

end Nupp.Lexer
