import Nupp.Syntax.LexerScan
import Nupp.Syntax.StringValue

/-! Literals as sequences of raw bytes and escapes, apart from any position. -/

namespace Nupp.Lexer

variable {s : Bytes}

/-! One escape, as the text behind its backslash: the bytes it denotes and the text
after it. -/

/-- A line break, which takes the other half of a pair with it. -/
def lineEscape (ch : UInt8) : Bytes → Bytes × Bytes
  | [] => ([10], [])
  | next :: l => ([10], if next ≠ ch ∧ (next = 10 ∨ next = 13) then l else next :: l)

def hexEscape : Bytes → Option (Bytes × Bytes)
  | hi :: lo :: l => do
    let hi ← hexValue (some hi)
    let lo ← hexValue (some lo)
    some ([(hi * 16 + lo).toUInt8], l)
  | _ => none

def hexByte (c : UInt8) : Bool := isHex (some c)

/-- The digits between the braces, and the text behind the brace that closes. -/
def pointEscape (digits : Bytes) : Bytes → Option (Bytes × Bytes)
  | 125 :: l =>
    if digits ≠ [] ∧ hexDigitsValue digits ≤ 0x10FFFF then some (utf8Bytes (hexDigitsValue digits), l)
    else none
  | _ => none

def unicodeEscape : Bytes → Option (Bytes × Bytes)
  | 123 :: l => pointEscape (l.takeWhile hexByte) (l.dropWhile hexByte)
  | _ => none

def decimalEscape (l : Bytes) : Option (Bytes × Bytes) :=
  let digits := (l.takeWhile digitByte).take 3
  if decimalValue digits ≤ 255 then some ([(decimalValue digits).toUInt8], l.drop digits.length)
  else none

def escape : Bytes → Option (Bytes × Bytes)
  | [] => none
  | ch :: l =>
    if ch = 10 ∨ ch = 13 then some (lineEscape ch l)
    else if ch = 122 then some ([], l.dropWhile spaceByte)
    else if ch = 120 then hexEscape l
    else if ch = 117 then unicodeEscape l
    else if digitByte ch then decimalEscape (ch :: l)
    else (simpleEscapes.lookup ch).map fun b => ([b], l)

/-! The two readings of an escape. -/

theorem byte_eq_head (p : ℕ) : byte s (p + 1) = (s.drop p).head? := by
  simp [byte]

theorem drop_of_byte {p : ℕ} {c : UInt8} (h : byte s (p + 1) = some c) : s.drop p = c :: s.drop (p + 1) := by
  obtain ⟨hlt, hget⟩ := List.getElem?_eq_some_iff.mp h
  rw [List.drop_eq_getElem_cons hlt, hget]

theorem drop_of_byte_none {p : ℕ} (h : byte s (p + 1) = none) : s.drop p = [] :=
  List.drop_eq_nil_of_le (List.getElem?_eq_none_iff.mp h)

theorem take_takeWhile (pred : UInt8 → Bool) (l : Bytes) :
    l.take (l.takeWhile pred).length = l.takeWhile pred := by
  have h : (l.takeWhile pred ++ l.dropWhile pred).take (l.takeWhile pred).length = l.takeWhile pred :=
    List.take_left
  rwa [List.takeWhile_append_dropWhile] at h

theorem drop_takeWhile (pred : UInt8 → Bool) (l : Bytes) :
    l.drop (l.takeWhile pred).length = l.dropWhile pred := by
  have h : (l.takeWhile pred ++ l.dropWhile pred).drop (l.takeWhile pred).length = l.dropWhile pred :=
    List.drop_left
  rwa [List.takeWhile_append_dropWhile] at h

theorem drop_skipWhile (pred : UInt8 → Bool) (p : ℕ) :
    s.drop (skipWhile s pred (p + 1) - 1) = (s.drop p).dropWhile pred := by
  rw [← drop_takeWhile, List.drop_drop]
  congr 1
  simp only [skipWhile, Nat.add_sub_cancel]
  omega

theorem sub_skipWhile (pred : UInt8 → Bool) (p : ℕ) :
    sub s (p + 1) (skipWhile s pred (p + 1) - 1) = (s.drop p).takeWhile pred := by
  have hstop : skipWhile s pred (p + 1) - 1 - p = ((s.drop p).takeWhile pred).length := by
    simp only [skipWhile, Nat.add_sub_cancel]
    omega
  rw [sub, Nat.add_sub_cancel, List.drop_take, hstop, take_takeWhile]

theorem skipWhile_le_succ (pred : UInt8 → Bool) {p : ℕ} (hp : p ≤ s.length) :
    skipWhile s pred (p + 1) ≤ s.length + 1 := skipWhile_le pred (by omega) (by omega)

/-- The escape read at a position is the one the text says. -/
def Escape.Agrees (s : Bytes) (e : Escape) : Option (Bytes × Bytes) → Prop
  | some (value, rest) =>
    e.valid = true ∧ e.bytes = some value ∧ rest = s.drop (e.after - 1) ∧ e.after ≤ s.length + 1
  | none => e.valid = false ∧ e.bytes = none

theorem hexEscape_agrees (quote : UInt8) (p : ℕ) :
    Escape.Agrees s
      (match hexValue (byte s (p + 2)) with
      | none => ⟨p + 2, false, upTo s quote (p + 2), none⟩
      | some hi =>
        match hexValue (byte s (p + 3)) with
        | none => ⟨p + 3, false, upTo s quote (p + 3), none⟩
        | some lo => ⟨p + 4, true, p, some [(hi * 16 + lo).toUInt8]⟩)
      (hexEscape (s.drop (p + 1))) := by
  cases hhi : byte s (p + 2) with
  | none =>
    rw [drop_of_byte_none hhi]
    exact ⟨rfl, rfl⟩
  | some hi =>
    rw [drop_of_byte hhi]
    cases hlo : byte s (p + 3) with
    | none =>
      rw [drop_of_byte_none hlo]
      cases hexValue (some hi) <;> exact ⟨rfl, rfl⟩
    | some lo =>
      have hlen := (byte_eq_some hlo).2
      rw [drop_of_byte hlo, hexEscape]
      cases hexValue (some hi) with
      | none => exact ⟨rfl, rfl⟩
      | some a =>
        cases hexValue (some lo) with
        | none => exact ⟨rfl, rfl⟩
        | some b => exact ⟨rfl, rfl, rfl, by dsimp only; omega⟩

theorem lt_skipWhile_iff (pred : UInt8 → Bool) (p : ℕ) :
    p + 1 < skipWhile s pred (p + 1) ↔ (s.drop p).takeWhile pred ≠ [] := by
  rw [← List.length_pos_iff]
  simp only [skipWhile, Nat.add_sub_cancel]
  omega

theorem unicodeEscape_agrees (quote : UInt8) (p : ℕ) :
    Escape.Agrees s
      (if byte s (p + 2) ≠ some 123 then ⟨p + 2, false, upTo s quote (p + 2), none⟩
      else
        let stop := skipWhile s hexByte (p + 3)
        if byte s stop ≠ some 125 then ⟨stop, false, upTo s quote stop, none⟩
        else
          let value := hexDigitsValue (sub s (p + 3) (stop - 1))
          if p + 3 < stop ∧ value ≤ 0x10FFFF then ⟨stop + 1, true, stop, some (utf8Bytes value)⟩
          else ⟨stop + 1, false, stop, none⟩)
      (unicodeEscape (s.drop (p + 1))) := by
  cases hbrace : byte s (p + 2) with
  | none =>
    rw [drop_of_byte_none hbrace]
    exact ⟨rfl, rfl⟩
  | some c =>
    rw [drop_of_byte hbrace]
    by_cases hc : c = 123
    · subst hc
      have hlen := (byte_eq_some hbrace).2
      have hle := skipWhile_le_succ hexByte (p := p + 2) hlen
      have hpos := le_skipWhile (s := s) hexByte (p + 3)
      obtain ⟨stop, hstop⟩ : ∃ stop, skipWhile s hexByte (p + 3) = stop + 1 :=
        ⟨skipWhile s hexByte (p + 3) - 1, by omega⟩
      have hdrop := drop_skipWhile (s := s) hexByte (p + 2)
      have hsub := sub_skipWhile (s := s) hexByte (p + 2)
      have hlt := lt_skipWhile_iff (s := s) hexByte (p + 2)
      rw [hstop] at hdrop hsub hlt
      simp only [ne_eq, not_true_eq_false, if_false, unicodeEscape, hstop, ← hdrop, ← hsub,
        Nat.add_sub_cancel] at hlt ⊢
      cases hclose : byte s (stop + 1) with
      | none =>
        rw [drop_of_byte_none hclose]
        exact ⟨rfl, rfl⟩
      | some d =>
        have hend := (byte_eq_some hclose).2
        rw [drop_of_byte hclose]
        by_cases hd : d = 125
        · subst hd
          simp only [pointEscape, ← hlt, not_true_eq_false, if_false]
          split_ifs with hvalue
          · exact ⟨rfl, rfl, rfl, by dsimp only; omega⟩
          · exact ⟨rfl, rfl⟩
        · rw [if_pos (by simpa using hd), pointEscape.eq_2 _ _ (by simpa using hd)]
          exact ⟨rfl, rfl⟩
    · rw [if_pos (by simpa using hc), unicodeEscape.eq_2 _ (by simpa using hc)]
      exact ⟨rfl, rfl⟩

theorem decimalEscape_agrees {p : ℕ} (hin : p < s.length) :
    Escape.Agrees s
      (let stop := min (skipWhile s digitByte (p + 1)) (p + 4)
      let value := decimalValue (sub s (p + 1) (stop - 1))
      if value ≤ 255 then ⟨stop, true, stop - 1, some [value.toUInt8]⟩
      else ⟨stop, false, stop - 1, none⟩)
      (decimalEscape (s.drop p)) := by
  obtain ⟨n, hn⟩ : ∃ n, n = ((s.drop p).takeWhile digitByte).length := ⟨_, rfl⟩
  have hstop : min (skipWhile s digitByte (p + 1)) (p + 4) - 1 = p + min n 3 := by
    simp only [skipWhile, Nat.add_sub_cancel, ← hn]
    omega
  have hle : p + n ≤ s.length := by
    have := skipWhile_le_succ (s := s) digitByte hin.le
    simp only [skipWhile, Nat.add_sub_cancel, ← hn] at this
    omega
  have hdigits : sub s (p + 1) (p + min n 3) = ((s.drop p).takeWhile digitByte).take 3 := by
    have htake := take_takeWhile digitByte (s.drop p)
    rw [← hn] at htake
    rw [sub, Nat.add_sub_cancel, List.drop_take, Nat.add_sub_cancel_left, ← htake, List.take_take,
      Nat.min_comm]
  have hlen : (((s.drop p).takeWhile digitByte).take 3).length = min n 3 := by
    rw [List.length_take, ← hn, Nat.min_comm]
  simp only [decimalEscape, hstop, hdigits, hlen, List.drop_drop]
  split_ifs with hvalue
  · refine ⟨rfl, rfl, by dsimp only; rw [hstop], ?_⟩
    dsimp only
    omega
  · exact ⟨rfl, rfl⟩

/-- An escape read at a position is the escape of the text behind its backslash. -/
theorem decodeEscape_agrees {p : ℕ} (quote : UInt8) (hin : p < s.length) :
    (decodeEscape s p quote).Agrees s (escape (s.drop p)) := by
  obtain ⟨ch, hch⟩ := byte_of_le (s := s) (p := p + 1) (by omega) (by omega)
  rw [drop_of_byte hch]
  unfold decodeEscape escape
  simp only [hch, Bool.or_eq_true, decide_eq_true_eq]
  by_cases hline : ch = 10 ∨ ch = 13
  · simp only [if_pos hline]
    cases hnext : byte s (p + 2) with
    | none =>
      rw [drop_of_byte_none hnext]
      exact ⟨rfl, rfl, (drop_of_byte_none hnext).symm, by dsimp only; omega⟩
    | some next =>
      have hlen := (byte_eq_some hnext).2
      rw [drop_of_byte hnext, lineEscape]
      by_cases h : next ≠ ch ∧ (next = 10 ∨ next = 13)
      · have h' : (decide (next ≠ ch) && (decide (next = 10) || decide (next = 13))) = true := by
          simpa using h
        simp only [if_pos h, if_pos h']
        exact ⟨rfl, rfl, rfl, by dsimp only; omega⟩
      · have h' : ¬(decide (next ≠ ch) && (decide (next = 10) || decide (next = 13))) = true := by
          simpa using h
        simp only [if_neg h, if_neg h']
        exact ⟨rfl, rfl, (drop_of_byte hnext).symm, by dsimp only; omega⟩
  simp only [if_neg hline]
  by_cases hz : ch = 122
  · simp only [if_pos hz]
    exact ⟨rfl, rfl, (drop_skipWhile spaceByte (p + 1)).symm, skipWhile_le_succ spaceByte (by omega)⟩
  simp only [if_neg hz]
  by_cases hx : ch = 120
  · simp only [if_pos hx]
    exact hexEscape_agrees quote p
  simp only [if_neg hx]
  by_cases hu : ch = 117
  · simp only [if_pos hu]
    exact unicodeEscape_agrees quote p
  simp only [if_neg hu]
  by_cases hdigit : digitByte ch = true
  · simp only [if_pos hdigit]
    rw [← drop_of_byte hch]
    exact decimalEscape_agrees hin
  · simp only [if_neg hdigit]
    cases simpleEscapes.lookup ch with
    | none => exact ⟨rfl, rfl⟩
    | some b => exact ⟨rfl, rfl, rfl, by dsimp only; omega⟩

end Nupp.Lexer
