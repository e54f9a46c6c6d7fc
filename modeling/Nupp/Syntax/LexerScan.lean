import Mathlib.Order.MinMax
import Nupp.Syntax.Lexer

/-! Every scanner of the lexer ends, behind where it started and inside the source. -/

namespace Nupp.Lexer

open Loop

variable {s : Bytes}

theorem byte_eq_some {p : ℕ} {c : UInt8} (h : byte s p = some c) : 1 ≤ p ∧ p ≤ s.length := by
  cases p with
  | zero => cases h
  | succ p =>
    obtain ⟨hlt, -⟩ := List.getElem?_eq_some_iff.mp h
    omega

theorem byte_of_le {p : ℕ} (h1 : 1 ≤ p) (h : p ≤ s.length) : ∃ c, byte s p = some c := by
  obtain ⟨p, rfl⟩ := Nat.exists_eq_add_of_le' h1
  exact ⟨s[p], by simp only [byte]; exact List.getElem?_eq_getElem (by omega)⟩

theorem byte_of_any {p : ℕ} {pred : UInt8 → Bool} (h : (byte s p).any pred = true) :
    1 ≤ p ∧ p ≤ s.length := by
  cases hc : byte s p with
  | none => simp [hc] at h
  | some c => exact byte_eq_some hc

theorem le_skipWhile (pred : UInt8 → Bool) (p : ℕ) : p ≤ skipWhile s pred p := Nat.le_add_right _ _

theorem skipWhile_le (pred : UInt8 → Bool) {p : ℕ} (h1 : 1 ≤ p) (h : p ≤ s.length + 1) :
    skipWhile s pred p ≤ s.length + 1 := by
  have hlen := (List.takeWhile_prefix pred (l := s.drop (p - 1))).length_le
  rw [List.length_drop] at hlen
  unfold skipWhile
  omega

/-- A found pattern lies inside the source. -/
theorem find_bounds {pattern : Bytes} {start i : ℕ} (h : find s pattern start = some i)
    (h1 : 1 ≤ start) : start ≤ i ∧ i + pattern.length ≤ s.length + 1 := by
  obtain ⟨hpre, hmem, -⟩ := List.find?_range'_eq_some.mp h
  have hlen := (List.isPrefixOf_iff_prefix.mp hpre).length_le
  rw [List.length_drop] at hlen
  rw [List.mem_range'_1] at hmem
  omega

theorem scanLongBracket_bounds {p q : ℕ} {terminated : Bool}
    (h : scanLongBracket s p = some (q, terminated)) : p < q ∧ q ≤ s.length + 1 := by
  simp only [scanLongBracket] at h
  split_ifs at h with h1
  obtain ⟨hp, hle⟩ := byte_eq_some (not_not.mp h1)
  have hstop := le_skipWhile (s := s) (· = 61) (p + 1)
  split at h
  case h_1 =>
    cases h
    omega
  case h_2 i hfind =>
    cases h
    have hb := find_bounds hfind (by omega)
    omega

/-- An escape is at least one byte long. -/
theorem lt_decodeEscape_after (s : Bytes) (p : ℕ) (quote : UInt8) :
    p < (decodeEscape s p quote).after := by
  have hspace := le_skipWhile (s := s) spaceByte (p + 2)
  have hhex := le_skipWhile (s := s) (fun c => isHex (some c)) (p + 3)
  have hdigit := le_skipWhile (s := s) digitByte (p + 1)
  simp only [decodeEscape]
  repeat' split
  all_goals dsimp only; omega

/-! Numbers. -/

theorem le_skipUnderscores (p : ℕ) : p ≤ skipUnderscores s p := le_skipWhile _ _

theorem skipUnderscores_le {p : ℕ} (h1 : 1 ≤ p) (h : p ≤ s.length + 1) :
    skipUnderscores s p ≤ s.length + 1 :=
  skipWhile_le _ h1 h

/-- A position reached from `p` by reading. -/
def Reached (s : Bytes) (p q : ℕ) : Prop := p ≤ q ∧ q ≤ s.length + 1

theorem Reached.trans {p q r : ℕ} (h : Reached s p q) (h' : Reached s q r) : Reached s p r :=
  ⟨h.1.trans h'.1, h'.2⟩

theorem reached_next {p : ℕ} {c : UInt8} (h : byte s p = some c) :
    Reached s (p + 1) (skipUnderscores s (p + 1)) := by
  obtain ⟨h1, hle⟩ := byte_eq_some h
  exact ⟨le_skipUnderscores _, skipUnderscores_le (by omega) (by omega)⟩

theorem scanDigits_total (pred : Option UInt8 → Bool) (hnone : pred none = false) {p : ℕ}
    (h : p ≤ s.length + 1) :
    ∃ q digits, scanDigits s pred p = some (q, digits) ∧ Reached s p q ∧ pred (byte s q) = false := by
  have hadv : Advances (digitsStep s pred) (fun x => Reached s p x.1) (fun x => s.length + 1 - x.1)
      (fun x => Reached s p x.1 ∧ pred (byte s x.1) = false) := by
    intro x hx
    by_cases hpred : pred (byte s x.1) = true
    · cases hb : byte s x.1 with
      | none => simp [hb, hnone] at hpred
      | some c =>
        have hnext := reached_next hb
        have hbyte := byte_eq_some hb
        refine .inl ⟨_, if_pos hpred, ⟨?_, hnext.2⟩, ?_⟩
        · exact hx.1.trans ((Nat.le_succ _).trans hnext.1)
        · have hlt := hnext.1
          dsimp only
          omega
    · exact .inr ⟨x, if_neg hpred, hx, Bool.eq_false_iff.mpr hpred⟩
  obtain ⟨x, hrun, hx⟩ := loop_total hadv (s := (p, 0)) (n := s.length + 2) ⟨le_refl p, h⟩
    (by dsimp only; omega)
  exact ⟨x.1, x.2, hrun, hx⟩

theorem scanFraction_total (pred : Option UInt8 → Bool) (hnone : pred none = false) {p : ℕ}
    (h : p ≤ s.length + 1) :
    ∃ q digits fraction, scanFraction s pred p = some (q, digits, fraction) ∧ Reached s p q := by
  unfold scanFraction
  split_ifs with hpoint
  · have hnext := reached_next hpoint.1
    obtain ⟨q, digits, hrun, hq, -⟩ := scanDigits_total pred hnone hnext.2
    refine ⟨q, digits, true, by simp [hrun], ?_⟩
    exact ⟨(Nat.le_succ _).trans (hnext.trans hq).1, hq.2⟩
  · exact ⟨p, 0, false, rfl, le_refl p, h⟩

theorem scanExponent_total (lower upper : UInt8) {p : ℕ} (h : p ≤ s.length + 1) :
    ∃ q exponent ok, scanExponent s lower upper p = some (q, exponent, ok) ∧ Reached s p q := by
  unfold scanExponent
  split_ifs with hmark
  · have hp : Reached s (p + 1) (skipUnderscores s (p + 1)) := by
      rcases hmark with hmark | hmark
      · exact reached_next hmark
      · exact reached_next hmark
    generalize skipUnderscores s (p + 1) = r at hp
    have hsign : Reached s r
        (if byte s r = some 43 ∨ byte s r = some 45 then skipUnderscores s (r + 1) else r) := by
      split_ifs with hs
      · have hnext : Reached s (r + 1) (skipUnderscores s (r + 1)) := by
          rcases hs with hs | hs
          · exact reached_next hs
          · exact reached_next hs
        exact ⟨(Nat.le_succ _).trans hnext.1, hnext.2⟩
      · exact ⟨le_refl r, hp.2⟩
    obtain ⟨q, digits, hrun, hq, -⟩ := scanDigits_total isDigit rfl hsign.2
    refine ⟨q, true, _, by simp only [hrun]; rfl, ?_⟩
    exact ⟨(Nat.le_succ _).trans (hp.trans (hsign.trans hq)).1, hq.2⟩
  · exact ⟨p, false, true, rfl, le_refl p, h⟩

theorem scanSuffix_reached {word : Bytes} {p q : ℕ} (hp : p ≤ s.length + 1)
    (h : scanSuffix s word p = some q) : Reached s p q := by
  induction word generalizing p with
  | nil =>
    cases h
    exact ⟨le_refl _, hp⟩
  | cons w word ih =>
    rw [scanSuffix] at h
    split_ifs at h with hw
    cases hb : byte s p with
    | none => simp [hb] at hw
    | some c =>
      have hnext := reached_next hb
      have hrest := ih hnext.2 h
      exact ⟨(Nat.le_succ _).trans (hnext.trans hrest).1, hrest.2⟩

theorem finishNumber_reached {p : ℕ} (hp : p ≤ s.length + 1) (fractional wellformed : Bool) :
    Reached s p (finishNumber s p fractional wellformed).1 := by
  have hsuffix : Reached s p ((((scanSuffix s [117, 108, 108] p).or (scanSuffix s [108, 108] p)).or
      (scanSuffix s [105] p)).getD p) := by
    cases hull : scanSuffix s [117, 108, 108] p with
    | some q => exact scanSuffix_reached hp hull
    | none =>
      cases hll : scanSuffix s [108, 108] p with
      | some q => exact scanSuffix_reached hp hll
      | none =>
        cases hi : scanSuffix s [105] p with
        | some q => exact scanSuffix_reached hp hi
        | none => exact ⟨le_refl p, hp⟩
  simp only [finishNumber]
  generalize (((scanSuffix s [117, 108, 108] p).or (scanSuffix s [108, 108] p)).or
      (scanSuffix s [105] p)).getD p = r at hsuffix
  split_ifs with hname
  · obtain ⟨h1, hle⟩ := byte_of_any hname
    have hskip := le_skipWhile (s := s) nameByte (r + 1)
    exact ⟨hsuffix.1.trans ((Nat.le_succ _).trans hskip), skipWhile_le _ (by omega) (by omega)⟩
  · exact hsuffix

theorem scanHexNumber_total {marker : ℕ}
    (h : byte s marker = some 120 ∨ byte s marker = some 88) :
    ∃ q ok, scanHexNumber s marker = some (q, ok) ∧ Reached s (marker + 1) q := by
  have hnext : Reached s (marker + 1) (skipUnderscores s (marker + 1)) := by
    rcases h with h | h
    · exact reached_next h
    · exact reached_next h
  obtain ⟨q₁, digits, hrun₁, hq₁, -⟩ := scanDigits_total isHex rfl hnext.2
  obtain ⟨q₂, more, fraction, hrun₂, hq₂⟩ := scanFraction_total isHex rfl hq₁.2
  obtain ⟨q₃, exponent, ok, hrun₃, hq₃⟩ := scanExponent_total 112 80 hq₂.2
  have hq := finishNumber_reached hq₃.2 (fraction || exponent) (digits + more ≠ 0 && ok)
  refine ⟨_, (finishNumber s q₃ (fraction || exponent) (digits + more ≠ 0 && ok)).2, ?_,
    hnext.trans (hq₁.trans (hq₂.trans (hq₃.trans hq)))⟩
  simp only [scanHexNumber, hrun₁, hrun₂, hrun₃, Option.bind_eq_bind, Option.bind_some]

/-- The first byte, or the one behind the point, is a digit. -/
theorem scanDecimalNumber_total {p : ℕ}
    (h : isDigit (byte s p) = true ∨ byte s p = some 46 ∧ isDigit (byte s (p + 1)) = true) :
    ∃ q ok, scanDecimalNumber s p = some (q, ok) ∧ Reached s (p + 1) q := by
  obtain ⟨r, hr, hstart, hle⟩ : ∃ r, (if byte s p = some 46 then p + 1 else p) = r ∧
      isDigit (byte s r) = true ∧ p ≤ r := by
    by_cases hpoint : byte s p = some 46
    · rcases h with h | h
      · simp [hpoint, isDigit, digitByte] at h
      · exact ⟨p + 1, if_pos hpoint, h.2, Nat.le_succ p⟩
    · rcases h with h | h
      · exact ⟨p, if_neg hpoint, h, le_refl p⟩
      · exact absurd h.1 hpoint
  obtain ⟨-, hrlen⟩ := byte_of_any hstart
  obtain ⟨q₁, digits, hrun₁, hq₁, hstop⟩ := scanDigits_total (s := s) isDigit rfl
    (p := r) (by omega)
  obtain ⟨q₂, more, fraction, hrun₂, hq₂⟩ := scanFraction_total isDigit rfl hq₁.2
  obtain ⟨q₃, exponent, ok, hrun₃, hq₃⟩ := scanExponent_total 101 69 hq₂.2
  have hlt : r < q₁ := by
    refine lt_of_le_of_ne hq₁.1 ?_
    rintro rfl
    simp [hstart] at hstop
  have hq := hq₂.trans (hq₃.trans
    (finishNumber_reached hq₃.2 (decide (byte s p = some 46) || fraction || exponent) ok))
  refine ⟨_, (finishNumber s q₃ (decide (byte s p = some 46) || fraction || exponent) ok).2, ?_,
    (Nat.succ_le_of_lt (hle.trans_lt hlt)).trans hq.1, hq.2⟩
  simp only [scanDecimalNumber, decide_eq_true_eq, hr, hrun₁, hrun₂, hrun₃, Option.bind_eq_bind,
    Option.bind_some]

/-- A number is at least one byte long. -/
theorem scanNumber_total {p : ℕ}
    (h : isDigit (byte s p) = true ∨ byte s p = some 46 ∧ isDigit (byte s (p + 1)) = true) :
    ∃ q ok, scanNumber s p = some (q, ok) ∧ Reached s (p + 1) q := by
  simp only [scanNumber]
  split_ifs with hzero hmark
  · obtain ⟨q, ok, hrun, hq⟩ := scanHexNumber_total hmark
    exact ⟨q, ok, hrun, (le_skipUnderscores _).trans ((Nat.le_succ _).trans hq.1), hq.2⟩
  · exact scanDecimalNumber_total h
  · exact scanDecimalNumber_total h

/-! Strings. -/

/-- A segment ends behind its first byte. -/
theorem scanSegment_total {p : ℕ} (h : p ≤ s.length + 1) :
    ∃ q segmentEnd, scanSegment s p = some (q, segmentEnd) ∧ Reached s p q := by
  have hadv : Advances (segmentStep s) (fun q => Reached s p q) (fun q => s.length + 1 - q)
      (fun x => Reached s p x.1) := by
    intro q hq
    unfold segmentStep
    obtain ⟨hpq, hle⟩ := hq
    split_ifs with h1 h2 h3 h4
    · exact .inr ⟨_, rfl, hpq, hle⟩
    · exact .inl ⟨_, rfl, ⟨by omega, by omega⟩, by dsimp only; omega⟩
    · exact .inr ⟨_, rfl, by dsimp only; omega, by dsimp only; omega⟩
    · obtain ⟨-, hnext⟩ := byte_eq_some h4.2
      exact .inr ⟨_, rfl, by dsimp only; omega, by dsimp only; omega⟩
    · exact .inl ⟨_, rfl, ⟨by omega, by omega⟩, by dsimp only; omega⟩
  obtain ⟨x, hrun, hx⟩ := loop_total hadv (n := s.length + 2) ⟨le_refl p, h⟩ (by omega)
  exact ⟨x.1, x.2, hrun, hx⟩

end Nupp.Lexer

/-! Line accounting: the lazy cursor over newlines stays with the position it was
advanced to. -/

namespace Nupp.Lexer

open Loop

variable {s : Bytes}

/-- The positions of the newlines before `p`. -/
def newlines (s : Bytes) (p : ℕ) : List ℕ := (List.range p).filter fun i => byte s i = some 10

/-- One plus the number of newlines before `p`. -/
def lineOf (s : Bytes) (p : ℕ) : ℕ := (newlines s p).length + 1

/-- The last newline before `p`, or zero. -/
def lastNewline (s : Bytes) (p : ℕ) : ℕ := (newlines s p).getLast?.getD 0

theorem newlines_succ (p : ℕ) :
    newlines s (p + 1) = newlines s p ++ if byte s p = some 10 then [p] else [] := by
  unfold newlines
  rw [List.range_succ, List.filter_append]
  split_ifs with h <;> simp [h]

theorem newlines_of_clear {p q : ℕ} (hpq : p ≤ q) (h : ∀ k, p ≤ k → k < q → byte s k ≠ some 10) :
    newlines s q = newlines s p := by
  induction hpq with
  | refl => rfl
  | @step q hpq ih =>
    rw [newlines_succ, if_neg (h q hpq (Nat.lt_succ_self q)), List.append_nil]
    exact ih fun k hk hkq => h k hk (hkq.trans (Nat.lt_succ_self q))

theorem lastNewline_lt {p : ℕ} (hp : 1 ≤ p) : lastNewline s p < p := by
  unfold lastNewline
  cases h : (newlines s p).getLast? with
  | none => exact hp
  | some i =>
    have hmem := List.mem_of_getLast? h
    simp only [newlines, List.mem_filter, List.mem_range] at hmem
    exact hmem.1

theorem isPrefixOf_newline {p : ℕ} (hp : 1 ≤ p) :
    newline.isPrefixOf (s.drop (p - 1)) = true ↔ byte s p = some 10 := by
  obtain ⟨p, rfl⟩ := Nat.exists_eq_add_of_le' hp
  simp only [Nat.add_sub_cancel, byte, newline, List.isPrefixOf_iff_prefix,
    List.singleton_prefix_iff_head?_eq_some, List.head?_drop]

/-- The next newline at or after `p`, or the end of the source. -/
theorem newlineFrom_spec {p : ℕ} (hp : 1 ≤ p) (hle : p ≤ s.length + 1) :
    p ≤ newlineFrom s p ∧ newlineFrom s p ≤ s.length + 1 ∧
      (∀ k, p ≤ k → k < newlineFrom s p → byte s k ≠ some 10) ∧
      (newlineFrom s p ≤ s.length → byte s (newlineFrom s p) = some 10) := by
  unfold newlineFrom
  cases h : find s newline p with
  | none =>
    simp only [Option.getD_none]
    refine ⟨hle, le_refl _, fun k hpk hk hnl => ?_, fun h => absurd h (Nat.not_succ_le_self _)⟩
    have hno := List.find?_range'_eq_none.mp h k hpk (by omega)
    simp [(isPrefixOf_newline (hp.trans hpk)).mpr hnl] at hno
  | some i =>
    simp only [Option.getD_some]
    obtain ⟨hpre, hmem, hmin⟩ := List.find?_range'_eq_some.mp h
    rw [List.mem_range'_1] at hmem
    refine ⟨hmem.1, by omega, fun k hpk hk hnl => ?_, fun _ => ?_⟩
    · have hno := hmin k hpk hk
      simp [(isPrefixOf_newline (hp.trans hpk)).mpr hnl] at hno
    · exact (isPrefixOf_newline (hp.trans hmem.1)).mp hpre

/-- The newline cursor of `st` stands at `p`. -/
structure LinesAt (s : Bytes) (p : ℕ) (st : State) : Prop where
  line : st.line = lineOf s p
  lineStart : st.lineStart = lastNewline s p + 1
  nextNewline : st.nextNewline = newlineFrom s p

theorem LinesAt.congr {p : ℕ} {st st' : State} (h : LinesAt s p st) (hl : st'.line = st.line)
    (hs : st'.lineStart = st.lineStart) (hn : st'.nextNewline = st.nextNewline) : LinesAt s p st' :=
  ⟨hl.trans h.line, hs.trans h.lineStart, hn.trans h.nextNewline⟩

theorem linesAt_initial (s : Bytes) : LinesAt s 1 (State.initial s) :=
  ⟨rfl, rfl, rfl⟩

/-- The column of an offset is its distance from the last newline before it. -/
theorem LinesAt.colOf_eq {p : ℕ} {st : State} (h : LinesAt s p st) (hp : 1 ≤ p) :
    colOf st p = p - lastNewline s p := by
  have hlt := lastNewline_lt (s := s) hp
  rw [colOf, h.lineStart]
  omega

/-- Nothing but the newline cursor differs. -/
def SameButLines (st st' : State) : Prop :=
  st' = { st with line := st'.line, lineStart := st'.lineStart, nextNewline := st'.nextNewline }

theorem SameButLines.fields {st st' : State} (h : SameButLines st st') :
    st'.pos = st.pos ∧ st'.interp = st.interp ∧ st'.arena = st.arena ∧ st'.tokens = st.tokens := by
  unfold SameButLines at h
  rw [h]
  exact ⟨rfl, rfl, rfl, rfl⟩

/-- Passing the next newline. -/
theorem LinesAt.step {p : ℕ} {st : State} (h : LinesAt s p st) (hp : 1 ≤ p)
    (hle : p ≤ s.length + 1) (hnext : st.nextNewline ≤ s.length) :
    LinesAt s (st.nextNewline + 1) { st with
      line := st.line + 1
      lineStart := st.nextNewline + 1
      nextNewline := newlineFrom s (st.nextNewline + 1) } := by
  obtain ⟨hge, -, hclear, hnl⟩ := newlineFrom_spec hp hle
  rw [← h.nextNewline] at hge hclear hnl
  have hlist : newlines s (st.nextNewline + 1) = newlines s p ++ [st.nextNewline] := by
    rw [newlines_succ, if_pos (hnl hnext), newlines_of_clear hge hclear]
  refine ⟨?_, ?_, rfl⟩
  · simp [lineOf, hlist, h.line]
  · simp [lastNewline, hlist]

/-- Reaching an end before the next newline. -/
theorem LinesAt.stop {p q : ℕ} {st : State} (h : LinesAt s p st) (hp : 1 ≤ p) (hpq : p ≤ q)
    (hq : q ≤ s.length + 1) (hnext : q ≤ st.nextNewline) : LinesAt s q st := by
  obtain ⟨-, hend, hclear, hnl⟩ := newlineFrom_spec hp (hpq.trans hq)
  obtain ⟨hge', hend', hclear', hnl'⟩ := newlineFrom_spec (hp.trans hpq) hq
  rw [h.nextNewline] at hnext
  have hlist := newlines_of_clear hpq fun k hk hkq => hclear k hk (hkq.trans_le hnext)
  refine ⟨?_, ?_, ?_⟩
  · rw [h.line, lineOf, lineOf, hlist]
  · rw [h.lineStart, lastNewline, lastNewline, hlist]
  · rw [h.nextNewline]
    rcases Nat.lt_trichotomy (newlineFrom s p) (newlineFrom s q) with hlt | heq | hgt
    · exact absurd (hnl (by omega)) (hclear' _ hnext hlt)
    · exact heq
    · exact absurd (hnl' (by omega)) (hclear _ (hpq.trans hge') hgt)

theorem advanceLines_spec {p q : ℕ} {st : State} (h : LinesAt s p st) (hp : 1 ≤ p) (hpq : p ≤ q)
    (hq : q ≤ s.length + 1) :
    ∃ st', advanceLines s q st = some st' ∧ LinesAt s q st' ∧ SameButLines st st' := by
  have hadv : Advances (linesStep s q)
      (fun st' => (∃ r, 1 ≤ r ∧ r ≤ q ∧ LinesAt s r st') ∧ SameButLines st st')
      (fun st' => s.length + 1 - st'.nextNewline) (fun st' => LinesAt s q st' ∧ SameButLines st st') := by
    rintro st' ⟨⟨r, hr, hrq, hlines⟩, hsame⟩
    by_cases hlt : st'.nextNewline < q
    · refine .inl ⟨_, if_pos hlt, ⟨⟨st'.nextNewline + 1, by omega, by omega, ?_⟩, ?_⟩, ?_⟩
      · exact hlines.step hr (hrq.trans hq) (by omega)
      · unfold SameButLines at hsame ⊢
        rw [hsame]
      · have hge := (newlineFrom_spec (s := s) (p := st'.nextNewline + 1) (by omega) (by omega)).1
        dsimp only
        omega
    · exact .inr ⟨st', if_neg hlt, hlines.stop hr hrq hq (by omega), hsame⟩
  exact loop_total hadv ⟨⟨p, hp, hpq, h⟩, rfl⟩ (by omega)

end Nupp.Lexer
