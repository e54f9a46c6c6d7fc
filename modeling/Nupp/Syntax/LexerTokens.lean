import Nupp.Syntax.LexerScan

/-! What one run of trivia and one token do to the state of the lexer. -/

namespace Nupp.Lexer

open Loop

variable {s : Bytes}

/-- Items that lie end to end from `p` to `q`. -/
def Run (p : ℕ) : List Trivia → ℕ → Prop
  | [], q => p = q
  | item :: items, q => item.offset = p ∧ Run (p + item.length) items q

theorem Run.snoc {p q : ℕ} {items : List Trivia} (h : Run p items q) (item : Trivia)
    (hi : item.offset = q) : Run p (items ++ [item]) (q + item.length) := by
  induction items generalizing p with
  | nil =>
    cases h
    exact ⟨hi, rfl⟩
  | cons x items ih => exact ⟨h.1, ih h.2⟩

theorem Run.le {p q : ℕ} {items : List Trivia} (h : Run p items q) : p ≤ q := by
  induction items generalizing p with
  | nil => exact Nat.le_of_eq h
  | cons x items ih => exact (Nat.le_add_right _ _).trans (ih h.2)

/-! Trivia. -/

/-- A trivia item is not empty, and taking it only moves the cursor and reports. -/
theorem scanTriviaItem_spec {st st' : State} {kind : TriviaKind} (h1 : 1 ≤ st.pos)
    (hle : st.pos ≤ s.length) (h : scanTriviaItem s st = some (kind, st')) :
    Reached s (st.pos + 1) st'.pos ∧
      st' = { st with pos := st'.pos, errors := st'.errors } := by
  unfold scanTriviaItem at h
  split_ifs at h with hbom hhash hspace hcomment
  · cases h
    have hlen : 3 ≤ s.length := by
      have hcount := congrArg List.length hbom.2
      simp only [sub, bom, List.length_drop, List.length_take, List.length_cons, List.length_nil] at hcount
      omega
    refine ⟨⟨?_, ?_⟩, rfl⟩
    · dsimp only
      omega
    · dsimp only
      omega
  · split at h
    case h_1 nl hnl =>
      cases h
      have hb := find_bounds hnl h1
      simp only [newline, List.length_singleton] at hb
      exact ⟨⟨by dsimp only; omega, by dsimp only; omega⟩, rfl⟩
    case h_2 =>
      cases h
      exact ⟨⟨by dsimp only; omega, le_refl _⟩, rfl⟩
  · cases h
    exact ⟨⟨le_skipWhile _ _, skipWhile_le _ (by omega) (by omega)⟩, rfl⟩
  · obtain ⟨-, hnext⟩ := byte_eq_some hcomment.2
    split at h
    case h_1 after hlong =>
      cases h
      have hb := scanLongBracket_bounds hlong
      exact ⟨⟨by dsimp only; omega, hb.2⟩, rfl⟩
    case h_2 =>
      cases h
      exact ⟨⟨by dsimp only [addError]; omega, le_refl _⟩, rfl⟩
    case h_3 =>
      cases h
      have hb := newlineFrom_spec (s := s) (p := st.pos + 2) (by omega) (by omega)
      exact ⟨⟨by dsimp only; omega, hb.2.1⟩, rfl⟩

/-- What a run of trivia leaves: more records, and a cursor that moved over them. -/
structure TriviaTaken (s : Bytes) (st st' : State) (taken : ℕ) : Prop where
  items : ∃ items, st'.arena = st.arena ++ items ∧ items.length = taken ∧ Run st.pos items st'.pos
  pos_le : st'.pos ≤ s.length + 1
  lines : LinesAt s st'.pos st'
  tokens : st'.tokens = st.tokens
  interp : st'.interp = st.interp

theorem scanTrivia_spec {st : State} (h1 : 1 ≤ st.pos) (hle : st.pos ≤ s.length + 1)
    (hl : LinesAt s st.pos st) :
    ∃ st' taken, scanTrivia s st = some (st', taken) ∧ TriviaTaken s st st' taken := by
  have hadv : Advances (triviaStep s) (fun x => TriviaTaken s st x.1 x.2)
      (fun x => s.length + 1 - x.1.pos) (fun x => TriviaTaken s st x.1 x.2) := by
    rintro ⟨st₁, taken⟩ hinv
    obtain ⟨⟨items, harena, hlen, hrun⟩, hpos, hlines, htokens, hinterp⟩ := hinv
    dsimp only at *
    unfold triviaStep
    by_cases hin : st₁.pos ≤ s.length
    · cases hitem : scanTriviaItem s st₁ with
      | none =>
        refine .inr ⟨(st₁, taken), by simp [hin, hitem], ?_⟩
        exact ⟨⟨items, harena, hlen, hrun⟩, hpos, hlines, htokens, hinterp⟩
      | some r =>
        obtain ⟨kind, st₂⟩ := r
        obtain ⟨hreach, hst₂⟩ := scanTriviaItem_spec (h1.trans hrun.le) hin hitem
        have hl₂ : LinesAt s st₁.pos { st₂ with
            arena := st₂.arena ++ [⟨kind, st₁.pos, st₂.pos - st₁.pos, st₁.line, colOf st₁ st₁.pos⟩] } := by
          rw [hst₂]
          exact hlines.congr rfl rfl rfl
        obtain ⟨st₃, hst₃, hl₃, hsame⟩ := advanceLines_spec hl₂ (h1.trans hrun.le)
          ((Nat.le_succ _).trans hreach.1) hreach.2
        obtain ⟨hp, hi, ha, ht⟩ := hsame.fields
        dsimp only at hp hi ha ht
        refine .inl ⟨(st₃, taken + 1), by simp only [hin, if_true, hitem, hst₃]; rfl, ?_, ?_⟩
        · refine ⟨⟨items ++ [⟨kind, st₁.pos, st₂.pos - st₁.pos, st₁.line, colOf st₁ st₁.pos⟩],
            ?_, by simp [hlen], ?_⟩, hp ▸ hreach.2, hp ▸ hl₃, ?_, ?_⟩
          · rw [ha, hst₂, harena, List.append_assoc]
          · have hend := hrun.snoc ⟨kind, st₁.pos, st₂.pos - st₁.pos, st₁.line, colOf st₁ st₁.pos⟩ rfl
            have hwidth : st₁.pos + (st₂.pos - st₁.pos) = st₃.pos := by
              have := hreach.1
              omega
            dsimp only at hend
            rwa [hwidth] at hend
          · rw [ht, hst₂, htokens]
          · rw [hi, hst₂, hinterp]
        · have := hreach.1
          dsimp only
          omega
    · refine .inr ⟨(st₁, taken), by simp [hin], ?_⟩
      exact ⟨⟨items, harena, hlen, hrun⟩, hpos, hlines, htokens, hinterp⟩
  obtain ⟨x, hrun, hx⟩ := loop_total hadv (s := (st, 0)) (n := s.length + 2)
    ⟨⟨[], by simp, rfl, rfl⟩, hle, hl, rfl, rfl⟩ (by dsimp only; omega)
  exact ⟨x.1, x.2, hrun, hx⟩

/-! Tokens. -/

theorem scanShortString_total (quote : UInt8) {st : State} (h1 : 1 ≤ st.pos)
    (hle : st.pos ≤ s.length) (hl : LinesAt s st.pos st) :
    ∃ q terminated errors, scanShortString s quote st = some (q, terminated, errors) ∧
      Reached s (st.pos + 1) q := by
  have hadv : Advances (shortStringStep s quote st) (fun x => Reached s (st.pos + 1) x.1)
      (fun x => s.length + 1 - x.1) (fun x => Reached s (st.pos + 1) x.1) := by
    rintro ⟨p, errors⟩ ⟨hp, hpe⟩
    dsimp only at hp hpe
    have hesc := lt_decodeEscape_after s p quote
    simp only [shortStringStep]
    split_ifs with hend hquote hback hvalid hnl
    · exact .inr ⟨_, rfl, by dsimp only; omega, le_refl _⟩
    · exact .inr ⟨_, rfl, by dsimp only; omega, by dsimp only; omega⟩
    · exact .inl ⟨_, rfl, ⟨by dsimp only; omega, Nat.min_le_right _ _⟩, by dsimp only; omega⟩
    · obtain ⟨here, hhere, -⟩ := advanceLines_spec hl h1 (q := p) (by omega) hpe
      refine .inl ⟨_, by rw [hhere]; rfl, ⟨by dsimp only; omega, Nat.min_le_right _ _⟩, by dsimp only; omega⟩
    · exact .inr ⟨_, rfl, hp, hpe⟩
    · exact .inl ⟨_, rfl, ⟨by dsimp only; omega, by dsimp only; omega⟩, by dsimp only; omega⟩
  obtain ⟨x, hrun, hx⟩ := loop_total hadv (s := (st.pos + 1, st.errors)) (n := s.length + 2)
    ⟨le_refl _, by dsimp only; omega⟩ (by dsimp only; omega)
  exact ⟨x.1, x.2.1, x.2.2, hrun, hx⟩

/-- What one token leaves: a cursor that moved, and nothing written but errors and
interpolation depths. -/
structure TokenTaken (s : Bytes) (st st' : State) (kind : Kind) (text : Option Bytes) : Prop where
  reached : Reached s (st.pos + 1) st'.pos
  kind_ne : kind ≠ .eof
  text_eq : ∀ x, text = some x → x = sub s st.pos (st'.pos - 1)
  frame : st' = { st with pos := st'.pos, interp := st'.interp, errors := st'.errors }

theorem scanIstring_spec (opening : Bool) {st : State} (hle : st.pos ≤ s.length) :
    ∃ kind st', scanIstring s opening st = some (kind, st') ∧ TokenTaken s st st' kind none := by
  obtain ⟨q, segmentEnd, hrun, hq⟩ := scanSegment_total (s := s) (p := st.pos + 1) (by omega)
  simp only [scanIstring, hrun, Option.map_some]
  cases segmentEnd <;> cases opening
  all_goals exact ⟨_, _, rfl, hq, nofun, nofun, rfl⟩

theorem length_sub (s : Bytes) (i j : ℕ) : (sub s i j).length = min j s.length - (i - 1) := by
  simp [sub]

/-- An operator is read off the source. -/
theorem matchOperator_spec {p : ℕ} {text : Bytes} (hp : 1 ≤ p) (h : matchOperator s p = some text) :
    1 ≤ text.length ∧ p + text.length ≤ s.length + 1 ∧ text = sub s p (p + text.length - 1) := by
  have hcase : ∀ (n : ℕ) (ops : List Bytes), 1 ≤ n →
      (if (sub s p (p + n - 1)).length = n ∧ sub s p (p + n - 1) ∈ ops then some (sub s p (p + n - 1))
        else none) = some text →
      1 ≤ text.length ∧ p + text.length ≤ s.length + 1 ∧ text = sub s p (p + text.length - 1) := by
    intro n ops hn htext
    split_ifs at htext with hops
    cases htext
    obtain ⟨hlen, -⟩ := hops
    rw [hlen]
    rw [length_sub] at hlen
    exact ⟨hn, by omega, rfl⟩
  simp only [matchOperator] at h
  rcases Option.or_eq_some_iff.mp h with h | ⟨-, h⟩
  · exact hcase 4 ops4 (by omega) h
  rcases Option.or_eq_some_iff.mp h with h | ⟨-, h⟩
  · exact hcase 3 ops3 (by omega) h
  rcases Option.or_eq_some_iff.mp h with h | ⟨-, h⟩
  · exact hcase 2 ops2 (by omega) h
  · exact hcase 1 ops1 (by omega) h

theorem scanToken_spec {st : State} (h1 : 1 ≤ st.pos) (hle : st.pos ≤ s.length)
    (hl : LinesAt s st.pos st) :
    ∃ kind text st', scanToken s st = some (kind, text, st') ∧ TokenTaken s st st' kind text := by
  simp only [scanToken]
  split_ifs with hname hnumber hquote htick
  · refine ⟨_, _, _, rfl, ⟨le_skipWhile _ _, skipWhile_le _ (by omega) (by omega)⟩, ?_, ?_, rfl⟩
    · unfold wordKind
      split_ifs <;> nofun
    · rintro x ⟨⟩
      rfl
  · obtain ⟨q, ok, hrun, hq⟩ := scanNumber_total hnumber
    simp only [hrun, Option.map_some]
    cases ok
    all_goals exact ⟨_, _, _, rfl, hq, nofun, nofun, rfl⟩
  · obtain ⟨q, terminated, errors, hrun, hq⟩ :=
      scanShortString_total ((byte s st.pos).getD 0) h1 hle hl
    simp only [hrun, Option.map_some]
    cases terminated
    all_goals exact ⟨_, _, _, rfl, hq, nofun, nofun, rfl⟩
  · obtain ⟨kind, st', hrun, htaken⟩ := scanIstring_spec true hle
    exact ⟨kind, none, st', by rw [hrun]; rfl, htaken⟩
  · have hnext : Reached s (st.pos + 1) (st.pos + 1) := ⟨le_refl _, by omega⟩
    split
    · exact ⟨_, _, _, rfl, hnext, nofun, nofun, rfl⟩
    · obtain ⟨kind, st', hrun, htaken⟩ := scanIstring_spec false hle
      exact ⟨kind, none, st', by rw [hrun]; rfl, htaken⟩
    · exact ⟨_, _, _, rfl, hnext, nofun, nofun, rfl⟩
    · split
      case h_1 after hlong =>
        have hb := scanLongBracket_bounds hlong
        exact ⟨_, _, _, rfl, hb, nofun, nofun, rfl⟩
      case h_2 => exact ⟨_, _, _, rfl, ⟨by dsimp only [addError]; omega, le_refl _⟩, nofun, nofun, rfl⟩
      case h_3 => exact ⟨_, _, _, rfl, hnext, nofun, nofun, rfl⟩
    · split
      case h_1 text hop =>
        obtain ⟨hlen, hend, htext⟩ := matchOperator_spec h1 hop
        refine ⟨_, _, _, rfl, ⟨by dsimp only; omega, hend⟩, nofun, ?_, rfl⟩
        rintro x ⟨⟩
        exact htext
      case h_2 => exact ⟨_, _, _, rfl, hnext, nofun, nofun, rfl⟩

end Nupp.Lexer
