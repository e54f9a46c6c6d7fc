import Nupp.Syntax.LexerTokens

/-! The lexer ends on every input, and its tokens with their trivia are the input. -/

namespace Nupp.Lexer

open Loop

variable {s : Bytes}

/-- The spans of a token: its trivia, as far as the arena records them, and its text. -/
def tokenSpans (arena : List Trivia) (token : Token) : List (ℕ × ℕ) :=
  ((arena.drop (token.triviaFirst - 1)).take token.triviaCount).map (fun i => (i.offset, i.length)) ++
    [(token.offset, token.text.length)]

/-- Spans that lie end to end from `p` to `q`. -/
def Contiguous (p : ℕ) : List (ℕ × ℕ) → ℕ → Prop
  | [], q => p = q
  | (offset, length) :: spans, q => offset = p ∧ Contiguous (p + length) spans q

theorem Contiguous.append {p q r : ℕ} {a b : List (ℕ × ℕ)} (h : Contiguous p a q)
    (h' : Contiguous q b r) : Contiguous p (a ++ b) r := by
  induction a generalizing p with
  | nil =>
    cases h
    exact h'
  | cons x a ih => exact ⟨h.1, ih h.2⟩

theorem Run.contiguous {p q : ℕ} {items : List Trivia} (h : Run p items q) :
    Contiguous p (items.map fun i => (i.offset, i.length)) q := by
  induction items generalizing p with
  | nil => exact h
  | cons x items ih => exact ⟨h.1, ih h.2⟩

/-- Tokens that cover the source up to `p`, with their trivia in the arena. -/
inductive Laid (s : Bytes) : List Trivia → List Token → ℕ → Prop
  | nil : Laid s [] [] 1
  | snoc {arena : List Trivia} {tokens : List Token} {p : ℕ} (h : Laid s arena tokens p)
      {items : List Trivia} {token : Token} (hrun : Run p items token.offset)
      (hfirst : token.triviaFirst = arena.length + 1) (hcount : token.triviaCount = items.length)
      {q : ℕ} (hq : token.offset ≤ q) (hle : q ≤ s.length + 1)
      (htext : token.text = sub s token.offset (q - 1)) :
      Laid s (arena ++ items) (tokens ++ [token]) q

theorem Laid.bounds {arena : List Trivia} {tokens : List Token} {p : ℕ} (h : Laid s arena tokens p) :
    1 ≤ p ∧ p ≤ s.length + 1 := by
  induction h with
  | nil => exact ⟨le_refl 1, by omega⟩
  | snoc _ hrun _ _ hq hle _ ih => exact ⟨ih.1.trans (hrun.le.trans hq), hle⟩

theorem length_sub_of_le {p q : ℕ} (hp : 1 ≤ p) (hpq : p ≤ q) (hq : q ≤ s.length + 1) :
    (sub s p (q - 1)).length = q - p := by
  rw [length_sub]
  omega

/-- Reading on from `p` to `q` and then to `r`. -/
theorem sub_append_sub {p q r : ℕ} (hp : 1 ≤ p) (hpq : p ≤ q) (hqr : q ≤ r) :
    sub s p (q - 1) ++ sub s q (r - 1) = sub s p (r - 1) := by
  unfold sub
  have hq : s.take (q - 1) = (s.take (r - 1)).take (q - 1) := by
    rw [List.take_take]
    congr 1
    omega
  have hd : (s.take (r - 1)).drop (q - 1) = ((s.take (r - 1)).drop (p - 1)).drop (q - p) := by
    rw [List.drop_drop]
    congr 1
    omega
  have ht : ((s.take (r - 1)).take (q - 1)).drop (p - 1) =
      ((s.take (r - 1)).drop (p - 1)).take (q - p) := by
    rw [List.drop_take]
    congr 1
    omega
  rw [hq, ht, hd, List.take_append_drop]

theorem sub_self (p : ℕ) : sub s p (p - 1) = [] := by
  simp [sub]

/-! The text comes back. -/

theorem triviaRun_eq {p q : ℕ} (arena : List Trivia) {items : List Trivia} (more : List Trivia) (hp : 1 ≤ p)
    (h : Run p items q) :
    triviaRun s (arena ++ items ++ more) (arena.length + 1) items.length = some (sub s p (q - 1)) := by
  induction items generalizing p arena with
  | nil =>
    cases h
    simp [triviaRun, sub_self]
  | cons item items ih =>
    obtain ⟨hoffset, hrest⟩ := h
    have hitem : triviaText s (arena ++ item :: items ++ more) (arena.length + 1) =
        some (sub s p (p + item.length - 1)) := by
      simp [triviaText, hoffset]
    have htail := ih (arena ++ [item]) (hp.trans (Nat.le_add_right _ _)) hrest
    simp only [List.append_assoc, List.cons_append, List.nil_append, List.length_append,
      List.length_singleton] at htail hitem ⊢
    simp only [List.length_cons, triviaRun, hitem, htail, Option.bind_eq_bind, Option.bind_some]
    rw [sub_append_sub hp (Nat.le_add_right _ _) hrest.le]

theorem textOf_append (arena : List Trivia) (a b : List Token) {x y : Bytes}
    (ha : textOf s arena a = some x) (hb : textOf s arena b = some y) :
    textOf s arena (a ++ b) = some (x ++ y) := by
  induction a generalizing x with
  | nil =>
    cases ha
    exact hb
  | cons token a ih =>
    simp only [textOf, Option.bind_eq_bind, Option.bind_eq_some_iff] at ha
    obtain ⟨trivia, htrivia, texts, htexts, ⟨⟩⟩ := ha
    simp only [List.cons_append, textOf, htrivia, ih htexts, Option.bind_eq_bind, Option.bind_some,
      List.append_assoc]

theorem Laid.textOf_eq {arena : List Trivia} {tokens : List Token} {p : ℕ} (h : Laid s arena tokens p)
    (more : List Trivia) : textOf s (arena ++ more) tokens = some (sub s 1 (p - 1)) := by
  induction h generalizing more with
  | nil => simp [textOf, sub]
  | @snoc arena tokens p h items token hrun hfirst hcount q hq hle htext ih =>
    have hp := h.bounds.1
    have hlast : textOf s (arena ++ items ++ more) [token] = some (sub s p (q - 1)) := by
      have htrivia := triviaRun_eq (s := s) arena more hp hrun
      simp only [textOf, hfirst, hcount, htrivia, Option.bind_eq_bind, Option.bind_some,
        List.append_nil]
      rw [htext, sub_append_sub hp hrun.le hq]
    have hinit := ih (items ++ more)
    rw [← List.append_assoc] at hinit
    rw [textOf_append _ _ _ hinit hlast, sub_append_sub (le_refl 1) hp (hrun.le.trans hq)]

/-! The spans are contiguous. -/

theorem tokenSpans_eq {arena items : List Trivia} (more : List Trivia) {token : Token}
    (hfirst : token.triviaFirst = arena.length + 1) (hcount : token.triviaCount = items.length) :
    tokenSpans (arena ++ items ++ more) token =
      items.map (fun i => (i.offset, i.length)) ++ [(token.offset, token.text.length)] := by
  simp [tokenSpans, hfirst, hcount]

theorem Laid.contiguous {arena : List Trivia} {tokens : List Token} {p : ℕ} (h : Laid s arena tokens p)
    (more : List Trivia) : Contiguous 1 (tokens.flatMap (tokenSpans (arena ++ more))) p := by
  induction h generalizing more with
  | nil => rfl
  | @snoc arena tokens p h items token hrun hfirst hcount q hq hle htext ih =>
    have hinit := ih (items ++ more)
    rw [← List.append_assoc] at hinit
    rw [List.flatMap_append]
    refine hinit.append ?_
    simp only [List.flatMap_cons, List.flatMap_nil, List.append_nil, tokenSpans_eq more hfirst hcount]
    refine hrun.contiguous.append ⟨rfl, ?_⟩
    have hwidth := length_sub_of_le (s := s) (h.bounds.1.trans hrun.le) hq hle
    rw [← htext] at hwidth
    show token.offset + token.text.length = q
    omega

/-! The main loop. -/

/-- A token stands where it says it does. -/
def Placed (s : Bytes) (token : Token) : Prop :=
  token.line = lineOf s token.offset ∧ token.col = token.offset - lastNewline s token.offset

/-- What holds between two tokens. -/
structure Between (s : Bytes) (st : State) : Prop where
  laid : Laid s st.arena st.tokens st.pos
  lines : LinesAt s st.pos st
  placed : ∀ token ∈ st.tokens, Placed s token
  kind_ne : ∀ token ∈ st.tokens, token.kind ≠ .eof

/-- What holds once the end of the file has its token. -/
structure Finished (s : Bytes) (st : State) : Prop where
  laid : Laid s st.arena st.tokens (s.length + 1)
  placed : ∀ token ∈ st.tokens, Placed s token
  eof : ∃ init last, st.tokens = init ++ [last] ∧ last.kind = .eof ∧ ∀ token ∈ init, token.kind ≠ .eof

theorem customary_ne_eof {kind : Kind} (h : kind ≠ .eof) : customary kind ≠ .eof := by
  unfold customary
  split
  · split <;> nofun
  · exact h

theorem forall_mem_snoc {P : Token → Prop} {tokens : List Token} {token : Token}
    (h : ∀ t ∈ tokens, P t) (ht : P token) : ∀ t ∈ tokens ++ [token], P t := by
  intro t hmem
  rcases List.mem_append.mp hmem with hmem | hmem
  · exact h t hmem
  · rw [List.mem_singleton.mp hmem]
    exact ht

theorem lexStep_advances (s : Bytes) :
    Advances (lexStep s) (Between s) (fun st => s.length + 1 - st.pos) (Finished s) := by
  intro st ⟨hlaid, hlines, hplaced, hkind⟩
  obtain ⟨h1, hle⟩ := hlaid.bounds
  obtain ⟨st₁, taken, hrun₁, ⟨⟨items, harena, hcount, hrun⟩, hle₁, hl₁, htokens, hinterp⟩⟩ :=
    scanTrivia_spec h1 hle hlines
  have h1₁ : 1 ≤ st₁.pos := h1.trans hrun.le
  by_cases hend : s.length < st₁.pos
  · have hpos : st₁.pos = s.length + 1 := by omega
    let token : Token := ⟨.eof, [], st₁.pos, st₁.line, colOf st₁ st₁.pos, st.arena.length + 1, taken⟩
    have hlast : Laid s (st.arena ++ items) (st.tokens ++ [token]) (s.length + 1) :=
      hlaid.snoc hrun rfl hcount.symm hpos.le (le_refl _) (by rw [← hpos, sub_self])
    have htoken : Placed s token := ⟨hl₁.line, hl₁.colOf_eq h1₁⟩
    have hdone : ∀ st' : State, st'.arena = st₁.arena → st'.tokens = st₁.tokens →
        Finished s { st' with tokens := st'.tokens ++ [token] } := by
      intro st' ha ht
      refine ⟨?_, ?_, st.tokens, token, by rw [ht, htokens], rfl, hkind⟩
      · rwa [ha, ht, harena, htokens]
      · rw [ht, htokens]
        exact forall_mem_snoc hplaced htoken
    refine .inr ⟨_, by simp only [lexStep, hrun₁, Option.bind_some, if_pos hend]; rfl, hdone _ ?_ ?_⟩
    · split_ifs <;> rfl
    · split_ifs <;> rfl
  · obtain ⟨kind, text, st₂, hrun₂, hreach, hne, htext, hframe⟩ := scanToken_spec h1₁ (by omega) hl₁
    let token : Token := ⟨customary kind, text.getD (sub s st₁.pos (st₂.pos - 1)), st₁.pos, st₁.line,
      colOf st₁ st₁.pos, st.arena.length + 1, taken⟩
    have htokenText : token.text = sub s st₁.pos (st₂.pos - 1) := by
      cases text with
      | none => rfl
      | some x => exact htext x rfl
    have hlast : Laid s (st.arena ++ items) (st.tokens ++ [token]) st₂.pos :=
      hlaid.snoc hrun rfl hcount.symm ((Nat.le_succ _).trans hreach.1) hreach.2 htokenText
    have hl₂ : LinesAt s st₁.pos { st₂ with tokens := st₂.tokens ++ [token] } := by
      rw [hframe]
      exact hl₁.congr rfl rfl rfl
    obtain ⟨st₃, hrun₃, hl₃, hsame⟩ := advanceLines_spec hl₂ h1₁ ((Nat.le_succ _).trans hreach.1) hreach.2
    obtain ⟨hp, -, ha, ht⟩ := hsame.fields
    dsimp only at hp ha ht
    have htokens₃ : st₃.tokens = st.tokens ++ [token] := by rw [ht, hframe, htokens]
    have harena₃ : st₃.arena = st.arena ++ items := by rw [ha, hframe, harena]
    refine .inl ⟨st₃, ?_, ⟨?_, hp ▸ hl₃, ?_, ?_⟩, ?_⟩
    · simp only [lexStep, hrun₁, Option.bind_some, if_neg hend, hrun₂]
      rw [hrun₃]
      rfl
    · rwa [harena₃, htokens₃, hp]
    · rw [htokens₃]
      exact forall_mem_snoc hplaced ⟨hl₁.line, hl₁.colOf_eq h1₁⟩
    · rw [htokens₃]
      exact forall_mem_snoc hkind (customary_ne_eof hne)
    · have hlow := hrun.le
      have hhigh := hreach.1
      dsimp only
      omega

/-- Lexing ends, with one token for the end of the file that comes last; trivia and
tokens give the source back, lie end to end and stand on the lines and columns they say. -/
theorem lex_lossless (s : Bytes) :
    ∃ st, lex s = some st ∧
      (∃ init last, st.tokens = init ++ [last] ∧ last.kind = .eof ∧
        ∀ token ∈ init, token.kind ≠ .eof) ∧
      textOf s st.arena st.tokens = some s ∧
      Contiguous 1 (st.tokens.flatMap (tokenSpans st.arena)) (s.length + 1) ∧
      ∀ token ∈ st.tokens, token.line = lineOf s token.offset ∧
        token.col = token.offset - lastNewline s token.offset := by
  have hinit : Between s (State.initial s) := ⟨.nil, linesAt_initial s, by simp [State.initial],
    by simp [State.initial]⟩
  obtain ⟨st, hrun, hlaid, hplaced, heof⟩ := loop_total (lexStep_advances s) (n := s.length + 2) hinit
    (by omega)
  have htext := hlaid.textOf_eq []
  have hspans := hlaid.contiguous []
  rw [List.append_nil] at htext hspans
  refine ⟨st, hrun, heof, ?_, hspans, hplaced⟩
  rw [htext]
  simp [sub]

end Nupp.Lexer
