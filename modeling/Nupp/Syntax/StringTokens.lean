import Nupp.Syntax.StringScan

/-! The string tokens a source is lexed into: each is a literal of its form, or has an
error in it. -/

namespace Nupp.Lexer

open Loop

variable {s : Bytes}

/-! Errors stay. -/

theorem SameButLines.errors {st st' : State} (h : SameButLines st st') : st'.errors = st.errors := by
  unfold SameButLines at h
  rw [h]

theorem advanceLines_same {q : ℕ} {st st' : State} (h : advanceLines s q st = some st') :
    SameButLines st st' := by
  have hkeep : ∀ x y, SameButLines st x → linesStep s q x = some (.inl y) → SameButLines st y := by
    intro x y hx hstep
    unfold linesStep at hstep
    split_ifs at hstep with hlt
    · cases hstep
      unfold SameButLines at hx ⊢
      rw [hx]
    · cases hstep
  have hend : ∀ x y, SameButLines st x → linesStep s q x = some (.inr y) → SameButLines st y := by
    intro x y hx hstep
    unfold linesStep at hstep
    split_ifs at hstep with hlt
    · cases hstep
    · cases hstep
      exact hx
  have hinit : SameButLines st st := rfl
  exact loop_sound hkeep hend hinit h

theorem scanTriviaItem_errors {st st' : State} {kind : TriviaKind}
    (h : scanTriviaItem s st = some (kind, st')) : st.errors ⊆ st'.errors := by
  unfold scanTriviaItem at h
  split_ifs at h with hbom hhash hspace hcomment
  · cases h
    exact List.Subset.refl _
  · split at h
    all_goals
      cases h
      exact List.Subset.refl _
  · cases h
    exact List.Subset.refl _
  · split at h
    · cases h
      exact List.Subset.refl _
    · cases h
      exact List.subset_append_left _ _
    · cases h
      exact List.Subset.refl _

theorem scanTrivia_errors {st st' : State} {taken : ℕ} (h : scanTrivia s st = some (st', taken)) :
    st.errors ⊆ st'.errors := by
  have hkeep : ∀ x y : State × ℕ, st.errors ⊆ x.1.errors → triviaStep s x = some (.inl y) →
      st.errors ⊆ y.1.errors := by
    rintro ⟨x, n⟩ y hx hstep
    simp only [triviaStep] at hstep
    split_ifs at hstep with hin
    · split at hstep
      case h_1 => cases hstep
      case h_2 kind x' hitem =>
        obtain ⟨x'', hlines, hy⟩ := Option.map_eq_some_iff.mp hstep
        cases hy
        have hsub := List.Subset.trans hx (scanTriviaItem_errors hitem)
        rw [(advanceLines_same hlines).errors]
        exact hsub
    · cases hstep
  have hend : ∀ x y : State × ℕ, st.errors ⊆ x.1.errors → triviaStep s x = some (.inr y) →
      st.errors ⊆ y.1.errors := by
    rintro ⟨x, n⟩ y hx hstep
    simp only [triviaStep] at hstep
    split_ifs at hstep with hin
    · split at hstep
      case h_1 =>
        cases hstep
        exact hx
      case h_2 kind x' hitem =>
        obtain ⟨x'', -, hy⟩ := Option.map_eq_some_iff.mp hstep
        cases hy
    · cases hstep
      exact hx
  exact loop_sound hkeep hend (List.Subset.refl st.errors) h

/-! One token. -/

/-- What a string token is made of. -/
inductive StringTaken (s : Bytes) (st st' : State) : Prop
  | short {quote : UInt8} (hquote : quote = 34 ∨ quote = 39) (hc : byte s st.pos = some quote)
      (h : ShortString s quote st (st'.pos, true, st'.errors))
  | backtick (hc : byte s st.pos = some 96) (hlt : st.pos + 1 < st'.pos) (hlast : byte s (st'.pos - 1) = some 96)
  | long (hc : byte s st.pos = some 91)

theorem wordKind_ne_string (text : Bytes) : wordKind text ≠ .string := by
  unfold wordKind
  split_ifs <;> nofun

/-- A segment of an interpolated string is a string token when it is the whole string. -/
theorem scanIstring_string {opening : Bool} {st st' : State} {kind : Kind}
    (h : scanIstring s opening st = some (kind, st')) :
    st.errors ⊆ st'.errors ∧ (kind = .string → opening = true ∧ st.pos + 1 < st'.pos ∧
      byte s (st'.pos - 1) = some 96) := by
  simp only [scanIstring] at h
  obtain ⟨⟨p, segmentEnd⟩, hscan, hr⟩ := Option.map_eq_some_iff.mp h
  cases segmentEnd with
  | closed =>
    have hclosed := scanSegment_closed hscan rfl
    cases opening with
    | true =>
      cases hr
      exact ⟨List.Subset.refl _, fun _ => ⟨rfl, hclosed⟩⟩
    | false =>
      cases hr
      exact ⟨List.Subset.refl _, by rintro ⟨⟩⟩
  | interpolation =>
    cases opening with
    | true =>
      cases hr
      exact ⟨List.Subset.refl _, by rintro ⟨⟩⟩
    | false =>
      cases hr
      exact ⟨List.Subset.refl _, by rintro ⟨⟩⟩
  | unterminated =>
    cases hr
    exact ⟨List.subset_append_left _ _, by rintro ⟨⟩⟩

theorem scanToken_string {st st' : State} {kind : Kind} {text : Option Bytes}
    (h : scanToken s st = some (kind, text, st')) :
    st.errors ⊆ st'.errors ∧ (kind = .string → text = none ∧ StringTaken s st st') := by
  simp only [scanToken] at h
  split_ifs at h with hname hnumber hquote htick
  · cases h
    exact ⟨List.Subset.refl _, fun hkind => absurd hkind (wordKind_ne_string _)⟩
  · obtain ⟨⟨stop, ok⟩, -, hr⟩ := Option.map_eq_some_iff.mp h
    cases ok with
    | true =>
      cases hr
      exact ⟨List.Subset.refl _, by rintro ⟨⟩⟩
    | false =>
      cases hr
      exact ⟨List.subset_append_left _ _, by rintro ⟨⟩⟩
  · obtain ⟨⟨stop, terminated, errors⟩, hscan, hr⟩ := Option.map_eq_some_iff.mp h
    have hshort := scanShortString_spec hscan
    cases terminated with
    | true =>
      cases hr
      refine ⟨hshort.errors_sub, fun _ => ⟨rfl, ?_⟩⟩
      rcases hquote with hc | hc
      · rw [hc] at hshort
        exact .short (.inl rfl) hc hshort
      · rw [hc] at hshort
        exact .short (.inr rfl) hc hshort
    | false =>
      cases hr
      exact ⟨List.Subset.trans hshort.errors_sub (List.subset_append_left _ _), by rintro ⟨⟩⟩
  · obtain ⟨⟨k, st''⟩, hscan, hr⟩ := Option.map_eq_some_iff.mp h
    cases hr
    obtain ⟨herrors, hstring⟩ := scanIstring_string hscan
    refine ⟨herrors, fun hkind => ⟨rfl, ?_⟩⟩
    obtain ⟨-, hlt, hlast⟩ := hstring hkind
    exact .backtick htick hlt hlast
  · split at h
    · cases h
      exact ⟨List.Subset.refl _, by rintro ⟨⟩⟩
    · obtain ⟨⟨k, st''⟩, hscan, hr⟩ := Option.map_eq_some_iff.mp h
      cases hr
      obtain ⟨herrors, hstring⟩ := scanIstring_string hscan
      refine ⟨herrors, fun hkind => ?_⟩
      exact absurd (hstring hkind).1 (by decide)
    · cases h
      exact ⟨List.Subset.refl _, by rintro ⟨⟩⟩
    case h_4 _ hc =>
      split at h
      · cases h
        exact ⟨List.Subset.refl _, fun _ => ⟨rfl, .long hc⟩⟩
      · cases h
        exact ⟨List.subset_append_left _ _, by rintro ⟨⟩⟩
      · cases h
        exact ⟨List.Subset.refl _, by rintro ⟨⟩⟩
    · split at h
      · cases h
        exact ⟨List.Subset.refl _, by rintro ⟨⟩⟩
      · cases h
        exact ⟨List.subset_append_left _ _, by rintro ⟨⟩⟩

/-! All tokens. -/

/-- A token that is a short or a backtick string is one by its text, or has an error in it. -/
def IsLiteral (errors : List LexError) (token : Token) : Prop :=
  token.kind = .string → ∀ c t, token.text = c :: t →
    (c = 34 ∨ c = 39 → (∃ pieces, Split escape t pieces [c] ∧ Quiet c pieces) ∨
      ErrorIn errors token.offset (token.offset + token.text.length)) ∧
    (c = 96 → ∃ body, t = body ++ [96])

theorem IsLiteral.mono {errors errors' : List LexError} {token : Token} (h : IsLiteral errors token)
    (herrors : errors ⊆ errors') : IsLiteral errors' token := by
  intro hkind c t htext
  obtain ⟨hshort, hbacktick⟩ := h hkind c t htext
  refine ⟨fun hc => ?_, hbacktick⟩
  rcases hshort hc with hpieces | herror
  · exact .inl hpieces
  · exact .inr (herror.mono herrors (le_refl _))

/-- A text read off the source between two positions. -/
theorem sub_of_drop {p q : ℕ} {l : Bytes} (hp : 1 ≤ p) (hpq : p ≤ q) (hq : q ≤ s.length + 1)
    (h : s.drop (p - 1) = l ++ s.drop (q - 1)) : sub s p (q - 1) = l := by
  have hlen := congrArg List.length h
  simp only [List.length_append, List.length_drop] at hlen
  rw [sub, List.drop_take, h, List.take_left']
  omega

theorem isLiteral_of_taken {st st' : State} (token : Token) (h : StringTaken s st st')
    (h1 : 1 ≤ st.pos) (hlt : st.pos < st'.pos) (hle : st'.pos ≤ s.length + 1) (hoffset : token.offset = st.pos)
    (htext : token.text = sub s st.pos (st'.pos - 1)) : IsLiteral st'.errors token := by
  intro _ c t hct
  have hfirst : ∀ d, byte s st.pos = some d → c = d := by
    intro d hd
    have hhead : (sub s st.pos (st'.pos - 1)).head? = some d := by
      rw [sub, List.drop_take, drop_pred_of_byte hd]
      obtain ⟨n, hn⟩ : ∃ n, st'.pos - 1 - (st.pos - 1) = n + 1 := ⟨st'.pos - 1 - st.pos, by omega⟩
      rw [hn]
      rfl
    rw [← htext, hct] at hhead
    exact Option.some.inj hhead
  have hend : token.offset + token.text.length = st'.pos := by
    rw [htext, hoffset, length_sub_of_le h1 hlt.le hle]
    omega
  cases h with
  | @short quote hquote hc h =>
    obtain rfl := hfirst quote hc
    refine ⟨fun _ => ?_, fun h96 => ?_⟩
    · rcases h.pieces rfl with ⟨pieces, hsplit, hquiet⟩ | herror
      · refine .inl ⟨pieces, ?_, hquiet⟩
        have hdrop : s.drop (st.pos - 1) = (c :: textOfPieces pieces ++ [c]) ++ s.drop (st'.pos - 1) := by
          rw [drop_pred_of_byte hc, hsplit.text_append]
          simp
        rw [sub_of_drop h1 hlt.le hle hdrop] at htext
        rw [htext] at hct
        obtain rfl : t = textOfPieces pieces ++ [c] := (List.cons.inj hct).2.symm
        exact hsplit.follows (.of_head rfl)
      · rw [hend, hoffset]
        exact .inr herror
    · subst h96
      rcases hquote with h | h
      · exact absurd h (by decide)
      · exact absurd h (by decide)
  | backtick hc hnext hlast =>
    obtain rfl := hfirst 96 hc
    refine ⟨fun hquote => ?_, fun _ => ⟨sub s (st.pos + 1) (st'.pos - 1 - 1), ?_⟩⟩
    · rcases hquote with h | h
      · exact absurd h (by decide)
      · exact absurd h (by decide)
    · have hfront := sub_append_sub (s := s) (p := st.pos) (q := st.pos + 1) (r := st'.pos) h1 (by omega) hlt
      have hback := sub_append_sub (s := s) (p := st.pos + 1) (q := st'.pos - 1) (r := st'.pos)
        (by omega) (by omega) (by omega)
      rw [Nat.add_sub_cancel, sub_one hc, ← hback, sub_one hlast, ← htext, hct] at hfront
      exact (List.cons.inj hfront).2.symm
  | long hc =>
    obtain rfl := hfirst 91 hc
    refine ⟨fun hquote => ?_, fun h96 => absurd h96 (by decide)⟩
    rcases hquote with h | h
    · exact absurd h (by decide)
    · exact absurd h (by decide)

/-- What holds between two tokens, with the literals read so far. -/
structure Literals (s : Bytes) (st : State) : Prop where
  between : Between s st
  literals : ∀ token ∈ st.tokens, IsLiteral st.errors token

theorem customary_eq_string {kind : Kind} (h : customary kind = .string) : kind = .string := by
  unfold customary at h
  split at h
  · split at h <;> cases h
  · exact h

theorem lexStep_literals {st st' : State} (hst : Literals s st) (h : lexStep s st = some (.inl st')) :
    Literals s st' := by
  obtain ⟨hbetween, hliterals⟩ := hst
  have hbetween' : Between s st' := by
    rcases lexStep_advances s st hbetween with ⟨x, hx, hinv, -⟩ | ⟨x, hx, -⟩
    · rw [h] at hx
      cases hx
      exact hinv
    · rw [h] at hx
      cases hx
  refine ⟨hbetween', ?_⟩
  obtain ⟨hlaid, hlines, -, -⟩ := hbetween
  obtain ⟨h1, hle⟩ := hlaid.bounds
  obtain ⟨st₁, taken, hrun₁, ⟨⟨items, -, -, hrun⟩, hle₁, hl₁, htokens, -⟩⟩ := scanTrivia_spec h1 hle hlines
  have h1₁ : 1 ≤ st₁.pos := h1.trans hrun.le
  have herrors₁ := scanTrivia_errors hrun₁
  simp only [lexStep, hrun₁, Option.bind_some] at h
  by_cases hend : s.length < st₁.pos
  · rw [if_pos hend] at h
    cases h
  rw [if_neg hend] at h
  obtain ⟨kind, text, st₂, hrun₂, hreach, -, -, hframe⟩ := scanToken_spec h1₁ (by omega) hl₁
  obtain ⟨herrors₂, hstring⟩ := scanToken_string hrun₂
  simp only [hrun₂, Option.bind_some] at h
  obtain ⟨st₃, hrun₃, hst₃⟩ := Option.map_eq_some_iff.mp h
  cases hst₃
  have hsame := advanceLines_same hrun₃
  have hsub : st.errors ⊆ st'.errors := by
    rw [hsame.errors]
    exact List.Subset.trans herrors₁ herrors₂
  rw [hsame.fields.2.2.2]
  dsimp only
  rw [hframe, htokens]
  refine forall_mem_snoc (fun token htoken => (hliterals token htoken).mono hsub) ?_
  intro hkind
  obtain ⟨rfl, htaken⟩ := hstring (customary_eq_string hkind)
  have hliteral := isLiteral_of_taken
    ⟨.string, sub s st₁.pos (st₂.pos - 1), st₁.pos, st₁.line, colOf st₁ st₁.pos, 0, 0⟩ htaken h1₁
    (Nat.lt_of_succ_le hreach.1) hreach.2 rfl rfl rfl
  rw [hsame.errors]
  exact hliteral

theorem lexStep_literals_end {st st' : State} (hst : Literals s st) (h : lexStep s st = some (.inr st')) :
    ∀ token ∈ st'.tokens, IsLiteral st'.errors token := by
  obtain ⟨hbetween, hliterals⟩ := hst
  simp only [lexStep] at h
  obtain ⟨⟨st₁, taken⟩, hrun₁, h⟩ := Option.bind_eq_some_iff.mp h
  have herrors₁ := scanTrivia_errors hrun₁
  have htokens : st₁.tokens = st.tokens := by
    obtain ⟨h1, hle⟩ := hbetween.laid.bounds
    obtain ⟨x, n, hx, htaken⟩ := scanTrivia_spec h1 hle hbetween.lines
    rw [hrun₁] at hx
    cases hx
    exact htaken.tokens
  dsimp only at h
  split_ifs at h with hend hinterp
  · cases h
    dsimp only
    rw [htokens]
    exact forall_mem_snoc (fun token htoken => (hliterals token htoken).mono herrors₁) (by rintro ⟨⟩)
  · cases h
    dsimp only [addError]
    rw [htokens]
    exact forall_mem_snoc (fun token htoken => (hliterals token htoken).mono
      (List.subset_append_of_subset_left _ herrors₁)) (by rintro ⟨⟩)
  · obtain ⟨⟨kind, text, st₂⟩, -, h⟩ := Option.bind_eq_some_iff.mp h
    obtain ⟨st₃, -, hst₃⟩ := Option.map_eq_some_iff.mp h
    cases hst₃

theorem lex_literals {st : State} (h : lex s = some st) : ∀ token ∈ st.tokens, IsLiteral st.errors token := by
  have hinit : Literals s (State.initial s) := by
    refine ⟨⟨.nil, linesAt_initial s, ?_, ?_⟩, ?_⟩
    all_goals
      intro token htoken
      cases htoken
  exact loop_sound (fun _ _ => lexStep_literals) (fun _ _ => lexStep_literals_end) hinit h

end Nupp.Lexer
