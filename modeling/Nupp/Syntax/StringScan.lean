import Nupp.Syntax.StringDecode

/-! The string tokens of the lexer, as sequences of raw bytes and escapes. -/

namespace Nupp.Lexer

open Loop

variable {s : Bytes}

theorem Split.append {esc : Bytes → Option (Bytes × Bytes)} {l r r' : Bytes} {a b : List Piece}
    (h : Split esc l a r) (h' : Split esc r b r') : Split esc l (a ++ b) r' := by
  induction h with
  | nil l => exact h'
  | raw hc _ ih => exact .raw hc (ih h')
  | escaped hesc hl _ ih => exact .escaped hesc hl (ih h')

theorem text_head (piece : Piece) (pieces : List Piece) (r r' : Bytes) :
    (textOfPieces (piece :: pieces) ++ r).head? = (textOfPieces (piece :: pieces) ++ r').head? := by
  cases piece <;> rfl

/-- The pieces of a text are those of any text that goes on the same way. -/
theorem Split.follows {l r r' : Bytes} {pieces : List Piece} (h : Split escape l pieces r)
    (hr : Follows r r') : Split escape (textOfPieces pieces ++ r') pieces r' := by
  induction h with
  | nil l => exact .nil _
  | @raw c l r pieces hc _ ih => exact .raw hc (ih hr)
  | @escaped l used value l' r pieces hesc hl hrest ih =>
    obtain ⟨ch, used', ⟨hl', htakes⟩, -⟩ := escape_takes hesc
    have hsame : used = ch :: used' := List.append_cancel_right (hl.symm.trans hl')
    have hnext : Follows l' (textOfPieces pieces ++ r') := by
      rw [hrest.text_append]
      cases pieces with
      | nil => exact hr
      | cons piece pieces => exact .of_head (text_head piece pieces _ _)
    have hesc' := htakes _ hnext
    rw [← hsame] at hesc'
    have hsplit : Split escape (92 :: (used ++ (textOfPieces pieces ++ r'))) (.escape used value :: pieces) r' :=
      .escaped hesc' rfl (ih hr)
    simpa [textOfPieces, Piece.text] using hsplit

/-! Short strings. -/

/-- No raw byte that ends a short string. -/
def Quiet (quote : UInt8) (pieces : List Piece) : Prop := ∀ c, .raw c ∈ pieces → c ≠ quote ∧ c ≠ 10

theorem Quiet.snoc {quote : UInt8} {pieces : List Piece} (h : Quiet quote pieces) {piece : Piece}
    (hp : ∀ c, piece = .raw c → c ≠ quote ∧ c ≠ 10) : Quiet quote (pieces ++ [piece]) := by
  intro c hc
  rcases List.mem_append.mp hc with hc | hc
  · exact h c hc
  · exact hp c (List.mem_singleton.mp hc).symm

/-- An error between two positions. -/
def ErrorIn (errors : List LexError) (p q : ℕ) : Prop := ∃ e ∈ errors, p ≤ e.offset ∧ e.offset < q

theorem ErrorIn.mono {errors errors' : List LexError} {p q q' : ℕ} (h : ErrorIn errors p q)
    (herrors : errors ⊆ errors') (hq : q ≤ q') : ErrorIn errors' p q' := by
  obtain ⟨e, he, hp, hlt⟩ := h
  exact ⟨e, herrors he, hp, hlt.trans_le hq⟩

/-- A scan that stands at `p`: what it has read is in pieces, or it has reported an error,
or the source has ended in a backslash. -/
structure Scanning (s : Bytes) (quote : UInt8) (st : State) (x : ℕ × List LexError) : Prop where
  pos_lt : st.pos < x.1
  errors_sub : st.errors ⊆ x.2
  pieces : (∃ pieces, Split escape (s.drop st.pos) pieces (s.drop (x.1 - 1)) ∧ Quiet quote pieces) ∨
    ErrorIn x.2 st.pos x.1 ∨ s.length < x.1

theorem shortStringStep_keeps {quote : UInt8} {st : State} {x y : ℕ × List LexError}
    (hx : Scanning s quote st x) (h : shortStringStep s quote st x = some (.inl y)) :
    Scanning s quote st y := by
  obtain ⟨p, errors⟩ := x
  obtain ⟨hpos, herrors, hpieces⟩ := hx
  dsimp only at hpos herrors hpieces
  simp only [shortStringStep] at h
  by_cases hend : s.length < p
  · rw [if_pos hend] at h
    cases h
  rw [if_neg hend] at h
  obtain ⟨c, hc⟩ := byte_of_le (s := s) (p := p) (by omega) (by omega)
  have hdrop := drop_pred_of_byte hc
  rw [hc] at h
  by_cases hquote : c = quote
  · rw [if_pos (by rw [hquote])] at h
    cases h
  rw [if_neg (by simpa using hquote)] at h
  by_cases hback : c = 92
  · subst hback
    rw [if_pos rfl] at h
    have hafter := lt_decodeEscape_after s p quote
    by_cases hvalid : (decodeEscape s p quote).valid = true
    · rw [if_pos hvalid] at h
      cases h
      refine ⟨by dsimp only; omega, herrors, ?_⟩
      rcases hpieces with ⟨pieces, hsplit, hquiet⟩ | herror | hover
      · by_cases hlast : p < s.length
        · have hagrees := decodeEscape_agrees quote hlast
          cases hescape : escape (s.drop p) with
          | none =>
            rw [hescape] at hagrees
            rw [hagrees.1] at hvalid
            cases hvalid
          | some r =>
            obtain ⟨value, rest⟩ := r
            rw [hescape] at hagrees
            obtain ⟨-, -, hrest, hbound⟩ := hagrees
            obtain ⟨ch, used, ⟨hl, -⟩, -⟩ := escape_takes hescape
            refine .inl ⟨pieces ++ [.escape (ch :: used) value], hsplit.append ?_, hquiet.snoc (by rintro _ ⟨⟩)⟩
            rw [hdrop, Nat.min_eq_left hbound, ← hrest]
            exact .escaped hescape hl (.nil _)
        · refine .inr (.inr ?_)
          dsimp only
          omega
      · exact .inr (.inl (herror.mono (List.Subset.refl _) (by dsimp only; omega)))
      · exact absurd hover hend
    · rw [if_neg hvalid] at h
      obtain ⟨here, -, hy⟩ := Option.map_eq_some_iff.mp h
      cases hy
      refine ⟨by dsimp only; omega, List.subset_append_of_subset_left _ herrors, .inr (.inl ?_)⟩
      exact ⟨_, List.mem_append_right _ (List.mem_singleton_self _), by dsimp only; omega, by dsimp only; omega⟩
  · rw [if_neg (by simpa using hback)] at h
    by_cases hfeed : c = 10
    · rw [if_pos (by rw [hfeed])] at h
      cases h
    · rw [if_neg (by simpa using hfeed)] at h
      cases h
      refine ⟨by dsimp only; omega, herrors, ?_⟩
      rcases hpieces with ⟨pieces, hsplit, hquiet⟩ | herror | hover
      · refine .inl ⟨pieces ++ [.raw c], hsplit.append ?_, hquiet.snoc ?_⟩
        · rw [hdrop]
          exact .raw hback (.nil _)
        · rintro _ ⟨⟩
          exact ⟨hquote, hfeed⟩
      · exact .inr (.inl (herror.mono (List.Subset.refl _) (Nat.le_succ p)))
      · exact absurd hover hend

/-- A short string that ends with its quote is in pieces up to it, or has an error in it. -/
structure ShortString (s : Bytes) (quote : UInt8) (st : State) (r : ℕ × Bool × List LexError) : Prop where
  errors_sub : st.errors ⊆ r.2.2
  pieces : r.2.1 = true → (∃ pieces, Split escape (s.drop st.pos) pieces (quote :: s.drop (r.1 - 1)) ∧
    Quiet quote pieces) ∨ ErrorIn r.2.2 st.pos r.1

theorem shortStringStep_ends {quote : UInt8} {st : State} {x : ℕ × List LexError} {r : ℕ × Bool × List LexError}
    (hx : Scanning s quote st x) (h : shortStringStep s quote st x = some (.inr r)) :
    ShortString s quote st r := by
  obtain ⟨p, errors⟩ := x
  obtain ⟨hpos, herrors, hpieces⟩ := hx
  dsimp only at hpos herrors hpieces
  simp only [shortStringStep] at h
  by_cases hend : s.length < p
  · rw [if_pos hend] at h
    cases h
    exact ⟨herrors, by rintro ⟨⟩⟩
  rw [if_neg hend] at h
  by_cases hquote : byte s p = some quote
  · rw [if_pos hquote] at h
    cases h
    refine ⟨herrors, fun _ => ?_⟩
    rcases hpieces with ⟨pieces, hsplit, hquiet⟩ | herror | hover
    · rw [drop_pred_of_byte hquote] at hsplit
      exact .inl ⟨pieces, hsplit, hquiet⟩
    · exact .inr (herror.mono (List.Subset.refl _) (Nat.le_succ p))
    · exact absurd hover hend
  rw [if_neg hquote] at h
  by_cases hback : byte s p = some 92
  · rw [if_pos hback] at h
    split_ifs at h with hvalid
    · cases h
    · obtain ⟨here, -, hr⟩ := Option.map_eq_some_iff.mp h
      cases hr
  rw [if_neg hback] at h
  split_ifs at h with hfeed
  · cases h
    exact ⟨herrors, by rintro ⟨⟩⟩
  · cases h

theorem scanShortString_spec {quote : UInt8} {st : State} {r : ℕ × Bool × List LexError}
    (h : scanShortString s quote st = some r) : ShortString s quote st r := by
  have hinit : Scanning s quote st (st.pos + 1, st.errors) :=
    ⟨Nat.lt_succ_self _, List.Subset.refl _, .inl ⟨[], .nil _, nofun⟩⟩
  exact loop_sound (fun _ _ => shortStringStep_keeps) (fun _ _ => shortStringStep_ends) hinit h

/-! Backtick strings. -/

theorem scanSegment_closed {p : ℕ} {q : ℕ} {segmentEnd : SegmentEnd} (h : scanSegment s p = some (q, segmentEnd)) :
    segmentEnd = .closed → p < q ∧ byte s (q - 1) = some 96 := by
  have hkeep : ∀ x y, p ≤ x → segmentStep s x = some (.inl y) → p ≤ y := by
    intro x y hx hstep
    unfold segmentStep at hstep
    split_ifs at hstep with hend hback htick hopen
    · cases hstep
    · cases hstep
      omega
    · cases hstep
    · cases hstep
    · cases hstep
      omega
  have hend : ∀ x (r : ℕ × SegmentEnd), p ≤ x → segmentStep s x = some (.inr r) →
      r.2 = .closed → p < r.1 ∧ byte s (r.1 - 1) = some 96 := by
    intro x r hx hstep
    unfold segmentStep at hstep
    split_ifs at hstep with hover hback htick hopen
    · cases hstep
      nofun
    · cases hstep
    · cases hstep
      exact fun _ => ⟨Nat.lt_succ_of_le hx, htick⟩
    · cases hstep
      nofun
    · cases hstep
  have hpost := loop_sound hkeep hend (le_refl p) h
  exact hpost

end Nupp.Lexer
