import Nupp.Syntax.StringBodies
import Nupp.Syntax.StringTokens

/-! When the decoder accepts the literals the scanner accepted. -/

namespace Nupp.Lexer

open Loop

/-- A text the scanner reads as one short literal, with nothing to report. -/
def Single (q : Bytes) : Prop :=
  scanShortString q 34 (State.initial q) = some (q.length + 1, true, [])

/-- The decoder answers, and the quoted form of a backtick body is one short literal that
denotes what the body does. -/
def Agree (text : Bytes) : Prop :=
  (∃ value, stringValue text = some value) ∧
    ∀ body, text = 96 :: body ++ [96] → Single (quoteBacktickBody body) ∧
      ∃ value, Denotes body value ∧ stringValue (quoteBacktickBody body) = some value

/-- A short string holds no carriage return outside its escapes. A backtick body holds
only known escapes, no carriage return outside them and no line feed inside one, behind
its first byte. -/
def Admitted : Bytes → Prop
  | [] => False
  | c :: t =>
    if c = 96 then ∃ pieces, Split bodyEscape t.dropLast pieces [] ∧ ∀ piece ∈ pieces, piece.Fine
    else ∃ pieces, Split escape t pieces [c] ∧ .raw 13 ∉ pieces

/-! The scanner reads clean pieces whole. -/

/-- A scan of clean pieces, with the ones still before it. -/
def Ahead (q : Bytes) (x : ℕ × List LexError) : Prop :=
  x.2 = [] ∧ 1 ≤ x.1 ∧ ∃ pieces, Split escape (q.drop (x.1 - 1)) pieces [34] ∧ Clean 34 pieces

theorem shortStringStep_advances (q : Bytes) (st : State) :
    Advances (shortStringStep q 34 st) (Ahead q) (fun x => q.length + 1 - x.1)
      (fun r => r = (q.length + 1, true, [])) := by
  rintro ⟨p, errors⟩ ⟨herrors, hp, pieces, hsplit, hclean⟩
  dsimp only at herrors hp hsplit
  subst herrors
  have hlen := congrArg List.length hsplit.text_append
  simp only [List.length_drop, List.length_append, List.length_singleton] at hlen
  have hle : p ≤ q.length := by omega
  obtain ⟨c, hc⟩ := byte_of_le (s := q) hp hle
  obtain ⟨rest, hrest⟩ : ∃ rest, rest = q.drop p := ⟨_, rfl⟩
  rw [drop_pred_of_byte hc, ← hrest] at hsplit
  simp only [shortStringStep, if_neg (show ¬q.length < p by omega), hc]
  cases hsplit with
  | nil =>
    have hend : q.length ≤ p := List.drop_eq_nil_iff.mp hrest.symm
    exact .inr ⟨_, if_pos rfl, by rw [show p = q.length by omega]⟩
  | raw hback hsplit =>
    obtain ⟨⟨hquote, hfeed, -⟩, hclean⟩ := clean_cons_raw.mp hclean
    refine .inl ⟨(p + 1, []), ?_, ⟨rfl, by dsimp only; omega, _, ?_, hclean⟩, by dsimp only; omega⟩
    · rw [if_neg (by simpa using hquote), if_neg (by simpa using hback), if_neg (by simpa using hfeed)]
    · dsimp only
      rwa [Nat.add_sub_cancel, ← hrest]
  | @escaped _ used value l' _ pieces hescape _ hsplit =>
    have hlt : p < q.length := by
      by_contra hlt
      rw [List.drop_eq_nil_of_le (Nat.le_of_not_lt hlt)] at hrest
      rw [hrest] at hescape
      cases hescape
    have hagrees := decodeEscape_agrees 34 hlt
    rw [← hrest, hescape] at hagrees
    obtain ⟨hvalid, -, hl', hbound⟩ := hagrees
    have hafter := lt_decodeEscape_after q p 34
    refine .inl ⟨((decodeEscape q p 34).after, []), ?_, ⟨rfl, by dsimp only; omega, pieces, ?_,
      clean_cons_escape.mp hclean⟩, by dsimp only; omega⟩
    · rw [if_neg (by decide), if_pos rfl, if_pos hvalid, Nat.min_eq_left hbound]
    · dsimp only
      rwa [← hl']

theorem single_of_clean {w : Bytes} {pieces : List Piece} (h : Split escape w pieces [34])
    (hclean : Clean 34 pieces) : Single (34 :: w) := by
  have hinit : Ahead (34 :: w) ((State.initial (34 :: w)).pos + 1, []) := ⟨rfl, by omega, pieces, h, hclean⟩
  obtain ⟨r, hrun, rfl⟩ := loop_total (shortStringStep_advances (34 :: w) (State.initial (34 :: w)))
    (n := (34 :: w).length + 2) hinit (by simp [State.initial]; omega)
  exact hrun

/-! Short strings. -/

theorem agree_short {c : UInt8} {t : Bytes} {pieces : List Piece} (hc : c = 34 ∨ c = 39)
    (h : Split escape t pieces [c]) (hquiet : Quiet c pieces) :
    Agree (c :: t) ↔ Admitted (c :: t) := by
  have hne : c ≠ 96 := by
    rcases hc with rfl | rfl <;> decide
  simp only [Agree, Admitted, if_neg hne]
  constructor
  · rintro ⟨⟨value, hvalue⟩, -⟩
    obtain ⟨pieces', hsplit, hclean, -⟩ := (stringValue_short hc value).mp hvalue
    exact ⟨pieces', hsplit, fun hraw => (hclean 13 hraw).2.2 rfl⟩
  · rintro ⟨pieces', hsplit, hraw⟩
    obtain rfl := h.unique hsplit
    refine ⟨⟨valueOfPieces pieces, (stringValue_short hc _).mpr ⟨pieces, h, fun d hd => ?_, rfl⟩⟩, ?_⟩
    · obtain ⟨hquote, hfeed⟩ := hquiet d hd
      refine ⟨hquote, hfeed, ?_⟩
      rintro rfl
      exact hraw hd
    · intro body hbody
      exact absurd (List.cons.inj hbody).1 hne

/-! Backtick strings. -/

theorem agree_backtick (body : Bytes) : Agree (96 :: body ++ [96]) ↔ Admitted (96 :: body ++ [96]) := by
  have hquoted : ∀ value, stringValue (quoteBacktickBody body) = some value ↔
      ∃ pieces, Split escape (gsubBody body ++ [34]) pieces [34] ∧ Clean 34 pieces ∧
        value = valueOfPieces pieces := fun value => stringValue_short (.inl rfl) value
  have hlast : (body ++ [96]).dropLast = body := List.dropLast_concat
  simp only [Agree, List.cons_append, Admitted, if_true, hlast]
  constructor
  · rintro ⟨-, hbody⟩
    obtain ⟨-, value, ⟨pieces, hsplit, rfl⟩, hvalue⟩ := hbody body rfl
    obtain ⟨qs, hqs, hclean, heq⟩ := (hquoted _).mp hvalue
    exact ⟨pieces, hsplit, (fine_of_quoted hsplit rfl hqs hclean).2 (by rw [heq])⟩
  · rintro ⟨pieces, hsplit, hfine⟩
    obtain ⟨qs, hqs, hclean, heq⟩ := quoted_of_fine hsplit rfl hfine
    have hvalue := (hquoted (valueOfPieces qs)).mpr ⟨qs, hqs, hclean, rfl⟩
    refine ⟨⟨valueOfPieces qs, ?_⟩, fun body' hbody => ?_⟩
    · rw [← List.cons_append, stringValue_backtick, hvalue]
    · obtain rfl : body = body' := List.append_cancel_right (List.cons.inj hbody).2
      exact ⟨single_of_clean hqs hclean, valueOfPieces qs, ⟨pieces, hsplit, heq⟩, hvalue⟩

/-- The literal of one carriage return is scanned without an error and not decoded. -/
theorem carriage_return_refused : ∃ st token, lex [34, 13, 34] = some st ∧ token ∈ st.tokens ∧
    token.kind = .string ∧ token.text = [34, 13, 34] ∧ st.errors = [] ∧ stringValue token.text = none := by
  refine ⟨_, ⟨.string, [34, 13, 34], 1, 1, 1, 1, 0⟩, rfl, ?_, rfl, rfl, rfl, by decide +kernel⟩
  exact List.mem_cons_self

/-- A short or backtick string token without an error in it is decoded exactly when its
text is admitted. -/
theorem lex_agree {s : Bytes} {st : State} (h : lex s = some st) (token : Token)
    (htoken : token ∈ st.tokens) (hkind : token.kind = .string)
    (hform : token.text.head? = some 34 ∨ token.text.head? = some 39 ∨ token.text.head? = some 96)
    (hclear : ¬ErrorIn st.errors token.offset (token.offset + token.text.length)) :
    Agree token.text ↔ Admitted token.text := by
  have hliteral := lex_literals h token htoken hkind
  cases htext : token.text with
  | nil => simp [htext] at hform
  | cons c t =>
    obtain ⟨hshort, hbacktick⟩ := hliteral c t htext
    have hshape : (c = 34 ∨ c = 39) ∨ c = 96 := by simpa [htext, or_assoc] using hform
    rcases hshape with hc | hc
    · obtain ⟨pieces, hsplit, hquiet⟩ := (hshort hc).resolve_right hclear
      exact agree_short hc hsplit hquiet
    · obtain ⟨body, rfl⟩ := hbacktick hc
      rw [hc]
      exact agree_backtick body

theorem lex_agree_escape : ∃ st token, lex [34, 92, 110, 34] = some st ∧ token ∈ st.tokens ∧
    (Agree token.text ↔ Admitted token.text) := by
  refine ⟨_, ⟨.string, [34, 92, 110, 34], 1, 1, 1, 1, 0⟩, rfl, List.mem_cons_self, ?_⟩
  refine lex_agree (s := [34, 92, 110, 34]) rfl _ List.mem_cons_self rfl (.inl rfl) ?_
  rintro ⟨e, he, -⟩
  cases he

end Nupp.Lexer
