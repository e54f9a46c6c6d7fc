import Nupp.Syntax.LexerLossless
import Nupp.Syntax.StringEscapes

/-! What the decoder answers, as a sequence of raw bytes and escapes. -/

namespace Nupp.Lexer

open Loop

/-- One byte that stands for itself, or an escape with the bytes behind its backslash
and those it denotes. -/
inductive Piece
  | raw (c : UInt8)
  | escape (used value : Bytes)

def Piece.text : Piece → Bytes
  | .raw c => [c]
  | .escape used _ => 92 :: used

def Piece.value : Piece → Bytes
  | .raw c => [c]
  | .escape _ value => value

def textOfPieces (pieces : List Piece) : Bytes := pieces.flatMap Piece.text

def valueOfPieces (pieces : List Piece) : Bytes := pieces.flatMap Piece.value

/-- The pieces that stand at the front of a text, by the escapes of `esc`, and the text
behind them. -/
inductive Split (esc : Bytes → Option (Bytes × Bytes)) : Bytes → List Piece → Bytes → Prop
  | nil (l : Bytes) : Split esc l [] l
  | raw {c : UInt8} {l r : Bytes} {pieces : List Piece} (hc : c ≠ 92) (rest : Split esc l pieces r) :
      Split esc (c :: l) (.raw c :: pieces) r
  | escaped {l used value l' r : Bytes} {pieces : List Piece} (h : esc l = some (value, l'))
      (hl : l = used ++ l') (rest : Split esc l' pieces r) :
      Split esc (92 :: l) (.escape used value :: pieces) r

/-- No raw byte that a short literal refuses. -/
def Clean (quote : UInt8) (pieces : List Piece) : Prop :=
  ∀ c, .raw c ∈ pieces → c ≠ quote ∧ c ≠ 10 ∧ c ≠ 13

variable {esc : Bytes → Option (Bytes × Bytes)} {l r : Bytes} {pieces : List Piece}

theorem Split.text_append (h : Split esc l pieces r) : l = textOfPieces pieces ++ r := by
  induction h with
  | nil l => rfl
  | raw hc rest ih => rw [ih]; rfl
  | @escaped l used value l' r pieces h hl rest ih =>
    rw [hl, ih]
    simp [textOfPieces, Piece.text]

theorem Split.eq_nil_of_length (h : Split esc l pieces r) (hlen : l.length ≤ r.length) : pieces = [] := by
  have htext := congrArg List.length h.text_append
  cases h with
  | nil => rfl
  | raw hc rest =>
    simp only [textOfPieces, List.flatMap_cons, Piece.text, List.length_append, List.length_cons] at htext hlen
    omega
  | escaped h hl rest =>
    simp only [textOfPieces, List.flatMap_cons, Piece.text, List.length_append, List.length_cons] at htext hlen
    omega

/-- A text has one sequence of pieces that leaves a given end. -/
theorem Split.unique {pieces' : List Piece} (h : Split esc l pieces r) (h' : Split esc l pieces' r) :
    pieces = pieces' := by
  induction h generalizing pieces' with
  | nil l => exact (h'.eq_nil_of_length (le_refl _)).symm
  | @raw c l r pieces hc rest ih =>
    have hlen := congrArg List.length rest.text_append
    cases h' with
    | nil =>
      simp only [List.length_append, List.length_cons] at hlen
      omega
    | raw _ rest' => rw [ih rest']
    | escaped _ _ _ => exact absurd rfl hc
  | @escaped l used value l' r pieces h hl rest ih =>
    have hlen := congrArg List.length rest.text_append
    have hused := congrArg List.length hl
    cases h' with
    | nil =>
      simp only [List.length_append, List.length_cons] at hlen hused
      omega
    | raw hc _ => exact absurd rfl hc
    | escaped h' hl' rest' =>
      rw [h] at h'
      cases h'
      have hsame := List.append_cancel_right (hl.symm.trans hl')
      rw [ih rest', hsame]

/-! The loop of the decoder. -/

theorem clean_cons_raw {quote c : UInt8} : Clean quote (.raw c :: pieces) ↔
    (c ≠ quote ∧ c ≠ 10 ∧ c ≠ 13) ∧ Clean quote pieces := by
  constructor
  · intro h
    exact ⟨h c List.mem_cons_self, fun x hx => h x (List.mem_cons_of_mem _ hx)⟩
  · rintro ⟨hc, h⟩ x hx
    rcases List.mem_cons.mp hx with hx | hx
    · cases hx
      exact hc
    · exact h x hx

theorem clean_cons_escape {quote : UInt8} {used value : Bytes} :
    Clean quote (.escape used value :: pieces) ↔ Clean quote pieces := by
  simp [Clean]

/-- The decoder's answer from the text still before it. -/
def Decodes (quote : UInt8) (l done : Bytes) (answer : Option Bytes) : Prop :=
  ∀ v, answer = some v ↔ ∃ pieces, Split escape l pieces [quote] ∧ Clean quote pieces ∧
    v = done ++ valueOfPieces pieces

variable {q : Bytes} {quote : UInt8}

theorem decodes_none (h : ∀ pieces, Split escape l pieces [quote] → ¬Clean quote pieces) (done : Bytes) :
    Decodes quote l done none := by
  intro v
  constructor
  · nofun
  · rintro ⟨pieces, hsplit, hclean, -⟩
    exact absurd hclean (h pieces hsplit)

theorem decodes_quote (done : Bytes) : Decodes quote [quote] done (some done) := by
  intro v
  constructor
  · rintro ⟨⟩
    exact ⟨[], .nil _, nofun, (List.append_nil done).symm⟩
  · rintro ⟨pieces, hsplit, -, rfl⟩
    rw [hsplit.eq_nil_of_length (le_refl _)]
    simp [valueOfPieces]

theorem decodes_raw {c : UInt8} {done : Bytes} {answer : Option Bytes} (hl : l ≠ []) (hc : c ≠ 92)
    (hclean : c ≠ quote ∧ c ≠ 10 ∧ c ≠ 13) (h : Decodes quote l (done ++ [c]) answer) :
    Decodes quote (c :: l) done answer := by
  intro v
  rw [h v]
  constructor
  · rintro ⟨pieces, hsplit, hrest, rfl⟩
    refine ⟨.raw c :: pieces, .raw hc hsplit, clean_cons_raw.mpr ⟨hclean, hrest⟩, ?_⟩
    simp [valueOfPieces, Piece.value]
  · rintro ⟨pieces, hsplit, hrest, rfl⟩
    cases hsplit with
    | nil => exact absurd rfl hclean.1
    | raw _ hsplit => 
      refine ⟨_, hsplit, (clean_cons_raw.mp hrest).2, ?_⟩
      simp [valueOfPieces, Piece.value]
    | escaped => exact absurd rfl hc

theorem decodes_escape {done value l' : Bytes} {answer : Option Bytes} (hquote : quote ≠ 92)
    (hescape : escape l = some (value, l')) (h : Decodes quote l' (done ++ value) answer) :
    Decodes quote (92 :: l) done answer := by
  obtain ⟨ch, used, ⟨hl, -⟩, -⟩ := escape_takes hescape
  intro v
  rw [h v]
  constructor
  · rintro ⟨pieces, hsplit, hrest, rfl⟩
    refine ⟨.escape (ch :: used) value :: pieces, .escaped hescape hl hsplit, clean_cons_escape.mpr hrest, ?_⟩
    simp [valueOfPieces, Piece.value]
  · rintro ⟨pieces, hsplit, hrest, rfl⟩
    cases hsplit with
    | nil => exact absurd rfl hquote
    | raw hc _ => exact absurd rfl hc
    | escaped hescape' _ hsplit =>
      rw [hescape] at hescape'
      cases hescape'
      refine ⟨_, hsplit, clean_cons_escape.mp hrest, ?_⟩
      simp [valueOfPieces, Piece.value]

theorem decodes_none_escape {done : Bytes} (hquote : quote ≠ 92)
    (hescape : ∀ value l', escape l = some (value, l') → l' = []) : Decodes quote (92 :: l) done none := by
  refine decodes_none (fun pieces hsplit _ => ?_) done
  cases hsplit with
  | nil => exact hquote rfl
  | raw hc _ => exact hc rfl
  | @escaped _ used value l' _ pieces h _ hsplit =>
    have hl' := hescape _ _ h
    have htext := congrArg List.length hsplit.text_append
    simp [hl'] at htext

theorem decodes_none_raw {c : UInt8} {done : Bytes} (hl : l ≠ []) (hc : c ≠ 92)
    (hbad : c = quote ∨ c = 10 ∨ c = 13) : Decodes quote (c :: l) done none := by
  refine decodes_none (fun pieces hsplit hclean => ?_) done
  cases hsplit with
  | nil => exact hl rfl
  | raw _ _ =>
    obtain ⟨hquote, hfeed, hreturn⟩ := (clean_cons_raw.mp hclean).1
    rcases hbad with h | h | h
    · exact hquote h
    · exact hfeed h
    · exact hreturn h
  | escaped => exact hc rfl

theorem Decoding.flatten_flush (x : Decoding) {stop : ℕ} (h : x.start ≤ stop) :
    (x.flush q stop).flatten = x.parts.flatten ++ sub q x.start (stop - 1) := by
  unfold Decoding.flush
  split_ifs with hlt
  · simp
  · obtain rfl : x.start = stop := by omega
    rw [sub_self, List.append_nil]

theorem sub_one {p : ℕ} {c : UInt8} (h : byte q p = some c) : sub q p p = [c] := by
  obtain ⟨hp, hle⟩ := byte_eq_some h
  obtain ⟨p, rfl⟩ : ∃ m, p = m + 1 := ⟨p - 1, by omega⟩
  rw [sub, Nat.add_sub_cancel, List.drop_take, drop_of_byte h, Nat.add_sub_cancel_left]
  rfl

theorem drop_pred_of_byte {p : ℕ} {c : UInt8} (h : byte q p = some c) : q.drop (p - 1) = c :: q.drop p := by
  obtain ⟨hp, -⟩ := byte_eq_some h
  obtain ⟨p, rfl⟩ : ∃ m, p = m + 1 := ⟨p - 1, by omega⟩
  exact drop_of_byte h

/-- A decoder that stands at `x` and still has to answer for the whole text. -/
structure Standing (q : Bytes) (quote : UInt8) (x : Decoding) : Prop where
  start_pos : 1 ≤ x.start
  start_le : x.start ≤ x.p
  p_le : x.p ≤ q.length
  answers : ∀ answer, Decodes quote (q.drop (x.p - 1)) (x.flush q x.p).flatten answer →
    Decodes quote (q.drop 1) [] answer

theorem valueStep_advances (hquote : quote ≠ 92) (hend : byte q q.length = some quote) :
    Advances (valueStep q quote) (Standing q quote) (fun x => q.length - x.p)
      (Decodes quote (q.drop 1) []) := by
  intro x ⟨hstart, hle, hp, hanswers⟩
  obtain ⟨c, hc⟩ := byte_of_le (s := q) (p := x.p) (by omega) hp
  rw [drop_pred_of_byte hc] at hanswers
  unfold valueStep
  by_cases hlt : x.p < q.length
  · have hne : q.drop x.p ≠ [] := by
      rw [Ne, List.drop_eq_nil_iff]
      omega
    rw [if_pos hlt, hc]
    by_cases hback : c = 92
    · subst hback
      rw [if_pos rfl]
      have hagrees := decodeEscape_agrees quote hlt
      have hafter := lt_decodeEscape_after q x.p quote
      cases hescape : escape (q.drop x.p) with
      | none =>
        rw [hescape] at hagrees
        refine .inr ⟨none, by simp only [hagrees.2], hanswers _ (decodes_none_escape hquote ?_)⟩
        rw [hescape]
        nofun
      | some r =>
        obtain ⟨value, rest⟩ := r
        rw [hescape] at hagrees
        obtain ⟨hvalid, hbytes, hrest, hbound⟩ := hagrees
        simp only [hbytes, hvalid, Bool.true_eq_false, false_or]
        by_cases hover : q.length < (decodeEscape q x.p quote).after
        · refine .inr ⟨none, if_pos hover, hanswers _ (decodes_none_escape hquote ?_)⟩
          rw [hescape]
          rintro _ _ ⟨⟩
          rw [hrest]
          exact List.drop_eq_nil_of_le (by omega)
        · refine .inl ⟨_, if_neg hover, ⟨?_, le_refl _, ?_, fun answer h => ?_⟩, ?_⟩
          · dsimp only
            omega
          · dsimp only
            omega
          · refine hanswers _ (decodes_escape hquote hescape ?_)
            rw [Decoding.flatten_flush _ (le_refl _), sub_self] at h
            simpa [hrest] using h
          · dsimp only
            omega
    · rw [if_neg (by simpa using hback)]
      by_cases hbad : c = quote ∨ c = 10 ∨ c = 13
      · exact .inr ⟨none, if_pos (by simpa using hbad), hanswers _ (decodes_none_raw hne hback hbad)⟩
      · refine .inl ⟨_, if_neg (by simpa using hbad), ⟨hstart, ?_, hlt, fun answer h => ?_⟩, ?_⟩
        · dsimp only
          omega
        · refine hanswers _ (decodes_raw hne hback (by simpa using hbad) ?_)
          have hone := sub_append_sub (s := q) hstart hle (Nat.le_add_right x.p 1)
          rw [Nat.add_sub_cancel, sub_one hc] at hone
          rw [Decoding.flatten_flush _ (by dsimp only; omega), Nat.add_sub_cancel] at h
          rw [Decoding.flatten_flush _ hle, List.append_assoc, hone]
          exact h
        · dsimp only
          omega
  · have hpe : x.p = q.length := by omega
    rw [hpe] at hc hanswers
    rw [hend] at hc
    cases hc
    rw [List.drop_length] at hanswers
    refine .inr ⟨_, ?_, hanswers _ (decodes_quote _)⟩
    rw [if_neg hlt, if_neg (by simpa using hpe)]

theorem byte_length_append (l : Bytes) (c : UInt8) : byte (l ++ [c]) (l ++ [c]).length = some c := by
  simp [byte]

/-- A text is decoded when its pieces run up to its last byte, which is its quote, and
none of them is raw where a short literal refuses it. -/
theorem stringValue_short (hquote : quote = 34 ∨ quote = 39) (v : Bytes) :
    stringValue (quote :: l) = some v ↔
      ∃ pieces, Split escape l pieces [quote] ∧ Clean quote pieces ∧ v = valueOfPieces pieces := by
  have hform : quotedForm (quote :: l) = some (quote :: l) := by
    refine if_pos ?_
    rcases hquote with rfl | rfl
    · exact .inl rfl
    · exact .inr rfl
  have hback : quote ≠ 92 := by
    rcases hquote with rfl | rfl <;> decide
  have hends : ∀ pieces, Split escape l pieces [quote] →
      ¬((quote :: l).length < 2 ∨ byte (quote :: l) (quote :: l).length ≠ some quote) := by
    intro pieces hsplit
    have htext := hsplit.text_append
    rw [htext, ← List.cons_append, byte_length_append]
    simp
  simp only [stringValue, hform, Option.bind_eq_bind, Option.bind_some,
    show byte (quote :: l) 1 = some quote from rfl]
  split_ifs with hbad
  · constructor
    · nofun
    · rintro ⟨pieces, hsplit, -, -⟩
      exact absurd hbad (hends pieces hsplit)
  · push Not at hbad
    obtain ⟨hlen, hend⟩ := hbad
    have hinit : Standing (quote :: l) quote ⟨2, 2, []⟩ :=
      ⟨by dsimp only; omega, le_refl _, hlen, fun answer h => by
        rw [Decoding.flatten_flush _ (le_refl _)] at h
        simpa [sub] using h⟩
    obtain ⟨answer, hrun, hanswer⟩ := loop_total (valueStep_advances hback hend) (n := (quote :: l).length + 1)
      hinit (by dsimp only; omega)
    rw [hrun, Option.join_some, hanswer v]
    rfl

/-- A backtick string is decoded as its quoted form. -/
theorem stringValue_backtick (body : Bytes) :
    stringValue (96 :: body ++ [96]) = stringValue (quoteBacktickBody body) := by
  have hbody : sub (96 :: body ++ [96]) 2 ((96 :: body ++ [96]).length - 1) = body := by
    simp [sub]
  have hform : quotedForm (96 :: body ++ [96]) = some (quoteBacktickBody body) := by
    refine (if_neg (by simp [byte])).trans ((if_pos ⟨rfl, by simp, byte_length_append _ _⟩).trans ?_)
    rw [hbody]
  have hquoted : quotedForm (quoteBacktickBody body) = some (quoteBacktickBody body) :=
    if_pos (.inl rfl)
  simp only [stringValue, hform, hquoted]

end Nupp.Lexer
