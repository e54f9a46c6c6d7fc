import Nupp.Syntax.StringDecode

/-! Backtick bodies: what they denote, and when the quoted form denotes the same. -/

namespace Nupp.Lexer

/-- The escapes of a backtick body, which are those of a short literal with two more. -/
def bodyEscape : Bytes → Option (Bytes × Bytes)
  | [] => none
  | c :: l => if c = 96 ∨ c = 36 then some ([c], l) else escape (c :: l)

/-- The bytes a backtick body denotes. -/
def Denotes (body value : Bytes) : Prop :=
  ∃ pieces, Split bodyEscape body pieces [] ∧ value = valueOfPieces pieces

/-- A piece that the substitution keeps: no carriage return of its own, and no line feed
behind the byte after the backslash. -/
def Piece.Fine : Piece → Prop
  | .raw c => c ≠ 13
  | .escape used _ => 10 ∉ used.tail

/-! The substitution on a piece. -/

def quotedByte (c : UInt8) : Bytes := if c = 34 then [92, 34] else if c = 10 then [92, 110] else [c]

theorem gsubBody_raw {c : UInt8} (hc : c ≠ 92) (l : Bytes) :
    gsubBody (c :: l) = quotedByte c ++ gsubBody l := by
  cases l with
  | nil => exact gsubBody.eq_3 c [] (fun _ _ h _ => hc h)
  | cons d l => exact gsubBody.eq_3 c (d :: l) (fun _ _ h _ => hc h)

theorem gsubBody_pair (c : UInt8) (l : Bytes) :
    gsubBody (92 :: c :: l) = (if c = 96 ∨ c = 36 then [c] else [92, c]) ++ gsubBody l := rfl

theorem gsubBody_inert {used : Bytes} (h : Inert used) (l : Bytes) :
    gsubBody (used ++ l) = used ++ gsubBody l := by
  induction used with
  | nil => rfl
  | cons c used ih =>
    obtain ⟨hquote, hback, hfeed⟩ := h c List.mem_cons_self
    have hrest := ih fun x hx => h x (List.mem_cons_of_mem _ hx)
    rw [List.cons_append, gsubBody_raw hback, hrest, quotedByte, if_neg hquote, if_neg hfeed]
    rfl

/-- An escape ends before the quoted text where it ends before the text. -/
theorem follows_gsubBody (l : Bytes) : Follows l (gsubBody l ++ [34]) := by
  intro c hc
  cases l with
  | nil =>
    cases hc
    exact .inr (by decide)
  | cons d l =>
    by_cases hd : d = 92
    · subst hd
      cases l with
      | nil =>
        cases hc
        exact .inl rfl
      | cons e l =>
        rw [gsubBody_pair] at hc
        split_ifs at hc with he
        · cases hc
          rcases he with rfl | rfl
          · exact .inr (by decide)
          · exact .inr (by decide)
        · cases hc
          exact .inl rfl
    · rw [gsubBody_raw hd, quotedByte] at hc
      split_ifs at hc with hquote hfeed
      · cases hc
        exact .inr (by decide)
      · cases hc
        exact .inr (by decide)
      · cases hc
        exact .inl rfl

/-! The pieces of a quoted text. -/

variable {l r : Bytes} {pieces : List Piece}

theorem escape_quote (l : Bytes) : escape (34 :: l) = some ([34], l) := rfl

theorem escape_feed (l : Bytes) : escape (110 :: l) = some ([10], l) := rfl

theorem escape_space (l : Bytes) : escape (122 :: l) = some ([], l.dropWhile spaceByte) := rfl

theorem split_raw_inv {c : UInt8} (hc : c ≠ 92) (hne : c ≠ 34) (h : Split escape (c :: l) pieces [34]) :
    ∃ rest, pieces = .raw c :: rest ∧ Split escape l rest [34] := by
  cases h with
  | nil => exact absurd rfl hne
  | raw _ hrest => exact ⟨_, rfl, hrest⟩
  | escaped => exact absurd rfl hc

theorem split_escape_inv {value l' : Bytes} (hescape : escape l = some (value, l'))
    (h : Split escape (92 :: l) pieces [34]) :
    ∃ used rest, pieces = .escape used value :: rest ∧ Split escape l' rest [34] := by
  cases h with
  | raw hc _ => exact absurd rfl hc
  | escaped hescape' _ hrest =>
    rw [hescape] at hescape'
    cases hescape'
    exact ⟨_, _, rfl, hrest⟩

/-- A raw byte and the quoted byte denote the same, unless it is a carriage return. -/
theorem quotedByte_split {c : UInt8} (hc : c ≠ 92) (hreturn : c ≠ 13) {qs : List Piece}
    (h : Split escape l qs [34]) (hclean : Clean 34 qs) :
    ∃ rs, Split escape (quotedByte c ++ l) rs [34] ∧ Clean 34 rs ∧ valueOfPieces rs = c :: valueOfPieces qs := by
  unfold quotedByte
  split_ifs with hquote hfeed
  · subst hquote
    exact ⟨.escape [34] [34] :: qs, .escaped (escape_quote l) rfl h, clean_cons_escape.mpr hclean, rfl⟩
  · subst hfeed
    exact ⟨.escape [110] [10] :: qs, .escaped (escape_feed l) rfl h, clean_cons_escape.mpr hclean, rfl⟩
  · exact ⟨.raw c :: qs, .raw hc h, clean_cons_raw.mpr ⟨⟨hquote, hfeed, hreturn⟩, hclean⟩, rfl⟩

theorem quotedByte_split_inv {c : UInt8} (hc : c ≠ 92) {rs : List Piece}
    (h : Split escape (quotedByte c ++ l) rs [34]) (hclean : Clean 34 rs) :
    c ≠ 13 ∧ ∃ qs, Split escape l qs [34] ∧ Clean 34 qs ∧ valueOfPieces rs = c :: valueOfPieces qs := by
  unfold quotedByte at h
  split_ifs at h with hquote hfeed
  · subst hquote
    obtain ⟨used, qs, rfl, hrest⟩ := split_escape_inv (escape_quote l) h
    exact ⟨by decide, qs, hrest, clean_cons_escape.mp hclean, rfl⟩
  · subst hfeed
    obtain ⟨used, qs, rfl, hrest⟩ := split_escape_inv (escape_feed l) h
    exact ⟨by decide, qs, hrest, clean_cons_escape.mp hclean, rfl⟩
  · obtain ⟨qs, rfl, hrest⟩ := split_raw_inv hc hquote h
    obtain ⟨⟨-, -, hreturn⟩, hclean⟩ := clean_cons_raw.mp hclean
    exact ⟨hreturn, qs, hrest, hclean, rfl⟩

/-! Bodies that are kept. -/

theorem inert_of_space {used : Bytes} (hspace : ∀ x ∈ used, spaceByte x = true) (hfeed : 10 ∉ used) :
    Inert used := by
  intro x hx
  have hclass := hspace x hx
  refine ⟨?_, ?_, ?_⟩
  · rintro rfl
    exact absurd hclass (by decide)
  · rintro rfl
    exact absurd hclass (by decide)
  · rintro rfl
    exact hfeed hx

theorem inert_of_taken {ch : UInt8} {used : Bytes} (h : Taken ch used) (hfeed : 10 ∉ used) : Inert used := by
  rcases h with hinert | ⟨-, rfl⟩ | ⟨-, hspace⟩
  · exact hinert
  · exact absurd (List.mem_singleton_self 10) hfeed
  · exact inert_of_space hspace hfeed

/-- An escape without a line feed behind its first byte is read the same from the quoted text. -/
theorem escape_gsubBody {l' value used : Bytes} {ch : UInt8} (htakes : Takes escape l value l' (ch :: used))
    (hplain : ¬(ch = 96 ∨ ch = 36)) (hinert : Inert used) :
    gsubBody (92 :: l) = 92 :: (ch :: used ++ gsubBody l') ∧
      escape (ch :: used ++ (gsubBody l' ++ [34])) = some (value, gsubBody l' ++ [34]) := by
  obtain ⟨rfl, hescape⟩ := htakes
  refine ⟨?_, hescape _ (follows_gsubBody l')⟩
  rw [List.cons_append, gsubBody_pair, if_neg hplain, gsubBody_inert hinert]
  rfl

theorem bodyEscape_cases {value l' : Bytes} (h : bodyEscape l = some (value, l')) :
    (∃ c, (c = 96 ∨ c = 36) ∧ l = c :: l' ∧ value = [c]) ∨
      ∃ ch used, ¬(ch = 96 ∨ ch = 36) ∧ Takes escape l value l' (ch :: used) ∧ Taken ch used := by
  cases l with
  | nil => cases h
  | cons c l =>
    simp only [bodyEscape] at h
    split_ifs at h with hc
    · cases h
      exact .inl ⟨c, hc, rfl, rfl⟩
    · obtain ⟨ch, used, htakes, htaken⟩ := escape_takes h
      obtain rfl : c = ch := (List.cons.inj htakes.1).1
      exact .inr ⟨c, used, hc, htakes, htaken⟩

theorem quoted_of_fine {body : Bytes} (h : Split bodyEscape body pieces r) (hr : r = [])
    (hfine : ∀ piece ∈ pieces, piece.Fine) :
    ∃ qs, Split escape (gsubBody body ++ [34]) qs [34] ∧ Clean 34 qs ∧ valueOfPieces qs = valueOfPieces pieces := by
  induction h with
  | nil l =>
    subst hr
    exact ⟨[], .nil _, nofun, rfl⟩
  | @raw c l r pieces hc hrest ih =>
    obtain ⟨qs, hsplit, hclean, hvalue⟩ := ih hr fun piece hp => hfine piece (List.mem_cons_of_mem _ hp)
    obtain ⟨rs, hsplit', hclean', hvalue'⟩ := quotedByte_split hc (hfine _ List.mem_cons_self) hsplit hclean
    refine ⟨rs, ?_, hclean', ?_⟩
    · rwa [gsubBody_raw hc, List.append_assoc]
    · rw [hvalue', hvalue]
      rfl
  | @escaped l used value l' r pieces h hl hrest ih =>
    obtain ⟨qs, hsplit, hclean, hvalue⟩ := ih hr fun piece hp => hfine piece (List.mem_cons_of_mem _ hp)
    rcases bodyEscape_cases h with ⟨c, hc, rfl, rfl⟩ | ⟨ch, used', hplain, htakes, htaken⟩
    · refine ⟨.raw c :: qs, ?_, clean_cons_raw.mpr ⟨?_, hclean⟩, ?_⟩
      · rw [gsubBody_pair, if_pos hc]
        refine .raw ?_ hsplit
        rcases hc with rfl | rfl <;> decide
      · rcases hc with rfl | rfl <;> decide
      · simp only [valueOfPieces, List.flatMap_cons, Piece.value] at hvalue ⊢
        rw [hvalue]
    · obtain rfl : used = ch :: used' := List.append_cancel_right (hl.symm.trans htakes.1)
      have hfeed : 10 ∉ used' := hfine _ List.mem_cons_self
      obtain ⟨hgsub, hescape⟩ := escape_gsubBody htakes hplain (inert_of_taken htaken hfeed)
      refine ⟨.escape (ch :: used') value :: qs, ?_, clean_cons_escape.mpr hclean, ?_⟩
      · rw [hgsub, List.cons_append, List.append_assoc]
        exact .escaped hescape rfl hsplit
      · simp only [valueOfPieces, List.flatMap_cons, Piece.value] at hvalue ⊢
        rw [hvalue]

/-! Bodies that are not. -/

/-- Skipped space that the quoted text no longer skips is read before what follows. -/
theorem quoted_spaces {used : Bytes} (hused : ∀ x ∈ used, spaceByte x = true) {qs : List Piece}
    (h : Split escape (gsubBody (used ++ l) ++ [34]) qs [34]) (hclean : Clean 34 qs) :
    ∃ rs, Split escape (gsubBody l ++ [34]) rs [34] ∧ Clean 34 rs ∧
      (valueOfPieces rs).length ≤ (valueOfPieces qs).length := by
  induction used generalizing qs with
  | nil => exact ⟨qs, h, hclean, le_refl _⟩
  | cons c used ih =>
    have hspace := hused c List.mem_cons_self
    have hc : c ≠ 92 := by
      rintro rfl
      exact absurd hspace (by decide)
    rw [List.cons_append, gsubBody_raw hc, List.append_assoc] at h
    obtain ⟨-, qs', hsplit, hclean', hvalue⟩ := quotedByte_split_inv hc h hclean
    obtain ⟨rs, hrs, hcleanRs, hle⟩ := ih (fun x hx => hused x (List.mem_cons_of_mem _ hx)) hsplit hclean'
    refine ⟨rs, hrs, hcleanRs, ?_⟩
    rw [hvalue, List.length_cons]
    omega

/-- An escape that takes a line feed behind its first byte loses it to the quoted text. -/
theorem quoted_feed {used : Bytes} {ch : UInt8} (htaken : Taken ch used) (hfeed : 10 ∈ used) {qs : List Piece}
    (h : Split escape (gsubBody (92 :: ch :: used ++ l) ++ [34]) qs [34]) (hclean : Clean 34 qs)
    {value : Bytes} (hvalue : escape (ch :: used ++ l) = some (value, l)) :
    ∃ rs, Split escape (gsubBody l ++ [34]) rs [34] ∧ Clean 34 rs ∧
      value.length + (valueOfPieces rs).length < (valueOfPieces qs).length := by
  rcases htaken with hinert | ⟨rfl, rfl⟩ | ⟨rfl, hspace⟩
  · exact absurd rfl (hinert 10 hfeed).2.2
  · have hgsub : gsubBody (92 :: 13 :: [10] ++ l) ++ [34] = 92 :: 13 :: 92 :: 110 :: (gsubBody l ++ [34]) := rfl
    have hline : escape (13 :: 92 :: 110 :: (gsubBody l ++ [34])) =
        some ([10], 92 :: 110 :: (gsubBody l ++ [34])) := rfl
    have hpair : escape (13 :: [10] ++ l) = some ([10], l) := rfl
    rw [hpair] at hvalue
    cases hvalue
    rw [hgsub] at h
    obtain ⟨used, qs', rfl, h'⟩ := split_escape_inv hline h
    obtain ⟨used', rs, rfl, hrs⟩ := split_escape_inv (escape_feed _) h'
    refine ⟨rs, hrs, clean_cons_escape.mp (clean_cons_escape.mp hclean), ?_⟩
    simp only [valueOfPieces, List.flatMap_cons, Piece.value, List.length_append, List.length_cons,
      List.length_nil]
    omega
  · obtain ⟨a, b, rfl, ha⟩ := List.eq_append_cons_of_mem hfeed
    have hspaceA : ∀ x ∈ a, spaceByte x = true := fun x hx => hspace x (List.mem_append_left _ hx)
    have hspaceB : ∀ x ∈ b, spaceByte x = true := fun x hx =>
      hspace x (List.mem_append_right _ (List.mem_cons_of_mem _ hx))
    have hgsub : gsubBody (92 :: 122 :: (a ++ 10 :: b) ++ l) ++ [34] =
        92 :: 122 :: (a ++ 92 :: 110 :: (gsubBody (b ++ l) ++ [34])) := by
      have hfeedRaw : gsubBody (10 :: b ++ l) = 92 :: 110 :: gsubBody (b ++ l) :=
        gsubBody_raw (by decide) (b ++ l)
      rw [List.cons_append, List.cons_append, gsubBody_pair, if_neg (by decide), List.append_assoc,
        List.append_assoc, gsubBody_inert (inert_of_space hspaceA ha), hfeedRaw]
      simp
    have hskip : escape (122 :: (a ++ 92 :: 110 :: (gsubBody (b ++ l) ++ [34]))) =
        some ([], 92 :: 110 :: (gsubBody (b ++ l) ++ [34])) := by
      rw [escape_space, List.dropWhile_append_of_pos hspaceA, List.dropWhile_cons_of_neg (by decide)]
    have hnone : value = [] := by
      rw [List.cons_append, escape_space] at hvalue
      exact (Prod.mk.inj (Option.some.inj hvalue)).1.symm
    rw [hgsub] at h
    obtain ⟨used, qs', rfl, h'⟩ := split_escape_inv hskip h
    obtain ⟨used', qs'', rfl, h''⟩ := split_escape_inv (escape_feed _) h'
    obtain ⟨rs, hrs, hcleanRs, hle⟩ :=
      quoted_spaces hspaceB h'' (clean_cons_escape.mp (clean_cons_escape.mp hclean))
    refine ⟨rs, hrs, hcleanRs, ?_⟩
    rw [hnone]
    simp only [valueOfPieces, List.flatMap_cons, Piece.value, List.length_append, List.length_cons,
      List.length_nil] at hle ⊢
    omega

/-- The quoted text denotes at least as many bytes, and as many only where every piece is kept. -/
theorem fine_of_quoted {body : Bytes} (h : Split bodyEscape body pieces r) (hr : r = []) {qs : List Piece}
    (hq : Split escape (gsubBody body ++ [34]) qs [34]) (hclean : Clean 34 qs) :
    (valueOfPieces pieces).length ≤ (valueOfPieces qs).length ∧
      ((valueOfPieces pieces).length = (valueOfPieces qs).length → ∀ piece ∈ pieces, piece.Fine) := by
  induction h generalizing qs with
  | nil l => exact ⟨Nat.zero_le _, fun _ => nofun⟩
  | @raw c l r pieces hc hrest ih =>
    rw [gsubBody_raw hc, List.append_assoc] at hq
    obtain ⟨hreturn, qs', hsplit, hclean', hvalue⟩ := quotedByte_split_inv hc hq hclean
    obtain ⟨hle, hfine⟩ := ih hr hsplit hclean'
    rw [hvalue]
    simp only [valueOfPieces, List.flatMap_cons, Piece.value, List.length_append, List.length_cons,
      List.length_nil] at hle hfine ⊢
    refine ⟨by omega, fun hlen piece hp => ?_⟩
    rcases List.mem_cons.mp hp with rfl | hp
    · exact hreturn
    · exact hfine (by omega) piece hp
  | @escaped l used value l' r pieces h hl hrest ih =>
    rcases bodyEscape_cases h with ⟨c, hc, rfl, rfl⟩ | ⟨ch, used', hplain, htakes, htaken⟩
    · have hback : c ≠ 92 := by
        rcases hc with rfl | rfl <;> decide
      have hquote : c ≠ 34 := by
        rcases hc with rfl | rfl <;> decide
      rw [gsubBody_pair, if_pos hc] at hq
      obtain ⟨qs', rfl, hsplit⟩ := split_raw_inv hback hquote hq
      obtain ⟨hle, hfine⟩ := ih hr hsplit (clean_cons_raw.mp hclean).2
      obtain rfl : used = [c] := List.append_cancel_right (hl.symm.trans List.singleton_append.symm)
      simp only [valueOfPieces, List.flatMap_cons, Piece.value, List.length_append, List.length_cons,
        List.length_nil] at hle hfine ⊢
      refine ⟨by omega, fun hlen piece hp => ?_⟩
      rcases List.mem_cons.mp hp with rfl | hp
      · exact List.not_mem_nil
      · exact hfine (by omega) piece hp
    · obtain rfl : used = ch :: used' := List.append_cancel_right (hl.symm.trans htakes.1)
      by_cases hfeed : 10 ∈ used'
      · rw [hl] at hq
        obtain ⟨rs, hrs, hcleanRs, hlt⟩ := quoted_feed htaken hfeed hq hclean (htakes.2 l' (.of_head rfl))
        obtain ⟨hle, -⟩ := ih hr hrs hcleanRs
        simp only [valueOfPieces, List.flatMap_cons, Piece.value, List.length_append] at hle hlt ⊢
        exact ⟨by omega, fun hlen => absurd hlen (by omega)⟩
      · obtain ⟨hgsub, hescape⟩ := escape_gsubBody htakes hplain (inert_of_taken htaken hfeed)
        rw [hgsub, List.cons_append, List.append_assoc] at hq
        obtain ⟨used'', qs', rfl, hsplit⟩ := split_escape_inv hescape hq
        obtain ⟨hle, hfine⟩ := ih hr hsplit (clean_cons_escape.mp hclean)
        simp only [valueOfPieces, List.flatMap_cons, Piece.value, List.length_append] at hle hfine ⊢
        refine ⟨by omega, fun hlen piece hp => ?_⟩
        rcases List.mem_cons.mp hp with rfl | hp
        · exact hfeed
        · exact hfine (by omega) piece hp

end Nupp.Lexer
