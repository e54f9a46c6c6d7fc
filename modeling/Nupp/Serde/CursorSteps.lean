import Nupp.Serde.Cursor

/-! What each call of the cursor does, in terms of the text that is left. -/

namespace Nupp.JsonCursor

open Json Result

def rest (c : Cursor) : Bytes := suffixAt c.input c.position

/-- The cursor at a later end of its text. -/
def moved (c : Cursor) (l : Bytes) : Cursor := { c with position := c.position + ((rest c).length - l.length) }

theorem byteAt_eq {s : Bytes} {i : ℕ} (h : 1 ≤ i) : byteAt s i = (suffixAt s i).head? := by
  rw [byteAt, if_neg (by omega), suffixAt, List.head?_drop]

theorem sub_eq {s : Bytes} {i : ℕ} (n : ℕ) (hi : 1 ≤ i) : sub s i (i + n - 1) = (suffixAt s i).take n := by
  rw [sub, suffixAt, show i + n - 1 + 1 - i = n by omega]

theorem suffixAt_add {s : Bytes} {i : ℕ} (n : ℕ) (h : 1 ≤ i) : suffixAt s (i + n) = (suffixAt s i).drop n := by
  rw [suffixAt, suffixAt, List.drop_drop, show i + n - 1 = i - 1 + n by omega]

theorem rest_moved {c : Cursor} {l : Bytes} (hc : 1 ≤ c.position) (hl : l <:+ rest c) : rest (moved c l) = l := by
  obtain ⟨w, hw⟩ := hl
  have hlength : (rest c).length - l.length = w.length := by
    rw [← hw, List.length_append]
    omega
  rw [moved, hlength]
  change suffixAt c.input (c.position + w.length) = l
  rw [suffixAt_add _ hc]
  change (rest c).drop w.length = l
  rw [← hw, List.drop_left]

theorem moved_moved {c : Cursor} {l m : Bytes} (hc : 1 ≤ c.position) (hl : l <:+ rest c) (hm : m <:+ l) :
    moved (moved c l) m = moved c m := by
  have hlength := hl.length_le
  have hlength' := hm.length_le
  have hrest := rest_moved hc hl
  rw [moved, hrest]
  simp only [moved, Cursor.mk.injEq, true_and, and_true]
  omega

theorem moved_rest (c : Cursor) : moved c (rest c) = c := by
  rw [moved, Nat.sub_self, Nat.add_zero]

theorem moved_append {c : Cursor} {w r : Bytes} (h : rest c = w ++ r) :
    moved c r = { c with position := c.position + w.length } := by
  rw [moved, h, List.length_append, Nat.add_sub_cancel]

theorem le_moved (c : Cursor) (l : Bytes) : c.position ≤ (moved c l).position := Nat.le_add_right _ _

theorem position_le_iff {c : Cursor} (hc : 1 ≤ c.position) : c.position ≤ c.input.length ↔ rest c ≠ [] := by
  rw [rest, suffixAt, Ne, List.drop_eq_nil_iff]
  omega

/-! Whitespace. -/

theorem not_space_iff {b : UInt8} : (b ≠ 32 ∧ b ≠ 9 ∧ b ≠ 10 ∧ b ≠ 13) ↔ Json.space b = false := by
  simp [Json.space, and_assoc]

theorem spaces_eq (l : Bytes) : spaces l = (l.takeWhile Json.space).length := by
  induction l with
  | nil => rfl
  | cons b l ih =>
    rw [spaces]
    cases hb : Json.space b with
    | false => rw [if_pos (not_space_iff.mpr hb), List.takeWhile_cons_of_neg (by simp [hb]), List.length_nil]
    | true =>
      have hneg : ¬(b ≠ 32 ∧ b ≠ 9 ∧ b ≠ 10 ∧ b ≠ 13) := by
        intro h
        rw [not_space_iff.mp h] at hb
        cases hb
      rw [if_neg hneg, ih, List.takeWhile_cons_of_pos hb, List.length_cons]

/-- A cursor that reads on, within its bounds. -/
structure Live (c : Cursor) : Prop where
  isOpen : c.closed = false
  positive : 1 ≤ c.position
  tokens : (c.tokens : ℤ) ≤ c.maxTokens
  depth : (c.frames.length : ℤ) ≤ c.maxDepth
  entries : 1 ≤ c.limits.aggregateEntries

theorem Live.moved {c : Cursor} (h : Live c) (l : Bytes) : Live (moved c l) :=
  ⟨h.isOpen, h.positive.trans (le_moved c l), h.tokens, h.depth, h.entries⟩

variable {codec : Codec}

theorem space_eq {c : Cursor} (h : c.closed = false) : space codec c = .ok (moved c (trim (rest c))) := by
  rw [space, if_neg (by simp [h]), spaces_eq, moved_append (w := (rest c).takeWhile Json.space)]
  · rfl
  · exact List.takeWhile_append_dropWhile.symm

theorem closed_of_space {c c' : Cursor} (h : space codec c = .ok c') : c.closed = false := by
  cases hclosed : c.closed with
  | false => rfl
  | true =>
    rw [space, if_pos hclosed] at h
    cases h

theorem rest_trimmed {c : Cursor} (h : 1 ≤ c.position) : rest (moved c (trim (rest c))) = trim (rest c) :=
  rest_moved h (trim_suffix _)

theorem moved_trimmed {c : Cursor} {l : Bytes} (h : 1 ≤ c.position) (hl : l <:+ trim (rest c)) :
    moved (moved c (trim (rest c))) l = moved c l :=
  moved_moved h (trim_suffix _) hl

theorem byteAt_trimmed {c : Cursor} (h : 1 ≤ c.position) :
    byteAt c.input (moved c (trim (rest c))).position = (trim (rest c)).head? := by
  rw [byteAt_eq (h.trans (le_moved c _))]
  change (rest (moved c (trim (rest c)))).head? = _
  rw [rest_trimmed h]

/-- Whitespace read ahead changes nothing. -/
theorem space_trimmed {c : Cursor} (h : c.closed = false) (hc : 1 ≤ c.position) :
    space codec (moved c (trim (rest c))) = space codec c := by
  have hrest := rest_trimmed hc
  rw [space_eq h, space_eq (c := moved c (trim (rest c))) h, hrest, trim_trim, moved_trimmed hc (List.suffix_refl _)]

/-! The start and the end of a value. -/

/-- A value may come next. -/
def Admits (c : Cursor) : Prop :=
  match c.frames with
  | frame :: _ => frame.phase = .value
  | [] => c.roots = 0

/-- The cursor after values that leave `r`. -/
def took (c : Cursor) (count : ℕ) (r : Bytes) : Cursor := { moved c r with tokens := c.tokens + count }

theorem expectValue_eq_ok {c : Cursor} : expectValue codec c = .ok () ↔ Admits c := by
  rw [expectValue, Admits]
  cases c.frames with
  | nil =>
    by_cases hroots : c.roots = 0
    · simp [hroots]
    · simp [hroots, fail]
  | cons frame frames =>
    by_cases hphase : frame.phase = .value
    · simp [hphase]
    · simp [hphase]

theorem beginValue_eq_ok {c c' : Cursor} (h : c.closed = false) :
    beginValue codec c = .ok c' ↔
      Admits c ∧ ((c.tokens + 1 : ℕ) : ℤ) ≤ c.maxTokens ∧ c' = took c 1 (trim (rest c)) := by
  have hadmits : expectValue codec (moved c (trim (rest c))) = .ok () ↔ Admits c := expectValue_eq_ok
  rw [beginValue, space_eq h, ok_bind, bind_eq_ok]
  change (∃ u, _ ∧ (if ((c.tokens + 1 : ℕ) : ℤ) > c.maxTokens then fail codec (took c 1 (trim (rest c))) _ _
    else .ok (took c 1 (trim (rest c)))) = .ok c') ↔ _
  constructor
  · rintro ⟨u, hexpect, hcharge⟩
    split_ifs at hcharge with hlimit
    · cases hcharge
    · cases hcharge
      exact ⟨hadmits.mp hexpect, not_lt.mp hlimit, rfl⟩
  · rintro ⟨hc, hlimit, rfl⟩
    exact ⟨(), hadmits.mpr hc, if_neg (not_lt.mpr hlimit)⟩

theorem finishValue_cons {c : Cursor} {frame : Frame} {frames : List Frame} (h : c.frames = frame :: frames) :
    finishValue codec c =
      .ok { c with frames := { frame with phase := .after, count := frame.count + 1 } :: frames } := by
  rw [finishValue, h]

theorem finishValue_nil {c c' : Cursor} (h : c.frames = []) (hopen : c.closed = false) (hc : 1 ≤ c.position) :
    finishValue codec c = .ok c' ↔ trim (rest c) = [] ∧ c' = { moved c [] with roots := c.roots + 1 } := by
  have hspace : space codec { c with roots := c.roots + 1 } =
      .ok { moved c (trim (rest c)) with roots := c.roots + 1 } := space_eq hopen
  have hpos := position_le_iff (hc.trans (le_moved c (trim (rest c))))
  rw [rest_trimmed hc] at hpos
  rw [finishValue, h]
  change finishRoot codec c = _ ↔ _
  rw [finishRoot, hspace, ok_bind]
  change (if (moved c (trim (rest c))).position ≤ (moved c (trim (rest c))).input.length then _ else _) = _ ↔ _
  split_ifs with hle
  · simp [fail, hpos.mp hle]
  · have hnil : trim (rest c) = [] := by
      by_contra hne
      exact hle (hpos.mpr hne)
    rw [hnil]
    constructor
    · intro h
      exact ⟨rfl, (Except.ok.inj h).symm⟩
    · rintro ⟨-, rfl⟩
      rfl

theorem misplaced_eq (b : UInt8) :
    misplaced b = true ↔ ¬(Json.space b = true ∨ b = 44 ∨ b = 93 ∨ b = 125) := by
  simp [misplaced, Json.space, and_assoc]

theorem endScalar_eq_ok {c c' : Cursor} (hc : 1 ≤ c.position) :
    endScalar codec c = .ok c' ↔ Follow (rest c) ∧ finishValue codec c = .ok c' := by
  have hfollow : (byteAt c.input c.position).any misplaced = true ↔ ¬Follow (rest c) := by
    rw [byteAt_eq hc, ← rest, Option.any_eq_true, Follow]
    simp only [misplaced_eq, not_forall, Option.mem_def, exists_prop]
  rw [endScalar]
  split_ifs with hif
  · simp [fail, hfollow.mp hif]
  · simp [not_not.mp (mt hfollow.mpr hif)]

/-! Scalars. -/

/-- The cursor reads the scalar `x` and leaves `r`. -/
structure ReadScalar (codec : Codec) (c : Cursor) (x r : Bytes) (c' : Cursor) : Prop where
  admits : Admits c
  tokens : ((c.tokens + 1 : ℕ) : ℤ) ≤ c.maxTokens
  size : (x.length : ℤ) ≤ c.limits.tokenBytes
  split : trim (rest c) = x ++ r
  follow : Follow r
  finish : finishValue codec (took c 1 r) = .ok c'

theorem rest_took {c : Cursor} {l : Bytes} (n : ℕ) (hc : 1 ≤ c.position) (hl : l <:+ rest c) :
    rest (took c n l) = l := rest_moved hc hl

theorem took_append {c : Cursor} {x r : Bytes} (hc : 1 ≤ c.position) (h : trim (rest c) = x ++ r) :
    { took c 1 (trim (rest c)) with position := (took c 1 (trim (rest c))).position + x.length } = took c 1 r := by
  have hmoved := moved_append (c := moved c (trim (rest c))) ((rest_trimmed hc).trans h)
  rw [moved_trimmed hc (h ▸ List.suffix_append x r)] at hmoved
  rw [took, took, hmoved]

theorem suffix_rest {c : Cursor} {x r : Bytes} (h : trim (rest c) = x ++ r) : r <:+ rest c :=
  (h ▸ List.suffix_append x r : r <:+ trim (rest c)).trans (trim_suffix _)

/-- The end of a scalar, for a text `x` in front of the cursor. -/
theorem readScalar_iff {c c' : Cursor} {x r : Bytes} (h : Live c) (hx : trim (rest c) = x ++ r) :
    (Admits c ∧ ((c.tokens + 1 : ℕ) : ℤ) ≤ c.maxTokens ∧ (x.length : ℤ) ≤ c.limits.tokenBytes ∧
      endScalar codec { took c 1 (trim (rest c)) with
        position := (took c 1 (trim (rest c))).position + x.length } = .ok c') ↔ ReadScalar codec c x r c' := by
  have hpos : 1 ≤ (took c 1 r).position := h.positive.trans (le_moved c r)
  rw [took_append h.positive hx, endScalar_eq_ok hpos, rest_took 1 h.positive (suffix_rest hx)]
  constructor
  · rintro ⟨hadmits, htokens, hsize, hfollow, hfinish⟩
    exact ⟨hadmits, htokens, hsize, hx, hfollow, hfinish⟩
  · rintro ⟨hadmits, htokens, hsize, -, hfollow, hfinish⟩
    exact ⟨hadmits, htokens, hsize, hfollow, hfinish⟩

theorem literal_eq_ok {c c' : Cursor} {w : Bytes} (h : Live c) :
    literal codec c w = .ok c' ↔ ∃ r, ReadScalar codec c w r c' := by
  have hpos : 1 ≤ (took c 1 (trim (rest c))).position := h.positive.trans (le_moved c _)
  have hsub := sub_eq (s := c.input) w.length hpos
  have htrim : suffixAt c.input (took c 1 (trim (rest c))).position = trim (rest c) := rest_trimmed h.positive
  rw [htrim] at hsub
  rw [literal, bind_eq_ok]
  constructor
  · rintro ⟨c₁, hbegin, hread⟩
    obtain ⟨hadmits, htokens, rfl⟩ := (beginValue_eq_ok h.isOpen).mp hbegin
    split_ifs at hread with hlimit hword
    · cases hread
    · cases hread
    · have htake : (trim (rest c)).take w.length = w := by
        rw [← hsub]
        exact not_not.mp hword
      have hsplit : trim (rest c) = w ++ (trim (rest c)).drop w.length := by
        conv_lhs => rw [← List.take_append_drop w.length (trim (rest c)), htake]
      exact ⟨_, (readScalar_iff h hsplit).mp ⟨hadmits, htokens, not_lt.mp hlimit, hread⟩⟩
  · rintro ⟨r, hread⟩
    obtain ⟨hadmits, htokens, hsize, hend⟩ := (readScalar_iff h hread.split).mpr hread
    refine ⟨_, (beginValue_eq_ok h.isOpen).mpr ⟨hadmits, htokens, rfl⟩, ?_⟩
    have hword : sub c.input (took c 1 (trim (rest c))).position
        ((took c 1 (trim (rest c))).position + w.length - 1) = w := by
      rw [hsub, hread.split, List.take_left]
    exact (if_neg (not_lt.mpr hsize)).trans ((if_neg (not_not.mpr hword)).trans hend)

theorem beginValue_trimmed {c : Cursor} (h : Live c) :
    beginValue codec (moved c (trim (rest c))) = beginValue codec c := by
  rw [beginValue, space_trimmed h.isOpen h.positive]
  rfl

theorem literal_trimmed {c : Cursor} (h : Live c) (w : Bytes) :
    literal codec (moved c (trim (rest c))) w = literal codec c w := by
  rw [literal, beginValue_trimmed h]
  rfl

theorem readNull_eq_ok {c c' : Cursor} (h : Live c) :
    readNull codec c = .ok c' ↔ ∃ r, ReadScalar codec c nullText r c' := literal_eq_ok h

theorem readBoolean_eq_ok {c c' : Cursor} {b : Bool} (h : Live c) :
    readBoolean codec c = .ok (b, c') ↔ ∃ r, ReadScalar codec c (booleanText b) r c' := by
  have hpos : 1 ≤ (moved c (trim (rest c))).position := h.positive.trans (le_moved c _)
  have hsub := sub_eq (s := c.input) 1 hpos
  have htrim : suffixAt c.input (moved c (trim (rest c))).position = trim (rest c) := rest_trimmed h.positive
  rw [htrim, Nat.add_sub_cancel] at hsub
  rw [readBoolean, space_eq h.isOpen, ok_bind]
  change (if sub c.input (moved c (trim (rest c))).position (moved c (trim (rest c))).position = [116] then _
    else _) = _ ↔ _
  rw [hsub, literal_trimmed h, literal_trimmed h]
  split_ifs with htrue
  · rw [bind_eq_ok]
    constructor
    · rintro ⟨c₁, hread, heq⟩
      cases heq
      exact (literal_eq_ok h).mp hread
    · rintro ⟨r, hread⟩
      cases b with
      | true => exact ⟨c', (literal_eq_ok h).mpr ⟨r, hread⟩, rfl⟩
      | false =>
        rw [hread.split] at htrue
        cases htrue
  · rw [bind_eq_ok]
    constructor
    · rintro ⟨c₁, hread, heq⟩
      cases heq
      exact (literal_eq_ok h).mp hread
    · rintro ⟨r, hread⟩
      cases b with
      | false => exact ⟨c', (literal_eq_ok h).mpr ⟨r, hread⟩, rfl⟩
      | true =>
        rw [hread.split] at htrue
        exact absurd rfl htrue

/-! Numbers. -/

theorem digits_eq (l : Bytes) : digits l = digitsLength l := by
  induction l with
  | nil => rfl
  | cons b l ih =>
    rw [digits, digitsLength]
    by_cases hb : 48 ≤ b.toNat ∧ b.toNat ≤ 57
    · have hdigit : Decimal.isDigit b = true := by simpa [Decimal.isDigit] using hb
      rw [if_pos hb, List.takeWhile_cons_of_pos hdigit, List.length_cons, ih, digitsLength]
    · have hdigit : ¬Decimal.isDigit b = true := by simpa [Decimal.isDigit] using hb
      rw [if_neg hb, List.takeWhile_cons_of_neg hdigit, List.length_nil]

theorem ok_end_iff {p n q : ℕ} :
    (Except.ok (p + n) : Except Raised ℕ) = .ok q ↔ ∃ m, some n = some m ∧ q = p + m := by
  simp [eq_comm]

theorem integerEnd_eq_ok {c : Cursor} {p q : ℕ} (hp : 1 ≤ p) :
    integerEnd codec c p = .ok q ↔ ∃ n, integerLength (suffixAt c.input p) = some n ∧ q = p + n := by
  have hnext := suffixAt_add (s := c.input) 1 hp
  rw [integerEnd, byteAt_eq hp]
  cases hl : suffixAt c.input p with
  | nil => simp [integerLength, digitsLength, fail]
  | cons b l =>
    rw [hl, List.drop_succ_cons, List.drop_zero] at hnext
    simp only [List.head?_cons, hnext, digits_eq]
    by_cases hzero : b = 48
    · simp [hzero, integerLength, eq_comm]
    · by_cases hb : 49 ≤ b.toNat ∧ b.toNat ≤ 57
      · have hdigit : Decimal.isDigit b = true := by
          simp only [Decimal.isDigit, Bool.and_eq_true, decide_eq_true_eq]
          omega
        have hlength : digitsLength (b :: l) = digitsLength l + 1 := by
          rw [digitsLength, List.takeWhile_cons_of_pos hdigit, List.length_cons, digitsLength]
        rw [if_neg hzero, if_pos hb, integerLength, if_neg (by simpa using hzero), hlength,
          if_neg (Nat.succ_ne_zero _), Nat.add_right_comm, Nat.add_assoc]
        exact ok_end_iff
      · have hdigit : ¬Decimal.isDigit b = true := by
          intro h
          simp only [Decimal.isDigit, Bool.and_eq_true, decide_eq_true_eq] at h
          have hne : b.toNat ≠ 48 := fun h => hzero (UInt8.toNat_inj.mp h)
          omega
        have hlength : digitsLength (b :: l) = 0 := by
          rw [digitsLength, List.takeWhile_cons_of_neg hdigit, List.length_nil]
        rw [if_neg hzero, if_neg hb, integerLength, if_neg (by simpa using hzero), if_pos hlength]
        simp [fail]

theorem fractionEnd_eq_ok {c : Cursor} {p q : ℕ} (hp : 1 ≤ p) :
    fractionEnd codec c p = .ok q ↔ ∃ n, fractionLength (suffixAt c.input p) = some n ∧ q = p + n := by
  rw [fractionEnd, byteAt_eq hp, fractionLength]
  simp only [digits_eq, suffixAt_add 1 hp]
  split_ifs with hdot hnone hnone hnone
  · simp [fail]
  · omega
  · omega
  · rw [Nat.add_assoc]
    exact ok_end_iff
  · exact ok_end_iff (n := 0)

theorem exponentEnd_eq_ok {c : Cursor} {p q : ℕ} (hp : 1 ≤ p) :
    exponentEnd codec c p = .ok q ↔ ∃ n, exponentLength (suffixAt c.input p) = some n ∧ q = p + n := by
  have hmark : ((suffixAt c.input p).head? = some 69 ∨ (suffixAt c.input p).head? = some 101) ↔
      ((suffixAt c.input p).head? = some 101 ∨ (suffixAt c.input p).head? = some 69) := or_comm
  have hsign : (if byteAt c.input (p + 1) = some 43 ∨ byteAt c.input (p + 1) = some 45 then p + 1 + 1 else p + 1) =
      p + (1 + signLength ((suffixAt c.input p).drop 1)) := by
    rw [byteAt_eq (by omega), suffixAt_add 1 hp, signLength]
    split_ifs <;> omega
  rw [exponentEnd, byteAt_eq hp, exponentLength]
  simp only [hsign, digits_eq, suffixAt_add _ hp, hmark]
  split_ifs with hexp hnone hnone hnone
  · simp [fail]
  · omega
  · omega
  · rw [Nat.add_assoc]
    exact ok_end_iff
  · exact ok_end_iff (n := 0)

theorem numberEnd_eq_ok {c : Cursor} {p q : ℕ} (hp : 1 ≤ p) :
    numberEnd codec c p = .ok q ↔ ∃ n, numberLength (suffixAt c.input p) = some n ∧ q = p + n := by
  have hminus : (if byteAt c.input p = some 45 then p + 1 else p) = p + minusLength (suffixAt c.input p) := by
    rw [byteAt_eq hp, minusLength]
    split_ifs <;> rfl
  rw [numberEnd]
  simp only [hminus, bind_eq_ok, numberLength_eq]
  constructor
  · rintro ⟨p₁, hint, p₂, hfrac, hexp⟩
    obtain ⟨int, hint', rfl⟩ := (integerEnd_eq_ok (by omega)).mp hint
    obtain ⟨frac, hfrac', rfl⟩ := (fractionEnd_eq_ok (by omega)).mp hfrac
    obtain ⟨exp, hexp', rfl⟩ := (exponentEnd_eq_ok (by omega)).mp hexp
    rw [suffixAt_add _ hp] at hint'
    rw [Nat.add_assoc p, suffixAt_add _ hp] at hfrac'
    rw [Nat.add_assoc p, Nat.add_assoc p, suffixAt_add _ hp] at hexp'
    exact ⟨_, ⟨int, frac, exp, hint', hfrac', hexp', rfl⟩, by omega⟩
  · rintro ⟨n, ⟨int, frac, exp, hint, hfrac, hexp, rfl⟩, rfl⟩
    rw [← suffixAt_add _ hp, ← Nat.add_assoc] at hfrac
    rw [← suffixAt_add _ hp, ← Nat.add_assoc, ← Nat.add_assoc] at hexp
    rw [← suffixAt_add _ hp] at hint
    refine ⟨_, (integerEnd_eq_ok (by omega)).mpr ⟨int, hint, rfl⟩, _,
      (fractionEnd_eq_ok (by omega)).mpr ⟨frac, hfrac, rfl⟩, (exponentEnd_eq_ok (by omega)).mpr ⟨exp, hexp, ?_⟩⟩
    omega

theorem readNumber_eq_ok {c c' : Cursor} {x : Bytes} (h : Live c) :
    readNumber codec c = .ok (x, c') ↔ ∃ r, ReadScalar codec c x r c' ∧ Number x := by
  let c₁ := took c 1 (trim (rest c))
  have hpos : 1 ≤ c₁.position := h.positive.trans (le_moved c _)
  have htrim : suffixAt c₁.input c₁.position = trim (rest c) := rest_trimmed h.positive
  have hend : ∀ {q}, numberEnd codec c₁ c₁.position = .ok q ↔
      ∃ n, numberLength (trim (rest c)) = some n ∧ q = c₁.position + n := by
    intro q
    rw [numberEnd_eq_ok hpos, htrim]
  have hsub : ∀ n, sub c₁.input c₁.position (c₁.position + n - 1) = (trim (rest c)).take n := by
    intro n
    rw [sub_eq n hpos, htrim]
  rw [readNumber, bind_eq_ok]
  constructor
  · rintro ⟨c₂, hbegin, hread⟩
    obtain ⟨hadmits, htokens, rfl⟩ := (beginValue_eq_ok h.isOpen).mp hbegin
    obtain ⟨q, hq, hread⟩ := bind_eq_ok.mp hread
    obtain ⟨n, hn, rfl⟩ := hend.mp hq
    split_ifs at hread with hlimit
    · cases hread
    · obtain ⟨c₃, hscalar, heq⟩ := bind_eq_ok.mp hread
      obtain ⟨rfl, rfl⟩ := Prod.mk.inj (Except.ok.inj heq)
      rw [hsub]
      have hlength : ((trim (rest c)).take n).length = n := List.length_take_of_le (numberLength_le hn)
      have hsplit := (List.take_append_drop n (trim (rest c))).symm
      refine ⟨_, (readScalar_iff h hsplit).mp ⟨hadmits, htokens, ?_, ?_⟩, number_take hn⟩
      · rw [hlength]
        rw [Nat.add_sub_cancel_left] at hlimit
        exact not_lt.mp hlimit
      · rw [hlength]
        exact hscalar
  · rintro ⟨r, hread, hx⟩
    obtain ⟨hadmits, htokens, hsize, hscalar⟩ := (readScalar_iff h hread.split).mpr hread
    have hn : numberLength (trim (rest c)) = some x.length := by
      rw [hread.split]
      exact numberLength_append hx hread.follow.stops
    refine ⟨c₁, (beginValue_eq_ok h.isOpen).mpr ⟨hadmits, htokens, rfl⟩,
      bind_eq_ok.mpr ⟨_, hend.mpr ⟨_, hn, rfl⟩, ?_⟩⟩
    rw [Nat.add_sub_cancel_left, hsub, hread.split, List.take_left]
    refine (if_neg (not_lt.mpr hsize)).trans (bind_eq_ok.mpr ⟨c', hscalar, rfl⟩)

/-! Strings. -/

/-- `decode` reads a text in quotes as a string just when it is a string literal. -/
def Decodes (codec : Codec) : Prop :=
  ∀ body, (codec.decode (34 :: (body ++ [34]))).1.isSome = true ↔ Literal (34 :: (body ++ [34]))

theorem scanString_eq_closed {tokenBytes : ℤ} {begin : ℕ} (l : Bytes) {p q : ℕ} (hp : begin ≤ p) :
    scanString tokenBytes begin l p = .closed q ↔
      ∃ n, closing l = some n ∧ q = p + n ∧ ((p + n - begin + 1 : ℕ) : ℤ) ≤ tokenBytes := by
  fun_induction scanString tokenBytes begin l p with
  | case1 p => simp [closing]
  | case2 b p hlong =>
    simp only [reduceCtorEq, false_iff, not_exists, not_and, not_le]
    intro n _ _
    omega
  | case3 p hlimit =>
    rw [closing_quote]
    simp
    omega
  | case4 b p hlimit hquote => simp [closing, hquote]
  | case5 b next l p hlong =>
    simp only [reduceCtorEq, false_iff, not_exists, not_and, not_le]
    intro n _ _
    omega
  | case6 next l p hlimit =>
    rw [closing_quote]
    simp
    omega
  | case7 next l p hlimit hquote ih =>
    rw [closing_slash, ih (by omega)]
    simp only [Option.map_eq_some_iff]
    constructor
    · rintro ⟨n, hn, rfl, hle⟩
      exact ⟨n + 2, ⟨n, hn, rfl⟩, by omega, by omega⟩
    · rintro ⟨m, ⟨n, hn, rfl⟩, rfl, hle⟩
      exact ⟨n, hn, by omega, by omega⟩
  | case8 b next l p hlimit hquote hslash ih =>
    rw [closing_plain hquote hslash, ih (by omega)]
    simp only [Option.map_eq_some_iff]
    constructor
    · rintro ⟨n, hn, rfl, hle⟩
      exact ⟨n + 1, ⟨n, hn, rfl⟩, by omega, by omega⟩
    · rintro ⟨m, ⟨n, hn, rfl⟩, rfl, hle⟩
      exact ⟨n, hn, by omega, by omega⟩

theorem stringToken_eq {c : Cursor} (h : Live c) :
    stringToken codec c =
      if (trim (rest c)).head? ≠ some 34 then
        fail codec (moved c (trim (rest c))) (text "expected string") .syntaxCode
      else
        match scanString c.limits.tokenBytes (moved c (trim (rest c))).position ((trim (rest c)).drop 1)
            ((moved c (trim (rest c))).position + 1) with
        | .tooLong => fail codec (moved c (trim (rest c))) (text "string token limit exceeded") .limit
        | .unterminated => fail codec (moved c (trim (rest c))) (text "unterminated string") .syntaxCode
        | .closed position =>
          match codec.decode (sub c.input (moved c (trim (rest c))).position position) with
          | (some value, _) => .ok (value, { moved c (trim (rest c)) with position := position + 1 })
          | (none, message) =>
            fail codec (moved c (trim (rest c))) (message.getD (text "invalid string")) .syntaxCode := by
  have hpos : 1 ≤ (moved c (trim (rest c))).position := h.positive.trans (le_moved c _)
  have htrim : suffixAt c.input (moved c (trim (rest c))).position = trim (rest c) := rest_trimmed h.positive
  rw [stringToken, space_eq h.isOpen, ok_bind, ← byteAt_trimmed h.positive, ← htrim, ← suffixAt_add 1 hpos, htrim]
  rfl

theorem stringToken_eq_ok {c c' : Cursor} {v : Bytes} (hcodec : Decodes codec) (h : Live c) :
    stringToken codec c = .ok (v, c') ↔
      ∃ x r, trim (rest c) = x ++ r ∧ Literal x ∧ (codec.decode x).1 = some v ∧
        (x.length : ℤ) ≤ c.limits.tokenBytes ∧ c' = moved c r := by
  let c₁ := moved c (trim (rest c))
  have hpos : 1 ≤ c₁.position := h.positive.trans (le_moved c _)
  have htrim : suffixAt c₁.input c₁.position = trim (rest c) := rest_trimmed h.positive
  have hsub : ∀ n, sub c₁.input c₁.position (c₁.position + n - 1) = (trim (rest c)).take n := by
    intro n
    rw [sub_eq n hpos, htrim]
  have hmoved : ∀ {x r : Bytes}, trim (rest c) = x ++ r →
      { c₁ with position := c₁.position + x.length } = moved c r := by
    intro x r hx
    rw [← moved_append (htrim.trans hx), moved_trimmed h.positive (hx ▸ List.suffix_append x r)]
  have htake : ∀ {body r : Bytes}, trim (rest c) = 34 :: (body ++ [34]) ++ r →
      sub c₁.input c₁.position (c₁.position + 1 + body.length) = 34 :: (body ++ [34]) := by
    intro body r hx
    have hlength : (34 :: (body ++ [34])).length = body.length + 2 := by simp
    have hspan := hsub (body.length + 2)
    rw [show c₁.position + (body.length + 2) - 1 = c₁.position + 1 + body.length by omega, hx, ← hlength,
      List.take_left] at hspan
    exact hspan
  rw [stringToken_eq h]
  constructor
  · intro hread
    split_ifs at hread with hquote
    · cases hread
    · obtain ⟨l, hl⟩ : ∃ l, trim (rest c) = 34 :: l := by
        cases hl : trim (rest c) with
        | nil =>
          rw [hl] at hquote
          exact absurd (by rintro ⟨⟩) hquote
        | cons b l =>
          rw [hl] at hquote
          exact ⟨l, by simpa using hquote⟩
      cases hscan : scanString c.limits.tokenBytes c₁.position ((trim (rest c)).drop 1) (c₁.position + 1) with
      | tooLong =>
        rw [hscan] at hread
        cases hread
      | unterminated =>
        rw [hscan] at hread
        cases hread
      | closed q =>
        rw [hscan] at hread
        rw [hl, List.drop_succ_cons, List.drop_zero] at hscan
        obtain ⟨n, hn, rfl, hbound⟩ := (scanString_eq_closed l (Nat.le_succ _)).mp hscan
        obtain ⟨body, r, rfl, rfl⟩ := closing_split hn
        have hsplit : trim (rest c) = 34 :: (body ++ [34]) ++ r := by simp [hl]
        have hspan : sub c.input (moved c (trim (rest c))).position (c₁.position.succ + body.length) =
            34 :: (body ++ [34]) := htake hsplit
        simp only [hspan] at hread
        cases hdecode : codec.decode (34 :: (body ++ [34])) with
        | mk value message =>
          rw [hdecode] at hread
          cases value with
          | none => cases hread
          | some value =>
            obtain ⟨rfl, rfl⟩ := Prod.mk.inj (Except.ok.inj hread)
            refine ⟨_, r, hsplit, (hcodec body).mp (by rw [hdecode]; rfl), by rw [hdecode], ?_, ?_⟩
            · simp only [List.length_cons, List.length_append, List.length_nil]
              omega
            · rw [← hmoved hsplit]
              change { c₁ with position := c₁.position + 1 + body.length + 1 } = _
              simp
              omega
  · rintro ⟨x, r, hx, ⟨body, rfl, hbody⟩, hv, hsize, rfl⟩
    have hl : (trim (rest c)).drop 1 = body ++ 34 :: r := by simp [hx]
    have hscan : scanString c.limits.tokenBytes c₁.position (body ++ 34 :: r) (c₁.position + 1) =
        .closed (c₁.position + 1 + body.length) := by
      refine (scanString_eq_closed _ (Nat.le_succ _)).mpr ⟨_, closing_chars hbody r, rfl, ?_⟩
      simp only [List.length_cons, List.length_append, List.length_nil] at hsize
      omega
    rw [if_neg (by simp [hx]), hl, hscan]
    have hspan : sub c.input (moved c (trim (rest c))).position (c₁.position + 1 + body.length) =
        34 :: (body ++ [34]) := htake hx
    simp only [hspan]
    cases hdecode : codec.decode (34 :: (body ++ [34])) with
    | mk value message =>
      rw [hdecode] at hv
      change value = some v at hv
      subst hv
      rw [← hmoved hx]
      change Except.ok (v, { c₁ with position := c₁.position + 1 + body.length + 1 }) = _
      simp
      omega

theorem Live.took {c : Cursor} {n : ℕ} (h : Live c) (hn : ((c.tokens + n : ℕ) : ℤ) ≤ c.maxTokens) (r : Bytes) :
    Live (took c n r) :=
  ⟨h.isOpen, h.positive.trans (le_moved c r), hn, h.depth, h.entries⟩

theorem moved_took {c : Cursor} {l r : Bytes} {n : ℕ} (hc : 1 ≤ c.position) (hl : l <:+ rest c) (hr : r <:+ l) :
    moved (took c n l) r = took c n r := by
  change { moved (moved c l) r with tokens := c.tokens + n } = took c n r
  rw [moved_moved hc hl hr]
  rfl

theorem readString_eq_ok {c c' : Cursor} {v : Bytes} (hcodec : Decodes codec) (h : Live c) :
    readString codec c = .ok (v, c') ↔
      ∃ x r, ReadScalar codec c x r c' ∧ Literal x ∧ (codec.decode x).1 = some v := by
  have hrest : trim (rest (took c 1 (trim (rest c)))) = trim (rest c) := by
    rw [rest_took 1 h.positive (trim_suffix _), trim_trim]
  have hmoved : ∀ {x r : Bytes}, trim (rest c) = x ++ r → moved (took c 1 (trim (rest c))) r = took c 1 r := by
    intro x r hx
    exact moved_took h.positive (trim_suffix _) (hx ▸ List.suffix_append x r)
  have hend : ∀ {x r : Bytes}, trim (rest c) = x ++ r →
      (endScalar codec (took c 1 r) = .ok c' ↔ Follow r ∧ finishValue codec (took c 1 r) = .ok c') := by
    intro x r hx
    have hpos : 1 ≤ (took c 1 r).position := h.positive.trans (le_moved c r)
    rw [endScalar_eq_ok hpos, rest_took 1 h.positive (suffix_rest hx)]
  rw [readString, bind_eq_ok]
  constructor
  · rintro ⟨c₁, hbegin, hread⟩
    obtain ⟨hadmits, htokens, rfl⟩ := (beginValue_eq_ok h.isOpen).mp hbegin
    obtain ⟨⟨w, c₂⟩, hstring, hread⟩ := bind_eq_ok.mp hread
    obtain ⟨x, r, hx, hliteral, hv, hsize, rfl⟩ := (stringToken_eq_ok hcodec (h.took htokens _)).mp hstring
    rw [hrest] at hx
    rw [hmoved hx] at hread
    obtain ⟨c₃, hscalar, heq⟩ := bind_eq_ok.mp hread
    obtain ⟨rfl, rfl⟩ := Prod.mk.inj (Except.ok.inj heq)
    obtain ⟨hfollow, hfinish⟩ := (hend hx).mp hscalar
    exact ⟨x, r, ⟨hadmits, htokens, hsize, hx, hfollow, hfinish⟩, hliteral, hv⟩
  · rintro ⟨x, r, ⟨hadmits, htokens, hsize, hx, hfollow, hfinish⟩, hliteral, hv⟩
    refine ⟨_, (beginValue_eq_ok h.isOpen).mpr ⟨hadmits, htokens, rfl⟩, bind_eq_ok.mpr ⟨(v, took c 1 r), ?_,
      bind_eq_ok.mpr ⟨c', (hend hx).mpr ⟨hfollow, hfinish⟩, rfl⟩⟩⟩
    exact (stringToken_eq_ok hcodec (h.took htokens _)).mpr
      ⟨x, r, hrest.trans hx, hliteral, hv, hsize, (hmoved hx).symm⟩

/-! Containers. -/

def freshFrame (kind : Kind) : Frame := { kind := kind, phase := .first, names := [], count := 0 }

theorem start_eq_ok {c c' : Cursor} {kind : Kind} (h : Live c) :
    start codec c kind = .ok c' ↔
      Admits c ∧ ((c.tokens + 1 : ℕ) : ℤ) ≤ c.maxTokens ∧ (c.frames.length : ℤ) < c.maxDepth ∧
        ∃ r, trim (rest c) = opening kind :: r ∧
          c' = { took c 1 r with frames := freshFrame kind :: c.frames } := by
  let c₁ := took c 1 (trim (rest c))
  have hhead : byteAt c₁.input c₁.position = (trim (rest c)).head? := byteAt_trimmed h.positive
  rw [start, bind_eq_ok]
  constructor
  · rintro ⟨c₂, hbegin, hread⟩
    obtain ⟨hadmits, htokens, rfl⟩ := (beginValue_eq_ok h.isOpen).mp hbegin
    split_ifs at hread with hbyte hdepth
    · cases hread
    · cases hread
    · obtain ⟨r, hr⟩ : ∃ r, trim (rest c) = opening kind :: r := by
        rw [not_not.mp hbyte] at hhead
        exact List.head?_eq_some_iff.mp hhead.symm
      have htook := took_append (x := [opening kind]) h.positive hr
      refine ⟨hadmits, htokens, not_le.mp hdepth, r, hr, ?_⟩
      rw [← Except.ok.inj hread, ← htook]
      rfl
  · rintro ⟨hadmits, htokens, hdepth, r, hr, rfl⟩
    have htook := took_append (x := [opening kind]) h.positive hr
    refine ⟨_, (beginValue_eq_ok h.isOpen).mpr ⟨hadmits, htokens, rfl⟩, ?_⟩
    rw [hr, List.head?_cons] at hhead
    refine (if_neg (not_not.mpr hhead)).trans ((if_neg (not_le.mpr hdepth)).trans ?_)
    rw [← htook]
    rfl

/-- What stands before the next value of a container, after one in phase `after`. -/
def Leads (phase : Phase) (close : UInt8) (l r : Bytes) : Prop :=
  (if phase = .after then ∃ m, trim l = 44 :: m ∧ r = trim m else r = trim l) ∧ r.head? ≠ some close

def readied (frame : Frame) : Frame := { frame with currentName := none, logicalName := none, phase := .value }

theorem closingByte_ne_comma (kind : Kind) : closingByte kind ≠ 44 := by cases kind <;> decide

/-- The frame without the names of the last member. -/
def cleared (frame : Frame) : Frame := { frame with currentName := none, logicalName := none }

/-- After whitespace, in front of no closing byte. -/
theorem separator_eq_ok {c c' : Cursor} {kind : Kind} {frame : Frame} {frames : List Frame} (h : Live c)
    (hframes : c.frames = frame :: frames) (htrim : trim (rest c) = rest c)
    (hclose : (rest c).head? ≠ some (closingByte kind)) :
    separator codec c frame frames kind = .ok c' ↔
      ∃ r, Leads frame.phase (closingByte kind) (rest c) r ∧
        c' = { moved c r with
          frames := (if frame.phase = .after then { frame with phase := .value } else frame) :: frames } := by
  have hhead : byteAt c.input c.position = (rest c).head? := byteAt_eq h.positive
  rw [separator]
  simp only [Leads, htrim]
  by_cases hphase : frame.phase = .after
  · simp only [hphase, if_true, hhead]
    cases hl : rest c with
    | nil => simp [fail]
    | cons b m =>
      by_cases hcomma : b = 44
      · subst hcomma
        have hstep : { c with position := c.position + 1 } = moved c m := (moved_append (w := [44]) hl).symm
        have hrest : rest (moved c m) = m := rest_moved h.positive (hl ▸ List.suffix_cons 44 m)
        have hmoved : moved (moved c m) (trim m) = moved c (trim m) :=
          moved_moved h.positive (hl ▸ List.suffix_cons 44 m) (trim_suffix m)
        have hspace : space codec (moved c m) = .ok (moved c (trim m)) := by
          rw [space_eq (h.moved m).isOpen, hrest, hmoved]
        have hbyte : byteAt c.input (moved c (trim m)).position = (trim m).head? := by
          have hbyte := byteAt_trimmed (h.moved m).positive
          rw [hrest, hmoved] at hbyte
          exact hbyte
        rw [List.head?_cons, if_neg (not_not.mpr rfl), hstep, hspace, ok_bind]
        constructor
        · intro hread
          by_cases hlast : (trim m).head? = some (closingByte kind)
          · have hfail := (if_pos (hbyte.trans hlast)).symm.trans hread
            cases hfail
          · have hok := (if_neg fun heq => hlast (hbyte.symm.trans heq)).symm.trans hread
            exact ⟨trim m, ⟨⟨m, rfl, rfl⟩, hlast⟩, (Except.ok.inj hok).symm⟩
        · rintro ⟨r, ⟨⟨m', hm', rfl⟩, hlast⟩, rfl⟩
          cases hm'
          exact if_neg fun heq => hlast (hbyte.symm.trans heq)
      · simp [hcomma, fail]
  · simp only [hphase, if_false]
    constructor
    · intro hread
      refine ⟨rest c, ⟨rfl, hclose⟩, ?_⟩
      rw [moved_rest, ← hframes]
      exact (Except.ok.inj hread).symm
    · rintro ⟨r, ⟨rfl, -⟩, rfl⟩
      rw [moved_rest, ← hframes]

theorem next_eq {c : Cursor} {kind : Kind} {frame : Frame} {frames : List Frame} (h : Live c)
    (hframes : c.frames = frame :: frames) (hkind : frame.kind = kind) (hphase : frame.phase ≠ .value) :
    next codec c kind =
      if (trim (rest c)).head? = some (closingByte kind) then do
        let c ← finishValue codec { moved c ((trim (rest c)).drop 1) with frames := frames }
        return (false, c)
      else do
        let c ← separator codec { moved c (trim (rest c)) with frames := cleared frame :: frames } (cleared frame)
          frames kind
        if (frame.count : ℤ) ≥ c.limits.aggregateEntries then
          fail codec c (text "aggregate entry limit exceeded") .limit
        else return (true, { c with frames := readied frame :: frames }) := by
  have hhead := byteAt_trimmed h.positive
  rw [next, space_eq h.isOpen, ok_bind]
  have hmoved : (moved c (trim (rest c))).frames = frame :: frames := hframes
  rw [hmoved]
  change nextIn codec (moved c (trim (rest c))) frame frames kind = _
  rw [nextIn, if_neg (not_not.mpr hkind), if_neg hphase]
  change (if byteAt c.input (moved c (trim (rest c))).position = some (closingByte kind) then do
      let c ← finishValue codec { moved c (trim (rest c)) with
        position := (moved c (trim (rest c))).position + 1, frames := frames }
      return (false, c)
    else _) = _
  rw [hhead]
  split_ifs with hclose
  · obtain ⟨r, hr⟩ := List.head?_eq_some_iff.mp hclose
    have hmoved : moved c r = { moved c (trim (rest c)) with position := (moved c (trim (rest c))).position + 1 } := by
      rw [← moved_trimmed h.positive (hr ▸ List.suffix_cons _ r)]
      exact moved_append (w := [closingByte kind]) ((rest_trimmed h.positive).trans hr)
    have hdrop : (trim (rest c)).drop 1 = r := by rw [hr, List.drop_succ_cons, List.drop_zero]
    rw [hdrop, hmoved]
  · rfl

theorem next_eq_false {c c' : Cursor} {kind : Kind} {frame : Frame} {frames : List Frame} (h : Live c)
    (hframes : c.frames = frame :: frames) (hkind : frame.kind = kind) (hphase : frame.phase ≠ .value) :
    next codec c kind = .ok (false, c') ↔
      ∃ r, trim (rest c) = closingByte kind :: r ∧ finishValue codec { moved c r with frames := frames } = .ok c' := by
  rw [next_eq h hframes hkind hphase]
  constructor
  · intro hread
    split_ifs at hread with hclose
    · obtain ⟨r, hr⟩ := List.head?_eq_some_iff.mp hclose
      rw [hr, List.drop_succ_cons, List.drop_zero] at hread
      obtain ⟨c₁, hfinish, heq⟩ := bind_eq_ok.mp hread
      obtain ⟨-, rfl⟩ := Prod.mk.inj (Except.ok.inj heq)
      exact ⟨r, hr, hfinish⟩
    · obtain ⟨c₁, -, hread⟩ := bind_eq_ok.mp hread
      split_ifs at hread with hlimit
      · cases hread
      · cases Except.ok.inj hread
  · rintro ⟨r, hr, hfinish⟩
    rw [hr, if_pos List.head?_cons, List.drop_succ_cons, List.drop_zero]
    exact bind_eq_ok.mpr ⟨c', hfinish, rfl⟩

theorem leads_trimmed {phase : Phase} {close : UInt8} {l r : Bytes} :
    Leads phase close (trim l) r ↔ Leads phase close l r := by
  rw [Leads, Leads, trim_trim]

theorem Leads.suffix {phase : Phase} {close : UInt8} {l r : Bytes} (h : Leads phase close l r) : r <:+ trim l := by
  obtain ⟨h, -⟩ := h
  split_ifs at h with hphase
  · obtain ⟨m, hm, rfl⟩ := h
    exact hm ▸ (trim_suffix m).trans (List.suffix_cons 44 m)
  · exact h ▸ List.suffix_refl _

theorem Leads.head_ne {phase : Phase} {kind : Kind} {l r : Bytes} (h : Leads phase (closingByte kind) l r) :
    (trim l).head? ≠ some (closingByte kind) := by
  obtain ⟨h, hclose⟩ := h
  split_ifs at h with hphase
  · obtain ⟨m, hm, -⟩ := h
    rw [hm, List.head?_cons]
    exact fun heq => closingByte_ne_comma kind (Option.some.inj heq).symm
  · exact h ▸ hclose

theorem next_eq_true {c c' : Cursor} {kind : Kind} {frame : Frame} {frames : List Frame} (h : Live c)
    (hframes : c.frames = frame :: frames) (hkind : frame.kind = kind) (hphase : frame.phase ≠ .value) :
    next codec c kind = .ok (true, c') ↔
      (frame.count : ℤ) < c.limits.aggregateEntries ∧
        ∃ r, Leads frame.phase (closingByte kind) (rest c) r ∧
          c' = { moved c r with frames := readied frame :: frames } := by
  let c₁ : Cursor := { moved c (trim (rest c)) with frames := cleared frame :: frames }
  have hlive : Live c₁ := by
    refine ⟨h.isOpen, (h.moved _).positive, h.tokens, ?_, h.entries⟩
    have hdepth := h.depth
    rw [hframes] at hdepth
    exact hdepth
  have hrest : rest c₁ = trim (rest c) := rest_trimmed h.positive
  have hmoved : ∀ {r : Bytes}, r <:+ trim (rest c) → moved c₁ r = { moved c r with frames := cleared frame :: frames } := by
    intro r hr
    rw [← moved_trimmed h.positive hr]
    rfl
  have hseparator : ∀ {c₂}, (trim (rest c)).head? ≠ some (closingByte kind) →
      (separator codec c₁ (cleared frame) frames kind = .ok c₂ ↔
        ∃ r, Leads frame.phase (closingByte kind) (rest c) r ∧ c₂ = { moved c₁ r with
          frames := (if frame.phase = .after then { cleared frame with phase := .value } else cleared frame) :: frames }) := by
    intro c₂ hclose
    rw [separator_eq_ok hlive rfl (by rw [hrest, trim_trim]) (by rw [hrest]; exact hclose), hrest]
    simp only [leads_trimmed]
    exact Iff.rfl
  rw [next_eq h hframes hkind hphase]
  constructor
  · intro hread
    split_ifs at hread with hclose
    · obtain ⟨c₂, -, heq⟩ := bind_eq_ok.mp hread
      cases Except.ok.inj heq
    · obtain ⟨c₂, hsep, hread⟩ := bind_eq_ok.mp hread
      obtain ⟨r, hleads, rfl⟩ := (hseparator hclose).mp hsep
      change (if (frame.count : ℤ) ≥ c.limits.aggregateEntries then _ else _) = _ at hread
      by_cases hlimit : (frame.count : ℤ) ≥ c.limits.aggregateEntries
      · rw [if_pos hlimit] at hread
        cases hread
      · rw [if_neg hlimit] at hread
        obtain ⟨-, rfl⟩ := Prod.mk.inj (Except.ok.inj hread)
        refine ⟨not_le.mp hlimit, r, hleads, ?_⟩
        rw [hmoved hleads.suffix]
  · rintro ⟨hlimit, r, hleads, rfl⟩
    rw [if_neg hleads.head_ne]
    refine bind_eq_ok.mpr ⟨_, (hseparator hleads.head_ne).mpr ⟨r, hleads, rfl⟩, ?_⟩
    refine (if_neg (not_le.mpr hlimit)).trans ?_
    rw [hmoved hleads.suffix]
    rfl

theorem Leads.trim_eq {phase : Phase} {close : UInt8} {l r : Bytes} (h : Leads phase close l r) : trim r = r := by
  obtain ⟨h, -⟩ := h
  split_ifs at h with hphase
  · obtain ⟨m, -, rfl⟩ := h
    exact trim_trim m
  · exact h ▸ trim_trim l

def named (frame : Frame) (name : Bytes) : Frame :=
  { readied frame with currentName := some name, names := name :: frame.names }

theorem nextKey_eq_none {c c' : Cursor} {frame : Frame} {frames : List Frame} (h : Live c)
    (hframes : c.frames = frame :: frames) (hkind : frame.kind = .object) (hphase : frame.phase ≠ .value) :
    nextKey codec c = .ok (none, c') ↔
      ∃ r, trim (rest c) = 125 :: r ∧ finishValue codec { moved c r with frames := frames } = .ok c' := by
  have hclosed : next codec c .object = .ok (false, c') ↔
      ∃ r, trim (rest c) = 125 :: r ∧ finishValue codec { moved c r with frames := frames } = .ok c' :=
    next_eq_false h hframes hkind hphase
  rw [← hclosed, nextKey, bind_eq_ok]
  constructor
  · rintro ⟨⟨more, c₁⟩, hnext, hread⟩
    cases more with
    | false =>
      obtain ⟨-, rfl⟩ := Prod.mk.inj (Except.ok.inj hread)
      exact hnext
    | true =>
      obtain ⟨⟨name, c₂⟩, -, hread⟩ := bind_eq_ok.mp hread
      obtain ⟨c₃, -, hread⟩ := bind_eq_ok.mp hread
      obtain ⟨c₄, -, hread⟩ := bind_eq_ok.mp hread
      split_ifs at hread with hcolon
      · cases hread
      · cases Except.ok.inj hread
  · intro hnext
    exact ⟨(false, c'), hnext, rfl⟩

theorem enterName_eq_ok {c c' : Cursor} {frame : Frame} {frames : List Frame} {name : Bytes}
    (hframes : c.frames = readied frame :: frames) :
    enterName codec c name = .ok c' ↔ name ∉ frame.names ∧ c' = { c with frames := named frame name :: frames } := by
  rw [enterName, hframes]
  change (if name ∈ frame.names then _ else _) = _ ↔ _
  split_ifs with hmem
  · simp [fail, hmem]
  · simp only [hmem, not_false_eq_true, true_and, Except.ok.injEq]
    exact eq_comm

theorem nextKey_eq_some {c c' : Cursor} {frame : Frame} {frames : List Frame} {name : Bytes}
    (hcodec : Decodes codec) (h : Live c) (hframes : c.frames = frame :: frames) (hkind : frame.kind = .object)
    (hphase : frame.phase ≠ .value) :
    nextKey codec c = .ok (some name, c') ↔
      (frame.count : ℤ) < c.limits.aggregateEntries ∧ ∃ x m r, Leads frame.phase 125 (rest c) (x ++ m) ∧ Literal x ∧
        (codec.decode x).1 = some name ∧ (x.length : ℤ) ≤ c.limits.tokenBytes ∧ name ∉ frame.names ∧
        trim m = 58 :: r ∧ c' = { moved c r with frames := named frame name :: frames } := by
  have hlive : ∀ (l : Bytes) (f : Frame), Live { moved c l with frames := f :: frames } := by
    intro l f
    refine ⟨h.isOpen, (h.moved l).positive, h.tokens, ?_, h.entries⟩
    have hdepth := h.depth
    rw [hframes] at hdepth
    exact hdepth
  have hrest : ∀ {l : Bytes} (f : Frame), l <:+ rest c → rest { moved c l with frames := f :: frames } = l :=
    fun f hl => rest_moved h.positive hl
  have hmoved : ∀ {l r : Bytes} (f : Frame), l <:+ rest c → r <:+ l →
      moved { moved c l with frames := f :: frames } r = { moved c r with frames := f :: frames } := by
    intro l r f hl hr
    rw [← moved_moved h.positive hl hr]
    rfl
  have hcolon : ∀ {m : Bytes} (f : Frame), m <:+ rest c →
      byteAt c.input (moved c (trim m)).position = (trim m).head? := by
    intro m f hm
    have hbyte := byteAt_trimmed (h.moved m).positive
    rw [rest_moved h.positive hm, moved_moved h.positive hm (trim_suffix m)] at hbyte
    exact hbyte
  have hspace : ∀ {m : Bytes} (f : Frame), m <:+ rest c →
      space codec { moved c m with frames := f :: frames } = .ok { moved c (trim m) with frames := f :: frames } := by
    intro m f hm
    rw [space_eq (hlive m f).isOpen, hrest f hm, hmoved f hm (trim_suffix m)]
  rw [nextKey, bind_eq_ok]
  constructor
  · rintro ⟨⟨more, c₁⟩, hnext, hread⟩
    cases more with
    | false => cases Except.ok.inj hread
    | true =>
      obtain ⟨hcount, l, hleads, rfl⟩ := (next_eq_true h hframes hkind hphase).mp hnext
      have hl : l <:+ rest c := hleads.suffix.trans (trim_suffix _)
      obtain ⟨⟨name', c₂⟩, hstring, hread⟩ := bind_eq_ok.mp hread
      obtain ⟨x, m, hx, hliteral, hname, hsize, rfl⟩ := (stringToken_eq_ok hcodec (hlive l _)).mp hstring
      rw [hrest _ hl, hleads.trim_eq] at hx
      subst hx
      have hm : m <:+ rest c := (List.suffix_append x m).trans hl
      rw [hmoved _ hl (List.suffix_append x m)] at hread
      obtain ⟨c₃, henter, hread⟩ := bind_eq_ok.mp hread
      obtain ⟨hfresh, rfl⟩ := (enterName_eq_ok rfl).mp henter
      obtain ⟨c₄, hspaced, hread⟩ := bind_eq_ok.mp hread
      have hc₄ := (hspace (named frame name') hm).symm.trans hspaced
      obtain rfl := Except.ok.inj hc₄
      by_cases hbyte : (trim m).head? = some 58
      · obtain ⟨r, hr⟩ := List.head?_eq_some_iff.mp hbyte
        have hok := (if_neg (not_not.mpr ((hcolon (named frame name') hm).trans hbyte))).symm.trans hread
        obtain ⟨hsome, rfl⟩ := Prod.mk.inj (Except.ok.inj hok)
        obtain rfl := Option.some.inj hsome
        refine ⟨hcount, x, m, r, hleads, hliteral, hname, hsize, hfresh, hr, ?_⟩
        have htrimmed : trim m <:+ rest c := (trim_suffix m).trans hm
        have hstep := moved_append (c := moved c (trim m)) (w := [58]) ((rest_moved h.positive htrimmed).trans hr)
        rw [moved_moved h.positive htrimmed (hr ▸ List.suffix_cons 58 r)] at hstep
        rw [hstep]
        rfl
      · have hfail := (if_pos fun heq => hbyte ((hcolon (named frame name') hm).symm.trans heq)).symm.trans hread
        cases hfail
  · rintro ⟨hcount, x, m, r, hleads, hliteral, hname, hsize, hfresh, hr, rfl⟩
    have hl : x ++ m <:+ rest c := hleads.suffix.trans (trim_suffix _)
    have hm : m <:+ rest c := (List.suffix_append x m).trans hl
    refine ⟨_, (next_eq_true h hframes hkind hphase).mpr ⟨hcount, _, hleads, rfl⟩, bind_eq_ok.mpr
      ⟨(name, { moved c m with frames := readied frame :: frames }), ?_, bind_eq_ok.mpr
        ⟨_, (enterName_eq_ok rfl).mpr ⟨hfresh, rfl⟩, bind_eq_ok.mpr ⟨_, hspace (named frame name) hm, ?_⟩⟩⟩⟩
    · refine (stringToken_eq_ok hcodec (hlive _ _)).mpr ⟨x, m, ?_, hliteral, hname, hsize, ?_⟩
      · rw [hrest _ hl, hleads.trim_eq]
      · rw [hmoved _ hl (List.suffix_append x m)]
    · have hbyte : (trim m).head? = some 58 := by rw [hr, List.head?_cons]
      refine (if_neg (not_not.mpr ((hcolon (named frame name) hm).trans hbyte))).trans ?_
      have htrimmed : trim m <:+ rest c := (trim_suffix m).trans hm
      have hstep := moved_append (c := moved c (trim m)) (w := [58]) ((rest_moved h.positive htrimmed).trans hr)
      rw [moved_moved h.positive htrimmed (hr ▸ List.suffix_cons 58 r)] at hstep
      rw [hstep]
      rfl

end Nupp.JsonCursor
