import Nupp.Lib.JsonString
import Nupp.Serde.CursorClient

/-! What a reader accepts, from its first call to its last. -/

namespace Nupp.JsonCursor

open Json Result

variable {codec : Codec}

/-- `reader(input)`, `skipValue()` and `finish()`. -/
def accept (codec : Codec) (input : Bytes) (maxDepth maxTokens : Option ℤ) (limits : Option Limits) :
    Except Raised Cursor := do
  let c ← reader input maxDepth maxTokens limits
  let c ← skipValue codec (2 * input.length + 1) c
  finish codec c

/-- The bounds that `reader` checks. -/
structure Admissible (input : Bytes) (depth tokens : ℤ) (bounds : Limits) : Prop where
  tokenBytes : 1 ≤ bounds.tokenBytes
  entries : 1 ≤ bounds.aggregateEntries
  inputBytes : 1 ≤ bounds.inputBytes
  size : (input.length : ℤ) ≤ bounds.inputBytes
  depth : 1 ≤ depth ∧ depth ≤ 1024
  tokens : 1 ≤ tokens

def opened (input : Bytes) (depth tokens : ℤ) (bounds : Limits) : Cursor where
  input := input
  position := 1
  frames := []
  roots := 0
  tokens := 0
  maxDepth := depth
  maxTokens := tokens
  limits := bounds
  closed := false

theorem reader_eq_ok {input : Bytes} {maxDepth maxTokens : Option ℤ} {limits : Option Limits} {c : Cursor} :
    reader input maxDepth maxTokens limits = .ok c ↔
      Admissible input (maxDepth.getD 128) (maxTokens.getD 1000000) (limits.getD {}) ∧
        c = opened input (maxDepth.getD 128) (maxTokens.getD 1000000) (limits.getD {}) := by
  let bounds := limits.getD {}
  by_cases hpositive : bounds.tokenBytes ≥ 1 ∧ bounds.aggregateEntries ≥ 1 ∧ bounds.inputBytes ≥ 1
  · by_cases hsize : (input.length : ℤ) > bounds.inputBytes
    · rw [reader, if_neg (not_not.mpr hpositive), if_pos hsize]
      simp only [reduceCtorEq, false_iff, not_and]
      intro h
      exact absurd hsize (not_lt.mpr h.size)
    · rw [reader, if_neg (not_not.mpr hpositive), if_neg hsize]
      by_cases hbounds : maxDepth.getD 128 < 1 ∨ maxDepth.getD 128 > 1024 ∨ maxTokens.getD 1000000 < 1
      · rw [if_pos hbounds]
        simp only [reduceCtorEq, false_iff, not_and]
        intro h
        have hdepth := h.depth
        have htokens := h.tokens
        omega
      · rw [if_neg hbounds]
        constructor
        · intro h
          exact ⟨⟨hpositive.1, hpositive.2.1, hpositive.2.2, not_lt.mp hsize, by omega, by omega⟩,
            (Except.ok.inj h).symm⟩
        · rintro ⟨-, rfl⟩
          rfl
  · rw [reader, if_pos hpositive]
    simp only [reduceCtorEq, false_iff, not_and]
    intro h
    exact absurd ⟨h.tokenBytes, h.entries, h.inputBytes⟩ hpositive

theorem live_opened {input : Bytes} {depth tokens : ℤ} {bounds : Limits} (h : Admissible input depth tokens bounds) :
    Live (opened input depth tokens bounds) := by
  have hdepth := h.depth
  have htokens := h.tokens
  refine ⟨rfl, le_refl 1, ?_, ?_, h.entries⟩
  · change ((0 : ℕ) : ℤ) ≤ tokens
    omega
  · change ((0 : ℕ) : ℤ) ≤ depth
    omega

theorem rest_opened (input : Bytes) (depth tokens : ℤ) (bounds : Limits) :
    rest (opened input depth tokens bounds) = input := rfl

/-- A root value ends the text, with whitespace after it. -/
theorem finishValue_root {c c' : Cursor} {n : ℕ} {r : Bytes} (h : Live c) (hframes : c.frames = [])
    (hr : r <:+ rest c) : finishValue codec (took c n r) = .ok c' ↔
      Blank r [] ∧ c' = { moved c [] with tokens := c.tokens + n, roots := c.roots + 1 } := by
  have hpos : 1 ≤ (took c n r).position := h.positive.trans (le_moved c r)
  have hmoved := moved_took (n := n) h.positive hr (List.nil_suffix (l := r))
  have hroot : finishValue codec (took c n r) = .ok c' ↔
      trim (rest (took c n r)) = [] ∧ c' = { moved (took c n r) [] with roots := c.roots + 1 } :=
    finishValue_nil hframes h.isOpen hpos
  rw [hroot, rest_took n h.positive hr, hmoved, blank_nil_iff]
  rfl

theorem finish_after_root {c : Cursor} {n : ℕ} (h : Live c) (hroots : c.roots = 0) (hframes : c.frames = []) :
    ∃ c', finish codec { moved c [] with tokens := c.tokens + n, roots := c.roots + 1 } = .ok c' := by
  let c₁ : Cursor := { moved c [] with tokens := c.tokens + n, roots := c.roots + 1 }
  have hpos : 1 ≤ c₁.position := h.positive.trans (le_moved c [])
  have hrest : rest c₁ = [] := rest_moved h.positive List.nil_suffix
  have hmoved : moved c₁ (trim (rest c₁)) = c₁ := by
    rw [hrest, show trim [] = [] from rfl, ← hrest, moved_rest]
  have hopen : c₁.closed = false := h.isOpen
  have hspace : space codec c₁ = .ok c₁ := by
    rw [space_eq hopen, hmoved]
  refine ⟨{ c₁ with closed := true }, ?_⟩
  change finish codec c₁ = _
  rw [finish, hspace, ok_bind, if_neg, if_neg]
  · rw [position_le_iff hpos, hrest]
    simp
  · rintro (hne | hne)
    · exact hne (congrArg List.length hframes)
    · exact hne (congrArg (· + 1) hroots)

/-- `accept` succeeds on the documents whose objects repeat no name, within the bounds. -/
theorem accept_iff (hcodec : Decodes codec) (input : Bytes) (maxDepth maxTokens : Option ℤ)
    (limits : Option Limits) :
    (∃ c, accept codec input maxDepth maxTokens limits = .ok c) ↔
      Admissible input (maxDepth.getD 128) (maxTokens.getD 1000000) (limits.getD {}) ∧
        ∃ t, Document t input ∧ t.All (Distinct codec) ∧ (t.depth : ℤ) ≤ maxDepth.getD 128 ∧
          (t.count : ℤ) ≤ maxTokens.getD 1000000 ∧ t.All (Within (limits.getD {})) := by
  let c₀ := opened input (maxDepth.getD 128) (maxTokens.getD 1000000) (limits.getD {})
  have hskip : ∀ {c}, Live c₀ →
      (skipValue codec (2 * input.length + 1) c₀ = .ok c ↔ ∃ t r, Reads codec c₀ t r c) :=
    fun h => (skips hcodec _).1 h (Nat.lt_succ_self _)
  constructor
  · rintro ⟨c, haccept⟩
    obtain ⟨c₁, hreader, haccept⟩ := bind_eq_ok.mp haccept
    obtain ⟨hadmissible, rfl⟩ := reader_eq_ok.mp hreader
    obtain ⟨c₂, hvalue, -⟩ := bind_eq_ok.mp haccept
    have hlive := live_opened hadmissible
    obtain ⟨t, r, hread⟩ := (hskip hlive).mp hvalue
    have hr : r <:+ rest c₀ := hread.value.after.1.trans (trim_suffix _)
    obtain ⟨hblank, -⟩ := (finishValue_root hlive rfl hr).mp hread.finish
    have htokens := hread.fits.tokens
    have hdepth := hread.fits.depth
    obtain ⟨hdistinct, hwithin⟩ := t.all_and.mp hread.fits.allowed
    refine ⟨hadmissible, t, ⟨trim input, r, blank_trim input, hread.value, hblank⟩, hdistinct, ?_, ?_, hwithin⟩
    · change ((0 + t.depth : ℕ) : ℤ) ≤ maxDepth.getD 128 at hdepth
      omega
    · change ((0 + t.count : ℕ) : ℤ) ≤ maxTokens.getD 1000000 at htokens
      omega
  · rintro ⟨hadmissible, t, ⟨l, r, hblank, hvalue, hend⟩, hdistinct, hdepth, htokens, hwithin⟩
    have hlive := live_opened hadmissible
    rw [← hvalue.solid.trim_eq hblank] at hvalue
    have hr : r <:+ rest c₀ := hvalue.after.1.trans (trim_suffix _)
    have hfinish : finishValue codec (took c₀ t.count r) = .ok _ :=
      (finishValue_root hlive rfl hr).mpr ⟨hend, rfl⟩
    obtain ⟨c', hlast⟩ : ∃ c', finish codec { moved c₀ [] with tokens := c₀.tokens + t.count, roots := c₀.roots + 1 } =
        .ok c' := finish_after_root hlive rfl rfl
    refine ⟨c', bind_eq_ok.mpr ⟨c₀, reader_eq_ok.mpr ⟨hadmissible, rfl⟩, bind_eq_ok.mpr
      ⟨_, (hskip hlive).mpr ⟨t, r, hvalue, Follow.ends (hend.follow follow_nil), rfl, ⟨?_, ?_, ?_⟩, hfinish⟩,
        hlast⟩⟩⟩
    · change ((0 + t.count : ℕ) : ℤ) ≤ maxTokens.getD 1000000
      omega
    · change ((0 + t.depth : ℕ) : ℤ) ≤ maxDepth.getD 128
      omega
    · exact t.all_and.mpr ⟨hdistinct, hwithin⟩

/-- The fuel of `accept` is enough. -/
theorem accept_settles (hcodec : Decodes codec) (input : Bytes) (maxDepth maxTokens : Option ℤ)
    (limits : Option Limits) : Settles (accept codec input maxDepth maxTokens limits) := by
  have hreader : Settles (reader input maxDepth maxTokens limits) := by
    rw [reader]
    exact settles_if nofun (settles_if nofun (settles_if nofun (settles_ok _)))
  refine settles_bind hreader fun c hc => ?_
  obtain ⟨hadmissible, rfl⟩ := reader_eq_ok.mp hc
  exact settles_bind ((settlesWith hcodec _).1 _ (live_opened hadmissible) (Nat.lt_succ_self _)) fun c _ =>
    settles_finish c

/-! Every cursor a caller can hold. -/

/-- A call that returns. -/
inductive Step (codec : Codec) : Cursor → Cursor → Prop
  | peek {c c' : Cursor} (token : Token) : peek codec c = .ok (token, c') → Step codec c c'
  | readNull {c c' : Cursor} : readNull codec c = .ok c' → Step codec c c'
  | readBoolean {c c' : Cursor} (b : Bool) : readBoolean codec c = .ok (b, c') → Step codec c c'
  | readNumber {c c' : Cursor} (x : Bytes) : readNumber codec c = .ok (x, c') → Step codec c c'
  | readString {c c' : Cursor} (v : Bytes) : readString codec c = .ok (v, c') → Step codec c c'
  | start {c c' : Cursor} (kind : Kind) : start codec c kind = .ok c' → Step codec c c'
  | nextKey {c c' : Cursor} (name : Option Bytes) : nextKey codec c = .ok (name, c') → Step codec c c'
  | nextElement {c c' : Cursor} (more : Bool) : nextElement codec c = .ok (more, c') → Step codec c c'
  | selectMember {c c' : Cursor} (name : Bytes) : selectMember c name = .ok c' → Step codec c c'
  | skipValue {c c' : Cursor} (fuel : ℕ) : 2 * (rest c).length < fuel → skipValue codec fuel c = .ok c' →
      Step codec c c'
  | consumed {c c' : Cursor} (before : Mark) : consumed codec c before = .ok c' → Step codec c c'
  | finish {c c' : Cursor} : finish codec c = .ok c' → Step codec c c'

def Reachable (codec : Codec) (c : Cursor) : Prop :=
  ∃ input maxDepth maxTokens limits c₀, reader input maxDepth maxTokens limits = .ok c₀ ∧
    Relation.ReflTransGen (Step codec) c₀ c

theorem live_finishValue {c c' : Cursor} (h : Live c) (hfinish : finishValue codec c = .ok c') : Live c' := by
  cases hframes : c.frames with
  | nil =>
    obtain ⟨-, rfl⟩ := (finishValue_nil hframes h.isOpen h.positive).mp hfinish
    exact ⟨h.isOpen, (h.moved []).positive, h.tokens, h.depth, h.entries⟩
  | cons frame frames =>
    rw [finishValue_cons hframes] at hfinish
    obtain rfl := Except.ok.inj hfinish
    exact h.inside hframes _

theorem live_readScalar {c c' : Cursor} {x r : Bytes} (h : Live c) (hread : ReadScalar codec c x r c') : Live c' :=
  live_finishValue (h.took hread.tokens r) hread.finish

theorem frame_of_next {c : Cursor} {kind : Kind} {x : Bool × Cursor} (h : Live c) (hnext : next codec c kind = .ok x) :
    ∃ frame frames, c.frames = frame :: frames ∧ frame.kind = kind ∧ frame.phase ≠ .value := by
  rw [next, space_eq h.isOpen, ok_bind] at hnext
  cases hframes : c.frames with
  | nil =>
    have hmoved : (moved c (trim (rest c))).frames = [] := hframes
    rw [hmoved] at hnext
    cases hnext
  | cons frame frames =>
    have hmoved : (moved c (trim (rest c))).frames = frame :: frames := hframes
    rw [hmoved] at hnext
    change nextIn codec (moved c (trim (rest c))) frame frames kind = _ at hnext
    rw [nextIn] at hnext
    by_cases hkind : frame.kind = kind
    · by_cases hphase : frame.phase = .value
      · rw [if_neg (not_not.mpr hkind), if_pos hphase] at hnext
        cases hnext
      · exact ⟨frame, frames, rfl, hkind, hphase⟩
    · rw [if_pos hkind] at hnext
      cases hnext

theorem live_closed {c : Cursor} {frame : Frame} {frames : List Frame} (h : Live c)
    (hframes : c.frames = frame :: frames) (r : Bytes) : Live { moved c r with frames := frames } := by
  have hdepth := h.depth
  rw [hframes, List.length_cons] at hdepth
  refine ⟨h.isOpen, (h.moved r).positive, h.tokens, ?_, h.entries⟩
  change (frames.length : ℤ) ≤ c.maxDepth
  omega

theorem live_next {c c' : Cursor} {kind : Kind} {more : Bool} (h : Live c) (hnext : next codec c kind = .ok (more, c')) :
    Live c' := by
  obtain ⟨frame, frames, hframes, hkind, hphase⟩ := frame_of_next h hnext
  cases more with
  | false =>
    obtain ⟨r, -, hfinish⟩ := (next_eq_false h hframes hkind hphase).mp hnext
    exact live_finishValue (live_closed h hframes r) hfinish
  | true =>
    obtain ⟨-, r, -, rfl⟩ := (next_eq_true h hframes hkind hphase).mp hnext
    exact (h.moved r).inside hframes _

theorem live_nextKey {c c' : Cursor} {name : Option Bytes} (hcodec : Decodes codec) (h : Live c)
    (hnext : nextKey codec c = .ok (name, c')) : Live c' := by
  obtain ⟨x, hstep, -⟩ := bind_eq_ok.mp hnext
  obtain ⟨frame, frames, hframes, hkind, hphase⟩ := frame_of_next h hstep
  cases name with
  | none =>
    obtain ⟨r, -, hfinish⟩ := (nextKey_eq_none h hframes hkind hphase).mp hnext
    exact live_finishValue (live_closed h hframes r) hfinish
  | some name =>
    obtain ⟨-, x, m, r, -, -, -, -, -, -, rfl⟩ := (nextKey_eq_some hcodec h hframes hkind hphase).mp hnext
    exact (h.moved r).inside hframes _

/-- No call but the bookkeeping ones returns once the cursor is closed. -/
theorem step_live (hcodec : Decodes codec) {c c' : Cursor} (hstep : Step codec c c') (h : c.closed = true ∨ Live c) :
    c'.closed = true ∨ Live c' := by
  have hbegin : ∀ {c c₁ : Cursor}, beginValue codec c = .ok c₁ → c.closed = false := by
    intro c c₁ hok
    obtain ⟨c₂, hspace, -⟩ := bind_eq_ok.mp hok
    exact closed_of_space hspace
  have hlive : c.closed = false → Live c := by
    intro hopen
    rcases h with h | h
    · rw [hopen] at h
      cases h
    · exact h
  cases hstep with
  | peek token hok =>
    obtain ⟨c₂, hspace, -⟩ := bind_eq_ok.mp hok
    have hc := hlive (closed_of_space hspace)
    obtain ⟨-, rfl⟩ := (peek_eq_ok hc).mp hok
    exact .inr (hc.moved _)
  | readNull hok =>
    obtain ⟨c₂, hspace, -⟩ := bind_eq_ok.mp hok
    have hc := hlive (hbegin hspace)
    obtain ⟨r, hread⟩ := (readNull_eq_ok hc).mp hok
    exact .inr (live_readScalar hc hread)
  | readBoolean b hok =>
    obtain ⟨c₂, hspace, -⟩ := bind_eq_ok.mp hok
    have hc := hlive (closed_of_space hspace)
    obtain ⟨r, hread⟩ := (readBoolean_eq_ok hc).mp hok
    exact .inr (live_readScalar hc hread)
  | readNumber x hok =>
    obtain ⟨c₂, hspace, -⟩ := bind_eq_ok.mp hok
    have hc := hlive (hbegin hspace)
    obtain ⟨r, hread, -⟩ := (readNumber_eq_ok hc).mp hok
    exact .inr (live_readScalar hc hread)
  | readString v hok =>
    obtain ⟨c₂, hspace, -⟩ := bind_eq_ok.mp hok
    have hc := hlive (hbegin hspace)
    obtain ⟨x, r, hread, -⟩ := (readString_eq_ok hcodec hc).mp hok
    exact .inr (live_readScalar hc hread)
  | start kind hok =>
    obtain ⟨c₂, hspace, -⟩ := bind_eq_ok.mp hok
    exact .inr (start_step (hlive (hbegin hspace)) hok).1
  | nextKey name hok =>
    obtain ⟨c₂, hnext, -⟩ := bind_eq_ok.mp hok
    obtain ⟨c₃, hspace, -⟩ := bind_eq_ok.mp hnext
    exact .inr (live_nextKey hcodec (hlive (closed_of_space hspace)) hok)
  | nextElement more hok =>
    obtain ⟨c₃, hspace, -⟩ := bind_eq_ok.mp hok
    exact .inr (live_next (hlive (closed_of_space hspace)) hok)
  | selectMember name hok =>
    rw [selectMember] at hok
    cases hframes : c.frames with
    | nil =>
      rw [hframes] at hok
      cases hok
    | cons frame frames =>
      rw [hframes] at hok
      simp only at hok
      split_ifs at hok with hkind
      obtain rfl := Except.ok.inj hok
      rcases h with h | h
      · exact .inl h
      · exact .inr (h.inside hframes _)
  | skipValue fuel hfuel hok =>
    cases fuel with
    | zero => cases hok
    | succ fuel =>
      have hopen : c.closed = false := by
        rw [skipValue] at hok
        obtain ⟨c₂, hpeek, -⟩ := bind_eq_ok.mp hok
        obtain ⟨c₃, hspace, -⟩ := bind_eq_ok.mp hpeek
        exact closed_of_space hspace
      have hc := hlive hopen
      obtain ⟨t, r, hread⟩ := ((skips hcodec _).1 hc hfuel).mp hok
      exact .inr (live_finishValue (hc.took hread.fits.tokens r) hread.finish)
  | consumed before hok =>
    rw [consumed] at hok
    split_ifs at hok with hconsumed
    · cases hok
    · obtain rfl := Except.ok.inj hok
      exact h
  | finish hok =>
    obtain ⟨c₂, -, hok⟩ := bind_eq_ok.mp hok
    split_ifs at hok with hroot hend
    · cases hok
    · cases hok
    · obtain rfl := Except.ok.inj hok
      exact .inl rfl

theorem reachable_live (hcodec : Decodes codec) {c : Cursor} (h : Reachable codec c) : c.closed = true ∨ Live c := by
  obtain ⟨input, maxDepth, maxTokens, limits, c₀, hreader, hsteps⟩ := h
  obtain ⟨hadmissible, rfl⟩ := reader_eq_ok.mp hreader
  induction hsteps with
  | refl => exact .inr (live_opened hadmissible)
  | tail _ hstep ih => exact step_live hcodec hstep ih

/-- A client ends as `skipValue` does, from whatever cursor. -/
theorem client_eq_skipValue (hcodec : Decodes codec) {c : Cursor} {r : Except Raised Cursor} (h : Reachable codec c)
    (hclient : Client codec c r) {n : ℕ} (hfuel : 2 * (rest c).length < n) : skipValue codec n c = r := by
  rcases reachable_live hcodec h with hclosed | hlive
  · have hpeek : ∀ x, peek codec c ≠ .ok x := by
      intro x hok
      obtain ⟨c₂, hspace, -⟩ := bind_eq_ok.mp hok
      rw [closed_of_space hspace] at hclosed
      cases hclosed
    cases n with
    | zero => omega
    | succ n =>
      cases hclient with
      | refused hrefused =>
        rw [skipValue, hrefused]
        rfl
      | peek hok _ => exact absurd hok (hpeek _)
      | readNull hnext => exact absurd hnext.choose_spec (hpeek _)
      | readBoolean hnext => exact absurd hnext.choose_spec (hpeek _)
      | readNumber hnext => exact absurd hnext.choose_spec (hpeek _)
      | readString hnext => exact absurd hnext.choose_spec (hpeek _)
      | objectFails hnext _ => exact absurd hnext.choose_spec (hpeek _)
      | arrayFails hnext _ => exact absurd hnext.choose_spec (hpeek _)
      | object hnext _ _ => exact absurd hnext.choose_spec (hpeek _)
      | array hnext _ _ => exact absurd hnext.choose_spec (hpeek _)
  · exact hclient.eq_skipValue hcodec hlive hfuel

/-- The cursor accepts the documents whose objects repeat no name, within the bounds, and raises for every other
text; a client that follows the tokens ends as `skipValue` does. -/
theorem accepts_json (hcodec : Decodes codec) :
    (∀ input maxDepth maxTokens limits,
      ((∃ c, accept codec input maxDepth maxTokens limits = .ok c) ↔
        Admissible input (maxDepth.getD 128) (maxTokens.getD 1000000) (limits.getD {}) ∧
          ∃ t, Document t input ∧ t.All (Distinct codec) ∧ (t.depth : ℤ) ≤ maxDepth.getD 128 ∧
            (t.count : ℤ) ≤ maxTokens.getD 1000000 ∧ t.All (Within (limits.getD {}))) ∧
      accept codec input maxDepth maxTokens limits ≠ .error .outOfFuel) ∧
    ∀ c r, Reachable codec c → Client codec c r → ∀ n, 2 * (rest c).length < n → skipValue codec n c = r :=
  ⟨fun input maxDepth maxTokens limits =>
    ⟨accept_iff hcodec input maxDepth maxTokens limits, accept_settles hcodec input maxDepth maxTokens limits⟩,
    fun _ _ hreachable hclient _ hfuel => client_eq_skipValue hcodec hreachable hclient hfuel⟩

/-- A codec that reads string literals, and quotes without escapes. -/
def literalCodec : Codec where
  decode x := (decodeLiteral x, none)
  encode x := 34 :: (x ++ [34])

theorem literalCodec_decodes : Decodes literalCodec := decodeLiteral_isSome

/-- The text `[null]`. -/
theorem accepts_null_in_array : ∃ c, accept literalCodec [91, 110, 117, 108, 108, 93] none none none = .ok c := by
  refine ((accepts_json literalCodec_decodes).1 [91, 110, 117, 108, 108, 93] none none none).1.mpr
    ⟨⟨by decide, by decide, by decide, by decide, by decide, by decide⟩, .array (.cons .null .nil),
      ⟨_, [], blank_refl _, ?_, blank_refl []⟩, ?_, by decide, by decide, ?_⟩
  · exact .array .null .nil _ _ [93] [] (blank_refl _) (.null [93]) (.close [93] [] (blank_refl _))
  · exact ⟨trivial, trivial, trivial⟩
  · refine ⟨?_, ?_, trivial⟩
    · change ((1 : ℕ) : ℤ) ≤ 1000000
      decide
    · change ((4 : ℕ) : ℤ) ≤ 16777216
      decide

end Nupp.JsonCursor
