import Nupp.Serde.CursorCorrect

/-! Clients of the cursor: enough fuel always settles a run, and whoever calls what the tokens dictate ends where
`skipValue` ends. -/

namespace Nupp.JsonCursor

open Json Result

variable {codec : Codec} {α β : Type}

/-! Runs that do not stop for want of fuel. -/

def Settles (x : Except Raised α) : Prop := x ≠ .error .outOfFuel

theorem settles_ok (a : α) : Settles (.ok a) := nofun

theorem settles_fail (c : Cursor) (message : Bytes) (code : Code) : Settles (fail (α := α) codec c message code) :=
  nofun

theorem settles_bind {x : Except Raised α} {f : α → Except Raised β} (hx : Settles x)
    (hf : ∀ a, x = .ok a → Settles (f a)) : Settles (x >>= f) := by
  cases x with
  | error e => exact fun h => hx (by rw [error_bind] at h; cases h; rfl)
  | ok a => exact hf a rfl

theorem settles_if {p : Prop} [Decidable p] {x y : Except Raised α} (hx : Settles x) (hy : Settles y) :
    Settles (if p then x else y) := by
  split_ifs
  · exact hx
  · exact hy

theorem settles_space (c : Cursor) : Settles (space codec c) := settles_if (settles_fail _ _ _) (settles_ok _)

theorem settles_peek (c : Cursor) : Settles (peek codec c) := by
  refine settles_bind (settles_space c) fun c _ => ?_
  cases token (byteAt c.input c.position) with
  | none => exact settles_fail _ _ _
  | some token => exact settles_ok _

theorem settles_expectValue (c : Cursor) : Settles (expectValue codec c) := by
  rw [expectValue]
  cases c.frames with
  | nil => exact settles_if (settles_fail _ _ _) (settles_ok _)
  | cons frame frames => exact settles_if (settles_ok _) (by rintro ⟨⟩)

theorem settles_beginValue (c : Cursor) : Settles (beginValue codec c) :=
  settles_bind (settles_space c) fun c _ =>
    settles_bind (settles_expectValue c) fun _ _ => settles_if (settles_fail _ _ _) (settles_ok _)

theorem settles_finishValue (c : Cursor) : Settles (finishValue codec c) := by
  rw [finishValue]
  cases c.frames with
  | nil => exact settles_bind (settles_space _) fun c _ => settles_if (settles_fail _ _ _) (settles_ok _)
  | cons frame frames => exact settles_ok _

theorem settles_endScalar (c : Cursor) : Settles (endScalar codec c) :=
  settles_if (settles_fail _ _ _) (settles_finishValue c)

theorem settles_literal (c : Cursor) (word : Bytes) : Settles (literal codec c word) :=
  settles_bind (settles_beginValue c) fun _ _ =>
    settles_if (settles_fail _ _ _) (settles_if (settles_fail _ _ _) (settles_endScalar _))

theorem settles_readBoolean (c : Cursor) : Settles (readBoolean codec c) :=
  settles_bind (settles_space c) fun c _ =>
    settles_if (settles_bind (settles_literal c _) fun _ _ => settles_ok _)
      (settles_bind (settles_literal c _) fun _ _ => settles_ok _)

theorem settles_stringToken (c : Cursor) : Settles (stringToken codec c) := by
  refine settles_bind (settles_space c) fun c _ => settles_if (settles_fail _ _ _) ?_
  cases scanString c.limits.tokenBytes c.position (suffixAt c.input (c.position + 1)) (c.position + 1) with
  | tooLong => exact settles_fail _ _ _
  | unterminated => exact settles_fail _ _ _
  | closed position =>
    simp only
    cases codec.decode (sub c.input c.position position) with
    | mk value message =>
      cases value with
      | none => exact settles_fail _ _ _
      | some value => exact settles_ok _

theorem settles_readString (c : Cursor) : Settles (readString codec c) :=
  settles_bind (settles_beginValue c) fun c _ =>
    settles_bind (settles_stringToken c) fun _ _ => settles_bind (settles_endScalar _) fun _ _ => settles_ok _

theorem settles_integerEnd (c : Cursor) (position : ℕ) : Settles (integerEnd codec c position) := by
  rw [integerEnd]
  cases byteAt c.input position with
  | none => exact settles_fail _ _ _
  | some byte => exact settles_if (settles_ok _) (settles_if (settles_ok _) (settles_fail _ _ _))

theorem settles_readNumber (c : Cursor) : Settles (readNumber codec c) := by
  have hnumber : ∀ (c : Cursor) start, Settles (numberEnd codec c start) := fun c start =>
    settles_bind (settles_integerEnd c _) fun _ _ =>
      settles_bind (settles_if (settles_if (settles_fail _ _ _) (settles_ok _)) (settles_ok _)) fun _ _ =>
        settles_if (settles_if (settles_fail _ _ _) (settles_ok _)) (settles_ok _)
  exact settles_bind (settles_beginValue c) fun c _ => settles_bind (hnumber c _) fun _ _ =>
    settles_if (settles_fail _ _ _) (settles_bind (settles_endScalar _) fun _ _ => settles_ok _)

theorem settles_start (c : Cursor) (kind : Kind) : Settles (start codec c kind) :=
  settles_bind (settles_beginValue c) fun _ _ =>
    settles_if (settles_fail _ _ _) (settles_if (settles_fail _ _ _) (settles_ok _))

theorem settles_next (c : Cursor) (kind : Kind) : Settles (next codec c kind) := by
  have hseparator : ∀ (c : Cursor) frame frames, Settles (separator codec c frame frames kind) :=
    fun c frame frames => settles_if (settles_if (settles_fail _ _ _)
      (settles_bind (settles_space _) fun _ _ => settles_if (settles_fail _ _ _) (settles_ok _))) (settles_ok _)
  refine settles_bind (settles_space c) fun c _ => ?_
  cases c.frames with
  | nil => exact settles_fail _ _ _
  | cons frame frames =>
    refine settles_if (settles_fail _ _ _) (settles_if nofun (settles_if ?_ ?_))
    · exact settles_bind (settles_finishValue _) fun _ _ => settles_ok _
    · exact settles_bind (hseparator _ _ _) fun _ _ => settles_if (settles_fail _ _ _) (settles_ok _)

theorem settles_nextKey (c : Cursor) : Settles (nextKey codec c) := by
  refine settles_bind (settles_next c .object) fun x _ => ?_
  have henter : ∀ (c : Cursor) name, Settles (enterName codec c name) := by
    intro c name
    rw [enterName]
    cases c.frames with
    | nil => rintro ⟨⟩
    | cons frame frames => exact settles_if (settles_fail _ _ _) (settles_ok _)
  obtain ⟨more, c⟩ := x
  cases more with
  | false => exact settles_ok _
  | true =>
    exact settles_bind (settles_stringToken c) fun _ _ => settles_bind (henter _ _) fun _ _ =>
      settles_bind (settles_space _) fun _ _ => settles_if (settles_fail _ _ _) (settles_ok _)

theorem settles_finish (c : Cursor) : Settles (finish codec c) :=
  settles_bind (settles_space c) fun _ _ =>
    settles_if (settles_fail _ _ _) (settles_if (settles_fail _ _ _) (settles_ok _))

/-! The loops of `skipValue`, one step at a time. -/

/-- One more element: what the next steps of the loop start from. -/
theorem element_step {c c₁ c₂ : Cursor} {frame : Frame} {frames : List Frame} {n : ℕ} (hcodec : Decodes codec)
    (h : Live c) (hframes : c.frames = frame :: frames) (hkind : frame.kind = .array) (hphase : frame.phase ≠ .value)
    (hnext : nextElement codec c = .ok (true, c₁)) :
    Live c₁ ∧ (rest c₁).length ≤ (rest c).length ∧
      (2 * (rest c₁).length < n → skipValue codec n c₁ = .ok c₂ →
        Live c₂ ∧ (∃ frame', c₂.frames = frame' :: frames ∧ frame'.kind = .array ∧ frame'.phase ≠ .value) ∧
          (rest c₂).length + 1 ≤ (rest c).length) := by
  obtain ⟨-, l₁, hleads, rfl⟩ := (next_eq_true h hframes hkind hphase).mp hnext
  have hlive := h.inside hframes (readied frame)
  have hl₁ : l₁ <:+ rest c := hleads.suffix.trans (trim_suffix _)
  have hrest : rest (moved (inside c (readied frame :: frames)) l₁) = l₁ := rest_moved h.positive hl₁
  have hlength := hl₁.length_le
  refine ⟨hlive.moved l₁, hrest.symm ▸ hlength, ?_⟩
  intro hfuel hskip
  obtain ⟨t, l₂, hread⟩ := ((skips hcodec n).1 (hlive.moved l₁) hfuel).mp hskip
  obtain ⟨ht, -, hfits, rfl⟩ := (reads_inside hlive rfl rfl hl₁).mp hread
  have hlength' := ht.after.2.trans_le (trim_suffix l₁).length_le
  have hl₂ : l₂ <:+ rest c := ht.after.1.trans ((trim_suffix l₁).trans hl₁)
  have hpast : rest (past c t l₂ (readied frame) frames) = l₂ := rest_past h.positive hl₂
  refine ⟨live_past h hframes ((fits_inside hframes _).mp hfits) l₂ (readied frame),
    ⟨_, rfl, hkind, Phase.noConfusion⟩, ?_⟩
  change (rest (past c t l₂ (readied frame) frames)).length + 1 ≤ (rest c).length
  rw [hpast]
  omega

/-- One more member. -/
theorem member_step {c c₁ c₂ : Cursor} {frame : Frame} {frames : List Frame} {name : Bytes} {n : ℕ}
    (hcodec : Decodes codec) (h : Live c) (hframes : c.frames = frame :: frames) (hkind : frame.kind = .object)
    (hphase : frame.phase ≠ .value) (hnext : nextKey codec c = .ok (some name, c₁)) :
    Live c₁ ∧ (rest c₁).length ≤ (rest c).length ∧
      (2 * (rest c₁).length < n → skipValue codec n c₁ = .ok c₂ →
        Live c₂ ∧ (∃ frame', c₂.frames = frame' :: frames ∧ frame'.kind = .object ∧ frame'.phase ≠ .value) ∧
          (rest c₂).length + 1 ≤ (rest c).length) := by
  obtain ⟨-, x, m, m', hleads, -, -, -, -, hm, rfl⟩ := (nextKey_eq_some hcodec h hframes hkind hphase).mp hnext
  have hlive := h.inside hframes (named frame name)
  have hm' : m' <:+ rest c := by
    have hm'' : m' <:+ m := (hm ▸ List.suffix_cons 58 m' : m' <:+ trim m).trans (trim_suffix m)
    exact hm''.trans ((List.suffix_append x m).trans (hleads.suffix.trans (trim_suffix _)))
  have hrest : rest (moved (inside c (named frame name :: frames)) m') = m' := rest_moved h.positive hm'
  have hlength := hm'.length_le
  refine ⟨hlive.moved m', hrest.symm ▸ hlength, ?_⟩
  intro hfuel hskip
  obtain ⟨t, l₂, hread⟩ := ((skips hcodec n).1 (hlive.moved m') hfuel).mp hskip
  obtain ⟨ht, -, hfits, rfl⟩ := (reads_inside hlive rfl rfl hm').mp hread
  have hlength' := ht.after.2.trans_le (trim_suffix m').length_le
  have hl₂ : l₂ <:+ rest c := ht.after.1.trans ((trim_suffix m').trans hm')
  have hpast : rest (past c t l₂ (named frame name) frames) = l₂ := rest_past h.positive hl₂
  refine ⟨live_past h hframes ((fits_inside hframes _).mp hfits) l₂ (named frame name),
    ⟨_, rfl, hkind, Phase.noConfusion⟩, ?_⟩
  change (rest (past c t l₂ (named frame name) frames)).length + 1 ≤ (rest c).length
  rw [hpast]
  omega

/-- The inside of a container that was just entered. -/
theorem start_step {c c₁ : Cursor} {kind : Kind} (h : Live c) (hstart : start codec c kind = .ok c₁) :
    Live c₁ ∧ (rest c₁).length + 1 ≤ (rest c).length ∧ c₁.frames = freshFrame kind :: c.frames := by
  obtain ⟨-, htokens, hdepth, l, hl, rfl⟩ := (start_eq_ok h).mp hstart
  exact ⟨live_entered h htokens hdepth kind l, length_entered kind h.positive hl, rfl⟩

/-! Enough fuel settles every run. -/

def SettlesWith (codec : Codec) (n : ℕ) : Prop :=
  (∀ c, Live c → 2 * (rest c).length < n → Settles (skipValue codec n c)) ∧
  (∀ c frame frames, Live c → c.frames = frame :: frames → frame.kind = .array → frame.phase ≠ .value →
    2 * (rest c).length + 1 < n → Settles (skipElements codec n c)) ∧
  (∀ c frame frames, Live c → c.frames = frame :: frames → frame.kind = .object → frame.phase ≠ .value →
    2 * (rest c).length + 1 < n → Settles (skipMembers codec n c))

theorem settlesWith (hcodec : Decodes codec) (n : ℕ) : SettlesWith codec n := by
  induction n with
  | zero =>
    refine ⟨?_, ?_, ?_⟩
    · intro c h hfuel
      omega
    · intro c frame frames h hframes hkind hphase hfuel
      omega
    · intro c frame frames h hframes hkind hphase hfuel
      omega
  | succ n ih =>
    obtain ⟨hvalue, helements, hmembers⟩ := ih
    refine ⟨?_, ?_, ?_⟩
    · intro c h hfuel
      rw [skipValue_succ n h]
      cases token (trim (rest c)).head? with
      | none => exact settles_fail _ _ _
      | some token =>
        cases token with
        | null => exact settles_literal c _
        | boolean => exact settles_bind (settles_readBoolean c) fun _ _ => settles_ok _
        | number => exact settles_bind (settles_readNumber c) fun _ _ => settles_ok _
        | string => exact settles_bind (settles_readString c) fun _ _ => settles_ok _
        | object =>
          refine settles_bind (settles_start c .object) fun c₁ hstart => ?_
          obtain ⟨hlive, hlength, hframes⟩ := start_step h hstart
          exact hmembers c₁ _ _ hlive hframes rfl (by decide) (by omega)
        | array =>
          refine settles_bind (settles_start c .array) fun c₁ hstart => ?_
          obtain ⟨hlive, hlength, hframes⟩ := start_step h hstart
          exact helements c₁ _ _ hlive hframes rfl (by decide) (by omega)
    · intro c frame frames h hframes hkind hphase hfuel
      rw [skipElements]
      refine settles_bind (settles_next c .array) fun x hnext => ?_
      obtain ⟨more, c₁⟩ := x
      cases more with
      | false => exact settles_ok _
      | true =>
        have hstep := fun c₂ => @element_step codec c c₁ c₂ frame frames n hcodec h hframes hkind hphase hnext
        obtain ⟨hlive, hlength, -⟩ := hstep c₁
        refine settles_bind (hvalue c₁ hlive (by omega)) fun c₂ hskip => ?_
        obtain ⟨hlive₂, ⟨frame', hframes', hkind', hphase'⟩, hlength₂⟩ := (hstep c₂).2.2 (by omega) hskip
        exact helements c₂ frame' frames hlive₂ hframes' hkind' hphase' (by omega)
    · intro c frame frames h hframes hkind hphase hfuel
      rw [skipMembers]
      refine settles_bind (settles_nextKey c) fun x hnext => ?_
      obtain ⟨name?, c₁⟩ := x
      cases name? with
      | none => exact settles_ok _
      | some name =>
        have hstep := fun c₂ => @member_step codec c c₁ c₂ frame frames name n hcodec h hframes hkind hphase hnext
        obtain ⟨hlive, hlength, -⟩ := hstep c₁
        refine settles_bind (hvalue c₁ hlive (by omega)) fun c₂ hskip => ?_
        obtain ⟨hlive₂, ⟨frame', hframes', hkind', hphase'⟩, hlength₂⟩ := (hstep c₂).2.2 (by omega) hskip
        exact hmembers c₂ frame' frames hlive₂ hframes' hkind' hphase' (by omega)

/-! Clients. -/

/-- The token that comes next. -/
def Dictates (codec : Codec) (c : Cursor) (token : Token) : Prop := ∃ c', peek codec c = .ok (token, c')

mutual
/-- A client that is to consume one value: it may look at the token, calls what the token dictates, and ends with
the cursor after the value or with what a call raised. -/
inductive Client (codec : Codec) : Cursor → Except Raised Cursor → Prop
  | peek {c c' : Cursor} {token : Token} {r : Except Raised Cursor} : peek codec c = .ok (token, c') →
      Client codec c' r → Client codec c r
  | refused {c : Cursor} {e : Raised} : peek codec c = .error e → Client codec c (.error e)
  | readNull {c : Cursor} : Dictates codec c .null → Client codec c (readNull codec c)
  | readBoolean {c : Cursor} : Dictates codec c .boolean → Client codec c ((readBoolean codec c).map (·.2))
  | readNumber {c : Cursor} : Dictates codec c .number → Client codec c ((readNumber codec c).map (·.2))
  | readString {c : Cursor} : Dictates codec c .string → Client codec c ((readString codec c).map (·.2))
  | objectFails {c : Cursor} {e : Raised} : Dictates codec c .object → start codec c .object = .error e →
      Client codec c (.error e)
  | arrayFails {c : Cursor} {e : Raised} : Dictates codec c .array → start codec c .array = .error e →
      Client codec c (.error e)
  | object {c c' : Cursor} {r : Except Raised Cursor} : Dictates codec c .object → start codec c .object = .ok c' →
      MemberClient codec c' r → Client codec c r
  | array {c c' : Cursor} {r : Except Raised Cursor} : Dictates codec c .array → start codec c .array = .ok c' →
      ElementClient codec c' r → Client codec c r

/-- The same inside an object, to its end. -/
inductive MemberClient (codec : Codec) : Cursor → Except Raised Cursor → Prop
  | fails {c : Cursor} {e : Raised} : nextKey codec c = .error e → MemberClient codec c (.error e)
  | done {c c' : Cursor} : nextKey codec c = .ok (none, c') → MemberClient codec c (.ok c')
  | valueFails {c : Cursor} (c' : Cursor) {name : Bytes} {e : Raised} : nextKey codec c = .ok (some name, c') →
      Client codec c' (.error e) → MemberClient codec c (.error e)
  | value {c : Cursor} (c' c'' : Cursor) {name : Bytes} {r : Except Raised Cursor} : nextKey codec c = .ok (some name, c') →
      Client codec c' (.ok c'') → MemberClient codec c'' r → MemberClient codec c r

/-- The same inside an array. -/
inductive ElementClient (codec : Codec) : Cursor → Except Raised Cursor → Prop
  | fails {c : Cursor} {e : Raised} : nextElement codec c = .error e → ElementClient codec c (.error e)
  | done {c c' : Cursor} : nextElement codec c = .ok (false, c') → ElementClient codec c (.ok c')
  | valueFails {c : Cursor} (c' : Cursor) {e : Raised} : nextElement codec c = .ok (true, c') →
      Client codec c' (.error e) → ElementClient codec c (.error e)
  | value {c : Cursor} (c' c'' : Cursor) {r : Except Raised Cursor} : nextElement codec c = .ok (true, c') →
      Client codec c' (.ok c'') → ElementClient codec c'' r → ElementClient codec c r
end

theorem peek_eq_ok {c c' : Cursor} {t : Token} (h : Live c) :
    peek codec c = .ok (t, c') ↔ token (trim (rest c)).head? = some t ∧ c' = moved c (trim (rest c)) := by
  rw [peek_eq h]
  cases token (trim (rest c)).head? with
  | none => simp [fail]
  | some t' => simp [eq_comm]

theorem dictates_iff {c : Cursor} {t : Token} (h : Live c) :
    Dictates codec c t ↔ token (trim (rest c)).head? = some t := by
  simp only [Dictates, peek_eq_ok h, exists_and_left, exists_eq, and_true]

theorem skipValue_trimmed {c : Cursor} (h : Live c) (n : ℕ) :
    skipValue codec n (moved c (trim (rest c))) = skipValue codec n c := by
  cases n with
  | zero => rfl
  | succ n =>
    have hpeek : peek codec (moved c (trim (rest c))) = peek codec c := by
      rw [peek, space_trimmed h.isOpen h.positive]
      rfl
    rw [skipValue, skipValue, hpeek]

theorem map_snd_eq {α : Type} (x : Except Raised (α × Cursor)) :
    x.map (·.2) = (do
      let (_, c) ← x
      return c) := by
  cases x <;> rfl

mutual
theorem Client.eq_skipValue (hcodec : Decodes codec) {c : Cursor} {r : Except Raised Cursor} :
    Client codec c r → Live c → ∀ {n}, 2 * (rest c).length < n → skipValue codec n c = r
  | .peek hpeek hclient, h, n, hfuel => by
    obtain ⟨-, hc'⟩ := (peek_eq_ok h).mp hpeek
    have hlength := (trim_suffix (rest c)).length_le
    have hskip := hclient.eq_skipValue hcodec (hc' ▸ h.moved _)
      (show 2 * _ < n by rw [hc', rest_trimmed h.positive]; omega)
    rw [hc', skipValue_trimmed h] at hskip
    exact hskip
  | .refused hpeek, h, n + 1, hfuel => by
    rw [skipValue, hpeek]
    rfl
  | .readNull hnext, h, n + 1, hfuel => by
    rw [skipValue_succ n h, (dictates_iff h).mp hnext]
  | .readBoolean hnext, h, n + 1, hfuel => by
    rw [skipValue_succ n h, (dictates_iff h).mp hnext, map_snd_eq]
  | .readNumber hnext, h, n + 1, hfuel => by
    rw [skipValue_succ n h, (dictates_iff h).mp hnext, map_snd_eq]
  | .readString hnext, h, n + 1, hfuel => by
    rw [skipValue_succ n h, (dictates_iff h).mp hnext, map_snd_eq]
  | .objectFails hnext hstart, h, n + 1, hfuel => by
    rw [skipValue_succ n h, (dictates_iff h).mp hnext]
    simp only [hstart, error_bind]
  | .arrayFails hnext hstart, h, n + 1, hfuel => by
    rw [skipValue_succ n h, (dictates_iff h).mp hnext]
    simp only [hstart, error_bind]
  | .object hnext hstart hclient, h, n + 1, hfuel => by
    obtain ⟨hlive, hlength, hframes⟩ := start_step h hstart
    rw [skipValue_succ n h, (dictates_iff h).mp hnext]
    simp only [hstart, ok_bind]
    exact hclient.eq_skipMembers hcodec hlive hframes rfl (by decide) (by omega)
  | .array hnext hstart hclient, h, n + 1, hfuel => by
    obtain ⟨hlive, hlength, hframes⟩ := start_step h hstart
    rw [skipValue_succ n h, (dictates_iff h).mp hnext]
    simp only [hstart, ok_bind]
    exact hclient.eq_skipElements hcodec hlive hframes rfl (by decide) (by omega)

theorem MemberClient.eq_skipMembers (hcodec : Decodes codec) {c : Cursor} {r : Except Raised Cursor} {frame : Frame}
    {frames : List Frame} : MemberClient codec c r → Live c → c.frames = frame :: frames → frame.kind = .object →
    frame.phase ≠ .value → ∀ {n}, 2 * (rest c).length + 1 < n → skipMembers codec n c = r
  | .fails hnext, h, hframes, hkind, hphase, n + 1, hfuel => by
    rw [skipMembers, hnext, error_bind]
  | .done hnext, h, hframes, hkind, hphase, n + 1, hfuel => by
    rw [skipMembers, hnext]
    rfl
  | .valueFails c' hnext hclient, h, hframes, hkind, hphase, n + 1, hfuel => by
    obtain ⟨hlive, hlength, -⟩ := @member_step codec c c' c' frame frames _ n hcodec h hframes hkind hphase hnext
    rw [skipMembers, hnext]
    simp only [ok_bind, hclient.eq_skipValue hcodec hlive (show 2 * _ < n by omega), error_bind]
  | .value c' c'' hnext hclient hrest, h, hframes, hkind, hphase, n + 1, hfuel => by
    obtain ⟨hlive, hlength, hstep⟩ := @member_step codec c c' c'' frame frames _ n hcodec h hframes hkind hphase hnext
    have hskip := hclient.eq_skipValue hcodec hlive (show 2 * _ < n by omega)
    obtain ⟨hlive₂, ⟨frame', hframes', hkind', hphase'⟩, hlength₂⟩ := hstep (by omega) hskip
    rw [skipMembers, hnext]
    simp only [ok_bind, hskip]
    exact hrest.eq_skipMembers hcodec hlive₂ hframes' hkind' hphase' (by omega)

theorem ElementClient.eq_skipElements (hcodec : Decodes codec) {c : Cursor} {r : Except Raised Cursor}
    {frame : Frame} {frames : List Frame} : ElementClient codec c r → Live c → c.frames = frame :: frames →
    frame.kind = .array → frame.phase ≠ .value → ∀ {n}, 2 * (rest c).length + 1 < n → skipElements codec n c = r
  | .fails hnext, h, hframes, hkind, hphase, n + 1, hfuel => by
    rw [skipElements, hnext, error_bind]
  | .done hnext, h, hframes, hkind, hphase, n + 1, hfuel => by
    rw [skipElements, hnext]
    rfl
  | .valueFails c' hnext hclient, h, hframes, hkind, hphase, n + 1, hfuel => by
    obtain ⟨hlive, hlength, -⟩ := @element_step codec c c' c' frame frames n hcodec h hframes hkind hphase hnext
    rw [skipElements, hnext]
    simp only [ok_bind, if_true, hclient.eq_skipValue hcodec hlive (show 2 * _ < n by omega), error_bind]
  | .value c' c'' hnext hclient hrest, h, hframes, hkind, hphase, n + 1, hfuel => by
    obtain ⟨hlive, hlength, hstep⟩ := @element_step codec c c' c'' frame frames n hcodec h hframes hkind hphase hnext
    have hskip := hclient.eq_skipValue hcodec hlive (show 2 * _ < n by omega)
    obtain ⟨hlive₂, ⟨frame', hframes', hkind', hphase'⟩, hlength₂⟩ := hstep (by omega) hskip
    rw [skipElements, hnext]
    simp only [ok_bind, if_true, hskip]
    exact hrest.eq_skipElements hcodec hlive₂ hframes' hkind' hphase' (by omega)
end

end Nupp.JsonCursor
