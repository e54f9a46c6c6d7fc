import Nupp.Serde.CursorSteps

/-! The cursor accepts the JSON documents within its bounds, and every client that follows the tokens ends where
`skipValue` ends. -/

namespace Nupp.JsonCursor

open Json Result

/-! What the cursor asks of a value. -/

/-- No object repeats a decoded name. -/
def Distinct (codec : Codec) : Tree → Prop
  | .object members => (members.names.map fun x => (codec.decode x).1).Nodup
  | _ => True

/-- The sizes of tokens and containers. -/
def Within (limits : Limits) : Tree → Prop
  | .null => (nullText.length : ℤ) ≤ limits.tokenBytes
  | .boolean b => ((booleanText b).length : ℤ) ≤ limits.tokenBytes
  | .number x => (x.length : ℤ) ≤ limits.tokenBytes
  | .string x => (x.length : ℤ) ≤ limits.tokenBytes
  | .array items => (items.length : ℤ) ≤ limits.aggregateEntries
  | .object members =>
    (members.length : ℤ) ≤ limits.aggregateEntries ∧ ∀ x ∈ members.names, (x.length : ℤ) ≤ limits.tokenBytes

def Allowed (codec : Codec) (limits : Limits) (t : Tree) : Prop := Distinct codec t ∧ Within limits t

/-- The bounds on a value that starts at the cursor. -/
structure Fits (codec : Codec) (c : Cursor) (t : Tree) : Prop where
  tokens : ((c.tokens + t.count : ℕ) : ℤ) ≤ c.maxTokens
  depth : ((c.frames.length + t.depth : ℕ) : ℤ) ≤ c.maxDepth
  allowed : t.All (Allowed codec c.limits)

/-- The bounds on the elements that an open array still takes. -/
structure FitsItems (codec : Codec) (c : Cursor) (frame : Frame) (items : Items) : Prop where
  tokens : ((c.tokens + items.count : ℕ) : ℤ) ≤ c.maxTokens
  depth : ((c.frames.length + items.depth : ℕ) : ℤ) ≤ c.maxDepth
  entries : items.length ≠ 0 → ((frame.count + items.length : ℕ) : ℤ) ≤ c.limits.aggregateEntries
  allowed : items.All (Allowed codec c.limits)

/-- The bounds on the members that an open object still takes. -/
structure FitsMembers (codec : Codec) (c : Cursor) (frame : Frame) (members : Members) : Prop where
  tokens : ((c.tokens + members.count : ℕ) : ℤ) ≤ c.maxTokens
  depth : ((c.frames.length + members.depth : ℕ) : ℤ) ≤ c.maxDepth
  entries : members.length ≠ 0 → ((frame.count + members.length : ℕ) : ℤ) ≤ c.limits.aggregateEntries
  sizes : ∀ x ∈ members.names, (x.length : ℤ) ≤ c.limits.tokenBytes
  distinct : (members.names.map fun x => (codec.decode x).1).Nodup
  fresh : ∀ x ∈ members.names, ∀ name ∈ (codec.decode x).1, name ∉ frame.names
  allowed : members.All (Allowed codec c.limits)

/-- A scalar ends at a boundary. -/
def Ends : Tree → Bytes → Prop
  | .array _, _ => True
  | .object _, _ => True
  | _, r => Follow r

theorem Follow.ends {t : Tree} {r : Bytes} (h : Follow r) : Ends t r := by
  cases t with
  | array items => trivial
  | object members => trivial
  | _ => exact h

/-! The grammar, with the whitespace trimmed. -/

def ItemsFrom (phase : Phase) (items : Items) (l r : Bytes) : Prop :=
  match items with
  | .nil => trim l = 93 :: r
  | .cons t items => ∃ l₁ l₂, Leads phase 93 l l₁ ∧ Value t l₁ l₂ ∧ ArrayRest items l₂ r

def MembersFrom (phase : Phase) (members : Members) (l r : Bytes) : Prop :=
  match members with
  | .nil => trim l = 125 :: r
  | .cons x t members => ∃ l₁ l₂, Leads phase 125 l l₁ ∧ Member x t l₁ l₂ ∧ ObjectRest members l₂ r

def tokenOf : Tree → Token
  | .null => .null
  | .boolean _ => .boolean
  | .number _ => .number
  | .string _ => .string
  | .array _ => .array
  | .object _ => .object

/-- The first byte tells what a value is. -/
theorem token_value {t : Tree} {l r : Bytes} (h : Value t l r) : token l.head? = some (tokenOf t) := by
  cases h with
  | null r => rfl
  | boolean b r => cases b <;> rfl
  | number x r hx =>
    obtain ⟨b, l, rfl, hb⟩ := hx.exists_cons
    have hdigit : ∀ n < 10, token (some (Decimal.digit n)) = some .number := by decide
    rcases hb with rfl | hb
    · rfl
    · obtain ⟨n, hn, rfl⟩ := Decimal.digit_value hb
      exact hdigit n hn
  | string x r hx =>
    obtain ⟨body, rfl, -⟩ := hx
    rfl
  | emptyArray l r _ => rfl
  | array t items l l₁ l₂ r _ _ _ => rfl
  | emptyObject l r _ => rfl
  | object x t members l l₁ l₂ r _ _ _ => rfl

theorem Value.head_ne {t : Tree} {l r : Bytes} {b : UInt8} (h : Value t l r) (hb : token (some b) = none) :
    l.head? ≠ some b := by
  intro heq
  have htoken := token_value h
  rw [heq, hb] at htoken
  cases htoken

theorem Member.head_ne {x : Bytes} {t : Tree} {l r : Bytes} (h : Member x t l r) : l.head? ≠ some 125 := by
  obtain ⟨x, t, l, l₁, l₂, r, ⟨body, rfl, -⟩, -⟩ := h
  simp

theorem leads_first {close : UInt8} {l r : Bytes} (hsolid : Solid r) (hclose : r.head? ≠ some close) :
    Leads .first close l r ↔ Blank l r := by
  rw [Leads, if_neg (by decide)]
  constructor
  · rintro ⟨rfl, -⟩
    exact blank_trim l
  · intro hblank
    exact ⟨(hsolid.trim_eq hblank).symm, hclose⟩

theorem leads_after {close : UInt8} {l r : Bytes} (hsolid : Solid r) (hclose : r.head? ≠ some close) :
    Leads .after close l r ↔ ∃ m, Blank l (44 :: m) ∧ Blank m r := by
  rw [Leads, if_pos rfl]
  constructor
  · rintro ⟨⟨m, hm, rfl⟩, -⟩
    exact ⟨m, (blank_cons_iff rfl).mpr hm, blank_trim m⟩
  · rintro ⟨m, hm, hblank⟩
    exact ⟨⟨m, (blank_cons_iff rfl).mp hm, (hsolid.trim_eq hblank).symm⟩, hclose⟩

theorem arrayRest_iff {items : Items} {l r : Bytes} : ArrayRest items l r ↔ ItemsFrom .after items l r := by
  constructor
  · intro h
    cases h with
    | close l r hl => exact (blank_cons_iff rfl).mp hl
    | more t items l l₁ l₂ l₃ r hl hl₁ ht hrest =>
      exact ⟨l₂, l₃, (leads_after ht.solid (Value.head_ne ht rfl)).mpr ⟨l₁, hl, hl₁⟩, ht, hrest⟩
  · intro h
    cases items with
    | nil => exact .close l r ((blank_cons_iff rfl).mpr h)
    | cons t items =>
      obtain ⟨l₂, l₃, hleads, ht, hrest⟩ := h
      obtain ⟨l₁, hl, hl₁⟩ := (leads_after ht.solid (Value.head_ne ht rfl)).mp hleads
      exact .more t items l l₁ l₂ l₃ r hl hl₁ ht hrest

theorem objectRest_iff {members : Members} {l r : Bytes} :
    ObjectRest members l r ↔ MembersFrom .after members l r := by
  constructor
  · intro h
    cases h with
    | close l r hl => exact (blank_cons_iff rfl).mp hl
    | more x t members l l₁ l₂ l₃ r hl hl₁ ht hrest =>
      exact ⟨l₂, l₃, (leads_after ht.solid (Member.head_ne ht)).mpr ⟨l₁, hl, hl₁⟩, ht, hrest⟩
  · intro h
    cases members with
    | nil => exact .close l r ((blank_cons_iff rfl).mpr h)
    | cons x t members =>
      obtain ⟨l₂, l₃, hleads, ht, hrest⟩ := h
      obtain ⟨l₁, hl, hl₁⟩ := (leads_after ht.solid (Member.head_ne ht)).mp hleads
      exact .more x t members l l₁ l₂ l₃ r hl hl₁ ht hrest

theorem array_iff {items : Items} {l r : Bytes} :
    Value (.array items) l r ↔ ∃ m, l = 91 :: m ∧ ItemsFrom .first items m r := by
  constructor
  · intro h
    cases h with
    | emptyArray l r hl => exact ⟨l, rfl, (blank_cons_iff rfl).mp hl⟩
    | array t items l l₁ l₂ r hl ht hrest =>
      exact ⟨l, rfl, l₁, l₂, (leads_first ht.solid (Value.head_ne ht rfl)).mpr hl, ht, hrest⟩
  · rintro ⟨m, rfl, h⟩
    cases items with
    | nil => exact .emptyArray m r ((blank_cons_iff rfl).mpr h)
    | cons t items =>
      obtain ⟨l₁, l₂, hleads, ht, hrest⟩ := h
      exact .array t items m l₁ l₂ r ((leads_first ht.solid (Value.head_ne ht rfl)).mp hleads) ht hrest

theorem object_iff {members : Members} {l r : Bytes} :
    Value (.object members) l r ↔ ∃ m, l = 123 :: m ∧ MembersFrom .first members m r := by
  constructor
  · intro h
    cases h with
    | emptyObject l r hl => exact ⟨l, rfl, (blank_cons_iff rfl).mp hl⟩
    | object x t members l l₁ l₂ r hl ht hrest =>
      exact ⟨l, rfl, l₁, l₂, (leads_first ht.solid (Member.head_ne ht)).mpr hl, ht, hrest⟩
  · rintro ⟨m, rfl, h⟩
    cases members with
    | nil => exact .emptyObject m r ((blank_cons_iff rfl).mpr h)
    | cons x t members =>
      obtain ⟨l₁, l₂, hleads, ht, hrest⟩ := h
      exact .object x t members m l₁ l₂ r ((leads_first ht.solid (Member.head_ne ht)).mp hleads) ht hrest

theorem ItemsFrom.after {phase : Phase} {items : Items} {l r : Bytes} (h : ItemsFrom phase items l r) : After l r := by
  cases items with
  | nil => exact .of_blank ((blank_cons_iff rfl).mpr h) (after_cons 93 r)
  | cons t items =>
    obtain ⟨l₁, l₂, hleads, ht, hrest⟩ := h
    have hafter := ht.after.trans hrest.after
    have hsuffix := hleads.suffix.trans (trim_suffix l)
    exact ⟨hafter.1.trans hsuffix, hafter.2.trans_le hsuffix.length_le⟩

theorem MembersFrom.after {phase : Phase} {members : Members} {l r : Bytes} (h : MembersFrom phase members l r) :
    After l r := by
  cases members with
  | nil => exact .of_blank ((blank_cons_iff rfl).mpr h) (after_cons 125 r)
  | cons x t members =>
    obtain ⟨l₁, l₂, hleads, ht, hrest⟩ := h
    have hafter := ht.after.trans hrest.after
    have hsuffix := hleads.suffix.trans (trim_suffix l)
    exact ⟨hafter.1.trans hsuffix, hafter.2.trans_le hsuffix.length_le⟩

theorem member_iff {x : Bytes} {t : Tree} {l r : Bytes} :
    Member x t l r ↔ ∃ m m', l = x ++ m ∧ Literal x ∧ trim m = 58 :: m' ∧ Value t (trim m') r := by
  constructor
  · intro h
    cases h with
    | intro x t l l₁ l₂ r hx hl hl₁ ht =>
      rw [← ht.solid.trim_eq hl₁] at ht
      exact ⟨l, l₁, rfl, hx, (blank_cons_iff rfl).mp hl, ht⟩
  · rintro ⟨m, m', rfl, hx, hm, ht⟩
    exact .intro x t m m' (trim m') r hx ((blank_cons_iff rfl).mpr hm) (blank_trim m') ht

theorem value_null_iff {l r : Bytes} : Value .null l r ↔ l = nullText ++ r := by
  constructor
  · intro h
    cases h
    rfl
  · rintro rfl
    exact .null r

theorem value_boolean_iff {b : Bool} {l r : Bytes} : Value (.boolean b) l r ↔ l = booleanText b ++ r := by
  constructor
  · intro h
    cases h
    rfl
  · rintro rfl
    exact .boolean b r

theorem value_number_iff {x l r : Bytes} : Value (.number x) l r ↔ l = x ++ r ∧ Number x := by
  constructor
  · intro h
    cases h with
    | number x r hx => exact ⟨rfl, hx⟩
  · rintro ⟨rfl, hx⟩
    exact .number x r hx

theorem value_string_iff {x l r : Bytes} : Value (.string x) l r ↔ l = x ++ r ∧ Literal x := by
  constructor
  · intro h
    cases h with
    | string x r hx => exact ⟨rfl, hx⟩
  · rintro ⟨rfl, hx⟩
    exact .string x r hx

/-! Values. -/

/-- The cursor reads the value `t`, which leaves `r`, and ends as `c'`. -/
structure Reads (codec : Codec) (c : Cursor) (t : Tree) (r : Bytes) (c' : Cursor) : Prop where
  value : Value t (trim (rest c)) r
  ends : Ends t r
  admits : Admits c
  fits : Fits codec c t
  finish : finishValue codec (took c t.count r) = .ok c'

variable {codec : Codec}

theorem reads_scalar {c c' : Cursor} {t : Tree} {x r : Bytes} (h : Live c) (hvalue : Value t (x ++ r) r)
    (hends : Ends t r ↔ Follow r) (hcount : t.count = 1) (hdepth : t.depth = 0)
    (hallowed : t.All (Allowed codec c.limits) ↔ (x.length : ℤ) ≤ c.limits.tokenBytes)
    (hsplit : trim (rest c) = x ++ r) : ReadScalar codec c x r c' ↔ Reads codec c t r c' := by
  constructor
  · intro hread
    refine ⟨hsplit ▸ hvalue, hends.mpr hread.follow, hread.admits, ⟨?_, ?_, hallowed.mpr hread.size⟩, ?_⟩
    · rw [hcount]
      exact hread.tokens
    · rw [hdepth]
      exact h.depth
    · rw [hcount]
      exact hread.finish
  · intro hread
    have htokens := hread.fits.tokens
    have hfinish := hread.finish
    rw [hcount] at htokens hfinish
    exact ⟨hread.admits, htokens, hallowed.mp hread.fits.allowed, hsplit, hends.mp hread.ends, hfinish⟩

theorem readNull_iff {c c' : Cursor} (h : Live c) :
    readNull codec c = .ok c' ↔ ∃ r, Reads codec c .null r c' := by
  have hallowed : Tree.All (Allowed codec c.limits) .null ↔ (nullText.length : ℤ) ≤ c.limits.tokenBytes := by
    simp [Tree.All, Allowed, Distinct, Within]
  rw [readNull_eq_ok h]
  constructor
  · rintro ⟨r, hread⟩
    exact ⟨r, (reads_scalar h (.null r) Iff.rfl rfl rfl hallowed hread.split).mp hread⟩
  · rintro ⟨r, hread⟩
    have hsplit := value_null_iff.mp hread.value
    exact ⟨r, (reads_scalar h (.null r) Iff.rfl rfl rfl hallowed hsplit).mpr hread⟩

theorem readBoolean_iff {c c' : Cursor} {b : Bool} (h : Live c) :
    readBoolean codec c = .ok (b, c') ↔ ∃ r, Reads codec c (.boolean b) r c' := by
  have hallowed : Tree.All (Allowed codec c.limits) (.boolean b) ↔
      ((booleanText b).length : ℤ) ≤ c.limits.tokenBytes := by simp [Tree.All, Allowed, Distinct, Within]
  rw [readBoolean_eq_ok h]
  constructor
  · rintro ⟨r, hread⟩
    exact ⟨r, (reads_scalar h (.boolean b r) Iff.rfl rfl rfl hallowed hread.split).mp hread⟩
  · rintro ⟨r, hread⟩
    have hsplit := value_boolean_iff.mp hread.value
    exact ⟨r, (reads_scalar h (.boolean b r) Iff.rfl rfl rfl hallowed hsplit).mpr hread⟩

theorem readNumber_iff {c c' : Cursor} {x : Bytes} (h : Live c) :
    readNumber codec c = .ok (x, c') ↔ ∃ r, Reads codec c (.number x) r c' := by
  have hallowed : Tree.All (Allowed codec c.limits) (.number x) ↔ (x.length : ℤ) ≤ c.limits.tokenBytes := by
    simp [Tree.All, Allowed, Distinct, Within]
  rw [readNumber_eq_ok h]
  constructor
  · rintro ⟨r, hread, hx⟩
    exact ⟨r, (reads_scalar h (.number x r hx) Iff.rfl rfl rfl hallowed hread.split).mp hread⟩
  · rintro ⟨r, hread⟩
    obtain ⟨hsplit, hx⟩ := value_number_iff.mp hread.value
    exact ⟨r, (reads_scalar h (.number x r hx) Iff.rfl rfl rfl hallowed hsplit).mpr hread, hx⟩

theorem Decodes.exists_eq {x : Bytes} (hcodec : Decodes codec) (h : Literal x) :
    ∃ name, (codec.decode x).1 = some name := by
  obtain ⟨body, rfl, hbody⟩ := h
  exact Option.isSome_iff_exists.mp ((hcodec body).mpr ⟨body, rfl, hbody⟩)

theorem readString_iff {c c' : Cursor} (hcodec : Decodes codec) (h : Live c) :
    (∃ v, readString codec c = .ok (v, c')) ↔ ∃ x r, Reads codec c (.string x) r c' := by
  have hallowed : ∀ x, Tree.All (Allowed codec c.limits) (.string x) ↔ (x.length : ℤ) ≤ c.limits.tokenBytes := by
    intro x
    simp [Tree.All, Allowed, Distinct, Within]
  simp only [readString_eq_ok hcodec h]
  constructor
  · rintro ⟨v, x, r, hread, hx, -⟩
    exact ⟨x, r, (reads_scalar h (.string x r hx) Iff.rfl rfl rfl (hallowed x) hread.split).mp hread⟩
  · rintro ⟨x, r, hread⟩
    obtain ⟨hsplit, hx⟩ := value_string_iff.mp hread.value
    obtain ⟨v, hv⟩ := hcodec.exists_eq hx
    exact ⟨v, x, r, (reads_scalar h (.string x r hx) Iff.rfl rfl rfl (hallowed x) hsplit).mpr hread, hx, hv⟩

/-! Containers. -/

def inside (c : Cursor) (frames : List Frame) : Cursor := { c with frames := frames }

/-- The frame after one more value. -/
def finished (frame : Frame) : Frame := { frame with phase := .after, count := frame.count + 1 }

structure ReadsItems (codec : Codec) (c : Cursor) (frame : Frame) (frames : List Frame) (items : Items) (r : Bytes)
    (c' : Cursor) : Prop where
  listed : ItemsFrom frame.phase items (rest c) r
  fits : FitsItems codec c frame items
  finish : finishValue codec (inside (took c items.count r) frames) = .ok c'

structure ReadsMembers (codec : Codec) (c : Cursor) (frame : Frame) (frames : List Frame) (members : Members)
    (r : Bytes) (c' : Cursor) : Prop where
  listed : MembersFrom frame.phase members (rest c) r
  fits : FitsMembers codec c frame members
  finish : finishValue codec (inside (took c members.count r) frames) = .ok c'

theorem took_took {c : Cursor} {l r : Bytes} {m n : ℕ} (hc : 1 ≤ c.position) (hl : l <:+ rest c) (hr : r <:+ l) :
    took (took c m l) n r = took c (m + n) r := by
  change { moved (took c m l) r with tokens := c.tokens + m + n } = took c (m + n) r
  rw [moved_took hc hl hr, Nat.add_assoc]
  rfl

theorem took_zero (c : Cursor) (r : Bytes) : took c 0 r = moved c r := rfl

theorem Live.inside {c : Cursor} {frame : Frame} {frames : List Frame} (h : Live c)
    (hframes : c.frames = frame :: frames) (frame' : Frame) : Live (inside c (frame' :: frames)) := by
  refine ⟨h.isOpen, h.positive, h.tokens, ?_, h.entries⟩
  have hdepth := h.depth
  rw [hframes] at hdepth
  exact hdepth

/-- A value in the innermost frame, read from `l`. -/
theorem reads_inside {c c' : Cursor} {frame : Frame} {frames : List Frame} {t : Tree} {l r : Bytes} (h : Live c)
    (hframes : c.frames = frame :: frames) (hphase : frame.phase = .value) (hl : l <:+ rest c) :
    Reads codec (moved c l) t r c' ↔
      Value t (trim l) r ∧ Ends t r ∧ Fits codec c t ∧ c' = inside (took c t.count r) (finished frame :: frames) := by
  have hrest : rest (moved c l) = l := rest_moved h.positive hl
  have hadmits : Admits (moved c l) := by
    rw [Admits, show (moved c l).frames = c.frames from rfl, hframes]
    exact hphase
  have hfinish : ∀ {r}, r <:+ l → finishValue codec (took (moved c l) t.count r) =
      .ok (inside (took c t.count r) (finished frame :: frames)) := by
    intro r hr
    rw [← took_zero, took_took h.positive hl hr, Nat.zero_add]
    exact finishValue_cons hframes
  constructor
  · rintro ⟨hvalue, hends, -, hfits, hok⟩
    rw [hrest] at hvalue
    rw [hfinish (hvalue.after.1.trans (trim_suffix l))] at hok
    exact ⟨hvalue, hends, ⟨hfits.tokens, hfits.depth, hfits.allowed⟩, (Except.ok.inj hok).symm⟩
  · rintro ⟨hvalue, hends, hfits, rfl⟩
    refine ⟨hrest.symm ▸ hvalue, hends, hadmits, ⟨hfits.tokens, hfits.depth, hfits.allowed⟩, ?_⟩
    exact hfinish (hvalue.after.1.trans (trim_suffix l))

theorem fits_inside {c : Cursor} {frame : Frame} {frames : List Frame} {t : Tree} (hframes : c.frames = frame :: frames)
    (frame' : Frame) : Fits codec (inside c (frame' :: frames)) t ↔ Fits codec c t := by
  have hlength : (inside c (frame' :: frames)).frames.length = c.frames.length := by
    rw [hframes]
    rfl
  constructor
  · rintro ⟨htokens, hdepth, hallowed⟩
    exact ⟨htokens, hlength ▸ hdepth, hallowed⟩
  · rintro ⟨htokens, hdepth, hallowed⟩
    exact ⟨htokens, hlength.symm ▸ hdepth, hallowed⟩

/-- The cursor after the value `t` of the innermost frame, which leaves `l`. -/
def past (c : Cursor) (t : Tree) (l : Bytes) (frame : Frame) (frames : List Frame) : Cursor :=
  inside (took c t.count l) (finished frame :: frames)

theorem rest_past {c : Cursor} {t : Tree} {l : Bytes} {frame : Frame} {frames : List Frame} (hc : 1 ≤ c.position)
    (hl : l <:+ rest c) : rest (past c t l frame frames) = l := rest_took t.count hc hl

theorem took_past {c : Cursor} {t : Tree} {l r : Bytes} {frame : Frame} {frames : List Frame} {n : ℕ}
    (hc : 1 ≤ c.position) (hl : l <:+ rest c) (hr : r <:+ l) :
    inside (took (past c t l frame frames) n r) frames = inside (took c (t.count + n) r) frames := by
  rw [← took_took hc hl hr]
  rfl

theorem live_past {c : Cursor} {t : Tree} {frame : Frame} {frames : List Frame} (h : Live c)
    (hframes : c.frames = frame :: frames) (hfits : Fits codec c t) (l : Bytes) (frame' : Frame) :
    Live (past c t l frame' frames) := by
  have htook : Live (took c t.count l) := h.took hfits.tokens l
  exact htook.inside hframes _

theorem readsItems_cons {c c' : Cursor} {frame : Frame} {frames : List Frame} {t : Tree} {items : Items} {r : Bytes}
    (h : Live c) (hframes : c.frames = frame :: frames) :
    ReadsItems codec c frame frames (.cons t items) r c' ↔
      (frame.count : ℤ) < c.limits.aggregateEntries ∧ ∃ l₁ l₂, Leads frame.phase 93 (rest c) l₁ ∧ Value t l₁ l₂ ∧
        Ends t l₂ ∧ Fits codec c t ∧
        ReadsItems codec (past c t l₂ (readied frame) frames) (finished (readied frame)) frames items r c' := by
  have hlength : ∀ l, (past c t l (readied frame) frames).frames.length = c.frames.length := by
    intro l
    rw [hframes]
    rfl
  have htokens : ∀ l, (past c t l (readied frame) frames).tokens = c.tokens + t.count := fun _ => rfl
  have hcount : (finished (readied frame)).count = frame.count + 1 := rfl
  constructor
  · rintro ⟨⟨l₁, l₂, hleads, ht, hrest⟩, hfits, hfinish⟩
    have hl₂ : l₂ <:+ rest c := ht.after.1.trans (hleads.suffix.trans (trim_suffix _))
    have hentries := hfits.entries (Nat.succ_ne_zero _)
    have htotal := hfits.tokens
    have hdepth := hfits.depth
    simp only [Items.count, Items.depth, Items.length] at htotal hdepth hentries
    refine ⟨by omega, l₁, l₂, hleads, ht, Follow.ends hrest.follow, ⟨by omega, by omega, hfits.allowed.1⟩, ?_, ?_, ?_⟩
    · rw [rest_past h.positive hl₂]
      exact arrayRest_iff.mp hrest
    · refine ⟨?_, ?_, ?_, hfits.allowed.2⟩
      · rw [htokens, Nat.add_assoc]
        exact htotal
      · rw [hlength]
        change ((c.frames.length + items.depth : ℕ) : ℤ) ≤ c.maxDepth
        omega
      · rw [hcount]
        intro _
        change ((frame.count + 1 + items.length : ℕ) : ℤ) ≤ c.limits.aggregateEntries
        omega
    · rw [took_past h.positive hl₂ hrest.after.1]
      exact hfinish
  · rintro ⟨hroom, l₁, l₂, hleads, ht, -, hfits, hrest, hfits', hfinish⟩
    have hl₂ : l₂ <:+ rest c := ht.after.1.trans (hleads.suffix.trans (trim_suffix _))
    rw [rest_past h.positive hl₂] at hrest
    have hrest' := arrayRest_iff.mpr hrest
    rw [took_past h.positive hl₂ hrest'.after.1] at hfinish
    refine ⟨⟨l₁, l₂, hleads, ht, hrest'⟩, ⟨?_, ?_, ?_, hfits.allowed, hfits'.allowed⟩, hfinish⟩
    · have htotal := hfits'.tokens
      rw [htokens, Nat.add_assoc] at htotal
      exact htotal
    · have hdepth := hfits.depth
      have hdepth' := hfits'.depth
      rw [hlength] at hdepth'
      change ((c.frames.length + items.depth : ℕ) : ℤ) ≤ c.maxDepth at hdepth'
      simp only [Items.depth]
      omega
    · intro _
      have hentries := hfits'.entries
      rw [hcount] at hentries
      change items.length ≠ 0 → ((frame.count + 1 + items.length : ℕ) : ℤ) ≤ c.limits.aggregateEntries at hentries
      simp only [Items.length]
      omega

theorem readsMembers_cons {c c' : Cursor} {frame : Frame} {frames : List Frame} {x : Bytes} {t : Tree}
    {members : Members} {r : Bytes} (hcodec : Decodes codec) (h : Live c) (hframes : c.frames = frame :: frames) :
    ReadsMembers codec c frame frames (.cons x t members) r c' ↔
      (frame.count : ℤ) < c.limits.aggregateEntries ∧ ∃ m m' l₂ name, Leads frame.phase 125 (rest c) (x ++ m) ∧
        Literal x ∧ (codec.decode x).1 = some name ∧ (x.length : ℤ) ≤ c.limits.tokenBytes ∧ name ∉ frame.names ∧
        trim m = 58 :: m' ∧ Value t (trim m') l₂ ∧ Ends t l₂ ∧ Fits codec c t ∧
        ReadsMembers codec (past c t l₂ (named frame name) frames) (finished (named frame name)) frames members r
          c' := by
  have hlength : ∀ l name, (past c t l (named frame name) frames).frames.length = c.frames.length := by
    intro l name
    rw [hframes]
    rfl
  have htokens : ∀ l name, (past c t l (named frame name) frames).tokens = c.tokens + t.count := fun _ _ => rfl
  have hcount : ∀ name, (finished (named frame name)).count = frame.count + 1 := fun _ => rfl
  have hsuffix : ∀ {m m' l₂}, Leads frame.phase 125 (rest c) (x ++ m) → trim m = 58 :: m' → Value t (trim m') l₂ →
      l₂ <:+ rest c := by
    intro m m' l₂ hleads hm ht
    have hm' : m' <:+ m := (hm ▸ List.suffix_cons 58 m' : m' <:+ trim m).trans (trim_suffix m)
    exact (ht.after.1.trans (trim_suffix m')).trans
      (hm'.trans ((List.suffix_append x m).trans (hleads.suffix.trans (trim_suffix _))))
  constructor
  · rintro ⟨⟨l₁, l₂, hleads, hmember, hrest⟩, hfits, hfinish⟩
    obtain ⟨m, m', rfl, hx, hm, ht⟩ := member_iff.mp hmember
    obtain ⟨name, hname⟩ := hcodec.exists_eq hx
    have hl₂ := hsuffix hleads hm ht
    have hentries := hfits.entries (Nat.succ_ne_zero _)
    have htotal := hfits.tokens
    have hdepth := hfits.depth
    have hdistinct := hfits.distinct
    simp only [Members.count, Members.depth, Members.length] at htotal hdepth hentries
    rw [Members.names, List.map_cons, List.nodup_cons] at hdistinct
    refine ⟨by omega, m, m', l₂, name, hleads, hx, hname, hfits.sizes x List.mem_cons_self,
      hfits.fresh x List.mem_cons_self name hname, hm, ht, Follow.ends hrest.follow,
      ⟨by omega, by omega, hfits.allowed.1⟩, ?_, ?_, ?_⟩
    · rw [rest_past h.positive hl₂]
      exact objectRest_iff.mp hrest
    · refine ⟨?_, ?_, ?_, fun y hy => hfits.sizes y (List.mem_cons_of_mem x hy), hdistinct.2, ?_, hfits.allowed.2⟩
      · rw [htokens, Nat.add_assoc]
        exact htotal
      · rw [hlength]
        change ((c.frames.length + members.depth : ℕ) : ℤ) ≤ c.maxDepth
        omega
      · rw [hcount]
        intro _
        change ((frame.count + 1 + members.length : ℕ) : ℤ) ≤ c.limits.aggregateEntries
        omega
      · intro y hy name' hname' hmem
        rcases List.mem_cons.mp hmem with rfl | hmem
        · refine hdistinct.1 (List.mem_map.mpr ⟨y, hy, ?_⟩)
          rw [hname]
          exact hname'
        · exact hfits.fresh y (List.mem_cons_of_mem x hy) name' hname' hmem
    · rw [took_past h.positive hl₂ hrest.after.1]
      exact hfinish
  · rintro ⟨hroom, m, m', l₂, name, hleads, hx, hname, hsize, hfresh, hm, ht, -, hfits, hrest, hfits', hfinish⟩
    have hl₂ := hsuffix hleads hm ht
    rw [rest_past h.positive hl₂] at hrest
    have hrest' := objectRest_iff.mpr hrest
    rw [took_past h.positive hl₂ hrest'.after.1] at hfinish
    refine ⟨⟨x ++ m, l₂, hleads, member_iff.mpr ⟨m, m', rfl, hx, hm, ht⟩, hrest'⟩,
      ⟨?_, ?_, ?_, ?_, ?_, ?_, hfits.allowed, hfits'.allowed⟩, hfinish⟩
    · have htotal := hfits'.tokens
      rw [htokens, Nat.add_assoc] at htotal
      exact htotal
    · have hdepth := hfits.depth
      have hdepth' := hfits'.depth
      rw [hlength] at hdepth'
      change ((c.frames.length + members.depth : ℕ) : ℤ) ≤ c.maxDepth at hdepth'
      simp only [Members.depth]
      omega
    · intro _
      have hentries := hfits'.entries
      rw [hcount] at hentries
      change members.length ≠ 0 → ((frame.count + 1 + members.length : ℕ) : ℤ) ≤ c.limits.aggregateEntries
        at hentries
      simp only [Members.length]
      omega
    · intro y hy
      rcases List.mem_cons.mp hy with rfl | hy
      · exact hsize
      · exact hfits'.sizes y hy
    · rw [Members.names, List.map_cons, List.nodup_cons]
      refine ⟨fun hmem => ?_, hfits'.distinct⟩
      obtain ⟨y, hy, heq⟩ := List.mem_map.mp hmem
      rw [hname] at heq
      exact hfits'.fresh y hy name heq List.mem_cons_self
    · intro y hy name' hname' hmem
      rcases List.mem_cons.mp hy with rfl | hy
      · rw [Option.mem_def, hname] at hname'
        obtain rfl := Option.some.inj hname'
        exact hfresh hmem
      · exact hfits'.fresh y hy name' hname' (List.mem_cons_of_mem name hmem)

/-- The cursor inside a container it has just entered. -/
def entered (c : Cursor) (kind : Kind) (l : Bytes) : Cursor := inside (took c 1 l) (freshFrame kind :: c.frames)

theorem took_entered {c : Cursor} {kind : Kind} {l r : Bytes} {n : ℕ} (hc : 1 ≤ c.position) (hl : l <:+ rest c)
    (hr : r <:+ l) : inside (took (entered c kind l) n r) c.frames = took c (n + 1) r := by
  rw [Nat.add_comm n 1, ← took_took hc hl hr]
  rfl

theorem live_entered {c : Cursor} (h : Live c) (htokens : ((c.tokens + 1 : ℕ) : ℤ) ≤ c.maxTokens)
    (hdepth : (c.frames.length : ℤ) < c.maxDepth) (kind : Kind) (l : Bytes) : Live (entered c kind l) := by
  refine ⟨h.isOpen, (h.moved l).positive, htokens, ?_, h.entries⟩
  change ((c.frames.length + 1 : ℕ) : ℤ) ≤ c.maxDepth
  omega

theorem reads_array {c c' : Cursor} {items : Items} {r : Bytes} (h : Live c) :
    Reads codec c (.array items) r c' ↔
      ∃ l, trim (rest c) = 91 :: l ∧ start codec c .array = .ok (entered c .array l) ∧
        ReadsItems codec (entered c .array l) (freshFrame .array) c.frames items r c' := by
  have hsuffix : ∀ {l}, trim (rest c) = 91 :: l → l <:+ rest c := fun hl => suffix_rest (x := [91]) hl
  have hentries := h.entries
  constructor
  · rintro ⟨hvalue, -, hadmits, ⟨htokens, hdepth, hallowed, hitems⟩, hfinish⟩
    obtain ⟨l, hl, hlisted⟩ := array_iff.mp hvalue
    have hwithin : (items.length : ℤ) ≤ c.limits.aggregateEntries := hallowed.2
    simp only [Tree.count, Tree.depth] at htokens hdepth hfinish
    refine ⟨l, hl, (start_eq_ok h).mpr ⟨hadmits, by omega, by omega, l, hl, rfl⟩, ?_, ⟨?_, ?_, ?_, hitems⟩, ?_⟩
    · change ItemsFrom .first items (rest (took c 1 l)) r
      rw [rest_took 1 h.positive (hsuffix hl)]
      exact hlisted
    · change ((c.tokens + 1 + items.count : ℕ) : ℤ) ≤ c.maxTokens
      omega
    · change ((c.frames.length + 1 + items.depth : ℕ) : ℤ) ≤ c.maxDepth
      omega
    · intro _
      change ((0 + items.length : ℕ) : ℤ) ≤ c.limits.aggregateEntries
      omega
    · rw [took_entered h.positive (hsuffix hl) hlisted.after.1]
      exact hfinish
  · rintro ⟨l, hl, hstart, hlisted, ⟨htokens, hdepth, hentries', hitems⟩, hfinish⟩
    obtain ⟨hadmits, -, -, -⟩ := (start_eq_ok h).mp hstart
    change ItemsFrom .first items (rest (took c 1 l)) r at hlisted
    rw [rest_took 1 h.positive (hsuffix hl)] at hlisted
    have hvalue : Value (.array items) (trim (rest c)) r := array_iff.mpr ⟨l, hl, hlisted⟩
    rw [took_entered h.positive (hsuffix hl) hlisted.after.1] at hfinish
    change ((c.tokens + 1 + items.count : ℕ) : ℤ) ≤ c.maxTokens at htokens
    change ((c.frames.length + 1 + items.depth : ℕ) : ℤ) ≤ c.maxDepth at hdepth
    change items.length ≠ 0 → ((0 + items.length : ℕ) : ℤ) ≤ c.limits.aggregateEntries at hentries'
    refine ⟨hvalue, trivial, hadmits, ⟨?_, ?_, ⟨trivial, ?_⟩, hitems⟩, hfinish⟩
    · simp only [Tree.count]
      omega
    · simp only [Tree.depth]
      omega
    · change (items.length : ℤ) ≤ c.limits.aggregateEntries
      omega

theorem reads_object {c c' : Cursor} {members : Members} {r : Bytes} (h : Live c) :
    Reads codec c (.object members) r c' ↔
      ∃ l, trim (rest c) = 123 :: l ∧ start codec c .object = .ok (entered c .object l) ∧
        ReadsMembers codec (entered c .object l) (freshFrame .object) c.frames members r c' := by
  have hsuffix : ∀ {l}, trim (rest c) = 123 :: l → l <:+ rest c := fun hl => suffix_rest (x := [123]) hl
  have hentries := h.entries
  constructor
  · rintro ⟨hvalue, -, hadmits, ⟨htokens, hdepth, hallowed, hmembers⟩, hfinish⟩
    obtain ⟨l, hl, hlisted⟩ := object_iff.mp hvalue
    obtain ⟨hdistinct, hwithin, hsizes⟩ := hallowed
    simp only [Tree.count, Tree.depth] at htokens hdepth hfinish
    refine ⟨l, hl, (start_eq_ok h).mpr ⟨hadmits, by omega, by omega, l, hl, rfl⟩, ?_,
      ⟨?_, ?_, ?_, hsizes, hdistinct, fun _ _ _ _ => List.not_mem_nil, hmembers⟩, ?_⟩
    · change MembersFrom .first members (rest (took c 1 l)) r
      rw [rest_took 1 h.positive (hsuffix hl)]
      exact hlisted
    · change ((c.tokens + 1 + members.count : ℕ) : ℤ) ≤ c.maxTokens
      omega
    · change ((c.frames.length + 1 + members.depth : ℕ) : ℤ) ≤ c.maxDepth
      omega
    · intro _
      change ((0 + members.length : ℕ) : ℤ) ≤ c.limits.aggregateEntries
      omega
    · rw [took_entered h.positive (hsuffix hl) hlisted.after.1]
      exact hfinish
  · rintro ⟨l, hl, hstart, hlisted, ⟨htokens, hdepth, hentries', hsizes, hdistinct, -, hmembers⟩, hfinish⟩
    obtain ⟨hadmits, -, -, -⟩ := (start_eq_ok h).mp hstart
    change MembersFrom .first members (rest (took c 1 l)) r at hlisted
    rw [rest_took 1 h.positive (hsuffix hl)] at hlisted
    have hvalue : Value (.object members) (trim (rest c)) r := object_iff.mpr ⟨l, hl, hlisted⟩
    rw [took_entered h.positive (hsuffix hl) hlisted.after.1] at hfinish
    change ((c.tokens + 1 + members.count : ℕ) : ℤ) ≤ c.maxTokens at htokens
    change ((c.frames.length + 1 + members.depth : ℕ) : ℤ) ≤ c.maxDepth at hdepth
    change members.length ≠ 0 → ((0 + members.length : ℕ) : ℤ) ≤ c.limits.aggregateEntries at hentries'
    refine ⟨hvalue, trivial, hadmits, ⟨?_, ?_, ⟨hdistinct, ?_, hsizes⟩, hmembers⟩, hfinish⟩
    · simp only [Tree.count]
      omega
    · simp only [Tree.depth]
      omega
    · omega

/-! Skipping. -/

theorem peek_eq {c : Cursor} (h : Live c) :
    peek codec c = match token (trim (rest c)).head? with
      | some token => .ok (token, moved c (trim (rest c)))
      | none => fail codec (moved c (trim (rest c))) (text "expected a value") .syntaxCode := by
  rw [peek, space_eq h.isOpen, ok_bind, ← byteAt_trimmed h.positive]
  rfl

theorem skipValue_succ {c : Cursor} (n : ℕ) (h : Live c) :
    skipValue codec (n + 1) c =
      match token (trim (rest c)).head? with
      | none => fail codec (moved c (trim (rest c))) (text "expected a value") .syntaxCode
      | some .null => readNull codec c
      | some .boolean => do
        let (_, c) ← readBoolean codec c
        return c
      | some .number => do
        let (_, c) ← readNumber codec c
        return c
      | some .string => do
        let (_, c) ← readString codec c
        return c
      | some .object => do
        let c ← start codec c .object
        skipMembers codec n c
      | some .array => (do
        let c ← start codec c .array
        skipElements codec n c) := by
  have hboolean : readBoolean codec (moved c (trim (rest c))) = readBoolean codec c := by
    rw [readBoolean, space_trimmed h.isOpen h.positive]
    rfl
  have hnumber : readNumber codec (moved c (trim (rest c))) = readNumber codec c := by
    rw [readNumber, beginValue_trimmed h]
    rfl
  have hstring : readString codec (moved c (trim (rest c))) = readString codec c := by
    rw [readString, beginValue_trimmed h]
    rfl
  have hstart : ∀ kind, start codec (moved c (trim (rest c))) kind = start codec c kind := by
    intro kind
    rw [start, beginValue_trimmed h]
    rfl
  rw [skipValue, peek_eq h]
  cases htoken : token (trim (rest c)).head? with
  | none => rfl
  | some token =>
    simp only [ok_bind]
    cases token with
    | null => exact literal_trimmed h nullText
    | boolean => rw [hboolean]
    | number => rw [hnumber]
    | string => rw [hstring]
    | object => rw [hstart .object]
    | array => rw [hstart .array]

def SkipsValue (codec : Codec) (n : ℕ) : Prop :=
  ∀ {c c' : Cursor}, Live c → 2 * (rest c).length < n →
    (skipValue codec n c = .ok c' ↔ ∃ t r, Reads codec c t r c')

def SkipsElements (codec : Codec) (n : ℕ) : Prop :=
  ∀ {c c' : Cursor} {frame : Frame} {frames : List Frame}, Live c → c.frames = frame :: frames →
    frame.kind = .array → frame.phase ≠ .value → 2 * (rest c).length + 1 < n →
    (skipElements codec n c = .ok c' ↔ ∃ items r, ReadsItems codec c frame frames items r c')

def SkipsMembers (codec : Codec) (n : ℕ) : Prop :=
  ∀ {c c' : Cursor} {frame : Frame} {frames : List Frame}, Live c → c.frames = frame :: frames →
    frame.kind = .object → frame.phase ≠ .value → 2 * (rest c).length + 1 < n →
    (skipMembers codec n c = .ok c' ↔ ∃ members r, ReadsMembers codec c frame frames members r c')

theorem rest_entered {c : Cursor} {kind : Kind} {l : Bytes} (hc : 1 ≤ c.position)
    (hl : trim (rest c) = opening kind :: l) : rest (entered c kind l) = l :=
  rest_took 1 hc (suffix_rest (x := [opening kind]) hl)

theorem length_entered {c : Cursor} {l : Bytes} (kind : Kind) (hc : 1 ≤ c.position)
    (hl : trim (rest c) = opening kind :: l) : (rest (entered c kind l)).length + 1 ≤ (rest c).length := by
  have hle := (trim_suffix (rest c)).length_le
  rw [hl, List.length_cons] at hle
  rw [rest_entered hc hl]
  exact hle

theorem skipsValue_succ {n : ℕ} (hcodec : Decodes codec) (helements : SkipsElements codec n)
    (hmembers : SkipsMembers codec n) : SkipsValue codec (n + 1) := by
  intro c c' h hfuel
  rw [skipValue_succ n h]
  constructor
  · intro hskip
    cases htoken : token (trim (rest c)).head? with
    | none =>
      rw [htoken] at hskip
      cases hskip
    | some token =>
      rw [htoken] at hskip
      cases token with
      | null =>
        obtain ⟨r, hread⟩ := (readNull_iff h).mp hskip
        exact ⟨_, r, hread⟩
      | boolean =>
        obtain ⟨⟨b, c₁⟩, hok, heq⟩ := bind_eq_ok.mp hskip
        obtain rfl := Except.ok.inj heq
        obtain ⟨r, hread⟩ := (readBoolean_iff h).mp hok
        exact ⟨_, r, hread⟩
      | number =>
        obtain ⟨⟨x, c₁⟩, hok, heq⟩ := bind_eq_ok.mp hskip
        obtain rfl := Except.ok.inj heq
        obtain ⟨r, hread⟩ := (readNumber_iff h).mp hok
        exact ⟨_, r, hread⟩
      | string =>
        obtain ⟨⟨v, c₁⟩, hok, heq⟩ := bind_eq_ok.mp hskip
        obtain rfl := Except.ok.inj heq
        obtain ⟨x, r, hread⟩ := (readString_iff hcodec h).mp ⟨v, hok⟩
        exact ⟨_, r, hread⟩
      | object =>
        obtain ⟨c₁, hstart, hskip⟩ := bind_eq_ok.mp hskip
        obtain ⟨-, htokens, hdepth, l, hl, rfl⟩ := (start_eq_ok h).mp hstart
        have hlength := length_entered .object h.positive hl
        have hlive := live_entered h htokens hdepth .object l
        have hbound : 2 * (rest (entered c .object l)).length + 1 < n := by omega
        obtain ⟨members, r, hread⟩ := (hmembers hlive rfl rfl (by decide) hbound).mp hskip
        exact ⟨_, r, (reads_object h).mpr ⟨l, hl, hstart, hread⟩⟩
      | array =>
        obtain ⟨c₁, hstart, hskip⟩ := bind_eq_ok.mp hskip
        obtain ⟨-, htokens, hdepth, l, hl, rfl⟩ := (start_eq_ok h).mp hstart
        have hlength := length_entered .array h.positive hl
        have hlive := live_entered h htokens hdepth .array l
        have hbound : 2 * (rest (entered c .array l)).length + 1 < n := by omega
        obtain ⟨items, r, hread⟩ := (helements hlive rfl rfl (by decide) hbound).mp hskip
        exact ⟨_, r, (reads_array h).mpr ⟨l, hl, hstart, hread⟩⟩
  · rintro ⟨t, r, hread⟩
    rw [token_value hread.value]
    cases t with
    | null => exact (readNull_iff h).mpr ⟨r, hread⟩
    | boolean b => exact bind_eq_ok.mpr ⟨(b, c'), (readBoolean_iff h).mpr ⟨r, hread⟩, rfl⟩
    | number x => exact bind_eq_ok.mpr ⟨(x, c'), (readNumber_iff h).mpr ⟨r, hread⟩, rfl⟩
    | string x =>
      obtain ⟨v, hok⟩ := (readString_iff hcodec h).mpr ⟨x, r, hread⟩
      exact bind_eq_ok.mpr ⟨(v, c'), hok, rfl⟩
    | object members =>
      obtain ⟨l, hl, hstart, hread⟩ := (reads_object h).mp hread
      obtain ⟨-, htokens, hdepth, -⟩ := (start_eq_ok h).mp hstart
      have hlength := length_entered .object h.positive hl
      have hbound : 2 * (rest (entered c .object l)).length + 1 < n := by omega
      exact bind_eq_ok.mpr ⟨_, hstart, (hmembers (live_entered h htokens hdepth .object l) rfl rfl (by decide)
        hbound).mpr ⟨members, r, hread⟩⟩
    | array items =>
      obtain ⟨l, hl, hstart, hread⟩ := (reads_array h).mp hread
      obtain ⟨-, htokens, hdepth, -⟩ := (start_eq_ok h).mp hstart
      have hlength := length_entered .array h.positive hl
      have hbound : 2 * (rest (entered c .array l)).length + 1 < n := by omega
      exact bind_eq_ok.mpr ⟨_, hstart, (helements (live_entered h htokens hdepth .array l) rfl rfl (by decide)
        hbound).mpr ⟨items, r, hread⟩⟩

theorem fitsItems_nil {c : Cursor} (h : Live c) (frame : Frame) : FitsItems codec c frame .nil :=
  ⟨h.tokens, h.depth, fun hne => absurd rfl hne, trivial⟩

theorem fitsMembers_nil {c : Cursor} (h : Live c) (frame : Frame) : FitsMembers codec c frame .nil :=
  ⟨h.tokens, h.depth, fun hne => absurd rfl hne, nofun, List.nodup_nil, nofun, trivial⟩

theorem skipsElements_succ {n : ℕ} (hvalue : SkipsValue codec n) (helements : SkipsElements codec n) :
    SkipsElements codec (n + 1) := by
  intro c c' frame frames h hframes hkind hphase hfuel
  have hlive := h.inside hframes (readied frame)
  have hrest : ∀ {l}, l <:+ rest c → rest (moved (inside c (readied frame :: frames)) l) = l :=
    fun hl => rest_moved h.positive hl
  have hafter : (finished (readied frame)).phase ≠ .value := Phase.noConfusion
  rw [skipElements, bind_eq_ok]
  constructor
  · rintro ⟨⟨more, c₁⟩, hnext, hskip⟩
    cases more with
    | false =>
      obtain rfl := Except.ok.inj hskip
      obtain ⟨r, hr, hfinish⟩ := (next_eq_false h hframes hkind hphase).mp hnext
      exact ⟨.nil, r, hr, fitsItems_nil h frame, hfinish⟩
    | true =>
      obtain ⟨hroom, l₁, hleads, rfl⟩ := (next_eq_true h hframes hkind hphase).mp hnext
      obtain ⟨c₂, hskip₁, hskip₂⟩ := bind_eq_ok.mp hskip
      have hl₁ : l₁ <:+ rest c := hleads.suffix.trans (trim_suffix _)
      have hlength := hl₁.length_le
      change skipValue codec n (moved (inside c (readied frame :: frames)) l₁) = .ok c₂ at hskip₁
      obtain ⟨t, l₂, hread⟩ := (hvalue (hlive.moved l₁) (by rw [hrest hl₁]; omega)).mp hskip₁
      obtain ⟨ht, hends, hfits, rfl⟩ := (reads_inside hlive rfl rfl hl₁).mp hread
      rw [hleads.trim_eq] at ht
      have hfits' := (fits_inside hframes _).mp hfits
      have hlength' := ht.after.2
      have hl₂ : l₂ <:+ rest c := ht.after.1.trans hl₁
      change skipElements codec n (past c t l₂ (readied frame) frames) = .ok c' at hskip₂
      obtain ⟨items, r, hread'⟩ := (helements (live_past h hframes hfits' l₂ (readied frame)) rfl hkind hafter
        (by rw [rest_past h.positive hl₂]; omega)).mp hskip₂
      exact ⟨.cons t items, r, (readsItems_cons h hframes).mpr ⟨hroom, l₁, l₂, hleads, ht, hends, hfits', hread'⟩⟩
  · rintro ⟨items, r, hread⟩
    cases items with
    | nil => exact ⟨(false, c'), (next_eq_false h hframes hkind hphase).mpr ⟨r, hread.listed, hread.finish⟩, rfl⟩
    | cons t items =>
      obtain ⟨hroom, l₁, l₂, hleads, ht, hends, hfits, hread'⟩ := (readsItems_cons h hframes).mp hread
      have hl₁ : l₁ <:+ rest c := hleads.suffix.trans (trim_suffix _)
      have hlength := hl₁.length_le
      have hlength' := ht.after.2
      have hl₂ : l₂ <:+ rest c := ht.after.1.trans hl₁
      refine ⟨_, (next_eq_true h hframes hkind hphase).mpr ⟨hroom, l₁, hleads, rfl⟩, bind_eq_ok.mpr
        ⟨past c t l₂ (readied frame) frames, (hvalue (hlive.moved l₁) (by rw [hrest hl₁]; omega)).mpr ⟨t, l₂, ?_⟩, ?_⟩⟩
      · refine (reads_inside hlive rfl rfl hl₁).mpr ⟨?_, hends, (fits_inside hframes _).mpr hfits, rfl⟩
        rw [hleads.trim_eq]
        exact ht
      · exact (helements (live_past h hframes hfits l₂ (readied frame)) rfl hkind hafter
          (by rw [rest_past h.positive hl₂]; omega)).mpr ⟨items, r, hread'⟩

theorem skipsMembers_succ {n : ℕ} (hcodec : Decodes codec) (hvalue : SkipsValue codec n)
    (hmembers : SkipsMembers codec n) : SkipsMembers codec (n + 1) := by
  intro c c' frame frames h hframes hkind hphase hfuel
  have hlive := fun name => h.inside hframes (named frame name)
  have hrest : ∀ {name l}, l <:+ rest c → rest (moved (inside c (named frame name :: frames)) l) = l :=
    fun hl => rest_moved h.positive hl
  have hafter : ∀ name, (finished (named frame name)).phase ≠ .value := fun _ => Phase.noConfusion
  have hsuffix : ∀ {x m m' : Bytes}, Leads frame.phase 125 (rest c) (x ++ m) → trim m = 58 :: m' → m' <:+ rest c := by
    intro x m m' hleads hm
    have hm' : m' <:+ m := (hm ▸ List.suffix_cons 58 m' : m' <:+ trim m).trans (trim_suffix m)
    exact hm'.trans ((List.suffix_append x m).trans (hleads.suffix.trans (trim_suffix _)))
  rw [skipMembers, bind_eq_ok]
  constructor
  · rintro ⟨⟨name?, c₁⟩, hnext, hskip⟩
    cases name? with
    | none =>
      obtain rfl := Except.ok.inj hskip
      obtain ⟨r, hr, hfinish⟩ := (nextKey_eq_none h hframes hkind hphase).mp hnext
      exact ⟨.nil, r, hr, fitsMembers_nil h frame, hfinish⟩
    | some name =>
      obtain ⟨hroom, x, m, m', hleads, hx, hname, hsize, hfresh, hm, rfl⟩ :=
        (nextKey_eq_some hcodec h hframes hkind hphase).mp hnext
      obtain ⟨c₂, hskip₁, hskip₂⟩ := bind_eq_ok.mp hskip
      have hm' := hsuffix hleads hm
      have hlength := hm'.length_le
      change skipValue codec n (moved (inside c (named frame name :: frames)) m') = .ok c₂ at hskip₁
      obtain ⟨t, l₂, hread⟩ := (hvalue ((hlive name).moved m') (by rw [hrest hm']; omega)).mp hskip₁
      obtain ⟨ht, hends, hfits, rfl⟩ := (reads_inside (hlive name) rfl rfl hm').mp hread
      have hfits' := (fits_inside hframes _).mp hfits
      have hlength' := ht.after.2
      have htrim := (trim_suffix m').length_le
      have hl₂ : l₂ <:+ rest c := ht.after.1.trans ((trim_suffix m').trans hm')
      change skipMembers codec n (past c t l₂ (named frame name) frames) = .ok c' at hskip₂
      obtain ⟨members, r, hread'⟩ := (hmembers (live_past h hframes hfits' l₂ (named frame name)) rfl hkind (hafter name)
        (by rw [rest_past h.positive hl₂]; omega)).mp hskip₂
      exact ⟨.cons x t members, r, (readsMembers_cons hcodec h hframes).mpr
        ⟨hroom, m, m', l₂, name, hleads, hx, hname, hsize, hfresh, hm, ht, hends, hfits', hread'⟩⟩
  · rintro ⟨members, r, hread⟩
    cases members with
    | nil => exact ⟨(none, c'), (nextKey_eq_none h hframes hkind hphase).mpr ⟨r, hread.listed, hread.finish⟩, rfl⟩
    | cons x t members =>
      obtain ⟨hroom, m, m', l₂, name, hleads, hx, hname, hsize, hfresh, hm, ht, hends, hfits, hread'⟩ :=
        (readsMembers_cons hcodec h hframes).mp hread
      have hm' := hsuffix hleads hm
      have hlength := hm'.length_le
      have hlength' := ht.after.2
      have htrim := (trim_suffix m').length_le
      have hl₂ : l₂ <:+ rest c := ht.after.1.trans ((trim_suffix m').trans hm')
      refine ⟨_, (nextKey_eq_some hcodec h hframes hkind hphase).mpr
        ⟨hroom, x, m, m', hleads, hx, hname, hsize, hfresh, hm, rfl⟩, bind_eq_ok.mpr
        ⟨past c t l₂ (named frame name) frames,
          (hvalue ((hlive name).moved m') (by rw [hrest hm']; omega)).mpr ⟨t, l₂, ?_⟩, ?_⟩⟩
      · exact (reads_inside (hlive name) rfl rfl hm').mpr ⟨ht, hends, (fits_inside hframes _).mpr hfits, rfl⟩
      · exact (hmembers (live_past h hframes hfits l₂ (named frame name)) rfl hkind (hafter name)
          (by rw [rest_past h.positive hl₂]; omega)).mpr ⟨members, r, hread'⟩

/-- What `skipValue` and its loops read, for enough fuel. -/
theorem skips (hcodec : Decodes codec) (n : ℕ) :
    SkipsValue codec n ∧ SkipsElements codec n ∧ SkipsMembers codec n := by
  induction n with
  | zero =>
    refine ⟨?_, ?_, ?_⟩
    · intro c c' h hfuel
      omega
    · intro c c' frame frames h hframes hkind hphase hfuel
      omega
    · intro c c' frame frames h hframes hkind hphase hfuel
      omega
  | succ n ih =>
    obtain ⟨hvalue, helements, hmembers⟩ := ih
    exact ⟨skipsValue_succ hcodec helements hmembers, skipsElements_succ hvalue helements,
      skipsMembers_succ hcodec hvalue hmembers⟩

end Nupp.JsonCursor
