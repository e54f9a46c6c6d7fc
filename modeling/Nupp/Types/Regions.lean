import Nupp.Lib.Whole
import Nupp.Lua.Data

/-! The paths of memory regions, and whether two of them overlap (`nupp/compiler/types/init.nupp`). -/

namespace Nupp.regions

open Double Decimal Nupp.Data

/-- A number that is whole. -/
structure Whole where
  number : Finite
  whole : ∃ n : ℤ, number.value = n

/-- `tostring` -/
def Whole.text (w : Whole) : Bytes := numberText (.finite w.number)

def SLASH : UInt8 := 47
def COLON : UInt8 := 58
def FIELD : UInt8 := 70
def TUPLE : UInt8 := 84
def DEREF : UInt8 := 68
def INDEX : UInt8 := 73
def UNKNOWN : UInt8 := 85
def RANGE : UInt8 := 82
def PARTITION : UInt8 := 80

inductive Side
  | left | right
deriving DecidableEq

def Side.text : Side → Bytes
  | .left => ascii "left"
  | .right => ascii "right"

section Append

variable (path : Bytes)

/-- `tostring` of a length, which is below 2 ^ 31, writes its digits. -/
def regionAppend (kind : UInt8) (value : Bytes) : Bytes :=
  path ++ SLASH :: kind :: numeral value.length ++ COLON :: value

def regionField (name : Bytes) : Bytes := regionAppend path FIELD name

def regionTupleSlot (slot : Whole) : Bytes := regionAppend path TUPLE slot.text

def regionDeref : Bytes := regionAppend path DEREF []

def regionIndex (index : Option Whole) : Bytes :=
  regionAppend path (if index.isSome then INDEX else UNKNOWN) (index.elim [] Whole.text)

def regionRange (first last : Option Whole) : Bytes :=
  match first, last with
  | some first, some last => regionAppend path RANGE (first.text ++ COLON :: last.text)
  | _, _ => regionAppend path UNKNOWN []

def regionPartition (side : Side) : Bytes := regionAppend path PARTITION side.text

end Append

structure Piece where
  kind : UInt8
  value : Bytes
deriving DecidableEq

/-- One turn of the loop; the lengths that `regionAppend` writes are digits, and every other text counts as none. -/
def readPiece : Bytes → Option (Piece × Bytes)
  | slash :: kind :: rest =>
    if slash ≠ SLASH then none
    else
      let digits := rest.takeWhile (· ≠ COLON)
      match rest.dropWhile (· ≠ COLON) with
      | [] => none
      | _ :: rest =>
        if digits = [] || !digits.all isDigit then none
        else some (⟨kind, rest.take (value digits)⟩, rest.drop (value digits))
  | _ => none

def readPieces : ℕ → Bytes → Option (List Piece)
  | _, [] => some []
  | 0, _ => none
  | fuel + 1, path => do
    let (piece, rest) ← readPiece path
    let pieces ← readPieces fuel rest
    some (piece :: pieces)

/-- Every turn takes a byte at least, so the length of the path is enough. -/
def regionSegments (path : Bytes) : List Piece := (readPieces path.length path).getD [⟨UNKNOWN, []⟩]

/-- `-?%d+` -/
def matchInteger (text : Bytes) : Option (Bytes × Bytes) :=
  let sign := if text.head? = some minus then [minus] else []
  let rest := text.drop sign.length
  let digits := rest.takeWhile isDigit
  if digits = [] then none else some (sign ++ digits, rest.dropWhile isDigit)

/-- `value:match("^(-?%d+):(-?%d+)$")` -/
def bounds (value : Bytes) : Option (Bytes × Bytes) := do
  let (first, rest) ← matchInteger value
  match rest with
  | [] => none
  | colon :: rest =>
    if colon ≠ COLON then none
    else
      let (last, rest) ← matchInteger rest
      if rest = [] then some (first, last) else none

section Overlap

variable (other : Bytes → Option Number)

/-- `tonumber(a) < tonumber(b)`, of texts that are numbers. -/
def below (a b : Bytes) : Bool :=
  match tonumber other a, tonumber other b with
  | some m, some n => m.lt n
  | _, _ => false

/-- The loop over the segments both paths have. -/
def overlap : List Piece → List Piece → Bool
  | x :: a, y :: b =>
    if x.kind = UNKNOWN || y.kind = UNKNOWN then true
    else if x.kind = RANGE && y.kind = RANGE then
      match bounds x.value, bounds y.value with
      | some (xf, xl), some (yf, yl) => if below other xl yf || below other yl xf then false else overlap a b
      | _, _ => true
    else if (x.kind = RANGE && y.kind = INDEX) || (x.kind = INDEX && y.kind = RANGE) then
      let range := if x.kind = RANGE then x else y
      let index := if x.kind = INDEX then x else y
      match bounds range.value, tonumber other index.value with
      | some (first, last), some _ =>
        if below other index.value first || below other last index.value then false else overlap a b
      | _, _ => true
    else if x.kind ≠ y.kind || x.value ≠ y.value then false
    else overlap a b
  | _, _ => true

example (x y : Piece) (h : x.kind = UNKNOWN) : overlap other [x] [y] = true := by
  rw [overlap, if_pos (by simp [h])]

def regionsOverlap (left right : Bytes) : Bool := overlap other (regionSegments left) (regionSegments right)

end Overlap

/-- What a segment is appended for. -/
inductive Segment
  | field (name : Bytes)
  | tupleSlot (slot : Whole)
  | deref
  | index (index : Option Whole)
  | range (first last : Option Whole)
  | partition (side : Side)

def Segment.append (path : Bytes) : Segment → Bytes
  | .field name => regionField path name
  | .tupleSlot slot => regionTupleSlot path slot
  | .deref => regionDeref path
  | .index i => regionIndex path i
  | .range first last => regionRange path first last
  | .partition side => regionPartition path side

def pathOf (segments : List Segment) : Bytes := segments.foldl Segment.append []

end Nupp.regions

/-! A path gives back the segments it was built from, and two paths that can share memory overlap where no partition side
stands against an element. -/

namespace Nupp.regions

open Double Decimal Nupp.Data

/-- A part of a container. -/
inductive Part
  | field (name : Bytes)
  | slot (n : ℤ)
  | target
  | element (n : ℤ)

abbrev Location := List Part

/-- The parts that a segment stands for, where `sides` holds the elements of each side of the container. -/
def Segment.Selects (sides : Side → ℤ → Prop) (p : Part) : Segment → Prop
  | .field name => p = .field name
  | .tupleSlot slot => ∃ n : ℤ, slot.number.value = n ∧ p = .slot n
  | .deref => p = .target
  | .index (some i) => ∃ n : ℤ, i.number.value = n ∧ p = .element n
  | .range (some first) (some last) => ∃ n : ℤ, first.number.value ≤ n ∧ n ≤ last.number.value ∧ p = .element n
  | .partition side => ∃ n, sides side n ∧ p = .element n
  | .index none | .range .. => True

/-- The location lies in the region of a path that begins at `container`. -/
def Within (sides : Location → Side → ℤ → Prop) : Location → List Segment → Location → Prop
  | _, [], _ => True
  | _, _ :: _, [] => False
  | container, segment :: path, p :: rest =>
    segment.Selects (sides container) p ∧ Within sides (container ++ [p]) path rest

/-- Two paths can denote a common location, whatever elements each of two disjoint sides of a container has. -/
def MayShare (a b : List Segment) : Prop :=
  ∃ sides : Location → Side → ℤ → Prop, (∀ container n, ¬(sides container .left n ∧ sides container .right n)) ∧
    ∃ location, Within sides [] a location ∧ Within sides [] b location

def Whole.Short (w : Whole) : Prop := |w.number.value| < 10 ^ 14

/-- A range whose bounds are written in digits. -/
def Segment.Plain : Segment → Prop
  | .range (some first) (some last) => first.Short ∧ last.Short
  | _ => True

def Segment.isElement : Segment → Bool
  | .index (some _) | .range (some _) (some _) => true
  | _ => false

def Segment.isUnknown : Segment → Bool
  | .index none | .range none _ | .range _ none => true
  | _ => false

/-- A pair that is not decided: an unknown segment, or a range with a bound of fifteen digits or more against an element. -/
def Vague (x y : Segment) : Prop :=
  x.isUnknown = true ∨ y.isUnknown = true ∨
    x.isElement = true ∧ y.isElement = true ∧ ¬(x.Plain ∧ y.Plain)

/-- A partition side against an element, or zeros of two signs. -/
def Clash : Segment → Segment → Prop
  | .partition _, y => y.isElement = true
  | .index (some i), .index (some j) => i.number.negative ≠ j.number.negative
  | .tupleSlot i, .tupleSlot j => i.number.negative ≠ j.number.negative
  | x, .partition _ => x.isElement = true
  | _, _ => False

/-- Two paths have a clash before which every pair is decided. -/
def Apart : List Segment → List Segment → Prop
  | x :: a, y :: b => ¬Vague x y ∧ (Clash x y ∨ Apart a b)
  | _, _ => False

def Segment.piece : Segment → Piece
  | .field name => ⟨FIELD, name⟩
  | .tupleSlot slot => ⟨TUPLE, slot.text⟩
  | .deref => ⟨DEREF, []⟩
  | .index (some i) => ⟨INDEX, i.text⟩
  | .range (some first) (some last) => ⟨RANGE, first.text ++ COLON :: last.text⟩
  | .partition side => ⟨PARTITION, side.text⟩
  | .index none | .range .. => ⟨UNKNOWN, []⟩

section Recover

theorem regionAppend_eq (path : Bytes) (kind : UInt8) (text : Bytes) :
    regionAppend path kind text = path ++ regionAppend [] kind text := by
  simp [regionAppend]

theorem append_eq (path : Bytes) (segment : Segment) :
    segment.append path = path ++ regionAppend [] segment.piece.kind segment.piece.value := by
  rcases segment with name | slot | _ | (_ | i) | ⟨_ | first, _ | last⟩ | side <;>
    exact regionAppend_eq path _ _

theorem pathOf_eq (segments : List Segment) :
    pathOf segments = segments.flatMap fun s => regionAppend [] s.piece.kind s.piece.value := by
  have hfrom : ∀ path, segments.foldl Segment.append path =
      path ++ segments.flatMap fun s => regionAppend [] s.piece.kind s.piece.value := by
    induction segments with
    | nil => simp
    | cons segment rest ih =>
      intro path
      rw [List.foldl_cons, ih, append_eq, List.flatMap_cons, List.append_assoc]
  exact hfrom []

theorem readPiece_append (kind : UInt8) (text rest : Bytes) :
    readPiece (regionAppend [] kind text ++ rest) = some (⟨kind, text⟩, rest) := by
  have hdigits : ∀ b ∈ numeral text.length, isDigit b = true := fun b hb => isDigit_of_mem_numeral hb
  have hcolon : ∀ b ∈ numeral text.length, (decide (b ≠ COLON)) = true := by
    intro b hb
    have hdigit := hdigits b hb
    simp only [ne_eq, decide_not, Bool.not_eq_true', decide_eq_false_iff_not]
    rintro rfl
    exact absurd hdigit (by decide)
  have hshape : regionAppend [] kind text ++ rest =
      SLASH :: kind :: (numeral text.length ++ COLON :: (text ++ rest)) := by
    simp [regionAppend]
  have hall : (numeral text.length).all isDigit = true := List.all_eq_true.mpr hdigits
  have htake : (numeral text.length ++ COLON :: (text ++ rest)).takeWhile (fun b => decide (b ≠ COLON)) =
      numeral text.length := by
    rw [List.takeWhile_append_of_pos hcolon, List.takeWhile_cons_of_neg (by simp), List.append_nil]
  have hdrop : (numeral text.length ++ COLON :: (text ++ rest)).dropWhile (fun b => decide (b ≠ COLON)) =
      COLON :: (text ++ rest) := by
    rw [List.dropWhile_append_of_pos hcolon, List.dropWhile_cons_of_neg (by simp)]
  rw [hshape]
  simp only [readPiece, ne_eq, not_true_eq_false, if_false, htake, hdrop, numeral_ne_nil, hall, decide_false,
    Bool.not_true, Bool.or_self, Bool.false_eq_true, value_numeral, List.take_left, List.drop_left]

theorem readPieces_pathOf (segments : List Segment) {fuel : ℕ} (h : segments.length ≤ fuel) :
    readPieces fuel (segments.flatMap fun s => regionAppend [] s.piece.kind s.piece.value) =
      some (segments.map Segment.piece) := by
  induction segments generalizing fuel with
  | nil => cases fuel <;> rfl
  | cons segment rest ih =>
    obtain ⟨fuel, rfl⟩ : ∃ k, fuel = k + 1 := ⟨fuel - 1, by simp at h; omega⟩
    have hpath : ∃ b path, regionAppend [] segment.piece.kind segment.piece.value ++
        (rest.flatMap fun s => regionAppend [] s.piece.kind s.piece.value) = b :: path := ⟨SLASH, _, rfl⟩
    rw [List.flatMap_cons]
    have hread := readPiece_append segment.piece.kind segment.piece.value
      (rest.flatMap fun s => regionAppend [] s.piece.kind s.piece.value)
    obtain ⟨b, path, hpath⟩ := hpath
    rw [hpath] at hread ⊢
    simp only [readPieces, hread, Option.bind_eq_bind, Option.bind_some, ih (Nat.le_of_succ_le_succ h), List.map_cons]

theorem regionSegments_pathOf (segments : List Segment) :
    regionSegments (pathOf segments) = segments.map Segment.piece := by
  have hlength : segments.length ≤ (pathOf segments).length := by
    rw [pathOf_eq]
    induction segments with
    | nil => simp
    | cons segment rest ih =>
      have hpos : 0 < (regionAppend [] segment.piece.kind segment.piece.value).length := by simp [regionAppend]
      rw [List.flatMap_cons, List.length_append, List.length_cons]
      omega
  rw [regionSegments, pathOf_eq, readPieces_pathOf segments (pathOf_eq segments ▸ hlength)]
  rfl

end Recover

section Texts

theorem Whole.magnitude_eq (w : Whole) : ∃ n : ℕ, w.number.magnitude = n := by
  obtain ⟨n, hn⟩ := w.whole
  refine ⟨n.natAbs, ?_⟩
  rw [← abs_value, hn, Nat.cast_natAbs]
  push_cast
  rfl

theorem Whole.text_eq (w : Whole) :
    w.text = (if w.number.negative then [minus] else []) ++
      if w.number.mantissa = 0 then [48] else formatPositive 14 w.number.magnitude := rfl

/-- A short number is written in its digits and reads as itself. -/
theorem Whole.text_short {w : Whole} (h : w.Short) :
    (∃ n, w.text = (if w.number.negative then [minus] else []) ++ numeral n) ∧
      ∀ other, ∃ m, tonumber other w.text = some m ∧ m.Is w.number.value := by
  obtain ⟨n, hn⟩ := w.magnitude_eq
  have hless : n < 10 ^ (13 + 1) := by
    have hshort : |w.number.value| < 10 ^ 14 := h
    rw [abs_value, hn] at hshort
    exact_mod_cast hshort
  have htext : w.text = (if w.number.negative then [minus] else []) ++ numeral n := by
    rw [w.text_eq]
    by_cases hzero : w.number.mantissa = 0
    · have hn0 : n = 0 := by
        rw [magnitude_eq_zero.mpr hzero] at hn
        exact_mod_cast hn.symm
      have hdigits : numeral 0 = [48] := by
        rw [numeral, if_pos (by norm_num)]
        rfl
      rw [if_pos hzero, hn0, hdigits]
    · have hpos : 0 < n := by
        have hmag := magnitude_pos hzero
        rw [hn] at hmag
        exact_mod_cast hmag
      rw [if_neg hzero, hn, formatPositive_whole hpos hless]
  refine ⟨⟨n, htext⟩, fun other => ?_⟩
  have hscan := @scanNumeral_parts w.number.negative (numeral n) [] [] 0
    (fun b hb => isDigit_of_mem_numeral hb) (numeral_ne_nil n) (by simp) (by simp) rfl
  simp only [withFraction, if_true, List.append_nil, value_numeral, List.length_nil, Nat.cast_zero, sub_zero] at hscan
  rw [htext, tonumber, hscan]
  simp only [zpow_zero, mul_one]
  refine ⟨_, rfl, ?_⟩
  by_cases hzero : w.number.mantissa = 0
  · have hn0 : n = 0 := by
      rw [magnitude_eq_zero.mpr hzero] at hn
      exact_mod_cast hn.symm
    rw [nearest, dif_neg (by simp [hn0]), value_eq_zero.mpr hzero]
    exact ⟨_, rfl, value_zero _⟩
  · rw [← hn, nearest_magnitude (Nat.pos_of_ne_zero hzero)]
    exact ⟨_, rfl, rfl⟩

/-- A long one has an exponent, and reads as a long number of its sign. -/
theorem Whole.text_long {w : Whole} (h : ¬w.Short) :
    (∃ d fraction k, isDigit d = true ∧
      w.text = (if w.number.negative then [minus] else []) ++ (withFraction [d] fraction ++ exponentText k)) ∧
      ∀ other, ∃ m, tonumber other w.text = some m ∧
        ((∃ x, m = .finite x ∧ x.negative = w.number.negative ∧ 10 ^ 14 ≤ x.magnitude) ∨
          m = .infinity w.number.negative) := by
  have hlarge : (10 : ℚ) ^ (13 + 1) ≤ w.number.magnitude := by
    rw [← abs_value]
    exact not_lt.mp h
  have hzero : w.number.mantissa ≠ 0 := by
    intro hzero
    rw [magnitude_eq_zero.mpr hzero] at hlarge
    norm_num at hlarge
  obtain ⟨d, fraction, k, hd, hformat, hvalue⟩ := formatPositive_exponent hlarge
  have htext := w.text_eq
  rw [if_neg hzero] at htext
  refine ⟨⟨d, fraction, k, hd, by rw [htext, hformat]⟩, fun other => ?_⟩
  obtain ⟨n, hscan, hsign, hread⟩ := scanNumeral_formatPositive w.number.negative (p := 13) (magnitude_pos hzero)
  rw [htext, tonumber, hscan]
  simp only [hsign, hread]
  refine ⟨_, rfl, ?_⟩
  have hcast : ((10 ^ 14 : ℕ) : ℚ) ≤
      (significant (13 + 1) w.number.magnitude).1 * 10 ^ ((significant (13 + 1) w.number.magnitude).2 - (13 : ℕ)) := by
    push_cast
    exact_mod_cast hvalue
  rcases le_nearest w.number.negative (n := 10 ^ 14) (by norm_num) (by norm_num) hcast with
    ⟨x, hx, hnegative, hmag⟩ | hinf
  · exact .inl ⟨x, hx, hnegative, by exact_mod_cast hmag⟩
  · exact .inr hinf

theorem Whole.text_head (w : Whole) : ∃ digits rest, digits ≠ [] ∧ (∀ b ∈ digits, isDigit b = true) ∧
    (∀ b ∈ rest.head?, isDigit b = false ∧ b ≠ COLON) ∧
    w.text = (if w.number.negative then [minus] else []) ++ (digits ++ rest) ∧ (rest = [] ↔ w.Short) := by
  by_cases h : w.Short
  · obtain ⟨⟨n, htext⟩, -⟩ := w.text_short h
    exact ⟨numeral n, [], numeral_ne_nil n, fun b hb => isDigit_of_mem_numeral hb, by simp, by simp [htext], by simp [h]⟩
  · obtain ⟨⟨d, fraction, k, hd, htext⟩, -⟩ := w.text_long h
    have hdigits : ∀ b ∈ [d], isDigit b = true := fun b hb => List.mem_singleton.mp hb ▸ hd
    by_cases hfraction : fraction = []
    · refine ⟨[d], exponentText k, by simp, hdigits, ?_, by simpa [withFraction, hfraction] using htext,
        by simp [exponentText, h]⟩
      intro b hb
      simp only [exponentText, List.head?_cons, Option.mem_def, Option.some.injEq] at hb
      subst hb
      decide
    · refine ⟨[d], dot :: fraction ++ exponentText k, by simp, hdigits, ?_,
        by simpa [withFraction, hfraction] using htext, by simp [h]⟩
      intro b hb
      simp only [List.cons_append, List.head?_cons, Option.mem_def, Option.some.injEq] at hb
      subst hb
      decide

theorem matchInteger_eq (negative : Bool) {digits rest : Bytes} (hne : digits ≠ [])
    (hdigits : ∀ b ∈ digits, isDigit b = true) (hrest : ∀ b ∈ rest.head?, isDigit b = false) :
    matchInteger ((if negative then [minus] else []) ++ (digits ++ rest)) =
      some ((if negative then [minus] else []) ++ digits, rest) := by
  obtain ⟨htake, hdrop⟩ := takeWhile_digits rest hdigits hrest
  cases negative with
  | true => simp [matchInteger, htake, hdrop, hne]
  | false =>
    obtain ⟨d, digits, rfl⟩ := List.exists_cons_of_ne_nil hne
    have hd : d ≠ minus := ne_minus_of_isDigit (hdigits d (by simp))
    simp only [List.cons_append] at htake hdrop
    simp [matchInteger, hd, htake, hdrop]

/-- The bounds of a range can be read where both are written in digits. -/
theorem bounds_eq (first last : Whole) :
    (first.Short ∧ last.Short → bounds (first.text ++ COLON :: last.text) = some (first.text, last.text)) ∧
      (¬(first.Short ∧ last.Short) → bounds (first.text ++ COLON :: last.text) = none) := by
  obtain ⟨digits, rest, hne, hdigits, hrest, htext, hshort⟩ := first.text_head
  obtain ⟨digits', rest', hne', hdigits', hrest', htext', hshort'⟩ := last.text_head
  have hcolon : isDigit COLON = false := by decide
  have hstop : ∀ b ∈ (rest ++ COLON :: last.text).head?, isDigit b = false := by
    intro b hb
    cases rest with
    | nil => simpa using (Option.some.inj hb) ▸ hcolon
    | cons c rest => exact (hrest b hb).1
  have hfirst : matchInteger (first.text ++ COLON :: last.text) =
      some ((if first.number.negative then [minus] else []) ++ digits, rest ++ COLON :: last.text) := by
    rw [htext, List.append_assoc, List.append_assoc]
    exact matchInteger_eq _ hne hdigits hstop
  have hlast : matchInteger last.text = some ((if last.number.negative then [minus] else []) ++ digits', rest') := by
    rw [htext']
    exact matchInteger_eq _ hne' hdigits' fun b hb => (hrest' b hb).1
  constructor
  · rintro ⟨hs, hs'⟩
    obtain rfl := hshort.mpr hs
    obtain rfl := hshort'.mpr hs'
    rw [List.append_nil] at htext htext'
    simp only [bounds, hfirst, Option.bind_eq_bind, Option.bind_some, List.nil_append, ne_eq, not_true_eq_false,
      if_false, hlast, if_true, ← htext, ← htext']
  · intro hlong
    cases rest with
    | nil =>
      have hs : first.Short := hshort.mp rfl
      have hne' : rest' ≠ [] := fun hnil => hlong ⟨hs, hshort'.mp hnil⟩
      simp only [bounds, hfirst, Option.bind_eq_bind, Option.bind_some, List.nil_append, ne_eq, not_true_eq_false,
        if_false, hlast, hne']
    | cons c rest =>
      have hc : c ≠ COLON := (hrest c rfl).2
      simp [bounds, hfirst, hc]

/-- A comparison with a short number is that of the numbers. -/
theorem below_text (other : Bytes → Option Number) (w : Whole) {bound : Whole} (h : bound.Short) :
    (below other w.text bound.text = true ↔ w.number.value < bound.number.value) ∧
      (below other bound.text w.text = true ↔ bound.number.value < w.number.value) := by
  obtain ⟨-, hbound⟩ := bound.text_short h
  obtain ⟨n, hn, hread⟩ := hbound other
  by_cases hw : w.Short
  · obtain ⟨-, hshort⟩ := w.text_short hw
    obtain ⟨m, hm, hreadw⟩ := hshort other
    simp only [below, hn, hm]
    exact ⟨lt_iff hreadw hread, lt_iff hread hreadw⟩
  · obtain ⟨-, hlong⟩ := w.text_long hw
    obtain ⟨m, hm, hlarge⟩ := hlong other
    obtain ⟨x, rfl, hx⟩ := hread
    simp only [below, hn, hm]
    have hlow : -(10 : ℚ) ^ 14 < bound.number.value := (abs_lt.mp h).1
    have hhigh : bound.number.value < (10 : ℚ) ^ 14 := (abs_lt.mp h).2
    have hmag : (10 : ℚ) ^ 14 ≤ w.number.magnitude := by
      rw [← abs_value]
      exact not_lt.mp hw
    cases hsign : w.number.negative with
    | true =>
      have hvalue : w.number.value = -w.number.magnitude := by simp [Finite.value, hsign]
      rw [hsign] at hlarge
      have hless : m.lt (.finite x) = true ∧ (Number.finite x).lt m = false := by
        rcases hlarge with ⟨y, rfl, hy, hymag⟩ | rfl
        · have hyvalue : y.value = -y.magnitude := by simp [Finite.value, hy]
          simp only [Number.lt, decide_eq_true_eq, decide_eq_false_iff_not, not_lt]
          constructor <;> linarith
        · exact ⟨rfl, rfl⟩
      rw [hless.1, hless.2, hvalue]
      constructor
      · exact iff_of_true rfl (by linarith)
      · exact iff_of_false (by simp) (by linarith)
    | false =>
      have hvalue : w.number.value = w.number.magnitude := by simp [Finite.value, hsign]
      rw [hsign] at hlarge
      have hless : m.lt (.finite x) = false ∧ (Number.finite x).lt m = true := by
        rcases hlarge with ⟨y, rfl, hy, hymag⟩ | rfl
        · have hyvalue : y.value = y.magnitude := by simp [Finite.value, hy]
          simp only [Number.lt, decide_eq_true_eq, decide_eq_false_iff_not, not_lt]
          constructor <;> linarith
        · exact ⟨rfl, rfl⟩
      rw [hless.1, hless.2, hvalue]
      constructor
      · exact iff_of_false (by simp) (by linarith)
      · exact iff_of_true rfl (by linarith)

theorem Whole.reads (w : Whole) (other : Bytes → Option Number) : ∃ m, tonumber other w.text = some m := by
  by_cases h : w.Short
  · obtain ⟨m, hm, -⟩ := (w.text_short h).2 other
    exact ⟨m, hm⟩
  · obtain ⟨m, hm, -⟩ := (w.text_long h).2 other
    exact ⟨m, hm⟩

/-- Numbers that are equal are written alike, but for the sign of zero. -/
theorem Whole.text_eq_iff {v w : Whole} (h : v.number.value = w.number.value) :
    v.text = w.text ↔ v.number.negative = w.number.negative := by
  have hmag : v.number.magnitude = w.number.magnitude := by rw [← abs_value, ← abs_value, h]
  have hzero : v.number.mantissa = 0 ↔ w.number.mantissa = 0 := by
    rw [← magnitude_eq_zero, hmag, magnitude_eq_zero]
  constructor
  · intro htext
    by_contra hsign
    by_cases hv : v.number.mantissa = 0
    · rw [v.text_eq, w.text_eq, if_pos hv, if_pos (hzero.mp hv)] at htext
      revert htext hsign
      cases v.number.negative <;> cases w.number.negative <;> simp
    · have hpos := magnitude_pos hv
      have hpos' := hmag ▸ hpos
      revert h hsign
      simp only [Finite.value]
      cases v.number.negative <;> cases w.number.negative <;> simp <;> intro <;> linarith
  · intro hsign
    rw [v.text_eq, w.text_eq, hsign, hmag]
    simp only [hzero]

end Texts

section Overlap

variable (other : Bytes → Option Number)

theorem overlap_unknown {x y : Piece} (h : x.kind = UNKNOWN ∨ y.kind = UNKNOWN) (a b : List Piece) :
    overlap other (x :: a) (y :: b) = true := by
  simp [overlap, h]

/-- The pairs whose values are compared as numbers. -/
def Numeric (x y : Piece) : Prop :=
  x.kind = RANGE ∧ y.kind = RANGE ∨ x.kind = RANGE ∧ y.kind = INDEX ∨ x.kind = INDEX ∧ y.kind = RANGE

theorem overlap_differ {x y : Piece} (hunknown : ¬(x.kind = UNKNOWN ∨ y.kind = UNKNOWN)) (hnumeric : ¬Numeric x y)
    (h : x.kind ≠ y.kind ∨ x.value ≠ y.value) (a b : List Piece) : overlap other (x :: a) (y :: b) = false := by
  obtain ⟨hrr, hmixed⟩ := not_or.mp hnumeric
  have hne : (x.kind ≠ y.kind || x.value ≠ y.value) = true := by simpa using h
  rw [overlap, if_neg (by simpa using hunknown), if_neg (by simpa using hrr), if_neg (by simpa using hmixed),
    if_pos hne]

theorem overlap_same {x : Piece} (hx : x.kind ≠ UNKNOWN) (hrange : x.kind ≠ RANGE) (a b : List Piece) :
    overlap other (x :: a) (x :: b) = overlap other a b := by
  simp [overlap, hx, hrange]

theorem range_ne_index : RANGE ≠ INDEX ∧ RANGE ≠ UNKNOWN ∧ INDEX ≠ UNKNOWN := by decide

theorem overlap_range_range {x y : Piece} (hx : x.kind = RANGE) (hy : y.kind = RANGE) (a b : List Piece) :
    overlap other (x :: a) (y :: b) =
      match bounds x.value, bounds y.value with
      | some (xf, xl), some (yf, yl) => if below other xl yf || below other yl xf then false else overlap other a b
      | _, _ => true := by
  simp [overlap, hx, hy, range_ne_index.2.1]

theorem overlap_range_index {x y : Piece} (hx : x.kind = RANGE) (hy : y.kind = INDEX) (a b : List Piece) :
    overlap other (x :: a) (y :: b) =
      match bounds x.value, tonumber other y.value with
      | some (first, last), some _ =>
        if below other y.value first || below other last y.value then false else overlap other a b
      | _, _ => true := by
  simp [overlap, hx, hy, range_ne_index, range_ne_index.1.symm]

theorem overlap_index_range {x y : Piece} (hx : x.kind = INDEX) (hy : y.kind = RANGE) (a b : List Piece) :
    overlap other (x :: a) (y :: b) =
      match bounds y.value, tonumber other x.value with
      | some (first, last), some _ =>
        if below other x.value first || below other last x.value then false else overlap other a b
      | _, _ => true := by
  simp [overlap, hx, hy, range_ne_index, range_ne_index.1.symm]

/-- The order of two paths does not matter. -/
theorem overlap_comm (a b : List Piece) : overlap other a b = overlap other b a := by
  induction a generalizing b with
  | nil => cases b <;> rfl
  | cons x a ih =>
    cases b with
    | nil => rfl
    | cons y b =>
      by_cases hunknown : x.kind = UNKNOWN ∨ y.kind = UNKNOWN
      · rw [overlap_unknown other hunknown, overlap_unknown other hunknown.symm]
      · obtain ⟨hx, hy⟩ := not_or.mp hunknown
        by_cases hrr : x.kind = RANGE ∧ y.kind = RANGE
        · rw [overlap_range_range other hrr.1 hrr.2, overlap_range_range other hrr.2 hrr.1]
          rcases bounds x.value with _ | ⟨xf, xl⟩ <;> rcases bounds y.value with _ | ⟨yf, yl⟩ <;> try rfl
          simp only [ih b, Bool.or_comm]
        · by_cases hri : x.kind = RANGE ∧ y.kind = INDEX
          · rw [overlap_range_index other hri.1 hri.2, overlap_index_range other hri.2 hri.1]
            simp only [ih b]
          · by_cases hir : x.kind = INDEX ∧ y.kind = RANGE
            · rw [overlap_index_range other hir.1 hir.2, overlap_range_index other hir.2 hir.1]
              simp only [ih b]
            · by_cases hsame : x = y
              · subst hsame
                have hrange : x.kind ≠ RANGE := fun h => hrr ⟨h, h⟩
                rw [overlap_same other hx hrange, overlap_same other hx hrange, ih b]
              · have hne : x.kind ≠ y.kind ∨ x.value ≠ y.value := by
                  by_contra hboth
                  push Not at hboth
                  exact hsame (by cases x; cases y; simpa using hboth)
                have hne' : y.kind ≠ x.kind ∨ y.value ≠ x.value := hne.imp Ne.symm Ne.symm
                have hnumeric : ¬Numeric x y := not_or.mpr ⟨hrr, not_or.mpr ⟨hri, hir⟩⟩
                have hnumeric' : ¬Numeric y x := by
                  rintro (⟨hyr, hxr⟩ | ⟨hyr, hxi⟩ | ⟨hyi, hxr⟩)
                  · exact hrr ⟨hxr, hyr⟩
                  · exact hir ⟨hxi, hyr⟩
                  · exact hri ⟨hxr, hyi⟩
                rw [overlap_differ other hunknown hnumeric hne,
                  overlap_differ other (fun h => hunknown h.symm) hnumeric' hne']

theorem unknown_iff (s : Segment) : s.isUnknown = true ↔ s.piece.kind = UNKNOWN := by
  rcases s with name | slot | _ | (_ | i) | ⟨_ | first, _ | last⟩ | side <;>
    simp only [Segment.isUnknown, Segment.piece, Bool.false_eq_true] <;> decide

/-- What the loop does at a pair: it answers, or it goes on. -/
structure Decides (x y : Segment) : Prop where
  vague : Vague x y → ∀ a b, overlap other (x.piece :: a) (y.piece :: b) = true
  clash : ¬Vague x y → Clash x y → ∀ a b, overlap other (x.piece :: a) (y.piece :: b) = false
  proceed : ¬Vague x y → ¬Clash x y → ∀ a b, overlap other (x.piece :: a) (y.piece :: b) = overlap other a b

variable {other}

theorem decides_unknown {x y : Segment} (h : x.isUnknown = true ∨ y.isUnknown = true) : Decides other x y where
  vague _ a b := overlap_unknown other (h.imp (unknown_iff x).mp (unknown_iff y).mp) a b
  clash hvague := absurd (by unfold Vague; tauto) hvague
  proceed hvague := absurd (by unfold Vague; tauto) hvague

/-- A pair whose pieces are compared as texts. -/
theorem decides_text {x y : Segment} (hx : x.isUnknown = false) (hy : y.isUnknown = false)
    (hnumeric : ¬Numeric x.piece y.piece) (helement : ¬(x.isElement = true ∧ y.isElement = true ∧ ¬(x.Plain ∧ y.Plain)))
    (h : Clash x y ↔ x.piece ≠ y.piece) : Decides other x y := by
  have hunknown : ¬(x.piece.kind = UNKNOWN ∨ y.piece.kind = UNKNOWN) := by
    rw [← unknown_iff, ← unknown_iff, hx, hy]
    simp
  refine ⟨fun hvague => ?_, fun _ hclash a b => ?_, fun _ hclash a b => ?_⟩
  · rcases hvague with hv | hv | hv
    · simp [hx] at hv
    · simp [hy] at hv
    · exact absurd hv helement
  · refine overlap_differ other hunknown hnumeric ?_ a b
    by_contra hboth
    push Not at hboth
    have hsame : ∀ p q : Piece, p.kind = q.kind → p.value = q.value → p = q := by
      rintro ⟨_, _⟩ ⟨_, _⟩ rfl rfl
      rfl
    exact h.mp hclash (hsame _ _ hboth.1 hboth.2)
  · have hsame : x.piece = y.piece := not_not.mp fun hne => hclash (h.mpr hne)
    rw [← hsame] at hnumeric ⊢
    exact overlap_same other (fun hu => hunknown (.inl hu)) (fun hr => hnumeric (.inl ⟨hr, hr⟩)) a b

theorem decides_ranges {f l f' l' : Whole} {n : ℤ} (hf : f.number.value ≤ n) (hl : n ≤ l.number.value)
    (hf' : f'.number.value ≤ n) (hl' : n ≤ l'.number.value) :
    Decides other (.range (some f) (some l)) (.range (some f') (some l')) := by
  have hkind : (Segment.range (some f) (some l)).piece.kind = RANGE ∧
      (Segment.range (some f') (some l')).piece.kind = RANGE := ⟨rfl, rfl⟩
  have hclash : ¬Clash (.range (some f) (some l)) (.range (some f') (some l')) := by simp [Clash]
  have hvague : Vague (.range (some f) (some l)) (.range (some f') (some l')) ↔
      ¬((f.Short ∧ l.Short) ∧ f'.Short ∧ l'.Short) := by
    simp [Vague, Segment.isUnknown, Segment.isElement, Segment.Plain]
  refine ⟨fun hlong a b => ?_, fun _ h => absurd h hclash, fun hshort _ a b => ?_⟩
  · rw [overlap_range_range other hkind.1 hkind.2]
    by_cases hfirst : f.Short ∧ l.Short
    · have hsecond : ¬(f'.Short ∧ l'.Short) := fun h => hvague.mp hlong ⟨hfirst, h⟩
      have hnone := (bounds_eq f' l').2 hsecond
      simp only [Segment.piece, (bounds_eq f l).1 hfirst, hnone]
    · simp only [Segment.piece, (bounds_eq f l).2 hfirst]
  · obtain ⟨hfirst, hsecond⟩ := not_not.mp fun h => hshort (hvague.mpr h)
    have h1 : ¬below other l.text f'.text = true := by
      rw [(below_text other l hsecond.1).1]
      linarith
    have h2 : ¬below other l'.text f.text = true := by
      rw [(below_text other l' hfirst.1).1]
      linarith
    rw [overlap_range_range other hkind.1 hkind.2]
    simp only [Segment.piece, (bounds_eq f l).1 hfirst, (bounds_eq f' l').1 hsecond, h1, h2, Bool.or_self,
      Bool.false_eq_true, if_false]

theorem decides_range_index {f l i : Whole} (hf : f.number.value ≤ i.number.value)
    (hl : i.number.value ≤ l.number.value) :
    Decides other (.range (some f) (some l)) (.index (some i)) ∧
      Decides other (.index (some i)) (.range (some f) (some l)) := by
  have hkind : (Segment.range (some f) (some l)).piece.kind = RANGE ∧ (Segment.index (some i)).piece.kind = INDEX :=
    ⟨rfl, rfl⟩
  have hclash : ¬Clash (.range (some f) (some l)) (.index (some i)) ∧
      ¬Clash (.index (some i)) (.range (some f) (some l)) := by simp [Clash]
  have hvague : (Vague (.range (some f) (some l)) (.index (some i)) ↔ ¬(f.Short ∧ l.Short)) ∧
      (Vague (.index (some i)) (.range (some f) (some l)) ↔ ¬(f.Short ∧ l.Short)) := by
    simp [Vague, Segment.isUnknown, Segment.isElement, Segment.Plain]
  obtain ⟨m, hm⟩ := i.reads other
  have hlong : ¬(f.Short ∧ l.Short) → ∀ a b, overlap other ((Segment.range (some f) (some l)).piece :: a)
      ((Segment.index (some i)).piece :: b) = true := by
    intro h a b
    rw [overlap_range_index other hkind.1 hkind.2]
    simp only [Segment.piece, (bounds_eq f l).2 h]
  have hshort : f.Short ∧ l.Short → ∀ a b, overlap other ((Segment.range (some f) (some l)).piece :: a)
      ((Segment.index (some i)).piece :: b) = overlap other a b := by
    intro h a b
    have h1 : ¬below other i.text f.text = true := by
      rw [(below_text other i h.1).1]
      linarith
    have h2 : ¬below other l.text i.text = true := by
      rw [(below_text other i h.2).2]
      linarith
    rw [overlap_range_index other hkind.1 hkind.2]
    simp only [Segment.piece, (bounds_eq f l).1 h, hm, h1, h2, Bool.or_self, Bool.false_eq_true, if_false]
  constructor
  · exact ⟨fun h => hlong (hvague.1.mp h), fun _ h => absurd h hclash.1,
      fun h _ => hshort (not_not.mp fun hn => h (hvague.1.mpr hn))⟩
  · refine ⟨fun h a b => ?_, fun _ h => absurd h hclash.2, fun h _ a b => ?_⟩
    · rw [overlap_comm]
      exact hlong (hvague.2.mp h) b a
    · rw [overlap_comm, hshort (not_not.mp fun hn => h (hvague.2.mpr hn)), overlap_comm]

/-- Segments that stand for a common part. -/
theorem decides_of_selects {sides : Side → ℤ → Prop} (hsides : ∀ n, ¬(sides .left n ∧ sides .right n)) {x y : Segment}
    {p : Part} (hx : x.Selects sides p) (hy : y.Selects sides p) : Decides other x y := by
  by_cases hunknown : x.isUnknown = true ∨ y.isUnknown = true
  · exact decides_unknown hunknown
  obtain ⟨hux, huy⟩ := not_or.mp hunknown
  rw [Bool.not_eq_true] at hux huy
  cases p with
  | field name =>
    obtain rfl : x = .field name := by
      rcases x with _ | _ | _ | (_ | _) | ⟨_ | _, _ | _⟩ | _ <;> simp_all [Segment.Selects, Segment.isUnknown]
    obtain rfl : y = .field name := by
      rcases y with _ | _ | _ | (_ | _) | ⟨_ | _, _ | _⟩ | _ <;> simp_all [Segment.Selects, Segment.isUnknown]
    exact decides_text rfl rfl (by simp [Numeric, Segment.piece]; decide) (by simp [Segment.isElement]) (by simp [Clash])
  | target =>
    obtain rfl : x = .deref := by
      rcases x with _ | _ | _ | (_ | _) | ⟨_ | _, _ | _⟩ | _ <;> simp_all [Segment.Selects, Segment.isUnknown]
    obtain rfl : y = .deref := by
      rcases y with _ | _ | _ | (_ | _) | ⟨_ | _, _ | _⟩ | _ <;> simp_all [Segment.Selects, Segment.isUnknown]
    exact decides_text rfl rfl (by simp [Numeric, Segment.piece]; decide) (by simp [Segment.isElement]) (by simp [Clash])
  | slot n =>
    obtain ⟨i, rfl, hi⟩ : ∃ i, x = .tupleSlot i ∧ i.number.value = n := by
      rcases x with _ | _ | _ | (_ | _) | ⟨_ | _, _ | _⟩ | _ <;> simp_all [Segment.Selects, Segment.isUnknown]
    obtain ⟨j, rfl, hj⟩ : ∃ j, y = .tupleSlot j ∧ j.number.value = n := by
      rcases y with _ | _ | _ | (_ | _) | ⟨_ | _, _ | _⟩ | _ <;> simp_all [Segment.Selects, Segment.isUnknown]
    refine decides_text rfl rfl (by simp [Numeric, Segment.piece]; decide) (by simp [Segment.isElement]) ?_
    simp [Clash, Segment.piece, Whole.text_eq_iff (hi.trans hj.symm)]
  | element n =>
    have hform : ∀ s : Segment, s.isUnknown = false → s.Selects sides (.element n) →
        (∃ i, s = .index (some i) ∧ i.number.value = n) ∨
          (∃ f l, s = .range (some f) (some l) ∧ f.number.value ≤ n ∧ n ≤ l.number.value) ∨
            ∃ side, s = .partition side ∧ sides side n := by
      intro s hs hselects
      rcases s with _ | _ | _ | (_ | _) | ⟨_ | _, _ | _⟩ | _ <;> simp_all [Segment.Selects, Segment.isUnknown]
    have hpartition : PARTITION ≠ RANGE ∧ PARTITION ≠ INDEX := by decide
    rcases hform x hux hx with ⟨i, rfl, hi⟩ | ⟨f, l, rfl, hf, hl⟩ | ⟨side, rfl, hside⟩ <;>
      rcases hform y huy hy with ⟨j, rfl, hj⟩ | ⟨f', l', rfl, hf', hl'⟩ | ⟨side', rfl, hside'⟩
    · refine decides_text rfl rfl (by simp [Numeric, Segment.piece, range_ne_index.1.symm])
        (by simp [Segment.isElement, Segment.Plain]) ?_
      simp [Clash, Segment.piece, Whole.text_eq_iff (hi.trans hj.symm)]
    · exact (decides_range_index (hi ▸ hf') (hi ▸ hl')).2
    · exact decides_text rfl rfl (by simp [Numeric, Segment.piece, hpartition]) (by simp [Segment.isElement])
        (by simp [Clash, Segment.piece, Segment.isElement, hpartition.2.symm])
    · exact (decides_range_index (hj ▸ hf) (hj ▸ hl)).1
    · exact decides_ranges hf hl hf' hl'
    · exact decides_text rfl rfl (by simp [Numeric, Segment.piece, hpartition]) (by simp [Segment.isElement])
        (by simp [Clash, Segment.piece, Segment.isElement, hpartition.1.symm])
    · exact decides_text rfl rfl (by simp [Numeric, Segment.piece, hpartition]) (by simp [Segment.isElement])
        (by simp [Clash, Segment.piece, Segment.isElement, hpartition.2])
    · exact decides_text rfl rfl (by simp [Numeric, Segment.piece, hpartition]) (by simp [Segment.isElement])
        (by simp [Clash, Segment.piece, Segment.isElement, hpartition.1])
    · obtain rfl : side = side' := by
        cases side <;> cases side' <;> try rfl
        · exact absurd ⟨hside, hside'⟩ (hsides n)
        · exact absurd ⟨hside', hside⟩ (hsides n)
      exact decides_text rfl rfl (by simp [Numeric, Segment.piece, hpartition]) (by simp [Segment.isElement])
        (by simp [Clash, Segment.isElement])

theorem overlap_of_within {sides : Location → Side → ℤ → Prop}
    (hsides : ∀ container n, ¬(sides container .left n ∧ sides container .right n)) {container location : Location}
    {a b : List Segment} (ha : Within sides container a location) (hb : Within sides container b location) :
    overlap other (a.map Segment.piece) (b.map Segment.piece) = true ↔ ¬Apart a b := by
  induction a generalizing b container location with
  | nil => cases b <;> simp [overlap, Apart]
  | cons x a ih =>
    cases b with
    | nil => simp [overlap, Apart]
    | cons y b =>
      cases location with
      | nil => exact ha.elim
      | cons p location =>
        obtain ⟨hx, ha⟩ := ha
        obtain ⟨hy, hb⟩ := hb
        have hpair : Decides other x y := decides_of_selects (hsides container) hx hy
        simp only [List.map_cons, Apart]
        by_cases hvague : Vague x y
        · simp [hpair.vague hvague, hvague]
        · by_cases hclash : Clash x y
          · simp [hpair.clash hvague hclash, hvague, hclash]
          · rw [hpair.proceed hvague hclash, ih ha hb]
            simp [hvague, hclash]

end Overlap

/-- The segments of a path are what it was built from, the overlap of two paths does not depend on their order, and
paths that can share memory overlap unless a clash stands before every pair that is not decided. -/
theorem regions_exact (other : Bytes → Option Number) (a b : List Segment) :
    regionSegments (pathOf a) = a.map Segment.piece ∧
      regionsOverlap other (pathOf a) (pathOf b) = regionsOverlap other (pathOf b) (pathOf a) ∧
      ((MayShare a b → regionsOverlap other (pathOf a) (pathOf b) = true) ↔ (MayShare a b → ¬Apart a b)) := by
  refine ⟨regionSegments_pathOf a, overlap_comm other _ _, forall_congr' ?_⟩
  rintro ⟨sides, hsides, location, ha, hb⟩
  rw [regionsOverlap, regionSegments_pathOf, regionSegments_pathOf]
  exact overlap_of_within hsides ha hb

theorem hidden_bit_lt : 2 ^ 52 < 2 ^ 53 := by norm_num

/-- The number one. -/
def one : Whole where
  number := ⟨false, 2 ^ 52, 1022, hidden_bit_lt, by norm_num, .inr (by norm_num)⟩
  whole := ⟨1, by norm_num [Finite.value, Finite.magnitude, unit]⟩

/-- The left side of a container and its first element. -/
theorem side_and_element :
    MayShare [.partition .left] [.index (some one)] ∧
      regionsOverlap (fun _ => none) (pathOf [.partition .left]) (pathOf [.index (some one)]) = false := by
  constructor
  · refine ⟨fun _ side _ => side = .left, by simp, [.element 1], ?_⟩
    have hone : one.number.value = (1 : ℤ) := by norm_num [one, Finite.value, Finite.magnitude, unit]
    exact ⟨⟨⟨1, rfl, rfl⟩, trivial⟩, ⟨1, hone, rfl⟩, trivial⟩
  · rw [regionsOverlap, regionSegments_pathOf, regionSegments_pathOf]
    exact overlap_differ _ (by simp [Segment.piece]; decide) (by simp [Numeric, Segment.piece]; decide)
      (.inl (by simp [Segment.piece]; decide)) [] []

end Nupp.regions
