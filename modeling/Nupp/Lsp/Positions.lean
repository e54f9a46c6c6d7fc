import Nupp.Text.Utf8
import Mathlib.Data.List.GetD
import Mathlib.Data.List.Induction
import Mathlib.Data.List.Pairwise
import Mathlib.Data.Nat.Find
import Nupp.Text.Utf8Back

/-! Positions of the language server protocol over a document's bytes (`nupp/tools/lsp/text.nupp`).
Lines count from zero, characters in UTF-16 code units and byte offsets from one. -/

namespace Nupp.lsp.text

open Nupp.Text

structure Position where
  line : ℕ
  character : ℕ
deriving DecidableEq

/-- The bytes and the code units of the character at an offset. -/
def utf8Char (source : Bytes) (offset : ℕ) : ℕ × ℕ :=
  match byteAt source offset with
  | none => (1, 1)
  | some first =>
    if first < 0x80 then (1, 1)
    else
      let len := if first < 0xE0 then 2 else if first < 0xF0 then 3 else 4
      (len, if len = 4 then 2 else 1)

/-- The rounds of `lineStarts` from `pos` on. -/
def lineStartsFrom (source : Bytes) : ℕ → ℕ → List ℕ → List ℕ
  | 0, _, starts => starts
  | fuel + 1, pos, starts =>
    if pos ≤ source.length then
      if byteAt source pos = some 10 then lineStartsFrom source fuel (pos + 1) (starts ++ [pos + 1])
      else if byteAt source pos = some 13 then
        let pos := if byteAt source (pos + 1) = some 10 then pos + 1 else pos
        lineStartsFrom source fuel (pos + 1) (starts ++ [pos + 1])
      else lineStartsFrom source fuel (pos + 1) starts
    else starts

/-- The offset each line starts at. -/
def lineStarts (source : Bytes) : List ℕ := lineStartsFrom source source.length 1 [1]

/-- The search of `lineOf` among the starts from `low` to `high`. -/
def lineSearch (starts : List ℕ) (offset : ℕ) : ℕ → ℕ → ℕ → ℕ
  | 0, low, _ => low
  | fuel + 1, low, high =>
    if low < high then
      let middle := (low + high + 1) / 2
      if starts.getD (middle - 1) 0 ≤ offset then lineSearch starts offset fuel middle high
      else lineSearch starts offset fuel low (middle - 1)
    else low

/-- The line an offset stands on, and the offset it starts at. -/
def lineOf (starts : List ℕ) (offset : ℕ) : ℕ × ℕ :=
  let low := lineSearch starts offset starts.length 1 starts.length
  (low - 1, starts.getD (low - 1) 0)

/-- Counts the code units from `pos` up to `offset`. -/
def countUnits (source : Bytes) (offset : ℕ) : ℕ → ℕ → ℕ → ℕ
  | 0, _, character => character
  | fuel + 1, pos, character =>
    if pos < offset ∧ pos ≤ source.length then
      let (bytes, units) := utf8Char source pos
      countUnits source offset fuel (pos + bytes) (character + units)
    else character

def positionAtOffset (source : Bytes) (offset : ℕ) : Position :=
  let (line, pos) := lineOf (lineStarts source) offset
  ⟨line, countUnits source offset source.length pos 0⟩

/-- Passes characters from `pos` on up to the one asked for, or to the end of the line. -/
def passUnits (source : Bytes) (target : ℕ) : ℕ → ℕ → ℕ → ℕ
  | 0, pos, _ => pos
  | fuel + 1, pos, character =>
    if pos ≤ source.length ∧ byteAt source pos ≠ some 10 ∧ byteAt source pos ≠ some 13 ∧ character < target then
      let (bytes, units) := utf8Char source pos
      passUnits source target fuel (pos + bytes) (character + units)
    else pos

def offsetAtPosition (source : Bytes) (target : Position) : Option ℕ :=
  ((lineStarts source)[target.line]?).map fun pos => passUnits source target.character source.length pos 0

/-- `source:sub(from, to - 1)`. -/
def between (source : Bytes) (from_ to_ : ℕ) : Bytes := (source.drop (from_ - 1)).take (to_ - from_)

/-- The lines of a text, each with its line break. -/
def splitLines (source : Bytes) : List Bytes :=
  let starts := lineStarts source
  let last := starts.getLastD 1
  (starts.zip starts.tail).map (fun (start, next) => between source start next) ++
    if last ≤ source.length then [source.drop (last - 1)] else []

end Nupp.lsp.text

/-! Offsets and positions name the same places of a valid text, and lines are cut where they start. -/

namespace Nupp.lsp.text

open Nupp.Text Utf8

variable {source : Bytes}

/-! ### Line starts -/

/-- A line starts at the front of a text and after each break, of which `\r\n` is one. -/
def LineStart (source : Bytes) (p : ℕ) : Prop :=
  p = 1 ∨ byteAt source (p - 1) = some 10 ∨ (byteAt source (p - 1) = some 13 ∧ byteAt source p ≠ some 10)

instance (source : Bytes) (p : ℕ) : Decidable (LineStart source p) := inferInstanceAs (Decidable (_ ∨ _ ∨ _))

theorem lineStart_after_lf {p : ℕ} (h : byteAt source p = some 10) : LineStart source (p + 1) := .inr (.inl h)

theorem lineStart_after {p : ℕ} (hpos : 1 ≤ p) (hlf : byteAt source p ≠ some 10) :
    LineStart source (p + 1) ↔ byteAt source p = some 13 ∧ byteAt source (p + 1) ≠ some 10 := by
  constructor
  · rintro (hone | hten | hcr)
    · omega
    · exact absurd hten hlf
    · exact hcr
  · exact fun h => .inr (.inr h)

theorem lineStartsFrom_eq {fuel pos : ℕ} (hpos : 1 ≤ pos) (hfuel : source.length + 1 - pos ≤ fuel) (starts : List ℕ) :
    lineStartsFrom source fuel pos starts =
      starts ++ (List.range' (pos + 1) (source.length + 1 - pos)).filter (LineStart source ·) := by
  induction fuel generalizing pos starts with
  | zero =>
    have hnone : source.length + 1 - pos = 0 := by omega
    rw [lineStartsFrom, hnone, List.range'_zero, List.filter_nil, List.append_nil]
  | succ fuel ih =>
    rw [lineStartsFrom]
    by_cases hle : pos ≤ source.length
    · have hcount : source.length + 1 - pos = source.length + 1 - (pos + 1) + 1 := by omega
      rw [if_pos hle, hcount, List.range'_succ]
      by_cases hlf : byteAt source pos = some 10
      · rw [if_pos hlf, ih (by omega) (by omega), List.filter_cons_of_pos (by simpa using lineStart_after_lf hlf),
          List.append_assoc]
        rfl
      · rw [if_neg hlf]
        by_cases hcr : byteAt source pos = some 13
        · rw [if_pos hcr]
          by_cases hnext : byteAt source (pos + 1) = some 10
          · -- the newline after a carriage return ends the same line
            have hno : ¬LineStart source (pos + 1) := fun h => ((lineStart_after hpos hlf).mp h).2 hnext
            have hbound := byteAt_le hnext
            have hcount' : source.length + 1 - (pos + 1) = source.length + 1 - (pos + 1 + 1) + 1 := by omega
            dsimp only
            rw [if_pos hnext, ih (by omega) (by omega), List.filter_cons_of_neg (by simpa using hno), hcount',
              List.range'_succ, List.filter_cons_of_pos (by simpa using lineStart_after_lf hnext), List.append_assoc]
            rfl
          · dsimp only
            rw [if_neg hnext, ih (by omega) (by omega), List.filter_cons_of_pos
              (by simpa using (lineStart_after hpos hlf).mpr ⟨hcr, hnext⟩), List.append_assoc]
            rfl
        · have hno : ¬LineStart source (pos + 1) := fun h => hcr ((lineStart_after hpos hlf).mp h).1
          rw [if_neg hcr, ih (by omega) (by omega), List.filter_cons_of_neg (by simpa using hno)]
    · have hnone : source.length + 1 - pos = 0 := by omega
      rw [if_neg hle, hnone, List.range'_zero, List.filter_nil, List.append_nil]

theorem lineStarts_eq (source : Bytes) :
    lineStarts source = (List.range' 1 (source.length + 1)).filter (LineStart source ·) := by
  have hone : LineStart source 1 := .inl rfl
  rw [lineStarts, lineStartsFrom_eq le_rfl (by omega), List.range'_succ, List.filter_cons_of_pos (by simpa using hone)]
  rfl

theorem lineStarts_pairwise (source : Bytes) : (lineStarts source).Pairwise (· < ·) := by
  rw [lineStarts_eq]
  exact (List.pairwise_lt_range' (s := 1)).filter _

theorem mem_lineStarts {p : ℕ} : p ∈ lineStarts source ↔ (1 ≤ p ∧ p ≤ source.length + 1) ∧ LineStart source p := by
  rw [lineStarts_eq, List.mem_filter, List.mem_range'_1, decide_eq_true_eq]
  exact and_congr_left fun _ => ⟨fun h => by omega, fun h => by omega⟩

theorem lineStarts_cons (source : Bytes) : ∃ rest, lineStarts source = 1 :: rest := by
  have hone : LineStart source 1 := .inl rfl
  rw [lineStarts_eq, List.range'_succ, List.filter_cons_of_pos (by simpa using hone)]
  exact ⟨_, rfl⟩

/-! ### The line of an offset -/

theorem lineSearch_spec {starts : List ℕ} {offset fuel low high : ℕ} (hsorted : starts.Pairwise (· < ·))
    (hfuel : high - low ≤ fuel) (hlow : 1 ≤ low) (hle : low ≤ high) (hhigh : high ≤ starts.length)
    (hbelow : starts.getD (low - 1) 0 ≤ offset) (habove : ∀ j t, high ≤ j → starts[j]? = some t → offset < t) :
    let r := lineSearch starts offset fuel low high
    1 ≤ r ∧ r ≤ starts.length ∧ starts.getD (r - 1) 0 ≤ offset ∧ ∀ j t, r ≤ j → starts[j]? = some t → offset < t := by
  induction fuel generalizing low high with
  | zero =>
    obtain rfl : low = high := by omega
    exact ⟨hlow, hhigh, hbelow, habove⟩
  | succ fuel ih =>
    rw [lineSearch]
    by_cases hlt : low < high
    · rw [if_pos hlt]
      dsimp only
      by_cases hmiddle : starts.getD ((low + high + 1) / 2 - 1) 0 ≤ offset
      · rw [if_pos hmiddle]
        exact ih (by omega) (by omega) (by omega) hhigh hmiddle habove
      · rw [if_neg hmiddle]
        refine ih (by omega) hlow (by omega) (by omega) hbelow fun j t hj ht => ?_
        have hin : (low + high + 1) / 2 - 1 < starts.length := by omega
        rw [List.getD_eq_getElem _ _ hin] at hmiddle
        obtain ⟨hlen, rfl⟩ := List.getElem?_eq_some_iff.mp ht
        rcases Nat.lt_or_eq_of_le hj with hless | heq
        · have hmono := List.pairwise_iff_getElem.mp hsorted _ _ hin hlen hless
          omega
        · simp only [heq] at hmiddle
          omega
    · rw [if_neg hlt]
      obtain rfl : low = high := by omega
      exact ⟨hlow, hhigh, hbelow, habove⟩

/-- The line of an offset starts at or before it, with no start between. -/
theorem lineOf_eq {offset line s : ℕ} (hs : (lineStarts source)[line]? = some s) (hle : s ≤ offset)
    (hnone : ∀ p, s < p → p ≤ offset → ¬LineStart source p) :
    lineOf (lineStarts source) offset = (line, s) := by
  have hsorted := lineStarts_pairwise source
  obtain ⟨rest, hrest⟩ := lineStarts_cons source
  have hs' := (mem_lineStarts.mp (List.mem_of_getElem? hs)).1
  have hfirst : (lineStarts source).getD (1 - 1) 0 ≤ offset := by
    rw [hrest]
    exact hs'.1.trans hle
  have hlen : 1 ≤ (lineStarts source).length := by
    rw [hrest]
    exact Nat.le_add_left _ _
  obtain ⟨hpos, hhigh, hbelow, habove⟩ := lineSearch_spec hsorted (Nat.sub_le _ 1) le_rfl hlen le_rfl hfirst
    fun j t hj ht => absurd (List.getElem?_eq_some_iff.mp ht).1 (by omega)
  obtain ⟨hline, hget⟩ := List.getElem?_eq_some_iff.mp hs
  generalize hr : lineSearch (lineStarts source) offset (lineStarts source).length 1 (lineStarts source).length = r
    at hpos hhigh hbelow habove
  have hr' : r - 1 < (lineStarts source).length := by omega
  have hsame : r - 1 = line := by
    rcases Nat.lt_trichotomy (r - 1) line with hlt | heq | hgt
    · have habove' := habove line s (by omega) hs
      omega
    · exact heq
    · have hmono := List.pairwise_iff_getElem.mp hsorted _ _ hline hr' hgt
      rw [List.getD_eq_getElem _ _ hr'] at hbelow
      have hstart := (mem_lineStarts.mp (List.getElem_mem hr')).2
      exact absurd hstart (hnone _ (hget ▸ hmono) hbelow)
  rw [lineOf, hr, hsame, List.getD_eq_getElem _ _ hline, hget]

/-! ### Characters -/

/-- A text read as the scalars before an offset and those from it on. -/
def Spelled (source : Bytes) (pre suf : List ℕ) : Prop :=
  (∀ c ∈ pre ++ suf, IsScalar c) ∧ unitsOf source = spell (pre ++ suf)

def offsetOf (pre : List ℕ) : ℕ := (spell pre).length + 1

def utf16 (c : ℕ) : ℕ := if c < 0x10000 then 1 else 2

def utf16Length (cs : List ℕ) : ℕ := (cs.map utf16).sum

@[simp] theorem utf16Length_nil : utf16Length [] = 0 := rfl

@[simp] theorem utf16Length_cons (c : ℕ) (cs : List ℕ) : utf16Length (c :: cs) = utf16 c + utf16Length cs := rfl

theorem utf16Length_append (cs ds : List ℕ) : utf16Length (cs ++ ds) = utf16Length cs + utf16Length ds := by
  rw [utf16Length, List.map_append, List.sum_append]
  rfl

theorem utf16_pos (c : ℕ) : 0 < utf16 c := by
  unfold utf16
  split_ifs <;> omega

theorem offsetOf_append (pre mid : List ℕ) : offsetOf (pre ++ mid) = offsetOf pre + (spell mid).length := by
  rw [offsetOf, offsetOf, spell_append, List.length_append]
  omega

theorem Spelled.shift {pre suf : List ℕ} (mid : List ℕ) (h : Spelled source pre (mid ++ suf)) :
    Spelled source (pre ++ mid) suf := by
  rwa [Spelled, List.append_assoc]

theorem Spelled.length_eq {pre suf : List ℕ} (h : Spelled source pre suf) :
    source.length = (spell pre).length + (spell suf).length := by
  rw [← unitsOf_length source, h.2, spell_append, List.length_append]

/-- The lead unit of a scalar, and the number of its units. -/
theorem units_lead {c : ℕ} (h : IsScalar c) : ∃ lead rest, units c = lead :: rest ∧ (c < 0x80 → lead = c ∧ rest = []) ∧
    (0x80 ≤ c → 0x80 ≤ lead ∧ (∀ b ∈ rest, 0x80 ≤ b) ∧
      (units c).length = (if lead < 0xE0 then 2 else if lead < 0xF0 then 3 else 4) ∧
      ((units c).length = 4 ↔ 0x10000 ≤ c)) := by
  have hmax := h.1
  by_cases h1 : c < 0x80
  · exact ⟨c, [], by rw [units, if_pos h1], fun _ => ⟨rfl, rfl⟩, fun h => by omega⟩
  by_cases h2 : c < 0x800
  · refine ⟨0xC0 + c / 0x40, [0x80 + c % 0x40], by rw [units, if_neg h1, if_pos h2], fun h => absurd h h1, fun _ => ?_⟩
    have hlead : 0xC0 + c / 0x40 < 0xE0 := by omega
    rw [units, if_neg h1, if_pos h2, if_pos hlead]
    exact ⟨by omega, by simp, rfl, by simp; omega⟩
  by_cases h3 : c < 0x10000
  · refine ⟨0xE0 + c / 0x1000, _, by rw [units, if_neg h1, if_neg h2, if_pos h3], fun h => absurd h h1, fun _ => ?_⟩
    have hlead : ¬0xE0 + c / 0x1000 < 0xE0 := by omega
    have hlead' : 0xE0 + c / 0x1000 < 0xF0 := by omega
    rw [units, if_neg h1, if_neg h2, if_pos h3, if_neg hlead, if_pos hlead']
    exact ⟨by omega, by simp, rfl, by simp; omega⟩
  · refine ⟨0xF0 + c / 0x40000, _, by rw [units, if_neg h1, if_neg h2, if_neg h3], fun h => absurd h h1, fun _ => ?_⟩
    have hlead : ¬0xF0 + c / 0x40000 < 0xE0 := by omega
    have hlead' : ¬0xF0 + c / 0x40000 < 0xF0 := by omega
    rw [units, if_neg h1, if_neg h2, if_neg h3, if_neg hlead, if_neg hlead']
    exact ⟨by omega, by simp, rfl, by simp; omega⟩

theorem one_le_units (c : ℕ) : 1 ≤ (units c).length := List.length_pos_iff.mpr (units_ne_nil c)

/-- The byte at the front of a scalar. -/
theorem Spelled.byteAt_eq {pre suf : List ℕ} (h : Spelled source pre suf) :
    byteAt source (offsetOf pre) = (spell suf).head? := by
  rw [offsetOf, byteAt_succ, h.2, spell_append, List.getElem?_append_right le_rfl, Nat.sub_self, List.head?_eq_getElem?]

theorem Spelled.byteAt_iff {pre suf : List ℕ} (h : Spelled source pre suf) {b : ℕ} (hb : b < 0x80) :
    byteAt source (offsetOf pre) = some b ↔ suf.head? = some b := by
  rw [h.byteAt_eq]
  cases suf with
  | nil => exact Iff.rfl
  | cons c suf =>
    obtain ⟨lead, rest, hunits, hlow, hhigh⟩ := units_lead (h.1 c (List.mem_append_right _ List.mem_cons_self))
    rw [spell_cons, hunits]
    simp only [List.cons_append, List.head?_cons, Option.some.injEq]
    by_cases hc : c < 0x80
    · rw [(hlow hc).1]
    · obtain ⟨hlead, -⟩ := hhigh (by omega)
      constructor <;> (rintro rfl; omega)

theorem Spelled.utf8Char_eq {pre suf : List ℕ} {c : ℕ} (h : Spelled source pre (c :: suf)) :
    utf8Char source (offsetOf pre) = ((units c).length, utf16 c) := by
  obtain ⟨lead, rest, hunits, hlow, hhigh⟩ := units_lead (h.1 c (List.mem_append_right _ List.mem_cons_self))
  have hbyte : byteAt source (offsetOf pre) = some lead := by
    rw [h.byteAt_eq, spell_cons, hunits]
    rfl
  rw [utf8Char, hbyte]
  dsimp only
  by_cases hc : c < 0x80
  · obtain ⟨rfl, rfl⟩ := hlow hc
    have hsmall : lead < 0x10000 := by omega
    rw [if_pos hc, hunits, utf16, if_pos hsmall]
    rfl
  · obtain ⟨hlead, -, hlength, hfour⟩ := hhigh (by omega)
    have hlead' : ¬lead < 0x80 := by omega
    rw [if_neg hlead', ← hlength, utf16]
    by_cases hlong : c < 0x10000
    · rw [if_pos hlong, if_neg (fun hl => by have := hfour.mp hl; omega)]
    · rw [if_neg hlong, if_pos (hfour.mpr (by omega))]

/-- An ASCII unit is a scalar of its own. -/
theorem mem_of_ascii {cs : List ℕ} (hcs : ∀ c ∈ cs, IsScalar c) {b : ℕ} (hb : b < 0x80) (h : b ∈ spell cs) : b ∈ cs := by
  obtain ⟨c, hc, hmem⟩ := List.mem_flatMap.mp h
  obtain ⟨lead, rest, hunits, hlow, hhigh⟩ := units_lead (hcs c hc)
  rw [hunits] at hmem
  by_cases hsmall : c < 0x80
  · obtain ⟨rfl, rfl⟩ := hlow hsmall
    rwa [List.mem_singleton.mp hmem]
  · obtain ⟨hlead, hrest, -⟩ := hhigh (by omega)
    rcases List.mem_cons.mp hmem with rfl | hmem
    · omega
    · have hle := hrest b hmem
      omega

theorem exists_split_of_ascii {cs : List ℕ} (hcs : ∀ c ∈ cs, IsScalar c) {b k : ℕ} (hb : b < 0x80)
    (h : (spell cs)[k]? = some b) : ∃ pre suf, cs = pre ++ b :: suf ∧ k = (spell pre).length := by
  induction cs generalizing k with
  | nil => cases h
  | cons c cs ih =>
    rw [spell_cons] at h
    by_cases hk : k < (units c).length
    · rw [List.getElem?_append_left hk] at h
      have hmem : b ∈ [c] := by
        refine mem_of_ascii (fun d hd => ?_) hb (by simpa using List.mem_of_getElem? h)
        rw [List.mem_singleton.mp hd]
        exact hcs c List.mem_cons_self
      obtain rfl := List.mem_singleton.mp hmem
      have hone : (units b).length = 1 := by rw [units, if_pos hb]; rfl
      exact ⟨[], cs, rfl, by rw [spell_nil, List.length_nil]; omega⟩
    · rw [List.getElem?_append_right (by omega)] at h
      obtain ⟨pre, suf, rfl, hlength⟩ := ih (fun d hd => hcs d (List.mem_cons_of_mem _ hd)) h
      exact ⟨c :: pre, suf, rfl, by rw [spell_cons, List.length_append]; omega⟩

/-! ### Walks over characters -/

theorem countUnits_eq {pre mid suf : List ℕ} (h : Spelled source pre (mid ++ suf)) {fuel : ℕ}
    (hfuel : (spell mid).length ≤ fuel) (character : ℕ) :
    countUnits source (offsetOf (pre ++ mid)) fuel (offsetOf pre) character = character + utf16Length mid := by
  induction mid generalizing pre fuel character with
  | nil =>
    cases fuel with
    | zero => rfl
    | succ fuel =>
      rw [countUnits, List.append_nil, if_neg (fun hlt => lt_irrefl _ hlt.1)]
      rfl
  | cons c mid ih =>
    have hone := one_le_units c
    rw [spell_cons, List.length_append] at hfuel
    obtain ⟨fuel, rfl⟩ : ∃ k, fuel = k + 1 := ⟨fuel - 1, by omega⟩
    have hmore : offsetOf pre < offsetOf (pre ++ c :: mid) ∧ offsetOf pre ≤ source.length := by
      rw [offsetOf_append, h.length_eq, List.cons_append, spell_cons, spell_cons, List.length_append, List.length_append,
        offsetOf]
      omega
    have hshift : Spelled source (pre ++ [c]) (mid ++ suf) := Spelled.shift [c] h
    have hnext : offsetOf pre + (units c).length = offsetOf (pre ++ [c]) := by
      rw [offsetOf_append, spell_cons, spell_nil, List.append_nil]
    rw [countUnits, if_pos hmore, h.utf8Char_eq]
    dsimp only
    rw [hnext, List.append_cons, ih hshift (by omega), utf16Length_cons]
    omega

/-- What `offsetAtPosition` passes: characters of the line, the last of which starts before the one asked for. -/
structure Passed (target character : ℕ) (mid rest : List ℕ) : Prop where
  line : ∀ c ∈ mid, c ≠ 10 ∧ c ≠ 13
  stopped : rest = [] ∨ rest.head? = some 10 ∨ rest.head? = some 13 ∨ target ≤ character + utf16Length mid
  least : ∀ before c, mid = before ++ [c] → character + utf16Length before < target

theorem passUnits_spec {pre suf : List ℕ} (h : Spelled source pre suf) {fuel : ℕ} (hfuel : (spell suf).length ≤ fuel)
    (target character : ℕ) : ∃ mid rest, suf = mid ++ rest ∧
      passUnits source target fuel (offsetOf pre) character = offsetOf (pre ++ mid) ∧ Passed target character mid rest := by
  induction suf generalizing pre fuel character with
  | nil =>
    refine ⟨[], [], rfl, ?_, nofun, .inl rfl, fun before c hmid => by simp at hmid⟩
    rw [List.append_nil]
    cases fuel with
    | zero => rfl
    | succ fuel =>
      have hend : ¬offsetOf pre ≤ source.length := by
        rw [h.length_eq, offsetOf, spell_nil, List.length_nil]
        omega
      rw [passUnits, if_neg fun hmore => hend hmore.1]
  | cons c suf ih =>
    have hone := one_le_units c
    rw [spell_cons, List.length_append] at hfuel
    obtain ⟨fuel, rfl⟩ : ∃ k, fuel = k + 1 := ⟨fuel - 1, by omega⟩
    have hten := h.byteAt_iff (b := 10) (by decide)
    have hthirteen := h.byteAt_iff (b := 13) (by decide)
    rw [List.head?_cons, Option.some.injEq] at hten hthirteen
    have hle : offsetOf pre ≤ source.length := by
      rw [h.length_eq, spell_cons, List.length_append, offsetOf]
      omega
    rw [passUnits]
    by_cases hstop : c = 10 ∨ c = 13 ∨ target ≤ character
    · rw [if_neg (fun hmore => ?_)]
      · refine ⟨[], c :: suf, rfl, by rw [List.append_nil], nofun, ?_, fun before d hmid => by simp at hmid⟩
        rcases hstop with rfl | rfl | hle
        · exact .inr (.inl rfl)
        · exact .inr (.inr (.inl rfl))
        · exact .inr (.inr (.inr hle))
      · rcases hstop with hc | hc | hc
        · exact hmore.2.1 (hten.mpr hc)
        · exact hmore.2.2.1 (hthirteen.mpr hc)
        · omega
    · have hgo : c ≠ 10 ∧ c ≠ 13 ∧ character < target :=
        ⟨fun hc => hstop (.inl hc), fun hc => hstop (.inr (.inl hc)), by omega⟩
      have hshift : Spelled source (pre ++ [c]) suf := Spelled.shift [c] h
      have hnext : offsetOf pre + (units c).length = offsetOf (pre ++ [c]) := by
        rw [offsetOf_append, spell_cons, spell_nil, List.append_nil]
      obtain ⟨mid, rest, rfl, hpass, hpassed⟩ := ih hshift (show (spell suf).length ≤ fuel by omega) (character + utf16 c)
      refine ⟨c :: mid, rest, rfl, ?_, ?_, ?_, ?_⟩
      · rw [if_pos ⟨hle, fun hc => hgo.1 (hten.mp hc), fun hc => hgo.2.1 (hthirteen.mp hc), hgo.2.2⟩, h.utf8Char_eq]
        dsimp only
        rw [hnext, hpass, List.append_assoc]
        rfl
      · intro d hd
        rcases List.mem_cons.mp hd with rfl | hd
        · exact ⟨hgo.1, hgo.2.1⟩
        · exact hpassed.line d hd
      · rw [utf16Length_cons, ← Nat.add_assoc]
        exact hpassed.stopped
      · intro before d hmid
        cases before with
        | nil => exact hgo.2.2
        | cons e before =>
          obtain ⟨rfl, hrest⟩ := List.cons.inj hmid
          rw [utf16Length_cons, ← Nat.add_assoc]
          exact hpassed.least before d hrest

/-! ### Lines of characters -/

theorem spell_length_pos {cs : List ℕ} (h : cs ≠ []) : 0 < (spell cs).length := by
  obtain ⟨c, cs, rfl⟩ := List.exists_cons_of_ne_nil h
  have hone := one_le_units c
  rw [spell_cons, List.length_append]
  omega

/-- Of two prefixes of a text, the one that spells no more is a prefix of the other. -/
theorem prefix_of_offset_le {cs pre suf pre' suf' : List ℕ} (h : cs = pre ++ suf) (h' : cs = pre' ++ suf')
    (hle : offsetOf pre ≤ offsetOf pre') : ∃ mid, pre' = pre ++ mid := by
  rcases List.prefix_or_prefix_of_prefix ⟨suf, h.symm⟩ ⟨suf', h'.symm⟩ with ⟨mid, hmid⟩ | ⟨mid, hmid⟩
  · exact ⟨mid, hmid.symm⟩
  · by_cases hnil : mid = []
    · rw [hnil, List.append_nil] at hmid
      exact ⟨[], by rw [List.append_nil, hmid]⟩
    · have hpos := spell_length_pos hnil
      rw [← hmid, offsetOf_append] at hle
      omega

theorem Spelled.exists_of_byteAt {cs : List ℕ} (h : Spelled source [] cs) {p b : ℕ} (hb : b < 0x80)
    (hp : byteAt source p = some b) : ∃ pre suf, cs = pre ++ b :: suf ∧ p = offsetOf pre := by
  cases p with
  | zero => cases hp
  | succ p =>
    rw [byteAt_succ, h.2] at hp
    obtain ⟨pre, suf, hcs, hlength⟩ := exists_split_of_ascii h.1 hb hp
    exact ⟨pre, suf, hcs, by rw [offsetOf, hlength]⟩

theorem offsetOf_snoc {pre : List ℕ} {b : ℕ} (hb : b < 0x80) : offsetOf (pre ++ [b]) = offsetOf pre + 1 := by
  have hone : (units b).length = 1 := by rw [units, if_pos hb]; rfl
  rw [offsetOf_append, spell_cons, spell_nil, List.append_nil, hone]

/-- Lines start at characters. -/
theorem Spelled.exists_of_lineStart {cs : List ℕ} (h : Spelled source [] cs) {p : ℕ} (hpos : 1 ≤ p)
    (hp : LineStart source p) : ∃ pre suf, cs = pre ++ suf ∧ p = offsetOf pre := by
  have hafter : ∀ b < 0x80, byteAt source (p - 1) = some b → ∃ pre suf, cs = pre ++ suf ∧ p = offsetOf pre := by
    intro b hb hbyte
    obtain ⟨pre, suf, rfl, hoffset⟩ := h.exists_of_byteAt hb hbyte
    exact ⟨pre ++ [b], suf, by rw [List.append_assoc]; rfl, by rw [offsetOf_snoc hb]; omega⟩
  rcases hp with rfl | hten | ⟨hthirteen, -⟩
  · exact ⟨[], cs, rfl, rfl⟩
  · exact hafter 10 (by decide) hten
  · exact hafter 13 (by decide) hthirteen

/-- No line starts after characters that break none. -/
theorem Spelled.not_lineStart {pre mid suf : List ℕ} (h : Spelled source pre (mid ++ suf))
    (hline : ∀ c ∈ mid, c ≠ 10 ∧ c ≠ 13) {p : ℕ} (hlow : offsetOf pre < p) (hhigh : p ≤ offsetOf (pre ++ mid)) :
    ¬LineStart source p := by
  rw [offsetOf_append] at hhigh
  have hpos : 1 ≤ offsetOf pre := Nat.le_add_left _ _
  have hmem : ∀ b < 0x80, byteAt source (p - 1) = some b → b ∈ mid := by
    intro b hb hbyte
    obtain ⟨k, rfl⟩ : ∃ k, p = offsetOf pre + k + 1 := ⟨p - offsetOf pre - 1, by omega⟩
    have hplace : offsetOf pre + k + 1 - 1 = (spell pre).length + k + 1 := by rw [offsetOf]; omega
    rw [hplace, byteAt_succ, h.2, spell_append, spell_append, List.getElem?_append_right (by omega),
      Nat.add_sub_cancel_left, List.getElem?_append_left (by omega)] at hbyte
    refine mem_of_ascii (fun c hc => h.1 c ?_) hb (List.mem_of_getElem? hbyte)
    exact List.mem_append_right _ (List.mem_append_left _ hc)
  rintro (hone | hten | ⟨hthirteen, -⟩)
  · omega
  · exact (hline 10 (hmem 10 (by decide) hten)).1 rfl
  · exact (hline 13 (hmem 13 (by decide) hthirteen)).2 rfl

/-- The position of an offset, by the characters of its line before it. -/
theorem Spelled.position_eq {pre mid suf : List ℕ} (h : Spelled source pre (mid ++ suf)) {line : ℕ}
    (hstart : (lineStarts source)[line]? = some (offsetOf pre)) (hline : ∀ c ∈ mid, c ≠ 10 ∧ c ≠ 13) :
    positionAtOffset source (offsetOf (pre ++ mid)) = ⟨line, utf16Length mid⟩ := by
  have hfuel : (spell mid).length ≤ source.length := by
    rw [h.length_eq, spell_append, List.length_append]
    omega
  have hle : offsetOf pre ≤ offsetOf (pre ++ mid) := by
    rw [offsetOf_append]
    exact Nat.le_add_right _ _
  have hcount := countUnits_eq h hfuel 0
  rw [Nat.zero_add] at hcount
  rw [positionAtOffset, lineOf_eq hstart hle fun p hlow hhigh => h.not_lineStart hline hlow hhigh]
  exact congrArg (Position.mk line) hcount

/-- The characters of the line before an offset that does not cut a line break. -/
theorem Spelled.exists_line {pre suf : List ℕ} (h : Spelled source pre suf)
    (hwhole : ¬(byteAt source (offsetOf pre - 1) = some 13 ∧ byteAt source (offsetOf pre) = some 10)) :
    ∃ (before mid : List ℕ) (line : ℕ), pre = before ++ mid ∧ (lineStarts source)[line]? = some (offsetOf before) ∧
      ∀ c ∈ mid, c ≠ 10 ∧ c ≠ 13 := by
  have hcs : Spelled source [] (pre ++ suf) := h
  have hpre : 1 ≤ offsetOf pre := Nat.le_add_left _ _
  -- the last start up to the offset
  obtain ⟨s, hs, hle, hnone⟩ : ∃ s, s ∈ lineStarts source ∧ s ≤ offsetOf pre ∧
      ∀ p, s < p → p ≤ offsetOf pre → ¬LineStart source p := by
    have hend : offsetOf pre ≤ source.length + 1 := by
      rw [h.length_eq, offsetOf]
      omega
    have hone : LineStart source 1 := .inl rfl
    have hspec := Nat.findGreatest_spec (P := LineStart source) hpre hone
    have hlow := Nat.le_findGreatest (P := LineStart source) hpre hone
    have hhigh := Nat.findGreatest_le (P := LineStart source) (offsetOf pre)
    exact ⟨_, mem_lineStarts.mpr ⟨⟨hlow, by omega⟩, hspec⟩, hhigh, fun p => Nat.findGreatest_is_greatest⟩
  obtain ⟨⟨hlow, -⟩, hstart⟩ := mem_lineStarts.mp hs
  obtain ⟨before, after, hsplit, rfl⟩ := hcs.exists_of_lineStart hlow hstart
  obtain ⟨mid, rfl⟩ := prefix_of_offset_le hsplit rfl hle
  obtain ⟨line, hline⟩ := List.mem_iff_getElem?.mp hs
  refine ⟨before, mid, line, rfl, hline, fun c hc => ?_⟩
  obtain ⟨m, m', rfl⟩ := List.append_of_mem hc
  have hat : Spelled source (before ++ m) (c :: (m' ++ suf)) := by
    refine Spelled.shift m ?_
    rw [Spelled] at h ⊢
    simpa only [List.append_assoc, List.cons_append] using h
  have hoffset : offsetOf (before ++ (m ++ c :: m')) = offsetOf (before ++ m) + (units c).length + (spell m').length := by
    rw [← List.append_assoc, offsetOf_append, spell_cons, List.length_append, Nat.add_assoc]
  have hbefore : offsetOf before ≤ offsetOf (before ++ m) := by
    rw [offsetOf_append]
    exact Nat.le_add_right _ _
  have hbreak : ∀ b < 0x80, c = b → byteAt source (offsetOf (before ++ m)) = some b ∧ (units c).length = 1 := by
    rintro b hb rfl
    exact ⟨(hat.byteAt_iff hb).mpr rfl, by rw [units, if_pos hb]; rfl⟩
  constructor
  · intro hten
    obtain ⟨hbyte, hone⟩ := hbreak 10 (by decide) hten
    exact hnone _ (by omega) (by omega) (lineStart_after_lf hbyte)
  · intro hthirteen
    obtain ⟨hbyte, hone⟩ := hbreak 13 (by decide) hthirteen
    have hlf : byteAt source (offsetOf (before ++ m)) ≠ some 10 := by
      rw [hbyte]
      decide
    by_cases hnext : byteAt source (offsetOf (before ++ m) + 1) = some 10
    · by_cases hlast : offsetOf (before ++ m) + 1 = offsetOf (before ++ (m ++ c :: m'))
      · refine hwhole ⟨?_, by rwa [← hlast]⟩
        rw [← hlast, Nat.add_sub_cancel, hbyte]
      · exact hnone _ (by omega) (by omega) (lineStart_after_lf hnext)
    · have hpos : 1 ≤ offsetOf (before ++ m) := Nat.le_add_left _ _
      exact hnone (offsetOf (before ++ m) + 1) (by omega) (by omega) ((lineStart_after hpos hlf).mpr ⟨hbyte, hnext⟩)

/-! ### Cutting -/

/-- The offsets where pieces laid out from an offset on start, and where the last one ends. -/
def offsetsFrom : ℕ → List Bytes → List ℕ
  | p, [] => [p]
  | p, piece :: pieces => p :: offsetsFrom (p + piece.length) pieces

theorem cut_eq (rest : List ℕ) {p : ℕ} (hpos : 1 ≤ p) (hsorted : (p :: rest).Pairwise (· < ·))
    (hle : ∀ q ∈ p :: rest, q ≤ source.length + 1) :
    let last := (p :: rest).getLastD 1
    let pieces := ((p :: rest).zip rest).map (fun (start, next) => between source start next) ++
      if last ≤ source.length then [source.drop (last - 1)] else []
    pieces.flatten = source.drop (p - 1) ∧
      offsetsFrom p pieces = p :: rest ++ if last ≤ source.length then [source.length + 1] else [] := by
  induction rest generalizing p with
  | nil =>
    have hp := hle p List.mem_cons_self
    have hlast : [p].getLastD 1 = p := rfl
    dsimp only
    rw [hlast]
    by_cases hin : p ≤ source.length
    · simp only [List.zip_nil_right, List.map_nil, List.nil_append, if_pos hin, List.flatten_cons, List.flatten_nil,
        List.append_nil, offsetsFrom, List.length_drop, true_and]
      have hend : p + (source.length - (p - 1)) = source.length + 1 := by omega
      rw [hend]
      rfl
    · have hdrop : source.length ≤ p - 1 := by omega
      simp only [List.zip_nil_right, List.map_nil, if_neg hin, List.flatten_nil, List.append_nil, offsetsFrom,
        List.drop_eq_nil_of_le hdrop, and_self]
  | cons q rest ih =>
    have hpq : p < q := (List.pairwise_cons.mp hsorted).1 q List.mem_cons_self
    have hq := hle q (List.mem_cons_of_mem _ List.mem_cons_self)
    obtain ⟨hflat, hoffsets⟩ := ih (by omega) (List.pairwise_cons.mp hsorted).2 fun r hr => hle r (List.mem_cons_of_mem _ hr)
    have hlast : (p :: q :: rest).getLastD 1 = (q :: rest).getLastD 1 := rfl
    have hlength : (between source p q).length = q - p := by
      rw [between, List.length_take, List.length_drop]
      omega
    have hcut : between source p q ++ source.drop (q - 1) = source.drop (p - 1) := by
      have hdrop : source.drop (q - 1) = (source.drop (p - 1)).drop (q - p) := by
        rw [List.drop_drop]
        congr 1
        omega
      rw [hdrop, between, List.take_append_drop]
    dsimp only at hflat hoffsets ⊢
    rw [hlast, List.zip_cons_cons, List.map_cons, List.cons_append, List.flatten_cons, hflat, offsetsFrom, hlength,
      Nat.add_sub_cancel' hpq.le, hoffsets]
    exact ⟨hcut, rfl⟩

/-- A text is the lines that it is split into, which start where `lineStarts` says. -/
theorem splitLines_cut (source : Bytes) : (splitLines source).flatten = source ∧
    offsetsFrom 1 (splitLines source) = lineStarts source ++
      if (lineStarts source).getLastD 1 ≤ source.length then [source.length + 1] else [] := by
  obtain ⟨rest, hrest⟩ := lineStarts_cons source
  have hsorted := lineStarts_pairwise source
  have hle : ∀ q ∈ lineStarts source, q ≤ source.length + 1 := fun q hq => (mem_lineStarts.mp hq).1.2
  rw [hrest] at hsorted hle
  have hcut := cut_eq rest le_rfl hsorted hle
  rw [splitLines, hrest]
  exact hcut

/-! ### Positions and offsets -/

/-- The characters of a valid text begin and end at boundaries. -/
def Boundary (source : Bytes) (o : ℕ) : Prop := ∃ pre suf, Spelled source pre suf ∧ o = offsetOf pre

def Valid (source : Bytes) : Prop := ∃ cs, (∀ c ∈ cs, IsScalar c) ∧ unitsOf source = spell cs

/-- An offset between a carriage return and its newline. -/
def CutsBreak (source : Bytes) (o : ℕ) : Prop := byteAt source (o - 1) = some 13 ∧ byteAt source o = some 10

def LineEnd (source : Bytes) (o : ℕ) : Prop :=
  o = source.length + 1 ∨ byteAt source o = some 10 ∨ byteAt source o = some 13

/-- What an offset answers for a position: the place itself, the end of the surrogate pair it is inside, or the
end of a line that ends before it. -/
def Answers (source : Bytes) (target : Position) (o : ℕ) : Prop :=
  positionAtOffset source o = target ∨
    (∃ before, o = before + 4 ∧ utf8Char source before = (4, 2) ∧ 0 < target.character ∧
      positionAtOffset source before = ⟨target.line, target.character - 1⟩ ∧
      positionAtOffset source o = ⟨target.line, target.character + 1⟩) ∨
    ((positionAtOffset source o).line = target.line ∧ (positionAtOffset source o).character < target.character ∧
      LineEnd source o)

theorem offset_roundTrip {o : ℕ} (ho : Boundary source o) (hwhole : ¬CutsBreak source o) :
    offsetAtPosition source (positionAtOffset source o) = some o := by
  obtain ⟨pre, suf, h, rfl⟩ := ho
  obtain ⟨before, mid, line, rfl, hline, hmid⟩ := h.exists_line hwhole
  have h' : Spelled source before (mid ++ suf) := by
    rw [Spelled] at h ⊢
    rwa [← List.append_assoc]
  rw [h'.position_eq hline hmid, offsetAtPosition]
  dsimp only
  rw [hline, Option.map_some, Option.some.injEq]
  have hfuel : (spell (mid ++ suf)).length ≤ source.length := by
    rw [h'.length_eq]
    exact Nat.le_add_left _ _
  obtain ⟨mid', rest, hsplit, hpass, hpassed⟩ := passUnits_spec h' hfuel (utf16Length mid) 0
  rw [hpass]
  -- what is passed is neither more nor less than the characters before the offset
  rcases List.append_eq_append_iff.mp hsplit with ⟨m, rfl, rfl⟩ | ⟨m, rfl, rfl⟩
  · cases m using List.reverseRecOn with
    | nil => rw [List.append_nil]
    | append_singleton m c =>
      have hleast := hpassed.least (mid ++ m) c (by rw [List.append_assoc])
      rw [utf16Length_append] at hleast
      omega
  · cases m with
    | nil => rw [List.append_nil]
    | cons c m =>
      have hc := hmid c (List.mem_append_right _ List.mem_cons_self)
      have hpos := utf16_pos c
      rcases hpassed.stopped with hnil | hten | hthirteen | hle
      · cases hnil
      · exact absurd (Option.some.inj hten) hc.1
      · exact absurd (Option.some.inj hthirteen) hc.2
      · rw [utf16Length_append, utf16Length_cons] at hle
        omega

theorem offset_answers (hvalid : Valid source) {target : Position} {s : ℕ}
    (hs : (lineStarts source)[target.line]? = some s) :
    ∃ o, offsetAtPosition source target = some o ∧ Boundary source o ∧ Answers source target o := by
  obtain ⟨cs, hcs, hspell⟩ := hvalid
  have h : Spelled source [] cs := ⟨hcs, hspell⟩
  obtain ⟨⟨hlow, -⟩, hstart⟩ := mem_lineStarts.mp (List.mem_of_getElem? hs)
  obtain ⟨pre, suf, rfl, rfl⟩ := h.exists_of_lineStart hlow hstart
  have hpre : Spelled source pre suf := h
  have hfuel : (spell suf).length ≤ source.length := by
    rw [hpre.length_eq]
    exact Nat.le_add_left _ _
  obtain ⟨mid, rest, rfl, hpass, hpassed⟩ := passUnits_spec hpre hfuel target.character 0
  have hposition := hpre.position_eq hs hpassed.line
  refine ⟨offsetOf (pre ++ mid), ?_, ⟨_, rest, hpre.shift mid, rfl⟩, ?_⟩
  · rw [offsetAtPosition, hs, Option.map_some, hpass]
  · rw [Answers, hposition]
    rcases Nat.lt_trichotomy (utf16Length mid) target.character with hless | heq | hmore
    · refine .inr (.inr ⟨rfl, hless, ?_⟩)
      have hend := hpre.shift mid
      rcases hpassed.stopped with rfl | hten | hthirteen | hle
      · left
        rw [hend.length_eq, spell_nil, List.length_nil]
        rfl
      · exact .inr (.inl ((hend.byteAt_iff (by decide)).mpr hten))
      · exact .inr (.inr ((hend.byteAt_iff (by decide)).mpr hthirteen))
      · omega
    · exact .inl (by rw [heq])
    · -- the last character passed is a pair that the position is inside
      right
      left
      cases mid using List.reverseRecOn with
      | nil => exact absurd hmore (Nat.not_lt_zero _)
      | append_singleton mid c =>
        have hleast := hpassed.least mid c rfl
        have hlength : utf16Length (mid ++ [c]) = utf16Length mid + utf16 c := utf16Length_append _ _
        have hlong : ¬c < 0x10000 := by
          intro hshort
          rw [hlength, utf16, if_pos hshort] at hmore
          omega
        have htwo : utf16 c = 2 := by rw [utf16, if_neg hlong]
        have hbefore : Spelled source pre (mid ++ (c :: rest)) := by
          rw [Spelled] at hpre ⊢
          simpa only [List.append_assoc, List.cons_append, List.nil_append] using hpre
        obtain ⟨lead, tail, -, -, hhigh⟩ := units_lead (hbefore.1 c (by simp))
        have hfour := ((hhigh (by omega)).2.2.2).mpr (by omega)
        have hchar := (hbefore.shift mid).utf8Char_eq
        rw [hfour, htwo] at hchar
        refine ⟨offsetOf (pre ++ mid), ?_, hchar, by omega, ?_, ?_⟩
        · rw [← List.append_assoc, offsetOf_append, spell_cons, spell_nil, List.append_nil, hfour]
        · rw [hbefore.position_eq hs fun d hd => hpassed.line d (List.mem_append_left _ hd)]
          have hcount : utf16Length mid = target.character - 1 := by omega
          rw [hcount]
        · have hcount : utf16Length (mid ++ [c]) = target.character + 1 := by omega
          rw [hcount]

/-- Positions of the protocol and byte offsets name the same places of a text, and its lines are cut where they start. -/
structure Inverse (source : Bytes) : Prop where
  roundTrip : ∀ o, Boundary source o → ¬CutsBreak source o → offsetAtPosition source (positionAtOffset source o) = some o
  answers : ∀ target : Position, ((lineStarts source)[target.line]? = none ∧ offsetAtPosition source target = none) ∨
    ∃ o, offsetAtPosition source target = some o ∧ Boundary source o ∧ Answers source target o
  whole : (splitLines source).flatten = source
  cut : offsetsFrom 1 (splitLines source) = lineStarts source ++
    if (lineStarts source).getLastD 1 ≤ source.length then [source.length + 1] else []

theorem positions_invert (hvalid : Valid source) : Inverse source := by
  obtain ⟨hwhole, hcut⟩ := splitLines_cut source
  refine ⟨fun o ho hbreak => offset_roundTrip ho hbreak, fun target => ?_, hwhole, hcut⟩
  cases hs : (lineStarts source)[target.line]? with
  | none => exact .inl ⟨rfl, by rw [offsetAtPosition, hs]; rfl⟩
  | some s => exact .inr (offset_answers hvalid hs)

theorem positions_invert_break : Inverse [97, 13, 10, 98] :=
  positions_invert ⟨[97, 13, 10, 98], by decide, by decide⟩

end Nupp.lsp.text
