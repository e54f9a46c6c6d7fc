import Mathlib.Logic.Relation
import Nupp.Types.MarksPieces

/-! When the marks tell what is inside: which texts are searched for a mark, and when finding one
there is the answer of the structure. -/

namespace Nupp.marks

open Decimal Delimited Nupp.Data Nupp.interning Relation

section Spelled

variable (s : Store)

/-- The components whose ids an id passes on. -/
def Con.carried (c : Con) : List Ref :=
  match c.naming with
  | .fixed _ _ => []
  | _ => c.pieces.flatMap Piece.refs

/-- The text of a piece, without the ids of components. -/
def Piece.own (piece : Piece) : Bytes := piece.spell fun _ => []

/-- A constructor's own text spells the mark. -/
def Con.Stamps (mark : Mark) (c : Con) : Prop :=
  match c.naming with
  | .fixed marks _ => mark ∈ marks
  | _ => (∃ piece ∈ c.pieces, mark.text <:+: piece.own) ∨ mark.text <:+: c.facts

/-- An id passes on the id of a component. -/
def Store.Carries (n q : Ref) : Prop := q ∈ (s.con n).carried

def Store.Spells (mark : Mark) (n : Ref) : Prop :=
  ∃ k, ReflTransGen s.Carries n k ∧ (s.con k).Stamps mark

/-- The key that an id stands for. -/
def Store.key (n : Ref) : Bytes :=
  (s.con n).pieces.flatMap (Piece.spell s.id) ++ (s.con n).facts

theorem Store.id_eq (n : Ref) : s.id n = (s.con n).naming.id (s.space n) n (s.key n) := by
  rw [Store.id, Store.key]
  congr 2
  rw [List.flatMap_def, ← List.attach_map_subtype_val (s.con n).pieces, List.map_map]
  congr 1
  rw [List.attach_map_subtype_val]
  refine List.map_congr_left fun piece _ => ?_
  obtain ⟨piece, hpiece⟩ := piece
  cases piece <;> rfl

theorem closed_serial (marks : List Mark) (letters : String) (space : Option ℕ) (n : ℕ) :
    Closed (serial marks letters space n) :=
  closed_append_right (numeral_ne_nil n) (closed_of_not_mem (not_mem_numeral n))

theorem not_mem_spaceText (space : Option ℕ) : (33 : UInt8) ∉ spaceText space := by
  cases space with
  | none => simp [spaceText]
  | some lane => simp [spaceText, ascii, not_mem_numeral]

/-- When the ids of its components do not end in `!`, no piece does. -/
theorem closed_spell {id : Ref → Bytes} {piece : Piece} (htight : piece.Tight)
    (hid : ∀ q, piece = .part q → Closed (id q)) : Closed (piece.spell id) := by
  cases piece with
  | text t => exact htight
  | name t close => exact closed_append_right (by simp) (by cases close <;> decide)
  | word w =>
    refine closed_of_not_mem fun h => ?_
    have := w.plain 33 h
    simp [isWord, isDigit] at this
  | number space m =>
    exact closed_append_right (numeral_ne_nil m) (closed_of_not_mem (not_mem_numeral m))
  | part q => exact hid q rfl

theorem closed_pieces {n : Ref} (hid : ∀ q < n, Closed (s.id q)) :
    ∀ piece ∈ (s.con n).pieces, Closed (piece.spell s.id) := by
  intro piece hpiece
  refine closed_spell (tight_pieces _ piece hpiece) ?_
  rintro q rfl
  exact hid q (s.below n q (Con.mem_parts_of_piece hpiece))

/-- A key that is an id ends with its pieces. -/
theorem facts_of_key {c : Con} (h : c.naming = .key) : c.facts = [] := by
  cases c <;> first | rfl | simp [Con.naming] at h

/-- No id ends in `!`. -/
theorem closed_id (n : Ref) : Closed (s.id n) := by
  induction n using Nat.strong_induction_on with
  | _ n ih =>
    rw [s.id_eq]
    cases hnaming : (s.con n).naming with
    | key =>
      rw [Naming.id, Store.key, facts_of_key hnaming, List.append_nil]
      exact getLast_flatMap_ne (closed_pieces s ih)
    | fixed marks letters => exact closed_serial marks letters (s.space n) n
    | inherited letters => exact closed_serial _ letters (s.space n) n

theorem infix_text {mark mark' : Mark} : mark.text <:+: mark'.text ↔ mark = mark' := by
  cases mark <;> cases mark' <;> decide +kernel

theorem not_infix_of_not_mem {mark : Mark} {text : Bytes} (h : (33 : UInt8) ∉ text) :
    ¬ mark.text <:+: text := by
  intro hheld
  rw [text_eq] at hheld
  exact h (hheld.subset (List.mem_cons_self ..))

theorem plain_letters (c : Con) {letters : String}
    (h : (∃ marks, c.naming = .fixed marks letters) ∨ c.naming = .inherited letters) :
    (33 : UInt8) ∉ ascii letters := by
  have hletters : letters ∈ ["pv", "c", "p", "t"] := by
    rcases h with ⟨marks, h⟩ | h <;> cases c <;> simp [Con.naming] at h <;> simp [h]
  simp only [List.mem_cons, List.not_mem_nil, or_false] at hletters
  rcases hletters with rfl | rfl | rfl | rfl <;> decide

/-- A serial spells the marks before it. -/
theorem infix_serial {mark : Mark} {marks : List Mark} {letters : String} {space : Option ℕ}
    {n : ℕ} (hletters : (33 : UInt8) ∉ ascii letters) :
    mark.text <:+: serial marks letters space n ↔ mark ∈ marks := by
  have hmarks : ∀ m ∈ marks, (Mark.text m).getLast? ≠ some 33 := by
    intro m _
    cases m <;> decide +kernel
  have htail : (33 : UInt8) ∉ ascii letters ++ (spaceText space ++ numeral n) := by
    simp [hletters, not_mem_spaceText, not_mem_numeral]
  have hnot : ¬ mark.text <:+: _ := not_infix_of_not_mem htail
  rw [serial, List.append_assoc, List.append_assoc]
  rw [text_eq] at hnot ⊢
  rw [pair_infix_append (getLast_flatMap_ne hmarks), pair_infix_flatMap hmarks,
    or_iff_left hnot, ← text_eq]
  simp [infix_text]

/-- A key spells a mark in one of its pieces or in the facts behind them. -/
theorem infix_key {mark : Mark} {n : Ref} :
    mark.text <:+: s.key n ↔
      (∃ piece ∈ (s.con n).pieces, mark.text <:+: piece.spell s.id) ∨
        mark.text <:+: (s.con n).facts := by
  have hclosed := closed_pieces s fun q (_ : q < n) => closed_id s q
  rw [Store.key, text_eq, pair_infix_append (getLast_flatMap_ne hclosed),
    pair_infix_flatMap hclosed]

theorem infix_id {mark : Mark} {n : Ref} :
    mark.text <:+: s.id n ↔ match (s.con n).naming with
      | .fixed marks _ => mark ∈ marks
      | _ => mark.text <:+: s.key n := by
  rw [s.id_eq]
  cases hnaming : (s.con n).naming with
  | key => rfl
  | fixed marks letters => exact infix_serial (plain_letters _ (.inl ⟨marks, hnaming⟩))
  | inherited letters =>
    refine (infix_serial (plain_letters _ (.inr hnaming))).trans ?_
    cases mark <;> simp [inheritedMarks, MARKS]

theorem infix_spell {mark : Mark} {piece : Piece} :
    mark.text <:+: piece.spell s.id ↔
      mark.text <:+: piece.own ∨ ∃ q ∈ piece.refs, mark.text <:+: s.id q := by
  have hempty : ¬ mark.text <:+: [] := by rw [text_eq]; simp
  cases piece <;> simp [Piece.spell, Piece.own, Piece.refs, hempty]

/-- A mark is found exactly where a text that the id passes on spells it. -/
theorem found_iff {mark : Mark} {n : Ref} : s.found mark n = true ↔ s.Spells mark n := by
  rw [Store.found, decide_eq_true_iff]
  induction n using Nat.strong_induction_on with
  | _ n ih =>
    have hstep : s.Spells mark n ↔
        (s.con n).Stamps mark ∨ ∃ q ∈ (s.con n).carried, s.Spells mark q := by
      constructor
      · rintro ⟨k, hpath, hk⟩
        rcases hpath.cases_head with rfl | ⟨q, hq, hpath⟩
        · exact .inl hk
        · exact .inr ⟨q, hq, k, hpath, hk⟩
      · rintro (h | ⟨q, hq, k, hpath, hk⟩)
        · exact ⟨n, .refl, h⟩
        · exact ⟨k, .head hq hpath, hk⟩
    have hcarried : (∃ q ∈ (s.con n).pieces.flatMap Piece.refs, mark.text <:+: s.id q) ↔
        ∃ q ∈ (s.con n).pieces.flatMap Piece.refs, s.Spells mark q := by
      refine exists_congr fun q => and_congr_right fun hq => ?_
      exact ih q (s.below n q (List.mem_append_left _ hq))
    have hkey : mark.text <:+: s.key n ↔
        ((∃ piece ∈ (s.con n).pieces, mark.text <:+: piece.own) ∨ mark.text <:+: (s.con n).facts) ∨
          ∃ q ∈ (s.con n).pieces.flatMap Piece.refs, s.Spells mark q := by
      rw [← hcarried, infix_key]
      simp only [infix_spell, List.mem_flatMap]
      constructor
      · rintro (⟨piece, hpiece, h | ⟨q, hq, h⟩⟩ | h)
        · exact .inl (.inl ⟨piece, hpiece, h⟩)
        · exact .inr ⟨q, ⟨piece, hpiece, hq⟩, h⟩
        · exact .inl (.inr h)
      · rintro ((⟨piece, hpiece, h⟩ | h) | ⟨q, ⟨piece, hpiece, hq⟩, h⟩)
        · exact .inl ⟨piece, hpiece, .inl h⟩
        · exact .inr h
        · exact .inl ⟨piece, hpiece, .inr ⟨q, hq, h⟩⟩
    rw [infix_id, hstep]
    cases hnaming : (s.con n).naming with
    | fixed marks letters => simp [Con.Stamps, Con.carried, hnaming]
    | key => simpa [Con.Stamps, Con.carried, hnaming] using hkey
    | inherited letters => simpa [Con.Stamps, Con.carried, hnaming] using hkey

end Spelled

section Told

variable (s : Store)

def Con.isBinder : Con → Bool
  | .typevar _ | .packvar _ | .constvar _ _ => true
  | _ => false

def Con.isProjection : Con → Bool
  | .projection _ _ => true
  | _ => false

def binderMarks : List Mark := [.typevar, .packvar, .constvar]

def Store.Holds (n q : Ref) : Prop := q ∈ (s.con n).parts

/-- Something of the kind is the place's own or one of its components', at any depth. -/
def Store.Occurs (kind : Con → Bool) (n : Ref) : Prop :=
  ∃ k, ReflTransGen s.Holds n k ∧ kind (s.con k) = true

/-- The walk goes from a place into a component. -/
def Store.Walks (n q : Ref) : Prop := q ∈ (s.con n).walked

/-- The places whose ids are searched for a mark, once the walk is at a place. -/
def Con.asked (mark : Mark) (c : Con) : List Ref :=
  c.packArgs ++ if mark = .constvar then c.constTerms else []

/-- `hasTypevar` of a place searches an id that passes on the text of another. -/
def Store.Searched (mark : Mark) (n k : Ref) : Prop :=
  ∃ j, ReflTransGen s.Walks n j ∧
    ∃ i, (i = j ∨ i ∈ (s.con j).asked mark) ∧ ReflTransGen s.Carries i k

theorem marked_iff {n : Ref} :
    s.marked n = true ↔ ∃ mark ∈ binderMarks, s.Spells mark n := by
  simp [Store.marked, binderMarks, found_iff, or_assoc]

/-- What is searched at one place. -/
def Store.Marked (mark : Mark) (n : Ref) : Prop :=
  ∃ i, (i = n ∨ i ∈ (s.con n).asked mark) ∧ s.Spells mark i

theorem hasTypevar_eq (n : Ref) :
    s.hasTypevar n = true ↔
      (∃ mark ∈ binderMarks, s.Marked mark n) ∨ ∃ q, s.Walks n q ∧ s.hasTypevar q = true := by
  rw [Store.hasTypevar]
  simp only [Bool.or_eq_true, List.any_eq_true, marked_iff, found_iff, List.mem_attach, true_and,
    Subtype.exists, exists_prop]
  have hwalk : (∃ q ∈ (s.con n).walked, s.hasTypevar q = true) ↔
      ∃ q, s.Walks n q ∧ s.hasTypevar q = true := Iff.rfl
  rw [hwalk]
  refine or_congr ?_ Iff.rfl
  constructor
  · rintro ((⟨i, hi, mark, hmark, h⟩ | ⟨i, hi, h⟩) | ⟨mark, hmark, h⟩)
    · exact ⟨mark, hmark, i, .inr (List.mem_append_left _ hi), h⟩
    · exact ⟨.constvar, by simp [binderMarks], i, .inr (List.mem_append_right _ (by simpa using hi)), h⟩
    · exact ⟨mark, hmark, n, .inl rfl, h⟩
  · rintro ⟨mark, hmark, i, rfl | hi, h⟩
    · exact .inr ⟨mark, hmark, h⟩
    · rcases List.mem_append.mp hi with hi | hi
      · exact .inl (.inl ⟨i, hi, mark, hmark, h⟩)
      · split at hi
        · next heq => exact .inl (.inr ⟨i, hi, heq ▸ h⟩)
        · cases hi

/-- `hasTypevar` says yes exactly where a text that it searches spells a binder's mark. -/
theorem hasTypevar_iff (n : Ref) :
    s.hasTypevar n = true ↔
      ∃ mark ∈ binderMarks, ∃ k, s.Searched mark n k ∧ (s.con k).Stamps mark := by
  have hwalks : s.hasTypevar n = true ↔
      ∃ mark ∈ binderMarks, ∃ j, ReflTransGen s.Walks n j ∧ s.Marked mark j := by
    induction n using Nat.strong_induction_on with
    | _ n ih =>
      have hbelow : ∀ q, s.Walks n q → q < n := fun q hq =>
        s.below n q ((s.con n).walked_subset q hq)
      rw [hasTypevar_eq]
      constructor
      · rintro (⟨mark, hmark, h⟩ | ⟨q, hq, h⟩)
        · exact ⟨mark, hmark, n, .refl, h⟩
        · obtain ⟨mark, hmark, j, hj, h⟩ := (ih q (hbelow q hq)).mp h
          exact ⟨mark, hmark, j, .head hq hj, h⟩
      · rintro ⟨mark, hmark, j, hj, h⟩
        rcases hj.cases_head with rfl | ⟨q, hq, hj⟩
        · exact .inl ⟨mark, hmark, h⟩
        · exact .inr ⟨q, hq, (ih q (hbelow q hq)).mpr ⟨mark, hmark, j, hj, h⟩⟩
  rw [hwalks]
  constructor
  · rintro ⟨mark, hmark, j, hj, i, hi, k, hk, h⟩
    exact ⟨mark, hmark, k, ⟨j, hj, i, hi, hk⟩, h⟩
  · rintro ⟨mark, hmark, k, ⟨j, hj, i, hi, hk⟩, h⟩
    exact ⟨mark, hmark, j, hj, i, hi, k, hk, h⟩

theorem packArgs_subset (c : Con) : ∀ q ∈ c.packArgs, q ∈ c.parts := by
  intro q hq
  cases c with
  | nominal space counter name applied =>
    obtain ⟨a, ha, haq⟩ := List.mem_flatMap.mp hq
    exact List.mem_append_right _ (List.mem_flatMap.mpr ⟨a, ha, by simp [haq]⟩)
  | _ => cases hq

theorem constTerms_subset (c : Con) : ∀ q ∈ c.constTerms, q ∈ c.parts := by
  intro q hq
  cases c with
  | nominal space counter name applied =>
    obtain ⟨a, ha, haq⟩ := List.mem_flatMap.mp hq
    exact List.mem_append_right _ (List.mem_flatMap.mpr ⟨a, ha, by simp [haq]⟩)
  | neutral n =>
    refine Con.mem_parts_of_piece ?_
    simp [Con.pieces, Neutral.pieces, part_mem_slot hq]
  | comptimeCall identity arguments bound resultPack =>
    obtain ⟨argument, hargument, heq⟩ := List.mem_filterMap.mp hq
    have hpart : Piece.part q ∈ argument.pieces := by
      cases argument <;> simp_all [ComptimeArgument.pieces]
    have hall := List.mem_flatMap.mpr ⟨argument, hargument, hpart⟩
    exact Con.mem_parts_of_piece (by simp [Con.pieces, hall])
  | _ => cases hq

theorem carried_subset (c : Con) : ∀ q ∈ c.carried, q ∈ c.parts := by
  intro q hq
  unfold Con.carried at hq
  split at hq
  · cases hq
  · exact List.mem_append_left _ hq

theorem Store.inside_of_carries {n k : Ref} (h : ReflTransGen s.Carries n k) :
    ReflTransGen s.Holds n k :=
  ReflTransGen.mono (fun m q hq => carried_subset (s.con m) q hq) n k h

/-- What is searched is inside. -/
theorem Store.Searched.inside {mark : Mark} {n k : Ref} (h : s.Searched mark n k) :
    ReflTransGen s.Holds n k := by
  obtain ⟨j, hj, i, hi, hk⟩ := h
  have hwalked : ReflTransGen s.Holds n j :=
    ReflTransGen.mono (fun m q hq => (s.con m).walked_subset q hq) n j hj
  refine hwalked.trans (.trans ?_ (s.inside_of_carries hk))
  rcases hi with rfl | hi
  · exact .refl
  · refine .single ?_
    rcases List.mem_append.mp hi with hi | hi
    · exact packArgs_subset (s.con j) i hi
    · split at hi
      · exact constTerms_subset (s.con j) i hi
      · cases hi

/-- A flag that is read off a text agrees with what is inside exactly when whatever is inside is
seen, and whatever else is seen stands for something inside. -/
theorem flag_iff {flag : Bool} {inside : Prop} {seen : Ref → Prop} {kind : Ref → Bool}
    (hflag : flag = true ↔ ∃ k, seen k) (hkind : ∀ k, seen k → kind k = true → inside) :
    (flag = true ↔ inside) ↔
      (inside → ∃ k, seen k) ∧ ∀ k, seen k → kind k = false → inside := by
  rw [hflag]
  constructor
  · rintro h
    exact ⟨h.mpr, fun k hk _ => h.mp ⟨k, hk⟩⟩
  · rintro ⟨hseen, hother⟩
    refine ⟨?_, hseen⟩
    rintro ⟨k, hk⟩
    cases h : kind k with
    | true => exact hkind k hk h
    | false => exact hother k hk h

/-- The two answers are right exactly when every binder and every projection inside shows in a
text that is searched, and no other text that is searched spells a mark without one inside. -/
theorem marks_tell_iff (n : Ref) :
    ((s.hasTypevar n = true ↔ s.Occurs Con.isBinder n) ∧
        (s.hasProjection n = true ↔ s.Occurs Con.isProjection n)) ↔
      ((s.Occurs Con.isBinder n →
          ∃ k, ∃ mark ∈ binderMarks, s.Searched mark n k ∧ (s.con k).Stamps mark) ∧
        ∀ k, (∃ mark ∈ binderMarks, s.Searched mark n k ∧ (s.con k).Stamps mark) →
          (s.con k).isBinder = false → s.Occurs Con.isBinder n) ∧
      ((s.Occurs Con.isProjection n →
          ∃ k, ReflTransGen s.Carries n k ∧ (s.con k).Stamps .projection) ∧
        ∀ k, ReflTransGen s.Carries n k ∧ (s.con k).Stamps .projection →
          (s.con k).isProjection = false → s.Occurs Con.isProjection n) := by
  refine and_congr (flag_iff ?_ ?_) (flag_iff (found_iff s) ?_)
  · rw [hasTypevar_iff]
    constructor
    · rintro ⟨mark, hmark, k, h⟩
      exact ⟨k, mark, hmark, h⟩
    · rintro ⟨k, mark, hmark, h⟩
      exact ⟨mark, hmark, k, h⟩
  · rintro k ⟨mark, -, h, -⟩ hk
    exact ⟨k, h.inside s, hk⟩
  · rintro k ⟨h, -⟩ hk
    exact ⟨k, s.inside_of_carries h, hk⟩

/-- A process that has made the empty closed shape. -/
def closedShape : Store where
  con _ := .shape [] ⟨none, none, none, none⟩ false true
  space _ := none
  below n q hq := by simp [Con.parts, Con.pieces, Con.others, joined, Indexer.pieces, slot,
    Piece.refs] at hq

/-- The flag of a closed shape is read as the mark of a const variable. -/
theorem closed_flag_is_mark :
    ¬ ((closedShape.hasTypevar 0 = true ↔ closedShape.Occurs Con.isBinder 0) ∧
      (closedShape.hasProjection 0 = true ↔ closedShape.Occurs Con.isProjection 0)) := by
  rintro ⟨h, -⟩
  have hyes : closedShape.hasTypevar 0 = true := by
    rw [hasTypevar_iff]
    refine ⟨.constvar, by decide, 0, ⟨0, .refl, 0, .inl rfl, .refl⟩, .inl ⟨.text "!closed", ?_, ?_⟩⟩
    · simp [closedShape, Con.pieces]
    · decide +kernel
  obtain ⟨k, -, hk⟩ := h.mp hyes
  cases hk

end Told

end Nupp.marks
