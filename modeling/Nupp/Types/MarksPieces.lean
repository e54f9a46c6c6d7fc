import Nupp.Types.Marks

/-! No piece of a key ends in `!`, so no mark stands across two pieces. -/

namespace Nupp.marks

open Decimal Delimited Nupp.Data Nupp.interning Relation

/-- The letter that follows `!` in a mark. -/
def letter : Mark → UInt8
  | .typevar => 116
  | .packvar => 112
  | .constvar => 99
  | .projection => 106

theorem text_eq (mark : Mark) : mark.text = [33, letter mark] := by
  cases mark <;> decide +kernel

/-- The text does not end in `!`. -/
def Closed (text : Bytes) : Prop := text.getLast? ≠ some 33

instance : DecidablePred Closed := fun text =>
  inferInstanceAs (Decidable (text.getLast? ≠ some 33))

theorem closed_append {u v : Bytes} (hu : Closed u) (hv : Closed v) : Closed (u ++ v) := by
  unfold Closed at *
  rw [List.getLast?_append]
  cases h : v.getLast? with
  | none => simpa using hu
  | some b => simpa [h] using hv

theorem closed_append_right {u v : Bytes} (hne : v ≠ []) (hv : Closed v) : Closed (u ++ v) := by
  rw [Closed, List.getLast?_append_of_ne_nil _ hne]
  exact hv

theorem closed_of_not_mem {text : Bytes} (h : (33 : UInt8) ∉ text) : Closed text :=
  fun hlast => h (List.mem_of_getLast? hlast)

theorem not_mem_numeral (n : ℕ) : (33 : UInt8) ∉ numeral n := by
  intro h
  have := isDigit_of_mem_numeral h
  simp [isDigit] at this

/-- A piece of the code's own text does not end in `!`. -/
def Piece.Tight : Piece → Prop
  | .text s => Closed (ascii s)
  | _ => True

instance : DecidablePred Piece.Tight
  | .text s => inferInstanceAs (Decidable (Closed (ascii s)))
  | .name .. | .word _ | .number .. | .part _ => isTrue trivial

def Tight (pieces : List Piece) : Prop := ∀ piece ∈ pieces, piece.Tight

@[simp] theorem tight_nil : Tight [] := by simp [Tight]

@[simp] theorem tight_cons {piece : Piece} {pieces : List Piece} :
    Tight (piece :: pieces) ↔ piece.Tight ∧ Tight pieces := by simp [Tight]

@[simp] theorem tight_append {front pieces : List Piece} :
    Tight (front ++ pieces) ↔ Tight front ∧ Tight pieces := by
  simp [Tight, or_imp, forall_and]

theorem tight_flatMap {α : Type} {l : List α} {f : α → List Piece} (h : ∀ a ∈ l, Tight (f a)) :
    Tight (l.flatMap f) := by
  intro piece hpiece
  obtain ⟨a, ha, hmem⟩ := List.mem_flatMap.mp hpiece
  exact h a ha piece hmem

@[simp] theorem tight_name {s : Bytes} {close : Close} : (Piece.name s close).Tight := trivial

@[simp] theorem tight_word {w : Word} : (Piece.word w).Tight := trivial

@[simp] theorem tight_number {space : Option ℕ} {n : ℕ} : (Piece.number space n).Tight := trivial

@[simp] theorem tight_part {q : Ref} : (Piece.part q).Tight := trivial

theorem tight_text {s : String} (h : (ascii s).getLast? ≠ some 33) : (Piece.text s).Tight := h

theorem tight_joined {sep : String} {texts : List (List Piece)} (hsep : (Piece.text sep).Tight)
    (h : ∀ text ∈ texts, Tight text) : Tight (joined sep texts) := by
  induction texts with
  | nil => exact tight_nil
  | cons first rest ih =>
    have hfirst := h first (List.mem_cons_self ..)
    have hrest := ih fun text ht => h text (List.mem_cons_of_mem _ ht)
    cases rest with
    | nil => exact hfirst
    | cons next rest => simp [joined, hfirst, hsep, hrest]

theorem tight_ids {sep : String} {refs : List Ref} (hsep : (Piece.text sep).Tight) :
    Tight (ids sep refs) :=
  tight_joined hsep (by simp)

theorem tight_slot (o : Option Ref) : Tight (slot o) := by
  cases o with
  | none => simp only [slot, tight_cons, tight_nil]; decide
  | some q => simp [slot]

theorem tight_cleanup (close : Close) (c : Cleanup) : Tight (c.pieces close) := by
  induction c with
  | field name of ih => simp only [Cleanup.pieces, tight_cons, tight_name, ih]; decide
  | _ => simp only [Cleanup.pieces, tight_cons, tight_name, tight_part, tight_nil]; decide

theorem tight_cleanups (cleanups : List Cleanup) : Tight (cleanupPieces cleanups) := by
  induction cleanups with
  | nil => simp only [cleanupPieces, tight_cons, tight_nil]; decide
  | cons one rest ih =>
    cases rest with
    | nil => exact tight_cleanup _ one
    | cons next rest => simp [cleanupPieces, tight_cleanup, ih]

mutual

theorem tight_obligation (close : Close) : (o : Obligation) → Tight (o.pieces close)
  | .cleanup cleanup component => by
    simp only [Obligation.pieces, List.cons_append, tight_cons, tight_append, tight_cleanup,
      tight_name, tight_nil]
    decide
  | .transferOnly component => by
    simp only [Obligation.pieces, tight_cons, tight_name, tight_nil]
    decide
  | .aggregate children component => by
    simp only [Obligation.pieces, List.cons_append, tight_cons, tight_append,
      tight_obligations children, tight_name, tight_nil]
    decide

theorem tight_obligations : (os : List Obligation) → Tight (obligationPieces os)
  | [] => by
    simp only [obligationPieces, tight_cons, tight_nil]
    decide
  | [one] => tight_obligation _ one
  | one :: next :: rest => by
    simp [obligationPieces, tight_obligation, tight_obligations (next :: rest)]

end

theorem tight_indexer (ix : Indexer) : Tight ix.pieces := by
  simp only [Indexer.pieces, List.cons_append, tight_cons, tight_append, tight_slot, tight_nil]
  decide

theorem tight_field (f : Field) : Tight f.pieces := by
  simp only [Field.pieces, List.cons_append, tight_cons, tight_append, tight_slot, tight_name]
  decide

theorem tight_entry (e : Entry) : Tight e.pieces := by
  unfold Entry.pieces
  split
  · simp only [tight_append, tight_cons, tight_word, tight_part, tight_nil]
    decide
  · simp only [tight_append, tight_cons, tight_word, tight_part, tight_nil]
    decide

theorem tight_tail (rest : Option PackTail) : Tight (tailPieces rest) := by
  rcases rest with _ | type | var | type | id | type
  · exact tight_nil
  all_goals
    simp only [tailPieces, tight_cons, tight_word, tight_part, tight_name, tight_nil]
    decide

theorem tight_template (close : Close) (part : TemplatePart) : Tight (part.pieces close) := by
  cases part with
  | text s => simp only [TemplatePart.pieces, tight_cons, tight_number, tight_name, tight_nil]; decide
  | type t => simp only [TemplatePart.pieces, tight_cons, tight_part, tight_name, tight_nil]; decide

theorem tight_templates (parts : List TemplatePart) : Tight (templatePieces parts) := by
  induction parts with
  | nil => simp only [templatePieces, tight_cons, tight_nil]; decide
  | cons one rest ih =>
    cases rest with
    | nil => exact tight_template _ one
    | cons next rest => simp [templatePieces, tight_template, ih]

theorem tight_neutral (n : Neutral) : Tight n.pieces := by
  simp only [Neutral.pieces, List.cons_append, List.nil_append, tight_cons, tight_append,
    tight_name, tight_slot, tight_templates]
  decide

theorem tight_argument (argument : ComptimeArgument) : Tight argument.pieces := by
  cases argument with
  | type value => simp only [ComptimeArgument.pieces, tight_cons, tight_part, tight_nil]; decide
  | typepack value => simp only [ComptimeArgument.pieces, tight_cons, tight_part, tight_nil]; decide
  | const value => simp only [ComptimeArgument.pieces, tight_cons, tight_part, tight_nil]; decide

theorem tight_binders {start : String} {binders : List (List Piece)}
    (hstart : (Piece.text start).Tight) (h : ∀ binder ∈ binders, Tight binder) :
    Tight (binderPieces start binders) := by
  unfold binderPieces
  split
  · exact tight_nil
  · have hjoined : Tight (joined "," binders) := tight_joined (by decide) h
    have hclose : (Piece.text ">").Tight := by decide
    simp [hstart, hjoined, hclose]

theorem tight_typeParams (typeParams : List (Ref × Option Ref)) :
    Tight (binderPieces "|<" (typeParams.map fun tv =>
      [.part tv.1, .text "<:"] ++ (match tv.2 with
        | none => [.text "any"]
        | some bound => [.part bound]))) := by
  refine tight_binders (by decide) ?_
  simp only [List.mem_map, forall_exists_index, and_imp, forall_apply_eq_imp_iff₂]
  rintro ⟨tv, bound⟩ -
  cases bound <;> simp only [tight_append, tight_cons, tight_part, tight_nil] <;> decide

theorem tight_func (f : Func) : Tight f.pieces := by
  have hpacks : Tight (binderPieces "|<" (f.packParams.map fun pv => [.part pv])) :=
    tight_binders (by decide) (by simp)
  have hconsts : Tight (binderPieces "|<const " (f.constParams.map fun cv => [.part cv])) :=
    tight_binders (by decide) (by simp)
  have houtputs : Tight (f.outputs.flatMap fun output =>
      [.name output.1 .colon, .part output.2]) :=
    tight_flatMap (by simp)
  rw [Func.pieces]
  simp only [tight_append]
  refine ⟨⟨⟨⟨⟨⟨⟨⟨?_, ?_⟩, tight_typeParams f.typeParams⟩, hpacks⟩, hconsts⟩, ?_⟩, ?_⟩, ?_⟩, houtputs⟩
  · simp only [tight_cons, tight_part, tight_nil]; decide
  · split
    · exact tight_nil
    · simp only [tight_cons, tight_part, tight_number, tight_nil]; decide
  · split
    · exact tight_nil
    · simp only [tight_cons, tight_name, tight_nil]; decide
  · split
    · exact tight_nil
    · simp only [tight_cons, tight_part, tight_nil]; decide
  · split
    · exact tight_nil
    · simp only [tight_cons, tight_part, tight_nil]; decide

theorem tight_pieces (c : Con) : Tight c.pieces := by
  cases c with
  | prim tag => cases tag <;> simp only [Con.pieces, tight_cons, tight_nil] <;> decide
  | array elem elems fresh =>
    have hids : ∀ refs, Tight (ids "," refs) := fun refs => tight_ids (by decide)
    cases elems with
    | none =>
      cases fresh <;> simp only [Con.pieces, tight_append, tight_cons, tight_part, tight_nil,
        if_true, if_false, Bool.false_eq_true] <;> decide
    | some refs =>
      simp only [Con.pieces, List.cons_append, tight_append, tight_cons, tight_part, tight_nil, hids]
      decide
  | tuple elems =>
    have hids : Tight (ids "," elems) := tight_ids (by decide)
    simp only [Con.pieces, List.cons_append, tight_append, tight_cons, tight_nil, hids]
    decide
  | shape fields index fresh closed =>
    have hjoined : Tight (joined "," (fields.map Field.pieces ++ [index.pieces])) := by
      refine tight_joined (by decide) fun text htext => ?_
      rcases List.mem_append.mp htext with h | h
      · obtain ⟨f, -, rfl⟩ := List.mem_map.mp h
        exact tight_field f
      · rw [List.mem_singleton.mp h]
        exact tight_indexer index
    cases fresh <;> cases closed <;>
      simp only [Con.pieces, List.cons_append, tight_append, tight_cons, tight_nil, hjoined,
        if_true, if_false, Bool.false_eq_true] <;> decide
  | union members =>
    have hids : Tight (ids "|" members) := tight_ids (by decide)
    simp only [Con.pieces, List.cons_append, tight_append, tight_cons, tight_nil, hids]
    decide
  | intersection members =>
    have hids : Tight (ids "&" members) := tight_ids (by decide)
    simp only [Con.pieces, List.cons_append, tight_append, tight_cons, tight_nil, hids]
    decide
  | affine inner cleanups transferOnly obligation =>
    cases transferOnly <;>
      simp only [Con.pieces, List.cons_append, tight_append, tight_cons, tight_nil, tight_cleanups,
        tight_obligation, tight_part, if_true, if_false, Bool.false_eq_true] <;> decide
  | protocolThread start resume yield ret =>
    have hids : Tight (ids "," [start, resume, yield, ret]) := tight_ids (by decide)
    simp only [Con.pieces, List.cons_append, tight_append, tight_cons, tight_nil, hids]
    decide
  | genericAlias name body typeParams packParams constParams =>
    have hids : Tight (ids "|" (body :: typeParams ++ packParams ++ constParams)) :=
      tight_ids (by decide)
    simp only [Con.pieces, tight_append, tight_cons, tight_name, tight_nil, hids]
    decide
  | func f => exact tight_func f
  | indexer ix =>
    simp only [Con.pieces, List.cons_append, tight_append, tight_cons, tight_nil, tight_slot]
    decide
  | carray elem term =>
    cases term <;> simp only [Con.pieces, tight_append, tight_cons, tight_part, tight_nil] <;> decide
  | neutral n => exact tight_neutral n
  | comptimeCall identity arguments bound resultPack =>
    have harguments : Tight (arguments.flatMap ComptimeArgument.pieces) :=
      tight_flatMap fun argument _ => tight_argument argument
    cases resultPack <;>
      simp only [Con.pieces, tight_append, tight_cons, tight_name, tight_part, tight_nil,
        harguments, if_true, if_false, Bool.false_eq_true] <;> decide
  | pack head rest =>
    have hjoined : Tight (joined "," (head.map Entry.pieces)) := by
      refine tight_joined (by decide) fun text htext => ?_
      obtain ⟨e, -, rfl⟩ := List.mem_map.mp htext
      exact tight_entry e
    simp only [Con.pieces, List.cons_append, tight_append, tight_cons, tight_nil, hjoined,
      tight_tail]
    decide
  | packUnion alternatives =>
    have hids : Tight (ids "|" alternatives) := tight_ids (by decide)
    simp only [Con.pieces, List.cons_append, tight_append, tight_cons, tight_nil, hids]
    decide
  | constOp operation operands =>
    have hids : Tight (ids "," operands) := tight_ids (by decide)
    simp only [Con.pieces, tight_append, tight_cons, tight_name, tight_nil, hids]
    decide
  | _ =>
    simp only [Con.pieces, tight_cons, tight_part, tight_name, tight_number, tight_nil]
    decide

end Nupp.marks
