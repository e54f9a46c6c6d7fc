import Mathlib.Data.List.Dedup
import Mathlib.Data.List.Sort
import Mathlib.Data.String.Basic
import Nupp.Types.AnswerCache

/-! Rules of `check` as comparisons: unions and intersections, interfaces and shapes without
indexers, and callables of plain parameters. The other constructors of types are operations of
the arena that interns them. -/

namespace Nupp.relations

section Views

variable (Ty : Type)

inductive DeclKind
  | interface
  | record
  | struct
  deriving DecidableEq

/-- A member with the type it is read at and the type it is written at. -/
structure Field where
  name : String
  read : Option Ty
  write : Option Ty
  deriving DecidableEq

/-- A function type of labeled parameters. -/
structure Func where
  params : List (String × Ty)
  rets : List Ty
  deriving DecidableEq

structure Nominal where
  declKind : DeclKind
  supertypes : List Ty
  fields : List (Field Ty)
  selfType : Option Ty
  deriving DecidableEq

inductive View
  | any
  | unknown
  | never
  | primitive (tag : String)
  | union (members : List Ty) (hasNil : Bool)
  | intersection (members : List Ty)
  | nominal (declaration : Nominal Ty)
  | shape (fields : List (Field Ty)) (fresh closed : Bool)
  | func (f : Func Ty)
  deriving DecidableEq

/-- The interned types, and the constructors that intern them. -/
structure Arena where
  view : Ty → View Ty
  id : Ty → ℕ
  nil : Ty
  union : List Ty → Ty
  intersection : List Ty → Ty
  shape : List (Field Ty) → Ty
  func : Func Ty → Ty

end Views

section Members

variable {Ty : Type} [DecidableEq Ty] (T : Arena Ty)

def View.fields : View Ty → Option (List (Field Ty))
  | .nominal n => some n.fields
  | .shape fields _ _ => some fields
  | _ => none

def lookup (fields : List (Field Ty)) (name : String) : Option (Field Ty) :=
  fields.find? fun field => field.name = name

/-- `T.intersection` or `T.union` of the types, where there are any. -/
def composed (compose : List Ty → Ty) (ts : List Ty) : Option Ty :=
  if ts = [] then none else some (compose ts)

/-- Readable types compose covariantly and writable types contravariantly. -/
def intersectionEntry (parts : List (List (Field Ty))) (name : String) : Field Ty :=
  let entries := parts.filterMap (lookup · name)
  { name := name
    read := composed T.intersection (entries.filterMap Field.read)
    write := composed T.union (entries.filterMap Field.write) }

def intersectionSurface (members : List Ty) : Ty :=
  let parts := members.filterMap fun m => (T.view m).fields
  let names := (parts.flatten.map Field.name).dedup.insertionSort (· ≤ ·)
  T.shape (names.map (intersectionEntry T parts))

def same (a b : Ty) : Bool := a = b || T.id a = T.id b

/-- Whether the first parameter of a callable member is its receiver. -/
def hasReceiver (f : Func Ty) (owner : Ty) : Bool :=
  match f.params with
  | [] => false
  | (label, first) :: _ =>
    label = "self" || same T first owner ||
      match T.view owner with
      | .nominal n => n.selfType.any (same T first)
      | .intersection members => members.any (same T first)
      | _ => false

def Func.withoutReceiver (f : Func Ty) : Func Ty := { f with params := f.params.tail }

/-- Nil is a member of `t`. -/
def admitsNil (t : Ty) : Bool :=
  t = T.nil ||
    match T.view t with
    | .any => true
    | .unknown => true
    | .union _ hasNil => hasNil
    | _ => false

/-- Whether `a` may lack an optional member. -/
def mayOmit (a owner : Ty) : Bool :=
  (match T.view a with
    | .shape _ fresh closed => fresh || closed
    | _ => false) ||
    match T.view owner with
    | .nominal n => n.declKind = .record || n.declKind = .struct
    | _ => false

end Members

namespace Comparison

variable {Ty α : Type}

def ask (a b : Ty) : Comparison Ty Bool := .isA a b .done

/-- Every member in turn, as far as the first no. -/
def every (f : α → Comparison Ty Bool) : List α → Comparison Ty Bool
  | [] => .done true
  | x :: xs => (f x).bind fun ok => if ok then every f xs else .done false

/-- The members in turn, as far as the first yes. -/
def some (f : α → Comparison Ty Bool) : List α → Comparison Ty Bool
  | [] => .done false
  | x :: xs => (f x).bind fun ok => if ok then .done true else some f xs

def and (c d : Comparison Ty Bool) : Comparison Ty Bool :=
  c.bind fun ok => if ok then d else .done false

def or (c d : Comparison Ty Bool) : Comparison Ty Bool :=
  c.bind fun ok => if ok then .done true else d

end Comparison

section Rules

open Comparison (ask every)

variable {Ty : Type} [DecidableEq Ty] (T : Arena Ty)

/-- Member functions are compared without their receivers when both declare one. -/
def memberIsA (given want givenOwner wantOwner : Ty) : Comparison Ty Bool :=
  match T.view given, T.view want with
  | .func f, .func g =>
    if hasReceiver T f givenOwner && hasReceiver T g wantOwner then
      ask (T.func f.withoutReceiver) (T.func g.withoutReceiver)
    else ask given want
  | _, _ => ask given want

def readFits (a : Ty) (fields : List (Field Ty)) (aOwner bOwner : Ty) (want : Field Ty) :
    Comparison Ty Bool :=
  match want.read with
  | none => .done true
  | some t =>
    match (lookup fields want.name).bind Field.read with
    | none => .done (admitsNil T t && mayOmit T a aOwner)
    | some given => memberIsA T given t aOwner bOwner

def writeFits (fields : List (Field Ty)) (fresh : Bool) (aOwner bOwner : Ty) (want : Field Ty) :
    Comparison Ty Bool :=
  match want.write with
  | none => .done true
  | some t =>
    if fresh then .done true
    else
      match (lookup fields want.name).bind Field.write with
      | none => .done false
      | some given => memberIsA T t given bOwner aOwner

def isFresh (a : Ty) : Bool :=
  match T.view a with
  | .shape _ fresh _ => fresh
  | _ => false

/-- Read capabilities compare covariantly; write capabilities compare contravariantly. -/
def propertiesFit (a b : Ty) (aFields bFields : List (Field Ty)) : Comparison Ty Bool :=
  .owner a fun aSurface => .owner b fun bSurface =>
    let aOwner := aSurface.getD a
    let bOwner := bSurface.getD b
    (every (readFits T a aFields aOwner bOwner) bFields).and
      (every (writeFits T aFields (isFresh T a) aOwner bOwner) bFields)

/-- Parameters compare contravariantly and results covariantly. -/
def funcsFit (f g : Func Ty) : Comparison Ty Bool :=
  let extra := f.params.drop g.params.length
  (every (fun p : (String × Ty) × (String × Ty) => ask p.2.2 p.1.2) (f.params.zip g.params)).and
    (if extra.all fun p => admitsNil T p.2 then
      (every (fun p : Ty × Ty => ask p.1 p.2) (f.rets.zip g.rets)).and
        (every (fun p : Ty × ℕ => ask (f.rets.getD p.2 T.nil) p.1) g.rets.zipIdx)
    else .done false)

/-- The rules for two types that are not settled by their heads. -/
def structureIsA (a b : Ty) : Comparison Ty Bool :=
  match T.view a, T.view b with
  | .primitive "integer", .primitive "number" => .done true
  | given, .nominal n =>
    match given.fields, n.declKind with
    | some fields, .interface => propertiesFit T a b fields n.fields
    | _, _ => .done false
  | given, .shape bFields _ _ =>
    match given.fields with
    | some fields => propertiesFit T a b fields bFields
    | none => .done false
  | .func f, .func g => funcsFit T f g
  | _, _ => .done false

/-- Whether the composed surface of an intersection is asked. -/
def asksSurface (b : Ty) : Bool :=
  match T.view b with
  | .shape _ _ _ => true
  | .nominal n => n.declKind = .interface
  | _ => false

/-- The rules in their order. -/
def check : Rules Ty := fun a b =>
  if a = b then .done true
  else
    match T.view a, T.view b with
    | _, .never => .done false
    | .any, _ => .done true
    | _, .any => .done true
    | .never, _ => .done true
    | _, .unknown => .done true
    | .union ms _, _ => every (fun m => ask m b) ms
    | _, .union ms _ => Comparison.some (fun m => ask a m) ms
    | _, .intersection ms => every (fun m => ask a m) ms
    | .intersection ms, _ =>
      (Comparison.some (fun m => ask m b) ms).or
        (if asksSurface T b then
          .own (intersectionSurface T ms) a (ask (intersectionSurface T ms) b)
        else .done false)
    | .nominal n, _ =>
      (Comparison.some (fun p => if p = b then .done true else ask p b) n.supertypes).or
        (structureIsA T a b)
    | _, _ => structureIsA T a b

end Rules

section Rising

open Comparison (ask every)

variable {Ty α : Type} {ref : Ty → Option Ty} {c d : Comparison Ty Bool}

theorem answers_bind (f : Bool → Comparison Ty Bool) (X : Set (Ty × Ty)) :
    (c.bind f).Answers ref X ↔
      (c.Answers ref X ∧ (f true).Answers ref X) ∨ (¬c.Answers ref X ∧ (f false).Answers ref X) := by
  induction c with
  | done ok =>
    cases ok with
    | true => simp [Comparison.bind, Comparison.Answers]
    | false => simp [Comparison.bind, Comparison.Answers]
  | isA a b next ih =>
    have hyes := ih true
    have hno := ih false
    simp only [Comparison.bind, Comparison.Answers, hyes, hno]
    by_cases hin : (a, b) ∈ X
    · simp only [hin, true_and, not_true_eq_false, false_and, or_false]
    · simp only [hin, false_and, not_false_eq_true, true_and, false_or]
  | owner shape next ih => exact ih (ref shape)
  | own shape t next ih => exact ih

/-- A comparison that goes on with more after a yes than after a no. -/
theorem rises_bind {f : Bool → Comparison Ty Bool} (hc : c.Rises ref) (hf : ∀ ok, (f ok).Rises ref)
    (hmore : ∀ X, (f false).Answers ref X → (f true).Answers ref X) : (c.bind f).Rises ref := by
  induction c with
  | done ok => exact hf ok
  | isA a b next ih =>
    refine ⟨fun ok => ih ok (hc.1 ok), fun X hno => ?_⟩
    rw [answers_bind] at hno ⊢
    rcases hno with ⟨hanswers, hrest⟩ | ⟨hanswers, hrest⟩
    · exact Or.inl ⟨hc.2 X hanswers, hrest⟩
    · by_cases hyes : (next true).Answers ref X
      · exact Or.inl ⟨hyes, hmore X hrest⟩
      · exact Or.inr ⟨hyes, hrest⟩
  | owner shape next ih => exact ih (ref shape) hc
  | own shape t next ih => exact ih hc

theorem rises_ask (a b : Ty) : (ask a b).Rises ref :=
  ⟨fun _ => trivial, fun _ hno => by cases hno⟩

theorem rises_own {shape t : Ty} (hd : d.Rises ref) : (Comparison.own shape t d).Rises ref := hd

theorem rises_and (hc : c.Rises ref) (hd : d.Rises ref) : (c.and d).Rises ref := by
  refine rises_bind hc (fun ok => ?_) fun X hno => by cases hno
  cases ok with
  | true => exact hd
  | false => trivial

theorem rises_or (hc : c.Rises ref) (hd : d.Rises ref) : (c.or d).Rises ref := by
  refine rises_bind hc (fun ok => ?_) fun X _ => rfl
  cases ok with
  | true => trivial
  | false => exact hd

theorem rises_every {f : α → Comparison Ty Bool} (hf : ∀ x, (f x).Rises ref) (xs : List α) :
    (every f xs).Rises ref := by
  induction xs with
  | nil => trivial
  | cons x xs ih => exact rises_and (hf x) ih

theorem rises_some {f : α → Comparison Ty Bool} (hf : ∀ x, (f x).Rises ref) (xs : List α) :
    (Comparison.some f xs).Rises ref := by
  induction xs with
  | nil => trivial
  | cons x xs ih => exact rises_or (hf x) ih

variable [DecidableEq Ty] (T : Arena Ty)

theorem rises_memberIsA (given want givenOwner wantOwner : Ty) :
    (memberIsA T given want givenOwner wantOwner).Rises ref := by
  unfold memberIsA
  split
  · split
    · exact rises_ask _ _
    · exact rises_ask _ _
  · exact rises_ask _ _

theorem rises_readFits (a : Ty) (fields : List (Field Ty)) (aOwner bOwner : Ty)
    (want : Field Ty) : (readFits T a fields aOwner bOwner want).Rises ref := by
  unfold readFits
  split
  · trivial
  · split
    · trivial
    · exact rises_memberIsA T _ _ _ _

theorem rises_writeFits (fields : List (Field Ty)) (fresh : Bool) (aOwner bOwner : Ty)
    (want : Field Ty) : (writeFits T fields fresh aOwner bOwner want).Rises ref := by
  unfold writeFits
  split
  · trivial
  · split
    · trivial
    · split
      · trivial
      · exact rises_memberIsA T _ _ _ _

theorem rises_propertiesFit (a b : Ty) (aFields bFields : List (Field Ty)) :
    (propertiesFit T a b aFields bFields).Rises ref :=
  rises_and (rises_every (rises_readFits T a aFields _ _) bFields)
    (rises_every (rises_writeFits T aFields _ _ _) bFields)

theorem rises_funcsFit (f g : Func Ty) : (funcsFit T f g).Rises ref := by
  refine rises_and (rises_every (fun p => rises_ask _ _) _) ?_
  split
  · exact rises_and (rises_every (fun p => rises_ask _ _) _) (rises_every (fun p => rises_ask _ _) _)
  · trivial

theorem rises_structureIsA (a b : Ty) : (structureIsA T a b).Rises ref := by
  unfold structureIsA
  split
  · trivial
  · split
    · exact rises_propertiesFit T a b _ _
    · trivial
  · split
    · exact rises_propertiesFit T a b _ _
    · trivial
  · exact rises_funcsFit T _ _
  · trivial

/-- The rules have a coinductive reading. -/
theorem check_rising : Rising ref (check T) := by
  intro a b
  unfold check
  split
  · trivial
  · split
    · trivial
    · trivial
    · trivial
    · trivial
    · trivial
    · exact rises_every (fun m => rises_ask _ _) _
    · exact rises_some (fun m => rises_ask _ _) _
    · exact rises_every (fun m => rises_ask _ _) _
    · refine rises_or (rises_some (fun m => rises_ask _ _) _) ?_
      split
      · exact rises_own (rises_ask _ _)
      · trivial
    · refine rises_or (rises_some (fun p => ?_) _) (rises_structureIsA T a b)
      split
      · trivial
      · exact rises_ask _ _
    · exact rises_structureIsA T a b

end Rising

section Remembered

/-- `A` has a member whose first parameter is an `A` under another label than `self`. The
shape is the composed surface of `A & B`. -/
def views : List (View ℕ) :=
  [.primitive "integer",
   .primitive "string",
   .nominal ⟨.interface, [], [⟨"f", some 3, some 3⟩, ⟨"h", some 1, some 1⟩], none⟩,
   .func ⟨[("x", 2)], [0]⟩,
   .nominal ⟨.interface, [], [⟨"g", some 0, some 0⟩], none⟩,
   .shape [⟨"f", some 3, some 3⟩, ⟨"g", some 0, some 0⟩, ⟨"h", some 1, some 1⟩] false false,
   .shape [⟨"g", some 0, some 0⟩, ⟨"h", some 1, some 1⟩] false false,
   .nominal ⟨.interface, [], [⟨"f", some 8, some 8⟩], none⟩,
   .func ⟨[("self", 7)], [0]⟩,
   .intersection [2, 4],
   .func ⟨[], [0]⟩,
   .primitive "nil"]

/-- A type is its place among the views. -/
def arena : Arena ℕ where
  view t := views.getD t .never
  id t := t
  nil := 11
  union ts := ts.headD 12
  intersection ts := ts.headD 12
  shape fields := views.idxOf (.shape fields false false)
  func f := views.idxOf (.func f)

/-- The same question before and after one about `A & B`. -/
def events : List (Event ℕ) := [.isA 5 7, .isA 9 6, .invalidate, .isA 5 7]

theorem events_answers :
    (run (fun t => t) 20 events (check arena) (State.initial ℕ)).map Prod.fst =
      some [false, true, true] := by decide

/-- The shape is read as the surface throughout. -/
def surfaceRef (t : ℕ) : Option ℕ := if t = 5 then some 9 else none

end Remembered

end Nupp.relations
