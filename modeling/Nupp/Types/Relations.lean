import Mathlib.Data.List.Basic

/-! The subtype relation of `types/relations` on function types. Types are interned,
so they are names with a view of what each one is; the rules for pairs that are not
both functions, and not settled by their heads, are the parameter `rest`. -/

namespace Nupp.Relations

/-- What a callee does with an owner it is handed. -/
inductive Mode
  | plain
  | takes
  | borrows
  | exclusive
  | scoped
  | retains
  | releases
  deriving DecidableEq

/-- How the rest of a value sequence is described. -/
inductive PackTail (Ty : Type*)
  | homogeneous (type : Ty) (mode : Option Mode)
  | unknown
  | generic (packVar : String)
  deriving DecidableEq

/-- A value sequence without alternatives. -/
structure Arm (Ty : Type*) where
  head : List Ty
  tail : Option (PackTail Ty)
  deriving DecidableEq

inductive Pack (Ty : Type*)
  | arm (arm : Arm Ty)
  | alternatives (arms : List (Arm Ty))
  deriving DecidableEq

/-- A function type without binders of its own. `tail` is the tail of its parameter
pack, and `varargType` the element it was declared with. -/
structure Func (Ty : Type*) where
  params : List Ty
  paramModes : List Mode
  paramNames : List String
  tail : Option (PackTail Ty)
  varargType : Option Ty
  rets : List Ty
  retPack : Pack Ty
  yieldPack : Option (Pack Ty)
  resumePack : Option (Pack Ty)
  noYield : Bool
  sendable : Bool
  noreturn : Bool
  preservesResults : ℕ → Option ℕ
  borrowsParam : Option ℕ
  borrowsParams : List ℕ
  borrowsSelf : Bool
  borrowsResult : Option ℕ
  varargType_eq : ∀ t, varargType = some t → ∃ mode, tail = some (.homogeneous t mode)

inductive View (Ty : Type*)
  | any
  | unknown
  | never
  | func (f : Func Ty)
  | other

/-- The interned types. -/
structure Arena (Ty : Type*) where
  view : Ty → View Ty
  any : Ty
  unknown : Ty
  nil : Ty
  optional : Ty → Ty
  affine : Ty → Bool
  hasNil : Ty → Bool
  view_any : view any = .any
  view_unknown : view unknown = .unknown

section Rules

variable {Ty : Type*} [DecidableEq Ty] (T : Arena Ty) (isA : Ty → Ty → Bool)

/-- Nil is a member of `t`. -/
def admitsNil (t : Ty) : Bool :=
  t = T.nil || t = T.any || t = T.unknown || T.hasNil t

def optionalIsA (a b : Option Ty) : Bool :=
  match a, b with
  | some a, some b => isA a b
  | _, _ => false

def Func.vararg (f : Func Ty) : Bool := f.tail.isSome

def Func.paramMode (f : Func Ty) (j : ℕ) : Mode := f.paramModes.getD j .plain

def tailMode (tail : Option (PackTail Ty)) : Mode :=
  match tail with
  | some (.homogeneous _ mode) => mode.getD .plain
  | _ => .plain

def tailType (tail : Option (PackTail Ty)) : Option Ty :=
  match tail with
  | some (.homogeneous t _) => some t
  | _ => none

def packAt (given : Arm Ty) (j : ℕ) : Option Ty :=
  match given.head[j]? with
  | some t => some t
  | none =>
    match given.tail with
    | some (.homogeneous t _) => some t
    | some .unknown => some T.any
    | _ => none

/-- The type `given` supplies in slot `j`: one read out of a homogeneous tail may be
absent. -/
def suppliedAt (given : Arm Ty) (j : ℕ) : Ty :=
  let actual := (packAt T given j).getD T.nil
  if given.head[j]?.isNone && (tailType given.tail).isSome then T.optional actual else actual

def slotIsA (a b : Ty) : Bool := (!T.affine a || T.affine b) && isA a b

def armTailIsA (given want : Arm Ty) : Bool :=
  match want.tail with
  | some (.homogeneous t _) =>
    (given.head.drop want.head.length).all (fun a => slotIsA T isA a t) &&
      match given.tail with
      | some (.homogeneous a _) => slotIsA T isA a t
      | _ => true
  | some (.generic v) => given.tail = some (.generic v)
  | some .unknown => true
  | none =>
    (given.head.drop want.head.length).all (fun a => !T.affine a) &&
      match given.tail with
      | some (.generic _) => false
      | some (.homogeneous a _) => !T.affine a
      | some .unknown => !T.affine T.any
      | none => true

def armIsA (given want : Arm Ty) : Bool :=
  given = want ||
    (want.head.zipIdx.all fun (expected, j) => slotIsA T isA (suppliedAt T given j) expected) &&
      armTailIsA T isA given want

/-- Covariant compatibility between complete result packs. -/
def packIsA (given want : Pack Ty) : Bool :=
  given = want ||
    match given, want with
    | .arm a, .arm b => armIsA T isA a b
    | .arm a, .alternatives bs => bs.any fun b => armIsA T isA a b
    | .alternatives as, .arm b => as.all fun a => armIsA T isA a b
    | .alternatives as, .alternatives bs => as.all fun a => bs.any fun b => armIsA T isA a b

/-- A mode a callee may declare where the slot declares `want`. -/
def modeFits (mode want : Mode) : Bool :=
  mode = want || ((mode = .scoped || mode = .borrows) && want = .plain)

/-- The positions both sides fix, compared contravariantly. -/
def sharedParamsFit (a b : Func Ty) : Bool :=
  (List.range (min a.params.length b.params.length)).all fun j =>
    modeFits (a.paramMode j) (b.paramMode j) && optionalIsA isA b.params[j]? a.params[j]?

/-- A parameter `p` of `a` beyond the parameters of `b`. An untyped tail is read as
`unknown`. -/
def extraParamFits (a b : Func Ty) (j : ℕ) (p : Ty) : Bool :=
  if b.vararg then
    let element := (tailType b.tail).getD T.unknown
    (element = T.any || element = T.unknown || a.paramMode j = tailMode b.tail) && isA element p
  else admitsNil T p

def extraParamsFit (a b : Func Ty) : Bool :=
  (a.params.zipIdx.drop b.params.length).all fun (p, j) => extraParamFits T isA a b j p

/-- The declared elements of both tails, compared contravariantly. -/
def varargTypesFit (a b : Func Ty) : Bool :=
  match a.varargType, b.varargType with
  | some element, some want => isA want element
  | _, _ => true

def tailModesFit (a b : Func Ty) : Bool :=
  let mode := tailMode a.tail
  let want := tailMode b.tail
  let moot := (tailType b.tail = some T.any || tailType b.tail = some T.unknown) &&
    (mode = .scoped || mode = .borrows) && want = .plain
  (tailType a.tail).isNone || (tailType b.tail).isNone || mode = want || moot

def retsFit (a b : Func Ty) : Bool :=
  (List.zip a.rets b.rets).all fun (r, s) => isA r s

def yieldsFit (a b : Func Ty) : Bool :=
  match b.yieldPack with
  | none => true
  | some want =>
    match a.yieldPack with
    | none => false
    | some given =>
      packIsA T isA given want &&
        match a.resumePack, b.resumePack with
        | some ar, some br => packIsA T isA br ar
        | _, _ => false

def preservesFit (a b : Func Ty) : Bool :=
  (List.range (max a.rets.length b.rets.length)).all fun j =>
    a.preservesResults j = b.preservesResults j

/-- Which parameters a borrowed result reads, whether it reads the receiver, and the
slot it lands on. -/
def borrowRelation (f : Func Ty) : Option (List ℕ × Bool × ℕ) :=
  let named := f.borrowsSelf && f.paramNames.head? = some "self"
  let sources := f.borrowsParam.toList ++ f.borrowsParams ++ if named then [1] else []
  let implicitSelf := f.borrowsSelf && !named
  if sources.isEmpty && !implicitSelf then none
  else some (sources.mergeSort, implicitSelf, f.borrowsResult.getD 1)

/-- The rule for a pair of function types. -/
def funcIsA (a b : Func Ty) : Bool :=
  (!b.noYield || a.noYield) && (!b.sendable || a.sendable) && sharedParamsFit isA a b &&
  extraParamsFit T isA a b && (!b.noreturn || a.noreturn) && varargTypesFit isA a b &&
  tailModesFit T a b && retsFit isA a b && packIsA T isA a.retPack b.retPack &&
  yieldsFit T isA a b && preservesFit a b && borrowRelation a = borrowRelation b

/-- The rules in their order, as far as the heads of the two types decide. -/
def check (rest : (Ty → Ty → Bool) → Ty → Ty → Bool) (a b : Ty) : Bool :=
  match T.view a, T.view b with
  | _, .never => false
  | .any, _ => true
  | _, .any => true
  | .other, _ => rest isA a b
  | _, .other => rest isA a b
  | .never, _ => true
  | _, .unknown => true
  | .func f, .func g => funcIsA T isA f g
  | _, _ => false

end Rules

/-- May a value of type `a` be used where `b` is expected? Types are finite, so the
pair being decided is not met again on the way; `n` bounds the nesting. -/
def isA {Ty : Type*} [DecidableEq Ty] (T : Arena Ty) (rest : (Ty → Ty → Bool) → Ty → Ty → Bool) :
    ℕ → Ty → Ty → Bool
  | 0, _, _ => false
  | n + 1, a, b => a = b || check T (isA T rest n) rest a b

end Nupp.Relations
