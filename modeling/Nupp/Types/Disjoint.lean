import Nupp.Lib.Plan
import Nupp.Types.PredicateTest

/-! `relations.disjoint`: a finite proof that no value inhabits both of two types, or none. The
types are interned, so they are names with a view of what each one is. -/

namespace Nupp.disjointness

open Nupp.Data Nupp.predicate

inductive Tag
  | nil | boolean | string | number | integer | float | int8 | int16 | int32 | int64 | uint8
  | uint16 | uint32 | uint64 | array | map | tuple | table | metatable | typeobject | func
  | thread | protocolThread | userdata | ptr | carray | cstring | voidptr | ctype | cdata | other
deriving DecidableEq

inductive DeclKind
  | record | interface | struct
deriving DecidableEq

/-- What a type is. The fields of a nominal and of a shape are in the order of `pairs`. -/
inductive View (Ty : Type)
  | never | any | unknown | typevar
  | intersection (members : List Ty)
  | union (members : List Ty) (hasNil : Bool)
  | constrained (base : Ty) (predicate : Node)
  | literal (constant : Constant) (base : Ty)
  | nominal (declKind : DeclKind) (id : Bytes) (byname : Option (List (Bytes × Ty)))
  | shape (byname : List (Bytes × Ty))
  | other (tag : Tag)

variable {Ty : Type}

/-- `T.unconstrained`'s level, and a literal's: the type below is not of this kind again. -/
def View.base : View Ty → Option Ty
  | .constrained base _ | .literal _ base => some base
  | _ => none

structure Arena (Ty : Type) where
  view : Ty → View Ty
  base_base : ∀ t base, (view t).base = some base → (view base).base = none

def View.byname : View Ty → Option (List (Bytes × Ty))
  | .nominal _ _ byname => byname
  | .shape byname => some byname
  | _ => none

def Tag.category : Tag → Option LuaType
  | .nil => some .nil
  | .boolean => some .boolean
  | .string => some .string
  | .number | .integer => some .number
  | .float | .int8 | .int16 | .int32 | .int64 | .uint8 | .uint16 | .uint32 | .uint64 => some .number
  | .array | .map | .tuple | .table | .metatable | .typeobject => some .table
  | .func => some .function
  | .thread | .protocolThread => some .thread
  | .userdata => some .userdata
  | .ptr | .carray | .cstring | .voidptr | .ctype | .cdata => some .cdata
  | .other => none

def View.category : View Ty → Option LuaType
  | .shape _ => some .table
  | .other tag => tag.category
  | _ => none

namespace Arena

variable (arena : Arena Ty)

def runtimeCategory (t : Ty) : Option LuaType :=
  match (arena.view t).base with
  | some base => (arena.view base).category
  | none => (arena.view t).category

def admitsNil (t : Ty) : Bool :=
  match arena.view t with
  | .other .nil | .any | .unknown => true
  | .union _ hasNil => hasNil
  | _ => false

/-- `T.unconstrained` -/
def unconstrained (t : Ty) : Ty :=
  match arena.view t with
  | .constrained base _ => base
  | _ => t

end Arena

/-- A pair that is asked of, for a field of both types or for a part of one. -/
structure Question (Ty : Type) where
  field : Option Bytes
  left : Ty
  right : Ty

def Question.pair (q : Question Ty) : Ty × Ty := (q.left, q.right)

def Question.reason (q : Question Ty) (why : Bytes) : Bytes :=
  match q.field with
  | none => why
  | some name => ascii "required field " ++ quoted name ++ ascii " has incompatible types"

/-- What the body does with a pair: it answers, turns to another pair, or walks the parts. -/
inductive Body (Ty : Type)
  | ends (why : Option Bytes)
  | turns (a b : Ty)
  | anyOf (parts : List (Question Ty))
  | allOf (parts : List (Question Ty))

section Definition

variable [DecidableEq Ty] (arena : Arena Ty)

/-- The named fields that both types have and neither lets be nil. -/
def required (left right : List (Bytes × Ty)) : List (Question Ty) :=
  left.filterMap fun (name, t) => (right.lookup name).bind fun bt =>
    if arena.admitsNil t || arena.admitsNil bt then none else some ⟨some name, t, bt⟩

/-- From the nominals on: the categories, then the fields. -/
def bodyOfRest (a b : Ty) : Body Ty :=
  match arena.runtimeCategory a, arena.runtimeCategory b with
  | some ac, some bc => if ac ≠ bc then .ends (some (ascii "different runtime categories")) else fields
  | _, _ => fields
where
  fields : Body Ty :=
    match (arena.view a).byname, (arena.view b).byname with
    | some left, some right => .anyOf (required arena left right)
    | _, _ => .ends none

def differ : Option LuaType → Option LuaType → Bool
  | some ac, some bc => ac ≠ bc
  | _, _ => false

def body (a b : Ty) : Body Ty :=
  match arena.view a, arena.view b with
  | .never, _ | _, .never => .ends (some (ascii "one member is never"))
  | .any, _ | _, .any | .unknown, _ | _, .unknown | .typevar, _ | _, .typevar => .ends none
  | left, right =>
    if a = b then .ends none
    else match left, right with
    | .intersection members, _ => .anyOf (members.map fun member => ⟨none, member, b⟩)
    | _, .intersection _ => .turns b a
    | .union members _, _ => .allOf (members.map fun member => ⟨none, member, b⟩)
    | _, .union _ _ => .turns b a
    | .constrained base p, .constrained base' p' =>
      if predicate.disjoint p p' then .ends (some (ascii "constraints that admit nothing in common"))
      else .turns base base'
    | .constrained base _, _ => .turns base b
    | _, .constrained base _ => .turns a base
    | .literal c base, .literal c' base' =>
      if base = base' ∧ c.equal c' = false then .ends (some (ascii "distinct literal values"))
      else .turns base base'
    | .literal _ _, _ =>
      if differ (arena.runtimeCategory a) (arena.runtimeCategory b) then
        .ends (some (ascii "different runtime categories"))
      else .ends none
    | _, .literal _ _ => .turns b a
    | .nominal kind id _, .nominal kind' id' _ =>
      if id ≠ id' ∧ kind ≠ .interface ∧ kind' ≠ .interface then
        .ends (some (ascii "distinct concrete nominal types"))
      else bodyOfRest arena a b
    | _, _ => bodyOfRest arena a b

/-- A plan of `disjoint`: it asks of pairs, and answers why they are apart, or nothing. -/
abbrev Apart (Ty : Type) := Plan (Ty × Ty) (Option Bytes)

/-- The first of the questions that is answered with a reason gives the reason. -/
def anyApart : List (Question Ty) → Apart Ty
  | [] => .ends none
  | q :: rest => .ask q.pair fun
    | some why => .ends (some (q.reason why))
    | none => anyApart rest

/-- One question answered with no reason leaves none; else the first reason stands. -/
def allApart (witness : Option Bytes) : List (Question Ty) → Apart Ty
  | [] => .ends witness
  | q :: rest => .ask q.pair fun
    | none => .ends none
    | some why => allApart (witness.or (some why)) rest

/-- The order in which the parts of a pair are walked: that of the members' ids, or of `pairs`. -/
structure Order (Ty : Type) where
  walk : Ty → Ty → List (Question Ty) → List (Question Ty)
  perm : ∀ a b l, (walk a b l).Perm l

def plan (order : Order Ty) (p : Ty × Ty) : Apart Ty :=
  match body arena p.1 p.2 with
  | .ends why => .ends why
  | .turns a b => .ask (a, b) .ends
  | .anyOf parts => anyApart (order.walk p.1 p.2 parts)
  | .allOf parts => allApart none (order.walk p.1 p.2 parts)

/-- Why no value inhabits both types, or the inner `none`; the outer one where `n` calls inside one
another are not enough. -/
def disjoint (order : Order Ty) (n : ℕ) (a b : Ty) : Option (Option Bytes) :=
  Plan.solve (plan arena order) n (a, b)

end Definition

section Termination

def Body.calls : Body Ty → List (Ty × Ty)
  | .ends _ => []
  | .turns a b => [(a, b)]
  | .anyOf parts | .allOf parts => parts.map Question.pair

theorem mem_of_asks_anyApart {parts : List (Question Ty)} {q : Ty × Ty} (h : (anyApart parts).Asks q) :
    q ∈ parts.map Question.pair := by
  induction parts with
  | nil => exact h.elim
  | cons part rest ih =>
    rcases h with rfl | ⟨_ | why, h⟩
    · exact List.mem_cons_self
    · exact List.mem_cons_of_mem _ (ih h)
    · exact h.elim

theorem mem_of_asks_allApart {parts : List (Question Ty)} {witness : Option Bytes} {q : Ty × Ty}
    (h : (allApart witness parts).Asks q) : q ∈ parts.map Question.pair := by
  induction parts generalizing witness with
  | nil => exact h.elim
  | cons part rest ih =>
    rcases h with rfl | ⟨_ | why, h⟩
    · exact List.mem_cons_self
    · exact h.elim
    · exact List.mem_cons_of_mem _ (ih h)

/-- The parts, with one that asks of `q` in front where there is one. -/
def ahead [DecidableEq Ty] (q : Ty × Ty) (parts : List (Question Ty)) : List (Question Ty) :=
  parts.filter (fun part => part.pair = q) ++ parts.filter fun part => ¬part.pair = q

theorem ahead_perm [DecidableEq Ty] (q : Ty × Ty) (parts : List (Question Ty)) : (ahead q parts).Perm parts := by
  unfold ahead
  simpa using List.filter_append_perm (fun part => decide (part.pair = q)) parts

theorem head_ahead [DecidableEq Ty] {q : Ty × Ty} {parts : List (Question Ty)} (h : q ∈ parts.map Question.pair) :
    ∃ part rest, ahead q parts = part :: rest ∧ part.pair = q := by
  obtain ⟨part, hpart, rfl⟩ := List.mem_map.mp h
  have hin : part ∈ parts.filter fun other => other.pair = part.pair := by simp [hpart]
  cases hfilter : parts.filter fun other => other.pair = part.pair with
  | nil => rw [hfilter] at hin; cases hin
  | cons first rest =>
    have hfirst : first ∈ parts.filter fun other => other.pair = part.pair := by simp [hfilter]
    exact ⟨first, _, by rw [ahead, hfilter, List.cons_append], by simpa using (List.mem_filter.mp hfirst).2⟩

variable [DecidableEq Ty]

/-- One pair may be asked of for another: a part of it, its bases, the pair the other way round, or
the types of a field that both require. -/
def Calls (arena : Arena Ty) (p q : Ty × Ty) : Prop := q ∈ (body arena p.1 p.2).calls

variable {arena : Arena Ty}

theorem calls_of_asks (order : Order Ty) (p q : Ty × Ty) (h : (plan arena order p).Asks q) :
    Calls arena p q := by
  have hwalk : ∀ parts, q ∈ (order.walk p.1 p.2 parts).map Question.pair → q ∈ parts.map Question.pair :=
    fun parts hq => ((order.perm p.1 p.2 parts).map _).mem_iff.mp hq
  unfold Calls
  unfold plan at h
  cases hbody : body arena p.1 p.2 <;> rw [hbody] at h
  case ends why => exact h.elim
  case turns a b =>
    rcases h with rfl | ⟨_, h⟩
    · exact List.mem_cons_self
    · exact h.elim
  case anyOf parts => exact hwalk parts (mem_of_asks_anyApart h)
  case allOf parts => exact hwalk parts (mem_of_asks_allApart h)

/-- Any choice of one pair asked of for each is the first that is, in some order. -/
theorem exists_order (next : Ty × Ty → Ty × Ty) :
    ∃ order : Order Ty, ∀ p, Calls arena p (next p) → (plan arena order p).first = some (next p) := by
  refine ⟨⟨fun a b => ahead (next (a, b)), fun a b => ahead_perm (next (a, b))⟩, fun p hp => ?_⟩
  unfold Calls at hp
  unfold plan
  cases hbody : body arena p.1 p.2 <;> rw [hbody] at hp
  case ends why => cases hp
  case turns a b =>
    rw [List.mem_singleton.mp hp]
    rfl
  case anyOf parts =>
    obtain ⟨part, rest, hahead, hpair⟩ := head_ahead hp
    show (anyApart (ahead (next p) parts)).first = some (next p)
    rw [hahead, anyApart, Plan.first, hpair]
  case allOf parts =>
    obtain ⟨part, rest, hahead, hpair⟩ := head_ahead hp
    show (allApart none (ahead (next p) parts)).first = some (next p)
    rw [hahead, allApart, Plan.first, hpair]

/-- `interface A next: A end` and `interface B next: B end` -/
def twoChains : Arena Bool where
  view t := .nominal .interface (if t then ascii "A" else ascii "B") (some [(ascii "next", t)])
  base_base _ _ h := by cases h

end Termination

end Nupp.disjointness
