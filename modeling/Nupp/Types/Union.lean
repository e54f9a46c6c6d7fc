import Mathlib.Data.Finset.Basic
import Mathlib.Data.List.Sort
import Mathlib.Data.String.Basic
import Mathlib.Logic.Function.Basic

/-! `types.union`: how members are pushed, merged and ordered. A type is known by its parts,
which is what interning makes of its identity. -/

namespace Nupp.types

/-- The tag of a type that is neither a function nor a union. -/
inductive Tag
  | any | unknown | never | «open» | nil | boolean | string | number | integer | table | thread
  | userdata | float | cdata | cstring | voidptr | int8 | int16 | int32 | int64 | uint8 | uint16
  | uint32 | uint64 | type | typepack | functionconst
  | array | map | tuple | shape | metatable | typeobject | nominal
  | literal | constrained | intersection | affine | borrowed | pinned | ptr | carray | const
  | ctype | typevar | typeHandle | packResult | neutral | projection | protocolThread
  | genericAlias
deriving DecidableEq

def Tag.text : Tag → String
  | .any => "any" | .unknown => "unknown" | .never => "never" | .open => "open" | .nil => "nil"
  | .boolean => "boolean" | .string => "string" | .number => "number" | .integer => "integer"
  | .table => "table" | .thread => "thread" | .userdata => "userdata" | .float => "float"
  | .cdata => "cdata" | .cstring => "cstring" | .voidptr => "voidptr" | .int8 => "int8"
  | .int16 => "int16" | .int32 => "int32" | .int64 => "int64" | .uint8 => "uint8"
  | .uint16 => "uint16" | .uint32 => "uint32" | .uint64 => "uint64" | .type => "type"
  | .typepack => "typepack" | .functionconst => "functionconst" | .array => "array"
  | .map => "map" | .tuple => "tuple" | .shape => "shape" | .metatable => "metatable"
  | .typeobject => "typeobject" | .nominal => "nominal" | .literal => "literal"
  | .constrained => "constrained" | .intersection => "intersection" | .affine => "affine"
  | .borrowed => "borrowed" | .pinned => "pinned" | .ptr => "ptr" | .carray => "carray"
  | .const => "const" | .ctype => "ctype" | .typevar => "typevar" | .typeHandle => "typeHandle"
  | .packResult => "packResult" | .neutral => "neutral" | .projection => "projection"
  | .protocolThread => "protocolThread" | .genericAlias => "genericAlias"

/-- A function type: all that its key spells up to its labels, and what follows. -/
structure Func where
  unlabeledId : String
  explicitPreserves : Finset ℕ
  paramNames : Option (List String)
  sendable : Bool
deriving DecidableEq

/-- A type that is no union. A leaf has the text that it is ordered by and its key. -/
inductive Member
  | leaf (tag : Tag) (label : String) (key : String)
  | func (f : Func)
deriving DecidableEq

/-- A union has no union among its members. -/
inductive Ty
  | one (m : Member)
  | union (members : List Member)
deriving DecidableEq

def Member.prim (tag : Tag) : Member := .leaf tag "" tag.text

/-- The ids that the arena has given to types, a serial to each. -/
structure Arena where
  id : Member → String
  injective : Function.Injective id

/-- `TABLE_SHAPED` -/
def Tag.tableShaped : Tag → Bool
  | .array | .map | .tuple | .shape | .metatable | .typeobject | .nominal => true
  | _ => false

def Member.tableShaped : Member → Bool
  | .leaf tag _ _ => tag.tableShaped
  | .func _ => false

def Member.tagText : Member → String
  | .leaf tag _ _ => tag.text
  | .func _ => "func"

/-- The spelling that members of one tag are ordered by. -/
def Member.spelling : Member → String
  | .leaf .literal label _ => label
  | .leaf .nominal label _ => label
  | _ => ""

def canonicalOrder (arena : Arena) (a b : Member) : Bool :=
  if a.tagText ≠ b.tagText then a.tagText < b.tagText
  else if a.spelling ≠ b.spelling then a.spelling < b.spelling
  else arena.id a < arena.id b

/-- The tables of a union under construction. -/
structure Building where
  seen : Member → Bool
  flat : List Member
  functionByContract : String → Option ℕ

def Building.empty : Building := ⟨fun _ => false, [], fun _ => none⟩

/-- `types.funcWith(prior, {paramNames = false, sendable = …})` -/
def mergeFunctions (prior t : Func) : Func :=
  { prior with paramNames := none, sendable := prior.sendable && t.sendable }

def pushMember (t : Member) (s : Building) : Building :=
  let plain : Building :=
    if s.seen t then s
    else
      { seen := Function.update s.seen t true
        flat := s.flat ++ [t]
        functionByContract := match t with
          | .func f => Function.update s.functionByContract f.unlabeledId (some s.flat.length)
          | .leaf _ _ _ => s.functionByContract }
  match t with
  | .leaf tag _ _ => if tag = .never then s else plain
  | .func f =>
    match s.functionByContract f.unlabeledId with
    | none => plain
    | some index =>
      match s.flat[index]? with
      | some (.func prior) =>
        if prior = f then s
        else
          let merged := .func (mergeFunctions prior f)
          { s with
            seen := Function.update (Function.update s.seen (.func prior) false) merged true
            flat := s.flat.set index merged }
      | _ => s

def pushUnionMember (t : Ty) (s : Building) : Building :=
  match t with
  | .one m => pushMember m s
  | .union members => members.foldl (fun s m => pushMember m s) s

def union (arena : Arena) (members : List Ty) : Ty :=
  match (members.foldl (fun s t => pushUnionMember t s) .empty).flat with
  | [] => .one (.prim .never)
  | [m] => .one m
  | flat =>
    if .prim .any ∈ flat then .one (.prim .any)
    else
      let structured := flat.any Member.tableShaped
      let flat := if structured then flat.filter (· ≠ .prim .table) else flat
      match structured, flat with
      | true, [m] => .one m
      | _, flat => .union (flat.insertionSort fun a b => ¬canonicalOrder arena b a)

end Nupp.types
