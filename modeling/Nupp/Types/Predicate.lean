import Nupp.Lib.Delimited
import Nupp.Types.PredicateLiteral

/-! `types/predicate`: a refinement as data, read from the expression of a `where` clause, with
its canonical key and order, its bounds, and the implication that is decided on them. -/

namespace Nupp.predicate

open Double Nupp.Data

inductive Junction
  | and | or
deriving DecidableEq

def Junction.text : Junction → String
  | .and => "and" | .or => "or"

/-- A node of a refinement. `path` is the fields from the subject on, outermost first. -/
inductive Node
  | const (value : Bool)
  | not (a : Node)
  | junction (op : Junction) (a b : Node)
  | cmp (cmp : Comparison) (path : List Name) (literal : Literal) (constant : Constant)
  | typeis (path : List Name) (luaType : LuaType)
  | len (path : List Name) (a : Node)
  | integral (path : List Name)
  | truthy (path : List Name)

section Reading

structure NumberToken where
  text : Bytes
  plain : ∀ b ∈ text, b ∉ [34, 39, 40, 41]

inductive StringToken
  | short (quote : UInt8) (body : Bytes) (hquote : quote ∈ [34, 39])
    (hbody : escaped quote body = true)
  | long (text : Bytes)

/-- An expression of a `where` clause. -/
inductive Expr
  | missing
  | paren (expr : Expr)
  | name (text : Bytes)
  | dotIndex (obj : Expr) (name : Option Name)
  | string (token : StringToken)
  | number (token : NumberToken)
  | unop (op : String) (operand : Expr)
  | binop (op : String) (lhs rhs : Expr)
  | compare (op : Comparison) (lhs rhs : Expr)
  | trueExpr
  | falseExpr
  | nilExpr
  | call (obj : Expr) (args : List Expr)
  | methodCall
  | safeCall
  | other

/-- Strips the parentheses written for grouping. -/
def unwrap : Expr → Expr
  | .paren e => unwrap e
  | e => e

/-- The field path that an expression names from `self` on. -/
def pathOf : Expr → Option (List Name)
  | .paren e => pathOf e
  | .name text => if text = ascii "self" then some [] else none
  | .dotIndex obj name => match pathOf obj, name with
    | some base, some name => some (base ++ [name])
    | _, _ => none
  | _ => none

variable (tonumber : Bytes → Option Number) (stringValue : Bytes → Option Bytes)

/-- `text:lower():match("ull$")` and its fellows. -/
def hasSuffix (text : Bytes) : Bool :=
  let lower := text.map fun b => if 65 ≤ b && b ≤ 90 then b + 32 else b
  [ascii "ull", ascii "ll", ascii "i"].any (· <:+ lower)

/-- The Lua source of a literal that the subset admits, and what it stands for. -/
def literalOf : Expr → Option (Literal × Constant)
  | .paren e => literalOf e
  | .string (.short quote body hquote hbody) =>
    some (⟨quote :: body ++ [quote], .quoted hquote hbody⟩,
      .string ((stringValue (quote :: body ++ [quote])).getD body))
  | .number token =>
    let text := token.text.filter (· != 95)
    if hasSuffix text then none
    else (tonumber text).map fun value =>
      (⟨text, .word fun b hb => token.plain b (List.mem_of_mem_filter hb)⟩, .number value)
  | .unop "-" e => match literalOf e with
    | some (literal, .number value) =>
      some (⟨ascii "-(" ++ literal.text ++ ascii ")", .negative literal.written⟩, .number value.neg)
    | _ => none
  | .unop "+" e => match literalOf e with
    | some (literal, .number value) => some (literal, .number value)
    | _ => none
  | .trueExpr => some (⟨ascii "true", .word (by decide +kernel)⟩, .boolean true)
  | .falseExpr => some (⟨ascii "false", .word (by decide +kernel)⟩, .boolean false)
  | .nilExpr => some (⟨ascii "nil", .word (by decide +kernel)⟩, .nil)
  | _ => none

/-- The path whose byte length an expression takes. -/
def lengthPath (e : Expr) : Option (List Name) :=
  match unwrap e with
  | .unop "#" operand => pathOf operand
  | _ => none

/-- `type(x)` applied to a path. -/
def typeCallPath (e : Expr) : Option (List Name) :=
  match unwrap e with
  | .call obj [arg] => match unwrap obj with
    | .name text => if text = ascii "type" then pathOf arg else none
    | _ => none
  | _ => none

def Expr.isCall : Expr → Bool
  | .call _ _ | .methodCall | .safeCall => true
  | _ => false

def Expr.isBinop : Expr → Bool
  | .binop _ _ _ | .compare _ _ _ => true
  | _ => false

/-- What a comparison of two sides that name no field is refused with. -/
def refused (sides : List Expr) : Bytes :=
  match sides.find? fun side => side.isCall || side.isBinop with
  | some side => ascii (if side.isCall then "a call" else "arithmetic")
  | none => ascii "a comparison of two things that are not the declaration's own fields"

def buildType (op : Comparison) (path : List Name) (side : Expr) : Except Bytes Node :=
  match literalOf tonumber stringValue side with
  | some (_, .string value) =>
    match LUA_TYPES.find? fun t => ascii t.text = value with
    | none => .error (quoted value ++ ascii ", which type() never answers")
    | some luaType =>
      match op with
      | .eq => .ok (.typeis path luaType)
      | .ne => .ok (.not (.typeis path luaType))
      | _ => .error (ascii "a type() test ordered rather than compared")
  | _ => .error (ascii "a type() test compared with something other than a type name")

def buildLength (op : Comparison) (path : List Name) (side : Expr) : Except Bytes Node :=
  match literalOf tonumber stringValue side with
  | some (literal, .number value) => .ok (.len path (.cmp op [] literal (.number value)))
  | _ => .error (ascii "a length compared against something that is not a number")

def buildField (op : Comparison) (path : List Name) (side : Expr) : Except Bytes Node :=
  match literalOf tonumber stringValue side with
  | none => .error (ascii "a comparison against something that is not a literal")
  | some (literal, value) =>
    if !op.equality && value.type != .number && value.type != .string then
      .error (ascii "an ordered comparison against a value Lua cannot order")
    else .ok (.cmp op path literal value)

/-- A comparison: of a type, of a length, or of a field against a literal. -/
def buildComparison (op : Comparison) (lhs rhs : Expr) : Except Bytes Node :=
  match typeCallPath lhs, typeCallPath rhs with
  | some path, _ => buildType tonumber stringValue op path rhs
  | none, some path => buildType tonumber stringValue op path lhs
  | none, none =>
    match lengthPath lhs, lengthPath rhs with
    | some path, _ => buildLength tonumber stringValue op path rhs
    | none, some path => buildLength tonumber stringValue (FLIPPED op) path lhs
    | none, none =>
      match pathOf lhs, pathOf rhs with
      | some path, _ => buildField tonumber stringValue op path rhs
      | none, some path => buildField tonumber stringValue (FLIPPED op) path lhs
      | none, none => .error (refused [unwrap lhs, unwrap rhs])

/-- What is neither an operator nor a constant: a bare field, or nothing the subset admits. -/
def buildBare (e : Expr) : Except Bytes Node :=
  match pathOf e with
  | some [] => .error (ascii "the subject itself")
  | some path => .ok (.truthy path)
  | none =>
    if e.isCall then .error (ascii "a call")
    else match e with
      | .string _ | .number _ | .nilExpr => .error (ascii "a literal")
      | _ => .error (ascii "this expression")

/-- Reads an expression into a refinement, or says why it cannot. -/
def build : Expr → Except Bytes Node
  | .missing => .error (ascii "an empty refinement")
  | .paren e => build e
  | .trueExpr => .ok (.const true)
  | .falseExpr => .ok (.const false)
  | .unop "not" e => do
    let inner ← build e
    return .not inner
  | .binop "and" lhs rhs => do
    let left ← build lhs
    let right ← build rhs
    return .junction .and left right
  | .binop "or" lhs rhs => do
    let left ← build lhs
    let right ← build rhs
    return .junction .or left right
  | .binop op _ _ => .error (ascii "the " ++ ascii op ++ ascii " operator")
  | .compare op lhs rhs => buildComparison tonumber stringValue op lhs rhs
  | e => buildBare e

end Reading

/-- A refinement testing that `path` holds exactly `constant`. -/
def equals (path : List Name) (constant : Constant) : Option Node :=
  if constant = .nil then none else some (.cmp .eq path constant.literal constant)

def both : Option Node → Option Node → Option Node
  | none, b => b
  | a, none => a
  | some a, some b => some (.junction .and a b)

local instance : LawfulBEq Bytes := inferInstance

section Order

/-- `left < right` of strings. -/
def less : Bytes → Bytes → Bool
  | _, [] => false
  | [], _ :: _ => true
  | a :: s, b :: t => a < b || a = b && less s t

/-- Every operand of one nested run of `op`. -/
def flatten (op : Junction) : Node → List Node
  | .junction op' a b =>
    if op' = op then flatten op a ++ flatten op b else [.junction op' a b]
  | n => [n]

theorem sizeOf_lt_of_mem_flatten {op : Junction} {a b p : Node}
    (h : p ∈ flatten op (.junction op a b)) : sizeOf p < sizeOf (Node.junction op a b) := by
  have hle : ∀ n, p ∈ flatten op n → sizeOf p ≤ sizeOf n := by
    intro n hn
    induction n with
    | junction op' c d ihc ihd =>
      rw [flatten] at hn
      split at hn
      · rcases List.mem_append.mp hn with hn | hn
        · have := ihc hn
          simp only [Node.junction.sizeOf_spec]
          omega
        · have := ihd hn
          simp only [Node.junction.sizeOf_spec]
          omega
      · rw [List.mem_singleton.mp hn]
    | _ => rw [List.mem_singleton.mp hn]
  rw [flatten, if_pos rfl] at h
  simp only [Node.junction.sizeOf_spec]
  rcases List.mem_append.mp h with h | h
  · have := hle a h
    omega
  · have := hle b h
    omega

def pathText (path : List Name) : Bytes :=
  46 :: Delimited.joined 46 (path.map Name.bytes)

/-- The sorted keys with every one once, as one key. -/
def joinedKeys (op : Junction) (keys : List Bytes) : Bytes :=
  match (keys.mergeSort fun a b => !less b a).dedup with
  | [one] => one
  | unique => ascii "(" ++ ascii op.text ++ ascii " " ++ Delimited.joined 32 unique ++ ascii ")"

/-- The canonical key, which decides whether two refinements are one. -/
def key : Node → Bytes
  | .const value => ascii (if value then "#t" else "#f")
  | .not a => ascii "(not " ++ key a ++ ascii ")"
  | .junction op a b =>
    joinedKeys op ((flatten op (.junction op a b)).attach.map fun part => key part.1)
  | .cmp cmp path literal _ =>
    ascii "(cmp " ++ ascii cmp.text ++ ascii " " ++ pathText path ++ ascii " " ++ literal.text ++
      ascii ")"
  | .typeis path luaType =>
    ascii "(typeis " ++ pathText path ++ ascii " " ++ ascii luaType.text ++ ascii ")"
  | .len path a => ascii "(len " ++ pathText path ++ ascii " " ++ key a ++ ascii ")"
  | .integral path => ascii "(integral " ++ pathText path ++ ascii ")"
  | .truthy path => ascii "(truthy " ++ pathText path ++ ascii ")"
termination_by n => sizeOf n
decreasing_by
  · simp
  · exact sizeOf_lt_of_mem_flatten part.2
  · simp

/-- A test of what the subject is comes before anything that reads it. -/
def rank : Node → ℕ
  | .typeis [] _ => 0
  | .integral [] => 1
  | _ => 2

/-- `a` is put in front of `b`. -/
def before (a b : Node) : Bool := rank a < rank b || rank a = rank b && less (key a) (key b)

/-- The parts in canonical order as one node: the last first, without those whose key is seen. -/
def arranged (op : Junction) (parts : List Node) : Option Node :=
  match (parts.mergeSort fun a b => !before b a).reverse with
  | [] => none
  | last :: earlier =>
    (earlier.foldl (fun (out, seen) part =>
        if key part ∈ seen then (out, seen) else (.junction op part out, key part :: seen))
      (last, [key last])).1

/-- The same refinement with its conjunctions and disjunctions in canonical order. -/
def normalize : Node → Node
  | .not a => .not (normalize a)
  | .len path a => .len path (normalize a)
  | .junction op a b =>
    let parts := (flatten op (.junction op a b)).attach.map fun part => normalize part.1
    (arranged op parts).getD (.junction op a b)
  | n => n
termination_by n => sizeOf n
decreasing_by
  · simp
  · simp
  · exact sizeOf_lt_of_mem_flatten part.2

end Order

section Bounds

/-- What a refinement says of the subject's value and of its length, and what is left over. -/
structure Decomposition where
  min : Option Number
  max : Option Number
  minLength : Option Number
  maxLength : Option Number
  others : List Bytes

/-- A pair of bounds, moved by a comparison against `value`; `none` when it moves none. -/
def narrowBound (low high : Option Number) (cmp : Comparison) (value : Number) :
    Option (Option Number × Option Number) :=
  if cmp ≠ .ge ∧ cmp ≠ .le ∧ cmp ≠ .eq then none
  else
    some (if (cmp = .ge || cmp = .eq) && low.all (Number.lt · value) then some value else low,
      if (cmp = .le || cmp = .eq) && high.all (Number.lt value ·) then some value else high)

/-- One part of a conjunction, taken into the bounds or left over. -/
def decomposePart (out : Decomposition) (part : Node) : Option Decomposition :=
  let left : Decomposition := { out with others := key part :: out.others }
  match part with
  | .cmp cmp [] _ (.number value) => match narrowBound out.min out.max cmp value with
    | some (low, high) => some { out with min := low, max := high }
    | none => some left
  | .len [] (.cmp cmp [] _ (.number value)) =>
    match narrowBound out.minLength out.maxLength cmp value with
    | some (low, high) => some { out with minLength := low, maxLength := high }
    | none => some left
  | .junction _ _ _ => none
  | _ => some left

/-- The bounds and leftovers of a refinement over the subject itself. -/
def decompose (node : Node) : Option Decomposition :=
  (flatten .and node).foldlM decomposePart ⟨none, none, none, none, []⟩

/-- A wider lower bound has a narrower one above it. -/
def lowFits (wide narrow : Option Number) : Bool :=
  wide.all fun w => narrow.any fun n => !n.lt w

def highFits (wide narrow : Option Number) : Bool :=
  wide.all fun w => narrow.any fun n => !w.lt n

/-- Whether every value `a` admits `b` admits too, as far as this can tell. -/
def implies (a b : Node) : Bool :=
  if key a = key b then true
  else
    match decompose b with
    | none => false
    | some wide =>
      match decompose a with
      | none => false
      | some narrow =>
        lowFits wide.min narrow.min && highFits wide.max narrow.max &&
          lowFits wide.minLength narrow.minLength && highFits wide.maxLength narrow.maxLength &&
          wide.others.all (· ∈ narrow.others)

/-- `low` stands above `high`. -/
def crossed (low high : Option Number) : Bool := low.any fun l => high.any fun h => h.lt l

/-- Whether two refinements admit nothing in common. -/
def disjoint (a b : Node) : Bool :=
  match decompose a, decompose b with
  | some left, some right =>
    crossed left.min right.max || crossed right.min left.max ||
      crossed left.minLength right.maxLength || crossed right.minLength left.maxLength
  | _, _ => false

end Bounds

end Nupp.predicate
