import Nupp.Lua.ConstantFold

/-! The constants of a chunk under lexical scoping, and what a tree must satisfy for its
directives to be right. -/

namespace Nupp.ConstantFold

/-- A binding in scope, with the value it is known to hold. -/
structure Binding where
  token : Name
  known : Option Known

/-- The bindings in scope, by block, the innermost and the last first. -/
abbrev Ctx := List (List Binding)

def visible (Γ : Ctx) (name : String) : Option Binding :=
  Γ.flatten.find? fun b => b.token.text = name

def push (Γ : Ctx) (b : Binding) : Ctx :=
  match Γ with
  | [] => [[b]]
  | G :: Γ => (b :: G) :: Γ

theorem push_flatten (Γ : Ctx) (b : Binding) : (push Γ b).flatten = b :: Γ.flatten := by
  cases Γ <;> rfl

def paramScope (params : List Name) : List Binding := (params.map fun p => ⟨p, none⟩).reverse

/-! Constants. -/

def Known.project : Known → Path → Option Known
  | k, [] => some k
  | .scalar _ _, _ :: _ => none
  | .table fields, name :: path => (fields.get? name).bind fun k => k.project path

/-- The constant at a dotted path. -/
def pathValue (Γ : Ctx) : Path → Option Known
  | [] => none
  | name :: path => ((visible Γ name).bind Binding.known).bind fun k => k.project path

/-- An expression that makes a table. -/
def isConstructor : Expr → Bool
  | .tableExpr _ _ => true
  | .paren _ e => isConstructor e
  | _ => false

mutual

/-- The constant an expression denotes. The negation of a table constructor is none,
since it would not run the constructor. -/
def constValue (Γ : Ctx) : Expr → Option Known
  | .literal _ v => literalValue v
  | .name _ t => pathValue Γ [t.text]
  | .paren _ e => constValue Γ e
  | .unop _ op e => if isConstructor e then none else (constValue Γ e).bind (foldUnop op)
  | .binop _ op l r => (binopFold op (constValue Γ l) (constValue Γ r)).2.2
  | .dotIndex d obj name => (textPath (.dotIndex d obj name)).bind (pathValue Γ)
  | .tableExpr _ fields =>
    match constFields Γ fields with
    | .nil => none
    | known => some (.table known)
  | .call _ _ _ | .bracketIndex _ _ _ | .funcExpr _ _ _ => none

def constFields (Γ : Ctx) : Fields → KnownFields
  | .nil => .nil
  | .named isConst name e rest =>
    match isConst, constValue Γ e with
    | true, some v => (constFields Γ rest).insert name v
    | _, _ => constFields Γ rest
  | .positional _ rest => constFields Γ rest
  | .keyed _ _ rest => constFields Γ rest

end

/-- The names a constructor stores. -/
def fieldNames : Fields → List String
  | .nil => []
  | .named _ name _ rest => name :: fieldNames rest
  | .positional _ rest | .keyed _ _ rest => fieldNames rest

def constValues (Γ : Ctx) : Exprs → List (Option Known)
  | .nil => []
  | .cons e es => constValue Γ e :: constValues Γ es

section

variable (writes : List Key)

/-- A binding some statement assigns, by its definition or by its name. -/
def Written (token : Name) : Prop :=
  bindingKey token ∈ writes ∨ .text token.text ∈ writes

def bindingOf (isConst : Bool) (token : Name) (value : Option Known) : Binding :=
  ⟨token, if isConst || unchangedScalar writes token value then value else none⟩

def pushNames (isConst : Bool) (Γ : Ctx) : List Name → List (Option Known) → Ctx
  | [], _ => Γ
  | token :: tokens, values =>
    pushNames isConst (push Γ (bindingOf writes isConst token values.head?.join)) tokens values.tail

/-- The bindings in scope after a statement. -/
def after (Γ : Ctx) : Stmt → Ctx
  | .localStmt isConst names exprs => pushNames writes isConst Γ names (constValues Γ exprs)
  | .localFuncStmt name _ _ => push Γ ⟨name, none⟩
  | _ => Γ

def afterBlock (Γ : Ctx) : Block → Ctx
  | .nil => Γ
  | .cons stat rest => afterBlock (after writes Γ stat) rest

/-! Trees as the checker hands them over, without directives. With `apart` they also keep
the names of const tables and of const fields to themselves. -/

def Fresh (Γ : Ctx) (token : Name) : Prop :=
  ∃ d, token.definition = some d ∧ ∀ b ∈ Γ.flatten, b.token.definition ≠ some d

/-- A use carries the definition of the binding it sees, and of no other one. -/
def Resolved (Γ : Ctx) (token : Name) : Prop :=
  match visible Γ token.text with
  | some b => token.definition = b.token.definition
  | none => ∀ b ∈ Γ.flatten, ∀ d, b.token.definition = some d → token.definition ≠ some d

/-- The name of a const table. -/
def NamesTable (Γ : Ctx) (name : String) : Prop :=
  ∃ b fields, visible Γ name = some b ∧ b.known = some (.table fields)

structure ParamsOk (apart : Bool) (Γ : Ctx) (params : List Name) : Prop where
  fresh : ∀ p ∈ params, Fresh Γ p
  distinct : (params.map Name.definition).Nodup
  apart : apart = true → ∀ p ∈ params, ¬ NamesTable Γ p.text

def NamesOk (apart isConst : Bool) (Γ : Ctx) : List Name → List (Option Known) → Prop
  | [], _ => True
  | token :: tokens, values =>
    Fresh Γ token ∧ (isConst = true → ¬ Written writes token) ∧
      (apart = true → isConst = true → ∀ fields, values.head?.join = some (.table fields) →
        ¬ NamesTable Γ.tail token.text) ∧
      NamesOk apart isConst (push Γ (bindingOf writes isConst token values.head?.join)) tokens values.tail

variable (apart : Bool)

mutual

def ExprOk (Γ : Ctx) : Expr → Prop
  | .literal d _ => d = .plain
  | .name d t => d = .plain ∧ Resolved Γ t
  | .paren d e => d = .plain ∧ ExprOk Γ e
  | .unop d op e => d = .plain ∧ ExprOk Γ e ∧
    (apart = true → op = .not → isConstructor e = true → constValue Γ e = none)
  | .binop d _ l r => d = .plain ∧ ExprOk Γ l ∧ ExprOk Γ r
  | .call d f args => d = .plain ∧ ExprOk Γ f ∧ ExprsOk Γ args
  | .dotIndex d obj _ => d = .plain ∧ ExprOk Γ obj
  | .bracketIndex d obj key => d = .plain ∧ ExprOk Γ obj ∧ ExprOk Γ key
  | .tableExpr d fields => d = .plain ∧ FieldsOk Γ fields
  | .funcExpr d params body =>
    d = .plain ∧ ParamsOk apart Γ params ∧ BlockOk (paramScope params :: Γ) body

def ExprsOk (Γ : Ctx) : Exprs → Prop
  | .nil => True
  | .cons e es => ExprOk Γ e ∧ ExprsOk Γ es

def FieldsOk (Γ : Ctx) : Fields → Prop
  | .nil => True
  | .named isConst name e rest =>
    ExprOk Γ e ∧ FieldsOk Γ rest ∧ (apart = true → isConst = true → name ∉ fieldNames rest)
  | .positional e rest => ExprOk Γ e ∧ FieldsOk Γ rest
  | .keyed k e rest => ExprOk Γ k ∧ ExprOk Γ e ∧ FieldsOk Γ rest

def StmtOk (Γ : Ctx) : Stmt → Prop
  | .localStmt isConst names exprs =>
    ExprsOk Γ exprs ∧ NamesOk writes apart isConst Γ names (constValues Γ exprs)
  | .assignStmt targets exprs => ExprsOk Γ targets ∧ ExprsOk Γ exprs
  | .returnStmt exprs => ExprsOk Γ exprs
  | .callStmt e => ExprOk Γ e
  | .ifStmt clauses otherwise => ClausesOk Γ clauses ∧ BlockOk ([] :: Γ) otherwise
  | .whileStmt skip cond body => skip = false ∧ ExprOk Γ cond ∧ BlockOk ([] :: Γ) body
  | .repeatStmt body cond =>
    BlockOk ([] :: Γ) body ∧ ExprOk (afterBlock writes ([] :: Γ) body) cond
  | .doStmt body => BlockOk ([] :: Γ) body
  | .fornumStmt skip var start stop step body =>
    skip = false ∧ ExprOk Γ start ∧ ExprOk Γ stop ∧ ExprOk Γ step ∧
      ParamsOk apart Γ [var] ∧ BlockOk (paramScope [var] :: Γ) body
  | .forinStmt names exprs body =>
    ExprsOk Γ exprs ∧ ParamsOk apart Γ names ∧ BlockOk (paramScope names :: Γ) body
  | .localFuncStmt name params body =>
    Fresh Γ name ∧ (apart = true → ¬ NamesTable Γ name.text) ∧
      ParamsOk apart (push Γ ⟨name, none⟩) params ∧
      BlockOk (paramScope params :: push Γ ⟨name, none⟩) body
  | .funcStmt _ params body => ParamsOk apart Γ params ∧ BlockOk (paramScope params :: Γ) body

def ClausesOk (Γ : Ctx) : Clauses → Prop
  | .nil => True
  | .cons decided cond body rest =>
    decided = none ∧ ExprOk Γ cond ∧ BlockOk ([] :: Γ) body ∧ ClausesOk Γ rest

def BlockOk (Γ : Ctx) : Block → Prop
  | .nil => True
  | .cons stat rest => StmtOk Γ stat ∧ BlockOk (after writes Γ stat) rest

end

/-! Trees whose directives are right. -/

def FoldedOk (d : Directive) (value : Option Known) : Prop :=
  ∀ c, d.folded = some c → ∃ float, value = some (.scalar c float)

mutual

def GoodExpr (Γ : Ctx) : Expr → Prop
  | .literal d v => FoldedOk d (literalValue v)
  | .name d t => FoldedOk d (pathValue Γ [t.text])
  | .paren d e => FoldedOk d (constValue Γ e) ∧ GoodExpr Γ e
  | .unop d op e => FoldedOk d (constValue Γ (.unop d op e)) ∧ GoodExpr Γ e
  | .binop d op l r => FoldedOk d (constValue Γ (.binop d op l r)) ∧
    (d.right = true → ∃ c float, constValue Γ l = some (.scalar c float) ∧
      takesRight op (.scalar c float) = some true) ∧
    GoodExpr Γ l ∧ GoodExpr Γ r
  | .call d f args => d.folded = none ∧ GoodExpr Γ f ∧ GoodExprs Γ args
  | .dotIndex d obj name => FoldedOk d (constValue Γ (.dotIndex d obj name)) ∧ GoodExpr Γ obj
  | .bracketIndex d obj key => d.folded = none ∧ GoodExpr Γ obj ∧ GoodExpr Γ key
  | .tableExpr d fields => d.folded = none ∧ GoodFields Γ fields
  | .funcExpr d params body => d.folded = none ∧ GoodBlock (paramScope params :: Γ) body

def GoodExprs (Γ : Ctx) : Exprs → Prop
  | .nil => True
  | .cons e es => GoodExpr Γ e ∧ GoodExprs Γ es

def GoodFields (Γ : Ctx) : Fields → Prop
  | .nil => True
  | .named _ _ e rest | .positional e rest => GoodExpr Γ e ∧ GoodFields Γ rest
  | .keyed k e rest => GoodExpr Γ k ∧ GoodExpr Γ e ∧ GoodFields Γ rest

def GoodTargets (Γ : Ctx) : Exprs → Prop
  | .nil => True
  | .cons (.name _ t) es =>
    (∀ b, visible Γ t.text = some b → Written writes b.token) ∧ GoodTargets Γ es
  | .cons e es => GoodExpr Γ e ∧ GoodTargets Γ es

def GoodStmt (Γ : Ctx) : Stmt → Prop
  | .localStmt isConst names exprs =>
    GoodExprs Γ exprs ∧ (isConst = true → ∀ t ∈ names, ¬ Written writes t)
  | .assignStmt targets exprs => GoodTargets Γ targets ∧ GoodExprs Γ exprs
  | .returnStmt exprs => GoodExprs Γ exprs
  | .callStmt e => GoodExpr Γ e
  | .ifStmt clauses otherwise => GoodClauses Γ clauses ∧ GoodBlock ([] :: Γ) otherwise
  | .whileStmt skip cond body =>
    (skip = true → ∃ k, constValue Γ cond = some k ∧ truthy k = false) ∧
      GoodExpr Γ cond ∧ GoodBlock ([] :: Γ) body
  | .repeatStmt body cond =>
    GoodBlock ([] :: Γ) body ∧ GoodExpr (afterBlock writes ([] :: Γ) body) cond
  | .doStmt body => GoodBlock ([] :: Γ) body
  | .fornumStmt skip var start stop step body =>
    (skip = true → loopNone (constValue Γ start) (constValue Γ stop) (constValue Γ step) = true) ∧
      GoodExpr Γ start ∧ GoodExpr Γ stop ∧ GoodExpr Γ step ∧ GoodBlock (paramScope [var] :: Γ) body
  | .forinStmt names exprs body => GoodExprs Γ exprs ∧ GoodBlock (paramScope names :: Γ) body
  | .localFuncStmt name params body =>
    GoodBlock (paramScope params :: push Γ ⟨name, none⟩) body
  | .funcStmt name params body =>
    (∀ b, visible Γ name.text = some b → Written writes b.token) ∧
      GoodBlock (paramScope params :: Γ) body

def GoodClauses (Γ : Ctx) : Clauses → Prop
  | .nil => True
  | .cons decided cond body rest =>
    (∀ b, decided = some b → ∃ c float, constValue Γ cond = some (.scalar c float) ∧
      truthy (.scalar c float) = b) ∧
      GoodExpr Γ cond ∧ GoodBlock ([] :: Γ) body ∧ GoodClauses Γ rest

def GoodBlock (Γ : Ctx) : Block → Prop
  | .nil => True
  | .cons stat rest => GoodStmt Γ stat ∧ GoodBlock (after writes Γ stat) rest

end

end

end Nupp.ConstantFold
