import Nupp.Lib.Binary64

/-! Constant folding (OPT-3) of `lua/optimize`, over the statements and expressions of
plain Lua. A dotted path is the list of its names, since a name holds no dot. -/

namespace Nupp.ConstantFold

open Binary64

abbrev Bytes := List UInt8

abbrev DefId := ℕ

/-- A name token: its text, the definition the checker resolved it to, and whether its
inferred type is a plain Lua scalar. -/
structure Name where
  text : String
  definition : Option DefId
  scalarType : Bool
  deriving DecidableEq

inductive Number
  | finite (value : ℚ)
  | infinite (negative : Bool)
  | nan
  deriving DecidableEq

inductive Scalar
  | nil
  | boolean (value : Bool)
  | number (value : Number)
  | string (value : Bytes)
  deriving DecidableEq

inductive Unop
  | not
  | minus
  | length
  deriving DecidableEq

inductive Arith
  | add
  | sub
  | mul
  | div
  | mod
  | floorDiv
  deriving DecidableEq

inductive Compare
  | lt
  | le
  | gt
  | ge
  deriving DecidableEq

inductive Binop
  | and
  | or
  | coalesce
  | arith (op : Arith)
  | concat
  | eq
  | ne
  | compare (op : Compare)
  deriving DecidableEq

/-! Folded values. -/

def maxExactInteger : ℕ := 9007199254740991

/-- An integer in the exact range of doubles. -/
structure Exact where
  value : ℤ
  exact : value.natAbs ≤ maxExactInteger
  deriving DecidableEq

/-- A literal that the folder writes. -/
inductive Const
  | nil
  | boolean (value : Bool)
  | number (value : Exact)
  | string (value : Bytes)
  deriving DecidableEq

def Const.scalar : Const → Scalar
  | .nil => .nil
  | .boolean b => .boolean b
  | .number n => .number (.finite n.value)
  | .string s => .string s

mutual

/-- What is known of an expression: a literal, with the mark of a number reached through
a double, or the const fields of a table. -/
inductive Known
  | scalar (value : Const) (float : Bool)
  | table (fields : KnownFields)

inductive KnownFields
  | nil
  | cons (name : String) (value : Known) (rest : KnownFields)

end

def KnownFields.get? (name : String) : KnownFields → Option Known
  | .nil => none
  | .cons n v rest => if n = name then some v else rest.get? name

/-- The value a later field of the same name leaves in place. -/
def KnownFields.insert (name : String) (value : Known) (rest : KnownFields) : KnownFields :=
  match rest.get? name with
  | some _ => rest
  | none => .cons name value rest

/-! Trees. -/

/-- What the folder left on an expression: `folded`, and `foldedExpression`, which is
always the right operand. -/
structure Directive where
  folded : Option Const
  right : Bool

def Directive.plain : Directive := ⟨none, false⟩

mutual

inductive Expr
  | literal (d : Directive) (value : Scalar)
  | name (d : Directive) (token : Name)
  | paren (d : Directive) (expr : Expr)
  | unop (d : Directive) (op : Unop) (operand : Expr)
  | binop (d : Directive) (op : Binop) (lhs rhs : Expr)
  | call (d : Directive) (obj : Expr) (args : Exprs)
  | dotIndex (d : Directive) (obj : Expr) (name : String)
  | bracketIndex (d : Directive) (obj key : Expr)
  | tableExpr (d : Directive) (fields : Fields)
  | funcExpr (d : Directive) (params : List Name) (body : Block)

inductive Exprs
  | nil
  | cons (e : Expr) (es : Exprs)

inductive Fields
  | nil
  | named (isConst : Bool) (name : String) (value : Expr) (rest : Fields)
  | positional (value : Expr) (rest : Fields)
  | keyed (key value : Expr) (rest : Fields)

/-- Statements. A `for` without a step has the literal 1 there, an `if` without an `else`
the empty block. -/
inductive Stmt
  | localStmt (isConst : Bool) (names : List Name) (exprs : Exprs)
  | assignStmt (targets exprs : Exprs)
  | returnStmt (exprs : Exprs)
  | callStmt (expr : Expr)
  | ifStmt (clauses : Clauses) (otherwise : Block)
  | whileStmt (loopNone : Bool) (cond : Expr) (body : Block)
  | repeatStmt (body : Block) (cond : Expr)
  | doStmt (body : Block)
  | fornumStmt (loopNone : Bool) (var : Name) (start stop step : Expr) (body : Block)
  | forinStmt (names : List Name) (exprs : Exprs) (body : Block)
  | localFuncStmt (name : Name) (params : List Name) (body : Block)
  | funcStmt (name : Name) (params : List Name) (body : Block)

/-- The clauses of an `if`. A clause whose condition is constant is `decided`: a false one
is left out of `constantClauses`, a true one is the `constantBranch` or `constantElse`. -/
inductive Clauses
  | nil
  | cons (decided : Option Bool) (cond : Expr) (body : Block) (rest : Clauses)

inductive Block
  | nil
  | cons (stat : Stmt) (rest : Block)

end

def Expr.directive : Expr → Directive
  | .literal d _ | .name d _ | .paren d _ | .unop d _ _ | .binop d _ _ _ | .call d _ _
  | .dotIndex d _ _ | .bracketIndex d _ _ | .tableExpr d _ | .funcExpr d _ _ => d

/-! Operators on literals. -/

def truthy : Known → Bool
  | .scalar .nil _ => false
  | .scalar (.boolean b) _ => b
  | _ => true

/-- The number the host makes of two finite ones, where it is finite. -/
def arithmetic (op : Arith) (a b : ℚ) : Option ℚ :=
  match op with
  | .add => some (fl (a + b))
  | .sub => some (fl (a - b))
  | .mul => some (fl (a * b))
  | .div => if b = 0 then none else some (fl (a / b))
  | .mod => if b = 0 then none else some (fl (a - fl (⌊fl (a / b)⌋ * b)))
  | .floorDiv => if b = 0 then none else some ⌊fl (a / b)⌋

theorem natAbs_roundEven_le {x : ℚ} {n : ℕ} (h : |x| ≤ n) : (roundEven x).natAbs ≤ n := by
  have hb := abs_le.mp h
  have hlo := le_roundEven (n := -n) (x := x) (by exact_mod_cast hb.1)
  have hhi := roundEven_le (n := n) (x := x) (by exact_mod_cast hb.2)
  omega

/-- `%.0f` of a number in the exact range. -/
def printed (x : ℚ) : Option Exact :=
  if h : |x| ≤ maxExactInteger then some ⟨roundEven x, natAbs_roundEven_le h⟩ else none

def exactInteger (n : ℤ) : Option Exact :=
  if h : n.natAbs ≤ maxExactInteger then some ⟨n, h⟩ else none

def foldUnop (op : Unop) (value : Known) : Option Known :=
  match op, value with
  | .not, v => some (.scalar (.boolean (!truthy v)) false)
  | .minus, .scalar (.number n) float =>
    if n.value = 0 then none else (exactInteger (-n.value)).map fun m => .scalar (.number m) float
  | .length, .scalar (.string s) _ =>
    (exactInteger s.length).map fun m => .scalar (.number m) false
  | _, _ => none

/-- A zero reached through a double has a sign that a literal would lose. -/
def losesSign (op : Arith) (a b : Exact) (fa fb : Bool) : Bool :=
  match op with
  | .div => a.value = 0
  | _ => (op = .floorDiv || fa || fb) && arithmetic op a.value b.value = some 0

def foldArith (op : Arith) (a b : Exact) (fa fb : Bool) : Option Known :=
  if op = .div || losesSign op a b fa fb then none
  else (arithmetic op a.value b.value).bind fun answer =>
    (printed answer).map fun n => .scalar (.number n) (op = .floorDiv || fa || fb)

def constEq : Const → Const → Option Bool
  | .number a, .number b => some (a = b)
  | .string a, .string b => some (a = b)
  | .boolean a, .boolean b => some (a = b)
  | .nil, b => some (b = .nil)
  | a, .nil => some (a = .nil)
  | _, _ => none

def Compare.holds {α : Type} [LT α] [DecidableLT α] (op : Compare) (a b : α) : Bool :=
  match op with
  | .lt => a < b
  | .le => !(b < a)
  | .gt => b < a
  | .ge => !(a < b)

/-- The fold of an operator whose operands are both known. -/
def foldBinop (op : Binop) (left right : Known) : Option Known :=
  match op, left, right with
  | .arith op, .scalar (.number a) fa, .scalar (.number b) fb => foldArith op a b fa fb
  | .concat, .scalar (.string a) _, .scalar (.string b) _ => some (.scalar (.string (a ++ b)) false)
  | .eq, .scalar a _, .scalar b _ => (constEq a b).map fun r => .scalar (.boolean r) false
  | .ne, .scalar a _, .scalar b _ => (constEq a b).map fun r => .scalar (.boolean (!r)) false
  | .compare op, .scalar (.number a) _, .scalar (.number b) _ =>
    some (.scalar (.boolean (op.holds a.value b.value)) false)
  | .compare op, .scalar (.string a) _, .scalar (.string b) _ =>
    some (.scalar (.boolean (op.holds a b)) false)
  | _, _, _ => none

/-- Whether a short-circuit operator goes on to its right operand. -/
def takesRight (op : Binop) (left : Known) : Option Bool :=
  match op with
  | .and => some (truthy left)
  | .or => some (!truthy left)
  | .coalesce => some (match left with | .scalar .nil _ => true | _ => false)
  | _ => none

/-! Scopes. -/

/-- The identity of a binding: its definition, or its text without one. -/
inductive Key
  | definition (d : DefId)
  | text (name : String)
  deriving DecidableEq

def bindingKey (token : Name) : Key :=
  match token.definition with
  | some d => .definition d
  | none => .text token.text

abbrev Path := List String

/-- One scope: the constants by binding and by dotted path, the last record of each
first. A record of `none` hides what enclosing scopes know. -/
structure Frame where
  constants : List (Key × Option Known)
  paths : List (Path × Option Known)

def Frame.empty : Frame := ⟨[], []⟩

abbrev Scope := List Frame

def lookupConstant : Scope → Key → Option Known
  | [], _ => none
  | frame :: parents, key =>
    match frame.constants.lookup key with
    | some found => found
    | none => lookupConstant parents key

def textPath : Expr → Option Path
  | .name _ token => some [token.text]
  | .dotIndex _ obj name => (textPath obj).map (· ++ [name])
  | _ => none

def lookupPath : Scope → Path → Option Known
  | [], _ => none
  | frame :: parents, path =>
    match frame.paths.lookup path with
    | some found => found
    | none =>
      match frame.paths.lookup (path.take 1) with
      | some none => none
      | _ => lookupPath parents path

def bindPath (frame : Frame) (path : Path) (value : Option Known) : Frame :=
  { frame with
    paths := (path, value) ::
      frame.paths.map fun known => if path <+: known.1 then (known.1, none) else known }

mutual

def bindObjectFields (frame : Frame) (path : Path) : Known → Frame
  | .scalar c float => bindPath frame path (some (.scalar c float))
  | .table fields => bindFields (bindPath frame path (some (.table fields))) path fields

def bindFields (frame : Frame) (path : Path) : KnownFields → Frame
  | .nil => frame
  | .cons name value rest => bindObjectFields (bindFields frame path rest) (path ++ [name]) value

end

def bindConstant (frame : Frame) (token : Name) (value : Option Known) : Frame :=
  { frame with constants := (bindingKey token, value) :: frame.constants }

/-! Writes. -/

mutual

def writtenTargets : Exprs → List Key
  | .nil => []
  | .cons (.name _ token) es => bindingKey token :: writtenTargets es
  | .cons e es => writtenExpr e ++ writtenTargets es

def writtenExpr : Expr → List Key
  | .literal _ _ | .name _ _ => []
  | .paren _ e | .unop _ _ e | .dotIndex _ e _ => writtenExpr e
  | .binop _ _ l r | .bracketIndex _ l r => writtenExpr l ++ writtenExpr r
  | .call _ f args => writtenExpr f ++ writtenExprs args
  | .tableExpr _ fields => writtenFields fields
  | .funcExpr _ _ body => writtenBlock body

def writtenExprs : Exprs → List Key
  | .nil => []
  | .cons e es => writtenExpr e ++ writtenExprs es

def writtenFields : Fields → List Key
  | .nil => []
  | .named _ _ e rest | .positional e rest => writtenExpr e ++ writtenFields rest
  | .keyed k e rest => writtenExpr k ++ writtenExpr e ++ writtenFields rest

def writtenStmt : Stmt → List Key
  | .localStmt _ _ exprs | .returnStmt exprs => writtenExprs exprs
  | .assignStmt targets exprs => writtenTargets targets ++ writtenExprs exprs
  | .callStmt e => writtenExpr e
  | .ifStmt clauses otherwise => writtenClauses clauses ++ writtenBlock otherwise
  | .whileStmt _ cond body => writtenExpr cond ++ writtenBlock body
  | .repeatStmt body cond => writtenBlock body ++ writtenExpr cond
  | .doStmt body => writtenBlock body
  | .fornumStmt _ _ start stop step body =>
    writtenExpr start ++ writtenExpr stop ++ writtenExpr step ++ writtenBlock body
  | .forinStmt _ exprs body => writtenExprs exprs ++ writtenBlock body
  | .localFuncStmt _ _ body => writtenBlock body
  | .funcStmt name _ body => bindingKey name :: .text name.text :: writtenBlock body

def writtenClauses : Clauses → List Key
  | .nil => []
  | .cons _ cond body rest => writtenExpr cond ++ writtenBlock body ++ writtenClauses rest

/-- The bindings written anywhere, also in nested functions. -/
def writtenBlock : Block → List Key
  | .nil => []
  | .cons stat rest => writtenStmt stat ++ writtenBlock rest

end

def Known.code : Known → Option Const
  | .scalar c _ => some c
  | .table _ => none

/-- A plain local that keeps the scalar it is initialized with. -/
def unchangedScalar (writes : List Key) (token : Name) (value : Option Known) : Bool :=
  (value.bind Known.code).isSome && token.definition.isSome && bindingKey token ∉ writes &&
    .text token.text ∉ writes && token.scalarType

/-! Taking folds back. -/

mutual

def unfold : Expr → Expr
  | .literal _ v => .literal .plain v
  | .name _ t => .name .plain t
  | .paren _ e => .paren .plain (unfold e)
  | .unop _ op e => .unop .plain op (unfold e)
  | .binop _ op l r => .binop .plain op (unfold l) (unfold r)
  | .call _ f args => .call .plain (unfold f) (unfoldExprs args)
  | .dotIndex _ e n => .dotIndex .plain (unfold e) n
  | .bracketIndex _ e k => .bracketIndex .plain (unfold e) (unfold k)
  | .tableExpr _ fields => .tableExpr .plain (unfoldFields fields)
  | .funcExpr _ params body => .funcExpr .plain params (unfoldBlock body)

def unfoldExprs : Exprs → Exprs
  | .nil => .nil
  | .cons e es => .cons (unfold e) (unfoldExprs es)

def unfoldFields : Fields → Fields
  | .nil => .nil
  | .named isConst name e rest => .named isConst name (unfold e) (unfoldFields rest)
  | .positional e rest => .positional (unfold e) (unfoldFields rest)
  | .keyed k e rest => .keyed (unfold k) (unfold e) (unfoldFields rest)

def unfoldStmt : Stmt → Stmt
  | .localStmt isConst names exprs => .localStmt isConst names (unfoldExprs exprs)
  | .assignStmt targets exprs => .assignStmt (unfoldExprs targets) (unfoldExprs exprs)
  | .returnStmt exprs => .returnStmt (unfoldExprs exprs)
  | .callStmt e => .callStmt (unfold e)
  | .ifStmt clauses otherwise => .ifStmt (unfoldClauses clauses) (unfoldBlock otherwise)
  | .whileStmt skip cond body => .whileStmt skip (unfold cond) (unfoldBlock body)
  | .repeatStmt body cond => .repeatStmt (unfoldBlock body) (unfold cond)
  | .doStmt body => .doStmt (unfoldBlock body)
  | .fornumStmt skip var start stop step body =>
    .fornumStmt skip var (unfold start) (unfold stop) (unfold step) (unfoldBlock body)
  | .forinStmt names exprs body => .forinStmt names (unfoldExprs exprs) (unfoldBlock body)
  | .localFuncStmt name params body => .localFuncStmt name params (unfoldBlock body)
  | .funcStmt name params body => .funcStmt name params (unfoldBlock body)

def unfoldClauses : Clauses → Clauses
  | .nil => .nil
  | .cons decided cond body rest =>
    .cons decided (unfold cond) (unfoldBlock body) (unfoldClauses rest)

def unfoldBlock : Block → Block
  | .nil => .nil
  | .cons stat rest => .cons (unfoldStmt stat) (unfoldBlock rest)

end

/-! The pass. -/

def literalValue : Scalar → Option Known
  | .nil => some (.scalar .nil false)
  | .boolean b => some (.scalar (.boolean b) false)
  | .string s => some (.scalar (.string s) false)
  | .number (.finite q) =>
    if q = ⌊q⌋ then (exactInteger ⌊q⌋).map fun n => .scalar (.number n) false else none
  | .number _ => none

def folded (value : Option Known) : Directive := ⟨value.bind Known.code, false⟩

/-- The fold of a binary operator: the directive, whether its operands are to be generated
as written, and the value. -/
def binopFold (op : Binop) (left right : Option Known) : Directive × Bool × Option Known :=
  match left.bind fun l => l.code.bind fun _ => takesRight op l with
  | some take =>
    let selected := if take then right else left
    match selected.bind Known.code with
    | some c => (⟨some c, take⟩, false, selected)
    | none => (⟨none, take⟩, false, none)
  | none =>
    match left, right with
    | some l, some r =>
      let signless := match op, l, r with
        | .arith op, .scalar (.number a) fa, .scalar (.number b) fb => losesSign op a b fa fb
        | _, _, _ => false
      (folded (foldBinop op l r), signless, foldBinop op l r)
    | _, _ => (.plain, false, none)

def isRequire : Expr → Bool
  | .name _ token => token.text = "require"
  | _ => false

/-- A scope with its parameters unknown. -/
def paramFrame (params : List Name) : Frame :=
  params.foldl (fun frame param => bindConstant frame param none) .empty

def bindName (writes : List Key) (isConst : Bool) (frame : Frame) (token : Name)
    (value : Option Known) : Frame :=
  let known := isConst || unchangedScalar writes token value
  let frame := bindConstant frame token (if known then value else none)
  match isConst, value with
  | true, some (.table fields) => bindObjectFields frame [token.text] (.table fields)
  | _, _ => bindPath frame [token.text] none

def bindNames (writes : List Key) (isConst : Bool) (frame : Frame) :
    List Name → List (Option Known) → Frame
  | [], _ => frame
  | token :: tokens, values =>
    bindNames writes isConst (bindName writes isConst frame token values.head?.join) tokens values.tail

def loopNone (start stop step : Option Known) : Bool :=
  match start, stop, step with
  | some (.scalar (.number a) _), some (.scalar (.number b) _), some (.scalar (.number c) _) =>
    c.value ≠ 0 && !(0 < c.value && a.value ≤ b.value || c.value < 0 && b.value ≤ a.value)
  | _, _, _ => false

mutual

def foldExpr (writes : List Key) (scope : Scope) : Expr → Expr × Option Known
  | .literal _ v => (.literal (folded (literalValue v)) v, literalValue v)
  | .name _ t =>
    let value := lookupConstant scope (bindingKey t)
    (.name (folded value) t, value.or (lookupPath scope [t.text]))
  | .paren _ e =>
    let (e, value) := foldExpr writes scope e
    (.paren (folded value) e, value)
  | .unop _ op e =>
    let (e, value) := foldExpr writes scope e
    let answer := value.bind (foldUnop op)
    (.unop (folded answer) op e, answer)
  | .binop _ op l r =>
    let (l, left) := foldExpr writes scope l
    let (r, right) := foldExpr writes scope r
    let (directive, signless, answer) := binopFold op left right
    if signless then (.binop directive op (unfold l) (unfold r), answer)
    else (.binop directive op l r, answer)
  | .call _ f args =>
    if isRequire f then (.call .plain (foldExpr writes scope f).1 args, none)
    else (.call .plain (foldExpr writes scope f).1 (foldExprs writes scope args).1, none)
  | .dotIndex d obj name =>
    let value := (textPath (.dotIndex d obj name)).bind (lookupPath scope)
    (.dotIndex (folded value) (foldExpr writes scope obj).1 name, value)
  | .bracketIndex _ obj key =>
    (.bracketIndex .plain (foldExpr writes scope obj).1 (foldExpr writes scope key).1, none)
  | .tableExpr _ fields =>
    let (fields, known) := foldFields writes scope fields
    match known with
    | .nil => (.tableExpr .plain fields, none)
    | known => (.tableExpr .plain fields, some (.table known))
  | .funcExpr _ params body =>
    (.funcExpr .plain params (foldBlock writes (paramFrame params) scope body).1, none)

def foldExprs (writes : List Key) (scope : Scope) : Exprs → Exprs × List (Option Known)
  | .nil => (.nil, [])
  | .cons e es =>
    let (e, value) := foldExpr writes scope e
    let (es, values) := foldExprs writes scope es
    (.cons e es, value :: values)

def foldFields (writes : List Key) (scope : Scope) : Fields → Fields × KnownFields
  | .nil => (.nil, .nil)
  | .named isConst name e rest =>
    let (e, value) := foldExpr writes scope e
    let (rest, known) := foldFields writes scope rest
    match isConst, value with
    | true, some v => (.named isConst name e rest, known.insert name v)
    | _, _ => (.named isConst name e rest, known)
  | .positional e rest =>
    let (rest, known) := foldFields writes scope rest
    (.positional (foldExpr writes scope e).1 rest, known)
  | .keyed k e rest =>
    let (rest, known) := foldFields writes scope rest
    (.keyed (foldExpr writes scope k).1 (foldExpr writes scope e).1 rest, known)

def foldTargets (writes : List Key) (frame : Frame) (parents : Scope) : Exprs → Exprs × Frame
  | .nil => (.nil, frame)
  | .cons (.name d token) es =>
    let (es, frame) := foldTargets writes
      (bindPath (bindConstant frame token none) [token.text] none) parents es
    (.cons (.name d token) es, frame)
  | .cons e es =>
    let frame' := match textPath e with
      | some path => bindPath frame path none
      | none => frame
    let (es, frame') := foldTargets writes frame' parents es
    (.cons (foldExpr writes (frame :: parents) e).1 es, frame')

def foldStatement (writes : List Key) (frame : Frame) (parents : Scope) : Stmt → Stmt × Frame
  | .localStmt isConst names exprs =>
    let (exprs, values) := foldExprs writes (frame :: parents) exprs
    (.localStmt isConst names exprs, bindNames writes isConst frame names values)
  | .assignStmt targets exprs =>
    let (targets, frame') := foldTargets writes frame parents targets
    (.assignStmt targets (foldExprs writes (frame :: parents) exprs).1, frame')
  | .returnStmt exprs => (.returnStmt (foldExprs writes (frame :: parents) exprs).1, frame)
  | .callStmt e => (.callStmt (foldExpr writes (frame :: parents) e).1, frame)
  | .ifStmt clauses otherwise =>
    (.ifStmt (foldClauses writes (frame :: parents) clauses)
      (foldBlock writes .empty (frame :: parents) otherwise).1, frame)
  | .whileStmt _ cond body =>
    let (cond, value) := foldExpr writes (frame :: parents) cond
    let skip := match value with
      | some v => !truthy v
      | none => false
    (.whileStmt skip cond (foldBlock writes .empty (frame :: parents) body).1, frame)
  | .repeatStmt body cond =>
    let (body, inner) := foldBlock writes .empty (frame :: parents) body
    (.repeatStmt body (foldExpr writes (inner :: frame :: parents) cond).1, frame)
  | .doStmt body => (.doStmt (foldBlock writes .empty (frame :: parents) body).1, frame)
  | .fornumStmt _ var start stop step body =>
    let (start, a) := foldExpr writes (frame :: parents) start
    let (stop, b) := foldExpr writes (frame :: parents) stop
    let (step, c) := foldExpr writes (frame :: parents) step
    (.fornumStmt (loopNone a b c) var start stop step
      (foldBlock writes (paramFrame [var]) (frame :: parents) body).1, frame)
  | .forinStmt names exprs body =>
    (.forinStmt names (foldExprs writes (frame :: parents) exprs).1
      (foldBlock writes (paramFrame names) (frame :: parents) body).1, frame)
  | .localFuncStmt name params body =>
    let frame := bindConstant frame name none
    (.localFuncStmt name params (foldBlock writes (paramFrame params) (frame :: parents) body).1, frame)
  | .funcStmt name params body =>
    (.funcStmt name params (foldBlock writes (paramFrame params) (frame :: parents) body).1, frame)

def foldClauses (writes : List Key) (scope : Scope) : Clauses → Clauses
  | .nil => .nil
  | .cons _ cond body rest =>
    let (cond, value) := foldExpr writes scope cond
    let decided := value.bind fun v => v.code.map fun _ => truthy v
    .cons decided cond (foldBlock writes .empty scope body).1 (foldClauses writes scope rest)

def foldBlock (writes : List Key) (frame : Frame) (parents : Scope) : Block → Block × Frame
  | .nil => (.nil, frame)
  | .cons stat rest =>
    let (stat, frame) := foldStatement writes frame parents stat
    let (rest, frame) := foldBlock writes frame parents rest
    (.cons stat rest, frame)

end

/-- Folds a chunk. -/
def constantFoldWalk (chunk : Block) : Block :=
  (foldBlock (writtenBlock chunk) .empty [] chunk).1

end Nupp.ConstantFold
