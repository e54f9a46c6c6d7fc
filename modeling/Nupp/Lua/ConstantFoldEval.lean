import Nupp.Lib.Runs
import Nupp.Lua.ConstantFold

/-! The meaning of a chunk. With `on` the directives of the folder are followed, without
it the tree is run as written. A store to a const field, which the checker rejects, ends
the run. Zero has no sign here. -/

namespace Nupp.ConstantFold

open Runs

/-! Values. -/

inductive Value
  | scalar (value : Scalar)
  | table (r : ℕ)
  | closure (r : ℕ)
  | builtin (r : ℕ)
  deriving DecidableEq

def Value.nil : Value := .scalar .nil

def fieldKey (name : String) : Value := .scalar (.string name.toUTF8.data.toList)

abbrev Env := List (String × ℕ)

/-- A variable, with the token that declared it. -/
structure Cell where
  token : Name
  value : Value

/-- A table, with the const fields among its keys. -/
structure Table where
  get : Value → Value
  fixed : Value → Bool
  size : ℕ

structure Closure where
  params : List Name
  body : Block
  env : Env

/-- A call of a function of the host. -/
structure Event where
  callee : ℕ
  args : List Value

structure State where
  cells : List Cell
  tables : List Table
  closures : List Closure
  globals : String → Value
  events : List Event

inductive Fault
  | operand
  | index
  | call
  | target
  | range
  | thrown (value : Scalar)

inductive Stop
  | error (fault : Fault)
  | constWrite
  | spent

/-- The host: what it answers to a call, given all calls so far, and how it converts
between numbers and strings. -/
structure World where
  respond : List Event → Except Scalar (List Scalar)
  format : Number → Bytes
  toNumber : Bytes → Option Number

abbrev Run := Prog State Stop

/-! Operators. -/

def Value.truth : Value → Bool
  | .scalar .nil => false
  | .scalar (.boolean b) => b
  | _ => true

/-- A quotient by zero. -/
def overZero (op : Arith) (a : ℚ) : Number :=
  if op = .mod ∨ a = 0 then .nan else .infinite (a < 0)

def Number.arith (op : Arith) : Number → Number → Number
  | .finite a, .finite b =>
    match arithmetic op a b with
    | some q => .finite q
    | none => overZero op a
  | .infinite s, .finite b =>
    match op with
    | .add | .sub => .infinite s
    | .mul => if b = 0 then .nan else .infinite (s != decide (b < 0))
    | .div | .floorDiv => .infinite (s != decide (b < 0))
    | .mod => .nan
  | .finite a, .infinite t =>
    match op with
    | .add => .infinite t
    | .sub => .infinite (!t)
    | .mul => if a = 0 then .nan else .infinite (t != decide (a < 0))
    | .div | .floorDiv => .finite 0
    | .mod => .nan
  | .infinite s, .infinite t =>
    match op with
    | .add => if s = t then .infinite s else .nan
    | .sub => if s = t then .nan else .infinite s
    | .mul => .infinite (s != t)
    | .div | .floorDiv | .mod => .nan
  | _, _ => .nan

def Number.lt : Number → Number → Bool
  | .finite a, .finite b => a < b
  | .infinite s, .finite _ => s
  | .finite _, .infinite t => !t
  | .infinite s, .infinite t => s && !t
  | _, _ => false

def Number.le (a b : Number) : Bool := a.lt b || a = b && a ≠ .nan

def Number.compare (op : Compare) (a b : Number) : Bool :=
  match op with
  | .lt => a.lt b
  | .le => a.le b
  | .gt => b.lt a
  | .ge => b.le a

def Value.equal : Value → Value → Bool
  | .scalar (.number .nan), _ => false
  | a, b => a = b

section

variable (world : World)

def Value.number? : Value → Option Number
  | .scalar (.number n) => some n
  | .scalar (.string s) => world.toNumber s
  | _ => none

def Value.string? : Value → Option Bytes
  | .scalar (.string s) => some s
  | .scalar (.number n) => some (world.format n)
  | _ => none

def fail (fault : Fault) : Run α := Prog.stop (.error fault)

def operand (value : Option α) : Run α :=
  match value with
  | some a => pure a
  | none => fail .operand

/-- The length of a table: the first index whose successor is empty. -/
def Table.border (t : Table) : ℕ :=
  (List.range (t.size + 1)).findIdx fun n => t.get (.scalar (.number (.finite (n + 1 : ℕ)))) = .nil

def unary (op : Unop) (v : Value) : Run Value :=
  match op, v with
  | .not, v => pure (.scalar (.boolean (!v.truth)))
  | .minus, v => do
    let n ← operand (v.number? world)
    pure (.scalar (.number (Number.arith .sub (.finite 0) n)))
  | .length, .scalar (.string s) => pure (.scalar (.number (.finite s.length)))
  | .length, .table r => do
    let state ← Prog.get
    match state.tables[r]? with
    | some t => pure (.scalar (.number (.finite t.border)))
    | none => fail .operand
  | .length, _ => fail .operand

def binary (op : Binop) (a b : Value) : Run Value :=
  match op with
  | .arith op => do
    let x ← operand (a.number? world)
    let y ← operand (b.number? world)
    pure (.scalar (.number (x.arith op y)))
  | .concat => do
    let x ← operand (a.string? world)
    let y ← operand (b.string? world)
    pure (.scalar (.string (x ++ y)))
  | .eq => pure (.scalar (.boolean (a.equal b)))
  | .ne => pure (.scalar (.boolean (!a.equal b)))
  | .compare op =>
    match a, b with
    | .scalar (.number x), .scalar (.number y) => pure (.scalar (.boolean (x.compare op y)))
    | .scalar (.string x), .scalar (.string y) => pure (.scalar (.boolean (op.holds x y)))
    | _, _ => fail .operand
  | .and | .or | .coalesce => pure b

/-- Whether a short-circuit operator goes on to its right operand. -/
def goesRight (op : Binop) (a : Value) : Option Bool :=
  match op with
  | .and => some a.truth
  | .or => some (!a.truth)
  | .coalesce => some (a = .nil)
  | _ => none

/-! Store. -/

def first (values : List Value) : Value := values.headD .nil

def alloc (token : Name) (value : Value) : Run ℕ := fun s =>
  .ok s.cells.length { s with cells := s.cells ++ [⟨token, value⟩] }

def readName (env : Env) (token : Name) : Run Value := fun s =>
  match env.lookup token.text with
  | some l => .ok ((s.cells[l]?.map Cell.value).getD .nil) s
  | none => .ok (s.globals token.text) s

def writeName (env : Env) (token : Name) (value : Value) : Run Unit := fun s =>
  match env.lookup token.text with
  | some l => .ok () { s with cells := s.cells.modify l fun c => { c with value := value } }
  | none => .ok () { s with globals := Function.update s.globals token.text value }

def newTable : Run ℕ := fun s =>
  .ok s.tables.length { s with tables := s.tables ++ [⟨fun _ => .nil, fun _ => false, 0⟩] }

def index (obj key : Value) : Run Value := fun s =>
  match obj with
  | .table r => .ok ((s.tables[r]?.map fun t => t.get key).getD .nil) s
  | _ => .stop (.error .index) s

def Table.put (t : Table) (key value : Value) (isConst : Bool) : Table :=
  ⟨Function.update t.get key value,
    if isConst then Function.update t.fixed key true else t.fixed, t.size + 1⟩

/-- A store to a key of a table, which marks a const field. -/
def store (obj key value : Value) (isConst : Bool) : Run Unit := fun s =>
  match obj with
  | .table r =>
    match s.tables[r]? with
    | some t =>
      if t.fixed key then .stop .constWrite s
      else .ok () { s with tables := s.tables.set r (t.put key value isConst) }
    | none => .stop (.error .index) s
  | _ => .stop (.error .index) s

def storeList (obj : Value) : ℕ → List Value → Run Unit
  | _, [] => pure ()
  | n, v :: vs => do
    store obj (.scalar (.number (.finite n))) v false
    storeList obj (n + 1) vs

def newClosure (params : List Name) (body : Block) (env : Env) : Run Value := fun s =>
  .ok (.closure s.closures.length) { s with closures := s.closures ++ [⟨params, body, env⟩] }

/-- Declares names for values, the missing ones nil. -/
def declare (env : Env) : List Name → List Value → Run Env
  | [], _ => pure env
  | token :: tokens, values => do
    let l ← alloc token (first values)
    declare ((token.text, l) :: env) tokens values.tail

/-- What an assignment writes to. -/
inductive Target
  | name (token : Name)
  | slot (obj key : Value)

def assign (env : Env) : List Target → List Value → Run Unit
  | [], _ => pure ()
  | .name token :: targets, values => do
    writeName env token (first values)
    assign env targets values.tail
  | .slot obj key :: targets, values => do
    store obj key (first values) false
    assign env targets values.tail

inductive Flow
  | normal
  | returned (values : List Value)

def Flow.values : Flow → List Value
  | .normal => []
  | .returned vs => vs

/-- How a loop goes on after its body. -/
def Flow.next (b : β) : Flow → β ⊕ Flow
  | .normal => .inl b
  | .returned vs => .inr (.returned vs)

end

/-! Trees. -/

section

variable (world : World) (on : Bool) (apply : Value → List Value → Run (List Value)) (turns : ℕ)

/-- Runs an expression, unless a directive gives its value. -/
def directed (d : Directive) (run : Run (List Value)) : Run (List Value) :=
  match on, d.folded with
  | true, some c => pure [.scalar c.scalar]
  | _, _ => run

mutual

def evalExpr (env : Env) : Expr → Run (List Value)
  | .literal d v => directed on d (pure [.scalar v])
  | .name d t => directed on d do
    let v ← readName env t
    pure [v]
  | .paren d e => directed on d do
    let vs ← evalExpr env e
    pure [first vs]
  | .unop d op e => directed on d do
    let vs ← evalExpr env e
    let v ← unary world op (first vs)
    pure [v]
  | .binop d op l r => directed on d <|
    if on && d.right then do
      let vs ← evalExpr env r
      pure [first vs]
    else do
      let ls ← evalExpr env l
      match goesRight op (first ls) with
      | some false => pure [first ls]
      | some true => do
        let rs ← evalExpr env r
        pure [first rs]
      | none => do
        let rs ← evalExpr env r
        let v ← binary world op (first ls) (first rs)
        pure [v]
  | .call d f args => directed on d do
    let fs ← evalExpr env f
    let vs ← evalExprs env args
    apply (first fs) vs
  | .dotIndex d obj name => directed on d do
    let os ← evalExpr env obj
    let v ← index (first os) (fieldKey name)
    pure [v]
  | .bracketIndex d obj key => directed on d do
    let os ← evalExpr env obj
    let ks ← evalExpr env key
    let v ← index (first os) (first ks)
    pure [v]
  | .tableExpr d fields => directed on d do
    let r ← newTable
    evalFields env r 1 fields
    pure [.table r]
  | .funcExpr d params body => directed on d do
    let v ← newClosure params body env
    pure [v]

def evalExprs (env : Env) : Exprs → Run (List Value)
  | .nil => pure []
  | .cons e .nil => evalExpr env e
  | .cons e es => do
    let vs ← evalExpr env e
    let rest ← evalExprs env es
    pure (first vs :: rest)

def evalFields (env : Env) (r n : ℕ) : Fields → Run Unit
  | .nil => pure ()
  | .named isConst name e rest => do
    let vs ← evalExpr env e
    store (.table r) (fieldKey name) (first vs) isConst
    evalFields env r n rest
  | .positional e .nil => do
    let vs ← evalExpr env e
    storeList (.table r) n vs
  | .positional e rest => do
    let vs ← evalExpr env e
    store (.table r) (.scalar (.number (.finite n))) (first vs) false
    evalFields env r (n + 1) rest
  | .keyed k e rest => do
    let ks ← evalExpr env k
    let vs ← evalExpr env e
    store (.table r) (first ks) (first vs) false
    evalFields env r n rest

def evalTargets (env : Env) : Exprs → Run (List Target)
  | .nil => pure []
  | .cons (.name _ t) es => do
    let rest ← evalTargets env es
    pure (.name t :: rest)
  | .cons (.dotIndex _ obj name) es => do
    let os ← evalExpr env obj
    let rest ← evalTargets env es
    pure (.slot (first os) (fieldKey name) :: rest)
  | .cons (.bracketIndex _ obj key) es => do
    let os ← evalExpr env obj
    let ks ← evalExpr env key
    let rest ← evalTargets env es
    pure (.slot (first os) (first ks) :: rest)
  | .cons _ _ => fail .target

def evalStmt (env : Env) : Stmt → Run (Flow × Env)
  | .localStmt _ names exprs => do
    let vs ← evalExprs env exprs
    let env ← declare env names vs
    pure (.normal, env)
  | .assignStmt targets exprs => do
    let ts ← evalTargets env targets
    let vs ← evalExprs env exprs
    assign env ts vs
    pure (.normal, env)
  | .returnStmt exprs => do
    let vs ← evalExprs env exprs
    pure (.returned vs, env)
  | .callStmt e => do
    let _ ← evalExpr env e
    pure (.normal, env)
  | .ifStmt clauses otherwise => do
    match ← evalClauses env clauses with
    | some flow => pure (flow, env)
    | none => do
      let r ← evalBlock env otherwise
      pure (r.1, env)
  | .whileStmt skip cond body =>
    if on && skip then pure (.normal, env)
    else do
      let flow ← Prog.iterate .spent (fun (_ : Unit) => do
        let vs ← evalExpr env cond
        if (first vs).truth then do
          let r ← evalBlock env body
          pure (r.1.next ())
        else pure (.inr .normal)) (turns + 1) ()
      pure (flow, env)
  | .repeatStmt body cond => do
    let flow ← Prog.iterate .spent (fun (_ : Unit) => do
      let r ← evalBlock env body
      match r.1 with
      | .returned vs => pure (.inr (.returned vs))
      | .normal => do
        let vs ← evalExpr r.2 cond
        pure (if (first vs).truth then .inr .normal else .inl ())) (turns + 1) ()
    pure (flow, env)
  | .doStmt body => do
    let r ← evalBlock env body
    pure (r.1, env)
  | .fornumStmt skip var start stop step body =>
    if on && skip then pure (.normal, env)
    else do
      let as ← evalExpr env start
      let bs ← evalExpr env stop
      let cs ← evalExpr env step
      match first as, first bs, first cs with
      | .scalar (.number a), .scalar (.number b), .scalar (.number c) => do
        let flow ← Prog.iterate .spent (fun i => do
          if (if (Number.finite 0).lt c then i.le b else b.le i) then do
            let inner ← declare env [var] [.scalar (.number i)]
            let r ← evalBlock inner body
            pure (r.1.next (i.arith .add c))
          else pure (.inr .normal)) (turns + 1) a
        pure (flow, env)
      | _, _, _ => fail .range
  | .forinStmt names exprs body => do
    let vs ← evalExprs env exprs
    let flow ← Prog.iterate .spent (fun control => do
      let rs ← apply (first vs) [first vs.tail, control]
      if first rs = .nil then pure (.inr .normal)
      else do
        let inner ← declare env names rs
        let r ← evalBlock inner body
        pure (r.1.next (first rs))) (turns + 1) (first vs.tail.tail)
    pure (flow, env)
  | .localFuncStmt name params body => fun s =>
    let env := (name.text, s.cells.length) :: env
    (do
      let f ← newClosure params body env
      let _ ← alloc name f
      pure (.normal, env) : Run (Flow × Env)) s
  | .funcStmt name params body => do
    let f ← newClosure params body env
    writeName env name f
    pure (.normal, env)

def evalClauses (env : Env) : Clauses → Run (Option Flow)
  | .nil => pure none
  | .cons decided cond body rest =>
    match on, decided with
    | true, some true => do
      let r ← evalBlock env body
      pure (some r.1)
    | true, some false => evalClauses env rest
    | _, _ => do
      let vs ← evalExpr env cond
      if (first vs).truth then do
        let r ← evalBlock env body
        pure (some r.1)
      else evalClauses env rest

def evalBlock (env : Env) : Block → Run (Flow × Env)
  | .nil => pure (.normal, env)
  | .cons stat rest => do
    let r ← evalStmt env stat
    match r.1 with
    | .returned vs => pure (.returned vs, r.2)
    | .normal => evalBlock r.2 rest

end

end

/-- A call, with `fuel` for the calls it makes and the turns of its loops. -/
def applyValue (world : World) (on : Bool) : ℕ → Value → List Value → Run (List Value)
  | 0, _, _ => Prog.stop .spent
  | fuel + 1, f, args => do
    let s ← Prog.get
    match f with
    | .closure r =>
      match s.closures[r]? with
      | some c => do
        let env ← declare c.env c.params args
        let r ← evalBlock world on (applyValue world on fuel) fuel env c.body
        pure r.1.values
      | none => fail .call
    | .builtin r => do
      let events := s.events ++ [⟨r, args⟩]
      Prog.set { s with events := events }
      match world.respond events with
      | .ok vs => pure (vs.map .scalar)
      | .error e => fail (.thrown e)
    | _ => fail .call

/-- A chunk, from a state that holds globals only. -/
def runChunk (world : World) (on : Bool) (fuel : ℕ) (globals : String → Value) (chunk : Block) :
    Outcome State Stop (List Value) :=
  (do
    let r ← evalBlock world on (applyValue world on fuel) fuel [] chunk
    pure r.1.values : Run (List Value)) ⟨[], [], [], globals, []⟩

end Nupp.ConstantFold
