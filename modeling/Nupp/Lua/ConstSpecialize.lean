import Mathlib.Data.Char
import Mathlib.Data.List.Sort
import Mathlib.Data.List.Lex

/-! Collection and selection of const-generic specializations, from
`lua/constspecialize`. A module is the list of the nodes a walk over its tree visits;
`DefId` is the identity of a definition the checker left on a token. -/

namespace Nupp.ConstSpecialize

abbrev Text := List Char

abbrev DefId := ℕ

def text (s : String) : Text := s.toList

/-- The separator of every composed key. -/
def nul : Char := Char.ofNat 0

/-- `table.concat` with the separator. -/
def joined : List Text → Text
  | [] => []
  | [t] => t
  | t :: ts => t ++ nul :: joined ts

/-! What the checker left on the tree. -/

structure Definition where
  filename : Option Text
  name : Text
  kind : Text
  exactCallExport : Option Text

inductive Domain
  | integer
  | boolean
  | string
  deriving DecidableEq

def Domain.text : Domain → Text
  | .integer => ConstSpecialize.text "integer"
  | .boolean => ConstSpecialize.text "boolean"
  | .string => ConstSpecialize.text "string"

inductive Literal
  | integer (value : ℤ)
  | boolean (value : Bool)
  | string (value : Text)
  deriving DecidableEq

/-- A checked type: how it prints, and the scalar it is a literal of. -/
structure CheckedType where
  text : Text
  literal : Option Literal

structure Signature where
  text : Text
  params : List CheckedType
  paramModes : List Text
  rets : List CheckedType

/-- A name of a generic clause. Only the three scalar domains are told apart. -/
structure GenericName where
  name : Text
  isConst : Bool
  domain : Option Domain

/-- A parameter: the plain name it is annotated with, and its own name. -/
structure Param where
  annotated : Option Text
  name : Option (Text × DefId)

structure LocalFunction where
  name : Text
  definition : Option DefId
  generics : List GenericName
  params : List Param
  bodyNames : List DefId
  aotRequired : Bool

structure Call where
  node : ℕ
  file : Text
  callee : Option DefId
  exactCallExport : Option Text
  signature : Option Signature

structure Module where
  filename : Text
  moduleName : Option Text
  functions : List LocalFunction
  constLocals : List (DefId × DefId)
  valueDefs : List (Text × DefId)
  returned : List (Text × DefId)
  calls : List Call

/-! Literals. -/

def natText (n : ℕ) : Text := Nat.toDigits 10 n

/-- `%.0f` of an integer. -/
def intText : ℤ → Text
  | .ofNat n => natText n
  | .negSucc n => '-' :: natText (n + 1)

def boolText (b : Bool) : Text := if b then text "true" else text "false"

def Literal.key : Literal → Text
  | .integer n => text "integer:" ++ intText n
  | .boolean b => text "boolean:" ++ boolText b
  | .string v => text "string:" ++ (natText v.length ++ ':' :: v)

/-- `%q`. -/
def quoted (v : Text) : Text :=
  '"' :: v.flatMap (fun c =>
    if c = '"' then ['\\', '"']
    else if c = '\\' then ['\\', '\\']
    else if c = '\n' then ['\\', '\n']
    else if c = '\r' then ['\\', 'r']
    else if c = nul then ['\\', '0']
    else [c]) ++ ['"']

def Literal.emitted : Literal → Text
  | .integer n => intText n
  | .boolean b => boolText b
  | .string v => quoted v

/-! Candidates. -/

structure Carrier where
  position : ℕ
  name : Text
  definition : DefId

structure Binder where
  name : Text
  domain : Domain
  carriers : List Carrier
  used : Bool

structure Specialization where
  key : Text
  canonical : Text
  name : Text
  signature : Signature
  tuple : List Text
  substitutions : List (DefId × Text)
  omitted : List ℕ
  values : List (ℕ × Literal)
  bodyClass : Text
  calls : List Call
  owner : DefId
  requiredAot : Bool

structure Plan where
  declaration : LocalFunction
  definition : DefId
  identity : Text
  filename : Text
  name : Text
  requiredAot : Bool
  binders : List Binder
  specializations : List Specialization

/-- The domain of each binder, when every binder is a const of a scalar domain. -/
def constDomains (generics : List GenericName) : Option (List (Text × Domain)) :=
  generics.mapM fun g => if g.isConst then g.domain.map (g.name, ·) else none

/-- The parameters that carry a binder's value: those annotated with its name. -/
def carriersOf (params : List Param) (binder : Text) : List Carrier :=
  params.zipIdx.filterMap fun (param, position) =>
    if param.annotated = some binder then param.name.map fun (name, d) => ⟨position, name, d⟩
    else none

def binderOf (f : LocalFunction) (name : Text) (domain : Domain) : Binder :=
  let carriers := carriersOf f.params name
  ⟨name, domain, carriers, carriers.any fun c => c.definition ∈ f.bodyNames⟩

/-- A local function whose binders are all scalar consts, each with a carrier. A name
bound twice leaves its first binder without one. -/
def candidate (filename : Text) (f : LocalFunction) : Option Plan :=
  match f.definition, constDomains f.generics with
  | some definition, some domains =>
    let binders := domains.map fun (name, domain) => binderOf f name domain
    if domains.isEmpty || !(domains.map Prod.fst).Nodup || binders.any (fun b => b.carriers.isEmpty)
    then none
    else some
      { declaration := f
        definition := definition
        identity := joined [filename, f.name]
        filename := filename
        name := f.name
        requiredAot := f.aotRequired
        binders := binders
        specializations := [] }
  | _, _ => none

/-- The keys a candidate is found under. -/
inductive Key
  | definition (d : DefId)
  | stable (filename name kind : Text)
  | loose (filename name : Text)
  | exported (identity : Text)
  deriving DecidableEq

abbrev Candidates := Key → Option DefId

def definitionKey (info : DefId → Definition) (d : DefId) : Option Key :=
  (info d).filename.map fun f => .stable f (info d).name (info d).kind

def looseDefinitionKey (info : DefId → Definition) (d : DefId) : Option Key :=
  (info d).filename.map fun f => .loose f (info d).name

def register (key : Option Key) (owner : DefId) (c : Candidates) : Candidates :=
  match key with
  | some key => Function.update c key (some owner)
  | none => c

section Collect

variable (info : DefId → Definition) (digest : Text → Text)

def addFunction (filename : Text) (st : Candidates × List Plan) (f : LocalFunction) :
    Candidates × List Plan :=
  match candidate filename f with
  | none => st
  | some plan =>
    let d := plan.definition
    (register (looseDefinitionKey info d) d (register (definitionKey info d) d
      (register (some (.definition d)) d st.1)), st.2 ++ [plan])

/-- A const local keeps the identity of the function it is initialized with. -/
def addAlias (c : Candidates) (constLocal : DefId × DefId) : Candidates :=
  match c (.definition constLocal.2) with
  | some owner => register (some (.definition constLocal.1)) owner c
  | none => c

def exportIdentity (moduleName member : Text) : Text := moduleName ++ '.' :: member

def addExport (moduleName : Text) (c : Candidates) (field : Text × DefId) : Candidates :=
  match c (.definition field.2) with
  | some owner => register (some (.exported (exportIdentity moduleName field.1))) owner c
  | none => c

def collectCandidates (st : Candidates × List Plan) (m : Module) : Candidates × List Plan :=
  let (c, plans) := m.functions.foldl (addFunction info m.filename) st
  let c := m.constLocals.foldl addAlias c
  match m.moduleName with
  | none => (c, plans)
  | some name => ((m.valueDefs ++ m.returned).foldl (addExport name) c, plans)

/-! Calls. -/

/-- The export a call names exactly. -/
def Call.exactExport (call : Call) : Option Text :=
  call.exactCallExport.or (call.callee.bind fun d => (info d).exactCallExport)

/-- The candidate a call is attributed to. -/
def ownerOf (c : Candidates) (call : Call) : Option DefId :=
  (call.callee.bind fun d => c (.definition d)).or
    ((call.callee.bind fun d => (definitionKey info d).bind c).or
      ((call.callee.bind fun d => (looseDefinitionKey info d).bind c).or
        ((call.exactExport info).bind fun e => c (.exported e))))

def literalAt (signature : Signature) (position : ℕ) : Option Literal :=
  signature.params[position]?.bind CheckedType.literal

/-- The one literal all carriers of a binder are instantiated with. -/
def carriedLiteral (signature : Signature) : List Carrier → Option Literal
  | [] => none
  | [c] => literalAt signature c.position
  | c :: cs =>
    match literalAt signature c.position, carriedLiteral signature cs with
    | some l, some l' => if l.key = l'.key then some l else none
    | _, _ => none

def entry (b : Binder) (l : Literal) : Text := b.domain.text ++ ':' :: b.name ++ '=' :: l.key

/-- The literal of every binder, or nothing when a carrier has none. -/
def boundLiterals (signature : Signature) (binders : List Binder) : Option (List (Binder × Literal)) :=
  binders.mapM fun b => (carriedLiteral signature b.carriers).map (b, ·)

def omittedOf (binders : List Binder) : List ℕ :=
  binders.flatMap fun b => b.carriers.map Carrier.position

/-- The parameters and results left in the calling convention. -/
def abiOf (signature : Signature) (omitted : List ℕ) : List Text :=
  (signature.params.zipIdx.filterMap fun (p, position) =>
    if position ∈ omitted then none
    else some (signature.paramModes.getD position (text "plain") ++ ':' :: p.text)) ++
    text "returns" :: signature.rets.map CheckedType.text

def tupleOf (bound : List (Binder × Literal)) : List Text := bound.map fun (b, l) => entry b l

def bodyTupleOf (bound : List (Binder × Literal)) : List Text :=
  (bound.filter fun (b, _) => b.used).map fun (b, l) => entry b l

def canonicalOf (plan : Plan) (signature : Signature) (bound : List (Binder × Literal)) : Text :=
  joined [plan.identity, signature.text, joined (tupleOf bound)]

def classTextOf (plan : Plan) (signature : Signature) (bound : List (Binder × Literal)) : Text :=
  joined [plan.identity, joined (abiOf signature (omittedOf plan.binders)), joined (bodyTupleOf bound)]

def sanitized (name : Text) : Text := name.map fun c => if c.isAlphanum then c else '_'

def privateName (name key : Text) : Text :=
  text "__nuppConst_" ++ sanitized name ++ '_' :: key.take 16

def specialize (plan : Plan) (signature : Signature) (bound : List (Binder × Literal)) :
    Specialization :=
  { key := digest (canonicalOf plan signature bound)
    canonical := canonicalOf plan signature bound
    name := privateName plan.name (digest (canonicalOf plan signature bound))
    signature := signature
    tuple := tupleOf bound
    substitutions := bound.flatMap fun (b, l) => b.carriers.map fun c => (c.definition, l.emitted)
    omitted := omittedOf plan.binders
    values := bound.flatMap fun (b, l) => b.carriers.map fun c => (c.position, l)
    bodyClass := digest (classTextOf plan signature bound)
    calls := []
    owner := plan.definition
    requiredAot := plan.requiredAot }

/-- Records a call under the specialization with its key, a new one if need be. -/
def recordCall (call : Call) (spec : Specialization) :
    List Specialization → List Specialization
  | [] => [{ spec with calls := [call] }]
  | s :: ss =>
    if s.key = spec.key then { s with calls := s.calls ++ [call] } :: ss
    else s :: recordCall call spec ss

def addCall (c : Candidates) (plans : List Plan) (call : Call) : List Plan :=
  match ownerOf info c call, call.signature with
  | some owner, some signature =>
    plans.map fun plan =>
      if plan.definition = owner then
        match boundLiterals signature plan.binders with
        | none => plan
        | some bound =>
          { plan with specializations :=
              recordCall call (specialize digest plan signature bound) plan.specializations }
      else plan
  | _, _ => plans

def byKey (a b : Specialization) : Bool := a.key ≤ b.key

def byPriority (a b : Specialization) : Bool :=
  if a.requiredAot ≠ b.requiredAot then a.requiredAot else a.key ≤ b.key

def sortPlans (plans : List Plan) : List Plan :=
  (plans.map fun p => { p with specializations := p.specializations.mergeSort byKey }).mergeSort
    fun a b => a.identity < b.identity || a.identity = b.identity && a.name ≤ b.name

/-- Collects a whole checked deliverable. -/
def collectGraph (modules : List Module) : List Plan :=
  let (c, plans) := modules.foldl (collectCandidates info) (fun _ => none, [])
  sortPlans ((modules.flatMap Module.calls).foldl (addCall info digest c) plans)

/-- Collects one file, whose exports nobody names. -/
def collect (m : Module) : List Plan := collectGraph info digest [{ m with moduleName := none }]

end Collect

/-! Selection. -/

/-- The accepted specializations with the body each one enters, and the declined. -/
structure Selection where
  accepted : List (Specialization × Specialization)
  declined : List Specialization

def selectStep (maximum : ℕ) (st : List Specialization × Selection) (s : Specialization) :
    List Specialization × Selection :=
  match st.1.find? fun r => r.bodyClass = s.bodyClass with
  | some r => (st.1, { st.2 with accepted := st.2.accepted ++ [(s, r)] })
  | none =>
    if st.1.length < maximum then
      (st.1 ++ [s], { st.2 with accepted := st.2.accepted ++ [(s, s)] })
    else (st.1, { st.2 with declined := st.2.declined ++ [s] })

def selectBodies (maximum : ℕ) (bodies : List Specialization) : Selection :=
  ((bodies.mergeSort byPriority).foldl (selectStep maximum) ([], ⟨[], []⟩)).2

def maxBodiesPerModule : ℕ := 8

def select (plans : List Plan) (maximum : ℕ) : Selection :=
  selectBodies maximum (plans.flatMap Plan.specializations)

/-- The files of the plans, each once. -/
def filesOf (plans : List Plan) : List Text := (plans.map Plan.filename).dedup

def selectGraph (plans : List Plan) (maximum : ℕ) : Selection :=
  let parts := (filesOf plans).map fun file =>
    selectBodies maximum ((plans.filter fun p => p.filename = file).flatMap Plan.specializations)
  ⟨(parts.flatMap Selection.accepted).mergeSort fun a b => byKey a.1 b.1,
    (parts.flatMap Selection.declined).mergeSort byKey⟩

end Nupp.ConstSpecialize
