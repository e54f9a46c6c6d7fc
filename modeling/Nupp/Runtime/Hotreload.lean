import Mathlib.Data.Finset.Basic
import Mathlib.Data.Int.Notation
import Mathlib.Data.List.Sort
import Mathlib.Data.String.Basic
import Mathlib.Logic.Function.Basic

/-! The hot reload registry (`runtime/hotreload`): modules register slots of functions, a
patch chunk is staged and its transaction is committed. A function is known by its identity,
the names of its upvalues never change, and the cells they are joined to do. A slot array is
known by the record of its module. -/

namespace Nupp.hotreload

/-- Where the captured names of a function sit in its upvalue list, and the names sorted. -/
structure Captures where
  byName : List (String × ℕ)
  order : List String
  deriving DecidableEq

structure Definition where
  id : String
  signature : String
  selfName : Option String
  captures : Captures

structure Module (F : Type*) where
  name : String
  slots : ℤ → Option F
  definitions : ℤ → Option Definition
  policies : Finset String
  loaded : Bool

structure Candidate (F : Type*) where
  module : ℕ
  index : ℤ
  implementation : F
  captures : Captures

structure Staging (F : Type*) where
  baseGeneration : ℤ
  candidates : List (Candidate F)
  byKey : List (String × ℤ)
  policies : ℕ → Option (Finset String)

/-- What held when a transaction was staged: how often the registry had been retired, the
policies of every module, and the live cells of every policy. The code keeps none of it. -/
structure Origin where
  epoch : ℕ
  policies : ℕ → Finset String
  live : String → ℕ

structure Transaction (F : Type*) where
  baseGeneration : ℤ
  generation : ℤ
  serial : ℕ
  candidates : List (Candidate F)
  policies : ℕ → Option (Finset String)
  committed : Bool
  origin : Origin

/-- The registry, the records of all modules there ever were, and the transactions that were
handed out. `epoch` counts the retirements and `accepted` lists the accepted commits. -/
structure State (F : Type*) where
  generation : ℤ
  modules : String → Option ℕ
  bySlots : ℕ → Bool
  records : ℕ → Module F
  fresh : ℕ
  staging : Option (Staging F)
  preparedSerial : ℕ
  transactions : List (Transaction F)
  cells : F → ℕ → ℕ
  freshCell : ℕ
  epoch : ℕ
  accepted : List ℕ

variable {F : Type*}

def newModule (name : String) : Module F :=
  { name := name, slots := fun _ => none, definitions := fun _ => none, policies := ∅,
    loaded := false }

def State.new (cells : F → ℕ → ℕ) (freshCell : ℕ) : State F :=
  { generation := 1, modules := fun _ => none, bySlots := fun _ => false,
    records := fun _ => newModule "", fresh := 0, staging := none, preparedSerial := 0,
    transactions := [], cells := cells, freshCell := freshCell, epoch := 0, accepted := [] }

def State.setRecord (state : State F) (id : ℕ) (module : Module F) : State F :=
  { state with records := Function.update state.records id module }

abbrev Outcome (F α : Type*) := Except String α × State F

section Upvalues

def upvaluesFrom (selfName : Option String) :
    ℕ → List String → List (String × ℕ) → Except String (List (String × ℕ))
  | _, [], byName => .ok byName
  | index, name :: rest, byName =>
    if some name = selfName then
      upvaluesFrom selfName (index + 1) rest byName
    else if (byName.lookup name).isSome then
      .error ("nupp hot reload: duplicate upvalue " ++ name)
    else
      upvaluesFrom selfName (index + 1) rest (byName ++ [(name, index)])

def upvalues (names : List String) (selfName : Option String) : Except String Captures :=
  match upvaluesFrom selfName 1 names [] with
  | .error reason => .error reason
  | .ok byName => .ok ⟨byName, (byName.map Prod.fst).insertionSort (· ≤ ·)⟩

variable [DecidableEq F]

/-- `upvaluejoin` of an upvalue with the cell of another. -/
def join (cells : F → ℕ → ℕ) (fn : F) (index cell : ℕ) : F → ℕ → ℕ :=
  Function.update cells fn (Function.update (cells fn) index cell)

/-- Gives an implementation that names itself a cell of its own. -/
def detachSelf (names : F → List String) (fn : F) (selfName : Option String) (state : State F) :
    State F :=
  match selfName with
  | none => state
  | some self =>
    match (names fn).findIdx? (· = self) with
    | none => state
    | some found =>
      { state with
        cells := join state.cells fn (found + 1) state.freshCell
        freshCell := state.freshCell + 1 }

/-- Joins each captured name with the cell that the live function has for it, in order. -/
def joinCaptures (fn : F) (captures : Captures) (live : Option F) (liveCaptures : Captures) :
    List String → (F → ℕ → ℕ) → Option (F → ℕ → ℕ)
  | [], cells => some cells
  | name :: rest, cells =>
    match live, captures.byName.lookup name, liveCaptures.byName.lookup name with
    | some liveFn, some index, some liveIndex =>
      joinCaptures fn captures live liveCaptures rest
        (join cells fn index (cells liveFn liveIndex))
    | _, _, _ => none

end Upvalues

section Register

def unknownSlots : String := "nupp hot reload: an implementation used an unknown slot array"

def unloaded (name : String) : String := "nupp hot reload: patch names unloaded module " ++ name

def module (name : String) (state : State F) : Outcome F ℕ :=
  match state.modules name with
  | some id =>
    if state.staging.isSome ∧ ¬(state.records id).loaded then (.error (unloaded name), state)
    else (.ok id, state)
  | none =>
    if state.staging.isSome then
      (.error (unloaded name), state)
    else
      (.ok state.fresh,
        { state with
          records := Function.update state.records state.fresh (newModule name)
          fresh := state.fresh + 1
          modules := Function.update state.modules name (some state.fresh)
          bySlots := Function.update state.bySlots state.fresh true })

def policy (slots : ℕ) (key : String) (state : State F) : Outcome F Unit :=
  if state.bySlots slots then
    match state.staging with
    | none =>
      let module := state.records slots
      (.ok (), state.setRecord slots { module with policies := insert key module.policies })
    | some staging =>
      let policies := (staging.policies slots).getD ∅
      (.ok (), { state with staging := some { staging with
        policies := Function.update staging.policies slots (some (insert key policies)) } })
  else
    (.error unknownSlots, state)

def sealModule (name : String) (state : State F) : Outcome F Unit :=
  match state.modules name with
  | some id =>
    if (state.records id).loaded then
      (.error ("nupp hot reload: cannot seal unknown or loaded module " ++ name), state)
    else
      (.ok (), state.setRecord id { state.records id with loaded := true })
  | none => (.error ("nupp hot reload: cannot seal unknown or loaded module " ++ name), state)

def abort (name : String) (state : State F) : State F :=
  match state.modules name with
  | some id =>
    if (state.records id).loaded then
      state
    else
      { state with
        bySlots := Function.update state.bySlots id false
        modules := Function.update state.modules name none }
  | none => state

def defineInitial (slots : ℕ) (index : ℤ) (definition : Definition) (implementation : F)
    (state : State F) : Outcome F Unit :=
  let module := state.records slots
  if (module.definitions index).isSome then
    (.error ("nupp hot reload: slot " ++ toString index ++ " was defined twice"), state)
  else
    (.ok (), state.setRecord slots { module with
      definitions := Function.update module.definitions index (some definition)
      slots := Function.update module.slots index (some implementation) })

variable [DecidableEq F]

/-- A candidate must match the live definition's identity, signature, recursive binding and
captures. -/
def defineCandidate (slots : ℕ) (index : ℤ) (definition : Definition) (implementation : F)
    (staging : Staging F) (state : State F) : Outcome F Unit :=
  let module := state.records slots
  match module.definitions index with
  | none =>
    (.error ("nupp hot reload: stable function identity changed for " ++ definition.id), state)
  | some live =>
    if live.id ≠ definition.id then
      (.error ("nupp hot reload: stable function identity changed for " ++ definition.id), state)
    else if live.signature ≠ definition.signature then
      (.error ("nupp hot reload: signature changed for " ++ definition.id ++
        "; restart required"), state)
    else if live.selfName ≠ definition.selfName then
      (.error ("nupp hot reload: recursive binding changed for " ++ definition.id ++
        "; restart required"), state)
    else if live.captures.order ≠ definition.captures.order then
      (.error ("nupp hot reload: captured bindings changed for " ++ definition.id ++
        "; restart required"), state)
    else
      match joinCaptures implementation definition.captures (module.slots index) live.captures
        definition.captures.order state.cells with
      | none => (.error "bad argument to 'upvaluejoin'", state)
      | some cells =>
        if (module.name, index) ∈ staging.byKey then
          (.error ("nupp hot reload: patch defines " ++ definition.id ++ " twice"),
            { state with cells := cells })
        else
          (.ok (), { state with
            cells := cells
            staging := some { staging with
              byKey := (module.name, index) :: staging.byKey
              candidates := staging.candidates ++
                [⟨slots, index, implementation, definition.captures⟩] } })

def define (names : F → List String) (slots : ℕ) (index : ℤ) (id signature : String)
    (selfName : Option String) (implementation : F) (state : State F) : Outcome F Unit :=
  if state.bySlots slots then
    let state := detachSelf names implementation selfName state
    match upvalues (names implementation) selfName with
    | .error reason => (.error reason, state)
    | .ok captures =>
      match state.staging with
      | none => defineInitial slots index ⟨id, signature, selfName, captures⟩ implementation state
      | some staging =>
        defineCandidate slots index ⟨id, signature, selfName, captures⟩ implementation staging state
  else
    (.error unknownSlots, state)

end Register

/-- What a patch chunk does: it calls the registry, goes on with what a call returned or
raised, and ends or raises itself. -/
inductive Chunk (F : Type*) where
  | finish
  | raise (reason : String)
  | module (name : String) (next : Except String ℕ → Chunk F)
  | policy (slots : ℕ) (key : String) (next : Except String Unit → Chunk F)
  | define (slots : ℕ) (index : ℤ) (id signature : String) (selfName : Option String)
      (implementation : F) (next : Except String Unit → Chunk F)

section Patch

variable [DecidableEq F] (names : F → List String)

def Chunk.run : Chunk F → State F → Outcome F Unit
  | .finish, state => (.ok (), state)
  | .raise reason, state => (.error reason, state)
  | .module name next, state =>
    let (answer, state) := hotreload.module name state
    (next answer).run state
  | .policy slots key next, state =>
    let (answer, state) := hotreload.policy slots key state
    (next answer).run state
  | .define slots index id signature selfName implementation next, state =>
    let (answer, state) := hotreload.define names slots index id signature selfName implementation state
    (next answer).run state

/-- Whether a live managed cell holds a policy that a module with candidates would lose. -/
def policyBlocked (live : String → ℕ) (staging : Staging F) (state : State F) : Bool :=
  staging.candidates.any fun candidate =>
    decide (∃ policy ∈ (state.records candidate.module).policies,
      policy ∉ (staging.policies candidate.module).getD ∅ ∧ 0 < live policy)

/-- `source` is none where the chunk does not load. `live` counts the live cells of a policy;
without a counter they all count as none. -/
def stage (source : Option (Chunk F)) (baseGeneration : ℤ) (live : String → ℕ)
    (state : State F) : Outcome F ℕ :=
  if state.staging.isSome then
    (.error "another patch is already staging", state)
  else if baseGeneration ≠ state.generation then
    (.error "stale generation", state)
  else
    match source with
    | none => (.error "the chunk does not load", state)
    | some chunk =>
      let (answer, ran) := chunk.run names { state with staging := some ⟨baseGeneration, [], [], fun _ => none⟩ }
      let staging := ran.staging.getD ⟨baseGeneration, [], [], fun _ => none⟩
      let state := { ran with staging := none }
      match answer with
      | .error reason => (.error reason, state)
      | .ok () =>
        if policyBlocked live staging state then
          (.error "live managed-cell policy changed; close or take its payload before reloading",
            state)
        else
          (.ok state.transactions.length,
            { state with
              preparedSerial := state.preparedSerial + 1
              transactions := state.transactions ++
                [{ baseGeneration := baseGeneration
                   generation := baseGeneration + 1
                   serial := state.preparedSerial + 1
                   candidates := staging.candidates
                   policies := staging.policies
                   committed := false
                   origin := ⟨state.epoch, fun id => (state.records id).policies, live⟩ }] })

end Patch

section Publish

/-- The slot of a candidate gets its implementation, and the definition its captures. -/
def publish (records : ℕ → Module F) (candidate : Candidate F) : ℕ → Module F :=
  let module := records candidate.module
  Function.update records candidate.module { module with
    slots := Function.update module.slots candidate.index (some candidate.implementation)
    definitions := Function.update module.definitions candidate.index
      ((module.definitions candidate.index).map fun definition =>
        { definition with captures := candidate.captures }) }

def publishPolicies (policies : ℕ → Option (Finset String)) (records : ℕ → Module F) :
    ℕ → Module F :=
  fun id => { records id with policies := (policies id).getD (records id).policies }

def commit (t : ℕ) (state : State F) : Outcome F ℤ :=
  match state.transactions[t]? with
  | none => (.error "patch was already committed or is invalid", state)
  | some prepared =>
    if prepared.committed then
      (.error "patch was already committed or is invalid", state)
    else if prepared.baseGeneration ≠ state.generation then
      (.error "stale generation", state)
    else
      (.ok prepared.generation,
        { state with
          records := publishPolicies prepared.policies
            (prepared.candidates.foldl publish state.records)
          transactions := state.transactions.set t { prepared with committed := true }
          generation := prepared.generation
          accepted := state.accepted ++ [t] })

def loaded (name : String) (state : State F) : Bool :=
  match state.modules name with
  | some id => (state.records id).loaded
  | none => false

/-- The records and what the programs hold of them stay. -/
def retire (state : State F) : State F :=
  { state with
    generation := 1
    modules := fun _ => none
    bySlots := fun _ => false
    staging := none
    preparedSerial := 0
    epoch := state.epoch + 1 }

end Publish

inductive Action (F : Type*) where
  | module (name : String)
  | define (slots : ℕ) (index : ℤ) (id signature : String) (selfName : Option String)
      (implementation : F)
  | policy (slots : ℕ) (key : String)
  | sealModule (name : String)
  | abort (name : String)
  | stage (source : Option (Chunk F)) (baseGeneration : ℤ) (live : String → ℕ)
  | commit (t : ℕ)
  | retire

def step [DecidableEq F] (names : F → List String) (state : State F) : Action F → State F
  | .module name => (module name state).2
  | .define slots index id signature selfName implementation =>
    (define names slots index id signature selfName implementation state).2
  | .policy slots key => (policy slots key state).2
  | .sealModule name => (sealModule name state).2
  | .abort name => abort name state
  | .stage source baseGeneration live => (stage names source baseGeneration live state).2
  | .commit t => (commit t state).2
  | .retire => retire state

def run [DecidableEq F] (names : F → List String) (state : State F) (actions : List (Action F)) :
    State F :=
  actions.foldl (step names) state

end Nupp.hotreload
