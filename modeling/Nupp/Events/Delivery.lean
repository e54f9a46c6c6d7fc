import Nupp.Events.Registry

/-! Deliveries of a message bus. Between two calls of observers a delivery runs alone, so
the bus is driven by actions: an operation called from outside a delivery or from inside any
observer, the run of one delivery up to its next call or its return, and a failure raised
into it. Any order of actions is a run, nested deliveries and suspended observers among
them. -/

namespace Nupp.events

/-- A delivery in `deliverTo`: the list it holds, the length and the choice of loop it read
when it began, and the next index. -/
structure Flight (A : Type) where
  list : ℕ
  address : A
  event : ℕ
  n : ℕ
  index : ℕ
  fast : Bool

/-- A call of an observer by an emission. -/
structure Call (C : Type) where
  emission : ℕ
  serial : ℕ
  once : Bool
  callback : C
  deriving DecidableEq, Repr

/-- A bus with its deliveries in flight, the number of emissions so far and the calls made so
far, the last first. -/
structure World (A C : Type) where
  observers : State A C := {}
  flights : AList fun _ : ℕ => Flight A := ∅
  emissions : ℕ := 0
  log : List (Call C) := []

/-- `rewinds` says whether the arenas of the bus could be reset should the delivery be the
last to leave. A `failure` is raised by an observer, by the initializer before the first
observer, or into a suspended observer. -/
inductive Action (A C : Type) where
  | observe (address : A) (event : ℕ) (callback : C) (name : Option String)
  | once (address : A) (event : ℕ) (callback : C) (name : Option String)
  | stop (address : A) (event : ℕ) (key : Key C)
  | clear (address : A)
  | reset
  | emit (address : A) (event : ℕ)
  | deliver (address : A) (event : ℕ)
  | advance (emission : ℕ) (rewinds : Bool)
  | failure (emission : ℕ) (rewinds : Bool)

section

variable {A C : Type} [DecidableEq A]

/-- The next registration a delivery meets among `left` slots from `index` on. -/
def nextLive (slots : List (Slot C)) : ℕ → ℕ → Option (ℕ × Slot C)
  | 0, _ => none
  | left + 1, index =>
    match slots[index]? with
    | none => none
    | some slot => if slot.live then some (index, slot) else nextLive slots left (index + 1)

/-- The test that `emit` and `deliver` share, and the start of `deliverTo`. An allocator
that raises in `emit` leaves the bus as it was, so it is no action. -/
def begin (world : World A C) (address : A) (event : ℕ) : World A C :=
  let observers := world.observers
  let dropped := { world with emissions := world.emissions + 1 }
  if observers.count = 0 then
    dropped
  else
    match observers.listAt address event with
    | none => dropped
    | some id =>
      let list := observers.lists id
      if list.slots.length = 0 then
        dropped
      else
        let flight : Flight A :=
          ⟨id, address, event, list.slots.length, 0, list.once == 0 && list.holes == 0⟩
        { dropped with
          observers := { observers with depth := observers.depth + 1 }
          flights := world.flights.insert world.emissions flight }

def emit (world : World A C) (address : A) (event : ℕ) : World A C :=
  begin world address event

def deliver (world : World A C) (address : A) (event : ℕ) : World A C :=
  begin world address event

def finish (world : World A C) (emission : ℕ) (rewinds : Bool) : World A C :=
  let observers := { world.observers with depth := world.observers.depth - 1 }
  { world with
    observers := if observers.depth = 0 then settle observers rewinds else observers
    flights := world.flights.erase emission }

/-- A once registration is tombstoned in its list before its callback runs. -/
def consume (observers : State A C) (flight : Flight A) (index : ℕ) (slot : Slot C) :
    State A C :=
  let list := observers.lists flight.list
  let observers := observers.setList flight.list
    { list with
      slots := list.slots.set index slot.tombstone
      once := list.once - 1
      holes := list.holes + 1 }
  touched { observers with count := observers.count - 1 } flight.address flight.event
    flight.list

/-- The run of one delivery up to its next call, or through its return. The fast loop calls
the tombstone, which does nothing. -/
def advance (world : World A C) (emission : ℕ) (rewinds : Bool) : World A C :=
  match world.flights.lookup emission with
  | none => world
  | some flight =>
    let slots := (world.observers.lists flight.list).slots
    match nextLive slots (flight.n - flight.index) flight.index with
    | none => finish world emission rewinds
    | some (index, slot) =>
      let called := slot.callback.map fun callback => ⟨emission, slot.serial, slot.once, callback⟩
      { world with
        observers :=
          if !flight.fast && slot.once then
            consume world.observers flight index slot
          else
            world.observers
        flights := world.flights.insert emission { flight with index := index + 1 }
        log := called.toList ++ world.log }

def fail (world : World A C) (emission : ℕ) (rewinds : Bool) : World A C :=
  match world.flights.lookup emission with
  | none => world
  | some _ => finish world emission rewinds

variable [DecidableEq C]

def World.step (world : World A C) : Action A C → World A C
  | .observe address event callback name =>
    { world with observers := (observe world.observers address event callback name).2 }
  | .once address event callback name =>
    { world with observers := (once world.observers address event callback name).2 }
  | .stop address event key =>
    { world with observers := (stop world.observers address event key).2 }
  | .clear address => { world with observers := clear world.observers address }
  | .reset => { world with observers := reset world.observers }
  | .emit address event => emit world address event
  | .deliver address event => deliver world address event
  | .advance emission rewinds => advance world emission rewinds
  | .failure emission rewinds => fail world emission rewinds

/-- The bus after a history of actions. -/
def run (actions : List (Action A C)) : World A C :=
  actions.foldl World.step {}

@[simp]
theorem run_nil : run ([] : List (Action A C)) = {} := rfl

@[simp]
theorem run_snoc (actions : List (Action A C)) (action : Action A C) :
    run (actions ++ [action]) = (run actions).step action := by
  simp [run]

end

end Nupp.events
