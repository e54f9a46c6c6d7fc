import Mathlib.Data.List.AList
import Mathlib.Logic.Function.Basic

/-! The registrations of a message bus: one list of slots for each address and event, with
a tombstone where a registration was removed, compacted when nothing is being delivered and
recycled through pools. A list is shared with the deliveries that walk it, so it is kept on
a heap; a map has one holder at a time, so it is kept by value. -/

namespace Nupp.events

/-- A registration as a list holds it. Without a callback it is the tombstone. The serial
tells registrations apart and is never read by the bus. -/
structure Slot (C : Type) where
  name : Option String
  callback : Option C
  once : Bool
  serial : ℕ
  deriving DecidableEq, Repr

/-- `shuffled` records for the statements below whether a compaction has changed the order
of the registrations the list keeps; the bus never reads it. -/
structure ObserverList (C : Type) where
  slots : List (Slot C) := []
  once : ℤ := 0
  holes : ℤ := 0
  shuffled : Bool := false
  deriving DecidableEq, Repr

abbrev EventMap := AList fun _ : ℕ => ℕ

inductive Detached where
  | list (id : ℕ)
  | map (map : EventMap)

/-- `lists` is the heap, with every list from `nextList` on not yet made. The last element of
a pool of the source is the head here. -/
structure State (A C : Type) where
  byAddress : AList fun _ : A => EventMap := ∅
  count : ℤ := 0
  depth : ℤ := 0
  pending : Bool := false
  dirty : List A := []
  detached : List Detached := []
  freeLists : List ℕ := []
  freeMaps : List EventMap := []
  lists : ℕ → ObserverList C := fun _ => {}
  nextList : ℕ := 0
  nextSerial : ℕ := 0

inductive Failure where
  | alreadyRegistered (name : String) (event : ℕ)
  deriving DecidableEq, Repr

inductive Key (C : Type) where
  | name (name : String)
  | callback (callback : C)

section Lists

variable {C : Type}

def Slot.live (slot : Slot C) : Bool := slot.callback.isSome

/-- What a removed or consumed registration is replaced with. -/
def Slot.tombstone (slot : Slot C) : Slot C := { slot with callback := none, once := false }

def liveIn (list : ObserverList C) : ℕ := list.slots.countP Slot.live

/-- The loop of `compact` with `left` slots from `index` on still to look at. -/
def compactLoop : ℕ → ℕ → List (Slot C) → List (Slot C)
  | 0, _, slots => slots
  | left + 1, index, slots =>
    if (slots[index]?.all fun slot => !slot.live) then
      let moved :=
        match slots.getLast? with
        | some last => if index + 1 < slots.length then slots.set index last else slots
        | none => slots
      compactLoop left index moved.dropLast
    else
      compactLoop left (index + 1) slots

def serials (slots : List (Slot C)) : List ℕ := (slots.filter Slot.live).map Slot.serial

def compact (list : ObserverList C) : ObserverList C :=
  let slots := compactLoop list.slots.length 0 list.slots
  { list with
    slots := slots
    holes := 0
    shuffled := list.shuffled || serials slots != serials list.slots }

variable [DecidableEq C]

def Slot.matches (key : Key C) (slot : Slot C) : Bool :=
  match key with
  | .name name => slot.name == some name
  | .callback callback => slot.callback == some callback

/-- The loop of `stop`: the slots it leaves, and how many registrations and how many once
registrations it removed. A name stops at its first match. -/
def stopLoop (key : Key C) : List (Slot C) → List (Slot C) × ℕ × ℕ
  | [] => ([], 0, 0)
  | slot :: rest =>
    if slot.live && slot.matches key then
      let consumed := if slot.once then 1 else 0
      match key with
      | .name _ => (slot.tombstone :: rest, 1, consumed)
      | .callback _ =>
        let (slots, removed, once) := stopLoop key rest
        (slot.tombstone :: slots, removed + 1, once + consumed)
    else
      let (slots, removed, once) := stopLoop key rest
      (slot :: slots, removed, once)

end Lists

section State

variable {A C : Type}

def State.setList (observers : State A C) (id : ℕ) (list : ObserverList C) : State A C :=
  { observers with lists := Function.update observers.lists id list }

def takeList (observers : State A C) : ℕ × State A C :=
  match observers.freeLists with
  | id :: free => (id, { observers with freeLists := free })
  | [] =>
    (observers.nextList,
      { observers.setList observers.nextList {} with nextList := observers.nextList + 1 })

def takeMap (observers : State A C) : EventMap × State A C :=
  match observers.freeMaps with
  | map :: free => (map, { observers with freeMaps := free })
  | [] => (∅, observers)

def giveList (observers : State A C) (id : ℕ) : State A C :=
  { observers.setList id {} with freeLists := id :: observers.freeLists }

def giveMap (observers : State A C) (_map : EventMap) : State A C :=
  { observers with freeMaps := ∅ :: observers.freeMaps }

variable [DecidableEq A]

def State.listAt (observers : State A C) (address : A) (event : ℕ) : Option ℕ :=
  (observers.byAddress.lookup address).bind fun map => map.lookup event

def prune (observers : State A C) (address : A) (event id : ℕ) : State A C :=
  if (observers.lists id).slots ≠ [] then
    observers
  else
    match observers.byAddress.lookup address with
    | none => observers
    | some map =>
      if map.lookup event ≠ some id then
        observers
      else
        let left := map.erase event
        let observers :=
          giveList { observers with byAddress := observers.byAddress.insert address left } id
        if left.entries.isEmpty then
          giveMap { observers with byAddress := observers.byAddress.erase address } left
        else
          observers

def compactAt (observers : State A C) (address : A) (event id : ℕ) : State A C :=
  prune (observers.setList id (compact (observers.lists id))) address event id

/-- The walk of `settle` over the map of one address, which stops once pruning has given the
map back. -/
def settleMap (address : A) : List (Sigma fun _ : ℕ => ℕ) → State A C → State A C
  | [], observers => observers
  | entry :: rest, observers =>
    let observers := compactAt observers address entry.1 entry.2
    if (observers.byAddress.lookup address).isNone then
      observers
    else
      settleMap address rest observers

def settleDirty : List A → State A C → State A C
  | [], observers => observers
  | address :: rest, observers =>
    match observers.byAddress.lookup address with
    | none => settleDirty rest observers
    | some map => settleDirty rest (settleMap address map.entries observers)

def settleDetached : List Detached → State A C → State A C
  | [], observers => observers
  | .list id :: rest, observers => settleDetached rest (giveList observers id)
  | .map map :: rest, observers => settleDetached rest (giveMap observers map)

/-- `rewinds` says whether every arena the bus owns could be reset: one that could not
raises out of `settle` before anything deferred is done. -/
def settle (observers : State A C) (rewinds : Bool) : State A C :=
  if !rewinds || !observers.pending then
    observers
  else
    let dirty := observers.dirty
    let observers := settleDirty dirty { observers with pending := false, dirty := [] }
    settleDetached observers.detached { observers with detached := [] }

def touched (observers : State A C) (address : A) (event id : ℕ) : State A C :=
  if observers.depth > 0 then
    { observers with
      dirty := if address ∈ observers.dirty then observers.dirty else address :: observers.dirty
      pending := true }
  else
    compactAt observers address event id

def mapFor (observers : State A C) (address : A) : EventMap × State A C :=
  match observers.byAddress.lookup address with
  | some map => (map, observers)
  | none =>
    let (map, observers) := takeMap observers
    (map, { observers with byAddress := observers.byAddress.insert address map })

def listFor (observers : State A C) (address : A) (event : ℕ) : ℕ × State A C :=
  let (map, observers) := mapFor observers address
  match map.lookup event with
  | some id => (id, observers)
  | none =>
    let (id, observers) := takeList observers
    (id, { observers with
      byAddress := observers.byAddress.insert address (map.insert event id) })

def nameTaken (list : ObserverList C) (name : Option String) : Option String :=
  name.filter fun name => list.slots.any fun slot => slot.live && slot.name == some name

def register (observers : State A C) (address : A) (event : ℕ) (callback : C)
    (name : Option String) (once : Bool) : Except Failure Unit × State A C :=
  let (id, observers) := listFor observers address event
  let list := observers.lists id
  match nameTaken list name with
  | some name => (.error (.alreadyRegistered name event), observers)
  | none =>
    let slot : Slot C := ⟨name, some callback, once, observers.nextSerial⟩
    (.ok (), { observers.setList id
        { list with
          slots := list.slots ++ [slot]
          once := if once then list.once + 1 else list.once } with
      count := observers.count + 1
      nextSerial := observers.nextSerial + 1 })

def observe (observers : State A C) (address : A) (event : ℕ) (callback : C)
    (name : Option String) : Except Failure Unit × State A C :=
  register observers address event callback name false

def once (observers : State A C) (address : A) (event : ℕ) (callback : C)
    (name : Option String) : Except Failure Unit × State A C :=
  register observers address event callback name true

def contains (observers : State A C) (address : A) (event : ℕ) : Bool :=
  if observers.count = 0 then
    false
  else
    match observers.listAt address event with
    | none => false
    | some id => 0 < liveIn (observers.lists id)

def detach (observers : State A C) (item : Detached) : State A C :=
  if observers.depth > 0 then
    { observers with detached := item :: observers.detached, pending := true }
  else
    match item with
    | .list id => giveList observers id
    | .map map => giveMap observers map

/-- The loop of `clear` over the lists of one map. -/
def clearLists : List (Sigma fun _ : ℕ => ℕ) → State A C → State A C
  | [], observers => observers
  | entry :: rest, observers =>
    let id := entry.2
    clearLists rest
      (detach { observers with count := observers.count - liveIn (observers.lists id) }
        (.list id))

def clear (observers : State A C) (address : A) : State A C :=
  match observers.byAddress.lookup address with
  | none => observers
  | some map =>
    detach
      (clearLists map.entries
        { observers with byAddress := observers.byAddress.erase address })
      (.map map)

def reset (observers : State A C) : State A C :=
  observers.byAddress.keys.foldl clear observers

variable [DecidableEq C]

def stop (observers : State A C) (address : A) (event : ℕ) (key : Key C) : Bool × State A C :=
  if observers.count = 0 then
    (false, observers)
  else
    match observers.listAt address event with
    | none => (false, observers)
    | some id =>
      let list := observers.lists id
      let (slots, removed, consumed) := stopLoop key list.slots
      if removed = 0 then
        (false, observers)
      else
        let observers := observers.setList id
          { list with
            slots := slots
            once := list.once - consumed
            holes := list.holes + removed }
        (true, touched { observers with count := observers.count - removed } address event id)

end State

end Nupp.events
