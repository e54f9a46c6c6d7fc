import Nupp.Lua.Data

/-! The copies of values that cross isolated execution states. -/

namespace Nupp.ValueCodec

open Data Decimal Double

variable {ι μ : Type}

def maxDepth : ℕ := 32

/-- A state's view of its records: the published address of a record table, and the modules
whose members are record tables. -/
structure Realm (μ : Type) where
  recordAddress : μ → Option Bytes
  require : Bytes → Except String (Option μ)
  member : μ → Bytes → Option μ

structure Packed (ι : Type) where
  values : ι
  count : ℕ

structure TransferState (ι μ : Type) where
  seen : List ι
  records : List (Bytes × μ)
  addresses : List Bytes

/-! Validation. -/

def sendable : Value ι → Bool
  | .nil => true
  | .scalar _ => true
  | _ => false

/-- Notes the record of a table's metatable. -/
def register [DecidableEq μ] (realm : Realm μ) (path : Bytes) (state : TransferState ι μ) :
    Option μ → Except Bytes (TransferState ι μ)
  | none => .ok state
  | some metatable =>
    match realm.recordAddress metatable with
    | none => .error (path ++ ascii " has a metatable")
    | some address =>
      match state.records.lookup address with
      | some prior =>
        if prior = metatable then .ok state
        else .error (path ++ ascii " has an ambiguous record metatable")
      | none => .ok { state with
          records := (address, metatable) :: state.records
          addresses := state.addresses ++ [address] }

def itemPath (path : Bytes) : Value ι → Bytes
  | .scalar s => path ++ ascii "[" ++ s.text ++ ascii "]"
  | _ => path

def unsendableEntry (check : Value ι → Bytes → TransferState ι μ → Except Bytes (TransferState ι μ))
    (path : Bytes) (state : TransferState ι μ) (e : Value ι × Value ι) : Except Bytes (TransferState ι μ) :=
  if sendable e.1 then
    if sendable e.2 then .ok state else check e.2 (itemPath path e.1) state
  else .error (path ++ ascii " has a " ++ ascii e.1.typeName ++ ascii " key")

section Unsendable

variable [DecidableEq ι] [DecidableEq μ] (heap : Heap ι μ) (realm : Realm μ)

/-- Why a value cannot be reproduced in another state. Tables may nest `levels` deep. -/
def unsendable : ℕ → Value ι → Bytes → TransferState ι μ → Except Bytes (TransferState ι μ)
  | _, .nil, _, state => .ok state
  | _, .scalar _, _, state => .ok state
  | _, .other kind, path, _ => .error (path ++ ascii " is a " ++ ascii kind.name)
  | 0, .table id, path, state => do
    let _ ← register realm path state (heap id).metatable
    .error (path ++ ascii " nests deeper than 32 tables")
  | levels + 1, .table id, path, state => do
    let state ← register realm path state (heap id).metatable
    if id ∈ state.seen then
      .error (path ++ ascii " repeats a table already present in the message")
    else
      (heap id).entries.foldlM (unsendableEntry (unsendable levels) path) { state with seen := id :: state.seen }

/-- Validates the captures and the arguments of a submission together. -/
def validate (captures arguments : Packed ι) : Except Bytes (TransferState ι μ) := do
  let transfer ← (unsendable heap realm maxDepth (.table captures.values) (ascii "captures")
    ⟨[], [], []⟩).mapError (ascii "nupp: cannot copy task captures: " ++ ·)
  (unsendable heap realm maxDepth (.table arguments.values) (ascii "arguments")
    transfer).mapError (ascii "nupp: cannot copy task arguments: " ++ ·)

end Unsendable

/-! Records. -/

def invalidRecord : String := "nupp: a worker value names an invalid record"

def isNameStart (b : UInt8) : Bool :=
  (65 ≤ b.toNat && b.toNat ≤ 90) || (97 ≤ b.toNat && b.toNat ≤ 122) || b = 95

def isName : Bytes → Bool
  | [] => false
  | first :: rest => isNameStart first && rest.all fun b => isNameStart b || isDigit b

/-- The members of a dotted path, none of them empty. -/
def pathMembers (path : Bytes) : Option (List Bytes) :=
  let members := path.splitOn 46
  if members.all isName then some members else none

/-- The record table an address names. -/
def resolveRecord (realm : Realm μ) (address : Bytes) : Except String μ :=
  let moduleName := address.takeWhile (· ≠ 0)
  let memberPath := (address.dropWhile (· ≠ 0)).drop 1
  if moduleName = [] || memberPath = [] then .error invalidRecord
  else
    match pathMembers moduleName, pathMembers memberPath with
    | some _, some members => do
      let root ← realm.require moduleName
      let value ← members.foldlM
        (fun value member =>
          match value with
          | none => .error invalidRecord
          | some table => .ok (realm.member table member)) root
      match value with
      | some table =>
        if realm.recordAddress table = some address then .ok table
        else .error "nupp: a worker value names an unknown record"
      | none => .error "nupp: a worker value names an unknown record"
    | _, _ => .error invalidRecord

/-! Writing. -/

def NIL : UInt8 := 78
def FALSE : UInt8 := 70
def TRUE : UInt8 := 84
def NUMBER : UInt8 := 68
def POSITIVE_INFINITY : UInt8 := 73
def NEGATIVE_INFINITY : UInt8 := 105
def NOT_A_NUMBER : UInt8 := 88
def STRING : UInt8 := 83
def TABLE : UInt8 := 116
def RECORD : UInt8 := 114

def colon : UInt8 := 58

def writeLength (n : ℕ) : Bytes := numeral n ++ [colon]

def writeString (s : Bytes) : Bytes := writeLength s.length ++ s

def writeScalar : Scalar → Bytes
  | .boolean b => [if b then TRUE else FALSE]
  | .number .nan => [NOT_A_NUMBER]
  | .number (.infinity negative) => [if negative then NEGATIVE_INFINITY else POSITIVE_INFINITY]
  | .number (.finite x) => NUMBER :: writeString (formatFinite 17 x)
  | .string s => STRING :: writeString s

def writeTag : Option Bytes → Bytes
  | none => [TABLE]
  | some address => RECORD :: writeString address

/-- Writes a value; `stack` is how deep the calls may go. -/
def writeValue (heap : Heap ι μ) (realm : Realm μ) : ℕ → Value ι → Except String Bytes
  | _, .nil => .ok [NIL]
  | _, .scalar s => .ok (writeScalar s)
  | _, .other kind => .error ("nupp: a worker value of type " ++ kind.name ++ " cannot be copied")
  | 0, .table _ => .error "stack overflow"
  | stack + 1, .table id => do
    let t := heap id
    let texts ← t.entries.mapM fun e => do
      let key ← writeValue heap realm stack e.1
      let item ← writeValue heap realm stack e.2
      return key ++ item
    return writeTag (t.metatable.bind realm.recordAddress) ++ writeLength t.entries.length ++ texts.flatten

/-- The values of a pack, one for each of its positions. -/
def Packed.positions [DecidableEq ι] (heap : Heap ι μ) (packed : Packed ι) : List (Value ι) :=
  (List.range packed.count).map fun i => (heap packed.values).get (index (i + 1))

def encodeValues (heap : Heap ι μ) (realm : Realm μ) (stack : ℕ) (values : List (Value ι)) :
    Except String Bytes := do
  let texts ← values.mapM (writeValue heap realm stack)
  return writeLength values.length ++ texts.flatten

def encode [DecidableEq ι] (heap : Heap ι μ) (realm : Realm μ) (stack : ℕ) (packed : Packed ι) :
    Except String Bytes :=
  encodeValues heap realm stack (packed.positions heap)

/-! Reading. A copied value is a tree: every table it has is new. -/

mutual

/-- A copied value with its tables; `ρ` says of which record a table is. -/
inductive Tree (ρ : Type) where
  | nil
  | scalar (s : Scalar)
  | table (record : Option ρ) (entries : Entries ρ)

inductive Entries (ρ : Type) where
  | nil
  | cons (key : Scalar) (item : Tree ρ) (rest : Entries ρ)

end

def malformed : String := "nupp: a worker message is malformed"

/-- The bytes from the cursor on. -/
def ahead (bytes : Bytes) (cursor : ℕ) : Bytes := bytes.drop (cursor - 1)

def readLength (bytes : Bytes) (cursor : ℕ) : Except String (ℕ × ℕ) :=
  let digits := (ahead bytes cursor).takeWhile isDigit
  if digits = [] || ((ahead bytes cursor).dropWhile isDigit).head? ≠ some colon then .error malformed
  else if value digits > bytes.length || (digits.length > 1 && digits.head? = some 48) then
    .error malformed
  else .ok (value digits, cursor + digits.length + 1)

def readString (bytes : Bytes) (cursor : ℕ) : Except String (Bytes × ℕ) := do
  let (length, cursor) ← readLength bytes cursor
  if cursor + length > bytes.length + 1 then .error malformed
  else .ok ((ahead bytes cursor).take length, cursor + length)

def readNumber (other : Bytes → Option Number) (bytes : Bytes) (cursor : ℕ) :
    Except String (Scalar × ℕ) := do
  let (text, cursor) ← readString bytes cursor
  match tonumber other text with
  | some (.finite x) =>
    if formatFinite 17 x ≠ text then .error malformed else .ok (.number (.finite x), cursor)
  | _ => .error malformed

/-- Whether a table can file a value under a key, and the key it files it under. -/
def entryKey {ρ : Type} (present : List Scalar) : Tree ρ → Tree ρ → Except String Scalar
  | .scalar key, item =>
    match item with
    | .nil => .error malformed
    | _ =>
      if key = .number .nan || key.key ∈ present then .error malformed else .ok key.key
  | _, _ => .error malformed

/-- Reads entries into a table that has the keys `present`. -/
def readEntries {ρ : Type} (read : ℕ → Except String (Tree ρ × ℕ)) :
    ℕ → List Scalar → ℕ → Except String (Entries ρ × ℕ)
  | 0, _, cursor => .ok (.nil, cursor)
  | count + 1, present, cursor => do
    let (key, cursor) ← read cursor
    let (item, cursor) ← read cursor
    let key ← entryKey present key item
    let (rest, cursor) ← readEntries read count (key :: present) cursor
    .ok (.cons key item rest, cursor)

/-- Reads a value in front of which `maxDepth + 1 - levels` tables are open. -/
def readValue (other : Bytes → Option Number) (realm : Realm μ) (bytes : Bytes) :
    ℕ → ℕ → Except String (Tree μ × ℕ)
  | 0, _ => .error "nupp: a worker message nests too deeply"
  | levels + 1, cursor =>
    match (ahead bytes cursor).head? with
    | none => .error malformed
    | some tag =>
      let cursor := cursor + 1
      if tag = NIL then .ok (.nil, cursor)
      else if tag = TRUE then .ok (.scalar (.boolean true), cursor)
      else if tag = FALSE then .ok (.scalar (.boolean false), cursor)
      else if tag = POSITIVE_INFINITY then .ok (.scalar (.number (.infinity false)), cursor)
      else if tag = NEGATIVE_INFINITY then .ok (.scalar (.number (.infinity true)), cursor)
      else if tag = NOT_A_NUMBER then .ok (.scalar (.number .nan), cursor)
      else if tag = NUMBER then do
        let (n, cursor) ← readNumber other bytes cursor
        .ok (.scalar n, cursor)
      else if tag = STRING then do
        let (s, cursor) ← readString bytes cursor
        .ok (.scalar (.string s), cursor)
      else if tag = TABLE || tag = RECORD then
        if levels = 0 then .error "nupp: a worker message nests too deeply"
        else do
          let (address, cursor) ←
            if tag = RECORD then do
              let (address, cursor) ← readString bytes cursor
              Except.ok (some address, cursor)
            else .ok (none, cursor)
          let (count, cursor) ← readLength bytes cursor
          let (entries, cursor) ← readEntries (readValue other realm bytes levels) count [] cursor
          match address with
          | none => .ok (.table none entries, cursor)
          | some address => do
            let record ← resolveRecord realm address
            .ok (.table (some record) entries, cursor)
      else .error malformed

/-- Reads the values of a pack. -/
def readValues (other : Bytes → Option Number) (realm : Realm μ) (bytes : Bytes) :
    ℕ → ℕ → Except String (List (Tree μ) × ℕ)
  | 0, cursor => .ok ([], cursor)
  | count + 1, cursor => do
    let (value, cursor) ← readValue other realm bytes (maxDepth + 1) cursor
    let (values, cursor) ← readValues other realm bytes count cursor
    .ok (value :: values, cursor)

/-- The values of the pack that bytes spell, one for each of its positions. -/
def decode (other : Bytes → Option Number) (realm : Realm μ) (bytes : Bytes) :
    Except String (List (Tree μ)) := do
  let (count, cursor) ← readLength bytes 1
  let (values, cursor) ← readValues other realm bytes count cursor
  if cursor ≠ bytes.length + 1 then .error malformed else .ok values

end Nupp.ValueCodec
