import Nupp.Lib.Decimal

/-! The data of a Lua state: scalars, and tables known by identity with the entries `next`
visits in its order. A table has no nil, not-a-number or negative zero among its keys, and
stores no nil. -/

namespace Nupp.Data

open Double Decimal

abbrev Bytes := List UInt8

def ascii (s : String) : Bytes := s.toList.map fun c => c.toNat.toUInt8

inductive Scalar where
  | boolean (b : Bool)
  | number (n : Number)
  | string (s : Bytes)
deriving DecidableEq, Repr

/-- The kinds of values that are neither scalars nor tables. -/
inductive Kind where
  | function
  | thread
  | userdata
  | cdata
deriving DecidableEq, Repr

inductive Value (ι : Type) where
  | nil
  | scalar (s : Scalar)
  | table (id : ι)
  | other (kind : Kind)
deriving DecidableEq, Repr

variable {ι μ : Type}

def Kind.name : Kind → String
  | .function => "function"
  | .thread => "thread"
  | .userdata => "userdata"
  | .cdata => "cdata"

def Value.typeName : Value ι → String
  | .nil => "nil"
  | .scalar (.boolean _) => "boolean"
  | .scalar (.number _) => "number"
  | .scalar (.string _) => "string"
  | .table _ => "table"
  | .other kind => kind.name

def numberText : Number → Bytes
  | .finite x => formatFinite 14 x
  | .infinity negative => ascii (if negative then "-inf" else "inf")
  | .nan => ascii "nan"

/-- `tostring` of a scalar. -/
def Scalar.text : Scalar → Bytes
  | .boolean b => ascii (if b then "true" else "false")
  | .number n => numberText n
  | .string s => s

def negativeZero : Scalar := .number (.finite (.zero true))

/-- The key under which a table files a scalar. -/
def Scalar.key (s : Scalar) : Scalar :=
  if s = negativeZero then .number (.finite (.zero false)) else s

def ProperKey : Value ι → Prop
  | .nil => False
  | .scalar s => s ≠ .number .nan ∧ s ≠ negativeZero
  | _ => True

/-- A table: its entries in the order of `next`, and what `getmetatable` answers. -/
structure Table (ι μ : Type) where
  entries : List (Value ι × Value ι)
  metatable : Option μ
  nodup_keys : (entries.map Prod.fst).Nodup
  proper_keys : ∀ e ∈ entries, ProperKey e.1
  items_ne_nil : ∀ e ∈ entries, e.2 ≠ .nil

abbrev Heap (ι μ : Type) := ι → Table ι μ

/-- The number of an index. -/
def index (n : ℕ) : Value ι := .scalar (.number (nearest false n))

/-- `rawget`. -/
def Table.get [DecidableEq ι] (t : Table ι μ) (key : Value ι) : Value ι := (t.entries.lookup key).getD .nil

end Nupp.Data
