import Mathlib.Data.Int.Notation
import Mathlib.Data.Nat.Notation

/-! C layouts of types for a build target (`nupp/compiler/targetlayout.nupp`). Sizes are exact integers. -/

namespace Nupp.targetLayout

structure Scalar where
  size : ℕ
  alignment : ℕ
deriving DecidableEq

def scalar (size : ℕ) : Scalar := ⟨size, size⟩

structure Model where
  pointer : Scalar
  int64 : Scalar
  number : Scalar
  maximumAlignment : ℕ

def LP64 : Model := ⟨scalar 8, scalar 8, scalar 8, 16⟩
def ILP32_SYSV : Model := ⟨scalar 4, ⟨8, 4⟩, ⟨8, 4⟩, 8⟩
def ILP32_MSVC : Model := ⟨scalar 4, scalar 8, scalar 8, 8⟩
def WASM32 : Model := ⟨scalar 4, scalar 8, scalar 8, 16⟩

def MODELS : List (String × Model) :=
  [("x86_64-unknown-linux-gnu", LP64), ("aarch64-unknown-linux-gnu", LP64), ("x86_64-apple-darwin", LP64),
    ("aarch64-apple-darwin", LP64), ("x86_64-pc-windows-msvc", LP64), ("aarch64-pc-windows-msvc", LP64),
    ("i686-unknown-linux-gnu", ILP32_SYSV), ("i686-pc-windows-msvc", ILP32_MSVC),
    ("wasm32-unknown-emscripten", WASM32)]

def ABI : ℕ := 1

def roundUp (value alignment : ℕ) : ℕ := (value + alignment - 1) / alignment * alignment

structure Vector where
  payload : ℕ
  alignment : ℕ
  padding : ℕ
  size : ℕ

/-- `while natural < payload do natural = natural * 2 end`. -/
def double : ℕ → ℕ → ℕ → ℕ
  | 0, natural, _ => natural
  | fuel + 1, natural, payload => if natural < payload then double fuel (natural * 2) payload else natural

def vector (key : String) (elementBytes lanes : ℤ) : Except String Vector :=
  match MODELS.lookup key with
  | none => .error ("unknown target layout key " ++ key)
  | some model =>
    if elementBytes < 1 ∨ lanes < 1 then .error "a vector has a positive whole element width and lane count"
    else
      let width := elementBytes.toNat
      let payload := width * lanes.toNat
      let natural := double payload width payload
      let capped := min natural model.maximumAlignment
      let alignment := if capped < width then width else capped
      let size := roundUp payload alignment
      .ok ⟨payload, alignment, size - payload, size⟩

/-- The tag of a type that its tag alone lays out, or refuses. -/
inductive Tag
  | boolean | float | integer | int8 | int16 | int32 | uint8 | uint16 | uint32
  | number | int64 | uint64 | cstring | voidptr | ptr | nil
  | other (name : String)
deriving DecidableEq

def Tag.text : Tag → String
  | .boolean => "boolean" | .float => "float" | .integer => "integer"
  | .int8 => "int8" | .int16 => "int16" | .int32 => "int32"
  | .uint8 => "uint8" | .uint16 => "uint16" | .uint32 => "uint32"
  | .number => "number" | .int64 => "int64" | .uint64 => "uint64"
  | .cstring => "cstring" | .voidptr => "voidptr" | .ptr => "ptr" | .nil => "nil"
  | .other name => name

def VECTOR_ELEMENT_BYTES : Tag → Option ℤ
  | .float => some 4 | .number => some 8
  | .int8 => some 1 | .uint8 => some 1 | .int16 => some 2 | .uint16 => some 2
  | .int32 => some 4 | .uint32 => some 4 | .int64 => some 8 | .uint64 => some 8
  | _ => none

def FIXED : Tag → Option Scalar
  | .boolean => some (scalar 1) | .float => some (scalar 4) | .integer => some (scalar 4)
  | .int8 => some (scalar 1) | .int16 => some (scalar 2) | .int32 => some (scalar 4)
  | .uint8 => some (scalar 1) | .uint16 => some (scalar 2) | .uint32 => some (scalar 4)
  | _ => none

def Tag.isPointer : Tag → Bool
  | .cstring | .voidptr | .ptr => true
  | _ => false

def Tag.layout (model : Model) (tag : Tag) : Option Scalar :=
  match FIXED tag with
  | some fixed => some fixed
  | none =>
    if tag = .number then some model.number
    else if tag = .int64 ∨ tag = .uint64 then some model.int64
    else if tag.isPointer then some model.pointer
    else none

/-- A declaration's module (empty when it has none) and name. -/
structure Origin where
  moduleName : String
  name : String

inductive ConstTerm
  | integer (value : ℤ)
  | other

/-- A type argument, as far as a stored vector reads it. -/
inductive Argument
  | const (inner : Argument)
  | nominal (origin : Origin) (constArgs : List ConstTerm)
  | tagged (tag : Tag)

def Argument.unconst : Argument → Argument
  | .const inner => inner.unconst
  | argument => argument

/-- A type over `n` struct declarations; what a pointer points at is never read. -/
inductive Ty (n : ℕ)
  | tagged (tag : Tag)
  | union (members : List Tag) (hasNil : Bool)
  | carray (elem : Ty n) (count : Option ℤ)
  | nominal (origin : Origin) (typeArgs : List Argument)
  | struct (id : Fin n)

/-- The fields of each struct in order, with the type `byname` holds for the name. -/
abbrev Structs (n : ℕ) := Fin n → List (String × Option (Ty n))

structure Field where
  name : String
  offset : ℕ
  size : ℕ
  alignment : ℕ
deriving DecidableEq

inductive Refusal
  | target (key : String)
  | unresolved
  | unsized
  | mask
  | tier
  | cycle
  | empty
  | shape (tag : String)
  | field (name : String) (why : Refusal)

def Refusal.text : Refusal → String
  | .target key => "unknown layout target " ++ key
  | .unresolved => "the type is unresolved"
  | .unsized => "an unsized C array has no compile-time layout"
  | .mask => "a mask has no storage layout"
  | .tier => "a vector of a tier-dependent species has no target-independent layout"
  | .cycle => "a by-value struct cycle has no finite layout"
  | .empty => "an empty struct has no C layout"
  | .shape tag => tag ++ " has no runtime layout"
  | .field name why => "field \"" ++ name ++ "\" " ++ why.text

/-- How a computation stops without a layout: refused, at an error of Lua's, or out of fuel. -/
inductive Stop
  | refused (why : Refusal)
  | raised
  | unfinished

structure Measured where
  size : ℕ
  alignment : ℕ
  fields : List Field

/-- What the loop over the fields of a struct has placed. -/
structure Placement where
  fields : List Field
  cursor : ℕ
  alignment : ℕ

def Placement.add (placed : Placement) (name : String) (one : Measured) : Placement :=
  let offset := roundUp placed.cursor one.alignment
  { fields := placed.fields ++ [⟨name, offset, one.size, one.alignment⟩]
    cursor := offset + one.size
    alignment := if placed.alignment < one.alignment then one.alignment else placed.alignment }

structure Layout where
  target : String
  abi : ℕ
  size : ℕ
  alignment : ℕ
  fields : List Field
  offsets : List (String × ℕ)
  fingerprint : String

section
variable (canonical : String → String) (key : String) (model : Model)

/-- The element tag and the lanes of a `simd.Vector<T, simd.Fixed<N>>`. -/
def storageVector (origin : Origin) (typeArgs : List Argument) : Option (Tag × ℤ) :=
  if canonical origin.moduleName ≠ "simd" ∨ origin.name ≠ "Vector" then none
  else
    match typeArgs.head?.map Argument.unconst, (typeArgs.drop 1).head? with
    | some (.tagged element), some (.nominal species constArgs) =>
      if VECTOR_ELEMENT_BYTES element = none then none
      else if canonical species.moduleName ≠ "simd" ∨ species.name ≠ "Fixed" then none
      else
        match constArgs.head? with
        | some (.integer lanes) => some (element, lanes)
        | _ => none
    | _, _ => none

def layoutNominal (origin : Origin) (typeArgs : List Argument) : Except Stop Measured :=
  match storageVector canonical origin typeArgs with
  | some (element, lanes) =>
    match vector key ((VECTOR_ELEMENT_BYTES element).getD 0) lanes with
    | .ok laid => .ok ⟨laid.size, laid.alignment, []⟩
    -- `vector.size` of the nil that `vector` returned
    | .error _ => .error .raised
  | none =>
    if canonical origin.moduleName = "simd" ∧ origin.name = "Mask" then .error (.refused .mask)
    else if canonical origin.moduleName = "simd" ∧ origin.name = "Vector" then .error (.refused .tier)
    else .error (.refused (.shape "nominal"))

/-- A nullable pointer is the pointer. -/
def layoutUnion (members : List Tag) (hasNil : Bool) : Except Stop Measured :=
  match members, hasNil with
  | [first, second], true =>
    let other := if first = .nil then second else first
    if other.isPointer then .ok ⟨model.pointer.size, model.pointer.alignment, []⟩
    else .error (.refused (.shape "union"))
  | _, _ => .error (.refused (.shape "union"))

variable {n : ℕ}

/-- `layoutType`, given the layouts of structs. -/
def layoutWith (layoutStruct : Fin n → Except Stop Measured) : Ty n → Except Stop Measured
  | .tagged tag =>
    match tag.layout model with
    | some fixed => .ok ⟨fixed.size, fixed.alignment, []⟩
    | none => .error (.refused (.shape tag.text))
  | .union members hasNil => layoutUnion model members hasNil
  | .carray elem count =>
    match count with
    | none => .error (.refused .unsized)
    | some count =>
      if count < 0 then .error (.refused .unsized)
      else do
        let element ← layoutWith layoutStruct elem
        .ok ⟨element.size * count.toNat, element.alignment, []⟩
  | .nominal origin typeArgs => layoutNominal canonical key origin typeArgs
  | .struct id => layoutStruct id

def layoutField (layout : Ty n → Except Stop Measured) (placed : Placement) (declared : String × Option (Ty n)) :
    Except Stop Placement :=
  match declared.2 with
  | none => .error (.refused (.field declared.1 .unresolved))
  | some fieldType =>
    match layout fieldType with
    | .ok one => .ok (placed.add declared.1 one)
    | .error (.refused why) => .error (.refused (.field declared.1 why))
    | .error stop => .error stop

variable (structs : Structs n)

/-- A struct's layout while the structs of `active` are being laid out. -/
def layoutStruct : ℕ → List (Fin n) → Fin n → Except Stop Measured
  | 0, _, _ => .error .unfinished
  | fuel + 1, active, id =>
    if id ∈ active then .error (.refused .cycle)
    else do
      let placed ← (structs id).foldlM
        (layoutField (layoutWith canonical key model (layoutStruct fuel (id :: active)))) ⟨[], 0, 1⟩
      if placed.fields = [] then .error (.refused .empty)
      else .ok ⟨roundUp placed.cursor placed.alignment, placed.alignment, placed.fields⟩

def layoutType (fuel : ℕ) (active : List (Fin n)) : Ty n → Except Stop Measured :=
  layoutWith canonical key model (layoutStruct canonical key model structs fuel active)

example : layoutType canonical key model (fun _ : Fin 1 => [("a", some (.tagged .uint8)), ("b", some (.tagged .int32))])
    2 [] (.carray (.struct 0) (some 3)) = .ok ⟨24, 4, []⟩ := by
  simp [layoutType, layoutWith, layoutStruct, layoutField, Tag.layout, FIXED, Placement.add, scalar, roundUp, bind,
    Except.bind, pure, Except.pure]

example : layoutType canonical key model structs 0 [] (.union [.nil, .ptr] true) =
    .ok ⟨model.pointer.size, model.pointer.alignment, []⟩ := by
  simp [layoutType, layoutWith, layoutUnion, Tag.isPointer]

def Field.text (field : Field) : String :=
  field.name ++ "@" ++ toString field.offset ++ ":" ++ toString field.size ++ "/" ++ toString field.alignment

def fingerprint (measured : Measured) : String :=
  String.intercalate "|" ([key, "abi=" ++ toString ABI] ++ measured.fields.map Field.text ++
    ["size=" ++ toString measured.size ++ "/align=" ++ toString measured.alignment])

def report (measured : Measured) : Layout where
  target := key
  abi := ABI
  size := measured.size
  alignment := measured.alignment
  fields := measured.fields
  offsets := measured.fields.map fun field => (field.name, field.offset)
  fingerprint := fingerprint key measured

/-- `targetLayout.of`. -/
def layoutOf (t : Option (Ty n)) : Except Stop Layout :=
  match MODELS.lookup key with
  | none => .error (.refused (.target key))
  | some model =>
    match t with
    | none => .error (.refused .unresolved)
    | some t => do
      -- a struct is active once at most, so this fuel never runs out
      let measured ← layoutType canonical key model structs (n + 1) [] t
      .ok (report key measured)

end

end Nupp.targetLayout
