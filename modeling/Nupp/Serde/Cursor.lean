import Nupp.Lib.Json
import Nupp.Lib.Result

/-! The pull cursor over a JSON text (`nupp/serde/internal/json/syntax.nupp`). -/

namespace Nupp.JsonCursor

open Json Result

inductive Token where
  | null
  | boolean
  | number
  | string
  | object
  | array
deriving DecidableEq

inductive Kind where
  | object
  | array
deriving DecidableEq

inductive Phase where
  | first
  | value
  | after
deriving DecidableEq

structure Limits where
  tokenBytes : ℤ := 16777216
  aggregateEntries : ℤ := 1000000
  inputBytes : ℤ := 67108864

structure Frame where
  currentName : Option Bytes := none
  logicalName : Option Bytes := none
  kind : Kind
  phase : Phase
  names : List Bytes
  count : ℕ

structure Mark where
  depth : ℕ
  count : ℕ

/-- `frames` has the innermost frame first. -/
structure Cursor where
  input : Bytes
  position : ℕ
  frames : List Frame
  roots : ℕ
  tokens : ℕ
  maxDepth : ℤ
  maxTokens : ℤ
  limits : Limits
  closed : Bool

inductive Code where
  | syntaxCode
  | limit
deriving DecidableEq

/-- What ends a call early. `outOfFuel` is no outcome of the source: it marks a run that was given too few
steps. -/
inductive Raised where
  | failure (code : Code) (message path : Bytes) (byte : ℕ)
  | assertion (message : String)
  | plain (message : String)
  | outOfFuel

/-- The part of the value codec that the cursor calls: the string that `decode` reads in a text, if it reads
one, with its message, and the text `encode` gives a string. -/
structure Codec where
  decode : Bytes → Option Bytes × Option Bytes
  encode : Bytes → Bytes

def text (s : String) : Bytes := s.toUTF8.toList

/-- `s:byte(i)`, with `none` for nil. -/
def byteAt (s : Bytes) (i : ℕ) : Option UInt8 := if i = 0 then none else s[i - 1]?

/-- `s:sub(i, j)` for positive `i`. -/
def sub (s : Bytes) (i j : ℕ) : Bytes := (s.drop (i - 1)).take (j + 1 - i)

/-- `s:sub(i)` for positive `i`. -/
def suffixAt (s : Bytes) (i : ℕ) : Bytes := s.drop (i - 1)

section

variable (codec : Codec)

def segment (frame : Frame) : Bytes :=
  match frame.kind, frame.currentName with
  | .object, some name => text "[" ++ codec.encode (frame.logicalName.getD name) ++ text "]"
  | .object, none => []
  | .array, _ =>
    if frame.phase = .first then []
    else
      let index := if frame.phase = .after then frame.count else frame.count + 1
      text "[" ++ Decimal.numeral index ++ text "]"

def path (c : Cursor) : Bytes := text "$" ++ (c.frames.reverse.map (segment codec)).flatten

def selectMember (c : Cursor) (name : Bytes) : Except Raised Cursor :=
  match c.frames with
  | frame :: frames =>
    if frame.kind = .object then .ok { c with frames := { frame with logicalName := some name } :: frames }
    else .error (.assertion "member outside object")
  | [] => .error (.assertion "member outside object")

def offset (c : Cursor) : ℕ := c.position

def fail {α : Type} (c : Cursor) (message : Bytes) (code : Code) : Except Raised α :=
  .error (.failure code message (path codec c) c.position)

def spaces : Bytes → ℕ
  | [] => 0
  | byte :: rest => if byte ≠ 32 ∧ byte ≠ 9 ∧ byte ≠ 10 ∧ byte ≠ 13 then 0 else spaces rest + 1

def space (c : Cursor) : Except Raised Cursor :=
  if c.closed then fail codec c (text "reader is closed") .syntaxCode
  else .ok { c with position := c.position + spaces (suffixAt c.input c.position) }

def token : Option UInt8 → Option Token
  | some byte =>
    if byte = 110 then some .null
    else if byte = 116 ∨ byte = 102 then some .boolean
    else if byte = 34 then some .string
    else if byte = 123 then some .object
    else if byte = 91 then some .array
    else if byte = 45 ∨ 48 ≤ byte.toNat ∧ byte.toNat ≤ 57 then some .number
    else none
  | none => none

def peek (c : Cursor) : Except Raised (Token × Cursor) := do
  let c ← space codec c
  match token (byteAt c.input c.position) with
  | some token => .ok (token, c)
  | none => fail codec c (text "expected a value") .syntaxCode

def expectValue (c : Cursor) : Except Raised Unit :=
  match c.frames with
  | frame :: _ =>
    if frame.phase = .value then .ok () else .error (.assertion "JSON value is not expected here")
  | [] =>
    if c.roots ≠ 0 then fail codec c (text "more than one root value") .syntaxCode else .ok ()

def beginValue (c : Cursor) : Except Raised Cursor := do
  let c ← space codec c
  expectValue codec c
  let c := { c with tokens := c.tokens + 1 }
  if (c.tokens : ℤ) > c.maxTokens then fail codec c (text "token limit exceeded") .limit else .ok c

def finishRoot (c : Cursor) : Except Raised Cursor := do
  let c ← space codec { c with roots := c.roots + 1 }
  if c.position ≤ c.input.length then fail codec c (text "trailing input") .syntaxCode else .ok c

def finishValue (c : Cursor) : Except Raised Cursor :=
  match c.frames with
  | [] => finishRoot codec c
  | frame :: frames =>
    .ok { c with frames := { frame with phase := .after, count := frame.count + 1 } :: frames }

def misplaced (byte : UInt8) : Bool :=
  byte ≠ 32 && byte ≠ 9 && byte ≠ 10 && byte ≠ 13 && byte ≠ 44 && byte ≠ 93 && byte ≠ 125

def endScalar (c : Cursor) : Except Raised Cursor :=
  if (byteAt c.input c.position).any misplaced then
    fail codec c (text "invalid value boundary") .syntaxCode
  else finishValue codec c

def literal (c : Cursor) (word : Bytes) : Except Raised Cursor := do
  let c ← beginValue codec c
  if (word.length : ℤ) > c.limits.tokenBytes then
    fail codec c (text "literal token limit exceeded") .limit
  else if sub c.input c.position (c.position + word.length - 1) ≠ word then
    fail codec c (text "expected " ++ word) .syntaxCode
  else endScalar codec { c with position := c.position + word.length }

def readNull (c : Cursor) : Except Raised Cursor := literal codec c nullText

def readBoolean (c : Cursor) : Except Raised (Bool × Cursor) := do
  let c ← space codec c
  if sub c.input c.position c.position = [116] then
    let c ← literal codec c trueText
    return (true, c)
  else
    let c ← literal codec c falseText
    return (false, c)

inductive Scan where
  | closed (position : ℕ)
  | tooLong
  | unterminated

/-- The loop of `stringToken` over the bytes from `position` on. -/
def scanString (tokenBytes : ℤ) (start : ℕ) : Bytes → ℕ → Scan
  | [], _ => .unterminated
  | [byte], position =>
    if ((position - start + 1 : ℕ) : ℤ) > tokenBytes then .tooLong
    else if byte = 34 then .closed position
    else .unterminated
  | byte :: next :: rest, position =>
    if ((position - start + 1 : ℕ) : ℤ) > tokenBytes then .tooLong
    else if byte = 34 then .closed position
    else if byte = 92 then scanString tokenBytes start rest (position + 2)
    else scanString tokenBytes start (next :: rest) (position + 1)

def stringToken (c : Cursor) : Except Raised (Bytes × Cursor) := do
  let c ← space codec c
  let start := c.position
  if byteAt c.input start ≠ some 34 then
    fail codec c (text "expected string") .syntaxCode
  else
    match scanString c.limits.tokenBytes start (suffixAt c.input (start + 1)) (start + 1) with
    | .tooLong => fail codec c (text "string token limit exceeded") .limit
    | .unterminated => fail codec c (text "unterminated string") .syntaxCode
    | .closed position =>
      match codec.decode (sub c.input start position) with
      | (some value, _) => .ok (value, { c with position := position + 1 })
      | (none, message) => fail codec c (message.getD (text "invalid string")) .syntaxCode

def readString (c : Cursor) : Except Raised (Bytes × Cursor) := do
  let c ← beginValue codec c
  let (result, c) ← stringToken codec c
  let c ← endScalar codec c
  return (result, c)

def digits : Bytes → ℕ
  | [] => 0
  | byte :: rest => if 48 ≤ byte.toNat ∧ byte.toNat ≤ 57 then digits rest + 1 else 0

def integerEnd (c : Cursor) (position : ℕ) : Except Raised ℕ :=
  match byteAt c.input position with
  | some byte =>
    if byte = 48 then .ok (position + 1)
    else if 49 ≤ byte.toNat ∧ byte.toNat ≤ 57 then .ok (position + 1 + digits (suffixAt c.input (position + 1)))
    else fail codec c (text "expected integer part") .syntaxCode
  | none => fail codec c (text "expected integer part") .syntaxCode

def fractionEnd (c : Cursor) (position : ℕ) : Except Raised ℕ :=
  if byteAt c.input position = some 46 then
    let first := position + 1
    let position := first + digits (suffixAt c.input first)
    if position = first then fail codec c (text "expected fraction digits") .syntaxCode else .ok position
  else .ok position

def exponentEnd (c : Cursor) (position : ℕ) : Except Raised ℕ :=
  let byte := byteAt c.input position
  if byte = some 69 ∨ byte = some 101 then
    let position := position + 1
    let byte := byteAt c.input position
    let first := if byte = some 43 ∨ byte = some 45 then position + 1 else position
    let position := first + digits (suffixAt c.input first)
    if position = first then fail codec c (text "expected exponent digits") .syntaxCode else .ok position
  else .ok position

def numberEnd (c : Cursor) (start : ℕ) : Except Raised ℕ := do
  let position := if byteAt c.input start = some 45 then start + 1 else start
  let position ← integerEnd codec c position
  let position ← fractionEnd codec c position
  exponentEnd codec c position

def readNumber (c : Cursor) : Except Raised (Bytes × Cursor) := do
  let c ← beginValue codec c
  let start := c.position
  let position ← numberEnd codec c start
  if ((position - start : ℕ) : ℤ) > c.limits.tokenBytes then
    fail codec c (text "number token limit exceeded") .limit
  else
    let c' ← endScalar codec { c with position := position }
    return (sub c.input start (position - 1), c')

def kindText : Kind → Bytes
  | .object => text "object"
  | .array => text "array"

def opening : Kind → UInt8
  | .object => 123
  | .array => 91

def closingByte : Kind → UInt8
  | .object => 125
  | .array => 93

def start (c : Cursor) (kind : Kind) : Except Raised Cursor := do
  let c ← beginValue codec c
  if byteAt c.input c.position ≠ some (opening kind) then
    fail codec c (text "expected " ++ kindText kind) .syntaxCode
  else if (c.frames.length : ℤ) ≥ c.maxDepth then
    fail codec c (text "nesting limit exceeded") .limit
  else
    .ok { c with
      position := c.position + 1
      frames := { kind := kind, phase := .first, names := [], count := 0 } :: c.frames }

/-- The separator before a value that is not the first of its container. -/
def separator (c : Cursor) (frame : Frame) (frames : List Frame) (kind : Kind) : Except Raised Cursor :=
  if frame.phase = .after then do
    if byteAt c.input c.position ≠ some 44 then
      fail codec c (text "expected comma or container end") .syntaxCode
    else
      let c ← space codec { c with position := c.position + 1 }
      let c := { c with frames := { frame with phase := .value } :: frames }
      if byteAt c.input c.position = some (closingByte kind) then
        fail codec c (text "trailing comma") .syntaxCode
      else .ok c
  else .ok c

/-- `next` in the innermost frame. -/
def nextIn (c : Cursor) (frame : Frame) (frames : List Frame) (kind : Kind) : Except Raised (Bool × Cursor) :=
  if frame.kind ≠ kind then
    fail codec c (text "wrong container") .syntaxCode
  else if frame.phase = .value then
    .error (.assertion "previous JSON value was not consumed")
  else
    let frame := { frame with currentName := none, logicalName := none }
    let c := { c with frames := frame :: frames }
    if byteAt c.input c.position = some (closingByte kind) then do
      let c ← finishValue codec { c with position := c.position + 1, frames := frames }
      return (false, c)
    else do
      let c ← separator codec c frame frames kind
      if (frame.count : ℤ) ≥ c.limits.aggregateEntries then
        fail codec c (text "aggregate entry limit exceeded") .limit
      else return (true, { c with frames := { frame with phase := .value } :: frames })

def next (c : Cursor) (kind : Kind) : Except Raised (Bool × Cursor) := do
  let c ← space codec c
  match c.frames with
  | [] => fail codec c (text "wrong container") .syntaxCode
  | frame :: frames => nextIn codec c frame frames kind

/-- The name is entered in the innermost frame, once. -/
def enterName (c : Cursor) (name : Bytes) : Except Raised Cursor :=
  match c.frames with
  | [] => .error (.assertion "attempt to index a nil value")
  | frame :: frames =>
    let frame := { frame with currentName := some name }
    if name ∈ frame.names then
      fail codec { c with frames := frame :: frames } (text "duplicate member " ++ name) .syntaxCode
    else .ok { c with frames := { frame with names := name :: frame.names } :: frames }

def nextKey (c : Cursor) : Except Raised (Option Bytes × Cursor) := do
  let (more, c) ← next codec c .object
  if more then
    let (name, c) ← stringToken codec c
    let c ← enterName codec c name
    let c ← space codec c
    if byteAt c.input c.position ≠ some 58 then
      fail codec c (text "expected colon") .syntaxCode
    else return (some name, { c with position := c.position + 1 })
  else return (none, c)

def nextElement (c : Cursor) : Except Raised (Bool × Cursor) := next codec c .array

mutual
def skipValue : ℕ → Cursor → Except Raised Cursor
  | 0, _ => .error .outOfFuel
  | fuel + 1, c => do
    let (token, c) ← peek codec c
    match token with
    | .null => readNull codec c
    | .boolean =>
      let (_, c) ← readBoolean codec c
      return c
    | .number =>
      let (_, c) ← readNumber codec c
      return c
    | .string =>
      let (_, c) ← readString codec c
      return c
    | .object =>
      let c ← start codec c .object
      skipMembers fuel c
    | .array =>
      let c ← start codec c .array
      skipElements fuel c

/-- `while self:nextKey() ~= nil do self:skipValue() end` -/
def skipMembers : ℕ → Cursor → Except Raised Cursor
  | 0, _ => .error .outOfFuel
  | fuel + 1, c => do
    let (name, c) ← nextKey codec c
    match name with
    | none => return c
    | some _ =>
      let c ← skipValue fuel c
      skipMembers fuel c

/-- `while self:nextElement() do self:skipValue() end` -/
def skipElements : ℕ → Cursor → Except Raised Cursor
  | 0, _ => .error .outOfFuel
  | fuel + 1, c => do
    let (more, c) ← nextElement codec c
    if more then
      let c ← skipValue fuel c
      skipElements fuel c
    else return c
end

def mark (c : Cursor) : Mark where
  depth := c.frames.length
  count := match c.frames with
    | frame :: _ => frame.count
    | [] => c.roots

def consumed (c : Cursor) (before : Mark) : Except Raised Cursor :=
  let now := mark c
  if now.depth ≠ before.depth ∨ now.count ≠ before.count + 1 ∨ ∃ frame ∈ c.frames.head?, frame.phase ≠ .after then
    fail codec c (text "callback must consume exactly one value") .syntaxCode
  else .ok c

def finish (c : Cursor) : Except Raised Cursor := do
  let c ← space codec c
  if c.frames.length ≠ 0 ∨ c.roots ≠ 1 then
    fail codec c (text "incomplete root value") .syntaxCode
  else if c.position ≤ c.input.length then
    fail codec c (text "trailing input") .syntaxCode
  else .ok { c with closed := true }

end

def reader (input : Bytes) (maxDepth maxTokens : Option ℤ) (limits : Option Limits) : Except Raised Cursor :=
  let depth := maxDepth.getD 128
  let tokens := maxTokens.getD 1000000
  let bounds := limits.getD {}
  if ¬(bounds.tokenBytes ≥ 1 ∧ bounds.aggregateEntries ≥ 1 ∧ bounds.inputBytes ≥ 1) then
    .error (.assertion "JSON limits must be positive")
  else if (input.length : ℤ) > bounds.inputBytes then
    .error (.failure .limit (text "input byte limit exceeded") (text "$") 1)
  else if depth < 1 ∨ depth > 1024 ∨ tokens < 1 then
    .error (.plain "JSON limits require depth 1..1024 and a positive token budget")
  else
    .ok {
      input := input
      position := 1
      frames := []
      roots := 0
      tokens := 0
      maxDepth := depth
      maxTokens := tokens
      limits := bounds
      closed := false }

end Nupp.JsonCursor
