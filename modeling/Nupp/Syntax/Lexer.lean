import Nupp.Lib.Loop

/-! The lossless lexer of `syntax/lexer`. Positions count bytes from one, as they
do in the source; a loop is bounded by the length of the file. -/

namespace Nupp.Lexer

open Loop

abbrev Bytes := List UInt8

/-! Reading the source. -/

def byte (s : Bytes) : ℕ → Option UInt8
  | 0 => none
  | p + 1 => s[p]?

/-- The bytes from `i` to `j`, both included. -/
def sub (s : Bytes) (i j : ℕ) : Bytes := (s.take j).drop (i - 1)

/-- Where `pattern` first occurs at or after `start`. -/
def find (s pattern : Bytes) (start : ℕ) : Option ℕ :=
  (List.range' start (s.length + 1 - start)).find? fun i => pattern.isPrefixOf (s.drop (i - 1))

/-- The first position at or after `p` that does not hold a byte of the class. -/
def skipWhile (s : Bytes) (pred : UInt8 → Bool) (p : ℕ) : ℕ :=
  p + ((s.drop (p - 1)).takeWhile pred).length

def newline : Bytes := [10]

/-! Character classes. -/

def digitByte (c : UInt8) : Bool := 48 ≤ c && c ≤ 57

def nameStartByte (c : UInt8) : Bool := (97 ≤ c && c ≤ 122) || (65 ≤ c && c ≤ 90) || c = 95

def nameByte (c : UInt8) : Bool := nameStartByte c || digitByte c

def spaceByte (c : UInt8) : Bool := c = 32 || c = 9 || c = 13 || c = 10 || c = 11 || c = 12

def hexValue (digit : Option UInt8) : Option ℕ :=
  match digit with
  | none => none
  | some c =>
    if digitByte c then some (c.toNat - 48)
    else if 97 ≤ c && c ≤ 102 then some (c.toNat - 87)
    else if 65 ≤ c && c ≤ 70 then some (c.toNat - 55)
    else none

def isDigit (c : Option UInt8) : Bool := c.any digitByte

def isHex (c : Option UInt8) : Bool := (hexValue c).isSome

def isNameChar (c : Option UInt8) : Bool := c.any nameByte

/-! Escapes. -/

/-- The UTF-8 bytes of one code point. -/
def utf8Bytes (value : ℕ) : Bytes :=
  if value < 0x80 then [value.toUInt8]
  else if value < 0x800 then [(0xC0 + value / 0x40).toUInt8, (0x80 + value % 0x40).toUInt8]
  else if value < 0x10000 then
    [(0xE0 + value / 0x1000).toUInt8, (0x80 + value / 0x40 % 0x40).toUInt8,
      (0x80 + value % 0x40).toUInt8]
  else
    [(0xF0 + value / 0x40000).toUInt8, (0x80 + value / 0x1000 % 0x40).toUInt8,
      (0x80 + value / 0x40 % 0x40).toUInt8, (0x80 + value % 0x40).toUInt8]

def simpleEscapes : List (UInt8 × UInt8) :=
  [(97, 7), (98, 8), (102, 12), (110, 10), (114, 13), (116, 9), (118, 11), (92, 92), (34, 34), (39, 39)]

/-- An escape as it was read: the position after it, whether it is accepted, the last
position its message shows and the bytes it denotes. -/
structure Escape where
  after : ℕ
  valid : Bool
  shown : ℕ
  bytes : Option Bytes

def upTo (s : Bytes) (quote : UInt8) (p : ℕ) : ℕ :=
  match byte s p with
  | none => p - 1
  | some c => if c = quote || c = 10 || c = 13 then p - 1 else p

def decimalValue (digits : Bytes) : ℕ := digits.foldl (fun n c => n * 10 + (c.toNat - 48)) 0

def hexDigitsValue (digits : Bytes) : ℕ :=
  digits.foldl (fun n c => n * 16 + (hexValue (some c)).getD 0) 0

/-- The escape whose backslash is at `p`, in a string delimited by `quote`. -/
def decodeEscape (s : Bytes) (p : ℕ) (quote : UInt8) : Escape :=
  match byte s (p + 1) with
  | none => ⟨p + 1, true, p, some []⟩
  | some ch =>
    if ch = 10 || ch = 13 then
      match byte s (p + 2) with
      | some next =>
        if next ≠ ch && (next = 10 || next = 13) then ⟨p + 3, true, p, some [10]⟩
        else ⟨p + 2, true, p, some [10]⟩
      | none => ⟨p + 2, true, p, some [10]⟩
    else if ch = 122 then ⟨skipWhile s spaceByte (p + 2), true, p, some []⟩
    else if ch = 120 then
      match hexValue (byte s (p + 2)) with
      | none => ⟨p + 2, false, upTo s quote (p + 2), none⟩
      | some hi =>
        match hexValue (byte s (p + 3)) with
        | none => ⟨p + 3, false, upTo s quote (p + 3), none⟩
        | some lo => ⟨p + 4, true, p, some [(hi * 16 + lo).toUInt8]⟩
    else if ch = 117 then
      if byte s (p + 2) ≠ some 123 then ⟨p + 2, false, upTo s quote (p + 2), none⟩
      else
        let stop := skipWhile s (fun c => isHex (some c)) (p + 3)
        if byte s stop ≠ some 125 then ⟨stop, false, upTo s quote stop, none⟩
        else
          let value := hexDigitsValue (sub s (p + 3) (stop - 1))
          if p + 3 < stop ∧ value ≤ 0x10FFFF then ⟨stop + 1, true, stop, some (utf8Bytes value)⟩
          else ⟨stop + 1, false, stop, none⟩
    else if digitByte ch then
      let stop := min (skipWhile s digitByte (p + 1)) (p + 4)
      let value := decimalValue (sub s (p + 1) (stop - 1))
      if value ≤ 255 then ⟨stop, true, stop - 1, some [value.toUInt8]⟩
      else ⟨stop, false, stop - 1, none⟩
    else
      match simpleEscapes.lookup ch with
      | some b => ⟨p + 2, true, p, some [b]⟩
      | none => ⟨p + 2, false, p + 1, none⟩

/-- A long bracket that opens at `p`: the position after it, and whether it closes. -/
def scanLongBracket (s : Bytes) (p : ℕ) : Option (ℕ × Bool) :=
  if byte s p ≠ some 91 then none
  else
    let stop := skipWhile s (· = 61) (p + 1)
    if byte s stop ≠ some 91 then none
    else
      let close : Bytes := 93 :: List.replicate (stop - (p + 1)) 61 ++ [93]
      match find s close (stop + 1) with
      | none => some (s.length + 1, false)
      | some i => some (i + close.length, true)

/-! Numbers. Underscores are ignored after the first digit. -/

def skipUnderscores (s : Bytes) (p : ℕ) : ℕ := skipWhile s (· = 95) p

def digitsStep (s : Bytes) (pred : Option UInt8 → Bool) (st : ℕ × ℕ) : Option (ℕ × ℕ ⊕ ℕ × ℕ) :=
  if pred (byte s st.1) then some (.inl (skipUnderscores s (st.1 + 1), st.2 + 1)) else some (.inr st)

/-- The position after a run of digits, and how many there were. -/
def scanDigits (s : Bytes) (pred : Option UInt8 → Bool) (start : ℕ) : Option (ℕ × ℕ) :=
  loop (digitsStep s pred) (s.length + 2) (start, 0)

/-- The position after a fraction, its digits, and whether there was one. -/
def scanFraction (s : Bytes) (pred : Option UInt8 → Bool) (p : ℕ) : Option (ℕ × ℕ × Bool) :=
  if byte s p = some 46 ∧ byte s (p + 1) ≠ some 46 then
    (scanDigits s pred (skipUnderscores s (p + 1))).map fun (p, digits) => (p, digits, true)
  else some (p, 0, false)

/-- The position after an exponent, whether there was one, and whether it is well formed. -/
def scanExponent (s : Bytes) (lower upper : UInt8) (p : ℕ) : Option (ℕ × Bool × Bool) :=
  if byte s p = some lower ∨ byte s p = some upper then
    let p := skipUnderscores s (p + 1)
    let p := if byte s p = some 43 ∨ byte s p = some 45 then skipUnderscores s (p + 1) else p
    (scanDigits s isDigit p).map fun (stop, _) => (stop, true, isDigit (byte s p))
  else some (p, false, true)

def lowered (c : UInt8) : UInt8 := if 65 ≤ c && c ≤ 90 then c + 32 else c

/-- The position after a literal suffix, in any case. -/
def scanSuffix (s : Bytes) : Bytes → ℕ → Option ℕ
  | [], p => some p
  | w :: word, p =>
    if (byte s p).map lowered = some w then scanSuffix s word (skipUnderscores s (p + 1)) else none

/-- `LL` and `ULL` are refused on a numeral with a fraction or an exponent, and so is
a name character right after the number. -/
def finishNumber (s : Bytes) (p : ℕ) (fractional wellformed : Bool) : ℕ × Bool :=
  let integerSuffix := (scanSuffix s [117, 108, 108] p).or (scanSuffix s [108, 108] p)
  let wellformed := wellformed && !(integerSuffix.isSome && fractional)
  let p := (integerSuffix.or (scanSuffix s [105] p)).getD p
  if isNameChar (byte s p) then (skipWhile s nameByte (p + 1), false) else (p, wellformed)

/-- Hex digits, a fraction and a binary exponent, behind the radix marker. -/
def scanHexNumber (s : Bytes) (marker : ℕ) : Option (ℕ × Bool) := do
  let (p, digits) ← scanDigits s isHex (skipUnderscores s (marker + 1))
  let (p, more, fraction) ← scanFraction s isHex p
  let (p, exponent, ok) ← scanExponent s 112 80 p
  some (finishNumber s p (fraction || exponent) (digits + more ≠ 0 && ok))

/-- Digits, a fraction and an exponent; the number may start with its point. -/
def scanDecimalNumber (s : Bytes) (start : ℕ) : Option (ℕ × Bool) := do
  let point : Bool := byte s start = some 46
  let (p, _) ← scanDigits s isDigit (if point then start + 1 else start)
  let (p, _, fraction) ← scanFraction s isDigit p
  let (p, exponent, ok) ← scanExponent s 101 69 p
  some (finishNumber s p (point || fraction || exponent) ok)

def scanNumber (s : Bytes) (start : ℕ) : Option (ℕ × Bool) :=
  if byte s start = some 48 then
    let marker := skipUnderscores s (start + 1)
    if byte s marker = some 120 ∨ byte s marker = some 88 then scanHexNumber s marker
    else scanDecimalNumber s start
  else scanDecimalNumber s start

/-! Tokens, trivia and errors. -/

inductive TriviaKind
  | whitespace
  | comment
  | hashbang
  | bom

/-- One record of the trivia arena. -/
structure Trivia where
  kind : TriviaKind
  offset : ℕ
  length : ℕ
  line : ℕ
  col : ℕ

/-- A keyword and an operator are their own kind. -/
inductive Kind
  | name
  | number
  | string
  | istringOpen
  | istringMid
  | istringClose
  | error
  | eof
  | lexeme (text : Bytes)
  deriving DecidableEq

structure Token where
  kind : Kind
  text : Bytes
  offset : ℕ
  line : ℕ
  col : ℕ
  triviaFirst : ℕ
  triviaCount : ℕ

inductive Problem
  | unterminatedLongComment
  | unterminatedLongString
  | unterminatedString
  | unterminatedInterpolation
  | malformedNumber
  | invalidEscape (shown : Bytes)
  | unexpectedCharacter (c : UInt8)

structure LexError where
  offset : ℕ
  length : ℕ
  line : ℕ
  col : ℕ
  problem : Problem

def words (texts : List String) : List Bytes := texts.map fun w => w.toUTF8.toList

def keywords : List Bytes :=
  words ["and", "break", "do", "else", "elseif", "end", "false", "for", "function", "goto", "if",
    "in", "local", "nil", "not", "or", "repeat", "return", "then", "true", "until", "while"]

def ops4 : List Bytes := words ["~>>="]

def ops3 : List Bytes := words ["~>>", "...", "<<=", ">>=", "//=", "..=", "??="]

def ops2 : List Bytes :=
  words ["<<", ">>", "==", "~=", "<=", ">=", "?.", "::", "//", "..", "->", "??", "+=", "-=", "*=",
    "/=", "%=", "&=", "|=", "&&", "||", "!="]

def ops1 : List Bytes :=
  words ["+", "-", "*", "/", "%", "^", "#", "&", "~", "|", "<", ">", "=", "(", ")", "\x7b", "\x7d",
    "[", "]", ";", ":", ",", ".", "?", "@", "!"]

/-- The classic form of each customary operator. -/
def customary (kind : Kind) : Kind :=
  match kind with
  | .lexeme text =>
    match ([([33], "not"), ([38, 38], "and"), ([124, 124], "or"), ([33, 61], "~=")] :
        List (Bytes × String)).lookup text with
    | some classic => .lexeme classic.toUTF8.toList
    | none => kind
  | _ => kind

/-! The state of the lexer. The innermost interpolation comes first. -/

structure State where
  pos : ℕ
  line : ℕ
  lineStart : ℕ
  nextNewline : ℕ
  interp : List ℕ
  arena : List Trivia
  tokens : List Token
  errors : List LexError

def colOf (st : State) (offset : ℕ) : ℕ := offset - st.lineStart + 1

def newlineFrom (s : Bytes) (p : ℕ) : ℕ := (find s newline p).getD (s.length + 1)

def linesStep (s : Bytes) (endpos : ℕ) (st : State) : Option (State ⊕ State) :=
  if st.nextNewline < endpos then
    some (.inl { st with
      line := st.line + 1
      lineStart := st.nextNewline + 1
      nextNewline := newlineFrom s (st.nextNewline + 1) })
  else some (.inr st)

/-- Line accounting for everything consumed up to `endpos`. -/
def advanceLines (s : Bytes) (endpos : ℕ) (st : State) : Option State :=
  loop (linesStep s endpos) (s.length + 2) st

/-- Reports a problem that started at `offset` and ends at the cursor. -/
def addError (st : State) (offset line col : ℕ) (problem : Problem) : State :=
  { st with errors := st.errors ++ [⟨offset, max 1 (st.pos - offset), line, col, problem⟩] }

def bom : Bytes := [239, 187, 191]

/-- The trivia at the cursor, with the cursor moved behind it. -/
def scanTriviaItem (s : Bytes) (st : State) : Option (TriviaKind × State) :=
  if st.pos = 1 ∧ sub s 1 3 = bom then some (.bom, { st with pos := 4 })
  else if (st.pos = 1 ∨ st.pos = 4 ∧ sub s 1 3 = bom) ∧ sub s st.pos st.pos = [35] then
    match find s newline st.pos with
    | some nl => some (.hashbang, { st with pos := nl + 1 })
    | none => some (.hashbang, { st with pos := s.length + 1 })
  else if (byte s st.pos).any spaceByte then
    some (.whitespace, { st with pos := skipWhile s spaceByte (st.pos + 1) })
  else if byte s st.pos = some 45 ∧ byte s (st.pos + 1) = some 45 then
    match scanLongBracket s (st.pos + 2) with
    | some (after, true) => some (.comment, { st with pos := after })
    | some (_, false) =>
      some (.comment, addError { st with pos := s.length + 1 } st.pos st.line (colOf st st.pos)
        .unterminatedLongComment)
    | none => some (.comment, { st with pos := newlineFrom s (st.pos + 2) })
  else none

def triviaStep (s : Bytes) (x : State × ℕ) : Option (State × ℕ ⊕ State × ℕ) :=
  let (st, taken) := x
  if st.pos ≤ s.length then
    match scanTriviaItem s st with
    | none => some (.inr (st, taken))
    | some (kind, st') =>
      let item : Trivia := ⟨kind, st.pos, st'.pos - st.pos, st.line, colOf st st.pos⟩
      (advanceLines s st'.pos { st' with arena := st'.arena ++ [item] }).map
        fun st => .inl (st, taken + 1)
  else some (.inr (st, taken))

/-- Collects leading trivia into the arena, and counts what was taken. -/
def scanTrivia (s : Bytes) (st : State) : Option (State × ℕ) :=
  loop (triviaStep s) (s.length + 2) (st, 0)

/-- One byte or one escape of a short string, in which `st` is the state before it. -/
def shortStringStep (s : Bytes) (quote : UInt8) (st : State) (x : ℕ × List LexError) :
    Option (ℕ × List LexError ⊕ ℕ × Bool × List LexError) :=
  let (p, errors) := x
  if s.length < p then some (.inr (s.length + 1, false, errors))
  else if byte s p = some quote then some (.inr (p + 1, true, errors))
  else if byte s p = some 92 then
    let escape := decodeEscape s p quote
    let p' := min escape.after (s.length + 1)
    if escape.valid then some (.inl (p', errors))
    else
      (advanceLines s p st).map fun here =>
        .inl (p', errors ++ [⟨p, escape.shown - p + 1, here.line, p - here.lineStart + 1,
          .invalidEscape (sub s p escape.shown)⟩])
  else if byte s p = some 10 then some (.inr (p, false, errors))
  else some (.inl (p + 1, errors))

/-- A short string that opens at the cursor: the position after it, whether it is
terminated, and the errors with the refused escapes added. -/
def scanShortString (s : Bytes) (quote : UInt8) (st : State) : Option (ℕ × Bool × List LexError) :=
  loop (shortStringStep s quote st) (s.length + 2) (st.pos + 1, st.errors)

/-- How a segment of an interpolated string ends. -/
inductive SegmentEnd
  | closed
  | interpolation
  | unterminated

def segmentStep (s : Bytes) (p : ℕ) : Option (ℕ ⊕ ℕ × SegmentEnd) :=
  if s.length < p then some (.inr (p, .unterminated))
  else if byte s p = some 92 then some (.inl (min (p + 2) (s.length + 1)))
  else if byte s p = some 96 then some (.inr (p + 1, .closed))
  else if byte s p = some 36 ∧ byte s (p + 1) = some 123 then some (.inr (p + 2, .interpolation))
  else some (.inl (p + 1))

def scanSegment (s : Bytes) (start : ℕ) : Option (ℕ × SegmentEnd) :=
  loop (segmentStep s) (s.length + 2) start

/-- A segment of an interpolated string, from its backtick or from the brace that ends
an interpolation. -/
def scanIstring (s : Bytes) (opening : Bool) (st : State) : Option (Kind × State) :=
  (scanSegment s (st.pos + 1)).map fun (p, segmentEnd) =>
    match segmentEnd with
    | .closed =>
      if opening then (.string, { st with pos := p })
      else (.istringClose, { st with pos := p, interp := st.interp.tail })
    | .interpolation =>
      if opening then (.istringOpen, { st with pos := p, interp := 0 :: st.interp })
      else (.istringMid, { st with pos := p, interp := 0 :: st.interp.tail })
    | .unterminated =>
      let interp := if opening then st.interp else st.interp.tail
      (.error, addError { st with pos := p, interp := interp } st.pos st.line (colOf st st.pos)
        .unterminatedInterpolation)

local instance : LawfulBEq Bytes := inferInstance

/-- The longest operator at the cursor. -/
def matchOperator (s : Bytes) (p : ℕ) : Option Bytes :=
  let here (n : ℕ) (ops : List Bytes) : Option Bytes :=
    let text := sub s p (p + n - 1)
    if text.length = n ∧ text ∈ ops then some text else none
  (here 4 ops4).or ((here 3 ops3).or ((here 2 ops2).or (here 1 ops1)))

def wordKind (text : Bytes) : Kind := if text ∈ keywords then .lexeme text else .name

/-- The token at the cursor, which is inside the source: its kind, its text where the
scan already knows it, and the state behind it. -/
def scanToken (s : Bytes) (st : State) : Option (Kind × Option Bytes × State) :=
  let start := st.pos
  let report (st' : State) (problem : Problem) : State :=
    addError st' start st.line (colOf st start) problem
  let ch := byte s start
  if ch.any nameStartByte then
    let stop := skipWhile s nameByte (start + 1)
    let text := sub s start (stop - 1)
    some (wordKind text, some text, { st with pos := stop })
  else if isDigit ch ∨ ch = some 46 ∧ isDigit (byte s (start + 1)) then
    (scanNumber s start).map fun (stop, ok) =>
      let st' := { st with pos := stop }
      if ok then (.number, none, st') else (.error, none, report st' .malformedNumber)
  else if ch = some 34 ∨ ch = some 39 then
    (scanShortString s (ch.getD 0) st).map fun (stop, terminated, errors) =>
      let st' := { st with pos := stop, errors := errors }
      if terminated then (.string, none, st') else (.error, none, report st' .unterminatedString)
  else if ch = some 96 then
    (scanIstring s true st).map fun (kind, st') => (kind, none, st')
  else
    match ch, st.interp with
    | some 123, depth :: outer =>
      some (.lexeme [123], none, { st with pos := start + 1, interp := (depth + 1) :: outer })
    | some 125, 0 :: _ => (scanIstring s false st).map fun (kind, st') => (kind, none, st')
    | some 125, (depth + 1) :: outer =>
      some (.lexeme [125], none, { st with pos := start + 1, interp := depth :: outer })
    | some 91, _ =>
      match scanLongBracket s start with
      | some (after, true) => some (.string, none, { st with pos := after })
      | some (_, false) =>
        some (.error, none, report { st with pos := s.length + 1 } .unterminatedLongString)
      | none => some (.lexeme [91], none, { st with pos := start + 1 })
    | _, _ =>
      match matchOperator s start with
      | some text => some (.lexeme text, some text, { st with pos := start + text.length })
      | none =>
        some (.error, none, report { st with pos := start + 1 } (.unexpectedCharacter (ch.getD 0)))

/-- One token with its leading trivia, or the end of the file. -/
def lexStep (s : Bytes) (st : State) : Option (State ⊕ State) :=
  (scanTrivia s st).bind fun (st', taken) =>
    let first := st.arena.length + 1
    if s.length < st'.pos then
      let st'' := if st'.interp = [] then st'
        else addError st' st'.pos st'.line (colOf st' st'.pos) .unterminatedInterpolation
      some (.inr { st'' with tokens := st''.tokens ++
        [⟨.eof, [], st'.pos, st'.line, colOf st' st'.pos, first, taken⟩] })
    else
      (scanToken s st').bind fun (kind, text, st'') =>
        let token : Token := ⟨customary kind, text.getD (sub s st'.pos (st''.pos - 1)), st'.pos, st'.line,
          colOf st' st'.pos, first, taken⟩
        (advanceLines s st''.pos { st'' with tokens := st''.tokens ++ [token] }).map .inl

def State.initial (s : Bytes) : State :=
  { pos := 1, line := 1, lineStart := 1, nextNewline := newlineFrom s 1, interp := [], arena := [],
    tokens := [], errors := [] }

def lex (s : Bytes) : Option State := loop (lexStep s) (s.length + 2) (State.initial s)

/-! Text back out. -/

/-- The bytes of the trivia record `index`, which counts from one. -/
def triviaText (s : Bytes) (arena : List Trivia) (index : ℕ) : Option Bytes :=
  if index = 0 then none
  else arena[index - 1]?.map fun item => sub s item.offset (item.offset + item.length - 1)

/-- The bytes of `count` records from `first` on. -/
def triviaRun (s : Bytes) (arena : List Trivia) (first : ℕ) : ℕ → Option Bytes
  | 0 => some []
  | count + 1 => do
    let text ← triviaText s arena first
    let texts ← triviaRun s arena (first + 1) count
    some (text ++ texts)

/-- The source a token stream was read from. -/
def textOf (s : Bytes) (arena : List Trivia) : List Token → Option Bytes
  | [] => some []
  | token :: tokens => do
    let trivia ← triviaRun s arena token.triviaFirst token.triviaCount
    let texts ← textOf s arena tokens
    some (trivia ++ token.text ++ texts)

end Nupp.Lexer
