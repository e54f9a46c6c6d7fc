import Mathlib.Logic.Function.Basic
import Mathlib.Data.Int.Notation
import Mathlib.Data.List.Basic

/-! The framing of the language server (`nupp/tools/lsp/transport.nupp`): bytes arrive in
chunks and are cut into frames, and what each frame says is noted. Decoding a body is a
parameter. A byte is the character of its code. -/

namespace Nupp.lsp.transport

/-- A decoded JSON value. A member that is absent is nil; one that is null is not. -/
inductive Value (N : Type) where
  | null
  | boolean (value : Bool)
  | number (value : N)
  | string (value : List Char)
  | array (items : List (Value N))
  | object (members : List (List Char × Value N))

namespace Value

variable {N : Type}

def isTable : Value N → Bool
  | .array _ | .object _ => true
  | _ => false

def member (name : String) : Value N → Option (Value N)
  | .object members => members.lookup name.toList
  | _ => none

/-- Everything but nil and false counts as true. -/
def truthy : Option (Value N) → Bool
  | none | some (.boolean false) => false
  | _ => true

def isString (text : String) : Option (Value N) → Bool
  | some (.string value) => value == text.toList
  | _ => false

def isNull : Value N → Bool
  | .null => true
  | _ => false

end Value

def MAX_FRAME : ℕ := 64 * 1024 * 1024

section Cut

def blankLine : List Char := ['\r', '\n', '\r', '\n']

/-- The header before the first blank line, and what follows the blank line. -/
def findBlank : List Char → Option (List Char × List Char)
  | [] => none
  | c :: cs =>
    if blankLine <+: c :: cs then
      some ([], (c :: cs).drop 4)
    else
      (findBlank cs).map fun found => (c :: found.1, found.2)

def isSpace (c : Char) : Bool :=
  c == ' ' || c == '\t' || c == '\n' || c == '\x0b' || c == '\x0c' || c == '\r'

/-- The pattern `[Cc]ontent%-[Ll]ength:%s*(%d+)` at the front of a text. -/
def matchAt (text : List Char) : Option (List Char) :=
  match text with
  | first :: rest =>
    if first == 'C' || first == 'c' then
      match rest.dropPrefix? "ontent-".toList with
      | some rest =>
        match rest with
        | second :: rest =>
          if second == 'L' || second == 'l' then
            match rest.dropPrefix? "ength:".toList with
            | some rest =>
              let digits := (rest.dropWhile isSpace).takeWhile Char.isDigit
              if digits.isEmpty then none else some digits
            | none => none
          else
            none
        | [] => none
      | none => none
    else
      none
  | [] => none

def matchLength : List Char → Option (List Char)
  | [] => none
  | c :: cs =>
    match matchAt (c :: cs) with
    | some digits => some digits
    | none => matchLength cs

def tonumber (digits : List Char) : ℕ :=
  digits.foldl (fun n d => 10 * n + (d.toNat - 48)) 0

/-- A complete frame: one whose header names no length, or a body with the digits of the
length that its header declares. -/
inductive Piece where
  | headless
  | body (digits bytes : List Char)

inductive Cut where
  | incomplete
  | fatal (digits : List Char)
  | piece (piece : Piece) (rest : List Char)

/-- One frame off the front of the buffer, without decoding it. -/
def cut (tooLong : List Char → Bool) (buffered : List Char) : Cut :=
  match findBlank buffered with
  | none => .incomplete
  | some (header, rest) =>
    match matchLength header with
    | none => .piece .headless rest
    | some digits =>
      if tooLong digits then
        .fatal digits
      else if rest.length < tonumber digits then
        .incomplete
      else
        .piece (.body digits (rest.take (tonumber digits))) (rest.drop (tonumber digits))

end Cut

/-- `cancelled` has the ids in the order they were first recorded or recorded again. -/
structure Transport (N : Type) where
  buffered : List Char := []
  queued : List (Value N) := []
  cancelled : List (Value N) := []
  versions : List Char → Option N := fun _ => none

section Feed

variable {N : Type} [IntCast N] (decode : List Char → Option (Value N))
  (number : List Char → Option N) (greater : N → N → Bool)

def malformed (code : ℤ) (message : String) : Value N :=
  .object [("malformed".toList, .boolean true), ("code".toList, .number (code : N)),
    ("message".toList, .string message.toList)]

/-- The test that the code makes of a declared length. -/
def tooLong (digits : List Char) : Bool := digits.length > 12 || tonumber digits > MAX_FRAME

/-- What `frame` returns for a frame it consumed. -/
def frameValue : Piece → Value N
  | .headless => malformed (-32700) "frame has no Content-Length"
  | .body _ bytes =>
    match decode bytes with
    | none => malformed (-32700) "frame body is not JSON"
    | some message =>
      if !message.isTable || (message.member "method").isNone && (message.member "id").isNone then
        malformed (-32600) "frame body is not a request or notification"
      else
        message

/-- The version that a message names for a document. -/
def documentVersion (message : Value N) : Option (List Char × N) :=
  match (message.member "params").bind (Value.member "textDocument") with
  | some document =>
    let version :=
      match document.member "version" with
      | some (.number n) => some n
      | some (.string text) => number text
      | _ => none
    match version, document.member "uri" with
    | some version, some (.string uri) => some (uri, version)
    | _, _ => none
  | none => none

def recordVersion (versions : List Char → Option N) : Option (List Char × N) →
    List Char → Option N
  | none => versions
  | some (uri, version) =>
    match versions uri with
    | none => Function.update versions uri (some version)
    | some known =>
      if greater version known then Function.update versions uri (some version) else versions

def note (transport : Transport N) (message : Value N) : Transport N :=
  if Value.isString "$/cancelRequest" (message.member "method") then
    match (message.member "params").bind (Value.member "id") with
    | some id =>
      if id.isNull then transport
      else { transport with cancelled := transport.cancelled ++ [id] }
    | none => transport
  else
    { transport with
      versions := recordVersion greater transport.versions (documentVersion number message)
      queued := transport.queued ++ [message] }

def receive (transport : Transport N) (message : Value N) : Transport N :=
  if Value.truthy (message.member "malformed") then
    { transport with queued := transport.queued ++ [message] }
  else
    note number greater transport message

def fatalText (digits : List Char) : String :=
  "frame declares " ++ String.ofList digits ++ " bytes, more than the " ++ toString MAX_FRAME ++
    " a frame may hold"

/-- The loop of `feed`. A frame that is consumed is four bytes or more, so the length of the
buffer bounds the frames. -/
def feedLoop : ℕ → Transport N → Transport N × Option String
  | 0, transport => (transport, none)
  | frames + 1, transport =>
    match cut tooLong transport.buffered with
    | .incomplete => (transport, none)
    | .fatal digits => (transport, some (fatalText digits))
    | .piece piece rest =>
      feedLoop frames
        (receive number greater { transport with buffered := rest } (frameValue decode piece))

def feed (transport : Transport N) (chunk : List Char) : Transport N × Option String :=
  let buffered := transport.buffered ++ chunk
  feedLoop decode number greater (buffered.length + 1) { transport with buffered := buffered }

/-- Chunks fed one after another. -/
def feedAll (chunks : List (List Char)) : Transport N :=
  chunks.foldl (fun transport chunk => (feed decode number greater transport chunk).1) {}

end Feed

end Nupp.lsp.transport
