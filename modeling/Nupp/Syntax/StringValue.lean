import Nupp.Syntax.Lexer

/-! The decoder of `syntax/lexer`: the bytes a short literal or an uninterpolated
backtick string denotes. -/

namespace Nupp.Lexer

open Loop

/-- The substitution of `quoteBacktickBody`, which takes a backslash with the byte after it. -/
def gsubBody : Bytes → Bytes
  | [] => []
  | 92 :: char :: body =>
    (if char = 96 ∨ char = 36 then [char] else [92, char]) ++ gsubBody body
  | char :: body =>
    (if char = 34 then [92, 34] else if char = 10 then [92, 110] else [char]) ++ gsubBody body

def quoteBacktickBody (body : Bytes) : Bytes := [34] ++ gsubBody body ++ [34]

/-- The short literal to decode, which a backtick string is first turned into. -/
def quotedForm (text : Bytes) : Option Bytes :=
  if byte text 1 = some 34 ∨ byte text 1 = some 39 then some text
  else if byte text 1 = some 96 ∧ 2 ≤ text.length ∧ byte text text.length = some 96 then
    some (quoteBacktickBody (sub text 2 (text.length - 1)))
  else none

/-- The cursor, where the run of plain bytes before it starts, and the parts so far. -/
structure Decoding where
  p : ℕ
  start : ℕ
  parts : List Bytes

/-- The parts with the plain bytes from `start` up to `stop`. -/
def Decoding.flush (q : Bytes) (x : Decoding) (stop : ℕ) : List Bytes :=
  if x.start < stop then x.parts ++ [sub q x.start (stop - 1)] else x.parts

def valueStep (q : Bytes) (quote : UInt8) (x : Decoding) : Option (Decoding ⊕ Option Bytes) :=
  if x.p < q.length then
    if byte q x.p = some 92 then
      let escape := decodeEscape q x.p quote
      match escape.bytes with
      | none => some (.inr none)
      | some bytes =>
        if escape.valid = false ∨ q.length < escape.after then some (.inr none)
        else some (.inl ⟨escape.after, escape.after, x.flush q x.p ++ [bytes]⟩)
    else if byte q x.p = some quote ∨ byte q x.p = some 10 ∨ byte q x.p = some 13 then
      some (.inr none)
    else some (.inl { x with p := x.p + 1 })
  else if x.p ≠ q.length then some (.inr none)
  else some (.inr (some (x.flush q q.length).flatten))

def stringValue (text : Bytes) : Option Bytes := do
  let q ← quotedForm text
  let quote ← byte q 1
  if q.length < 2 ∨ byte q q.length ≠ some quote then none
  else (loop (valueStep q quote) (q.length + 1) ⟨2, 2, []⟩).join

end Nupp.Lexer
