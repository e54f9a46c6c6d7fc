import Mathlib.Logic.Function.Basic
import Nupp.Digest.Standard
import Nupp.Lib.Loop

/-! The one-shot digest (`digest/internal/sha256`). Lengths and cursors are `uint32` numbers,
the words of the compression are their thirty-two bits, and a scratch buffer is a function of
its indices that is zero at first. -/

namespace Nupp.digest

open Standard (Byte Word Hash)

section Words

/-- `math.u32`. -/
def u32 (value : ℕ) : ℕ := value % 2 ^ 32
def u32add (a b : ℕ) : ℕ := (a + b) % 2 ^ 32
def u32sub (a b : ℕ) : ℕ := (a + 2 ^ 32 - b) % 2 ^ 32
def u32mul (a b : ℕ) : ℕ := a * b % 2 ^ 32
def andbits (a b : ℕ) : ℕ := a &&& b
def shiftleft (a count : ℕ) : ℕ := a * 2 ^ count % 2 ^ 32
def shiftrightlogical (a count : ℕ) : ℕ := a / 2 ^ count

def add (a b : Word) : Word := a + b

def rotateRight (value : Word) (right left : ℕ) : Word := (value >>> right) ||| (value <<< left)

def smallSigmaZero (word : Word) : Word :=
  rotateRight word 7 25 ^^^ rotateRight word 18 14 ^^^ (word >>> 3)

def smallSigmaOne (word : Word) : Word :=
  rotateRight word 17 15 ^^^ rotateRight word 19 13 ^^^ (word >>> 10)

def bigSigmaZero (a : Word) : Word :=
  rotateRight a 2 30 ^^^ rotateRight a 13 19 ^^^ rotateRight a 22 10

def bigSigmaOne (e : Word) : Word :=
  rotateRight e 6 26 ^^^ rotateRight e 11 21 ^^^ rotateRight e 25 7

def choose (e f g : Word) : Word := (e &&& f) ^^^ (~~~e &&& g)

def majority (a b c : Word) : Word := (a &&& b) ^^^ (a &&& c) ^^^ (b &&& c)

def hexDigit (nibble : ℕ) : ℕ :=
  u32add (u32add nibble 48) (u32mul (shiftrightlogical (u32add nibble 6) 4) 39)

def bigEndianWord (word : Word) : Word :=
  (word <<< 24) ||| ((word &&& 0x0000FF00) <<< 8) ||| ((word >>> 8) &&& 0x0000FF00) |||
    ((word >>> 24) &&& 0x000000FF)

end Words

/-- The round constants, each with its least significant byte first. -/
def ROUND_CONSTANTS : List Byte :=
  [152, 47, 138, 66, 145, 68, 55, 113, 207, 251, 192, 181, 165, 219, 181, 233,
   91, 194, 86, 57, 241, 17, 241, 89, 164, 130, 63, 146, 213, 94, 28, 171,
   152, 170, 7, 216, 1, 91, 131, 18, 190, 133, 49, 36, 195, 125, 12, 85,
   116, 93, 190, 114, 254, 177, 222, 128, 167, 6, 220, 155, 116, 241, 155, 193,
   193, 105, 155, 228, 134, 71, 190, 239, 198, 157, 193, 15, 204, 161, 12, 36,
   111, 44, 233, 45, 170, 132, 116, 74, 220, 169, 176, 92, 218, 136, 249, 118,
   82, 81, 62, 152, 109, 198, 49, 168, 200, 39, 3, 176, 199, 127, 89, 191,
   243, 11, 224, 198, 71, 145, 167, 213, 81, 99, 202, 6, 103, 41, 41, 20,
   133, 10, 183, 39, 56, 33, 27, 46, 252, 109, 44, 77, 19, 13, 56, 83,
   84, 115, 10, 101, 187, 10, 106, 118, 46, 201, 194, 129, 133, 44, 114, 146,
   161, 232, 191, 162, 75, 102, 26, 168, 112, 139, 75, 194, 163, 81, 108, 199,
   25, 232, 146, 209, 36, 6, 153, 214, 133, 53, 14, 244, 112, 160, 106, 16,
   22, 193, 164, 25, 8, 108, 55, 30, 76, 119, 72, 39, 181, 188, 176, 52,
   179, 12, 28, 57, 74, 170, 216, 78, 79, 202, 156, 91, 243, 111, 46, 104,
   238, 130, 143, 116, 111, 99, 165, 120, 20, 120, 200, 132, 8, 2, 199, 140,
   250, 255, 190, 144, 235, 108, 80, 164, 247, 163, 249, 190, 242, 120, 113, 198]

section Buffers

/-- `valuebuilder.byte` and `valuebuilder.word`, which reads four bytes as the host does, the
first the least significant. -/
def byte (source : List Byte) (index : ℕ) : ℕ := (source.getD index 0).toNat

def word (source : List Byte) (index : ℕ) : Word :=
  source.getD (4 * index + 3) 0 ++ source.getD (4 * index + 2) 0 ++
    source.getD (4 * index + 1) 0 ++ source.getD (4 * index) 0

/-- `setscratchbyte`, which stores a number as a byte. -/
def setscratchbyte (scratch : ℕ → Byte) (index value : ℕ) : ℕ → Byte :=
  Function.update scratch index (BitVec.ofNat 8 value)

end Buffers

section Tail

def lengthRest (length : ℕ) : ℕ := andbits length 63

def lengthWhole (length : ℕ) : ℕ := u32sub length (lengthRest length)

/-- Where the length goes. -/
def upTo (rest : ℕ) : ℕ := if 56 ≤ rest then 120 else 56

/-- The final block, and the one before it when the length no longer fits. -/
def buildTail (source : List Byte) : ℕ → Byte :=
  let length := source.length
  let rest := lengthRest length
  let whole := lengthWhole length
  let tail : ℕ → Byte := fun _ => 0
  let tail := rest.fold (fun carrying _ tail =>
    setscratchbyte tail carrying (byte source (u32add whole carrying))) tail
  let tail := setscratchbyte tail rest 0x80
  let high := shiftrightlogical length 29
  let low := shiftleft length 3
  Nat.fold 4 (fun counting _ tail =>
    let shift := u32sub 24 (shiftleft counting 3)
    let tail := setscratchbyte tail (u32add (upTo rest) counting)
      (andbits (shiftrightlogical high shift) 255)
    setscratchbyte tail (u32add (u32add (upTo rest) 4) counting)
      (andbits (shiftrightlogical low shift) 255)) tail

end Tail

section Block

/-- The sixteen words of the block at an offset, out of the message or out of the tail. -/
def loadBlock (source : List Byte) (whole : ℕ) (tail : ℕ → Byte) (offset : ℕ)
    (schedule : ℕ → Word) : ℕ → Word :=
  if offset < whole then
    Nat.fold 16 (fun index _ schedule =>
      let reading := u32add (shiftrightlogical offset 2) index
      Function.update schedule index (bigEndianWord (word source reading))) schedule
  else
    let base := u32sub offset whole
    Nat.fold 16 (fun index _ schedule =>
      let within := u32add base (shiftleft index 2)
      Function.update schedule index
        (((tail within).setWidth 32 <<< 24) ||| ((tail (u32add within 1)).setWidth 32 <<< 16) |||
          ((tail (u32add within 2)).setWidth 32 <<< 8) |||
          (tail (u32add within 3)).setWidth 32)) schedule

def extend (schedule : ℕ → Word) : ℕ → Word :=
  Nat.fold 48 (fun i _ schedule =>
    let extending := i + 16
    Function.update schedule extending
      (add (add (schedule (extending - 16)) (smallSigmaZero (schedule (extending - 15))))
        (add (schedule (extending - 7)) (smallSigmaOne (schedule (extending - 2)))))) schedule

def runRounds (schedule : ℕ → Word) (locals : Hash) : Hash :=
  Nat.fold 64 (fun round _ s =>
    let first := add (add s.h (bigSigmaOne s.e))
      (add (add (choose s.e s.f s.g) (word ROUND_CONSTANTS round)) (schedule round))
    let second := add (bigSigmaZero s.a) (majority s.a s.b s.c)
    { h := s.g, g := s.f, f := s.e, e := add s.d first,
      d := s.c, c := s.b, b := s.a, a := add first second }) locals

def addHash (h s : Hash) : Hash :=
  { a := add h.a s.a, b := add h.b s.b, c := add h.c s.c, d := add h.d s.d,
    e := add h.e s.e, f := add h.f s.f, g := add h.g s.g, h := add h.h s.h }

/-- The state between two blocks. -/
structure Running where
  offset : ℕ
  h : Hash
  schedule : ℕ → Word

/-- One turn of the loop over the blocks. -/
def turn (source : List Byte) (whole total : ℕ) (tail : ℕ → Byte) (s : Running) :
    Option (Running ⊕ Hash) :=
  if s.offset < total then
    let schedule := extend (loadBlock source whole tail s.offset s.schedule)
    some (.inl ⟨u32add s.offset 64, addHash s.h (runRounds schedule s.h), schedule⟩)
  else
    some (.inr s.h)

def initial : Hash :=
  { a := 0x6a09e667, b := 0xbb67ae85, c := 0x3c6ef372, d := 0xa54ff53a,
    e := 0x510e527f, f := 0x9b05688c, g := 0x1f83d9ab, h := 0x5be0cd19 }

end Block

section Publish

/-- The digits of the eight words, eight a word. -/
def hexDigits (h : Hash) : ℕ → Byte :=
  let schedule : ℕ → ℕ := fun index => (h.words.getD index 0).toNat
  Nat.fold 8 (fun word _ scratch =>
    let value := schedule word
    Nat.fold 8 (fun nibble _ scratch =>
      setscratchbyte scratch (u32add (shiftleft word 3) nibble)
        (hexDigit (andbits (shiftrightlogical value (u32sub 28 (shiftleft nibble 2))) 15)))
      scratch) fun _ => 0

/-- The string of the first sixty-four bytes of the scratch. `turns` bounds the turns of the
loop. -/
def digestHex (turns : ℕ) (source : List Byte) : Option (List Char) :=
  let length := source.length
  let whole := lengthWhole length
  let tail := buildTail source
  let total := u32add whole (u32add (upTo (lengthRest length)) 8)
  match Loop.loop (turn source whole total tail) turns ⟨0, initial, fun _ => 0⟩ with
  | none => none
  | some h => some ((List.range 64).map fun i => Char.ofNat (hexDigits h i).toNat)

def sha256 (turns : ℕ) (value : List Byte) : Option (Except String (List Char)) :=
  if 0x7FFFFFFF < value.length then
    some (.error "nupp: SHA-256 input is too long")
  else
    (digestHex turns value).map .ok

end Publish

end Nupp.digest
