import Mathlib.Data.Int.Notation
import Mathlib.Logic.Function.Basic
import Nupp.Digest.Standard

/-! The streaming hasher (`digest/internal/streaming`). A table of the code is a function of
its indices, which begin at one, and an `int32` or a `uint32` is its thirty-two bits. -/

namespace Nupp.streaming

open Standard (Byte Word Hash)

def ROUND_CONSTANTS : List ℕ :=
  [0x428A2F98, 0x71374491, 0xB5C0FBCF, 0xE9B5DBA5, 0x3956C25B, 0x59F111F1, 0x923F82A4, 0xAB1C5ED5,
   0xD807AA98, 0x12835B01, 0x243185BE, 0x550C7DC3, 0x72BE5D74, 0x80DEB1FE, 0x9BDC06A7, 0xC19BF174,
   0xE49B69C1, 0xEFBE4786, 0x0FC19DC6, 0x240CA1CC, 0x2DE92C6F, 0x4A7484AA, 0x5CB0A9DC, 0x76F988DA,
   0x983E5152, 0xA831C66D, 0xB00327C8, 0xBF597FC7, 0xC6E00BF3, 0xD5A79147, 0x06CA6351, 0x14292967,
   0x27B70A85, 0x2E1B2138, 0x4D2C6DFC, 0x53380D13, 0x650A7354, 0x766A0ABB, 0x81C2C92E, 0x92722C85,
   0xA2BFE8A1, 0xA81A664B, 0xC24B8B70, 0xC76C51A3, 0xD192E819, 0xD6990624, 0xF40E3585, 0x106AA070,
   0x19A4C116, 0x1E376C08, 0x2748774C, 0x34B0BCB5, 0x391C0CB3, 0x4ED8AA4A, 0x5B9CCA4F, 0x682E6FF3,
   0x748F82EE, 0x78A5636F, 0x84C87814, 0x8CC70208, 0x90BEFFFA, 0xA4506CEB, 0xBEF9A3F7, 0xC67178F2]

section Words

def i32 (value : ℕ) : Word := BitVec.ofNat 32 value
def add (a b : Word) : Word := a + b
def xor (a b : Word) : Word := a ^^^ b
def logicalRight (value : Word) (count : ℕ) : Word := value >>> count

/-- `math.i32.rotateright`. -/
def rotateRight (value : Word) (count : ℕ) : Word :=
  (value >>> count) ||| (value <<< ((32 - count) % 32))

def smallSigmaZero (word : Word) : Word :=
  xor (xor (rotateRight word 7) (rotateRight word 18)) (logicalRight word 3)

def smallSigmaOne (word : Word) : Word :=
  xor (xor (rotateRight word 17) (rotateRight word 19)) (logicalRight word 10)

def bigSigmaZero (word : Word) : Word :=
  xor (xor (rotateRight word 2) (rotateRight word 13)) (rotateRight word 22)

def bigSigmaOne (word : Word) : Word :=
  xor (xor (rotateRight word 6) (rotateRight word 11)) (rotateRight word 25)

def choose (e f g : Word) : Word := xor (e &&& f) (~~~e &&& g)

def majority (a b c : Word) : Word := xor (xor (a &&& b) (a &&& c)) (b &&& c)

end Words

structure Sha256 where
  state : ℕ → Word
  tail : List Byte
  length : ℕ → Word
  schedule : ℕ → Word

def sha256 : Sha256 where
  state index := i32 ([0x6A09E667, 0xBB67AE85, 0x3C6EF372, 0xA54FF53A,
    0x510E527F, 0x9B05688C, 0x1F83D9AB, 0x5BE0CD19].getD (index - 1) 0)
  tail := []
  length _ := 0
  schedule _ := 0

section Compress

/-- `source:byte(at)`. -/
def byte (source : List Byte) (index : ℕ) : ℕ := (source.getD (index - 1) 0).toNat

def loadWords (source : List Byte) (offset : ℕ) (words : ℕ → Word) : ℕ → Word :=
  (Nat.fold 16 (fun i _ (words, offset) =>
    let a := byte source offset
    let b := byte source (offset + 1)
    let c := byte source (offset + 2)
    let d := byte source (offset + 3)
    (Function.update words (i + 1) (i32 (((a * 256 + b) * 256 + c) * 256 + d)), offset + 4))
    (words, offset)).1

def extendWords (words : ℕ → Word) : ℕ → Word :=
  Nat.fold 48 (fun i _ words =>
    let index := i + 17
    Function.update words index
      (add (add (words (index - 16)) (smallSigmaZero (words (index - 15))))
        (add (words (index - 7)) (smallSigmaOne (words (index - 2)))))) words

def runRounds (words : ℕ → Word) (locals : Hash) : Hash :=
  Nat.fold 64 (fun i _ s =>
    let index := i + 1
    let first := add (add s.h (bigSigmaOne s.e))
      (add (add (choose s.e s.f s.g) (i32 (ROUND_CONSTANTS.getD (index - 1) 0))) (words index))
    let second := add (bigSigmaZero s.a) (majority s.a s.b s.c)
    { h := s.g, g := s.f, f := s.e, e := add s.d first,
      d := s.c, c := s.b, b := s.a, a := add first second }) locals

def locals (state : ℕ → Word) : Hash :=
  { a := state 1, b := state 2, c := state 3, d := state 4,
    e := state 5, f := state 6, g := state 7, h := state 8 }

def addState (state : ℕ → Word) (s : Hash) : ℕ → Word :=
  let state := Function.update state 1 (add (state 1) s.a)
  let state := Function.update state 2 (add (state 2) s.b)
  let state := Function.update state 3 (add (state 3) s.c)
  let state := Function.update state 4 (add (state 4) s.d)
  let state := Function.update state 5 (add (state 5) s.e)
  let state := Function.update state 6 (add (state 6) s.f)
  let state := Function.update state 7 (add (state 7) s.g)
  Function.update state 8 (add (state 8) s.h)

def compress (self : Sha256) (source : List Byte) (offset : ℕ) : Sha256 :=
  let words := extendWords (loadWords source offset self.schedule)
  { self with schedule := words, state := addState self.state (runRounds words (locals self.state)) }

end Compress

section Update

def addLength (self : Sha256) (count : ℕ) : Sha256 :=
  let before := self.length 1
  let after := before + i32 count
  let length := Function.update self.length 1 after
  { self with
    length := if after.toNat < before.toNat then Function.update length 2 (length 2 + 1)
      else length }

/-- The loop over the whole blocks of a chunk, with the offset it ends at. -/
def compressFrom (self : Sha256) (bytes : List Byte) (offset : ℕ) : Sha256 × ℕ :=
  if offset + 63 ≤ bytes.length then
    compressFrom (compress self bytes offset) bytes (offset + 64)
  else
    (self, offset)
termination_by bytes.length - offset

/-- `bytes:sub(offset)` and `bytes:sub(1, count)`. -/
def subFrom (bytes : List Byte) (offset : ℕ) : List Byte := bytes.drop (offset - 1)
def subTo (bytes : List Byte) (count : ℕ) : List Byte := bytes.take count

/-- What follows the first block, from an offset on. -/
def updateFrom (self : Sha256) (bytes : List Byte) (offset : ℕ) : Sha256 :=
  let (self, offset) := compressFrom self bytes offset
  if offset ≤ bytes.length then { self with tail := subFrom bytes offset } else self

def update (self : Sha256) (bytes : List Byte) : Sha256 :=
  let self := addLength self bytes.length
  if 0 < self.tail.length then
    let needed := 64 - self.tail.length
    if bytes.length < needed then
      { self with tail := self.tail ++ bytes }
    else
      let self := compress self (self.tail ++ subTo bytes needed) 1
      updateFrom { self with tail := [] } bytes (needed + 1)
  else
    updateFrom self bytes 1

end Update

section Digest

def copy (source : Sha256) : Sha256 :=
  let target := sha256
  { target with
    state := Nat.fold 8 (fun i _ state => Function.update state (i + 1) (source.state (i + 1)))
      target.state
    tail := source.tail
    length := Function.update (Function.update target.length 1 (source.length 1)) 2
      (source.length 2) }

/-- The bytes of a number of thirty-two bits, the most significant first. -/
def numberBytes (value : ℕ) : List Byte :=
  [24, 16, 8, 0].map fun shift => BitVec.ofNat 8 (value / 2 ^ shift % 256)

def lengthBytes (high low : Word) : List Byte := numberBytes high.toNat ++ numberBytes low.toNat

def finalState (source : Sha256) : Sha256 :=
  let state := copy source
  let byteLengthLow := state.length 1
  let byteLengthHigh := state.length 2
  let high := (byteLengthHigh <<< 3) ||| (byteLengthLow >>> 29)
  let low := byteLengthLow <<< 3
  let tail := state.tail ++ [128]
  let zeros := ((56 - (tail.length % 64 : ℕ) : ℤ) % 64).toNat
  let tail := tail ++ List.replicate zeros 0 ++ lengthBytes high low
  ((tail.length + 63) / 64).fold (fun i _ state => compress state tail (64 * i + 1)) state

def rawDigest (source : Sha256) : List Byte :=
  let state := finalState source
  (List.range 8).flatMap fun i => numberBytes (state.state (i + 1)).toNat

/-- `("%02x"):format` of each byte. -/
def hexadecimal (raw : List Byte) : List Char :=
  raw.flatMap fun b => [Nat.digitChar (b.toNat / 16), Nat.digitChar (b.toNat % 16)]

def digest (self : Sha256) : List Byte := rawDigest self

def hex (self : Sha256) : List Char := hexadecimal (rawDigest self)

/-- The destination is a table of the caller's. -/
def writeDigest (self : Sha256) (destination : ℕ → Byte) : ℕ → Byte :=
  let state := finalState self
  Nat.fold 8 (fun i _ destination =>
    let index := i + 1
    let value := (state.state index).toNat
    Nat.fold 4 (fun byte _ destination =>
      Function.update destination ((index - 1) * 4 + byte + 1)
        (BitVec.ofNat 8 (value / 2 ^ (24 - byte * 8) % 256))) destination) destination

end Digest

section Hmac

/-- The first sixty-four bytes of a key under a mask. -/
def xorPad (key : List Byte) (pad : ℕ) : List Byte :=
  (List.range 64).map fun i => BitVec.ofNat 8 (i32 (byte key (i + 1)) ^^^ i32 pad).toNat

structure Hmac where
  inner : Sha256
  outerPad : List Byte

def newHmac (key : List Byte) : Hmac :=
  let key := if 64 < key.length then digest (update sha256 key) else key
  let key := key ++ List.replicate (64 - key.length) 0
  { inner := update sha256 (xorPad key 0x36), outerPad := xorPad key 0x5C }

def Hmac.update (self : Hmac) (bytes : List Byte) : Hmac :=
  { self with inner := streaming.update self.inner bytes }

def Hmac.outer (self : Hmac) : Sha256 :=
  streaming.update (streaming.update sha256 self.outerPad) (streaming.digest self.inner)

def Hmac.digest (self : Hmac) : List Byte := streaming.digest self.outer

def Hmac.hex (self : Hmac) : List Char := hexadecimal self.digest

def Hmac.writeDigest (self : Hmac) (destination : ℕ → Byte) : ℕ → Byte :=
  streaming.writeDigest self.outer destination

end Hmac

end Nupp.streaming
