import Nupp.Digest.Standard
import Nupp.Lib.LuaBit
import Nupp.Lib.Noted

/-! `compiler/hash`: XXH64 on numbers, a lane as two 32-bit halves. Every number that a step of
the arithmetic passes through is noted, and every half that a primitive answers. -/

namespace Nupp.hash

open Standard (Byte)
open Noted LuaBit

structure Halves where
  hi : ℤ
  lo : ℤ
deriving DecidableEq

inductive Note
  | half (x : ℤ)
  | number (x : ℤ)

/-- A half is an unsigned 32-bit number, and any other number one that a double holds exactly. -/
def Note.exact : Note → Prop
  | .half x => 0 ≤ x ∧ x < 2 ^ 32
  | .number x => -2 ^ 53 ≤ x ∧ x ≤ 2 ^ 53

abbrev Run := Noted Note

def number (x : ℤ) : Run ℤ := do
  note (.number x)
  return x

def half (x : ℤ) : Run ℤ := do
  note (.half x)
  return x

def answer (hi lo : ℤ) : Run Halves := do
  return ⟨← half hi, ← half lo⟩

section Arithmetic

def u32 (value : ℤ) : ℤ := value % 4294967296

def P1 : Halves := ⟨0x9E3779B1, 0x85EBCA87⟩
def P2 : Halves := ⟨0xC2B2AE3D, 0x27D4EB4F⟩
def P3 : Halves := ⟨0x165667B1, 0x9E3779F9⟩
def P4 : Halves := ⟨0x85EBCA77, 0xC2B2AE63⟩
def P5 : Halves := ⟨0x27D4EB2F, 0x165667C5⟩

def add64 (a b : Halves) : Run Halves := do
  let lo ← number (a.lo + b.lo)
  if 4294967296 ≤ lo then
    answer (u32 (← number (a.hi + b.hi + 1))) (lo - 4294967296)
  else answer (u32 (← number (a.hi + b.hi + 0))) lo

def xor64 (a b : Halves) : Run Halves := answer (u32 (bxor a.hi b.hi)) (u32 (bxor a.lo b.lo))

def rotl64 (a : Halves) (count : ℤ) : Run Halves :=
  if count = 0 then answer a.hi a.lo
  else if count = 32 then answer a.lo a.hi
  else if count < 32 then
    answer (u32 (bor (lshift a.hi count) (rshift a.lo (32 - count))))
      (u32 (bor (lshift a.lo count) (rshift a.hi (32 - count))))
  else
    let rest := count - 32
    answer (u32 (bor (lshift a.lo rest) (rshift a.hi (32 - rest))))
      (u32 (bor (lshift a.hi rest) (rshift a.lo (32 - rest))))

def rshift64 (a : Halves) (count : ℤ) : Run Halves :=
  if count = 0 then answer a.hi a.lo
  else if count = 32 then answer 0 a.hi
  else if count < 32 then
    answer (u32 (rshift a.hi count))
      (u32 (bor (rshift a.lo count) (lshift a.hi (32 - count))))
  else answer 0 (u32 (rshift a.hi (count - 32)))

/-- The product in sixteen-bit limbs; `/` rounds down, as `math.floor` of the quotient does. -/
def mul64 (a b : Halves) : Run Halves := do
  let a0 := band a.lo 0xFFFF
  let a1 := band (rshift a.lo 16) 0xFFFF
  let a2 := band a.hi 0xFFFF
  let a3 := band (rshift a.hi 16) 0xFFFF
  let b0 := band b.lo 0xFFFF
  let b1 := band (rshift b.lo 16) 0xFFFF
  let b2 := band b.hi 0xFFFF
  let b3 := band (rshift b.hi 16) 0xFFFF
  let c0 ← number (a0 * b0)
  let c1 := c0 / 65536
  let c0 := c0 % 65536
  let c1 ← number (c1 + a1 * b0)
  let c2 := c1 / 65536
  let c1 := c1 % 65536
  let c1 ← number (c1 + a0 * b1)
  let c2 := c2 + c1 / 65536
  let c1 := c1 % 65536
  let c2 ← number (c2 + a2 * b0)
  let c3 := c2 / 65536
  let c2 := c2 % 65536
  let c2 ← number (c2 + a1 * b1)
  let c3 := c3 + c2 / 65536
  let c2 := c2 % 65536
  let c2 ← number (c2 + a0 * b2)
  let c3 := c3 + c2 / 65536
  let c2 := c2 % 65536
  let c3 ← number (c3 + a3 * b0 + a2 * b1 + a1 * b2 + a0 * b3)
  let c3 := c3 % 65536
  answer (c3 * 65536 + c2) (c1 * 65536 + c0)

def round (acc input : Halves) : Run Halves := do
  let product ← mul64 input P2
  let sum ← add64 acc product
  let rot ← rotl64 sum 31
  mul64 rot P1

def mergeRound (acc val : Halves) : Run Halves := do
  let rounded ← round ⟨0, 0⟩ val
  let xored ← xor64 acc rounded
  let product ← mul64 xored P1
  add64 product P4

end Arithmetic

section Reading

/-- `input:byte(at + 1)` -/
def byte (input : List Byte) (index : ℕ) : ℤ := ((input.getD index 0).toNat : ℤ)

def halfAt (input : List Byte) (offset : ℕ) : Run ℤ :=
  half (u32 (bor (bor (bor (byte input offset) (lshift (byte input (offset + 1)) 8))
    (lshift (byte input (offset + 2)) 16)) (lshift (byte input (offset + 3)) 24)))

def wordAt (input : List Byte) (offset : ℕ) : Run Halves := do
  let hi ← halfAt input (offset + 4)
  let lo ← halfAt input offset
  return ⟨hi, lo⟩

end Reading

section Main

structure Accumulators where
  v1 : Halves
  v2 : Halves
  v3 : Halves
  v4 : Halves

def stripe (input : List Byte) (w : ℕ) (v : Accumulators) : Run Accumulators := do
  let v1 ← round v.v1 (← wordAt input (w * 8))
  let v2 ← round v.v2 (← wordAt input ((w + 1) * 8))
  let v3 ← round v.v3 (← wordAt input ((w + 2) * 8))
  let v4 ← round v.v4 (← wordAt input ((w + 3) * 8))
  return ⟨v1, v2, v3, v4⟩

/-- `repeat … until w >= stripes`, at most `turns` times. -/
def stripeLoop (input : List Byte) (stripes : ℕ) : ℕ → ℕ → Accumulators → Run (ℕ × Accumulators)
  | 0, w, v => return (w, v)
  | turns + 1, w, v => do
    let v ← stripe input w v
    if stripes ≤ w + 4 then return (w + 4, v) else stripeLoop input stripes turns (w + 4) v

def initial (seed : Halves) : Run Accumulators := do
  let sp1 ← add64 seed P1
  let v1 ← add64 sp1 P2
  let v2 ← add64 seed P2
  let negP1 ← add64 ⟨← half (u32 (bnot P1.hi)), ← half (u32 (bnot P1.lo))⟩ ⟨0, 1⟩
  let v4 ← add64 seed negP1
  return ⟨v1, v2, seed, v4⟩

def converge (v : Accumulators) : Run Halves := do
  let h ← rotl64 v.v1 1
  let h ← add64 h (← rotl64 v.v2 7)
  let h ← add64 h (← rotl64 v.v3 12)
  let h ← add64 h (← rotl64 v.v4 18)
  let h ← mergeRound h v.v1
  let h ← mergeRound h v.v2
  let h ← mergeRound h v.v3
  mergeRound h v.v4

def mixLane (input : List Byte) (at' : ℕ) (h : Halves) : Run Halves := do
  let h ← xor64 h (← round ⟨0, 0⟩ (← wordAt input at'))
  let h ← rotl64 h 27
  let h ← mul64 h P1
  add64 h P4

def mixHalf (input : List Byte) (at' : ℕ) (h : Halves) : Run Halves := do
  let h ← xor64 h (← mul64 ⟨0, ← halfAt input at'⟩ P1)
  let h ← rotl64 h 23
  let h ← mul64 h P2
  add64 h P3

def mixByte (input : List Byte) (at' : ℕ) (h : Halves) : Run Halves := do
  let h ← xor64 h (← mul64 ⟨0, byte input at'⟩ P5)
  let h ← rotl64 h 11
  mul64 h P1

/-- `while size - at >= 8`, at most `turns` times. -/
def laneLoop (input : List Byte) : ℕ → ℕ → Halves → Run (ℕ × Halves)
  | 0, at', h => return (at', h)
  | turns + 1, at', h =>
    if 8 ≤ input.length - at' then do
      let h ← mixLane input at' h
      laneLoop input turns (at' + 8) h
    else return (at', h)

/-- `if size - at >= 4` -/
def halfStep (input : List Byte) (at' : ℕ) (h : Halves) : Run (ℕ × Halves) :=
  if 4 ≤ input.length - at' then do
    let h ← mixHalf input at' h
    return (at' + 4, h)
  else return (at', h)

/-- `while at < size`, at most `turns` times. -/
def byteLoop (input : List Byte) : ℕ → ℕ → Halves → Run Halves
  | 0, _, h => return h
  | turns + 1, at', h =>
    if at' < input.length then do
      let h ← mixByte input at' h
      byteLoop input turns (at' + 1) h
    else return h

def avalanche (h : Halves) : Run Halves := do
  let h ← xor64 h (← rshift64 h 33)
  let h ← mul64 h P2
  let h ← xor64 h (← rshift64 h 29)
  let h ← mul64 h P3
  xor64 h (← rshift64 h 32)

def start (input : List Byte) (seed : Halves) : Run (ℕ × Halves) :=
  let size := input.length
  if 32 ≤ size then do
    let v ← initial seed
    let (w, v) ← stripeLoop input (size / 32 * 4) size 0 v
    let h ← converge v
    return (w * 8, h)
  else do
    let h ← add64 seed P5
    return (0, h)

def xxh64 (input : List Byte) (seedHi seedLo : ℤ) : Run Halves := do
  let size := input.length
  let (at', h) ← start input ⟨seedHi, seedLo⟩
  let h ← add64 h ⟨0, size⟩
  let (at', h) ← laneLoop input size at' h
  let (at', h) ← halfStep input at' h
  let h ← byteLoop input size at' h
  avalanche h

/-- The bytes of a half, the least significant first. -/
def bytes (x : ℤ) : List ℤ :=
  [band x 0xFF, band (rshift x 8) 0xFF, band (rshift x 16) 0xFF, band (rshift x 24) 0xFF]

def trailerDigest (payload : List Byte) : List ℤ :=
  let h := (xxh64 payload 0 0).value
  bytes h.lo ++ bytes h.hi

end Main

end Nupp.hash
