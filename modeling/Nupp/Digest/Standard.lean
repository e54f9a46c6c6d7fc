import Mathlib.Algebra.Group.Nat.Defs
import Mathlib.Data.Nat.Notation

/-! SHA-256 as FIPS 180-4 states it, over bytes, and HMAC as RFC 2104 does. -/

namespace Nupp.Standard

abbrev Byte := BitVec 8
abbrev Word := BitVec 32

section Functions

def rotr (n : ℕ) (x : Word) : Word := x.rotateRight n

def Ch (x y z : Word) : Word := (x &&& y) ^^^ (~~~x &&& z)
def Maj (x y z : Word) : Word := (x &&& y) ^^^ (x &&& z) ^^^ (y &&& z)
def bigSigma0 (x : Word) : Word := rotr 2 x ^^^ rotr 13 x ^^^ rotr 22 x
def bigSigma1 (x : Word) : Word := rotr 6 x ^^^ rotr 11 x ^^^ rotr 25 x
def smallSigma0 (x : Word) : Word := rotr 7 x ^^^ rotr 18 x ^^^ (x >>> 3)
def smallSigma1 (x : Word) : Word := rotr 17 x ^^^ rotr 19 x ^^^ (x >>> 10)

def K : List Word :=
  [0x428a2f98, 0x71374491, 0xb5c0fbcf, 0xe9b5dba5, 0x3956c25b, 0x59f111f1, 0x923f82a4, 0xab1c5ed5,
   0xd807aa98, 0x12835b01, 0x243185be, 0x550c7dc3, 0x72be5d74, 0x80deb1fe, 0x9bdc06a7, 0xc19bf174,
   0xe49b69c1, 0xefbe4786, 0x0fc19dc6, 0x240ca1cc, 0x2de92c6f, 0x4a7484aa, 0x5cb0a9dc, 0x76f988da,
   0x983e5152, 0xa831c66d, 0xb00327c8, 0xbf597fc7, 0xc6e00bf3, 0xd5a79147, 0x06ca6351, 0x14292967,
   0x27b70a85, 0x2e1b2138, 0x4d2c6dfc, 0x53380d13, 0x650a7354, 0x766a0abb, 0x81c2c92e, 0x92722c85,
   0xa2bfe8a1, 0xa81a664b, 0xc24b8b70, 0xc76c51a3, 0xd192e819, 0xd6990624, 0xf40e3585, 0x106aa070,
   0x19a4c116, 0x1e376c08, 0x2748774c, 0x34b0bcb5, 0x391c0cb3, 0x4ed8aa4a, 0x5b9cca4f, 0x682e6ff3,
   0x748f82ee, 0x78a5636f, 0x84c87814, 0x8cc70208, 0x90befffa, 0xa4506ceb, 0xbef9a3f7, 0xc67178f2]

end Functions

section Compression

structure Hash where
  a : Word
  b : Word
  c : Word
  d : Word
  e : Word
  f : Word
  g : Word
  h : Word
  deriving DecidableEq

def Hash.initial : Hash :=
  { a := 0x6a09e667, b := 0xbb67ae85, c := 0x3c6ef372, d := 0xa54ff53a,
    e := 0x510e527f, f := 0x9b05688c, g := 0x1f83d9ab, h := 0x5be0cd19 }

def Hash.words (hash : Hash) : List Word :=
  [hash.a, hash.b, hash.c, hash.d, hash.e, hash.f, hash.g, hash.h]

def Hash.add (x y : Hash) : Hash :=
  { a := x.a + y.a, b := x.b + y.b, c := x.c + y.c, d := x.d + y.d,
    e := x.e + y.e, f := x.f + y.f, g := x.g + y.g, h := x.h + y.h }

/-- The message schedule of a block of sixteen words. -/
def W (M : ℕ → Word) (t : ℕ) : Word :=
  if t < 16 then M t
  else smallSigma1 (W M (t - 2)) + W M (t - 7) + smallSigma0 (W M (t - 15)) + W M (t - 16)

def round (K W : Word) (s : Hash) : Hash :=
  let T1 := s.h + bigSigma1 s.e + Ch s.e s.f s.g + K + W
  let T2 := bigSigma0 s.a + Maj s.a s.b s.c
  { a := T1 + T2, b := s.a, c := s.b, d := s.c, e := s.d + T1, f := s.e, g := s.f, h := s.g }

def rounds (M : ℕ → Word) (hash : Hash) : Hash :=
  Nat.fold 64 (fun t _ s => round (K.getD t 0) (W M t) s) hash

def compress (hash : Hash) (M : ℕ → Word) : Hash := hash.add (rounds M hash)

end Compression

section Message

def byteAt (m : List Byte) (i : ℕ) : Byte := m.getD i 0

/-- Four bytes as a word, the first the most significant. -/
def wordOf (b₀ b₁ b₂ b₃ : Byte) : Word := b₀ ++ b₁ ++ b₂ ++ b₃

/-- The words of the block that begins at an offset. -/
def blockAt (m : List Byte) (offset : ℕ) : ℕ → Word := fun j =>
  wordOf (byteAt m (offset + 4 * j)) (byteAt m (offset + 4 * j + 1))
    (byteAt m (offset + 4 * j + 2)) (byteAt m (offset + 4 * j + 3))

/-- Whole blocks, one after another. -/
def absorb (hash : Hash) (m : List Byte) : Hash :=
  (m.length / 64).fold (fun i _ hash => compress hash (blockAt m (64 * i))) hash

/-- The length in bits, in sixty-four bits, the most significant byte first. -/
def lengthBytes (n : ℕ) : List Byte :=
  (List.range 8).map fun i => BitVec.ofNat 8 (8 * n / 256 ^ (7 - i))

/-- The least number of zeros that leaves room for the length at the end of a block. -/
def zeros (n : ℕ) : ℕ := (119 - n % 64) % 64

def padding (n : ℕ) : List Byte := 0x80 :: List.replicate (zeros n) 0 ++ lengthBytes n

def wordBytes (w : Word) : List Byte :=
  (List.range 4).map fun i => BitVec.ofNat 8 (w.toNat / 256 ^ (3 - i))

def Hash.bytes (hash : Hash) : List Byte := hash.words.flatMap wordBytes

def sha256 (m : List Byte) : List Byte := (absorb Hash.initial (m ++ padding m.length)).bytes

/-- Lowercase hexadecimal, two digits a byte. -/
def hex (m : List Byte) : List Char :=
  m.flatMap fun b => [Nat.digitChar (b.toNat / 16), Nat.digitChar (b.toNat % 16)]

end Message

section Hmac

/-- A key of one block: a longer one is hashed, and zeros follow. -/
def blockKey (key : List Byte) : List Byte :=
  let key := if 64 < key.length then sha256 key else key
  key ++ List.replicate (64 - key.length) 0

def hmac (key m : List Byte) : List Byte :=
  let key := blockKey key
  sha256 (key.map (· ^^^ 0x5c) ++ sha256 (key.map (· ^^^ 0x36) ++ m))

end Hmac

section Facts

theorem zeros_fit (n : ℕ) : (n + 1 + zeros n + 8) % 64 = 0 := by
  unfold zeros
  omega

theorem zeros_least {n k : ℕ} (h : (n + 1 + k + 8) % 64 = 0) : zeros n ≤ k := by
  unfold zeros
  omega

@[simp] theorem lengthBytes_length (n : ℕ) : (lengthBytes n).length = 8 := by simp [lengthBytes]

theorem padding_length (n : ℕ) : (padding n).length = 9 + zeros n := by
  simp [padding]
  omega

end Facts

end Nupp.Standard
