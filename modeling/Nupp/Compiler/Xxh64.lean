import Nupp.Digest.Standard

/-! XXH64 as it is published, over lanes of sixty-four bits. -/

namespace Nupp.Standard.Xxh64

abbrev Lane := BitVec 64

def P1 : Lane := 0x9E3779B185EBCA87
def P2 : Lane := 0xC2B2AE3D27D4EB4F
def P3 : Lane := 0x165667B19E3779F9
def P4 : Lane := 0x85EBCA77C2B2AE63
def P5 : Lane := 0x27D4EB2F165667C5

def round (acc input : Lane) : Lane := (acc + input * P2).rotateLeft 31 * P1

def mergeRound (acc val : Lane) : Lane := (acc ^^^ round 0 val) * P1 + P4

/-- Four bytes, the first the least significant. -/
def read32 (m : List Byte) (i : ℕ) : BitVec 32 :=
  byteAt m (i + 3) ++ byteAt m (i + 2) ++ byteAt m (i + 1) ++ byteAt m i

def read64 (m : List Byte) (i : ℕ) : Lane := read32 m (i + 4) ++ read32 m i

structure Accumulators where
  v1 : Lane
  v2 : Lane
  v3 : Lane
  v4 : Lane

def Accumulators.initial (seed : Lane) : Accumulators :=
  ⟨seed + P1 + P2, seed + P2, seed, seed - P1⟩

def stripe (m : List Byte) (i : ℕ) (v : Accumulators) : Accumulators :=
  ⟨round v.v1 (read64 m i), round v.v2 (read64 m (i + 8)), round v.v3 (read64 m (i + 16)),
    round v.v4 (read64 m (i + 24))⟩

def converge (v : Accumulators) : Lane :=
  let acc := v.v1.rotateLeft 1 + v.v2.rotateLeft 7 + v.v3.rotateLeft 12 + v.v4.rotateLeft 18
  mergeRound (mergeRound (mergeRound (mergeRound acc v.v1) v.v2) v.v3) v.v4

/-- The accumulators behind the first `k` stripes of thirty-two bytes. -/
def stripes (m : List Byte) (seed : Lane) : ℕ → Accumulators
  | 0 => .initial seed
  | k + 1 => stripe m (32 * k) (stripes m seed k)

def start (m : List Byte) (seed : Lane) : Lane :=
  if 32 ≤ m.length then converge (stripes m seed (m.length / 32)) else seed + P5

def mixLane (m : List Byte) (i : ℕ) (acc : Lane) : Lane :=
  (acc ^^^ round 0 (read64 m i)).rotateLeft 27 * P1 + P4

def mixHalf (m : List Byte) (i : ℕ) (acc : Lane) : Lane :=
  (acc ^^^ (read32 m i).setWidth 64 * P1).rotateLeft 23 * P2 + P3

def mixByte (m : List Byte) (i : ℕ) (acc : Lane) : Lane :=
  (acc ^^^ (byteAt m i).setWidth 64 * P5).rotateLeft 11 * P1

def mixLanes (m : List Byte) (i : ℕ) (acc : Lane) : ℕ → Lane
  | 0 => acc
  | k + 1 => mixLane m (i + 8 * k) (mixLanes m i acc k)

def mixBytes (m : List Byte) (i : ℕ) (acc : Lane) : ℕ → Lane
  | 0 => acc
  | k + 1 => mixByte m (i + k) (mixBytes m i acc k)

/-- What is left behind the stripes: lanes, at most one half of a lane, and bytes. -/
def remaining (m : List Byte) (acc : Lane) : Lane :=
  let n := m.length
  let acc := mixLanes m (n / 32 * 32) acc (n % 32 / 8)
  let acc := if 4 ≤ n % 8 then mixHalf m (n / 8 * 8) acc else acc
  mixBytes m (n / 4 * 4) acc (n % 4)

def avalanche (acc : Lane) : Lane :=
  let acc := (acc ^^^ acc >>> 33) * P2
  let acc := (acc ^^^ acc >>> 29) * P3
  acc ^^^ acc >>> 32

def xxh64 (m : List Byte) (seed : Lane) : Lane :=
  avalanche (remaining m (start m seed + BitVec.ofNat 64 m.length))

end Nupp.Standard.Xxh64
