import Mathlib.Data.List.Basic
import Mathlib.Logic.Function.Basic
import Nupp.Lib.LuaBit
import Nupp.Lib.Result

/-! Growable sets of bit positions (`nupp/util/internal/bitset.nupp`). -/

namespace Nupp

open LuaBit Result

structure Bitset where
  words : List Word
  capacity : ℕ
  used : ℕ
  population : ℤ
  stale : Bool

/-- `tobit(words[i])`. -/
def Bitset.at (s : Bitset) (i : ℕ) : ℤ := (s.words.getD i 0#32).toInt

/-- `words[i] = value`, where the array holds unsigned words. -/
def Bitset.store (s : Bitset) (i : ℕ) (value : ℤ) : Bitset := { s with words := s.words.set i (word value) }

namespace Bitset

def BITS_PER_WORD : ℕ := 32
def WORD_SHIFT : ℤ := 5
def BIT_MASK : ℤ := 31
def ALL_ONES : ℤ := 0xFFFFFFFF
def DEFAULT_BITS : ℤ := 64
def MAX_INDEX : ℤ := 0x7FFFFFFF
def HALF_MASK : ℤ := 0xFFFF
def HALF_SHIFT : ℤ := 16

/-- The entries of the population table, each built from the one without its lowest bit. -/
def populationHalf : ℕ → ℕ
  | 0 => 0
  | value + 1 => populationHalf ((value + 1) &&& value) + 1
termination_by value => value
decreasing_by exact Nat.lt_succ_of_le Nat.and_le_right

/-- The entries of the table of trailing zeros. -/
def trailingHalf : ℕ → ℕ
  | 0 => 16
  | value + 1 => if (value + 1) &&& 1 = 1 then 0 else trailingHalf ((value + 1) / 2) + 1

def popcount (word : ℤ) : ℕ :=
  populationHalf (band word HALF_MASK).toNat + populationHalf (band (rshift word HALF_SHIFT) HALF_MASK).toNat

def lowestBit (word : ℤ) : ℕ :=
  let half := band word HALF_MASK
  if half ≠ 0 then trailingHalf half.toNat
  else 16 + trailingHalf (band (rshift word HALF_SHIFT) HALF_MASK).toNat

def wordsFor (bits : ℤ) : ℕ :=
  let words := (bits + BIT_MASK) / BITS_PER_WORD
  if words ≥ 1 then words.toNat else 1

def isPosition (index : ℤ) : Bool := 0 ≤ index && index ≤ MAX_INDEX

/-- `for word = first, stop - 1`. -/
def forWords {σ : Type} (first stop : ℕ) (body : ℕ → σ → σ) (s : σ) : σ :=
  (List.range' first (stop - first)).foldl (fun s word => body word s) s

def tooMany : String := "nupp: bitset cannot hold more than 2^31 bits"
def badIndex : String := "nupp: bitset index cannot be negative, fractional or past 2^31 - 1"
def badStart : String := "nupp: bitset range cannot start below zero or at a non-integer"
def badEnd : String := "nupp: bitset range must end at an integer no greater than 2^31 - 1"
def badCapacity : String := "nupp: bitset target capacity cannot be negative"

def constructor (capacitybits : Option ℤ) : Except String Bitset :=
  let bits := capacitybits.getD DEFAULT_BITS
  if bits > MAX_INDEX + 1 then .error tooMany
  else
    let words := wordsFor bits
    .ok { words := List.replicate words 0#32, capacity := words, used := 0, population := 0, stale := false }

def reserve (s : Bitset) (bits : ℤ) : Except String Bitset :=
  if ¬bits ≤ MAX_INDEX + 1 then .error tooMany
  else
    let needed := wordsFor bits
    if needed ≤ s.capacity then .ok s
    else
      let doubled := s.capacity * 2
      let grown := if needed > doubled then needed else doubled
      .ok { s with
        words := s.words.take s.capacity ++ List.replicate (grown - s.capacity) 0#32
        capacity := grown }

def set (s : Bitset) (index : ℤ) : Except String Bitset := do
  if ¬isPosition index then .error badIndex
  else
    let word := (rshift index WORD_SHIFT).toNat
    let grown := if word ≥ s.capacity then reserve s (index + 1) else .ok s
    let s ← grown
    let previous := s.at word
    let mask := lshift 1 (band index BIT_MASK)
    if band previous mask = 0 then
      let s := s.store word (bor previous mask)
      return { s with
        population := if s.stale then s.population else s.population + 1
        used := if word ≥ s.used then word + 1 else s.used }
    else return s

def clear (s : Bitset) (index : ℤ) : Bitset :=
  if ¬isPosition index then s
  else
    let word := (rshift index WORD_SHIFT).toNat
    if word ≥ s.used then s
    else
      let previous := s.at word
      let mask := lshift 1 (band index BIT_MASK)
      if band previous mask ≠ 0 then
        let s := s.store word (band previous (bnot mask))
        { s with population := if s.stale then s.population else s.population - 1 }
      else s

def get (s : Bitset) (index : ℤ) : Bool :=
  if ¬isPosition index then false
  else
    let word := (rshift index WORD_SHIFT).toNat
    if word ≥ s.used then false
    else band (s.at word) (lshift 1 (band index BIT_MASK)) ≠ 0

/-- The words strictly between the ends of a range, and how many bits they gained. -/
def fillMiddle (s : Bitset) (firstWord lastWord : ℕ) (added : ℤ) : Bitset × ℤ :=
  let lastMiddle : ℤ := lastWord - 1
  let reached : ℤ := if (s.used : ℤ) - 1 < lastMiddle then s.used - 1 else lastMiddle
  let counted : ℤ := if reached < firstWord then firstWord else reached
  if ¬s.stale then
    let (s, added) := forWords (firstWord + 1) (counted.toNat + 1)
      (fun word (s, added) => (s.store word ALL_ONES, added + BITS_PER_WORD - popcount (s.at word))) (s, added)
    let added := if counted < lastMiddle then added + BITS_PER_WORD * (lastMiddle - counted) else added
    (forWords (counted.toNat + 1) lastWord (fun word s => s.store word ALL_ONES) s, added)
  else (forWords (firstWord + 1) lastWord (fun word s => s.store word ALL_ONES) s, added)

def setrange (s : Bitset) (low high : ℤ) : Except String Bitset := do
  if high < low then return s
  else if ¬isPosition low then .error badStart
  else if ¬isPosition high then .error badEnd
  else
    let s ← reserve s (high + 1)
    let firstWord := (rshift low WORD_SHIFT).toNat
    let lastWord := (rshift high WORD_SHIFT).toNat
    let lowBit := band low BIT_MASK
    let highBit := band high BIT_MASK
    let head := bnot (lshift 1 lowBit - 1)
    let tail := if highBit = BIT_MASK then ALL_ONES else lshift 1 (highBit + 1) - 1
    let (s, added) :=
      if firstWord = lastWord then
        let old := s.at firstWord
        let new := bor old (band head tail)
        (s.store firstWord new, (popcount new : ℤ) - popcount old)
      else
        let old := s.at firstWord
        let new := bor old head
        let (s, added) := fillMiddle (s.store firstWord new) firstWord lastWord ((popcount new : ℤ) - popcount old)
        let old := s.at lastWord
        let new := bor old tail
        (s.store lastWord new, added + popcount new - popcount old)
    return { s with
      population := if s.stale then s.population else s.population + added
      used := if lastWord ≥ s.used then lastWord + 1 else s.used }

def count (s : Bitset) : ℤ × Bitset :=
  if ¬s.stale then (s.population, s)
  else
    let total : ℤ := forWords 0 s.used (fun word total => total + popcount (s.at word)) 0
    (total, { s with population := total, stale := false })

def isempty (s : Bitset) : Bool × Bitset :=
  let (n, s) := count s
  (n = 0, s)

def clearall (s : Bitset) : Bitset :=
  let s := if s.used > 0 then { s with words := List.replicate s.used 0#32 ++ s.words.drop s.used, used := 0 } else s
  { s with population := 0, stale := false }

def setonly (s : Bitset) (index : ℤ) : Except String Bitset :=
  if ¬isPosition index then .error badIndex else set (clearall s) index

def wordcount (s : Bitset) : ℕ := s.used

def wordat (s : Bitset) (index : ℤ) : ℤ :=
  if ¬(index ≥ 0 ∧ index < s.used) then 0 else s.at index.toNat

/-- The first word of a walk, without the bits before its start. -/
def partialWord (s : Bitset) (first : ℕ) (start : ℤ) : ℤ :=
  let offset := band start BIT_MASK
  if offset ≠ 0 then band (s.at first) (bnot (lshift 1 offset - 1)) else s.at first

def nextsetbit (s : Bitset) (from_ : ℤ) : ℤ :=
  let start := if from_ < 0 then 0 else from_
  if ¬start ≤ MAX_INDEX then -1
  else
    let first := (rshift start WORD_SHIFT).toNat
    if first ≥ s.used then -1
    else
      let partial_ := partialWord s first start
      if partial_ ≠ 0 then lshift first WORD_SHIFT + lowestBit partial_
      else
        match (List.range' (first + 1) (s.used - (first + 1))).find? fun word => s.at word ≠ 0 with
        | some word => lshift word WORD_SHIFT + lowestBit (s.at word)
        | none => -1

/-- The positions of one word, written after `out` until the target is full; then the position to resume from. -/
def writeWord (base : ℤ) (capacity : ℤ) : ℕ → ℤ → List ℤ → List ℤ × Option ℤ
  | 0, _, out => (out, none)
  | n + 1, bits, out =>
    if bits = 0 then (out, none)
    else
      let position := base + lowestBit bits
      if (out.length : ℤ) ≥ capacity then (out, some position)
      else writeWord base capacity n (band bits (bits - 1)) (out ++ [position])

def writeWords (bitsAt : ℕ → ℤ) (capacity : ℤ) : List ℕ → List ℤ → List ℤ × ℤ
  | [], out => (out, -1)
  | word :: rest, out =>
    match writeWord (lshift word WORD_SHIFT) capacity BITS_PER_WORD (bitsAt word) out with
    | (out, some position) => (out, position)
    | (out, none) => writeWords bitsAt capacity rest out

/-- The positions written to the target, and the position to resume from. -/
def positionsinto (s : Bitset) (capacity from_ : ℤ) : Except String (List ℤ × ℤ) :=
  if capacity < 0 then .error badCapacity
  else
    let start := if from_ < 0 then 0 else from_
    if ¬start ≤ MAX_INDEX then .ok ([], -1)
    else
      let first := (rshift start WORD_SHIFT).toNat
      if first ≥ s.used then .ok ([], -1)
      else if capacity = 0 then .ok ([], start)
      else
        .ok (writeWords (fun word => if word = first then partialWord s first start else s.at word) capacity
          (List.range' first (s.used - first)) [])

def containsall (s other : Bitset) : Bool :=
  if other.used = 0 then true
  else
    let shared := if s.used < other.used then s.used else other.used
    ((List.range shared).all fun word => band (s.at word) (other.at word) = other.at word) &&
      (List.range' shared (other.used - shared)).all fun word => other.at word = 0

def overlaps (s other : Bitset) : Bool :=
  let limit := if s.used < other.used then s.used else other.used
  (List.range limit).any fun word => band (s.at word) (other.at word) ≠ 0

def disjoint (s other : Bitset) : Bool := !overlaps s other

/-! Operations on two sets, which may be one. -/

section

variable {ι : Type} [DecidableEq ι]

abbrev Sets (ι : Type) := ι → Bitset

def Sets.put (h : Sets ι) (i : ι) (s : Bitset) : Sets ι := Function.update h i s

/-- `words[word] = operation(words[word], theirWords[word])` for every word below `stop`. -/
def combine (h : Sets ι) (i j : ι) (stop : ℕ) (operation : ℤ → ℤ → ℤ) : Sets ι :=
  forWords 0 stop (fun word h => h.put i ((h i).store word (operation ((h i).at word) ((h j).at word)))) h

/-- `words[word] = 0` for the words from `first` up to `stop`. -/
def zero (s : Bitset) (first stop : ℕ) : Bitset := forWords first stop (fun word s => s.store word 0) s

def growTo (h : Sets ι) (i : ι) (otherUsed : ℕ) : Except String (Sets ι) := do
  if otherUsed > (h i).capacity then
    let s ← reserve (h i) ((otherUsed * BITS_PER_WORD : ℕ) : ℤ)
    return h.put i s
  else return h

def copyfrom (h : Sets ι) (i j : ι) : Except String (Sets ι) := do
  let otherUsed := (h j).used
  let h ← growTo h i otherUsed
  let s := h i
  let s := if otherUsed > 0 then { s with words := (h j).words.take otherUsed ++ s.words.drop otherUsed } else s
  let s := zero s otherUsed s.used
  let h := h.put i s
  let h := h.put i { h i with used := otherUsed }
  let h := h.put i { h i with population := (h j).population }
  return h.put i { h i with stale := (h j).stale }

/-- The operations that keep the words their operand does not reach. -/
def growAndCombine (h : Sets ι) (i j : ι) (operation : ℤ → ℤ → ℤ) : Except String (Sets ι) := do
  let otherUsed := (h j).used
  if otherUsed = 0 then return h
  else
    let h ← growTo h i otherUsed
    let h := combine h i j otherUsed operation
    return h.put i { h i with used := if otherUsed > (h i).used then otherUsed else (h i).used, stale := true }

def orwith (h : Sets ι) (i j : ι) : Except String (Sets ι) := growAndCombine h i j bor

def xorwith (h : Sets ι) (i j : ι) : Except String (Sets ι) := growAndCombine h i j bxor

def andwith (h : Sets ι) (i j : ι) : Sets ι :=
  let used := (h i).used
  if used = 0 then h
  else
    let shared := if used < (h j).used then used else (h j).used
    let h := combine h i j shared band
    let h := h.put i (zero (h i) shared used)
    h.put i { h i with used := shared, stale := true }

def andnotwith (h : Sets ι) (i j : ι) : Sets ι :=
  let limit := if (h i).used < (h j).used then (h i).used else (h j).used
  if limit = 0 then h
  else
    let h := combine h i j limit fun mine theirs => band mine (bnot theirs)
    h.put i { h i with stale := true }

/-! Histories. -/

inductive Op (ι : Type) where
  | create (i : ι) (capacitybits : Option ℤ)
  | reserve (i : ι) (bits : ℤ)
  | set (i : ι) (index : ℤ)
  | clear (i : ι) (index : ℤ)
  | get (i : ι) (index : ℤ)
  | setrange (i : ι) (low high : ℤ)
  | count (i : ι)
  | isempty (i : ι)
  | clearall (i : ι)
  | setonly (i : ι) (index : ℤ)
  | wordat (i : ι) (index : ℤ)
  | nextsetbit (i : ι) (from_ : ℤ)
  | positionsinto (i : ι) (capacity from_ : ℤ)
  | containsall (i j : ι)
  | overlaps (i j : ι)
  | disjoint (i j : ι)
  | copyfrom (i j : ι)
  | orwith (i j : ι)
  | andwith (i j : ι)
  | andnotwith (i j : ι)
  | xorwith (i j : ι)

inductive Answer where
  | nothing
  | boolean (b : Bool)
  | integer (n : ℤ)
  | positions (written : List ℤ) (resume : ℤ)
  | raised (message : String)
deriving DecidableEq

/-- A call that returns nothing, or raises and leaves the sets as they were. -/
def effect (h : Sets ι) (result : Except String (Sets ι)) : Answer × Sets ι :=
  match result with
  | .ok h => (.nothing, h)
  | .error message => (.raised message, h)

def step (h : Sets ι) : Op ι → Answer × Sets ι
  | .create i capacitybits => effect h ((constructor capacitybits).map (h.put i))
  | .reserve i bits => effect h ((reserve (h i) bits).map (h.put i))
  | .set i index => effect h ((set (h i) index).map (h.put i))
  | .clear i index => (.nothing, h.put i (clear (h i) index))
  | .get i index => (.boolean (get (h i) index), h)
  | .setrange i low high => effect h ((setrange (h i) low high).map (h.put i))
  | .count i => (.integer (count (h i)).1, h.put i (count (h i)).2)
  | .isempty i => (.boolean (isempty (h i)).1, h.put i (isempty (h i)).2)
  | .clearall i => (.nothing, h.put i (clearall (h i)))
  | .setonly i index => effect h ((setonly (h i) index).map (h.put i))
  | .wordat i index => (.integer (wordat (h i) index), h)
  | .nextsetbit i from_ => (.integer (nextsetbit (h i) from_), h)
  | .positionsinto i capacity from_ =>
    match positionsinto (h i) capacity from_ with
    | .ok (written, resume) => (.positions written resume, h)
    | .error message => (.raised message, h)
  | .containsall i j => (.boolean (containsall (h i) (h j)), h)
  | .overlaps i j => (.boolean (overlaps (h i) (h j)), h)
  | .disjoint i j => (.boolean (disjoint (h i) (h j)), h)
  | .copyfrom i j => effect h (copyfrom h i j)
  | .orwith i j => effect h (orwith h i j)
  | .andwith i j => (.nothing, andwith h i j)
  | .andnotwith i j => (.nothing, andnotwith h i j)
  | .xorwith i j => effect h (xorwith h i j)

def run (h : Sets ι) : List (Op ι) → List Answer × Sets ι
  | [] => ([], h)
  | op :: ops =>
    let (answer, h) := step h op
    let (answers, h) := run h ops
    (answer :: answers, h)

end

end Bitset

end Nupp
