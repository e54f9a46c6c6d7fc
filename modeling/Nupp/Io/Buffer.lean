import Nupp.Io.Lines
import Nupp.Lib.Result
import Mathlib.Logic.Relation
import Mathlib.Data.Nat.Bitwise
import Mathlib.Tactic.LinearCombination
import Mathlib.Tactic.Ring
import Mathlib.Tactic.Lift
import Mathlib.Tactic.SplitIfs

/-! The heap buffer of `io/internal/bytes`: appending, consuming, positional access at storage
offsets, and access to ranges of bits. -/

namespace Nupp.Buffer

open Lines

/-- A buffer. The bytes before `read` are consumed and stay in the storage. -/
structure HeapBuffer where
  bytes : Bytes
  read : ℕ
  closed : Bool

def integer_ (value : ℤ) (what : String) : Except String ℕ :=
  if value < 0 || value > MAX_EXACT_INTEGER then .error ("nupp: " ++ what ++ " must be a non-negative integer")
  else .ok value.toNat

def sizeSum (left right : ℕ) (what : String) : Except String ℕ :=
  if (left : ℤ) > MAX_EXACT_INTEGER - right then .error ("nupp: " ++ what ++ " is too large") else .ok (left + right)

def opened (b : HeapBuffer) : Except String Unit :=
  if b.closed then .error "nupp: bytes.Buffer is closed" else .ok ()

/-- A count that is left out is the rest. -/
def range (length : ℕ) (offset : ℤ) (count : Option ℤ) (what : String) : Except String (ℕ × ℕ) := do
  let start ← integer_ offset (what ++ " offset")
  if start > length then throw ("nupp: " ++ what ++ " offset is past the end")
  let taking ← integer_ (count.getD (length - start)) (what ++ " count")
  if taking > length - start then throw ("nupp: " ++ what ++ " range is past the end")
  return (start, taking)

/-- The runtime allocates up to `room` bytes. -/
def reserve (room minimum : ℕ) : Except String Unit :=
  if minimum > room then .error "not enough memory" else .ok ()

def len (b : HeapBuffer) : Except String ℕ := do
  opened b
  return b.bytes.length - b.read

def reset (b : HeapBuffer) : Except String HeapBuffer := do
  opened b
  return { b with bytes := [], read := 0 }

def bytesAt (b : HeapBuffer) (offset count : ℕ) : Bytes := (b.bytes.drop offset).take count

def get (b : HeapBuffer) (count : Option ℤ) : Except String (Bytes × HeapBuffer) := do
  opened b
  let available := b.bytes.length - b.read
  let taking ← match count with
    | none => pure available
    | some count => do
      let wanted ← integer_ count "bytes.Buffer get count"
      pure (min wanted available)
  return (bytesAt b b.read taking, { b with read := b.read + taking })

def skip (b : HeapBuffer) (count : ℤ) : Except String HeapBuffer := do
  opened b
  let wanted ← integer_ count "bytes.Buffer skip count"
  return { b with read := b.read + min wanted (b.bytes.length - b.read) }

/-- Writes at an offset; what lies between the storage and the offset is zero. -/
def writeAt (room : ℕ) (b : HeapBuffer) (bytes : Bytes) (offset : ℤ) : Except String HeapBuffer := do
  opened b
  let start ← integer_ offset "bytes.Buffer offset"
  let ending ← sizeSum start bytes.length "bytes.Buffer range"
  reserve room ending
  let filled := b.bytes ++ List.replicate (start - b.bytes.length) 0
  return { b with bytes := filled.take start ++ bytes ++ filled.drop ending }

/-- `put` of one string. -/
def put (room : ℕ) (b : HeapBuffer) (bytes : Bytes) : Except String HeapBuffer := do
  opened b
  writeAt room b bytes b.bytes.length

def resize (room : ℕ) (b : HeapBuffer) (len : ℤ) : Except String HeapBuffer := do
  opened b
  let wanted ← integer_ len "bytes.Buffer length"
  if wanted > b.bytes.length then
    reserve room wanted
    return { b with bytes := b.bytes ++ List.replicate (wanted - b.bytes.length) 0, read := min b.read wanted }
  else return { b with bytes := b.bytes.take wanted, read := min b.read wanted }

/-- Reads bytes at a storage offset. -/
def readstring (b : HeapBuffer) (offset : ℤ) (count : Option ℤ) : Except String Bytes := do
  opened b
  let (start, taking) ← range b.bytes.length offset count "bytes.Buffer"
  return bytesAt b start taking

/-- Writes bytes within the storage. The fixed-width writes are this on the bytes of their value. -/
def writestring (room : ℕ) (b : HeapBuffer) (offset : ℤ) (bytes : Bytes) : Except String HeapBuffer := do
  let _ ← readstring b offset (some bytes.length)
  writeAt room b bytes offset

def readu8 (b : HeapBuffer) (offset : ℤ) : Except String ℤ := do
  let bytes ← readstring b offset (some 1)
  return (bytes.headD 0).toNat

def writeu8 (room : ℕ) (b : HeapBuffer) (offset value : ℤ) : Except String HeapBuffer := do
  let _ ← readstring b offset (some 1)
  writeAt room b [UInt8.ofNat (value % 2 ^ 32).toNat] offset

/-- Reads up to thirty-two bits, with the low bit at the lowest bit offset. -/
def readbits (b : HeapBuffer) (offset count : ℤ) : Except String ℤ := do
  let first ← integer_ offset "bytes.Buffer bit offset"
  let width ← integer_ count "bytes.Buffer bit count"
  if width > 32 then throw "nupp: buffer bit count exceeds 32"
  let extent := (← len b) * 8
  let _ ← range extent first (some width) "bytes.Buffer bit range"
  (List.range width).foldlM (fun (result : ℤ) index => do
    let position ← sizeSum first index "bytes.Buffer bit range"
    let byte ← readu8 b (position / 8 : ℕ)
    return result + byte / 2 ^ (position % 8) % 2 * 2 ^ index) 0

/-- Writes up to thirty-two bits without changing adjacent bits. -/
def writebits (room : ℕ) (b : HeapBuffer) (offset count value : ℤ) : Except String HeapBuffer := do
  let first ← integer_ offset "bytes.Buffer bit offset"
  let width ← integer_ count "bytes.Buffer bit count"
  if width > 32 || value < 0 || value ≥ 2 ^ width then throw "nupp: buffer bit value is out of bounds"
  let _ ← readbits b first width
  (List.range width).foldlM (fun (b : HeapBuffer) index => do
    let position := first + index
    let start : ℕ := position / 8
    let mask : ℤ := 2 ^ (position % 8)
    let byte ← readu8 b start
    let old := byte / mask % 2
    let bitValue := value / 2 ^ index % 2
    writeu8 room b start (byte + (bitValue - old) * mask)) b

/-- `bytes.Buffer.create` of a string. -/
def newBuffer (bytes : Bytes) : HeapBuffer := ⟨bytes, 0, false⟩

end Nupp.Buffer

/-! Ranges of bits against the bytes they lie in: both are positions in the storage, but the bits are
bounded by what is unread. -/

namespace Nupp.Buffer

open Lines Result

variable {room : ℕ} {b b' : HeapBuffer}

/-! ### Numbers -/

theorem integer_of_le {value : ℤ} (what : String) (hlow : 0 ≤ value) (hhigh : value ≤ MAX_EXACT_INTEGER) :
    integer_ value what = .ok value.toNat := by
  have hout : ¬(value < 0 ∨ value > MAX_EXACT_INTEGER) := by omega
  simpa [integer_] using hout

theorem integer_ok {value : ℤ} {what : String} {n : ℕ} (h : integer_ value what = .ok n) :
    0 ≤ value ∧ value ≤ MAX_EXACT_INTEGER ∧ n = value.toNat := by
  rw [integer_] at h
  split_ifs at h with hout
  have hin : ¬(value < 0 ∨ value > MAX_EXACT_INTEGER) := by simpa using hout
  exact ⟨by omega, by omega, (Except.ok.inj h).symm⟩

theorem sizeSum_of_le {left right : ℕ} (what : String) (h : (left + right : ℤ) ≤ MAX_EXACT_INTEGER) :
    sizeSum left right what = .ok (left + right) := by
  rw [sizeSum, if_neg (by omega)]

theorem sizeSum_ok {left right n : ℕ} {what : String} (h : sizeSum left right what = .ok n) : n = left + right := by
  rw [sizeSum] at h
  split_ifs at h
  exact (Except.ok.inj h).symm

theorem reserve_ok {minimum : ℕ} (h : reserve room minimum = .ok ()) : minimum ≤ room := by
  rw [reserve] at h
  split_ifs at h with hmore
  exact Nat.le_of_not_lt hmore

theorem reserve_of_le {minimum : ℕ} (h : minimum ≤ room) : reserve room minimum = .ok () := by
  rw [reserve, if_neg (Nat.not_lt_of_le h)]

theorem opened_of (h : b.closed = false) : opened b = .ok () := by
  rw [opened, h]
  rfl

theorem range_of_le {length start taking : ℕ} {offset : ℤ} (count : Option ℤ) (what : String)
    (hoffset : integer_ offset (what ++ " offset") = .ok start)
    (hcount : integer_ (count.getD (length - start)) (what ++ " count") = .ok taking)
    (h : start + taking ≤ length) : range length offset count what = .ok (start, taking) := by
  have hstart : ¬start > length := by omega
  have htaking : ¬taking > length - start := by omega
  rw [range, hoffset, ok_bind, if_neg hstart]
  simp only [hcount, ok_bind, if_neg htaking]
  rfl

theorem range_ok {length : ℕ} {offset : ℤ} {count : Option ℤ} {what : String} {r : ℕ × ℕ}
    (h : range length offset count what = .ok r) :
    integer_ offset (what ++ " offset") = .ok r.1 ∧
      integer_ (count.getD (length - r.1)) (what ++ " count") = .ok r.2 ∧ r.1 + r.2 ≤ length := by
  obtain ⟨start, hstart, h⟩ := bind_eq_ok.mp h
  by_cases hpast : start > length
  · rw [if_pos hpast] at h
    cases h
  · rw [if_neg hpast] at h
    obtain ⟨taking, htaking, h⟩ := bind_eq_ok.mp h
    by_cases hmore : taking > length - start
    · rw [if_pos hmore] at h
      cases h
    · rw [if_neg hmore] at h
      obtain rfl := Except.ok.inj h
      exact ⟨hstart, htaking, by dsimp only; omega⟩

/-! ### The states reached -/

structure Kept (room : ℕ) (b : HeapBuffer) : Prop where
  opened : b.closed = false
  read_le : b.read ≤ b.bytes.length
  fits : b.bytes.length ≤ room

inductive Step (room : ℕ) : HeapBuffer → HeapBuffer → Prop
  | put {b b' : HeapBuffer} {bytes : Bytes} : put room b bytes = .ok b' → Step room b b'
  | get {b b' : HeapBuffer} {count : Option ℤ} {taken : Bytes} : get b count = .ok (taken, b') → Step room b b'
  | skip {b b' : HeapBuffer} {count : ℤ} : skip b count = .ok b' → Step room b b'
  | reset {b b' : HeapBuffer} : reset b = .ok b' → Step room b b'
  | resize {b b' : HeapBuffer} {len : ℤ} : resize room b len = .ok b' → Step room b b'
  | writeAt {b b' : HeapBuffer} {bytes : Bytes} {offset : ℤ} : writeAt room b bytes offset = .ok b' → Step room b b'
  | writestring {b b' : HeapBuffer} {offset : ℤ} {bytes : Bytes} :
      writestring room b offset bytes = .ok b' → Step room b b'
  | writebits {b b' : HeapBuffer} {offset count value : ℤ} :
      writebits room b offset count value = .ok b' → Step room b b'

theorem writeAt_ok {bytes : Bytes} {offset : ℤ} (h : writeAt room b bytes offset = .ok b') :
    b'.closed = b.closed ∧ b'.read = b.read ∧ b.bytes.length ≤ b'.bytes.length ∧
      b'.bytes.length ≤ max b.bytes.length room := by
  obtain ⟨-, -, h⟩ := bind_eq_ok.mp h
  obtain ⟨start, -, h⟩ := bind_eq_ok.mp h
  obtain ⟨ending, hending, h⟩ := bind_eq_ok.mp h
  obtain ⟨_, hroom, h⟩ := bind_eq_ok.mp h
  obtain rfl := Except.ok.inj h
  have hle := reserve_ok hroom
  have hsum := sizeSum_ok hending
  refine ⟨rfl, rfl, ?_, ?_⟩ <;>
    simp only [List.length_append, List.length_take, List.length_drop, List.length_replicate] <;> omega

theorem Kept.writeAt (hb : Kept room b) {bytes : Bytes} {offset : ℤ} (h : writeAt room b bytes offset = .ok b') :
    Kept room b' := by
  obtain ⟨hclosed, hread, hlow, hhigh⟩ := writeAt_ok h
  refine ⟨hclosed.trans hb.opened, ?_, hhigh.trans (max_le hb.fits le_rfl)⟩
  rw [hread]
  exact hb.read_le.trans hlow

theorem Kept.taken (hb : Kept room b) {taking : ℕ} (h : taking ≤ b.bytes.length - b.read) :
    Kept room { b with read := b.read + taking } := by
  have hread := hb.read_le
  exact ⟨hb.opened, by dsimp only; omega, hb.fits⟩

theorem Kept.get (hb : Kept room b) {count : Option ℤ} {taken : Bytes} (h : get b count = .ok (taken, b')) :
    Kept room b' := by
  obtain ⟨-, -, h⟩ := bind_eq_ok.mp h
  cases count with
  | none =>
    obtain ⟨-, rfl⟩ := Prod.mk.inj (Except.ok.inj h)
    exact hb.taken le_rfl
  | some count =>
    dsimp only at h
    obtain ⟨wanted, -, h⟩ := bind_eq_ok.mp h
    obtain ⟨-, rfl⟩ := Prod.mk.inj (Except.ok.inj h)
    exact hb.taken (min_le_right _ _)

theorem Kept.skip (hb : Kept room b) {count : ℤ} (h : skip b count = .ok b') : Kept room b' := by
  obtain ⟨-, -, h⟩ := bind_eq_ok.mp h
  obtain ⟨wanted, -, h⟩ := bind_eq_ok.mp h
  obtain rfl := Except.ok.inj h
  exact hb.taken (min_le_right _ _)

theorem Kept.resize (hb : Kept room b) {len : ℤ} (h : resize room b len = .ok b') : Kept room b' := by
  obtain ⟨-, -, h⟩ := bind_eq_ok.mp h
  obtain ⟨wanted, -, h⟩ := bind_eq_ok.mp h
  have hfits := hb.fits
  by_cases hmore : wanted > b.bytes.length
  · rw [if_pos hmore] at h
    obtain ⟨_, hroom, h⟩ := bind_eq_ok.mp h
    have hle := reserve_ok hroom
    obtain rfl := Except.ok.inj h
    refine ⟨hb.opened, ?_, ?_⟩ <;>
      simp only [List.length_append, List.length_replicate] <;> omega
  · rw [if_neg hmore] at h
    obtain rfl := Except.ok.inj h
    refine ⟨hb.opened, ?_, ?_⟩ <;> simp only [List.length_take] <;> omega

theorem Kept.writeu8 (hb : Kept room b) {offset value : ℤ} (h : writeu8 room b offset value = .ok b') : Kept room b' := by
  obtain ⟨-, -, h⟩ := bind_eq_ok.mp h
  exact hb.writeAt h

theorem Kept.writebits (hb : Kept room b) {offset count value : ℤ} (h : writebits room b offset count value = .ok b') :
    Kept room b' := by
  obtain ⟨first, -, h⟩ := bind_eq_ok.mp h
  obtain ⟨width, -, h⟩ := bind_eq_ok.mp h
  by_cases hout : (width > 32 || value < 0 || value ≥ 2 ^ width) = true
  · rw [if_pos hout] at h
    cases h
  · rw [if_neg hout] at h
    obtain ⟨-, -, h⟩ := bind_eq_ok.mp h
    refine foldlM_ok h hb fun index _ b b' hb hround => ?_
    obtain ⟨byte, -, hround⟩ := bind_eq_ok.mp hround
    exact hb.writeu8 hround

theorem Kept.step (hb : Kept room b) (h : Step room b b') : Kept room b' := by
  cases h with
  | put h =>
    obtain ⟨-, -, h⟩ := bind_eq_ok.mp h
    exact hb.writeAt h
  | get h => exact hb.get h
  | skip h => exact hb.skip h
  | reset h =>
    obtain ⟨-, -, h⟩ := bind_eq_ok.mp h
    obtain rfl := Except.ok.inj h
    exact ⟨hb.opened, le_rfl, Nat.zero_le _⟩
  | resize h => exact hb.resize h
  | writeAt h => exact hb.writeAt h
  | writestring h =>
    obtain ⟨-, -, h⟩ := bind_eq_ok.mp h
    exact hb.writeAt h
  | writebits h => exact hb.writebits h

theorem kept_of_steps {bytes : Bytes} (hnew : bytes.length ≤ room)
    (h : Relation.ReflTransGen (Step room) (newBuffer bytes) b) : Kept room b := by
  induction h with
  | refl => exact ⟨rfl, Nat.zero_le _, hnew⟩
  | tail _ hstep ih => exact ih.step hstep

/-! ### One byte -/

/-- The storage is small enough for the offsets of its bits to be exact. -/
structure Exact (room : ℕ) (b : HeapBuffer) : Prop extends Kept room b where
  exact_ : (b.bytes.length * 8 : ℤ) ≤ MAX_EXACT_INTEGER

theorem Exact.readstring_one (hb : Exact room b) {at_ : ℕ} (h : at_ < b.bytes.length) :
    readstring b at_ (some 1) = .ok [b.bytes.getD at_ 0] := by
  have hexact := hb.exact_
  have hstart : integer_ (at_ : ℤ) "bytes.Buffer offset" = .ok at_ :=
    integer_of_le _ (Int.natCast_nonneg _) (by omega)
  have hone : integer_ 1 "bytes.Buffer count" = .ok 1 := integer_of_le _ (by decide) (by decide)
  have htake : bytesAt b at_ 1 = [b.bytes.getD at_ 0] := by
    rw [bytesAt, List.drop_eq_getElem_cons h, List.getD_eq_getElem _ _ h]
    rfl
  rw [readstring, opened_of hb.opened, ok_bind, range_of_le (some 1) "bytes.Buffer" hstart hone h, ok_bind, ← htake]
  rfl

theorem Exact.readstring_one_iff (hb : Exact room b) {offset : ℤ} :
    (∃ bytes, readstring b offset (some 1) = .ok bytes) ↔ 0 ≤ offset ∧ offset < b.bytes.length := by
  constructor
  · rintro ⟨bytes, h⟩
    obtain ⟨-, -, h⟩ := bind_eq_ok.mp h
    obtain ⟨r, hr, -⟩ := bind_eq_ok.mp h
    obtain ⟨hstart, hone, hle⟩ := range_ok hr
    obtain ⟨hlow, -, hstart⟩ := integer_ok hstart
    obtain ⟨-, -, hone⟩ := integer_ok hone
    simp only [Option.getD_some] at hone
    omega
  · rintro ⟨hlow, hhigh⟩
    lift offset to ℕ using hlow
    exact ⟨_, hb.readstring_one (by omega)⟩

theorem Exact.readu8 (hb : Exact room b) {at_ : ℕ} (h : at_ < b.bytes.length) :
    readu8 b at_ = .ok ((b.bytes.getD at_ 0).toNat : ℤ) := by
  rw [Buffer.readu8, hb.readstring_one h]
  rfl

theorem Exact.writeu8 (hb : Exact room b) {at_ : ℕ} (h : at_ < b.bytes.length) {value : ℕ} (hvalue : value < 256) :
    writeu8 room b at_ value = .ok { b with bytes := b.bytes.set at_ (UInt8.ofNat value) } := by
  have hexact := hb.exact_
  have hfits := hb.fits
  have hstart : integer_ (at_ : ℤ) "bytes.Buffer offset" = .ok at_ :=
    integer_of_le _ (Int.natCast_nonneg _) (by omega)
  have hwrap : ((value : ℤ) % 2 ^ 32).toNat = value := by omega
  have hset : b.bytes.take at_ ++ [UInt8.ofNat value] ++ b.bytes.drop (at_ + 1) = b.bytes.set at_ (UInt8.ofNat value) := by
    rw [List.set_eq_take_append_cons_drop, if_pos h, List.append_assoc]
    rfl
  rw [Buffer.writeu8, hb.readstring_one h, ok_bind, Buffer.writeAt, opened_of hb.opened, ok_bind, hstart, ok_bind,
    sizeSum_of_le _ (by simp only [List.length_cons, List.length_nil]; omega), ok_bind,
    reserve_of_le (by simp only [List.length_cons, List.length_nil]; omega), ok_bind]
  simp only [hwrap, Nat.sub_eq_zero_of_le h.le, List.replicate_zero, List.append_nil, List.length_cons, List.length_nil,
    Nat.zero_add, hset]
  rfl

/-! ### One bit -/

def bitAt (b : HeapBuffer) (position : ℕ) : Bool := (b.bytes.getD (position / 8) 0).toNat.testBit (position % 8)

theorem testBit_div (byte j : ℕ) : (byte : ℤ) / 2 ^ j % 2 = ((byte.testBit j).toNat : ℤ) := by
  rw [Nat.toNat_testBit]
  norm_cast

/-- Putting one bit of a number in place of the one it has. -/
theorem exists_setBit {byte j : ℕ} (hbyte : byte < 256) (hj : j < 8) (v : Bool) :
    ∃ n < 256, (byte : ℤ) + ((v.toNat : ℤ) - (byte.testBit j).toNat) * 2 ^ j = (n : ℕ) ∧
      ∀ k, n.testBit k = if k = j then v else byte.testBit k := by
  have hpos : 0 < 2 ^ j := Nat.two_pow_pos j
  have hlow : byte % 2 ^ j < 2 ^ j := Nat.mod_lt _ hpos
  -- the bits above `j`, the bit, and the bits below
  have hparts (w : Bool) (k : ℕ) : (2 ^ j * (2 * (byte / 2 ^ j / 2) + w.toNat) + byte % 2 ^ j).testBit k =
      if k < j then (byte % 2 ^ j).testBit k else if k = j then w else (byte / 2 ^ j / 2).testBit (k - j - 1) := by
    rw [Nat.testBit_two_pow_mul_add _ hlow]
    by_cases hk : k < j
    · rw [if_pos hk, if_pos hk]
    · rw [if_neg hk, if_neg hk]
      obtain ⟨d, rfl⟩ := Nat.exists_eq_add_of_le (Nat.le_of_not_lt hk)
      cases d with
      | zero => cases w <;> simp [Nat.testBit_zero]
      | succ d =>
        have hne : ¬j + (d + 1) = j := by omega
        have hhalf : (2 * (byte / 2 ^ j / 2) + w.toNat) / 2 = byte / 2 ^ j / 2 := by
          have hw := w.toNat_lt
          omega
        rw [if_neg hne, Nat.add_sub_cancel_left, Nat.testBit_succ, hhalf, Nat.add_sub_cancel]
  have hold : 2 ^ j * (2 * (byte / 2 ^ j / 2) + (byte.testBit j).toNat) + byte % 2 ^ j = byte := by
    have hhalf : 2 * (byte / 2 ^ j / 2) + (byte.testBit j).toNat = byte / 2 ^ j := by
      rw [Nat.toNat_testBit]
      exact Nat.div_add_mod _ _
    rw [hhalf]
    exact Nat.div_add_mod _ _
  refine ⟨2 ^ j * (2 * (byte / 2 ^ j / 2) + v.toNat) + byte % 2 ^ j, ?_, ?_, fun k => ?_⟩
  · -- the bits from eight on are those of the number before
    refine Nat.lt_pow_two_of_testBit _ (n := 8) fun k hk => ?_
    have hkeep := hparts (byte.testBit j) k
    rw [hold] at hkeep
    have habove : ¬k < j ∧ ¬k = j := by omega
    rw [hparts, if_neg habove.1, if_neg habove.2]
    rw [if_neg habove.1, if_neg habove.2] at hkeep
    rw [← hkeep]
    exact Nat.testBit_lt_two_pow (hbyte.trans_le (Nat.pow_le_pow_right (by decide) hk : 2 ^ 8 ≤ 2 ^ k))
  · have hcast := congrArg (Nat.cast : ℕ → ℤ) hold
    push_cast at hcast ⊢
    linear_combination -hcast
  · have hkeep := hparts (byte.testBit j) k
    rw [hold] at hkeep
    rw [hparts, hkeep]
    split_ifs with hk hkj <;> first | rfl | omega

/-! ### Ranges of bits -/

theorem readbits_ok {offset count v : ℤ} (h : readbits b offset count = .ok v) :
    0 ≤ offset ∧ offset + count ≤ 8 * ((b.bytes.length - b.read : ℕ) : ℤ) := by
  obtain ⟨first, hfirst, h⟩ := bind_eq_ok.mp h
  obtain ⟨width, hwidth, h⟩ := bind_eq_ok.mp h
  by_cases hmore : width > 32
  · rw [if_pos hmore] at h
    cases h
  · rw [if_neg hmore] at h
    dsimp only at h
    obtain ⟨extent, hlen, h⟩ := bind_eq_ok.mp h
    obtain ⟨r, hr, -⟩ := bind_eq_ok.mp h
    obtain ⟨-, -, hlen⟩ := bind_eq_ok.mp hlen
    obtain rfl := Except.ok.inj hlen
    obtain ⟨hstart, htaking, hle⟩ := range_ok hr
    obtain ⟨hlow, -, hfirst⟩ := integer_ok hfirst
    obtain ⟨hlow', -, hwidth⟩ := integer_ok hwidth
    obtain ⟨-, -, hstart⟩ := integer_ok hstart
    obtain ⟨-, -, htaking⟩ := integer_ok htaking
    simp only [Option.getD_some] at htaking
    omega

/-- The number whose low bits are those of a range. -/
def IsBits (b : HeapBuffer) (first width : ℕ) (t : ℤ) : Prop :=
  ∃ v : ℕ, t = v ∧ v < 2 ^ width ∧ ∀ i < width, v.testBit i = bitAt b (first + i)

theorem IsBits.succ {first k : ℕ} {t : ℤ} (h : IsBits b first k t) :
    IsBits b first (k + 1) (t + ((bitAt b (first + k)).toNat : ℤ) * 2 ^ k) := by
  obtain ⟨v, rfl, hv, hbits⟩ := h
  refine ⟨2 ^ k * (bitAt b (first + k)).toNat + v, by push_cast; ring, ?_, fun i hi => ?_⟩
  · have hmul : 2 ^ k * (bitAt b (first + k)).toNat ≤ 2 ^ k * 1 := Nat.mul_le_mul_left _ (Bool.toNat_le _)
    rw [Nat.pow_succ]
    omega
  · rw [Nat.testBit_two_pow_mul_add _ hv]
    by_cases hik : i < k
    · rw [if_pos hik, hbits i hik]
    · obtain rfl : i = k := by omega
      rw [if_neg hik, Nat.sub_self]
      cases bitAt b (first + i) <;> rfl

theorem Exact.readbits (hb : Exact room b) {first width : ℕ} (hwidth : width ≤ 32)
    (h : first + width ≤ 8 * (b.bytes.length - b.read)) :
    ∃ t, readbits b first width = .ok t ∧ IsBits b first width t := by
  have hexact := hb.exact_
  have hmax : MAX_EXACT_INTEGER = 9007199254740991 := rfl
  have hfirst (what : String) : integer_ (first : ℤ) what = .ok first := integer_of_le _ (by omega) (by omega)
  have htaking (what : String) : integer_ (width : ℤ) what = .ok width := integer_of_le _ (by omega) (by omega)
  have hlen : len b = .ok (b.bytes.length - b.read) := by
    rw [len, opened_of hb.opened]
    rfl
  have hrange : range ((b.bytes.length - b.read) * 8) first (some width) "bytes.Buffer bit range" = .ok (first, width) :=
    range_of_le (some width) _ (hfirst _) (htaking _) (by omega)
  rw [Buffer.readbits, hfirst, ok_bind, htaking, ok_bind, if_neg (Nat.not_lt_of_le hwidth)]
  dsimp only
  rw [hlen, ok_bind, hrange, ok_bind]
  refine foldlM_range width ⟨0, rfl, Nat.one_pos, fun i hi => absurd hi (Nat.not_lt_zero i)⟩ fun k hk t hinv => ?_
  have hposition := sizeSum_of_le "bytes.Buffer bit range" (show (first + k : ℤ) ≤ MAX_EXACT_INTEGER by omega)
  have hbyte := hb.readu8 (show (first + k) / 8 < b.bytes.length by omega)
  refine ⟨_, ?_, hinv.succ⟩
  rw [hposition, ok_bind, hbyte, ok_bind, testBit_div]
  rfl

/-! ### Writing a range -/

/-- The storage with some bits of a range replaced by those of a value. -/
structure Replaced (b : HeapBuffer) (first value k : ℕ) (b' : HeapBuffer) : Prop where
  closed_eq : b'.closed = b.closed
  read_eq : b'.read = b.read
  length_eq : b'.bytes.length = b.bytes.length
  bits : ∀ p, bitAt b' p = if first ≤ p ∧ p < first + k then value.testBit (p - first) else bitAt b p

theorem Exact.replaced (hb : Exact room b) {first value k : ℕ} (h : Replaced b first value k b') : Exact room b' := by
  obtain ⟨hclosed, hread, hlength, -⟩ := h
  refine ⟨⟨hclosed.trans hb.opened, ?_, ?_⟩, ?_⟩
  · rw [hread, hlength]
    exact hb.read_le
  · rw [hlength]
    exact hb.fits
  · rw [hlength]
    exact hb.exact_

/-- A bit of the storage after one of its bytes is set. -/
theorem bitAt_set {at_ n : ℕ} (h : at_ < b.bytes.length) (hn : n < 256) (p : ℕ) :
    bitAt { b with bytes := b.bytes.set at_ (UInt8.ofNat n) } p =
      if p / 8 = at_ then n.testBit (p % 8) else bitAt b p := by
  by_cases hp : p / 8 = at_
  · rw [if_pos hp, bitAt, hp, List.getD_eq_getElem _ _ (by rwa [List.length_set]), List.getElem_set_self,
      UInt8.toNat_ofNat_of_lt' hn]
  · rw [if_neg hp, bitAt, bitAt, List.getD_eq_getElem?_getD, List.getElem?_set_ne (Ne.symm hp),
      List.getD_eq_getElem?_getD]

/-- One round of `writebits`. -/
theorem Exact.write_round (hb : Exact room b) {first k : ℕ} (value : ℕ) (h : (first + k) / 8 < b.bytes.length) :
    ∃ b', (do
      let byte ← Buffer.readu8 b ((first + k) / 8 : ℕ)
      let old := byte / 2 ^ ((first + k) % 8) % 2
      let bitValue := (value : ℤ) / 2 ^ k % 2
      Buffer.writeu8 room b ((first + k) / 8 : ℕ) (byte + (bitValue - old) * 2 ^ ((first + k) % 8))) = .ok b' ∧
      b'.closed = b.closed ∧ b'.read = b.read ∧ b'.bytes.length = b.bytes.length ∧
      ∀ p, bitAt b' p = if p = first + k then value.testBit k else bitAt b p := by
  obtain ⟨n, hn, heq, hbits⟩ := exists_setBit (b.bytes.getD ((first + k) / 8) 0).toNat_lt (Nat.mod_lt (first + k) (by decide : 0 < 8))
    (value.testBit k)
  refine ⟨{ b with bytes := b.bytes.set ((first + k) / 8) (UInt8.ofNat n) }, ?_, rfl, rfl, List.length_set, fun p => ?_⟩
  · rw [hb.readu8 h, ok_bind]
    dsimp only
    rw [testBit_div, testBit_div, heq, hb.writeu8 h hn]
  · rw [bitAt_set h hn]
    by_cases hp : p / 8 = (first + k) / 8
    · rw [if_pos hp, hbits]
      by_cases hsame : p = first + k
      · rw [if_pos hsame, if_pos (by rw [hsame])]
      · rw [if_neg hsame, if_neg (by omega), bitAt, hp]
    · have hne : ¬p = first + k := by
        rintro rfl
        exact hp rfl
      rw [if_neg hp, if_neg hne]

theorem Exact.writebits (hb : Exact room b) {first width value : ℕ} (hwidth : width ≤ 32)
    (h : first + width ≤ 8 * (b.bytes.length - b.read)) (hvalue : value < 2 ^ width) :
    ∃ b', writebits room b first width value = .ok b' ∧ Replaced b first value width b' := by
  have hexact := hb.exact_
  have hmax : MAX_EXACT_INTEGER = 9007199254740991 := rfl
  have hfirst : integer_ (first : ℤ) "bytes.Buffer bit offset" = .ok first := integer_of_le _ (by omega) (by omega)
  have htaking : integer_ (width : ℤ) "bytes.Buffer bit count" = .ok width := integer_of_le _ (by omega) (by omega)
  have hin : ¬(width > 32 || (value : ℤ) < 0 || (value : ℤ) ≥ 2 ^ width) = true := by
    have hcast : (value : ℤ) < 2 ^ width := by exact_mod_cast hvalue
    simp only [Bool.or_eq_true, decide_eq_true_eq]
    omega
  obtain ⟨t, hread, -⟩ := hb.readbits hwidth h
  rw [Buffer.writebits, hfirst, ok_bind, htaking, ok_bind, if_neg hin]
  dsimp only
  rw [hread, ok_bind]
  refine foldlM_range width ⟨rfl, rfl, rfl, fun p => by rw [if_neg (by omega)]⟩ fun k hk b₁ hinv => ?_
  have hlength := hinv.length_eq
  obtain ⟨b₂, hround, hclosed, hread, hlength', hbits⟩ :=
    (hb.replaced hinv).write_round value (show (first + k) / 8 < b₁.bytes.length by omega)
  refine ⟨b₂, hround, hclosed.trans hinv.closed_eq, hread.trans hinv.read_eq, hlength'.trans hlength, fun p => ?_⟩
  rw [hbits, hinv.bits]
  by_cases hlast : p = first + k
  · rw [if_pos hlast, if_pos (by omega), hlast, Nat.add_sub_cancel_left]
  · rw [if_neg hlast]
    by_cases hp : first ≤ p ∧ p < first + k
    · rw [if_pos hp, if_pos (by omega)]
    · rw [if_neg hp, if_neg (by omega)]

/-! ### Bits and bytes -/

/-- Every byte that a range of bits touches can be read. -/
def Readable (b : HeapBuffer) (offset : ℤ) (count : ℕ) : Prop :=
  ∀ i < count, ∃ bytes, readstring b ((offset + i) / 8) (some 1) = .ok bytes

/-- Access to a range of bits agrees with access to its bytes. -/
structure Agrees (room : ℕ) (b : HeapBuffer) (offset : ℤ) (count : ℕ) : Prop where
  succeeds : (∃ v, readbits b offset count = .ok v) ↔ Readable b offset count
  bits : ∀ v, readbits b offset count = .ok v → 0 ≤ v ∧ v < 2 ^ count ∧ ∀ i < count, ∃ byte,
    readstring b ((offset + i) / 8) (some 1) = .ok [byte] ∧
      v.toNat.testBit i = byte.toNat.testBit ((offset + i) % 8).toNat
  written : Readable b offset count → ∀ value : ℤ, 0 ≤ value → value < 2 ^ count →
    ∃ b', writebits room b offset count value = .ok b' ∧ readbits b' offset count = .ok value ∧
      b'.bytes.length = b.bytes.length ∧ b'.read = b.read ∧
      ∀ p : ℕ, (p : ℤ) < offset ∨ offset + count ≤ p → bitAt b' p = bitAt b p

theorem Exact.readable_iff (hb : Exact room b) {offset : ℤ} {count : ℕ} (hpos : 0 < count) :
    Readable b offset count ↔ 0 ≤ offset ∧ offset + count ≤ 8 * b.bytes.length := by
  constructor
  · intro h
    have hfirst := hb.readstring_one_iff.mp (h 0 hpos)
    have hlast := hb.readstring_one_iff.mp (h (count - 1) (by omega))
    omega
  · rintro ⟨hlow, hhigh⟩ i hi
    exact hb.readstring_one_iff.mpr (by omega)

theorem Exact.agrees_of_unread (hb : Exact room b) {first count : ℕ} (hcount : count ≤ 32)
    (h : first + count ≤ 8 * (b.bytes.length - b.read)) : Agrees room b first count := by
  have hread := hb.readbits hcount h
  have hbyte : ∀ i < count, readstring b (((first : ℤ) + i) / 8) (some 1) = .ok [b.bytes.getD ((first + i) / 8) 0] := by
    intro i hi
    have hplace : ((first : ℤ) + i) / 8 = ((first + i) / 8 : ℕ) := by omega
    rw [hplace, hb.readstring_one (by omega)]
  refine ⟨⟨fun _ i hi => ⟨_, hbyte i hi⟩, fun _ => hread.imp fun _ ht => ht.1⟩, fun v hv => ?_, fun _ value hlow hhigh => ?_⟩
  · obtain ⟨t, ht, v', rfl, hv', hbits⟩ := hread
    obtain rfl := Except.ok.inj (ht.symm.trans hv)
    refine ⟨Int.natCast_nonneg _, by exact_mod_cast hv', fun i hi => ⟨_, hbyte i hi, ?_⟩⟩
    have hrest : (((first : ℤ) + i) % 8).toNat = (first + i) % 8 := by omega
    rw [Int.toNat_natCast, hbits i hi, bitAt, hrest]
  · lift value to ℕ using hlow
    have hvalue : value < 2 ^ count := by exact_mod_cast hhigh
    obtain ⟨b', hwrite, hreplaced⟩ := hb.writebits hcount h hvalue
    have hb' := hb.replaced hreplaced
    obtain ⟨t, ht, v, rfl, hv, hbits⟩ := hb'.readbits hcount (show first + count ≤ _ by
      rw [hreplaced.length_eq, hreplaced.read_eq]
      exact h)
    have hsame : v = value := by
      refine Nat.eq_of_testBit_eq fun i => ?_
      by_cases hi : i < count
      · rw [hbits i hi, hreplaced.bits, if_pos (by omega), Nat.add_sub_cancel_left]
      · have hpow := Nat.pow_le_pow_right (by decide : 0 < 2) (Nat.le_of_not_lt hi)
        rw [Nat.testBit_lt_two_pow (hv.trans_le hpow), Nat.testBit_lt_two_pow (hvalue.trans_le hpow)]
    refine ⟨b', hwrite, by rw [ht, hsame], hreplaced.length_eq, hreplaced.read_eq, fun p hp => ?_⟩
    rw [hreplaced.bits, if_neg (by omega)]

/-- Ranges of bits agree with the bytes they lie in where they end within as many bytes as are
unread, and where they end past the storage. -/
theorem readbits_agrees {bytes : Bytes} (hnew : bytes.length ≤ room) (hroom : (room * 8 : ℤ) ≤ MAX_EXACT_INTEGER)
    (h : Relation.ReflTransGen (Step room) (newBuffer bytes) b) {offset : ℤ} {count : ℕ} (hcount : count ≤ 32) :
    Agrees room b offset count ↔
      (0 ≤ offset ∧ offset + count ≤ 8 * ((b.bytes.length - b.read : ℕ) : ℤ)) ∨
        (0 < count ∧ (offset < 0 ∨ 8 * b.bytes.length < offset + count)) := by
  have hkept := kept_of_steps hnew h
  have hfits := hkept.fits
  have hb : Exact room b := ⟨hkept, by omega⟩
  constructor
  · intro hagrees
    by_contra hnot
    have hreadable : Readable b offset count := by
      rcases Nat.eq_zero_or_pos count with rfl | hpos
      · exact fun i hi => absurd hi (Nat.not_lt_zero i)
      · exact (hb.readable_iff hpos).mpr (by omega)
    obtain ⟨v, hv⟩ := hagrees.succeeds.mpr hreadable
    exact hnot (.inl (readbits_ok hv))
  · rintro (⟨hlow, hhigh⟩ | ⟨hpos, hout⟩)
    · lift offset to ℕ using hlow
      exact hb.agrees_of_unread hcount (by omega)
    · have hunreadable : ¬Readable b offset count := by
        rw [hb.readable_iff hpos]
        omega
      have hrefused : ∀ v, readbits b offset count ≠ .ok v := by
        intro v hv
        have hin := readbits_ok hv
        omega
      exact ⟨⟨fun hv => hv.elim fun v hv => absurd hv (hrefused v), fun hr => absurd hr hunreadable⟩,
        fun v hv => absurd hv (hrefused v), fun hr => absurd hr hunreadable⟩

theorem readbits_agrees_letter :
    Agrees 8 (newBuffer [97]) 2 5 ↔
      ((0 : ℤ) ≤ 2 ∧ (2 : ℤ) + (5 : ℕ) ≤ 8 * (((newBuffer [97]).bytes.length - (newBuffer [97]).read : ℕ) : ℤ)) ∨
        (0 < 5 ∧ ((2 : ℤ) < 0 ∨ 8 * ((newBuffer [97]).bytes.length : ℤ) < 2 + (5 : ℕ))) :=
  readbits_agrees (by decide) (by decide) .refl (by decide)

/-- After one byte of `ab` is taken, the bits of `b` are refused while its byte is read. -/
theorem taken_disagrees :
    ¬∀ (bytes : Bytes) (b : HeapBuffer) (offset : ℤ) (count : ℕ), bytes.length ≤ 8 →
      Relation.ReflTransGen (Step 8) (newBuffer bytes) b → count ≤ 32 → Agrees 8 b offset count := by
  intro h
  have htaken : get (newBuffer [97, 98]) (some 1) = .ok ([97], ⟨[97, 98], 1, false⟩) := rfl
  have hagrees := h [97, 98] ⟨[97, 98], 1, false⟩ 8 8 (by decide) (.single (.get htaken)) (by decide)
  have hreadable : Readable ⟨[97, 98], 1, false⟩ 8 8 := by
    intro i hi
    have hplace : ((8 : ℤ) + i) / 8 = 1 := by omega
    rw [hplace]
    exact ⟨[98], rfl⟩
  obtain ⟨v, hv⟩ := hagrees.succeeds.mpr hreadable
  have hrefused : readbits ⟨[97, 98], 1, false⟩ 8 8 =
      .error "nupp: bytes.Buffer bit range range is past the end" := by rfl
  cases hrefused.symm.trans hv

end Nupp.Buffer
