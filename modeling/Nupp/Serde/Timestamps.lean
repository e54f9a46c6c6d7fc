import Nupp.Lib.Binary64
import Nupp.Lib.Decimal
import Nupp.Lib.DoubleArith
import Nupp.Lib.Loop

/-! The two texts of a timestamp in `serde/internal/timestamps`: seconds since the epoch
with a fraction, and a calendar date with a time. -/

namespace Nupp.timestamps

open Decimal Binary64 Double Loop

abbrev Bytes := List UInt8

/-- An instant: whole seconds in decimal text, and nanoseconds within the second. -/
structure Timestamp where
  seconds : Bytes
  nanos : ℤ
  deriving DecidableEq

/-- The bytes of a literal. -/
def ascii (text : String) : Bytes := text.toUTF8.toList

/-! Epoch text. -/

/-- The digits of `step`, lowest first, with what is carried out of them. -/
def stepDigits (carry : ℤ) : Bytes → Bytes × ℤ
  | [] => ([], carry)
  | byte :: rest =>
    let value : ℤ := (byte.toNat : ℤ) - 48 + carry
    let (value, carry) :=
      if value = 10 then (0, 1) else if value = -1 then (9, -1) else (value, (0 : ℤ))
    let (result, carry) := stepDigits carry rest
    (UInt8.ofNat (48 + value).toNat :: result, carry)

/-- A nonnegative decimal integer, one more or one less. -/
def step (digits : Bytes) (increase : Bool) : Bytes :=
  let (result, carry) := stepDigits (if increase then 1 else -1) digits.reverse
  let text := if carry = 1 then 49 :: result.reverse else result.reverse
  let text := text.dropWhile (· = 48)
  if text = [] then [48] else text

/-- `^%-?%d+$`, as the digits behind the sign. -/
def integerDigits (text : Bytes) : Option Bytes :=
  let digits := (readSign text).2
  if digits = [] || !digits.all isDigit then none else some digits

def seconds (text : Bytes) : Except String Unit :=
  match integerDigits text with
  | none => .error "invalid epoch seconds"
  | some digits =>
    if 1 < digits.length && digits.head? = some 48 then .error "epoch seconds have leading zeroes"
    else .ok ()

def negativeZero : Bytes := [minus, 48]

/-- At least `width` digits, as `%0d` spells a number that is not negative. -/
def padded (width : ℕ) (n : ℤ) : Bytes :=
  let digits := numeral n.toNat
  List.replicate (width - digits.length) 48 ++ digits

/-- `%09d` without the zeros at its end. -/
def nanosText (nanos : ℤ) : Bytes := stripZeros (padded 9 nanos)

def epoch (value : Timestamp) : Except String Bytes := do
  seconds value.seconds
  if value.nanos < 0 || value.nanos ≥ 1000000000 then throw "invalid nanoseconds"
  if value.nanos = 0 then return value.seconds
  let (whole, nanos) :=
    if value.seconds.head? = some minus && value.seconds ≠ negativeZero then
      (minus :: step value.seconds.tail false, 1000000000 - value.nanos)
    else if value.seconds = negativeZero then ([48], value.nanos)
    else (value.seconds, value.nanos)
  return whole ++ dot :: nanosText nanos

/-- `^(%-?%d+)%.(%d+)$` -/
def splitPoint (text : Bytes) : Option (Bytes × Bytes) :=
  let (negative, rest) := readSign text
  let whole := rest.takeWhile isDigit
  match rest.dropWhile isDigit with
  | point :: fraction =>
    if whole = [] || point ≠ dot || fraction = [] || !fraction.all isDigit then none
    else some ((if negative then minus :: whole else whole), fraction)
  | [] => none

/-- The nanoseconds of at most nine digits of a fraction. -/
def fractionNanos (fraction : Bytes) : ℤ :=
  value (fraction ++ List.replicate (9 - fraction.length) 48)

def parseEpoch (text : Bytes) : Except String Timestamp :=
  match splitPoint text with
  | none => do
    seconds text
    return ⟨if text = negativeZero then [48] else text, 0⟩
  | some (whole, fraction) => do
    seconds whole
    if 9 < fraction.length then throw "timestamp precision exceeds nanoseconds"
    let nanos := fractionNanos fraction
    if whole.head? = some minus && nanos ≠ 0 then
      return ⟨minus :: step whole.tail true, 1000000000 - nanos⟩
    else if whole = negativeZero then return ⟨[48], nanos⟩
    else return ⟨whole, nanos⟩

/-! Calendar text. -/

def leap (year : ℤ) : Bool := year % 4 = 0 && (year % 100 ≠ 0 || year % 400 = 0)

/-- The days before a year, from the year one on. -/
def before (year : ℤ) : ℤ :=
  let previous := year - 1
  365 * previous + previous / 4 - previous / 100 + previous / 400

def months : List ℤ := [31, 28, 31, 30, 31, 30, 31, 31, 30, 31, 30, 31]

/-- The length of a month, which counts from one. -/
def monthSize (year : ℤ) (month : ℕ) : ℤ :=
  months.getD (month - 1) 0 + if month = 2 && leap year then 1 else 0

/-- `count` digits at the front, and what follows them. -/
def takeDigits (count : ℕ) (text : Bytes) : Option (ℕ × Bytes) :=
  if (text.take count).length = count && (text.take count).all isDigit then
    some (value (text.take count), text.drop count)
  else none

def takeByte (byte : UInt8) : Bytes → Option Bytes
  | first :: rest => if first = byte then some rest else none
  | [] => none

/-- The parts of a date-time text. -/
structure Parts where
  year : ℕ
  month : ℕ
  day : ℕ
  hour : ℕ
  minute : ℕ
  second : ℕ
  fraction : Bytes

/-- `^(%d%d%d%d)%-(%d%d)%-(%d%d)T(%d%d):(%d%d):(%d%d)(.*)Z$` -/
def matchDateTime (text : Bytes) : Option Parts := do
  let (year, text) ← takeDigits 4 text
  let text ← takeByte 45 text
  let (month, text) ← takeDigits 2 text
  let text ← takeByte 45 text
  let (day, text) ← takeDigits 2 text
  let text ← takeByte 84 text
  let (hour, text) ← takeDigits 2 text
  let text ← takeByte 58 text
  let (minute, text) ← takeDigits 2 text
  let text ← takeByte 58 text
  let (second, text) ← takeDigits 2 text
  if text.getLast? = some 90 then some ⟨year, month, day, hour, minute, second, text.dropLast⟩ else none

/-- `^%.(%d+)$`, nine digits at most. -/
def matchFraction (fraction : Bytes) : Except String ℤ :=
  match fraction with
  | [] => .ok 0
  | point :: digits =>
    if point ≠ dot || digits = [] || !digits.all isDigit || 9 < digits.length then
      .error "invalid nanosecond fraction"
    else .ok (fractionNanos digits)

/-- Whole numbers as `tostring` spells them. -/
def integerText (n : ℤ) : Bytes := if n < 0 then minus :: numeral n.natAbs else numeral n.natAbs

/-- The days of the months before a month. -/
def daysBeforeMonth (month : ℕ) : ℤ := (months.take (month - 1)).sum

def parseDateTime (text : Bytes) : Except String Timestamp := do
  match matchDateTime text with
  | none => throw "expected a UTC date-time"
  | some p =>
    if p.year < 1 || p.month < 1 || 12 < p.month then throw "invalid date"
    if p.day < 1 || monthSize p.year p.month < p.day || 23 < p.hour || 59 < p.minute || 59 < p.second then
      throw "invalid date-time"
    let nanos ← matchFraction p.fraction
    let days := before p.year - before 1970 + p.day - 1 + daysBeforeMonth p.month
    let days := if 2 < p.month && leap p.year then days + 1 else days
    return ⟨integerText (days * 86400 + p.hour * 3600 + p.minute * 60 + p.second), nanos⟩

/-- One halving of the years between `low` and `high`. -/
def yearStep (absolute : ℤ) (x : ℤ × ℤ) : Option (ℤ × ℤ ⊕ ℤ) :=
  let (low, high) := x
  if low + 1 < high then
    let middle := (low + high) / 2
    if before middle ≤ absolute then some (.inl (middle, high)) else some (.inl (low, middle))
  else some (.inr low)

/-- One month taken off the days of the year. -/
def monthStep (year : ℤ) (x : ℕ × ℤ) : Option (ℕ × ℤ ⊕ ℕ × ℤ) :=
  let (month, day) := x
  let size := monthSize year month
  if day < size then some (.inr (month, day)) else some (.inl (month + 1, day - size))

def fractionText (nanos : ℤ) : Bytes := if nanos = 0 then [] else dot :: nanosText nanos

/-- The date-time of a number of seconds, in binary64 as `tonumber` and the division round it. -/
def dateTimeOf (seconds : ℚ) (nanos : ℤ) : Option (Except String Bytes) :=
  if seconds.den ≠ 1 || nanos < 0 || nanos ≥ 1000000000 then some (.error "invalid timestamp")
  else
    let days := ⌊fl (seconds / 86400)⌋
    let absolute := days + before 1970
    if absolute < 0 || absolute ≥ before 10000 then some (.error "date-time year is out of range")
    else do
      let year ← loop (yearStep absolute) 10000 (1, 10000)
      let (month, day) ← loop (monthStep year) 13 (1, absolute - before year)
      let time := seconds.num - days * 86400
      some (.ok (padded 4 year ++ [45] ++ padded 2 month ++ [45] ++ padded 2 (day + 1) ++ [84] ++
        padded 2 (time / 3600) ++ [58] ++ padded 2 (time / 60 % 60) ++ [58] ++ padded 2 (time % 60) ++
        fractionText nanos ++ [90]))

/-- `other` reads the texts that are no decimal numerals. -/
def dateTime (other : Bytes → Option Number) (value : Timestamp) : Option (Except String Bytes) :=
  match tonumber other value.seconds with
  | some (.finite x) => dateTimeOf x.value value.nanos
  | _ => some (.error "invalid timestamp")

end Nupp.timestamps
