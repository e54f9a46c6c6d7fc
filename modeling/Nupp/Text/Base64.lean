import Nupp.Lib.Loop
import Nupp.Lib.Words
import Mathlib.Data.List.TakeDrop

/-! Base64 in `bytes`: the encoder with its word loop, its group loop and its tails, and the
decoder that collects what is wrong with a text in one word. -/

namespace Nupp.Base64

open Loop

abbrev Bytes := List UInt8

def ALPHABET : Bytes := "ABCDEFGHIJKLMNOPQRSTUVWXYZabcdefghijklmnopqrstuvwxyz0123456789+/".toUTF8.toList

/-- The alphabet's inverse, indexed by byte. -/
def INVERSE : Bytes := [
  255, 255, 255, 255, 255, 255, 255, 255, 255, 255, 255, 255, 255, 255, 255, 255,
  255, 255, 255, 255, 255, 255, 255, 255, 255, 255, 255, 255, 255, 255, 255, 255,
  255, 255, 255, 255, 255, 255, 255, 255, 255, 255, 255, 62, 255, 255, 255, 63,
  52, 53, 54, 55, 56, 57, 58, 59, 60, 61, 255, 255, 255, 255, 255, 255,
  255, 0, 1, 2, 3, 4, 5, 6, 7, 8, 9, 10, 11, 12, 13, 14,
  15, 16, 17, 18, 19, 20, 21, 22, 23, 24, 25, 255, 255, 255, 255, 255,
  255, 26, 27, 28, 29, 30, 31, 32, 33, 34, 35, 36, 37, 38, 39, 40,
  41, 42, 43, 44, 45, 46, 47, 48, 49, 50, 51, 255, 255, 255, 255, 255,
  255, 255, 255, 255, 255, 255, 255, 255, 255, 255, 255, 255, 255, 255, 255, 255,
  255, 255, 255, 255, 255, 255, 255, 255, 255, 255, 255, 255, 255, 255, 255, 255,
  255, 255, 255, 255, 255, 255, 255, 255, 255, 255, 255, 255, 255, 255, 255, 255,
  255, 255, 255, 255, 255, 255, 255, 255, 255, 255, 255, 255, 255, 255, 255, 255,
  255, 255, 255, 255, 255, 255, 255, 255, 255, 255, 255, 255, 255, 255, 255, 255,
  255, 255, 255, 255, 255, 255, 255, 255, 255, 255, 255, 255, 255, 255, 255, 255,
  255, 255, 255, 255, 255, 255, 255, 255, 255, 255, 255, 255, 255, 255, 255, 255,
  255, 255, 255, 255, 255, 255, 255, 255, 255, 255, 255, 255, 255, 255, 255, 255]

/-! What `valuebuilder` gives: the bytes of a string and a buffer that grows to its capacity.
Where it raises there is no result. -/

def len (bytes : Bytes) : UInt32 := UInt32.ofNat bytes.length

def byte (bytes : Bytes) (offset : UInt32) : Option UInt32 := bytes[offset.toNat]?.map UInt8.toUInt32

/-- Four bytes from the least significant one up, as every target stores them. -/
def readU32 (bytes : Bytes) : UInt32 :=
  UInt32.ofNat ((bytes.getD 0 0).toNat + (bytes.getD 1 0).toNat * 256 + (bytes.getD 2 0).toNat * 65536 +
    (bytes.getD 3 0).toNat * 16777216)

def word (bytes : Bytes) (index : UInt32) : Option UInt32 :=
  let offset := index * 4
  if (offset.toNat : ℕ) + 4 > bytes.length then none else some (readU32 (bytes.drop offset.toNat))

structure Scratch where
  capacity : UInt32
  bytes : Bytes

def newByteScratch (capacity : UInt32) : Scratch := ⟨capacity, []⟩

/-- Writes at an index of the bytes, or behind the last of them. -/
def put (bytes : Bytes) (index : ℕ) (value : UInt8) : Bytes :=
  if index = bytes.length then bytes ++ [value] else bytes.set index value

def setScratchByte (scratch : Scratch) (index value : UInt32) : Option Scratch :=
  if index.toNat > scratch.bytes.length || index ≥ scratch.capacity || value > 255 then none
  else some { scratch with bytes := put scratch.bytes index.toNat value.toUInt8 }

def setScratchBytes4 (scratch : Scratch) (index value : UInt32) : Option Scratch :=
  if index.toNat > scratch.bytes.length || index + 4 > scratch.capacity then none
  else if index.toNat < scratch.bytes.length && (index + 4).toNat > scratch.bytes.length then none
  else
    let bytes := put scratch.bytes index.toNat (UInt8.ofNat (value.toNat % 256))
    let bytes := put bytes (index.toNat + 1) (UInt8.ofNat (value.toNat / 256 % 256))
    let bytes := put bytes (index.toNat + 2) (UInt8.ofNat (value.toNat / 65536 % 256))
    some { scratch with bytes := put bytes (index.toNat + 3) (UInt8.ofNat (value.toNat / 16777216 % 256)) }

def stringScratch (scratch : Scratch) (start length : UInt32) : Option Bytes :=
  if start.toNat > scratch.bytes.length || length.toNat > scratch.bytes.length - start.toNat then none
  else some ((scratch.bytes.drop start.toNat).take length.toNat)

/-! The encoder. -/

/-- A word as the big-endian view the encoding is stated in. -/
def reversed (w : UInt32) : UInt32 :=
  ((w <<< 24) ||| ((w &&& (65280 : UInt32)) <<< 8)) ||| (((w >>> 8) &&& (65280 : UInt32)) ||| (w >>> 24))

/-- The four letters of a group of twenty-four bits, in a word. -/
def letters (g : UInt32) : Option UInt32 := do
  let a ← byte ALPHABET ((g >>> 18) &&& 63)
  let b ← byte ALPHABET ((g >>> 12) &&& 63)
  let c ← byte ALPHABET ((g >>> 6) &&& 63)
  let d ← byte ALPHABET (g &&& 63)
  return (a ||| (b <<< 8)) ||| ((c <<< 16) ||| (d <<< 24))

/-- Where a loop is in its input and in its output. -/
structure State where
  at_ : UInt32
  out : UInt32
  scratch : Scratch

/-- Twelve bytes as three words. -/
def wordsStep (source : Bytes) (length : UInt32) (s : State) : Option (State ⊕ State) :=
  if s.at_ + 12 ≤ length then do
    let wi := s.at_ >>> 2
    let w0 := reversed (← word source wi)
    let w1 := reversed (← word source (wi + 1))
    let w2 := reversed (← word source (wi + 2))
    let g0 := w0 >>> 8
    let g1 := ((w0 &&& 255) <<< 16) ||| (w1 >>> 16)
    let g2 := ((w1 &&& 65535) <<< 8) ||| (w2 >>> 24)
    let g3 := w2 &&& 16777215
    let scratch ← setScratchBytes4 s.scratch s.out (← letters g0)
    let scratch ← setScratchBytes4 scratch (s.out + 4) (← letters g1)
    let scratch ← setScratchBytes4 scratch (s.out + 8) (← letters g2)
    let scratch ← setScratchBytes4 scratch (s.out + 12) (← letters g3)
    return .inl ⟨s.at_ + 12, s.out + 16, scratch⟩
  else some (.inr s)

/-- Three bytes. -/
def groupStep (source : Bytes) (length : UInt32) (s : State) : Option (State ⊕ State) :=
  if s.at_ + 3 ≤ length then do
    let b0 ← byte source s.at_
    let b1 ← byte source (s.at_ + 1)
    let b2 ← byte source (s.at_ + 2)
    let scratch ← setScratchByte s.scratch s.out (← byte ALPHABET (b0 >>> 2))
    let scratch ← setScratchByte scratch (s.out + 1) (← byte ALPHABET (((b0 &&& 3) <<< 4) ||| (b1 >>> 4)))
    let scratch ← setScratchByte scratch (s.out + 2) (← byte ALPHABET (((b1 &&& 15) <<< 2) ||| (b2 >>> 6)))
    let scratch ← setScratchByte scratch (s.out + 3) (← byte ALPHABET (b2 &&& 63))
    return .inl ⟨s.at_ + 3, s.out + 4, scratch⟩
  else some (.inr s)

/-- The one or two bytes that are left, if any. -/
def encodeTail (source : Bytes) (length : UInt32) (s : State) : Option State := do
  let rest := length - s.at_
  if rest = 1 then
    let c0 ← byte source s.at_
    let scratch ← setScratchByte s.scratch s.out (← byte ALPHABET (c0 >>> 2))
    let scratch ← setScratchByte scratch (s.out + 1) (← byte ALPHABET ((c0 &&& 3) <<< 4))
    let scratch ← setScratchByte scratch (s.out + 2) 61
    let scratch ← setScratchByte scratch (s.out + 3) 61
    return ⟨s.at_, s.out + 4, scratch⟩
  else if rest = 2 then
    let d0 ← byte source s.at_
    let d1 ← byte source (s.at_ + 1)
    let scratch ← setScratchByte s.scratch s.out (← byte ALPHABET (d0 >>> 2))
    let scratch ← setScratchByte scratch (s.out + 1) (← byte ALPHABET (((d0 &&& 3) <<< 4) ||| (d1 >>> 4)))
    let scratch ← setScratchByte scratch (s.out + 2) (← byte ALPHABET ((d1 &&& 15) <<< 2))
    let scratch ← setScratchByte scratch (s.out + 3) 61
    return ⟨s.at_, s.out + 4, scratch⟩
  else return s

def encodeAot (source : Bytes) : Option Bytes := do
  let length := len source
  let bound := length + (length >>> 1) + 4
  let s ← loop (wordsStep source length) (source.length + 1) ⟨0, 0, newByteScratch bound⟩
  let s ← loop (groupStep source length) (source.length + 1) s
  let s ← encodeTail source length s
  stringScratch s.scratch 0 s.out

/-! The decoder. -/

/-- How many of the last characters pad. -/
def paddingOf (text : Bytes) (length : UInt32) : Option UInt32 :=
  if length > 0 then do
    let last ← byte text (length - 1)
    let padding := if last = 61 then 1 else 0
    if padding = 1 && length > 1 then
      let before ← byte text (length - 2)
      return if before = 61 then 2 else padding
    else return padding
  else some 0

/-- The state of a loop, with the bits of every character read. -/
structure Decoding where
  state : State
  bad : UInt32

def inverse (text : Bytes) (offset : UInt32) : Option UInt32 := do
  byte INVERSE (← byte text offset)

/-- Four characters. -/
def decodeStep (text : Bytes) (whole : UInt32) (x : Decoding) : Option (Decoding ⊕ Decoding) :=
  let s := x.state
  if s.at_ < whole then do
    let a ← inverse text s.at_
    let b ← inverse text (s.at_ + 1)
    let c ← inverse text (s.at_ + 2)
    let d ← inverse text (s.at_ + 3)
    let bad := x.bad ||| ((a ||| b) ||| (c ||| d))
    let value := ((a <<< 18) ||| (b <<< 12)) ||| ((c <<< 6) ||| d)
    let scratch ← setScratchByte s.scratch s.out ((value >>> 16) &&& 255)
    let scratch ← setScratchByte scratch (s.out + 1) ((value >>> 8) &&& 255)
    let scratch ← setScratchByte scratch (s.out + 2) (value &&& 255)
    return .inl ⟨⟨s.at_ + 4, s.out + 3, scratch⟩, bad⟩
  else some (.inr x)

/-- The last four characters, of which one or two pad. -/
def decodeTail (text : Bytes) (padding : UInt32) (x : Decoding) : Option Decoding := do
  let s := x.state
  if padding > 0 then
    let a ← inverse text s.at_
    let b ← inverse text (s.at_ + 1)
    let c ← if padding = 1 then inverse text (s.at_ + 2) else some 0
    let bad := x.bad ||| (if padding = 1 then (c &&& 3) <<< 6 else (b &&& 15) <<< 6)
    let bad := bad ||| ((a ||| b) ||| c)
    let value := ((a <<< 18) ||| (b <<< 12)) ||| (c <<< 6)
    let scratch ← setScratchByte s.scratch s.out ((value >>> 16) &&& 255)
    if padding = 1 then
      let scratch ← setScratchByte scratch (s.out + 1) ((value >>> 8) &&& 255)
      return ⟨⟨s.at_, s.out + 2, scratch⟩, bad⟩
    else return ⟨⟨s.at_, s.out + 1, scratch⟩, bad⟩
  else return x

/-- The bytes of a text, or nothing where it is not canonical. -/
def decodeAot (text : Bytes) : Option (Option Bytes) := do
  let length := len text
  let padding ← paddingOf text length
  let whole := if padding > 0 then length - 4 else length
  let x ← loop (decodeStep text whole) (text.length + 1) ⟨⟨0, 0, newByteScratch (length + 4)⟩, 0⟩
  let x ← decodeTail text padding x
  if x.bad > 63 then return none
  else
    let bytes ← stringScratch x.state.scratch 0 x.state.out
    return some bytes

def base64encode (value : Bytes) : Option Bytes := encodeAot value

def base64decode (text : Bytes) : Option (Except String Bytes) := do
  if text.length % 4 ≠ 0 then return .error "base64 input length is not a multiple of four"
  match ← decodeAot text with
  | none => return .error "base64 input is not canonical padded base64"
  | some decoded => return .ok decoded

end Nupp.Base64

/-! The encoder writes four letters for every three bytes, whichever of its loops takes them. -/

namespace Nupp.Base64

open Loop Words

/-! The text of some bytes. -/

/-- The letter of six bits. -/
def letter (i : ℕ) : UInt8 := ALPHABET.getD i 0

/-- The four letters of three bytes. -/
def quad (x y z : UInt8) : Bytes :=
  [letter (x.toNat / 4), letter (x.toNat % 4 * 16 + y.toNat / 16), letter (y.toNat % 16 * 4 + z.toNat / 64),
    letter (z.toNat % 64)]

def encode : Bytes → Bytes
  | [] => []
  | [x] => [letter (x.toNat / 4), letter (x.toNat % 4 * 16), 61, 61]
  | [x, y] => [letter (x.toNat / 4), letter (x.toNat % 4 * 16 + y.toNat / 16), letter (y.toNat % 16 * 4), 61]
  | x :: y :: z :: rest => quad x y z ++ encode rest

theorem encode_append {a : Bytes} (h : a.length % 3 = 0) (b : Bytes) : encode (a ++ b) = encode a ++ encode b := by
  fun_induction encode a with
  | case1 => rfl
  | case2 x => simp at h
  | case3 x y => simp at h
  | case4 x y z rest ih =>
    have hrest : rest.length % 3 = 0 := by
      simp only [List.length_cons] at h
      omega
    simp only [List.cons_append, encode, ih hrest, List.append_assoc]

theorem length_encode (a : Bytes) : (encode a).length = (a.length + 2) / 3 * 4 := by
  fun_induction encode a with
  | case1 => rfl
  | case2 x => simp
  | case3 x y => simp
  | case4 x y z rest ih =>
    simp only [List.length_append, ih, quad, List.length_cons, List.length_nil]
    omega

theorem length_alphabet : ALPHABET.length = 64 := by decide +kernel

theorem byte_alphabet {i : UInt32} (h : i.toNat < 64) :
    byte ALPHABET i = some (letter i.toNat).toUInt32 := by
  have hlt : i.toNat < ALPHABET.length := by rwa [length_alphabet]
  rw [byte, letter, List.getElem?_eq_getElem hlt, List.getD_eq_getElem _ _ hlt]
  rfl

/-! The buffer. -/

theorem put_end (bytes : Bytes) (value : UInt8) : put bytes bytes.length value = bytes ++ [value] := if_pos rfl

/-- A byte behind the last one. -/
theorem setScratchByte_end {scratch : Scratch} {index value : UInt32} (hindex : index.toNat = scratch.bytes.length)
    (hcapacity : index < scratch.capacity) (hvalue : value.toNat < 256) :
    setScratchByte scratch index value = some { scratch with bytes := scratch.bytes ++ [UInt8.ofNat value.toNat] } := by
  have hbad : ¬(index.toNat > scratch.bytes.length || index ≥ scratch.capacity || value > 255) = true := by
    simp only [Bool.or_eq_true, decide_eq_true_eq, not_or, gt_iff_lt, ge_iff_le, UInt32.lt_iff_toNat_lt,
      UInt32.le_iff_toNat_le] at hcapacity ⊢
    exact ⟨⟨by omega, by omega⟩, by simp only [UInt32.reduceToNat]; omega⟩
  rw [setScratchByte, if_neg hbad, hindex, put_end]
  rfl

/-- Four bytes behind the last one. -/
theorem setScratchBytes4_end {scratch : Scratch} {index value : UInt32} (hindex : index.toNat = scratch.bytes.length)
    (hcapacity : index.toNat + 4 ≤ scratch.capacity.toNat) {a b c d : UInt8}
    (hvalue : value.toNat = a.toNat + b.toNat * 256 + c.toNat * 65536 + d.toNat * 16777216) :
    setScratchBytes4 scratch index value = some { scratch with bytes := scratch.bytes ++ [a, b, c, d] } := by
  have ha := a.toNat_lt
  have hb := b.toNat_lt
  have hc := c.toNat_lt
  have hmax := scratch.capacity.toNat_lt
  have hsum : (index + 4).toNat = index.toNat + 4 := by
    have hfour : (4 : UInt32).toNat = 4 := rfl
    rw [UInt32.toNat_add, hfour]
    omega
  have hbad : ¬(index.toNat > scratch.bytes.length || index + 4 > scratch.capacity) = true := by
    simp only [Bool.or_eq_true, decide_eq_true_eq, not_or, gt_iff_lt, UInt32.lt_iff_toNat_lt, hsum]
    omega
  have hstraddle : ¬(index.toNat < scratch.bytes.length && (index + 4).toNat > scratch.bytes.length) = true := by
    simp only [Bool.and_eq_true, decide_eq_true_eq]
    omega
  have hbyte : ∀ (n : ℕ) (e : UInt8), n = e.toNat → UInt8.ofNat n = e := by
    rintro n e rfl
    exact UInt8.ofNat_toNat
  have h0 := hbyte (value.toNat % 256) a (by omega)
  have h1 := hbyte (value.toNat / 256 % 256) b (by omega)
  have h2 := hbyte (value.toNat / 65536 % 256) c (by omega)
  have h3 := hbyte (value.toNat / 16777216 % 256) d (by have := d.toNat_lt; omega)
  rw [setScratchBytes4, if_neg hbad, if_neg hstraddle]
  simp only [h0, h1, h2, h3, hindex]
  have hput : ∀ (front : Bytes) (e : UInt8), put (scratch.bytes ++ front) (scratch.bytes.length + front.length) e =
      scratch.bytes ++ (front ++ [e]) := by
    intro front e
    rw [← List.length_append, put_end, List.append_assoc]
  have hp0 := hput [] a
  have hp1 := hput [a] b
  have hp2 := hput [a, b] c
  have hp3 := hput [a, b, c] d
  simp only [List.append_nil, List.length_nil, Nat.add_zero, List.nil_append, List.length_cons, List.cons_append,
    Nat.zero_add, Nat.reduceAdd] at hp0 hp1 hp2 hp3
  rw [hp0, hp1, hp2, hp3]

/-! The word of a group. -/

/-- Twenty-four bits of three bytes. -/
def group (x y z : UInt8) : ℕ := x.toNat * 65536 + y.toNat * 256 + z.toNat

theorem letters_group {g : UInt32} {x y z : UInt8} (h : g.toNat = group x y z) :
    ∃ w, letters g = some w ∧ w.toNat = (letter (x.toNat / 4)).toNat +
      (letter (x.toNat % 4 * 16 + y.toNat / 16)).toNat * 256 +
      (letter (y.toNat % 16 * 4 + z.toNat / 64)).toNat * 65536 + (letter (z.toNat % 64)).toNat * 16777216 := by
  have hx := x.toNat_lt
  have hy := y.toNat_lt
  have hz := z.toNat_lt
  have hlow : ∀ i : UInt32, (i &&& 63).toNat = i.toNat % 64 := fun i => toNat_and_low (n := 6) rfl
  have h18 : ((g >>> 18) &&& 63).toNat = x.toNat / 4 := by
    rw [hlow, toNat_shiftRight (n := 18) rfl (by norm_num), h, group]
    omega
  have h12 : ((g >>> 12) &&& 63).toNat = x.toNat % 4 * 16 + y.toNat / 16 := by
    rw [hlow, toNat_shiftRight (n := 12) rfl (by norm_num), h, group]
    omega
  have h6 : ((g >>> 6) &&& 63).toNat = y.toNat % 16 * 4 + z.toNat / 64 := by
    rw [hlow, toNat_shiftRight (n := 6) rfl (by norm_num), h, group]
    omega
  have h0 : (g &&& 63).toNat = z.toNat % 64 := by
    rw [hlow, h, group]
    omega
  rw [letters, byte_alphabet (by omega), byte_alphabet (by omega), byte_alphabet (by omega), byte_alphabet (by omega),
    h18, h12, h6, h0]
  refine ⟨_, rfl, ?_⟩
  generalize letter (x.toNat / 4) = a
  generalize letter (x.toNat % 4 * 16 + y.toNat / 16) = b
  generalize letter (y.toNat % 16 * 4 + z.toNat / 64) = c
  generalize letter (z.toNat % 64) = d
  have ha := a.toNat_lt
  have hb := b.toNat_lt
  have hc := c.toNat_lt
  have hd := d.toNat_lt
  have hb8 : (b.toUInt32 <<< 8).toNat = b.toNat * 256 := by
    rw [toNat_shiftLeft (n := 8) rfl (by norm_num), UInt8.toNat_toUInt32]
    omega
  have hc16 : (c.toUInt32 <<< 16).toNat = c.toNat * 65536 := by
    rw [toNat_shiftLeft (n := 16) rfl (by norm_num), UInt8.toNat_toUInt32]
    omega
  have hd24 : (d.toUInt32 <<< 24).toNat = d.toNat * 16777216 := by
    rw [toNat_shiftLeft (n := 24) rfl (by norm_num), UInt8.toNat_toUInt32]
    omega
  have hlowpart : (a.toUInt32 ||| (b.toUInt32 <<< 8)).toNat = a.toNat + b.toNat * 256 := by
    rw [toNat_or_high 8 (by rw [UInt8.toNat_toUInt32]; omega) (by omega), hb8, UInt8.toNat_toUInt32]
  have hhighpart : ((c.toUInt32 <<< 16) ||| (d.toUInt32 <<< 24)).toNat = c.toNat * 65536 + d.toNat * 16777216 := by
    rw [toNat_or_high 24 (by omega) (by omega), hc16, hd24]
  rw [toNat_or_high 16 (by omega) (by omega), hlowpart, hhighpart]
  omega

/-! The word loop. -/

theorem readU32_eq (a b c d : UInt8) (rest : Bytes) : (readU32 (a :: b :: c :: d :: rest)).toNat =
    a.toNat + b.toNat * 256 + c.toNat * 65536 + d.toNat * 16777216 := by
  have ha := a.toNat_lt
  have hb := b.toNat_lt
  have hc := c.toNat_lt
  have hd := d.toNat_lt
  simp only [readU32, List.getD_cons_zero, List.getD_cons_succ, UInt32.toNat_ofNat']
  omega

theorem reversed_eq {w : UInt32} {a b c d : UInt8}
    (h : w.toNat = a.toNat + b.toNat * 256 + c.toNat * 65536 + d.toNat * 16777216) :
    (reversed w).toNat = a.toNat * 16777216 + b.toNat * 65536 + c.toNat * 256 + d.toNat := by
  have ha := a.toNat_lt
  have hb := b.toNat_lt
  have hc := c.toNat_lt
  have hd := d.toNat_lt
  have h0 : (w <<< 24).toNat = a.toNat * 16777216 := by
    rw [toNat_shiftLeft (n := 24) rfl (by norm_num), h]
    omega
  have h1 : ((w &&& (65280 : UInt32)) <<< 8).toNat = b.toNat * 65536 := by
    rw [toNat_shiftLeft (n := 8) rfl (by norm_num), toNat_and_second, h]
    omega
  have h2 : ((w >>> 8) &&& (65280 : UInt32)).toNat = c.toNat * 256 := by
    rw [toNat_and_second, toNat_shiftRight (n := 8) rfl (by norm_num), h]
    omega
  have h3 : (w >>> 24).toNat = d.toNat := by
    rw [toNat_shiftRight (n := 24) rfl (by norm_num), h]
    omega
  have hhigh : ((w <<< 24) ||| ((w &&& (65280 : UInt32)) <<< 8)).toNat = a.toNat * 16777216 + b.toNat * 65536 := by
    rw [toNat_or_low 24 (by omega) (by omega), h0, h1]
  have hlow : (((w >>> 8) &&& (65280 : UInt32)) ||| (w >>> 24)).toNat = c.toNat * 256 + d.toNat := by
    rw [toNat_or_low 8 (by omega) (by omega), h2, h3]
  rw [reversed, toNat_or_low 16 (by omega) (by omega), hhigh, hlow]
  omega

theorem word_eq (source : Bytes) (index : UInt32) (at_ : ℕ) (hindex : index.toNat * 4 = at_) (hlt : at_ < 2 ^ 32)
    {a b c d : UInt8} {rest : Bytes} (h : source.drop at_ = a :: b :: c :: d :: rest) :
    ∃ w, word source index = some w ∧
      (reversed w).toNat = a.toNat * 16777216 + b.toNat * 65536 + c.toNat * 256 + d.toNat := by
  have hfour : (4 : UInt32).toNat = 4 := rfl
  have hoffset : (index * 4).toNat = at_ := by
    rw [UInt32.toNat_mul, hfour]
    omega
  have hlen : at_ + 4 ≤ source.length := by
    have hlen := congrArg List.length h
    simp only [List.length_drop, List.length_cons] at hlen
    omega
  refine ⟨readU32 (source.drop at_), ?_, ?_⟩
  · rw [word, hoffset]
    exact if_neg (by omega)
  · rw [h]
    exact reversed_eq (readU32_eq a b c d rest)

/-- The four groups of three words. -/
theorem groups_eq {w0 w1 w2 : UInt32} {b0 b1 b2 b3 b4 b5 b6 b7 b8 b9 b10 b11 : UInt8}
    (h0 : w0.toNat = b0.toNat * 16777216 + b1.toNat * 65536 + b2.toNat * 256 + b3.toNat)
    (h1 : w1.toNat = b4.toNat * 16777216 + b5.toNat * 65536 + b6.toNat * 256 + b7.toNat)
    (h2 : w2.toNat = b8.toNat * 16777216 + b9.toNat * 65536 + b10.toNat * 256 + b11.toNat) :
    (w0 >>> 8).toNat = group b0 b1 b2 ∧ (((w0 &&& 255) <<< 16) ||| (w1 >>> 16)).toNat = group b3 b4 b5 ∧
      (((w1 &&& 65535) <<< 8) ||| (w2 >>> 24)).toNat = group b6 b7 b8 ∧
        (w2 &&& 16777215).toNat = group b9 b10 b11 := by
  have hb0 := b0.toNat_lt
  have hb1 := b1.toNat_lt
  have hb2 := b2.toNat_lt
  have hb3 := b3.toNat_lt
  have hb5 := b5.toNat_lt
  have hb6 := b6.toNat_lt
  have hb7 := b7.toNat_lt
  have hb9 := b9.toNat_lt
  have hb10 := b10.toNat_lt
  have hb11 := b11.toNat_lt
  have h1low : ((w0 &&& 255) <<< 16).toNat = b3.toNat * 65536 := by
    rw [toNat_shiftLeft (n := 16) rfl (by norm_num), toNat_and_low (n := 8) rfl, h0]
    omega
  have h1high : (w1 >>> 16).toNat = b4.toNat * 256 + b5.toNat := by
    rw [toNat_shiftRight (n := 16) rfl (by norm_num), h1]
    omega
  have h2low : ((w1 &&& 65535) <<< 8).toNat = b6.toNat * 65536 + b7.toNat * 256 := by
    rw [toNat_shiftLeft (n := 8) rfl (by norm_num), toNat_and_low (n := 16) rfl, h1]
    omega
  have h2high : (w2 >>> 24).toNat = b8.toNat := by
    rw [toNat_shiftRight (n := 24) rfl (by norm_num), h2]
    omega
  refine ⟨?_, ?_, ?_, ?_⟩
  · rw [toNat_shiftRight (n := 8) rfl (by norm_num), h0, group]
    omega
  · have hb4 := b4.toNat_lt
    rw [toNat_or_low 16 (by omega) (by omega), h1low, h1high, group]
    omega
  · have hb8 := b8.toNat_lt
    rw [toNat_or_low 8 (by omega) (by omega), h2low, h2high, group]
  · rw [toNat_and_low (n := 24) rfl, h2, group]
    omega

/-- A group is written behind what is there. -/
theorem writes_group (scratch : Scratch) (index : UInt32) {g : UInt32} {x y z : UInt8} (hg : g.toNat = group x y z)
    (hindex : index.toNat = scratch.bytes.length) (hcapacity : index.toNat + 4 ≤ scratch.capacity.toNat) :
    ∃ w, letters g = some w ∧
      setScratchBytes4 scratch index w = some { scratch with bytes := scratch.bytes ++ quad x y z } := by
  obtain ⟨w, hw, hvalue⟩ := letters_group hg
  exact ⟨w, hw, setScratchBytes4_end hindex hcapacity hvalue⟩

theorem exists_three {l : Bytes} (h : 3 ≤ l.length) : ∃ x y z rest, l = x :: y :: z :: rest := by
  rcases l with _ | ⟨x, _ | ⟨y, _ | ⟨z, rest⟩⟩⟩
  · simp at h
  · simp at h
  · simp at h
  · exact ⟨x, y, z, rest, rfl⟩

/-- A loop has encoded its input up to a group. -/
structure Encoded (source : Bytes) (bound : UInt32) (s : State) (k : ℕ) : Prop where
  at_eq : s.at_.toNat = 3 * k
  le_length : 3 * k ≤ source.length
  out_eq : s.out.toNat = 4 * k
  capacity : s.scratch.capacity = bound
  bytes_eq : s.scratch.bytes = encode (source.take (3 * k))

variable {source : Bytes} {bound : UInt32} {s : State} {k : ℕ}

theorem Encoded.length_eq (h : Encoded source bound s k) : s.scratch.bytes.length = 4 * k := by
  have hle := h.le_length
  rw [h.bytes_eq, length_encode, List.length_take]
  omega

theorem encode_take {j : ℕ} (h : 3 * j ≤ source.length) {x y z : UInt8} {rest : Bytes}
    (hdrop : source.drop (3 * j) = x :: y :: z :: rest) :
    encode (source.take (3 * (j + 1))) = encode (source.take (3 * j)) ++ quad x y z := by
  have htake : source.take (3 * (j + 1)) = source.take (3 * j) ++ [x, y, z] := by
    rw [show 3 * (j + 1) = 3 * j + 3 by omega, List.take_add, hdrop]
    rfl
  have hlen : (source.take (3 * j)).length % 3 = 0 := by
    rw [List.length_take]
    omega
  rw [htake, encode_append hlen]
  simp [encode]

theorem exists_group (source : Bytes) (j : ℕ) (h : 3 * (j + 1) ≤ source.length) :
    ∃ x y z, source.drop (3 * j) = x :: y :: z :: source.drop (3 * (j + 1)) := by
  have hlen : 3 ≤ (source.drop (3 * j)).length := by
    rw [List.length_drop]
    omega
  obtain ⟨x, y, z, rest, hdrop⟩ := exists_three hlen
  refine ⟨x, y, z, ?_⟩
  rw [show 3 * (j + 1) = 3 * j + 3 by omega, ← List.drop_drop, hdrop]
  rfl

theorem toNat_add {a b : UInt32} (h : a.toNat + b.toNat < 2 ^ 32) : (a + b).toNat = a.toNat + b.toNat := by
  rw [UInt32.toNat_add, Nat.mod_eq_of_lt h]

/-- The room for the text fits its type, and so does every index of the loops. -/
structure Sized (source : Bytes) (bound : UInt32) : Prop where
  length_lt : source.length + source.length / 2 + 4 < 2 ^ 32
  bound_eq : bound.toNat = source.length + source.length / 2 + 4

theorem Sized.len_eq (h : Sized source bound) : (len source).toNat = source.length := by
  have := h.length_lt
  rw [len, UInt32.toNat_ofNat']
  omega

theorem wordsStep_more (hsize : Sized source bound) {j : ℕ} (h : Encoded source bound s (4 * j))
    (hmore : 12 * (j + 1) ≤ source.length) :
    ∃ s', wordsStep source (len source) s = some (.inl s') ∧ Encoded source bound s' (4 * (j + 1)) := by
  have hlen := hsize.length_lt
  have hbound := hsize.bound_eq
  obtain ⟨hat, -, hout, hcapacity, hbytes⟩ := h
  have hcount : s.scratch.bytes.length = 4 * (4 * j) := by
    rw [hbytes, length_encode, List.length_take]
    omega
  obtain ⟨b0, b1, b2, hd0⟩ := exists_group source (4 * j) (by omega)
  obtain ⟨b3, b4, b5, hd1⟩ := exists_group source (4 * j + 1) (by omega)
  obtain ⟨b6, b7, b8, hd2⟩ := exists_group source (4 * j + 2) (by omega)
  obtain ⟨b9, b10, b11, hd3⟩ := exists_group source (4 * j + 3) (by omega)
  have hall : source.drop (12 * j) = b0 :: b1 :: b2 :: b3 :: b4 :: b5 :: b6 :: b7 :: b8 :: b9 :: b10 :: b11 ::
      source.drop (3 * (4 * j + 3 + 1)) := by
    rw [show 12 * j = 3 * (4 * j) by omega, hd0, hd1, hd2, hd3]
  have hone : (1 : UInt32).toNat = 1 := rfl
  have htwo : (2 : UInt32).toNat = 2 := rfl
  have hindex : (s.at_ >>> 2).toNat = 3 * j := by
    rw [toNat_shiftRight (n := 2) rfl (by norm_num), hat]
    omega
  obtain ⟨v0, hv0, hw0⟩ := word_eq source (s.at_ >>> 2) (12 * j) (by omega) (by omega) hall
  obtain ⟨v1, hv1, hw1⟩ := word_eq source (s.at_ >>> 2 + 1) (12 * j + 4)
    (by rw [toNat_add (by omega)]; omega) (by omega) (by rw [← List.drop_drop, hall]; rfl)
  obtain ⟨v2, hv2, hw2⟩ := word_eq source (s.at_ >>> 2 + 2) (12 * j + 8)
    (by rw [toNat_add (by omega)]; omega) (by omega) (by rw [← List.drop_drop, hall]; rfl)
  obtain ⟨hg0, hg1, hg2, hg3⟩ := groups_eq hw0 hw1 hw2
  have hfour : (4 : UInt32).toNat = 4 := rfl
  have height : (8 : UInt32).toNat = 8 := rfl
  have htwelve : (12 : UInt32).toNat = 12 := rfl
  have hsixteen : (16 : UInt32).toNat = 16 := rfl
  have hout4 : (s.out + 4).toNat = 16 * j + 4 := by rw [toNat_add (by omega)]; omega
  have hout8 : (s.out + 8).toNat = 16 * j + 8 := by rw [toNat_add (by omega)]; omega
  have hout12 : (s.out + 12).toNat = 16 * j + 12 := by rw [toNat_add (by omega)]; omega
  have hquad : ∀ x y z, (quad x y z).length = 4 := fun _ _ _ => rfl
  obtain ⟨l0, hl0, hs0⟩ := writes_group s.scratch s.out hg0 (by omega)
    (by rw [hcapacity]; omega)
  obtain ⟨l1, hl1, hs1⟩ := writes_group { s.scratch with bytes := s.scratch.bytes ++ quad b0 b1 b2 }
    (s.out + 4) hg1 (by rw [List.length_append, hquad]; omega) (by dsimp only; rw [hcapacity]; omega)
  obtain ⟨l2, hl2, hs2⟩ := writes_group
    { s.scratch with bytes := s.scratch.bytes ++ quad b0 b1 b2 ++ quad b3 b4 b5 }
    (s.out + 8) hg2 (by rw [List.length_append, List.length_append, hquad, hquad]; omega)
    (by dsimp only; rw [hcapacity]; omega)
  obtain ⟨l3, hl3, hs3⟩ := writes_group
    { s.scratch with bytes := s.scratch.bytes ++ quad b0 b1 b2 ++ quad b3 b4 b5 ++ quad b6 b7 b8 }
    (s.out + 12) hg3
    (by rw [List.length_append, List.length_append, List.length_append, hquad, hquad, hquad]; omega)
    (by dsimp only; rw [hcapacity]; omega)
  have hle : s.at_ + 12 ≤ len source := by
    rw [UInt32.le_iff_toNat_le, toNat_add (by omega), hsize.len_eq]
    omega
  refine ⟨⟨s.at_ + 12, s.out + 16, ⟨s.scratch.capacity, s.scratch.bytes ++ quad b0 b1 b2 ++ quad b3 b4 b5 ++
    quad b6 b7 b8 ++ quad b9 b10 b11⟩⟩, ?_, ?_, ?_, ?_, hcapacity, ?_⟩
  · rw [wordsStep, if_pos hle]
    simp only [hv0, hv1, hv2, Option.bind_eq_bind, Option.bind_some, hl0, hs0, hl1, hs1, hl2, hs2, hl3, hs3]
    rfl
  · dsimp only
    rw [toNat_add (by omega)]
    omega
  · omega
  · dsimp only
    rw [toNat_add (by omega)]
    omega
  · dsimp only
    rw [hbytes, show 3 * (4 * (j + 1)) = 3 * (4 * j + 3 + 1) by omega, encode_take (by omega) hd3,
      encode_take (by omega) hd2, encode_take (by omega) hd1, encode_take (by omega) hd0]

theorem wordsStep_advances (hsize : Sized source bound) :
    Advances (wordsStep source (len source)) (fun s => ∃ j, Encoded source bound s (4 * j))
      (fun s => source.length - s.at_.toNat) (fun s => ∃ k, Encoded source bound s k) := by
  rintro s ⟨j, hs⟩
  have hlen := hsize.length_lt
  have hat := hs.at_eq
  have htwelve : (12 : UInt32).toNat = 12 := rfl
  have hle := hs.le_length
  by_cases hmore : 12 * (j + 1) ≤ source.length
  · obtain ⟨s', hstep, hs'⟩ := wordsStep_more hsize hs hmore
    have hat' := hs'.at_eq
    exact .inl ⟨s', hstep, ⟨j + 1, hs'⟩, by dsimp only; omega⟩
  · refine .inr ⟨s, ?_, 4 * j, hs⟩
    have hlast : ¬s.at_ + 12 ≤ len source := by
      rw [UInt32.le_iff_toNat_le, toNat_add (by omega), hsize.len_eq]
      omega
    rw [wordsStep, if_neg hlast]

/-! The group loop. -/

/-- A letter is written behind what is there. -/
theorem writes_letter (scratch : Scratch) (index : UInt32) {i : UInt32} {n : ℕ} (hi : i.toNat = n) (hn : n < 64)
    (hindex : index.toNat = scratch.bytes.length) (hcapacity : index.toNat < scratch.capacity.toNat) :
    byte ALPHABET i = some (letter n).toUInt32 ∧ setScratchByte scratch index (letter n).toUInt32 =
      some { scratch with bytes := scratch.bytes ++ [letter n] } := by
  have hlt : (letter n).toUInt32.toNat < 256 := by
    rw [UInt8.toNat_toUInt32]
    exact (letter n).toNat_lt
  refine ⟨?_, ?_⟩
  · rw [byte_alphabet (by omega), hi]
  · rw [setScratchByte_end hindex (UInt32.lt_iff_toNat_lt.mpr hcapacity) hlt, UInt8.toNat_toUInt32, UInt8.ofNat_toNat]

theorem byte_drop {offset : UInt32} {i : ℕ} (hoffset : offset.toNat = i) {b : UInt8} {rest : Bytes}
    (h : source.drop i = b :: rest) : byte source offset = some b.toUInt32 := by
  have hget : source[i]? = some b := by
    rw [← List.head?_drop, h]
    rfl
  rw [byte, hoffset, hget]
  rfl

/-- The six bits of the letters of some bytes. -/
theorem sixBits (x y z : UInt8) :
    (x.toUInt32 >>> 2).toNat = x.toNat / 4 ∧ ((x.toUInt32 &&& 3) <<< 4).toNat = x.toNat % 4 * 16 ∧
      (((x.toUInt32 &&& 3) <<< 4) ||| (y.toUInt32 >>> 4)).toNat = x.toNat % 4 * 16 + y.toNat / 16 ∧
      ((y.toUInt32 &&& 15) <<< 2).toNat = y.toNat % 16 * 4 ∧
      (((y.toUInt32 &&& 15) <<< 2) ||| (z.toUInt32 >>> 6)).toNat = y.toNat % 16 * 4 + z.toNat / 64 ∧
      (z.toUInt32 &&& 63).toNat = z.toNat % 64 := by
  have hx := x.toNat_lt
  have hy := y.toNat_lt
  have hz := z.toNat_lt
  have h1 : ((x.toUInt32 &&& 3) <<< 4).toNat = x.toNat % 4 * 16 := by
    rw [toNat_shiftLeft (n := 4) rfl (by norm_num), toNat_and_low (n := 2) rfl, UInt8.toNat_toUInt32]
    omega
  have h2 : (y.toUInt32 >>> 4).toNat = y.toNat / 16 := by
    rw [toNat_shiftRight (n := 4) rfl (by norm_num), UInt8.toNat_toUInt32]
    rfl
  have h3 : ((y.toUInt32 &&& 15) <<< 2).toNat = y.toNat % 16 * 4 := by
    rw [toNat_shiftLeft (n := 2) rfl (by norm_num), toNat_and_low (n := 4) rfl, UInt8.toNat_toUInt32]
    omega
  have h4 : (z.toUInt32 >>> 6).toNat = z.toNat / 64 := by
    rw [toNat_shiftRight (n := 6) rfl (by norm_num), UInt8.toNat_toUInt32]
    rfl
  refine ⟨?_, h1, ?_, h3, ?_, ?_⟩
  · rw [toNat_shiftRight (n := 2) rfl (by norm_num), UInt8.toNat_toUInt32]
    rfl
  · rw [toNat_or_low 4 (by omega) (by omega), h1, h2]
  · rw [toNat_or_low 2 (by omega) (by omega), h3, h4]
  · rw [toNat_and_low (n := 6) rfl, UInt8.toNat_toUInt32]
    rfl

theorem groupStep_more (hsize : Sized source bound) (h : Encoded source bound s k)
    (hmore : 3 * (k + 1) ≤ source.length) :
    ∃ s', groupStep source (len source) s = some (.inl s') ∧ Encoded source bound s' (k + 1) := by
  have hlen := hsize.length_lt
  have hbound := hsize.bound_eq
  have hcount := h.length_eq
  obtain ⟨hat, -, hout, hcapacity, hbytes⟩ := h
  obtain ⟨x, y, z, hdrop⟩ := exists_group source k hmore
  have hx := x.toNat_lt
  have hy := y.toNat_lt
  have hz := z.toNat_lt
  have hone : (1 : UInt32).toNat = 1 := rfl
  have htwo : (2 : UInt32).toNat = 2 := rfl
  have hthree : (3 : UInt32).toNat = 3 := rfl
  have hfour : (4 : UInt32).toNat = 4 := rfl
  have hout1 : (s.out + 1).toNat = 4 * k + 1 := by rw [toNat_add (by omega)]; omega
  have hout2 : (s.out + 2).toNat = 4 * k + 2 := by rw [toNat_add (by omega)]; omega
  have hout3 : (s.out + 3).toNat = 4 * k + 3 := by rw [toNat_add (by omega)]; omega
  have hb0 := byte_drop hat hdrop
  have hb1 : byte source (s.at_ + 1) = some y.toUInt32 :=
    byte_drop (i := 3 * k + 1) (by rw [toNat_add (by omega)]; omega) (by rw [← List.drop_drop, hdrop]; rfl)
  have hb2 : byte source (s.at_ + 2) = some z.toUInt32 :=
    byte_drop (i := 3 * k + 2) (by rw [toNat_add (by omega)]; omega) (by rw [← List.drop_drop, hdrop]; rfl)
  obtain ⟨h0, -, h1, -, h2, h3⟩ := sixBits x y z
  obtain ⟨hl0, hs0⟩ := writes_letter s.scratch s.out h0 (by omega) (by omega) (by rw [hcapacity]; omega)
  obtain ⟨hl1, hs1⟩ := writes_letter ⟨s.scratch.capacity, s.scratch.bytes ++ [letter (x.toNat / 4)]⟩ (s.out + 1) h1
    (by omega) (by rw [List.length_append, List.length_singleton]; omega) (by dsimp only; rw [hcapacity]; omega)
  obtain ⟨hl2, hs2⟩ := writes_letter ⟨s.scratch.capacity, s.scratch.bytes ++ [letter (x.toNat / 4)] ++
    [letter (x.toNat % 4 * 16 + y.toNat / 16)]⟩ (s.out + 2) h2 (by omega)
    (by simp only [List.length_append, List.length_singleton]; omega) (by dsimp only; rw [hcapacity]; omega)
  obtain ⟨hl3, hs3⟩ := writes_letter ⟨s.scratch.capacity, s.scratch.bytes ++ [letter (x.toNat / 4)] ++
    [letter (x.toNat % 4 * 16 + y.toNat / 16)] ++ [letter (y.toNat % 16 * 4 + z.toNat / 64)]⟩ (s.out + 3) h3 (by omega)
    (by simp only [List.length_append, List.length_singleton]; omega) (by dsimp only; rw [hcapacity]; omega)
  have hle : s.at_ + 3 ≤ len source := by
    rw [UInt32.le_iff_toNat_le, toNat_add (by omega), hsize.len_eq]
    omega
  refine ⟨⟨s.at_ + 3, s.out + 4, ⟨s.scratch.capacity, s.scratch.bytes ++ quad x y z⟩⟩, ?_, ?_, hmore, ?_,
    hcapacity, ?_⟩
  · rw [groupStep, if_pos hle]
    simp only [hb0, hb1, hb2, Option.bind_eq_bind, Option.bind_some, hl0, hs0, hl1, hs1, hl2, hs2, hl3, hs3]
    simp only [List.append_assoc]
    rfl
  · dsimp only
    rw [toNat_add (by omega)]
    omega
  · dsimp only
    rw [toNat_add (by omega)]
    omega
  · dsimp only
    rw [hbytes, encode_take (by omega) hdrop]

theorem groupStep_advances (hsize : Sized source bound) :
    Advances (groupStep source (len source)) (fun s => ∃ k, Encoded source bound s k)
      (fun s => source.length - s.at_.toNat)
      (fun s => ∃ k, Encoded source bound s k ∧ source.length < 3 * (k + 1)) := by
  rintro s ⟨k, hs⟩
  have hlen := hsize.length_lt
  have hat := hs.at_eq
  have hthree : (3 : UInt32).toNat = 3 := rfl
  have hle := hs.le_length
  by_cases hmore : 3 * (k + 1) ≤ source.length
  · obtain ⟨s', hstep, hs'⟩ := groupStep_more hsize hs hmore
    have hat' := hs'.at_eq
    exact .inl ⟨s', hstep, ⟨k + 1, hs'⟩, by dsimp only; omega⟩
  · refine .inr ⟨s, ?_, k, hs, not_le.mp hmore⟩
    have hlast : ¬s.at_ + 3 ≤ len source := by
      rw [UInt32.le_iff_toNat_le, toNat_add (by omega), hsize.len_eq]
      omega
    rw [groupStep, if_neg hlast]

/-! The tails. -/

/-- A byte is written behind what is there. -/
theorem writes_pad (scratch : Scratch) (index : UInt32) (hindex : index.toNat = scratch.bytes.length)
    (hcapacity : index.toNat < scratch.capacity.toNat) :
    setScratchByte scratch index 61 = some { scratch with bytes := scratch.bytes ++ [61] } :=
  setScratchByte_end hindex (UInt32.lt_iff_toNat_lt.mpr hcapacity) (by decide)

theorem encodeTail_spec (hsize : Sized source bound) (h : Encoded source bound s k)
    (hlast : source.length < 3 * (k + 1)) :
    ∃ s', encodeTail source (len source) s = some s' ∧ s'.scratch.bytes = encode source ∧
      s'.out.toNat = (encode source).length := by
  have hlen := hsize.length_lt
  have hbound := hsize.bound_eq
  have hlength := hsize.len_eq
  have hcount := h.length_eq
  obtain ⟨hat, hle, hout, hcapacity, hbytes⟩ := h
  have hsub : (len source - s.at_).toNat = source.length - 3 * k := by
    rw [UInt32.toNat_sub_of_le _ _ (by rw [UInt32.le_iff_toNat_le]; omega)]
    omega
  have hencode : encode source = s.scratch.bytes ++ encode (source.drop (3 * k)) := by
    have hfull : (source.take (3 * k)).length % 3 = 0 := by
      rw [List.length_take]
      omega
    rw [hbytes, ← encode_append hfull, List.take_append_drop]
  have hone : (1 : UInt32).toNat = 1 := rfl
  have htwo : (2 : UInt32).toNat = 2 := rfl
  have hthree : (3 : UInt32).toNat = 3 := rfl
  have hfour : (4 : UInt32).toNat = 4 := rfl
  rcases hdrop : source.drop (3 * k) with _ | ⟨x, _ | ⟨y, rest⟩⟩
  · have hrest : source.length = 3 * k := by
      have := congrArg List.length hdrop
      simp only [List.length_drop, List.length_nil] at this
      omega
    have h1 : ¬len source - s.at_ = 1 := fun heq => by
      have := congrArg UInt32.toNat heq
      omega
    have h2 : ¬len source - s.at_ = 2 := fun heq => by
      have := congrArg UInt32.toNat heq
      omega
    refine ⟨s, ?_, ?_, ?_⟩
    · simp only [encodeTail, if_neg h1, if_neg h2]
      rfl
    · rw [hencode, hdrop, encode, List.append_nil]
    · rw [length_encode]
      omega
  · have hrest : source.length = 3 * k + 1 := by
      have := congrArg List.length hdrop
      simp only [List.length_drop, List.length_cons, List.length_nil] at this
      omega
    have h1 : len source - s.at_ = 1 := UInt32.toNat_inj.mp (by omega)
    have hx := x.toNat_lt
    have hout1 : (s.out + 1).toNat = 4 * k + 1 := by rw [toNat_add (by omega)]; omega
    have hout2 : (s.out + 2).toNat = 4 * k + 2 := by rw [toNat_add (by omega)]; omega
    have hout3 : (s.out + 3).toNat = 4 * k + 3 := by rw [toNat_add (by omega)]; omega
    have hb0 := byte_drop hat hdrop
    obtain ⟨hi0, hi1, -⟩ := sixBits x x x
    obtain ⟨hl0, hs0⟩ := writes_letter s.scratch s.out hi0 (by omega) (by omega) (by rw [hcapacity]; omega)
    obtain ⟨hl1, hs1⟩ := writes_letter ⟨s.scratch.capacity, s.scratch.bytes ++ [letter (x.toNat / 4)]⟩ (s.out + 1) hi1
      (by omega) (by rw [List.length_append, List.length_singleton]; omega) (by dsimp only; rw [hcapacity]; omega)
    have hs2 := writes_pad ⟨s.scratch.capacity, s.scratch.bytes ++ [letter (x.toNat / 4)] ++
      [letter (x.toNat % 4 * 16)]⟩ (s.out + 2) (by simp only [List.length_append, List.length_singleton]; omega)
      (by dsimp only; rw [hcapacity]; omega)
    have hs3 := writes_pad ⟨s.scratch.capacity, s.scratch.bytes ++ [letter (x.toNat / 4)] ++
      [letter (x.toNat % 4 * 16)] ++ [61]⟩ (s.out + 3)
      (by simp only [List.length_append, List.length_singleton]; omega) (by dsimp only; rw [hcapacity]; omega)
    refine ⟨⟨s.at_, s.out + 4, ⟨s.scratch.capacity, s.scratch.bytes ++ [letter (x.toNat / 4)] ++
      [letter (x.toNat % 4 * 16)] ++ [61] ++ [61]⟩⟩, ?_, ?_, ?_⟩
    · simp only [encodeTail, if_pos h1, hb0, Option.bind_eq_bind, Option.bind_some, hl0, hs0, hl1, hs1, hs2, hs3]
      rfl
    · rw [hencode, hdrop]
      simp only [encode, List.append_assoc, List.cons_append, List.nil_append]
    · rw [length_encode, toNat_add (by omega)]
      omega
  · have hnil : rest = [] := by
      have := congrArg List.length hdrop
      simp only [List.length_drop, List.length_cons] at this
      exact List.length_eq_zero_iff.mp (by omega)
    subst hnil
    have hrest : source.length = 3 * k + 2 := by
      have := congrArg List.length hdrop
      simp only [List.length_drop, List.length_cons, List.length_nil] at this
      omega
    have h1 : ¬len source - s.at_ = 1 := fun heq => by
      have := congrArg UInt32.toNat heq
      omega
    have h2 : len source - s.at_ = 2 := UInt32.toNat_inj.mp (by omega)
    have hx := x.toNat_lt
    have hy := y.toNat_lt
    have hout1 : (s.out + 1).toNat = 4 * k + 1 := by rw [toNat_add (by omega)]; omega
    have hout2 : (s.out + 2).toNat = 4 * k + 2 := by rw [toNat_add (by omega)]; omega
    have hout3 : (s.out + 3).toNat = 4 * k + 3 := by rw [toNat_add (by omega)]; omega
    have hb0 := byte_drop hat hdrop
    have hb1 : byte source (s.at_ + 1) = some y.toUInt32 :=
      byte_drop (i := 3 * k + 1) (by rw [toNat_add (by omega)]; omega) (by rw [← List.drop_drop, hdrop]; rfl)
    obtain ⟨hi0, -, hi1, hi2, -⟩ := sixBits x y y
    obtain ⟨hl0, hs0⟩ := writes_letter s.scratch s.out hi0 (by omega) (by omega) (by rw [hcapacity]; omega)
    obtain ⟨hl1, hs1⟩ := writes_letter ⟨s.scratch.capacity, s.scratch.bytes ++ [letter (x.toNat / 4)]⟩ (s.out + 1) hi1
      (by omega) (by rw [List.length_append, List.length_singleton]; omega) (by dsimp only; rw [hcapacity]; omega)
    obtain ⟨hl2, hs2⟩ := writes_letter ⟨s.scratch.capacity, s.scratch.bytes ++ [letter (x.toNat / 4)] ++
      [letter (x.toNat % 4 * 16 + y.toNat / 16)]⟩ (s.out + 2) hi2 (by omega)
      (by simp only [List.length_append, List.length_singleton]; omega) (by dsimp only; rw [hcapacity]; omega)
    have hs3 := writes_pad ⟨s.scratch.capacity, s.scratch.bytes ++ [letter (x.toNat / 4)] ++
      [letter (x.toNat % 4 * 16 + y.toNat / 16)] ++ [letter (y.toNat % 16 * 4)]⟩ (s.out + 3)
      (by simp only [List.length_append, List.length_singleton]; omega) (by dsimp only; rw [hcapacity]; omega)
    refine ⟨⟨s.at_, s.out + 4, ⟨s.scratch.capacity, s.scratch.bytes ++ [letter (x.toNat / 4)] ++
      [letter (x.toNat % 4 * 16 + y.toNat / 16)] ++ [letter (y.toNat % 16 * 4)] ++ [61]⟩⟩, ?_, ?_, ?_⟩
    · simp only [encodeTail, if_neg h1, if_pos h2, hb0, hb1, Option.bind_eq_bind, Option.bind_some, hl0, hs0, hl1, hs1,
        hl2, hs2, hs3]
      rfl
    · rw [hencode, hdrop]
      simp only [encode, List.append_assoc, List.cons_append, List.nil_append]
    · rw [length_encode, toNat_add (by omega)]
      omega

theorem stringScratch_all {scratch : Scratch} {length : UInt32} (h : length.toNat = scratch.bytes.length) :
    stringScratch scratch 0 length = some scratch.bytes := by
  have hzero : (0 : UInt32).toNat = 0 := rfl
  have hin : ¬((0 : UInt32).toNat > scratch.bytes.length || length.toNat > scratch.bytes.length - (0 : UInt32).toNat) =
      true := by
    simp only [Bool.or_eq_true, decide_eq_true_eq, hzero]
    omega
  rw [stringScratch, if_neg hin, hzero, List.drop_zero, h, List.take_length]

/-- The loops and the tails write the text of all the bytes. -/
theorem base64encode_eq {source : Bytes} (h : source.length + source.length / 2 + 4 < 2 ^ 32) :
    base64encode source = some (encode source) := by
  have hlen : (len source).toNat = source.length := by
    rw [len, UInt32.toNat_ofNat']
    omega
  have hfour : (4 : UInt32).toNat = 4 := rfl
  have hhalf : (len source >>> 1).toNat = source.length / 2 := by
    rw [toNat_shiftRight (n := 1) rfl (by norm_num), hlen]
    rfl
  have hsum : (len source + (len source >>> 1)).toNat = source.length + source.length / 2 := by
    rw [toNat_add (by omega), hlen, hhalf]
  have hsize : Sized source (len source + (len source >>> 1) + 4) :=
    ⟨h, by rw [toNat_add (by omega), hsum, hfour]⟩
  have hstart : Encoded source (len source + (len source >>> 1) + 4)
      ⟨0, 0, newByteScratch (len source + (len source >>> 1) + 4)⟩ (4 * 0) :=
    ⟨rfl, Nat.zero_le _, rfl, rfl, rfl⟩
  obtain ⟨s, hwords, k, hs⟩ := loop_total (wordsStep_advances hsize) ⟨0, hstart⟩
    (show source.length - (0 : UInt32).toNat < source.length + 1 by omega)
  obtain ⟨s', hgroups, k', hs', hlast⟩ := loop_total (groupStep_advances hsize) ⟨k, hs⟩
    (show source.length - s.at_.toNat < source.length + 1 by omega)
  obtain ⟨s'', htail, hbytes, hout⟩ := encodeTail_spec hsize hs' hlast
  have hstring := stringScratch_all (hout.trans (congrArg List.length hbytes.symm))
  simp only [base64encode, encodeAot, hwords, hgroups, htail, Option.bind_eq_bind, Option.bind_some, hstring, hbytes]

end Nupp.Base64
