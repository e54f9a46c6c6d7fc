import Nupp.Lib.Decimal
import Nupp.Lua.Data
import Mathlib.Tactic.IntervalCases

/-! `io/uri/whatwg`: the reader of IPv6 addresses, its dotted-quad tail and its compression, and the
writer of what it read. What is still to be read stands for the index into the text. -/

namespace Nupp.whatwg

open Nupp.Data
open Decimal (isDigit)

def hexValue (byte : UInt8) : Option ℕ :=
  if 48 ≤ byte.toNat ∧ byte.toNat ≤ 57 then some (byte.toNat - 48)
  else if 65 ≤ byte.toNat ∧ byte.toNat ≤ 70 then some (byte.toNat - 55)
  else if 97 ≤ byte.toNat ∧ byte.toNat ≤ 102 then some (byte.toNat - 87)
  else none

section Reading

/-- The locals of the reader; slots of `pieces` count from one. -/
structure Reader where
  pieces : List ℕ
  pieceIndex : ℕ
  compress : Option ℕ

def Reader.start : Reader := { pieces := List.replicate 8 0, pieceIndex := 1, compress := none }

def slot (pieces : List ℕ) (index : ℕ) : ℕ := pieces.getD (index - 1) 0

/-- `pieces[pieceIndex] = value`, and the next slot. -/
def Reader.put (st : Reader) (value : ℕ) : Reader :=
  { st with pieces := st.pieces.set (st.pieceIndex - 1) value, pieceIndex := st.pieceIndex + 1 }

def Reader.compressed (st : Reader) : Reader :=
  { st with pieceIndex := st.pieceIndex + 1, compress := some (st.pieceIndex + 1) }

/-- At most four hexadecimal digits. -/
def hexDigits (text : Bytes) : Bytes := (text.take 4).takeWhile fun byte => (hexValue byte).isSome

def hexNumber (digits : Bytes) : ℕ :=
  digits.foldl (fun value byte => value * 16 + (hexValue byte).getD 0) 0

/-- The digits of one part of a dotted quad, and what follows them. -/
def octetFrom (ipv4Piece : Option ℕ) : Bytes → Option (Option ℕ × Bytes)
  | [] => some (ipv4Piece, [])
  | byte :: rest =>
    if isDigit byte then
      let number := byte.toNat - 48
      match ipv4Piece with
      | none => octetFrom (some number) rest
      | some 0 => none
      | some piece =>
        if 255 < piece * 10 + number then none else octetFrom (some (piece * 10 + number)) rest
    else some (ipv4Piece, byte :: rest)

/-- `pieces[pieceIndex] = pieces[pieceIndex] * 256 + ipv4Piece`, a slot for two parts. -/
def Reader.putOctet (st : Reader) (numbersSeen ipv4Piece : ℕ) : Reader :=
  { st with
    pieces := st.pieces.set (st.pieceIndex - 1) (slot st.pieces st.pieceIndex * 256 + ipv4Piece)
    pieceIndex :=
      if numbersSeen + 1 = 2 ∨ numbersSeen + 1 = 4 then st.pieceIndex + 1 else st.pieceIndex }

/-- The text after the dot that separates a part from the one before. -/
def afterDot (numbersSeen : ℕ) (text : Bytes) : Option Bytes :=
  if 0 < numbersSeen then
    if text.head? = some 46 ∧ numbersSeen < 4 then some text.tail else none
  else some text

def quadFrom (numbersSeen : ℕ) (st : Reader) (text : Bytes) : Option Reader :=
  if text = [] then if numbersSeen = 4 then some st else none
  else
    match afterDot numbersSeen text with
    | none => none
    | some text =>
      match octetFrom none text with
      | some (some ipv4Piece, rest) =>
        -- a fifth part is refused by its dot
        if numbersSeen < 4 then
          quadFrom (numbersSeen + 1) (st.putOctet numbersSeen ipv4Piece) rest
        else none
      | _ => none
termination_by 4 - numbersSeen

def readFrom (st : Reader) (text : Bytes) : Option Reader :=
  match text with
  | [] => some st
  | byte :: rest =>
    if st.pieceIndex = 9 then none
    else if byte = 58 then
      if st.compress ≠ none then none else readFrom st.compressed rest
    else
      let digits := hexDigits (byte :: rest)
      match _hafter : (byte :: rest).drop digits.length with
      | [] => some (st.put (hexNumber digits))
      | next :: after =>
        if next = 46 then
          if digits = [] then none
          else if 7 < st.pieceIndex then none
          else quadFrom 0 st (byte :: rest)
        else if next = 58 then
          if after = [] then none else readFrom (st.put (hexNumber digits)) after
        else none
termination_by text.length
decreasing_by
  · simp
  · have hlength := congrArg List.length _hafter
    simp only [List.length_drop, List.length_cons] at hlength ⊢
    omega

/-- Moves the last pieces to the end, one swap each. -/
def shift (compress : ℕ) : ℕ → ℕ → List ℕ → List ℕ
  | 0, _, pieces => pieces
  | swaps + 1, pieceIndex, pieces =>
    if pieceIndex = 1 then pieces
    else
      let source := compress + (swaps + 1) - 1
      shift compress swaps (pieceIndex - 1)
        ((pieces.set (pieceIndex - 1) (slot pieces source)).set (source - 1)
          (slot pieces pieceIndex))

def Reader.finish (st : Reader) : Option (List ℕ) :=
  match st.compress with
  | some compress => some (shift compress (st.pieceIndex - compress) 8 st.pieces)
  | none => if st.pieceIndex = 9 then some st.pieces else none

/-- The eight pieces of a text. -/
def readPieces (text : Bytes) : Option (List ℕ) :=
  match text with
  | 58 :: 58 :: rest => (readFrom Reader.start.compressed rest).bind Reader.finish
  | 58 :: _ => none
  | text => (readFrom Reader.start text).bind Reader.finish

end Reading

section Writing

/-- The first longest run of two zero pieces or more, of those from `index` on. -/
def longestRun (runStart : Option ℕ) (runLength index : ℕ) (pieces : List ℕ) : Option ℕ :=
  match pieces with
  | [] => runStart
  | piece :: rest =>
    if piece = 0 then
      let zeros := rest.takeWhile (· = 0)
      let finish := index + (zeros.length + 1)
      if runLength < finish - index then
        longestRun (some index) (finish - index) finish (rest.drop zeros.length)
      else longestRun runStart runLength finish (rest.drop zeros.length)
    else longestRun runStart runLength (index + 1) rest
termination_by pieces.length
decreasing_by all_goals simp only [List.length_drop, List.length_cons]; omega

def hexDigit (d : ℕ) : UInt8 := if d < 10 then UInt8.ofNat (48 + d) else UInt8.ofNat (87 + d)

/-- `("%x"):format(n)` -/
def hexNumeral (n : ℕ) : Bytes :=
  if n < 16 then [hexDigit n] else hexNumeral (n / 16) ++ [hexDigit (n % 16)]

def writeFrom (runStart : Option ℕ) : List ℕ → ℕ → Bool → Bytes
  | [], _, _ => []
  | piece :: rest, position, ignoring =>
    if ignoring = true ∧ piece = 0 then writeFrom runStart rest (position + 1) ignoring
    else if runStart = some position then
      (if position = 1 then [58, 58] else [58]) ++ writeFrom runStart rest (position + 1) true
    else
      hexNumeral piece ++ (if position ≠ 8 then [58] else []) ++
        writeFrom runStart rest (position + 1) false

def writePieces (pieces : List ℕ) : Bytes :=
  writeFrom (longestRun none 1 1 pieces) pieces 1 false

end Writing

def ipv6 (text : Bytes) : Option Bytes :=
  (readPieces text).map fun pieces => 91 :: writePieces pieces ++ [93]

end Nupp.whatwg

/-! The textual forms of an address and what they denote, and that the reader computes it. -/

namespace Nupp.whatwg

open Nupp.Data
open Decimal (isDigit numeral)

section Form

/-- One to four hexadecimal digits. -/
structure Hex (value : ℕ) (text : Bytes) : Prop where
  pos : text ≠ []
  short : text.length ≤ 4
  digits : ∀ byte ∈ text, (hexValue byte).isSome = true
  denotes : hexNumber text = value

/-- The decimal numeral of a byte. -/
structure Octet (value : ℕ) (text : Bytes) : Prop where
  numeral : text = numeral value
  small : value ≤ 255

/-- Pieces with colons between. -/
inductive Groups : List ℕ → Bytes → Prop
  | last {v : ℕ} {w : Bytes} (h : Hex v w) : Groups [v] w
  | more {v : ℕ} {w rest : Bytes} {vs : List ℕ} (h : Hex v w) (hrest : Groups vs rest) :
      Groups (v :: vs) (w ++ 58 :: rest)

/-- Pieces with colons between, of which the last two may be a dotted quad. -/
inductive Ends : List ℕ → Bytes → Prop
  | last {v : ℕ} {w : Bytes} (h : Hex v w) : Ends [v] w
  | quad {a b c d : ℕ} {p q r s : Bytes} (ha : Octet a p) (hb : Octet b q) (hc : Octet c r)
      (hd : Octet d s) : Ends [a * 256 + b, c * 256 + d] (p ++ 46 :: q ++ 46 :: r ++ 46 :: s)
  | more {v : ℕ} {w rest : Bytes} {vs : List ℕ} (h : Hex v w) (hrest : Ends vs rest) :
      Ends (v :: vs) (w ++ 58 :: rest)

/-- Nothing, or a part of an address. -/
def Maybe (form : List ℕ → Bytes → Prop) (vs : List ℕ) (text : Bytes) : Prop :=
  vs = [] ∧ text = [] ∨ form vs text

/-- A text and the eight pieces it denotes: all of them, or with `::` for one zero or more. -/
inductive Form : Bytes → List ℕ → Prop
  | full {vs : List ℕ} {text : Bytes} (h : Ends vs text) (hlength : vs.length = 8) : Form text vs
  | compressed {l r : List ℕ} {lt rt : Bytes} (hl : Maybe Groups l lt) (hr : Maybe Ends r rt)
      (hlength : l.length + r.length < 8) :
      Form (lt ++ 58 :: 58 :: rt) (l ++ List.replicate (8 - (l.length + r.length)) 0 ++ r)

end Form

section Parts

theorem hexDigits_append {w rest : Bytes} (hshort : w.length ≤ 4)
    (hdigits : ∀ byte ∈ w, (hexValue byte).isSome = true)
    (hrest : ∀ byte ∈ rest.head?, (hexValue byte).isSome = false) : hexDigits (w ++ rest) = w := by
  rw [hexDigits, List.take_append, List.take_of_length_le hshort,
    List.takeWhile_append_of_pos hdigits]
  cases rest with
  | nil => simp
  | cons byte rest =>
    have hbyte := hrest byte rfl
    cases hlength : 4 - w.length with
    | zero => simp
    | succ n => simp [hbyte]

/-- The digits read are hexadecimal, at most four, and stand in front of the rest. -/
theorem hexDigits_spec (text : Bytes) : (hexDigits text).length ≤ 4 ∧
    (∀ byte ∈ hexDigits text, (hexValue byte).isSome = true) ∧
    hexDigits text ++ text.drop (hexDigits text).length = text := by
  have hfront : hexDigits text <+: text.take 4 := List.takeWhile_prefix _
  refine ⟨?_, fun byte hbyte => ?_, ?_⟩
  · have hle := hfront.length_le
    rw [List.length_take] at hle
    omega
  · exact List.mem_takeWhile_imp (p := fun byte => (hexValue byte).isSome) hbyte
  · have htake := List.prefix_iff_eq_take.mp (hfront.trans (List.take_prefix 4 text))
    calc hexDigits text ++ text.drop (hexDigits text).length
        = text.take (hexDigits text).length ++ text.drop (hexDigits text).length := by rw [← htake]
      _ = text := List.take_append_drop _ _

def grow (n : ℕ) (byte : UInt8) : ℕ := 10 * n + (byte.toNat - 48)

theorem le_foldl_grow (w : Bytes) (n : ℕ) : n ≤ w.foldl grow n := by
  induction w generalizing n with
  | nil => exact Nat.le_refl _
  | cons byte w ih =>
    have hle := ih (grow n byte)
    rw [List.foldl_cons]
    simp only [grow] at hle ⊢
    omega

theorem octetFrom_of_digits {w rest : Bytes} {piece : ℕ} (hdigits : ∀ byte ∈ w, isDigit byte = true)
    (hzero : piece = 0 → w = []) (hsmall : w.foldl grow piece ≤ 255)
    (hrest : ∀ byte ∈ rest.head?, isDigit byte = false) :
    octetFrom (some piece) (w ++ rest) = some (some (w.foldl grow piece), rest) := by
  induction w generalizing piece with
  | nil =>
    cases rest with
    | nil => rfl
    | cons byte rest => simp [octetFrom, hrest byte rfl]
  | cons byte w ih =>
    have hpos : piece ≠ 0 := fun h => List.cons_ne_nil _ _ (hzero h)
    have hle := le_foldl_grow w (grow piece byte)
    rw [List.foldl_cons] at hsmall ⊢
    have hgrow : grow piece byte = piece * 10 + (byte.toNat - 48) := by
      rw [grow, Nat.mul_comm]
    have hnext := ih (List.forall_mem_cons.mp hdigits).2
      (fun h => absurd h (by rw [hgrow]; omega)) hsmall
    rw [List.cons_append, octetFrom, if_pos (List.forall_mem_cons.mp hdigits).1]
    cases piece with
    | zero => exact absurd rfl hpos
    | succ n =>
      rw [hgrow] at hnext hle hsmall
      simp only
      rw [if_neg (by omega), hnext, hgrow]

/-- What is read after a first digit: more digits, if it is not zero. -/
theorem octetFrom_some {text rest : Bytes} {piece : ℕ} {r : Option ℕ} (hpiece : piece ≤ 255)
    (h : octetFrom (some piece) text = some (r, rest)) :
    ∃ w, text = w ++ rest ∧ (∀ byte ∈ w, isDigit byte = true) ∧ (piece = 0 → w = []) ∧
      r = some (w.foldl grow piece) ∧ w.foldl grow piece ≤ 255 ∧
      ∀ byte ∈ rest.head?, isDigit byte = false := by
  induction text generalizing piece with
  | nil =>
    obtain ⟨rfl, rfl⟩ := Prod.mk.inj (Option.some.inj h)
    exact ⟨[], rfl, by simp, fun _ => rfl, rfl, hpiece, by simp⟩
  | cons byte text ih =>
    rw [octetFrom] at h
    split_ifs at h with hdigit
    · cases piece with
      | zero => simp at h
      | succ n =>
        simp only at h
        split_ifs at h with hbig
        obtain ⟨w, hw, hdigits, -, hr, hsmall, hrest⟩ := ih (by omega) h
        have hgrow : grow (n + 1) byte = (n + 1) * 10 + (byte.toNat - 48) := by
          rw [grow, Nat.mul_comm]
        refine ⟨byte :: w, by rw [hw, List.cons_append], List.forall_mem_cons.mpr ⟨hdigit, hdigits⟩,
          nofun, ?_, ?_, hrest⟩
        · rw [List.foldl_cons, hgrow, hr]
        · rwa [List.foldl_cons, hgrow]
    · obtain ⟨rfl, rfl⟩ := Prod.mk.inj (Option.some.inj h)
      exact ⟨[], rfl, by simp, fun _ => rfl, rfl, hpiece, by simpa using hdigit⟩

theorem value_cons (byte : UInt8) (w : Bytes) :
    Decimal.value (byte :: w) = w.foldl grow (byte.toNat - 48) := by
  simp only [Decimal.value, List.foldl_cons, Nat.mul_zero, Nat.zero_add]
  rfl

theorem isDigit_bounds {byte : UInt8} (h : isDigit byte = true) :
    48 ≤ byte.toNat ∧ byte.toNat ≤ 57 := by
  simpa [isDigit] using h

theorem octetFrom_spec {text rest : Bytes} {value : ℕ} :
    octetFrom none text = some (some value, rest) ↔
      ∃ w, text = w ++ rest ∧ Octet value w ∧ ∀ byte ∈ rest.head?, isDigit byte = false := by
  constructor
  · intro h
    cases text with
    | nil => simp [octetFrom] at h
    | cons byte text =>
      rw [octetFrom] at h
      split_ifs at h with hdigit
      · have hbounds := isDigit_bounds hdigit
        obtain ⟨w, hw, hdigits, hzero, hr, hsmall, hrest⟩ := octetFrom_some (by omega) h
        obtain rfl := Option.some.inj hr
        refine ⟨byte :: w, by rw [hw, List.cons_append], ⟨?_, hsmall⟩, hrest⟩
        rw [← value_cons, Decimal.numeral_value (List.cons_ne_nil _ _)
          (List.forall_mem_cons.mpr ⟨hdigit, hdigits⟩)]
        intro hlength hhead
        obtain rfl := Option.some.inj hhead
        simp [hzero rfl] at hlength
      · simp at h
  · rintro ⟨w, rfl, ⟨hnumeral, hsmall⟩, hrest⟩
    have hdigits : ∀ byte ∈ w, isDigit byte = true := fun byte hbyte =>
      Decimal.isDigit_of_mem_numeral (hnumeral ▸ hbyte)
    have hvalue : Decimal.value w = value := by rw [hnumeral, Decimal.value_numeral]
    cases w with
    | nil => exact absurd hnumeral.symm (Decimal.numeral_ne_nil value)
    | cons byte w =>
      rw [value_cons] at hvalue
      have hbounds := isDigit_bounds (hdigits byte List.mem_cons_self)
      have hzero : byte.toNat - 48 = 0 → w = [] := by
        intro h
        have hbyte : byte = 48 := UInt8.toNat_inj.mp (by change byte.toNat = 48; omega)
        subst hbyte
        rcases Nat.eq_zero_or_pos value with rfl | hpos
        · rw [Decimal.numeral, if_pos (by norm_num)] at hnumeral
          exact (List.cons.inj hnumeral).2
        · exact absurd (by rw [← hnumeral]; rfl) (Decimal.head_numeral value hpos)
      rw [List.cons_append, octetFrom, if_pos (hdigits byte List.mem_cons_self)]
      simp only
      rw [octetFrom_of_digits (List.forall_mem_cons.mp hdigits).2 hzero (hvalue ▸ hsmall) hrest,
        hvalue]

end Parts

section Slots

/-- The reader after some pieces, the others being zero. -/
def Reader.after (done : List ℕ) (compress : Option ℕ) : Reader :=
  { pieces := done ++ List.replicate (8 - done.length) 0, pieceIndex := done.length + 1, compress }

/-- The reader with the first part of two in its next piece. -/
def Reader.half (done : List ℕ) (compress : Option ℕ) (part : ℕ) : Reader :=
  { pieces := done ++ part :: List.replicate (7 - done.length) 0, pieceIndex := done.length + 1,
    compress }

variable {done : List ℕ} {compress : Option ℕ} {st : Reader}

theorem set_after (hlength : done.length < 8) (v : ℕ) :
    (done ++ List.replicate (8 - done.length) 0).set done.length v =
      done ++ v :: List.replicate (7 - done.length) 0 := by
  rw [show 8 - done.length = (7 - done.length) + 1 by omega, List.replicate_succ,
    List.set_append_right _ _ (Nat.le_refl _), Nat.sub_self, List.set_cons_zero]

theorem after_append (hlength : done.length < 8) (v : ℕ) :
    done ++ v :: List.replicate (7 - done.length) 0 =
      (done ++ [v]) ++ List.replicate (8 - (done ++ [v]).length) 0 := by
  simp only [List.length_append, List.length_singleton, List.append_assoc, List.singleton_append]
  rw [show 8 - (done.length + 1) = 7 - done.length by omega]

theorem put_after (hlength : done.length < 8) (v : ℕ) :
    (Reader.after done compress).put v = .after (done ++ [v]) compress := by
  simp only [Reader.put, Reader.after, Nat.add_sub_cancel]
  rw [set_after hlength, after_append hlength]
  simp

theorem compressed_after (hlength : done.length < 8) :
    (Reader.after done compress).compressed = .after (done ++ [0]) (some (done.length + 2)) := by
  have hpieces : done ++ List.replicate (8 - done.length) 0 =
      (done ++ [0]) ++ List.replicate (8 - (done ++ [0]).length) 0 := by
    rw [← after_append hlength, show 8 - done.length = (7 - done.length) + 1 by omega,
      List.replicate_succ]
  simp only [Reader.compressed, Reader.after]
  rw [hpieces]
  simp

theorem putOctet_after (hlength : done.length < 8) {n : ℕ} (hn : n = 0 ∨ n = 2) (part : ℕ) :
    (Reader.after done compress).putOctet n part = .half done compress part := by
  have hslot : slot (done ++ List.replicate (8 - done.length) 0) (done.length + 1) = 0 := by
    rw [show 8 - done.length = (7 - done.length) + 1 by omega, List.replicate_succ]
    simp [slot]
  rcases hn with rfl | rfl <;>
    simp [Reader.putOctet, Reader.after, Reader.half, hslot, set_after hlength]

theorem putOctet_half {n : ℕ} (hn : n = 1 ∨ n = 3) (first part : ℕ) :
    (Reader.half done compress first).putOctet n part =
      .after (done ++ [first * 256 + part]) compress := by
  have hslot : slot (done ++ first :: List.replicate (7 - done.length) 0) (done.length + 1) = first := by
    simp [slot]
  have hset : (done ++ first :: List.replicate (7 - done.length) 0).set done.length
      (first * 256 + part) = done ++ (first * 256 + part) :: List.replicate (7 - done.length) 0 := by
    rw [List.set_append_right _ _ (Nat.le_refl _), Nat.sub_self, List.set_cons_zero]
  rcases hn with rfl | rfl <;>
    simp [Reader.putOctet, Reader.half, Reader.after, hslot, hset]

end Slots

section Quads

variable {st st' : Reader} {text : Bytes} {n : ℕ}

/-- One part of a dotted quad. -/
theorem quadFrom_part (hn : n < 4) : quadFrom n st text = some st' ↔
    text ≠ [] ∧ ∃ t w v rest, afterDot n text = some t ∧ t = w ++ rest ∧ Octet v w ∧
      (∀ byte ∈ rest.head?, isDigit byte = false) ∧
      quadFrom (n + 1) (st.putOctet n v) rest = some st' := by
  rw [quadFrom]
  by_cases htext : text = []
  · have hne : n ≠ 4 := by omega
    simp [htext, hne]
  rw [if_neg htext]
  constructor
  · intro h
    refine ⟨htext, ?_⟩
    cases hdot : afterDot n text with
    | none => simp [hdot] at h
    | some t =>
      simp only [hdot] at h
      split at h
      · rename_i v rest hoctet
        obtain ⟨w, hw, hv, hrest⟩ := octetFrom_spec.mp hoctet
        rw [if_pos hn] at h
        exact ⟨t, w, v, rest, rfl, hw, hv, hrest, h⟩
      · simp at h
  · rintro ⟨-, t, w, v, rest, hdot, hw, hv, hrest, h⟩
    simp only [hdot, octetFrom_spec.mpr ⟨w, hw, hv, hrest⟩, if_pos hn, h]

theorem quadFrom_four : quadFrom 4 st text = some st' ↔ text = [] ∧ st' = st := by
  rw [quadFrom]
  by_cases htext : text = []
  · simp [htext, eq_comm]
  · simp [htext, afterDot]

theorem afterDot_succ {t : Bytes} (hn : n + 1 < 4) :
    afterDot (n + 1) text = some t ↔ text = 46 :: t := by
  rw [afterDot, if_pos (Nat.succ_pos n)]
  cases text with
  | nil => simp
  | cons byte text =>
    by_cases hbyte : byte = 46 <;> simp [hbyte, hn]

theorem Octet.ne_nil {v : ℕ} {w : Bytes} (h : Octet v w) : w ≠ [] := by
  rw [h.numeral]
  exact Decimal.numeral_ne_nil v

theorem quadFrom_spec {done : List ℕ} {compress : Option ℕ} (hlength : done.length < 7) :
    quadFrom 0 (.after done compress) text = some st' ↔
      ∃ a b c d p q r s, Octet a p ∧ Octet b q ∧ Octet c r ∧ Octet d s ∧
        text = p ++ 46 :: q ++ 46 :: r ++ 46 :: s ∧
        st' = .after (done ++ [a * 256 + b, c * 256 + d]) compress := by
  have hstate : ∀ a b c d, ((((Reader.after done compress).putOctet 0 a).putOctet 1 b).putOctet 2
      c).putOctet 3 d = .after (done ++ [a * 256 + b, c * 256 + d]) compress := by
    intro a b c d
    have hnext : (done ++ [a * 256 + b]).length < 8 := by
      rw [List.length_append, List.length_singleton]
      omega
    rw [putOctet_after (by omega) (.inl rfl), putOctet_half (.inl rfl),
      putOctet_after hnext (.inr rfl), putOctet_half (.inr rfl), List.append_assoc]
    rfl
  have hdot : ∀ rest : Bytes, ∀ byte ∈ (46 :: rest).head?, isDigit byte = false := by
    rintro rest byte hbyte
    obtain rfl := Option.some.inj hbyte
    rfl
  constructor
  · intro h
    obtain ⟨-, t, p, a, r₀, h₀, hp, ha, -, h⟩ := (quadFrom_part (by norm_num)).mp h
    obtain ⟨-, t₁, q, b, r₁, h₁, hq, hb, -, h⟩ := (quadFrom_part (by norm_num)).mp h
    obtain ⟨-, t₂, r, c, r₂, h₂, hr, hc, -, h⟩ := (quadFrom_part (by norm_num)).mp h
    obtain ⟨-, t₃, s, d, r₃, h₃, hs, hd, -, h⟩ := (quadFrom_part (by norm_num)).mp h
    obtain ⟨rfl, rfl⟩ := quadFrom_four.mp h
    obtain rfl := Option.some.inj h₀
    have h₁ := (afterDot_succ (by norm_num)).mp h₁
    have h₂ := (afterDot_succ (by norm_num)).mp h₂
    have h₃ := (afterDot_succ (by norm_num)).mp h₃
    refine ⟨a, b, c, d, p, q, r, s, ha, hb, hc, hd, ?_, hstate a b c d⟩
    rw [hp, h₁, hq, h₂, hr, h₃, hs]
    simp
  · rintro ⟨a, b, c, d, p, q, r, s, ha, hb, hc, hd, rfl, rfl⟩
    refine (quadFrom_part (by norm_num)).mpr ⟨by simp, _, p, a, 46 :: q ++ 46 :: r ++ 46 :: s, rfl,
      by simp, ha, hdot _, ?_⟩
    refine (quadFrom_part (by norm_num)).mpr ⟨by simp, _, q, b, 46 :: r ++ 46 :: s,
      (afterDot_succ (by norm_num)).mpr rfl, by simp, hb, hdot _, ?_⟩
    refine (quadFrom_part (by norm_num)).mpr ⟨by simp, _, r, c, 46 :: s,
      (afterDot_succ (by norm_num)).mpr rfl, by simp, hc, hdot _, ?_⟩
    refine (quadFrom_part (by norm_num)).mpr ⟨by simp, _, s, d, [],
      (afterDot_succ (by norm_num)).mpr rfl, by simp, hd, by simp, ?_⟩
    exact quadFrom_four.mpr ⟨rfl, (hstate a b c d).symm⟩

end Quads

section Reading

variable {st st' : Reader} {text w rest : Bytes} {v : ℕ} {done vs : List ℕ} {compress : Option ℕ}

/-- What a group is followed by is not a digit. -/
theorem Hex.hexDigits (h : Hex v w) (hrest : ∀ byte ∈ rest.head?, (hexValue byte).isSome = false) :
    hexDigits (w ++ rest) = w :=
  hexDigits_append h.short h.digits hrest

theorem hexValue_ne {byte : UInt8} (h : (hexValue byte).isSome = true) : byte ≠ 58 ∧ byte ≠ 46 := by
  constructor
  · rintro rfl
    exact absurd h (by decide)
  · rintro rfl
    exact absurd h (by decide)

theorem hex_hexDigits (hne : hexDigits text ≠ []) : Hex (hexNumber (hexDigits text)) (hexDigits text) :=
  ⟨hne, (hexDigits_spec text).1, (hexDigits_spec text).2.1, rfl⟩

/-- What becomes of a group, by what follows its digits. -/
def continued (st : Reader) (text digits : Bytes) : Bytes → Option Reader
  | [] => some (st.put (hexNumber digits))
  | next :: after =>
    if next = 46 then
      if digits = [] then none
      else if 7 < st.pieceIndex then none
      else quadFrom 0 st text
    else if next = 58 then if after = [] then none else readFrom (st.put (hexNumber digits)) after
    else none

theorem readFrom_cons {byte : UInt8} {digits after : Bytes} (hindex : st.pieceIndex ≠ 9)
    (hbyte : byte ≠ 58) (hdigits : hexDigits (byte :: rest) = digits)
    (hafter : byte :: rest = digits ++ after) :
    readFrom st (byte :: rest) = continued st (byte :: rest) digits after := by
  have hdrop : (byte :: rest).drop (hexDigits (byte :: rest)).length = after := by
    rw [hdigits, hafter, List.drop_left]
  rw [readFrom, if_neg hindex, if_neg hbyte]
  simp only
  split
  · rename_i hnil
    rw [← hdrop, hnil, hdigits, continued]
  · rename_i next after' hcons
    rw [← hdrop, hcons, hdigits, continued]

theorem readFrom_last (h : Hex v w) (hindex : st.pieceIndex ≠ 9) :
    readFrom st w = some (st.put v) := by
  have hdigits : hexDigits w = w := by
    have happend : hexDigits (w ++ []) = w := h.hexDigits (by simp)
    rwa [List.append_nil] at happend
  cases w with
  | nil => exact absurd rfl h.pos
  | cons byte w =>
    have hbyte := (hexValue_ne (h.digits byte List.mem_cons_self)).1
    rw [readFrom_cons hindex hbyte hdigits (List.append_nil _).symm, continued, h.denotes]

theorem readFrom_more (h : Hex v w) (hindex : st.pieceIndex ≠ 9) (hrest : rest ≠ []) :
    readFrom st (w ++ 58 :: rest) = readFrom (st.put v) rest := by
  have hdigits : hexDigits (w ++ 58 :: rest) = w := h.hexDigits (by rintro byte ⟨⟩; rfl)
  cases w with
  | nil => exact absurd rfl h.pos
  | cons byte w =>
    have hbyte := (hexValue_ne (h.digits byte List.mem_cons_self)).1
    rw [List.cons_append] at hdigits ⊢
    rw [readFrom_cons hindex hbyte hdigits rfl]
    simp [continued, hrest, h.denotes]

theorem octet_digits {p : Bytes} (h : Octet v p) : p.length ≤ 4 ∧
    ∀ byte ∈ p, (hexValue byte).isSome = true := by
  have hsmall := h.small
  have hlength := Decimal.numeral_length_le (n := v) 2 (by norm_num; omega)
  rw [h.numeral]
  refine ⟨by omega, fun byte hbyte => ?_⟩
  have hbounds := isDigit_bounds (Decimal.isDigit_of_mem_numeral hbyte)
  simp [hexValue, hbounds]

theorem readFrom_quad {p : Bytes} (h : Octet v p) (hindex : st.pieceIndex ≤ 7) :
    readFrom st (p ++ 46 :: rest) = quadFrom 0 st (p ++ 46 :: rest) := by
  obtain ⟨hshort, hhex⟩ := octet_digits h
  have hdigits : hexDigits (p ++ 46 :: rest) = p :=
    hexDigits_append hshort hhex (by rintro byte ⟨⟩; rfl)
  cases p with
  | nil => exact absurd rfl h.ne_nil
  | cons byte p =>
    have hbyte := (hexValue_ne (hhex byte List.mem_cons_self)).1
    rw [List.cons_append] at hdigits ⊢
    rw [readFrom_cons (by omega) hbyte hdigits rfl]
    simp [continued, show ¬ 7 < st.pieceIndex by omega]

theorem Ends.ne_nil (h : Ends vs text) : text ≠ [] := by
  cases h with
  | last h => exact h.pos
  | quad ha => simp
  | more h => simp

theorem Groups.ends (h : Groups vs text) : Ends vs text := by
  induction h with
  | last h => exact .last h
  | more h _ ih => exact .more h ih

/-- The pieces of a form are read into the slots that follow. -/
theorem readFrom_ends (h : Ends vs text) (hlength : done.length + vs.length ≤ 8) :
    readFrom (.after done compress) text = some (.after (done ++ vs) compress) := by
  induction h generalizing done with
  | @last v w h =>
    simp only [List.length_singleton] at hlength
    have hlt : done.length < 8 := by omega
    rw [readFrom_last h (by simp [Reader.after]; omega), put_after hlt]
  | @quad a b c d p q r s ha hb hc hd =>
    have hlt : done.length < 7 := by
      simp only [List.length_cons, List.length_nil] at hlength
      omega
    have htext : p ++ 46 :: q ++ 46 :: r ++ 46 :: s = p ++ 46 :: (q ++ 46 :: r ++ 46 :: s) := by simp
    rw [htext, readFrom_quad ha (by simp only [Reader.after]; omega), ← htext]
    exact (quadFrom_spec hlt).mpr ⟨a, b, c, d, p, q, r, s, ha, hb, hc, hd, rfl, rfl⟩
  | @more v w rest vs h hrest ih =>
    simp only [List.length_cons] at hlength
    rw [readFrom_more h (by simp only [Reader.after]; omega) hrest.ne_nil, put_after (by omega),
      ih (by rw [List.length_append, List.length_singleton]; omega), List.append_assoc]
    rfl

/-- The pieces in front of `::`, and the slot it takes. -/
theorem readFrom_groups (h : Groups vs text) (hlength : done.length + vs.length < 8) :
    readFrom (.after done none) (text ++ 58 :: 58 :: rest) =
      readFrom (.after (done ++ vs ++ [0]) (some (done.length + vs.length + 2))) rest := by
  induction h generalizing done with
  | @last v w h =>
    simp only [List.length_singleton] at hlength
    rw [readFrom_more h (by simp only [Reader.after]; omega) (by simp), put_after (by omega), readFrom,
      if_neg (by simp [Reader.after]; omega), if_pos rfl, if_neg (by simp [Reader.after]),
      compressed_after (by rw [List.length_append, List.length_singleton]; omega)]
    simp
  | @more v w rest' vs h hrest ih =>
    simp only [List.length_cons] at hlength
    have hdone : (done ++ [v]).length + vs.length < 8 := by
      rw [List.length_append, List.length_singleton]
      omega
    have hnext := ih hdone
    rw [List.append_assoc, List.cons_append, readFrom_more h (by simp only [Reader.after]; omega)
      (by simp), put_after (by omega), hnext]
    simp only [List.length_append, List.length_cons, List.length_nil, List.append_assoc,
      List.singleton_append]
    congr 3
    omega

end Reading

end Nupp.whatwg
