import Nupp.Lib.Decimal
import Nupp.Lib.Utf8

/-! The grammar of JSON texts (RFC 8259) over bytes. A rule relates a text to what is left
after it. -/

namespace Json

open Decimal

abbrev Bytes := List UInt8

def space (b : UInt8) : Bool := b = 32 || b = 9 || b = 10 || b = 13

/-- Whitespace in front of what is left. -/
def Blank (l r : Bytes) : Prop := ∃ w, l = w ++ r ∧ ∀ b ∈ w, space b = true

/-! Numbers. -/

def Digits (l : Bytes) : Prop := l ≠ [] ∧ ∀ b ∈ l, isDigit b = true

def Integer (l : Bytes) : Prop := l = [48] ∨ Digits l ∧ l.head? ≠ some 48

def Fraction (l : Bytes) : Prop := l = [] ∨ ∃ ds, l = 46 :: ds ∧ Digits ds

def Exponent (l : Bytes) : Prop :=
  l = [] ∨ ∃ e s ds, l = e :: (s ++ ds) ∧ (e = 101 ∨ e = 69) ∧ (s = [] ∨ s = [43] ∨ s = [45]) ∧ Digits ds

def Number (l : Bytes) : Prop :=
  ∃ minus int frac exp, l = minus ++ (int ++ (frac ++ exp)) ∧ (minus = [] ∨ minus = [45]) ∧ Integer int ∧
    Fraction frac ∧ Exponent exp

/-! Strings. -/

def isHex (b : UInt8) : Bool :=
  isDigit b || (65 ≤ b.toNat && b.toNat ≤ 70) || (97 ≤ b.toNat && b.toNat ≤ 102)

/-- `"`, `\`, `/`, `b`, `f`, `n`, `r` and `t`. -/
def isEscape (b : UInt8) : Bool :=
  b = 34 || b = 92 || b = 47 || b = 98 || b = 102 || b = 110 || b = 114 || b = 116

/-- The UTF-8 form of a scalar. -/
def encoded (c : ℕ) : Bytes := (Utf8.units c).map UInt8.ofNat

def hexDigit (b : UInt8) : ℕ :=
  if b.toNat ≤ 57 then b.toNat - 48 else if b.toNat ≤ 70 then b.toNat - 55 else b.toNat - 87

/-- The code unit that four hexadecimal digits name. -/
def codeUnit (a b c d : UInt8) : ℕ := ((hexDigit a * 16 + hexDigit b) * 16 + hexDigit c) * 16 + hexDigit d

def Hex4 (x : Bytes) (n : ℕ) : Prop :=
  ∃ a b c d, x = [a, b, c, d] ∧ isHex a = true ∧ isHex b = true ∧ isHex c = true ∧ isHex d = true ∧
    n = codeUnit a b c d

/-- What stands between the quotes. Every escape names a character: one beyond the basic plane is named by a
surrogate pair, and half a pair names none. -/
inductive Chars : Bytes → Prop
  | nil : Chars []
  | plain (c : ℕ) (l : Bytes) : Utf8.IsScalar c → 0x20 ≤ c → c ≠ 0x22 → c ≠ 0x5C → Chars l → Chars (encoded c ++ l)
  | escape (b : UInt8) (l : Bytes) : isEscape b = true → Chars l → Chars (92 :: b :: l)
  | unicode (x : Bytes) (n : ℕ) (l : Bytes) : Hex4 x n → Utf8.IsScalar n → Chars l → Chars (92 :: 117 :: (x ++ l))
  | pair (x y : Bytes) (m n : ℕ) (l : Bytes) : Hex4 x m → 0xD800 ≤ m → m ≤ 0xDBFF → Hex4 y n → 0xDC00 ≤ n →
      n ≤ 0xDFFF → Chars l → Chars (92 :: 117 :: (x ++ 92 :: 117 :: (y ++ l)))

def Literal (l : Bytes) : Prop := ∃ body, l = 34 :: (body ++ [34]) ∧ Chars body

/-! Values. -/

mutual
inductive Tree where
  | null
  | boolean (value : Bool)
  | number (text : Bytes)
  | string (text : Bytes)
  | array (items : Items)
  | object (members : Members)

inductive Items where
  | nil
  | cons (head : Tree) (tail : Items)

inductive Members where
  | nil
  | cons (name : Bytes) (value : Tree) (tail : Members)
end

def nullText : Bytes := [110, 117, 108, 108]
def trueText : Bytes := [116, 114, 117, 101]
def falseText : Bytes := [102, 97, 108, 115, 101]

def booleanText (b : Bool) : Bytes := if b then trueText else falseText

mutual
inductive Value : Tree → Bytes → Bytes → Prop
  | null (r : Bytes) : Value .null (nullText ++ r) r
  | boolean (b : Bool) (r : Bytes) : Value (.boolean b) (booleanText b ++ r) r
  | number (x r : Bytes) : Number x → Value (.number x) (x ++ r) r
  | string (x r : Bytes) : Literal x → Value (.string x) (x ++ r) r
  | emptyArray (l r : Bytes) : Blank l (93 :: r) → Value (.array .nil) (91 :: l) r
  | array (t : Tree) (items : Items) (l l₁ l₂ r : Bytes) : Blank l l₁ → Value t l₁ l₂ → ArrayRest items l₂ r →
      Value (.array (.cons t items)) (91 :: l) r
  | emptyObject (l r : Bytes) : Blank l (125 :: r) → Value (.object .nil) (123 :: l) r
  | object (x : Bytes) (t : Tree) (members : Members) (l l₁ l₂ r : Bytes) : Blank l l₁ → Member x t l₁ l₂ →
      ObjectRest members l₂ r → Value (.object (.cons x t members)) (123 :: l) r

/-- The elements after one, to the end of the array. -/
inductive ArrayRest : Items → Bytes → Bytes → Prop
  | close (l r : Bytes) : Blank l (93 :: r) → ArrayRest .nil l r
  | more (t : Tree) (items : Items) (l l₁ l₂ l₃ r : Bytes) : Blank l (44 :: l₁) → Blank l₁ l₂ → Value t l₂ l₃ →
      ArrayRest items l₃ r → ArrayRest (.cons t items) l r

/-- A name, a colon and a value. -/
inductive Member : Bytes → Tree → Bytes → Bytes → Prop
  | intro (x : Bytes) (t : Tree) (l l₁ l₂ r : Bytes) : Literal x → Blank l (58 :: l₁) → Blank l₁ l₂ → Value t l₂ r →
      Member x t (x ++ l) r

/-- The members after one, to the end of the object. -/
inductive ObjectRest : Members → Bytes → Bytes → Prop
  | close (l r : Bytes) : Blank l (125 :: r) → ObjectRest .nil l r
  | more (x : Bytes) (t : Tree) (members : Members) (l l₁ l₂ l₃ r : Bytes) : Blank l (44 :: l₁) → Blank l₁ l₂ →
      Member x t l₂ l₃ → ObjectRest members l₃ r → ObjectRest (.cons x t members) l r
end

/-- One value with whitespace around it. -/
def Document (t : Tree) (l : Bytes) : Prop := ∃ l₁ l₂, Blank l l₁ ∧ Value t l₁ l₂ ∧ Blank l₂ []

/-! Measures. -/

mutual
/-- The containers one inside another. -/
def Tree.depth : Tree → ℕ
  | .array items => items.depth + 1
  | .object members => members.depth + 1
  | _ => 0

def Items.depth : Items → ℕ
  | .nil => 0
  | .cons t items => max t.depth items.depth

def Members.depth : Members → ℕ
  | .nil => 0
  | .cons _ t members => max t.depth members.depth
end

mutual
/-- The values, containers among them. -/
def Tree.count : Tree → ℕ
  | .array items => items.count + 1
  | .object members => members.count + 1
  | _ => 1

def Items.count : Items → ℕ
  | .nil => 0
  | .cons t items => t.count + items.count

def Members.count : Members → ℕ
  | .nil => 0
  | .cons _ t members => t.count + members.count
end

def Items.length : Items → ℕ
  | .nil => 0
  | .cons _ items => items.length + 1

def Members.length : Members → ℕ
  | .nil => 0
  | .cons _ _ members => members.length + 1

def Members.names : Members → List Bytes
  | .nil => []
  | .cons x _ members => x :: members.names

mutual
/-- A condition on every container and every scalar of a tree. -/
def Tree.All (p : Tree → Prop) : Tree → Prop
  | .array items => p (.array items) ∧ items.All p
  | .object members => p (.object members) ∧ members.All p
  | t => p t

def Items.All (p : Tree → Prop) : Items → Prop
  | .nil => True
  | .cons t items => t.All p ∧ items.All p

def Members.All (p : Tree → Prop) : Members → Prop
  | .nil => True
  | .cons _ t members => t.All p ∧ members.All p
end

/-! Whitespace. -/

theorem blank_refl (l : Bytes) : Blank l l := ⟨[], rfl, nofun⟩

theorem blank_dropWhile (l : Bytes) : Blank l (l.dropWhile space) :=
  ⟨l.takeWhile space, List.takeWhile_append_dropWhile.symm, fun _ hb => List.mem_takeWhile_imp hb⟩

theorem Blank.length_le {l r : Bytes} (h : Blank l r) : r.length ≤ l.length := by
  obtain ⟨w, rfl, -⟩ := h
  rw [List.length_append]
  omega

theorem Blank.trans {l m r : Bytes} (h : Blank l m) (h' : Blank m r) : Blank l r := by
  obtain ⟨w, rfl, hw⟩ := h
  obtain ⟨v, rfl, hv⟩ := h'
  refine ⟨w ++ v, (List.append_assoc w v r).symm, fun b hb => ?_⟩
  rcases List.mem_append.mp hb with hb | hb
  · exact hw b hb
  · exact hv b hb

/-- Whitespace reaches as far as it goes where none is left. -/
theorem Blank.dropWhile_eq {l r : Bytes} (h : Blank l r) (hr : ∀ b ∈ r.head?, space b = false) :
    l.dropWhile space = r := by
  obtain ⟨w, rfl, hw⟩ := h
  rw [List.dropWhile_append_of_pos hw]
  cases r with
  | nil => rfl
  | cons b r => exact List.dropWhile_cons_of_neg (by simp [hr b rfl])

theorem Blank.dropWhile_cons {l r : Bytes} {b : UInt8} (h : Blank l (b :: r)) (hb : space b = false) :
    l.dropWhile space = b :: r :=
  h.dropWhile_eq fun c hc => by
    obtain rfl : b = c := by simpa using hc
    exact hb

theorem head_dropWhile_space (l : Bytes) : ∀ b ∈ (l.dropWhile space).head?, space b = false := by
  intro b hb
  have hnot := List.head?_dropWhile_not space l
  rw [Option.mem_def.mp hb] at hnot
  simpa using hnot

def trim (l : Bytes) : Bytes := l.dropWhile space

theorem blank_trim (l : Bytes) : Blank l (trim l) := blank_dropWhile l

theorem Blank.suffix {l r : Bytes} (h : Blank l r) : r <:+ l := by
  obtain ⟨w, rfl, -⟩ := h
  exact List.suffix_append w r

theorem trim_suffix (l : Bytes) : trim l <:+ l := (blank_trim l).suffix

@[simp] theorem trim_trim (l : Bytes) : trim (trim l) = trim l :=
  (blank_refl (trim l)).dropWhile_eq (head_dropWhile_space l)

theorem blank_cons_iff {l r : Bytes} {b : UInt8} (hb : space b = false) : Blank l (b :: r) ↔ trim l = b :: r := by
  constructor
  · intro h
    exact h.dropWhile_cons hb
  · intro h
    exact h ▸ blank_trim l

theorem blank_nil_iff {l : Bytes} : Blank l [] ↔ trim l = [] := by
  constructor
  · intro h
    exact h.dropWhile_eq nofun
  · intro h
    exact h ▸ blank_trim l

/-! Scanning a number: the lengths of its parts at the front of a text. -/

def minusLength (l : Bytes) : ℕ := if l.head? = some 45 then 1 else 0

def digitsLength (l : Bytes) : ℕ := (l.takeWhile isDigit).length

def integerLength (l : Bytes) : Option ℕ :=
  if l.head? = some 48 then some 1 else if digitsLength l = 0 then none else some (digitsLength l)

def fractionLength (l : Bytes) : Option ℕ :=
  if l.head? = some 46 then
    if digitsLength (l.drop 1) = 0 then none else some (1 + digitsLength (l.drop 1))
  else some 0

def signLength (l : Bytes) : ℕ := if l.head? = some 43 ∨ l.head? = some 45 then 1 else 0

def exponentLength (l : Bytes) : Option ℕ :=
  if l.head? = some 101 ∨ l.head? = some 69 then
    let sign := signLength (l.drop 1)
    if digitsLength (l.drop (1 + sign)) = 0 then none else some (1 + sign + digitsLength (l.drop (1 + sign)))
  else some 0

def numberLength (l : Bytes) : Option ℕ := do
  let minus := minusLength l
  let int ← integerLength (l.drop minus)
  let frac ← fractionLength (l.drop (minus + int))
  let exp ← exponentLength (l.drop (minus + int + frac))
  return minus + int + frac + exp

theorem digits_take {l : Bytes} (h : digitsLength l ≠ 0) : Digits (l.take (digitsLength l)) := by
  have htake : l.take (digitsLength l) = l.takeWhile isDigit := by
    conv_lhs => rw [← List.takeWhile_append_dropWhile (p := isDigit) (l := l), digitsLength]
    exact List.take_left' (by simp)
  rw [htake]
  refine ⟨fun hnil => h ?_, fun b hb => List.mem_takeWhile_imp hb⟩
  rw [digitsLength, hnil]
  rfl

theorem digitsLength_append {ds r : Bytes} (h : ∀ b ∈ ds, isDigit b = true) (hr : ∀ b ∈ r.head?, isDigit b = false) :
    digitsLength (ds ++ r) = ds.length := by
  rw [digitsLength, List.takeWhile_append_of_pos h]
  cases r with
  | nil => simp
  | cons b r => simp [hr b rfl]

theorem integer_take {l : Bytes} {n : ℕ} (h : integerLength l = some n) : Integer (l.take n) := by
  unfold integerLength at h
  split_ifs at h with hzero hnone
  · cases h
    cases l with
    | nil => cases hzero
    | cons b l =>
      obtain rfl : b = 48 := by simpa using hzero
      exact .inl rfl
  · cases h
    refine .inr ⟨digits_take hnone, ?_⟩
    cases l with
    | nil => exact nofun
    | cons b l =>
      cases hn : digitsLength (b :: l) with
      | zero => exact absurd hn hnone
      | succ n => exact hzero

theorem fraction_take {l : Bytes} {n : ℕ} (h : fractionLength l = some n) : Fraction (l.take n) := by
  unfold fractionLength at h
  split_ifs at h with hdot hnone
  · cases h
    cases l with
    | nil => cases hdot
    | cons b l =>
      obtain rfl : b = 46 := by simpa using hdot
      rw [Nat.add_comm, List.take_succ_cons]
      exact .inr ⟨_, rfl, digits_take hnone⟩
  · cases h
    exact .inl rfl

theorem exponent_take {l : Bytes} {n : ℕ} (h : exponentLength l = some n) : Exponent (l.take n) := by
  unfold exponentLength at h
  split_ifs at h with he
  · simp only at h
    split_ifs at h with hnone
    cases h
    cases l with
    | nil => simp at he
    | cons e l =>
      have hdrop : ∀ k, (e :: l).drop (1 + k) = l.drop k := by
        intro k
        rw [Nat.add_comm, List.drop_succ_cons]
      rw [hdrop, List.drop_succ_cons, List.drop_zero] at hnone ⊢
      rw [show 1 + signLength l + digitsLength (l.drop (signLength l)) =
        signLength l + digitsLength (l.drop (signLength l)) + 1 by omega, List.take_succ_cons]
      refine .inr ⟨e, l.take (signLength l), _, ?_, by simpa using he, ?_, digits_take hnone⟩
      · rw [List.take_add]
      · unfold signLength
        split_ifs with hs
        · cases l with
          | nil => simp at hs
          | cons s l => exact .inr (by simpa using hs)
        · exact .inl rfl
  · cases h
    exact .inl rfl

theorem numberLength_eq {l : Bytes} {n : ℕ} : numberLength l = some n ↔
    ∃ int frac exp, integerLength (l.drop (minusLength l)) = some int ∧
      fractionLength (l.drop (minusLength l + int)) = some frac ∧
      exponentLength (l.drop (minusLength l + int + frac)) = some exp ∧ n = minusLength l + int + frac + exp := by
  simp only [numberLength, Option.bind_eq_bind, Option.bind_eq_some_iff, Option.pure_def, Option.some.injEq]
  constructor
  · rintro ⟨int, hint, frac, hfrac, exp, hexp, rfl⟩
    exact ⟨int, frac, exp, hint, hfrac, hexp, rfl⟩
  · rintro ⟨int, frac, exp, hint, hfrac, hexp, rfl⟩
    exact ⟨int, hint, frac, hfrac, exp, hexp, rfl⟩

/-- What is scanned is a number. -/
theorem number_take {l : Bytes} {n : ℕ} (h : numberLength l = some n) : Number (l.take n) := by
  obtain ⟨int, frac, exp, hint, hfrac, hexp, rfl⟩ := numberLength_eq.mp h
  refine ⟨l.take (minusLength l), _, _, _, ?_, ?_, integer_take hint, fraction_take hfrac, exponent_take hexp⟩
  · rw [List.take_add, List.take_add, List.take_add, List.append_assoc, List.append_assoc]
  · unfold minusLength
    split_ifs with hminus
    · cases l with
      | nil => cases hminus
      | cons b l => exact .inr (by simpa using hminus)
    · exact .inl rfl

theorem digitsLength_le (l : Bytes) : digitsLength l ≤ l.length := (List.takeWhile_sublist _).length_le

theorem le_length_of_head {l : Bytes} {b : UInt8} (h : l.head? = some b) : 1 ≤ l.length := by
  cases l with
  | nil => cases h
  | cons b l => exact Nat.le_add_left 1 l.length

theorem integerLength_le {l : Bytes} {n : ℕ} (h : integerLength l = some n) : n ≤ l.length := by
  unfold integerLength at h
  split_ifs at h with hzero
  · cases h
    exact le_length_of_head hzero
  · cases h
    exact digitsLength_le l

theorem fractionLength_le {l : Bytes} {n : ℕ} (h : fractionLength l = some n) : n ≤ l.length := by
  unfold fractionLength at h
  split_ifs at h with hdot
  · cases h
    have hpos := le_length_of_head hdot
    have hle := digitsLength_le (l.drop 1)
    rw [List.length_drop] at hle
    omega
  · cases h
    exact Nat.zero_le _

theorem exponentLength_le {l : Bytes} {n : ℕ} (h : exponentLength l = some n) : n ≤ l.length := by
  unfold exponentLength at h
  split_ifs at h with he
  · simp only at h
    split_ifs at h with hnone
    cases h
    have hle := digitsLength_le (l.drop (1 + signLength (l.drop 1)))
    rw [List.length_drop] at hle
    omega
  · cases h
    exact Nat.zero_le _

theorem minusLength_le (l : Bytes) : minusLength l ≤ l.length := by
  unfold minusLength
  split_ifs with hminus
  · exact le_length_of_head hminus
  · exact Nat.zero_le _

theorem numberLength_le {l : Bytes} {n : ℕ} (h : numberLength l = some n) : n ≤ l.length := by
  obtain ⟨int, frac, exp, hint, hfrac, hexp, rfl⟩ := numberLength_eq.mp h
  have hminus := minusLength_le l
  have hint' := integerLength_le hint
  have hfrac' := fractionLength_le hfrac
  have hexp' := exponentLength_le hexp
  rw [List.length_drop] at hint' hfrac' hexp'
  omega

/-- A byte no number goes on with. -/
def stops (b : UInt8) : Bool := !isDigit b && b ≠ 46 && b ≠ 101 && b ≠ 69

theorem stops_iff {b : UInt8} : stops b = true ↔ isDigit b = false ∧ b ≠ 46 ∧ b ≠ 101 ∧ b ≠ 69 := by
  simp [stops, and_assoc]

theorem integerLength_append {int r : Bytes} (h : Integer int) (hr : ∀ b ∈ r.head?, isDigit b = false) :
    integerLength (int ++ r) = some int.length := by
  rcases h with rfl | ⟨⟨hne, hdigits⟩, hzero⟩
  · rfl
  · have hlength := digitsLength_append hdigits hr
    obtain ⟨b, l, rfl⟩ := List.exists_cons_of_ne_nil hne
    have hb : b ≠ 48 := by simpa using hzero
    rw [integerLength, hlength]
    simp [hb]

theorem fractionLength_append {frac r : Bytes} (h : Fraction frac) (hr : ∀ b ∈ r.head?, isDigit b = false ∧ b ≠ 46) :
    fractionLength (frac ++ r) = some frac.length := by
  rcases h with rfl | ⟨ds, rfl, hne, hdigits⟩
  · rw [List.nil_append, fractionLength, if_neg]
    · rfl
    · intro hdot
      exact (hr 46 hdot).2 rfl
  · have hlength := digitsLength_append hdigits fun b hb => (hr b hb).1
    have hpos : ds.length ≠ 0 := by simpa using hne
    rw [fractionLength, List.cons_append, if_pos List.head?_cons, List.drop_succ_cons, List.drop_zero, hlength,
      if_neg hpos, List.length_cons, Nat.add_comm]

theorem exponentLength_append {exp r : Bytes} (h : Exponent exp)
    (hr : ∀ b ∈ r.head?, isDigit b = false ∧ b ≠ 101 ∧ b ≠ 69) : exponentLength (exp ++ r) = some exp.length := by
  rcases h with rfl | ⟨e, s, ds, rfl, he, hs, hne, hdigits⟩
  · rw [List.nil_append, exponentLength, if_neg]
    · rfl
    · rintro (heq | heq)
      · exact (hr 101 heq).2.1 rfl
      · exact (hr 69 heq).2.2 rfl
  · have hlength := digitsLength_append hdigits fun b hb => (hr b hb).1
    have hpos : ds.length ≠ 0 := by simpa using hne
    have hsign : signLength (s ++ ds ++ r) = s.length := by
      rcases hs with rfl | rfl | rfl
      · obtain ⟨d, ds, rfl⟩ := List.exists_cons_of_ne_nil hne
        have hd := hdigits d List.mem_cons_self
        have hplus : d ≠ 43 := by
          rintro rfl
          cases hd
        have hminus : d ≠ 45 := by
          rintro rfl
          cases hd
        simp [signLength, hplus, hminus]
      · rfl
      · rfl
    have hif : ((e :: (s ++ ds) ++ r).head? = some 101 ∨ (e :: (s ++ ds) ++ r).head? = some 69) := by simpa using he
    rw [exponentLength, if_pos hif, List.cons_append, List.drop_succ_cons, List.drop_zero, hsign]
    have hdrop : (e :: (s ++ ds ++ r)).drop (1 + s.length) = ds ++ r := by
      rw [Nat.add_comm, List.drop_succ_cons, List.append_assoc, List.drop_left]
    simp only [hdrop, hlength, if_neg hpos, List.length_cons, List.length_append]
    rw [Option.some.injEq]
    omega

/-- A number is scanned to its end, where nothing goes on with it. -/
theorem numberLength_append {x r : Bytes} (h : Number x) (hr : ∀ b ∈ r.head?, stops b = true) :
    numberLength (x ++ r) = some x.length := by
  obtain ⟨minus, int, frac, exp, rfl, hminus, hint, hfrac, hexp⟩ := h
  have hhead : ∀ {l m : Bytes} {q : UInt8 → Prop}, (∀ b ∈ l.head?, q b) → (∀ b ∈ m.head?, q b) →
      ∀ b ∈ (l ++ m).head?, q b := by
    intro l m q hl hm b hb
    cases l with
    | nil => exact hm b hb
    | cons c l => exact hl b hb
  have hfracHead : ∀ b ∈ frac.head?, isDigit b = false := by
    rcases hfrac with rfl | ⟨ds, rfl, -⟩
    · exact nofun
    · intro b hb
      obtain rfl : 46 = b := by simpa using hb
      rfl
  have hexpHead : ∀ b ∈ exp.head?, isDigit b = false ∧ b ≠ 46 := by
    rcases hexp with rfl | ⟨e, s, ds, rfl, he, -⟩
    · exact nofun
    · intro b hb
      obtain rfl : e = b := by simpa using hb
      rcases he with rfl | rfl <;> decide
  have hstop := fun b hb => stops_iff.mp (hr b hb)
  have hminusLength : minusLength (minus ++ (int ++ (frac ++ (exp ++ r)))) = minus.length := by
    rcases hminus with rfl | rfl
    · rw [List.nil_append, minusLength, if_neg]
      · rfl
      · rcases hint with rfl | ⟨⟨hne, hdigits⟩, -⟩
        · simp
        · obtain ⟨d, ds, rfl⟩ := List.exists_cons_of_ne_nil hne
          have hd := hdigits d List.mem_cons_self
          intro heq
          obtain rfl : d = 45 := by simpa using heq
          cases hd
    · rfl
  have hassoc : minus ++ (int ++ (frac ++ exp)) ++ r = minus ++ (int ++ (frac ++ (exp ++ r))) := by simp
  rw [hassoc, numberLength_eq]
  refine ⟨int.length, frac.length, exp.length, ?_, ?_, ?_, ?_⟩
  · rw [hminusLength, List.drop_left]
    exact integerLength_append hint (hhead hfracHead (hhead (fun b hb => (hexpHead b hb).1) fun b hb => (hstop b hb).1))
  · rw [hminusLength, ← List.drop_drop, List.drop_left, List.drop_left]
    exact fractionLength_append hfrac (hhead hexpHead fun b hb => ⟨(hstop b hb).1, (hstop b hb).2.1⟩)
  · rw [hminusLength, ← List.drop_drop, ← List.drop_drop, List.drop_left, List.drop_left, List.drop_left]
    exact exponentLength_append hexp fun b hb => ⟨(hstop b hb).1, (hstop b hb).2.2⟩
  · rw [hminusLength]
    simp only [List.length_append]
    omega

/-! Where a string ends. -/

/-- The bytes before the closing quote, where a backslash takes the byte after it along. -/
def closing : Bytes → Option ℕ
  | [] => none
  | [b] => if b = 34 then some 0 else none
  | b :: c :: l =>
    if b = 34 then some 0
    else if b = 92 then (closing l).map (· + 2)
    else (closing (c :: l)).map (· + 1)

theorem closing_quote (l : Bytes) : closing (34 :: l) = some 0 := by
  cases l <;> simp [closing]

theorem closing_slash (b : UInt8) (l : Bytes) : closing (92 :: b :: l) = (closing l).map (· + 2) := by
  simp [closing]

theorem closing_plain {b : UInt8} (hquote : b ≠ 34) (hslash : b ≠ 92) (l : Bytes) :
    closing (b :: l) = (closing l).map (· + 1) := by
  cases l <;> simp [closing, hquote, hslash]

theorem closing_append {w : Bytes} (h : ∀ b ∈ w, b ≠ 34 ∧ b ≠ 92) (l : Bytes) :
    closing (w ++ l) = (closing l).map (· + w.length) := by
  induction w with
  | nil => simp
  | cons b w ih =>
    obtain ⟨hquote, hslash⟩ := h b List.mem_cons_self
    rw [List.cons_append, closing_plain hquote hslash, ih fun c hc => h c (List.mem_cons_of_mem _ hc), Option.map_map]
    congr 1

theorem closing_split {l : Bytes} {n : ℕ} (h : closing l = some n) :
    ∃ body r, l = body ++ 34 :: r ∧ body.length = n := by
  fun_induction closing l generalizing n with
  | case1 => cases h
  | case2 =>
    cases h
    exact ⟨[], [], rfl, rfl⟩
  | case3 => cases h
  | case4 b l =>
    cases h
    exact ⟨[], b :: l, rfl, rfl⟩
  | case5 b l _ ih =>
    obtain ⟨m, hm, rfl⟩ := Option.map_eq_some_iff.mp h
    obtain ⟨body, r, rfl, rfl⟩ := ih hm
    exact ⟨92 :: b :: body, r, rfl, rfl⟩
  | case6 b c l _ _ ih =>
    obtain ⟨m, hm, rfl⟩ := Option.map_eq_some_iff.mp h
    obtain ⟨body, r, heq, rfl⟩ := ih hm
    exact ⟨b :: body, r, congrArg (b :: ·) heq, rfl⟩

theorem mem_encoded {c : ℕ} (h : Utf8.IsScalar c) {b : UInt8} (hb : b ∈ encoded c) : b.toNat = c ∨ 0x80 ≤ b.toNat := by
  obtain ⟨u, hu, rfl⟩ := List.mem_map.mp hb
  have hmax := h.1
  unfold Utf8.units at hu
  split_ifs at hu with h1 h2 h3 <;> simp only [List.mem_cons, List.not_mem_nil, or_false] at hu
  · left
    rw [hu, UInt8.toNat_ofNat']
    omega
  all_goals
    right
    rw [UInt8.toNat_ofNat']
    omega

theorem Hex4.plain {x : Bytes} {n : ℕ} (h : Hex4 x n) : ∀ b ∈ x, b ≠ 34 ∧ b ≠ 92 := by
  obtain ⟨a, b, c, d, rfl, ha, hb, hc, hd, -⟩ := h
  have hhex : ∀ {y : UInt8}, isHex y = true → y ≠ 34 ∧ y ≠ 92 := by
    intro y hy
    constructor
    · rintro rfl
      cases hy
    · rintro rfl
      cases hy
  intro y hy
  simp only [List.mem_cons, List.not_mem_nil, or_false] at hy
  rcases hy with rfl | rfl | rfl | rfl
  · exact hhex ha
  · exact hhex hb
  · exact hhex hc
  · exact hhex hd

theorem closing_chars {body : Bytes} (h : Chars body) (r : Bytes) : closing (body ++ 34 :: r) = some body.length := by
  induction h with
  | nil => exact closing_quote r
  | plain c l hscalar hlow hquote hslash _ ih =>
    have hbytes : ∀ b ∈ encoded c, b ≠ 34 ∧ b ≠ 92 := by
      intro b hb
      have hb' := mem_encoded hscalar hb
      constructor
      · rintro rfl
        rcases hb' with h | h
        · exact hquote h.symm
        · exact absurd h (by decide)
      · rintro rfl
        rcases hb' with h | h
        · exact hslash h.symm
        · exact absurd h (by decide)
    rw [List.append_assoc, closing_append hbytes, ih, List.length_append, Option.map_some, Nat.add_comm]
  | escape b l _ _ ih =>
    rw [List.cons_append, List.cons_append, closing_slash, ih]
    rfl
  | unicode x n l hx _ _ ih =>
    rw [List.cons_append, List.cons_append, List.append_assoc, closing_slash, closing_append hx.plain, ih]
    simp only [Option.map_some, List.length_cons, List.length_append, Option.some.injEq]
    omega
  | pair x y m n l hx _ _ hy _ _ _ ih =>
    simp only [List.cons_append, List.append_assoc]
    rw [closing_slash, closing_append hx.plain, closing_slash, closing_append hy.plain, ih]
    simp only [Option.map_some, List.length_cons, List.length_append, Option.some.injEq]
    omega

/-! How a value starts and where it can stop. -/

/-- Text that begins with no whitespace. -/
def Solid (l : Bytes) : Prop := ∃ b l', l = b :: l' ∧ space b = false

theorem Solid.append {l : Bytes} (h : Solid l) (r : Bytes) : Solid (l ++ r) := by
  obtain ⟨b, l', rfl, hb⟩ := h
  exact ⟨b, l' ++ r, rfl, hb⟩

theorem Solid.trim_eq {l r : Bytes} (h : Solid r) (hblank : Blank l r) : trim l = r := by
  obtain ⟨b, r, rfl, hb⟩ := h
  exact hblank.dropWhile_cons hb

theorem isDigit_solid {b : UInt8} (h : isDigit b = true) : space b = false := by
  cases hs : space b with
  | false => rfl
  | true =>
    simp only [space, Bool.or_eq_true, decide_eq_true_eq, or_assoc] at hs
    rcases hs with rfl | rfl | rfl | rfl <;> cases h

theorem Integer.exists_cons {l : Bytes} (h : Integer l) : ∃ d l', l = d :: l' ∧ isDigit d = true := by
  rcases h with rfl | ⟨⟨hne, hdigits⟩, -⟩
  · exact ⟨48, [], rfl, rfl⟩
  · obtain ⟨d, l, rfl⟩ := List.exists_cons_of_ne_nil hne
    exact ⟨d, l, rfl, hdigits d List.mem_cons_self⟩

/-- The first byte of a number is a minus sign or a digit. -/
theorem Number.exists_cons {x : Bytes} (h : Number x) : ∃ b l, x = b :: l ∧ (b = 45 ∨ isDigit b = true) := by
  obtain ⟨minus, int, frac, exp, rfl, hminus, hint, -⟩ := h
  obtain ⟨d, l, rfl, hd⟩ := hint.exists_cons
  rcases hminus with rfl | rfl
  · exact ⟨d, _, rfl, .inr hd⟩
  · exact ⟨45, _, rfl, .inl rfl⟩

theorem Number.solid {x : Bytes} (h : Number x) : Solid x := by
  obtain ⟨b, l, rfl, rfl | hb⟩ := h.exists_cons
  · exact ⟨45, l, rfl, rfl⟩
  · exact ⟨b, l, rfl, isDigit_solid hb⟩

theorem Literal.solid {x : Bytes} (h : Literal x) : Solid x := by
  obtain ⟨body, rfl, -⟩ := h
  exact ⟨34, body ++ [34], rfl, rfl⟩

theorem Value.solid {t : Tree} {l r : Bytes} (h : Value t l r) : Solid l := by
  cases h with
  | null r => exact ⟨110, _, rfl, rfl⟩
  | boolean b r => cases b <;> exact ⟨_, _, rfl, rfl⟩
  | number x r hx => exact hx.solid.append r
  | string x r hx => exact hx.solid.append r
  | emptyArray l r _ => exact ⟨91, l, rfl, rfl⟩
  | array t items l l₁ l₂ r _ _ _ => exact ⟨91, l, rfl, rfl⟩
  | emptyObject l r _ => exact ⟨123, l, rfl, rfl⟩
  | object x t members l l₁ l₂ r _ _ _ => exact ⟨123, l, rfl, rfl⟩

theorem Member.solid {x : Bytes} {t : Tree} {l r : Bytes} (h : Member x t l r) : Solid l := by
  obtain ⟨x, t, l, l₁, l₂, r, hx, -⟩ := h
  exact hx.solid.append l

/-- What may come after a scalar. -/
def Follow (l : Bytes) : Prop := ∀ b ∈ l.head?, space b = true ∨ b = 44 ∨ b = 93 ∨ b = 125

theorem Blank.follow {l r : Bytes} (h : Blank l r) (hr : Follow r) : Follow l := by
  obtain ⟨w, rfl, hw⟩ := h
  cases w with
  | nil => exact hr
  | cons c w =>
    intro b hb
    obtain rfl : c = b := by simpa using hb
    exact .inl (hw c List.mem_cons_self)

theorem follow_nil : Follow [] := nofun

theorem follow_cons {b : UInt8} (h : b = 44 ∨ b = 93 ∨ b = 125) (l : Bytes) : Follow (b :: l) := by
  intro c hc
  obtain rfl : b = c := by simpa using hc
  exact .inr h

theorem ArrayRest.follow {items : Items} {l r : Bytes} (h : ArrayRest items l r) : Follow l := by
  cases h with
  | close l r hl => exact hl.follow (follow_cons (by decide) r)
  | more t items l l₁ l₂ l₃ r hl _ _ _ => exact hl.follow (follow_cons (by decide) l₁)

theorem ObjectRest.follow {members : Members} {l r : Bytes} (h : ObjectRest members l r) : Follow l := by
  cases h with
  | close l r hl => exact hl.follow (follow_cons (by decide) r)
  | more x t members l l₁ l₂ l₃ r hl _ _ _ => exact hl.follow (follow_cons (by decide) l₁)

theorem Follow.stops {l : Bytes} (h : Follow l) : ∀ b ∈ l.head?, stops b = true := by
  intro b hb
  rcases h b hb with hs | rfl | rfl | rfl
  · simp only [space, Bool.or_eq_true, decide_eq_true_eq, or_assoc] at hs
    rcases hs with rfl | rfl | rfl | rfl <;> rfl
  all_goals rfl

/-! A value leaves a proper end of its text. -/

/-- `r` is what is left of `l` after at least one byte. -/
def After (l r : Bytes) : Prop := r <:+ l ∧ r.length < l.length

theorem after_append {w : Bytes} (hw : w ≠ []) (r : Bytes) : After (w ++ r) r := by
  have hpos := List.length_pos_iff.mpr hw
  refine ⟨List.suffix_append w r, ?_⟩
  rw [List.length_append]
  omega

theorem after_cons (b : UInt8) (r : Bytes) : After (b :: r) r := after_append (List.cons_ne_nil b []) r

theorem After.trans {l m r : Bytes} (h : After l m) (h' : After m r) : After l r :=
  ⟨h'.1.trans h.1, h'.2.trans h.2⟩

theorem After.of_blank {l m r : Bytes} (h : Blank l m) (h' : After m r) : After l r :=
  ⟨h'.1.trans h.suffix, h'.2.trans_le h.length_le⟩

theorem Solid.ne_nil {l : Bytes} (h : Solid l) : l ≠ [] := by
  obtain ⟨b, l, rfl, -⟩ := h
  exact List.cons_ne_nil b l

mutual
theorem Value.after {t : Tree} {l r : Bytes} : Value t l r → After l r
  | .null r => after_append (List.cons_ne_nil _ _) r
  | .boolean true r => after_append (List.cons_ne_nil _ _) r
  | .boolean false r => after_append (List.cons_ne_nil _ _) r
  | .number _ r hx => after_append hx.solid.ne_nil r
  | .string _ r hx => after_append hx.solid.ne_nil r
  | .emptyArray l r hl => (after_cons 91 l).trans (.of_blank hl (after_cons 93 r))
  | .array _ _ l _ _ _ hl ht hrest => (after_cons 91 l).trans (.of_blank hl (ht.after.trans hrest.after))
  | .emptyObject l r hl => (after_cons 123 l).trans (.of_blank hl (after_cons 125 r))
  | .object _ _ _ l _ _ _ hl ht hrest => (after_cons 123 l).trans (.of_blank hl (ht.after.trans hrest.after))

theorem ArrayRest.after {items : Items} {l r : Bytes} : ArrayRest items l r → After l r
  | .close _ r hl => .of_blank hl (after_cons 93 r)
  | .more _ _ _ l₁ _ _ _ hl hl₁ ht hrest =>
    .of_blank hl ((after_cons 44 l₁).trans (.of_blank hl₁ (ht.after.trans hrest.after)))

theorem Member.after {x : Bytes} {t : Tree} {l r : Bytes} : Member x t l r → After l r
  | .intro _ _ l l₁ _ _ hx hl hl₁ ht =>
    (after_append hx.solid.ne_nil l).trans (.of_blank hl ((after_cons 58 l₁).trans (.of_blank hl₁ ht.after)))

theorem ObjectRest.after {members : Members} {l r : Bytes} : ObjectRest members l r → After l r
  | .close _ r hl => .of_blank hl (after_cons 125 r)
  | .more _ _ _ _ l₁ _ _ _ hl hl₁ ht hrest =>
    .of_blank hl ((after_cons 44 l₁).trans (.of_blank hl₁ (ht.after.trans hrest.after)))
end

mutual
theorem Tree.all_and {p q : Tree → Prop} (t : Tree) : t.All (fun u => p u ∧ q u) ↔ t.All p ∧ t.All q := by
  cases t with
  | array items =>
    simp only [Tree.All]
    rw [items.all_and]
    exact and_and_and_comm
  | object members =>
    simp only [Tree.All]
    rw [members.all_and]
    exact and_and_and_comm
  | _ => exact Iff.rfl

theorem Items.all_and {p q : Tree → Prop} (items : Items) :
    items.All (fun u => p u ∧ q u) ↔ items.All p ∧ items.All q := by
  cases items with
  | nil => simp [Items.All]
  | cons t items =>
    simp only [Items.All]
    rw [t.all_and, items.all_and]
    exact and_and_and_comm

theorem Members.all_and {p q : Tree → Prop} (members : Members) :
    members.All (fun u => p u ∧ q u) ↔ members.All p ∧ members.All q := by
  cases members with
  | nil => simp [Members.All]
  | cons x t members =>
    simp only [Members.All]
    rw [t.all_and, members.all_and]
    exact and_and_and_comm
end

end Json
