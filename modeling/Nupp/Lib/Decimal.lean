import Nupp.Lib.Double
import Mathlib.Data.Nat.Digits.Defs
import Mathlib.Data.List.DropRight

/-! Decimal numerals as bytes: whole numbers, and the numerals of `%.pg` with a fraction and
an exponent. Seventeen significant digits determine a binary64 value. -/

namespace Decimal

open Double Nupp.Binary64

def digit (d : ℕ) : UInt8 := UInt8.ofNat (48 + d)

def isDigit (b : UInt8) : Bool := 48 ≤ b.toNat && b.toNat ≤ 57

/-- The number written by digits. -/
def value (digits : List UInt8) : ℕ := digits.foldl (fun n b => 10 * n + (b.toNat - 48)) 0

/-- The digits of a number, one at least. -/
def numeral (n : ℕ) : List UInt8 :=
  if n < 10 then [digit n] else numeral (n / 10) ++ [digit (n % 10)]

theorem toNat_digit {d : ℕ} (h : d < 10) : (digit d).toNat = 48 + d := by
  simp only [digit, UInt8.toNat_ofNat']
  omega

theorem isDigit_digit {d : ℕ} (h : d < 10) : isDigit (digit d) = true := by
  simp [isDigit, toNat_digit h]
  omega

theorem value_append_digit (digits : List UInt8) {d : ℕ} (h : d < 10) :
    value (digits ++ [digit d]) = 10 * value digits + d := by
  simp only [value, List.foldl_append, List.foldl_cons, List.foldl_nil, toNat_digit h]
  omega

@[simp] theorem value_numeral (n : ℕ) : value (numeral n) = n := by
  fun_induction numeral n with
  | case1 n h => simpa [value] using value_append_digit [] h
  | case2 n h ih =>
    rw [value_append_digit _ (Nat.mod_lt n (by norm_num)), ih]
    omega

theorem isDigit_of_mem_numeral {n : ℕ} {b : UInt8} (h : b ∈ numeral n) : isDigit b = true := by
  fun_induction numeral n with
  | case1 n hn =>
    rw [List.mem_singleton.mp h]
    exact isDigit_digit hn
  | case2 n hn ih =>
    rcases List.mem_append.mp h with h | h
    · exact ih h
    · rw [List.mem_singleton.mp h]
      exact isDigit_digit (Nat.mod_lt n (by norm_num))

theorem numeral_ne_nil (n : ℕ) : numeral n ≠ [] := by
  rw [numeral]
  split_ifs <;> simp

theorem numeral_length_le {n : ℕ} (k : ℕ) (h : n < 10 ^ (k + 1)) :
    (numeral n).length ≤ k + 1 := by
  induction k generalizing n with
  | zero =>
    rw [numeral, if_pos (by simpa using h)]
    rfl
  | succ k ih =>
    rw [numeral]
    split_ifs with hn
    · simp
    · have hlt : n / 10 < 10 ^ (k + 1) := by
        rw [Nat.div_lt_iff_lt_mul (by norm_num)]
        rwa [← pow_succ]
      have hlength := ih hlt
      simp only [List.length_append, List.length_singleton]
      omega

theorem numeral_injective {m n : ℕ} (h : numeral m = numeral n) : m = n := by
  rw [← value_numeral m, h, value_numeral]

theorem digit_value {b : UInt8} (h : isDigit b = true) : ∃ d < 10, b = digit d := by
  simp only [isDigit, Bool.and_eq_true, decide_eq_true_eq] at h
  refine ⟨b.toNat - 48, by omega, UInt8.toNat_inj.mp ?_⟩
  rw [toNat_digit (by omega)]
  omega

theorem digit_ne_zero {d : ℕ} (hd : d < 10) (h : digit d ≠ 48) : d ≠ 0 := by
  rintro rfl
  exact h rfl

theorem value_pos {digits : List UInt8} (hne : digits ≠ []) (hd : ∀ b ∈ digits, isDigit b = true)
    (hhead : digits.head? ≠ some 48) : 0 < value digits := by
  induction digits using List.reverseRecOn with
  | nil => exact absurd rfl hne
  | append_singleton front last ih =>
    obtain ⟨d, hd10, rfl⟩ := digit_value (hd last (by simp))
    rw [value_append_digit _ hd10]
    cases front with
    | nil =>
      have hd0 := digit_ne_zero hd10 (fun h => hhead (by simp [h]))
      omega
    | cons first front =>
      have hpos := ih (by simp) (fun b hb => hd b (List.mem_append_left _ hb)) hhead
      omega

/-- A numeral has no zero in front of other digits. -/
theorem head_numeral (n : ℕ) (h : 0 < n) : (numeral n).head? ≠ some 48 := by
  fun_induction numeral n with
  | case1 n hn =>
    intro heq
    have hb := congrArg UInt8.toNat (Option.some.inj heq)
    rw [toNat_digit hn] at hb
    change 48 + n = 48 at hb
    omega
  | case2 n hn ih =>
    have hpos := ih (by omega)
    obtain ⟨first, rest, hcons⟩ := List.exists_cons_of_ne_nil (numeral_ne_nil (n / 10))
    rw [hcons] at hpos ⊢
    exact hpos

/-- Digits without a zero in front of others are the numeral of their value. -/
theorem numeral_value {digits : List UInt8} (hne : digits ≠ []) (hd : ∀ b ∈ digits, isDigit b = true)
    (hhead : 1 < digits.length → digits.head? ≠ some 48) : numeral (value digits) = digits := by
  induction digits using List.reverseRecOn with
  | nil => exact absurd rfl hne
  | append_singleton front last ih =>
    obtain ⟨d, hd10, rfl⟩ := digit_value (hd last (by simp))
    rw [value_append_digit _ hd10]
    cases front with
    | nil =>
      have hval : 10 * value [] + d = d := by simp [value]
      rw [hval, numeral, if_pos hd10]
      rfl
    | cons first front =>
      have hfront : (first :: front).head? ≠ some 48 := hhead (by simp)
      have hdigits : ∀ b ∈ first :: front, isDigit b = true := fun b hb => hd b (List.mem_append_left _ hb)
      have hpos := value_pos (by simp) hdigits hfront
      rw [numeral, if_neg (by omega), show (10 * value (first :: front) + d) / 10 = value (first :: front) by omega,
        show (10 * value (first :: front) + d) % 10 = d by omega,
        ih (by simp) hdigits (fun _ => hfront)]

/-! Numerals with a fraction and an exponent. -/

def dot : UInt8 := 46

def minus : UInt8 := 45

def plus : UInt8 := 43

def lowerE : UInt8 := 101

def upperE : UInt8 := 69

/-- The sign, the digits and the power of ten of a decimal numeral. -/
structure Scanned where
  negative : Bool
  digits : ℕ
  power : ℤ
deriving DecidableEq, Repr

def readSign : List UInt8 → Bool × List UInt8
  | b :: rest => if b = minus then (true, rest) else (false, b :: rest)
  | [] => (false, [])

def readFraction : List UInt8 → List UInt8 × List UInt8
  | b :: rest => if b = dot then (rest.takeWhile isDigit, rest.dropWhile isDigit) else ([], b :: rest)
  | [] => ([], [])

/-- The exponent that ends a numeral. -/
def readExponent : List UInt8 → Option ℤ
  | [] => some 0
  | b :: rest =>
    if b = lowerE || b = upperE then
      match rest with
      | s :: digits =>
        if s = minus || s = plus then
          if digits = [] || !digits.all isDigit then none
          else some (if s = minus then -(value digits : ℤ) else value digits)
        else if !rest.all isDigit then none else some (value rest)
      | [] => none
    else none

/-- Reads a decimal numeral: digits with an optional fraction and exponent. -/
def scanNumeral (text : List UInt8) : Option Scanned :=
  let (negative, text) := readSign text
  let whole := text.takeWhile isDigit
  let (fraction, rest) := readFraction (text.dropWhile isDigit)
  if whole = [] && fraction = [] then none
  else (readExponent rest).map fun e => ⟨negative, value (whole ++ fraction), e - fraction.length⟩

/-- `tonumber`; `other` reads the texts that are no decimal numerals. -/
def tonumber (other : List UInt8 → Option Number) (text : List UInt8) : Option Number :=
  match scanNumeral text with
  | some n => some (nearest n.negative (n.digits * 10 ^ n.power))
  | none => other text

/-- The significant digits and the exponent of the first of them. -/
def significant (p : ℕ) (q : ℚ) : ℕ × ℤ :=
  let k := Int.log 10 q
  let d := (roundEven (q / 10 ^ (k - (p - 1)))).toNat
  if d = 10 ^ p then (10 ^ (p - 1), k + 1) else (d, k)

def stripZeros (digits : List UInt8) : List UInt8 := digits.rdropWhile (· = 48)

def withFraction (whole fraction : List UInt8) : List UInt8 :=
  if fraction = [] then whole else whole ++ dot :: fraction

/-- The digits of an exponent, two at least. -/
def exponentDigits (n : ℕ) : List UInt8 := if n < 10 then 48 :: numeral n else numeral n

def exponentText (k : ℤ) : List UInt8 :=
  lowerE :: (if k < 0 then minus else plus) :: exponentDigits k.natAbs

/-- `%.pg` of a positive value. -/
def formatPositive (p : ℕ) (q : ℚ) : List UInt8 :=
  let (d, k) := significant p q
  let digits := numeral d
  if -4 ≤ k && k < p then
    if 0 ≤ k then
      withFraction (digits.take (k.toNat + 1)) (stripZeros (digits.drop (k.toNat + 1)))
    else withFraction [48] (stripZeros (List.replicate (-k - 1).toNat 48 ++ digits))
  else withFraction (digits.take 1) (stripZeros (digits.drop 1)) ++ exponentText k

def formatFinite (p : ℕ) (x : Finite) : List UInt8 :=
  (if x.negative then [minus] else []) ++
    if x.mantissa = 0 then [48] else formatPositive p x.magnitude

/-! What a printed numeral reads as. -/

theorem foldl_value (n : ℕ) (digits : List UInt8) :
    digits.foldl (fun n b => 10 * n + (b.toNat - 48)) n = n * 10 ^ digits.length + value digits := by
  induction digits using List.reverseRecOn with
  | nil => simp [value]
  | append_singleton front last ih =>
    have hvalue : value (front ++ [last]) = 10 * value front + (last.toNat - 48) := by
      simp [value, List.foldl_append]
    rw [List.foldl_append, ih, hvalue, List.length_append, List.length_singleton, pow_succ]
    simp only [List.foldl_cons, List.foldl_nil]
    ring

theorem value_append (a b : List UInt8) : value (a ++ b) = value a * 10 ^ b.length + value b := by
  rw [value, List.foldl_append, foldl_value]
  rfl

@[simp] theorem value_replicate_zero (n : ℕ) : value (List.replicate n 48) = 0 := by
  induction n with
  | zero => rfl
  | succ n ih =>
    rw [List.replicate_succ', value_append, ih]
    rfl

theorem stripZeros_append (digits : List UInt8) :
    ∃ n, digits = stripZeros digits ++ List.replicate n 48 := by
  induction digits using List.reverseRecOn with
  | nil => exact ⟨0, rfl⟩
  | append_singleton front last ih =>
    obtain ⟨n, hn⟩ := ih
    by_cases h : last = 48
    · refine ⟨n + 1, ?_⟩
      rw [stripZeros, List.rdropWhile_concat_pos _ _ _ (by simpa using h), List.replicate_succ',
        ← List.append_assoc, ← stripZeros, ← hn, h]
    · refine ⟨0, ?_⟩
      rw [stripZeros, List.rdropWhile_concat_neg _ _ _ (by simpa using h)]
      simp

theorem isDigit_of_mem_stripZeros {digits : List UInt8} (h : ∀ b ∈ digits, isDigit b = true) :
    ∀ b ∈ stripZeros digits, isDigit b = true :=
  fun b hb => h b ((List.rdropWhile_prefix _ digits).subset hb)

/-- Zeros at the end of a fraction count for nothing. -/
theorem value_stripZeros (whole fraction : List UInt8) :
    (value (whole ++ stripZeros fraction) : ℚ) * 10 ^ (-((stripZeros fraction).length : ℤ)) =
      value (whole ++ fraction) * 10 ^ (-(fraction.length : ℤ)) := by
  obtain ⟨n, hn⟩ := stripZeros_append fraction
  have hvalue : value (whole ++ fraction) = value (whole ++ stripZeros fraction) * 10 ^ n := by
    conv_lhs => rw [hn, ← List.append_assoc, value_append, value_replicate_zero, List.length_replicate]
    rw [Nat.add_zero]
  have hlength : (fraction.length : ℤ) = (stripZeros fraction).length + n := by
    conv_lhs => rw [hn, List.length_append, List.length_replicate]
    push_cast
    rfl
  rw [hvalue, hlength, neg_add, zpow_add₀ (by norm_num)]
  push_cast
  rw [zpow_neg _ (n : ℤ), zpow_natCast]
  field_simp

theorem takeWhile_digits {digits : List UInt8} (rest : List UInt8) (hd : ∀ b ∈ digits, isDigit b = true)
    (hrest : ∀ b ∈ rest.head?, isDigit b = false) :
    (digits ++ rest).takeWhile isDigit = digits ∧ (digits ++ rest).dropWhile isDigit = rest := by
  have hstop : rest.takeWhile isDigit = [] ∧ rest.dropWhile isDigit = rest := by
    cases rest with
    | nil => exact ⟨rfl, rfl⟩
    | cons b rest =>
      have hb := hrest b rfl
      simp [hb]
  rw [List.takeWhile_append_of_pos hd, List.dropWhile_append_of_pos hd, hstop.1, hstop.2]
  exact ⟨List.append_nil _, rfl⟩

theorem not_isDigit_dot : isDigit dot = false := rfl

theorem ne_minus_of_isDigit {b : UInt8} (h : isDigit b = true) : b ≠ minus := by
  rintro rfl
  cases h

/-- Reads back the parts of a numeral. -/
theorem scanNumeral_parts (negative : Bool) {whole fraction tail : List UInt8} {e : ℤ}
    (hwhole : ∀ b ∈ whole, isDigit b = true) (hne : whole ≠ [])
    (hfraction : ∀ b ∈ fraction, isDigit b = true)
    (htail : ∀ b ∈ tail.head?, isDigit b = false ∧ b ≠ dot) (he : readExponent tail = some e) :
    scanNumeral ((if negative then [minus] else []) ++ (withFraction whole fraction ++ tail)) =
      some ⟨negative, value (whole ++ fraction), e - fraction.length⟩ := by
  have hbody : ∀ sign : Bool,
      (let body := withFraction whole fraction ++ tail
       let (fraction, rest) := readFraction (body.dropWhile isDigit)
       if body.takeWhile isDigit = [] && fraction = [] then none
       else (readExponent rest).map fun e =>
        (⟨sign, value (body.takeWhile isDigit ++ fraction), e - fraction.length⟩ : Scanned)) =
      some ⟨sign, value (whole ++ fraction), e - fraction.length⟩ := by
    intro sign
    by_cases hf : fraction = []
    · subst hf
      obtain ⟨htake, hdrop⟩ := takeWhile_digits tail hwhole (fun b hb => (htail b hb).1)
      have hread : readFraction tail = ([], tail) := by
        cases tail with
        | nil => rfl
        | cons b tail => simp [readFraction, (htail b rfl).2]
      simp only [withFraction, if_true, htake, hdrop, hread, hne, he, Option.map_some]
      simp
    · obtain ⟨htake, hdrop⟩ := takeWhile_digits (dot :: (fraction ++ tail)) hwhole
        (fun b hb => by simp at hb; rw [← hb]; rfl)
      obtain ⟨htake', hdrop'⟩ := takeWhile_digits tail hfraction (fun b hb => (htail b hb).1)
      have hread : readFraction (dot :: (fraction ++ tail)) = (fraction, tail) := by
        simp [readFraction, htake', hdrop']
      have happend : withFraction whole fraction ++ tail = whole ++ dot :: (fraction ++ tail) := by
        simp [withFraction, hf]
      simp only [happend, htake, hdrop, hread, hne, he, Option.map_some]
      simp
  cases negative with
  | true =>
    rw [← hbody true]
    simp [scanNumeral, readSign]
  | false =>
    rw [← hbody false]
    obtain ⟨first, rest, rfl⟩ := List.exists_cons_of_ne_nil hne
    have hfirst := ne_minus_of_isDigit (hwhole first List.mem_cons_self)
    have hcons : ∃ more, withFraction (first :: rest) fraction ++ tail = first :: more := by
      unfold withFraction
      split_ifs <;> exact ⟨_, rfl⟩
    obtain ⟨more, hmore⟩ := hcons
    simp [scanNumeral, readSign, hmore, hfirst]

theorem numeral_length {n p : ℕ} (hlow : 10 ^ p ≤ n) (hhigh : n < 10 ^ (p + 1)) :
    (numeral n).length = p + 1 := by
  induction p generalizing n with
  | zero =>
    rw [numeral, if_pos (by simpa using hhigh)]
    rfl
  | succ p ih =>
    rw [pow_succ] at hlow hhigh
    have hten : 1 ≤ 10 ^ p := Nat.one_le_pow _ _ (by norm_num)
    rw [numeral, if_neg (by omega), List.length_append, ih (by omega) (by omega)]
    rfl

theorem isDigit_of_mem_exponentDigits {n : ℕ} {b : UInt8} (h : b ∈ exponentDigits n) :
    isDigit b = true := by
  unfold exponentDigits at h
  split_ifs at h
  · rcases List.mem_cons.mp h with rfl | h
    · rfl
    · exact isDigit_of_mem_numeral h
  · exact isDigit_of_mem_numeral h

theorem exponentDigits_ne_nil (n : ℕ) : exponentDigits n ≠ [] := by
  unfold exponentDigits
  split_ifs
  · simp
  · exact numeral_ne_nil n

@[simp] theorem value_exponentDigits (n : ℕ) : value (exponentDigits n) = n := by
  unfold exponentDigits
  split_ifs
  · rw [← List.singleton_append, value_append, value_numeral]
    simp [value]
  · exact value_numeral n

theorem readExponent_exponentText (k : ℤ) : readExponent (exponentText k) = some k := by
  have hall : (exponentDigits k.natAbs).all isDigit = true :=
    List.all_eq_true.mpr fun _ hb => isDigit_of_mem_exponentDigits hb
  have hne := exponentDigits_ne_nil k.natAbs
  by_cases hk : k < 0
  · simp only [readExponent, exponentText, if_pos hk, hall, value_exponentDigits]
    simp [hne, abs_of_neg hk]
  · have hplus : plus ≠ minus := by decide
    simp only [readExponent, exponentText, if_neg hk, hall, value_exponentDigits]
    simp [hne, hplus, abs_of_nonneg (not_lt.mp hk)]

/-- The significant digits are within half of the last of them. -/
theorem significant_spec {p : ℕ} {q : ℚ} (hq : 0 < q) :
    10 ^ p ≤ (significant (p + 1) q).1 ∧ (significant (p + 1) q).1 < 10 ^ (p + 1) ∧
      |(significant (p + 1) q).1 * 10 ^ ((significant (p + 1) q).2 - p) - q| ≤ q / (2 * 10 ^ p) := by
  have hlow := Int.zpow_log_le_self (b := 10) (by norm_num) hq
  have hhigh := Int.lt_zpow_succ_log_self (b := 10) (by norm_num) q
  generalize hk : Int.log 10 q = k at hlow hhigh
  push_cast at hlow hhigh
  have hu : (0 : ℚ) < 10 ^ (k - p) := zpow_pos (by norm_num) _
  have hscale : (10 : ℚ) ^ k = 10 ^ p * 10 ^ (k - p) := by
    rw [← zpow_natCast, ← zpow_add₀ (by norm_num)]
    ring_nf
  have hscale' : (10 : ℚ) ^ (k + 1) = 10 ^ (p + 1) * 10 ^ (k - p) := by
    rw [zpow_add_one₀ (by norm_num), hscale]
    ring
  have hge : (10 ^ p : ℤ) ≤ roundEven (q / 10 ^ (k - p)) := by
    apply le_roundEven
    rw [le_div_iff₀ hu]
    push_cast
    linarith
  have hle : roundEven (q / 10 ^ (k - p)) ≤ 10 ^ (p + 1) := by
    apply roundEven_le
    rw [div_le_iff₀ hu]
    push_cast
    linarith
  have hnear : |(roundEven (q / 10 ^ (k - p)) : ℚ) * 10 ^ (k - p) - q| ≤ q / (2 * 10 ^ p) := by
    have hdiff : (roundEven (q / 10 ^ (k - p)) : ℚ) * 10 ^ (k - p) - q =
        (roundEven (q / 10 ^ (k - p)) - q / 10 ^ (k - p)) * 10 ^ (k - p) := by
      field_simp
    rw [hdiff, abs_mul, abs_of_pos hu]
    calc _ ≤ 1 / 2 * (10 : ℚ) ^ (k - p) := mul_le_mul_of_nonneg_right (roundEven_near _) hu.le
      _ ≤ q / (2 * 10 ^ p) := by
        rw [le_div_iff₀ (by positivity)]
        linarith
  generalize hr : roundEven (q / 10 ^ (k - p)) = r at hge hle hnear
  have hpos : (0 : ℤ) < 10 ^ p := by positivity
  obtain ⟨d, rfl⟩ := Int.eq_ofNat_of_zero_le (show 0 ≤ r by omega)
  have hge' : 10 ^ p ≤ d := by exact_mod_cast hge
  have hle' : d ≤ 10 ^ (p + 1) := by exact_mod_cast hle
  have hcast : ((p + 1 : ℕ) : ℤ) - 1 = p := by push_cast; ring
  simp only [significant, hk, hcast, hr, Int.toNat_natCast]
  push_cast at hnear
  split_ifs with hd
  · subst hd
    refine ⟨le_refl _, Nat.pow_lt_pow_right (by norm_num) (by omega), ?_⟩
    have hshift : ((10 ^ p : ℕ) : ℚ) * 10 ^ (k + 1 - p) = ((10 ^ (p + 1) : ℕ) : ℚ) * 10 ^ (k - p) := by
      rw [show k + 1 - (p : ℤ) = (k - p) + 1 by ring, zpow_add_one₀ (by norm_num)]
      push_cast
      ring
    simp only [Nat.add_sub_cancel]
    rw [hshift]
    exact_mod_cast hnear
  · exact ⟨hge', lt_of_le_of_ne hle' hd, hnear⟩

/-- The parts a positive value is printed in, and what they stand for. -/
structure Parts (whole fraction tail : List UInt8) (e : ℤ) : Prop where
  whole_ne_nil : whole ≠ []
  whole_digits : ∀ b ∈ whole, isDigit b = true
  whole_head : whole.head? = some 48 → whole = [48]
  fraction_digits : ∀ b ∈ fraction, isDigit b = true
  tail_eq : tail = [] ∧ e = 0 ∨ tail = exponentText e

theorem Parts.readExponent {whole fraction tail : List UInt8} {e : ℤ} (h : Parts whole fraction tail e) :
    readExponent tail = some e := by
  rcases h.tail_eq with ⟨rfl, rfl⟩ | rfl
  · rfl
  · exact readExponent_exponentText e

theorem Parts.tail_head {whole fraction tail : List UInt8} {e : ℤ} (h : Parts whole fraction tail e) :
    ∀ b ∈ tail.head?, isDigit b = false ∧ b ≠ dot := by
  intro b hb
  rcases h.tail_eq with ⟨rfl, rfl⟩ | rfl
  · cases hb
  · simp only [exponentText, List.head?_cons, Option.mem_def, Option.some.injEq] at hb
    rw [← hb]
    exact ⟨rfl, by decide⟩

theorem head?_take_succ {α : Type*} (l : List α) (n : ℕ) : (l.take (n + 1)).head? = l.head? := by
  cases l <;> rfl

/-- A value is printed with its significant digits. -/
theorem formatPositive_parts {p : ℕ} {q : ℚ} (hq : 0 < q) :
    ∃ whole fraction tail e, Parts whole fraction tail e ∧
      formatPositive (p + 1) q = withFraction whole fraction ++ tail ∧
      (value (whole ++ fraction) : ℚ) * 10 ^ (e - fraction.length) =
        (significant (p + 1) q).1 * 10 ^ ((significant (p + 1) q).2 - p) := by
  obtain ⟨hlow, hhigh, -⟩ := significant_spec (p := p) hq
  unfold formatPositive
  generalize significant (p + 1) q = r at hlow hhigh ⊢
  obtain ⟨d, k⟩ := r
  simp only at hlow hhigh ⊢
  have hlength := numeral_length hlow hhigh
  have hdigits : ∀ b ∈ numeral d, isDigit b = true := fun b hb => isDigit_of_mem_numeral hb
  have hpos : 0 < d := lt_of_lt_of_le (by positivity) hlow
  have hfront : ∀ n, (numeral d).take (n + 1) ≠ [] ∧ ((numeral d).take (n + 1)).head? ≠ some 48 := by
    intro n
    refine ⟨by simp [numeral_ne_nil], ?_⟩
    rw [head?_take_succ]
    exact head_numeral d hpos
  have hback : ∀ n, ∀ b ∈ stripZeros ((numeral d).drop n), isDigit b = true := fun n =>
    isDigit_of_mem_stripZeros fun b hb => hdigits b (List.mem_of_mem_drop hb)
  split_ifs with hrange hk
  · have hkp : k.toNat ≤ p := by simp at hrange; omega
    refine ⟨_, _, [], 0, ⟨(hfront _).1, fun b hb => hdigits b (List.mem_of_mem_take hb),
      fun h => absurd h (hfront _).2, hback _, .inl ⟨rfl, rfl⟩⟩, (List.append_nil _).symm, ?_⟩
    rw [zero_sub, value_stripZeros, List.take_append_drop, value_numeral, List.length_drop, hlength]
    congr 2
    omega
  · have hzeros : ∀ b ∈ List.replicate (-k - 1).toNat 48 ++ numeral d, isDigit b = true := by
      intro b hb
      rcases List.mem_append.mp hb with hb | hb
      · rw [(List.mem_replicate.mp hb).2]
        rfl
      · exact hdigits b hb
    have hvalue : value ([48] ++ (List.replicate (-k - 1).toNat 48 ++ numeral d)) = d := by
      rw [← List.append_assoc, value_append, value_numeral, value_append, value_replicate_zero]
      simp [value]
    refine ⟨_, _, [], 0, ⟨by simp, fun b hb => ?_, fun _ => rfl, isDigit_of_mem_stripZeros hzeros,
      .inl ⟨rfl, rfl⟩⟩, (List.append_nil _).symm, ?_⟩
    · rw [List.mem_singleton.mp hb]
      rfl
    · rw [zero_sub, value_stripZeros, hvalue, List.length_append, List.length_replicate, hlength]
      congr 2
      push_cast
      omega
  · refine ⟨_, _, exponentText k, k, ⟨(hfront 0).1, fun b hb => hdigits b (List.mem_of_mem_take hb),
      fun h => absurd h (hfront 0).2, hback _, .inr rfl⟩, rfl, ?_⟩
    have hvalue := value_stripZeros ((numeral d).take 1) ((numeral d).drop 1)
    rw [List.take_append_drop, value_numeral, List.length_drop, hlength] at hvalue
    rw [show k - ((stripZeros ((numeral d).drop 1)).length : ℤ) =
        -((stripZeros ((numeral d).drop 1)).length : ℤ) + k by ring,
      zpow_add₀ (by norm_num), ← mul_assoc, hvalue, mul_assoc, ← zpow_add₀ (by norm_num)]
    congr 2
    push_cast
    omega

/-- A printed value reads as its significant digits. -/
theorem scanNumeral_formatPositive (negative : Bool) {p : ℕ} {q : ℚ} (hq : 0 < q) :
    ∃ n, scanNumeral ((if negative then [minus] else []) ++ formatPositive (p + 1) q) = some n ∧
      n.negative = negative ∧
      (n.digits : ℚ) * 10 ^ n.power = (significant (p + 1) q).1 * 10 ^ ((significant (p + 1) q).2 - p) := by
  obtain ⟨whole, fraction, tail, e, hparts, htext, hvalue⟩ := formatPositive_parts (p := p) hq
  rw [htext, scanNumeral_parts negative hparts.whole_digits hparts.whole_ne_nil hparts.fraction_digits
    hparts.tail_head hparts.readExponent]
  exact ⟨_, rfl, rfl, hvalue⟩

theorem magnitude_pos {x : Finite} (h : x.mantissa ≠ 0) : 0 < x.magnitude := by
  have hm : (0 : ℚ) < x.mantissa := by exact_mod_cast Nat.pos_of_ne_zero h
  exact mul_pos hm (unit_pos _)

theorem eq_zero_of_mantissa {x : Finite} (h : x.mantissa = 0) : x = .zero x.negative := by
  obtain ⟨negative, m, e, hm, he, hnormal⟩ := x
  subst h
  have he0 : e = 0 := hnormal.resolve_right (by norm_num)
  subst he0
  rfl

/-- Seventeen significant digits are enough to read a finite value back. -/
theorem tonumber_formatFinite (other : List UInt8 → Option Number) (x : Finite) :
    tonumber other (formatFinite 17 x) = some (.finite x) := by
  by_cases hx : x.mantissa = 0
  · have hscan : scanNumeral (formatFinite 17 x) = some ⟨x.negative, 0, 0⟩ := by
      simp only [formatFinite, hx, if_true]
      cases x.negative <;> rfl
    simp only [tonumber, hscan, nearest]
    rw [dif_neg (by norm_num), ← eq_zero_of_mantissa hx]
  · have hq := magnitude_pos hx
    obtain ⟨n, hscan, hsign, hvalue⟩ := scanNumeral_formatPositive x.negative (p := 16) hq
    have hnear := (significant_spec (p := 16) hq).2.2
    simp only [tonumber, formatFinite, if_neg hx, hscan, hsign, hvalue]
    rw [Option.some.injEq]
    apply nearest_of_near (Nat.pos_of_ne_zero hx)
    refine hnear.trans_lt ?_
    rw [div_lt_div_iff₀ (by norm_num) (by norm_num)]
    nlinarith

end Decimal
