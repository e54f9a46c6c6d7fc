import Nupp.Serde.Timestamps
import Mathlib.Tactic.FieldSimp
import Mathlib.Tactic.Linarith
import Mathlib.Tactic.LinearCombination
import Mathlib.Tactic.Ring

/-! Epoch texts and timestamps denote the same rational numbers, of any length. -/

namespace Nupp.timestamps

open Decimal

/-! One more or one less. -/

/-- The number written by digits, the lowest first. -/
def lowValue : Bytes → ℤ
  | [] => 0
  | byte :: rest => ((byte.toNat : ℤ) - 48) + 10 * lowValue rest

theorem lowValue_append (a b : Bytes) : lowValue (a ++ b) = lowValue a + 10 ^ a.length * lowValue b := by
  induction a with
  | nil => simp [lowValue]
  | cons x a ih =>
    simp only [List.cons_append, lowValue, ih, List.length_cons, pow_succ]
    ring

theorem lowValue_reverse {digits : Bytes} (hd : ∀ b ∈ digits, isDigit b = true) :
    lowValue digits.reverse = value digits := by
  induction digits with
  | nil => rfl
  | cons first digits ih =>
    obtain ⟨d, hd10, rfl⟩ := digit_value (hd first List.mem_cons_self)
    have hrest := ih fun b hb => hd b (List.mem_cons_of_mem _ hb)
    have hvalue : value (digit d :: digits) = d * 10 ^ digits.length + value digits := by
      rw [← List.singleton_append, value_append]
      simp [value, toNat_digit hd10]
    rw [List.reverse_cons, lowValue_append, hrest, hvalue, List.length_reverse]
    simp only [lowValue, toNat_digit hd10]
    push_cast
    ring

/-- What the digits and the carry say together. -/
structure Stepped (carry : ℤ) (digits result : Bytes) (out : ℤ) : Prop where
  length_eq : result.length = digits.length
  result_digits : ∀ b ∈ result, isDigit b = true
  out_range : -1 ≤ out ∧ out ≤ 1
  value_eq : lowValue result + 10 ^ digits.length * out = lowValue digits + carry

theorem stepDigits_spec {digits : Bytes} (hd : ∀ b ∈ digits, isDigit b = true) {carry : ℤ}
    (hlow : -1 ≤ carry) (hhigh : carry ≤ 1) :
    Stepped carry digits (stepDigits carry digits).1 (stepDigits carry digits).2 := by
  induction digits generalizing carry with
  | nil => exact ⟨rfl, nofun, ⟨hlow, hhigh⟩, by simp [stepDigits, lowValue]⟩
  | cons first digits ih =>
    obtain ⟨d, hd10, rfl⟩ := digit_value (hd first List.mem_cons_self)
    have hrest : ∀ b ∈ digits, isDigit b = true := fun b hb => hd b (List.mem_cons_of_mem _ hb)
    -- The digit left behind and what it carries on.
    have hcons : ∀ (e : ℕ) (c : ℤ), e < 10 → -1 ≤ c → c ≤ 1 → (e : ℤ) + 10 * c = d + carry →
        Stepped carry (digit d :: digits) (digit e :: (stepDigits c digits).1) (stepDigits c digits).2 := by
      intro e c he hc hc' hsum
      obtain ⟨hlen, hdigits, hout, hvalue⟩ := ih hrest hc hc'
      refine ⟨by rw [List.length_cons, List.length_cons, hlen], ?_, hout, ?_⟩
      · intro b hb
        rcases List.mem_cons.mp hb with rfl | hb
        · exact isDigit_digit he
        · exact hdigits b hb
      · simp only [lowValue, toNat_digit he, toNat_digit hd10, List.length_cons, pow_succ]
        push_cast
        linear_combination 10 * hvalue + hsum
    have hval : ((digit d).toNat : ℤ) - 48 + carry = d + carry := by
      rw [toNat_digit hd10]
      push_cast
      ring
    by_cases hten : (d : ℤ) + carry = 10
    · have hstep := hcons 0 1 (by omega) (by omega) (by omega) (by push_cast; omega)
      simp only [stepDigits, hval, if_pos hten]
      exact hstep
    by_cases hminus : (d : ℤ) + carry = -1
    · have hstep := hcons 9 (-1) (by omega) (by omega) (by omega) (by push_cast; omega)
      simp only [stepDigits, hval, if_neg hten, if_pos hminus]
      exact hstep
    · obtain ⟨e, he⟩ : ∃ e : ℕ, (d : ℤ) + carry = e := ⟨((d : ℤ) + carry).toNat, by omega⟩
      have hstep := hcons e 0 (by omega) (by omega) (by omega) (by omega)
      have hbyte : UInt8.ofNat (48 + (e : ℤ)).toNat = digit e := by
        rw [digit]
        congr 1
      simpa only [stepDigits, hval, he, hbyte, if_neg (he ▸ hten), if_neg (he ▸ hminus)] using hstep

theorem value_lt {digits : Bytes} (hd : ∀ b ∈ digits, isDigit b = true) : value digits < 10 ^ digits.length := by
  induction digits using List.reverseRecOn with
  | nil => simp [value]
  | append_singleton front last ih =>
    obtain ⟨d, hd10, rfl⟩ := digit_value (hd last (by simp))
    have hfront := ih fun b hb => hd b (List.mem_append_left _ hb)
    rw [value_append_digit _ hd10, List.length_append, List.length_singleton, pow_succ]
    omega

/-- Digits without the zeros in front of them, one at least, are the numeral of their value. -/
theorem trimmed_eq {text : Bytes} (hd : ∀ b ∈ text, isDigit b = true) :
    (if text.dropWhile (· = 48) = [] then [48] else text.dropWhile (· = 48)) = numeral (value text) := by
  have hvalue : value (text.dropWhile (· = 48)) = value text := by
    induction text with
    | nil => rfl
    | cons b text ih =>
      by_cases hb : b = 48
      · subst hb
        rw [List.dropWhile_cons_of_pos (by simp), ih fun b hb => hd b (List.mem_cons_of_mem _ hb)]
        simp [value]
      · rw [List.dropWhile_cons_of_neg (by simpa using hb)]
  split_ifs with hnil
  · rw [← hvalue, hnil, numeral]
    rfl
  · rw [← hvalue]
    refine (numeral_value hnil (fun b hb => hd b ((List.dropWhile_suffix _).subset hb)) fun _ hhead => ?_).symm
    have hstop := List.head?_dropWhile_not (fun b : UInt8 => decide (b = 48)) text
    rw [hhead] at hstop
    simp at hstop

/-- One more or one less, where it is not negative, without a zero in front. -/
theorem step_eq {digits : Bytes} (hd : ∀ b ∈ digits, isDigit b = true) (increase : Bool) {n : ℕ}
    (hn : (n : ℤ) = value digits + if increase then 1 else -1) : step digits increase = numeral n := by
  have hrev : ∀ b ∈ digits.reverse, isDigit b = true := fun b hb => hd b (List.mem_reverse.mp hb)
  obtain ⟨hlen, hdigits, hout, hvalue⟩ := stepDigits_spec hrev
    (show -1 ≤ if increase then (1 : ℤ) else -1 by split_ifs <;> omega) (by split_ifs <;> omega)
  unfold step
  generalize stepDigits (if increase then 1 else -1) digits.reverse = r at hlen hdigits hout hvalue ⊢
  obtain ⟨result, out⟩ := r
  dsimp only at hlen hdigits hout hvalue ⊢
  have hresult : ∀ b ∈ result.reverse, isDigit b = true := fun b hb => hdigits b (List.mem_reverse.mp hb)
  have hlow := lowValue_reverse hresult
  rw [List.reverse_reverse] at hlow
  have hbound := value_lt hresult
  rw [List.length_reverse, hlen] at hbound
  rw [hlow, lowValue_reverse hd, ← hn] at hvalue
  have hpow : (0 : ℤ) < 10 ^ digits.reverse.length := by positivity
  have hbound' : (value result.reverse : ℤ) < 10 ^ digits.reverse.length := by exact_mod_cast hbound
  have hcases : out = 0 ∨ out = 1 := by
    rcases hout with ⟨h1, h2⟩
    by_contra hne
    push Not at hne
    obtain rfl : out = -1 := by omega
    linarith
  rcases hcases with rfl | rfl
  · have hn' : value result.reverse = n := by
      have : (value result.reverse : ℤ) = n := by linarith
      exact_mod_cast this
    rw [if_neg (show ¬(0 : ℤ) = 1 by omega)]
    exact (trimmed_eq hresult).trans (congrArg numeral hn')
  · have htext : ∀ b ∈ (49 : UInt8) :: result.reverse, isDigit b = true := by
      intro b hb
      rcases List.mem_cons.mp hb with rfl | hb
      · rfl
      · exact hresult b hb
    have hn' : value (49 :: result.reverse) = n := by
      have hone : value (49 :: result.reverse) = 10 ^ result.reverse.length + value result.reverse := by
        rw [← List.singleton_append, value_append]
        simp [value]
      have : (value (49 :: result.reverse) : ℤ) = n := by
        rw [hone, List.length_reverse, hlen]
        push_cast
        linarith
      exact_mod_cast this
    rw [if_pos rfl]
    exact (trimmed_eq htext).trans (congrArg numeral hn')

/-! Whole seconds. -/

def signed (negative : Bool) (n : ℕ) : Bytes := (if negative then [minus] else []) ++ numeral n

theorem integerText_eq (s : ℤ) : integerText s = signed (decide (s < 0)) s.natAbs := by
  by_cases hs : s < 0
  · simp [integerText, signed, hs]
  · simp [integerText, signed, hs]

theorem numeral_head_digit (n : ℕ) : ∃ b rest, numeral n = b :: rest ∧ isDigit b = true := by
  obtain ⟨b, rest, h⟩ := List.exists_cons_of_ne_nil (numeral_ne_nil n)
  exact ⟨b, rest, h, isDigit_of_mem_numeral (h ▸ List.mem_cons_self)⟩

theorem readSign_digits {text : Bytes} (h : ∀ b ∈ text.head?, isDigit b = true) : readSign text = (false, text) := by
  cases text with
  | nil => rfl
  | cons b text =>
    rw [readSign, if_neg]
    rintro rfl
    exact absurd (h _ rfl) (by decide)

theorem readSign_signed (negative : Bool) (n : ℕ) (tail : Bytes) :
    readSign (signed negative n ++ tail) = (negative, numeral n ++ tail) := by
  cases negative with
  | true => rfl
  | false =>
    obtain ⟨b, rest, hn, hb⟩ := numeral_head_digit n
    rw [signed, if_neg (by decide), List.nil_append, readSign_digits]
    intro c hc
    rw [hn] at hc
    cases hc
    exact hb

theorem readSign_eq (text : Bytes) :
    text = (if (readSign text).1 then [minus] else []) ++ (readSign text).2 := by
  cases text with
  | nil => rfl
  | cons b text =>
    by_cases hb : b = minus
    · rw [readSign, if_pos hb, hb]
      rfl
    · rw [readSign, if_neg hb]
      rfl

/-- The texts taken for seconds: a numeral, behind a minus or alone. -/
theorem seconds_ok_iff {text : Bytes} : seconds text = .ok () ↔ ∃ negative n, text = signed negative n := by
  constructor
  · intro h
    unfold seconds integerDigits at h
    have htext := readSign_eq text
    generalize readSign text = r at h htext
    obtain ⟨negative, digits⟩ := r
    dsimp only at h htext
    by_cases hd : (digits = [] || !digits.all isDigit) = true
    · rw [if_pos hd] at h
      cases h
    rw [if_neg hd] at h
    dsimp only at h
    by_cases hzero : (1 < digits.length && digits.head? = some 48) = true
    · rw [if_pos hzero] at h
      cases h
    simp only [Bool.or_eq_true, decide_eq_true_eq, Bool.not_eq_true', List.all_eq_false, not_or, not_exists,
      not_and, Bool.not_eq_true] at hd
    simp only [Bool.and_eq_true, decide_eq_true_eq, not_and] at hzero
    refine ⟨negative, value digits, ?_⟩
    rw [signed, numeral_value hd.1 (fun b hb => by simpa using hd.2 b hb) hzero]
    exact htext
  · rintro ⟨negative, n, rfl⟩
    have hread := readSign_signed negative n []
    rw [List.append_nil, List.append_nil] at hread
    have hall : (numeral n).all isDigit = true := List.all_eq_true.mpr fun b hb => isDigit_of_mem_numeral hb
    have hdigits : integerDigits (signed negative n) = some (numeral n) := by
      simp [integerDigits, hread, numeral_ne_nil, hall]
    have hhead : ¬(1 < (numeral n).length && (numeral n).head? = some 48) = true := by
      simp only [Bool.and_eq_true, decide_eq_true_eq, not_and]
      intro hlen
      refine head_numeral n (Nat.pos_of_ne_zero ?_)
      rintro rfl
      rw [numeral] at hlen
      simp at hlen
    rw [seconds, hdigits]
    exact if_neg hhead

/-- A decimal integer without leading zeros, other than a negative zero. -/
def Canonical (text : Bytes) : Prop :=
  (∃ digits, integerDigits text = some digits ∧ (1 < digits.length → digits.head? ≠ some 48)) ∧ text ≠ negativeZero

theorem numeral_zero : numeral 0 = [48] := by
  rw [numeral]
  rfl

theorem signed_eq_negativeZero {negative : Bool} {n : ℕ} :
    signed negative n = negativeZero ↔ negative = true ∧ n = 0 := by
  constructor
  · intro h
    have hread := readSign_signed negative n []
    rw [List.append_nil, List.append_nil, h] at hread
    obtain ⟨hsign, hdigits⟩ := Prod.mk.inj hread
    exact ⟨hsign.symm, numeral_injective (hdigits.symm.trans numeral_zero.symm)⟩
  · rintro ⟨rfl, rfl⟩
    rw [signed, numeral_zero]
    rfl

theorem canonical_iff {text : Bytes} : Canonical text ↔ ∃ s : ℤ, text = integerText s := by
  have hseconds : (∃ digits, integerDigits text = some digits ∧ (1 < digits.length → digits.head? ≠ some 48)) ↔
      seconds text = .ok () := by
    unfold seconds
    cases hdigits : integerDigits text with
    | none => simp
    | some digits => simp
  rw [Canonical, hseconds, seconds_ok_iff]
  constructor
  · rintro ⟨⟨negative, n, rfl⟩, hzero⟩
    rw [Ne, signed_eq_negativeZero, not_and] at hzero
    refine ⟨if negative then -n else n, ?_⟩
    rw [integerText_eq]
    cases negative with
    | false =>
      have hneg : ¬(n : ℤ) < 0 := by omega
      rw [if_neg (by decide), Int.natAbs_natCast, decide_eq_false hneg]
    | true =>
      have hn := hzero rfl
      have hneg : -(n : ℤ) < 0 := by omega
      rw [if_pos rfl, Int.natAbs_neg, Int.natAbs_natCast, decide_eq_true hneg]
  · rintro ⟨s, rfl⟩
    rw [integerText_eq]
    refine ⟨⟨_, _, rfl⟩, ?_⟩
    rw [Ne, signed_eq_negativeZero, decide_eq_true_eq]
    omega

/-! The fraction. -/

theorem splitPoint_signed (negative : Bool) (n : ℕ) : splitPoint (signed negative n) = none := by
  have hread := readSign_signed negative n []
  rw [List.append_nil, List.append_nil] at hread
  have hdrop : (numeral n).dropWhile isDigit = [] :=
    List.dropWhile_eq_nil_iff.mpr fun b hb => isDigit_of_mem_numeral hb
  simp [splitPoint, hread, hdrop]

/-- The fraction of a text: digits, one at least. -/
structure Fraction (fraction : Bytes) : Prop where
  ne_nil : fraction ≠ []
  digits : ∀ b ∈ fraction, isDigit b = true

theorem splitPoint_point (negative : Bool) (n : ℕ) {fraction : Bytes} (hf : Fraction fraction) :
    splitPoint (signed negative n ++ dot :: fraction) = some (signed negative n, fraction) := by
  have hn : ∀ b ∈ numeral n, isDigit b = true := fun b hb => isDigit_of_mem_numeral hb
  have htake : (numeral n ++ dot :: fraction).takeWhile isDigit = numeral n := by
    rw [List.takeWhile_append_of_pos hn, List.takeWhile_cons_of_neg (by decide), List.append_nil]
  have hdrop : (numeral n ++ dot :: fraction).dropWhile isDigit = dot :: fraction := by
    rw [List.dropWhile_append_of_pos hn, List.dropWhile_cons_of_neg (by decide)]
  have hall : fraction.all isDigit = true := List.all_eq_true.mpr hf.digits
  rw [splitPoint, readSign_signed]
  simp only [htake, hdrop, numeral_ne_nil, hf.ne_nil, hall, ne_eq, not_true_eq_false, decide_false,
    Bool.or_false, Bool.not_true, Bool.false_eq_true, if_false]
  cases negative <;> rfl

theorem splitPoint_some {text whole fraction : Bytes} (h : splitPoint text = some (whole, fraction)) :
    text = whole ++ dot :: fraction ∧ Fraction fraction := by
  unfold splitPoint at h
  have htext := readSign_eq text
  generalize readSign text = r at h htext
  obtain ⟨negative, rest⟩ := r
  dsimp only at h htext
  have hrest : rest.takeWhile isDigit ++ rest.dropWhile isDigit = rest := List.takeWhile_append_dropWhile
  cases hdrop : rest.dropWhile isDigit with
  | nil =>
    rw [hdrop] at h
    cases h
  | cons point digits =>
    rw [hdrop] at h hrest
    dsimp only at h
    split_ifs at h with hbad hneg
    all_goals
      simp only [Bool.or_eq_true, decide_eq_true_eq, Bool.not_eq_true', List.all_eq_false, not_or, not_exists,
        not_and, Bool.not_eq_true, not_not] at hbad
      obtain ⟨rfl, rfl⟩ := Prod.mk.inj (Option.some.inj h)
      have hfraction : Fraction digits := ⟨hbad.1.2, fun b hb => by simpa using hbad.2 b hb⟩
      obtain ⟨⟨⟨_, rfl⟩, _⟩, _⟩ := hbad
      rw [← hrest] at htext
      refine ⟨htext.trans ?_, hfraction⟩
    · rw [if_pos hneg]
      rfl
    · rw [if_neg hneg]
      rfl

theorem value_padding (fraction : Bytes) (k : ℕ) :
    value (fraction ++ List.replicate k 48) = value fraction * 10 ^ k := by
  rw [value_append, value_replicate_zero, List.length_replicate, Nat.add_zero]

theorem fractionNanos_range {fraction : Bytes} (hd : ∀ b ∈ fraction, isDigit b = true) (hlen : fraction.length ≤ 9) :
    0 ≤ fractionNanos fraction ∧ fractionNanos fraction < 1000000000 := by
  have hpadded : ∀ b ∈ fraction ++ List.replicate (9 - fraction.length) 48, isDigit b = true := by
    intro b hb
    rcases List.mem_append.mp hb with hb | hb
    · exact hd b hb
    · rw [List.eq_of_mem_replicate hb]
      rfl
  have hlt := value_lt hpadded
  rw [List.length_append, List.length_replicate, show fraction.length + (9 - fraction.length) = 9 by omega] at hlt
  unfold fractionNanos
  omega

theorem fractionNanos_div {fraction : Bytes} (hlen : fraction.length ≤ 9) :
    (fractionNanos fraction : ℚ) / 1000000000 = value fraction * 10 ^ (-(fraction.length : ℤ)) := by
  have hpow : (10 : ℚ) ^ (9 - fraction.length) * 10 ^ fraction.length = 1000000000 := by
    rw [← pow_add, show 9 - fraction.length + fraction.length = 9 by omega]
    norm_num
  rw [fractionNanos, value_padding, ← hpow, zpow_neg, zpow_natCast]
  push_cast
  field_simp

/-- Nine digits, less the zeros at their end, read as the nanoseconds they spell. -/
theorem nanosText_spec {nanos : ℤ} (hpos : 0 < nanos) (hlt : nanos < 1000000000) :
    Fraction (nanosText nanos) ∧ (nanosText nanos).length ≤ 9 ∧ fractionNanos (nanosText nanos) = nanos := by
  obtain ⟨n, rfl⟩ : ∃ n : ℕ, nanos = n := ⟨nanos.toNat, by omega⟩
  have hlen : (numeral n).length ≤ 9 := numeral_length_le 8 (by norm_num; omega)
  have hpad : padded 9 (n : ℤ) = List.replicate (9 - (numeral n).length) 48 ++ numeral n := rfl
  have hlength : (padded 9 (n : ℤ)).length = 9 := by
    rw [hpad, List.length_append, List.length_replicate]
    omega
  have hvalue : value (padded 9 (n : ℤ)) = n := by
    rw [hpad, value_append, value_replicate_zero, value_numeral, Nat.zero_mul, Nat.zero_add]
  have hdigits : ∀ b ∈ padded 9 (n : ℤ), isDigit b = true := by
    intro b hb
    rcases List.mem_append.mp (hpad ▸ hb) with hb | hb
    · rw [List.eq_of_mem_replicate hb]
      rfl
    · exact isDigit_of_mem_numeral hb
  obtain ⟨k, hk⟩ := stripZeros_append (padded 9 (n : ℤ))
  have hsum : (nanosText n).length + k = 9 := by
    have := congrArg List.length hk
    rw [hlength, List.length_append, List.length_replicate] at this
    exact this.symm
  have hnanos : fractionNanos (nanosText n) = n := by
    rw [fractionNanos, show 9 - (nanosText n).length = k by omega, nanosText, ← hk, hvalue]
  refine ⟨⟨?_, isDigit_of_mem_stripZeros hdigits⟩, by omega, hnanos⟩
  intro hnil
  rw [hnil] at hnanos
  have : fractionNanos [] = 0 := by
    rw [fractionNanos, List.nil_append, value_replicate_zero]
    rfl
  omega

/-! Both directions. -/

/-- The number a decimal text writes. -/
def denotes (text : Bytes) : Option ℚ :=
  (scanNumeral text).map fun n => (if n.negative then (-1 : ℚ) else 1) * (n.digits * 10 ^ n.power)

/-- The seconds since the epoch of an instant. -/
def instant (t : Timestamp) : Option ℚ := (denotes t.seconds).map (· + t.nanos / 1000000000)

theorem denotes_point (negative : Bool) (n : ℕ) {fraction : Bytes} (hd : ∀ b ∈ fraction, isDigit b = true) :
    denotes ((if negative then [minus] else []) ++ withFraction (numeral n) fraction) =
      some ((if negative then (-1 : ℚ) else 1) * (n + value fraction * 10 ^ (-(fraction.length : ℤ)))) := by
  have hscan := @scanNumeral_parts negative _ fraction [] 0 (fun b hb => isDigit_of_mem_numeral hb)
    (numeral_ne_nil n) hd nofun rfl
  rw [List.append_nil, value_append, value_numeral] at hscan
  have hpow : (10 : ℚ) ^ fraction.length * 10 ^ (-(fraction.length : ℤ)) = 1 := by
    rw [zpow_neg, zpow_natCast]
    exact mul_inv_cancel₀ (by positivity)
  rw [denotes, hscan, Option.map_some, zero_sub]
  push_cast
  congr 2
  linear_combination (n : ℚ) * hpow

theorem denotes_signed (negative : Bool) (n : ℕ) :
    denotes (signed negative n) = some ((if negative then (-1 : ℚ) else 1) * n) := by
  have h := @denotes_point negative n [] nofun
  simpa [signed, withFraction, value] using h

theorem denotes_integerText (s : ℤ) : denotes (integerText s) = some (s : ℚ) := by
  rw [integerText_eq, denotes_signed]
  congr 1
  by_cases hs : s < 0
  · have habs : (s.natAbs : ℤ) = -s := by omega
    have habs' : ((s.natAbs : ℤ) : ℚ) = -s := by rw [habs, Int.cast_neg]
    rw [Int.cast_natCast] at habs'
    simp [hs, habs']
  · have habs : (s.natAbs : ℤ) = s := by omega
    have habs' : ((s.natAbs : ℤ) : ℚ) = s := by rw [habs]
    rw [Int.cast_natCast] at habs'
    simp [hs, habs']

theorem integerText_injective {s s' : ℤ} (h : integerText s = integerText s') : s = s' := by
  have hdenotes := denotes_integerText s
  rw [h, denotes_integerText] at hdenotes
  exact_mod_cast (Option.some.inj hdenotes).symm

theorem step_up (n : ℕ) : step (numeral n) true = numeral (n + 1) := by
  refine step_eq (fun b hb => isDigit_of_mem_numeral hb) true ?_
  rw [value_numeral, if_pos rfl]
  push_cast
  rfl

theorem step_down (n : ℕ) : step (numeral (n + 1)) false = numeral n := by
  refine step_eq (fun b hb => isDigit_of_mem_numeral hb) false ?_
  rw [value_numeral, if_neg (by decide)]
  push_cast
  ring

theorem seconds_signed (negative : Bool) (n : ℕ) : seconds (signed negative n) = .ok () :=
  seconds_ok_iff.mpr ⟨negative, n, rfl⟩

theorem head_signed (negative : Bool) (n : ℕ) : (signed negative n).head? = some minus ↔ negative = true := by
  cases negative with
  | true => simp [signed]
  | false =>
    obtain ⟨b, rest, hn, hb⟩ := numeral_head_digit n
    simp only [signed, Bool.false_eq_true, if_false, List.nil_append, hn, List.head?_cons, Option.some.injEq,
      iff_false]
    rintro rfl
    exact absurd hb (by decide)

/-- A text without a point. -/
theorem parseEpoch_signed (negative : Bool) (n : ℕ) :
    parseEpoch (signed negative n) =
      .ok ⟨if negative = true ∧ n = 0 then [48] else signed negative n, 0⟩ := by
  rw [parseEpoch, splitPoint_signed, seconds_signed]
  simp only [signed_eq_negativeZero]
  rfl

/-- A text with a fraction: a negative one is counted up from the second below it. -/
theorem parseEpoch_point (negative : Bool) (n : ℕ) {fraction : Bytes} (hf : Fraction fraction)
    (hlen : fraction.length ≤ 9) :
    parseEpoch (signed negative n ++ dot :: fraction) =
      .ok (if negative = true ∧ fractionNanos fraction ≠ 0 then
        ⟨signed true (n + 1), 1000000000 - fractionNanos fraction⟩
      else if negative = true ∧ n = 0 then ⟨[48], fractionNanos fraction⟩
      else ⟨signed negative n, fractionNanos fraction⟩) := by
  rw [parseEpoch, splitPoint_point negative n hf]
  simp only [seconds_signed]
  simp only [Nat.not_lt.mpr hlen, if_false, Bool.and_eq_true, decide_eq_true_eq, head_signed,
    signed_eq_negativeZero]
  by_cases hneg : negative = true ∧ fractionNanos fraction ≠ 0
  · obtain ⟨rfl, hnanos⟩ := hneg
    have htail : (signed true n).tail = numeral n := rfl
    simp only [hnanos, ne_eq, not_false_eq_true, and_self, if_true, htail, step_up]
    rfl
  · simp only [hneg, if_false]
    by_cases hzero : negative = true ∧ n = 0
    · simp only [hzero, and_self, if_true]
      rfl
    · simp only [hzero, if_false]
      rfl

/-- The texts `parseEpoch` takes. -/
theorem parseEpoch_ok {text : Bytes} {t : Timestamp} (h : parseEpoch text = .ok t) :
    ∃ negative n, text = signed negative n ∨
      ∃ fraction, Fraction fraction ∧ fraction.length ≤ 9 ∧ text = signed negative n ++ dot :: fraction := by
  rw [parseEpoch] at h
  cases hsplit : splitPoint text with
  | none =>
    rw [hsplit] at h
    cases hs : seconds text with
    | error e =>
      simp only [hs] at h
      cases h
    | ok _ =>
      obtain ⟨negative, n, rfl⟩ := seconds_ok_iff.mp hs
      exact ⟨negative, n, .inl rfl⟩
  | some parts =>
    obtain ⟨whole, fraction⟩ := parts
    obtain ⟨rfl, hf⟩ := splitPoint_some hsplit
    rw [hsplit] at h
    cases hs : seconds whole with
    | error e =>
      simp only [hs] at h
      cases h
    | ok _ =>
      obtain ⟨negative, n, rfl⟩ := seconds_ok_iff.mp hs
      refine ⟨negative, n, .inr ⟨fraction, hf, ?_, rfl⟩⟩
      by_contra hlen
      rw [not_le] at hlen
      simp only [hs, hlen, if_true] at h
      cases h

theorem signed_eq_integerText {negative : Bool} {n : ℕ} (h : ¬(negative = true ∧ n = 0)) :
    signed negative n = integerText (if negative then -n else n) := by
  cases negative with
  | false =>
    have hn : ¬(n : ℤ) < 0 := by omega
    rw [if_neg (by decide), integerText_eq, Int.natAbs_natCast, decide_eq_false hn]
  | true =>
    have hn : -(n : ℤ) < 0 := by
      have : n ≠ 0 := fun h0 => h ⟨rfl, h0⟩
      omega
    rw [if_pos rfl, integerText_eq, Int.natAbs_neg, Int.natAbs_natCast, decide_eq_true hn]

theorem instant_integerText (s nanos : ℤ) : instant ⟨integerText s, nanos⟩ = some ((s : ℚ) + nanos / 1000000000) := by
  rw [instant, denotes_integerText]
  rfl

/-- What is read is the number the text writes. -/
theorem parseEpoch_denotes {text : Bytes} {t : Timestamp} (h : parseEpoch text = .ok t) :
    Canonical t.seconds ∧ 0 ≤ t.nanos ∧ t.nanos < 1000000000 ∧ ∃ q, denotes text = some q ∧ instant t = some q := by
  have hzero : ([48] : Bytes) = integerText 0 := by
    rw [integerText_eq]
    exact numeral_zero.symm
  obtain ⟨negative, n, rfl | ⟨fraction, hf, hlen, rfl⟩⟩ := parseEpoch_ok h
  · rw [parseEpoch_signed] at h
    cases h
    have hseconds : (if negative = true ∧ n = 0 then [48] else signed negative n) =
        integerText (if negative then -n else n) := by
      split_ifs with hboth hneg hneg
      · rw [hboth.2]
        exact hzero
      · exact absurd hboth.1 hneg
      · rw [signed_eq_integerText hboth, if_pos hneg]
      · rw [signed_eq_integerText hboth, if_neg hneg]
    refine ⟨canonical_iff.mpr ⟨_, hseconds⟩, le_rfl, by norm_num, _, denotes_signed negative n, ?_⟩
    rw [hseconds, instant_integerText]
    cases negative <;> simp
  · obtain ⟨hlow, hhigh⟩ := fractionNanos_range hf.digits hlen
    have hdenotes := denotes_point negative n hf.digits
    rw [withFraction, if_neg hf.ne_nil, ← List.append_assoc, ← signed, ← fractionNanos_div hlen] at hdenotes
    rw [parseEpoch_point negative n hf hlen] at h
    generalize fractionNanos fraction = nanos at h hlow hhigh hdenotes
    by_cases hneg : negative = true ∧ nanos ≠ 0
    · obtain ⟨rfl, hnanos⟩ := hneg
      rw [if_pos ⟨rfl, hnanos⟩] at h
      cases h
      have hseconds : signed true (n + 1) = integerText (-(n + 1 : ℕ)) := signed_eq_integerText (by simp)
      refine ⟨canonical_iff.mpr ⟨_, hseconds⟩, by dsimp only; omega, by dsimp only; omega, _, hdenotes, ?_⟩
      rw [hseconds, instant_integerText]
      push_cast
      congr 1
      rw [if_pos rfl]
      ring
    rw [if_neg hneg] at h
    by_cases hboth : negative = true ∧ n = 0
    · obtain ⟨rfl, rfl⟩ := hboth
      obtain rfl : nanos = 0 := by
        by_contra hne
        exact hneg ⟨rfl, hne⟩
      rw [if_pos ⟨rfl, rfl⟩] at h
      cases h
      refine ⟨canonical_iff.mpr ⟨_, hzero⟩, le_rfl, by norm_num, _, hdenotes, ?_⟩
      rw [hzero, instant_integerText]
      simp
    · rw [if_neg hboth] at h
      cases h
      have hseconds := signed_eq_integerText hboth
      refine ⟨canonical_iff.mpr ⟨_, hseconds⟩, hlow, hhigh, _, hdenotes, ?_⟩
      rw [hseconds, instant_integerText]
      cases negative with
      | false => simp
      | true =>
        obtain rfl : nanos = 0 := by
          by_contra hne
          exact hneg ⟨rfl, hne⟩
        simp

/-- The text of an instant reads back. -/
theorem parseEpoch_epoch (s : ℤ) {nanos : ℤ} (hlow : 0 ≤ nanos) (hhigh : nanos < 1000000000) :
    ∃ text, epoch ⟨integerText s, nanos⟩ = .ok text ∧ parseEpoch text = .ok ⟨integerText s, nanos⟩ := by
  have htext := integerText_eq s
  generalize hneg : decide (s < 0) = negative at htext
  generalize hn : s.natAbs = n at htext
  have hplain : ¬(negative = true ∧ n = 0) := by
    rw [← hneg, decide_eq_true_eq]
    omega
  have hvalid : (decide (nanos < 0) || decide (nanos ≥ 1000000000)) = false := by
    simp [hlow, hhigh]
  rw [htext, epoch]
  simp only [seconds_signed, hvalid, Bool.false_eq_true, if_false, Bool.and_eq_true, decide_eq_true_eq,
    head_signed, signed_eq_negativeZero, ne_eq, hplain, not_false_eq_true, and_true]
  by_cases hzero : nanos = 0
  · subst hzero
    refine ⟨signed negative n, rfl, ?_⟩
    rw [parseEpoch_signed, if_neg hplain]
  have hpos : 0 < nanos := by omega
  simp only [hzero, if_false]
  cases negative with
  | true =>
    obtain ⟨m, rfl⟩ : ∃ m, n = m + 1 := Nat.exists_eq_succ_of_ne_zero fun h0 => hplain ⟨rfl, h0⟩
    have htail : (signed true (m + 1)).tail = numeral (m + 1) := rfl
    obtain ⟨hf, hlen, hnanos⟩ := nanosText_spec (show 0 < 1000000000 - nanos by omega) (by omega)
    refine ⟨signed true m ++ dot :: nanosText (1000000000 - nanos), ?_, ?_⟩
    · simp only [if_true, htail, step_down]
      rfl
    · rw [parseEpoch_point true m hf hlen, hnanos, if_pos ⟨rfl, by omega⟩, sub_sub_cancel]
  | false =>
    obtain ⟨hf, hlen, hnanos⟩ := nanosText_spec hpos hhigh
    refine ⟨signed false n ++ dot :: nanosText nanos, rfl, ?_⟩
    rw [parseEpoch_point false n hf hlen, hnanos, if_neg (by simp), if_neg (by simp)]

theorem epoch_roundTrip :
    (∀ t : Timestamp, Canonical t.seconds → 0 ≤ t.nanos → t.nanos ≤ 999999999 →
      ∃ text, epoch t = .ok text ∧ parseEpoch text = .ok t) ∧
    ∀ (text : Bytes) (t : Timestamp), parseEpoch text = .ok t →
      0 ≤ t.nanos ∧ t.nanos ≤ 999999999 ∧ ∃ q, denotes text = some q ∧ instant t = some q := by
  constructor
  · rintro ⟨text, nanos⟩ htext hlow hhigh
    obtain ⟨s, rfl⟩ := canonical_iff.mp htext
    exact parseEpoch_epoch s hlow (by dsimp only at hhigh; omega)
  · intro text t h
    obtain ⟨_, hlow, hhigh, hq⟩ := parseEpoch_denotes h
    exact ⟨hlow, by omega, hq⟩

theorem epoch_roundTrip_half :
    (∃ text, epoch ⟨[45, 49], 500000000⟩ = .ok text ∧ parseEpoch text = .ok ⟨[45, 49], 500000000⟩) ∧
      ∃ q, denotes [45, 48, 46, 53] = some q ∧ instant ⟨[45, 49], 500000000⟩ = some q :=
  ⟨epoch_roundTrip.1 ⟨[45, 49], 500000000⟩ ⟨⟨[49], rfl, by decide⟩, by decide⟩ (by decide) (by decide),
    (epoch_roundTrip.2 [45, 48, 46, 53] ⟨[45, 49], 500000000⟩ rfl).2.2⟩

end Nupp.timestamps
