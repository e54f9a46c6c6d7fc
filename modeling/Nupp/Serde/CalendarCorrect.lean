import Nupp.Serde.EpochCorrect
import Mathlib.Tactic.IntervalCases

/-! The day count of a date-time text and the search for the year and the month of a day
are inverse, over the years one to nine thousand nine hundred ninety-nine. -/

namespace Nupp.timestamps

open Decimal Binary64 Double Loop

/-! Years and months. -/

theorem before_succ (year : ℤ) : before (year + 1) = before year + 365 + if leap year then 1 else 0 := by
  unfold before leap
  simp only [Bool.and_eq_true, Bool.or_eq_true, decide_eq_true_eq]
  split_ifs <;> omega

theorem before_mono {a b : ℤ} (h : a ≤ b) : before a ≤ before b := by
  simp only [before]
  omega

/-- The days of a year before a month of it. -/
def monthStart (year : ℤ) (month : ℕ) : ℤ := daysBeforeMonth month + if 2 < month ∧ leap year = true then 1 else 0

theorem monthStart_succ (year : ℤ) {month : ℕ} (hlow : 1 ≤ month) (hhigh : month ≤ 12) :
    monthStart year (month + 1) = monthStart year month + monthSize year month := by
  cases hleap : leap year <;> interval_cases month <;>
    simp [monthStart, daysBeforeMonth, monthSize, months, hleap]

theorem monthSize_pos (year : ℤ) {month : ℕ} (hlow : 1 ≤ month) (hhigh : month ≤ 12) : 0 < monthSize year month := by
  cases hleap : leap year <;> interval_cases month <;> simp [monthSize, months, hleap]

theorem monthSize_le (year : ℤ) {month : ℕ} (hlow : 1 ≤ month) (hhigh : month ≤ 12) : monthSize year month ≤ 31 := by
  cases hleap : leap year <;> interval_cases month <;> simp [monthSize, months, hleap]

theorem monthStart_one (year : ℤ) : monthStart year 1 = 0 := by
  simp [monthStart, daysBeforeMonth]

theorem monthStart_end (year : ℤ) : monthStart year 13 = before (year + 1) - before year := by
  rw [before_succ]
  cases hleap : leap year <;> simp [monthStart, daysBeforeMonth, months, hleap]
  ring

theorem monthStart_mono (year : ℤ) {a b : ℕ} (ha : 1 ≤ a) (hab : a ≤ b) (hb : b ≤ 13) :
    monthStart year a ≤ monthStart year b := by
  induction b, hab using Nat.le_induction with
  | base => exact le_rfl
  | succ b hab ih =>
    have hstep := monthStart_succ year (ha.trans hab) (show b ≤ 12 by omega)
    have hpos := monthSize_pos year (ha.trans hab) (show b ≤ 12 by omega)
    have := ih (by omega)
    omega

/-- A day of a year lies in one month. -/
theorem month_unique (year : ℤ) {a b : ℕ} {c d : ℤ} (ha : 1 ≤ a) (ha' : a ≤ 12) (hb : 1 ≤ b) (hb' : b ≤ 12)
    (hc : 0 ≤ c) (hc' : c < monthSize year a) (hd : 0 ≤ d) (hd' : d < monthSize year b)
    (h : monthStart year a + c = monthStart year b + d) : a = b ∧ c = d := by
  have hsucc := monthStart_succ year ha ha'
  have hsucc' := monthStart_succ year hb hb'
  rcases lt_trichotomy a b with hlt | rfl | hlt
  · have := monthStart_mono year (by omega) (show a + 1 ≤ b from hlt) (by omega)
    omega
  · exact ⟨rfl, by omega⟩
  · have := monthStart_mono year (by omega) (show b + 1 ≤ a from hlt) (by omega)
    omega

/-- A day lies in one year. -/
theorem year_unique {a b : ℤ} {c d : ℤ} (hc : 0 ≤ c) (hc' : c < before (a + 1) - before a) (hd : 0 ≤ d)
    (hd' : d < before (b + 1) - before b) (h : before a + c = before b + d) : a = b ∧ c = d := by
  rcases lt_trichotomy a b with hlt | rfl | hlt
  · have := before_mono (show a + 1 ≤ b from hlt)
    omega
  · exact ⟨rfl, by omega⟩
  · have := before_mono (show b + 1 ≤ a from hlt)
    omega

/-! The searches. -/

/-- The years that are left hold the day. -/
structure YearInv (absolute : ℤ) (x : ℤ × ℤ) : Prop where
  one_le : 1 ≤ x.1
  lt : x.1 < x.2
  le_last : x.2 ≤ 10000
  before_le : before x.1 ≤ absolute
  lt_before : absolute < before x.2

/-- The year of a day. -/
structure YearOf (absolute year : ℤ) : Prop where
  one_le : 1 ≤ year
  lt_last : year < 10000
  before_le : before year ≤ absolute
  lt_before : absolute < before (year + 1)

theorem yearStep_advances (absolute : ℤ) :
    Advances (yearStep absolute) (YearInv absolute) (fun x => (x.2 - x.1).toNat) (YearOf absolute) := by
  rintro ⟨low, high⟩ ⟨hone, hlt, hlast, hle, hbefore⟩
  dsimp only at hone hlt hlast hle hbefore
  by_cases hmore : low + 1 < high
  · left
    by_cases hmiddle : before ((low + high) / 2) ≤ absolute
    · refine ⟨((low + high) / 2, high), by simp only [yearStep, if_pos hmore, if_pos hmiddle], ?_, ?_⟩
      · exact ⟨by dsimp only; omega, by dsimp only; omega, hlast, hmiddle, hbefore⟩
      · dsimp only
        omega
    · refine ⟨(low, (low + high) / 2), by simp only [yearStep, if_pos hmore, if_neg hmiddle], ?_, ?_⟩
      · exact ⟨hone, by dsimp only; omega, by dsimp only; omega, hle, not_le.mp hmiddle⟩
      · dsimp only
        omega
  · right
    have hhigh : high = low + 1 := by omega
    subst hhigh
    exact ⟨low, by simp only [yearStep, if_neg hmore], hone, by omega, hle, hbefore⟩

theorem year_found {absolute : ℤ} (hlow : 0 ≤ absolute) (hhigh : absolute < before 10000) :
    ∃ year, loop (yearStep absolute) 10000 (1, 10000) = some year ∧ YearOf absolute year :=
  loop_total (yearStep_advances absolute) ⟨by norm_num, by norm_num, le_rfl, hlow, hhigh⟩ (by norm_num)

/-- The days that are left lie in the months from here on. -/
structure MonthInv (year total : ℤ) (x : ℕ × ℤ) : Prop where
  one_le : 1 ≤ x.1
  le_last : x.1 ≤ 12
  nonneg : 0 ≤ x.2
  total_eq : monthStart year x.1 + x.2 = total

theorem monthStep_advances {year total : ℤ} (htotal : total < monthStart year 13) :
    Advances (monthStep year) (MonthInv year total) (fun x => 13 - x.1)
      fun x => MonthInv year total x ∧ x.2 < monthSize year x.1 := by
  rintro ⟨month, day⟩ ⟨hone, hlast, hnonneg, heq⟩
  dsimp only at hone hlast hnonneg heq
  by_cases hday : day < monthSize year month
  · right
    exact ⟨(month, day), by simp only [monthStep, if_pos hday], ⟨hone, hlast, hnonneg, heq⟩, hday⟩
  · left
    have hsucc := monthStart_succ year hone hlast
    have hmonth : month ≠ 12 := by
      rintro rfl
      have hlastMonth : monthStart year 13 = monthStart year 12 + monthSize year 12 := hsucc
      omega
    refine ⟨(month + 1, day - monthSize year month), by simp only [monthStep, if_neg hday], ?_, ?_⟩
    · exact ⟨by dsimp only; omega, by dsimp only; omega, by dsimp only; omega, by dsimp only; omega⟩
    · dsimp only
      omega

theorem month_found {year total : ℤ} (hlow : 0 ≤ total) (hhigh : total < monthStart year 13) :
    ∃ x, loop (monthStep year) 13 (1, total) = some x ∧ MonthInv year total x ∧ x.2 < monthSize year x.1 := by
  refine loop_total (monthStep_advances hhigh) ⟨le_rfl, by norm_num, hlow, ?_⟩ (by norm_num)
  rw [monthStart_one, zero_add]

/-! Fields of a fixed width. -/

theorem value_injective {a b : Bytes} (ha : ∀ c ∈ a, isDigit c = true) (hb : ∀ c ∈ b, isDigit c = true)
    (hlen : a.length = b.length) (h : value a = value b) : a = b := by
  induction a using List.reverseRecOn generalizing b with
  | nil => exact (List.length_eq_zero_iff.mp hlen.symm).symm
  | append_singleton front last ih =>
    rcases List.eq_nil_or_concat' b with rfl | ⟨front', last', rfl⟩
    · simp at hlen
    · obtain ⟨d, hd, rfl⟩ := digit_value (ha last (by simp))
      obtain ⟨d', hd', rfl⟩ := digit_value (hb last' (by simp))
      rw [value_append_digit _ hd, value_append_digit _ hd'] at h
      have hfront := ih (fun c hc => ha c (List.mem_append_left _ hc))
        (fun c hc => hb c (List.mem_append_left _ hc)) (by simpa using hlen) (by omega)
      rw [hfront, show d = d' by omega]

theorem padded_eq (width n : ℕ) :
    padded width n = List.replicate (width - (numeral n).length) 48 ++ numeral n := rfl

theorem isDigit_of_mem_padded {width n : ℕ} {b : UInt8} (h : b ∈ padded width n) : isDigit b = true := by
  rcases List.mem_append.mp (padded_eq width n ▸ h) with h | h
  · rw [List.eq_of_mem_replicate h]
    rfl
  · exact isDigit_of_mem_numeral h

theorem value_padded (width n : ℕ) : value (padded width n) = n := by
  rw [padded_eq, value_append, value_replicate_zero, value_numeral, Nat.zero_mul, Nat.zero_add]

theorem length_padded {width n : ℕ} (hw : 0 < width) (h : n < 10 ^ width) : (padded width n).length = width := by
  obtain ⟨k, rfl⟩ := Nat.exists_eq_succ_of_ne_zero hw.ne'
  have := numeral_length_le k h
  rw [padded_eq, List.length_append, List.length_replicate]
  omega

theorem takeDigits_iff {width : ℕ} (hw : 0 < width) {text rest : Bytes} {n : ℕ} :
    takeDigits width text = some (n, rest) ↔ n < 10 ^ width ∧ text = padded width n ++ rest := by
  constructor
  · intro h
    unfold takeDigits at h
    split_ifs at h with hfound
    simp only [Bool.and_eq_true, decide_eq_true_eq, List.all_eq_true] at hfound
    obtain ⟨hlen, hdigits⟩ := hfound
    obtain ⟨rfl, rfl⟩ := Prod.mk.inj (Option.some.inj h)
    have hlt := value_lt hdigits
    rw [hlen] at hlt
    refine ⟨hlt, ?_⟩
    have hfield : padded width (value (text.take width)) = text.take width :=
      value_injective (fun c hc => isDigit_of_mem_padded hc) hdigits (by rw [length_padded hw hlt, hlen])
        (value_padded _ _)
    rw [hfield, List.take_append_drop]
  · rintro ⟨hlt, rfl⟩
    have hlen := length_padded hw hlt
    have htake : (padded width n ++ rest).take width = padded width n := List.take_left' hlen
    have hdrop : (padded width n ++ rest).drop width = rest := List.drop_left' hlen
    have hall : (padded width n).all isDigit = true := List.all_eq_true.mpr fun c hc => isDigit_of_mem_padded hc
    rw [takeDigits, htake, hdrop, hlen, hall, value_padded]
    simp

theorem takeByte_iff {byte : UInt8} {text rest : Bytes} : takeByte byte text = some rest ↔ text = byte :: rest := by
  cases text with
  | nil => simp [takeByte]
  | cons first text =>
    by_cases h : first = byte
    · simp [takeByte, h]
    · simp [takeByte, h]

/-- The text of the parts of a date-time. -/
def dateText (p : Parts) : Bytes :=
  padded 4 p.year ++ 45 :: (padded 2 p.month ++ 45 :: (padded 2 p.day ++ 84 :: (padded 2 p.hour ++
    58 :: (padded 2 p.minute ++ 58 :: (padded 2 p.second ++ (p.fraction ++ [90]))))))

/-- Every part fits its field. -/
structure Fits (p : Parts) : Prop where
  year : p.year < 10 ^ 4
  month : p.month < 10 ^ 2
  day : p.day < 10 ^ 2
  hour : p.hour < 10 ^ 2
  minute : p.minute < 10 ^ 2
  second : p.second < 10 ^ 2

theorem matchDateTime_iff {text : Bytes} {p : Parts} :
    matchDateTime text = some p ↔ Fits p ∧ text = dateText p := by
  have hfour : 0 < 4 := by norm_num
  have htwo : 0 < 2 := by norm_num
  constructor
  · intro h
    simp only [matchDateTime, Option.bind_eq_bind, Option.bind_eq_some_iff, Prod.exists, takeDigits_iff hfour,
      takeDigits_iff htwo, takeByte_iff] at h
    obtain ⟨year, _, ⟨hyear, rfl⟩, _, rfl, month, _, ⟨hmonth, rfl⟩, _, rfl, day, _, ⟨hday, rfl⟩, _, rfl, hour, _,
      ⟨hhour, rfl⟩, _, rfl, minute, _, ⟨hminute, rfl⟩, _, rfl, second, rest, ⟨hsecond, rfl⟩, h⟩ := h
    split_ifs at h with hlast
    cases h
    refine ⟨⟨hyear, hmonth, hday, hhour, hminute, hsecond⟩, ?_⟩
    rw [dateText, List.dropLast_append_getLast? 90 hlast]
  · rintro ⟨⟨hyear, hmonth, hday, hhour, hminute, hsecond⟩, rfl⟩
    simp only [matchDateTime, Option.bind_eq_bind, Option.bind_eq_some_iff, Prod.exists, takeDigits_iff hfour,
      takeDigits_iff htwo, takeByte_iff]
    refine ⟨_, _, ⟨hyear, rfl⟩, _, rfl, _, _, ⟨hmonth, rfl⟩, _, rfl, _, _, ⟨hday, rfl⟩, _, rfl, _, _, ⟨hhour, rfl⟩,
      _, rfl, _, _, ⟨hminute, rfl⟩, _, rfl, _, _, ⟨hsecond, rfl⟩, ?_⟩
    rw [if_pos (by simp), List.dropLast_concat]

/-- The texts of a fraction: none, or a point and at most nine digits. -/
theorem matchFraction_ok {fraction : Bytes} {nanos : ℤ} (h : matchFraction fraction = .ok nanos) :
    (fraction = [] ∧ nanos = 0) ∨ ∃ digits, fraction = dot :: digits ∧ Fraction digits ∧ digits.length ≤ 9 ∧
      nanos = fractionNanos digits := by
  cases fraction with
  | nil =>
    cases h
    exact .inl ⟨rfl, rfl⟩
  | cons point digits =>
    rw [matchFraction] at h
    split_ifs at h with hbad
    cases h
    simp only [Bool.or_eq_true, decide_eq_true_eq, Bool.not_eq_true', List.all_eq_false, not_or, not_exists,
      not_and, Bool.not_eq_true, ne_eq, not_not, not_lt] at hbad
    obtain ⟨⟨⟨rfl, hne⟩, hdigits⟩, hlen⟩ := hbad
    exact .inr ⟨digits, rfl, ⟨hne, fun b hb => by simpa using hdigits b hb⟩, hlen, rfl⟩

theorem matchFraction_point {digits : Bytes} (hf : Fraction digits) (hlen : digits.length ≤ 9) :
    matchFraction (dot :: digits) = .ok (fractionNanos digits) := by
  have hall : digits.all isDigit = true := List.all_eq_true.mpr hf.digits
  simp [matchFraction, hf.ne_nil, hall, hlen]

theorem matchFraction_fractionText {nanos : ℤ} (hlow : 0 ≤ nanos) (hhigh : nanos < 1000000000) :
    matchFraction (fractionText nanos) = .ok nanos := by
  by_cases hzero : nanos = 0
  · rw [fractionText, if_pos hzero, hzero]
    rfl
  · obtain ⟨hf, hlen, hnanos⟩ := nanosText_spec (show 0 < nanos by omega) hhigh
    rw [fractionText, if_neg hzero, matchFraction_point hf hlen, hnanos]

/-! Dates. -/

/-- A date and a time of the calendar. -/
structure Valid (p : Parts) : Prop where
  year : 1 ≤ p.year
  month : 1 ≤ p.month
  month_le : p.month ≤ 12
  day : 1 ≤ p.day
  day_le : p.day ≤ monthSize p.year p.month
  hour : p.hour ≤ 23
  minute : p.minute ≤ 59
  second : p.second ≤ 59

/-- The days from the first day of the year one. -/
def dayCount (p : Parts) : ℤ := before p.year + (monthStart p.year p.month + (p.day - 1))

def timeOfDay (p : Parts) : ℤ := p.hour * 3600 + p.minute * 60 + p.second

def epochSeconds (p : Parts) : ℤ := (dayCount p - before 1970) * 86400 + timeOfDay p

theorem parseDateTime_iff {text : Bytes} {t : Timestamp} :
    parseDateTime text = .ok t ↔ ∃ p nanos, Fits p ∧ text = dateText p ∧ Valid p ∧
      matchFraction p.fraction = .ok nanos ∧ t = ⟨integerText (epochSeconds p), nanos⟩ := by
  have hseconds : ∀ p : Parts,
      (if (2 < p.month && leap p.year) = true
        then before p.year - before 1970 + p.day - 1 + daysBeforeMonth p.month + 1
        else before p.year - before 1970 + p.day - 1 + daysBeforeMonth p.month) * 86400 + p.hour * 3600 +
          p.minute * 60 + p.second = epochSeconds p := by
    intro p
    simp only [epochSeconds, dayCount, timeOfDay, monthStart, Bool.and_eq_true, decide_eq_true_eq]
    split_ifs <;> ring
  constructor
  · intro h
    unfold parseDateTime at h
    cases hmatch : matchDateTime text with
    | none =>
      rw [hmatch] at h
      cases h
    | some p =>
      obtain ⟨hfits, htext⟩ := matchDateTime_iff.mp hmatch
      rw [hmatch] at h
      dsimp only at h
      by_cases hdate : (p.year < 1 || p.month < 1 || 12 < p.month) = true
      · rw [if_pos hdate] at h
        cases h
      by_cases htime : (p.day < 1 || monthSize p.year p.month < p.day || 23 < p.hour || 59 < p.minute ||
          59 < p.second) = true
      · rw [if_neg hdate, if_pos htime] at h
        cases h
      rw [if_neg hdate, if_neg htime] at h
      cases hnanos : matchFraction p.fraction with
      | error e =>
        rw [hnanos] at h
        cases h
      | ok nanos =>
        rw [hnanos] at h
        simp only [Bool.or_eq_true, decide_eq_true_eq, not_or, not_lt] at hdate htime
        obtain ⟨⟨hyear, hmonth⟩, hmonth'⟩ := hdate
        obtain ⟨⟨⟨⟨hday, hday'⟩, hhour⟩, hminute⟩, hsecond⟩ := htime
        refine ⟨p, nanos, hfits, htext, ⟨hyear, hmonth, hmonth', hday, hday', hhour, hminute, hsecond⟩, hnanos, ?_⟩
        rw [← hseconds]
        exact (Except.ok.inj h).symm
  · rintro ⟨p, nanos, hfits, htext, hvalid, hnanos, rfl⟩
    obtain ⟨hyear, hmonth, hmonth', hday, hday', hhour, hminute, hsecond⟩ := hvalid
    have hdate : ¬(p.year < 1 || p.month < 1 || 12 < p.month) = true := by
      simp only [Bool.or_eq_true, decide_eq_true_eq]
      omega
    have htime : ¬(p.day < 1 || monthSize p.year p.month < p.day || 23 < p.hour || 59 < p.minute ||
        59 < p.second) = true := by
      simp only [Bool.or_eq_true, decide_eq_true_eq]
      omega
    rw [parseDateTime, matchDateTime_iff.mpr ⟨hfits, htext⟩]
    dsimp only
    rw [if_neg hdate, if_neg htime, hnanos, ← hseconds]
    rfl

/-- The days of a date lie within its year. -/
theorem Valid.day_range {p : Parts} (h : Valid p) :
    0 ≤ monthStart p.year p.month + ((p.day : ℤ) - 1) ∧
      monthStart p.year p.month + ((p.day : ℤ) - 1) < before (p.year + 1) - before p.year := by
  have hfirst := monthStart_mono p.year le_rfl h.month (by have := h.month_le; omega)
  have hlast := monthStart_mono p.year (show 1 ≤ p.month + 1 by omega) (show p.month + 1 ≤ 13 by have := h.month_le; omega)
    le_rfl
  have hsucc := monthStart_succ p.year h.month h.month_le
  rw [monthStart_one] at hfirst
  rw [monthStart_end] at hlast
  have hday := h.day
  have hday' := h.day_le
  omega

theorem Valid.time_range {p : Parts} (h : Valid p) : 0 ≤ timeOfDay p ∧ timeOfDay p < 86400 := by
  have hhour := h.hour
  have hminute := h.minute
  have hsecond := h.second
  unfold timeOfDay
  omega

/-- Two dates of one day count are one date. -/
theorem dayCount_injective {p q : Parts} (hp : Valid p) (hq : Valid q) (h : dayCount p = dayCount q) :
    p.year = q.year ∧ p.month = q.month ∧ p.day = q.day := by
  obtain ⟨hp0, hp1⟩ := hp.day_range
  obtain ⟨hq0, hq1⟩ := hq.day_range
  obtain ⟨hyear, hdays⟩ := year_unique hp0 hp1 hq0 hq1 h
  have hpday := hp.day_le
  have hqday := hq.day_le
  have hpfirst := hp.day
  have hqfirst := hq.day
  rw [hyear] at hdays hpday
  obtain ⟨hmonth, hday⟩ := month_unique q.year hp.month hp.month_le hq.month hq.month_le (by omega)
    (by omega) (by omega) (by omega) hdays
  exact ⟨by exact_mod_cast hyear, hmonth, by omega⟩

theorem timeOfDay_injective {p q : Parts} (hp : Valid p) (hq : Valid q) (h : timeOfDay p = timeOfDay q) :
    p.hour = q.hour ∧ p.minute = q.minute ∧ p.second = q.second := by
  have hpm := hp.minute
  have hps := hp.second
  have hqm := hq.minute
  have hqs := hq.second
  unfold timeOfDay at h
  omega

theorem epochSeconds_range {p : Parts} (hfits : Fits p) (h : Valid p) :
    -62135596800 ≤ epochSeconds p ∧ epochSeconds p ≤ 253402300799 := by
  obtain ⟨hday0, hday1⟩ := h.day_range
  obtain ⟨htime0, htime1⟩ := h.time_range
  have hfirst := before_mono (show (1 : ℤ) ≤ p.year by have := h.year; omega)
  have hlast := before_mono (show (p.year : ℤ) + 1 ≤ 10000 by have := hfits.year; omega)
  have hone : before 1 = 0 := rfl
  have hepoch : before 1970 = 719162 := rfl
  have hend : before 10000 = 3652059 := rfl
  rw [hone] at hfirst
  rw [hend] at hlast
  rw [epochSeconds, dayCount, hepoch]
  omega

/-! The date of a number of seconds. -/

theorem before_epoch : before 1970 = 719162 := rfl

theorem before_end : before 10000 = 3652059 := rfl

theorem dateTimeOf_found {s : ℤ} (hlow : -62135596800 ≤ s) (hhigh : s ≤ 253402300799) {nanos : ℤ}
    (hnanos : 0 ≤ nanos) (hnanos' : nanos < 1000000000) :
    ∃ p, Fits p ∧ Valid p ∧ epochSeconds p = s ∧ p.fraction = fractionText nanos ∧
      dateTimeOf s nanos = some (.ok (dateText p)) := by
  have hdays : ⌊fl ((s : ℚ) / 86400)⌋ = s / 86400 := by
    have h := floor_fl_div_of_pos (a := s) (b := 86400) (by omega) (by norm_num)
    exact_mod_cast h
  obtain ⟨year, hyear, hone, hlast, hle, hlt⟩ :=
    year_found (show 0 ≤ s / 86400 + before 1970 by rw [before_epoch]; omega)
      (by rw [before_epoch, before_end]; omega)
  obtain ⟨⟨month, day⟩, hmonth, ⟨hmone, hmlast, hday, htotal⟩, hsize⟩ :=
    month_found (show 0 ≤ s / 86400 + before 1970 - before year by omega) (by rw [monthStart_end year]; omega)
  dsimp only at hmone hmlast hday htotal hsize
  have hthirty := monthSize_le year hmone hmlast
  obtain ⟨y, rfl⟩ : ∃ y : ℕ, year = y := ⟨year.toNat, by omega⟩
  obtain ⟨d, rfl⟩ : ∃ d : ℕ, day = d := ⟨day.toNat, by omega⟩
  obtain ⟨time, htime⟩ : ∃ time : ℕ, s - s / 86400 * 86400 = time := ⟨(s - s / 86400 * 86400).toNat, by omega⟩
  refine ⟨⟨y, month, d + 1, time / 3600, time / 60 % 60, time % 60, fractionText nanos⟩,
    ⟨by dsimp only; omega, by dsimp only; omega, by dsimp only; omega, by dsimp only; omega, by dsimp only; omega,
      by dsimp only; omega⟩,
    ⟨by dsimp only; omega, hmone, hmlast, by dsimp only; omega, by dsimp only; omega, by dsimp only; omega,
      by dsimp only; omega, by dsimp only; omega⟩, ?_, rfl, ?_⟩
  · simp only [epochSeconds, dayCount, timeOfDay]
    push_cast
    omega
  · have hden : ¬((s : ℚ).den ≠ 1 || nanos < 0 || nanos ≥ 1000000000) = true := by
      simp only [ne_eq, Rat.den_intCast, not_true_eq_false, decide_false, Bool.false_or, Bool.or_eq_true,
        decide_eq_true_eq]
      omega
    have hin : ¬(s / 86400 + before 1970 < 0 || s / 86400 + before 1970 ≥ before 10000) = true := by
      simp only [Bool.or_eq_true, decide_eq_true_eq]
      rw [before_epoch, before_end]
      omega
    rw [dateTimeOf, if_neg hden]
    dsimp only
    rw [hdays, if_neg hin, hyear]
    simp only [Option.bind_eq_bind, Option.bind_some, hmonth, Rat.num_intCast, htime, dateText]
    simp only [Int.natCast_ediv, Int.natCast_emod, Nat.cast_add, Nat.cast_one, Nat.cast_ofNat, List.append_assoc,
      List.cons_append, List.nil_append]

theorem dateTimeOf_invalid (q : ℚ) {nanos : ℤ} (h : ¬(0 ≤ nanos ∧ nanos < 1000000000)) :
    ∃ e, dateTimeOf q nanos = some (.error e) := by
  refine ⟨_, if_pos ?_⟩
  simp only [Bool.or_eq_true, decide_eq_true_eq]
  omega

theorem dateTimeOf_outside {q : ℚ} (h : ⌊fl (q / 86400)⌋ < -719162 ∨ 2932897 ≤ ⌊fl (q / 86400)⌋) (nanos : ℤ) :
    ∃ e, dateTimeOf q nanos = some (.error e) := by
  unfold dateTimeOf
  split_ifs with hvalid
  · exact ⟨_, rfl⟩
  · refine ⟨_, if_pos ?_⟩
    simp only [Bool.or_eq_true, decide_eq_true_eq]
    rw [before_epoch, before_end]
    omega

theorem tonumber_integerText (other : Bytes → Option Number) (s : ℤ) :
    tonumber other (integerText s) = some (nearest (decide (s < 0)) s.natAbs) := by
  have hscan := @scanNumeral_parts (decide (s < 0)) _ [] [] 0 (fun b hb => isDigit_of_mem_numeral hb)
    (numeral_ne_nil s.natAbs) nofun nofun rfl
  rw [List.append_nil, List.append_nil, withFraction, if_pos rfl, value_numeral] at hscan
  rw [integerText_eq, tonumber, signed, hscan]
  simp

theorem nearest_small {s : ℤ} (h : s.natAbs < 2 ^ 53) :
    ∃ x, nearest (decide (s < 0)) s.natAbs = .finite x ∧ x.value = s := by
  by_cases hs : s = 0
  · subst hs
    exact ⟨.zero false, by simp [nearest], by simp [value_zero]⟩
  obtain ⟨x, hsign, hmag⟩ := exists_magnitude (e := 0) h (by norm_num) (by norm_num) (decide (s < 0))
  rw [zpow_zero, mul_one] at hmag
  have hpos : 0 < x.mantissa := by
    have hne : x.magnitude ≠ 0 := by
      rw [hmag]
      exact_mod_cast Int.natAbs_ne_zero.mpr hs
    exact Nat.pos_of_ne_zero fun hzero => hne (magnitude_eq_zero.mpr hzero)
  refine ⟨x, ?_, ?_⟩
  · rw [← hsign, ← hmag, nearest_magnitude hpos]
  · rw [Finite.value, hsign, hmag]
    by_cases hneg : s < 0
    · have habs : ((s.natAbs : ℤ) : ℚ) = -s := by rw [show (s.natAbs : ℤ) = -s by omega, Int.cast_neg]
      rw [Int.cast_natCast] at habs
      rw [decide_eq_true hneg, if_pos rfl, habs, neg_neg]
    · have habs : ((s.natAbs : ℤ) : ℚ) = s := by rw [show (s.natAbs : ℤ) = s by omega]
      rw [Int.cast_natCast] at habs
      rw [decide_eq_false hneg, if_neg (by decide), habs]

/-- Beyond the exact integers the day count is out of range, whatever the rounding. -/
theorem floor_fl_outside {x : Finite} (h : 2 ^ 52 < x.magnitude) :
    ⌊fl (x.value / 86400)⌋ < -719162 ∨ 2932897 ≤ ⌊fl (x.value / 86400)⌋ := by
  have hnear := fl_sub_le (x.value / 86400)
  have habs := abs_value x
  rw [abs_le] at hnear
  rcases le_total 0 x.value with hsign | hsign
  · right
    rw [abs_of_nonneg hsign] at habs
    rw [abs_of_nonneg (show 0 ≤ x.value / 86400 by positivity)] at hnear
    rw [Int.le_floor]
    push_cast
    have hlow := hnear.1
    norm_num at hlow h ⊢
    linarith
  · left
    rw [abs_of_nonpos hsign] at habs
    rw [abs_of_nonpos (show x.value / 86400 ≤ 0 by linarith)] at hnear
    rw [Int.floor_lt]
    push_cast
    have hhigh := hnear.2
    norm_num at hhigh h ⊢
    linarith

theorem dateTime_outside (other : Bytes → Option Number) {s : ℤ}
    (h : ¬(-62135596800 ≤ s ∧ s ≤ 253402300799)) (nanos : ℤ) :
    ∃ e, dateTime other ⟨integerText s, nanos⟩ = some (.error e) := by
  rw [dateTime, tonumber_integerText]
  by_cases hsmall : s.natAbs < 2 ^ 53
  · obtain ⟨x, hx, hvalue⟩ := nearest_small hsmall
    have hdays : ⌊fl ((s : ℚ) / 86400)⌋ = s / 86400 := by
      have h := floor_fl_div_of_pos (a := s) (b := 86400) hsmall (by norm_num)
      exact_mod_cast h
    rw [hx]
    dsimp only
    rw [hvalue]
    refine dateTimeOf_outside ?_ nanos
    rw [hdays]
    omega
  · have hlarge : (2 : ℚ) ^ 53 ≤ s.natAbs := by exact_mod_cast not_lt.mp hsmall
    have hmin : (2 : ℚ) ^ (-1074 : ℤ) ≤ s.natAbs :=
      (zpow_le_one_of_nonpos₀ (by norm_num) (by norm_num)).trans (by linarith)
    rcases lt_nearest (decide (s < 0)) hmin with ⟨x, hx, -, hmag⟩ | hinf
    · rw [hx]
      exact dateTimeOf_outside (floor_fl_outside (by linarith)) nanos
    · rw [hinf]
      exact ⟨_, rfl⟩

theorem dateTime_invalid (other : Bytes → Option Number) (s : ℤ) {nanos : ℤ}
    (h : ¬(0 ≤ nanos ∧ nanos < 1000000000)) : ∃ e, dateTime other ⟨integerText s, nanos⟩ = some (.error e) := by
  rw [dateTime, tonumber_integerText]
  cases nearest (decide (s < 0)) s.natAbs with
  | finite x => exact dateTimeOf_invalid x.value h
  | infinity _ => exact ⟨_, rfl⟩
  | nan => exact ⟨_, rfl⟩

theorem dateTime_found (other : Bytes → Option Number) {s : ℤ} (hlow : -62135596800 ≤ s) (hhigh : s ≤ 253402300799)
    {nanos : ℤ} (hnanos : 0 ≤ nanos) (hnanos' : nanos < 1000000000) :
    ∃ p, Fits p ∧ Valid p ∧ epochSeconds p = s ∧ p.fraction = fractionText nanos ∧
      dateTime other ⟨integerText s, nanos⟩ = some (.ok (dateText p)) := by
  obtain ⟨x, hx, hvalue⟩ := nearest_small (s := s) (by omega)
  rw [dateTime, tonumber_integerText, hx]
  dsimp only
  rw [hvalue]
  exact dateTimeOf_found hlow hhigh hnanos hnanos'

/-! Both directions. -/

/-- From the first second of the year one to the last nanosecond of the year 9999. -/
def InRange (t : Timestamp) : Prop :=
  ∃ s : ℤ, t.seconds = integerText s ∧ -62135596800 ≤ s ∧ s ≤ 253402300799 ∧ 0 ≤ t.nanos ∧ t.nanos ≤ 999999999

example : epochSeconds ⟨1, 1, 1, 0, 0, 0, []⟩ = -62135596800 ∧
    epochSeconds ⟨9999, 12, 31, 23, 59, 59, []⟩ = 253402300799 := by decide

/-- A fraction without the zeros at its end, and without a point that nothing follows. -/
def trimFraction (fraction : Bytes) : Bytes :=
  let kept := stripZeros fraction
  if kept = [dot] then [] else kept

/-- A date-time text, whose fraction follows nineteen bytes of date and time, with the fraction trimmed. -/
def trimmed (text : Bytes) : Bytes := text.take 19 ++ (trimFraction (text.drop 19).dropLast ++ [90])

theorem trimmed_dateText {p : Parts} (hfits : Fits p) :
    trimmed (dateText p) = dateText { p with fraction := trimFraction p.fraction } := by
  have htwo : 0 < 2 := by norm_num
  have hsplit : ∀ fraction : Bytes, dateText { p with fraction := fraction } =
      (padded 4 p.year ++ 45 :: (padded 2 p.month ++ 45 :: (padded 2 p.day ++ 84 :: (padded 2 p.hour ++
        58 :: (padded 2 p.minute ++ 58 :: padded 2 p.second))))) ++ (fraction ++ [90]) := by
    intro fraction
    simp only [dateText, List.append_assoc, List.cons_append]
  have hlen : (padded 4 p.year ++ 45 :: (padded 2 p.month ++ 45 :: (padded 2 p.day ++ 84 :: (padded 2 p.hour ++
      58 :: (padded 2 p.minute ++ 58 :: padded 2 p.second))))).length = 19 := by
    simp only [List.length_append, List.length_cons, length_padded (show 0 < 4 by norm_num) hfits.year,
      length_padded htwo hfits.month, length_padded htwo hfits.day, length_padded htwo hfits.hour,
      length_padded htwo hfits.minute, length_padded htwo hfits.second]
  rw [trimmed, hsplit p.fraction, List.take_left' hlen, List.drop_left' hlen, List.dropLast_concat, hsplit]

theorem stripZeros_cons {b : UInt8} (h : b ≠ 48) (digits : Bytes) : stripZeros (b :: digits) = b :: stripZeros digits := by
  rw [stripZeros, stripZeros, List.rdropWhile, List.rdropWhile, List.reverse_cons, List.dropWhile_append]
  split_ifs with hnil
  · rw [List.dropWhile_cons_of_neg (by simpa using h), List.isEmpty_iff.mp hnil]
    rfl
  · rw [List.reverse_append, List.reverse_singleton, List.singleton_append]

theorem stripZeros_zeros (digits : Bytes) (k : ℕ) : stripZeros (digits ++ List.replicate k 48) = stripZeros digits := by
  induction k with
  | zero => rw [List.replicate_zero, List.append_nil]
  | succ k ih =>
    rw [List.replicate_succ', ← List.append_assoc, stripZeros, List.rdropWhile_concat_pos _ _ _ (by simp), ← stripZeros,
      ih]

/-- What is written for the nanoseconds read from a fraction is that fraction, trimmed. -/
theorem fractionText_matchFraction {fraction : Bytes} {nanos : ℤ} (h : matchFraction fraction = .ok nanos) :
    0 ≤ nanos ∧ nanos < 1000000000 ∧ fractionText nanos = trimFraction fraction := by
  rcases matchFraction_ok h with ⟨rfl, rfl⟩ | ⟨digits, rfl, hf, hlen, rfl⟩
  · exact ⟨le_rfl, by norm_num, rfl⟩
  obtain ⟨hlow, hhigh⟩ := fractionNanos_range hf.digits hlen
  refine ⟨hlow, hhigh, ?_⟩
  have hnine : ∀ b ∈ digits ++ List.replicate (9 - digits.length) 48, isDigit b = true := by
    intro b hb
    rcases List.mem_append.mp hb with hb | hb
    · exact hf.digits b hb
    · rw [List.eq_of_mem_replicate hb]
      rfl
  have hlength : (digits ++ List.replicate (9 - digits.length) 48).length = 9 := by
    rw [List.length_append, List.length_replicate]
    omega
  have hpadded : padded 9 (fractionNanos digits) = digits ++ List.replicate (9 - digits.length) 48 := by
    have hlt : value (digits ++ List.replicate (9 - digits.length) 48) < 10 ^ 9 := by
      have := value_lt hnine
      rwa [hlength] at this
    rw [fractionNanos]
    exact value_injective (fun c hc => isDigit_of_mem_padded hc) hnine
      (by rw [length_padded (by norm_num) hlt, hlength]) (value_padded _ _)
  have htext : nanosText (fractionNanos digits) = stripZeros digits := by
    rw [nanosText, hpadded, stripZeros_zeros]
  have htrim : trimFraction (dot :: digits) = if stripZeros digits = [] then [] else dot :: stripZeros digits := by
    rw [trimFraction, stripZeros_cons (by decide)]
    simp only [List.cons.injEq, true_and]
  rw [htrim, fractionText, htext]
  by_cases hzero : fractionNanos digits = 0
  · have hnil : stripZeros digits = [] := by
      rw [← htext, hzero]
      decide +kernel
    rw [if_pos hzero, if_pos hnil]
  · obtain ⟨⟨hne, -⟩, -, -⟩ := nanosText_spec (show 0 < fractionNanos digits by omega) hhigh
    rw [htext] at hne
    rw [if_neg hzero, if_neg hne]

/-- Dates of one second, with one fraction, are one date. -/
theorem dateText_injective {p q : Parts} (hp : Valid p) (hq : Valid q) (h : epochSeconds p = epochSeconds q) :
    dateText p = dateText { q with fraction := p.fraction } := by
  obtain ⟨hp0, hp1⟩ := hp.time_range
  obtain ⟨hq0, hq1⟩ := hq.time_range
  unfold epochSeconds at h
  obtain ⟨hyear, hmonth, hday⟩ := dayCount_injective hp hq (by omega)
  obtain ⟨hhour, hminute, hsecond⟩ := timeOfDay_injective hp hq (by omega)
  simp only [dateText, hyear, hmonth, hday, hhour, hminute, hsecond]

theorem dateTime_inRange (other : Bytes → Option Number) {t : Timestamp} (h : InRange t) :
    ∃ text, dateTime other t = some (.ok text) ∧ parseDateTime text = .ok t := by
  obtain ⟨text, nanos⟩ := t
  obtain ⟨s, rfl, hlow, hhigh, hnanos, hnanos'⟩ := h
  have hbound : nanos < 1000000000 := hnanos'.trans_lt (by norm_num)
  obtain ⟨p, hfits, hvalid, hseconds, hfraction, htext⟩ := dateTime_found other hlow hhigh hnanos hbound
  refine ⟨dateText p, htext, parseDateTime_iff.mpr ⟨p, nanos, hfits, rfl, hvalid, ?_, by rw [hseconds]⟩⟩
  rw [hfraction]
  exact matchFraction_fractionText hnanos hbound

theorem dateTime_parseDateTime (other : Bytes → Option Number) {text : Bytes} {t : Timestamp}
    (h : parseDateTime text = .ok t) : dateTime other t = some (.ok (trimmed text)) := by
  obtain ⟨p, nanos, hfits, rfl, hvalid, hnanos, rfl⟩ := parseDateTime_iff.mp h
  obtain ⟨hlow, hhigh, hfraction⟩ := fractionText_matchFraction hnanos
  obtain ⟨hfirst, hlast⟩ := epochSeconds_range hfits hvalid
  obtain ⟨q, -, hvalid', hseconds, hfraction', htext⟩ := dateTime_found other hfirst hlast hlow hhigh
  rw [htext, dateText_injective hvalid' hvalid hseconds, hfraction', hfraction, trimmed_dateText hfits]

theorem dateTime_roundTrip (other : Bytes → Option Number) :
    (∀ t : Timestamp, InRange t → ∃ text, dateTime other t = some (.ok text) ∧ parseDateTime text = .ok t) ∧
    (∀ (text : Bytes) (t : Timestamp), parseDateTime text = .ok t → dateTime other t = some (.ok (trimmed text))) ∧
    ∀ t : Timestamp, Canonical t.seconds → ((∃ e, dateTime other t = some (.error e)) ↔ ¬InRange t) := by
  refine ⟨fun t h => dateTime_inRange other h, fun text t h => dateTime_parseDateTime other h, ?_⟩
  rintro ⟨text, nanos⟩ htext
  obtain ⟨s, rfl⟩ := canonical_iff.mp htext
  constructor
  · rintro ⟨e, he⟩ hrange
    obtain ⟨text, hok, -⟩ := dateTime_inRange other hrange
    rw [hok] at he
    cases he
  · intro hrange
    by_cases hnanos : 0 ≤ nanos ∧ nanos < 1000000000
    · refine dateTime_outside other (fun hs => hrange ?_) nanos
      exact ⟨s, rfl, hs.1, hs.2, hnanos.1, Int.le_of_lt_add_one hnanos.2⟩
    · exact dateTime_invalid other s hnanos

theorem dateTime_roundTrip_epoch :
    (∃ text, dateTime (fun _ => none) ⟨integerText 0, 5⟩ = some (.ok text) ∧
      parseDateTime text = .ok ⟨integerText 0, 5⟩) ∧
    dateTime (fun _ => none) ⟨integerText 0, 500000000⟩ =
      some (.ok (trimmed (dateText ⟨1970, 1, 1, 0, 0, 0, [46, 53, 48]⟩))) ∧
    ∃ e, dateTime (fun _ => none) ⟨integerText 253402300800, 0⟩ = some (.error e) := by
  refine ⟨(dateTime_roundTrip _).1 _ ⟨0, rfl, by decide, by decide, by decide, by decide⟩,
    (dateTime_roundTrip _).2.1 _ _ (parseDateTime_iff.mpr ⟨⟨1970, 1, 1, 0, 0, 0, [46, 53, 48]⟩, 500000000,
      ⟨by decide, by decide, by decide, by decide, by decide, by decide⟩, rfl,
      ⟨by decide, by decide, by decide, by decide, by decide, by decide, by decide, by decide⟩, rfl, rfl⟩),
    ((dateTime_roundTrip _).2.2 _ (canonical_iff.mpr ⟨253402300800, rfl⟩)).mpr ?_⟩
  rintro ⟨s, hs, _, hlast, _⟩
  have hs' : (253402300800 : ℤ) = s := integerText_injective hs
  omega

end Nupp.timestamps
