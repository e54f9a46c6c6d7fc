import Nupp.Lib.Loop
import Nupp.Lib.Utf8
import Mathlib.Order.Bounds.Basic

/-! Decoding, validating and truncating text with `utf8`. Positions count bytes from one.
A span of bytes is read as a string of them is. -/

namespace Nupp.Text

open Loop

abbrev Bytes := List UInt8

def byteAt (source : Bytes) : ℕ → Option ℕ
  | 0 => none
  | p + 1 => source[p]?.map UInt8.toNat

def replacement : ℕ := 65533

/-- The number of bytes after a lead byte, what it adds to the code and the least code. -/
def leadForm (first : ℕ) : Option (ℕ × ℕ × ℕ) :=
  if 194 ≤ first && first ≤ 223 then some (1, first - 192, 128)
  else if 224 ≤ first && first ≤ 239 then some (2, first - 224, 2048)
  else if 240 ≤ first && first ≤ 244 then some (3, first - 240, 65536)
  else none

/-- The code after the continuation bytes from `p` on. -/
def continuations (source : Bytes) : ℕ → ℕ → ℕ → Option ℕ
  | 0, _, code => some code
  | need + 1, p, code =>
    match byteAt source p with
    | none => none
    | some continuation =>
      if continuation < 128 || continuation > 191 then none
      else continuations source need (p + 1) (code * 64 + continuation - 128)

/-- The code point starting at `p`, and where the next one starts. -/
def decode (source : Bytes) (p : ℕ) : Option ℕ × ℕ :=
  match byteAt source p with
  | none => (none, p)
  | some first =>
    if first < 128 then (some first, p + 1)
    else
      match leadForm first with
      | none => (some replacement, p + 1)
      | some (need, code, min) =>
        match continuations source need (p + 1) code with
        | none => (some replacement, p + 1)
        | some code =>
          if code < min || code > 1114111 || (code ≥ 55296 && code ≤ 57343) then
            (some replacement, p + 1)
          else (some code, p + need + 1)

def outOfRange (first : ℕ) : Bool := first < 128 || first > 191

def scanStep (source : Bytes) (limit p : ℕ) : Option (ℕ ⊕ ℕ) :=
  if limit < p then some (.inr limit)
  else do
    let lead ← byteAt source p
    if lead < 128 then some (.inl (p + 1))
    else if lead < 224 then
      if lead < 194 || p + 1 > limit then some (.inr (p - 1))
      else do
        let second ← byteAt source (p + 1)
        if outOfRange second then some (.inr (p - 1)) else some (.inl (p + 2))
    else if lead < 240 then
      if p + 2 > limit then some (.inr (p - 1))
      else do
        let second ← byteAt source (p + 1)
        let third ← byteAt source (p + 2)
        if outOfRange second || outOfRange third then some (.inr (p - 1))
        else if (lead = 224 && second < 160) || (lead = 237 && second > 159) then some (.inr (p - 1))
        else some (.inl (p + 3))
    else if lead < 245 then
      if p + 3 > limit then some (.inr (p - 1))
      else do
        let second ← byteAt source (p + 1)
        let third ← byteAt source (p + 2)
        let fourth ← byteAt source (p + 3)
        if outOfRange second || outOfRange third || outOfRange fourth then some (.inr (p - 1))
        else if (lead = 240 && second < 144) || (lead = 244 && second > 143) then some (.inr (p - 1))
        else some (.inl (p + 4))
    else some (.inr (p - 1))

/-- How many bytes at the front spell whole scalars, looking no further than `limit`. -/
def scan (source : Bytes) (limit : ℕ) : Option ℕ := loop (scanStep source limit) (limit + 1) 1

/-- A byte offset in the value, one past its end included. -/
def offset (source : Bytes) (byteoffset : ℤ) : Except String ℕ :=
  if byteoffset < 1 || byteoffset > source.length + 1 then
    .error "nupp: UTF-8 byte offset is out of range"
  else .ok byteoffset.toNat

def decodeat (source : Bytes) (byteoffset : ℤ) : Except String (Option ℕ × ℕ) :=
  (offset source byteoffset).map (decode source)

def char (n : ℤ) : UInt8 := n.toNat.toUInt8

def encode (codepoint : ℤ) : Except String Bytes :=
  if codepoint < 0 || codepoint > 1114111 then .error "nupp: UTF-8 codepoint is out of range"
  else if codepoint < 128 then .ok [char codepoint]
  else
    let low := codepoint % 64
    if codepoint < 2048 then .ok [char (192 + codepoint / 64), char (128 + low)]
    else
      let middle := codepoint / 64 % 64
      if codepoint < 65536 then
        .ok [char (224 + codepoint / 4096), char (128 + middle), char (128 + low)]
      else .ok [char (240 + codepoint / 262144), char (128 + codepoint / 4096 % 64), char (128 + middle),
        char (128 + low)]

def isvalid (source : Bytes) : Bool := scan source source.length = some source.length

def validprefixlen (source : Bytes) (maxbytes : ℤ) : Option ℕ :=
  scan source (max 0 (min (source.length : ℤ) maxbytes)).toNat

/-! Walking a value with `decodeat`. -/

def walkStep (source : Bytes) (state : ℕ × List ℤ) : Option ((ℕ × List ℤ) ⊕ List ℤ) :=
  match decodeat source state.1 with
  | .error _ => none
  | .ok (none, _) => some (.inr state.2)
  | .ok (some codepoint, next) => some (.inl (next, state.2 ++ [(codepoint : ℤ)]))

/-- The code points read from the first byte on until none is left. -/
def walk (source : Bytes) : Option (List ℤ) := loop (walkStep source) (source.length + 1) (1, [])

/-- The bytes are the encodings of code points that are no surrogates, one after another. -/
def Spelled (codepoints : List ℤ) (source : Bytes) : Prop :=
  (∀ c ∈ codepoints, ¬ (55296 ≤ c ∧ c ≤ 57343)) ∧
    ∃ texts, codepoints.mapM encode = .ok texts ∧ source = texts.flatten

end Nupp.Text

/-! `utf8` agrees with the definition of UTF-8: a value is valid when it is spelled by
scalars, which are then the ones a walk reads, and a valid prefix is the longest. -/

namespace Nupp.Text

open Loop Utf8

/-! Bytes as code units. -/

def unitsOf (s : Bytes) : List ℕ := s.map UInt8.toNat

theorem unitsOf_injective {s t : Bytes} (h : unitsOf s = unitsOf t) : s = t :=
  List.map_injective_iff.mpr (fun _ _ => UInt8.toNat_inj.mp) h

@[simp] theorem unitsOf_length (s : Bytes) : (unitsOf s).length = s.length := List.length_map _

theorem unitsOf_drop (s : Bytes) (n : ℕ) : unitsOf (s.drop n) = (unitsOf s).drop n := List.map_drop

theorem unitsOf_take (s : Bytes) (n : ℕ) : unitsOf (s.take n) = (unitsOf s).take n := List.map_take

theorem byteAt_succ (s : Bytes) (p : ℕ) : byteAt s (p + 1) = (unitsOf s)[p]? := by
  simp [byteAt, unitsOf]

theorem getElem?_of_drop {l rest : List ℕ} {k : ℕ} (h : l.drop k = rest) (i : ℕ) : l[k + i]? = rest[i]? := by
  rw [← h, List.getElem?_drop]

/-! One scalar. -/

theorem continuations_tail {s : Bytes} {p b : ℕ} (need code : ℕ) (hb : byteAt s p = some b)
    (ht : isTail b = true) :
    continuations s (need + 1) p code = continuations s need (p + 1) (code * 64 + b - 128) := by
  rw [isTail_iff] at ht
  have hrange : (b < 128 || b > 191) = false := by
    simp only [Bool.or_eq_false_iff, decide_eq_false_iff_not]
    omega
  simp [continuations, hb, hrange]

theorem decode_lead {s : Bytes} {p a need code min c : ℕ} (ha : byteAt s p = some a) (hlow : ¬ a < 128)
    (hlead : leadForm a = some (need, code, min)) (hcode : continuations s need (p + 1) code = some c)
    (hmin : min ≤ c) (hc : IsScalar c) : decode s p = (some c, p + need + 1) := by
  obtain ⟨hmax, hsur⟩ := hc
  have hrange : (c < min || c > 1114111 || (c ≥ 55296 && c ≤ 57343)) = false := by
    simp only [IsSurrogate, not_and, not_le] at hsur
    simp only [Bool.or_eq_false_iff, Bool.and_eq_false_iff, decide_eq_false_iff_not]
    omega
  simp only [decode, ha, if_neg hlow, hlead, hcode, hrange]
  rfl

/-- A scalar spelled at a position is the one decoded there. -/
theorem decode_of_front {s : Bytes} {k c n : ℕ} (h : front ((unitsOf s).drop k) = some (c, n)) :
    decode s (k + 1) = (some c, k + 1 + n) := by
  have hbyte : ∀ i, byteAt s (k + i + 1) = ((unitsOf s).drop k)[i]? := by
    intro i
    rw [byteAt_succ, getElem?_of_drop rfl]
  have hscalar := (front_sound h).1
  rcases front_cases h with ⟨a, rest, hl, ha, rfl, rfl⟩ |
      ⟨a, b, rest, hl, hlow, hhigh, hb, hc, rfl⟩ |
      ⟨a, b, d, rest, hl, hlow, hhigh, hb, hd, hc, rfl⟩ |
      ⟨a, b, d, e, rest, hl, hlow, hhigh, hb, hd, he, hc, rfl⟩
  · have hfirst : byteAt s (k + 1) = some c := by simpa [hl] using hbyte 0
    simp [decode, hfirst, ha]
  · have hfirst : byteAt s (k + 1) = some a := by simpa [hl] using hbyte 0
    have hsecond : byteAt s (k + 1 + 1) = some b := by simpa [hl] using hbyte 1
    have hlead : leadForm a = some (1, a - 192, 128) := by
      simp only [leadForm]
      rw [if_pos (by simp; omega)]
    have hcode : continuations s 1 (k + 1 + 1) (a - 192) = some c := by
      rw [continuations_tail 0 _ hsecond hb, continuations]
      rw [isTail_iff] at hb
      rw [Option.some.injEq]
      omega
    exact decode_lead hfirst (by omega) hlead hcode (by omega) hscalar
  · have hfirst : byteAt s (k + 1) = some a := by simpa [hl] using hbyte 0
    have hsecond : byteAt s (k + 1 + 1) = some b := by simpa [hl] using hbyte 1
    have hthird : byteAt s (k + 1 + 1 + 1) = some d := by simpa [hl] using hbyte 2
    have hlead : leadForm a = some (2, a - 224, 2048) := by
      simp only [leadForm]
      rw [if_neg (by simp; omega), if_pos (by simp; omega)]
    have hb' := isTail_of_isSecond hb
    have hcode : continuations s 2 (k + 1 + 1) (a - 224) = some c := by
      rw [continuations_tail 1 _ hsecond hb', continuations_tail 0 _ hthird hd, continuations]
      rw [isTail_iff] at hb' hd
      rw [Option.some.injEq]
      omega
    have hmin : 2048 ≤ c := by
      rw [isSecond_iff, secondLow, secondHigh] at hb
      split_ifs at hb <;> omega
    exact decode_lead hfirst (by omega) hlead hcode hmin hscalar
  · have hfirst : byteAt s (k + 1) = some a := by simpa [hl] using hbyte 0
    have hsecond : byteAt s (k + 1 + 1) = some b := by simpa [hl] using hbyte 1
    have hthird : byteAt s (k + 1 + 1 + 1) = some d := by simpa [hl] using hbyte 2
    have hfourth : byteAt s (k + 1 + 1 + 1 + 1) = some e := by simpa [hl] using hbyte 3
    have hlead : leadForm a = some (3, a - 240, 65536) := by
      simp only [leadForm]
      rw [if_neg (by simp; omega), if_neg (by simp; omega), if_pos (by simp; omega)]
    have hb' := isTail_of_isSecond hb
    have hcode : continuations s 3 (k + 1 + 1) (a - 240) = some c := by
      rw [continuations_tail 2 _ hsecond hb', continuations_tail 1 _ hthird hd,
        continuations_tail 0 _ hfourth he, continuations]
      rw [isTail_iff] at hb' hd he
      rw [Option.some.injEq]
      omega
    have hmin : 65536 ≤ c := by
      rw [isSecond_iff, secondLow, secondHigh] at hb
      split_ifs at hb <;> omega
    exact decode_lead hfirst (by omega) hlead hcode hmin hscalar

/-! Scanning. -/

theorem outOfRange_eq (b : ℕ) : outOfRange b = !isTail b := by
  by_cases h : 128 ≤ b ∧ b ≤ 191
  · simp only [outOfRange, isTail]
    simp [h.1, h.2]
  · simp only [outOfRange, isTail]
    rcases not_and_or.mp h with h | h <;> simp [h] <;> omega

/-- The tests of the second byte after a tail test are its range. -/
theorem isSecond_three {a b : ℕ} (hlow : 224 ≤ a) (hhigh : a < 240) :
    isSecond a b = (isTail b && !((a = 224 && b < 160) || (a = 237 && b > 159))) := by
  rw [Bool.eq_iff_iff, isSecond_iff, secondLow, secondHigh]
  simp only [isTail, Bool.and_eq_true, Bool.not_eq_true', Bool.or_eq_false_iff, Bool.and_eq_false_iff,
    decide_eq_true_eq, decide_eq_false_iff_not]
  split_ifs <;> omega

theorem isSecond_four {a b : ℕ} (hlow : 240 ≤ a) (hhigh : a < 245) :
    isSecond a b = (isTail b && !((a = 240 && b < 144) || (a = 244 && b > 143))) := by
  rw [Bool.eq_iff_iff, isSecond_iff, secondLow, secondHigh]
  simp only [isTail, Bool.and_eq_true, Bool.not_eq_true', Bool.or_eq_false_iff, Bool.and_eq_false_iff,
    decide_eq_true_eq, decide_eq_false_iff_not]
  split_ifs <;> omega

/-- A step of the scan reads the scalar at its position, or answers there. -/
theorem scanStep_eq {s : Bytes} {limit k : ℕ} (hk : k < limit) (hlimit : limit ≤ s.length) :
    scanStep s limit (k + 1) = match front (((unitsOf s).take limit).drop k) with
      | some (_, n) => some (.inl (k + n + 1))
      | none => some (.inr k) := by
  generalize hl : ((unitsOf s).take limit).drop k = l
  have hlength : l.length = limit - k := by
    rw [← hl, List.length_drop, List.length_take, unitsOf_length]
    omega
  have hbyte : ∀ i, k + i < limit → byteAt s (k + 1 + i) = l[i]? := by
    intro i hi
    rw [show k + 1 + i = (k + i) + 1 by omega, byteAt_succ, ← getElem?_of_drop hl,
      List.getElem?_take_of_lt hi]
  have hpast : ¬ limit < k + 1 := by omega
  cases l with
  | nil => simp at hlength; omega
  | cons a l =>
    have hfirst : byteAt s (k + 1) = some a := by simpa using hbyte 0 (by omega)
    simp only [scanStep, if_neg hpast, hfirst, Option.bind_eq_bind, Option.bind_some, front]
    by_cases h1 : a < 128
    · simp [h1]
    · by_cases h3 : a < 224
      · simp only [if_neg h1, if_pos h3]
        by_cases h2 : a < 194
        · simp [h2]
        · cases l with
          | nil =>
            have hend : k + 1 + 1 > limit := by simp at hlength; omega
            simp [h2, hend]
          | cons b l =>
            have hroom : ¬ k + 1 + 1 > limit := by simp at hlength; omega
            have hsecond : byteAt s (k + 1 + 1) = some b := by simpa using hbyte 1 (by omega)
            simp only [h2, hroom, decide_false, Bool.or_self, Bool.false_eq_true, if_false, hsecond,
              Option.bind_some, outOfRange_eq]
            cases isTail b <;> rfl
      · have h2 : ¬ a < 194 := by omega
        simp only [if_neg h1, if_neg h2, if_neg h3]
        by_cases h4 : a < 240
        · simp only [if_pos h4]
          rcases l with _ | ⟨b, _ | ⟨c, l⟩⟩
          · have hend : k + 1 + 2 > limit := by simp at hlength; omega
            simp [hend]
          · have hend : k + 1 + 2 > limit := by simp at hlength; omega
            simp [hend]
          · have hroom : ¬ k + 1 + 2 > limit := by simp at hlength; omega
            have hsecond : byteAt s (k + 1 + 1) = some b := by simpa using hbyte 1 (by omega)
            have hthird : byteAt s (k + 1 + 2) = some c := by simpa using hbyte 2 (by omega)
            simp only [if_neg hroom, hsecond, hthird, Option.bind_some, outOfRange_eq,
              isSecond_three (b := b) (by omega) h4]
            cases isTail b <;> cases isTail c <;>
              cases (a = 224 && b < 160 || a = 237 && b > 159 : Bool) <;> rfl
        · simp only [if_neg h4]
          by_cases h5 : a < 245
          · simp only [if_pos h5]
            rcases l with _ | ⟨b, _ | ⟨c, _ | ⟨d, l⟩⟩⟩
            · have hend : k + 1 + 3 > limit := by simp at hlength; omega
              simp [hend]
            · have hend : k + 1 + 3 > limit := by simp at hlength; omega
              simp [hend]
            · have hend : k + 1 + 3 > limit := by simp at hlength; omega
              simp [hend]
            · have hroom : ¬ k + 1 + 3 > limit := by simp at hlength; omega
              have hsecond : byteAt s (k + 1 + 1) = some b := by simpa using hbyte 1 (by omega)
              have hthird : byteAt s (k + 1 + 2) = some c := by simpa using hbyte 2 (by omega)
              have hfourth : byteAt s (k + 1 + 3) = some d := by simpa using hbyte 3 (by omega)
              simp only [if_neg hroom, hsecond, hthird, hfourth, Option.bind_some, outOfRange_eq,
                isSecond_four (b := b) (by omega) h5]
              cases isTail b <;> cases isTail c <;> cases isTail d <;>
                cases (a = 240 && b < 144 || a = 244 && b > 143 : Bool) <;> rfl
          · simp [h5]

/-- The bytes before `k` spell scalars. -/
def SpelledTo (s : Bytes) (k : ℕ) : Prop :=
  ∃ cs, (∀ c ∈ cs, IsScalar c) ∧ (unitsOf s).take k = spell cs

/-- The answer of a scan: what is spelled up to it, and nothing from there to the limit. -/
def StopsAt (s : Bytes) (limit k : ℕ) : Prop :=
  k ≤ limit ∧ SpelledTo s k ∧ front (((unitsOf s).take limit).drop k) = none

theorem SpelledTo.step {s : Bytes} {limit k c n : ℕ} (h : SpelledTo s k) (hk : k ≤ limit)
    (hlimit : limit ≤ s.length) (hf : front (((unitsOf s).take limit).drop k) = some (c, n)) :
    0 < n ∧ k + n ≤ limit ∧ SpelledTo s (k + n) := by
  obtain ⟨cs, hcs, htake⟩ := h
  obtain ⟨hc, rest, hrest, hn⟩ := front_sound hf
  have hlength : (units c).length + rest.length = limit - k := by
    have hlengths := congrArg List.length hrest
    rw [List.length_drop, List.length_take, unitsOf_length, List.length_append] at hlengths
    omega
  have hpos := List.length_pos_of_ne_nil (units_ne_nil c)
  have hroom : k + n ≤ limit := by omega
  refine ⟨by omega, hroom, cs ++ [c], fun x hx => ?_, ?_⟩
  · rcases List.mem_append.mp hx with hx | hx
    · exact hcs x hx
    · rw [List.mem_singleton.mp hx]
      exact hc
  · have hpart : ((unitsOf s).drop k).take n = units c := by
      calc ((unitsOf s).drop k).take n = (((unitsOf s).take limit).drop k).take n := by
            rw [List.drop_take, List.take_take, min_eq_left (by omega)]
        _ = units c := by rw [hrest, ← hn, List.take_left]
    rw [List.take_add, htake, hpart, spell_append]
    simp

theorem scan_spec (s : Bytes) {limit : ℕ} (hlimit : limit ≤ s.length) :
    ∃ k, scan s limit = some k ∧ StopsAt s limit k := by
  have hadvances : Advances (scanStep s limit) (fun p => ∃ k, p = k + 1 ∧ k ≤ limit ∧ SpelledTo s k)
      (fun p => limit + 1 - p) (StopsAt s limit) := by
    rintro p ⟨k, rfl, hk, hspelled⟩
    rcases Nat.lt_or_ge k limit with hlt | hge
    · rw [scanStep_eq hlt hlimit]
      cases hf : front (((unitsOf s).take limit).drop k) with
      | none => exact .inr ⟨k, rfl, hk, hspelled, hf⟩
      | some r =>
        obtain ⟨c, n⟩ := r
        obtain ⟨hpos, hroom, hnext⟩ := hspelled.step hk hlimit hf
        have hdecreases : limit + 1 - (k + n + 1) < limit + 1 - (k + 1) := by omega
        exact .inl ⟨k + n + 1, rfl, ⟨k + n, rfl, hroom, hnext⟩, hdecreases⟩
    · have heq : k = limit := by omega
      subst heq
      refine .inr ⟨k, by simp [scanStep], le_refl k, hspelled, ?_⟩
      rw [List.drop_eq_nil_of_le (by simp)]
      rfl
  exact loop_total hadvances ⟨0, rfl, Nat.zero_le _, [], nofun, rfl⟩ (by omega)

/-- Nothing longer within the limit is spelled. -/
theorem StopsAt.greatest {s : Bytes} {limit k m : ℕ} (h : StopsAt s limit k) (hm : m ≤ limit)
    (hlimit : limit ≤ s.length) (hs : SpelledTo s m) : m ≤ k := by
  obtain ⟨hk, ⟨cs, hcs, htake⟩, hfront⟩ := h
  obtain ⟨ds, hds, htake'⟩ := hs
  have hcut : spell cs ++ ((unitsOf s).take limit).drop k = spell ds ++ ((unitsOf s).take limit).drop m := by
    have hsplit : ∀ j ≤ limit, (unitsOf s).take j ++ ((unitsOf s).take limit).drop j = (unitsOf s).take limit := by
      intro j hj
      have hpart := List.take_append_drop j ((unitsOf s).take limit)
      rwa [List.take_take, min_eq_left hj] at hpart
    rw [← htake, ← htake', hsplit k hk, hsplit m hm]
  have hle := spell_length_le hcs hds hfront hcut
  rw [← htake, ← htake', List.length_take, List.length_take, unitsOf_length] at hle
  omega

theorem isvalid_iff (s : Bytes) : isvalid s = true ↔ SpelledTo s s.length := by
  obtain ⟨k, hk, hstops⟩ := scan_spec s (le_refl s.length)
  simp only [isvalid, hk, Option.some.injEq, decide_eq_true_eq]
  constructor
  · rintro rfl
    exact hstops.2.1
  · intro h
    have hle := hstops.greatest (le_refl _) (le_refl _) h
    have hge := hstops.1
    omega

theorem isvalid_take_iff {s : Bytes} {n : ℕ} (hn : n ≤ s.length) :
    isvalid (s.take n) = true ↔ SpelledTo s n := by
  rw [isvalid_iff, SpelledTo, SpelledTo, unitsOf_take, List.length_take, min_eq_left hn, List.take_take,
    min_self]

/-! Encoding. -/

theorem toNat_char {n : ℤ} (hlow : 0 ≤ n) (hhigh : n < 256) : (char n).toNat = n.toNat := by
  simp only [char, Nat.toUInt8_eq, UInt8.toNat_ofNat']
  omega

theorem encode_error {c : ℤ} (h : c < 0 ∨ 1114111 < c) :
    encode c = .error "nupp: UTF-8 codepoint is out of range" := by
  unfold encode
  rw [if_pos (by simpa using h)]

theorem encode_ok {c : ℤ} (hlow : 0 ≤ c) (hhigh : c ≤ 1114111) :
    ∃ bytes, encode c = .ok bytes ∧ unitsOf bytes = units c.toNat := by
  obtain ⟨n, rfl⟩ := Int.eq_ofNat_of_zero_le hlow
  have hchar : ∀ m : ℕ, m < 256 → (char (m : ℤ)).toNat = m := fun m hm => by
    rw [toNat_char (by omega) (by omega), Int.toNat_natCast]
  unfold encode units
  rw [if_neg (by simp; omega), Int.toNat_natCast]
  by_cases h1 : n < 128
  · rw [if_pos (by omega), if_pos h1]
    exact ⟨_, rfl, by simp [unitsOf, hchar n (by omega)]⟩
  · rw [if_neg (by omega), if_neg h1]
    by_cases h2 : n < 2048
    · rw [if_pos h2]
      simp only [if_pos (show (n : ℤ) < 2048 by omega)]
      refine ⟨_, rfl, ?_⟩
      simp only [unitsOf, List.map_cons, List.map_nil, List.cons.injEq, and_true]
      exact ⟨by exact_mod_cast hchar (192 + n / 64) (by omega),
        by exact_mod_cast hchar (128 + n % 64) (by omega)⟩
    · rw [if_neg h2]
      simp only [if_neg (show ¬ (n : ℤ) < 2048 by omega)]
      by_cases h3 : n < 65536
      · rw [if_pos h3]
        simp only [if_pos (show (n : ℤ) < 65536 by omega)]
        refine ⟨_, rfl, ?_⟩
        simp only [unitsOf, List.map_cons, List.map_nil, List.cons.injEq, and_true]
        exact ⟨by exact_mod_cast hchar (224 + n / 4096) (by omega),
          by exact_mod_cast hchar (128 + n / 64 % 64) (by omega),
          by exact_mod_cast hchar (128 + n % 64) (by omega)⟩
      · rw [if_neg h3]
        simp only [if_neg (show ¬ (n : ℤ) < 65536 by omega)]
        refine ⟨_, rfl, ?_⟩
        simp only [unitsOf, List.map_cons, List.map_nil, List.cons.injEq, and_true]
        exact ⟨by exact_mod_cast hchar (240 + n / 262144) (by omega),
          by exact_mod_cast hchar (128 + n / 4096 % 64) (by omega),
          by exact_mod_cast hchar (128 + n / 64 % 64) (by omega),
          by exact_mod_cast hchar (128 + n % 64) (by omega)⟩

theorem encode_range {c : ℤ} {bytes : Bytes} (h : encode c = .ok bytes) : 0 ≤ c ∧ c ≤ 1114111 := by
  by_contra hrange
  have hbad : c < 0 ∨ 1114111 < c := by omega
  rw [encode_error hbad] at h
  cases h

theorem mapM_encode_ok {cs : List ℤ} (h : ∀ c ∈ cs, 0 ≤ c ∧ c ≤ 1114111) :
    ∃ texts, cs.mapM encode = .ok texts ∧ unitsOf texts.flatten = spell (cs.map Int.toNat) := by
  induction cs with
  | nil => exact ⟨[], rfl, rfl⟩
  | cons c cs ih =>
    have hc := h c List.mem_cons_self
    obtain ⟨bytes, hencode, hbytes⟩ := encode_ok hc.1 hc.2
    obtain ⟨texts, hmap, htexts⟩ := ih (fun x hx => h x (List.mem_cons_of_mem _ hx))
    refine ⟨bytes :: texts, ?_, ?_⟩
    · rw [List.mapM_cons, hencode, hmap]
      rfl
    · rw [List.flatten_cons, List.map_cons, spell_cons, ← hbytes, ← htexts]
      exact List.map_append

theorem mapM_encode_range {cs : List ℤ} {texts : List Bytes} (h : cs.mapM encode = .ok texts) :
    ∀ c ∈ cs, 0 ≤ c ∧ c ≤ 1114111 := by
  induction cs generalizing texts with
  | nil => exact nofun
  | cons c cs ih =>
    rw [List.mapM_cons] at h
    cases hencode : encode c with
    | error e => rw [hencode] at h; cases h
    | ok bytes =>
      cases hmap : cs.mapM encode with
      | error e => rw [hencode, hmap] at h; cases h
      | ok rest =>
        intro x hx
        rcases List.mem_cons.mp hx with rfl | hx
        · exact encode_range hencode
        · exact ih hmap x hx

/-- The code points that spell a value are scalars, and their units are its bytes. -/
theorem spelled_iff {cs : List ℤ} {s : Bytes} : Spelled cs s ↔
    (∀ c ∈ cs, 0 ≤ c ∧ IsScalar c.toNat) ∧ unitsOf s = spell (cs.map Int.toNat) := by
  constructor
  · rintro ⟨hsur, texts, hmap, rfl⟩
    have hrange := mapM_encode_range hmap
    obtain ⟨texts', hmap', hunits⟩ := mapM_encode_ok hrange
    have heq : texts = texts' := Except.ok.inj (hmap.symm.trans hmap')
    refine ⟨fun c hc => ?_, heq ▸ hunits⟩
    have hc' := hrange c hc
    have hnot := hsur c hc
    refine ⟨hc'.1, by omega, ?_⟩
    simp only [IsSurrogate]
    omega
  · rintro ⟨hcs, hunits⟩
    have hrange : ∀ c ∈ cs, 0 ≤ c ∧ c ≤ 1114111 := by
      intro c hc
      have hmax := (hcs c hc).2.1
      have hlow := (hcs c hc).1
      omega
    obtain ⟨texts, hmap, htexts⟩ := mapM_encode_ok hrange
    refine ⟨fun c hc => ?_, texts, hmap, unitsOf_injective (hunits.trans htexts.symm)⟩
    have hsur := (hcs c hc).2.2
    simp only [IsSurrogate] at hsur
    omega

/-! Walking. -/

theorem decodeat_eq {s : Bytes} {k : ℕ} (hk : k ≤ s.length) :
    decodeat s ((k + 1 : ℕ) : ℤ) = .ok (decode s (k + 1)) := by
  have hrange : (((k + 1 : ℕ) : ℤ) < 1 || ((k + 1 : ℕ) : ℤ) > s.length + 1) = false := by
    simp only [Bool.or_eq_false_iff, decide_eq_false_iff_not]
    omega
  simp only [decodeat, offset, hrange]
  rfl

theorem walkStep_end {s : Bytes} (read : List ℤ) :
    walkStep s (s.length + 1, read) = some (.inr read) := by
  have hnone : byteAt s (s.length + 1) = none := by simp [byteAt]
  have hdecode : decode s (s.length + 1) = (none, s.length + 1) := by simp [decode, hnone]
  simp only [walkStep]
  rw [decodeat_eq (le_refl _), hdecode]

theorem walkStep_front {s : Bytes} {k c n : ℕ} (read : List ℤ)
    (h : front ((unitsOf s).drop k) = some (c, n)) :
    walkStep s (k + 1, read) = some (.inl (k + n + 1, read ++ [(c : ℤ)])) := by
  have hk : k ≤ s.length := by
    by_contra hlong
    rw [List.drop_eq_nil_of_le (by rw [unitsOf_length]; omega)] at h
    cases h
  simp only [walkStep]
  rw [decodeat_eq hk, decode_of_front h, show k + 1 + n = k + n + 1 by omega]

theorem loop_walkStep {s : Bytes} {cs : List ℕ} {k fuel : ℕ} (read : List ℤ)
    (hcs : ∀ c ∈ cs, IsScalar c) (hk : k ≤ s.length) (h : (unitsOf s).drop k = spell cs)
    (hfuel : s.length - k < fuel) :
    loop (walkStep s) fuel (k + 1, read) = some (read ++ cs.map Int.ofNat) := by
  induction cs generalizing k fuel read with
  | nil =>
    have hend : k = s.length := by
      have hlength := congrArg List.length h
      rw [List.length_drop, unitsOf_length, spell_nil, List.length_nil] at hlength
      omega
    subst hend
    obtain ⟨fuel, rfl⟩ := Nat.exists_eq_succ_of_ne_zero (show fuel ≠ 0 by omega)
    simp [loop, walkStep_end]
  | cons c cs ih =>
    obtain ⟨fuel, rfl⟩ := Nat.exists_eq_succ_of_ne_zero (show fuel ≠ 0 by omega)
    have hfront : front ((unitsOf s).drop k) = some (c, (units c).length) := by
      rw [h, spell_cons]
      exact front_units (hcs c List.mem_cons_self) _
    have hpos := List.length_pos_of_ne_nil (units_ne_nil c)
    have hrest : (unitsOf s).drop (k + (units c).length) = spell cs := by
      rw [← List.drop_drop, h, spell_cons, List.drop_left]
    have hroom : k + (units c).length ≤ s.length := by
      have hlength := congrArg List.length h
      rw [List.length_drop, unitsOf_length, spell_cons, List.length_append] at hlength
      omega
    have hrun := ih (read ++ [(c : ℤ)]) (fun x hx => hcs x (List.mem_cons_of_mem _ hx)) hroom hrest
      (show s.length - (k + (units c).length) < fuel by omega)
    simp only [loop, walkStep_front read hfront, hrun]
    simp

theorem walk_of_spelled {cs : List ℕ} {s : Bytes} (hcs : ∀ c ∈ cs, IsScalar c)
    (h : unitsOf s = spell cs) : walk s = some (cs.map Int.ofNat) :=
  loop_walkStep [] hcs (Nat.zero_le _) h (by omega)

theorem isvalid_iff_spelled (s : Bytes) : isvalid s = true ↔ ∃ cs, Spelled cs s := by
  rw [isvalid_iff, SpelledTo, List.take_of_length_le (by rw [unitsOf_length])]
  constructor
  · rintro ⟨cs, hcs, hunits⟩
    refine ⟨cs.map Int.ofNat, spelled_iff.mpr ⟨fun c hc => ?_, ?_⟩⟩
    · obtain ⟨n, hn, rfl⟩ := List.mem_map.mp hc
      exact ⟨Int.natCast_nonneg n, hcs n hn⟩
    · have hid : Int.toNat ∘ Int.ofNat = id := rfl
      rw [hunits, List.map_map, hid, List.map_id]
  · rintro ⟨cs, h⟩
    obtain ⟨hcs, hunits⟩ := spelled_iff.mp h
    refine ⟨cs.map Int.toNat, fun c hc => ?_, hunits⟩
    obtain ⟨n, hn, rfl⟩ := List.mem_map.mp hc
    exact (hcs n hn).2

theorem Spelled.walk {cs : List ℤ} {s : Bytes} (h : Spelled cs s) : walk s = some cs := by
  obtain ⟨hcs, hunits⟩ := spelled_iff.mp h
  have hscalar : ∀ c ∈ cs.map Int.toNat, IsScalar c := by
    intro c hc
    obtain ⟨n, hn, rfl⟩ := List.mem_map.mp hc
    exact (hcs n hn).2
  have hback : ∀ c ∈ cs, (Int.ofNat ∘ Int.toNat) c = id c := fun c hc => Int.toNat_of_nonneg (hcs c hc).1
  rw [walk_of_spelled hscalar hunits, List.map_map, List.map_congr_left hback, List.map_id]

theorem validprefixlen_greatest (s : Bytes) (maxbytes : ℤ) :
    ∃ k, validprefixlen s maxbytes = some k ∧
      IsGreatest {n : ℕ | n ≤ s.length ∧ (n : ℤ) ≤ max 0 maxbytes ∧ isvalid (s.take n) = true} k := by
  generalize hlimit : (max 0 (min (s.length : ℤ) maxbytes)).toNat = limit
  have hle : limit ≤ s.length := by omega
  obtain ⟨k, hscan, hstops⟩ := scan_spec s hle
  have hk := hstops.1
  refine ⟨k, by rw [validprefixlen, hlimit, hscan], ⟨by omega, by omega, ?_⟩, ?_⟩
  · rw [isvalid_take_iff (by omega)]
    exact hstops.2.1
  · rintro m ⟨hm, hbudget, hvalid⟩
    rw [isvalid_take_iff hm] at hvalid
    exact hstops.greatest (by omega) hle hvalid

/-- A value is valid exactly when code points without surrogates spell it, a walk then
reads these, and the valid prefix within a budget is the longest one. -/
theorem utf8_agrees (s : Bytes) :
    (isvalid s = true ↔ ∃ cs, Spelled cs s) ∧ (∀ cs, Spelled cs s → walk s = some cs) ∧
      ∀ maxbytes : ℤ, ∃ k, validprefixlen s maxbytes = some k ∧
        IsGreatest {n : ℕ | n ≤ s.length ∧ (n : ℤ) ≤ max 0 maxbytes ∧ isvalid (s.take n) = true} k :=
  ⟨isvalid_iff_spelled s, fun _ h => h.walk, validprefixlen_greatest s⟩

end Nupp.Text
