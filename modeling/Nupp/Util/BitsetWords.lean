import Nupp.Lib.BitCount
import Nupp.Util.Bitset
import Mathlib.Algebra.BigOperators.Group.Finset.Basic
import Mathlib.Data.Finset.Sort
import Mathlib.Order.Interval.Finset.Nat

/-! What the word helpers compute: the number of bits of a word, its lowest bit and the masks of a range. -/

namespace Nupp.Bitset

open LuaBit

/-! Numbers by their halves. -/

theorem populationHalf_succ {v : ℕ} (hv : 0 < v) : populationHalf v = populationHalf (v &&& (v - 1)) + 1 := by
  obtain ⟨n, rfl⟩ := Nat.exists_eq_succ_of_ne_zero hv.ne'
  rw [populationHalf]
  rfl

theorem populationHalf_even (u : ℕ) : populationHalf (2 * u) = populationHalf u := by
  induction u using Nat.strong_induction_on with
  | _ u ih =>
    rcases Nat.eq_zero_or_pos u with rfl | hu
    · rfl
    · have hlt : u &&& (u - 1) < u := Nat.and_le_right.trans_lt (by omega)
      rw [populationHalf_succ (by omega : 0 < 2 * u), and_pred_even hu, ih _ hlt, ← populationHalf_succ hu]

theorem populationHalf_odd (u : ℕ) : populationHalf (2 * u + 1) = populationHalf u + 1 := by
  have hpos : 0 < 2 * u + 1 := Nat.succ_pos _
  rw [populationHalf_succ hpos, Nat.add_sub_cancel, and_pred_odd, populationHalf_even]

/-- The table counts bits. -/
theorem populationHalf_eq {n v : ℕ} (hv : v < 2 ^ n) : populationHalf v = (List.range n).countP v.testBit := by
  induction n generalizing v with
  | zero =>
    obtain rfl : v = 0 := by omega
    rw [populationHalf]
    rfl
  | succ n ih =>
    have hhalf := ih (v := v / 2) (by rw [pow_succ] at hv; omega)
    rw [countP_range_succ]
    simp only [Nat.testBit_succ, ← hhalf]
    rcases Nat.even_or_odd' v with ⟨u, rfl | rfl⟩
    · rw [populationHalf_even, Nat.mul_div_cancel_left u (by decide)]
      simp
    · rw [populationHalf_odd, show (2 * u + 1) / 2 = u by omega]
      simp

theorem trailingHalf_odd (u : ℕ) : trailingHalf (2 * u + 1) = 0 := by
  have hodd : (2 * u + 1) &&& 1 = 1 := by
    rw [Nat.and_one_is_mod]
    omega
  rw [trailingHalf, if_pos hodd]

theorem trailingHalf_even {u : ℕ} (hu : 0 < u) : trailingHalf (2 * u) = trailingHalf u + 1 := by
  obtain ⟨n, hn⟩ := Nat.exists_eq_succ_of_ne_zero (by omega : 2 * u ≠ 0)
  have heven : ¬(2 * u) &&& 1 = 1 := by
    rw [Nat.and_one_is_mod]
    omega
  rw [hn, trailingHalf, ← Nat.succ_eq_add_one, ← hn, if_neg heven, Nat.mul_div_cancel_left u (by decide)]

/-- What is meant by the lowest bit of a number. -/
def IsLowest (v l : ℕ) : Prop := v.testBit l = true ∧ ∀ b < l, v.testBit b = false

theorem isLowest_trailingHalf {v : ℕ} (hv : 0 < v) : IsLowest v (trailingHalf v) := by
  induction v using Nat.strong_induction_on with
  | _ v ih =>
    rcases Nat.even_or_odd' v with ⟨u, rfl | rfl⟩
    · obtain ⟨hbit, hlow⟩ := ih u (by omega) (by omega)
      rw [trailingHalf_even (by omega : 0 < u)]
      refine ⟨by simpa [Nat.testBit_succ] using hbit, ?_⟩
      intro b hb
      cases b with
      | zero => simp
      | succ b => simpa [Nat.testBit_succ] using hlow b (by omega)
    · rw [trailingHalf_odd]
      exact ⟨by simp, fun b hb => absurd hb (Nat.not_lt_zero b)⟩

/-- One less clears the lowest bit and no other. -/
theorem testBit_and_pred {v l : ℕ} (h : IsLowest v l) (b : ℕ) :
    (v &&& (v - 1)).testBit b = (v.testBit b && b ≠ l) := by
  induction v using Nat.strong_induction_on generalizing l b with
  | _ v ih =>
    rcases Nat.even_or_odd' v with ⟨u, rfl | rfl⟩
    · have hu : 0 < u := by
        rcases Nat.eq_zero_or_pos u with rfl | hu
        · simp [IsLowest] at h
        · exact hu
      obtain ⟨k, rfl⟩ : ∃ k, l = k + 1 := by
        cases l with
        | zero => simp [IsLowest] at h
        | succ k => exact ⟨k, rfl⟩
      have hlowest : IsLowest u k := by
        refine ⟨by simpa [Nat.testBit_succ] using h.1, fun c hc => ?_⟩
        simpa [Nat.testBit_succ] using h.2 (c + 1) (by omega)
      rw [and_pred_even hu]
      cases b with
      | zero => simp
      | succ b => simpa [Nat.testBit_succ] using ih u (by omega) hlowest b
    · obtain rfl : l = 0 := by
        by_contra hl
        have hzero := h.2 0 (Nat.pos_of_ne_zero hl)
        simp at hzero
      rw [Nat.add_sub_cancel, and_pred_odd]
      cases b with
      | zero => simp
      | succ b => simp [Nat.testBit_succ, Nat.mul_add_div]

/-! Words. -/

def bitCount (w : Word) : ℕ := (List.range 32).countP (w.getLsbD ·)

/-- The bits of a word, lowest first. -/
def ascending (w : Word) : List ℕ := (List.range 32).filter (w.getLsbD ·)

theorem toNat_half (w : Word) : (band w.toInt HALF_MASK).toNat = w.toNat % 2 ^ 16 := by
  have hword : (word (band w.toInt HALF_MASK)).toNat = w.toNat % 2 ^ 16 := by
    rw [word_band, word_toInt, BitVec.toNat_and, show (word HALF_MASK).toNat = 2 ^ 16 - 1 from rfl,
      Nat.and_two_pow_sub_one_eq_mod]
  have hint : band w.toInt HALF_MASK = ((w.toNat % 2 ^ 16 : ℕ) : ℤ) := by
    rw [← hword, word_band, band]
    apply toInt_of_lt
    rw [← word_band, hword]
    omega
  rw [hint, Int.toNat_natCast]

theorem toNat_highHalf (w : Word) : (band (rshift w.toInt HALF_SHIFT) HALF_MASK).toNat = w.toNat / 2 ^ 16 := by
  have hshift : rshift w.toInt HALF_SHIFT = (w >>> 16).toInt := by
    rw [rshift, word_toInt]
    rfl
  rw [hshift, toNat_half, BitVec.toNat_ushiftRight, Nat.shiftRight_eq_div_pow]
  have hlt := w.isLt
  omega

theorem countP_range_add (p : ℕ → Bool) (m n : ℕ) :
    (List.range (m + n)).countP p = (List.range m).countP p + (List.range n).countP fun b => p (m + b) := by
  rw [List.range_add, List.countP_append, List.countP_map]
  rfl

theorem testBit_low (w : Word) {b : ℕ} (hb : b < 16) : (w.toNat % 2 ^ 16).testBit b = w.getLsbD b := by
  rw [Nat.testBit_mod_two_pow, decide_eq_true hb, Bool.true_and, BitVec.testBit_toNat]

theorem testBit_high (w : Word) (b : ℕ) : (w.toNat / 2 ^ 16).testBit b = w.getLsbD (16 + b) := by
  rw [← Nat.shiftRight_eq_div_pow, Nat.testBit_shiftRight, BitVec.testBit_toNat]

theorem popcount_eq (x : ℤ) : popcount x = bitCount (word x) := by
  have hx : popcount x = popcount (word x).toInt := by
    rw [popcount, popcount, band, band, band, band, rshift, rshift, word_toInt, word_toInt, word_toInt]
  have hlow := populationHalf_eq (n := 16) (Nat.mod_lt (word x).toNat (Nat.two_pow_pos 16))
  have hhigh := populationHalf_eq (n := 16) (v := (word x).toNat / 2 ^ 16) (by have hlt := (word x).isLt; omega)
  rw [hx, popcount, toNat_half, toNat_highHalf, hlow, hhigh, bitCount, countP_range_add _ 16 16]
  congr 1
  · refine List.countP_congr fun b hb => ?_
    rw [testBit_low _ (List.mem_range.mp hb)]
  · refine List.countP_congr fun b _ => ?_
    rw [testBit_high]

/-- `l` is the lowest bit of `w`. -/
def LowestOf (w : Word) (l : ℕ) : Prop := w.getLsbD l = true ∧ ∀ b < l, w.getLsbD b = false

theorem lowestBit_spec {x : ℤ} (hx : word x ≠ 0#32) : LowestOf (word x) (lowestBit x) := by
  have hlow : (band x HALF_MASK) = (((word x).toNat % 2 ^ 16 : ℕ) : ℤ) := by
    have hhalf := toNat_half (word x)
    have hnonneg : 0 ≤ band (word x).toInt HALF_MASK := by
      have hword : (word (band (word x).toInt HALF_MASK)).toNat = (word x).toNat % 2 ^ 16 := by
        rw [word_band, word_toInt, BitVec.toNat_and, show (word HALF_MASK).toNat = 2 ^ 16 - 1 from rfl,
          Nat.and_two_pow_sub_one_eq_mod]
      rw [word_band] at hword
      rw [band, toInt_of_lt (by rw [hword]; omega)]
      exact Int.natCast_nonneg _
    have hsame : band (word x).toInt HALF_MASK = band x HALF_MASK := by rw [band, band, word_toInt]
    rw [hsame] at hhalf hnonneg
    omega
  have hhigh : (band (rshift x HALF_SHIFT) HALF_MASK).toNat = (word x).toNat / 2 ^ 16 := by
    rw [← toNat_highHalf, rshift, rshift, word_toInt]
  have htestBit : ∀ b, (word x).getLsbD b = (word x).toNat.testBit b := fun b => (BitVec.testBit_toNat _).symm
  rw [lowestBit, hlow]
  by_cases hhalf : (word x).toNat % 2 ^ 16 = 0
  · have hpos : 0 < (word x).toNat / 2 ^ 16 := by
      have hne : (word x).toNat ≠ 0 := fun h => hx (BitVec.eq_of_toNat_eq h)
      omega
    obtain ⟨hbit, hbelow⟩ := isLowest_trailingHalf hpos
    simp only [hhalf, Nat.cast_zero, ne_eq, not_true_eq_false, if_false, hhigh]
    refine ⟨by rw [← testBit_high]; exact hbit, fun b hb => ?_⟩
    by_cases hb16 : b < 16
    · rw [← testBit_low _ hb16, hhalf, Nat.zero_testBit]
    · obtain ⟨c, rfl⟩ := Nat.exists_eq_add_of_le (not_lt.mp hb16)
      rw [← testBit_high]
      exact hbelow c (by omega)
  · have hne : (((word x).toNat % 2 ^ 16 : ℕ) : ℤ) ≠ 0 := by exact_mod_cast hhalf
    obtain ⟨hbit, hbelow⟩ := isLowest_trailingHalf (Nat.pos_of_ne_zero hhalf)
    have hsmall : trailingHalf ((word x).toNat % 2 ^ 16) < 16 := by
      by_contra hge
      rw [Nat.testBit_mod_two_pow, decide_eq_false hge, Bool.false_and] at hbit
      cases hbit
    simp only [hne, ne_eq, not_false_eq_true, if_true, Int.toNat_natCast]
    refine ⟨by rw [← testBit_low _ hsmall]; exact hbit, fun b hb => ?_⟩
    rw [← testBit_low _ (by omega)]
    exact hbelow b hb

theorem lt_of_getLsbD {w : Word} {b : ℕ} (h : w.getLsbD b = true) : b < 32 := by
  by_contra hge
  rw [BitVec.getLsbD_of_ge w b (not_lt.mp hge)] at h
  cases h

/-- Taking one away clears the lowest bit. -/
theorem getLsbD_and_sub_one {w : Word} {l : ℕ} (h : LowestOf w l) (b : ℕ) :
    (w &&& (w - 1#32)).getLsbD b = (w.getLsbD b && b ≠ l) := by
  have hlowest : IsLowest w.toNat l := by
    refine ⟨by rw [BitVec.testBit_toNat]; exact h.1, fun c hc => ?_⟩
    rw [BitVec.testBit_toNat]
    exact h.2 c hc
  have hpos : 0 < w.toNat := by
    by_contra hzero
    have hbit := hlowest.1
    rw [Nat.eq_zero_of_not_pos hzero, Nat.zero_testBit] at hbit
    cases hbit
  have hsub : (w - 1#32).toNat = w.toNat - 1 := by
    have hlt := w.isLt
    rw [BitVec.toNat_sub]
    simp only [BitVec.toNat_ofNat]
    omega
  rw [← BitVec.testBit_toNat, BitVec.toNat_and, hsub, testBit_and_pred hlowest, BitVec.testBit_toNat]

theorem filter_range_lowest {p : ℕ → Bool} {n l : ℕ} (hl : l < n) (hp : p l = true) (hbelow : ∀ b < l, p b = false) :
    (List.range n).filter p = l :: (List.range n).filter fun b => p b && b ≠ l := by
  obtain ⟨k, rfl⟩ := Nat.exists_eq_add_of_lt hl
  have hfront : ∀ q : ℕ → Bool, (∀ b < l, q b = false) → (List.range l).filter q = [] := by
    intro q hq
    rw [List.filter_eq_nil_iff]
    intro b hb
    simp [hq b (List.mem_range.mp hb)]
  rw [show l + k + 1 = l + (1 + k) by omega, List.range_add, List.filter_append, List.filter_append,
    hfront p hbelow, hfront _ (fun b hb => by simp [hbelow b hb]), List.nil_append, List.nil_append, Nat.add_comm 1 k,
    List.range_succ_eq_map, List.map_cons, Nat.add_zero, List.filter_cons_of_pos hp, List.filter_cons_of_neg (by simp)]
  congr 1
  refine List.filter_congr fun b hb => ?_
  simp only [List.map_map, List.mem_map, List.mem_range, Function.comp_apply] at hb
  obtain ⟨c, -, rfl⟩ := hb
  simp

/-- The lowest bit comes first. -/
theorem ascending_eq_cons {x : ℤ} (hx : word x ≠ 0#32) :
    ascending (word x) = lowestBit x :: ascending (word (band x (x - 1))) := by
  have hlowest := lowestBit_spec hx
  rw [ascending, filter_range_lowest (lt_of_getLsbD hlowest.1) hlowest.1 hlowest.2, ascending, word_band, word_sub,
    word_one]
  congr 1
  refine List.filter_congr fun b _ => ?_
  rw [getLsbD_and_sub_one hlowest]

@[simp] theorem ascending_zero : ascending 0#32 = [] := by decide

theorem mem_ascending {w : Word} {b : ℕ} : b ∈ ascending w ↔ w.getLsbD b = true := by
  rw [ascending, List.mem_filter, List.mem_range]
  exact ⟨fun h => h.2, fun h => ⟨lt_of_getLsbD h, h⟩⟩

theorem ascending_sorted (w : Word) : (ascending w).Pairwise (· < ·) := List.pairwise_lt_range.filter _

theorem length_ascending (w : Word) : (ascending w).length = bitCount w := List.countP_eq_length_filter.symm

theorem length_ascending_le (w : Word) : (ascending w).length ≤ 32 := by
  have hle := List.length_filter_le (w.getLsbD ·) (List.range 32)
  rw [List.length_range] at hle
  exact hle

/-! Masks. -/

theorem getLsbD_bit {k b : ℕ} (hk : k < 32) : (word (lshift 1 (k : ℤ))).getLsbD b = decide (b = k) := by
  rw [word_lshift 1 hk, word_one, BitVec.getLsbD_shiftLeft]
  by_cases hb : b = k
  · subst hb
    simp [hk]
  · simp only [hb, decide_false]
    by_cases hlt : b < k
    · simp [hlt]
    · have hpos : b - k ≠ 0 := by omega
      simp [hpos]

theorem getLsbD_below {k b : ℕ} (hk : k < 32) : (word (lshift 1 (k : ℤ) - 1)).getLsbD b = decide (b < k) := by
  have hshift : (word (lshift 1 (k : ℤ))).toNat = 2 ^ k := by
    rw [word_lshift 1 hk, word_one, BitVec.toNat_shiftLeft, Nat.shiftLeft_eq]
    have hlt : 2 ^ k < 2 ^ 32 := Nat.pow_lt_pow_right (by decide) hk
    simp only [BitVec.toNat_ofNat]
    omega
  have hsub : (word (lshift 1 (k : ℤ) - 1)).toNat = 2 ^ k - 1 := by
    have hlt : 2 ^ k < 2 ^ 32 := Nat.pow_lt_pow_right (by decide) hk
    have hpos := Nat.two_pow_pos k
    rw [word_sub, word_one, BitVec.toNat_sub, hshift]
    simp only [BitVec.toNat_ofNat]
    omega
  rw [← BitVec.testBit_toNat, hsub, Nat.testBit_two_pow_sub_one]

theorem getLsbD_head {k b : ℕ} (hk : k < 32) :
    (word (bnot (lshift 1 (k : ℤ) - 1))).getLsbD b = decide (k ≤ b ∧ b < 32) := by
  rw [word_bnot, BitVec.getLsbD_not, getLsbD_below hk]
  by_cases hb : b < 32 <;> by_cases hkb : b < k <;> simp [hb, hkb] ; omega

end Nupp.Bitset

/-! The set that the words of a bitset stand for, and what storing a word does to it. -/

namespace Nupp.Bitset

open LuaBit

/-- A property that the body of a loop carries from each word to the next holds at its end. -/
theorem forWords_rec {σ : Type} {body : ℕ → σ → σ} {first stop : ℕ} {s : σ} (p : ℕ → σ → Prop) (hle : first ≤ stop)
    (hfirst : p first s) (hstep : ∀ w s, first ≤ w → w < stop → p w s → p (w + 1) (body w s)) :
    p stop (forWords first stop body s) := by
  obtain ⟨n, rfl⟩ := Nat.exists_eq_add_of_le hle
  rw [forWords, Nat.add_sub_cancel_left]
  clear hle
  induction n with
  | zero => exact hfirst
  | succ n ih =>
    rw [List.range'_concat, Nat.one_mul, List.foldl_append]
    refine hstep (first + n) _ (Nat.le_add_right _ _) (by omega) (ih ?_)
    intro w s hw hlt hp
    exact hstep w s hw (by omega) hp

theorem forWords_empty {σ : Type} {body : ℕ → σ → σ} {first stop : ℕ} (s : σ) (h : stop ≤ first) :
    forWords first stop body s = s := by
  rw [forWords, Nat.sub_eq_zero_of_le h]
  rfl

/-! Words and bits. -/

def wordAt (s : Bitset) (w : ℕ) : Word := s.words.getD w 0#32

def bit (s : Bitset) (i : ℕ) : Bool := (wordAt s (i / 32)).getLsbD (i % 32)

theorem at_eq (s : Bitset) (w : ℕ) : s.at w = (wordAt s w).toInt := rfl

@[simp] theorem word_at (s : Bitset) (w : ℕ) : word (s.at w) = wordAt s w := word_toInt _

theorem wordAt_store (s : Bitset) (w u : ℕ) (value : ℤ) (hw : w < s.words.length) :
    wordAt (s.store w value) u = if u = w then word value else wordAt s u := by
  rw [wordAt, wordAt, Bitset.store, List.getD_eq_getElem?_getD, List.getD_eq_getElem?_getD, List.getElem?_set]
  by_cases hu : w = u
  · subst hu
    rw [if_pos rfl, if_pos rfl, if_pos hw]
    rfl
  · rw [if_neg hu, if_neg (fun h => hu h.symm)]

theorem wordAt_of_length_le {s : Bitset} {w : ℕ} (h : s.words.length ≤ w) : wordAt s w = 0#32 := by
  rw [wordAt, List.getD_eq_getElem?_getD, List.getElem?_eq_none h]
  rfl

/-- The storage invariant. -/
structure Sound (s : Bitset) : Prop where
  length : s.words.length = s.capacity
  used_le : s.used ≤ s.capacity
  bound : s.used ≤ 2 ^ 26
  zero : ∀ w, s.used ≤ w → wordAt s w = 0#32

/-- `s` stands for the set `t`. -/
structure Rep (s : Bitset) (t : Finset ℕ) : Prop extends Sound s where
  mem : ∀ i, i ∈ t ↔ bit s i = true
  population : s.stale = false → s.population = t.card

theorem bit_of_word (s : Bitset) (w b : ℕ) (hb : b < 32) : bit s (32 * w + b) = (wordAt s w).getLsbD b := by
  rw [bit, show (32 * w + b) / 32 = w by omega, show (32 * w + b) % 32 = b by omega]

theorem Sound.lt_of_bit {s : Bitset} (h : Sound s) {i : ℕ} (hi : bit s i = true) : i / 32 < s.used := by
  by_contra hge
  rw [bit, h.zero _ (not_lt.mp hge), BitVec.getLsbD_zero] at hi
  cases hi

theorem Rep.lt_used {s : Bitset} {t : Finset ℕ} (h : Rep s t) {i : ℕ} (hi : i ∈ t) : i / 32 < s.used :=
  h.toSound.lt_of_bit ((h.mem i).mp hi)

theorem Rep.lt {s : Bitset} {t : Finset ℕ} (h : Rep s t) {i : ℕ} (hi : i ∈ t) : i < 2 ^ 31 := by
  have hlt := h.lt_used hi
  have hbound := h.bound
  omega

/-- The members in the word `w`. -/
theorem card_fiber {s : Bitset} {t : Finset ℕ} (hmem : ∀ i, i ∈ t ↔ bit s i = true) (w : ℕ) :
    (t.filter fun i => i / 32 = w).card = bitCount (wordAt s w) := by
  have hfiber : (t.filter fun i => i / 32 = w) = ((ascending (wordAt s w)).map (32 * w + ·)).toFinset := by
    ext i
    rw [Finset.mem_filter, hmem, List.mem_toFinset, List.mem_map]
    constructor
    · rintro ⟨hbit, rfl⟩
      exact ⟨i % 32, mem_ascending.mpr hbit, by omega⟩
    · rintro ⟨b, hb, rfl⟩
      rw [mem_ascending] at hb
      have hlt := lt_of_getLsbD hb
      exact ⟨by rw [bit_of_word s w b hlt]; exact hb, by omega⟩
  have hdistinct : (ascending (wordAt s w)).Nodup := (ascending_sorted _).imp fun hlt => Nat.ne_of_lt hlt
  have hnodup : ((ascending (wordAt s w)).map (32 * w + ·)).Nodup :=
    hdistinct.map fun _ _ heq => Nat.add_left_cancel heq
  rw [hfiber, List.toFinset_card_of_nodup hnodup, List.length_map, length_ascending]

/-- The members, word by word. -/
theorem card_eq_sum {s : Bitset} {t : Finset ℕ} (hmem : ∀ i, i ∈ t ↔ bit s i = true) {n : ℕ}
    (hzero : ∀ w, n ≤ w → wordAt s w = 0#32) : t.card = ∑ w ∈ Finset.range n, bitCount (wordAt s w) := by
  have hmaps : ∀ i ∈ t, i / 32 ∈ Finset.range n := by
    intro i hi
    rw [Finset.mem_range]
    by_contra hge
    have hbit := (hmem i).mp hi
    rw [bit, hzero _ (not_lt.mp hge), BitVec.getLsbD_zero] at hbit
    cases hbit
  rw [Finset.card_eq_sum_card_fiberwise hmaps]
  exact Finset.sum_congr rfl fun w _ => card_fiber hmem w

end Nupp.Bitset
