import Mathlib.Algebra.BigOperators.Ring.Finset
import Mathlib.Tactic.Ring
import Nupp.Util.BitsetUpdate

/-! Setting a range. The words between its ends are all ones whatever they held, and the words at or above the
used bound are counted without being read. -/

namespace Nupp.Bitset

open LuaBit Result

/-- The bits in the words below `n`. -/
def total (s : Bitset) (n : ℕ) : ℤ := ∑ w ∈ Finset.range n, (bitCount (wordAt s w) : ℤ)

theorem total_store (s : Bitset) {w n : ℕ} (x : ℤ) (hw : w < s.words.length) (hn : w < n) :
    total (s.store w x) n = total s n + bitCount (word x) - bitCount (wordAt s w) := by
  have hmem : w ∈ Finset.range n := Finset.mem_range.mpr hn
  have hrest : ∑ u ∈ (Finset.range n).erase w, (bitCount (wordAt (s.store w x) u) : ℤ) =
      ∑ u ∈ (Finset.range n).erase w, (bitCount (wordAt s u) : ℤ) := by
    refine Finset.sum_congr rfl fun u hu => ?_
    rw [wordAt_store s w u x hw, if_neg (Finset.ne_of_mem_erase hu)]
  rw [total, total, ← Finset.add_sum_erase _ _ hmem, ← Finset.add_sum_erase _ _ hmem, hrest, wordAt_store s w w x hw,
    if_pos rfl]
  ring

theorem card_eq_total {s : Bitset} {t : Finset ℕ} (hmem : ∀ i, i ∈ t ↔ bit s i = true) {n : ℕ}
    (hzero : ∀ w, n ≤ w → wordAt s w = 0#32) : (t.card : ℤ) = total s n := by
  rw [card_eq_sum hmem hzero, total, Nat.cast_sum]

@[simp] theorem word_allOnes : word ALL_ONES = BitVec.allOnes 32 := by decide

@[simp] theorem bitCount_allOnes : bitCount (BitVec.allOnes 32) = 32 := by decide

@[simp] theorem bitCount_zero : bitCount 0#32 = 0 := by decide

/-- `s'` is `s` with all ones in the words from `first` up to `stop`. -/
structure Filled (s s' : Bitset) (first stop : ℕ) : Prop where
  words : ∀ u, wordAt s' u = if first ≤ u ∧ u < stop then BitVec.allOnes 32 else wordAt s u
  length : s'.words.length = s.words.length
  capacity : s'.capacity = s.capacity
  used : s'.used = s.used
  population : s'.population = s.population
  stale : s'.stale = s.stale

theorem Filled.refl (s : Bitset) (first : ℕ) : Filled s s first first where
  words u := by rw [if_neg (by omega)]
  length := rfl
  capacity := rfl
  used := rfl
  population := rfl
  stale := rfl

theorem Filled.store {s s' : Bitset} {first w : ℕ} (h : Filled s s' first w) (hw : first ≤ w)
    (hlength : w < s.words.length) : Filled s (s'.store w ALL_ONES) first (w + 1) where
  words u := by
    rw [wordAt_store s' w u ALL_ONES (h.length ▸ hlength), word_allOnes]
    by_cases hu : u = w
    · rw [if_pos hu, if_pos (by omega)]
    · rw [if_neg hu, h.words]
      refine if_congr ?_ rfl rfl
      omega
  length := (length_store _ _ _).trans h.length
  capacity := h.capacity
  used := h.used
  population := h.population
  stale := h.stale

theorem Filled.trans {s s' s'' : Bitset} {first mid stop : ℕ} (h : Filled s s' first mid) (h' : Filled s' s'' mid stop)
    (hfirst : first ≤ mid) (hmid : mid ≤ stop) : Filled s s'' first stop where
  words u := by
    rw [h'.words, h.words]
    by_cases hlow : u < mid
    · rw [if_neg (by omega)]
      refine if_congr ?_ rfl rfl
      omega
    · by_cases hstop : u < stop
      · rw [if_pos (by omega), if_pos (by omega)]
      · rw [if_neg (by omega), if_neg (by omega), if_neg (by omega)]
  length := h'.length.trans h.length
  capacity := h'.capacity.trans h.capacity
  used := h'.used.trans h.used
  population := h'.population.trans h.population
  stale := h'.stale.trans h.stale

theorem filled_fill (s : Bitset) {first stop : ℕ} (hle : first ≤ stop) (hlength : stop ≤ s.words.length) :
    Filled s (forWords first stop (fun w s => s.store w ALL_ONES) s) first stop := by
  refine forWords_rec (fun w s' => Filled s s' first w) hle (Filled.refl s first) ?_
  intro w s' hw hlt hs'
  exact hs'.store hw (by omega)

/-- The words whose bits are read are counted exactly. -/
theorem filled_counted (s : Bitset) {first stop n : ℕ} (added : ℤ) (hle : first ≤ stop)
    (hlength : stop ≤ s.words.length) (hn : stop ≤ n) :
    ∃ s' added', forWords first stop (fun w (p : Bitset × ℤ) =>
        (p.1.store w ALL_ONES, p.2 + BITS_PER_WORD - popcount (p.1.at w))) (s, added) = (s', added') ∧
      Filled s s' first stop ∧ added' - total s' n = added - total s n := by
  have hloop := @forWords_rec _ (fun w (p : Bitset × ℤ) =>
      (p.1.store w ALL_ONES, p.2 + BITS_PER_WORD - popcount (p.1.at w))) _ _ (s, added)
    (fun w p => Filled s p.1 first w ∧ p.2 - total p.1 n = added - total s n) hle ⟨Filled.refl s first, rfl⟩ (by
      rintro w ⟨s', added'⟩ hw hlt ⟨hfilled, hadded⟩
      have hroom : w < s'.words.length := by
        rw [hfilled.length]
        omega
      refine ⟨hfilled.store hw (by omega), ?_⟩
      dsimp only at hadded ⊢
      rw [total_store s' ALL_ONES hroom (by omega), word_allOnes, bitCount_allOnes, popcount_eq, word_at,
        BITS_PER_WORD]
      push_cast
      linarith)
  exact ⟨_, _, rfl, hloop⟩

/-- Above the used bound each word gains all of its bits. -/
theorem total_fill {s s' : Bitset} {first stop n : ℕ} (h : Filled s s' first stop) (hle : first ≤ stop)
    (hn : stop ≤ n) (hzero : ∀ w, first ≤ w → w < stop → wordAt s w = 0#32) :
    total s' n = total s n + 32 * ((stop : ℤ) - first) := by
  obtain ⟨k, rfl⟩ := Nat.exists_eq_add_of_le hle
  obtain ⟨m, rfl⟩ := Nat.exists_eq_add_of_le hn
  rw [total, total, Finset.sum_range_add, Finset.sum_range_add, Finset.sum_range_add, Finset.sum_range_add]
  have hlow : ∑ u ∈ Finset.range first, (bitCount (wordAt s' u) : ℤ) =
      ∑ u ∈ Finset.range first, (bitCount (wordAt s u) : ℤ) := by
    refine Finset.sum_congr rfl fun u hu => ?_
    rw [h.words, if_neg (by rw [Finset.mem_range] at hu; omega)]
  have hmid : ∑ u ∈ Finset.range k, (bitCount (wordAt s' (first + u)) : ℤ) = 32 * k := by
    rw [Finset.sum_congr rfl fun u hu => by
      rw [h.words, if_pos (by rw [Finset.mem_range] at hu; omega), bitCount_allOnes]]
    rw [Finset.sum_const, Finset.card_range, nsmul_eq_mul]
    push_cast
    ring
  have hhigh : ∑ u ∈ Finset.range m, (bitCount (wordAt s' (first + k + u)) : ℤ) =
      ∑ u ∈ Finset.range m, (bitCount (wordAt s (first + k + u)) : ℤ) := by
    refine Finset.sum_congr rfl fun u _ => ?_
    rw [h.words, if_neg (by omega)]
  have hold : ∑ u ∈ Finset.range k, (bitCount (wordAt s (first + u)) : ℤ) = 0 := by
    refine Finset.sum_eq_zero fun u hu => ?_
    rw [hzero _ (by omega) (by rw [Finset.mem_range] at hu; omega), bitCount_zero, Nat.cast_zero]
  rw [hlow, hmid, hhigh, hold]
  push_cast
  ring

theorem fillMiddle_spec {s : Bitset} {firstWord lastWord n : ℕ} (added : ℤ) (hlt : firstWord < lastWord)
    (hlength : lastWord ≤ s.words.length) (hn : lastWord ≤ n) (hzero : ∀ w, firstWord < w → s.used ≤ w → wordAt s w = 0#32) :
    ∃ s' added', fillMiddle s firstWord lastWord added = (s', added') ∧ Filled s s' (firstWord + 1) lastWord ∧
      (s.stale = false → added' - total s' n = added - total s n) := by
  rw [fillMiddle]
  by_cases hstale : s.stale = true
  · dsimp only
    rw [if_neg (not_not.mpr hstale)]
    exact ⟨_, _, rfl, filled_fill s hlt hlength, fun hs => absurd hstale (Bool.not_eq_true _ ▸ hs)⟩
  · dsimp only
    rw [if_pos hstale]
    -- the last word counted by reading it
    obtain ⟨c, hc, hfirst, hlast, hused⟩ : ∃ c : ℕ,
        (if (if (s.used : ℤ) - 1 < (lastWord : ℤ) - 1 then (s.used : ℤ) - 1 else (lastWord : ℤ) - 1) < (firstWord : ℤ)
          then (firstWord : ℤ)
          else (if (s.used : ℤ) - 1 < (lastWord : ℤ) - 1 then (s.used : ℤ) - 1 else (lastWord : ℤ) - 1)) = (c : ℤ) ∧
        firstWord ≤ c ∧ c + 1 ≤ lastWord ∧ (c + 1 < lastWord → s.used ≤ c + 1) := by
      by_cases hreached : (s.used : ℤ) - 1 < (lastWord : ℤ) - 1
      · simp only [if_pos hreached]
        by_cases hcounted : (s.used : ℤ) - 1 < (firstWord : ℤ)
        · rw [if_pos hcounted]
          exact ⟨firstWord, rfl, le_rfl, hlt, fun _ => by omega⟩
        · rw [if_neg hcounted]
          exact ⟨s.used - 1, by omega, by omega, by omega, fun _ => by omega⟩
      · simp only [if_neg hreached]
        rw [if_neg (by omega)]
        exact ⟨lastWord - 1, by omega, by omega, by omega, fun _ => by omega⟩
    rw [hc, Int.toNat_natCast]
    obtain ⟨s₁, added₁, hloop, hfilled, hadded⟩ :=
      filled_counted s (n := n) added (Nat.succ_le_succ hfirst) (hlast.trans hlength) (hlast.trans hn)
    have hfill := filled_fill s₁ hlast (hfilled.length.symm ▸ hlength)
    have hgain := total_fill hfill hlast hn (by
      intro w hw hstop
      rw [hfilled.words, if_neg (by omega)]
      exact hzero w (by omega) ((hused (by omega)).trans hw))
    rw [hloop]
    refine ⟨_, _, rfl, hfilled.trans hfill (Nat.succ_le_succ hfirst) hlast, fun _ => ?_⟩
    rw [hgain, BITS_PER_WORD]
    split
    · push_cast
      linarith
    · have hsame : (lastWord : ℤ) = c + 1 := by omega
      push_cast
      linarith

/-! The ends. -/

theorem getLsbD_tail {k b : ℕ} (hk : k < 32) (hb : b < 32) :
    (word (if (k : ℤ) = BIT_MASK then ALL_ONES else lshift 1 ((k : ℤ) + 1) - 1)).getLsbD b = decide (b ≤ k) := by
  by_cases hlast : (k : ℤ) = BIT_MASK
  · have hk' : k = 31 := by
      rw [BIT_MASK] at hlast
      omega
    rw [if_pos hlast, word_allOnes, BitVec.getLsbD_allOnes, hk']
    exact decide_eq_decide.mpr (by omega)
  · have hk' : k + 1 < 32 := by
      rw [BIT_MASK] at hlast
      omega
    rw [if_neg hlast, ← Nat.cast_succ, getLsbD_below hk']
    exact decide_eq_decide.mpr (by omega)

/-- What setting a range leaves: `added` is what the population gains. -/
structure Ranged (s s' : Bitset) (low high : ℕ) (added : ℤ) : Prop where
  bits : ∀ i, bit s' i = (bit s i || decide (low ≤ i ∧ i ≤ high))
  above : ∀ w, high / 32 < w → wordAt s' w = wordAt s w
  length : s'.words.length = s.words.length
  capacity : s'.capacity = s.capacity
  used : s'.used = s.used
  population : s'.population = s.population
  stale : s'.stale = s.stale
  added : s.stale = false → added = total s' s.capacity - total s s.capacity

theorem ranged_single {s : Bitset} (hs : Sound s) {low high : ℕ} (hroom : high / 32 < s.capacity)
    (hsame : low / 32 = high / 32) {mask : ℤ}
    (hmask : ∀ b < 32, (word mask).getLsbD b = decide (low % 32 ≤ b ∧ b ≤ high % 32)) :
    Ranged s (s.store (low / 32) (bor (s.at (low / 32)) mask)) low high
      ((popcount (bor (s.at (low / 32)) mask) : ℤ) - popcount (s.at (low / 32))) := by
  have hlength : low / 32 < s.words.length := by
    rw [hs.length, hsame]
    exact hroom
  refine ⟨?_, ?_, length_store _ _ _, rfl, rfl, rfl, rfl, ?_⟩
  · intro i
    rw [bit_store s _ hlength]
    by_cases hi : i / 32 = low / 32
    · rw [if_pos hi, word_bor, word_at, BitVec.getLsbD_or, ← hi, ← bit, hmask _ (offset_lt i)]
      congr 1
      exact decide_eq_decide.mpr (by omega)
    · rw [if_neg hi, decide_eq_false (by omega), Bool.or_false]
  · intro w hw
    rw [wordAt_store s _ w _ hlength, if_neg (by omega)]
  · intro _
    rw [total_store s _ hlength (by omega), popcount_eq, popcount_eq, word_at]
    ring

theorem ranged_several {s : Bitset} (hs : Sound s) (low high : ℕ) (hlt : low / 32 < high / 32)
    (hroom : high / 32 < s.capacity) {head tail : ℤ}
    (hhead : ∀ b < 32, (word head).getLsbD b = decide (low % 32 ≤ b))
    (htail : ∀ b < 32, (word tail).getLsbD b = decide (b ≤ high % 32)) :
    ∃ s' added, fillMiddle (s.store (low / 32) (bor (s.at (low / 32)) head)) (low / 32) (high / 32)
        ((popcount (bor (s.at (low / 32)) head) : ℤ) - popcount (s.at (low / 32))) = (s', added) ∧
      Ranged s (s'.store (high / 32) (bor (s'.at (high / 32)) tail)) low high
        (added + popcount (bor (s'.at (high / 32)) tail) - popcount (s'.at (high / 32))) := by
  have hlength : high / 32 < s.words.length := by
    rw [hs.length]
    exact hroom
  have hfirst : low / 32 < s.words.length := hlt.trans hlength
  obtain ⟨s', added, hmiddle, hfilled, hadded⟩ := fillMiddle_spec
    (s := s.store (low / 32) (bor (s.at (low / 32)) head)) (n := s.capacity)
    ((popcount (bor (s.at (low / 32)) head) : ℤ) - popcount (s.at (low / 32))) hlt
    (by rw [length_store]; exact hlength.le) hroom.le (by
      intro w hw hused
      rw [wordAt_store s _ w _ hfirst, if_neg (by omega)]
      exact hs.zero w hused)
  have hlength' : high / 32 < s'.words.length := by
    rw [hfilled.length, length_store]
    exact hlength
  refine ⟨s', added, hmiddle, ?_, ?_, ?_, ?_, ?_, ?_, ?_, ?_⟩
  · intro i
    have hmid : bit s' i = if low / 32 + 1 ≤ i / 32 ∧ i / 32 < high / 32 then true
        else bit (s.store (low / 32) (bor (s.at (low / 32)) head)) i := by
      rw [bit, hfilled.words]
      by_cases hi : low / 32 + 1 ≤ i / 32 ∧ i / 32 < high / 32
      · rw [if_pos hi, if_pos hi, BitVec.getLsbD_allOnes, decide_eq_true (offset_lt i)]
      · rw [if_neg hi, if_neg hi, bit]
    rw [bit_store s' _ hlength']
    by_cases hlast : i / 32 = high / 32
    · rw [if_pos hlast, word_bor, word_at, BitVec.getLsbD_or, ← hlast, ← bit, htail _ (offset_lt i), hmid,
        if_neg (by omega), bit_store s _ hfirst, if_neg (by omega)]
      congr 1
      exact decide_eq_decide.mpr (by omega)
    · rw [if_neg hlast, hmid]
      by_cases hi : low / 32 + 1 ≤ i / 32 ∧ i / 32 < high / 32
      · rw [if_pos hi, decide_eq_true (by omega), Bool.or_true]
      · rw [if_neg hi, bit_store s _ hfirst]
        by_cases hfirst' : i / 32 = low / 32
        · rw [if_pos hfirst', word_bor, word_at, BitVec.getLsbD_or, ← hfirst', ← bit, hhead _ (offset_lt i)]
          congr 1
          exact decide_eq_decide.mpr (by omega)
        · rw [if_neg hfirst', decide_eq_false (by omega), Bool.or_false]
  · intro w hw
    rw [wordAt_store s' _ w _ hlength', if_neg (by omega), hfilled.words, if_neg (by omega),
      wordAt_store s _ w _ hfirst, if_neg (by omega)]
  · rw [length_store, hfilled.length, length_store]
  · exact hfilled.capacity
  · exact hfilled.used
  · exact hfilled.population
  · exact hfilled.stale
  · intro hstale
    have hgain := hadded hstale
    rw [total_store s _ hfirst (by omega)] at hgain
    rw [total_store s' _ hlength' hroom, popcount_eq, popcount_eq, word_at]
    rw [popcount_eq, popcount_eq, word_at] at hgain
    linarith

theorem Ranged.rep {s s' : Bitset} {t : Finset ℕ} {low high : ℕ} {added : ℤ} (h : Ranged s s' low high added)
    (hs : Rep s t) (hhigh : high < 2 ^ 31) (hroom : high / 32 < s.capacity) :
    Rep { s' with
      population := if s'.stale then s'.population else s'.population + added
      used := if high / 32 ≥ s'.used then high / 32 + 1 else s'.used } (t ∪ Finset.Icc low high) := by
  have hzero : ∀ w, (if high / 32 ≥ s'.used then high / 32 + 1 else s'.used) ≤ w → wordAt s' w = 0#32 := by
    intro w hw
    rw [h.used] at hw
    have hhigh : high / 32 < w := by
      split at hw <;> omega
    have hused : s.used ≤ w := by
      split at hw <;> omega
    rw [h.above w hhigh]
    exact hs.zero w hused
  have hmem : ∀ i, i ∈ t ∪ Finset.Icc low high ↔ bit s' i = true := by
    intro i
    rw [Finset.mem_union, Finset.mem_Icc, hs.mem, h.bits, Bool.or_eq_true, decide_eq_true_eq]
  have hused := hs.used_le
  constructor
  · refine ⟨?_, ?_, ?_, hzero⟩
    · rw [h.length, h.capacity, hs.length]
    · dsimp only
      rw [h.used, h.capacity]
      split <;> omega
    · have hbound := hs.bound
      dsimp only
      rw [h.used]
      split <;> omega
  · exact hmem
  · intro hstale
    rw [h.stale] at hstale
    have hcapacity : ∀ w, s.capacity ≤ w → wordAt s' w = 0#32 := by
      intro w hw
      rw [h.above w (by omega)]
      exact hs.zero w (hused.trans hw)
    have hcard := card_eq_total hmem hcapacity
    have hold := card_eq_total hs.mem fun w hw => hs.zero w (hused.trans hw)
    have hadded := h.added hstale
    have hpopulation := hs.population hstale
    rw [hcard]
    dsimp only
    rw [h.stale, hstale, if_neg Bool.false_ne_true, h.population]
    linarith

theorem rep_setrange {s : Bitset} {t : Finset ℕ} (hs : Rep s t) {low high : ℕ} (hle : low ≤ high)
    (hhigh : high < 2 ^ 31) : ∃ s', setrange s low high = .ok s' ∧ Rep s' (t ∪ Finset.Icc low high) := by
  have hlow : low < 2 ^ 31 := hle.trans_lt hhigh
  obtain ⟨s', hreserve, hgrown⟩ := reserve_grown hs.toSound ((high : ℤ) + 1) (by omega)
  have hroom := hgrown.room
  rw [wordsFor_succ] at hroom
  have hs' := hgrown.rep hs
  rw [setrange, if_neg (by omega), if_neg (not_not.mpr (isPosition_natCast hlow)),
    if_neg (not_not.mpr (isPosition_natCast hhigh)), hreserve, ok_bind]
  dsimp only
  rw [toNat_rshift hlow, toNat_rshift hhigh, band_bitMask hlow, band_bitMask hhigh]
  by_cases hsame : low / 32 = high / 32
  · rw [if_pos hsame]
    refine ⟨_, rfl, (ranged_single hs'.toSound hroom hsame ?_).rep hs' hhigh hroom⟩
    intro b hb
    rw [word_band, BitVec.getLsbD_and, getLsbD_head (offset_lt low), getLsbD_tail (offset_lt high) hb]
    by_cases hbelow : low % 32 ≤ b <;> simp [hbelow, hb]
  · rw [if_neg hsame]
    obtain ⟨s'', added, hmiddle, hranged⟩ := ranged_several hs'.toSound low high (by omega) hroom
      (fun b hb => (getLsbD_head (offset_lt low)).trans (decide_eq_decide.mpr (and_iff_left hb)))
      (fun b hb => getLsbD_tail (offset_lt high) hb)
    rw [hmiddle]
    exact ⟨_, rfl, hranged.rep hs' hhigh hroom⟩

theorem setrange_empty (s : Bitset) {low high : ℤ} (h : high < low) : setrange s low high = .ok s := by
  rw [setrange, if_pos h]
  rfl

theorem setrange_badStart (s : Bitset) {low high : ℤ} (h : ¬high < low) (hlow : ¬isPosition low = true) :
    setrange s low high = .error badStart := by
  rw [setrange, if_neg h, if_pos hlow]

theorem setrange_badEnd (s : Bitset) {low high : ℤ} (h : ¬high < low) (hlow : isPosition low = true)
    (hhigh : ¬isPosition high = true) : setrange s low high = .error badEnd := by
  rw [setrange, if_neg h, if_neg (not_not.mpr hlow), if_pos hhigh]

end Nupp.Bitset
