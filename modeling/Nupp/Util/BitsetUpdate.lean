import Nupp.Util.BitsetWords

/-! What the operations that write one set do to the positions it stands for. -/

namespace Nupp.Bitset

open LuaBit Result

/-! Positions. -/

theorem isPosition_iff {index : ℤ} : isPosition index = true ↔ 0 ≤ index ∧ index < 2 ^ 31 := by
  rw [isPosition, Bool.and_eq_true, decide_eq_true_eq, decide_eq_true_eq, MAX_INDEX]
  omega

theorem isPosition_natCast {n : ℕ} (hn : n < 2 ^ 31) : isPosition (n : ℤ) = true := by
  rw [isPosition_iff]
  omega

theorem exists_natCast_of_isPosition {index : ℤ} (h : isPosition index = true) :
    ∃ n : ℕ, n < 2 ^ 31 ∧ index = n := by
  rw [isPosition_iff] at h
  exact ⟨index.toNat, by omega, by omega⟩

theorem toNat_rshift {n : ℕ} (hn : n < 2 ^ 31) : (rshift (n : ℤ) WORD_SHIFT).toNat = n / 32 := by
  have hshift : rshift n ((5 : ℕ) : ℤ) = (n / 32 : ℕ) := rshift_natCast hn (by decide)
  rw [show WORD_SHIFT = ((5 : ℕ) : ℤ) from rfl, hshift, Int.toNat_natCast]

theorem band_bitMask {n : ℕ} (hn : n < 2 ^ 31) : band (n : ℤ) BIT_MASK = (n % 32 : ℕ) :=
  band_mask (n := 5) hn (by decide)

theorem offset_lt (n : ℕ) : n % 32 < 32 := Nat.mod_lt n (by decide)

theorem getLsbD_mask {n : ℕ} (hn : n < 2 ^ 31) (b : ℕ) :
    (word (lshift 1 (band (n : ℤ) BIT_MASK))).getLsbD b = decide (b = n % 32) := by
  rw [band_bitMask hn, getLsbD_bit (offset_lt n)]

theorem band_mask_eq_zero_iff (s : Bitset) {n : ℕ} (hn : n < 2 ^ 31) :
    band (s.at (n / 32)) (lshift 1 (band (n : ℤ) BIT_MASK)) = 0 ↔ bit s n = false := by
  rw [band_eq_zero_iff, word_at]
  constructor
  · intro h
    have hbit := congrArg (fun w : Word => w.getLsbD (n % 32)) h
    simp only [BitVec.getLsbD_and, getLsbD_mask hn, decide_true, Bool.and_true, BitVec.getLsbD_zero] at hbit
    exact hbit
  · intro h
    refine BitVec.eq_of_getLsbD_eq fun b _ => ?_
    rw [BitVec.getLsbD_and, getLsbD_mask hn, BitVec.getLsbD_zero]
    by_cases hb : b = n % 32
    · subst hb
      rw [← bit, h, Bool.false_and]
    · rw [decide_eq_false hb, Bool.and_false]

/-! One word stored. -/

@[simp] theorem store_capacity (s : Bitset) (w : ℕ) (x : ℤ) : (s.store w x).capacity = s.capacity := rfl
@[simp] theorem store_used (s : Bitset) (w : ℕ) (x : ℤ) : (s.store w x).used = s.used := rfl
@[simp] theorem store_population (s : Bitset) (w : ℕ) (x : ℤ) : (s.store w x).population = s.population := rfl
@[simp] theorem store_stale (s : Bitset) (w : ℕ) (x : ℤ) : (s.store w x).stale = s.stale := rfl

@[simp] theorem length_store (s : Bitset) (w : ℕ) (x : ℤ) : (s.store w x).words.length = s.words.length :=
  List.length_set

theorem bit_store (s : Bitset) {w : ℕ} (x : ℤ) (hw : w < s.words.length) (i : ℕ) :
    bit (s.store w x) i = if i / 32 = w then (word x).getLsbD (i % 32) else bit s i := by
  rw [bit, wordAt_store s w (i / 32) x hw]
  by_cases hi : i / 32 = w
  · rw [if_pos hi, if_pos hi]
  · rw [if_neg hi, if_neg hi, bit]

/-! Growing. -/

theorem getD_replicate (n w : ℕ) : ((List.replicate n 0#32)[w]?).getD 0#32 = 0#32 := by
  rw [List.getElem?_replicate]
  split <;> rfl

/-- `s'` has the words of `s`, and room for `room` of them. -/
structure Grown (s s' : Bitset) (room : ℕ) : Prop where
  words : ∀ w, wordAt s' w = wordAt s w
  length : s'.words.length = s'.capacity
  room : room ≤ s'.capacity
  capacity : s.capacity ≤ s'.capacity
  used : s'.used = s.used
  population : s'.population = s.population
  stale : s'.stale = s.stale

theorem Grown.bit {s s' : Bitset} {room : ℕ} (h : Grown s s' room) (i : ℕ) : bit s' i = bit s i := by
  rw [Bitset.bit, Bitset.bit, h.words]

theorem Grown.sound {s s' : Bitset} {room : ℕ} (h : Grown s s' room) (hs : Sound s) : Sound s' where
  length := h.length
  used_le := by
    rw [h.used]
    exact hs.used_le.trans h.capacity
  bound := by
    rw [h.used]
    exact hs.bound
  zero w hw := by
    rw [h.words]
    exact hs.zero w (h.used ▸ hw)

theorem Grown.rep {s s' : Bitset} {room : ℕ} {t : Finset ℕ} (h : Grown s s' room) (hs : Rep s t) : Rep s' t where
  toSound := h.sound hs.toSound
  mem i := by rw [h.bit, hs.mem]
  population hstale := by
    rw [h.population]
    exact hs.population (h.stale ▸ hstale)

theorem wordsFor_pos (bits : ℤ) : 0 < wordsFor bits := by
  rw [wordsFor]
  split
  · omega
  · decide

theorem wordsFor_succ (n : ℕ) : wordsFor ((n : ℤ) + 1) = n / 32 + 1 := by
  rw [wordsFor, BIT_MASK, BITS_PER_WORD]
  rw [if_pos (by omega)]
  omega

theorem wordsFor_words {n : ℕ} (hn : 0 < n) : wordsFor ((n * BITS_PER_WORD : ℕ) : ℤ) = n := by
  rw [wordsFor, BIT_MASK, BITS_PER_WORD]
  rw [if_pos (by omega)]
  omega

theorem reserve_grown {s : Bitset} (hs : Sound s) (bits : ℤ) (hbits : bits ≤ 2 ^ 31) :
    ∃ s', reserve s bits = .ok s' ∧ Grown s s' (wordsFor bits) := by
  have hmax : bits ≤ MAX_INDEX + 1 := by
    rw [MAX_INDEX]
    omega
  rw [reserve, if_neg (not_not.mpr hmax)]
  dsimp only
  by_cases hneeded : wordsFor bits ≤ s.capacity
  · rw [if_pos hneeded]
    exact ⟨s, rfl, fun _ => rfl, hs.length, hneeded, le_rfl, rfl, rfl, rfl⟩
  · rw [if_neg hneeded]
    refine ⟨_, rfl, ?_, ?_, ?_, ?_, rfl, rfl, rfl⟩
    · intro w
      rw [wordAt, wordAt, List.take_of_length_le hs.length.le, List.getD_eq_getElem?_getD,
        List.getD_eq_getElem?_getD]
      by_cases hw : w < s.words.length
      · rw [List.getElem?_append_left hw]
      · rw [List.getElem?_append_right (not_lt.mp hw), getD_replicate, List.getElem?_eq_none (not_lt.mp hw),
          Option.getD_none]
    · rw [List.length_append, List.length_take, List.length_replicate, hs.length, Nat.min_self]
      dsimp only
      split <;> omega
    · dsimp only
      split <;> omega
    · dsimp only
      split <;> omega

theorem reserve_tooMany (s : Bitset) {bits : ℤ} (hbits : ¬bits ≤ 2 ^ 31) : reserve s bits = .error tooMany := by
  have hmax : ¬bits ≤ MAX_INDEX + 1 := by
    rw [MAX_INDEX]
    omega
  rw [reserve, if_pos hmax]

/-! Construction. -/

theorem wordAt_replicate {s : Bitset} {n : ℕ} (h : s.words = List.replicate n 0#32) (w : ℕ) :
    wordAt s w = 0#32 := by
  rw [wordAt, h, List.getD_eq_getElem?_getD, getD_replicate]

theorem rep_constructor (capacitybits : Option ℤ) (h : capacitybits.getD 64 ≤ 2 ^ 31) :
    ∃ s, constructor capacitybits = .ok s ∧ Rep s ∅ := by
  have hmax : ¬capacitybits.getD DEFAULT_BITS > MAX_INDEX + 1 := by
    rw [DEFAULT_BITS, MAX_INDEX]
    omega
  refine ⟨_, by rw [constructor]; dsimp only; rw [if_neg hmax], ?_⟩
  constructor
  · refine ⟨List.length_replicate, Nat.zero_le _, Nat.zero_le _, fun w _ => wordAt_replicate rfl w⟩
  · intro i
    rw [bit, wordAt_replicate rfl, BitVec.getLsbD_zero]
    simp
  · intro _
    rfl

theorem constructor_tooMany {capacitybits : Option ℤ} (h : ¬capacitybits.getD 64 ≤ 2 ^ 31) :
    constructor capacitybits = .error tooMany := by
  have hmax : capacitybits.getD DEFAULT_BITS > MAX_INDEX + 1 := by
    rw [DEFAULT_BITS, MAX_INDEX]
    omega
  rw [constructor]
  dsimp only
  rw [if_pos hmax]

/-! Setting. -/

/-- The word of a position gains its bit. -/
theorem rep_store_insert {s : Bitset} {t : Finset ℕ} (hs : Rep s t) {n : ℕ} (hn : n < 2 ^ 31)
    (hroom : n / 32 < s.capacity) (hn' : n ∉ t) :
    Rep { s.store (n / 32) (bor (s.at (n / 32)) (lshift 1 (band (n : ℤ) BIT_MASK))) with
      population := if s.stale then s.population else s.population + 1
      used := if n / 32 ≥ s.used then n / 32 + 1 else s.used } (insert n t) := by
  have hlength : n / 32 < s.words.length := by
    rw [hs.length]
    exact hroom
  have hbits := bit_store s (bor (s.at (n / 32)) (lshift 1 (band (n : ℤ) BIT_MASK))) hlength
  have hwords := fun u => wordAt_store s (n / 32) u (bor (s.at (n / 32)) (lshift 1 (band (n : ℤ) BIT_MASK))) hlength
  constructor
  · refine ⟨?_, ?_, ?_, ?_⟩
    · exact (length_store _ _ _).trans hs.length
    · have hle := hs.used_le
      dsimp only [store_capacity]
      split <;> omega
    · have hle := hs.bound
      dsimp only
      split <;> omega
    · intro w hw
      dsimp only at hw
      have hne : w ≠ n / 32 := by
        split at hw <;> omega
      have hge : s.used ≤ w := by
        split at hw <;> omega
      exact ((hwords w).trans (if_neg hne)).trans (hs.zero w hge)
  · intro i
    refine Finset.mem_insert.trans ?_
    rw [hs.mem i]
    refine Iff.trans ?_ (iff_of_eq (congrArg (· = true) (hbits i).symm))
    by_cases hi : i / 32 = n / 32
    · rw [if_pos hi, word_bor, word_at, BitVec.getLsbD_or, getLsbD_mask hn, ← hi, ← bit, Bool.or_eq_true,
        decide_eq_true_eq, or_comm]
      refine or_congr_right ?_
      constructor
      · rintro rfl
        rfl
      · intro hmod
        omega
    · rw [if_neg hi]
      constructor
      · rintro (rfl | hbit)
        · exact absurd rfl hi
        · exact hbit
      · exact Or.inr
  · intro hstale
    have hstale' : s.stale = false := hstale
    rw [Finset.card_insert_of_notMem hn']
    dsimp only
    rw [hstale', if_neg Bool.false_ne_true, hs.population hstale']
    rfl

theorem rep_set {s : Bitset} {t : Finset ℕ} (hs : Rep s t) {n : ℕ} (hn : n < 2 ^ 31) :
    ∃ s', set s n = .ok s' ∧ Rep s' (insert n t) := by
  have hgrown : ∃ s', (if n / 32 ≥ s.capacity then reserve s ((n : ℤ) + 1) else .ok s) = .ok s' ∧ Rep s' t ∧
      n / 32 < s'.capacity := by
    by_cases hroom : n / 32 ≥ s.capacity
    · obtain ⟨s', hreserve, hgrown⟩ := reserve_grown hs.toSound ((n : ℤ) + 1) (by omega)
      have hcapacity := hgrown.room
      rw [wordsFor_succ] at hcapacity
      exact ⟨s', by rw [if_pos hroom, hreserve], hgrown.rep hs, hcapacity⟩
    · exact ⟨s, by rw [if_neg hroom], hs, not_le.mp hroom⟩
  obtain ⟨s', hreserve, hs', hroom⟩ := hgrown
  rw [set, if_neg (not_not.mpr (isPosition_natCast hn))]
  dsimp only
  rw [toNat_rshift hn, hreserve, ok_bind]
  by_cases hmem : n ∈ t
  · have hbit : ¬band (s'.at (n / 32)) (lshift 1 (band (n : ℤ) BIT_MASK)) = 0 := by
      rw [band_mask_eq_zero_iff s' hn, (hs'.mem n).mp hmem]
      exact Bool.noConfusion
    rw [if_neg hbit, Finset.insert_eq_of_mem hmem]
    exact ⟨s', rfl, hs'⟩
  · have hbit : band (s'.at (n / 32)) (lshift 1 (band (n : ℤ) BIT_MASK)) = 0 := by
      rw [band_mask_eq_zero_iff s' hn, ← Bool.not_eq_true, ← hs'.mem]
      exact hmem
    rw [if_pos hbit]
    exact ⟨_, rfl, rep_store_insert hs' hn hroom hmem⟩

theorem set_badIndex (s : Bitset) {index : ℤ} (h : ¬isPosition index = true) : set s index = .error badIndex := by
  rw [set, if_pos h]

/-! Clearing. -/

theorem rep_clear {s : Bitset} {t : Finset ℕ} (hs : Rep s t) {n : ℕ} (hn : n < 2 ^ 31) :
    Rep (clear s n) (t.erase n) := by
  rw [clear, if_neg (not_not.mpr (isPosition_natCast hn))]
  dsimp only
  rw [toNat_rshift hn]
  by_cases hmem : n ∈ t
  · have hused := hs.lt_used hmem
    have hlength : n / 32 < s.words.length := by
      rw [hs.length]
      exact hused.trans_le hs.used_le
    have hbit : band (s.at (n / 32)) (lshift 1 (band (n : ℤ) BIT_MASK)) ≠ 0 := by
      rw [ne_eq, band_mask_eq_zero_iff s hn, (hs.mem n).mp hmem]
      exact Bool.noConfusion
    have hbits := bit_store s (band (s.at (n / 32)) (bnot (lshift 1 (band (n : ℤ) BIT_MASK)))) hlength
    have hwords := fun u => wordAt_store s (n / 32) u (band (s.at (n / 32)) (bnot (lshift 1 (band (n : ℤ) BIT_MASK))))
      hlength
    rw [if_neg (not_le.mpr hused), if_pos hbit]
    constructor
    · refine ⟨(length_store _ _ _).trans hs.length, hs.used_le, hs.bound, ?_⟩
      intro w hw
      have hge : s.used ≤ w := hw
      exact ((hwords w).trans (if_neg (by omega))).trans (hs.zero w hge)
    · intro i
      rw [Finset.mem_erase, hs.mem i]
      refine Iff.trans ?_ (iff_of_eq (congrArg (· = true) (hbits i).symm))
      by_cases hi : i / 32 = n / 32
      · rw [if_pos hi, word_band, word_bnot, word_at, BitVec.getLsbD_and, BitVec.getLsbD_not, getLsbD_mask hn, ← hi,
          ← bit, decide_eq_true (offset_lt i), Bool.true_and, Bool.and_eq_true, and_comm, Bool.not_eq_true',
          decide_eq_false_iff_not]
        refine and_congr_right fun _ => not_congr ?_
        constructor
        · rintro rfl
          rfl
        · intro hmod
          omega
      · rw [if_neg hi]
        exact ⟨And.right, fun hbit => ⟨fun heq => hi (by rw [heq]), hbit⟩⟩
    · intro hstale
      have hstale' : s.stale = false := hstale
      have hpos := Finset.card_pos.mpr ⟨n, hmem⟩
      have hcard : s.population - 1 = ((t.erase n).card : ℤ) := by
        rw [Finset.card_erase_of_mem hmem, hs.population hstale']
        omega
      exact (if_neg (by rw [store_stale, hstale']; exact Bool.false_ne_true)).trans hcard
  · rw [Finset.erase_eq_of_notMem hmem]
    by_cases hused : n / 32 ≥ s.used
    · rw [if_pos hused]
      exact hs
    · have hbit : band (s.at (n / 32)) (lshift 1 (band (n : ℤ) BIT_MASK)) = 0 := by
        rw [band_mask_eq_zero_iff s hn, ← Bool.not_eq_true, ← hs.mem]
        exact hmem
      rw [if_neg hused, if_neg (not_not.mpr hbit)]
      exact hs

theorem clear_of_not_isPosition (s : Bitset) {index : ℤ} (h : ¬isPosition index = true) : clear s index = s := by
  rw [clear, if_pos h]

/-! Clearing all. -/

theorem rep_clearall {s : Bitset} {t : Finset ℕ} (hs : Rep s t) : Rep (clearall s) ∅ := by
  have hword : ∀ w, wordAt (clearall s) w = 0#32 := by
    intro w
    rw [clearall]
    by_cases hused : s.used > 0
    · simp only [if_pos hused, wordAt, List.getD_eq_getElem?_getD]
      by_cases hw : w < s.used
      · rw [List.getElem?_append_left (by rw [List.length_replicate]; exact hw), List.getElem?_replicate, if_pos hw]
        rfl
      · rw [List.getElem?_append_right (by rw [List.length_replicate]; exact not_lt.mp hw), List.length_replicate,
          List.getElem?_drop, Nat.add_sub_cancel' (not_lt.mp hw)]
        have hzero := hs.zero w (not_lt.mp hw)
        rwa [wordAt, List.getD_eq_getElem?_getD] at hzero
    · simp only [if_neg hused]
      exact hs.zero w (by omega)
  have hfields : (clearall s).words.length = s.words.length ∧ (clearall s).capacity = s.capacity ∧
      (clearall s).used = 0 ∧ (clearall s).population = 0 := by
    have hle := hs.used_le
    have hlength := hs.length
    rw [clearall]
    by_cases hused : s.used > 0
    · simp only [if_pos hused, List.length_append, List.length_replicate, List.length_drop, and_true]
      omega
    · simp only [if_neg hused, and_true, true_and]
      omega
  obtain ⟨hlength, hcapacity, hused, hpopulation⟩ := hfields
  constructor
  · exact ⟨by rw [hlength, hcapacity, hs.length], by omega, by omega, fun w _ => hword w⟩
  · intro i
    rw [bit, hword, BitVec.getLsbD_zero]
    simp
  · intro _
    rw [hpopulation]
    rfl

theorem rep_setonly {s : Bitset} {t : Finset ℕ} (hs : Rep s t) {n : ℕ} (hn : n < 2 ^ 31) :
    ∃ s', setonly s n = .ok s' ∧ Rep s' {n} := by
  obtain ⟨s', hset, hs'⟩ := rep_set (rep_clearall hs) hn
  refine ⟨s', ?_, hs'⟩
  rw [setonly, if_neg (not_not.mpr (isPosition_natCast hn)), hset]

theorem setonly_badIndex (s : Bitset) {index : ℤ} (h : ¬isPosition index = true) :
    setonly s index = .error badIndex := by
  rw [setonly, if_pos h]

/-! Counting. -/

theorem count_eq {s : Bitset} {t : Finset ℕ} (hs : Rep s t) : (count s).1 = t.card := by
  rw [count]
  by_cases hstale : s.stale = true
  · rw [if_neg (not_not.mpr hstale)]
    have htotal : ∀ n ≤ s.used, forWords 0 n (fun w total => total + (popcount (s.at w) : ℤ)) 0 =
        ((∑ w ∈ Finset.range n, bitCount (wordAt s w) : ℕ) : ℤ) := by
      intro n _
      refine forWords_rec (fun w total => total = ((∑ u ∈ Finset.range w, bitCount (wordAt s u) : ℕ) : ℤ))
        (Nat.zero_le n) rfl ?_
      intro w total _ _ htotal
      rw [htotal, popcount_eq, word_at, Finset.sum_range_succ, Nat.cast_add]
    dsimp only
    rw [htotal s.used le_rfl, card_eq_sum hs.mem hs.zero]
  · rw [if_pos hstale]
    exact hs.population (Bool.not_eq_true _ ▸ hstale)

theorem rep_count {s : Bitset} {t : Finset ℕ} (hs : Rep s t) : Rep (count s).2 t := by
  have hcount := count_eq hs
  rw [count] at hcount ⊢
  by_cases hstale : s.stale = true
  · rw [if_neg (not_not.mpr hstale)] at hcount ⊢
    exact ⟨⟨hs.length, hs.used_le, hs.bound, hs.zero⟩, hs.mem, fun _ => hcount⟩
  · rw [if_pos hstale]
    exact hs

theorem isempty_eq {s : Bitset} {t : Finset ℕ} (hs : Rep s t) : (isempty s).1 = decide (t = ∅) := by
  have hzero : (count s).1 = 0 ↔ t = ∅ := by
    rw [count_eq hs, Nat.cast_eq_zero, Finset.card_eq_zero]
  exact decide_eq_decide.mpr hzero

end Nupp.Bitset
