import Nupp.Util.BitsetUpdate

/-! What the operations that only read answer. -/

namespace Nupp.Bitset

open LuaBit

theorem get_eq {s : Bitset} {t : Finset ℕ} (hs : Rep s t) {n : ℕ} (hn : n < 2 ^ 31) :
    get s n = decide (n ∈ t) := by
  rw [get, if_neg (not_not.mpr (isPosition_natCast hn))]
  dsimp only
  rw [toNat_rshift hn]
  by_cases hused : n / 32 ≥ s.used
  · rw [if_pos hused, decide_eq_false fun hmem => absurd (hs.lt_used hmem) (not_lt.mpr hused)]
  · rw [if_neg hused]
    refine decide_eq_decide.mpr ?_
    rw [ne_eq, band_mask_eq_zero_iff s hn, hs.mem, Bool.not_eq_false]

theorem get_of_not_isPosition (s : Bitset) {index : ℤ} (h : ¬isPosition index = true) : get s index = false := by
  rw [get, if_pos h]

/-- The word whose bits below `n` are given by `p`. -/
def wordBelow (p : ℕ → Bool) : ℕ → Word
  | 0 => 0#32
  | n + 1 => if p n then wordBelow p n ||| 1#32 <<< n else wordBelow p n

theorem getLsbD_wordBelow (p : ℕ → Bool) {n : ℕ} (hn : n ≤ 32) (b : ℕ) :
    (wordBelow p n).getLsbD b = (decide (b < n) && p b) := by
  induction n with
  | zero => rw [wordBelow, BitVec.getLsbD_zero, decide_eq_false (Nat.not_lt_zero b), Bool.false_and]
  | succ n ih =>
    have hbit : (1#32 <<< n).getLsbD b = decide (b = n) := by
      have hshift := getLsbD_bit (b := b) (show n < 32 by omega)
      rwa [word_lshift 1 (by omega), word_one] at hshift
    have hlt : decide (b < n + 1) = (decide (b < n) || decide (b = n)) := by
      rw [← Bool.decide_or]
      exact decide_eq_decide.mpr (by omega)
    rw [wordBelow]
    by_cases hp : p n = true
    · rw [if_pos hp, BitVec.getLsbD_or, ih (by omega), hbit, hlt, Bool.and_or_distrib_right]
      congr 1
      by_cases hb : b = n
      · rw [decide_eq_true hb, hb, hp, Bool.and_true]
      · rw [decide_eq_false hb, Bool.false_and]
    · rw [if_neg hp, ih (by omega), hlt, Bool.and_or_distrib_right]
      by_cases hb : b = n
      · rw [hb, eq_false_of_ne_true hp, Bool.and_false, Bool.and_false, Bool.or_false]
      · rw [decide_eq_false hb, Bool.false_and, Bool.or_false]

/-- The word of a set that a bitset stores at `w`. -/
def wordOf (t : Finset ℕ) (w : ℕ) : Word := wordBelow (fun b => decide (32 * w + b ∈ t)) 32

theorem wordOf_eq {s : Bitset} {t : Finset ℕ} (hs : Rep s t) (w : ℕ) : wordOf t w = wordAt s w := by
  refine BitVec.eq_of_getLsbD_eq fun b hb => ?_
  rw [wordOf, getLsbD_wordBelow _ le_rfl, decide_eq_true hb, Bool.true_and, ← bit_of_word s w b hb]
  simp only [hs.mem, Bool.decide_eq_true]

theorem wordat_eq {s : Bitset} {t : Finset ℕ} (hs : Rep s t) (index : ℤ) :
    wordat s index = if 0 ≤ index then (wordOf t index.toNat).toInt else 0 := by
  rw [wordat]
  by_cases hindex : 0 ≤ index
  · rw [if_pos hindex]
    by_cases hused : index < s.used
    · rw [if_neg (not_not.mpr ⟨hindex, hused⟩), wordOf_eq hs, at_eq]
    · rw [if_pos fun h => hused h.2, wordOf_eq hs, hs.zero _ (by omega), BitVec.toInt_zero]
  · rw [if_neg hindex, if_pos fun h => hindex h.1]

/-! Walks. -/

/-- The members at or after a position, in order. -/
def membersFrom (t : Finset ℕ) (start : ℤ) : List ℕ := (t.filter fun i : ℕ => start ≤ (i : ℤ)).sort (· ≤ ·)

def firstOr : List ℕ → ℤ
  | [] => -1
  | i :: _ => i

/-- The positions that the word `w` holds. -/
def positionsOf (w : ℕ) (bits : Word) : List ℕ := (ascending bits).map (32 * w + ·)

/-- The word `w` without the bits before the start of a walk. -/
def walkWord (s : Bitset) (start w : ℕ) : ℤ := if w = start / 32 then partialWord s (start / 32) start else s.at w

def walk (s : Bitset) (start : ℕ) : List ℕ :=
  (List.range' (start / 32) (s.used - start / 32)).flatMap fun w => positionsOf w (word (walkWord s start w))

theorem mem_positionsOf {w i : ℕ} {bits : Word} :
    i ∈ positionsOf w bits ↔ i / 32 = w ∧ bits.getLsbD (i % 32) = true := by
  rw [positionsOf, List.mem_map]
  constructor
  · rintro ⟨b, hb, rfl⟩
    rw [mem_ascending] at hb
    have hlt := lt_of_getLsbD hb
    rw [show (32 * w + b) / 32 = w by omega, show (32 * w + b) % 32 = b by omega]
    exact ⟨rfl, hb⟩
  · rintro ⟨rfl, hbit⟩
    exact ⟨i % 32, mem_ascending.mpr hbit, by omega⟩

theorem positionsOf_sorted (w : ℕ) (bits : Word) : (positionsOf w bits).Pairwise (· < ·) :=
  (ascending_sorted bits).map _ fun _ _ hlt => Nat.add_lt_add_left hlt _

theorem getLsbD_partialWord (s : Bitset) {start : ℕ} (hstart : start < 2 ^ 31) {b : ℕ} (hb : b < 32) :
    (word (partialWord s (start / 32) start)).getLsbD b =
      ((wordAt s (start / 32)).getLsbD b && decide (start % 32 ≤ b)) := by
  rw [partialWord, band_bitMask hstart]
  by_cases hoffset : ((start % 32 : ℕ) : ℤ) ≠ 0
  · rw [if_pos hoffset, word_band, word_at, BitVec.getLsbD_and, getLsbD_head (offset_lt start)]
    congr 1
    exact decide_eq_decide.mpr (and_iff_left hb)
  · rw [if_neg hoffset, word_at, decide_eq_true (by omega), Bool.and_true]

theorem getLsbD_walkWord (s : Bitset) {start : ℕ} (hstart : start < 2 ^ 31) {i : ℕ} (hi : start / 32 ≤ i / 32) :
    (word (walkWord s start (i / 32))).getLsbD (i % 32) = (bit s i && decide (start ≤ i)) := by
  rw [walkWord]
  by_cases hfirst : i / 32 = start / 32
  · rw [if_pos hfirst, getLsbD_partialWord s hstart (offset_lt i), ← hfirst, ← bit]
    congr 1
    exact decide_eq_decide.mpr (by omega)
  · rw [if_neg hfirst, word_at, ← bit, decide_eq_true (by omega), Bool.and_true]

theorem mem_walk {s : Bitset} {t : Finset ℕ} (hs : Rep s t) {start : ℕ} (hstart : start < 2 ^ 31) {i : ℕ} :
    i ∈ walk s start ↔ i ∈ t ∧ start ≤ i := by
  rw [walk, List.mem_flatMap, hs.mem]
  constructor
  · rintro ⟨w, hw, hi⟩
    obtain ⟨rfl, hbit⟩ := mem_positionsOf.mp hi
    rw [List.mem_range'_1] at hw
    rw [getLsbD_walkWord s hstart hw.1, Bool.and_eq_true, decide_eq_true_eq] at hbit
    exact hbit
  · rintro ⟨hbit, hi⟩
    have hused := hs.toSound.lt_of_bit hbit
    refine ⟨i / 32, List.mem_range'_1.mpr (by omega), mem_positionsOf.mpr ⟨rfl, ?_⟩⟩
    rw [getLsbD_walkWord s hstart (by omega), hbit, decide_eq_true hi, Bool.and_true]

theorem walk_sorted (s : Bitset) (start : ℕ) : (walk s start).Pairwise (· < ·) := by
  rw [walk, List.pairwise_flatMap]
  refine ⟨fun w _ => positionsOf_sorted w _, ?_⟩
  refine (List.pairwise_lt_range' 1).imp fun {w u} hlt i hi j hj => ?_
  have hi := (mem_positionsOf.mp hi).1
  have hj := (mem_positionsOf.mp hj).1
  omega

/-- The walk visits the members at or after its start, in order. -/
theorem walk_eq {s : Bitset} {t : Finset ℕ} (hs : Rep s t) {start : ℕ} (hstart : start < 2 ^ 31) :
    walk s start = membersFrom t start := by
  have hmembers : (membersFrom t start).Pairwise (· ≤ ·) := Finset.pairwise_sort _ _
  have hperm : (walk s start).Perm (membersFrom t start) := by
    refine (List.perm_ext_iff_of_nodup ((walk_sorted s start).imp Nat.ne_of_lt) (Finset.sort_nodup _ _)).mpr ?_
    intro i
    rw [mem_walk hs hstart, Finset.mem_sort, Finset.mem_filter, Nat.cast_le]
  exact List.Perm.eq_of_pairwise' ((walk_sorted s start).imp Nat.le_of_lt) hmembers hperm

theorem membersFrom_of_neg (t : Finset ℕ) {start : ℤ} (h : start < 0) : membersFrom t start = membersFrom t 0 := by
  rw [membersFrom, membersFrom]
  congr 1
  refine Finset.filter_congr fun i _ => ?_
  omega

theorem membersFrom_of_ge {t : Finset ℕ} {start : ℤ}
    (h : ∀ i ∈ t, ¬start ≤ (i : ℤ)) : membersFrom t start = [] := by
  rw [membersFrom, Finset.filter_eq_empty_iff.mpr fun i hi => h i hi]
  exact Finset.sort_empty _

theorem lshift_wordShift {w : ℕ} (hw : w < 2 ^ 26) : lshift (w : ℤ) WORD_SHIFT = ((32 * w : ℕ) : ℤ) := by
  have hshift : lshift w ((5 : ℕ) : ℤ) = (w * 32 : ℕ) := lshift_natCast (by omega) (by decide)
  rw [Nat.mul_comm]
  exact hshift

theorem word_eq_zero_iff (w : Word) : w.toInt = 0 ↔ w = 0#32 := by rw [← BitVec.toInt_inj, BitVec.toInt_zero]

theorem partialWord_eq_toInt (s : Bitset) (first : ℕ) (start : ℤ) :
    partialWord s first start = (word (partialWord s first start)).toInt := by
  rw [partialWord]
  split
  · rw [band, word_toInt]
  · rw [at_eq, word_toInt]

theorem walkWord_eq_toInt (s : Bitset) (start w : ℕ) :
    walkWord s start w = (word (walkWord s start w)).toInt := by
  rw [walkWord]
  split
  · exact partialWord_eq_toInt s _ _
  · rw [at_eq, word_toInt]

theorem positionsOf_zero (w : ℕ) : positionsOf w 0#32 = [] := by
  rw [positionsOf, ascending_zero, List.map_nil]

theorem positionsOf_eq_cons (w : ℕ) {x : ℤ} (hx : word x ≠ 0#32) :
    positionsOf w (word x) = (32 * w + lowestBit x) :: positionsOf w (word (band x (x - 1))) := by
  rw [positionsOf, ascending_eq_cons hx, List.map_cons, positionsOf]

/-- The scan for the first word with a bit. -/
theorem firstOr_scan (s : Bitset) (ws : List ℕ) (hws : ∀ w ∈ ws, w < 2 ^ 26) :
    (match ws.find? fun w => s.at w ≠ 0 with
      | some w => lshift w WORD_SHIFT + lowestBit (s.at w)
      | none => -1) = firstOr (ws.flatMap fun w => positionsOf w (word (s.at w))) := by
  induction ws with
  | nil => rfl
  | cons w ws ih =>
    have ih := ih fun u hu => hws u (List.mem_cons_of_mem w hu)
    by_cases hw : s.at w = 0
    · have hword : word (s.at w) = 0#32 := by rw [hw]; rfl
      rw [List.find?_cons_of_neg (by simp [hw]), ih, List.flatMap_cons, hword, positionsOf_zero, List.nil_append]
    · have hword : word (s.at w) ≠ 0#32 := by
        rw [word_at, ne_eq, ← word_eq_zero_iff]
        exact hw
      rw [List.find?_cons_of_pos (by simp [hw]), List.flatMap_cons, positionsOf_eq_cons w hword, List.cons_append,
        firstOr]
      dsimp only
      rw [lshift_wordShift (hws w List.mem_cons_self)]
      push_cast
      rfl

theorem nextsetbit_nat {s : Bitset} {t : Finset ℕ} (hs : Rep s t) {start : ℕ} (hstart : start < 2 ^ 31) :
    nextsetbit s start = firstOr (membersFrom t start) := by
  have hbound := hs.bound
  rw [nextsetbit, ← walk_eq hs hstart, walk, if_neg (by omega : ¬(start : ℤ) < 0),
    if_neg (by rw [MAX_INDEX]; omega : ¬¬(start : ℤ) ≤ MAX_INDEX)]
  dsimp only
  rw [toNat_rshift hstart]
  by_cases hused : start / 32 ≥ s.used
  · rw [if_pos hused, Nat.sub_eq_zero_of_le hused]
    rfl
  · have hrange : List.range' (start / 32) (s.used - start / 32) =
        start / 32 :: List.range' (start / 32 + 1) (s.used - (start / 32 + 1)) := by
      rw [show s.used - start / 32 = s.used - (start / 32 + 1) + 1 by omega, List.range'_succ]
    have hrest : ∀ w ∈ List.range' (start / 32 + 1) (s.used - (start / 32 + 1)),
        walkWord s start w = s.at w ∧ w < 2 ^ 26 := by
      intro w hw
      rw [List.mem_range'_1] at hw
      exact ⟨by rw [walkWord, if_neg (by omega)], by omega⟩
    have hscan := firstOr_scan s _ fun w hw => (hrest w hw).2
    have hwalk : walkWord s start (start / 32) = partialWord s (start / 32) start := by rw [walkWord, if_pos rfl]
    rw [if_neg hused, hrange, List.flatMap_cons, hwalk,
      List.flatMap_congr fun w hw => by rw [(hrest w hw).1]]
    by_cases hzero : partialWord s (start / 32) start = 0
    · have hword : word (partialWord s (start / 32) start) = 0#32 := by rw [hzero]; rfl
      rw [if_neg (not_not.mpr hzero), hword, positionsOf_zero, List.nil_append]
      exact hscan
    · have hword : word (partialWord s (start / 32) start) ≠ 0#32 := by
        rw [ne_eq, ← word_eq_zero_iff, ← partialWord_eq_toInt]
        exact hzero
      rw [if_pos hzero, positionsOf_eq_cons _ hword, List.cons_append, firstOr, lshift_wordShift (by omega)]
      push_cast
      rfl

theorem membersFrom_past {s : Bitset} {t : Finset ℕ} (hs : Rep s t) {start : ℤ} (h : ¬start ≤ MAX_INDEX) :
    membersFrom t start = [] := by
  refine membersFrom_of_ge fun i hi => ?_
  have hlt := hs.lt hi
  rw [MAX_INDEX] at h
  omega

theorem nextsetbit_eq {s : Bitset} {t : Finset ℕ} (hs : Rep s t) (start : ℤ) :
    nextsetbit s start = firstOr (membersFrom t start) := by
  by_cases hneg : start < 0
  · rw [membersFrom_of_neg t hneg]
    refine Eq.trans ?_ (@nextsetbit_nat s t hs 0 (by decide))
    rw [nextsetbit, if_pos hneg, nextsetbit, if_neg (by decide : ¬((0 : ℕ) : ℤ) < 0)]
    rfl
  · by_cases hmax : start ≤ MAX_INDEX
    · obtain ⟨n, rfl⟩ := Int.eq_ofNat_of_zero_le (not_lt.mp hneg)
      exact nextsetbit_nat hs (by rw [MAX_INDEX] at hmax; omega)
    · rw [membersFrom_past hs hmax, nextsetbit, if_neg hneg]
      dsimp only
      rw [if_pos hmax]
      rfl

/-! Extraction. -/

/-- The positions of one word fill the target, or all fit. -/
theorem writeWord_eq {w : ℕ} (hw : w < 2 ^ 26) (capacity : ℕ) (n : ℕ) (x : ℤ) (out : List ℤ)
    (hn : (positionsOf w (word x)).length ≤ n) (hx : x = (word x).toInt) (hout : out.length ≤ capacity) :
    writeWord (lshift w WORD_SHIFT) capacity n x out =
      (out ++ ((positionsOf w (word x)).take (capacity - out.length)).map (Nat.cast),
        ((positionsOf w (word x)).drop (capacity - out.length)).head?.map (Nat.cast)) := by
  induction n generalizing x out with
  | zero =>
    rw [List.length_eq_zero_iff.mp (Nat.le_zero.mp hn), writeWord, List.take_nil, List.drop_nil, List.map_nil,
      List.append_nil]
    rfl
  | succ n ih =>
    rw [writeWord]
    by_cases hzero : x = 0
    · have hword : word x = 0#32 := by rw [hzero]; rfl
      rw [if_pos hzero, hword, positionsOf_zero, List.take_nil, List.drop_nil, List.map_nil, List.append_nil]
      rfl
    · have hword : word x ≠ 0#32 := by
        rw [ne_eq, ← word_eq_zero_iff, ← hx]
        exact hzero
      rw [if_neg hzero, lshift_wordShift hw]
      dsimp only
      rw [positionsOf_eq_cons w hword] at hn ⊢
      by_cases hfull : (out.length : ℤ) ≥ capacity
      · have hroom : capacity - out.length = 0 := by omega
        rw [if_pos hfull, hroom, List.take_zero, List.map_nil, List.append_nil, List.drop_zero, List.head?_cons]
        push_cast
        rfl
      · obtain ⟨k, hk⟩ : ∃ k, capacity - out.length = k + 1 := ⟨capacity - out.length - 1, by omega⟩
        have hnext := ih (band x (x - 1)) (out ++ [((32 * w + lowestBit x : ℕ) : ℤ)])
          (Nat.le_of_succ_le_succ hn) (by rw [band, word_toInt]) (by
            rw [List.length_append, List.length_singleton]
            omega)
        have hroom : capacity - (out ++ [((32 * w + lowestBit x : ℕ) : ℤ)]).length = k := by
          rw [List.length_append, List.length_singleton]
          omega
        rw [lshift_wordShift hw, hroom] at hnext
        rw [if_neg hfull, hk, List.take_succ_cons, List.drop_succ_cons, List.map_cons, ← Nat.cast_add, hnext,
          List.append_assoc]
        rfl

theorem firstOr_eq (l : List ℕ) : firstOr l = (l.head?.map (Nat.cast : ℕ → ℤ)).getD (-1) := by
  cases l <;> rfl

theorem writeWords_eq (bitsAt : ℕ → ℤ) (capacity : ℕ) (ws : List ℕ) (hws : ∀ w ∈ ws, w < 2 ^ 26)
    (hbits : ∀ w, bitsAt w = (word (bitsAt w)).toInt) (out : List ℤ) (hout : out.length ≤ capacity) :
    writeWords bitsAt capacity ws out =
      (out ++ ((ws.flatMap fun w => positionsOf w (word (bitsAt w))).take (capacity - out.length)).map (Nat.cast),
        firstOr ((ws.flatMap fun w => positionsOf w (word (bitsAt w))).drop (capacity - out.length))) := by
  induction ws generalizing out with
  | nil =>
    rw [writeWords, List.flatMap_nil, List.take_nil, List.drop_nil, List.map_nil, List.append_nil]
    rfl
  | cons w ws ih =>
    have hlength : (positionsOf w (word (bitsAt w))).length ≤ BITS_PER_WORD := by
      rw [positionsOf, List.length_map]
      exact length_ascending_le _
    have hword := writeWord_eq (hws w List.mem_cons_self) capacity BITS_PER_WORD (bitsAt w) out hlength (hbits w) hout
    rw [writeWords, hword, List.flatMap_cons, List.take_append, List.drop_append]
    by_cases hfits : (positionsOf w (word (bitsAt w))).length ≤ capacity - out.length
    · have hout' : (out ++ ((positionsOf w (word (bitsAt w))).take (capacity - out.length)).map
          (Nat.cast : ℕ → ℤ)).length ≤ capacity := by
        rw [List.length_append, List.length_map, List.length_take]
        omega
      have hrest := ih (fun u hu => hws u (List.mem_cons_of_mem w hu)) _ hout'
      have hroom : capacity - (out ++ ((positionsOf w (word (bitsAt w))).take (capacity - out.length)).map
          (Nat.cast : ℕ → ℤ)).length = capacity - out.length - (positionsOf w (word (bitsAt w))).length := by
        rw [List.length_append, List.length_map, List.length_take]
        omega
      rw [hroom] at hrest
      rw [List.drop_of_length_le hfits, List.nil_append]
      dsimp only [List.head?_nil, Option.map_none]
      rw [hrest, List.map_append, List.append_assoc]
    · have hnone : capacity - out.length - (positionsOf w (word (bitsAt w))).length = 0 := by omega
      rw [hnone, List.take_zero, List.append_nil, List.drop_zero]
      obtain ⟨i, rest, hdrop⟩ : ∃ i rest, (positionsOf w (word (bitsAt w))).drop (capacity - out.length) = i :: rest := by
        cases hdrop : (positionsOf w (word (bitsAt w))).drop (capacity - out.length) with
        | nil => exact absurd (List.drop_eq_nil_iff.mp hdrop) hfits
        | cons i rest => exact ⟨i, rest, rfl⟩
      rw [hdrop]
      rfl

theorem positionsinto_nat {s : Bitset} {t : Finset ℕ} (hs : Rep s t) {capacity start : ℕ} (hcapacity : 0 < capacity)
    (hstart : start < 2 ^ 31) : positionsinto s capacity start =
      .ok (((membersFrom t start).take capacity).map (Nat.cast), firstOr ((membersFrom t start).drop capacity)) := by
  have hbound := hs.bound
  rw [positionsinto, if_neg (by omega), ← walk_eq hs hstart]
  dsimp only
  rw [if_neg (by omega : ¬(start : ℤ) < 0), if_neg (by rw [MAX_INDEX]; omega : ¬¬(start : ℤ) ≤ MAX_INDEX),
    toNat_rshift hstart]
  by_cases hused : start / 32 ≥ s.used
  · rw [if_pos hused, walk, Nat.sub_eq_zero_of_le hused]
    simp only [List.range'_zero, List.flatMap_nil, List.take_nil, List.drop_nil, List.map_nil]
    rfl
  · rw [if_neg hused, if_neg (by omega)]
    have hrange : ∀ w ∈ List.range' (start / 32) (s.used - start / 32), w < 2 ^ 26 := by
      intro w hw
      rw [List.mem_range'_1] at hw
      omega
    have hwords := writeWords_eq (walkWord s start) capacity _ hrange (walkWord_eq_toInt s start) []
      (Nat.zero_le capacity)
    exact congrArg Except.ok hwords

theorem positionsinto_past (s : Bitset) {capacity start : ℤ} (hcapacity : ¬capacity < 0)
    (h : ¬start ≤ MAX_INDEX) : positionsinto s capacity start = .ok ([], -1) := by
  have hneg : ¬start < 0 := by
    rw [MAX_INDEX] at h
    omega
  rw [positionsinto, if_neg hcapacity]
  dsimp only
  rw [if_neg hneg, if_pos h]

theorem positionsinto_neg (s : Bitset) {capacity start : ℤ} (h : start < 0) :
    positionsinto s capacity start = positionsinto s capacity 0 := by
  rw [positionsinto, positionsinto, if_pos h, if_neg (by decide : ¬(0 : ℤ) < 0)]

theorem positionsinto_eq {s : Bitset} {t : Finset ℕ} (hs : Rep s t) (capacity : ℕ) (hcapacity : 0 < capacity)
    (start : ℤ) : positionsinto s capacity start =
      .ok (((membersFrom t start).take capacity).map (Nat.cast), firstOr ((membersFrom t start).drop capacity)) := by
  by_cases hneg : start < 0
  · rw [membersFrom_of_neg t hneg, positionsinto_neg s hneg]
    exact @positionsinto_nat s t hs capacity 0 hcapacity (by decide)
  · by_cases hmax : start ≤ MAX_INDEX
    · obtain ⟨n, rfl⟩ := Int.eq_ofNat_of_zero_le (not_lt.mp hneg)
      exact positionsinto_nat hs hcapacity (by rw [MAX_INDEX] at hmax; omega)
    · rw [membersFrom_past hs hmax, positionsinto_past s (by omega) hmax, List.take_nil, List.drop_nil, List.map_nil]
      rfl

theorem positionsinto_badCapacity (s : Bitset) {capacity : ℤ} (start : ℤ) (h : capacity < 0) :
    positionsinto s capacity start = .error badCapacity := by
  rw [positionsinto, if_pos h]

/-- With no room nothing is written, and the walk is at its end or where it started. -/
theorem positionsinto_zero {s : Bitset} {t : Finset ℕ} (hs : Rep s t) (start : ℤ) :
    ∃ resume, positionsinto s 0 start = .ok ([], resume) ∧
      (resume = max start 0 ∨ (resume = -1 ∧ membersFrom t start = [])) := by
  have hbound := hs.bound
  by_cases hmax : start ≤ MAX_INDEX
  · have hnat : ∀ n : ℕ, n < 2 ^ 31 → ∃ resume, positionsinto s 0 n = .ok ([], resume) ∧
        (resume = (n : ℤ) ∨ (resume = -1 ∧ membersFrom t n = [])) := by
      intro n hn
      rw [positionsinto, if_neg (by decide), ← walk_eq hs hn]
      dsimp only
      rw [if_neg (by omega : ¬(n : ℤ) < 0), if_neg (by rw [MAX_INDEX]; omega : ¬¬(n : ℤ) ≤ MAX_INDEX),
        toNat_rshift hn]
      by_cases hused : n / 32 ≥ s.used
      · rw [if_pos hused]
        refine ⟨-1, rfl, Or.inr ⟨rfl, ?_⟩⟩
        rw [walk, Nat.sub_eq_zero_of_le hused]
        rfl
      · rw [if_neg hused, if_pos rfl]
        exact ⟨n, rfl, Or.inl rfl⟩
    by_cases hneg : start < 0
    · rw [membersFrom_of_neg t hneg, positionsinto_neg s hneg, max_eq_right (by omega)]
      exact hnat 0 (by decide)
    · obtain ⟨n, rfl⟩ := Int.eq_ofNat_of_zero_le (not_lt.mp hneg)
      rw [max_eq_left (by omega)]
      exact hnat n (by rw [MAX_INDEX] at hmax; omega)
  · exact ⟨-1, positionsinto_past s (by decide) hmax, Or.inr ⟨rfl, membersFrom_past hs hmax⟩⟩

/-! Two sets. -/

theorem and_eq_right_iff (v w : Word) : v &&& w = w ↔ ∀ b < 32, w.getLsbD b = true → v.getLsbD b = true := by
  constructor
  · intro h b _ hw
    have hbit := congrArg (fun x : Word => x.getLsbD b) h
    simp only [BitVec.getLsbD_and, hw, Bool.and_true] at hbit
    exact hbit
  · intro h
    refine BitVec.eq_of_getLsbD_eq fun b hb => ?_
    rw [BitVec.getLsbD_and]
    cases hw : w.getLsbD b with
    | false => rw [Bool.and_false]
    | true => rw [h b hb hw, Bool.and_true]

theorem and_eq_zero_iff (v w : Word) : v &&& w = 0#32 ↔ ∀ b < 32, v.getLsbD b = true → ¬w.getLsbD b = true := by
  constructor
  · intro h b _ hv hw
    have hbit := congrArg (fun x : Word => x.getLsbD b) h
    simp only [BitVec.getLsbD_and, hv, hw, Bool.and_true, BitVec.getLsbD_zero] at hbit
    cases hbit
  · intro h
    refine BitVec.eq_of_getLsbD_eq fun b hb => ?_
    rw [BitVec.getLsbD_and, BitVec.getLsbD_zero]
    cases hv : v.getLsbD b with
    | false => rw [Bool.false_and]
    | true => rw [eq_false_of_ne_true (h b hb hv), Bool.and_false]

theorem subset_iff_words {s o : Bitset} {t u : Finset ℕ} (hs : Rep s t) (ho : Rep o u) :
    u ⊆ t ↔ ∀ w < o.used, wordAt s w &&& wordAt o w = wordAt o w := by
  constructor
  · intro hsub w _
    refine (and_eq_right_iff _ _).mpr fun b hb hbit => ?_
    rw [← bit_of_word o w b hb, ← ho.mem] at hbit
    rw [← bit_of_word s w b hb, ← hs.mem]
    exact hsub hbit
  · intro hwords i hi
    have hbit := (ho.mem i).mp hi
    rw [hs.mem]
    exact (and_eq_right_iff _ _).mp (hwords (i / 32) (ho.lt_used hi)) (i % 32) (offset_lt i) hbit

theorem containsall_eq {s o : Bitset} {t u : Finset ℕ} (hs : Rep s t) (ho : Rep o u) :
    containsall s o = decide (u ⊆ t) := by
  rw [containsall]
  by_cases hempty : o.used = 0
  · rw [if_pos hempty, decide_eq_true]
    rw [subset_iff_words hs ho, hempty]
    intro w hw
    exact absurd hw (Nat.not_lt_zero w)
  · rw [if_neg hempty]
    dsimp only
    refine Bool.eq_iff_iff.mpr ?_
    rw [decide_eq_true_eq, subset_iff_words hs ho, Bool.and_eq_true, List.all_eq_true, List.all_eq_true]
    have hword : ∀ w, (band (s.at w) (o.at w) = o.at w ↔ wordAt s w &&& wordAt o w = wordAt o w) := by
      intro w
      rw [band, word_at, word_at, at_eq, BitVec.toInt_inj]
    constructor
    · rintro ⟨hlow, hhigh⟩ w hw
      by_cases hshared : w < if s.used < o.used then s.used else o.used
      · exact (hword w).mp (of_decide_eq_true (hlow w (List.mem_range.mpr hshared)))
      · have hzero : o.at w = 0 := of_decide_eq_true (hhigh w (List.mem_range'_1.mpr (by omega)))
        rw [at_eq, word_eq_zero_iff] at hzero
        rw [hzero, BitVec.and_zero]
    · intro hwords
      refine ⟨fun w hw => decide_eq_true ((hword w).mpr (hwords w ?_)), fun w hw => decide_eq_true ?_⟩
      · rw [List.mem_range] at hw
        split at hw <;> omega
      · rw [List.mem_range'_1] at hw
        have hle : s.used ≤ w ∧ w < o.used := by
          split at hw <;> omega
        rw [at_eq, word_eq_zero_iff, ← hwords w hle.2, hs.zero w hle.1, BitVec.zero_and]

theorem disjoint_iff_words {s o : Bitset} {t u : Finset ℕ} (hs : Rep s t) (ho : Rep o u) :
    Disjoint t u ↔ ∀ w, w < s.used → w < o.used → wordAt s w &&& wordAt o w = 0#32 := by
  rw [Finset.disjoint_left]
  constructor
  · intro hdisjoint w _ _
    refine (and_eq_zero_iff _ _).mpr fun b hb hv hw => ?_
    rw [← bit_of_word s w b hb, ← hs.mem] at hv
    rw [← bit_of_word o w b hb, ← ho.mem] at hw
    exact hdisjoint hv hw
  · intro hwords i hi hi'
    exact (and_eq_zero_iff _ _).mp (hwords (i / 32) (hs.lt_used hi) (ho.lt_used hi')) (i % 32) (offset_lt i)
      ((hs.mem i).mp hi) ((ho.mem i).mp hi')

theorem disjoint_eq {s o : Bitset} {t u : Finset ℕ} (hs : Rep s t) (ho : Rep o u) :
    disjoint s o = decide (Disjoint t u) := by
  rw [disjoint, overlaps]
  refine Bool.eq_iff_iff.mpr ?_
  rw [decide_eq_true_eq, disjoint_iff_words hs ho, Bool.not_eq_true', List.any_eq_false]
  have hword : ∀ w, (¬decide (band (s.at w) (o.at w) ≠ 0) = true ↔ wordAt s w &&& wordAt o w = 0#32) := by
    intro w
    rw [decide_eq_true_eq, not_not, band_eq_zero_iff, word_at, word_at]
  constructor
  · intro hlimit w hw hw'
    refine (hword w).mp (hlimit w (List.mem_range.mpr ?_))
    split <;> omega
  · intro hwords w hw
    rw [List.mem_range] at hw
    refine (hword w).mpr (hwords w ?_ ?_)
    · split at hw <;> omega
    · split at hw <;> omega

theorem overlaps_eq {s o : Bitset} {t u : Finset ℕ} (hs : Rep s t) (ho : Rep o u) :
    overlaps s o = decide (¬Disjoint t u) := by
  have hdisjoint := disjoint_eq hs ho
  rw [disjoint] at hdisjoint
  rw [decide_not, ← hdisjoint, Bool.not_not]

end Nupp.Bitset
