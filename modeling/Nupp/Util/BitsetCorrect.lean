import Mathlib.Data.Finset.SymmDiff
import Nupp.Util.BitsetQuery
import Nupp.Util.BitsetRange

/-! A family of bitsets answers as the family of finite sets obtained by the same operations does. -/

namespace Nupp.Bitset

open LuaBit Result

section

variable {ι : Type} [DecidableEq ι]

/-! Operations on two sets. -/

@[simp] theorem put_self (h : Sets ι) (i : ι) (s : Bitset) : h.put i s i = s := by
  rw [Sets.put, Function.update_self]

theorem put_of_ne (h : Sets ι) {i k : ι} (s : Bitset) (hk : k ≠ i) : h.put i s k = h k := by
  rw [Sets.put, Function.update_of_ne hk]

/-- The first `w` words of the set `i` are combined with those of the set `j`, and nothing else has changed. -/
structure Combined (h h' : Sets ι) (i j : ι) (operation : ℤ → ℤ → ℤ) (w : ℕ) : Prop where
  others : ∀ k ≠ i, h' k = h k
  words : ∀ u, wordAt (h' i) u = if u < w then word (operation ((h i).at u) ((h j).at u)) else wordAt (h i) u
  length : (h' i).words.length = (h i).words.length
  capacity : (h' i).capacity = (h i).capacity
  used : (h' i).used = (h i).used

theorem Combined.at_eq {h h' : Sets ι} {i j : ι} {operation : ℤ → ℤ → ℤ} {w : ℕ}
    (hc : Combined h h' i j operation w) (k : ι) : (h' k).at w = (h k).at w := by
  by_cases hk : k = i
  · rw [hk, Bitset.at_eq, Bitset.at_eq, hc.words, if_neg (lt_irrefl w)]
  · rw [hc.others k hk]

/-- Each word is read before it is written, so that an operand may be the receiver. -/
theorem combined_combine (h : Sets ι) (i j : ι) (stop : ℕ) (operation : ℤ → ℤ → ℤ)
    (hlength : stop ≤ (h i).words.length) : Combined h (combine h i j stop operation) i j operation stop := by
  refine forWords_rec (fun w h' => Combined h h' i j operation w) (Nat.zero_le stop) ?_ ?_
  · exact ⟨fun _ _ => rfl, fun u => by rw [if_neg (Nat.not_lt_zero u)], rfl, rfl, rfl⟩
  · intro w h' _ hw hc
    have hroom : w < (h' i).words.length := by
      rw [hc.length]
      omega
    refine ⟨fun k hk => (put_of_ne h' _ hk).trans (hc.others k hk), fun u => ?_, ?_, ?_, ?_⟩
    · rw [put_self, wordAt_store _ _ _ _ hroom, hc.at_eq i, hc.at_eq j, hc.words]
      by_cases hu : u = w
      · rw [if_pos hu, if_pos (by omega), hu]
      · rw [if_neg hu]
        refine if_congr ?_ rfl rfl
        omega
    · rw [put_self, length_store, hc.length]
    · rw [put_self, store_capacity, hc.capacity]
    · rw [put_self, store_used, hc.used]

/-- The fields of a set other than its words' values. -/
structure SameFields (s s' : Bitset) : Prop where
  length : s'.words.length = s.words.length
  capacity : s'.capacity = s.capacity
  used : s'.used = s.used
  population : s'.population = s.population
  stale : s'.stale = s.stale

theorem zero_fields (s : Bitset) (first stop : ℕ) : SameFields s (zero s first stop) := by
  rcases Nat.le_total first stop with hle | hle
  · refine forWords_rec (fun _ s' => SameFields s s') hle ⟨rfl, rfl, rfl, rfl, rfl⟩ ?_
    intro w s' _ _ h
    exact ⟨(length_store _ _ _).trans h.length, h.capacity, h.used, h.population, h.stale⟩
  · rw [zero, forWords_empty s hle]
    exact ⟨rfl, rfl, rfl, rfl, rfl⟩

theorem wordAt_zero (s : Bitset) (first stop : ℕ) (hlength : stop ≤ s.words.length) (u : ℕ) :
    wordAt (zero s first stop) u = if first ≤ u ∧ u < stop then 0#32 else wordAt s u := by
  rcases Nat.le_total first stop with hle | hle
  · have hloop := @forWords_rec _ (fun word (s : Bitset) => s.store word 0) _ _ s (fun w s' =>
      (∀ u, wordAt s' u = if first ≤ u ∧ u < w then 0#32 else wordAt s u) ∧ s'.words.length = s.words.length) hle
      ⟨fun u => by rw [if_neg (by omega)], rfl⟩ (by
        rintro w s' hw hlt ⟨hwords, hlength'⟩
        refine ⟨fun u => ?_, (length_store _ _ _).trans hlength'⟩
        rw [wordAt_store s' w u 0 (by omega)]
        by_cases hu : u = w
        · rw [if_pos hu, if_pos (by omega)]
          rfl
        · rw [if_neg hu, hwords]
          refine if_congr ?_ rfl rfl
          omega)
    exact hloop.1 u
  · rw [zero, forWords_empty s hle, if_neg (by omega)]

/-- Every set of the family is represented. -/
def RepAll (h : Sets ι) (t : ι → Finset ℕ) : Prop := ∀ k, Rep (h k) (t k)

/-- A family that differs from a represented one in one set. -/
theorem RepAll.of_others {h h' : Sets ι} {t : ι → Finset ℕ} (hs : RepAll h t) {i : ι} {u : Finset ℕ}
    (hothers : ∀ k ≠ i, h' k = h k) (hu : Rep (h' i) u) : RepAll h' (Function.update t i u) := by
  intro k
  by_cases hk : k = i
  · subst hk
    rw [Function.update_self]
    exact hu
  · rw [Function.update_of_ne hk, hothers k hk]
    exact hs k

theorem RepAll.put {h : Sets ι} {t : ι → Finset ℕ} (hs : RepAll h t) {i : ι} {s : Bitset} {u : Finset ℕ}
    (hu : Rep s u) : RepAll (h.put i s) (Function.update t i u) :=
  hs.of_others (fun _ hk => put_of_ne h s hk) (by rw [put_self]; exact hu)

theorem RepAll.put_same {h : Sets ι} {t : ι → Finset ℕ} (hs : RepAll h t) {i : ι} {s : Bitset}
    (hu : Rep s (t i)) : RepAll (h.put i s) t := by
  have hput := RepAll.put (i := i) hs hu
  rwa [Function.update_eq_self] at hput

/-- The receiver has room for the words of its operand. -/
theorem growTo_ok {h : Sets ι} {t : ι → Finset ℕ} (hs : RepAll h t) (i j : ι) :
    ∃ h', growTo h i (h j).used = .ok h' ∧ RepAll h' t ∧ (h j).used ≤ (h' i).capacity ∧ (h' j).used = (h j).used := by
  rw [growTo]
  by_cases hroom : (h j).used > (h i).capacity
  · have hbound := (hs j).bound
    obtain ⟨s', hreserve, hgrown⟩ := reserve_grown (hs i).toSound (((h j).used * BITS_PER_WORD : ℕ) : ℤ) (by
      rw [BITS_PER_WORD]
      omega)
    have hcapacity := hgrown.room
    rw [wordsFor_words (by omega)] at hcapacity
    rw [if_pos hroom, hreserve]
    refine ⟨h.put i s', rfl, hs.put_same (hgrown.rep (hs i)), by rw [put_self]; exact hcapacity, ?_⟩
    by_cases hj : j = i
    · rw [hj, put_self, hgrown.used]
    · rw [put_of_ne h s' hj]
  · rw [if_neg hroom]
    exact ⟨h, rfl, hs, not_lt.mp hroom, rfl⟩

theorem bit_eq_false_of_used_le {s : Bitset} (hs : Sound s) {n : ℕ} (h : s.used ≤ n / 32) : bit s n = false := by
  rw [bit, hs.zero _ h, BitVec.getLsbD_zero]

theorem wordAt_eq_zero {s : Bitset} {w : ℕ} (h : ∀ n, n / 32 = w → bit s n = false) : wordAt s w = 0#32 := by
  refine BitVec.eq_of_getLsbD_eq fun b hb => ?_
  rw [← bit_of_word s w b hb, h _ (by omega), BitVec.getLsbD_zero]

/-- What an operation on words does to each bit. -/
def Bitwise (operation : ℤ → ℤ → ℤ) (f : Bool → Bool → Bool) : Prop :=
  ∀ x y, ∀ b < 32, (word (operation x y)).getLsbD b = f ((word x).getLsbD b) ((word y).getLsbD b)

theorem bitwise_bor : Bitwise bor (· || ·) := fun x y b _ => by rw [word_bor, BitVec.getLsbD_or]
theorem bitwise_band : Bitwise band (· && ·) := fun x y b _ => by rw [word_band, BitVec.getLsbD_and]
theorem bitwise_bxor : Bitwise bxor xor := fun x y b _ => by rw [word_bxor, BitVec.getLsbD_xor]
theorem bitwise_bandnot : Bitwise (fun mine theirs => band mine (bnot theirs)) (fun a b => a && !b) := by
  intro x y b hb
  rw [word_band, word_bnot, BitVec.getLsbD_and, BitVec.getLsbD_not, decide_eq_true hb, Bool.true_and]

omit [DecidableEq ι] in
theorem Combined.bit_eq {h h' : Sets ι} {i j : ι} {operation : ℤ → ℤ → ℤ} {w : ℕ} {f : Bool → Bool → Bool}
    (hc : Combined h h' i j operation w) (hf : Bitwise operation f) (n : ℕ) :
    bit (h' i) n = if n / 32 < w then f (bit (h i) n) (bit (h j) n) else bit (h i) n := by
  rw [bit, hc.words]
  by_cases hn : n / 32 < w
  · rw [if_pos hn, if_pos hn, hf _ _ _ (offset_lt n), word_at, word_at]
    rfl
  · rw [if_neg hn, if_neg hn]
    rfl

/-- A set whose bits are those of two others combined, with a stale population. -/
theorem rep_of_bits {s o s' : Bitset} {t u v : Finset ℕ} (hs : Rep s t) (ho : Rep o u) {f : Bool → Bool → Bool}
    (hbits : ∀ n, bit s' n = f (bit s n) (bit o n)) (hv : ∀ n, n ∈ v ↔ f (n ∈ t) (n ∈ u) = true)
    (hlength : s'.words.length = s'.capacity) (hle : s'.used ≤ s'.capacity) (hbound : s'.used ≤ 2 ^ 26)
    (hzero : ∀ n, s'.used ≤ n / 32 → f (bit s n) (bit o n) = false) (hstale : s'.stale = true) : Rep s' v where
  length := hlength
  used_le := hle
  bound := hbound
  zero w hw := wordAt_eq_zero fun n hn => (hbits n).trans (hzero n (by omega))
  mem n := by
    simp only [hv, hbits, hs.mem, ho.mem, Bool.decide_eq_true]
  population hfalse := by
    rw [hstale] at hfalse
    cases hfalse

/-- The union and the symmetric difference, which keep the words that their operand does not reach. -/
theorem rep_growAndCombine {h : Sets ι} {t : ι → Finset ℕ} (hs : RepAll h t) (i j : ι) {operation : ℤ → ℤ → ℤ}
    {f : Bool → Bool → Bool} (hf : Bitwise operation f) (hkeep : ∀ a, f a false = a) {v : Finset ℕ}
    (hv : ∀ n, n ∈ v ↔ f (n ∈ t i) (n ∈ t j) = true) :
    ∃ h', growAndCombine h i j operation = .ok h' ∧ RepAll h' (Function.update t i v) := by
  rw [growAndCombine]
  by_cases hempty : (h j).used = 0
  · have hnone : ∀ n, n ∉ t j := fun n hn => absurd ((hs j).lt_used hn) (by omega)
    have hsame : v = t i := by
      ext n
      rw [hv, decide_eq_false (hnone n), hkeep, decide_eq_true_eq]
    rw [if_pos hempty, hsame, Function.update_eq_self]
    exact ⟨h, rfl, hs⟩
  · obtain ⟨h', hgrow, hs', hroom, hused⟩ := growTo_ok hs i j
    have hlength := (hs' i).length
    have hused_le := (hs' i).used_le
    have hbound := (hs' i).bound
    have hbound' := (hs j).bound
    have hc := combined_combine h' i j _ operation (hroom.trans hlength.symm.le)
    rw [if_neg hempty]
    dsimp only
    rw [hgrow, ok_bind]
    refine ⟨_, rfl, RepAll.of_others hs' (fun k hk => ?_) ?_⟩
    · rw [put_of_ne _ _ hk, hc.others k hk]
    · rw [put_self]
      refine rep_of_bits (hs' i) (hs' j) (f := f) (fun n => ?_) hv ?_ ?_ ?_ (fun n hn => ?_) rfl
      · refine (hc.bit_eq hf n).trans ?_
        by_cases hn : n / 32 < (h j).used
        · rw [if_pos hn]
        · rw [if_neg hn, bit_eq_false_of_used_le (hs' j).toSound (by omega), hkeep]
      · exact (hc.length.trans hlength).trans hc.capacity.symm
      · dsimp only
        rw [hc.used, hc.capacity]
        split <;> omega
      · dsimp only
        rw [hc.used]
        split <;> omega
      · dsimp only at hn
        rw [hc.used] at hn
        rw [bit_eq_false_of_used_le (hs' i).toSound (by split at hn <;> omega),
          bit_eq_false_of_used_le (hs' j).toSound (by split at hn <;> omega), hkeep]

theorem rep_orwith {h : Sets ι} {t : ι → Finset ℕ} (hs : RepAll h t) (i j : ι) :
    ∃ h', orwith h i j = .ok h' ∧ RepAll h' (Function.update t i (t i ∪ t j)) := by
  refine rep_growAndCombine hs i j bitwise_bor Bool.or_false fun n => ?_
  rw [Finset.mem_union, Bool.or_eq_true, decide_eq_true_eq, decide_eq_true_eq]

theorem rep_xorwith {h : Sets ι} {t : ι → Finset ℕ} (hs : RepAll h t) (i j : ι) :
    ∃ h', xorwith h i j = .ok h' ∧ RepAll h' (Function.update t i (symmDiff (t i) (t j))) := by
  refine rep_growAndCombine hs i j bitwise_bxor Bool.xor_false fun n => ?_
  rw [Finset.mem_symmDiff]
  by_cases hi : n ∈ t i <;> by_cases hj : n ∈ t j <;> simp [hi, hj]

theorem rep_andwith {h : Sets ι} {t : ι → Finset ℕ} (hs : RepAll h t) (i j : ι) :
    RepAll (andwith h i j) (Function.update t i (t i ∩ t j)) := by
  have hbound := (hs i).bound
  have hused_le := (hs i).used_le
  have hlength := (hs i).length
  rw [andwith]
  by_cases hempty : (h i).used = 0
  · have hnone : t i = ∅ := Finset.eq_empty_of_forall_notMem fun n hn => absurd ((hs i).lt_used hn) (by omega)
    have hsame : t i ∩ t j = t i := by rw [hnone, Finset.empty_inter]
    dsimp only
    rw [if_pos hempty, hsame, Function.update_eq_self]
    exact hs
  · dsimp only
    rw [if_neg hempty]
    have hshared : ∃ shared, (if (h i).used < (h j).used then (h i).used else (h j).used) = shared ∧
        shared ≤ (h i).used ∧ (shared = (h i).used ∨ shared = (h j).used) := by
      by_cases hlt : (h i).used < (h j).used
      · exact ⟨_, if_pos hlt, le_rfl, Or.inl rfl⟩
      · exact ⟨_, if_neg hlt, not_lt.mp hlt, Or.inr rfl⟩
    obtain ⟨shared, hshared, hle, hwhich⟩ := hshared
    rw [hshared]
    have hc := combined_combine h i j shared band (by omega)
    have hfields := zero_fields (combine h i j shared band i) shared (h i).used
    have hwords := wordAt_zero (combine h i j shared band i) shared (h i).used (by
      rw [hc.length]
      omega)
    -- above the shared words one of the two sets has no bits
    have hneither : ∀ n, shared ≤ n / 32 → (bit (h i) n && bit (h j) n) = false := by
      intro n hn
      rcases hwhich with rfl | rfl
      · rw [bit_eq_false_of_used_le (hs i).toSound hn, Bool.false_and]
      · rw [bit_eq_false_of_used_le (hs j).toSound hn, Bool.and_false]
    refine RepAll.of_others hs (fun k hk => ?_) ?_
    · rw [put_of_ne _ _ hk, put_of_ne _ _ hk, hc.others k hk]
    · rw [put_self, put_self]
      refine rep_of_bits (hs i) (hs j) (f := (· && ·)) (fun n => ?_) (fun n => ?_) ?_ ?_ ?_ hneither rfl
      · rw [bit, wordAt]
        dsimp only
        rw [← wordAt, hwords]
        by_cases hn : n / 32 < shared
        · rw [if_neg (by omega), ← bit, hc.bit_eq bitwise_band, if_pos hn]
        · by_cases hn' : n / 32 < (h i).used
          · rw [if_pos (by omega), hneither n (by omega), BitVec.getLsbD_zero]
          · rw [if_neg (by omega), ← bit, hc.bit_eq bitwise_band, if_neg hn, hneither n (by omega),
              bit_eq_false_of_used_le (hs i).toSound (by omega)]
      · rw [Finset.mem_inter, Bool.and_eq_true, decide_eq_true_eq, decide_eq_true_eq]
      · dsimp only
        rw [hfields.length, hfields.capacity, hc.length, hc.capacity, hlength]
      · dsimp only
        rw [hfields.capacity, hc.capacity]
        omega
      · dsimp only
        omega

theorem rep_andnotwith {h : Sets ι} {t : ι → Finset ℕ} (hs : RepAll h t) (i j : ι) :
    RepAll (andnotwith h i j) (Function.update t i (t i \ t j)) := by
  have hbound := (hs i).bound
  have hused_le := (hs i).used_le
  have hlength := (hs i).length
  rw [andnotwith]
  dsimp only
  have hlimit : ∃ limit, (if (h i).used < (h j).used then (h i).used else (h j).used) = limit ∧
      limit ≤ (h i).used ∧ (limit = (h i).used ∨ limit = (h j).used) := by
    by_cases hlt : (h i).used < (h j).used
    · exact ⟨_, if_pos hlt, le_rfl, Or.inl rfl⟩
    · exact ⟨_, if_neg hlt, not_lt.mp hlt, Or.inr rfl⟩
  obtain ⟨limit, hlimit, hle, hwhich⟩ := hlimit
  rw [hlimit]
  -- above the limit there is nothing of the first set, or nothing to take away from it
  have hkeep : ∀ n, limit ≤ n / 32 → (bit (h i) n && !bit (h j) n) = bit (h i) n := by
    intro n hn
    rcases hwhich with rfl | rfl
    · rw [bit_eq_false_of_used_le (hs i).toSound hn, Bool.false_and]
    · rw [bit_eq_false_of_used_le (hs j).toSound hn, Bool.not_false, Bool.and_true]
  have hmem : ∀ n, n ∈ t i \ t j ↔ (decide (n ∈ t i) && !decide (n ∈ t j)) = true := by
    intro n
    rw [Finset.mem_sdiff, Bool.and_eq_true, Bool.not_eq_true', decide_eq_true_eq, decide_eq_false_iff_not]
  by_cases hempty : limit = 0
  · have hsame : t i \ t j = t i := by
      ext n
      have hn := hkeep n (by omega)
      rw [hmem]
      simp only [(hs i).mem, (hs j).mem, Bool.decide_eq_true, hn]
    rw [if_pos hempty, hsame, Function.update_eq_self]
    exact hs
  · rw [if_neg hempty]
    have hc := combined_combine h i j limit (fun mine theirs => band mine (bnot theirs)) (by omega)
    refine RepAll.of_others hs (fun k hk => ?_) ?_
    · rw [put_of_ne _ _ hk, hc.others k hk]
    · rw [put_self]
      refine rep_of_bits (hs i) (hs j) (f := fun a b => a && !b) (fun n => ?_) hmem ?_ ?_ ?_ (fun n hn => ?_) rfl
      · refine (hc.bit_eq bitwise_bandnot n).trans ?_
        by_cases hn : n / 32 < limit
        · rw [if_pos hn]
        · rw [if_neg hn, hkeep n (by omega)]
      · exact (hc.length.trans hlength).trans hc.capacity.symm
      · dsimp only
        rw [hc.used, hc.capacity]
        exact hused_le
      · dsimp only
        rw [hc.used]
        exact hbound
      · dsimp only at hn
        rw [hc.used] at hn
        rw [bit_eq_false_of_used_le (hs i).toSound hn, Bool.false_and]

theorem rep_copyfrom {h : Sets ι} {t : ι → Finset ℕ} (hs : RepAll h t) (i j : ι) :
    ∃ h', copyfrom h i j = .ok h' ∧ RepAll h' (Function.update t i (t j)) := by
  obtain ⟨h', hgrow, hs', hroom, hused⟩ := growTo_ok hs i j
  have hlength := (hs' i).length
  have hlength' := (hs' j).length
  have hused_le := (hs' i).used_le
  have hused_le' := (hs' j).used_le
  have hbound := (hs' j).bound
  -- the words of the operand, with what is left of the receiver's
  have hcopied : ∃ s, (if (h j).used > 0 then
        { h' i with words := (h' j).words.take (h j).used ++ (h' i).words.drop (h j).used } else h' i) = s ∧
      (∀ u, wordAt s u = if u < (h j).used then wordAt (h' j) u else wordAt (h' i) u) ∧
      SameFields (h' i) s := by
    by_cases hpos : (h j).used > 0
    · refine ⟨_, if_pos hpos, fun u => ?_, ?_, rfl, rfl, rfl, rfl⟩
      · rw [wordAt, List.getD_eq_getElem?_getD]
        have htake : ((h' j).words.take (h j).used).length = (h j).used := by
          rw [List.length_take]
          omega
        by_cases hu : u < (h j).used
        · rw [if_pos hu, List.getElem?_append_left (by rw [htake]; exact hu), List.getElem?_take_of_lt hu, wordAt,
            List.getD_eq_getElem?_getD]
        · rw [if_neg hu, List.getElem?_append_right (by rw [htake]; exact not_lt.mp hu), htake, List.getElem?_drop,
            Nat.add_sub_cancel' (not_lt.mp hu), wordAt, List.getD_eq_getElem?_getD]
      · dsimp only
        rw [List.length_append, List.length_take, List.length_drop]
        omega
    · exact ⟨_, if_neg hpos, fun u => by rw [if_neg (by omega)], rfl, rfl, rfl, rfl, rfl⟩
  obtain ⟨s, hcopied, hwords, hfields⟩ := hcopied
  have hsused := hfields.used
  have hzfields := zero_fields s (h j).used s.used
  have hzeroed : ∀ u, wordAt (zero s (h j).used s.used) u = wordAt (h' j) u := by
    intro u
    have hslength := hfields.length
    rw [wordAt_zero s _ _ (by omega), hwords]
    by_cases hu : u < (h j).used
    · rw [if_neg (by omega), if_pos hu]
    · rw [if_neg hu, (hs' j).zero u (by omega)]
      split
      · rfl
      · exact (hs' i).zero u (by omega)
  have hpopulation : ∀ s' : Bitset, s'.population = (h' i).population → (h'.put i s' j).population = (h' j).population := by
    intro s' hsame
    by_cases hj : j = i
    · rw [hj, put_self, hsame]
    · rw [put_of_ne _ _ hj]
  have hstale : ∀ s' : Bitset, s'.stale = (h' i).stale → (h'.put i s' j).stale = (h' j).stale := by
    intro s' hsame
    by_cases hj : j = i
    · rw [hj, put_self, hsame]
    · rw [put_of_ne _ _ hj]
  have hput : ∀ (s' s'' : Bitset), (h'.put i s').put i s'' = h'.put i s'' := fun s' s'' => Function.update_idem _ _ _
  rw [copyfrom]
  dsimp only
  rw [hgrow, ok_bind]
  refine ⟨_, rfl, RepAll.of_others hs' (fun k hk => ?_) ?_⟩
  · rw [put_of_ne _ _ hk, put_of_ne _ _ hk, put_of_ne _ _ hk, put_of_ne _ _ hk]
  · rw [hcopied]
    simp only [hput, put_self]
    rw [hpopulation { zero s (h j).used s.used with used := (h j).used } (hzfields.population.trans hfields.population),
      hstale { zero s (h j).used s.used with used := (h j).used, population := (h' j).population }
        (hzfields.stale.trans hfields.stale)]
    constructor
    · refine ⟨?_, ?_, ?_, fun w hw => ?_⟩
      · exact ((hzfields.length.trans hfields.length).trans hlength).trans
          (hzfields.capacity.trans hfields.capacity).symm
      · dsimp only
        rw [hzfields.capacity, hfields.capacity]
        exact hroom
      · exact hused ▸ hbound
      · exact (hzeroed w).trans ((hs' j).zero w (hused ▸ hw))
    · intro n
      rw [(hs' j).mem n, bit, bit, ← hzeroed]
      rfl
    · intro hfalse
      exact (hs' j).population hfalse

/-! Histories. -/

/-- What an operation answers, and leaves, on the sets themselves. -/
def specStep (t : ι → Finset ℕ) : Op ι → Answer × (ι → Finset ℕ)
  | .create i capacitybits =>
    if capacitybits.getD 64 ≤ 2 ^ 31 then (.nothing, Function.update t i ∅) else (.raised tooMany, t)
  | .reserve _ bits => (if bits ≤ 2 ^ 31 then .nothing else .raised tooMany, t)
  | .set i index =>
    if 0 ≤ index ∧ index < 2 ^ 31 then (.nothing, Function.update t i (insert index.toNat (t i)))
    else (.raised badIndex, t)
  | .clear i index => (.nothing, Function.update t i ((t i).filter fun n : ℕ => (n : ℤ) ≠ index))
  | .get i index => (.boolean (0 ≤ index ∧ index.toNat ∈ t i), t)
  | .setrange i low high =>
    if high < low then (.nothing, t)
    else if ¬(0 ≤ low ∧ low < 2 ^ 31) then (.raised badStart, t)
    else if ¬(0 ≤ high ∧ high < 2 ^ 31) then (.raised badEnd, t)
    else (.nothing, Function.update t i (t i ∪ Finset.Icc low.toNat high.toNat))
  | .count i => (.integer (t i).card, t)
  | .isempty i => (.boolean (t i = ∅), t)
  | .clearall i => (.nothing, Function.update t i ∅)
  | .setonly i index =>
    if 0 ≤ index ∧ index < 2 ^ 31 then (.nothing, Function.update t i {index.toNat}) else (.raised badIndex, t)
  | .wordat i index => (.integer (if 0 ≤ index then (wordOf (t i) index.toNat).toInt else 0), t)
  | .nextsetbit i start => (.integer (firstOr (membersFrom (t i) start)), t)
  | .positionsinto i capacity start =>
    if capacity < 0 then (.raised badCapacity, t)
    else (.positions (((membersFrom (t i) start).take capacity.toNat).map Nat.cast)
      (firstOr ((membersFrom (t i) start).drop capacity.toNat)), t)
  | .containsall i j => (.boolean (t j ⊆ t i), t)
  | .overlaps i j => (.boolean (¬Disjoint (t i) (t j)), t)
  | .disjoint i j => (.boolean (Disjoint (t i) (t j)), t)
  | .copyfrom i j => (.nothing, Function.update t i (t j))
  | .orwith i j => (.nothing, Function.update t i (t i ∪ t j))
  | .andwith i j => (.nothing, Function.update t i (t i ∩ t j))
  | .andnotwith i j => (.nothing, Function.update t i (t i \ t j))
  | .xorwith i j => (.nothing, Function.update t i (symmDiff (t i) (t j)))

def specRun (t : ι → Finset ℕ) : List (Op ι) → ι → Finset ℕ
  | [] => t
  | op :: ops => specRun (specStep t op).2 ops

/-- An answer is that of the sets. A target with no room is given nothing, and the walk resumes where it started,
or is over when no member is left. -/
def Agrees (t : ι → Finset ℕ) : Op ι → Answer → Prop
  | .positionsinto i capacity start, answer =>
    if capacity = 0 then
      ∃ resume, answer = .positions [] resume ∧
        (resume = max start 0 ∨ (resume = -1 ∧ membersFrom (t i) start = []))
    else answer = (specStep t (.positionsinto i capacity start)).1
  | op, answer => answer = (specStep t op).1

def AgreeAll (t : ι → Finset ℕ) : List (Op ι) → List Answer → Prop
  | [], [] => True
  | op :: ops, answer :: answers => Agrees t op answer ∧ AgreeAll (specStep t op).2 ops answers
  | _, _ => False

theorem agrees_effect {h : Sets ι} {t : ι → Finset ℕ} {i : ι} {u : Finset ℕ} (hs : RepAll h t)
    {result : Except String Bitset} (hresult : ∃ s, result = .ok s ∧ Rep s u) :
    (effect h (result.map (h.put i))).1 = .nothing ∧
      RepAll (effect h (result.map (h.put i))).2 (Function.update t i u) := by
  obtain ⟨s, rfl, hu⟩ := hresult
  exact ⟨rfl, hs.put hu⟩

omit [DecidableEq ι] in
theorem agrees_effect_sets {h : Sets ι} {t : ι → Finset ℕ} {result : Except String (Sets ι)}
    (hresult : ∃ h', result = .ok h' ∧ RepAll h' t) :
    (effect h result).1 = .nothing ∧ RepAll (effect h result).2 t := by
  obtain ⟨h', rfl, hs⟩ := hresult
  exact ⟨rfl, hs⟩

theorem erase_eq_filter (t : Finset ℕ) (n : ℕ) : (t.filter fun k : ℕ => (k : ℤ) ≠ n) = t.erase n := by
  ext k
  rw [Finset.mem_filter, Finset.mem_erase, ne_eq, Nat.cast_inj, and_comm]

/-- One operation. -/
theorem step_correct {h : Sets ι} {t : ι → Finset ℕ} (hs : RepAll h t) (op : Op ι) :
    Agrees t op (step h op).1 ∧ RepAll (step h op).2 (specStep t op).2 := by
  cases op with
  | create i capacitybits =>
    by_cases hbits : capacitybits.getD 64 ≤ 2 ^ 31
    · simp only [Agrees, specStep, if_pos hbits]
      exact agrees_effect hs (rep_constructor capacitybits hbits)
    · simp only [Agrees, specStep, if_neg hbits, step, constructor_tooMany hbits]
      exact ⟨rfl, hs⟩
  | reserve i bits =>
    by_cases hbits : bits ≤ 2 ^ 31
    · simp only [Agrees, specStep, if_pos hbits]
      obtain ⟨s, hreserve, hgrown⟩ := reserve_grown (hs i).toSound bits hbits
      obtain ⟨hanswer, hrep⟩ := agrees_effect (i := i) hs ⟨s, hreserve, hgrown.rep (hs i)⟩
      rw [Function.update_eq_self] at hrep
      exact ⟨hanswer, hrep⟩
    · simp only [Agrees, specStep, if_neg hbits, step, reserve_tooMany _ hbits]
      exact ⟨rfl, hs⟩
  | set i index =>
    by_cases hindex : 0 ≤ index ∧ index < 2 ^ 31
    · simp only [Agrees, specStep, if_pos hindex]
      obtain ⟨n, rfl⟩ := Int.eq_ofNat_of_zero_le hindex.1
      exact agrees_effect hs (rep_set (hs i) (by omega))
    · simp only [Agrees, specStep, if_neg hindex, step, set_badIndex _ (mt isPosition_iff.mp hindex)]
      exact ⟨rfl, hs⟩
  | clear i index =>
    refine ⟨rfl, ?_⟩
    simp only [specStep, step]
    by_cases hindex : 0 ≤ index ∧ index < 2 ^ 31
    · obtain ⟨n, rfl⟩ := Int.eq_ofNat_of_zero_le hindex.1
      rw [erase_eq_filter]
      exact hs.put (rep_clear (hs i) (by omega))
    · rw [clear_of_not_isPosition _ (mt isPosition_iff.mp hindex), Finset.filter_true_of_mem fun n hn => ?_]
      · exact hs.put (hs i)
      · have hlt := (hs i).lt hn
        omega
  | get i index =>
    refine ⟨?_, hs⟩
    simp only [Agrees, specStep, step]
    by_cases hindex : 0 ≤ index ∧ index < 2 ^ 31
    · obtain ⟨n, rfl⟩ := Int.eq_ofNat_of_zero_le hindex.1
      rw [get_eq (hs i) (by omega)]
      refine congrArg Answer.boolean (decide_eq_decide.mpr ?_)
      exact (and_iff_right hindex.1).symm
    · rw [get_of_not_isPosition _ (mt isPosition_iff.mp hindex)]
      refine congrArg Answer.boolean (decide_eq_false ?_).symm
      rintro ⟨hnonneg, hmem⟩
      have hlt := (hs i).lt hmem
      omega
  | setrange i low high =>
    by_cases hempty : high < low
    · simp only [Agrees, specStep, if_pos hempty, step, setrange_empty _ hempty]
      exact ⟨rfl, hs.put_same (hs i)⟩
    · by_cases hlow : 0 ≤ low ∧ low < 2 ^ 31
      · by_cases hhigh : 0 ≤ high ∧ high < 2 ^ 31
        · simp only [Agrees, specStep, if_neg hempty, if_neg (not_not.mpr hlow), if_neg (not_not.mpr hhigh)]
          obtain ⟨m, rfl⟩ := Int.eq_ofNat_of_zero_le hlow.1
          obtain ⟨n, rfl⟩ := Int.eq_ofNat_of_zero_le hhigh.1
          exact agrees_effect hs (rep_setrange (hs i) (by omega) (by omega))
        · simp only [Agrees, specStep, if_neg hempty, if_neg (not_not.mpr hlow), if_pos hhigh, step,
            setrange_badEnd _ hempty (isPosition_iff.mpr hlow) (mt isPosition_iff.mp hhigh)]
          exact ⟨rfl, hs⟩
      · simp only [Agrees, specStep, if_neg hempty, if_pos hlow, step,
          setrange_badStart _ hempty (mt isPosition_iff.mp hlow)]
        exact ⟨rfl, hs⟩
  | count i => exact ⟨congrArg Answer.integer (count_eq (hs i)), hs.put_same (rep_count (hs i))⟩
  | isempty i => exact ⟨congrArg Answer.boolean (isempty_eq (hs i)), hs.put_same (rep_count (hs i))⟩
  | clearall i => exact ⟨rfl, hs.put (rep_clearall (hs i))⟩
  | setonly i index =>
    by_cases hindex : 0 ≤ index ∧ index < 2 ^ 31
    · simp only [Agrees, specStep, if_pos hindex]
      obtain ⟨n, rfl⟩ := Int.eq_ofNat_of_zero_le hindex.1
      exact agrees_effect hs (rep_setonly (hs i) (by omega))
    · simp only [Agrees, specStep, if_neg hindex, step, setonly_badIndex _ (mt isPosition_iff.mp hindex)]
      exact ⟨rfl, hs⟩
  | wordat i index => exact ⟨congrArg Answer.integer (wordat_eq (hs i) index), hs⟩
  | nextsetbit i start => exact ⟨congrArg Answer.integer (nextsetbit_eq (hs i) start), hs⟩
  | positionsinto i capacity start =>
    by_cases hzero : capacity = 0
    · obtain ⟨resume, hresult, hresume⟩ := positionsinto_zero (hs i) start
      subst hzero
      simp only [Agrees, specStep, step, hresult, if_true]
      exact ⟨⟨resume, rfl, hresume⟩, hs⟩
    · by_cases hneg : capacity < 0
      · simp only [Agrees, specStep, step, if_neg hzero, if_pos hneg, positionsinto_badCapacity _ start hneg]
        exact ⟨trivial, hs⟩
      · obtain ⟨n, rfl⟩ := Int.eq_ofNat_of_zero_le (not_lt.mp hneg)
        have hresult := positionsinto_eq (hs i) n (by omega) start
        simp only [Agrees, specStep, step, if_neg hzero, if_neg hneg, hresult]
        exact ⟨rfl, hs⟩
  | containsall i j => exact ⟨congrArg Answer.boolean (containsall_eq (hs i) (hs j)), hs⟩
  | overlaps i j => exact ⟨congrArg Answer.boolean (overlaps_eq (hs i) (hs j)), hs⟩
  | disjoint i j => exact ⟨congrArg Answer.boolean (disjoint_eq (hs i) (hs j)), hs⟩
  | copyfrom i j => exact agrees_effect_sets (rep_copyfrom hs i j)
  | orwith i j => exact agrees_effect_sets (rep_orwith hs i j)
  | andwith i j => exact ⟨rfl, rep_andwith hs i j⟩
  | andnotwith i j => exact ⟨rfl, rep_andnotwith hs i j⟩
  | xorwith i j => exact agrees_effect_sets (rep_xorwith hs i j)

theorem run_correct_from {h : Sets ι} {t : ι → Finset ℕ} (hs : RepAll h t) (ops : List (Op ι)) :
    AgreeAll t ops (run h ops).1 ∧ RepAll (run h ops).2 (specRun t ops) := by
  induction ops generalizing h t with
  | nil => exact ⟨trivial, hs⟩
  | cons op ops ih =>
    obtain ⟨hanswer, hstep⟩ := step_correct hs op
    obtain ⟨hanswers, hrest⟩ := ih hstep
    exact ⟨⟨hanswer, hanswers⟩, hrest⟩

/-- A newly constructed set. -/
def fresh : Bitset :=
  { words := List.replicate 2 0#32, capacity := 2, used := 0, population := 0, stale := false }

theorem constructor_none : constructor none = .ok fresh := rfl

theorem rep_fresh : Rep fresh ∅ := by
  obtain ⟨s, hs, hrep⟩ := rep_constructor none (by decide)
  rw [constructor_none] at hs
  cases hs
  exact hrep

/-- Whatever the history, every answer is that of the sets, and every bitset represents its set. -/
theorem run_correct (ops : List (Op ι)) :
    AgreeAll (fun _ => ∅) ops (run (fun _ => fresh) ops).1 ∧
      RepAll (run (fun _ => fresh) ops).2 (specRun (fun _ => ∅) ops) :=
  run_correct_from (fun _ => rep_fresh) ops

end

/-- With no room in the target, the answer depends on more than the set. -/
theorem positionsinto_not_of_set :
    specRun (fun _ : Unit => ∅) [.set () 5, .clear () 5] () = ∅ ∧
      (run (fun _ : Unit => fresh) [.positionsinto () 0 0]).1 = [.positions [] (-1)] ∧
      (run (fun _ : Unit => fresh) [.set () 5, .clear () 5, .positionsinto () 0 0]).1 =
        [.nothing, .nothing, .positions [] 0] := by
  decide

end Nupp.Bitset
