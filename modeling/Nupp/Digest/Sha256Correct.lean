import Mathlib.Data.List.Basic
import Mathlib.Tactic.IntervalCases
import Nupp.Digest.Blocks
import Nupp.Digest.Sha256

/-! The one-shot digest against the standard: its words and constants, the tail it assembles,
the loop over the blocks, and the digits. -/

namespace Nupp.digest

open Standard (Byte Word Hash blockAt byteAt absorb)

section Words

theorem smallSigmaZero_eq (w : Word) : smallSigmaZero w = Standard.smallSigma0 w := rfl
theorem smallSigmaOne_eq (w : Word) : smallSigmaOne w = Standard.smallSigma1 w := rfl
theorem bigSigmaZero_eq (w : Word) : bigSigmaZero w = Standard.bigSigma0 w := rfl
theorem bigSigmaOne_eq (w : Word) : bigSigmaOne w = Standard.bigSigma1 w := rfl

theorem constants_eq : (List.range 64).map (word ROUND_CONSTANTS) = Standard.K := by decide

theorem constant_eq {t : ℕ} (h : t < 64) : word ROUND_CONSTANTS t = Standard.K.getD t 0 := by
  rw [← constants_eq, List.getD_eq_getElem?_getD, List.getElem?_map, List.getElem?_range h]
  rfl

/-- The bits of a word, byte by byte from the least significant. -/
theorem wordOf_getLsbD (b₀ b₁ b₂ b₃ : Byte) (i : ℕ) :
    (Standard.wordOf b₀ b₁ b₂ b₃).getLsbD i =
      if i < 8 then b₃.getLsbD i else if i < 16 then b₂.getLsbD (i - 8)
      else if i < 24 then b₁.getLsbD (i - 16) else b₀.getLsbD (i - 24) := by
  have hword : Standard.wordOf b₀ b₁ b₂ b₃ = (b₀ ++ b₁ ++ b₂ ++ b₃ : BitVec (8 + 8 + 8 + 8)) := rfl
  rw [hword, BitVec.getLsbD_append, BitVec.getLsbD_append, BitVec.getLsbD_append]
  by_cases hlast : i < 8
  · rw [if_pos hlast, if_pos hlast]
  · rw [if_neg hlast, if_neg hlast]
    by_cases hthird : i < 16
    · rw [if_pos hthird, if_pos (by omega)]
    · rw [if_neg hthird, if_neg (by omega)]
      by_cases hsecond : i < 24
      · rw [if_pos hsecond, if_pos (by omega)]
        congr 1
      · rw [if_neg hsecond, if_neg (by omega)]
        congr 1

theorem bigEndianWord_eq (b₀ b₁ b₂ b₃ : Byte) :
    bigEndianWord (b₃ ++ b₂ ++ b₁ ++ b₀) = Standard.wordOf b₀ b₁ b₂ b₃ := by
  refine BitVec.eq_of_getLsbD_eq fun i hi => ?_
  have hword : (b₃ ++ b₂ ++ b₁ ++ b₀ : Word) = Standard.wordOf b₃ b₂ b₁ b₀ := rfl
  rw [hword, bigEndianWord]
  simp only [BitVec.getLsbD_or, BitVec.getLsbD_and, BitVec.getLsbD_shiftLeft,
    BitVec.getLsbD_ushiftRight, wordOf_getLsbD]
  interval_cases i <;> simp

theorem tailWord_eq (b₀ b₁ b₂ b₃ : Byte) :
    (b₀.setWidth 32 <<< 24) ||| (b₁.setWidth 32 <<< 16) ||| (b₂.setWidth 32 <<< 8) |||
      b₃.setWidth 32 = Standard.wordOf b₀ b₁ b₂ b₃ := by
  refine BitVec.eq_of_getLsbD_eq fun i hi => ?_
  simp only [BitVec.getLsbD_or, BitVec.getLsbD_shiftLeft, BitVec.getLsbD_setWidth, wordOf_getLsbD]
  interval_cases i <;> simp

end Words

section Tail

variable {source : List Byte}

theorem lengthRest_eq (n : ℕ) : lengthRest n = n % 64 := Nat.and_two_pow_sub_one_eq_mod n 6

theorem lengthWhole_eq {n : ℕ} (h : n < 2 ^ 31) : lengthWhole n = n - n % 64 := by
  rw [lengthWhole, u32sub, lengthRest_eq]
  omega

theorem upTo_eq (n : ℕ) : upTo (n % 64) = n % 64 + 1 + Standard.zeros n := by
  unfold upTo Standard.zeros
  split
  · omega
  · omega

theorem upTo_le (n : ℕ) : upTo n ≤ 120 := by
  unfold upTo
  split
  · rfl
  · decide

/-- The message from its last whole block on, padded. -/
def ending (source : List Byte) : List Byte :=
  source.drop (lengthWhole source.length) ++ Standard.padding source.length

theorem ending_length (h : source.length < 2 ^ 31) :
    (ending source).length = upTo (source.length % 64) + 8 := by
  rw [ending, List.length_append, List.length_drop, Standard.padding_length, lengthWhole_eq h,
    upTo_eq]
  omega

theorem byteAt_replicate (n j : ℕ) : byteAt (List.replicate n (0 : Byte)) j = 0 := by
  rw [byteAt, List.getD_eq_getElem?_getD, List.getElem?_replicate]
  split
  · rfl
  · rfl

theorem byteAt_lengthBytes {n j : ℕ} (h : j < 8) :
    byteAt (Standard.lengthBytes n) j = BitVec.ofNat 8 (8 * n / 256 ^ (7 - j)) := by
  rw [byteAt, Standard.lengthBytes, List.getD_eq_getElem?_getD, List.getElem?_map,
    List.getElem?_range h]
  rfl

/-- The bytes of the end of the message, region by region. -/
theorem byteAt_ending (h : source.length < 2 ^ 31) {j : ℕ}
    (hj : j < upTo (source.length % 64) + 8) :
    byteAt (ending source) j =
      if j < source.length % 64 then byteAt source (lengthWhole source.length + j)
      else if j = source.length % 64 then 0x80
      else if j < upTo (source.length % 64) then 0
      else BitVec.ofNat 8 (8 * source.length /
        256 ^ (7 - (j - upTo (source.length % 64)))) := by
  have hrest : (source.drop (lengthWhole source.length)).length = source.length % 64 := by
    rw [List.length_drop, lengthWhole_eq h]
    omega
  have hto := upTo_eq source.length
  by_cases hmessage : j < source.length % 64
  · rw [if_pos hmessage, ending, Standard.byteAt_append_left (by omega), Standard.byteAt_drop]
  · rw [if_neg hmessage, ending, Standard.byteAt_append_right (by omega), hrest,
      Standard.padding]
    by_cases hbit : j = source.length % 64
    · rw [if_pos hbit, hbit, Nat.sub_self]
      rfl
    · obtain ⟨i, hi⟩ : ∃ i, j - source.length % 64 = i + 1 := ⟨j - source.length % 64 - 1, by omega⟩
      have hcons : byteAt (0x80 :: List.replicate (Standard.zeros source.length) 0 ++
          Standard.lengthBytes source.length) (i + 1) =
          byteAt (List.replicate (Standard.zeros source.length) 0 ++
            Standard.lengthBytes source.length) i := rfl
      rw [if_neg hbit, hi, hcons]
      by_cases hzero : j < upTo (source.length % 64)
      · rw [if_pos hzero, Standard.byteAt_append_left (by rw [List.length_replicate]; omega),
          byteAt_replicate]
      · rw [if_neg hzero, Standard.byteAt_append_right (by rw [List.length_replicate]; omega),
          List.length_replicate, byteAt_lengthBytes (by omega)]
        have hindex : i - Standard.zeros source.length = j - upTo (source.length % 64) := by omega
        rw [hindex]

/-- The two halves of the length, written side by side. -/
theorem writeLength_apply (base : ℕ) (high low : ℕ → ℕ) (tail : ℕ → Byte) (j : ℕ) :
    Nat.fold 4 (fun i _ tail => setscratchbyte (setscratchbyte tail (base + i) (high i))
        (base + 4 + i) (low i)) tail j =
      if j < base ∨ base + 8 ≤ j then tail j
      else if j < base + 4 then BitVec.ofNat 8 (high (j - base))
      else BitVec.ofNat 8 (low (j - base - 4)) := by
  have hcases : j < base ∨ base + 8 ≤ j ∨ j = base ∨ j = base + 1 ∨ j = base + 2 ∨ j = base + 3 ∨
      j = base + 4 ∨ j = base + 5 ∨ j = base + 6 ∨ j = base + 7 := by omega
  have hloop : Nat.fold 4 (fun i _ tail => setscratchbyte (setscratchbyte tail (base + i) (high i))
        (base + 4 + i) (low i)) tail j =
      if j = base + 7 then BitVec.ofNat 8 (low 3) else if j = base + 3 then BitVec.ofNat 8 (high 3)
      else if j = base + 6 then BitVec.ofNat 8 (low 2)
      else if j = base + 2 then BitVec.ofNat 8 (high 2)
      else if j = base + 5 then BitVec.ofNat 8 (low 1)
      else if j = base + 1 then BitVec.ofNat 8 (high 1)
      else if j = base + 4 then BitVec.ofNat 8 (low 0)
      else if j = base then BitVec.ofNat 8 (high 0) else tail j := by
    simp only [Nat.fold_succ, Nat.fold_zero, setscratchbyte, Function.update_apply, Nat.add_zero]
  rw [hloop]
  rcases hcases with h | h | rfl | rfl | rfl | rfl | rfl | rfl | rfl | rfl
  · repeat rw [if_neg (by omega)]
    exact (if_pos (Or.inl h)).symm
  · repeat rw [if_neg (by omega)]
    exact (if_pos (Or.inr h)).symm
  all_goals simp

theorem andbits_byte (n : ℕ) : BitVec.ofNat 8 (andbits n 255) = BitVec.ofNat 8 n := by
  have hmask : andbits n 255 = n % 256 := Nat.and_two_pow_sub_one_eq_mod n 8
  exact BitVec.eq_of_toNat_eq (by rw [hmask]; simp)

theorem highByte_eq (n : ℕ) {i : ℕ} (hi : i < 4) :
    BitVec.ofNat 8 (andbits (shiftrightlogical (shiftrightlogical n 29) (24 - 8 * i)) 255) =
      BitVec.ofNat 8 (8 * n / 256 ^ (7 - i)) := by
  rw [andbits_byte]
  congr 1
  simp only [shiftrightlogical]
  interval_cases i <;> omega

theorem lowByte_eq (n : ℕ) {i : ℕ} (hi : i < 4) :
    BitVec.ofNat 8 (andbits (shiftrightlogical (shiftleft n 3) (24 - 8 * i)) 255) =
      BitVec.ofNat 8 (8 * n / 256 ^ (3 - i)) := by
  rw [andbits_byte]
  refine BitVec.eq_of_toNat_eq ?_
  simp only [shiftrightlogical, shiftleft, BitVec.toNat_ofNat]
  interval_cases i <;> omega

/-- The remainder of the message, carried to the front of the tail. -/
theorem carry_apply (h : source.length < 2 ^ 31) (j : ℕ) :
    (lengthRest source.length).fold (fun carrying _ tail => setscratchbyte tail carrying
        (byte source (u32add (lengthWhole source.length) carrying))) (fun _ => 0) j =
      if j < source.length % 64 then byteAt source (lengthWhole source.length + j) else 0 := by
  have hfill : (lengthRest source.length).fold (fun carrying _ tail => setscratchbyte tail carrying
        (byte source (u32add (lengthWhole source.length) carrying))) (fun _ => 0) =
      Counted.fill (lengthRest source.length) 0
        (fun c => byteAt source (lengthWhole source.length + c)) (fun _ => 0) := by
    refine Counted.fold_congr fun c hc tail => ?_
    have hindex : u32add (lengthWhole source.length) c = lengthWhole source.length + c := by
      rw [lengthRest_eq] at hc
      rw [u32add, lengthWhole_eq h]
      omega
    rw [setscratchbyte, hindex, byte, BitVec.ofNat_toNat, BitVec.setWidth_eq, Nat.zero_add]
    rfl
  rw [hfill, Counted.fill_apply, Nat.zero_add, Nat.sub_zero, lengthRest_eq]
  simp only [Nat.zero_le, true_and]

/-- The tail of the code is the end of the padded message. -/
theorem buildTail_eq (h : source.length < 2 ^ 31) {j : ℕ}
    (hj : j < upTo (source.length % 64) + 8) :
    buildTail source j = byteAt (ending source) j := by
  have hto := upTo_eq source.length
  have hsmall := upTo_le (source.length % 64)
  have hlength (i : ℕ) (hi : i < 4) (tail : ℕ → Byte) :
      setscratchbyte (setscratchbyte tail (u32add (upTo (source.length % 64)) i)
          (andbits (shiftrightlogical (shiftrightlogical source.length 29)
            (u32sub 24 (shiftleft i 3))) 255))
        (u32add (u32add (upTo (source.length % 64)) 4) i)
        (andbits (shiftrightlogical (shiftleft source.length 3) (u32sub 24 (shiftleft i 3))) 255) =
      setscratchbyte (setscratchbyte tail (upTo (source.length % 64) + i)
          (andbits (shiftrightlogical (shiftrightlogical source.length 29) (24 - 8 * i)) 255))
        (upTo (source.length % 64) + 4 + i)
        (andbits (shiftrightlogical (shiftleft source.length 3) (24 - 8 * i)) 255) := by
    have hshift : u32sub 24 (shiftleft i 3) = 24 - 8 * i := by
      rw [u32sub, shiftleft]
      omega
    have hhigh : u32add (upTo (source.length % 64)) i = upTo (source.length % 64) + i := by
      rw [u32add]
      omega
    have hlow : u32add (u32add (upTo (source.length % 64)) 4) i =
        upTo (source.length % 64) + 4 + i := by
      simp only [u32add]
      omega
    rw [hshift, hhigh, hlow]
  rw [byteAt_ending h hj, buildTail]
  simp only [lengthRest_eq]
  rw [Counted.fold_congr hlength, writeLength_apply _
    (fun i => andbits (shiftrightlogical (shiftrightlogical source.length 29) (24 - 8 * i)) 255)
    (fun i => andbits (shiftrightlogical (shiftleft source.length 3) (24 - 8 * i)) 255)]
  by_cases hbefore : j < upTo (source.length % 64)
  · rw [if_pos (Or.inl hbefore), setscratchbyte]
    by_cases hbit : j = source.length % 64
    · rw [hbit, Function.update_self, if_neg (Nat.lt_irrefl _), if_pos rfl]
      rfl
    · rw [Function.update_of_ne hbit, carry_apply h, if_neg hbit, if_pos hbefore]
  · have hout : ¬(j < upTo (source.length % 64) ∨ upTo (source.length % 64) + 8 ≤ j) := by omega
    have hrest : ¬j < source.length % 64 := by omega
    have hbit : j ≠ source.length % 64 := by omega
    rw [if_neg hout, if_neg hrest, if_neg hbit, if_neg hbefore]
    by_cases hhalf : j < upTo (source.length % 64) + 4
    · rw [if_pos hhalf, highByte_eq _ (by omega)]
    · rw [if_neg hhalf, lowByte_eq _ (by omega)]
      have hpower : 3 - (j - upTo (source.length % 64) - 4) =
          7 - (j - upTo (source.length % 64)) := by omega
      rw [hpower]

end Tail

section Block

variable {source : List Byte} {schedule : ℕ → Word}

/-- The message with its padding. -/
def padded (source : List Byte) : List Byte := source ++ Standard.padding source.length

theorem padded_eq (source : List Byte) :
    padded source = source.take (lengthWhole source.length) ++ ending source := by
  rw [padded, ending, ← List.append_assoc, List.take_append_drop]

theorem padded_whole (source : List Byte) : (padded source).length % 64 = 0 := by
  have hfit := Standard.zeros_fit source.length
  rw [padded, List.length_append, Standard.padding_length]
  omega

theorem padded_length (h : source.length < 2 ^ 31) :
    (padded source).length = lengthWhole source.length + (upTo (source.length % 64) + 8) := by
  rw [padded_eq, List.length_append, ending_length h, List.length_take, lengthWhole_eq h]
  omega

theorem messageWord_eq (source : List Byte) (index : ℕ) :
    bigEndianWord (word source index) = blockAt source (4 * index) 0 := bigEndianWord_eq _ _ _ _

/-- The block that the code loads is the block of the padded message. -/
theorem loadBlock_eq (h : source.length < 2 ^ 31) {k : ℕ}
    (hk : 64 * k < (padded source).length) {j : ℕ} (hj : j < 16) :
    loadBlock source (lengthWhole source.length) (buildTail source) (64 * k) schedule j =
      blockAt (padded source) (64 * k) j := by
  have hwhole := lengthWhole_eq h
  have htake : (source.take (lengthWhole source.length)).length = lengthWhole source.length := by
    rw [hwhole]
    exact List.length_take_of_le (Nat.sub_le _ _)
  have hlength := padded_length h
  have hto := upTo_eq source.length
  have hsmall := upTo_le (source.length % 64)
  have hfit := Standard.zeros_fit source.length
  unfold loadBlock
  split
  · next hin =>
    have hfold : Nat.fold 16 (fun index _ schedule =>
        let reading := u32add (shiftrightlogical (64 * k) 2) index
        Function.update schedule index (bigEndianWord (word source reading))) schedule =
        Counted.fill 16 0 (fun i => bigEndianWord (word source (16 * k + i))) schedule := by
      refine Counted.fold_congr fun i hi schedule => ?_
      have hreading : u32add (shiftrightlogical (64 * k) 2) i = 16 * k + i := by
        rw [u32add, shiftrightlogical]
        omega
      simp only [hreading, Nat.zero_add]
    have hoffset : 4 * (16 * k + j) = 64 * k + 4 * j := by omega
    rw [hfold, Counted.fill_apply, if_pos (by omega), Nat.sub_zero, messageWord_eq, hoffset,
      Standard.blockAt_zero, padded, Standard.blockAt_append_left (by omega) hj]
  · next hout =>
    have hbase : u32sub (64 * k) (lengthWhole source.length) =
        64 * k - lengthWhole source.length := by
      rw [u32sub]
      omega
    have hfold : Nat.fold 16 (fun index _ schedule =>
        let within := u32add (u32sub (64 * k) (lengthWhole source.length)) (shiftleft index 2)
        Function.update schedule index
          (((buildTail source within).setWidth 32 <<< 24) |||
            ((buildTail source (u32add within 1)).setWidth 32 <<< 16) |||
            ((buildTail source (u32add within 2)).setWidth 32 <<< 8) |||
            (buildTail source (u32add within 3)).setWidth 32)) schedule =
        Counted.fill 16 0 (fun i => blockAt (ending source) (64 * k - lengthWhole source.length) i)
          schedule := by
      refine Counted.fold_congr fun i hi schedule => ?_
      have hwithin : u32add (u32sub (64 * k) (lengthWhole source.length)) (shiftleft i 2) =
          64 * k - lengthWhole source.length + 4 * i := by
        rw [hbase, u32add, shiftleft]
        omega
      have hbyte (b : ℕ) (hb : b < 4) :
          buildTail source (u32add (64 * k - lengthWhole source.length + 4 * i) b) =
            byteAt (ending source) (64 * k - lengthWhole source.length + 4 * i + b) := by
        have hindex : u32add (64 * k - lengthWhole source.length + 4 * i) b =
            64 * k - lengthWhole source.length + 4 * i + b := by
          rw [u32add]
          omega
        rw [hindex, buildTail_eq h (by omega)]
      have hfirst := buildTail_eq (j := 64 * k - lengthWhole source.length + 4 * i) h (by omega)
      simp only [hwithin]
      rw [hfirst, hbyte 1 (by omega), hbyte 2 (by omega), hbyte 3 (by omega), tailWord_eq,
        Nat.zero_add]
      rfl
    have hsplit : 64 * k = (source.take (lengthWhole source.length)).length +
        (64 * k - lengthWhole source.length) := by omega
    rw [hfold, Counted.fill_apply, if_pos (by omega), Nat.sub_zero]
    conv_rhs => rw [hsplit, padded_eq, Standard.blockAt_append_right]

theorem extend_eq {M : ℕ → Word} (h : ∀ j < 16, schedule j = M j) {t : ℕ} (ht : t < 64) :
    extend schedule t = Standard.W M t := by
  have hfold : extend schedule = Nat.fold 48 (fun i _ words =>
      Function.update words (0 + i + 16)
        (words (0 + i) + Standard.smallSigma0 (words (0 + i + 1)) +
          (words (0 + i + 9) + Standard.smallSigma1 (words (0 + i + 14))))) schedule := by
    refine Counted.fold_congr fun i _ words => ?_
    simp only [Nat.zero_add]
    rfl
  have hblock (j : ℕ) (hj : j < 16) : schedule (0 + j) = M j := by rw [Nat.zero_add, h j hj]
  have hall := Standard.schedule_eq 0 hblock (fun _ _ => rfl) ht
  rw [hfold]
  rwa [Nat.zero_add t] at hall

theorem runRounds_eq {M : ℕ → Word} (h : ∀ t < 64, schedule t = Standard.W M t) (hash : Hash) :
    runRounds schedule hash = Standard.rounds M hash := by
  refine Counted.fold_congr fun t ht s => ?_
  have hfirst : add (add s.h (bigSigmaOne s.e))
      (add (add (choose s.e s.f s.g) (word ROUND_CONSTANTS t)) (schedule t)) =
      s.h + Standard.bigSigma1 s.e + Standard.Ch s.e s.f s.g + Standard.K.getD t 0 +
        Standard.W M t := by
    have hchoose : choose s.e s.f s.g = Standard.Ch s.e s.f s.g := rfl
    rw [constant_eq ht, h t ht, bigSigmaOne_eq, hchoose]
    simp only [add]
    ac_rfl
  exact congrArg (fun first => ({
    a := first + (Standard.bigSigma0 s.a + Standard.Maj s.a s.b s.c), b := s.a, c := s.b, d := s.c,
    e := s.d + first, f := s.e, g := s.f, h := s.g } : Hash)) hfirst

theorem addHash_eq (h s : Hash) : addHash h s = h.add s := rfl

theorem compressed_eq (h : source.length < 2 ^ 31) {k : ℕ}
    (hk : 64 * k < (padded source).length) (hash : Hash) :
    addHash hash (runRounds (extend (loadBlock source (lengthWhole source.length)
        (buildTail source) (64 * k) schedule)) hash) =
      Standard.compress hash (blockAt (padded source) (64 * k)) := by
  have hload : ∀ j < 16, loadBlock source (lengthWhole source.length) (buildTail source) (64 * k)
      schedule j = blockAt (padded source) (64 * k) j := fun j hj => loadBlock_eq h hk hj
  rw [runRounds_eq fun t ht => extend_eq hload ht, addHash_eq, Standard.compress]

/-- The blocks before the offset are compressed. -/
structure Compressed (source : List Byte) (s : Running) (k : ℕ) : Prop where
  offset : s.offset = 64 * k
  within : 64 * k ≤ (padded source).length
  h : s.h = Nat.fold k (fun i _ hash =>
    Standard.compress hash (blockAt (padded source) (64 * i))) Hash.initial

/-- The loop over the blocks ends, with the hash of the padded message. -/
theorem blocks_total (h : source.length < 2 ^ 31) {turns : ℕ}
    (hturns : source.length / 64 + 2 < turns) :
    Loop.loop (turn source (lengthWhole source.length)
      (u32add (lengthWhole source.length) (u32add (upTo (lengthRest source.length)) 8))
      (buildTail source)) turns ⟨0, initial, fun _ => 0⟩ =
      some (absorb Hash.initial (padded source)) := by
  have hwhole := lengthWhole_eq h
  have hlength := padded_length h
  have hsmall := upTo_le (source.length % 64)
  have hblocks := padded_whole source
  have htotal : u32add (lengthWhole source.length)
      (u32add (upTo (lengthRest source.length)) 8) = (padded source).length := by
    rw [hlength, lengthRest_eq, u32add, u32add]
    omega
  rw [htotal]
  have hadvances : Loop.Advances (turn source (lengthWhole source.length)
      (padded source).length (buildTail source)) (fun s => ∃ k, Compressed source s k)
      (fun s => ((padded source).length - s.offset) / 64)
      (fun hash => hash = absorb Hash.initial (padded source)) := by
    rintro s ⟨k, hoffset, hwithin, hhash⟩
    by_cases hmore : 64 * k < (padded source).length
    · have hnext : u32add s.offset 64 = 64 * (k + 1) := by
        rw [u32add, hoffset]
        omega
      have hless : ((padded source).length - u32add s.offset 64) / 64 <
          ((padded source).length - s.offset) / 64 := by
        rw [hnext, hoffset]
        omega
      refine Or.inl ⟨_, by rw [turn, if_pos (hoffset ▸ hmore)], ⟨k + 1, hnext, by omega, ?_⟩,
        hless⟩
      rw [Nat.fold_succ, ← hhash, ← compressed_eq h hmore, hoffset]
    · refine Or.inr ⟨s.h, by rw [turn, if_neg (hoffset ▸ hmore)], ?_⟩
      have hk : (padded source).length / 64 = k := by omega
      rw [hhash, absorb, hk]
  obtain ⟨hash, hrun, rfl⟩ := Loop.loop_total hadvances (n := turns) (s := ⟨0, initial, fun _ => 0⟩)
    ⟨0, rfl, Nat.zero_le _, rfl⟩ (by simp only [Nat.sub_zero]; omega)
  exact hrun

end Block

section Publish

theorem hexDigit_eq : ∀ n < 16,
    Char.ofNat (BitVec.ofNat 8 (hexDigit n)).toNat = Nat.digitChar n := by decide

/-- The digit of a word that the code stores at one place of the scratch. -/
def digitAt (h : Hash) (word nibble : ℕ) : Byte :=
  BitVec.ofNat 8 (hexDigit ((h.words.getD word 0).toNat / 2 ^ (28 - 4 * nibble) % 16))

theorem hexDigits_eq (h : Hash) {w n : ℕ} (hw : w < 8) (hn : n < 8) :
    hexDigits h (8 * w + n) = digitAt h w n := by
  unfold hexDigits
  refine Counted.fold_induction
    (fun i (scratch : ℕ → Byte) => ∀ w < i, ∀ n < 8, scratch (8 * w + n) = digitAt h w n)
    (fun _ hlt => absurd hlt (Nat.not_lt_zero _)) (fun i hi scratch hscratch => ?_) w hw n hn
  intro w hw n hn
  have hfold : Nat.fold 8 (fun nibble _ scratch =>
      setscratchbyte scratch (u32add (shiftleft i 3) nibble)
        (hexDigit (andbits (shiftrightlogical (h.words.getD i 0).toNat
          (u32sub 28 (shiftleft nibble 2))) 15))) scratch =
      Counted.fill 8 (8 * i) (digitAt h i) scratch := by
    refine Counted.fold_congr fun nibble hnibble scratch => ?_
    have hindex : u32add (shiftleft i 3) nibble = 8 * i + nibble := by
      rw [u32add, shiftleft]
      omega
    have hshift : u32sub 28 (shiftleft nibble 2) = 28 - 4 * nibble := by
      rw [u32sub, shiftleft]
      omega
    have hmask (value : ℕ) : andbits value 15 = value % 16 :=
      Nat.and_two_pow_sub_one_eq_mod value 4
    rw [hindex, hshift, hmask]
    rfl
  simp only
  rw [hfold, Counted.fill_apply]
  by_cases hlast : w = i
  · rw [hlast, if_pos (by omega), Nat.add_sub_cancel_left]
  · rw [if_neg (by omega)]
    exact hscratch w (by omega) n hn

theorem wordDigits_eq (w : Word) :
    (List.range 8).map (fun n => Nat.digitChar (w.toNat / 2 ^ (28 - 4 * n) % 16)) =
      Standard.hex (Standard.wordBytes w) := by
  have hlt := w.isLt
  have h8 : List.range 8 = [0, 1, 2, 3, 4, 5, 6, 7] := rfl
  have h4 : List.range 4 = [0, 1, 2, 3] := rfl
  simp only [Standard.hex, Standard.wordBytes, h8, h4, List.map_cons, List.map_nil,
    List.flatMap_cons, List.flatMap_nil, List.cons_append, List.nil_append, BitVec.toNat_ofNat]
  have hdigit (a b : ℕ) (hab : a = b) : Nat.digitChar a = Nat.digitChar b := by rw [hab]
  simp only [List.cons.injEq, and_true]
  exact ⟨hdigit _ _ (by omega), hdigit _ _ (by omega), hdigit _ _ (by omega),
    hdigit _ _ (by omega), hdigit _ _ (by omega), hdigit _ _ (by omega), hdigit _ _ (by omega),
    hdigit _ _ (by omega)⟩

theorem digits_eq (h : Hash) :
    ((List.range 64).map fun i => Char.ofNat (hexDigits h i).toNat) = Standard.hex h.bytes := by
  have hrange : List.range 64 =
      (List.range 8).flatMap fun w => (List.range 8).map fun n => 8 * w + n := by decide
  have hword (w : ℕ) (hw : w ∈ List.range 8) :
      ((List.range 8).map fun n => 8 * w + n).map (fun i => Char.ofNat (hexDigits h i).toNat) =
        Standard.hex (Standard.wordBytes (h.words.getD w 0)) := by
    rw [← wordDigits_eq, List.map_map]
    refine List.map_congr_left fun n hn => ?_
    have hdigit := hexDigits_eq h (List.mem_range.mp hw) (List.mem_range.mp hn)
    simp only [Function.comp_apply, hdigit, digitAt]
    exact hexDigit_eq _ (Nat.mod_lt _ (by decide))
  rw [hrange, List.map_flatMap, List.flatMap_congr hword]
  simp only [Standard.hex, ← List.flatMap_assoc]
  rfl

/-- The one-shot digest of a string is the digest of the standard in hexadecimal. -/
theorem sha256_eq (h : source.length < 2 ^ 31) {turns : ℕ}
    (hturns : source.length / 64 + 2 < turns) :
    sha256 turns source = some (.ok (Standard.hex (Standard.sha256 source))) := by
  rw [sha256, if_neg (by omega), digestHex]
  simp only [blocks_total h hturns, digits_eq]
  rfl

end Publish

end Nupp.digest
