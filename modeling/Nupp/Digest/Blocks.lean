import Nupp.Digest.Standard
import Nupp.Lib.Counted

/-! What the two implementations share of the standard: bytes of words, and blocks of a
message that is put together from parts. -/

namespace Nupp.Standard

section Bytes

theorem wordOf_toNat (b₀ b₁ b₂ b₃ : Byte) :
    (wordOf b₀ b₁ b₂ b₃).toNat =
      ((b₀.toNat * 256 + b₁.toNat) * 256 + b₂.toNat) * 256 + b₃.toNat := by
  have hshift (n : ℕ) (b : Byte) : n <<< 8 ||| b.toNat = n * 256 + b.toNat := by
    rw [← Nat.shiftLeft_add_eq_or_of_lt b.isLt, Nat.shiftLeft_eq]
  simp only [wordOf, BitVec.toNat_append, hshift]

theorem W_lt {M : ℕ → Word} {t : ℕ} (h : t < 16) : W M t = M t := by
  rw [W, if_pos h]

theorem W_ge {M : ℕ → Word} {t : ℕ} (h : 16 ≤ t) :
    W M t = smallSigma1 (W M (t - 2)) + W M (t - 7) + smallSigma0 (W M (t - 15)) +
      W M (t - 16) := by
  rw [W, if_neg (Nat.not_lt.mpr h)]

/-- The schedule reads the sixteen words of its block. -/
theorem W_congr {M M' : ℕ → Word} (h : ∀ j < 16, M j = M' j) (t : ℕ) : W M t = W M' t := by
  induction t using Nat.strongRecOn with
  | ind t ih =>
    by_cases ht : t < 16
    · rw [W_lt ht, W_lt ht, h t ht]
    · have hge : 16 ≤ t := Nat.le_of_not_lt ht
      rw [W_ge hge, W_ge hge, ih (t - 2) (by omega), ih (t - 7) (by omega),
        ih (t - 15) (by omega), ih (t - 16) (by omega)]

/-- A table that holds the words of a block from `base` on, extended in place. -/
theorem schedule_eq (base : ℕ) {M words : ℕ → Word} {next : ℕ → (ℕ → Word) → Word}
    (hblock : ∀ j < 16, words (base + j) = M j)
    (hnext : ∀ i words, next i words = words (base + i) + smallSigma0 (words (base + i + 1)) +
      (words (base + i + 9) + smallSigma1 (words (base + i + 14)))) {t : ℕ} (ht : t < 64) :
    Nat.fold 48 (fun i _ words => Function.update words (base + i + 16) (next i words)) words
      (base + t) = W M t := by
  refine Counted.fold_induction
    (fun i (words : ℕ → Word) => ∀ t < 16 + i, words (base + t) = W M t)
    (fun t ht => by rw [hblock t ht, W_lt ht]) (fun i _ words hwords t ht => ?_) t ht
  by_cases hlast : t = i + 16
  · have hge : 16 ≤ t := by omega
    have hindex : base + t = base + i + 16 := by omega
    have h16 := hwords (t - 16) (by omega)
    have h15 := hwords (t - 15) (by omega)
    have h7 := hwords (t - 7) (by omega)
    have h2 := hwords (t - 2) (by omega)
    have e16 : base + (t - 16) = base + i := by omega
    have e15 : base + (t - 15) = base + i + 1 := by omega
    have e7 : base + (t - 7) = base + i + 9 := by omega
    have e2 : base + (t - 2) = base + i + 14 := by omega
    rw [e16] at h16
    rw [e15] at h15
    rw [e7] at h7
    rw [e2] at h2
    rw [hindex, Function.update_self, hnext, h16, h15, h7, h2, W_ge hge]
    ac_rfl
  · have hne : base + t ≠ base + i + 16 := by omega
    rw [Function.update_of_ne hne]
    exact hwords t (by omega)

theorem compress_congr {M M' : ℕ → Word} (h : ∀ j < 16, M j = M' j) (hash : Hash) :
    compress hash M = compress hash M' := by
  have hrounds : rounds M hash = rounds M' hash :=
    Counted.fold_congr fun t _ s => by rw [W_congr h t]
  rw [compress, compress, hrounds]

end Bytes

section Blocks

theorem byteAt_append_left {m n : List Byte} {i : ℕ} (h : i < m.length) :
    byteAt (m ++ n) i = byteAt m i := by
  simp only [byteAt, List.getD_eq_getElem?_getD, List.getElem?_append_left h]

theorem byteAt_append_right {m n : List Byte} {i : ℕ} (h : m.length ≤ i) :
    byteAt (m ++ n) i = byteAt n (i - m.length) := by
  simp only [byteAt, List.getD_eq_getElem?_getD, List.getElem?_append_right h]

theorem byteAt_drop {m : List Byte} {n i : ℕ} : byteAt (m.drop n) i = byteAt m (n + i) := by
  simp [byteAt, List.getD_eq_getElem?_getD, List.getElem?_drop]

theorem blockAt_zero (m : List Byte) (offset j : ℕ) :
    blockAt m (offset + 4 * j) 0 = blockAt m offset j := by
  simp only [blockAt, Nat.mul_zero, Nat.add_zero]

theorem blockAt_append_left {m n : List Byte} {offset j : ℕ} (h : offset + 64 ≤ m.length)
    (hj : j < 16) : blockAt (m ++ n) offset j = blockAt m offset j := by
  simp only [blockAt]
  rw [byteAt_append_left (by omega), byteAt_append_left (by omega), byteAt_append_left (by omega),
    byteAt_append_left (by omega)]

theorem blockAt_append_right (m n : List Byte) (offset j : ℕ) :
    blockAt (m ++ n) (m.length + offset) j = blockAt n offset j := by
  simp only [blockAt]
  rw [byteAt_append_right (by omega), byteAt_append_right (by omega),
    byteAt_append_right (by omega), byteAt_append_right (by omega)]
  simp only [Nat.add_assoc, Nat.add_sub_cancel_left]

theorem blockAt_drop (m : List Byte) (n offset j : ℕ) :
    blockAt (m.drop n) offset j = blockAt m (n + offset) j := by
  simp only [blockAt, byteAt_drop, Nat.add_assoc]

@[simp] theorem absorb_nil (hash : Hash) : absorb hash [] = hash := rfl

/-- A message of whole blocks, and what follows it. -/
theorem absorb_append (hash : Hash) {m : List Byte} (h : m.length % 64 = 0) (n : List Byte) :
    absorb hash (m ++ n) = absorb (absorb hash m) n := by
  obtain ⟨k, hk⟩ := Nat.dvd_of_mod_eq_zero h
  have hlength : (m ++ n).length / 64 = k + n.length / 64 := by
    rw [List.length_append, hk]
    omega
  have hfirst : ∀ i ≤ k,
      Nat.fold i (fun i _ hash => compress hash (blockAt (m ++ n) (64 * i))) hash =
        Nat.fold i (fun i _ hash => compress hash (blockAt m (64 * i))) hash := by
    intro i hi
    refine Counted.fold_congr fun j hj s => compress_congr (fun l hl => ?_) s
    exact blockAt_append_left (by omega) hl
  have hall : ∀ r, Nat.fold (k + r) (fun i _ hash => compress hash (blockAt (m ++ n) (64 * i)))
      hash = Nat.fold r (fun i _ hash => compress hash (blockAt n (64 * i)))
        (Nat.fold k (fun i _ hash => compress hash (blockAt m (64 * i))) hash) := by
    intro r
    induction r with
    | zero => exact hfirst k (Nat.le_refl k)
    | succ r ih =>
      rw [← Nat.add_assoc, Nat.fold_succ, Nat.fold_succ, ih]
      have hoffset : 64 * (k + r) = m.length + 64 * r := by omega
      exact compress_congr (fun j _ => by rw [hoffset, blockAt_append_right]) _
  have hblocks : m.length / 64 = k := by omega
  rw [absorb, hlength, hall, absorb, absorb, hblocks]

theorem absorb_block (hash : Hash) {m : List Byte} (h : m.length = 64) :
    absorb hash m = compress hash (blockAt m 0) := by
  rw [absorb, h]
  rfl

theorem byteAt_take {m : List Byte} {n i : ℕ} (h : i < n) : byteAt (m.take n) i = byteAt m i := by
  simp only [byteAt, List.getD_eq_getElem?_getD, List.getElem?_take_of_lt h]

theorem blockAt_take (m : List Byte) {n offset j : ℕ} (h : offset + 64 ≤ n) (hj : j < 16) :
    blockAt (m.take n) offset j = blockAt m offset j := by
  simp only [blockAt]
  rw [byteAt_take (by omega), byteAt_take (by omega), byteAt_take (by omega),
    byteAt_take (by omega)]

/-- One block out of a message. -/
theorem absorb_slice (hash : Hash) {m : List Byte} {n : ℕ} (h : n + 64 ≤ m.length) :
    absorb hash ((m.drop n).take 64) = compress hash (blockAt m n) := by
  have hlength : ((m.drop n).take 64).length = 64 := by
    rw [List.length_take, List.length_drop]
    omega
  rw [absorb_block hash hlength]
  refine compress_congr (fun j hj => ?_) hash
  rw [blockAt_take _ (Nat.le_refl 64) hj, blockAt_drop, Nat.add_zero]

end Blocks

end Nupp.Standard
