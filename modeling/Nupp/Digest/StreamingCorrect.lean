import Mathlib.Tactic.IntervalCases
import Nupp.Digest.Blocks
import Nupp.Digest.Streaming

/-! The streaming hasher against the standard: one block, the blocks of any chunks, and the
padding of what remains. -/

namespace Nupp.streaming

open Standard (Byte Word Hash blockAt absorb absorb_append absorb_block absorb_slice)

section Words

theorem smallSigmaZero_eq (w : Word) : smallSigmaZero w = Standard.smallSigma0 w := rfl
theorem smallSigmaOne_eq (w : Word) : smallSigmaOne w = Standard.smallSigma1 w := rfl
theorem bigSigmaZero_eq (w : Word) : bigSigmaZero w = Standard.bigSigma0 w := rfl
theorem bigSigmaOne_eq (w : Word) : bigSigmaOne w = Standard.bigSigma1 w := rfl

theorem constants_eq : Standard.K = ROUND_CONSTANTS.map i32 := rfl

theorem constant_eq (t : ℕ) : i32 (ROUND_CONSTANTS.getD t 0) = Standard.K.getD t 0 := by
  rw [constants_eq, List.getD_eq_getElem?_getD, List.getD_eq_getElem?_getD, List.getElem?_map]
  cases ROUND_CONSTANTS[t]? with
  | none => rfl
  | some c => rfl

end Words

section Compress

variable (source : List Byte) {words : ℕ → Word}

theorem word_eq (b₀ b₁ b₂ b₃ : Byte) :
    i32 (((b₀.toNat * 256 + b₁.toNat) * 256 + b₂.toNat) * 256 + b₃.toNat) =
      Standard.wordOf b₀ b₁ b₂ b₃ := by
  rw [← Standard.wordOf_toNat]
  rw [i32, BitVec.ofNat_toNat, BitVec.setWidth_eq]

theorem loadWords_eq (offset : ℕ) (words : ℕ → Word) {j : ℕ} (hj : j < 16) :
    loadWords source (offset + 1) words (j + 1) = blockAt source offset j := by
  have hall := Counted.fold_induction (n := 16) (s := (words, offset + 1))
    (f := fun i _ s =>
      let a := byte source s.2
      let b := byte source (s.2 + 1)
      let c := byte source (s.2 + 2)
      let d := byte source (s.2 + 3)
      (Function.update s.1 (i + 1) (i32 (((a * 256 + b) * 256 + c) * 256 + d)), s.2 + 4))
    (fun i s => s.2 = offset + 4 * i + 1 ∧ ∀ j < i, s.1 (j + 1) = blockAt source offset j)
    ⟨rfl, fun _ h => absurd h (Nat.not_lt_zero _)⟩
    fun i _ s h => by
      obtain ⟨hoffset, hwords⟩ := h
      refine ⟨by simp only [hoffset]; omega, fun k hk => ?_⟩
      rcases Nat.lt_succ_iff_lt_or_eq.mp hk with hlt | rfl
      · have hne : k + 1 ≠ i + 1 := by omega
        simp only [Function.update_of_ne hne]
        exact hwords k hlt
      · simp only [Function.update_self, hoffset]
        exact word_eq _ _ _ _
  exact hall.2 j hj

theorem extendWords_eq {M : ℕ → Word} (h : ∀ j < 16, words (j + 1) = M j) {t : ℕ} (ht : t < 64) :
    extendWords words (t + 1) = Standard.W M t := by
  have hindex (i : ℕ) : i + 17 = 1 + i + 16 := by omega
  have hfold : extendWords words = Nat.fold 48 (fun i _ words => Function.update words (1 + i + 16)
      (words (1 + i) + Standard.smallSigma0 (words (1 + i + 1)) +
        (words (1 + i + 9) + Standard.smallSigma1 (words (1 + i + 14))))) words := by
    refine Counted.fold_congr fun i _ words => ?_
    simp only [hindex]
    rfl
  rw [hfold, Nat.add_comm]
  exact Standard.schedule_eq 1 (fun j hj => by rw [Nat.add_comm, h j hj]) (fun _ _ => rfl) ht

theorem runRounds_eq {M : ℕ → Word} (h : ∀ t < 64, words (t + 1) = Standard.W M t) (hash : Hash) :
    runRounds words hash = Standard.rounds M hash := by
  refine Counted.fold_congr fun t ht s => ?_
  have hfirst : add (add s.h (bigSigmaOne s.e))
      (add (add (choose s.e s.f s.g) (i32 (ROUND_CONSTANTS.getD (t + 1 - 1) 0))) (words (t + 1))) =
      s.h + Standard.bigSigma1 s.e + Standard.Ch s.e s.f s.g + Standard.K.getD t 0 +
        Standard.W M t := by
    have hchoose : choose s.e s.f s.g = Standard.Ch s.e s.f s.g := rfl
    rw [Nat.add_sub_cancel, constant_eq, h t ht, bigSigmaOne_eq, hchoose]
    simp only [add]
    ac_rfl
  exact congrArg (fun first => ({
    a := first + (Standard.bigSigma0 s.a + Standard.Maj s.a s.b s.c), b := s.a, c := s.b, d := s.c,
    e := s.d + first, f := s.e, g := s.f, h := s.g } : Hash)) hfirst

theorem locals_addState (state : ℕ → Word) (s : Hash) :
    locals (addState state s) = (locals state).add s := rfl

/-- One block of the code is one block of the standard. -/
theorem compress_eq (self : Sha256) (offset : ℕ) :
    locals (compress self source (offset + 1)).state =
      Standard.compress (locals self.state) (blockAt source offset) := by
  have hwords {t : ℕ} (ht : t < 64) :=
    extendWords_eq (fun j hj => loadWords_eq source offset self.schedule hj) ht
  rw [compress, locals_addState, runRounds_eq fun t ht => hwords ht]
  rfl

end Compress

section Update

/-- The hasher has compressed some whole blocks and keeps the rest of what it was fed. -/
structure Taken (hasher : Sha256) (done : List Byte) : Prop where
  whole : done.length % 64 = 0
  short : hasher.tail.length < 64
  state : locals hasher.state = absorb Hash.initial done
  length : (hasher.length 2).toNat * 2 ^ 32 + (hasher.length 1).toNat =
    (done ++ hasher.tail).length % 2 ^ 64

def Holds (hasher : Sha256) (fed : List Byte) : Prop :=
  ∃ done, fed = done ++ hasher.tail ∧ Taken hasher done

theorem holds_new : Holds sha256 [] :=
  ⟨[], rfl, rfl, Nat.zero_lt_succ _, rfl, rfl⟩

theorem addLength_value (self : Sha256) {count : ℕ} (h : count < 2 ^ 32) :
    ((addLength self count).length 2).toNat * 2 ^ 32 + ((addLength self count).length 1).toNat =
      ((self.length 2).toNat * 2 ^ 32 + (self.length 1).toNat + count) % 2 ^ 64 := by
  have hlow := (self.length 1).isLt
  have hhigh := (self.length 2).isLt
  have hafter : (self.length 1 + i32 count).toNat = ((self.length 1).toNat + count) % 2 ^ 32 := by
    rw [BitVec.toNat_add, i32, BitVec.toNat_ofNat, Nat.add_mod_mod]
  have hcarry : (self.length 2 + 1).toNat = ((self.length 2).toNat + 1) % 2 ^ 32 :=
    BitVec.toNat_add _ _
  have h21 : (2 : ℕ) ≠ 1 := by decide
  simp only [addLength]
  split
  · next hwrap =>
    rw [hafter] at hwrap
    rw [Function.update_self, Function.update_of_ne h21.symm, Function.update_self,
      Function.update_of_ne h21, hafter, hcarry]
    omega
  · next hwrap =>
    rw [hafter] at hwrap
    rw [Function.update_of_ne h21, Function.update_self, hafter]
    omega

/-- The whole blocks from an offset on are compressed, and fewer than sixty-four bytes are
left. -/
theorem compressFrom_spec (self : Sha256) (bytes : List Byte) (k : ℕ) (hk : k ≤ bytes.length) :
    ∃ r, (compressFrom self bytes (k + 1)).2 = k + 64 * r + 1 ∧
      k + 64 * r ≤ bytes.length ∧ bytes.length < k + 64 * r + 64 ∧
      locals (compressFrom self bytes (k + 1)).1.state =
        absorb (locals self.state) ((bytes.drop k).take (64 * r)) ∧
      (compressFrom self bytes (k + 1)).1.tail = self.tail ∧
      (compressFrom self bytes (k + 1)).1.length = self.length := by
  induction hn : bytes.length - k using Nat.strongRecOn generalizing self k with
  | ind n ih =>
    rw [compressFrom]
    by_cases hblock : k + 1 + 63 ≤ bytes.length
    · have hoffset : k + 1 + 64 = k + 64 + 1 := by omega
      rw [if_pos hblock, hoffset]
      obtain ⟨r, hend, hle, hlt, hstate, htail, hlength⟩ :=
        ih (bytes.length - (k + 64)) (by omega) (compress self bytes (k + 1)) (k + 64) (by omega) rfl
      refine ⟨r + 1, by omega, by omega, by omega, ?_, htail, hlength⟩
      have hwhole : ((bytes.drop k).take 64).length % 64 = 0 := by
        rw [List.length_take, List.length_drop]
        omega
      have hsplit : (bytes.drop k).take (64 * (r + 1)) =
          (bytes.drop k).take 64 ++ (bytes.drop (k + 64)).take (64 * r) := by
        rw [Nat.mul_succ, Nat.add_comm, List.take_add, List.drop_drop]
      rw [hstate, compress_eq, hsplit, absorb_append _ hwhole, absorb_slice _ (by omega)]
    · rw [if_neg hblock]
      exact ⟨0, rfl, hk, by omega, by simp, rfl, rfl⟩

/-- What is fed after whole blocks. -/
theorem updateFrom_spec (self : Sha256) (bytes : List Byte) (k : ℕ) (hk : k ≤ bytes.length)
    {done : List Byte} (hwhole : done.length % 64 = 0) (htail : self.tail = [])
    (hstate : locals self.state = absorb Hash.initial done)
    (hlength : (self.length 2).toNat * 2 ^ 32 + (self.length 1).toNat =
      (done ++ bytes.drop k).length % 2 ^ 64) :
    Holds (updateFrom self bytes (k + 1)) (done ++ bytes.drop k) := by
  obtain ⟨r, hend, hle, hlt, hstate', htail', hlength'⟩ := compressFrom_spec self bytes k hk
  have hblocks : ((bytes.drop k).take (64 * r)).length = 64 * r := by
    rw [List.length_take, List.length_drop]
    omega
  have hrest : (updateFrom self bytes (k + 1)).tail = bytes.drop (k + 64 * r) := by
    simp only [updateFrom, hend]
    split
    · rfl
    · next hnone =>
      rw [htail', htail, List.drop_eq_nil_of_le (by omega)]
  have hkept : (updateFrom self bytes (k + 1)).state = (compressFrom self bytes (k + 1)).1.state ∧
      (updateFrom self bytes (k + 1)).length = self.length := by
    simp only [updateFrom]
    split
    · exact ⟨rfl, hlength'⟩
    · exact ⟨rfl, hlength'⟩
  have hparts : done ++ bytes.drop k =
      done ++ (bytes.drop k).take (64 * r) ++ bytes.drop (k + 64 * r) := by
    rw [List.append_assoc, ← List.drop_drop, List.take_append_drop]
  refine ⟨done ++ (bytes.drop k).take (64 * r), by rw [hrest, hparts], ?_, ?_, ?_, ?_⟩
  · rw [List.length_append, hblocks]
    omega
  · rw [hrest, List.length_drop]
    omega
  · rw [hkept.1, hstate', hstate, absorb_append _ hwhole]
  · rw [hkept.2, hlength, hrest, hparts]

theorem update_holds {self : Sha256} {fed : List Byte} (h : Holds self fed) (bytes : List Byte)
    (hbytes : bytes.length < 2 ^ 32) : Holds (update self bytes) (fed ++ bytes) := by
  obtain ⟨done, rfl, htaken⟩ := h
  have hshort := htaken.short
  have hvalue := addLength_value self hbytes
  have htotal : ((addLength self bytes.length).length 2).toNat * 2 ^ 32 +
      ((addLength self bytes.length).length 1).toNat =
        (done ++ (self.tail ++ bytes)).length % 2 ^ 64 := by
    rw [hvalue, htaken.length, Nat.mod_add_mod, ← List.length_append, List.append_assoc]
  have htail : (addLength self bytes.length).tail = self.tail := rfl
  have hstate : (addLength self bytes.length).state = self.state := rfl
  simp only [update, htail]
  split
  · next hpos =>
    split
    · next hfew =>
      refine ⟨done, List.append_assoc .., htaken.whole, ?_, htaken.state, htotal⟩
      simp only [List.length_append]
      omega
    · next hmany =>
      have hfirst : (self.tail ++ subTo bytes (64 - self.tail.length)).length = 64 := by
        rw [subTo, List.length_append, List.length_take]
        omega
      have hsplit : done ++ self.tail ++ bytes =
          done ++ (self.tail ++ subTo bytes (64 - self.tail.length)) ++
            bytes.drop (64 - self.tail.length) := by
        rw [subTo, List.append_assoc, List.append_assoc, List.append_assoc,
          List.take_append_drop]
      rw [hsplit]
      refine updateFrom_spec _ bytes (64 - self.tail.length) (by omega) ?_ rfl ?_ ?_
      · rw [List.length_append, hfirst]
        have hwhole := htaken.whole
        omega
      · have hblock := compress_eq (self.tail ++ subTo bytes (64 - self.tail.length))
          (addLength self bytes.length) 0
        rw [hstate, htaken.state, ← absorb_block _ hfirst, ← absorb_append _ htaken.whole] at hblock
        exact hblock
      · rw [← hsplit, List.append_assoc]
        exact htotal
  · next hempty =>
    have hnil : self.tail = [] := List.eq_nil_of_length_eq_zero (by omega)
    have hdone : done ++ self.tail ++ bytes = done ++ bytes.drop 0 := by
      rw [hnil, List.append_nil, List.drop_zero]
    rw [hdone]
    refine updateFrom_spec _ bytes 0 (Nat.zero_le _) htaken.whole hnil htaken.state ?_
    rw [htotal, ← List.append_assoc, hdone]

end Update

section Digest

variable {self : Sha256} {fed : List Byte}

theorem copy_locals (self : Sha256) : locals (copy self).state = locals self.state := rfl

theorem numberBytes_eq (w : Word) : numberBytes w.toNat = Standard.wordBytes w := by
  have hbyte (a b : ℕ) (h : a % 256 = b % 256) : BitVec.ofNat 8 a = BitVec.ofNat 8 b :=
    BitVec.eq_of_toNat_eq (by simpa using h)
  have hrange : List.range 4 = [0, 1, 2, 3] := rfl
  simp only [numberBytes, Standard.wordBytes, hrange, List.map_cons, List.map_nil, List.cons.injEq,
    and_true]
  exact ⟨hbyte _ _ (by omega), hbyte _ _ (by omega), hbyte _ _ (by omega), hbyte _ _ (by omega)⟩

/-- The length in bits, out of two words of the length in bytes. -/
theorem lengthBytes_eq {high low : Word} {n : ℕ} (hn : n < 2 ^ 61)
    (h : high.toNat * 2 ^ 32 + low.toNat = n) :
    lengthBytes ((high <<< 3) ||| (low >>> 29)) (low <<< 3) = Standard.lengthBytes n := by
  have hlow := low.isLt
  have hbyte (a b : ℕ) (h : a % 256 = b % 256) : BitVec.ofNat 8 a = BitVec.ofNat 8 b :=
    BitVec.eq_of_toNat_eq (by simpa using h)
  have hlast : (low <<< 3).toNat = 8 * n % 2 ^ 32 := by
    rw [BitVec.toNat_shiftLeft, Nat.shiftLeft_eq]
    omega
  have hfirst : ((high <<< 3) ||| (low >>> 29)).toNat = 8 * n / 2 ^ 32 := by
    have hless : high.toNat < 2 ^ 29 := by omega
    rw [BitVec.toNat_or, BitVec.toNat_shiftLeft, BitVec.toNat_ushiftRight, Nat.shiftLeft_eq,
      Nat.shiftRight_eq_div_pow, Nat.mod_eq_of_lt (by omega), ← Nat.shiftLeft_eq,
      ← Nat.shiftLeft_add_eq_or_of_lt (by omega), Nat.shiftLeft_eq]
    omega
  have hrange : List.range 8 = [0, 1, 2, 3, 4, 5, 6, 7] := rfl
  simp only [lengthBytes, numberBytes, Standard.lengthBytes, hfirst, hlast, hrange, List.map_cons,
    List.map_nil, List.cons_append, List.nil_append, List.cons.injEq, and_true]
  exact ⟨hbyte _ _ (by omega), hbyte _ _ (by omega), hbyte _ _ (by omega), hbyte _ _ (by omega),
    hbyte _ _ (by omega), hbyte _ _ (by omega), hbyte _ _ (by omega), hbyte _ _ (by omega)⟩

/-- The loop over the padded tail. -/
theorem compressAll_eq (self : Sha256) (tail : List Byte) (h : tail.length % 64 = 0) :
    locals (((tail.length + 63) / 64).fold (fun i _ state => compress state tail (64 * i + 1))
      self).state = absorb (locals self.state) tail := by
  have hcount : (tail.length + 63) / 64 = tail.length / 64 := by omega
  rw [hcount]
  exact Counted.fold_rel (fun _ (state : Sha256) (hash : Hash) => locals state.state = hash) rfl
    fun i _ state hash hsame => by rw [compress_eq, hsame]

theorem finalState_eq (h : Holds self fed) (hfed : fed.length < 2 ^ 61) :
    locals (finalState self).state =
      absorb Hash.initial (fed ++ Standard.padding fed.length) := by
  obtain ⟨done, rfl, htaken⟩ := h
  have hlength : (self.length 2).toNat * 2 ^ 32 + (self.length 1).toNat =
      (done ++ self.tail).length := by
    rw [htaken.length, Nat.mod_eq_of_lt (by omega)]
  have hzeros : ((56 - ((self.tail ++ [(128 : Byte)]).length % 64 : ℕ) : ℤ) % 64).toNat =
      Standard.zeros (done ++ self.tail).length := by
    have hwhole := htaken.whole
    have hshort := htaken.short
    simp only [List.length_append, List.length_singleton, Standard.zeros]
    omega
  have htail : self.tail ++ [(128 : Byte)] ++
      List.replicate ((56 - ((self.tail ++ [(128 : Byte)]).length % 64 : ℕ) : ℤ) % 64).toNat
        (0 : Byte) ++
      lengthBytes (((copy self).length 2 <<< 3) ||| ((copy self).length 1 >>> 29))
        ((copy self).length 1 <<< 3) =
      self.tail ++ Standard.padding (done ++ self.tail).length := by
    have hcopy : (copy self).length 2 = self.length 2 ∧ (copy self).length 1 = self.length 1 :=
      ⟨rfl, rfl⟩
    rw [hcopy.1, hcopy.2, lengthBytes_eq hfed hlength, hzeros, Standard.padding]
    simp only [List.append_assoc, List.cons_append, List.nil_append]
  have hwhole : (self.tail ++ Standard.padding (done ++ self.tail).length).length % 64 = 0 := by
    have hfit := Standard.zeros_fit (done ++ self.tail).length
    have hdone := htaken.whole
    rw [List.length_append, Standard.padding_length]
    rw [List.length_append] at hfit ⊢
    omega
  have hrun := compressAll_eq (copy self) _ hwhole
  rw [copy_locals, htaken.state, ← absorb_append _ htaken.whole, ← List.append_assoc, ← htail]
    at hrun
  exact hrun

theorem words_eq (state : ℕ → Word) :
    ((List.range 8).flatMap fun i => numberBytes (state (i + 1)).toNat) =
      (locals state).bytes := by
  simp only [numberBytes_eq]
  rfl

theorem digest_eq (h : Holds self fed) (hfed : fed.length < 2 ^ 61) :
    digest self = Standard.sha256 fed := by
  rw [digest, rawDigest, words_eq, finalState_eq h hfed]
  rfl

theorem hexadecimal_eq (raw : List Byte) : hexadecimal raw = Standard.hex raw := rfl

/-- A digest at the first thirty-two places of a table. -/
def placed (raw : List Byte) (destination : ℕ → Byte) (index : ℕ) : Byte :=
  if 1 ≤ index ∧ index ≤ 32 then raw.getD (index - 1) 0 else destination index

theorem writeDigest_eq (self : Sha256) (destination : ℕ → Byte) :
    writeDigest self destination = placed (digest self) destination := by
  funext index
  rw [placed]
  split
  · next hin =>
    obtain ⟨hlow, hhigh⟩ := hin
    interval_cases index <;> rfl
  · next hout =>
    refine Counted.fold_induction (fun _ (table : ℕ → Byte) => table index = destination index)
      rfl fun i hi table htable => ?_
    refine Counted.fold_induction (fun _ (table : ℕ → Byte) => table index = destination index)
      htable fun b hb table htable => ?_
    have hne : index ≠ (i + 1 - 1) * 4 + b + 1 := by omega
    simp only [Function.update_of_ne hne]
    exact htable

end Digest

end Nupp.streaming
