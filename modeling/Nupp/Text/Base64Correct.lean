import Nupp.Text.Base64

/-! The decoder takes the texts the encoder writes, and no others. -/

namespace Nupp.Base64

open Loop Words

/-! The inverse of the alphabet. -/

/-- The entry of a character. -/
def code (c : UInt8) : UInt8 := INVERSE.getD c.toNat 0

theorem length_inverse : INVERSE.length = 256 := by decide +kernel

theorem code_letter_table : ∀ i : Fin 64, (code (letter i.val)).toNat = i := by decide +kernel

theorem code_letter {i : ℕ} (h : i < 64) : (code (letter i)).toNat = i := code_letter_table ⟨i, h⟩

theorem code_table : ∀ c : Fin 256, code (UInt8.ofNat c) = 255 ∨
    (code (UInt8.ofNat c)).toNat < 64 ∧ letter (code (UInt8.ofNat c)).toNat = UInt8.ofNat c := by decide +kernel

/-- A character is outside the alphabet, or the letter of its entry. -/
theorem code_cases (c : UInt8) : code c = 255 ∨ (code c).toNat < 64 ∧ letter (code c).toNat = c := by
  have h := code_table ⟨c.toNat, c.toNat_lt⟩
  rwa [UInt8.ofNat_toNat] at h

theorem letter_code {c : UInt8} (h : (code c).toNat < 64) : letter (code c).toNat = c := by
  rcases code_cases c with heq | ⟨-, hletter⟩
  · rw [heq] at h
    exact absurd h (by decide)
  · exact hletter

theorem code_pad : code 61 = 255 := by decide +kernel

theorem letter_ne_pad {i : ℕ} (h : i < 64) : letter i ≠ 61 := by
  intro heq
  have hcode := code_letter h
  rw [heq, code_pad] at hcode
  have : (255 : UInt8).toNat = 255 := rfl
  omega

theorem inverse_drop {text : Bytes} {offset : UInt32} {i : ℕ} (hoffset : offset.toNat = i) {c : UInt8} {rest : Bytes}
    (h : text.drop i = c :: rest) : inverse text offset = some (code c).toUInt32 := by
  have hlt : c.toUInt32.toNat < INVERSE.length := by
    rw [length_inverse, UInt8.toNat_toUInt32]
    exact c.toNat_lt
  rw [inverse, byte_drop hoffset h]
  simp only [Option.bind_eq_bind, Option.bind_some, byte, List.getElem?_eq_getElem hlt, Option.map_some, code]
  rw [List.getD_eq_getElem _ _ (by rwa [UInt8.toNat_toUInt32] at hlt)]
  rfl

/-! The bytes of a text. -/

/-- The byte of the high bits of one entry and the low bits of the next. -/
def joined (high low : ℕ) : UInt8 := UInt8.ofNat (high + low)

/-- The bytes of the text of some bytes. -/
def decodeText : Bytes → Bytes
  | a :: b :: c :: d :: rest =>
    let x := joined ((code a).toNat * 4) ((code b).toNat / 16)
    let y := joined ((code b).toNat % 16 * 16) ((code c).toNat / 4)
    let z := joined ((code c).toNat % 4 * 64) (code d).toNat
    (if c = 61 then [x] else if d = 61 then [x, y] else [x, y, z]) ++ decodeText rest
  | _ => []

theorem joined_eq {x : UInt8} {high low : ℕ} (h : high + low = x.toNat) : joined high low = x := by
  rw [joined, h, UInt8.ofNat_toNat]

theorem decodeText_encode (s : Bytes) : decodeText (encode s) = s := by
  fun_induction encode s with
  | case1 => rfl
  | case2 x =>
    have hx := x.toNat_lt
    have h0 := code_letter (show x.toNat / 4 < 64 by omega)
    have h1 := code_letter (show x.toNat % 4 * 16 < 64 by omega)
    simp only [decodeText, if_true, h0, h1, List.append_nil]
    rw [joined_eq (x := x) (by omega)]
  | case3 x y =>
    have hx := x.toNat_lt
    have hy := y.toNat_lt
    have h0 := code_letter (show x.toNat / 4 < 64 by omega)
    have h1 := code_letter (show x.toNat % 4 * 16 + y.toNat / 16 < 64 by omega)
    have h2 := code_letter (show y.toNat % 16 * 4 < 64 by omega)
    have hpad := letter_ne_pad (show y.toNat % 16 * 4 < 64 by omega)
    simp only [decodeText, if_neg hpad, if_true, h0, h1, h2, List.append_nil]
    rw [joined_eq (x := x) (by omega), joined_eq (x := y) (by omega)]
  | case4 x y z rest ih =>
    have hx := x.toNat_lt
    have hy := y.toNat_lt
    have hz := z.toNat_lt
    have h0 := code_letter (show x.toNat / 4 < 64 by omega)
    have h1 := code_letter (show x.toNat % 4 * 16 + y.toNat / 16 < 64 by omega)
    have h2 := code_letter (show y.toNat % 16 * 4 + z.toNat / 64 < 64 by omega)
    have h3 := code_letter (show z.toNat % 64 < 64 by omega)
    have hpad := letter_ne_pad (show y.toNat % 16 * 4 + z.toNat / 64 < 64 by omega)
    have hpad' := letter_ne_pad (show z.toNat % 64 < 64 by omega)
    simp only [quad, List.cons_append, List.nil_append, decodeText, if_neg hpad, if_neg hpad', h0, h1, h2, h3, ih]
    rw [joined_eq (x := x) (by omega), joined_eq (x := y) (by omega), joined_eq (x := z) (by omega)]

theorem encode_injective {s t : Bytes} (h : encode s = encode t) : s = t := by
  rw [← decodeText_encode s, h, decodeText_encode]

/-- Four letters are the text of the three bytes they spell. -/
theorem quad_codes {a b c d : UInt8} (ha : (code a).toNat < 64) (hb : (code b).toNat < 64) (hc : (code c).toNat < 64)
    (hd : (code d).toNat < 64) {x y z : UInt8} (hx : x.toNat = (code a).toNat * 4 + (code b).toNat / 16)
    (hy : y.toNat = (code b).toNat % 16 * 16 + (code c).toNat / 4)
    (hz : z.toNat = (code c).toNat % 4 * 64 + (code d).toNat) : quad x y z = [a, b, c, d] := by
  have h0 : x.toNat / 4 = (code a).toNat := by omega
  have h1 : x.toNat % 4 * 16 + y.toNat / 16 = (code b).toNat := by omega
  have h2 : y.toNat % 16 * 4 + z.toNat / 64 = (code c).toNat := by omega
  have h3 : z.toNat % 64 = (code d).toNat := by omega
  rw [quad, h0, h1, h2, h3, letter_code ha, letter_code hb, letter_code hc, letter_code hd]

/-- Every character of a text without padding is a letter. -/
theorem code_mem_encode {s : Bytes} (h : s.length % 3 = 0) {c : UInt8} (hc : c ∈ encode s) : (code c).toNat < 64 := by
  fun_induction encode s with
  | case1 => simp at hc
  | case2 x => simp at h
  | case3 x y => simp at h
  | case4 x y z rest ih =>
    have hx := x.toNat_lt
    have hy := y.toNat_lt
    have hz := z.toNat_lt
    rcases List.mem_append.mp hc with hc | hc
    · simp only [quad, List.mem_cons, List.not_mem_nil, or_false] at hc
      rcases hc with rfl | rfl | rfl | rfl
      · rw [code_letter (by omega)]
        omega
      · rw [code_letter (by omega)]
        omega
      · rw [code_letter (by omega)]
        omega
      · rw [code_letter (by omega)]
        omega
    · refine ih ?_ hc
      simp only [List.length_cons] at h
      omega

/-- How the text of some bytes ends. -/
theorem encode_split (s : Bytes) : ∃ front, front.length % 3 = 0 ∧ (encode s = encode front ∨
    (∃ x : UInt8, encode s = encode front ++ [letter (x.toNat / 4), letter (x.toNat % 4 * 16), 61, 61]) ∨
    ∃ x y : UInt8, encode s = encode front ++
      [letter (x.toNat / 4), letter (x.toNat % 4 * 16 + y.toNat / 16), letter (y.toNat % 16 * 4), 61]) := by
  have hlen : (s.take (s.length / 3 * 3)).length % 3 = 0 := by
    rw [List.length_take]
    omega
  refine ⟨s.take (s.length / 3 * 3), hlen, ?_⟩
  have hsplit : encode s = encode (s.take (s.length / 3 * 3)) ++ encode (s.drop (s.length / 3 * 3)) := by
    rw [← encode_append hlen, List.take_append_drop]
  rcases hdrop : s.drop (s.length / 3 * 3) with _ | ⟨x, _ | ⟨y, _ | ⟨z, rest⟩⟩⟩
  · left
    rw [hsplit, hdrop, encode, List.append_nil]
  · right
    left
    exact ⟨x, by rw [hsplit, hdrop, encode]⟩
  · right
    right
    exact ⟨x, y, by rw [hsplit, hdrop, encode]⟩
  · have := congrArg List.length hdrop
    simp only [List.length_drop, List.length_cons] at this
    omega

/-! The loop. -/

/-- The twenty-four bits of four entries, where each is a letter's. -/
theorem value_codes {a b c d : UInt8} (ha : a.toNat < 64) (hb : b.toNat < 64) (hc : c.toNat < 64) (hd : d.toNat < 64) :
    (((a.toUInt32 <<< 18) ||| (b.toUInt32 <<< 12)) ||| ((c.toUInt32 <<< 6) ||| d.toUInt32)).toNat =
      a.toNat * 262144 + b.toNat * 4096 + c.toNat * 64 + d.toNat := by
  have h0 : (a.toUInt32 <<< 18).toNat = a.toNat * 262144 := by
    rw [toNat_shiftLeft (n := 18) rfl (by norm_num), UInt8.toNat_toUInt32]
    omega
  have h1 : (b.toUInt32 <<< 12).toNat = b.toNat * 4096 := by
    rw [toNat_shiftLeft (n := 12) rfl (by norm_num), UInt8.toNat_toUInt32]
    omega
  have h2 : (c.toUInt32 <<< 6).toNat = c.toNat * 64 := by
    rw [toNat_shiftLeft (n := 6) rfl (by norm_num), UInt8.toNat_toUInt32]
    omega
  have h3 : d.toUInt32.toNat = d.toNat := UInt8.toNat_toUInt32 d
  have hhigh : ((a.toUInt32 <<< 18) ||| (b.toUInt32 <<< 12)).toNat = a.toNat * 262144 + b.toNat * 4096 := by
    rw [toNat_or_low 18 (by omega) (by omega), h0, h1]
  have hlow : ((c.toUInt32 <<< 6) ||| d.toUInt32).toNat = c.toNat * 64 + d.toNat := by
    rw [toNat_or_low 6 (by omega) (by omega), h2, h3]
  rw [toNat_or_low 12 (by omega) (by omega), hhigh, hlow]
  omega

/-- The bytes of a word, the three lowest of them from the high one down. -/
theorem byte_value (v : UInt32) : ((v >>> 16) &&& 255).toNat = v.toNat / 65536 % 256 ∧
    ((v >>> 8) &&& 255).toNat = v.toNat / 256 % 256 ∧ (v &&& 255).toNat = v.toNat % 256 := by
  refine ⟨?_, ?_, toNat_and_low (n := 8) rfl⟩
  · rw [toNat_and_low (n := 8) rfl, toNat_shiftRight (n := 16) rfl (by norm_num)]
    rfl
  · rw [toNat_and_low (n := 8) rfl, toNat_shiftRight (n := 8) rfl (by norm_num)]
    rfl

/-- A byte of a word is written behind what is there. -/
theorem writes_byte (scratch : Scratch) (index : UInt32) {v : UInt32} {x : ℕ} (hv : v.toNat = x % 256)
    (hindex : index.toNat = scratch.bytes.length) (hcapacity : index.toNat < scratch.capacity.toNat) :
    setScratchByte scratch index v = some { scratch with bytes := scratch.bytes ++ [UInt8.ofNat x] } := by
  have hbyte : UInt8.ofNat (x % 256) = UInt8.ofNat x := by
    apply UInt8.toNat_inj.mp
    rw [UInt8.toNat_ofNat', UInt8.toNat_ofNat']
    omega
  rw [setScratchByte_end hindex (UInt32.lt_iff_toNat_lt.mpr hcapacity) (by omega), hv, hbyte]

/-- The loop has decoded the text up to some characters, or seen one that is no letter. -/
structure Decoded (text : Bytes) (capacity : UInt32) (x : Decoding) (k : ℕ) : Prop where
  at_eq : x.state.at_.toNat = 4 * k
  le_length : 4 * k ≤ text.length
  out_eq : x.state.out.toNat = 3 * k
  capacity_eq : x.state.scratch.capacity = capacity
  length_eq : x.state.scratch.bytes.length = 3 * k
  good : x.bad.toNat < 64 → encode x.state.scratch.bytes = text.take (4 * k)
  bad : 64 ≤ x.bad.toNat → ∃ c ∈ text.take (4 * k), code c = 255

theorem exists_four {l : Bytes} (h : 4 ≤ l.length) : ∃ a b c d rest, l = a :: b :: c :: d :: rest := by
  obtain ⟨a, b, c, rest, rfl⟩ := exists_three (show 3 ≤ l.length by omega)
  rcases rest with _ | ⟨d, rest⟩
  · simp at h
  · exact ⟨a, b, c, d, rest, rfl⟩

variable {text : Bytes} {capacity whole : UInt32} {x : Decoding} {k : ℕ}

/-- The bits of all characters are those of letters if each one's are. -/
theorem bad_lt_iff {bad a b c d : UInt32} : (bad ||| ((a ||| b) ||| (c ||| d))).toNat < 64 ↔
    bad.toNat < 64 ∧ (a.toNat < 64 ∧ b.toNat < 64) ∧ c.toNat < 64 ∧ d.toNat < 64 := by
  have hor : ∀ u v : UInt32, (u ||| v).toNat < 64 ↔ u.toNat < 64 ∧ v.toNat < 64 := fun u v => or_lt_iff 6
  rw [hor, hor, hor, hor]

theorem decodeStep_more (hlen : text.length + 4 < 2 ^ 32) (hcapacity : capacity.toNat = text.length + 4)
    (h : Decoded text capacity x k) (hmore : 4 * (k + 1) ≤ text.length) (hwhole : x.state.at_ < whole) :
    ∃ x', decodeStep text whole x = some (.inl x') ∧ Decoded text capacity x' (k + 1) := by
  obtain ⟨hat, -, hout, hcap, hcount, hgood, hbad⟩ := h
  have hrest : 4 ≤ (text.drop (4 * k)).length := by
    rw [List.length_drop]
    omega
  obtain ⟨a, b, c, d, rest, hdrop⟩ := exists_four hrest
  have htake : text.take (4 * (k + 1)) = text.take (4 * k) ++ [a, b, c, d] := by
    rw [show 4 * (k + 1) = 4 * k + 4 by omega, List.take_add, hdrop]
    rfl
  have hone : (1 : UInt32).toNat = 1 := rfl
  have htwo : (2 : UInt32).toNat = 2 := rfl
  have hthree : (3 : UInt32).toNat = 3 := rfl
  have hfour : (4 : UInt32).toNat = 4 := rfl
  have ha := inverse_drop hat hdrop
  have hb : inverse text (x.state.at_ + 1) = some (code b).toUInt32 :=
    inverse_drop (i := 4 * k + 1) (by rw [toNat_add (by omega)]; omega) (by rw [← List.drop_drop, hdrop]; rfl)
  have hc : inverse text (x.state.at_ + 2) = some (code c).toUInt32 :=
    inverse_drop (i := 4 * k + 2) (by rw [toNat_add (by omega)]; omega) (by rw [← List.drop_drop, hdrop]; rfl)
  have hd : inverse text (x.state.at_ + 3) = some (code d).toUInt32 :=
    inverse_drop (i := 4 * k + 3) (by rw [toNat_add (by omega)]; omega) (by rw [← List.drop_drop, hdrop]; rfl)
  have hout1 : (x.state.out + 1).toNat = 3 * k + 1 := by rw [toNat_add (by omega)]; omega
  have hout2 : (x.state.out + 2).toNat = 3 * k + 2 := by rw [toNat_add (by omega)]; omega
  generalize hvalue : (((code a).toUInt32 <<< 18) ||| ((code b).toUInt32 <<< 12)) |||
    (((code c).toUInt32 <<< 6) ||| (code d).toUInt32) = v
  obtain ⟨hv0, hv1, hv2⟩ := byte_value v
  have hs0 := writes_byte x.state.scratch x.state.out hv0 (by omega) (by rw [hcap]; omega)
  have hs1 := writes_byte ⟨x.state.scratch.capacity, x.state.scratch.bytes ++ [UInt8.ofNat (v.toNat / 65536)]⟩
    (x.state.out + 1) hv1 (by rw [List.length_append, List.length_singleton]; omega) (by dsimp only; rw [hcap]; omega)
  have hs2 := writes_byte ⟨x.state.scratch.capacity, x.state.scratch.bytes ++ [UInt8.ofNat (v.toNat / 65536)] ++
    [UInt8.ofNat (v.toNat / 256)]⟩ (x.state.out + 2) hv2
    (by simp only [List.length_append, List.length_singleton]; omega) (by dsimp only; rw [hcap]; omega)
  refine ⟨⟨⟨x.state.at_ + 4, x.state.out + 3, ⟨x.state.scratch.capacity, x.state.scratch.bytes ++
    [UInt8.ofNat (v.toNat / 65536)] ++ [UInt8.ofNat (v.toNat / 256)] ++ [UInt8.ofNat v.toNat]⟩⟩,
    x.bad ||| (((code a).toUInt32 ||| (code b).toUInt32) ||| ((code c).toUInt32 ||| (code d).toUInt32))⟩,
    ?_, ?_, hmore, ?_, hcap, ?_, ?_, ?_⟩
  · rw [decodeStep, if_pos hwhole]
    simp only [ha, hb, hc, hd, Option.bind_eq_bind, Option.bind_some, hvalue, hs0, hs1, hs2]
    rfl
  · dsimp only
    rw [toNat_add (by omega)]
    omega
  · dsimp only
    rw [toNat_add (by omega)]
    omega
  · simp only [List.length_append, List.length_singleton]
    omega
  · intro hok
    rw [bad_lt_iff] at hok
    simp only [UInt8.toNat_toUInt32] at hok
    obtain ⟨hold, ⟨hca, hcb⟩, hcc, hcd⟩ := hok
    have hsum := value_codes hca hcb hcc hcd
    rw [hvalue] at hsum
    have hquad : quad (UInt8.ofNat (v.toNat / 65536)) (UInt8.ofNat (v.toNat / 256)) (UInt8.ofNat v.toNat) =
        [a, b, c, d] := by
      refine quad_codes hca hcb hcc hcd ?_ ?_ ?_
      · rw [UInt8.toNat_ofNat']
        omega
      · rw [UInt8.toNat_ofNat']
        omega
      · rw [UInt8.toNat_ofNat']
        omega
    dsimp only
    rw [List.append_assoc, List.append_assoc, encode_append (by omega), hgood hold, htake, ← hquad]
    rfl
  · intro hok
    rw [htake]
    by_cases hold : x.bad.toNat < 64
    · have hsome : ∃ c' ∈ [a, b, c, d], code c' = 255 := by
        by_contra hnone
        push Not at hnone
        have hlt : ∀ c' ∈ [a, b, c, d], (code c').toNat < 64 := fun c' hc' =>
          ((code_cases c').resolve_left (hnone c' hc')).1
        refine absurd (bad_lt_iff.mpr ⟨hold, ⟨?_, ?_⟩, ?_, ?_⟩) (Nat.not_lt.mpr hok)
        · rw [UInt8.toNat_toUInt32]
          exact hlt a (by simp)
        · rw [UInt8.toNat_toUInt32]
          exact hlt b (by simp)
        · rw [UInt8.toNat_toUInt32]
          exact hlt c (by simp)
        · rw [UInt8.toNat_toUInt32]
          exact hlt d (by simp)
      obtain ⟨c', hc', hcode⟩ := hsome
      exact ⟨c', List.mem_append_right _ hc', hcode⟩
    · obtain ⟨c', hc', hcode⟩ := hbad (not_lt.mp hold)
      exact ⟨c', List.mem_append_left _ hc', hcode⟩

/-- The loop runs over the whole groups of the text. -/
theorem decodeLoop_spec (hlen : text.length + 4 < 2 ^ 32) {n : ℕ} (hwhole : whole.toNat = 4 * n)
    (hn : 4 * n ≤ text.length) :
    ∃ x, loop (decodeStep text whole) (text.length + 1) ⟨⟨0, 0, newByteScratch (len text + 4)⟩, 0⟩ = some x ∧
      Decoded text (len text + 4) x n := by
  have hfour : (4 : UInt32).toNat = 4 := rfl
  have hlength : (len text).toNat = text.length := by
    rw [len, UInt32.toNat_ofNat']
    omega
  have hcapacity : (len text + 4).toNat = text.length + 4 := by
    rw [toNat_add (by omega)]
    omega
  have hstart : Decoded text (len text + 4) ⟨⟨0, 0, newByteScratch (len text + 4)⟩, 0⟩ 0 :=
    ⟨rfl, Nat.zero_le _, rfl, rfl, rfl, fun _ => rfl, fun h => absurd (show 64 ≤ (0 : UInt32).toNat from h) (by decide)⟩
  have hstep : Advances (decodeStep text whole)
      (fun x => ∃ k ≤ n, Decoded text (len text + 4) x k) (fun x => text.length - x.state.at_.toNat)
      (fun x => Decoded text (len text + 4) x n) := by
    rintro x ⟨k, hk, hx⟩
    have hat := hx.at_eq
    by_cases hmore : x.state.at_ < whole
    · have hlt := UInt32.lt_iff_toNat_lt.mp hmore
      obtain ⟨x', hrun, hx'⟩ := decodeStep_more hlen hcapacity hx (by omega) hmore
      have hat' := hx'.at_eq
      exact .inl ⟨x', hrun, ⟨k + 1, by omega, hx'⟩, by dsimp only; omega⟩
    · have hle : ¬x.state.at_.toNat < whole.toNat := fun h => hmore (UInt32.lt_iff_toNat_lt.mpr h)
      obtain rfl : k = n := by omega
      exact .inr ⟨x, by rw [decodeStep, if_neg hmore], hx⟩
  exact loop_total hstep ⟨0, Nat.zero_le _, hstart⟩
    (show text.length - (0 : UInt32).toNat < text.length + 1 by omega)

/-! The padding. -/

theorem toUInt32_eq_pad {c : UInt8} : c.toUInt32 = 61 ↔ c = 61 := by
  rw [← UInt32.toNat_inj, ← UInt8.toNat_inj, UInt8.toNat_toUInt32]
  rfl

theorem paddingOf_nil : paddingOf [] (len []) = some 0 := rfl

theorem paddingOf_four {front : Bytes} {a b c d : UInt8} (hlen : (front ++ [a, b, c, d]).length < 2 ^ 32) :
    paddingOf (front ++ [a, b, c, d]) (len (front ++ [a, b, c, d])) =
      some (if d = 61 then if c = 61 then 2 else 1 else 0) := by
  have hlength : (len (front ++ [a, b, c, d])).toNat = front.length + 4 := by
    rw [len, UInt32.toNat_ofNat']
    simp only [List.length_append, List.length_cons, List.length_nil] at hlen ⊢
    omega
  have hzero : (0 : UInt32).toNat = 0 := rfl
  have hone : (1 : UInt32).toNat = 1 := rfl
  have htwo : (2 : UInt32).toNat = 2 := rfl
  generalize hl : len (front ++ [a, b, c, d]) = length at hlength
  have hpos : length > 0 := UInt32.lt_iff_toNat_lt.mpr (by omega)
  have hgt : length > 1 := UInt32.lt_iff_toNat_lt.mpr (by omega)
  have hlast : byte (front ++ [a, b, c, d]) (length - 1) = some d.toUInt32 := by
    have hdrop : (front ++ [a, b, c, d]).drop (front.length + 3) = [d] := by
      rw [← List.drop_drop, List.drop_left]
      rfl
    refine byte_drop ?_ hdrop
    rw [UInt32.toNat_sub_of_le _ _ (UInt32.le_iff_toNat_le.mpr (by omega))]
    omega
  have hbefore : byte (front ++ [a, b, c, d]) (length - 2) = some c.toUInt32 := by
    have hdrop : (front ++ [a, b, c, d]).drop (front.length + 2) = [c, d] := by
      rw [← List.drop_drop, List.drop_left]
      rfl
    refine byte_drop ?_ hdrop
    rw [UInt32.toNat_sub_of_le _ _ (UInt32.le_iff_toNat_le.mpr (by omega))]
    omega
  rw [paddingOf, if_pos hpos]
  simp only [hlast, hbefore, Option.bind_eq_bind, Option.bind_some, toUInt32_eq_pad]
  by_cases hd : d = 61
  · by_cases hc : c = 61
    · simp [hd, hc, hgt]
    · simp [hd, hc, hgt]
  · simp [hd]

/-- What the decoder answers: the bytes of the text, or that it is the text of none. -/
structure Answers (text : Bytes) (r : Option Bytes) : Prop where
  some_eq : ∀ s, r = some s → encode s = text
  none_ne : r = none → ∀ s, encode s ≠ text

theorem stringScratch_out {scratch : Scratch} {out : UInt32} {n : ℕ} (hout : out.toNat = n)
    (hlen : scratch.bytes.length = n) : stringScratch scratch 0 out = some scratch.bytes :=
  stringScratch_all (hout.trans hlen.symm)

theorem bad_gt_iff {v : UInt32} : v > 63 ↔ ¬v.toNat < 64 := by
  have h : (63 : UInt32).toNat = 63 := rfl
  rw [gt_iff_lt, UInt32.lt_iff_toNat_lt, h]
  omega

/-- A text that does not end in padding. -/
theorem decodeAot_plain (hlen : text.length + 4 < 2 ^ 32) (hfour : text.length % 4 = 0)
    (hpadding : paddingOf text (len text) = some 0) (hlast : text.getLast? ≠ some 61) :
    ∃ r, decodeAot text = some r ∧ Answers text r := by
  have hlength : (len text).toNat = 4 * (text.length / 4) := by
    rw [len, UInt32.toNat_ofNat']
    omega
  obtain ⟨x, hloop, hx⟩ := decodeLoop_spec hlen hlength (by omega)
  have hzero : ¬(0 : UInt32) > 0 := by decide
  have htake : text.take (4 * (text.length / 4)) = text := List.take_of_length_le (by omega)
  have htail : decodeTail text 0 x = some x := by
    rw [decodeTail]
    exact if_neg hzero
  by_cases hbad : x.bad.toNat < 64
  · refine ⟨some x.state.scratch.bytes, ?_, ?_, by rintro ⟨⟩⟩
    · simp only [decodeAot, hpadding, Option.bind_eq_bind, Option.bind_some, if_neg hzero, hloop, htail,
        if_neg (bad_gt_iff.not.mpr (not_not.mpr hbad)), stringScratch_out hx.out_eq hx.length_eq]
      rfl
    · rintro s hs
      rw [← Option.some.inj hs, hx.good hbad, htake]
  · refine ⟨none, ?_, by rintro _ ⟨⟩, ?_⟩
    · simp only [decodeAot, hpadding, Option.bind_eq_bind, Option.bind_some, if_neg hzero, hloop, htail,
        if_pos (bad_gt_iff.mpr hbad)]
      rfl
    · rintro - s rfl
      obtain ⟨c, hc, hcode⟩ := hx.bad (not_lt.mp hbad)
      rw [htake] at hc
      obtain ⟨front, hfront, hs | ⟨x', hs⟩ | ⟨x', y', hs⟩⟩ := encode_split s
      · rw [hs] at hc
        have hlt := code_mem_encode hfront hc
        rw [hcode] at hlt
        exact absurd hlt (by decide)
      · rw [hs] at hlast
        simp at hlast
      · rw [hs] at hlast
        simp at hlast

/-- The characters before the last four, of a text whose front is one without padding. -/
theorem front_bad {front : Bytes} (hx : Decoded text capacity x k) (htake : text.take (4 * k) = encode front)
    (hfront : front.length % 3 = 0) : x.bad.toNat < 64 := by
  by_contra hbad
  obtain ⟨c, hc, hcode⟩ := hx.bad (not_lt.mp hbad)
  rw [htake] at hc
  have hlt := code_mem_encode hfront hc
  rw [hcode] at hlt
  exact absurd hlt (by decide)

/-- Four characters at the end of a text are the last four of its one reading. -/
theorem last_four {front front' : Bytes} {a b c d a' b' c' d' : UInt8}
    (h : front ++ [a, b, c, d] = front' ++ [a', b', c', d']) :
    front = front' ∧ a = a' ∧ b = b' ∧ c = c' ∧ d = d' := by
  obtain ⟨hfront, hlast⟩ := List.append_inj' h rfl
  simp only [List.cons.injEq, and_true] at hlast
  exact ⟨hfront, hlast⟩

theorem shl_six {c : UInt8} {n : ℕ} {m : UInt32} (hm : (c.toUInt32 &&& m).toNat = c.toNat % n) (hn : 0 < n)
    (hle : n ≤ 64) : ((c.toUInt32 &&& m) <<< 6).toNat < 64 ↔ c.toNat % n = 0 := by
  have hlt := Nat.mod_lt c.toNat hn
  rw [toNat_shiftLeft (n := 6) rfl (by norm_num), hm]
  omega

/-- The loop before the last four characters, and the entries of these. -/
theorem decodeLoop_padded {front : Bytes} {a b c : UInt8} (htext : front ++ [a, b, c, 61] = text)
    (hlen : text.length + 4 < 2 ^ 32) (hfour : front.length % 4 = 0) :
    ∃ x, loop (decodeStep text (len text - 4)) (text.length + 1) ⟨⟨0, 0, newByteScratch (len text + 4)⟩, 0⟩ = some x ∧
      Decoded text (len text + 4) x (front.length / 4) ∧ text.take (4 * (front.length / 4)) = front ∧
      (len text + 4).toNat = front.length + 8 ∧ inverse text x.state.at_ = some (code a).toUInt32 ∧
      inverse text (x.state.at_ + 1) = some (code b).toUInt32 ∧
      inverse text (x.state.at_ + 2) = some (code c).toUInt32 := by
  have hfull : text.length = front.length + 4 := by simp [← htext]
  have h1 : (1 : UInt32).toNat = 1 := rfl
  have h2 : (2 : UInt32).toNat = 2 := rfl
  have h4 : (4 : UInt32).toNat = 4 := rfl
  have hlength : (len text).toNat = front.length + 4 := by
    rw [len, UInt32.toNat_ofNat']
    omega
  have hwhole : (len text - 4).toNat = 4 * (front.length / 4) := by
    rw [UInt32.toNat_sub_of_le _ _ (UInt32.le_iff_toNat_le.mpr (by omega))]
    omega
  obtain ⟨x, hloop, hx⟩ := decodeLoop_spec hlen hwhole (by omega)
  have hat := hx.at_eq
  have hdrop : text.drop (4 * (front.length / 4)) = [a, b, c, 61] := by
    rw [← htext, show 4 * (front.length / 4) = front.length by omega, List.drop_left]
  refine ⟨x, hloop, hx, ?_, ?_, inverse_drop hat hdrop, ?_, ?_⟩
  · rw [← htext, show 4 * (front.length / 4) = front.length by omega, List.take_left]
  · rw [toNat_add (by omega)]
    omega
  · exact inverse_drop (i := 4 * (front.length / 4) + 1) (by rw [toNat_add (by omega)]; omega)
      (by rw [← List.drop_drop, hdrop]; rfl)
  · exact inverse_drop (i := 4 * (front.length / 4) + 2) (by rw [toNat_add (by omega)]; omega)
      (by rw [← List.drop_drop, hdrop]; rfl)

/-- A text that ends in one padding character. -/
theorem decodeAot_one {front : Bytes} {a b c : UInt8} (hlen : (front ++ [a, b, c, 61]).length + 4 < 2 ^ 32)
    (hfour : front.length % 4 = 0) (hc : c ≠ 61) :
    ∃ r, decodeAot (front ++ [a, b, c, 61]) = some r ∧ Answers (front ++ [a, b, c, 61]) r := by
  have hpadding := @paddingOf_four front a b c 61 (by omega)
  rw [if_pos rfl, if_neg hc] at hpadding
  generalize htext : front ++ [a, b, c, 61] = text at hlen hpadding ⊢
  obtain ⟨x, hloop, hx, htake, hcapacity, ha, hb, hc'⟩ := decodeLoop_padded htext hlen hfour
  have hout := hx.out_eq
  have hcount := hx.length_eq
  have hcap := hx.capacity_eq
  have h1 : (1 : UInt32).toNat = 1 := rfl
  have h2 : (2 : UInt32).toNat = 2 := rfl
  have hpos : (1 : UInt32) > 0 := by decide
  have hroom : front.length + 8 < 2 ^ 32 := by
    simp only [← htext, List.length_append, List.length_cons, List.length_nil] at hlen
    omega
  generalize hvalue : (((code a).toUInt32 <<< 18) ||| ((code b).toUInt32 <<< 12)) ||| ((code c).toUInt32 <<< 6) = v
  generalize hbad : (x.bad ||| (((code c).toUInt32 &&& 3) <<< 6)) |||
    (((code a).toUInt32 ||| (code b).toUInt32) ||| (code c).toUInt32) = bad
  have hbad_iff : bad.toNat < 64 ↔ (x.bad.toNat < 64 ∧ (code c).toNat % 4 = 0) ∧
      ((code a).toNat < 64 ∧ (code b).toNat < 64) ∧ (code c).toNat < 64 := by
    have hor : ∀ u w : UInt32, (u ||| w).toNat < 64 ↔ u.toNat < 64 ∧ w.toNat < 64 := fun u w => or_lt_iff 6
    have hlow : ((code c).toUInt32 &&& 3).toNat = (code c).toNat % 4 := by
      rw [toNat_and_low (n := 2) rfl, UInt8.toNat_toUInt32]
      rfl
    rw [← hbad, hor, hor, hor, hor, shl_six hlow (by norm_num) (by norm_num), UInt8.toNat_toUInt32,
      UInt8.toNat_toUInt32, UInt8.toNat_toUInt32]
  obtain ⟨hv0, hv1, -⟩ := byte_value v
  have hs0 := writes_byte x.state.scratch x.state.out hv0 (by omega) (by rw [hcap]; omega)
  have hs1 := writes_byte ⟨x.state.scratch.capacity, x.state.scratch.bytes ++ [UInt8.ofNat (v.toNat / 65536)]⟩
    (x.state.out + 1) hv1 (by rw [List.length_append, List.length_singleton, toNat_add (by omega)]; omega)
    (by dsimp only; rw [hcap, toNat_add (by omega)]; omega)
  have htail : decodeTail text 1 x = some ⟨⟨x.state.at_, x.state.out + 2, ⟨x.state.scratch.capacity,
      x.state.scratch.bytes ++ [UInt8.ofNat (v.toNat / 65536)] ++ [UInt8.ofNat (v.toNat / 256)]⟩⟩, bad⟩ := by
    simp only [decodeTail, if_pos hpos, ha, hb, hc', Option.bind_eq_bind, Option.bind_some, if_true, hvalue, hbad, hs0, hs1]
    rfl
  have hstring : stringScratch ⟨x.state.scratch.capacity, x.state.scratch.bytes ++ [UInt8.ofNat (v.toNat / 65536)] ++
      [UInt8.ofNat (v.toNat / 256)]⟩ 0 (x.state.out + 2) =
        some (x.state.scratch.bytes ++ [UInt8.ofNat (v.toNat / 65536)] ++ [UInt8.ofNat (v.toNat / 256)]) := by
    refine stringScratch_all ?_
    rw [toNat_add (by omega), List.length_append, List.length_append, List.length_singleton, List.length_singleton]
    omega
  by_cases hok : bad.toNat < 64
  · refine ⟨some (x.state.scratch.bytes ++ [UInt8.ofNat (v.toNat / 65536)] ++ [UInt8.ofNat (v.toNat / 256)]), ?_, ?_,
      by rintro ⟨⟩⟩
    · simp only [decodeAot, hpadding, Option.bind_eq_bind, Option.bind_some, if_pos hpos, hloop, htail,
        if_neg (bad_gt_iff.not.mpr (not_not.mpr hok)), hstring]
      rfl
    · rintro s hs
      obtain ⟨⟨hold, hlow⟩, ⟨hca, hcb⟩, hcc⟩ := hbad_iff.mp hok
      have hsum := value_codes hca hcb hcc (show (0 : UInt8).toNat < 64 by decide)
      have hor : (code c).toUInt32 <<< 6 ||| (0 : UInt8).toUInt32 = (code c).toUInt32 <<< 6 := UInt32.or_zero
      rw [hor, hvalue, show (0 : UInt8).toNat = 0 from rfl] at hsum
      have hx0 : (UInt8.ofNat (v.toNat / 65536)).toNat = (code a).toNat * 4 + (code b).toNat / 16 := by
        rw [UInt8.toNat_ofNat']
        omega
      have hx1 : (UInt8.ofNat (v.toNat / 256)).toNat = (code b).toNat % 16 * 16 + (code c).toNat / 4 := by
        rw [UInt8.toNat_ofNat']
        omega
      rw [← Option.some.inj hs, List.append_assoc, encode_append (by omega), hx.good hold, htake, ← htext,
        List.singleton_append, encode, hx0, hx1,
        show ((code a).toNat * 4 + (code b).toNat / 16) / 4 = (code a).toNat by omega,
        show ((code a).toNat * 4 + (code b).toNat / 16) % 4 * 16 + ((code b).toNat % 16 * 16 + (code c).toNat / 4) / 16 =
          (code b).toNat by omega,
        show ((code b).toNat % 16 * 16 + (code c).toNat / 4) % 16 * 4 = (code c).toNat by omega,
        letter_code hca, letter_code hcb, letter_code hcc]
  · refine ⟨none, ?_, by rintro _ ⟨⟩, ?_⟩
    · simp only [decodeAot, hpadding, Option.bind_eq_bind, Option.bind_some, if_pos hpos, hloop, htail,
        if_pos (bad_gt_iff.mpr hok)]
      rfl
    · rintro - s hs
      rw [← htext] at hs
      obtain ⟨f, hf, hsplit | ⟨x', hsplit⟩ | ⟨x', y', hsplit⟩⟩ := encode_split s
      · have hmem : (61 : UInt8) ∈ encode f := by
          rw [← hsplit, hs]
          simp
        have hlt := code_mem_encode hf hmem
        rw [code_pad] at hlt
        exact absurd hlt (by decide)
      · obtain ⟨-, -, -, hcpad, -⟩ := last_four (hs.symm.trans hsplit)
        exact hc hcpad
      · obtain ⟨hfront, rfl, rfl, rfl, -⟩ := last_four (hs.symm.trans hsplit)
        have hx' := x'.toNat_lt
        have hy' := y'.toNat_lt
        refine hok (hbad_iff.mpr ⟨⟨front_bad hx (htake.trans hfront) hf, ?_⟩, ⟨?_, ?_⟩, ?_⟩)
        · rw [code_letter (by omega)]
          omega
        · rw [code_letter (by omega)]
          omega
        · rw [code_letter (by omega)]
          omega
        · rw [code_letter (by omega)]
          omega

/-- A text that ends in two padding characters. -/
theorem decodeAot_two {front : Bytes} {a b : UInt8} (hlen : (front ++ [a, b, 61, 61]).length + 4 < 2 ^ 32)
    (hfour : front.length % 4 = 0) :
    ∃ r, decodeAot (front ++ [a, b, 61, 61]) = some r ∧ Answers (front ++ [a, b, 61, 61]) r := by
  have hpadding := @paddingOf_four front a b 61 61 (by omega)
  rw [if_pos rfl, if_pos rfl] at hpadding
  generalize htext : front ++ [a, b, 61, 61] = text at hlen hpadding ⊢
  obtain ⟨x, hloop, hx, htake, hcapacity, ha, hb, -⟩ := decodeLoop_padded htext hlen hfour
  have hout := hx.out_eq
  have hcount := hx.length_eq
  have hcap := hx.capacity_eq
  have h1 : (1 : UInt32).toNat = 1 := rfl
  have hpos : (2 : UInt32) > 0 := by decide
  have hone : ¬(2 : UInt32) = 1 := by decide
  have hroom : front.length + 8 < 2 ^ 32 := by
    simp only [← htext, List.length_append, List.length_cons, List.length_nil] at hlen
    omega
  generalize hvalue : (((code a).toUInt32 <<< 18) ||| ((code b).toUInt32 <<< 12)) ||| ((0 : UInt32) <<< 6) = v
  generalize hbad : (x.bad ||| (((code b).toUInt32 &&& 15) <<< 6)) |||
    (((code a).toUInt32 ||| (code b).toUInt32) ||| 0) = bad
  have hbad_iff : bad.toNat < 64 ↔ (x.bad.toNat < 64 ∧ (code b).toNat % 16 = 0) ∧
      (code a).toNat < 64 ∧ (code b).toNat < 64 := by
    have hor : ∀ u w : UInt32, (u ||| w).toNat < 64 ↔ u.toNat < 64 ∧ w.toNat < 64 := fun u w => or_lt_iff 6
    have hlow : ((code b).toUInt32 &&& 15).toNat = (code b).toNat % 16 := by
      rw [toNat_and_low (n := 4) rfl, UInt8.toNat_toUInt32]
      rfl
    rw [← hbad, UInt32.or_zero, hor, hor, hor, shl_six hlow (by norm_num) (by norm_num), UInt8.toNat_toUInt32,
      UInt8.toNat_toUInt32]
  obtain ⟨hv0, -, -⟩ := byte_value v
  have hs0 := writes_byte x.state.scratch x.state.out hv0 (by omega) (by rw [hcap]; omega)
  have htail : decodeTail text 2 x = some ⟨⟨x.state.at_, x.state.out + 1, ⟨x.state.scratch.capacity,
      x.state.scratch.bytes ++ [UInt8.ofNat (v.toNat / 65536)]⟩⟩, bad⟩ := by
    simp only [decodeTail, if_pos hpos, ha, hb, Option.bind_eq_bind, Option.bind_some, if_neg hone, hvalue, hbad, hs0]
    rfl
  have hstring : stringScratch ⟨x.state.scratch.capacity, x.state.scratch.bytes ++ [UInt8.ofNat (v.toNat / 65536)]⟩ 0
      (x.state.out + 1) = some (x.state.scratch.bytes ++ [UInt8.ofNat (v.toNat / 65536)]) := by
    refine stringScratch_all ?_
    rw [toNat_add (by omega), List.length_append, List.length_singleton]
    omega
  by_cases hok : bad.toNat < 64
  · refine ⟨some (x.state.scratch.bytes ++ [UInt8.ofNat (v.toNat / 65536)]), ?_, ?_, by rintro ⟨⟩⟩
    · simp only [decodeAot, hpadding, Option.bind_eq_bind, Option.bind_some, if_pos hpos, hloop, htail,
        if_neg (bad_gt_iff.not.mpr (not_not.mpr hok)), hstring]
      rfl
    · rintro s hs
      obtain ⟨⟨hold, hlow⟩, hca, hcb⟩ := hbad_iff.mp hok
      have hsum := value_codes hca hcb (show (0 : UInt8).toNat < 64 by decide) (show (0 : UInt8).toNat < 64 by decide)
      have hor : (0 : UInt8).toUInt32 <<< 6 ||| (0 : UInt8).toUInt32 = (0 : UInt32) <<< 6 := rfl
      rw [hor, hvalue, show (0 : UInt8).toNat = 0 from rfl] at hsum
      have hx0 : (UInt8.ofNat (v.toNat / 65536)).toNat = (code a).toNat * 4 + (code b).toNat / 16 := by
        rw [UInt8.toNat_ofNat']
        omega
      rw [← Option.some.inj hs, encode_append (by omega), hx.good hold, htake, ← htext, encode, hx0,
        show ((code a).toNat * 4 + (code b).toNat / 16) / 4 = (code a).toNat by omega,
        show ((code a).toNat * 4 + (code b).toNat / 16) % 4 * 16 = (code b).toNat by omega,
        letter_code hca, letter_code hcb]
  · refine ⟨none, ?_, by rintro _ ⟨⟩, ?_⟩
    · simp only [decodeAot, hpadding, Option.bind_eq_bind, Option.bind_some, if_pos hpos, hloop, htail,
        if_pos (bad_gt_iff.mpr hok)]
      rfl
    · rintro - s hs
      rw [← htext] at hs
      obtain ⟨f, hf, hsplit | ⟨x', hsplit⟩ | ⟨x', y', hsplit⟩⟩ := encode_split s
      · have hmem : (61 : UInt8) ∈ encode f := by
          rw [← hsplit, hs]
          simp
        have hlt := code_mem_encode hf hmem
        rw [code_pad] at hlt
        exact absurd hlt (by decide)
      · obtain ⟨hfront, rfl, rfl, -⟩ := last_four (hs.symm.trans hsplit)
        have hx' := x'.toNat_lt
        refine hok (hbad_iff.mpr ⟨⟨front_bad hx (htake.trans hfront) hf, ?_⟩, ?_, ?_⟩)
        · rw [code_letter (by omega)]
          omega
        · rw [code_letter (by omega)]
          omega
        · rw [code_letter (by omega)]
          omega
      · obtain ⟨-, -, -, hpad, -⟩ := last_four (hs.symm.trans hsplit)
        have hy' := y'.toNat_lt
        exact letter_ne_pad (show y'.toNat % 16 * 4 < 64 by omega) hpad.symm

/-! Both directions. -/

theorem decodeAot_answers (hlen : text.length + 4 < 2 ^ 32) (hfour : text.length % 4 = 0) :
    ∃ r, decodeAot text = some r ∧ Answers text r := by
  by_cases hnil : text = []
  · subst hnil
    exact decodeAot_plain hlen hfour paddingOf_nil nofun
  have hsome : 4 ≤ text.length := by
    have hpos := List.length_pos_iff.mpr hnil
    omega
  obtain ⟨front, a, b, c, d, rfl, hfront⟩ : ∃ front a b c d, text = front ++ [a, b, c, d] ∧ front.length % 4 = 0 := by
    obtain ⟨a, b, c, d, rest, hdrop⟩ := exists_four (show 4 ≤ (text.drop (text.length - 4)).length by
      rw [List.length_drop]
      omega)
    have hrest : rest = [] := by
      have hcount := congrArg List.length hdrop
      simp only [List.length_drop, List.length_cons] at hcount
      exact List.length_eq_zero_iff.mp (by omega)
    refine ⟨text.take (text.length - 4), a, b, c, d, ?_, by rw [List.length_take]; omega⟩
    rw [← hrest, ← hdrop, List.take_append_drop]
  by_cases hd : d = 61
  · subst hd
    by_cases hc : c = 61
    · subst hc
      exact decodeAot_two hlen hfront
    · exact decodeAot_one hlen hfront hc
  · have hpadding := @paddingOf_four front a b c d (by omega)
    rw [if_neg hd] at hpadding
    exact decodeAot_plain hlen hfour hpadding (by simpa using hd)

theorem base64decode_iff (hlen : text.length + 4 < 2 ^ 32) {s : Bytes} :
    base64decode text = some (.ok s) ↔ encode s = text := by
  by_cases hfour : text.length % 4 = 0
  · obtain ⟨r, hr, hanswers⟩ := decodeAot_answers hlen hfour
    simp only [base64decode, hfour, ne_eq, not_true_eq_false, if_false, hr, Option.bind_eq_bind, Option.bind_some]
    cases r with
    | none => exact ⟨nofun, fun h => absurd h (hanswers.none_ne rfl s)⟩
    | some bytes =>
      constructor
      · intro h
        obtain rfl := Except.ok.inj (Option.some.inj h)
        exact hanswers.some_eq _ rfl
      · intro h
        rw [encode_injective (h.trans (hanswers.some_eq _ rfl).symm)]
        rfl
  · constructor
    · intro h
      simp [base64decode, hfour] at h
    · rintro rfl
      rw [length_encode] at hfour
      omega

theorem base64decode_total (hlen : text.length + 4 < 2 ^ 32) : ∃ r, base64decode text = some r := by
  by_cases hfour : text.length % 4 = 0
  · obtain ⟨r, hr, -⟩ := decodeAot_answers hlen hfour
    simp only [base64decode, hfour, ne_eq, not_true_eq_false, if_false, hr, Option.bind_eq_bind, Option.bind_some]
    cases r <;> exact ⟨_, rfl⟩
  · exact ⟨.error "base64 input length is not a multiple of four", by simp [base64decode, hfour]⟩

/-- The texts are those no longer than the longest text of a string shorter than `2 ^ 31`. -/
theorem base64_bijection :
    (∀ s : Bytes, s.length < 2 ^ 31 → ∃ t, base64encode s = some t ∧ base64decode t = some (.ok s)) ∧
    ∀ t : Bytes, t.length ≤ 2863311532 → (∃ r, base64decode t = some r) ∧
      ∀ s, base64decode t = some (.ok s) ↔ s.length ≤ 2147483649 ∧ base64encode s = some t := by
  constructor
  · intro s hs
    have hlen := length_encode s
    exact ⟨encode s, base64encode_eq (by omega), (base64decode_iff (by omega)).mpr rfl⟩
  · intro t ht
    refine ⟨base64decode_total (by omega), fun s => ?_⟩
    rw [base64decode_iff (by omega)]
    constructor
    · rintro rfl
      have hlen := length_encode s
      exact ⟨by omega, base64encode_eq (by omega)⟩
    · rintro ⟨hs, hencode⟩
      rw [base64encode_eq (by omega)] at hencode
      exact Option.some.inj hencode

theorem base64_bijection_one :
    (∃ t, base64encode [255, 0] = some t ∧ base64decode t = some (.ok [255, 0])) ∧
      (base64decode [47, 119, 66, 61] = some (.ok [255, 0]) ↔
        [255, 0].length ≤ 2147483649 ∧ base64encode [255, 0] = some [47, 119, 66, 61]) :=
  ⟨base64_bijection.1 [255, 0] (by decide), (base64_bijection.2 [47, 119, 66, 61] (by decide)).2 [255, 0]⟩

end Nupp.Base64
