import Nupp.Lib.Json

/-! Reading a JSON string literal, escape by escape. -/

namespace Json

/-- The byte that a one-letter escape names. -/
def escaped (b : UInt8) : UInt8 :=
  if b = 98 then 8 else if b = 102 then 12 else if b = 110 then 10 else if b = 114 then 13 else if b = 116 then 9
  else b

/-- The code unit at the front of a text. -/
def hexFront : Bytes → Option ℕ
  | a :: b :: c :: d :: _ => if isHex a && isHex b && isHex c && isHex d then some (codeUnit a b c d) else none
  | _ => none

/-- The second half of a surrogate pair, with its escape. -/
def lowFront : Bytes → Option ℕ
  | 92 :: 117 :: l => (hexFront l).filter fun n => 0xDC00 ≤ n ∧ n ≤ 0xDFFF
  | _ => none

/-- The character that a `u` escape names after its first two bytes, with the bytes it takes from there. -/
def unicodeFront (l : Bytes) : Option (ℕ × ℕ) :=
  (hexFront l).bind fun m =>
    if Utf8.IsScalar m then some (m, 4)
    else if m ≤ 0xDBFF then
      (lowFront (l.drop 4)).map fun n => (0x10000 + (m - 0xD800) * 0x400 + (n - 0xDC00), 10)
    else none

def plainFront (l : Bytes) : Option (Bytes × ℕ) :=
  (Utf8.front (l.map UInt8.toNat)).bind fun (c, n) =>
    if 0x20 ≤ c ∧ c ≠ 0x22 ∧ c ≠ 0x5C then some (encoded c, n) else none

/-- The text that the front of a string stands for, with the bytes it takes. -/
def charFront (l : Bytes) : Option (Bytes × ℕ) :=
  match l with
  | 92 :: 117 :: l => (unicodeFront l).map fun (c, n) => (encoded c, n + 2)
  | 92 :: b :: _ => if isEscape b then some ([escaped b], 2) else none
  | l => plainFront l

/-- What the text between the quotes stands for. -/
def decodeChars : ℕ → Bytes → Option Bytes
  | _, [] => some []
  | 0, _ => none
  | fuel + 1, l => do
    let (text, n) ← charFront l
    let more ← decodeChars fuel (l.drop n)
    return text ++ more

/-- What a string literal stands for. -/
def decodeLiteral (l : Bytes) : Option Bytes :=
  match l with
  | 34 :: l => if l.getLast? = some 34 then decodeChars l.length l.dropLast else none
  | _ => none

theorem hexFront_eq_some {l : Bytes} {n : ℕ} : hexFront l = some n ↔ ∃ x r, l = x ++ r ∧ Hex4 x n := by
  constructor
  · intro h
    unfold hexFront at h
    split at h
    · next a b c d r =>
      split_ifs at h with hhex
      simp only [Bool.and_eq_true] at hhex
      obtain ⟨⟨⟨ha, hb⟩, hc⟩, hd⟩ := hhex
      exact ⟨[a, b, c, d], r, rfl, a, b, c, d, rfl, ha, hb, hc, hd, (Option.some.inj h).symm⟩
    · cases h
  · rintro ⟨x, r, rfl, a, b, c, d, rfl, ha, hb, hc, hd, rfl⟩
    simp [hexFront, ha, hb, hc, hd]

theorem Hex4.length {x : Bytes} {n : ℕ} (h : Hex4 x n) : x.length = 4 := by
  obtain ⟨a, b, c, d, rfl, -⟩ := h
  rfl

theorem lowFront_eq_some {l : Bytes} {n : ℕ} :
    lowFront l = some n ↔ ∃ y r, l = 92 :: 117 :: (y ++ r) ∧ Hex4 y n ∧ 0xDC00 ≤ n ∧ n ≤ 0xDFFF := by
  constructor
  · intro h
    unfold lowFront at h
    split at h
    · next l =>
      obtain ⟨hn, hrange⟩ := Option.filter_eq_some_iff.mp h
      obtain ⟨y, r, rfl, hy⟩ := hexFront_eq_some.mp hn
      exact ⟨y, r, rfl, hy, by simpa using hrange⟩
    · cases h
  · rintro ⟨y, r, rfl, hy, hlow, hhigh⟩
    exact Option.filter_eq_some_iff.mpr ⟨hexFront_eq_some.mpr ⟨y, r, rfl, hy⟩, by simpa using ⟨hlow, hhigh⟩⟩

/-- One character, written in a string. -/
inductive Char : Bytes → Prop
  | plain (c : ℕ) : Utf8.IsScalar c → 0x20 ≤ c → c ≠ 0x22 → c ≠ 0x5C → Char (encoded c)
  | escape (b : UInt8) : isEscape b = true → Char [92, b]
  | unicode (x : Bytes) (n : ℕ) : Hex4 x n → Utf8.IsScalar n → Char (92 :: 117 :: x)
  | pair (x y : Bytes) (m n : ℕ) : Hex4 x m → 0xD800 ≤ m → m ≤ 0xDBFF → Hex4 y n → 0xDC00 ≤ n → n ≤ 0xDFFF →
      Char (92 :: 117 :: (x ++ 92 :: 117 :: y))

theorem unicodeFront_sound {l : Bytes} {c n : ℕ} (h : unicodeFront l = some (c, n)) :
    ∃ x r, l = x ++ r ∧ x.length = n ∧ Char (92 :: 117 :: x) := by
  obtain ⟨m, hm, h⟩ := Option.bind_eq_some_iff.mp h
  obtain ⟨x, r, rfl, hx⟩ := hexFront_eq_some.mp hm
  split_ifs at h with hscalar hhigh
  · cases h
    exact ⟨x, r, rfl, hx.length, .unicode x _ hx hscalar⟩
  · obtain ⟨k, hk, heq⟩ := Option.map_eq_some_iff.mp h
    rw [← hx.length, List.drop_left] at hk
    obtain ⟨y, r, rfl, hy, hlow, hlast⟩ := lowFront_eq_some.mp hk
    obtain ⟨-, rfl⟩ := Prod.mk.inj heq
    have hfirst : 0xD800 ≤ m := by
      by_contra hlt
      exact hscalar ⟨by omega, fun hsur => hlt hsur.1⟩
    refine ⟨x ++ 92 :: 117 :: y, r, by simp, ?_, .pair x y m k hx hfirst hhigh hy hlow hlast⟩
    rw [List.length_append, hx.length, List.length_cons, List.length_cons, hy.length]

theorem map_toNat_encoded {c : ℕ} (h : Utf8.IsScalar c) : (encoded c).map UInt8.toNat = Utf8.units c := by
  have hbyte : ∀ u ∈ Utf8.units c, u < 256 := by
    intro u hu
    have hmax := h.1
    unfold Utf8.units at hu
    split_ifs at hu <;> simp only [List.mem_cons, List.not_mem_nil, or_false] at hu <;> omega
  rw [encoded, List.map_map]
  conv_rhs => rw [← List.map_id (Utf8.units c)]
  refine List.map_congr_left fun u hu => ?_
  rw [Function.comp_apply, UInt8.toNat_ofNat', Nat.mod_eq_of_lt (hbyte u hu), id_eq]

theorem eq_encoded_append {l : Bytes} {c : ℕ} {tail : List ℕ} (h : l.map UInt8.toNat = Utf8.units c ++ tail) :
    l = encoded c ++ l.drop (Utf8.units c).length := by
  have htake : (l.take (Utf8.units c).length).map UInt8.toNat = Utf8.units c := by
    rw [List.map_take, h, List.take_left]
  have hencoded : l.take (Utf8.units c).length = encoded c := by
    have hback := congrArg (List.map UInt8.ofNat) htake
    have hid : UInt8.ofNat ∘ UInt8.toNat = id := funext fun _ => UInt8.ofNat_toNat
    rw [List.map_map, hid, List.map_id] at hback
    exact hback
  conv_lhs => rw [← List.take_append_drop (Utf8.units c).length l, hencoded]

theorem length_encoded (c : ℕ) : (encoded c).length = (Utf8.units c).length := List.length_map _

theorem plainFront_sound {l text : Bytes} {n : ℕ} (h : plainFront l = some (text, n)) :
    ∃ x r, l = x ++ r ∧ x.length = n ∧ Char x := by
  obtain ⟨⟨c, k⟩, hfront, h⟩ := Option.bind_eq_some_iff.mp h
  obtain ⟨hscalar, tail, htail, hk⟩ := Utf8.front_sound hfront
  simp only at h
  split_ifs at h with hplain
  cases h
  exact ⟨encoded c, _, eq_encoded_append htail, (length_encoded c).trans hk,
    .plain c hscalar hplain.1 hplain.2.1 hplain.2.2⟩

theorem charFront_sound {l text : Bytes} {n : ℕ} (h : charFront l = some (text, n)) :
    ∃ x r, l = x ++ r ∧ x.length = n ∧ Char x := by
  unfold charFront at h
  split at h
  · next l =>
    obtain ⟨⟨c, k⟩, hfront, heq⟩ := Option.map_eq_some_iff.mp h
    cases heq
    obtain ⟨x, r, rfl, hlength, hx⟩ := unicodeFront_sound hfront
    exact ⟨92 :: 117 :: x, r, rfl, by simp [hlength], hx⟩
  · next b r _ =>
    split_ifs at h with hescape
    cases h
    exact ⟨[92, b], r, rfl, rfl, .escape b hescape⟩
  · exact plainFront_sound h

theorem Char.ne_nil {x : Bytes} (h : Char x) : x ≠ [] := by
  cases h with
  | plain c _ _ _ _ =>
    intro hnil
    have hlength := length_encoded c
    rw [hnil, List.length_nil] at hlength
    exact Utf8.units_ne_nil c (List.length_eq_zero_iff.mp hlength.symm)
  | _ => exact List.cons_ne_nil _ _

/-- What is written as one character is read as one. -/
theorem charFront_append {x : Bytes} (h : Char x) (r : Bytes) : ∃ text, charFront (x ++ r) = some (text, x.length) := by
  cases h with
  | plain c hscalar hlow hquote hslash =>
    have hfront := Utf8.front_units hscalar (r.map UInt8.toNat)
    rw [← map_toNat_encoded hscalar, ← List.map_append, List.length_map] at hfront
    have hplain : plainFront (encoded c ++ r) = some (encoded c, (encoded c).length) := by
      rw [plainFront, hfront, Option.bind_some]
      exact if_pos ⟨hlow, hquote, hslash⟩
    refine ⟨encoded c, ?_⟩
    have hhead : ∀ b l, encoded c ++ r = b :: l → b ≠ 92 := by
      intro b l heq
      obtain ⟨d, tail, htail⟩ := List.exists_cons_of_ne_nil (Char.plain c hscalar hlow hquote hslash).ne_nil
      rw [htail, List.cons_append] at heq
      obtain ⟨rfl, -⟩ := List.cons.inj heq
      have hd := mem_encoded hscalar (htail ▸ List.mem_cons_self : d ∈ encoded c)
      rintro rfl
      rcases hd with hd | hd
      · exact hslash hd.symm
      · exact absurd hd (by decide)
    unfold charFront
    split
    · next l heq => exact absurd rfl (hhead _ _ heq)
    · next b l _ heq => exact absurd rfl (hhead _ _ heq)
    · exact hplain
  | escape b hescape =>
    have hu : b ≠ 117 := by
      rintro rfl
      cases hescape
    refine ⟨[escaped b], ?_⟩
    unfold charFront
    split
    · next l heq =>
      simp only [List.cons_append, List.cons.injEq] at heq
      exact absurd heq.2.1 hu
    · next b' l _ heq =>
      simp only [List.cons_append, List.cons.injEq, true_and] at heq
      rw [← heq.1, if_pos hescape]
      rfl
    · next hnot => exact absurd rfl (hnot b r)
  | unicode y n hy hscalar =>
    have hhex : hexFront (y ++ r) = some n := hexFront_eq_some.mpr ⟨y, r, rfl, hy⟩
    have hfront : unicodeFront (y ++ r) = some (n, 4) := by
      rw [unicodeFront, hhex, Option.bind_some, if_pos hscalar]
    refine ⟨encoded n, ?_⟩
    change (unicodeFront (y ++ r)).map _ = _
    rw [hfront, List.length_cons, List.length_cons, hy.length]
    rfl
  | pair y z m n hy hfirst hhigh hz hlow hlast =>
    have hassoc : y ++ 92 :: 117 :: z ++ r = y ++ 92 :: 117 :: (z ++ r) := by simp
    have hhex : hexFront (y ++ 92 :: 117 :: (z ++ r)) = some m := hexFront_eq_some.mpr ⟨y, _, rfl, hy⟩
    have hdrop : (y ++ 92 :: 117 :: (z ++ r)).drop 4 = 92 :: 117 :: (z ++ r) := by rw [← hy.length, List.drop_left]
    have hsecond : lowFront (92 :: 117 :: (z ++ r)) = some n := lowFront_eq_some.mpr ⟨z, r, rfl, hz, hlow, hlast⟩
    have hnot : ¬Utf8.IsScalar m := fun hscalar => hscalar.2 ⟨hfirst, by omega⟩
    refine ⟨encoded (0x10000 + (m - 0xD800) * 0x400 + (n - 0xDC00)), ?_⟩
    change (unicodeFront (y ++ 92 :: 117 :: z ++ r)).map _ = _
    rw [hassoc, unicodeFront, hhex, Option.bind_some, if_neg hnot, if_pos hhigh, hdrop, hsecond]
    simp only [Option.map_some, List.length_cons, List.length_append, hy.length, hz.length]

theorem chars_append {x r : Bytes} (hx : Char x) (hr : Chars r) : Chars (x ++ r) := by
  cases hx with
  | plain c hscalar hlow hquote hslash => exact .plain c r hscalar hlow hquote hslash hr
  | escape b hescape => exact .escape b r hescape hr
  | unicode y n hy hscalar => exact .unicode y n r hy hscalar hr
  | pair y z m n hy hfirst hhigh hz hlow hlast =>
    have hpair := Chars.pair y z m n r hy hfirst hhigh hz hlow hlast hr
    simpa using hpair

theorem chars_cases {l : Bytes} (h : Chars l) : l = [] ∨ ∃ x r, l = x ++ r ∧ Char x ∧ Chars r := by
  cases h with
  | nil => exact .inl rfl
  | plain c r hscalar hlow hquote hslash hr => exact .inr ⟨_, r, rfl, .plain c hscalar hlow hquote hslash, hr⟩
  | escape b r hescape hr => exact .inr ⟨[92, b], r, rfl, .escape b hescape, hr⟩
  | unicode y n r hy hscalar hr => exact .inr ⟨92 :: 117 :: y, r, rfl, .unicode y n hy hscalar, hr⟩
  | pair y z m n r hy hfirst hhigh hz hlow hlast hr =>
    exact .inr ⟨92 :: 117 :: (y ++ 92 :: 117 :: z), r, by simp, .pair y z m n hy hfirst hhigh hz hlow hlast, hr⟩

theorem decodeChars_isSome {fuel : ℕ} {l : Bytes} (hfuel : l.length ≤ fuel) :
    (decodeChars fuel l).isSome = true ↔ Chars l := by
  induction fuel generalizing l with
  | zero =>
    obtain rfl := List.length_eq_zero_iff.mp (Nat.le_zero.mp hfuel)
    exact ⟨fun _ => .nil, fun _ => rfl⟩
  | succ fuel ih =>
    cases l with
    | nil => exact ⟨fun _ => .nil, fun _ => rfl⟩
    | cons b l =>
      constructor
      · intro h
        obtain ⟨out, hout⟩ := Option.isSome_iff_exists.mp h
        obtain ⟨⟨text, n⟩, hfront, hout⟩ := Option.bind_eq_some_iff.mp hout
        obtain ⟨more, hmore, -⟩ := Option.bind_eq_some_iff.mp hout
        obtain ⟨x, r, hsplit, rfl, hx⟩ := charFront_sound hfront
        have hpos := List.length_pos_iff.mpr hx.ne_nil
        rw [hsplit, List.drop_left] at hmore
        rw [hsplit, List.length_append] at hfuel
        rw [hsplit]
        exact chars_append hx ((ih (by omega)).mp (Option.isSome_iff_exists.mpr ⟨more, hmore⟩))
      · intro h
        rcases chars_cases h with hnil | ⟨x, r, hsplit, hx, hr⟩
        · cases hnil
        · obtain ⟨text, hfront⟩ := charFront_append hx r
          have hpos := List.length_pos_iff.mpr hx.ne_nil
          rw [hsplit, List.length_append] at hfuel
          obtain ⟨more, hmore⟩ := Option.isSome_iff_exists.mp ((ih (by omega)).mpr hr)
          rw [← hsplit] at hfront
          have hout : decodeChars (fuel + 1) (b :: l) = some (text ++ more) := by
            rw [decodeChars, hfront]
            · simp only [Option.bind_eq_bind, Option.bind_some, hsplit, List.drop_left, hmore]
              rfl
            · exact nofun
          rw [hout]
          rfl

/-- Just the string literals stand for something. -/
theorem decodeLiteral_isSome (body : Bytes) :
    (decodeLiteral (34 :: (body ++ [34]))).isSome = true ↔ Literal (34 :: (body ++ [34])) := by
  have hdecode : decodeLiteral (34 :: (body ++ [34])) = decodeChars (body ++ [34]).length body := by
    simp [decodeLiteral]
  rw [hdecode, decodeChars_isSome (by simp)]
  constructor
  · intro h
    exact ⟨body, rfl, h⟩
  · rintro ⟨body', heq, h⟩
    have hbody : body = body' := by simpa using heq
    exact hbody ▸ h

end Json
