import Nupp.Io.Ipv6

/-! What is read is the address a text denotes, and what is written is read back: two texts have one
address when, and only when, they are written alike. -/

namespace Nupp.whatwg

open Nupp.Data
open Decimal (isDigit numeral)

section Sound

variable {st st' : Reader} {byte : UInt8} {text rest : Bytes} {done : List ℕ} {compress : Option ℕ}

/-- What the reader finds next: a second colon, the last group, a dotted quad or a group. -/
inductive Finds (st st' : Reader) (byte : UInt8) (rest : Bytes) : Prop
  | compressed (hbyte : byte = 58) (hnone : st.compress = none)
      (h : readFrom st.compressed rest = some st')
  | last (v : ℕ) (hv : Hex v (byte :: rest)) (h : st' = st.put v)
  | quad (hindex : st.pieceIndex ≤ 7) (h : quadFrom 0 st (byte :: rest) = some st')
  | more (v : ℕ) (w after : Bytes) (hv : Hex v w) (htext : byte :: rest = w ++ 58 :: after)
      (hafter : after ≠ []) (h : readFrom (st.put v) after = some st')

theorem readFrom_finds (h : readFrom st (byte :: rest) = some st') :
    st.pieceIndex ≠ 9 ∧ Finds st st' byte rest := by
  by_cases hindex : st.pieceIndex = 9
  · rw [readFrom, if_pos hindex] at h
    simp at h
  refine ⟨hindex, ?_⟩
  by_cases hbyte : byte = 58
  · rw [readFrom, if_neg hindex, if_pos hbyte] at h
    split_ifs at h with hcompress
    exact .compressed hbyte (not_not.mp hcompress) h
  have hparts := (hexDigits_spec (byte :: rest)).2.2
  rw [readFrom_cons hindex hbyte rfl hparts.symm] at h
  cases hafter : (byte :: rest).drop (hexDigits (byte :: rest)).length with
  | nil =>
    rw [hafter, List.append_nil] at hparts
    rw [hafter, continued, hparts] at h
    have hne : hexDigits (byte :: rest) ≠ [] := by simp [hparts]
    have hv := hex_hexDigits hne
    rw [hparts] at hv
    exact .last _ hv (Option.some.inj h).symm
  | cons next after =>
    rw [hafter] at hparts
    have hne : next ≠ byte → hexDigits (byte :: rest) ≠ [] := by
      intro hnext hnil
      rw [hnil, List.nil_append] at hparts
      exact hnext (List.cons.inj hparts).1
    rw [hafter, continued] at h
    split_ifs at h with hdot hnil hseven hcolon hlast
    · exact .quad (by omega) h
    · subst hcolon
      exact .more _ _ after (hex_hexDigits (hne fun heq => hbyte heq.symm)) hparts.symm hlast h

theorem ends_of_quad {a b c d : ℕ} {p q r s : Bytes} (ha : Octet a p) (hb : Octet b q)
    (hc : Octet c r) (hd : Octet d s) :
    Maybe Ends [a * 256 + b, c * 256 + d] (p ++ 46 :: q ++ 46 :: r ++ 46 :: s) :=
  .inr (.quad ha hb hc hd)

/-- After `::` there is nothing, or the end of an address. -/
theorem readFrom_right {c : ℕ} (hlength : done.length ≤ 8)
    (h : readFrom (.after done (some c)) text = some st') :
    ∃ r, Maybe Ends r text ∧ done.length + r.length ≤ 8 ∧ st' = .after (done ++ r) (some c) := by
  induction hn : text.length using Nat.strong_induction_on generalizing text done with
  | _ n ih =>
    cases text with
    | nil =>
      rw [readFrom] at h
      exact ⟨[], .inl ⟨rfl, rfl⟩, by simpa using hlength, by simpa using (Option.some.inj h).symm⟩
    | cons byte rest =>
      obtain ⟨hindex, hfinds⟩ := readFrom_finds h
      have hlt : done.length < 8 := by
        simp only [Reader.after] at hindex
        omega
      cases hfinds with
      | compressed hbyte hnone h => simp [Reader.after] at hnone
      | last v hv h =>
        exact ⟨[v], .inr (.last hv), by rw [List.length_singleton]; omega, by rw [h, put_after hlt]⟩
      | quad hindex h =>
        simp only [Reader.after] at hindex
        obtain ⟨a, b, c', d, p, q, r, s, ha, hb, hc, hd, htext, hst⟩ :=
          (quadFrom_spec (by omega)).mp h
        rw [htext]
        refine ⟨_, ends_of_quad ha hb hc hd, ?_, hst⟩
        simp only [List.length_cons, List.length_nil]
        omega
      | more v w after hv htext hafter h =>
        rw [put_after hlt] at h
        have hshort : after.length < n := by
          rw [← hn, htext, List.length_append, List.length_cons]
          omega
        obtain ⟨r, hr, hr', hst⟩ := ih after.length hshort
          (by rw [List.length_append, List.length_singleton]; omega) h rfl
        rw [htext]
        rcases hr with ⟨-, hnil⟩ | hr
        · exact absurd hnil hafter
        · refine ⟨v :: r, .inr (.more hv hr), ?_, by rw [hst, List.append_assoc]; rfl⟩
          simp only [List.length_append, List.length_cons, List.length_nil] at hr' ⊢
          omega

/-- What can be read from the start: a whole address, or the parts on both sides of `::`. -/
inductive ReadLeft (done : List ℕ) (text : Bytes) (st' : Reader) : Prop
  | whole (r : List ℕ) (hr : Maybe Ends r text) (hlength : done.length + r.length ≤ 8)
      (h : st' = .after (done ++ r) none)
  | parts (l r : List ℕ) (lt rt : Bytes) (hl : Maybe Groups l lt) (hr : Maybe Ends r rt)
      (htext : text = lt ++ (if lt = [] then [58] else [58, 58]) ++ rt)
      (hlength : done.length + l.length + 1 + r.length ≤ 8)
      (h : st' = .after (done ++ l ++ 0 :: r) (some (done.length + l.length + 2)))

theorem readFrom_left (hlength : done.length ≤ 8)
    (h : readFrom (.after done none) text = some st') : ReadLeft done text st' := by
  induction hn : text.length using Nat.strong_induction_on generalizing text done with
  | _ n ih =>
    cases text with
    | nil =>
      rw [readFrom] at h
      exact .whole [] (.inl ⟨rfl, rfl⟩) (by simpa using hlength)
        (by simpa using (Option.some.inj h).symm)
    | cons byte rest =>
      obtain ⟨hindex, hfinds⟩ := readFrom_finds h
      have hlt : done.length < 8 := by
        simp only [Reader.after] at hindex
        omega
      cases hfinds with
      | compressed hbyte hnone h =>
        rw [compressed_after hlt] at h
        obtain ⟨r, hr, hr', hst⟩ := readFrom_right
          (by rw [List.length_append, List.length_singleton]; omega) h
        refine .parts [] r [] rest (.inl ⟨rfl, rfl⟩) hr (by simp [hbyte]) ?_ ?_
        · simpa using hr'
        · rw [hst, List.append_assoc]
          simp
      | last v hv h =>
        exact .whole [v] (.inr (.last hv)) (by rw [List.length_singleton]; omega)
          (by rw [h, put_after hlt])
      | quad hindex h =>
        simp only [Reader.after] at hindex
        obtain ⟨a, b, c', d, p, q, r, s, ha, hb, hc, hd, htext, hst⟩ :=
          (quadFrom_spec (by omega)).mp h
        refine .whole _ (htext ▸ ends_of_quad ha hb hc hd) ?_ hst
        simp only [List.length_cons, List.length_nil]
        omega
      | more v w after hv htext hafter h =>
        rw [put_after hlt] at h
        have hshort : after.length < n := by
          rw [← hn, htext, List.length_append, List.length_cons]
          omega
        have hdone : (done ++ [v]).length = done.length + 1 := by simp
        cases ih after.length hshort (by omega) h rfl with
        | whole r hr hr' hst =>
          rcases hr with ⟨-, hnil⟩ | hr
          · exact absurd hnil hafter
          · refine .whole (v :: r) (htext ▸ .inr (.more hv hr)) ?_ (by rw [hst, List.append_assoc]; rfl)
            rw [hdone] at hr'
            rw [List.length_cons]
            omega
        | parts l r lt rt hl hr htext' hr' hst =>
          rw [hdone] at hr' hst
          rw [htext, htext']
          rcases hl with ⟨rfl, rfl⟩ | hl
          · refine .parts [v] r w rt (.inr (.last hv)) hr (by simp [hv.pos]) ?_ ?_
            · simpa using hr'
            · rw [hst]
              simp
          · have hne : lt ≠ [] := hl.ends.ne_nil
            refine .parts (v :: l) r (w ++ 58 :: lt) rt (.inr (.more hv hl)) hr (by simp [hne]) ?_ ?_
            · rw [List.length_cons]
              omega
            · rw [hst]
              simp only [List.append_assoc, List.cons_append, List.nil_append, List.length_cons]
              congr 2
              omega

end Sound

section Shift

theorem set_at (front back : List ℕ) (x v : ℕ) :
    (front ++ x :: back).set front.length v = front ++ v :: back := by
  rw [List.set_append_right _ _ (Nat.le_refl _), Nat.sub_self, List.set_cons_zero]

theorem slot_at (front back : List ℕ) (x : ℕ) : slot (front ++ x :: back) (front.length + 1) = x := by
  simp [slot]

/-- One swap moves the last piece to the end of the zeros that follow it. -/
theorem swap_zeros (front back : List ℕ) (x z : ℕ) :
    ((front ++ x :: (List.replicate z 0 ++ back)).set (front.length + z) x).set front.length
      (slot (front ++ x :: (List.replicate z 0 ++ back)) (front.length + z + 1)) =
      front ++ (List.replicate z 0 ++ x :: back) := by
  cases z with
  | zero => simp [slot]
  | succ z =>
    have hlist : front ++ x :: (List.replicate (z + 1) 0 ++ back) =
        (front ++ x :: List.replicate z 0) ++ 0 :: back := by
      rw [List.replicate_succ']
      simp
    have hindex : front.length + (z + 1) = (front ++ x :: List.replicate z 0).length := by simp
    rw [hlist, hindex, slot_at, set_at, List.append_assoc, List.cons_append, set_at,
      List.replicate_succ, List.cons_append]

theorem shift_spec (front r back : List ℕ) (z : ℕ) (hfront : front ≠ []) :
    shift (front.length + 1) r.length (front.length + r.length + z)
      (front ++ r ++ List.replicate z 0 ++ back) = front ++ List.replicate z 0 ++ r ++ back := by
  induction r using List.reverseRecOn generalizing back with
  | nil => simp [shift]
  | append_singleton r x ih =>
    have hpos := List.length_pos_iff.mpr hfront
    have hsource : front.length + 1 + (r.length + 1) - 1 = (front ++ r).length + 1 := by
      rw [List.length_append]
      omega
    have hindex : front.length + (r.length + 1) + z = (front ++ r).length + z + 1 := by
      rw [List.length_append]
      omega
    have hslot := slot_at (front ++ r) (List.replicate z 0 ++ back) x
    have hlist : front ++ (r ++ [x]) ++ List.replicate z 0 ++ back =
        front ++ r ++ x :: (List.replicate z 0 ++ back) := by simp
    rw [List.length_append, List.length_singleton, shift, hindex, if_neg (by omega), hsource, hlist]
    simp only [hslot, Nat.add_sub_cancel]
    rw [swap_zeros]
    have hnext := ih (x :: back)
    rw [show front.length + r.length = (front ++ r).length by simp] at hnext
    rw [← List.append_assoc, hnext]
    simp

/-- The pieces on both sides of `::`, with the zeros between. -/
theorem finish_parts {l r : List ℕ} (hlength : l.length + 1 + r.length ≤ 8) :
    (Reader.after (l ++ 0 :: r) (some (l.length + 2))).finish =
      some (l ++ List.replicate (8 - (l.length + r.length)) 0 ++ r) := by
  have hshift := shift_spec (l ++ [0]) r [] (7 - (l.length + r.length)) (by simp)
  have hswaps : (l ++ 0 :: r).length + 1 - (l.length + 2) = r.length := by
    rw [List.length_append, List.length_cons]
    omega
  have hpieces : l ++ 0 :: r ++ List.replicate (8 - (l ++ 0 :: r).length) 0 =
      l ++ [0] ++ r ++ List.replicate (7 - (l.length + r.length)) 0 ++ [] := by
    rw [List.length_append, List.length_cons,
      show 8 - (l.length + (r.length + 1)) = 7 - (l.length + r.length) by omega]
    simp
  have hindex : (l ++ [0]).length + r.length + (7 - (l.length + r.length)) = 8 := by
    rw [List.length_append, List.length_singleton]
    omega
  rw [hindex, List.length_append, List.length_singleton] at hshift
  simp only [Reader.finish, Reader.after, hswaps, hpieces]
  rw [show l.length + 2 = l.length + 1 + 1 by omega, hshift,
    show 8 - (l.length + r.length) = (7 - (l.length + r.length)) + 1 by omega, List.replicate_succ]
  simp

theorem finish_whole {r pieces : List ℕ} :
    (Reader.after r none).finish = some pieces ↔ r.length = 8 ∧ pieces = r := by
  simp only [Reader.finish, Reader.after]
  by_cases h : r.length = 8
  · simp [h, eq_comm]
  · simp [h]

end Shift

section Reads

theorem Hex.head {v : ℕ} {w : Bytes} (h : Hex v w) : w.head? ≠ some 58 := by
  cases w with
  | nil => exact absurd rfl h.pos
  | cons byte w =>
    intro hhead
    exact (hexValue_ne (h.digits byte List.mem_cons_self)).1 (Option.some.inj hhead)

theorem Octet.head {v : ℕ} {w : Bytes} (h : Octet v w) : w.head? ≠ some 58 := by
  cases w with
  | nil => exact absurd rfl h.ne_nil
  | cons byte w =>
    intro hhead
    exact (hexValue_ne ((octet_digits h).2 byte List.mem_cons_self)).1 (Option.some.inj hhead)

theorem head_append {w rest : Bytes} (hne : w ≠ []) (h : w.head? ≠ some 58) :
    (w ++ rest).head? ≠ some 58 := by
  rwa [List.head?_append_of_ne_nil _ hne]

theorem Ends.head {vs : List ℕ} {text : Bytes} (h : Ends vs text) : text.head? ≠ some 58 := by
  cases h with
  | last h => exact h.head
  | more h hrest => exact head_append h.pos h.head
  | quad ha =>
    simp only [List.append_assoc]
    exact head_append ha.ne_nil ha.head

theorem readPieces_plain {text : Bytes} (h : text.head? ≠ some 58) :
    readPieces text = (readFrom (.after [] none) text).bind Reader.finish := by
  unfold readPieces
  split
  · simp at h
  · simp at h
  · rfl

theorem readPieces_colons (rest : Bytes) :
    readPieces (58 :: 58 :: rest) = (readFrom (.after [0] (some 2)) rest).bind Reader.finish := by
  have hstart : Reader.start.compressed = .after [0] (some 2) := rfl
  rw [readPieces, hstart]

theorem form_of_read {text : Bytes} {pieces : List ℕ} (h : readPieces text = some pieces) :
    Form text pieces := by
  by_cases hhead : text.head? = some 58
  · cases text with
    | nil => simp at hhead
    | cons byte text =>
      obtain rfl := Option.some.inj hhead
      by_cases hsecond : ∃ rest, text = 58 :: rest
      · obtain ⟨rest, rfl⟩ := hsecond
        rw [readPieces_colons] at h
        obtain ⟨st, hread, hfinish⟩ := Option.bind_eq_some_iff.mp h
        obtain ⟨r, hr, hlength, rfl⟩ := readFrom_right (by norm_num) hread
        have hlength' : ([] : List ℕ).length + 1 + r.length ≤ 8 := by simpa using hlength
        have hparts := finish_parts hlength'
        obtain rfl := Option.some.inj (hfinish.symm.trans hparts)
        have hleft : Maybe Groups [] [] := .inl ⟨rfl, rfl⟩
        exact .compressed hleft hr (by omega)
      · exfalso
        unfold readPieces at h
        split at h
        · rename_i rest hcons
          exact hsecond ⟨rest, (List.cons.inj hcons).2⟩
        · simp at h
        · rename_i _ hnot
          exact hnot text rfl
  · rw [readPieces_plain hhead] at h
    obtain ⟨st, hread, hfinish⟩ := Option.bind_eq_some_iff.mp h
    cases readFrom_left (by norm_num) hread with
    | whole r hr hlength hst =>
      rw [hst, List.nil_append] at hfinish
      obtain ⟨height, rfl⟩ := finish_whole.mp hfinish
      rcases hr with ⟨rfl, -⟩ | hr
      · simp at height
      · exact .full hr height
    | parts l r lt rt hl hr htext hlength hst =>
      have hne : lt ≠ [] := by
        rintro rfl
        simp [htext] at hhead
      rw [if_neg hne] at htext
      simp only [List.length_nil, Nat.zero_add, List.nil_append] at hlength hst
      rw [hst, finish_parts hlength] at hfinish
      obtain rfl := Option.some.inj hfinish
      rw [htext, List.append_assoc]
      exact .compressed hl hr (by omega)

theorem read_of_form {text : Bytes} {pieces : List ℕ} (h : Form text pieces) :
    readPieces text = some pieces := by
  cases h with
  | full h hlength =>
    rw [readPieces_plain h.head, readFrom_ends h (by simp [hlength])]
    exact finish_whole.mpr ⟨hlength, rfl⟩
  | @compressed l r lt rt hl hr hlength =>
    have hright : ∀ done c, done.length + r.length ≤ 8 →
        readFrom (.after done (some c)) rt = some (.after (done ++ r) (some c)) := by
      intro done c hdone
      rcases hr with ⟨rfl, rfl⟩ | hr
      · rw [readFrom, List.append_nil]
      · exact readFrom_ends hr hdone
    have hdone : (l ++ [0]).length + r.length ≤ 8 := by
      rw [List.length_append, List.length_singleton]
      omega
    have hfinish := finish_parts (l := l) (r := r) (by omega)
    rcases hl with ⟨rfl, rfl⟩ | hl
    · rw [List.nil_append, readPieces_colons]
      have hread := hright [0] 2 hdone
      rw [hread]
      exact hfinish
    · have hgroups : readFrom (.after [] none) (lt ++ 58 :: 58 :: rt) =
          readFrom (.after (l ++ [0]) (some (l.length + 2))) rt := by
        have h := @readFrom_groups lt rt [] l hl (by rw [List.length_nil]; omega)
        rwa [List.nil_append, List.length_nil, Nat.zero_add] at h
      rw [readPieces_plain (head_append hl.ends.ne_nil hl.ends.head), hgroups,
        hright _ _ hdone, List.append_assoc]
      exact hfinish

/-- The reader accepts the textual forms of an address, and no other text, and computes the pieces
they denote. -/
theorem readPieces_iff (text : Bytes) (pieces : List ℕ) :
    readPieces text = some pieces ↔ Form text pieces :=
  ⟨form_of_read, read_of_form⟩

end Reads

section Numerals

theorem hexValue_hexDigit : ∀ d < 16, hexValue (hexDigit d) = some d := by decide

theorem hexNumber_append (w : Bytes) (byte : UInt8) :
    hexNumber (w ++ [byte]) = hexNumber w * 16 + (hexValue byte).getD 0 := by
  simp [hexNumber]

theorem hexNumeral_spec (n : ℕ) : hexNumeral n ≠ [] ∧
    (∀ byte ∈ hexNumeral n, (hexValue byte).isSome = true) ∧ hexNumber (hexNumeral n) = n := by
  fun_induction hexNumeral n with
  | case1 n h =>
    have hvalue := hexValue_hexDigit n h
    exact ⟨by simp, by simp [hvalue], by simp [hexNumber, hvalue]⟩
  | case2 n h ih =>
    have hvalue := hexValue_hexDigit (n % 16) (Nat.mod_lt n (by norm_num))
    obtain ⟨hne, hdigits, hnumber⟩ := ih
    refine ⟨by simp, fun byte hbyte => ?_, ?_⟩
    · rcases List.mem_append.mp hbyte with hbyte | hbyte
      · exact hdigits byte hbyte
      · rw [List.mem_singleton.mp hbyte, hvalue]
        rfl
    · rw [hexNumber_append, hnumber, hvalue, Option.getD_some]
      omega

theorem hexNumeral_length {n : ℕ} (k : ℕ) (h : n < 16 ^ (k + 1)) : (hexNumeral n).length ≤ k + 1 := by
  induction k generalizing n with
  | zero =>
    rw [hexNumeral, if_pos (by simpa using h)]
    rfl
  | succ k ih =>
    rw [hexNumeral]
    split_ifs with hn
    · simp
    · have hlt : n / 16 < 16 ^ (k + 1) := by
        rw [Nat.div_lt_iff_lt_mul (by norm_num)]
        rwa [← pow_succ]
      have hlength := ih hlt
      simp only [List.length_append, List.length_singleton]
      omega

/-- A piece is written as a group that denotes it. -/
theorem hex_hexNumeral {n : ℕ} (h : n < 65536) : Hex n (hexNumeral n) := by
  obtain ⟨hne, hdigits, hnumber⟩ := hexNumeral_spec n
  exact ⟨hne, hexNumeral_length 3 (by norm_num; omega), hdigits, hnumber⟩

theorem hexValue_lt {byte : UInt8} {d : ℕ} (h : hexValue byte = some d) : d < 16 := by
  rw [hexValue] at h
  split_ifs at h <;> (have hd := Option.some.inj h; omega)

theorem hexNumber_lt (w : Bytes) : hexNumber w < 16 ^ w.length := by
  induction w using List.reverseRecOn with
  | nil => simp [hexNumber]
  | append_singleton w byte ih =>
    have hbyte : (hexValue byte).getD 0 < 16 := by
      cases h : hexValue byte with
      | none => simp
      | some d => exact hexValue_lt h
    rw [hexNumber_append, List.length_append, List.length_singleton, pow_succ]
    omega

theorem Hex.lt {v : ℕ} {w : Bytes} (h : Hex v w) : v < 65536 := by
  have hlt := hexNumber_lt w
  have hle : 16 ^ w.length ≤ 16 ^ 4 := Nat.pow_le_pow_right (by norm_num) h.short
  rw [h.denotes] at hlt
  norm_num at hle
  omega

theorem Ends.lt {vs : List ℕ} {text : Bytes} (h : Ends vs text) : ∀ v ∈ vs, v < 65536 := by
  induction h with
  | last h => simpa using h.lt
  | quad ha hb hc hd =>
    have ha := ha.small
    have hb := hb.small
    have hc := hc.small
    have hd := hd.small
    simp only [List.mem_cons, List.not_mem_nil, or_false]
    rintro v (rfl | rfl) <;> omega
  | more h _ ih => exact List.forall_mem_cons.mpr ⟨h.lt, ih⟩

theorem Form.pieces {text : Bytes} {pieces : List ℕ} (h : Form text pieces) :
    pieces.length = 8 ∧ ∀ v ∈ pieces, v < 65536 := by
  cases h with
  | full h hlength => exact ⟨hlength, h.lt⟩
  | @compressed l r lt rt hl hr hlength =>
    refine ⟨by simp; omega, fun v hv => ?_⟩
    simp only [List.mem_append, List.mem_replicate] at hv
    rcases hv with (hv | ⟨-, rfl⟩) | hv
    · rcases hl with ⟨rfl, -⟩ | hl
      · simp at hv
      · exact hl.ends.lt v hv
    · norm_num
    · rcases hr with ⟨rfl, -⟩ | hr
      · simp at hv
      · exact hr.lt v hv

end Numerals

section Writing

variable {runStart : Option ℕ} {pieces : List ℕ} {position s : ℕ}

theorem getElem?_after_run {rest : List ℕ} {n index : ℕ} (hle : index + (n + 1) ≤ s)
    (h : (rest.drop n)[s - (index + (n + 1))]? = some 0) : (0 :: rest)[s - index]? = some 0 := by
  rw [List.getElem?_drop] at h
  rwa [show s - index = n + (s - (index + (n + 1))) + 1 by omega, List.getElem?_cons_succ]

/-- The run found, if any is, starts with a zero. -/
theorem longestRun_spec {runLength index : ℕ}
    (h : longestRun runStart runLength index pieces = some s) :
    runStart = some s ∨ index ≤ s ∧ pieces[s - index]? = some 0 := by
  fun_induction longestRun runStart runLength index pieces with
  | case1 => exact .inl h
  | case2 runStart runLength index rest zeros finish hlt ih =>
    rcases ih h with hs | ⟨hle, hzero⟩
    · obtain rfl := Option.some.inj hs
      exact .inr ⟨Nat.le_refl _, by simp⟩
    · exact .inr ⟨by omega, getElem?_after_run hle hzero⟩
  | case3 runStart runLength index rest zeros finish hlt ih =>
    rcases ih h with hs | ⟨hle, hzero⟩
    · exact .inl hs
    · exact .inr ⟨by omega, getElem?_after_run hle hzero⟩
  | case4 runStart runLength index piece rest hne ih =>
    rcases ih h with hs | ⟨hle, hzero⟩
    · exact .inl hs
    · refine .inr ⟨by omega, ?_⟩
      rwa [show s - index = s - (index + 1) + 1 by omega, List.getElem?_cons_succ]

/-- Pieces after the run, or when there is none, are written with colons between. -/
theorem writeFrom_ends (hstart : ∀ s, runStart = some s → s < position)
    (hlength : position + pieces.length = 9) (hlt : ∀ v ∈ pieces, v < 65536) (hne : pieces ≠ []) :
    Ends pieces (writeFrom runStart pieces position false) := by
  induction pieces generalizing position with
  | nil => exact absurd rfl hne
  | cons piece rest ih =>
    obtain ⟨hpiece, hrest⟩ := List.forall_mem_cons.mp hlt
    have hpast : runStart ≠ some position := fun h => Nat.lt_irrefl _ (hstart position h)
    rw [List.length_cons] at hlength
    rw [writeFrom, if_neg (by simp), if_neg hpast]
    cases rest with
    | nil =>
      rw [if_neg (by simp only [List.length_nil] at hlength; omega), writeFrom]
      simpa using Ends.last (hex_hexNumeral hpiece)
    | cons next rest =>
      rw [List.length_cons] at hlength
      rw [if_pos (by omega), List.append_assoc, List.singleton_append]
      refine .more (hex_hexNumeral hpiece) (ih (fun s hs => ?_) ?_ hrest (List.cons_ne_nil _ _))
      · exact (hstart s hs).trans (Nat.lt_succ_self _)
      · rw [List.length_cons]
        omega

/-- After the start of the run its other zeros are left out. -/
theorem writeFrom_ignoring (hstart : s < position) (hlength : position + pieces.length = 9)
    (hlt : ∀ v ∈ pieces, v < 65536) :
    ∃ z r, pieces = List.replicate z 0 ++ r ∧
      Maybe Ends r (writeFrom (some s) pieces position true) := by
  induction pieces generalizing position with
  | nil => exact ⟨0, [], rfl, .inl ⟨rfl, rfl⟩⟩
  | cons piece rest ih =>
    have hlength' := hlength
    rw [List.length_cons] at hlength'
    by_cases hpiece : piece = 0
    · obtain ⟨z, r, hrest, hr⟩ := ih (hstart.trans (Nat.lt_succ_self _)) (by omega)
        (List.forall_mem_cons.mp hlt).2
      refine ⟨z + 1, r, by rw [hrest, hpiece, List.replicate_succ, List.cons_append], ?_⟩
      rwa [writeFrom, if_pos ⟨rfl, hpiece⟩]
    · refine ⟨0, piece :: rest, rfl, .inr ?_⟩
      have hsame : writeFrom (some s) (piece :: rest) position true =
          writeFrom (some s) (piece :: rest) position false := by
        have hpast : some s ≠ some position := fun h => by
          have heq := Option.some.inj h
          omega
        rw [writeFrom, if_neg (by simp [hpiece]), if_neg hpast, writeFrom,
          if_neg (show ¬ (false = true ∧ piece = 0) by simp), if_neg hpast]
      rw [hsame]
      refine writeFrom_ends (fun s' hs => ?_) hlength hlt (List.cons_ne_nil _ _)
      rwa [← Option.some.inj hs]

/-- The pieces up to the run are written with colons, and the run as one colon more. -/
inductive Written (position s : ℕ) (pieces : List ℕ) (text : Bytes) : Prop
  | start (z : ℕ) (r : List ℕ) (rt : Bytes) (h : position = s)
      (hpieces : pieces = 0 :: (List.replicate z 0 ++ r)) (hr : Maybe Ends r rt)
      (htext : text = (if s = 1 then [58, 58] else [58]) ++ rt)
  | later (l : List ℕ) (lt : Bytes) (z : ℕ) (r : List ℕ) (rt : Bytes) (hl : Groups l lt)
      (hpieces : pieces = l ++ 0 :: (List.replicate z 0 ++ r)) (hr : Maybe Ends r rt)
      (htext : text = lt ++ 58 :: 58 :: rt)

theorem writeFrom_written (hpos : 0 < position) (hle : position ≤ s)
    (hlength : position + pieces.length = 9) (hlt : ∀ v ∈ pieces, v < 65536)
    (hzero : pieces[s - position]? = some 0) :
    Written position s pieces (writeFrom (some s) pieces position false) := by
  induction pieces generalizing position with
  | nil => simp at hzero
  | cons piece rest ih =>
    obtain ⟨hpiece, hrest⟩ := List.forall_mem_cons.mp hlt
    rw [List.length_cons] at hlength
    rw [writeFrom, if_neg (by simp)]
    rcases Nat.eq_or_lt_of_le hle with rfl | hlater
    · rw [Nat.sub_self, List.getElem?_cons_zero, Option.some.injEq] at hzero
      obtain ⟨z, r, hpieces, hr⟩ :=
        writeFrom_ignoring (Nat.lt_succ_self position) (by omega) hrest
      rw [if_pos rfl]
      exact .start z r _ rfl (by rw [hzero, hpieces]) hr rfl
    · have hpast : some s ≠ some position := fun h => by
        have heq := Option.some.inj h
        omega
      have hbound : s - position < rest.length + 1 := by
        by_contra hge
        rw [List.getElem?_eq_none (by rw [List.length_cons]; omega)] at hzero
        simp at hzero
      rw [show s - position = s - (position + 1) + 1 by omega, List.getElem?_cons_succ] at hzero
      rw [if_neg hpast, if_pos (by omega), List.append_assoc, List.singleton_append]
      cases ih (Nat.succ_pos _) hlater (by omega) hrest hzero with
      | start z r rt h hpieces hr htext =>
        refine .later [piece] _ z r rt (.last (hex_hexNumeral hpiece)) (by rw [hpieces]; rfl) hr ?_
        rw [htext, if_neg (by omega)]
        rfl
      | later l lt z r rt hl hpieces hr htext =>
        refine .later (piece :: l) _ z r rt (.more (hex_hexNumeral hpiece) hl) (by rw [hpieces]; rfl) hr ?_
        rw [htext, List.append_assoc, List.cons_append]

/-- What is written denotes the pieces. -/
theorem form_writePieces (hlength : pieces.length = 8) (hlt : ∀ v ∈ pieces, v < 65536) :
    Form (writePieces pieces) pieces := by
  rw [writePieces]
  cases hrun : longestRun none 1 1 pieces with
  | none =>
    have hne : pieces ≠ [] := by
      rintro rfl
      simp at hlength
    exact .full (writeFrom_ends nofun (by omega) hlt hne) hlength
  | some s =>
    rcases longestRun_spec hrun with hnone | ⟨hle, hzero⟩
    · simp at hnone
    have hzeros : ∀ {l r : List ℕ} {z : ℕ}, pieces = l ++ 0 :: (List.replicate z 0 ++ r) →
        l.length + r.length < 8 ∧
          pieces = l ++ List.replicate (8 - (l.length + r.length)) 0 ++ r := by
      rintro l r z hpieces
      have hcount := congrArg List.length hpieces
      simp only [List.length_append, List.length_cons, List.length_replicate, hlength] at hcount
      refine ⟨by omega, ?_⟩
      rw [hpieces, show 8 - (l.length + r.length) = z + 1 by omega, List.replicate_succ]
      simp
    cases writeFrom_written Nat.one_pos hle (by omega) hlt hzero with
    | start z r rt h hpieces hr htext =>
      obtain ⟨hcount, heq⟩ := @hzeros [] r z hpieces
      have hleft : Maybe Groups [] [] := .inl ⟨rfl, rfl⟩
      have hform := Form.compressed hleft hr hcount
      rw [htext, if_pos h.symm, heq]
      exact hform
    | later l lt z r rt hl hpieces hr htext =>
      obtain ⟨hcount, heq⟩ := hzeros hpieces
      have hform := Form.compressed (.inr hl) hr hcount
      rw [htext, heq]
      exact hform

end Writing

/-- The reader accepts the textual forms of an address and no other text, and computes what they
denote; what is written is accepted again with the same pieces; and two texts are written alike
exactly when they denote one address. -/
theorem ipv6_canonical :
    (∀ text pieces, readPieces text = some pieces ↔ Form text pieces) ∧
      (∀ text, ipv6 text = none ↔ ¬ ∃ pieces, Form text pieces) ∧
      (∀ text pieces, Form text pieces → ∃ inner,
        ipv6 text = some (91 :: inner ++ [93]) ∧ Form inner pieces) ∧
      ∀ text text' pieces pieces', Form text pieces → Form text' pieces' →
        (pieces = pieces' ↔ ipv6 text = ipv6 text') := by
  have hwrites : ∀ text pieces, Form text pieces →
      ipv6 text = some (91 :: writePieces pieces ++ [93]) := by
    intro text pieces h
    rw [ipv6, read_of_form h, Option.map_some]
  refine ⟨readPieces_iff, fun text => ?_, fun text pieces h => ?_, fun text text' pieces pieces' h h' => ?_⟩
  · rw [ipv6, Option.map_eq_none_iff, Option.eq_none_iff_forall_ne_some]
    simp only [ne_eq, readPieces_iff, not_exists]
  · exact ⟨_, hwrites text pieces h, form_writePieces h.pieces.1 h.pieces.2⟩
  · rw [hwrites text pieces h, hwrites text' pieces' h']
    constructor
    · rintro rfl
      rfl
    · intro heq
      have hsame : writePieces pieces = writePieces pieces' :=
        List.append_cancel_right (List.cons.inj (Option.some.inj heq)).2
      have hread := read_of_form (form_writePieces h.pieces.1 h.pieces.2)
      rw [hsame, read_of_form (form_writePieces h'.pieces.1 h'.pieces.2)] at hread
      exact (Option.some.inj hread).symm

end Nupp.whatwg
