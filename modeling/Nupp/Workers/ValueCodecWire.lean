import Nupp.Lib.Result
import Nupp.Workers.ValueCodec

/-! The messages of the codec as trees: what is written is read back, what is read was
written, and no message is the beginning of another. -/

namespace Nupp.ValueCodec

open Data Decimal Double Result

variable {ι μ ρ : Type}

/-! Trees as bytes, and what a reader makes of them. -/

def Entries.length : Entries ρ → ℕ
  | .nil => 0
  | .cons _ _ rest => rest.length + 1

mutual

def Tree.render : Tree Bytes → Bytes
  | .nil => [NIL]
  | .scalar s => writeScalar s
  | .table address entries => writeTag address ++ (writeLength entries.length ++ entries.render)

def Entries.render : Entries Bytes → Bytes
  | .nil => []
  | .cons key item rest => writeScalar key ++ (item.render ++ rest.render)

end

def copyRecord (realm : Realm μ) : Option Bytes → Option (Option μ)
  | none => some none
  | some address => (resolveRecord realm address).toOption.map some

mutual

/-- The value a state makes of a message, unless it refuses it. -/
def Tree.copy (realm : Realm μ) : ℕ → Tree Bytes → Option (Tree μ)
  | 0, _ => none
  | _ + 1, .nil => some .nil
  | _ + 1, .scalar s => some (.scalar s)
  | levels + 1, .table address entries =>
    match levels, entries.copy realm levels [], copyRecord realm address with
    | _ + 1, some entries, some record => some (.table record entries)
    | _, _, _ => none

def Entries.copy (realm : Realm μ) : ℕ → List Scalar → Entries Bytes → Option (Entries μ)
  | _, _, .nil => some .nil
  | levels, present, .cons key item rest =>
    match item.copy realm levels with
    | none => none
    | some item =>
      match entryKey present (.scalar key) item with
      | .error _ => none
      | .ok key => (rest.copy realm levels (key :: present)).map (.cons key item)

end

/-! Cursors. -/

theorem ahead_add {bytes : Bytes} {cursor : ℕ} (hc : 1 ≤ cursor) (k : ℕ) :
    ahead bytes (cursor + k) = (ahead bytes cursor).drop k := by
  rw [ahead, ahead, List.drop_drop]
  congr 1
  omega

theorem ahead_append {bytes front rest : Bytes} {cursor : ℕ} (hc : 1 ≤ cursor)
    (h : ahead bytes cursor = front ++ rest) : ahead bytes (cursor + front.length) = rest := by
  rw [ahead_add hc, h, List.drop_left]

theorem length_ahead (bytes : Bytes) (cursor : ℕ) :
    (ahead bytes cursor).length = bytes.length - (cursor - 1) := by
  rw [ahead, List.length_drop]

theorem cursor_le_of_ahead {bytes front rest : Bytes} {cursor : ℕ} (hc : cursor ≤ bytes.length + 1)
    (h : ahead bytes cursor = front ++ rest) (hpos : 1 ≤ cursor) :
    cursor + front.length ≤ bytes.length + 1 := by
  have hlength := congrArg List.length h
  rw [length_ahead, List.length_append] at hlength
  omega

/-! Lengths and strings. -/

theorem not_isDigit_colon : isDigit colon = false := rfl

theorem takeWhile_writeLength (n : ℕ) (rest : Bytes) :
    (writeLength n ++ rest).takeWhile isDigit = numeral n ∧
      (writeLength n ++ rest).dropWhile isDigit = colon :: rest := by
  rw [writeLength, List.append_assoc, List.singleton_append]
  exact takeWhile_digits _ (fun _ hb => isDigit_of_mem_numeral hb)
    (fun b hb => by rw [← Option.some.inj hb]; exact not_isDigit_colon)

theorem writeLength_cancel {m n : ℕ} {r s : Bytes} (h : writeLength m ++ r = writeLength n ++ s) :
    m = n ∧ r = s := by
  obtain ⟨htake, hdrop⟩ := takeWhile_writeLength m r
  rw [h, (takeWhile_writeLength n s).1] at htake
  rw [h, (takeWhile_writeLength n s).2] at hdrop
  exact ⟨(numeral_injective htake).symm, (List.cons.inj hdrop).2.symm⟩

theorem writeString_cancel {a b r s : Bytes} (h : writeString a ++ r = writeString b ++ s) :
    a = b ∧ r = s := by
  rw [writeString, writeString, List.append_assoc, List.append_assoc] at h
  obtain ⟨hlength, h⟩ := writeLength_cancel h
  exact List.append_inj h hlength

theorem numeral_head (n : ℕ) : 1 < (numeral n).length → (numeral n).head? ≠ some 48 := by
  intro hlength
  rcases Nat.eq_zero_or_pos n with rfl | hpos
  · rw [numeral, if_pos (by norm_num)] at hlength
    simp at hlength
  · exact head_numeral n hpos

theorem readLength_of_ahead {bytes rest : Bytes} {cursor n : ℕ}
    (h : ahead bytes cursor = writeLength n ++ rest) (hn : n ≤ bytes.length) :
    readLength bytes cursor = .ok (n, cursor + (writeLength n).length) := by
  obtain ⟨htake, hdrop⟩ := takeWhile_writeLength n rest
  have hhead : ((numeral n).length > 1 && (numeral n).head? = some 48) = false := by
    rw [Bool.and_eq_false_iff]
    by_cases hlength : 1 < (numeral n).length
    · exact .inr (by simpa using numeral_head n hlength)
    · exact .inl (by simpa using hlength)
  have hbound : ¬ n > bytes.length := by omega
  simp only [readLength, h, htake, hdrop, value_numeral, hhead, numeral_ne_nil, List.head?_cons, hbound]
  simp [writeLength, Nat.add_assoc]

theorem ahead_of_readLength {bytes : Bytes} {cursor n next : ℕ} (hc : 1 ≤ cursor)
    (h : readLength bytes cursor = .ok (n, next)) :
    ahead bytes cursor = writeLength n ++ ahead bytes next ∧
      next = cursor + (writeLength n).length ∧ n ≤ bytes.length := by
  simp only [readLength] at h
  split_ifs at h with h1 h2
  simp only [Bool.or_eq_true, decide_eq_true_eq, not_or, Bool.and_eq_true, not_and] at h1 h2
  rw [Except.ok.injEq, Prod.mk.injEq] at h
  obtain ⟨hn, hnext⟩ := h
  generalize hdigits : (ahead bytes cursor).takeWhile isDigit = digits at h1 h2 hn hnext
  have hall : ∀ b ∈ digits, isDigit b = true := by
    intro b hb
    rw [← hdigits] at hb
    exact List.mem_takeWhile_imp hb
  have hnumeral : numeral n = digits := by
    rw [← hn]
    exact numeral_value h1.1 hall (fun hlength => by simpa using h2.2 hlength)
  have hcolon : ∃ rest, (ahead bytes cursor).dropWhile isDigit = colon :: rest := by
    have hhead := not_not.mp h1.2
    cases hrest : (ahead bytes cursor).dropWhile isDigit with
    | nil => rw [hrest] at hhead; cases hhead
    | cons b rest =>
      rw [hrest] at hhead
      exact ⟨rest, by rw [Option.some.inj hhead]⟩
  obtain ⟨rest, hrest⟩ := hcolon
  have hsplit : ahead bytes cursor = writeLength n ++ rest := by
    rw [← List.takeWhile_append_dropWhile (p := isDigit) (l := ahead bytes cursor), hdigits, hrest,
      writeLength, hnumeral, List.append_assoc, List.singleton_append]
  have hlength : next = cursor + (writeLength n).length := by
    rw [← hnext, writeLength, hnumeral, List.length_append, List.length_singleton, Nat.add_assoc]
  refine ⟨?_, hlength, by omega⟩
  rw [hlength, ahead_append hc hsplit, hsplit]

theorem readString_of_ahead {bytes s rest : Bytes} {cursor : ℕ} (hc : 1 ≤ cursor)
    (hend : cursor ≤ bytes.length + 1) (h : ahead bytes cursor = writeString s ++ rest) :
    readString bytes cursor = .ok (s, cursor + (writeString s).length) := by
  rw [writeString, List.append_assoc] at h
  have hbound : cursor + (writeLength s.length).length + s.length ≤ bytes.length + 1 := by
    have hfirst := cursor_le_of_ahead hend h hc
    exact cursor_le_of_ahead hfirst (ahead_append hc h) (by omega)
  have hnot : ¬ cursor + (writeLength s.length).length + s.length > bytes.length + 1 := by omega
  rw [readString, readLength_of_ahead h (by omega), ok_bind]
  simp only [if_neg hnot, ahead_append hc h, List.take_left]
  rw [writeString, List.length_append, Nat.add_assoc]

theorem ahead_of_readString {bytes s : Bytes} {cursor next : ℕ} (hc : 1 ≤ cursor)
    (h : readString bytes cursor = .ok (s, next)) :
    ahead bytes cursor = writeString s ++ ahead bytes next ∧ next = cursor + (writeString s).length ∧
      next ≤ bytes.length + 1 := by
  rw [readString] at h
  obtain ⟨⟨n, mid⟩, hread, h⟩ := bind_eq_ok.mp h
  simp only at h
  split_ifs at h with hbound
  rw [Except.ok.injEq, Prod.mk.injEq] at h
  obtain ⟨hs, rfl⟩ := h
  obtain ⟨hsplit, hmid, -⟩ := ahead_of_readLength hc hread
  have hlength : s.length = n := by
    rw [← hs, List.length_take, length_ahead]
    omega
  have hrest : ahead bytes mid = s ++ ahead bytes (mid + n) := by
    rw [ahead_add (by omega), ← hs, List.take_append_drop]
  refine ⟨?_, ?_, by omega⟩
  · rw [hsplit, hrest, writeString, hlength, List.append_assoc]
  · rw [writeString, List.length_append, hlength, hmid, Nat.add_assoc]

section Reader

variable {other : Bytes → Option Number} {realm : Realm μ} {bytes : Bytes}

/-! What is written is read back. -/

theorem readNumber_of_ahead (other : Bytes → Option Number) {rest : Bytes} {x : Finite} {cursor : ℕ} (hc : 1 ≤ cursor)
    (hend : cursor ≤ bytes.length + 1)
    (h : ahead bytes cursor = writeString (formatFinite 17 x) ++ rest) :
    readNumber other bytes cursor =
      .ok (.number (.finite x), cursor + (writeString (formatFinite 17 x)).length) := by
  rw [readNumber, readString_of_ahead hc hend h, ok_bind]
  simp [tonumber_formatFinite]

theorem readValue_scalar {s : Scalar} {rest : Bytes} {cursor : ℕ} (levels : ℕ) (hc : 1 ≤ cursor)
    (hend : cursor ≤ bytes.length + 1) (h : ahead bytes cursor = writeScalar s ++ rest) :
    readValue other realm bytes (levels + 1) cursor = .ok (.scalar s, cursor + (writeScalar s).length) := by
  have htag : ∀ (tag : UInt8) (body : Bytes), writeScalar s = tag :: body →
      (ahead bytes cursor).head? = some tag ∧ ahead bytes (cursor + 1) = body ++ rest ∧
        cursor + 1 ≤ bytes.length + 1 := by
    intro tag body hs
    rw [hs] at h
    have h1 : ahead bytes cursor = [tag] ++ (body ++ rest) := h
    exact ⟨by rw [h]; rfl, ahead_append hc h1, cursor_le_of_ahead hend h1 hc⟩
  match s with
  | .boolean true =>
    simp +decide [readValue, (htag TRUE [] rfl).1, writeScalar]
  | .boolean false =>
    simp +decide [readValue, (htag FALSE [] rfl).1, writeScalar]
  | .number .nan =>
    simp +decide [readValue, (htag NOT_A_NUMBER [] rfl).1, writeScalar]
  | .number (.infinity true) =>
    simp +decide [readValue, (htag NEGATIVE_INFINITY [] rfl).1, writeScalar]
  | .number (.infinity false) =>
    simp +decide [readValue, (htag POSITIVE_INFINITY [] rfl).1, writeScalar]
  | .number (.finite x) =>
    obtain ⟨hhead, hbody, hnext⟩ := htag NUMBER _ rfl
    have hread := readNumber_of_ahead other (by omega) hnext hbody
    simp +decide [readValue, hhead, hread, writeScalar]
    omega
  | .string s =>
    obtain ⟨hhead, hbody, hnext⟩ := htag STRING _ rfl
    have hread := readString_of_ahead (by omega) hnext hbody
    simp +decide [readValue, hhead, hread, writeScalar]
    omega

theorem Entries.length_le_render (entries : Entries Bytes) : entries.length ≤ entries.render.length := by
  match entries with
  | .nil => exact Nat.le_refl _
  | .cons key item rest =>
    have hrest := rest.length_le_render
    have hkey : 0 < (writeScalar key).length := by
      match key with
      | .boolean _ | .number .nan | .number (.infinity _) | .number (.finite _) | .string _ =>
        simp [writeScalar]
    simp only [Entries.length, Entries.render, List.length_append]
    omega

theorem copy_table_inv {levels : ℕ} {address : Option Bytes} {entries : Entries Bytes} {t : Tree μ}
    (h : (Tree.table address entries).copy realm levels = some t) :
    ∃ n copied record, levels = n + 2 ∧ entries.copy realm (n + 1) [] = some copied ∧
      copyRecord realm address = some record ∧ t = .table record copied := by
  match levels, h with
  | 0, h => cases h
  | 1, h => simp [Tree.copy] at h
  | n + 2, h =>
    cases hcopied : entries.copy realm (n + 1) [] with
    | none => simp [Tree.copy, hcopied] at h
    | some copied =>
      cases hrecord : copyRecord realm address with
      | none => simp [Tree.copy, hcopied, hrecord] at h
      | some record =>
        simp only [Tree.copy, hcopied, hrecord, Option.some.injEq] at h
        exact ⟨n, copied, record, rfl, hcopied, rfl, h.symm⟩

theorem copy_cons_inv {levels : ℕ} {present : List Scalar} {key : Scalar} {item : Tree Bytes}
    {rest : Entries Bytes} {entries : Entries μ}
    (h : (Entries.cons key item rest).copy realm levels present = some entries) :
    ∃ filed copied others, item.copy realm levels = some copied ∧
      entryKey present (.scalar key) copied = .ok filed ∧
      rest.copy realm levels (filed :: present) = some others ∧ entries = .cons filed copied others := by
  rw [Entries.copy] at h
  split at h
  · cases h
  · rename_i copied hitem
    split at h
    · cases h
    · rename_i filed hkey
      obtain ⟨others, hothers, hentries⟩ := Option.map_eq_some_iff.mp h
      exact ⟨filed, copied, others, hitem, hkey, hothers, hentries.symm⟩

theorem copy_levels {levels : ℕ} {w : Tree Bytes} {t : Tree μ} (h : w.copy realm levels = some t) :
    ∃ n, levels = n + 1 := by
  cases levels with
  | zero => simp [Tree.copy] at h
  | succ n => exact ⟨n, rfl⟩

theorem readValue_table {cursor : ℕ} (n : ℕ) (h : (ahead bytes cursor).head? = some TABLE) :
    readValue other realm bytes (n + 2) cursor = (do
      let (count, cursor) ← readLength bytes (cursor + 1)
      let (entries, cursor) ← readEntries (readValue other realm bytes (n + 1)) count [] cursor
      .ok (.table none entries, cursor)) := by
  rw [readValue, h]
  rfl

theorem readValue_record {cursor : ℕ} (n : ℕ) (h : (ahead bytes cursor).head? = some RECORD) :
    readValue other realm bytes (n + 2) cursor = (do
      let (address, cursor) ← readString bytes (cursor + 1)
      let (count, cursor) ← readLength bytes cursor
      let (entries, cursor) ← readEntries (readValue other realm bytes (n + 1)) count [] cursor
      let record ← resolveRecord realm address
      .ok (.table (some record) entries, cursor)) := by
  rw [readValue, h]
  cases hs : readString bytes (cursor + 1) with
  | error e => simp +decide [hs]
  | ok r =>
    simp +decide only [hs]
    rfl

theorem copyRecord_some {address : Bytes} {record : Option μ} (h : copyRecord realm (some address) = some record) :
    ∃ found, resolveRecord realm address = .ok found ∧ record = some found := by
  simp only [copyRecord, Option.map_eq_some_iff] at h
  obtain ⟨found, hfound, rfl⟩ := h
  cases hr : resolveRecord realm address with
  | error e => rw [hr] at hfound; cases hfound
  | ok m => rw [hr] at hfound; exact ⟨found, congrArg _ (Option.some.inj hfound), rfl⟩

mutual

theorem Tree.read_render {w : Tree Bytes} {t : Tree μ} {levels cursor : ℕ} {rest : Bytes} (hc : 1 ≤ cursor)
    (hend : cursor ≤ bytes.length + 1) (hcopy : w.copy realm levels = some t)
    (h : ahead bytes cursor = w.render ++ rest) :
    readValue other realm bytes levels cursor = .ok (t, cursor + w.render.length) := by
  match w, h with
  | .nil, h =>
    obtain ⟨levels, rfl⟩ := copy_levels hcopy
    cases hcopy
    simp [readValue, h, Tree.render]
  | .scalar s, h =>
    obtain ⟨levels, rfl⟩ := copy_levels hcopy
    cases hcopy
    exact readValue_scalar levels hc hend h
  | .table address entries, h =>
    obtain ⟨n, copied, record, rfl, hcopied, hrecord, rfl⟩ := copy_table_inv hcopy
    rw [Tree.render, List.append_assoc, List.append_assoc] at h
    have hmid := ahead_append hc h
    have hmidEnd := cursor_le_of_ahead hend h hc
    have hlast := ahead_append (by omega) hmid
    have hlastEnd := cursor_le_of_ahead hmidEnd hmid (by omega)
    have hbound := cursor_le_of_ahead hlastEnd hlast (by omega)
    have hcount := entries.length_le_render
    have hlength := readLength_of_ahead hmid (by omega)
    have hentries := Entries.read_render (by omega) hlastEnd hcopied hlast
    match address, hrecord with
    | none, hrecord =>
      cases hrecord
      have hhead : (ahead bytes cursor).head? = some TABLE := by rw [h]; rfl
      simp only [writeTag, List.length_singleton] at hlength hentries
      simp only [readValue_table n hhead, hlength, hentries, ok_bind]
      simp only [Tree.render, writeTag, List.length_append, List.length_singleton, Nat.add_assoc]
    | some address, hrecord =>
      obtain ⟨found, hresolve, rfl⟩ := copyRecord_some hrecord
      have hhead : (ahead bytes cursor).head? = some RECORD := by rw [h]; rfl
      have hone : ahead bytes cursor =
          [RECORD] ++ (writeString address ++ (writeLength entries.length ++ (entries.render ++ rest))) := h
      have haddress := readString_of_ahead (by omega) (cursor_le_of_ahead hend hone hc) (ahead_append hc hone)
      have hnext : cursor + (writeTag (some address)).length = cursor + 1 + (writeString address).length := by
        simp only [writeTag, List.length_cons]
        omega
      simp only [List.length_singleton] at haddress
      rw [hnext] at hlength hentries
      simp only [readValue_record n hhead, haddress, hlength, hentries, hresolve, ok_bind]
      rw [Tree.render, List.length_append, List.length_append, ← Nat.add_assoc, ← Nat.add_assoc, hnext]

theorem Entries.read_render {entries : Entries Bytes} {copied : Entries μ} {levels cursor : ℕ}
    {present : List Scalar} {rest : Bytes} (hc : 1 ≤ cursor) (hend : cursor ≤ bytes.length + 1)
    (hcopy : entries.copy realm levels present = some copied)
    (h : ahead bytes cursor = entries.render ++ rest) :
    readEntries (readValue other realm bytes levels) entries.length present cursor =
      .ok (copied, cursor + entries.render.length) := by
  match entries, h with
  | .nil, h =>
    cases hcopy
    rfl
  | .cons key item others, h =>
    obtain ⟨filed, citem, cothers, hitem, hkey, hothers, rfl⟩ := copy_cons_inv hcopy
    obtain ⟨n, rfl⟩ := copy_levels hitem
    rw [Entries.render, List.append_assoc, List.append_assoc] at h
    have hmid := ahead_append hc h
    have hmidEnd := cursor_le_of_ahead hend h hc
    have hlast := ahead_append (by omega) hmid
    have hlastEnd := cursor_le_of_ahead hmidEnd hmid (by omega)
    have hreadKey : readValue other realm bytes (n + 1) cursor = _ := readValue_scalar n hc hend h
    have hreadItem := Tree.read_render (by omega) hmidEnd hitem hmid
    have hreadOthers := Entries.read_render (by omega) hlastEnd hothers hlast
    simp only [Entries.length, readEntries, hreadKey, hreadItem, hkey, hreadOthers, ok_bind]
    simp only [Entries.render, List.length_append, Nat.add_assoc]

end

/-! What is read was written. -/

/-- Reading from `cursor` made `t` of a message that ends at `next`. -/
def Read (realm : Realm μ) (bytes : Bytes) (levels cursor : ℕ) (t : Tree μ) (next : ℕ) : Prop :=
  ∃ w : Tree Bytes, w.copy realm levels = some t ∧ ahead bytes cursor = w.render ++ ahead bytes next ∧
    cursor < next ∧ next ≤ bytes.length + 1

theorem ahead_head {bytes : Bytes} {cursor : ℕ} {tag : UInt8} (hc : 1 ≤ cursor)
    (h : (ahead bytes cursor).head? = some tag) :
    ahead bytes cursor = tag :: ahead bytes (cursor + 1) ∧ cursor + 1 ≤ bytes.length + 1 := by
  cases hrest : ahead bytes cursor with
  | nil => rw [hrest] at h; cases h
  | cons b rest =>
    rw [hrest] at h
    have hb := Option.some.inj h
    subst hb
    have hsplit : ahead bytes cursor = [b] ++ rest := hrest
    have hlength := congrArg List.length hsplit
    rw [length_ahead] at hlength
    simp only [List.length_append, List.length_singleton] at hlength
    exact ⟨by rw [← ahead_append hc hsplit]; rfl, by omega⟩

theorem ahead_of_readNumber {s : Scalar} {cursor next : ℕ} (hc : 1 ≤ cursor)
    (h : readNumber other bytes cursor = .ok (s, next)) :
    ∃ x, s = .number (.finite x) ∧ ahead bytes cursor = writeString (formatFinite 17 x) ++ ahead bytes next ∧
      cursor ≤ next ∧ next ≤ bytes.length + 1 := by
  rw [readNumber] at h
  obtain ⟨⟨text, mid⟩, htext, h⟩ := bind_eq_ok.mp h
  obtain ⟨hsplit, hmid, hend⟩ := ahead_of_readString hc htext
  simp only at h
  split at h
  · rename_i x hx
    split_ifs at h with hformat
    rw [Except.ok.injEq, Prod.mk.injEq] at h
    obtain ⟨rfl, rfl⟩ := h
    exact ⟨x, rfl, by rw [not_not.mp hformat]; exact hsplit, by omega, hend⟩
  · cases h

theorem entryKey_inv {present : List Scalar} {key item : Tree μ} {filed : Scalar}
    (h : entryKey present key item = .ok filed) :
    ∃ k, key = .scalar k ∧ item ≠ .nil ∧ k ≠ .number .nan ∧ k.key ∉ present ∧ filed = k.key := by
  match key, item, h with
  | .scalar k, .scalar _, h | .scalar k, .table _ _, h =>
    simp only [entryKey] at h
    split_ifs at h with hkey
    simp only [Bool.or_eq_true, decide_eq_true_eq, not_or] at hkey
    exact ⟨k, rfl, nofun, hkey.1, hkey.2, (Except.ok.inj h).symm⟩

/-- A key is read as the scalar that was written. -/
theorem scalar_of_copy {w : Tree Bytes} {k : Scalar} {levels : ℕ}
    (h : w.copy realm levels = some (Tree.scalar k : Tree μ)) : w = .scalar k := by
  obtain ⟨n, rfl⟩ := copy_levels h
  match w, h with
  | .nil, h => cases h
  | .scalar s, h => cases h; rfl
  | .table address entries, h =>
    obtain ⟨_, _, _, _, _, _, htable⟩ := copy_table_inv h
    cases htable

theorem readEntries_sound {levels : ℕ}
    (hread : ∀ {cursor next : ℕ} {t : Tree μ}, 1 ≤ cursor →
      readValue other realm bytes levels cursor = .ok (t, next) → Read realm bytes levels cursor t next)
    {count cursor next : ℕ} {present : List Scalar} {copied : Entries μ} (hc : 1 ≤ cursor)
    (hend : cursor ≤ bytes.length + 1)
    (h : readEntries (readValue other realm bytes levels) count present cursor = .ok (copied, next)) :
    ∃ entries : Entries Bytes, entries.copy realm levels present = some copied ∧ entries.length = count ∧
      ahead bytes cursor = entries.render ++ ahead bytes next ∧ cursor ≤ next ∧ next ≤ bytes.length + 1 := by
  induction count generalizing cursor present copied with
  | zero =>
    rw [readEntries, Except.ok.injEq, Prod.mk.injEq] at h
    obtain ⟨rfl, rfl⟩ := h
    exact ⟨.nil, rfl, rfl, rfl, Nat.le_refl _, hend⟩
  | succ count ih =>
    rw [readEntries] at h
    obtain ⟨⟨key, c1⟩, hkey, h⟩ := bind_eq_ok.mp h
    obtain ⟨⟨item, c2⟩, hitem, h⟩ := bind_eq_ok.mp h
    obtain ⟨filed, hfiled, h⟩ := bind_eq_ok.mp h
    obtain ⟨⟨rest, c3⟩, hrest, h⟩ := bind_eq_ok.mp h
    rw [Except.ok.injEq, Prod.mk.injEq] at h
    obtain ⟨rfl, rfl⟩ := h
    obtain ⟨wkey, hwkey, hahead1, hlt1, hend1⟩ := hread hc hkey
    obtain ⟨witem, hwitem, hahead2, hlt2, hend2⟩ := hread (by omega) hitem
    obtain ⟨wrest, hwrest, hlength, hahead3, hle3, hend3⟩ := ih (by omega) hend2 hrest
    obtain ⟨k, rfl, -⟩ := entryKey_inv hfiled
    have hk := scalar_of_copy hwkey
    subst hk
    refine ⟨.cons k witem wrest, ?_, by rw [Entries.length, hlength], ?_, by omega, hend3⟩
    · simp only [Entries.copy, hwitem, hfiled, hwrest, Option.map_some]
    · rw [hahead1, hahead2, hahead3, Entries.render, List.append_assoc, List.append_assoc]
      rfl

theorem Read.scalar {s : Scalar} {levels cursor next : ℕ} (hlt : cursor < next)
    (hend : next ≤ bytes.length + 1) (h : ahead bytes cursor = writeScalar s ++ ahead bytes next) :
    Read realm bytes (levels + 1) cursor (.scalar s) next :=
  ⟨.scalar s, rfl, h, hlt, hend⟩

theorem readValue_sound {levels cursor next : ℕ} {t : Tree μ} (hc : 1 ≤ cursor)
    (h : readValue other realm bytes levels cursor = .ok (t, next)) :
    Read realm bytes levels cursor t next := by
  induction levels generalizing cursor next t with
  | zero => cases h
  | succ levels ih =>
    cases htag : (ahead bytes cursor).head? with
    | none => rw [readValue, htag] at h; cases h
    | some tag =>
      obtain ⟨hahead, hend⟩ := ahead_head hc htag
      by_cases htable : tag = TABLE
      · subst htable
        match levels, h with
        | 0, h => rw [readValue, htag] at h; cases h
        | n + 1, h =>
          rw [readValue_table n htag] at h
          obtain ⟨⟨count, c1⟩, hcount, h⟩ := bind_eq_ok.mp h
          obtain ⟨⟨copied, c2⟩, hentries, h⟩ := bind_eq_ok.mp h
          rw [Except.ok.injEq, Prod.mk.injEq] at h
          obtain ⟨rfl, rfl⟩ := h
          obtain ⟨hahead1, hc1, -⟩ := ahead_of_readLength (by omega) hcount
          have hend1 := cursor_le_of_ahead hend hahead1 (by omega)
          obtain ⟨entries, hcopy, hlength, hahead2, hle, hend2⟩ :=
            readEntries_sound ih (by omega) (by omega) hentries
          refine ⟨.table none entries, by simp [Tree.copy, hcopy, copyRecord], ?_, by omega, hend2⟩
          rw [hahead, hahead1, hahead2, Tree.render, hlength, List.append_assoc, List.append_assoc]
          rfl
      · by_cases hrecord : tag = RECORD
        · subst hrecord
          match levels, h with
          | 0, h => rw [readValue, htag] at h; cases h
          | n + 1, h =>
            rw [readValue_record n htag] at h
            obtain ⟨⟨address, c0⟩, haddress, h⟩ := bind_eq_ok.mp h
            obtain ⟨⟨count, c1⟩, hcount, h⟩ := bind_eq_ok.mp h
            obtain ⟨⟨copied, c2⟩, hentries, h⟩ := bind_eq_ok.mp h
            obtain ⟨found, hfound, h⟩ := bind_eq_ok.mp h
            rw [Except.ok.injEq, Prod.mk.injEq] at h
            obtain ⟨rfl, rfl⟩ := h
            obtain ⟨hahead0, hc0, hend0⟩ := ahead_of_readString (by omega) haddress
            obtain ⟨hahead1, hc1, -⟩ := ahead_of_readLength (by omega) hcount
            have hend1 := cursor_le_of_ahead hend0 hahead1 (by omega)
            obtain ⟨entries, hcopy, hlength, hahead2, hle, hend2⟩ :=
              readEntries_sound ih (by omega) (by omega) hentries
            refine ⟨.table (some address) entries,
              by simp [Tree.copy, hcopy, copyRecord, hfound, Except.toOption], ?_, by omega, hend2⟩
            rw [hahead, hahead0, hahead1, hahead2, Tree.render, writeTag, hlength]
            simp only [List.append_assoc, List.cons_append]
        · rw [readValue, htag] at h
          simp only [htable, hrecord, decide_false, Bool.or_self, Bool.false_eq_true, if_false] at h
          split_ifs at h with h1 h2 h3 h4 h5 h6 h7 h8
          · cases h; subst h1; exact ⟨.nil, rfl, hahead, by omega, hend⟩
          · cases h; subst h2; exact .scalar (by omega) hend hahead
          · cases h; subst h3; exact .scalar (by omega) hend hahead
          · cases h; subst h4; exact .scalar (by omega) hend hahead
          · cases h; subst h5; exact .scalar (by omega) hend hahead
          · cases h; subst h6; exact .scalar (by omega) hend hahead
          · obtain ⟨⟨n, c1⟩, hn, h⟩ := bind_eq_ok.mp h
            cases h
            subst h7
            obtain ⟨x, rfl, hahead1, hle, hend1⟩ := ahead_of_readNumber (by omega) hn
            exact .scalar (by omega) hend1 (by rw [hahead, hahead1]; rfl)
          · obtain ⟨⟨s, c1⟩, hs, h⟩ := bind_eq_ok.mp h
            cases h
            subst h8
            obtain ⟨hahead1, hc1, hend1⟩ := ahead_of_readString (by omega) hs
            exact .scalar (by omega) hend1 (by rw [hahead, hahead1]; rfl)

end Reader

/-! No message is the beginning of another. -/

theorem formatFinite_injective {x y : Finite} (h : formatFinite 17 x = formatFinite 17 y) : x = y := by
  have hx := tonumber_formatFinite (fun _ => none) x
  rw [h, tonumber_formatFinite] at hx
  exact (Number.finite.inj (Option.some.inj hx)).symm

theorem writeScalar_head (s : Scalar) :
    ∃ tag body, writeScalar s = tag :: body ∧ tag ≠ NIL ∧ tag ≠ TABLE ∧ tag ≠ RECORD := by
  match s with
  | .boolean true | .boolean false | .number .nan | .number (.infinity true)
  | .number (.infinity false) | .number (.finite x) | .string s =>
    exact ⟨_, _, rfl, by decide, by decide, by decide⟩

theorem writeScalar_cancel {a b : Scalar} {r s : Bytes} (h : writeScalar a ++ r = writeScalar b ++ s) :
    a = b ∧ r = s := by
  match a, b, h with
  | .number (.finite x), .number (.finite y), h =>
    obtain ⟨htext, hrest⟩ := writeString_cancel (List.cons.inj h).2
    rw [formatFinite_injective htext]
    exact ⟨rfl, hrest⟩
  | .string x, .string y, h =>
    obtain ⟨rfl, hrest⟩ := writeString_cancel (List.cons.inj h).2
    exact ⟨rfl, hrest⟩
  | .boolean true, .boolean true, h | .boolean false, .boolean false, h
  | .number .nan, .number .nan, h | .number (.infinity true), .number (.infinity true), h
  | .number (.infinity false), .number (.infinity false), h =>
    exact ⟨rfl, (List.cons.inj h).2⟩

theorem writeTag_cancel {a b : Option Bytes} {r s : Bytes} (h : writeTag a ++ r = writeTag b ++ s) :
    a = b ∧ r = s := by
  match a, b, h with
  | none, none, h => exact ⟨rfl, (List.cons.inj h).2⟩
  | some a, some b, h =>
    obtain ⟨rfl, hrest⟩ := writeString_cancel (List.cons.inj h).2
    exact ⟨rfl, hrest⟩

theorem writeTag_head (a : Option Bytes) : ∃ tag body, writeTag a = tag :: body ∧ (tag = TABLE ∨ tag = RECORD) := by
  cases a with
  | none => exact ⟨_, _, rfl, .inl rfl⟩
  | some a => exact ⟨_, _, rfl, .inr rfl⟩

theorem scalar_ne_nil_render {a : Scalar} {r s : Bytes} : writeScalar a ++ r ≠ [NIL] ++ s := by
  obtain ⟨tag, body, htag, hnil, -⟩ := writeScalar_head a
  rw [htag]
  exact fun h => hnil (List.cons.inj h).1

theorem scalar_ne_table_render {a : Scalar} {b : Option Bytes} {r s : Bytes} :
    writeScalar a ++ r ≠ writeTag b ++ s := by
  obtain ⟨tag, body, htag, -, htable, hrecord⟩ := writeScalar_head a
  obtain ⟨tag', body', htag', hkind⟩ := writeTag_head b
  rw [htag, htag']
  intro h
  have heq := (List.cons.inj h).1
  rcases hkind with rfl | rfl
  · exact htable heq
  · exact hrecord heq

theorem nil_ne_table_render {b : Option Bytes} {r s : Bytes} : [NIL] ++ r ≠ writeTag b ++ s := by
  obtain ⟨tag, body, htag, hkind⟩ := writeTag_head b
  rw [htag]
  intro h
  have heq := (List.cons.inj h).1
  rcases hkind with rfl | rfl <;> exact absurd heq (by decide)

mutual

theorem Tree.render_cancel {v w : Tree Bytes} {r s : Bytes} (h : v.render ++ r = w.render ++ s) :
    v = w ∧ r = s := by
  match v, w, h with
  | .nil, .nil, h => exact ⟨rfl, (List.cons.inj h).2⟩
  | .nil, .scalar _, h => exact absurd h.symm scalar_ne_nil_render
  | .scalar _, .nil, h => exact absurd h scalar_ne_nil_render
  | .scalar a, .scalar b, h =>
    obtain ⟨rfl, hrest⟩ := writeScalar_cancel h
    exact ⟨rfl, hrest⟩
  | .nil, .table _ _, h =>
    rw [Tree.render, Tree.render, List.append_assoc] at h
    exact absurd h nil_ne_table_render
  | .table _ _, .nil, h =>
    rw [Tree.render, Tree.render, List.append_assoc] at h
    exact absurd h.symm nil_ne_table_render
  | .scalar _, .table _ _, h =>
    rw [Tree.render, Tree.render, List.append_assoc] at h
    exact absurd h scalar_ne_table_render
  | .table _ _, .scalar _, h =>
    rw [Tree.render, Tree.render, List.append_assoc] at h
    exact absurd h.symm scalar_ne_table_render
  | .table a es, .table b fs, h =>
    simp only [Tree.render, List.append_assoc] at h
    obtain ⟨rfl, hbody⟩ := writeTag_cancel h
    obtain ⟨hlength, hentries⟩ := writeLength_cancel hbody
    obtain ⟨rfl, hrest⟩ := Entries.render_cancel hlength hentries
    exact ⟨rfl, hrest⟩

theorem Entries.render_cancel {v w : Entries Bytes} {r s : Bytes} (hlength : v.length = w.length)
    (h : v.render ++ r = w.render ++ s) : v = w ∧ r = s := by
  match v, w, h with
  | .nil, .nil, h => exact ⟨rfl, h⟩
  | .nil, .cons _ _ _, _ => cases hlength
  | .cons _ _ _, .nil, _ => cases hlength
  | .cons k a es, .cons l b fs, h =>
    simp only [Entries.render, List.append_assoc] at h
    obtain ⟨rfl, hitem⟩ := writeScalar_cancel h
    obtain ⟨rfl, hothers⟩ := Tree.render_cancel hitem
    obtain ⟨rfl, hrest⟩ := Entries.render_cancel (Nat.succ.inj hlength) hothers
    exact ⟨rfl, hrest⟩

end

/-! Packs. -/

def renderPack (ws : List (Tree Bytes)) : Bytes := writeLength ws.length ++ ws.flatMap Tree.render

def copyPack (realm : Realm μ) (ws : List (Tree Bytes)) : Option (List (Tree μ)) :=
  ws.mapM (Tree.copy realm (maxDepth + 1))

theorem flatMap_render_cancel {vs ws : List (Tree Bytes)} (hlength : vs.length = ws.length)
    (h : vs.flatMap Tree.render = ws.flatMap Tree.render) : vs = ws := by
  induction vs generalizing ws with
  | nil => exact (List.length_eq_zero_iff.mp hlength.symm).symm
  | cons v vs ih =>
    cases ws with
    | nil => cases hlength
    | cons w ws =>
      rw [List.flatMap_cons, List.flatMap_cons] at h
      obtain ⟨rfl, hrest⟩ := Tree.render_cancel h
      rw [ih (Nat.succ.inj hlength) hrest]

theorem renderPack_injective {vs ws : List (Tree Bytes)} (h : renderPack vs = renderPack ws) : vs = ws := by
  obtain ⟨hlength, h⟩ := writeLength_cancel h
  exact flatMap_render_cancel hlength h

theorem Tree.render_ne_nil (w : Tree Bytes) : w.render ≠ [] := by
  match w with
  | .nil => simp [Tree.render]
  | .scalar s =>
    obtain ⟨tag, body, htag, -⟩ := writeScalar_head s
    simp [Tree.render, htag]
  | .table address entries =>
    obtain ⟨tag, body, htag, -⟩ := writeTag_head address
    simp [Tree.render, htag]

theorem length_le_flatMap_render (ws : List (Tree Bytes)) : ws.length ≤ (ws.flatMap Tree.render).length := by
  induction ws with
  | nil => exact Nat.le_refl _
  | cons w ws ih =>
    have hw := List.length_pos_of_ne_nil w.render_ne_nil
    rw [List.flatMap_cons, List.length_append, List.length_cons]
    omega

section Pack

variable {other : Bytes → Option Number} {realm : Realm μ} {bytes : Bytes}

theorem readValues_of_ahead {ws : List (Tree Bytes)} {ts : List (Tree μ)} {cursor : ℕ} {rest : Bytes}
    (hc : 1 ≤ cursor) (hend : cursor ≤ bytes.length + 1) (hcopy : copyPack realm ws = some ts)
    (h : ahead bytes cursor = ws.flatMap Tree.render ++ rest) :
    readValues other realm bytes ws.length cursor = .ok (ts, cursor + (ws.flatMap Tree.render).length) := by
  induction ws generalizing ts cursor with
  | nil =>
    cases hcopy
    rfl
  | cons w ws ih =>
    simp only [copyPack, List.mapM_cons, Option.bind_eq_bind, Option.bind_eq_some_iff,
      Option.pure_def, Option.some.injEq] at hcopy
    obtain ⟨t, ht, ts, hts, rfl⟩ := hcopy
    rw [List.flatMap_cons, List.append_assoc] at h
    have hnext := cursor_le_of_ahead hend h hc
    have hread : readValue other realm bytes _ cursor = _ := Tree.read_render hc hend ht h
    have hrest := ih (by omega) hnext hts (ahead_append hc h)
    simp only [List.length_cons, readValues, hread, hrest, ok_bind, List.flatMap_cons, List.length_append,
      Nat.add_assoc]

theorem readValues_sound {count cursor next : ℕ} {ts : List (Tree μ)} (hc : 1 ≤ cursor)
    (h : readValues other realm bytes count cursor = .ok (ts, next)) :
    ∃ ws, ws.length = count ∧ copyPack realm ws = some ts ∧
      ahead bytes cursor = ws.flatMap Tree.render ++ ahead bytes next := by
  induction count generalizing cursor ts with
  | zero =>
    cases h
    exact ⟨[], rfl, rfl, rfl⟩
  | succ count ih =>
    rw [readValues] at h
    obtain ⟨⟨t, c1⟩, ht, h⟩ := bind_eq_ok.mp h
    obtain ⟨⟨ts, c2⟩, hts, h⟩ := bind_eq_ok.mp h
    cases h
    obtain ⟨w, hw, hahead, hlt, -⟩ := readValue_sound hc ht
    obtain ⟨ws, hlength, hws, hrest⟩ := ih (by omega) hts
    refine ⟨w :: ws, by rw [List.length_cons, hlength], ?_, ?_⟩
    · rw [copyPack] at hws ⊢
      rw [List.mapM_cons, hw, hws]
      rfl
    · rw [hahead, hrest, List.flatMap_cons, List.append_assoc]

/-- The bytes a state accepts are the messages it can copy. -/
theorem decode_eq_ok {ts : List (Tree μ)} : decode other realm bytes = .ok ts ↔
    ∃ ws, bytes = renderPack ws ∧ copyPack realm ws = some ts := by
  have hstart : ahead bytes 1 = bytes := rfl
  constructor
  · intro h
    rw [decode] at h
    obtain ⟨⟨count, c1⟩, hcount, h⟩ := bind_eq_ok.mp h
    obtain ⟨⟨ts', c2⟩, hts, h⟩ := bind_eq_ok.mp h
    simp only at h
    split_ifs at h with hend
    cases h
    obtain ⟨hahead1, hc1, -⟩ := ahead_of_readLength (Nat.le_refl 1) hcount
    obtain ⟨ws, rfl, hcopy, hahead2⟩ := readValues_sound (by omega) hts
    have hnil : ahead bytes c2 = [] := by
      rw [not_not.mp hend, ahead]
      simp
    refine ⟨ws, ?_, hcopy⟩
    rw [← hstart, hahead1, hahead2, hnil, List.append_nil]
    rfl
  · rintro ⟨ws, rfl, hcopy⟩
    have hcount := length_le_flatMap_render ws
    have hsplit : ahead (renderPack ws) 1 = writeLength ws.length ++ ws.flatMap Tree.render := rfl
    have hsplit2 := ahead_append (Nat.le_refl 1) hsplit
    have hlength : (renderPack ws).length = (writeLength ws.length).length + (ws.flatMap Tree.render).length :=
      List.length_append
    have hread := readLength_of_ahead hsplit (by omega)
    rw [← List.append_nil (ws.flatMap Tree.render)] at hsplit2
    have hvalues : readValues other realm _ _ _ = _ :=
      readValues_of_ahead (by omega) (by omega) hcopy hsplit2
    have hend : ¬ 1 + (writeLength ws.length).length + (ws.flatMap Tree.render).length ≠
        (renderPack ws).length + 1 := by omega
    rw [decode, hread, ok_bind]
    simp only [hvalues, ok_bind, if_neg hend]

end Pack

end Nupp.ValueCodec
