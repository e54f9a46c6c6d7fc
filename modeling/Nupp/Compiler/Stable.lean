import Mathlib.Data.List.Sort
import Nupp.Lib.Delimited
import Nupp.Types.PredicateLiteral
import Nupp.Types.PredicateKeys

/-! The memoization text of a value (`nupp/compiler/stable.nupp`), and the tree a value without cycles stands for. -/

namespace Nupp.memoText

open Double Nupp.Data Delimited
open Nupp.predicate (quoted)

variable {ι μ : Type}

/-- `table.sort` of texts. -/
def sorted (parts : List Bytes) : List Bytes := parts.insertionSort fun a b => a ≤ b

def tableText (parts : List Bytes) : Bytes := 123 :: joined 44 (sorted parts) ++ [125]

/-- `none` where the fuel runs out. -/
def stable [DecidableEq ι] (heap : Heap ι μ) : ℕ → List ι → Value ι → Option Bytes
  | 0, _, _ => none
  | fuel + 1, seen, value =>
    match value with
    | .nil => some (ascii "nil")
    | .scalar (.boolean b) => some (Scalar.boolean b).text
    | .scalar (.number x) => some (Scalar.number x).text
    | .scalar (.string s) => some (quoted s)
    | .other kind => some (ascii "<" ++ ascii kind.name ++ ascii ">")
    | .table id =>
      if id ∈ seen then some (ascii "<cycle>")
      else do
        let parts ← (heap id).entries.mapM fun entry => do
          let key ← stable heap fuel (id :: seen) entry.1
          let item ← stable heap fuel (id :: seen) entry.2
          return key ++ 61 :: item
        return tableText parts

/-- What `stable(value)` answers. -/
def Answers [DecidableEq ι] (heap : Heap ι μ) (value : Value ι) (text : Bytes) : Prop :=
  ∃ least, ∀ fuel, least ≤ fuel → stable heap fuel [] value = some text

/-! ### Trees -/

mutual
/-- A value of finite numbers, by its contents. -/
inductive Tree
  | nil
  | boolean (b : Bool)
  | number (x : Finite)
  | string (s : Bytes)
  | table (entries : Entries)
inductive Entries
  | none
  | more (key item : Tree) (rest : Entries)
end

def Entries.toList : Entries → List (Tree × Tree)
  | .none => []
  | .more key item rest => (key, item) :: rest.toList

@[elab_as_elim]
theorem Tree.every {P : Tree → Prop} (nil : P .nil) (boolean : ∀ b, P (.boolean b)) (number : ∀ x, P (.number x))
    (string : ∀ s, P (.string s)) (table : ∀ entries, (∀ e ∈ entries.toList, P e.1 ∧ P e.2) → P (.table entries))
    (t : Tree) : P t :=
  @Tree.rec P (fun entries => ∀ e ∈ entries.toList, P e.1 ∧ P e.2) nil boolean number string table
    (fun _ he => nomatch he)
    (fun key item rest hkey hitem hrest e he => by
      rcases List.mem_cons.mp he with rfl | he
      · exact ⟨hkey, hitem⟩
      · exact hrest e he) t

mutual
def Tree.depth : Tree → ℕ
  | .table entries => entries.depth + 1
  | _ => 0
def Entries.depth : Entries → ℕ
  | .none => 0
  | .more key item rest => max (max key.depth item.depth) rest.depth
end

mutual
/-- A value without cycles stands for a tree. -/
inductive Unfolds (heap : Heap ι μ) : Value ι → Tree → Prop
  | nil : Unfolds heap .nil .nil
  | boolean (b : Bool) : Unfolds heap (.scalar (.boolean b)) (.boolean b)
  | number (x : Finite) : Unfolds heap (.scalar (.number (.finite x))) (.number x)
  | string (s : Bytes) : Unfolds heap (.scalar (.string s)) (.string s)
  | table {id : ι} {entries : Entries} (h : UnfoldsAll heap (heap id).entries entries) :
    Unfolds heap (.table id) (.table entries)
inductive UnfoldsAll (heap : Heap ι μ) : List (Value ι × Value ι) → Entries → Prop
  | none : UnfoldsAll heap [] .none
  | more {key item : Value ι} {k v : Tree} {rest : List (Value ι × Value ι)} {entries : Entries}
    (hkey : Unfolds heap key k) (hitem : Unfolds heap item v) (hrest : UnfoldsAll heap rest entries) :
    UnfoldsAll heap ((key, item) :: rest) (.more k v entries)
end

mutual
def Tree.text : Tree → Bytes
  | .nil => ascii "nil"
  | .boolean b => (Scalar.boolean b).text
  | .number x => (Scalar.number (.finite x)).text
  | .string s => quoted s
  | .table entries => tableText entries.parts
def Entries.parts : Entries → List Bytes
  | .none => []
  | .more key item rest => (key.text ++ 61 :: item.text) :: rest.parts
end

mutual
/-- Equal but for the numbers, which agree; the entries of a table stand in no order. -/
inductive Agree (numbers : Finite → Finite → Prop) : Tree → Tree → Prop
  | nil : Agree numbers .nil .nil
  | boolean (b : Bool) : Agree numbers (.boolean b) (.boolean b)
  | number {x y : Finite} (h : numbers x y) : Agree numbers (.number x) (.number y)
  | string (s : Bytes) : Agree numbers (.string s) (.string s)
  | table {entries entries' : Entries} {l m : List (Tree × Tree)} (hl : l.Perm entries.toList)
    (hm : m.Perm entries'.toList) (h : AllAgree numbers l m) : Agree numbers (.table entries) (.table entries')
inductive AllAgree (numbers : Finite → Finite → Prop) : List (Tree × Tree) → List (Tree × Tree) → Prop
  | nil : AllAgree numbers [] []
  | cons {k k' v v' : Tree} {l m : List (Tree × Tree)} (hkey : Agree numbers k k') (hitem : Agree numbers v v')
    (hrest : AllAgree numbers l m) : AllAgree numbers ((k, v) :: l) ((k', v') :: m)
end

/-- Structural equality, with Lua's equality of numbers. -/
abbrev Same : Tree → Tree → Prop := Agree fun x y => x.value = y.value

end Nupp.memoText

/-! Which values have the same memoization text: those that agree once each number is rounded to the digits it is printed in. -/

namespace Nupp.memoText

open Double Decimal Nupp.Data Delimited
open Nupp.predicate (controlEscape escaped_cut escaped_quotedBody isNumeral isNumeral_formatPositive quoted quotedBody)

variable {ι μ : Type}

/-! ### Printed numbers -/

/-- What the text of a number shows of it: its sign, and unless it is zero its fourteen digits and their exponent. -/
def printed (x : Finite) : Bool × Option (ℕ × ℤ) :=
  (x.negative, if x.mantissa = 0 then none else some (significant 14 x.magnitude))

theorem digits_unique {d d' : ℕ} {k k' : ℤ} (hlow : 10 ^ 13 ≤ d) (hhigh : d < 10 ^ 14) (hlow' : 10 ^ 13 ≤ d') (hhigh' : d' < 10 ^ 14)
    (h : (d : ℚ) * (10 : ℚ) ^ (k - 13) = d' * (10 : ℚ) ^ (k' - 13)) : d = d' ∧ k = k' := by
  have hless {d d' : ℕ} {k k' : ℤ} (hhigh : d < 10 ^ 14) (hlow' : 10 ^ 13 ≤ d') (hk : k < k') :
      (d : ℚ) * (10 : ℚ) ^ (k - 13) < d' * (10 : ℚ) ^ (k' - 13) := by
    have hd : (d : ℚ) < 10 ^ 14 := by exact_mod_cast hhigh
    have hd' : (10 : ℚ) ^ 13 ≤ d' := by exact_mod_cast hlow'
    have hu : (0 : ℚ) < 10 ^ (k - 13) := zpow_pos (by norm_num) _
    have hstep : (10 : ℚ) ^ (k - 13) * 10 ≤ 10 ^ (k' - 13) := by
      rw [← zpow_add_one₀ (by norm_num)]
      exact zpow_le_zpow_right₀ (by norm_num) (by omega)
    calc (d : ℚ) * 10 ^ (k - 13) < 10 ^ 14 * 10 ^ (k - 13) := by gcongr
      _ = 10 ^ 13 * (10 ^ (k - 13) * 10) := by ring
      _ ≤ d' * 10 ^ (k' - 13) := by gcongr
  rcases lt_trichotomy k k' with hk | rfl | hk
  · exact absurd h (hless hhigh hlow' hk).ne
  · refine ⟨?_, rfl⟩
    have hu : (10 : ℚ) ^ (k - 13) ≠ 0 := zpow_ne_zero _ (by norm_num)
    exact_mod_cast mul_right_cancel₀ hu h
  · exact absurd h (hless hhigh' hlow hk).ne'

theorem scan_text (x : Finite) : ∃ n, scanNumeral (formatFinite 14 x) = some n ∧ n.negative = x.negative ∧
    (n.digits : ℚ) * 10 ^ n.power =
      if x.mantissa = 0 then 0
      else ((significant 14 x.magnitude).1 : ℚ) * 10 ^ ((significant 14 x.magnitude).2 - 13) := by
  rw [formatFinite]
  by_cases hzero : x.mantissa = 0
  · rw [if_pos hzero, if_pos hzero]
    refine ⟨⟨x.negative, 0, 0⟩, ?_, rfl, by simp⟩
    cases x.negative <;> decide
  · rw [if_neg hzero, if_neg hzero]
    exact scanNumeral_formatPositive x.negative (magnitude_pos hzero)

theorem text_eq_iff (x y : Finite) : formatFinite 14 x = formatFinite 14 y ↔ printed x = printed y := by
  constructor
  · intro h
    obtain ⟨n, hn, hsign, hvalue⟩ := scan_text x
    obtain ⟨n', hn', hsign', hvalue'⟩ := scan_text y
    rw [h, hn'] at hn
    obtain rfl := Option.some.inj hn
    rw [printed, printed, Prod.mk.injEq]
    refine ⟨hsign.symm.trans hsign', ?_⟩
    rw [hvalue] at hvalue'
    have hpositive {z : Finite} (hz : z.mantissa ≠ 0) :
        0 < ((significant 14 z.magnitude).1 : ℚ) * 10 ^ ((significant 14 z.magnitude).2 - 13) := by
      obtain ⟨hlow, -, -⟩ := significant_spec (magnitude_pos hz)
      have hd : (0 : ℚ) < (significant 14 z.magnitude).1 := by
        exact_mod_cast lt_of_lt_of_le (by norm_num) hlow
      exact mul_pos hd (zpow_pos (by norm_num) _)
    split_ifs at hvalue' ⊢ with hx hy hy
    · rfl
    · exact absurd hvalue' (hpositive hy).ne
    · exact absurd hvalue' (hpositive hx).ne'
    · obtain ⟨hlow, hhigh, -⟩ := significant_spec (magnitude_pos hx)
      obtain ⟨hlow', hhigh', -⟩ := significant_spec (magnitude_pos hy)
      obtain ⟨hd, hk⟩ := digits_unique hlow hhigh hlow' hhigh' hvalue'
      rw [Option.some.injEq]
      exact Prod.ext hd hk
  · intro h
    rw [printed, printed, Prod.mk.injEq] at h
    obtain ⟨hsign, hdigits⟩ := h
    rw [formatFinite, formatFinite, hsign]
    congr 1
    split_ifs at hdigits ⊢
    · rfl
    · rw [formatPositive, formatPositive, Option.some.inj hdigits]

/-! ### Quoted strings -/

theorem controlEscape_eq (c : UInt8) (next : Option UInt8) : ∃ digits, controlEscape c next = 92 :: digits ∧ digits ≠ [] ∧
    (∀ b ∈ digits, isDigit b = true) ∧ value digits = c.toNat ∧ digits.length ≤ 3 ∧
    (next.any isDigit = true → digits.length = 3) := by
  have hc : c.toNat < 10 ^ 3 := lt_of_lt_of_le c.toNat_lt (by norm_num)
  have hlength := numeral_length_le 2 hc
  have hdigits : ∀ b ∈ numeral c.toNat, isDigit b = true := fun b hb => isDigit_of_mem_numeral hb
  rw [controlEscape]
  by_cases hnext : next.any isDigit = true
  · rw [if_pos hnext]
    refine ⟨_, rfl, by simp [numeral_ne_nil], ?_, ?_, ?_, fun _ => ?_⟩
    · intro b hb
      rcases List.mem_append.mp hb with hb | hb
      · rw [(List.mem_replicate.mp hb).2]
        rfl
      · exact hdigits b hb
    · rw [value_append, value_replicate_zero, value_numeral]
      simp
    · rw [List.length_append, List.length_replicate]
      omega
    · rw [List.length_append, List.length_replicate]
      omega
  · rw [if_neg hnext]
    exact ⟨_, rfl, numeral_ne_nil _, hdigits, value_numeral _, hlength, fun h => absurd h hnext⟩

/-- A digit behind an escape is a digit of the string. -/
theorem head_quotedBody (s : Bytes) (h : s.head?.any isDigit = false) : ∀ b ∈ (quotedBody s).head?, isDigit b = false := by
  cases s with
  | nil =>
    intro b hb
    cases hb
  | cons c rest =>
    rw [List.head?_cons, Option.any_some] at h
    intro b hb
    rw [quotedBody] at hb
    split_ifs at hb with hspecial hcontrol
    · obtain rfl := Option.some.inj hb
      rfl
    · obtain ⟨digits, hescape, -⟩ := controlEscape_eq c rest.head?
      rw [hescape] at hb
      obtain rfl := Option.some.inj hb
      rfl
    · obtain rfl := Option.some.inj hb
      exact h

theorem take_digits {digits rest : Bytes} (hdigits : ∀ b ∈ digits, isDigit b = true) (hlength : digits.length ≤ 3)
    (hrest : digits.length = 3 ∨ ∀ b ∈ rest.head?, isDigit b = false) :
    ((digits ++ rest).takeWhile isDigit).take 3 = digits := by
  rw [List.takeWhile_append_of_pos hdigits]
  rcases hrest with hfull | hstop
  · rw [← hfull, List.take_left']
    rfl
  · have hnil : rest.takeWhile isDigit = [] := by
      cases rest with
      | nil => rfl
      | cons b rest => rw [List.takeWhile_cons_of_neg (by rw [hstop b rfl]; decide)]
    rw [hnil, List.append_nil, List.take_of_length_le hlength]

theorem quotedBody_injective {s t : Bytes} (h : quotedBody s = quotedBody t) : s = t := by
  induction s generalizing t with
  | nil =>
    cases t with
    | nil => rfl
    | cons d t =>
      rw [quotedBody, quotedBody] at h
      split_ifs at h
      · cases h
      · obtain ⟨digits, hescape, -⟩ := controlEscape_eq d t.head?
        rw [hescape] at h
        cases h
      · cases h
  | cons c s ih =>
    cases t with
    | nil =>
      rw [quotedBody, quotedBody] at h
      split_ifs at h
      · cases h
      · obtain ⟨digits, hescape, -⟩ := controlEscape_eq c s.head?
        rw [hescape] at h
        cases h
      · cases h
    | cons d t =>
      suffices hboth : c = d ∧ quotedBody s = quotedBody t by rw [hboth.1, ih hboth.2]
      rw [quotedBody, quotedBody] at h
      have hescape {e : UInt8} {next : Option UInt8} {f : UInt8} {u v : Bytes} (hf : isDigit f = false) :
          controlEscape e next ++ u ≠ 92 :: f :: v := by
        intro heq
        obtain ⟨digits, hdigits, hne, hall, -⟩ := controlEscape_eq e next
        obtain ⟨b, digits, rfl⟩ := List.exists_cons_of_ne_nil hne
        rw [hdigits] at heq
        have hb : b = f := (List.cons.inj (List.cons.inj heq).2).1
        rw [← hb, hall b List.mem_cons_self] at hf
        cases hf
      have hplain {e f : UInt8} {next : Option UInt8} {u v : Bytes} (hf : f ≠ 92) : controlEscape e next ++ u ≠ f :: v := by
        intro heq
        obtain ⟨digits, hdigits, -⟩ := controlEscape_eq e next
        rw [hdigits] at heq
        exact hf (List.cons.inj heq).1.symm
      have hspecial {e : UInt8} (he : e = 34 ∨ e = 92 ∨ e = 10) : isDigit e = false := by
        rcases he with rfl | rfl | rfl <;> rfl
      by_cases hc : c = 34 ∨ c = 92 ∨ c = 10
      · rw [if_pos hc] at h
        by_cases hd : d = 34 ∨ d = 92 ∨ d = 10
        · rw [if_pos hd] at h
          exact List.cons.inj (List.cons.inj h).2
        · rw [if_neg hd] at h
          by_cases hcontrol : d < 32 ∨ d = 127
          · rw [if_pos hcontrol] at h
            exact absurd h.symm (hescape (hspecial hc))
          · rw [if_neg hcontrol] at h
            exact absurd (.inr (.inl (List.cons.inj h).1.symm)) hd
      rw [if_neg hc] at h
      by_cases hd : d = 34 ∨ d = 92 ∨ d = 10
      · rw [if_pos hd] at h
        by_cases hcontrol : c < 32 ∨ c = 127
        · rw [if_pos hcontrol] at h
          exact absurd h (hescape (hspecial hd))
        · rw [if_neg hcontrol] at h
          exact absurd (.inr (.inl (List.cons.inj h).1)) hc
      rw [if_neg hd] at h
      by_cases hcc : c < 32 ∨ c = 127
      · rw [if_pos hcc] at h
        by_cases hdc : d < 32 ∨ d = 127
        · rw [if_pos hdc] at h
          obtain ⟨digits, hdigits, -, hall, hvalue, hlength, hfull⟩ := controlEscape_eq c s.head?
          obtain ⟨digits', hdigits', -, hall', hvalue', hlength', hfull'⟩ := controlEscape_eq d t.head?
          have hstop {u ds : Bytes} (h : u.head?.any isDigit = true → ds.length = 3) :
              ds.length = 3 ∨ ∀ b ∈ (quotedBody u).head?, isDigit b = false := by
            cases hu : u.head?.any isDigit with
            | true => exact .inl (h hu)
            | false => exact .inr (head_quotedBody u hu)
          rw [hdigits, hdigits', List.cons_append, List.cons_append] at h
          have hrest := (List.cons.inj h).2
          have hsame : digits = digits' := by
            rw [← take_digits hall hlength (hstop hfull), hrest, take_digits hall' hlength' (hstop hfull')]
          subst hsame
          exact ⟨UInt8.toNat_inj.mp (hvalue.symm.trans hvalue'), List.append_cancel_left hrest⟩
        · rw [if_neg hdc] at h
          exact absurd h (hplain fun heq => hd (.inr (.inl heq)))
      · rw [if_neg hcc] at h
        by_cases hdc : d < 32 ∨ d = 127
        · rw [if_pos hdc] at h
          exact absurd h.symm (hplain fun heq => hc (.inr (.inl heq)))
        · rw [if_neg hdc] at h
          exact List.cons.inj h

/-! ### Texts -/

theorem sorted_perm (parts : List Bytes) : (sorted parts).Perm parts := List.perm_insertionSort _ parts

theorem sorted_congr {parts parts' : List Bytes} (h : parts.Perm parts') : sorted parts = sorted parts' := by
  have hperm : (sorted parts).Perm (sorted parts') := (sorted_perm parts).trans (h.trans (sorted_perm parts').symm)
  exact hperm.eq_of_pairwise' (List.pairwise_insertionSort _ parts) (List.pairwise_insertionSort _ parts')

def part (entry : Tree × Tree) : Bytes := entry.1.text ++ 61 :: entry.2.text

theorem parts_eq (entries : Entries) : entries.parts = entries.toList.map part := by
  refine @Entries.rec (fun _ => True) (fun entries => entries.parts = entries.toList.map part) trivial (fun _ => trivial)
    (fun _ => trivial) (fun _ => trivial) (fun _ _ => trivial) ?_ ?_ entries
  · rw [Entries.parts, Entries.toList, List.map_nil]
  · intro key item rest _ _ hrest
    rw [Entries.parts, Entries.toList, List.map_cons, hrest]
    rfl

/-- The sorted parts of a table are the parts of its entries in some order. -/
theorem exists_sorted (entries : Entries) : ∃ l : List (Tree × Tree), l.Perm entries.toList ∧ sorted entries.parts = l.map part := by
  have hforall : List.Forall₂ (fun a e => a = part e) entries.parts entries.toList := by
    rw [parts_eq, List.forall₂_map_left_iff]
    exact List.forall₂_same.mpr fun _ _ => rfl
  obtain ⟨l, hl, hperm⟩ := List.perm_comp_forall₂ (sorted_perm entries.parts) hforall
  refine ⟨l, hperm, ?_⟩
  rw [← List.forall₂_eq_eq_eq, List.forall₂_map_right_iff]
  exact hl

def Tree.kind : Tree → ℕ
  | .nil => 0
  | .boolean b => if b then 1 else 2
  | .number _ => 3
  | .string _ => 4
  | .table _ => 5

/-- What the first byte of a text shows. -/
def kindOf (b : UInt8) : ℕ :=
  if b = 110 then 0 else if b = 116 then 1 else if b = 102 then 2 else if b = 34 then 4 else if b = 123 then 5 else if b = 125 then 6
  else 3

theorem head_number (x : Finite) : ∃ b l, formatFinite 14 x = b :: l ∧ (isDigit b = true ∨ b = minus) := by
  rw [formatFinite]
  cases x.negative with
  | true => exact ⟨minus, _, rfl, .inr rfl⟩
  | false =>
    by_cases hzero : x.mantissa = 0
    · rw [if_pos hzero]
      exact ⟨48, [], rfl, .inl rfl⟩
    · rw [if_neg hzero]
      obtain ⟨whole, fraction, tail, e, hparts, htext, -⟩ := formatPositive_parts (magnitude_pos hzero)
      obtain ⟨b, whole, rfl⟩ := List.exists_cons_of_ne_nil hparts.whole_ne_nil
      refine ⟨b, (withFraction (b :: whole) fraction).tail ++ tail, ?_, .inl (hparts.whole_digits b List.mem_cons_self)⟩
      rw [if_neg Bool.false_ne_true, List.nil_append, htext, withFraction]
      split_ifs <;> rfl

theorem head_text (t : Tree) : ∃ b l, t.text = b :: l ∧ kindOf b = t.kind := by
  cases t with
  | nil => exact ⟨110, _, rfl, rfl⟩
  | boolean b => cases b <;> exact ⟨_, _, rfl, rfl⟩
  | number x =>
    obtain ⟨b, l, htext, hb⟩ := head_number x
    refine ⟨b, l, htext, ?_⟩
    have hnot {c : UInt8} (hc : isDigit c = false ∧ c ≠ minus) : b ≠ c := by
      rintro rfl
      rcases hb with hb | hb
      · rw [hc.1] at hb
        cases hb
      · exact hc.2 hb
    rw [kindOf, if_neg (hnot (by decide)), if_neg (hnot (by decide)), if_neg (hnot (by decide)), if_neg (hnot (by decide)),
      if_neg (hnot (by decide)), if_neg (hnot (by decide))]
    rfl
  | string s => exact ⟨34, _, rfl, rfl⟩
  | table entries => exact ⟨123, _, rfl, rfl⟩

/-- What may stand behind a text in another: a mark between key and item or between parts, or a closing brace. -/
def Follows (rest : Bytes) : Prop := ∀ b ∈ rest.head?, b ∈ [61, 44, 125]

/-- Equal but for digits that are not printed. -/
abbrev Alike : Tree → Tree → Prop := Agree fun x y => printed x = printed y

/-- The text of a value shows where it ends and what it is the text of. -/
def Cuts (t : Tree) : Prop :=
  ∀ u r s, Follows r → Follows s → t.text ++ r = u.text ++ s → Alike t u ∧ r = s

theorem joined_cut {l m : List (Tree × Tree)} (hcuts : ∀ e ∈ l, Cuts e.1 ∧ Cuts e.2) {r s : Bytes}
    (h : joined 44 (l.map part) ++ 125 :: r = joined 44 (m.map part) ++ 125 :: s) :
    AllAgree (fun x y => printed x = printed y) l m ∧ r = s := by
  -- a part is followed by the closing brace or by the next part
  have hmore (e : Tree × Tree) (l : List (Tree × Tree)) (r : Bytes) :
      joined 44 ((e :: l).map part) ++ 125 :: r =
        part e ++ if l = [] then 125 :: r else 44 :: (joined 44 (l.map part) ++ 125 :: r) := by
    cases l with
    | nil => rfl
    | cons f l =>
      rw [if_neg (List.cons_ne_nil f l), List.map_cons, List.map_cons, joined, List.append_assoc]
      rfl
  have hbrace (e : Tree × Tree) (x y : Bytes) : part e ++ x ≠ 125 :: y := by
    intro heq
    obtain ⟨b, text, htext, hb⟩ := head_text e.1
    rw [part, htext] at heq
    rw [(List.cons.inj heq).1] at hb
    have hsix : (6 : ℕ) = e.1.kind := hb
    cases hkey : e.1 with
    | boolean b =>
      rw [hkey] at hsix
      cases b <;> cases hsix
    | _ =>
      rw [hkey] at hsix
      cases hsix
  induction l generalizing m with
  | nil =>
    cases m with
    | nil => exact ⟨.nil, (List.cons.inj h).2⟩
    | cons f m =>
      rw [hmore f m s] at h
      exact absurd h.symm (hbrace f _ _)
  | cons e l ih =>
    cases m with
    | nil =>
      rw [hmore e l r] at h
      exact absurd h (hbrace e _ _)
    | cons f m =>
      have hbehind (l : List (Tree × Tree)) (r : Bytes) :
          Follows (if l = [] then 125 :: r else 44 :: (joined 44 (l.map part) ++ 125 :: r)) := by
        split_ifs <;> simp [Follows]
      rw [hmore e l r, hmore f m s, part, part, List.append_assoc, List.append_assoc] at h
      obtain ⟨hkey, hitem⟩ := hcuts e List.mem_cons_self
      obtain ⟨hkeys, hrest⟩ := hkey f.1 _ _ (by simp [Follows]) (by simp [Follows]) h
      obtain ⟨hitems, hrest⟩ := hitem f.2 _ _ (hbehind l r) (hbehind m s) (List.cons.inj hrest).2
      have hnext : joined 44 (l.map part) ++ 125 :: r = joined 44 (m.map part) ++ 125 :: s := by
        split_ifs at hrest with hl hm hm
        · rw [hl, hm, (List.cons.inj hrest).2]
        · exact absurd (List.cons.inj hrest).1 (by decide)
        · exact absurd (List.cons.inj hrest).1 (by decide)
        · exact (List.cons.inj hrest).2
      obtain ⟨hall, heq⟩ := ih (fun e he => hcuts e (List.mem_cons_of_mem _ he)) hnext
      exact ⟨.cons hkeys hitems hall, heq⟩

theorem stops_numeral {rest : Bytes} (h : Follows rest) : Stops isNumeral rest := by
  intro b hb
  have hmem := h b hb
  simp only [List.mem_cons, List.not_mem_nil, or_false] at hmem
  rcases hmem with rfl | rfl | rfl <;> rfl

theorem isNumeral_text (x : Finite) : ∀ b ∈ formatFinite 14 x, isNumeral b = true := by
  intro b hb
  rw [formatFinite] at hb
  rcases List.mem_append.mp hb with hb | hb
  · split_ifs at hb
    · rw [List.mem_singleton.mp hb]
      rfl
    · cases hb
  · split_ifs at hb
    · rw [List.mem_singleton.mp hb]
      rfl
    · exact isNumeral_formatPositive _ _ b hb

theorem kind_eq {t u : Tree} {r s : Bytes} (h : t.text ++ r = u.text ++ s) : t.kind = u.kind := by
  obtain ⟨b, l, ht, hb⟩ := head_text t
  obtain ⟨b', l', hu, hb'⟩ := head_text u
  rw [ht, hu] at h
  rw [← hb, ← hb', (List.cons.inj h).1]

theorem text_cut (t : Tree) : Cuts t := by
  induction t using Tree.every with
  | nil =>
    intro u r s _ _ h
    have hkind := kind_eq h
    cases u with
    | nil => exact ⟨.nil, List.append_cancel_left h⟩
    | boolean b => cases b <;> cases hkind
    | _ => cases hkind
  | boolean b =>
    intro u r s _ _ h
    have hkind := kind_eq h
    cases u with
    | boolean b' =>
      obtain rfl : b = b' := by cases b <;> cases b' <;> first | rfl | cases hkind
      exact ⟨.boolean b, List.append_cancel_left h⟩
    | _ => cases b <;> cases hkind
  | number x =>
    intro u r s hr hs h
    have hkind := kind_eq h
    cases u with
    | number y =>
      obtain ⟨htext, hrest⟩ := run_unique (isNumeral_text x) (isNumeral_text y) (stops_numeral hr) (stops_numeral hs) h
      exact ⟨.number ((text_eq_iff x y).mp htext), hrest⟩
    | boolean b => cases b <;> cases hkind
    | _ => cases hkind
  | string v =>
    intro u r s _ _ h
    have hkind := kind_eq h
    cases u with
    | string w =>
      have hbody : quotedBody v ++ 34 :: r = quotedBody w ++ 34 :: s := by
        have htail : quotedBody v ++ [34] ++ r = quotedBody w ++ [34] ++ s := (List.cons.inj h).2
        rwa [List.append_assoc, List.append_assoc] at htail
      obtain ⟨hvw, hrest⟩ := escaped_cut (by decide) (escaped_quotedBody v) (escaped_quotedBody w) hbody
      rw [quotedBody_injective hvw]
      exact ⟨.string w, hrest⟩
    | boolean b => cases b <;> cases hkind
    | _ => cases hkind
  | table entries ih =>
    intro u r s _ _ h
    have hkind := kind_eq h
    cases u with
    | table entries' =>
      obtain ⟨l, hl, hsorted⟩ := exists_sorted entries
      obtain ⟨m, hm, hsorted'⟩ := exists_sorted entries'
      have hbody : joined 44 (l.map part) ++ 125 :: r = joined 44 (m.map part) ++ 125 :: s := by
        have htail : joined 44 (sorted entries.parts) ++ [125] ++ r = joined 44 (sorted entries'.parts) ++ [125] ++ s :=
          (List.cons.inj h).2
        rwa [List.append_assoc, List.append_assoc, hsorted, hsorted'] at htail
      obtain ⟨hall, hrest⟩ := joined_cut (fun e he => ih e (hl.mem_iff.mp he)) hbody
      exact ⟨.table hl hm hall, hrest⟩
    | boolean b => cases b <;> cases hkind
    | _ => cases hkind

theorem allAgree_parts {l m : List (Tree × Tree)} (h : AllAgree (fun x y => printed x = printed y) l m)
    (htext : ∀ e ∈ l, (∀ u, Alike e.1 u → e.1.text = u.text) ∧ ∀ u, Alike e.2 u → e.2.text = u.text) :
    l.map part = m.map part := by
  induction l generalizing m with
  | nil =>
    cases h
    rfl
  | cons e l ih =>
    cases h with
    | cons hkey hitem hrest =>
      obtain ⟨hk, hv⟩ := htext _ List.mem_cons_self
      rw [List.map_cons, List.map_cons, ih hrest fun e he => htext e (List.mem_cons_of_mem _ he), part, part, hk _ hkey,
        hv _ hitem]

theorem text_congr (t : Tree) : ∀ u, Alike t u → t.text = u.text := by
  induction t using Tree.every with
  | nil =>
    rintro u ⟨⟩
    rfl
  | boolean b =>
    rintro u ⟨⟩
    rfl
  | number x =>
    intro u h
    cases h with
    | number h => exact (text_eq_iff x _).mpr h
  | string s =>
    rintro u ⟨⟩
    rfl
  | table entries ih =>
    intro u h
    cases h with
    | @table _ entries' l m hl hm hall =>
      have hparts := allAgree_parts hall fun e he => ih e (hl.mem_iff.mp he)
      have hperm : entries.parts.Perm entries'.parts := by
        rw [parts_eq, parts_eq]
        exact (hl.symm.map part).trans (hparts ▸ hm.map part)
      rw [Tree.text, Tree.text, tableText, tableText, sorted_congr hperm]

theorem text_iff (t u : Tree) : t.text = u.text ↔ Alike t u := by
  constructor
  · intro h
    have hcut := text_cut t u [] [] (by simp [Follows]) (by simp [Follows])
    rw [List.append_nil, List.append_nil] at hcut
    exact (hcut h).1
  · exact text_congr t u

/-! ### The heap -/

variable {heap : Heap ι μ}

theorem entries_unique {items : List (Value ι × Value ι)} {entries entries' : Entries} (h : UnfoldsAll heap items entries)
    (h' : UnfoldsAll heap items entries')
    (ih : ∀ e ∈ entries.toList, (∀ v u, Unfolds heap v e.1 → Unfolds heap v u → e.1 = u) ∧
      ∀ v u, Unfolds heap v e.2 → Unfolds heap v u → e.2 = u) : entries = entries' := by
  induction items generalizing entries entries' with
  | nil =>
    cases h
    cases h'
    rfl
  | cons item items hrest =>
    cases h with
    | @more _ _ k v _ entries hkey hitem hall =>
      cases h' with
      | @more _ _ k' v' _ entries' hkey' hitem' hall' =>
        obtain ⟨hk, hv⟩ := ih (k, v) List.mem_cons_self
        have hkeys : k = k' := hk _ _ hkey hkey'
        have hitems : v = v' := hv _ _ hitem hitem'
        rw [hkeys, hitems, hrest hall hall' fun e he => ih e (List.mem_cons_of_mem _ he)]

theorem unfolds_unique (t : Tree) : ∀ (v : Value ι) (u : Tree), Unfolds heap v t → Unfolds heap v u → t = u := by
  induction t using Tree.every with
  | table entries ih =>
    intro v u ht hu
    cases ht with
    | table hall =>
      cases hu with
      | table hall' => rw [entries_unique hall hall' ih]
  | _ =>
    intro v u ht hu
    cases ht
    cases hu
    rfl

theorem depth_lt (entries : Entries) : ∀ e ∈ entries.toList, e.1.depth ≤ entries.depth ∧ e.2.depth ≤ entries.depth := by
  refine @Entries.rec (fun _ => True)
    (fun entries => ∀ e ∈ entries.toList, e.1.depth ≤ entries.depth ∧ e.2.depth ≤ entries.depth) trivial (fun _ => trivial)
    (fun _ => trivial) (fun _ => trivial) (fun _ _ => trivial) (fun _ he => nomatch he) ?_ entries
  intro key item rest _ _ hrest e he
  rw [Entries.depth]
  rcases List.mem_cons.mp he with rfl | he
  · have hmax : key.depth ≤ max (max key.depth item.depth) rest.depth ∧
        item.depth ≤ max (max key.depth item.depth) rest.depth := by omega
    exact hmax
  · have hdepth := hrest e he
    exact ⟨by omega, by omega⟩

variable [DecidableEq ι]

theorem mapM_parts (fuel : ℕ) (seen : List ι) {items : List (Value ι × Value ι)} {entries : Entries}
    (h : UnfoldsAll heap items entries)
    (ih : ∀ e ∈ entries.toList, (∀ v, Unfolds heap v e.1 → stable heap fuel seen v = some e.1.text) ∧
      ∀ v, Unfolds heap v e.2 → stable heap fuel seen v = some e.2.text) :
    (items.mapM fun entry => do
      let key ← stable heap fuel seen entry.1
      let item ← stable heap fuel seen entry.2
      return key ++ 61 :: item) = some entries.parts := by
  induction items generalizing entries with
  | nil =>
    cases h
    rfl
  | cons item items hrest =>
    cases h with
    | more hkey hitem hall =>
      obtain ⟨hk, hv⟩ := ih _ List.mem_cons_self
      rw [List.mapM_cons, hk _ hkey, hv _ hitem, hrest hall fun e he => ih e (List.mem_cons_of_mem _ he)]
      rfl

/-- Tables on the way to a value are never met again below it, as the value stands for a tree. -/
theorem stable_eq (t : Tree) : ∀ (v : Value ι) (seen : List ι) (fuel : ℕ), Unfolds heap v t →
    (∀ id ∈ seen, ∀ u, Unfolds heap (.table id) u → t.depth < u.depth) → t.depth < fuel →
    stable heap fuel seen v = some t.text := by
  induction t using Tree.every with
  | table entries ih =>
    intro v seen fuel h hseen hfuel
    cases h with
    | @table id _ hall =>
      have hnot : id ∉ seen := fun hmem => lt_irrefl _ (hseen id hmem _ (.table hall))
      obtain ⟨fuel, rfl⟩ : ∃ n, fuel = n + 1 := ⟨fuel - 1, by omega⟩
      rw [Tree.depth] at hfuel
      have hbelow : ∀ e ∈ entries.toList, ∀ below ∈ id :: seen, ∀ u, Unfolds heap (.table below) u →
          e.1.depth < u.depth ∧ e.2.depth < u.depth := by
        intro e he below hmem u hu
        obtain ⟨hkey, hitem⟩ := depth_lt entries e he
        rcases List.mem_cons.mp hmem with rfl | hmem
        · rw [← unfolds_unique _ _ _ (.table hall) hu, Tree.depth]
          exact ⟨by omega, by omega⟩
        · have hdepth := hseen below hmem u hu
          rw [Tree.depth] at hdepth
          exact ⟨by omega, by omega⟩
      have hparts := mapM_parts fuel (id :: seen) hall fun e he =>
        ⟨fun v hv => (ih e he).1 v (id :: seen) fuel hv (fun below hmem u hu => (hbelow e he below hmem u hu).1)
            (by have hdepth := depth_lt entries e he; omega),
          fun v hv => (ih e he).2 v (id :: seen) fuel hv (fun below hmem u hu => (hbelow e he below hmem u hu).2)
            (by have hdepth := depth_lt entries e he; omega)⟩
      rw [stable]
      simp only [if_neg hnot]
      rw [hparts]
      rfl
  | _ =>
    intro v seen fuel h _ hfuel
    obtain ⟨fuel, rfl⟩ : ∃ n, fuel = n + 1 := ⟨fuel - 1, by omega⟩
    cases h
    rfl

theorem answers_of_unfolds {v : Value ι} {t : Tree} (h : Unfolds heap v t) : Answers heap v t.text :=
  ⟨t.depth + 1, fun fuel hfuel => stable_eq t v [] fuel h (fun _ hid => nomatch hid) hfuel⟩

theorem answers_unique {v : Value ι} {p q : Bytes} (hp : Answers heap v p) (hq : Answers heap v q) : p = q := by
  obtain ⟨least, hleast⟩ := hp
  obtain ⟨least', hleast'⟩ := hq
  have hboth := hleast (max least least') (le_max_left ..)
  rw [hleast' (max least least') (le_max_right ..)] at hboth
  exact (Option.some.inj hboth).symm


omit [DecidableEq ι] in
theorem roundEven_eq {n : ℤ} {x : ℚ} (h : |x - n| < 1 / 2) : Binary64.roundEven x = n := by
  have hnear := Binary64.roundEven_near x
  have hlt : |((Binary64.roundEven x - n : ℤ) : ℚ)| < 1 := by
    rw [abs_lt] at h ⊢
    rw [abs_le] at hnear
    push_cast
    exact ⟨by linarith, by linarith⟩
  have hzero : |Binary64.roundEven x - n| < 1 := by exact_mod_cast hlt
  have heq := Int.abs_lt_one_iff.mp hzero
  omega

/-- Two values that their numbers' hidden digits, or the sign of a zero, tell apart on one side only. -/
def Confused (t u : Tree) : Prop := (Alike t u ∧ ¬Same t u) ∨ (Same t u ∧ ¬Alike t u)

/-- The text stands for a value up to the digits that are not printed. -/
theorem stable_exact {κ ν : Type} [DecidableEq κ] {heap' : Heap κ ν} {a : Value ι} {b : Value κ} {t u : Tree}
    (ha : Unfolds heap a t) (hb : Unfolds heap' b u) :
    ∃ p q, Answers heap a p ∧ Answers heap' b q ∧ (p = q ↔ Alike t u) ∧ ((p = q ↔ Same t u) ↔ ¬Confused t u) := by
  refine ⟨t.text, u.text, answers_of_unfolds ha, answers_of_unfolds hb, text_iff t u, ?_⟩
  rw [text_iff, Confused]
  constructor
  · rintro hiff (⟨halike, hsame⟩ | ⟨hsame, halike⟩)
    · exact hsame (hiff.mp halike)
    · exact halike (hiff.mpr hsame)
  · intro hnot
    rw [not_or, not_and_not_right, not_and_not_right] at hnot
    exact ⟨hnot.1, hnot.2⟩

/-- 2^53 and the integer before it. -/
def limit : Finite := ⟨false, 2 ^ 52, 1075, by norm_num, by norm_num, .inr le_rfl⟩
def beforeLimit : Finite := ⟨false, 2 ^ 53 - 1, 1074, by norm_num, by norm_num, .inr (by norm_num)⟩

theorem significant_near {n : ℕ} (hlow : 9007199254740951 ≤ n) (hhigh : n ≤ 9007199254741049) :
    significant 14 (n : ℚ) = (90071992547410, 15) := by
  have hnat : Nat.log 10 n = 15 := (Nat.log_eq_iff (.inl (by norm_num))).mpr ⟨by omega, by omega⟩
  have hlog : Int.log 10 (n : ℚ) = 15 := by
    rw [Int.log_natCast, hnat]
    rfl
  have hnear : |(n : ℚ) / 10 ^ 2 - ((90071992547410 : ℤ) : ℚ)| < 1 / 2 := by
    have hlow' : (9007199254740951 : ℚ) ≤ n := by exact_mod_cast hlow
    have hhigh' : (n : ℚ) ≤ 9007199254741049 := by exact_mod_cast hhigh
    rw [abs_lt]
    push_cast
    constructor <;> linarith
  have hround := roundEven_eq hnear
  rw [significant, hlog]
  norm_num at hround ⊢
  rw [hround]
  rfl

theorem magnitude_limit : limit.magnitude = ((9007199254740992 : ℕ) : ℚ) := by
  norm_num [limit, Finite.magnitude, unit]

theorem magnitude_beforeLimit : beforeLimit.magnitude = ((9007199254740991 : ℕ) : ℚ) := by
  norm_num [beforeLimit, Finite.magnitude, unit]

def noTables : Heap Empty Unit := fun id => nomatch id

theorem hidden_digits : ∃ p, Answers noTables (.scalar (.number (.finite limit))) p ∧
    Answers noTables (.scalar (.number (.finite beforeLimit))) p ∧ limit.value ≠ beforeLimit.value := by
  have hprinted : printed limit = printed beforeLimit := by
    rw [printed, printed, magnitude_limit, magnitude_beforeLimit, significant_near (by norm_num) (by norm_num),
      significant_near (by norm_num) (by norm_num)]
    rfl
  have htext : (Tree.number limit).text = (Tree.number beforeLimit).text := (text_iff _ _).mpr (.number hprinted)
  refine ⟨(Tree.number limit).text, answers_of_unfolds (.number limit), ?_, ?_⟩
  · rw [htext]
    exact answers_of_unfolds (.number beforeLimit)
  · have hvalue : limit.value = limit.magnitude ∧ beforeLimit.value = beforeLimit.magnitude := ⟨rfl, rfl⟩
    rw [hvalue.1, hvalue.2, magnitude_limit, magnitude_beforeLimit]
    norm_num

theorem stable_exact_scalars : ∃ p q, Answers noTables (.scalar (.string [97, 10])) p ∧
    Answers noTables (.scalar (.boolean true)) q ∧ (p = q ↔ Alike (.string [97, 10]) (.boolean true)) := by
  have hstring : Unfolds noTables (.scalar (.string [97, 10])) (.string [97, 10]) := .string _
  have hboolean : Unfolds noTables (.scalar (.boolean true)) (.boolean true) := .boolean _
  obtain ⟨p, q, hp, hq, hiff, -⟩ := stable_exact hstring hboolean
  exact ⟨p, q, hp, hq, hiff⟩

end Nupp.memoText
