import Nupp.Lib.DoubleArith
import Nupp.Lua.Data

/-! The literals of refinements: what they stand for and how they are written. -/

namespace Nupp.predicate

open Double Nupp.Data

/-- The answers of `type()`. -/
inductive LuaType
  | nil | boolean | number | string | table | function | thread | userdata | cdata
deriving DecidableEq

def LuaType.text : LuaType → String
  | .nil => "nil" | .boolean => "boolean" | .number => "number" | .string => "string"
  | .table => "table" | .function => "function" | .thread => "thread" | .userdata => "userdata"
  | .cdata => "cdata"

def LUA_TYPES : List LuaType :=
  [.nil, .boolean, .number, .string, .table, .function, .thread, .userdata, .cdata]

/-- What a literal stands for. -/
inductive Constant
  | nil
  | boolean (b : Bool)
  | number (x : Number)
  | string (s : Bytes)
deriving DecidableEq

def Constant.type : Constant → LuaType
  | .nil => .nil
  | .boolean _ => .boolean
  | .number _ => .number
  | .string _ => .string

inductive Comparison
  | eq | ne | lt | le | gt | ge
deriving DecidableEq

def Comparison.text : Comparison → String
  | .eq => "==" | .ne => "~=" | .lt => "<" | .le => "<=" | .gt => ">" | .ge => ">="

def COMPARISONS : List Comparison := [.eq, .ne, .lt, .le, .gt, .ge]

/-- The same comparison read from the other side. -/
def FLIPPED : Comparison → Comparison
  | .eq => .eq | .ne => .ne | .lt => .gt | .le => .ge | .gt => .lt | .ge => .le

def Comparison.equality : Comparison → Bool
  | .eq | .ne => true
  | _ => false

/-- A text in which no backslash is last and `quote` stands only behind one. -/
def escaped (quote : UInt8) : Bytes → Bool
  | [] => true
  | [b] => b != 92 && b != quote
  | b :: c :: rest => if b = 92 then escaped quote rest else b != quote && escaped quote (c :: rest)

/-- The source of a literal: a word, a negation in parentheses, or a quoted string. -/
inductive Written : Bytes → Prop
  | word {s : Bytes} (plain : ∀ b ∈ s, b ∉ [34, 39, 40, 41]) : Written s
  | negative {s : Bytes} (inner : Written s) : Written (ascii "-(" ++ s ++ ascii ")")
  | quoted {quote : UInt8} {body : Bytes} (hquote : quote ∈ [34, 39])
    (hbody : escaped quote body = true) : Written (quote :: body ++ [quote])

structure Literal where
  text : Bytes
  written : Written text

/-- A name between dots. -/
structure Name where
  bytes : Bytes
  plain : ∀ b ∈ bytes, b ∉ [32, 41, 46]
  ne_nil : bytes ≠ []
deriving DecidableEq

/-- A control character as a decimal escape, in full where a digit follows. -/
def controlEscape (c : UInt8) (next : Option UInt8) : Bytes :=
  let digits := Decimal.numeral c.toNat
  92 :: if next.any Decimal.isDigit then List.replicate (3 - digits.length) 48 ++ digits else digits

def quotedBody : Bytes → Bytes
  | [] => []
  | c :: rest =>
    (if c = 34 ∨ c = 92 ∨ c = 10 then [92, c]
      else if c < 32 ∨ c = 127 then controlEscape c rest.head?
      else [c]) ++ quotedBody rest

/-- `%q` -/
def quoted (s : Bytes) : Bytes := 34 :: quotedBody s ++ [34]

/-- The letters of a printed number. -/
def isNumeral (b : UInt8) : Bool := Decimal.isDigit b || b ∈ [43, 45, 46, 97, 101, 102, 105, 110]

theorem plain_of_isNumeral {b : UInt8} (h : isNumeral b = true) : b ∉ [34, 39, 40, 41] := by
  intro hmem
  simp only [List.mem_cons, List.not_mem_nil, or_false] at hmem
  rcases hmem with rfl | rfl | rfl | rfl <;> simp [isNumeral, Decimal.isDigit] at h

theorem isNumeral_of_isDigit {b : UInt8} (h : Decimal.isDigit b = true) : isNumeral b = true := by
  simp [isNumeral, h]

theorem isNumeral_withFraction {whole fraction : Bytes}
    (hwhole : ∀ b ∈ whole, isNumeral b = true) (hfraction : ∀ b ∈ fraction, isNumeral b = true) :
    ∀ b ∈ Decimal.withFraction whole fraction, isNumeral b = true := by
  intro b hb
  unfold Decimal.withFraction at hb
  split at hb
  · exact hwhole b hb
  · rcases List.mem_append.mp hb with hb | hb
    · exact hwhole b hb
    · rcases List.mem_cons.mp hb with rfl | hb
      · decide
      · exact hfraction b hb

theorem isNumeral_formatPositive (p : ℕ) (q : ℚ) :
    ∀ b ∈ Decimal.formatPositive p q, isNumeral b = true := by
  have hdigits : ∀ {n : ℕ}, ∀ b ∈ Decimal.numeral n, isNumeral b = true := fun b hb =>
    isNumeral_of_isDigit (Decimal.isDigit_of_mem_numeral hb)
  have hstrip : ∀ {digits : Bytes}, (∀ b ∈ digits, isNumeral b = true) →
      ∀ b ∈ Decimal.stripZeros digits, isNumeral b = true := fun h b hb =>
    h b ((List.rdropWhile_prefix _ _).subset hb)
  unfold Decimal.formatPositive
  simp only
  split
  · split
    · exact isNumeral_withFraction (fun b hb => hdigits b (List.mem_of_mem_take hb))
        (hstrip fun b hb => hdigits b (List.mem_of_mem_drop hb))
    · refine isNumeral_withFraction (by decide +kernel) (hstrip fun b hb => ?_)
      rcases List.mem_append.mp hb with hb | hb
      · rw [List.eq_of_mem_replicate hb]
        decide
      · exact hdigits b hb
  · intro b hb
    rcases List.mem_append.mp hb with hb | hb
    · exact isNumeral_withFraction (fun b hb => hdigits b (List.mem_of_mem_take hb))
        (hstrip fun b hb => hdigits b (List.mem_of_mem_drop hb)) b hb
    · rcases List.mem_cons.mp hb with rfl | hb
      · decide
      · rcases List.mem_cons.mp hb with rfl | hb
        · split <;> decide
        · exact isNumeral_of_isDigit (Decimal.isDigit_of_mem_exponentDigits hb)

theorem mem_numberText (x : Number) : ∀ b ∈ numberText x, b ∉ [34, 39, 40, 41] := by
  intro b hb
  refine plain_of_isNumeral ?_
  cases x with
  | finite x =>
    rcases List.mem_append.mp hb with hb | hb
    · split at hb
      · rw [List.mem_singleton.mp hb]
        decide
      · cases hb
    · split at hb
      · rw [List.mem_singleton.mp hb]
        decide
      · exact isNumeral_formatPositive _ _ b hb
  | infinity negative =>
    have hall : ∀ b ∈ ascii (if negative then "-inf" else "inf"), isNumeral b = true := by
      cases negative <;> decide +kernel
    exact hall b hb
  | nan =>
    have hall : ∀ b ∈ ascii "nan", isNumeral b = true := by decide +kernel
    exact hall b hb

theorem escaped_pair {quote c : UInt8} {rest : Bytes} :
    escaped quote (92 :: c :: rest) = escaped quote rest := by
  simp [escaped]

theorem escaped_plain {quote b : UInt8} {rest : Bytes} (hslash : b ≠ 92) (hquote : b ≠ quote) :
    escaped quote (b :: rest) = escaped quote rest := by
  cases rest with
  | nil => simp [escaped, hslash, hquote]
  | cons c rest => simp [escaped, hslash, hquote]

theorem escaped_digits {digits rest : Bytes} (h : ∀ b ∈ digits, Decimal.isDigit b = true) :
    escaped 34 (digits ++ rest) = escaped 34 rest := by
  induction digits with
  | nil => rfl
  | cons b digits ih =>
    have hb := h b (List.mem_cons_self ..)
    rw [List.cons_append, escaped_plain, ih fun c hc => h c (List.mem_cons_of_mem _ hc)]
    · rintro rfl
      simp [Decimal.isDigit] at hb
    · rintro rfl
      simp [Decimal.isDigit] at hb

theorem escaped_control {c : UInt8} {next : Option UInt8} {rest : Bytes} :
    escaped 34 (controlEscape c next ++ rest) = escaped 34 rest := by
  have hdigits : ∀ {digits : Bytes}, digits ≠ [] → (∀ b ∈ digits, Decimal.isDigit b = true) →
      escaped 34 (92 :: (digits ++ rest)) = escaped 34 rest := by
    intro digits hne h
    obtain ⟨b, digits, rfl⟩ := List.exists_cons_of_ne_nil hne
    rw [List.cons_append, escaped_pair,
      escaped_digits fun c hc => h c (List.mem_cons_of_mem _ hc)]
  have hnumeral : ∀ b ∈ Decimal.numeral c.toNat, Decimal.isDigit b = true := fun b hb =>
    Decimal.isDigit_of_mem_numeral hb
  unfold controlEscape
  simp only
  split
  · refine hdigits (by simp [Decimal.numeral_ne_nil]) fun b hb => ?_
    rcases List.mem_append.mp hb with hb | hb
    · rw [List.eq_of_mem_replicate hb]
      decide
    · exact hnumeral b hb
  · exact hdigits (Decimal.numeral_ne_nil _) hnumeral

theorem escaped_quotedBody (s : Bytes) : escaped 34 (quotedBody s) = true := by
  induction s with
  | nil => rfl
  | cons c rest ih =>
    rw [quotedBody]
    split
    · rw [List.cons_append, List.cons_append, List.nil_append, escaped_pair, ih]
    · next hplain =>
      split
      · rw [escaped_control, ih]
      · rw [List.cons_append, List.nil_append, escaped_plain _ _, ih]
        · exact fun h => hplain (.inr (.inl h))
        · exact fun h => hplain (.inl h)

/-- The Lua source that `equals` writes for a value. -/
def Constant.literal : Constant → Literal
  | .nil => ⟨ascii "nil", .word (by decide +kernel)⟩
  | .boolean true => ⟨ascii "true", .word (by decide +kernel)⟩
  | .boolean false => ⟨ascii "false", .word (by decide +kernel)⟩
  | .number x => ⟨numberText x, .word (mem_numberText x)⟩
  | .string s => ⟨quoted s, .quoted (by decide) (escaped_quotedBody s)⟩

end Nupp.predicate
