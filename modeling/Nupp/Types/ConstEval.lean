import Nupp.Lib.Binary64

/-! The const terms of generic binders and their reduction, from
`types/consteval`. An integer constant is a Lua number, so every arithmetic
step rounds to a double before `checkedInteger` looks at it. -/

namespace Nupp.ConstEval

open Binary64

def maxExact : ℕ := 9007199254740991

inductive Domain
  | integer | string | boolean | function
  deriving DecidableEq, Repr

/-- A value admitted in a closed const domain. Strings are byte strings, and a
function constant is the key of its declaration. -/
inductive ConstLiteral
  | integer (value : ℤ)
  | string (value : List UInt8)
  | boolean (value : Bool)
  | function (key : List UInt8)
  deriving DecidableEq, Repr

def ConstLiteral.domain : ConstLiteral → Domain
  | .integer _ => .integer
  | .string _ => .string
  | .boolean _ => .boolean
  | .function _ => .function

structure ConstVar where
  name : String
  domain : Domain
  identity : Option String
  deriving DecidableEq, Repr

inductive UnaryOp
  | plus | minus
  deriving DecidableEq, Repr

inductive BinaryOp
  | add | sub | mul | floorDiv | mod | eq | ne | lt | le | gt | ge
  deriving DecidableEq, Repr

inductive ConstTerm
  | literal (value : ConstLiteral)
  | constVar (binder : ConstVar)
  | unary (op : UnaryOp) (operand : ConstTerm)
  | binary (op : BinaryOp) (left right : ConstTerm)
  | conflict (prior arg : ConstTerm)
  deriving DecidableEq, Repr

abbrev Bindings := ConstVar → Option ConstTerm

/-- A reduced term, with the message when the reduction failed. -/
abbrev Reduced := ConstTerm × Option String

def checkedInteger (term : ConstTerm) (value : ℚ) : Reduced :=
  if value ≠ ⌊value⌋ ∨ |value| > maxExact then
    (term, some "const integer operation overflowed the exact integer domain")
  else (.literal (.integer ⌊value⌋), none)

def reduceUnary (term : ConstTerm) (op : UnaryOp) : ConstLiteral → Reduced
  | .integer n => checkedInteger term (if op = .minus then -n else n)
  | _ => (term, some "unary const arithmetic requires integer")

/-- The chain `op == "<" and lt or op == "<=" and le or op == ">" and gt or ge`. -/
def comparisonChain (op : BinaryOp) (lt le gt ge : Bool) : Bool :=
  op == .lt && lt || op == .le && le || op == .gt && gt || ge

def reduceEquality (op : BinaryOp) (left right : ConstLiteral) : Reduced :=
  let equal := left.domain == right.domain && left == right
  (.literal (.boolean (op == .eq && equal || !equal)), none)

def reduceComparison (term : ConstTerm) (op : BinaryOp) (left right : ConstLiteral) : Reduced :=
  match left, right with
  | .integer a, .integer b =>
    (.literal (.boolean (comparisonChain op (a < b) (a ≤ b) (a > b) (a ≥ b))), none)
  | .string a, .string b | .function a, .function b =>
    (.literal (.boolean (comparisonChain op (a < b) (a ≤ b) (a > b) (a ≥ b))), none)
  | .boolean _, .boolean _ => (term, some "booleans are not ordered const values")
  | _, _ => (term, some "const comparison domains differ")

/-- The number an arithmetic operator makes of two integers, rounded as the
host rounds it. -/
def rawArithmetic (op : BinaryOp) (a b : ℤ) : ℚ :=
  if op = .add then fl (a + b : ℤ)
  else if op = .sub then fl (a - b : ℤ)
  else if op = .mul then fl (a * b : ℤ)
  else if op = .floorDiv then ⌊fl ((a : ℚ) / b)⌋
  else luaMod a b

def reduceArithmetic (term : ConstTerm) (op : BinaryOp) : ConstLiteral → ConstLiteral → Reduced
  | .integer a, .integer b =>
    if (op = .floorDiv ∨ op = .mod) ∧ b = 0 then (term, some "const integer division by zero")
    else checkedInteger term (rawArithmetic op a b)
  | _, _ => (term, some "const arithmetic requires integer operands")

def reduceBinary (term : ConstTerm) (op : BinaryOp) (left right : ConstLiteral) : Reduced :=
  match op with
  | .eq | .ne => reduceEquality op left right
  | .lt | .le | .gt | .ge => reduceComparison term op left right
  | .add | .sub | .mul | .floorDiv | .mod => reduceArithmetic term op left right

def reduce (bindings : Bindings) : ConstTerm → Reduced
  | .literal v => (.literal v, none)
  | .constVar x => ((bindings x).getD (.constVar x), none)
  | .conflict p a => (.conflict p a, some "conflicting const inference candidates")
  | .unary op a =>
    match reduce bindings a with
    | (_, some err) => (.unary op a, some err)
    | (.literal v, none) => reduceUnary (.unary op a) op v
    | (a', none) => (.unary op a', none)
  | .binary op l r =>
    match reduce bindings l with
    | (_, some err) => (.binary op l r, some err)
    | (l', none) =>
      match reduce bindings r with
      | (_, some err) => (.binary op l r, some err)
      | (r', none) =>
        match l', r' with
        | .literal a, .literal b => reduceBinary (.binary op l r) op a b
        | l', r' => (.binary op l' r', none)

/-- Literals of the integer, string and boolean domains under the operators of
the const expression grammar. -/
def Closed : ConstTerm → Prop
  | .literal v => v.domain ≠ .function
  | .constVar _ | .conflict _ _ => False
  | .unary _ a => Closed a
  | .binary _ l r => Closed l ∧ Closed r

/-! The mathematical meaning: exact integers, with a fault where a sub-term has
no value in the domain. -/

def checked (n : ℤ) : Option ConstLiteral :=
  if n.natAbs ≤ maxExact then some (.integer n) else none

def denoteUnary (op : UnaryOp) : ConstLiteral → Option ConstLiteral
  | .integer n => checked (match op with | .plus => n | .minus => -n)
  | _ => none

/-- The mathematical answer of a comparison on a linear order. -/
def compared {α : Type*} [LT α] [LE α] [DecidableLT α] [DecidableLE α] (op : BinaryOp) (a b : α) :
    Option ConstLiteral :=
  match op with
  | .lt => some (.boolean (a < b))
  | .le => some (.boolean (a ≤ b))
  | .gt => some (.boolean (b < a))
  | .ge => some (.boolean (b ≤ a))
  | _ => none

def denoteArithmetic (op : BinaryOp) (a b : ℤ) : Option ConstLiteral :=
  match op with
  | .add => checked (a + b)
  | .sub => checked (a - b)
  | .mul => checked (a * b)
  | .floorDiv => if b = 0 then none else checked (a.fdiv b)
  | .mod => if b = 0 then none else checked (a.fmod b)
  | _ => none

def denoteBinary (op : BinaryOp) (left right : ConstLiteral) : Option ConstLiteral :=
  match op with
  | .eq => some (.boolean (left = right))
  | .ne => some (.boolean (left ≠ right))
  | .lt | .le | .gt | .ge =>
    match left, right with
    | .integer a, .integer b => compared op a b
    | .string a, .string b | .function a, .function b => compared op a b
    | _, _ => none
  | .add | .sub | .mul | .floorDiv | .mod =>
    match left, right with
    | .integer a, .integer b => denoteArithmetic op a b
    | _, _ => none

def denote : ConstTerm → Option ConstLiteral
  | .literal (.integer n) => checked n
  | .literal v => some v
  | .constVar _ | .conflict _ _ => none
  | .unary op a => (denote a).bind (denoteUnary op)
  | .binary op l r => (denote l).bind fun a => (denote r).bind fun b => denoteBinary op a b

example (bindings : Bindings) : reduce bindings (.unary .minus (.literal (.boolean true))) =
    (.unary .minus (.literal (.boolean true)), some "unary const arithmetic requires integer") := by
  simp [reduce, reduceUnary]

example : denote (.binary .eq (.literal (.integer 2)) (.unary .minus (.literal (.integer 2)))) =
    some (.boolean false) := by
  simp [denote, denoteUnary, denoteBinary, checked, maxExact]

/-- What the reduction of a closed term owes its reader: a literal is the value
of the term, and an error is returned exactly when the term has none. -/
def Correct (t : ConstTerm) : Prop :=
  ∀ bindings, match reduce bindings t with
    | (t', none) => ∃ v, t' = .literal v ∧ denote t = some v
    | (_, some _) => denote t = none

end Nupp.ConstEval

/-! When the reduction of a const term is its mathematical value. The chained
`and`/`or` expressions of the reducer fall through a false answer to the next
alternative, and the modulo of large operands rounds, so the result is stated
as the exact set of nodes on which the reducer is right. -/

namespace Nupp.ConstEval

open Binary64

/-- A reduction result that says the same as a mathematical answer. -/
def Agrees (r : Reduced) (d : Option ConstLiteral) : Prop :=
  match r with
  | (t, none) => ∃ v, t = .literal v ∧ d = some v
  | (_, some _) => d = none

@[simp] theorem agrees_literal {v : ConstLiteral} {d : Option ConstLiteral} :
    Agrees (.literal v, none) d ↔ d = some v := by
  simp [Agrees]

@[simp] theorem agrees_error {t : ConstTerm} {e : String} {d : Option ConstLiteral} :
    Agrees (t, some e) d ↔ d = none := Iff.rfl

theorem correct_iff_agrees {t : ConstTerm} :
    Correct t ↔ ∀ bindings, Agrees (reduce bindings t) (denote t) := Iff.rfl

def InRange : ConstLiteral → Prop
  | .integer n => n.natAbs ≤ maxExact
  | _ => True

theorem checked_eq_some {n : ℤ} {v : ConstLiteral} (h : checked n = some v) :
    v = .integer n ∧ n.natAbs ≤ maxExact := by
  unfold checked at h
  split at h
  · next hn => exact ⟨(Option.some.inj h).symm, hn⟩
  · cases h

theorem checked_inRange {n : ℤ} {v : ConstLiteral} (h : checked n = some v) : InRange v := by
  obtain ⟨rfl, hn⟩ := checked_eq_some h
  exact hn

theorem denoteUnary_inRange {op : UnaryOp} {a v : ConstLiteral}
    (h : denoteUnary op a = some v) : InRange v := by
  cases a with
  | integer n => exact checked_inRange h
  | string _ | boolean _ | function _ => cases h

theorem denoteArithmetic_inRange {op : BinaryOp} {a b : ℤ} {v : ConstLiteral}
    (h : denoteArithmetic op a b = some v) : InRange v := by
  cases op with
  | add | sub | mul => exact checked_inRange h
  | floorDiv | mod =>
    simp only [denoteArithmetic] at h
    split at h
    · cases h
    · exact checked_inRange h
  | eq | ne | lt | le | gt | ge => cases h

theorem compared_inRange {α : Type*} [LT α] [LE α] [DecidableLT α] [DecidableLE α]
    {op : BinaryOp} {a b : α} {v : ConstLiteral} (h : compared op a b = some v) : InRange v := by
  cases op <;> simp only [compared, reduceCtorEq, Option.some.injEq] at h <;> subst h <;> trivial

theorem denoteBinary_inRange {op : BinaryOp} {a b v : ConstLiteral}
    (h : denoteBinary op a b = some v) : InRange v := by
  cases op with
  | eq | ne =>
    cases h
    trivial
  | lt | le | gt | ge =>
    simp only [denoteBinary] at h
    split at h <;> first | exact compared_inRange h | cases h
  | add | sub | mul | floorDiv | mod =>
    simp only [denoteBinary] at h
    split at h <;> first | exact denoteArithmetic_inRange h | cases h

theorem denote_inRange {t : ConstTerm} {v : ConstLiteral} (h : denote t = some v) : InRange v := by
  cases t with
  | literal w =>
    cases w with
    | integer n => exact checked_inRange h
    | string _ | boolean _ | function _ =>
      cases h
      trivial
  | constVar _ | conflict _ _ => cases h
  | unary op a =>
    obtain ⟨w, _, hw⟩ := Option.bind_eq_some_iff.mp h
    exact denoteUnary_inRange hw
  | binary op l r =>
    obtain ⟨a, _, ha⟩ := Option.bind_eq_some_iff.mp h
    obtain ⟨b, _, hb⟩ := Option.bind_eq_some_iff.mp ha
    exact denoteBinary_inRange hb

theorem maxExact_lt_iff {n : ℤ} : n.natAbs ≤ maxExact ↔ n.natAbs < 2 ^ 53 := by
  unfold maxExact
  omega

theorem checkedInteger_intCast (t : ConstTerm) (n : ℤ) :
    Agrees (checkedInteger t n) (checked n) := by
  have habs : |(n : ℚ)| > maxExact ↔ ¬ n.natAbs ≤ maxExact := by
    rw [← Int.cast_abs, ← Nat.cast_natAbs, gt_iff_lt, Nat.cast_lt, not_le]
  by_cases hn : n.natAbs ≤ maxExact
  · simp [checkedInteger, habs, checked, hn]
  · simp [checkedInteger, habs, checked, hn]

/-- Rounding an exact integer result does not change what the range check says. -/
theorem checkedInteger_fl (t : ConstTerm) (n : ℤ) : Agrees (checkedInteger t (fl n)) (checked n) := by
  by_cases hn : n.natAbs < 2 ^ 53
  · rw [fl_intCast hn]
    exact checkedInteger_intCast t n
  · have hbig : |fl (n : ℚ)| > maxExact := by
      have := le_abs_fl_intCast (n := n) (by omega)
      refine lt_of_lt_of_le ?_ this
      norm_num [maxExact]
    have hc : checked n = none := by
      rw [checked, if_neg (by rwa [maxExact_lt_iff])]
    rw [checkedInteger, if_pos (.inr hbig), hc]
    rfl

theorem reduceUnary_agrees (t : ConstTerm) (op : UnaryOp) (a : ConstLiteral) :
    Agrees (reduceUnary t op a) (denoteUnary op a) := by
  cases a with
  | integer n =>
    cases op with
    | plus => exact checkedInteger_intCast t n
    | minus =>
      have h := checkedInteger_intCast t (-n)
      rw [Int.cast_neg] at h
      exact h
  | string _ | boolean _ | function _ => rfl

/-- The pairs of operands on which an operator of the reducer is right. -/
def Faithful : BinaryOp → ConstLiteral → ConstLiteral → Prop
  | .eq, a, b => a = b
  | .lt, .integer a, .integer b => a < b
  | .lt, .string a, .string b => a < b
  | .lt, .function a, .function b => a < b
  | .le, .integer a, .integer b => a ≤ b
  | .le, .string a, .string b => a ≤ b
  | .le, .function a, .function b => a ≤ b
  | .gt, .integer a, .integer b => a ≠ b
  | .gt, .string a, .string b => a ≠ b
  | .gt, .function a, .function b => a ≠ b
  | .mod, .integer a, .integer b =>
    b = 0 ∨ fl ((a.fdiv b * b : ℤ) : ℚ) = (a.fdiv b * b : ℤ)
  | _, _, _ => True

def BinaryOp.isArithmetic : BinaryOp → Bool
  | .add | .sub | .mul | .floorDiv | .mod => true
  | _ => false

theorem reduceArithmetic_agrees_iff (t : ConstTerm) (op : BinaryOp) {a b : ℤ}
    (hop : op.isArithmetic = true)
    (ha : a.natAbs ≤ maxExact) (hb : b.natAbs ≤ maxExact) :
    Agrees (reduceArithmetic t op (.integer a) (.integer b)) (denoteArithmetic op a b) ↔
      Faithful op (.integer a) (.integer b) := by
  rw [maxExact_lt_iff] at ha hb
  cases op with
  | eq | ne | lt | le | gt | ge => cases hop
  | add =>
    simpa [reduceArithmetic, denoteArithmetic, rawArithmetic, Faithful] using checkedInteger_fl t (a + b)
  | sub =>
    simpa [reduceArithmetic, denoteArithmetic, rawArithmetic, Faithful] using checkedInteger_fl t (a - b)
  | mul =>
    simpa [reduceArithmetic, denoteArithmetic, rawArithmetic, Faithful] using checkedInteger_fl t (a * b)
  | floorDiv =>
    by_cases h0 : b = 0
    · simp [reduceArithmetic, denoteArithmetic, Faithful, h0]
    · have h := checkedInteger_intCast t (a.fdiv b)
      simpa [reduceArithmetic, denoteArithmetic, rawArithmetic, Faithful, h0, floor_fl_div ha h0] using h
  | mod =>
    by_cases h0 : b = 0
    · simp [reduceArithmetic, denoteArithmetic, Faithful, h0]
    · obtain ⟨m, -, hm, hsmall⟩ := luaMod_eq_sub ha hb h0
      have hr := natAbs_fmod_lt a h0
      have hspec : denoteArithmetic .mod a b = some (.integer (a.fmod b)) := by
        rw [denoteArithmetic, if_neg h0, checked, if_pos (by rw [maxExact_lt_iff]; omega)]
      have hcode : reduceArithmetic t .mod (.integer a) (.integer b) =
          (.literal (.integer (a - m)), none) := by
        have hrange : ¬ |((a - m : ℤ) : ℚ)| > maxExact := by
          rw [← Int.cast_abs, ← Nat.cast_natAbs, gt_iff_lt, Nat.cast_lt, not_lt, maxExact_lt_iff]
          exact hsmall
        have hraw : rawArithmetic .mod a b = ((a - m : ℤ) : ℚ) := hm
        simp only [reduceArithmetic, h0, and_false, if_false, hraw, checkedInteger,
          Int.floor_intCast, ne_eq, not_true_eq_false, false_or, hrange]
      have hi := luaMod_eq_fmod_iff ha hb h0
      rw [hm, Int.cast_inj] at hi
      rw [hspec, hcode, agrees_literal, Option.some.injEq, ConstLiteral.integer.injEq, eq_comm, hi]
      simp [Faithful, h0]

theorem denoteBinary_arithmetic_iff (t : ConstTerm) (op : BinaryOp) {a b : ConstLiteral}
    (hop : op.isArithmetic = true) (ha : InRange a) (hb : InRange b) :
    Agrees (reduceBinary t op a b) (denoteBinary op a b) ↔ Faithful op a b := by
  have hr : reduceBinary t op a b = reduceArithmetic t op a b := by cases op <;> trivial
  rw [hr]
  cases a with
  | integer m =>
    cases b with
    | integer n =>
      have hd : denoteBinary op (.integer m) (.integer n) = denoteArithmetic op m n := by
        cases op <;> trivial
      rw [hd]
      exact reduceArithmetic_agrees_iff t op hop ha hb
    | string _ | boolean _ | function _ =>
      cases op <;> first | exact iff_of_true rfl trivial | cases hop
  | string _ | boolean _ | function _ =>
    cases op <;> first | exact iff_of_true rfl trivial | cases hop

/-- On a linear order the chain answers `a >= b` whenever its own test fails. -/
theorem compared_eq_chain_iff {α : Type*} [LT α] [LE α] [DecidableLT α] [DecidableLE α]
    [Std.IsLinearOrder α] [Std.LawfulOrderLT α] (a b : α) :
    (compared .lt a b = some (.boolean (comparisonChain .lt (a < b) (a ≤ b) (a > b) (a ≥ b))) ↔
      a < b) ∧
    (compared .le a b = some (.boolean (comparisonChain .le (a < b) (a ≤ b) (a > b) (a ≥ b))) ↔
      a ≤ b) ∧
    (compared .gt a b = some (.boolean (comparisonChain .gt (a < b) (a ≤ b) (a > b) (a ≥ b))) ↔
      a ≠ b) ∧
    compared .ge a b = some (.boolean (comparisonChain .ge (a < b) (a ≤ b) (a > b) (a ≥ b))) := by
  have hlt : ¬ a < b ↔ b ≤ a := Std.not_lt
  have hgt : ¬ b < a ↔ a ≤ b := Std.not_lt
  have htot : a ≤ b ∨ b ≤ a := Std.le_total
  have hanti : a ≤ b → b ≤ a → a = b := Std.le_antisymm
  have hrefl : a = b → b ≤ a := fun h => h ▸ Std.le_refl a
  have hrefl' : a = b → a ≤ b := fun h => h ▸ Std.le_refl a
  refine ⟨?_, ?_, ?_, ?_⟩ <;> simp [compared, comparisonChain] <;> grind

theorem reduceBinary_agrees_iff (t : ConstTerm) (op : BinaryOp) {a b : ConstLiteral}
    (ha : InRange a) (hb : InRange b) :
    Agrees (reduceBinary t op a b) (denoteBinary op a b) ↔ Faithful op a b := by
  cases op with
  | eq =>
    have hd : a = b → a.domain = b.domain := fun h => h ▸ rfl
    simp only [reduceBinary, reduceEquality, denoteBinary, agrees_literal, Faithful]
    by_cases h : a = b <;> simp [h]
  | ne =>
    have hd : a = b → a.domain = b.domain := fun h => h ▸ rfl
    simp only [reduceBinary, reduceEquality, denoteBinary, agrees_literal, Faithful]
    by_cases h : a = b <;> simp [h]
  | lt =>
    cases a <;> cases b <;>
      simp [reduceBinary, reduceComparison, denoteBinary, Faithful, compared_eq_chain_iff]
  | le =>
    cases a <;> cases b <;>
      simp [reduceBinary, reduceComparison, denoteBinary, Faithful, compared_eq_chain_iff]
  | gt =>
    cases a <;> cases b <;>
      simp [reduceBinary, reduceComparison, denoteBinary, Faithful, compared_eq_chain_iff]
  | ge =>
    cases a <;> cases b <;>
      simp [reduceBinary, reduceComparison, denoteBinary, Faithful, compared_eq_chain_iff]
  | add => exact denoteBinary_arithmetic_iff t .add rfl ha hb
  | sub => exact denoteBinary_arithmetic_iff t .sub rfl ha hb
  | mul => exact denoteBinary_arithmetic_iff t .mul rfl ha hb
  | floorDiv => exact denoteBinary_arithmetic_iff t .floorDiv rfl ha hb
  | mod => exact denoteBinary_arithmetic_iff t .mod rfl ha hb

def subterms : ConstTerm → List ConstTerm
  | .literal v => [.literal v]
  | .constVar x => [.constVar x]
  | .conflict p a => [.conflict p a]
  | .unary op a => .unary op a :: subterms a
  | .binary op l r => .binary op l r :: (subterms l ++ subterms r)

theorem self_mem_subterms (t : ConstTerm) : t ∈ subterms t := by
  cases t <;> simp [subterms]

/-- The condition on one node, in terms of the mathematical values below it. -/
def NodeOk : ConstTerm → Prop
  | .literal v => InRange v
  | .binary op l r => ∀ a b, denote l = some a → denote r = some b → Faithful op a b
  | _ => True

/-- A correct reduction is a literal or an error, as the meaning says. -/
theorem Correct.cases {t : ConstTerm} (h : Correct t) (bindings : Bindings) :
    (∃ v, reduce bindings t = (.literal v, none) ∧ denote t = some v) ∨
      ∃ t' e, reduce bindings t = (t', some e) ∧ denote t = none := by
  have hb := correct_iff_agrees.mp h bindings
  generalize reduce bindings t = r at hb
  obtain ⟨t', e⟩ := r
  cases e with
  | none =>
    obtain ⟨v, rfl, hv⟩ := hb
    exact .inl ⟨v, rfl, hv⟩
  | some e => exact .inr ⟨t', e, rfl, hb⟩

theorem correct_literal_iff {v : ConstLiteral} : Correct (.literal v) ↔ InRange v := by
  cases v with
  | integer n =>
    simp only [correct_iff_agrees, reduce, agrees_literal, denote, InRange, forall_const, checked]
    split <;> simp_all
  | string _ | boolean _ | function _ => simp [correct_iff_agrees, reduce, denote, InRange]

theorem Correct.unary {op : UnaryOp} {a : ConstTerm} (h : Correct a) : Correct (.unary op a) := by
  rw [correct_iff_agrees]
  intro bindings
  rcases h.cases bindings with ⟨v, hr, hd⟩ | ⟨t', e, hr, hd⟩
  · simpa [reduce, hr, denote, hd] using reduceUnary_agrees (.unary op a) op v
  · simp [reduce, hr, denote, hd]

theorem correct_binary_iff {op : BinaryOp} {l r : ConstTerm} (hl : Correct l) (hr : Correct r) :
    Correct (.binary op l r) ↔ NodeOk (.binary op l r) := by
  have key : ∀ bindings, Agrees (reduce bindings (.binary op l r)) (denote (.binary op l r)) ↔
      NodeOk (.binary op l r) := by
    intro bindings
    rcases hl.cases bindings with ⟨a, ha, hda⟩ | ⟨t', e, ha, hda⟩
    · rcases hr.cases bindings with ⟨b, hb, hdb⟩ | ⟨t', e, hb, hdb⟩
      · have h := reduceBinary_agrees_iff (.binary op l r) op (denote_inRange hda) (denote_inRange hdb)
        simpa [reduce, ha, hb, denote, hda, hdb, NodeOk] using h
      · simp [reduce, ha, hb, denote, hda, hdb, NodeOk]
    · simp [reduce, ha, denote, hda, NodeOk]
  rw [correct_iff_agrees]
  exact ⟨fun h => (key fun _ => none).mp (h _), fun h bindings => (key bindings).mpr h⟩

theorem subterms_correct_iff {t : ConstTerm} (hc : Closed t) :
    (∀ s ∈ subterms t, Correct s) ↔ ∀ s ∈ subterms t, NodeOk s := by
  induction t with
  | literal v => simpa [subterms, NodeOk] using correct_literal_iff
  | constVar _ | conflict _ _ => cases hc
  | unary op a ih =>
    simp only [subterms, List.forall_mem_cons, ← ih hc]
    exact ⟨fun h => ⟨trivial, h.2⟩, fun h => ⟨(h.2 a (self_mem_subterms a)).unary, h.2⟩⟩
  | binary op l r ihl ihr =>
    simp only [subterms, List.forall_mem_cons, List.forall_mem_append, ← ihl hc.1, ← ihr hc.2]
    constructor
    · rintro ⟨h, hl, hr⟩
      exact ⟨(correct_binary_iff (hl l (self_mem_subterms l)) (hr r (self_mem_subterms r))).mp h, hl, hr⟩
    · rintro ⟨h, hl, hr⟩
      exact ⟨(correct_binary_iff (hl l (self_mem_subterms l)) (hr r (self_mem_subterms r))).mpr h, hl, hr⟩

/-! A wrong boolean can be masked by a later `~=`, so correctness of one term is
finer than correctness of all its sub-terms. -/

/-- The nodes below which the arithmetic itself is exact. -/
def ExactNode : ConstTerm → Prop
  | .literal v => InRange v
  | .binary .mod l r => ∀ a b, denote l = some a → denote r = some b → Faithful .mod a b
  | _ => True

def Right : ConstTerm → Prop
  | .binary op l r => ∀ a b, denote l = some a → denote r = some b →
      if op = .ne ∧ a.domain = .boolean ∧ b.domain = .boolean then (Right l ↔ Right r)
      else Faithful op a b
  | _ => True

/-- Two literals that can differ only as truth values. -/
structure Similar (a a' : ConstLiteral) : Prop where
  domain : a'.domain = a.domain
  value : a.domain ≠ .boolean → a' = a

theorem Similar.refl (a : ConstLiteral) : Similar a a := ⟨rfl, fun _ => rfl⟩

theorem Similar.boolean (x y : Bool) : Similar (.boolean x) (.boolean y) :=
  ⟨rfl, fun h => absurd rfl h⟩

theorem Similar.eq_or_boolean {a a' : ConstLiteral} (h : Similar a a') :
    a' = a ∨ ∃ x y, a = .boolean x ∧ a' = .boolean y := by
  by_cases hd : a.domain = .boolean
  · have hd' := h.domain
    cases a <;> cases a' <;> simp_all [ConstLiteral.domain]
  · exact .inl (h.value hd)

theorem reduceUnary_congr (t : ConstTerm) (op : UnaryOp) {a a' : ConstLiteral} (h : Similar a a') :
    reduceUnary t op a' = reduceUnary t op a := by
  rcases h.eq_or_boolean with rfl | ⟨x, y, rfl, rfl⟩ <;> rfl

theorem reduceEquality_eq (a b : ConstLiteral) :
    reduceEquality .eq a b = (.literal (.boolean true), none) := by
  simp only [reduceEquality, beq_self_eq_true, Bool.true_and, Bool.or_not_self]

theorem reduceEquality_domain_ne {op : BinaryOp} {a b : ConstLiteral} (h : a.domain ≠ b.domain) :
    reduceEquality op a b = (.literal (.boolean true), none) := by
  simp [reduceEquality, h]

theorem reduceBinary_congr (t : ConstTerm) {op : BinaryOp} {a a' b b' : ConstLiteral}
    (ha : Similar a a') (hb : Similar b b')
    (hn : ¬ (op = .ne ∧ a.domain = .boolean ∧ b.domain = .boolean)) :
    reduceBinary t op a' b' = reduceBinary t op a b := by
  rcases ha.eq_or_boolean with rfl | ⟨x, x', rfl, rfl⟩ <;>
    rcases hb.eq_or_boolean with rfl | ⟨y, y', rfl, rfl⟩
  · rfl
  · cases op with
    | eq => simp only [reduceBinary, reduceEquality_eq]
    | ne =>
      have hd : a'.domain ≠ .boolean := fun h => hn ⟨rfl, h, rfl⟩
      simp only [reduceBinary]
      rw [reduceEquality_domain_ne hd, reduceEquality_domain_ne hd]
    | lt | le | gt | ge | add | sub | mul | floorDiv | mod => cases a' <;> rfl
  · cases op with
    | eq => simp only [reduceBinary, reduceEquality_eq]
    | ne =>
      have hd (z : Bool) : (ConstLiteral.boolean z).domain ≠ b'.domain :=
        fun h => hn ⟨rfl, rfl, h.symm⟩
      simp only [reduceBinary]
      rw [reduceEquality_domain_ne (hd _), reduceEquality_domain_ne (hd _)]
    | lt | le | gt | ge | add | sub | mul | floorDiv | mod => cases b' <;> rfl
  · cases op with
    | ne => exact absurd ⟨rfl, rfl, rfl⟩ hn
    | eq => simp only [reduceBinary, reduceEquality_eq]
    | lt | le | gt | ge | add | sub | mul | floorDiv | mod => rfl

/-- The reducer and the meaning fault together, and answer in the same domain. -/
theorem reduceBinary_shape (t : ConstTerm) (op : BinaryOp) {a b : ConstLiteral}
    (ha : InRange a) (hb : InRange b) (hm : op = .mod → Faithful .mod a b) :
    (∃ v v', reduceBinary t op a b = (.literal v', none) ∧ denoteBinary op a b = some v ∧
      Similar v v' ∧ (v' = v ↔ Faithful op a b)) ∨
    (∃ t' e, reduceBinary t op a b = (t', some e) ∧ denoteBinary op a b = none ∧
      Faithful op a b) := by
  have hiff := reduceBinary_agrees_iff t op ha hb
  have agreed : Faithful op a b →
      (∃ v v', reduceBinary t op a b = (.literal v', none) ∧ denoteBinary op a b = some v ∧
        Similar v v' ∧ (v' = v ↔ Faithful op a b)) ∨
      (∃ t' e, reduceBinary t op a b = (t', some e) ∧ denoteBinary op a b = none ∧
        Faithful op a b) := by
    intro hf
    have hag := hiff.mpr hf
    generalize reduceBinary t op a b = r at hag ⊢
    obtain ⟨t', e⟩ := r
    cases e with
    | none =>
      obtain ⟨v, rfl, hv⟩ := hag
      exact .inl ⟨v, v, rfl, hv, .refl v, by simp [hf]⟩
    | some e => exact .inr ⟨t', e, rfl, hag, hf⟩
  by_cases hf : Faithful op a b
  · exact agreed hf
  · have shape : ∃ x y, reduceBinary t op a b = (.literal (.boolean x), none) ∧
        denoteBinary op a b = some (.boolean y) := by
      cases op with
      | eq => exact ⟨_, _, rfl, rfl⟩
      | ne => exact absurd trivial hf
      | mod => exact absurd (hm rfl) hf
      | lt | le | gt | ge | add | sub | mul | floorDiv =>
        cases a <;> cases b <;> first | exact ⟨_, _, rfl, rfl⟩ | exact absurd trivial hf
    obtain ⟨x, y, hx, hy⟩ := shape
    refine .inl ⟨.boolean y, .boolean x, hx, hy, .boolean y x, ?_⟩
    rw [hx, hy, agrees_literal, Option.some.injEq] at hiff
    rw [← hiff, eq_comm]

/-- Two wrong truth values are equal exactly when the right ones are. -/
theorem boolean_ne_iff {a a' b b' : ConstLiteral} (ha : Similar a a') (hb : Similar b b')
    (hda : a.domain = .boolean) (hdb : b.domain = .boolean) :
    (ConstLiteral.boolean (BinaryOp.ne == .eq && (a'.domain == b'.domain && a' == b') ||
        !(a'.domain == b'.domain && a' == b')) = .boolean (decide (a ≠ b))) ↔
      (a' = a ↔ b' = b) := by
  have hda' := ha.domain.trans hda
  have hdb' := hb.domain.trans hdb
  cases a with
  | boolean x =>
    cases b with
    | boolean y =>
      cases a' with
      | boolean x' =>
        cases b' with
        | boolean y' => cases x <;> cases y <;> cases x' <;> cases y' <;> decide
        | integer _ | string _ | function _ => cases hdb'
      | integer _ | string _ | function _ => cases hda'
    | integer _ | string _ | function _ => cases hdb
  | integer _ | string _ | function _ => cases hda

theorem reduce_outcome {t : ConstTerm} (hc : Closed t) (he : ∀ s ∈ subterms t, ExactNode s)
    (bindings : Bindings) :
    (∃ v v', reduce bindings t = (.literal v', none) ∧ denote t = some v ∧ Similar v v' ∧
      (v' = v ↔ Right t)) ∨
    (∃ t' e, reduce bindings t = (t', some e) ∧ denote t = none ∧ Right t) := by
  induction t with
  | constVar _ | conflict _ _ => cases hc
  | literal v =>
    have hv : denote (.literal v) = some v := by
      have hr : InRange v := he _ (self_mem_subterms _)
      cases v with
      | integer n => exact if_pos hr
      | string _ | boolean _ | function _ => rfl
    exact .inl ⟨v, v, rfl, hv, .refl v, by simp [Right]⟩
  | unary op a ih =>
    have hu := reduceUnary_agrees (.unary op a) op
    rcases ih hc (fun s hs => he s (List.mem_cons_of_mem _ hs)) with
      ⟨v, v', hr, hd, hs, -⟩ | ⟨t', e, hr, hd, -⟩
    · have hv := hu v
      simp only [reduce, hr, denote, hd, Option.bind_some, reduceUnary_congr _ _ hs]
      generalize reduceUnary (.unary op a) op v = r at hv ⊢
      obtain ⟨t', e⟩ := r
      cases e with
      | none =>
        obtain ⟨w, rfl, hw⟩ := hv
        exact .inl ⟨w, w, rfl, hw, .refl w, by simp [Right]⟩
      | some e => exact .inr ⟨t', e, rfl, hv, trivial⟩
    · exact .inr ⟨.unary op a, e, by simp [reduce, hr], by simp [denote, hd], trivial⟩
  | binary op l r ihl ihr =>
    have hel : ∀ s ∈ subterms l, ExactNode s := fun s hs =>
      he s (List.mem_cons_of_mem _ (List.mem_append_left _ hs))
    have her : ∀ s ∈ subterms r, ExactNode s := fun s hs =>
      he s (List.mem_cons_of_mem _ (List.mem_append_right _ hs))
    rcases ihl hc.1 hel with ⟨a, a', hla, hda, hsa, hra⟩ | ⟨t', e, hla, hda, -⟩
    · rcases ihr hc.2 her with ⟨b, b', hlb, hdb, hsb, hrb⟩ | ⟨t', e, hlb, hdb, -⟩
      · have hright : Right (.binary op l r) ↔
            if op = .ne ∧ a.domain = .boolean ∧ b.domain = .boolean then (Right l ↔ Right r)
            else Faithful op a b := by
          constructor
          · exact fun h => h a b hda hdb
          · intro h a₁ b₁ ha₁ hb₁
            cases hda.symm.trans ha₁
            cases hdb.symm.trans hb₁
            exact h
        rw [hright]
        simp only [reduce, hla, hlb, denote, hda, hdb, Option.bind_some]
        by_cases hn : op = .ne ∧ a.domain = .boolean ∧ b.domain = .boolean
        · rw [if_pos hn]
          obtain ⟨rfl, hba, hbb⟩ := hn
          exact .inl ⟨_, _, rfl, rfl, .boolean _ _, by
            rw [← hra, ← hrb]
            exact boolean_ne_iff hsa hsb hba hbb⟩
        · rw [if_neg hn, reduceBinary_congr _ hsa hsb hn]
          apply reduceBinary_shape _ _ (denote_inRange hda) (denote_inRange hdb)
          rintro rfl
          exact he _ (self_mem_subterms _) a b hda hdb
      · exact .inr ⟨.binary op l r, e, by simp [reduce, hla, hlb], by simp [denote, hda, hdb],
          fun a b _ hb => by simp [hdb] at hb⟩
    · exact .inr ⟨.binary op l r, e, by simp [reduce, hla], by simp [denote, hda],
        fun a b ha _ => by simp [hda] at ha⟩

theorem correct_iff_right {t : ConstTerm} (hc : Closed t) (he : ∀ s ∈ subterms t, ExactNode s) :
    Correct t ↔ Right t := by
  constructor
  · intro h
    rcases reduce_outcome hc he fun _ => none with ⟨v, v', hr, hd, -, hiff⟩ | ⟨_, _, _, _, h'⟩
    · have hag := correct_iff_agrees.mp h fun _ => none
      rw [hr, hd, agrees_literal, Option.some.injEq] at hag
      exact hiff.mp hag.symm
    · exact h'
  · intro h
    rw [correct_iff_agrees]
    intro bindings
    rcases reduce_outcome hc he bindings with ⟨v, v', hr, hd, -, hiff⟩ | ⟨t', e, hr, hd, -⟩
    · rw [hr, hd, agrees_literal, hiff.mpr h]
    · rw [hr, hd, agrees_error]

/-- The reducer agrees with the mathematics on a closed term and everything
below it exactly when each node is one its operator chain decides rightly, and
where the arithmetic is exact a single term is right exactly when its wrong
truth values cancel out. -/
theorem reduce_correct_iff (t : ConstTerm) (hc : Closed t) :
    ((∀ s ∈ subterms t, Correct s) ↔ ∀ s ∈ subterms t, NodeOk s) ∧
      ((∀ s ∈ subterms t, ExactNode s) → (Correct t ↔ Right t)) :=
  ⟨subterms_correct_iff hc, correct_iff_right hc⟩

/-- `1 + 2 <= 3` is reduced to the truth it has. -/
theorem reduce_correct_iff_le :
    let t : ConstTerm := .binary .le (.binary .add (.literal (.integer 1)) (.literal (.integer 2)))
      (.literal (.integer 3))
    Closed t ∧ Correct t := by
  intro t
  have hc : Closed t := by simp [t, Closed, ConstLiteral.domain]
  have hok : ∀ s ∈ subterms t, NodeOk s := by
    simp [t, subterms, NodeOk, InRange, maxExact, denote, checked, denoteBinary, denoteArithmetic,
      Faithful]
  exact ⟨hc, ((reduce_correct_iff t hc).1.mpr hok) t (self_mem_subterms t)⟩

/-- `2 < 1` reduces to true: the failed test falls through to `2 >= 1`. -/
theorem reduce_lt_incorrect :
    let t : ConstTerm := .binary .lt (.literal (.integer 2)) (.literal (.integer 1))
    Closed t ∧ reduce (fun _ => none) t = (.literal (.boolean true), none) ∧
      denote t = some (.boolean false) ∧ ¬ Correct t := by
  intro t
  have hr : reduce (fun _ => none) t = (.literal (.boolean true), none) := by decide
  have hd : denote t = some (.boolean false) := by decide
  refine ⟨by simp [t, Closed, ConstLiteral.domain], hr, hd, ?_⟩
  intro h
  have hag := correct_iff_agrees.mp h fun _ => none
  rw [hr, hd, agrees_literal] at hag
  cases hag

end Nupp.ConstEval
