import Nupp.Types.Predicate

/-! The two readings of a refinement: `satisfiedByValue`, and the Lua expression that `render`
and `test` write, with what that expression does when it runs. -/

namespace Nupp.predicate

open Double Nupp.Data

/-- The kinds of values that have an identity. -/
inductive Kind
  | table | function | thread | userdata | cdata
deriving DecidableEq

def Kind.type : Kind → LuaType
  | .table => .table | .function => .function | .thread => .thread | .userdata => .userdata
  | .cdata => .cdata

inductive Value (ι : Type)
  | scalar (c : Constant)
  | object (kind : Kind) (id : ι)
deriving DecidableEq

variable {ι : Type}

def Value.type : Value ι → LuaType
  | .scalar c => c.type
  | .object kind _ => kind.type

def Value.truth : Value ι → Bool
  | .scalar .nil => false
  | .scalar (.boolean b) => b
  | _ => true

abbrev Value.boolean (b : Bool) : Value ι := .scalar (.boolean b)

/-- What the Lua state answers where that rests on a metatable, on a conversion or on the reading
of a source text; `none` where it raises. -/
structure Host (ι : Type) where
  index : Value ι → Name → Option (Value ι)
  equal : ι → Constant → Option Bool
  order : Comparison → Kind → ι → Constant → Option Bool
  remainder : Value ι → Option Bool
  length : Value ι → Option (Value ι)
  source : Bytes → Option Constant

section Operators

def Constant.equal : Constant → Constant → Bool
  | .number x, .number y => x.eq y
  | .number _, _ => false
  | a, b => a = b

/-- An ordered comparison of scalars. -/
def Constant.order (cmp : Comparison) : Constant → Constant → Option Bool
  | .number x, .number y => match cmp with
    | .lt => some (x.lt y)
    | .le => some (x.le y)
    | .gt => some (y.lt x)
    | .ge => some (y.le x)
    | _ => none
  | .string s, .string t => match cmp with
    | .lt => some (less s t)
    | .le => some (!less t s)
    | .gt => some (less t s)
    | .ge => some (!less s t)
    | _ => none
  | _, _ => none

variable (host : Host ι)

/-- `v == c`; only a C number is converted. -/
def Host.equals : Value ι → Constant → Option Bool
  | .scalar a, c => some (a.equal c)
  | .object .cdata id, c => host.equal id c
  | .object _ _, _ => some false

/-- `v cmp c` -/
def Host.compare (cmp : Comparison) (v : Value ι) (c : Constant) : Option Bool :=
  match cmp with
  | .eq => host.equals v c
  | .ne => (host.equals v c).map (!·)
  | cmp => match v with
    | .scalar a => a.order cmp c
    | .object kind id => host.order cmp kind id c

/-- `x % 1 == 0` of a number. -/
def isIntegral (x : Number) : Bool := (x.mod (.ofInt 1)).eq (.ofInt 0)

/-- `v % 1 == 0` -/
def Host.integral : Value ι → Option Bool
  | .scalar (.number x) => some (isIntegral x)
  | v => host.remainder v

/-- `#v` -/
def Host.size : Value ι → Option (Value ι)
  | .scalar (.string s) => some (.scalar (.number (.ofInt s.length)))
  | v => host.length v

/-- `v?.name` -/
def Host.safeIndex (name : Name) : Value ι → Option (Value ι)
  | .scalar .nil => some (.scalar .nil)
  | v => host.index v name

end Operators

section Deciding

variable (host : Host ι)

/-- The three-valued conjunction and disjunction. -/
def decided (op : Junction) (left right : Option Bool) : Option Bool :=
  match op with
  | .and =>
    if left = some false ∨ right = some false then some false
    else if left = some true ∧ right = some true then some true
    else none
  | .or =>
    if left = some true ∨ right = some true then some true
    else if left = some false ∧ right = some false then some false
    else none

/-- What the refinement always answers. -/
def constant : Node → Option Bool
  | .const value => some value
  | .not a => (constant a).map (!·)
  | .junction op a b => decided op (constant a) (constant b)
  | _ => none

/-- `compare`: a comparison of two values the subset can spell. -/
def compare (cmp : Comparison) (left : Value ι) (right : Constant) : Option (Option Bool) :=
  if cmp.equality then (host.compare cmp left right).map some
  else
    match left with
    | .scalar a => some (a.order cmp right)
    | .object _ _ => some none

/-- The value at a path of tables; the inner `none` where a step leaves them. -/
def reach : Value ι → List Name → Option (Option (Value ι))
  | v, [] => some (some v)
  | v, name :: path =>
    if v.type = .table then (host.index v name).bind (reach · path) else some none

/-- Whether `value` satisfies the refinement, fails it, or cannot be decided; the outer `none`
where deciding raises. -/
def satisfiedByValue : Node → Value ι → Option (Option Bool)
  | .const value, _ => some (some value)
  | .not a, v => (satisfiedByValue a v).map (Option.map (!·))
  | .junction op a b, v => do
    let left ← satisfiedByValue a v
    let right ← satisfiedByValue b v
    return decided op left right
  | .len path a, v => do
    match ← reach host v path with
    | some (.scalar (.string s)) => satisfiedByValue a (.scalar (.number (.ofInt s.length)))
    | _ => return none
  | .integral path, v => do
    match ← reach host v path with
    | none => return none
    | some (.scalar (.number x)) => return some (isIntegral x)
    | some _ => return some false
  | .typeis path luaType, v => do
    return (← reach host v path).map fun at' => decide (at'.type = luaType)
  | .truthy path, v => do
    return (← reach host v path).map Value.truth
  | .cmp cmp path _ c, v => do
    match ← reach host v path with
    | none => return none
    | some at' => compare host cmp at' c

end Deciding

section Rendering

/-- A Lua expression that a refinement renders to. -/
inductive Code
  | boolean (b : Bool)
  | not (a : Code)
  | junction (op : Junction) (a b : Code)
  | self
  | field (of : Code) (safe : Bool) (name : Name)
  | length (of : Code)
  | compare (cmp : Comparison) (left : Code) (literal : Literal)
  | typeEquals (of : Code) (luaType : LuaType)
  | integral (of : Code)

/-- `code .. "." .. name`: behind a length, the field is still of what the length is of. -/
def Code.dot (code : Code) (safe : Bool) (name : Name) : Code :=
  match code with
  | .length of => .length (of.dot safe name)
  | code => .field code safe name

/-- The access to a path: the first step as it is, the others past nil. -/
def access (subject : Code) : List Name → Code
  | [] => subject
  | name :: path => path.foldl (fun code name => code.dot true name) (subject.dot false name)

/-- The test of a length: a comparison applies to it as it is. -/
def lengthTest (inner : Node) (target rendered : Code) : Code :=
  match inner with
  | .cmp cmp _ literal _ => .compare cmp (.length target) literal
  | _ => rendered

theorem lengthTest_of_not_cmp {inner : Node} {target rendered : Code}
    (h : ∀ cmp path literal constant, inner ≠ .cmp cmp path literal constant) :
    lengthTest inner target rendered = rendered := by
  cases inner with
  | cmp cmp path literal constant => exact absurd rfl (h cmp path literal constant)
  | _ => rfl

/-- The refinement as a Lua expression testing `subject`. -/
def render : Node → Code → Code
  | .const value, _ => .boolean value
  | .not a, subject => .not (render a subject)
  | .junction op a b, subject => .junction op (render a subject) (render b subject)
  | .len path a, subject =>
    let target := access subject path
    .junction .and (.typeEquals target .string)
      (lengthTest a target (render a (.length target)))
  | .cmp cmp path literal c, subject =>
    let comparison := Code.compare cmp (access subject path) literal
    if cmp.equality then comparison
    else .junction .and (.typeEquals (access subject path) c.type) comparison
  | .integral path, subject => .integral (access subject path)
  | .typeis path luaType, subject => .typeEquals (access subject path) luaType
  | .truthy path, subject => access subject path

/-- Whether the refinement decides what `subject` is before reading into it. -/
def guardsType : Node → Bool
  | .typeis [] _ => true
  | .junction .and a b => guardsType a || guardsType b
  | _ => false

/-- The whole test for `subject`, table check included. -/
def test (node : Node) (subject : Code) : Code :=
  let body := render node subject
  if (constant node).isSome || guardsType node then body
  else .junction .and (.typeEquals subject .table) body

variable (host : Host ι)

/-- An expression with `subject` bound to a value. -/
def Code.eval (v : Value ι) : Code → Option (Value ι)
  | .boolean b => some (.boolean b)
  | .not a => (a.eval v).map fun x => .boolean !x.truth
  | .junction .and a b => (a.eval v).bind fun x => if x.truth then b.eval v else some x
  | .junction .or a b => (a.eval v).bind fun x => if x.truth then some x else b.eval v
  | .self => some v
  | .field of safe name => (of.eval v).bind fun x =>
    if safe then host.safeIndex name x else host.index x name
  | .length of => (of.eval v).bind host.size
  | .compare cmp left literal => do
    let x ← left.eval v
    let c ← host.source literal.text
    return .boolean (← host.compare cmp x c)
  | .typeEquals of luaType => (of.eval v).map fun x => .boolean (x.type = luaType)
  | .integral of => do
    let x ← of.eval v
    return .boolean (← host.integral x)

/-- The truth of what an expression yields. -/
def Code.answer (v : Value ι) (code : Code) : Option Bool := (code.eval host v).map Value.truth

end Rendering

attribute [grind =] reach satisfiedByValue render Code.eval Code.answer

end Nupp.predicate

/-! A refinement decided on a value and the test of that value: where no operand that runs parts
from what was decided, they agree up to the table check. -/

namespace Nupp.predicate

open Double Nupp.Data

variable {ι : Type} {host : Host ι}

section Answers

@[simp] theorem answer_boolean {v : Value ι} {b : Bool} :
    (Code.boolean b).answer host v = some b := rfl

@[simp] theorem answer_not {v : Value ι} {a : Code} :
    (Code.not a).answer host v = (a.answer host v).map (!·) := by
  simp only [Code.answer, Code.eval, Option.map_map]
  rfl

theorem answer_junction {v : Value ι} {op : Junction} {a b : Code} :
    (Code.junction op a b).answer host v =
      (a.answer host v).bind fun x => if x = decide (op = .and) then b.answer host v else some x := by
  unfold Code.answer
  cases op <;> rw [Code.eval] <;> cases ha : a.eval host v with
  | none => rfl
  | some x => cases hx : x.truth <;> simp [hx]

theorem answer_typeEquals {v x : Value ι} {of : Code} {t : LuaType}
    (h : of.eval host v = some x) :
    (Code.typeEquals of t).answer host v = some (decide (x.type = t)) := by
  simp [Code.answer, Code.eval, h, Value.truth]

theorem answer_compare {v x : Value ι} {left : Code} {literal : Literal} {cmp : Comparison}
    {c : Constant} (h : left.eval host v = some x) (hc : host.source literal.text = some c) :
    (Code.compare cmp left literal).answer host v = host.compare cmp x c := by
  simp only [Code.answer, Code.eval, h, hc, Option.bind_eq_bind, Option.bind_some, Option.pure_def]
  cases host.compare cmp x c <;> rfl

theorem answer_integral {v x : Value ι} {of : Code} (h : of.eval host v = some x) :
    (Code.integral of).answer host v = host.integral x := by
  simp only [Code.answer, Code.eval, h, Option.bind_eq_bind, Option.bind_some, Option.pure_def]
  cases host.integral x <;> rfl

end Answers

section Accesses

/-- From the second step of a path on. -/
theorem eval_steps {v x : Value ι} {path : List Name} {code : Code} (hcode : ∀ c, code ≠ .length c)
    (hx : code.eval host v = some x) {y : Value ι} (h : reach host x path = some (some y)) :
    (path.foldl (fun code name => code.dot true name) code).eval host v = some y := by
  induction path generalizing code x with
  | nil =>
    cases h
    exact hx
  | cons name path ih =>
    rw [reach] at h
    split at h
    · next htable =>
      obtain ⟨z, hz, h⟩ := Option.bind_eq_some_iff.mp h
      have hdot : code.dot true name = .field code true name := by
        cases code with
        | length c => exact absurd rfl (hcode c)
        | _ => rfl
      have hsafe : host.safeIndex name x = host.index x name := by
        cases x with
        | scalar c => cases c <;> cases htable
        | object kind id => rfl
      rw [List.foldl_cons, hdot]
      refine ih (by simp) ?_ h
      rw [Code.eval, hx, Option.bind_some, if_pos rfl, hsafe, hz]
    · cases h

/-- Where a path leads through tables, the access reads what it leads to. -/
theorem eval_access {v y : Value ι} {path : List Name} (h : reach host v path = some (some y)) :
    (access .self path).eval host v = some y := by
  cases path with
  | nil =>
    cases h
    rfl
  | cons name path =>
    rw [reach] at h
    split at h
    · obtain ⟨z, hz, h⟩ := Option.bind_eq_some_iff.mp h
      refine eval_steps (by simp [Code.dot]) ?_ h
      simp [Code.dot, Code.eval, hz]
    · cases h

/-- A value that has no fields is reached by no step. -/
theorem reach_scalar {c : Constant} {path : List Name} {y : Value ι}
    (h : reach host (.scalar c) path = some (some y)) : path = [] ∧ y = .scalar c := by
  cases path with
  | nil =>
    cases h
    exact ⟨rfl, rfl⟩
  | cons name path =>
    rw [reach, if_neg (by cases c <;> simp [Value.type, Constant.type])] at h
    cases h

end Accesses

section Agreement

variable (host) in
/-- The literal as Lua reads it compares with a value as its constant does, without raising. -/
def Means (cmp : Comparison) (x : Value ι) (literal : Literal) (c : Constant) : Prop :=
  ∃ b read, host.source literal.text = some read ∧ host.compare cmp x read = some b ∧
    host.compare cmp x c = some b

variable (host) in
/-- What runs when a refinement is tested reads its paths without raising, compares by literals
that mean their constants, and takes a remainder of numbers alone. -/
def Plain (v : Value ι) : Node → Code → Prop
  | .const _, _ => True
  | .not a, subject => Plain v a subject
  | .junction op a b, subject => Plain v a subject ∧
    ((render a subject).answer host v = some (decide (op = .and)) → Plain v b subject)
  | .len path a, subject => ∃ x, (access subject path).eval host v = some x ∧
    ∀ s, x = .scalar (.string s) →
      match a with
      | .cmp cmp _ literal c => Means host cmp (.scalar (.number (.ofInt s.length))) literal c
      | inner => Plain v inner (.length (access subject path))
  | .cmp cmp path literal c, subject => ∃ x, (access subject path).eval host v = some x ∧
    (cmp.equality = true ∨ x.type = c.type → Means host cmp x literal c)
  | .integral path, subject => ∃ x, (access subject path).eval host v = some x ∧
    (x.type = .number ∨ host.integral x = some false)
  | .typeis path _, subject | .truthy path, subject =>
    ((access subject path).eval host v).isSome = true

/-- A test answers, and answers what was decided. -/
def Agrees (decision : Option (Option Bool)) (answer : Option Bool) : Prop :=
  ∃ b, answer = some b ∧ ∀ d, decision = some (some d) → b = d

theorem agrees_not {decision : Option (Option Bool)} {answer : Option Bool}
    (h : Agrees decision answer) :
    Agrees (decision.map (Option.map (!·))) (answer.map (!·)) := by
  obtain ⟨b, rfl, h⟩ := h
  refine ⟨!b, rfl, ?_⟩
  rintro d hd
  rcases decision with _ | _ | e
  · cases hd
  · cases hd
  · cases hd
    rw [h e rfl]

/-- Where the first operand lets the second run, the second decides. -/
theorem decided_second {op : Junction} {l r : Option Bool} {c d : Bool}
    (hl : l = none ∨ l = some (decide (op = .and))) (hr : r = none ∨ r = some c)
    (h : decided op l r = some d) : c = d := by
  cases op <;> rcases hl with rfl | rfl <;> rcases hr with rfl | rfl <;> cases c <;>
    simp_all [decided]

/-- Where the first operand stops the run, it decides. -/
theorem decided_first {op : Junction} {l r : Option Bool} {d : Bool}
    (hl : l = none ∨ l = some (!decide (op = .and))) (h : decided op l r = some d) :
    (!decide (op = .and)) = d := by
  cases op <;> rcases hl with rfl | rfl <;> rcases r with _ | _ | _ <;> simp_all [decided]

theorem agrees_junction {op : Junction} {left right : Option (Option Bool)}
    {first second : Option Bool} (hleft : Agrees left first)
    (hright : first = some (decide (op = .and)) → Agrees right second) :
    Agrees (do let l ← left; let r ← right; return decided op l r)
      (first.bind fun x => if x = decide (op = .and) then second else some x) := by
  obtain ⟨b, rfl, hb⟩ := hleft
  -- what is decided of an operand is what it answers
  have hkept : ∀ {o : Option Bool} {b : Bool}, (∀ e, o = some e → b = e) → o = none ∨ o = some b := by
    rintro (_ | e) b h
    · exact .inl rfl
    · exact .inr (by rw [h e rfl])
  have hl : ∀ l, left = some l → l = none ∨ l = some b := fun l hl =>
    hkept fun e he => hb e (by rw [hl, he])
  rw [Option.bind_some]
  split
  · next hrun =>
    obtain ⟨c, rfl, hc⟩ := hright (by rw [hrun])
    refine ⟨c, rfl, ?_⟩
    intro d hd
    obtain ⟨l, hleft, hd'⟩ := Option.bind_eq_some_iff.mp hd
    obtain ⟨r, hr, hdecided⟩ := Option.bind_eq_some_iff.mp hd'
    exact decided_second (hrun ▸ hl l hleft) (hkept fun e he => hc e (by rw [hr, he]))
      (Option.some.inj hdecided)
  · next hstop =>
    refine ⟨b, rfl, ?_⟩
    intro d hd
    obtain ⟨l, hleft, hd'⟩ := Option.bind_eq_some_iff.mp hd
    obtain ⟨r, hr, hdecided⟩ := Option.bind_eq_some_iff.mp hd'
    obtain rfl : b = !decide (op = .and) := by
      revert hstop
      cases b <;> cases decide (op = .and) <;> simp
    exact decided_first (hl l hleft) (Option.some.inj hdecided)

/-- Scalars of two types are not ordered. -/
theorem order_of_type_ne {cmp : Comparison} {a c : Constant} (h : a.type ≠ c.type) :
    a.order cmp c = none := by
  cases a <;> cases c <;> first | rfl | exact absurd rfl h

theorem compare_equality {cmp : Comparison} {x : Value ι} {c : Constant} (h : cmp.equality = true) :
    compare host cmp x c = (host.compare cmp x c).map some := by
  unfold predicate.compare
  rw [if_pos h]

/-- What an ordered comparison decides, the operator answers. -/
theorem compare_ordered {cmp : Comparison} {x : Value ι} {c : Constant} {d : Bool}
    (hcmp : cmp.equality = false) (h : compare host cmp x c = some (some d)) :
    x.type = c.type ∧ host.compare cmp x c = some d := by
  unfold predicate.compare at h
  rw [hcmp, if_neg (by simp)] at h
  cases x with
  | scalar a =>
    have horder := Option.some.inj h
    refine ⟨?_, ?_⟩
    · by_contra hne
      rw [order_of_type_ne hne] at horder
      cases horder
    · cases cmp <;> first | exact horder | cases hcmp
  | object kind id => cases h

theorem agrees_compare {cmp : Comparison} {x : Value ι} {literal : Literal} {c : Constant}
    {left : Code} {v : Value ι} (hleft : left.eval host v = some x)
    (h : Means host cmp x literal c) :
    Agrees (compare host cmp x c) ((Code.compare cmp left literal).answer host v) := by
  obtain ⟨b, read, hread, hb, hc⟩ := h
  refine ⟨b, by rw [answer_compare hleft hread, hb], ?_⟩
  intro d hd
  cases hcmp : cmp.equality with
  | true =>
    rw [compare_equality hcmp, hc] at hd
    exact Option.some.inj (Option.some.inj hd)
  | false =>
    have hd' := (compare_ordered hcmp hd).2
    rw [hc] at hd'
    exact Option.some.inj hd'

/-- What is decided at the end of a path is decided of a value there. -/
theorem reached_of_decided {α : Type} {end' : Option (Option α)}
    {k : Option α → Option (Option Bool)} {d : Bool} (h : end'.bind k = some (some d))
    (hk : k none = some none) : ∃ y, end' = some (some y) ∧ k (some y) = some (some d) := by
  obtain ⟨o, ho, h⟩ := Option.bind_eq_some_iff.mp h
  cases o with
  | none => rw [hk] at h; cases h
  | some y => exact ⟨y, ho, h⟩

/-- Where everything that runs is plain, the test answers, and what was decided. -/
theorem plain_agrees {v w : Value ι} {n : Node} {subject : Code}
    (hreach : ∀ path x, reach host w path = some (some x) →
      (access subject path).eval host v = some x)
    (h : Plain host v n subject) :
    Agrees (satisfiedByValue host n w) ((render n subject).answer host v) := by
  induction n generalizing w subject with
  | const value => exact ⟨value, rfl, by rintro d hd; cases hd; rfl⟩
  | not a ih =>
    rw [satisfiedByValue, render, answer_not]
    exact agrees_not (ih hreach h)
  | junction op a b iha ihb =>
    rw [satisfiedByValue, render, answer_junction]
    exact agrees_junction (iha hreach h.1) fun hrun => ihb hreach (h.2 hrun)
  | cmp cmp path literal c =>
    rw [Plain] at h
    obtain ⟨x, hx, h⟩ := h
    have hsame : ∀ y, reach host w path = some (some y) → y = x := fun y hy =>
      Option.some.inj ((hreach path y hy).symm.trans hx)
    rw [satisfiedByValue, render]
    cases hcmp : cmp.equality with
    | true =>
      obtain ⟨b, hb, hdecided⟩ := agrees_compare hx (h (.inl hcmp))
      refine ⟨b, by simpa using hb, fun d hd => hdecided d ?_⟩
      obtain ⟨y, hy, hd⟩ := reached_of_decided hd rfl
      rw [← hsame y hy]
      exact hd
    | false =>
      simp only [Bool.false_eq_true, if_false, answer_junction, answer_typeEquals hx,
        Option.bind_some]
      by_cases htype : x.type = c.type
      · obtain ⟨b, hb, hdecided⟩ := agrees_compare hx (h (.inr htype))
        refine ⟨b, by simpa [htype] using hb, fun d hd => hdecided d ?_⟩
        obtain ⟨y, hy, hd⟩ := reached_of_decided hd rfl
        rw [← hsame y hy]
        exact hd
      · refine ⟨false, by simp [htype], fun d hd => ?_⟩
        obtain ⟨y, hy, hd⟩ := reached_of_decided hd rfl
        obtain rfl := hsame y hy
        exact absurd (compare_ordered hcmp hd).1 htype
  | typeis path t =>
    rw [Plain] at h
    obtain ⟨x, hx⟩ := Option.isSome_iff_exists.mp h
    rw [satisfiedByValue, render, answer_typeEquals hx]
    refine ⟨_, rfl, fun d hd => ?_⟩
    obtain ⟨y, hy, hd⟩ := reached_of_decided hd rfl
    obtain rfl := Option.some.inj ((hreach path y hy).symm.trans hx)
    exact Option.some.inj (Option.some.inj hd)
  | truthy path =>
    rw [Plain] at h
    obtain ⟨x, hx⟩ := Option.isSome_iff_exists.mp h
    rw [satisfiedByValue, render]
    refine ⟨x.truth, by simp [Code.answer, hx], fun d hd => ?_⟩
    obtain ⟨y, hy, hd⟩ := reached_of_decided hd rfl
    obtain rfl := Option.some.inj ((hreach path y hy).symm.trans hx)
    exact Option.some.inj (Option.some.inj hd)
  | integral path =>
    rw [Plain] at h
    obtain ⟨x, hx, h⟩ := h
    rw [satisfiedByValue, render, answer_integral hx]
    have hsame : ∀ y, reach host w path = some (some y) → y = x := fun y hy =>
      Option.some.inj ((hreach path y hy).symm.trans hx)
    by_cases hnumber : ∃ n, x = .scalar (.number n)
    · obtain ⟨n, rfl⟩ := hnumber
      refine ⟨isIntegral n, rfl, fun d hd => ?_⟩
      obtain ⟨y, hy, hd⟩ := reached_of_decided hd rfl
      obtain rfl := hsame y hy
      exact Option.some.inj (Option.some.inj hd)
    · have hanswer : host.integral x = some false := by
        refine h.resolve_left fun htype => hnumber ?_
        rcases x with (_ | _ | n | _) | ⟨_ | _ | _ | _ | _, _⟩ <;>
          first | exact ⟨n, rfl⟩ | cases htype
      refine ⟨false, hanswer, fun d hd => ?_⟩
      obtain ⟨y, hy, hd⟩ := reached_of_decided hd rfl
      obtain rfl := hsame y hy
      revert hd
      split
      · intro hd; cases hd
      · next heq => exact absurd ⟨_, Option.some.inj heq⟩ hnumber
      · intro hd; exact Option.some.inj (Option.some.inj hd)
  | len path a ih =>
    rw [Plain] at h
    obtain ⟨x, hx, h⟩ := h
    have hsame : ∀ y, reach host w path = some (some y) → y = x := fun y hy =>
      Option.some.inj ((hreach path y hy).symm.trans hx)
    rw [satisfiedByValue, render]
    simp only [answer_junction, answer_typeEquals hx, Option.bind_some]
    by_cases hstring : ∃ s, x = .scalar (.string s)
    · obtain ⟨s, rfl⟩ := hstring
      have hsize : (Code.length (access subject path)).eval host v =
          some (.scalar (.number (.ofInt s.length))) := by
        rw [Code.eval, hx]
        rfl
      have hinner : Agrees (satisfiedByValue host a (.scalar (.number (.ofInt s.length))))
          ((lengthTest a (access subject path)
            (render a (.length (access subject path)))).answer host v) := by
        have hs := h s rfl
        split at hs
        · next cmp path' literal c =>
          rw [satisfiedByValue, lengthTest]
          obtain ⟨b, hb, hdecided⟩ := agrees_compare hsize hs
          refine ⟨b, hb, fun d hd => hdecided d ?_⟩
          obtain ⟨y, hy, hd⟩ := reached_of_decided hd rfl
          rw [← (reach_scalar hy).2]
          exact hd
        · next hnot =>
          rw [lengthTest_of_not_cmp hnot]
          refine ih (fun path' y hy => ?_) hs
          obtain ⟨rfl, rfl⟩ := reach_scalar hy
          exact hsize
      obtain ⟨b, hb, hdecided⟩ := hinner
      refine ⟨b, by simpa [Value.type, Constant.type] using hb, fun d hd => hdecided d ?_⟩
      obtain ⟨y, hy, hd⟩ := reached_of_decided hd rfl
      obtain rfl := hsame y hy
      exact hd
    · have htype : x.type ≠ .string := by
        rintro htype
        refine hstring ?_
        rcases x with (_ | _ | _ | s) | ⟨_ | _ | _ | _ | _, _⟩ <;>
          first | exact ⟨s, rfl⟩ | cases htype
      refine ⟨false, by simp [htype], fun d hd => ?_⟩
      obtain ⟨y, hy, hd⟩ := reached_of_decided hd rfl
      obtain rfl := hsame y hy
      revert hd
      split
      · next s heq => exact absurd ⟨s, Option.some.inj heq⟩ hstring
      · intro hd; cases hd

end Agreement

section Tests

/-- Nothing is put in front of the refinement, or a check that the value passes. -/
def Reached (n : Node) (v : Value ι) : Prop :=
  (constant n).isSome = true ∨ guardsType n = true ∨ v.type = .table

theorem test_reached {v : Value ι} {n : Node} (h : Reached n v) :
    (test n .self).answer host v = (render n .self).answer host v := by
  unfold test
  simp only
  split
  · rfl
  · next hguard =>
    have htable : v.type = .table := by
      rcases h with h | h | h
      · simp [h] at hguard
      · simp [h] at hguard
      · exact h
    rw [answer_junction, answer_typeEquals (x := v) rfl]
    simp [htable]

theorem test_not_reached {v : Value ι} {n : Node} (h : ¬ Reached n v) :
    (test n .self).answer host v = some false := by
  simp only [Reached, not_or] at h
  unfold test
  simp only
  rw [if_neg (by simp [h.1, h.2.1]), answer_junction, answer_typeEquals (x := v) rfl]
  simp [h.2.2]

def zero : Number := .finite (.zero false)

def zeroToken : NumberToken := ⟨ascii "0", by decide +kernel⟩

/-- A state that reads the literal `0`, with no metatables. -/
def bareHost : Host Unit where
  index _ _ := none
  equal _ _ := none
  order _ _ _ _ := none
  remainder _ := none
  length _ := none
  source text := if text = ascii "0" then some (.number zero) else none

def bareTonumber (text : Bytes) : Option Number := if text = ascii "0" then some zero else none

theorem written_zero : Written (ascii "0") := .word (by decide +kernel)

/-- `self >= 0` -/
def atLeastZero : Node := .cmp .ge [] ⟨ascii "0", written_zero⟩ (.number zero)

theorem zero_le_zero : zero.le zero = true := by
  simp [zero, Number.le]

theorem satisfied_atLeastZero :
    satisfiedByValue bareHost atLeastZero (.scalar (.number zero)) = some (some true) :=
  congrArg (fun b => some (some b)) zero_le_zero

/-- `type(self) == "number" and self >= 0` -/
def guardedZero : Node := .junction .and (.typeis [] .number) atLeastZero

end Tests

end Nupp.predicate
