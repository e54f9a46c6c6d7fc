import Nupp.Types.PredicateTest

/-! `predicate.satisfiedBy`: a refinement decided from the declared types of the fields it reads,
against what the test of it answers on a value whose fields are of these types. -/

namespace Nupp.predicate

open Double Nupp.Data

inductive Prim
  | any | unknown | never | opened | nil | boolean | string | number | integer | table | thread
  | userdata | float | cdata | cstring | voidptr | int8 | int16 | int32 | int64 | uint8 | uint16
  | uint32 | uint64 | type | typepack | functionconst
deriving DecidableEq

inductive DeclKind
  | record | interface | struct
deriving DecidableEq

/-- A type with no type in it that matters here; `id` is what it is interned under. -/
inductive Leaf
  | prim (tag : Prim)
  | nominal (declKind : DeclKind) (id : ℕ)
  | shape (id : ℕ)
  | map (id : ℕ)
  | array (id : ℕ)
  | tuple (id : ℕ)
  | func (id : ℕ)
  | typevar (id : ℕ)
  | other (id : ℕ)

inductive Wrapper
  | affine | borrowed | pinned | const

/-- What `type()` returns for a value of each primitive. -/
def PRIMITIVE_LUA_TYPE : Prim → Option LuaType
  | .string => some .string
  | .cstring => some .string
  | .number => some .number
  | .integer => some .number
  | .float => some .number
  | .boolean => some .boolean
  | .table => some .table
  | .thread => some .thread
  | .userdata => some .userdata
  | _ => none

/-- A declared type. The base of a literal is the primitive of its own type. -/
inductive Ty
  | leaf (t : Leaf)
  | literal (constant : Constant) (base : Prim) (hbase : PRIMITIVE_LUA_TYPE base = some constant.type)
  | union (members : List Ty)
  | wrapped (wrapper : Wrapper) (inner : Ty)

def Leaf.luaTypeOf : Leaf → Option LuaType
  | .prim tag => PRIMITIVE_LUA_TYPE tag
  | .nominal .struct _ => some .cdata
  | .nominal _ _ => some .table
  | .shape _ | .map _ | .array _ | .tuple _ => some .table
  | .func _ => some .function
  | _ => none

/-- What `type()` returns for a value of a type, when that is decided by the type. -/
def luaTypeOf : Ty → Option LuaType
  | .leaf t => t.luaTypeOf
  | .literal _ base _ => PRIMITIVE_LUA_TYPE base
  | _ => none

def Leaf.truthinessOf (t : Leaf) : Option Bool :=
  match t with
  | .prim .nil => some false
  | .prim .boolean | .prim .any | .prim .unknown | .typevar _ => none
  | t => if t.luaTypeOf.isSome then some true else none

/-- Whether a value of a type is always truthy, always falsy, or either. -/
def truthinessOf : Ty → Option Bool
  | .leaf t => t.truthinessOf
  | .literal (.boolean b) _ _ => some b
  | .literal _ base _ => (Leaf.prim base).truthinessOf
  | .union _ => none
  | .wrapped _ _ => some true

variable {ι : Type} (host : Host ι)

/-- Whether a declaration whose fields `fieldAt` reports must satisfy the refinement, must fail
it, or cannot be told either way. -/
def satisfiedBy (fieldAt : List Name → Option Ty) : Node → Option (Option Bool)
  | .const value => some (some value)
  | .not a => (satisfiedBy fieldAt a).map (Option.map (!·))
  | .junction op a b => do
    let left ← satisfiedBy fieldAt a
    let right ← satisfiedBy fieldAt b
    return decided op left right
  | .len path a =>
    match fieldAt path with
    | some (.literal (.string s) _ _) => satisfiedByValue host a (.scalar (.number (.ofInt s.length)))
    | _ => some none
  | .typeis path luaType =>
    some ((fieldAt path).bind fun t => (luaTypeOf t).map fun answer => decide (answer = luaType))
  | .truthy path => some ((fieldAt path).bind truthinessOf)
  | .cmp cmp path _ c =>
    match fieldAt path with
    | some (.literal constant _ _) => some (match cmp with
      | .eq => some (constant.equal c)
      | .ne => some (!constant.equal c)
      | _ => none)
    | _ => some none
  | .integral _ => some none

/-- The paths that a refinement reads. -/
def paths : Node → List (List Name)
  | .const _ => []
  | .not a => paths a
  | .junction _ a b => paths a ++ paths b
  | .cmp _ path _ _ | .typeis path _ | .integral path | .truthy path => [path]
  | .len path a => path :: paths a

section Meaning

/-- What `type()` returns for the values that a type can have: a C value is let into `cstring`, and
into `table`, an interface or a shape as a struct, and into a function type as a C function. -/
def Leaf.Carries : Leaf → LuaType → Prop
  | .prim .never, _ => False
  | .prim .nil, t => t = .nil
  | .prim .boolean, t => t = .boolean
  | .prim .string, t => t = .string
  | .prim .cstring, t => t = .string ∨ t = .cdata
  | .prim .number, t | .prim .integer, t | .prim .float, t => t = .number
  | .prim .int8, t | .prim .int16, t | .prim .int32, t => t = .number
  | .prim .uint8, t | .prim .uint16, t | .prim .uint32, t => t = .number
  | .prim .int64, t | .prim .uint64, t => t = .number ∨ t = .cdata
  | .prim .table, t => t = .table ∨ t = .cdata
  | .prim .thread, t => t = .thread
  | .prim .userdata, t => t = .userdata
  | .prim .cdata, t | .prim .voidptr, t => t = .cdata
  | .nominal .record _, t => t = .table
  | .nominal .interface _, t => t = .table ∨ t = .cdata
  | .nominal .struct _, t => t = .cdata
  | .shape _, t => t = .table ∨ t = .cdata
  | .map _, t | .array _, t | .tuple _, t => t = .table
  | .func _, t => t = .function ∨ t = .cdata
  | _, _ => True

/-- The values of a type, where `world` says which of the values that they can have the
declarations have. -/
inductive Inhabits (world : Leaf → Value ι → Prop) : Ty → Value ι → Prop
  | leaf {t : Leaf} {v : Value ι} (hcarries : t.Carries v.type) (hworld : world t v) :
    Inhabits world (.leaf t) v
  | literal {constant a : Constant} {base : Prim} {hbase : PRIMITIVE_LUA_TYPE base = some constant.type}
    (hequal : a.equal constant = true) : Inhabits world (.literal constant base hbase) (.scalar a)
  | member {members : List Ty} {t : Ty} {v : Value ι} (ht : t ∈ members) (hv : Inhabits world t v) :
    Inhabits world (.union members) v
  | wrapped {wrapper : Wrapper} {t : Ty} {v : Value ι} (hv : Inhabits world t v) :
    Inhabits world (.wrapped wrapper t) v

/-- Every literal of a refinement means its constant. -/
def Spelled : Node → Prop
  | .cmp _ _ literal c => host.source literal.text = some c
  | .not a | .len _ a => Spelled a
  | .junction _ a b => Spelled a ∧ Spelled b
  | _ => True

/-- What is decided from the declared types is what the test of the refinement answers, where it
answers, on every value whose fields are of these types. -/
def Sound (world : Leaf → Value ℕ → Prop) (fieldAt : List Name → Option Ty) : Prop :=
  ∀ (host : Host ℕ) (v : Value ℕ) (n : Node) (b answer : Bool), Spelled host n →
    (∀ path ∈ paths n, ∀ t, fieldAt path = some t →
      ∃ x, (access .self path).eval host v = some x ∧ Inhabits world t x) →
    satisfiedBy host fieldAt n = some (some b) → (render n .self).answer host v = some answer →
      answer = b

/-- The types that have C values next to those that `type()` answers for. -/
def Leaf.foreign : Leaf → Bool
  | .prim .cstring | .prim .table | .nominal .interface _ | .shape _ | .func _ => true
  | _ => false

/-- A type that has a C value where none is expected, or an owner or a constant view of a type that
admits nil or false. -/
def Misjudged (world : Leaf → Value ι → Prop) : Ty → Prop
  | .leaf t => t.foreign = true ∧ ∃ id, Inhabits world (.leaf t) (.object .cdata id)
  | .wrapped _ inner => ∃ v, Inhabits world inner v ∧ v.truth = false
  | _ => False

end Meaning

section Atoms

variable {host} {world : Leaf → Value ι → Prop} {t : Ty} {v : Value ι}

theorem eq_object_of_cdata (h : v.type = .cdata) : ∃ id, v = .object .cdata id := by
  rcases v with (_ | _ | _ | _) | ⟨_ | _ | _ | _ | _, id⟩ <;> first | exact ⟨id, rfl⟩ | cases h

theorem truth_of_type (hnil : v.type ≠ .nil) (hboolean : v.type ≠ .boolean) : v.truth = true := by
  rcases v with (_ | _ | _ | _) | _
  · exact absurd rfl hnil
  · exact absurd rfl hboolean
  all_goals rfl

/-- A value that is no C value, or of a type that expects one, has the type that the tag names. -/
theorem type_of_carries {t : Leaf} {answer runtime : LuaType} (h : t.Carries runtime)
    (hanswer : t.luaTypeOf = some answer) : runtime = answer ∨ t.foreign = true ∧ runtime = .cdata := by
  rcases t with ⟨tag⟩ | ⟨kind, _⟩ | _ | _ | _ | _ | _ | _ | _
  · cases tag <;> simp_all [Leaf.Carries, Leaf.luaTypeOf, PRIMITIVE_LUA_TYPE, Leaf.foreign]
  · cases kind <;> simp_all [Leaf.Carries, Leaf.luaTypeOf, Leaf.foreign]
  all_goals simp_all [Leaf.Carries, Leaf.luaTypeOf, Leaf.foreign]

theorem equal_type {a c : Constant} (h : a.equal c = true) : a.type = c.type := by
  cases a <;> cases c <;> simp_all [Constant.equal, Constant.type]

theorem type_of_inhabits (ht : ¬Misjudged world t) (hv : Inhabits world t v) {answer : LuaType}
    (hanswer : luaTypeOf t = some answer) : v.type = answer := by
  cases hv with
  | leaf hcarries hworld =>
    rcases type_of_carries hcarries hanswer with h | ⟨hforeign, hcdata⟩
    · exact h
    · obtain ⟨id, rfl⟩ := eq_object_of_cdata hcdata
      exact absurd ⟨hforeign, id, .leaf hcarries hworld⟩ ht
  | literal hequal =>
    next constant a base hbase =>
    have := hbase.symm.trans hanswer
    exact (equal_type hequal).trans (Option.some.inj this)
  | member => cases hanswer
  | wrapped => cases hanswer

theorem answer_of_leaf {t : Leaf} {b : Bool} (hb : t.truthinessOf = some b) :
    t = .prim .nil ∧ b = false ∨
      b = true ∧ ∃ answer, t.luaTypeOf = some answer ∧ answer ≠ .nil ∧ answer ≠ .boolean := by
  rcases t with ⟨tag⟩ | ⟨kind, _⟩ | _ | _ | _ | _ | _ | _ | _
  · cases tag <;> simp_all [Leaf.truthinessOf, Leaf.luaTypeOf, PRIMITIVE_LUA_TYPE]
  · cases kind <;> simp_all [Leaf.truthinessOf, Leaf.luaTypeOf]
  all_goals simp_all [Leaf.truthinessOf, Leaf.luaTypeOf]

theorem truth_of_leaf {t : Leaf} (hcarries : t.Carries v.type) {b : Bool} (hb : t.truthinessOf = some b) :
    v.truth = b := by
  rcases answer_of_leaf hb with ⟨rfl, rfl⟩ | ⟨rfl, answer, hanswer, hnil, hboolean⟩
  · rcases v with (_ | _ | _ | _) | ⟨_ | _ | _ | _ | _, _⟩ <;> first | rfl | cases hcarries
  · rcases type_of_carries hcarries hanswer with h | ⟨-, h⟩
    · exact truth_of_type (h ▸ hnil) (h ▸ hboolean)
    · exact truth_of_type (by simp [h]) (by simp [h])

/-- The base of a literal that is no truth value is always truthy. -/
theorem truth_of_base {constant a : Constant} {base : Prim}
    (hbase : PRIMITIVE_LUA_TYPE base = some constant.type) (hequal : a.equal constant = true) {b : Bool}
    (hb : (Leaf.prim base).truthinessOf = some b) : (Value.scalar a : Value ι).truth = b := by
  have htype : (Value.scalar a : Value ι).type = constant.type := equal_type hequal
  rcases answer_of_leaf hb with ⟨hnil, -⟩ | ⟨rfl, answer, hanswer, hne, hne'⟩
  · cases hnil
    cases hbase
  · obtain rfl : constant.type = answer := Option.some.inj (hbase.symm.trans hanswer)
    exact truth_of_type (htype ▸ hne) (htype ▸ hne')

theorem truth_of_literal {constant a : Constant} {base : Prim}
    {hbase : PRIMITIVE_LUA_TYPE base = some constant.type} (hequal : a.equal constant = true) {b : Bool}
    (hb : truthinessOf (.literal constant base hbase) = some b) : (Value.scalar a : Value ι).truth = b := by
  cases constant with
  | boolean c =>
    obtain rfl : a = .boolean c := by cases a <;> simp_all [Constant.equal]
    exact Option.some.inj hb
  | nil | number x | string s => exact truth_of_base hbase hequal hb

theorem truth_of_inhabits (ht : ¬Misjudged world t) (hv : Inhabits world t v) {b : Bool}
    (hb : truthinessOf t = some b) : v.truth = b := by
  cases hv with
  | leaf hcarries hworld => exact truth_of_leaf hcarries hb
  | literal hequal => exact truth_of_literal hequal hb
  | member => cases hb
  | wrapped hinner =>
    obtain rfl : true = b := Option.some.inj hb
    by_contra hfalse
    exact ht ⟨v, hinner, by simpa using hfalse⟩

/-- A value that a literal admits compares with a constant as the literal does. -/
theorem equal_of_equal {a c d : Constant} (h : a.equal c = true) : a.equal d = c.equal d := by
  cases c with
  | number x =>
    obtain ⟨y, rfl⟩ : ∃ y, a = .number y := by cases a <;> simp_all [Constant.equal]
    cases d with
    | number z =>
      rcases x with x | x | _ <;> rcases y with y | y | _ <;> rcases z with z | z | _ <;>
        simp_all [Constant.equal, Number.eq]
    | _ => rfl
  | nil =>
    obtain rfl : a = .nil := by cases a <;> simp_all [Constant.equal]
    rfl
  | boolean e =>
    obtain rfl : a = .boolean e := by cases a <;> simp_all [Constant.equal]
    rfl
  | string s =>
    obtain rfl : a = .string s := by cases a <;> simp_all [Constant.equal]
    rfl

end Atoms

section Soundness

variable {host} {world : Leaf → Value ι → Prop} {fieldAt : List Name → Option Ty} {v : Value ι}

/-- Where both operands answer what is decided of them, their junction does. -/
theorem answer_of_junction {op : Junction} {l r first second : Option Bool} {b answer : Bool}
    (hl : ∀ x c, first = some x → l = some c → x = c) (hr : ∀ x c, second = some x → r = some c → x = c)
    (hdecided : decided op l r = some b)
    (hanswer : (first.bind fun x => if x = decide (op = .and) then second else some x) = some answer) :
    answer = b := by
  -- what is decided of an operand is what it answers
  have hkept : ∀ {o : Option Bool} {x : Bool}, (∀ c, o = some c → x = c) → o = none ∨ o = some x := by
    rintro (_ | c) x h
    · exact .inl rfl
    · exact .inr (by rw [h c rfl])
  obtain ⟨x, hx, hanswer⟩ := Option.bind_eq_some_iff.mp hanswer
  have hfirst := hkept fun c hc => hl x c hx hc
  split at hanswer
  · next hrun =>
    subst hrun
    exact decided_second hfirst (hkept fun c hc => hr answer c hanswer hc) hdecided
  · next hstop =>
    obtain rfl : x = answer := Option.some.inj hanswer
    obtain rfl : x = !decide (op = .and) := by
      revert hstop
      cases x <;> cases decide (op = .and) <;> simp
    exact decided_first hfirst hdecided

/-- What is decided of a comparison is what the operator answers. -/
theorem answer_of_compare {cmp : Comparison} {literal : Literal} {c : Constant} {subject : Code} {x : Value ι}
    {b : Bool} (hsubject : subject.eval host v = some x) (hspelled : host.source literal.text = some c)
    (hdecided : compare host cmp x c = some (some b)) :
    (Code.compare cmp subject literal).answer host v = some b := by
  rw [answer_compare hsubject hspelled]
  cases hcmp : cmp.equality with
  | true =>
    rw [compare_equality hcmp] at hdecided
    simpa using hdecided
  | false => exact (compare_ordered hcmp hdecided).2

/-- What is decided of a number is what the test of it answers. -/
theorem answer_of_number {n : Node} {subject : Code} {x : Number} {b answer : Bool}
    (hsubject : subject.eval host v = some (.scalar (.number x))) (hspelled : Spelled host n)
    (hdecided : satisfiedByValue host n (.scalar (.number x)) = some (some b))
    (hanswer : (render n subject).answer host v = some answer) : answer = b := by
  induction n generalizing b answer with
  | const value =>
    rw [render, answer_boolean] at hanswer
    cases hanswer
    cases hdecided
    rfl
  | not a ih =>
    rw [satisfiedByValue] at hdecided
    obtain ⟨o, ho, hb⟩ := Option.map_eq_some_iff.mp hdecided
    obtain ⟨c, rfl, rfl⟩ := Option.map_eq_some_iff.mp hb
    rw [render, answer_not] at hanswer
    obtain ⟨d, hd, rfl⟩ := Option.map_eq_some_iff.mp hanswer
    rw [ih hspelled ho hd]
  | junction op a b' iha ihb =>
    rw [satisfiedByValue] at hdecided
    obtain ⟨l, hl, hdecided⟩ := Option.bind_eq_some_iff.mp hdecided
    obtain ⟨r, hr, hdecided⟩ := Option.bind_eq_some_iff.mp hdecided
    rw [render, answer_junction] at hanswer
    refine answer_of_junction (fun y c hy hc => iha hspelled.1 (by rw [hl, hc]) hy)
      (fun y c hy hc => ihb hspelled.2 (by rw [hr, hc]) hy) (Option.some.inj hdecided) hanswer
  | cmp cmp path literal c =>
    rw [satisfiedByValue] at hdecided
    obtain ⟨y, hy, hdecided⟩ := reached_of_decided hdecided rfl
    obtain ⟨rfl, rfl⟩ := reach_scalar hy
    have hcompare := answer_of_compare hsubject hspelled hdecided
    rw [render] at hanswer
    simp only [access] at hanswer
    cases hcmp : cmp.equality with
    | true =>
      rw [if_pos hcmp, hcompare] at hanswer
      exact (Option.some.inj hanswer).symm
    | false =>
      have htype := (compare_ordered hcmp hdecided).1
      rw [if_neg (by simp [hcmp]), answer_junction, answer_typeEquals hsubject, htype, hcompare] at hanswer
      simpa using hanswer.symm
  | typeis path t =>
    rw [satisfiedByValue] at hdecided
    obtain ⟨y, hy, hdecided⟩ := reached_of_decided hdecided rfl
    obtain ⟨rfl, rfl⟩ := reach_scalar hy
    rw [render, access, answer_typeEquals hsubject] at hanswer
    exact (Option.some.inj hanswer).symm.trans (Option.some.inj (Option.some.inj hdecided))
  | truthy path =>
    rw [satisfiedByValue] at hdecided
    obtain ⟨y, hy, hdecided⟩ := reached_of_decided hdecided rfl
    obtain ⟨rfl, rfl⟩ := reach_scalar hy
    rw [render, access, Code.answer, hsubject] at hanswer
    exact (Option.some.inj hanswer).symm.trans (Option.some.inj (Option.some.inj hdecided))
  | integral path =>
    rw [satisfiedByValue] at hdecided
    obtain ⟨y, hy, hdecided⟩ := reached_of_decided hdecided rfl
    obtain ⟨rfl, rfl⟩ := reach_scalar hy
    rw [render, access, answer_integral hsubject] at hanswer
    exact (Option.some.inj hanswer).symm.trans (Option.some.inj (Option.some.inj hdecided))
  | len path a ih =>
    rw [satisfiedByValue] at hdecided
    obtain ⟨y, hy, hdecided⟩ := reached_of_decided hdecided rfl
    obtain ⟨rfl, rfl⟩ := reach_scalar hy
    cases hdecided

theorem inhabits_literal {c : Constant} {base : Prim} {hbase : PRIMITIVE_LUA_TYPE base = some c.type}
    {x : Value ι} (h : Inhabits world (.literal c base hbase) x) :
    ∃ a : Constant, x = .scalar a ∧ a.equal c = true := by
  cases h with
  | literal hequal => exact ⟨_, rfl, hequal⟩

/-- What is decided of the length of a text is what the test of it answers. -/
theorem answer_of_length {n : Node} {target : Code} {s : Bytes} {b answer : Bool}
    (htarget : target.eval host v = some (.scalar (.string s))) (hspelled : Spelled host n)
    (hdecided : satisfiedByValue host n (.scalar (.number (.ofInt s.length))) = some (some b))
    (hanswer : (lengthTest n target (render n (.length target))).answer host v = some answer) :
    answer = b := by
  have hsize : (Code.length target).eval host v = some (.scalar (.number (.ofInt s.length))) := by
    rw [Code.eval, htarget]
    rfl
  cases n with
  | cmp cmp path literal c =>
    rw [satisfiedByValue] at hdecided
    obtain ⟨y, hy, hdecided⟩ := reached_of_decided hdecided rfl
    obtain ⟨-, rfl⟩ := reach_scalar hy
    rw [lengthTest, answer_of_compare hsize hspelled hdecided] at hanswer
    exact (Option.some.inj hanswer).symm
  | _ =>
    rw [lengthTest_of_not_cmp (by simp)] at hanswer
    exact answer_of_number hsize hspelled hdecided hanswer

/-- The fields of the value being of their types, and no type misjudged, the test of a refinement
answers what is decided of it. -/
theorem answer_of_satisfiedBy {n : Node} {b answer : Bool}
    (hfields : ∀ path ∈ paths n, ∀ t, fieldAt path = some t →
      ¬Misjudged world t ∧ ∃ x, (access .self path).eval host v = some x ∧ Inhabits world t x)
    (hspelled : Spelled host n) (hdecided : satisfiedBy host fieldAt n = some (some b))
    (hanswer : (render n .self).answer host v = some answer) : answer = b := by
  induction n generalizing b answer with
  | const value =>
    rw [render, answer_boolean] at hanswer
    cases hanswer
    cases hdecided
    rfl
  | not a ih =>
    rw [satisfiedBy] at hdecided
    obtain ⟨o, ho, hb⟩ := Option.map_eq_some_iff.mp hdecided
    obtain ⟨c, rfl, rfl⟩ := Option.map_eq_some_iff.mp hb
    rw [render, answer_not] at hanswer
    obtain ⟨d, hd, rfl⟩ := Option.map_eq_some_iff.mp hanswer
    rw [ih hfields hspelled ho hd]
  | junction op a b' iha ihb =>
    rw [satisfiedBy] at hdecided
    obtain ⟨l, hl, hdecided⟩ := Option.bind_eq_some_iff.mp hdecided
    obtain ⟨r, hr, hdecided⟩ := Option.bind_eq_some_iff.mp hdecided
    rw [render, answer_junction] at hanswer
    have ha := fun path hp => hfields path (List.mem_append_left _ hp)
    have hb := fun path hp => hfields path (List.mem_append_right _ hp)
    refine answer_of_junction (fun y c hy hc => iha ha hspelled.1 (by rw [hl, hc]) hy)
      (fun y c hy hc => ihb hb hspelled.2 (by rw [hr, hc]) hy) (Option.some.inj hdecided) hanswer
  | cmp cmp path literal c =>
    rw [satisfiedBy] at hdecided
    split at hdecided
    · next constant base hbase ht =>
      obtain ⟨-, x, hx, hin⟩ := hfields path (by simp [paths]) _ ht
      obtain ⟨a, rfl, hequal⟩ := inhabits_literal hin
      rw [← equal_of_equal hequal] at hdecided
      rw [Spelled] at hspelled
      cases cmp with
      | eq =>
        rw [render, if_pos (by rfl), answer_compare hx hspelled] at hanswer
        exact (Option.some.inj hanswer).symm.trans (Option.some.inj (Option.some.inj hdecided))
      | ne =>
        rw [render, if_pos (by rfl), answer_compare hx hspelled] at hanswer
        exact (Option.some.inj hanswer).symm.trans (Option.some.inj (Option.some.inj hdecided))
      | lt | le | gt | ge => cases hdecided
    · cases hdecided
  | typeis path t =>
    rw [satisfiedBy] at hdecided
    obtain ⟨declared, ht, hdecided⟩ := Option.bind_eq_some_iff.mp (Option.some.inj hdecided)
    obtain ⟨runtime, hruntime, rfl⟩ := Option.map_eq_some_iff.mp hdecided
    obtain ⟨hjudged, x, hx, hin⟩ := hfields path (by simp [paths]) _ ht
    rw [render, answer_typeEquals hx, type_of_inhabits hjudged hin hruntime] at hanswer
    exact (Option.some.inj hanswer).symm
  | truthy path =>
    rw [satisfiedBy] at hdecided
    obtain ⟨declared, ht, hdecided⟩ := Option.bind_eq_some_iff.mp (Option.some.inj hdecided)
    obtain ⟨hjudged, x, hx, hin⟩ := hfields path (by simp [paths]) _ ht
    rw [render, Code.answer, hx, Option.map_some, truth_of_inhabits hjudged hin hdecided] at hanswer
    exact (Option.some.inj hanswer).symm
  | integral path => cases hdecided
  | len path a ih =>
    rw [satisfiedBy] at hdecided
    split at hdecided
    · next s base hbase ht =>
      obtain ⟨-, x, hx, hin⟩ := hfields path (by simp [paths]) _ ht
      obtain ⟨c, rfl, hequal⟩ := inhabits_literal hin
      obtain rfl : c = .string s := by cases c <;> simp_all [Constant.equal]
      rw [render, answer_junction, answer_typeEquals hx] at hanswer
      rw [Spelled] at hspelled
      exact answer_of_length (n := a) hx hspelled hdecided (by simpa [Value.type, Constant.type] using hanswer)
    · cases hdecided

end Soundness

section Exact

/-- A chain of tables that leads along a path to a value. -/
def chain (path : List Name) (x : Value ℕ) : ℕ → Value ℕ := fun j =>
  if j < path.length then .object .table j else x

def chainHost (path : List Name) (x : Value ℕ) : Host ℕ where
  index
    | .object .table j, _ => some (chain path x (j + 1))
    | _, _ => none
  equal _ _ := none
  order _ _ _ _ := none
  remainder _ := none
  length _ := none
  source _ := none

theorem reach_chain (path : List Name) (x : Value ℕ) :
    ∀ (rest : List Name) (j : ℕ), j + rest.length = path.length →
      reach (chainHost path x) (chain path x j) rest = some (some x) := by
  intro rest
  induction rest with
  | nil =>
    intro j hj
    rw [reach, chain, if_neg (by simp at hj; omega)]
  | cons name rest ih =>
    intro j hj
    rw [List.length_cons] at hj
    have hchain : chain path x j = .object .table j := if_pos (by omega)
    rw [reach, hchain, if_pos (by rfl)]
    exact ih (j + 1) (by omega)

/-- Some value reads as `x` along a path. -/
theorem eval_chain (path : List Name) (x : Value ℕ) :
    (access .self path).eval (chainHost path x) (chain path x 0) = some x :=
  eval_access (reach_chain path x path 0 (by simp))

variable {world : Leaf → Value ℕ → Prop} {fieldAt : List Name → Option Ty}

/-- A type that is misjudged makes a test of its type, or of its truth, answer the other way. -/
theorem not_sound {path : List Name} {t : Ty} (ht : fieldAt path = some t) (h : Misjudged world t) :
    ¬Sound world fieldAt := by
  intro hsound
  cases t with
  | leaf t =>
    obtain ⟨hforeign, id, hin⟩ := h
    have hanswer : ∃ answer, t.luaTypeOf = some answer ∧ answer ≠ .cdata := by
      rcases t with ⟨tag⟩ | ⟨kind, _⟩ | _ | _ | _ | _ | _ | _ | _
      · cases tag <;> simp_all [Leaf.luaTypeOf, PRIMITIVE_LUA_TYPE, Leaf.foreign]
      · cases kind <;> simp_all [Leaf.luaTypeOf, Leaf.foreign]
      all_goals simp_all [Leaf.luaTypeOf, Leaf.foreign]
    obtain ⟨answer, hanswer, hne⟩ := hanswer
    have heval := eval_chain path (.object .cdata id)
    refine Bool.false_ne_true (hsound (chainHost path (.object .cdata id)) (chain path (.object .cdata id) 0)
      (.typeis path answer) true false trivial ?_ ?_ ?_)
    · intro path' hpath t' ht'
      obtain rfl := List.mem_singleton.mp hpath
      obtain rfl := Option.some.inj (ht.symm.trans ht')
      exact ⟨_, heval, hin⟩
    · simp [satisfiedBy, ht, luaTypeOf, hanswer]
    · rw [render, answer_typeEquals heval]
      exact congrArg some (decide_eq_false (Ne.symm hne))
  | wrapped wrapper inner =>
    obtain ⟨x, hin, hfalse⟩ := h
    have heval := eval_chain path x
    refine Bool.false_ne_true (hsound (chainHost path x) (chain path x 0) (.truthy path) true false trivial ?_ ?_ ?_)
    · intro path' hpath t' ht'
      obtain rfl := List.mem_singleton.mp hpath
      obtain rfl := Option.some.inj (ht.symm.trans ht')
      exact ⟨_, heval, .wrapped hin⟩
    · simp [satisfiedBy, ht, truthinessOf]
    · rw [render, Code.answer, heval, Option.map_some, hfalse]
  | literal c base hbase => exact h
  | union members => exact h

/-- The path of a field `text`. -/
def textPath : List Name := [⟨ascii "text", by decide +kernel, by decide +kernel⟩]

/-- A field `text` declared `cstring`. -/
def textField (path : List Name) : Option Ty := if path = textPath then some (.leaf (.prim .cstring)) else none

end Exact

end Nupp.predicate
