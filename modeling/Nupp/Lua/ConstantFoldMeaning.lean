import Nupp.Lua.ConstantFoldEval
import Nupp.Lua.ConstantFoldScope

/-! Constants are what the program computes: the value found for an expression is the one
it evaluates to, in every state its scope describes. -/

namespace Nupp.ConstantFold

open Binary64 Runs

/-! Known values in a state. -/

mutual

/-- A value is the known one, as far as it is known. -/
def Matches (tables : List Table) (v : Value) : Known → Prop
  | .scalar c _ => v = .scalar c.scalar
  | .table fields => ∃ r t, v = .table r ∧ tables[r]? = some t ∧ FieldsMatch tables t fields

def FieldsMatch (tables : List Table) (t : Table) : KnownFields → Prop
  | .nil => True
  | .cons name k rest => t.fixed (fieldKey name) = true ∧ Matches tables (t.get (fieldKey name)) k ∧
    FieldsMatch tables t rest

end

/-- The const fields of a table stay. -/
def Table.Keeps (t t' : Table) : Prop :=
  ∀ key, t.fixed key = true → t'.fixed key = true ∧ t'.get key = t.get key

def TablesGrow (tables tables' : List Table) : Prop :=
  ∀ (r : ℕ) (t : Table), tables[r]? = some t → ∃ t', tables'[r]? = some t' ∧ t.Keeps t'

theorem TablesGrow.refl (tables : List Table) : TablesGrow tables tables :=
  fun _ t h => ⟨t, h, fun _ hk => ⟨hk, rfl⟩⟩

theorem TablesGrow.trans {a b c : List Table} (h : TablesGrow a b) (h' : TablesGrow b c) :
    TablesGrow a c := by
  intro r t ht
  obtain ⟨t₁, ht₁, hkeeps⟩ := h r t ht
  obtain ⟨t₂, ht₂, hkeeps'⟩ := h' r t₁ ht₁
  refine ⟨t₂, ht₂, fun key hk => ?_⟩
  obtain ⟨hfixed, hget⟩ := hkeeps key hk
  obtain ⟨hfixed', hget'⟩ := hkeeps' key hfixed
  exact ⟨hfixed', hget'.trans hget⟩

mutual

theorem Matches.mono {tables tables' : List Table} (h : TablesGrow tables tables') {v : Value} :
    ∀ {k : Known}, Matches tables v k → Matches tables' v k
  | .scalar _ _, hm => hm
  | .table _, ⟨r, t, hv, ht, hfields⟩ => by
    obtain ⟨t', ht', hkeeps⟩ := h r t ht
    exact ⟨r, t', hv, ht', hfields.mono h hkeeps⟩

theorem FieldsMatch.mono {tables tables' : List Table} (h : TablesGrow tables tables') {t t' : Table}
    (hk : t.Keeps t') : ∀ {fields : KnownFields}, FieldsMatch tables t fields →
    FieldsMatch tables' t' fields
  | .nil, _ => trivial
  | .cons name k rest, ⟨hfixed, hm, hrest⟩ => by
    obtain ⟨hfixed', hget⟩ := hk _ hfixed
    refine ⟨hfixed', ?_, hrest.mono h hk⟩
    rw [hget]
    exact hm.mono h

end

theorem FieldsMatch.get? {tables : List Table} {t : Table} {fields : KnownFields} {name : String}
    {k : Known} (h : FieldsMatch tables t fields) (hk : fields.get? name = some k) :
    Matches tables (t.get (fieldKey name)) k :=
  match fields, h with
  | .nil, _ => by cases hk
  | .cons n v rest, ⟨_, hm, hrest⟩ => by
    unfold KnownFields.get? at hk
    split_ifs at hk with hn
    · cases hk
      rw [← hn]
      exact hm
    · exact hrest.get? hk

theorem Matches.project {tables : List Table} {v : Value} {k k' : Known} {name : String} {path : Path}
    (h : Matches tables v k) (hp : k.project (name :: path) = some k') :
    ∃ r t f, v = .table r ∧ tables[r]? = some t ∧ Matches tables (t.get (fieldKey name)) f ∧
      f.project path = some k' := by
  cases k with
  | scalar c float => cases hp
  | table fields =>
    obtain ⟨r, t, hv, ht, hfields⟩ := h
    obtain ⟨f, hf, hp⟩ := Option.bind_eq_some_iff.mp hp
    exact ⟨r, t, f, hv, ht, hfields.get? hf, hp⟩

/-! Scopes in a state. -/

section

variable (writes : List Key)

/-- A variable holds what its binding is known to hold, and is then never assigned. -/
def Bound (s : State) (b : Binding) (x : String × ℕ) : Prop :=
  x.1 = b.token.text ∧ ∃ v, s.cells[x.2]? = some ⟨b.token, v⟩ ∧
    ∀ k, b.known = some k → ¬ Written writes b.token ∧ Matches s.tables v k

def Scoped (s : State) (Γ : Ctx) (env : Env) : Prop := List.Forall₂ (Bound writes s) Γ.flatten env

/-- What no step of a run undoes. -/
structure Grows (s t : State) : Prop where
  cells : ∀ (l : ℕ) (c : Cell), s.cells[l]? = some c →
    ∃ v, t.cells[l]? = some ⟨c.token, v⟩ ∧ (¬ Written writes c.token → v = c.value)
  tables : TablesGrow s.tables t.tables

/-- Every function made so far has right directives where it was made. -/
def Inv (s : State) : Prop :=
  ∀ c ∈ s.closures, ∃ Γ, Scoped writes s Γ c.env ∧ GoodBlock writes (paramScope c.params :: Γ) c.body

structure Next (s t : State) : Prop where
  inv : Inv writes t
  grows : Grows writes s t

end

variable {writes : List Key}

theorem Grows.refl (s : State) : Grows writes s s :=
  ⟨fun _ c h => ⟨c.value, h, fun _ => rfl⟩, .refl _⟩

theorem Grows.trans {s t u : State} (h : Grows writes s t) (h' : Grows writes t u) : Grows writes s u where
  cells l c hc := by
    obtain ⟨v, hv, hkeep⟩ := h.cells l c hc
    obtain ⟨v', hv', hkeep'⟩ := h'.cells l _ hv
    exact ⟨v', hv', fun hw => (hkeep' hw).trans (hkeep hw)⟩
  tables := h.tables.trans h'.tables

theorem Next.refl {s : State} (h : Inv writes s) : Next writes s s := ⟨h, .refl s⟩

theorem Next.trans {s t u : State} (h : Next writes s t) (h' : Next writes t u) : Next writes s u :=
  ⟨h'.inv, h.grows.trans h'.grows⟩

theorem Bound.mono {s t : State} (h : Grows writes s t) {b : Binding} {x : String × ℕ}
    (hb : Bound writes s b x) : Bound writes t b x := by
  obtain ⟨hx, v, hv, hknown⟩ := hb
  obtain ⟨v', hv', hkeep⟩ := h.cells x.2 _ hv
  refine ⟨hx, v', hv', fun k hk => ?_⟩
  obtain ⟨hw, hm⟩ := hknown k hk
  rw [hkeep hw]
  exact ⟨hw, hm.mono h.tables⟩

theorem Scoped.mono {s t : State} (h : Grows writes s t) {Γ : Ctx} {env : Env}
    (hs : Scoped writes s Γ env) : Scoped writes t Γ env :=
  hs.imp fun _ _ hb => hb.mono h

/-- A visible binding is found in the environment. -/
theorem Scoped.lookup {s : State} {Γ : Ctx} {env : Env} (h : Scoped writes s Γ env) (name : String) :
    match visible Γ name with
    | some b => ∃ l, env.lookup name = some l ∧ Bound writes s b (name, l)
    | none => env.lookup name = none := by
  unfold visible
  unfold Scoped at h
  generalize Γ.flatten = bs at h
  induction h with
  | nil => rfl
  | @cons b x bs env hb _ ih =>
    obtain ⟨y, l⟩ := x
    obtain ⟨hx, hrest⟩ := hb
    simp only at hx
    subst hx
    by_cases hn : b.token.text = name
    · subst hn
      rw [List.find?_cons_of_pos (by simp)]
      exact ⟨l, by simp, rfl, hrest⟩
    · rw [List.find?_cons_of_neg (by simpa using hn)]
      have hlookup : List.lookup name ((b.token.text, l) :: env) = List.lookup name env := by
        rw [List.lookup_cons, show (name == b.token.text) = false by
          simpa using fun he => hn he.symm]
      rw [hlookup]
      exact ih

theorem Scoped.pathValue {s : State} {Γ : Ctx} {env : Env} (h : Scoped writes s Γ env) {token : Name}
    {k : Known} (hk : pathValue Γ [token.text] = some k) :
    ∃ v, readName env token s = .ok v s ∧ Matches s.tables v k := by
  have hlookup := h.lookup token.text
  simp only [ConstantFold.pathValue, Known.project, Option.bind_eq_some_iff] at hk
  obtain ⟨_, ⟨b, hb, hknown⟩, ⟨⟩⟩ := hk
  rw [hb] at hlookup
  obtain ⟨l, hl, -, v, hv, hm⟩ := hlookup
  refine ⟨v, ?_, (hm k hknown).2⟩
  simp only at hv
  simp [readName, hl, hv]

/-! Operators. -/

theorem Exact.lt (n : Exact) : n.value.natAbs < 2 ^ 53 :=
  n.exact.trans_lt (by decide)

theorem intCast_of_abs_fl_le {n : ℤ} (h : |fl n| ≤ maxExactInteger) : fl n = n := by
  by_contra hne
  have hlarge : 2 ^ 53 ≤ n.natAbs := by
    by_contra hlt
    exact hne (fl_intCast (not_le.mp hlt))
  have hle := (le_abs_fl_intCast hlarge).trans h
  norm_num [maxExactInteger] at hle

/-- The arithmetic of exact integers stays among the integers, where it is exact. -/
theorem arithmetic_integral {op : Arith} {a b : Exact} {q : ℚ} (hop : op ≠ .div)
    (h : arithmetic op a.value b.value = some q) (hq : |q| ≤ maxExactInteger) : ∃ n : ℤ, q = n := by
  cases op with
  | add =>
    cases h
    rw [← Int.cast_add] at hq ⊢
    exact ⟨_, intCast_of_abs_fl_le hq⟩
  | sub =>
    cases h
    rw [← Int.cast_sub] at hq ⊢
    exact ⟨_, intCast_of_abs_fl_le hq⟩
  | mul =>
    cases h
    rw [← Int.cast_mul] at hq ⊢
    exact ⟨_, intCast_of_abs_fl_le hq⟩
  | div => exact absurd rfl hop
  | mod =>
    unfold arithmetic at h
    split_ifs at h with hb
    cases h
    have hb' : b.value ≠ 0 := by exact_mod_cast hb
    obtain ⟨m, -, hmod, -⟩ := luaMod_eq_sub a.lt b.lt hb'
    exact ⟨_, hmod⟩
  | floorDiv =>
    unfold arithmetic at h
    split_ifs at h
    cases h
    exact ⟨_, rfl⟩

theorem printed_intCast {n : ℤ} {m : Exact} (h : printed n = some m) : m.value = n := by
  unfold printed at h
  split_ifs at h
  cases h
  exact roundEven_intCast n

theorem abs_le_of_printed {q : ℚ} {m : Exact} (h : printed q = some m) : |q| ≤ maxExactInteger := by
  unfold printed at h
  split_ifs at h with hq
  exact hq

theorem foldArith_sound {op : Arith} {a b : Exact} {fa fb : Bool} {k : Known}
    (h : foldArith op a b fa fb = some k) :
    ∃ n float, k = .scalar (.number n) float ∧
      Number.arith op (.finite a.value) (.finite b.value) = .finite n.value := by
  unfold foldArith at h
  split_ifs at h with hop
  obtain ⟨q, hq, h⟩ := Option.bind_eq_some_iff.mp h
  obtain ⟨n, hn, rfl⟩ := Option.map_eq_some_iff.mp h
  refine ⟨n, _, rfl, ?_⟩
  have hdiv : op ≠ .div := by
    rintro rfl
    simp at hop
  obtain ⟨m, rfl⟩ := arithmetic_integral hdiv hq (abs_le_of_printed hn)
  rw [printed_intCast hn]
  simp [Number.arith, hq]

theorem truthy_scalar (c : Const) (float : Bool) :
    truthy (.scalar c float) = (Value.scalar c.scalar).truth := by
  cases c <;> rfl

theorem Matches.truth {tables : List Table} {v : Value} {k : Known} (h : Matches tables v k) :
    v.truth = truthy k := by
  cases k with
  | scalar c float =>
    rw [show v = .scalar c.scalar from h, truthy_scalar]
  | table fields =>
    obtain ⟨r, t, rfl, -⟩ := h
    rfl

theorem exactInteger_eq {n : ℤ} {m : Exact} (h : exactInteger n = some m) : m.value = n := by
  unfold exactInteger at h
  split_ifs at h
  cases h
  rfl

theorem foldUnop_sound (world : World) {op : Unop} {tables : List Table} {v : Value} {k k' : Known}
    (hv : Matches tables v k) (h : foldUnop op k = some k') (s : State) :
    ∃ c float, k' = .scalar c float ∧ unary world op v s = .ok (.scalar c.scalar) s := by
  cases op with
  | not =>
    cases h
    refine ⟨_, _, rfl, ?_⟩
    simp only [unary, hv.truth]
    rfl
  | minus =>
    match k, h with
    | .scalar (.number n) float, h =>
      simp only [foldUnop] at h
      split_ifs at h with hzero
      obtain ⟨m, hm, rfl⟩ := Option.map_eq_some_iff.mp h
      refine ⟨_, _, rfl, ?_⟩
      have hneg : fl (0 - (n.value : ℚ)) = m.value := by
        rw [zero_sub, ← Int.cast_neg, exactInteger_eq hm]
        exact fl_intCast (by simpa using n.lt)
      rw [show v = .scalar (.number (.finite n.value)) from hv]
      show Outcome.ok _ s = _
      simp only [Number.arith, arithmetic, hneg]
      rfl
  | length =>
    match k, h with
    | .scalar (.string b) float, h =>
      obtain ⟨m, hm, rfl⟩ := Option.map_eq_some_iff.mp h
      refine ⟨_, _, rfl, ?_⟩
      rw [show v = .scalar (.string b) from hv]
      have hlen : (m.value : ℚ) = b.length := by
        rw [exactInteger_eq hm]
        simp
      simp only [unary, Const.scalar, hlen]
      rfl

theorem constEq_sound {a b : Const} {r : Bool} (h : constEq a b = some r) :
    Value.equal (.scalar a.scalar) (.scalar b.scalar) = r := by
  cases a with
  | nil =>
    cases b <;> cases h <;> rfl
  | boolean x =>
    cases b with
    | boolean y =>
      cases h
      simp [Value.equal, Const.scalar]
    | nil =>
      cases h
      rfl
    | number _ => cases h
    | string _ => cases h
  | number x =>
    cases b with
    | number y =>
      cases h
      obtain ⟨x, hx⟩ := x
      obtain ⟨y, hy⟩ := y
      simp [Value.equal, Const.scalar]
    | nil =>
      cases h
      simp [Value.equal, Const.scalar]
    | boolean _ => cases h
    | string _ => cases h
  | string x =>
    cases b with
    | string y =>
      cases h
      simp [Value.equal, Const.scalar]
    | nil =>
      cases h
      simp [Value.equal, Const.scalar]
    | boolean _ => cases h
    | number _ => cases h

theorem compare_intCast (op : Compare) (a b : ℤ) :
    Number.compare op (.finite a) (.finite b) = op.holds a b := by
  have hle : ∀ x y : ℤ, Number.le (.finite x) (.finite y) = !decide (y < x) := by
    intro x y
    by_cases hlt : y < x
    · have hne : x ≠ y := by omega
      have hnot : ¬ x < y := by omega
      simp [Number.le, Number.lt, hlt, hne, hnot]
    · rcases lt_or_eq_of_le (not_lt.mp hlt) with h | h
      · simp [Number.le, Number.lt, h, hlt]
      · simp [Number.le, Number.lt, h]
  cases op with
  | lt => simp [Number.compare, Number.lt, Compare.holds]
  | le => exact hle a b
  | gt => simp [Number.compare, Number.lt, Compare.holds]
  | ge => exact hle b a

theorem foldBinop_sound (world : World) {op : Binop} {l r k : Known} (h : foldBinop op l r = some k) :
    ∃ a fa b fb c fc, l = .scalar a fa ∧ r = .scalar b fb ∧ k = .scalar c fc ∧
      (∀ v, goesRight op v = none) ∧
      ∀ s, binary world op (.scalar a.scalar) (.scalar b.scalar) s = .ok (.scalar c.scalar) s := by
  unfold foldBinop at h
  split at h
  case h_1 op a fa b fb =>
    obtain ⟨n, float, rfl, hn⟩ := foldArith_sound h
    refine ⟨_, _, _, _, _, _, rfl, rfl, rfl, fun _ => rfl, fun s => ?_⟩
    show Outcome.ok _ s = _
    rw [hn]
    rfl
  case h_2 =>
    cases h
    exact ⟨_, _, _, _, _, _, rfl, rfl, rfl, fun _ => rfl, fun _ => rfl⟩
  case h_3 =>
    obtain ⟨r, hr, rfl⟩ := Option.map_eq_some_iff.mp h
    refine ⟨_, _, _, _, _, _, rfl, rfl, rfl, fun _ => rfl, fun s => ?_⟩
    simp only [binary, constEq_sound hr]
    rfl
  case h_4 =>
    obtain ⟨r, hr, rfl⟩ := Option.map_eq_some_iff.mp h
    refine ⟨_, _, _, _, _, _, rfl, rfl, rfl, fun _ => rfl, fun s => ?_⟩
    simp only [binary, constEq_sound hr]
    rfl
  case h_5 op a fa b fb =>
    cases h
    refine ⟨_, _, _, _, _, _, rfl, rfl, rfl, fun _ => rfl, fun s => ?_⟩
    simp only [binary, Const.scalar, compare_intCast]
    rfl
  case h_6 =>
    cases h
    exact ⟨_, _, _, _, _, _, rfl, rfl, rfl, fun _ => rfl, fun _ => rfl⟩
  case h_7 => cases h

theorem takesRight_sound (op : Binop) (c : Const) (float : Bool) :
    goesRight op (.scalar c.scalar) = takesRight op (.scalar c float) := by
  cases op with
  | and => simp [goesRight, takesRight, truthy_scalar]
  | or => simp [goesRight, takesRight, truthy_scalar]
  | coalesce => cases c <;> simp [goesRight, takesRight, Value.nil, Const.scalar]
  | _ => rfl

theorem literalValue_sound {v : Scalar} {k : Known} (h : literalValue v = some k) :
    ∃ c float, k = .scalar c float ∧ v = c.scalar := by
  match v, h with
  | .nil, h => exact ⟨_, _, (Option.some.inj h).symm, rfl⟩
  | .boolean b, h => exact ⟨_, _, (Option.some.inj h).symm, rfl⟩
  | .string b, h => exact ⟨_, _, (Option.some.inj h).symm, rfl⟩
  | .number (.finite q), h =>
    simp only [literalValue] at h
    split_ifs at h with hq
    obtain ⟨n, hn, rfl⟩ := Option.map_eq_some_iff.mp h
    refine ⟨_, _, rfl, ?_⟩
    simp only [Const.scalar, exactInteger_eq hn]
    rw [← hq]

/-! Constant expressions. -/

@[simp] theorem first_cons (v : Value) (vs : List Value) : first (v :: vs) = v := rfl

theorem constValue_of_constructor {Γ : Ctx} {e : Expr} {c : Const} {float : Bool}
    (h : constValue Γ e = some (.scalar c float)) : isConstructor e = false := by
  match e, h with
  | .tableExpr _ fields, h =>
    unfold constValue at h
    split at h <;> cases h
  | .paren _ e, h =>
    unfold constValue at h
    exact constValue_of_constructor (e := e) h
  | .literal _ _, _ | .name _ _, _ | .unop _ _ _, _ | .binop _ _ _ _, _ | .call _ _ _, _
  | .dotIndex _ _ _, _ | .bracketIndex _ _ _, _ | .funcExpr _ _ _, _ => rfl

/-- The two ways an operator has a constant value. -/
theorem binopFold_eq_some {op : Binop} {left right : Option Known} {k : Known}
    (h : (binopFold op left right).2.2 = some k) :
    (∃ c float, left = some (.scalar c float) ∧ takesRight op (.scalar c float) = some false ∧
        k = .scalar c float) ∨
      (∃ c float c' float', left = some (.scalar c float) ∧
        takesRight op (.scalar c float) = some true ∧ right = some (.scalar c' float') ∧
        k = .scalar c' float') ∨
      ∃ l r, left = some l ∧ right = some r ∧ foldBinop op l r = some k := by
  unfold binopFold at h
  split at h
  case h_1 take htake =>
    obtain ⟨l, rfl, htake⟩ := Option.bind_eq_some_iff.mp htake
    cases l with
    | table fields => cases htake
    | scalar c float =>
      simp only at h
      split at h
      case h_2 => cases h
      case h_1 d hd =>
        simp only at h
        cases take with
        | false =>
          cases h
          exact .inl ⟨c, float, rfl, htake, rfl⟩
        | true =>
          simp only [if_true] at h hd
          subst h
          cases k with
          | table fields => cases hd
          | scalar c' float' => exact .inr (.inl ⟨c, float, c', float', rfl, htake, rfl, rfl⟩)
  case h_2 =>
    split at h
    case h_1 l r _ => exact .inr (.inr ⟨l, r, rfl, rfl, h⟩)
    case h_2 => cases h

section

variable {world : World} {apply : Value → List Value → Run (List Value)} {turns : ℕ} {s : State}
  {Γ : Ctx} {env : Env}

/-- A dotted name reads the constant at its path. -/
theorem eval_textPath (h : Scoped writes s Γ env) :
    ∀ {e : Expr} {path : Path} (rest : Path) {k : Known}, textPath e = some path →
      pathValue Γ (path ++ rest) = some k →
      ∃ v f, evalExpr world false apply turns env e s = .ok [v] s ∧ Matches s.tables v f ∧
        f.project rest = some k
  | .name d token, path, rest, k, hpath, hk => by
    cases hpath
    simp only [List.singleton_append, pathValue, Option.bind_eq_some_iff] at hk
    obtain ⟨f, hf, hk⟩ := hk
    have hroot : pathValue Γ [token.text] = some f := by
      simp only [pathValue, Known.project, Option.bind_eq_some_iff]
      exact ⟨f, hf, rfl⟩
    obtain ⟨v, hread, hm⟩ := h.pathValue hroot
    refine ⟨v, f, ?_, hm, hk⟩
    simp only [evalExpr, directed]
    rw [bind_of_ok hread]
    rfl
  | .dotIndex d obj name, path, rest, k, hpath, hk => by
    unfold textPath at hpath
    obtain ⟨base, hbase, rfl⟩ := Option.map_eq_some_iff.mp hpath
    rw [List.append_assoc, List.singleton_append] at hk
    obtain ⟨v, f, heval, hm, hp⟩ := eval_textPath h (name :: rest) hbase hk
    obtain ⟨r, t, f', rfl, ht, hm', hp'⟩ := hm.project hp
    refine ⟨_, f', ?_, hm', hp'⟩
    simp only [evalExpr, directed]
    rw [bind_of_ok heval]
    simp [bind_apply, index, ht]
  | .literal _ _, _, _, _, hpath, _ | .paren _ _, _, _, _, hpath, _ | .unop _ _ _, _, _, _, hpath, _
  | .binop _ _ _ _, _, _, _, hpath, _ | .call _ _ _, _, _, _, hpath, _
  | .bracketIndex _ _ _, _, _, _, hpath, _ | .tableExpr _ _, _, _, _, hpath, _
  | .funcExpr _ _ _, _, _, _, hpath, _ => by cases hpath

/-- Run as written, an expression with a constant value returns it and does nothing else,
unless it makes a table. -/
theorem eval_constValue (h : Scoped writes s Γ env) :
    ∀ {e : Expr} {k : Known}, isConstructor e = false → constValue Γ e = some k →
      ∃ v, evalExpr world false apply turns env e s = .ok [v] s ∧ Matches s.tables v k
  | .literal d v, k, _, hk => by
    obtain ⟨c, float, rfl, rfl⟩ := literalValue_sound (v := v) (by simpa [constValue] using hk)
    exact ⟨_, by simp [evalExpr, directed], rfl⟩
  | .name d token, k, _, hk => by
    unfold constValue at hk
    obtain ⟨v, hread, hm⟩ := h.pathValue hk
    refine ⟨v, ?_, hm⟩
    simp only [evalExpr, directed]
    rw [bind_of_ok hread]
    rfl
  | .paren d e, k, hc, hk => by
    unfold constValue at hk
    obtain ⟨v, heval, hm⟩ := eval_constValue h (e := e) (by simpa [isConstructor] using hc) hk
    refine ⟨v, ?_, hm⟩
    simp only [evalExpr, directed]
    rw [bind_of_ok heval]
    rfl
  | .unop d op e, k, _, hk => by
    unfold constValue at hk
    split_ifs at hk with hc
    obtain ⟨k₁, hk₁, hk⟩ := Option.bind_eq_some_iff.mp hk
    obtain ⟨v, heval, hm⟩ := eval_constValue h (e := e) (by simpa using hc) hk₁
    obtain ⟨c, float, rfl, hop⟩ := foldUnop_sound world hm hk s
    refine ⟨_, ?_, rfl⟩
    simp only [evalExpr, directed]
    rw [bind_of_ok heval, bind_of_ok (by simpa using hop)]
    rfl
  | .binop d op l r, k, _, hk => by
    unfold constValue at hk
    simp only [evalExpr, directed, Bool.false_and, Bool.false_eq_true, if_false]
    rcases binopFold_eq_some hk with ⟨c, float, hl, htake, rfl⟩ |
        ⟨c, float, c', float', hl, htake, hr, rfl⟩ | ⟨k₁, k₂, hl, hr, hop⟩
    · obtain ⟨v, heval, rfl⟩ := eval_constValue h (constValue_of_constructor hl) hl
      refine ⟨_, ?_, rfl⟩
      rw [bind_of_ok heval]
      simp [takesRight_sound op c float, htake]
    · obtain ⟨v, heval, rfl⟩ := eval_constValue h (constValue_of_constructor hl) hl
      obtain ⟨v', heval', hm⟩ := eval_constValue h (constValue_of_constructor hr) hr
      refine ⟨v', ?_, hm⟩
      rw [bind_of_ok heval]
      simp only [first_cons, takesRight_sound op c float, htake]
      rw [bind_of_ok heval']
      rfl
    · obtain ⟨a, fa, b, fb, c, fc, rfl, rfl, rfl, hgoes, hbin⟩ := foldBinop_sound world hop
      obtain ⟨v, heval, rfl⟩ := eval_constValue h (constValue_of_constructor hl) hl
      obtain ⟨v', heval', rfl⟩ := eval_constValue h (constValue_of_constructor hr) hr
      refine ⟨_, ?_, rfl⟩
      rw [bind_of_ok heval]
      simp only [first_cons, hgoes]
      rw [bind_of_ok heval']
      simp only [first_cons]
      rw [bind_of_ok (hbin s)]
      rfl
  | .dotIndex d obj name, k, _, hk => by
    unfold constValue at hk
    obtain ⟨path, hpath, hk⟩ := Option.bind_eq_some_iff.mp hk
    obtain ⟨v, f, heval, hm, hp⟩ := eval_textPath h [] hpath (by simpa using hk)
    cases hp
    exact ⟨v, heval, hm⟩
  | .call _ _ _, _, _, hk | .bracketIndex _ _ _, _, _, hk | .funcExpr _ _ _, _, _, hk => by
    simp [constValue] at hk
  | .tableExpr _ _, _, hc, _ => by
    cases hc

end

end Nupp.ConstantFold
