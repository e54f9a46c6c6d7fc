import Nupp.Lua.ConstantFoldAgree
import Nupp.Lua.ConstantFoldTracks

/-! Constant folding keeps the meaning of a chunk whose const tables are not shadowed by
parameters, loop variables, local functions or inner const tables. -/

namespace Nupp.ConstantFold

open Runs

/-! Less knowledge folds to less. -/

theorem below_none (value : Option Known) : Below none value := nofun

theorem FoldedOk.of_below {v value : Option Known} (h : Below v value) : FoldedOk (folded v) value := by
  intro c hc
  obtain ⟨float, hv, rfl⟩ := h.of_code hc
  exact ⟨float, hv⟩

theorem Below.foldUnop {v value : Option Known} (h : Below v value) (op : Unop) :
    Below (v.bind (foldUnop op)) (value.bind (foldUnop op)) := by
  cases v with
  | none => exact below_none _
  | some k =>
    obtain ⟨k', rfl, hle⟩ := h k rfl
    cases k with
    | scalar c float =>
      rw [hle.scalar]
      exact fun j hj => ⟨j, hj, .refl j⟩
    | table fields =>
      obtain ⟨fields', rfl⟩ := hle.table
      cases op with
      | not => exact fun j hj => ⟨j, hj, .refl j⟩
      | minus => exact below_none _
      | length => exact below_none _

theorem foldBinop_table_left (op : Binop) (fields : KnownFields) (r : Known) :
    foldBinop op (.table fields) r = none := by
  cases op <;> rfl

theorem foldBinop_table_right (op : Binop) (c : Const) (float : Bool) (fields : KnownFields) :
    foldBinop op (.scalar c float) (.table fields) = none := by
  cases op with
  | arith op => cases c <;> rfl
  | concat => cases c <;> rfl
  | compare op => cases c <;> rfl
  | _ => rfl

/-- What the fold of an operator must satisfy where its operands are the given constants. -/
structure FoldFits (op : Binop) (fold : Directive × Bool × Option Known) (left right : Option Known) :
    Prop where
  folded : FoldedOk fold.1 (binopFold op left right).2.2
  selects : fold.1.right = true →
    ∃ c float, left = some (.scalar c float) ∧ takesRight op (.scalar c float) = some true
  below : Below fold.2.2 (binopFold op left right).2.2

theorem FoldFits.plain (op : Binop) (signless : Bool) (left right : Option Known) :
    FoldFits op (.plain, signless, none) left right :=
  ⟨nofun, nofun, below_none _⟩

theorem Below.binopFold {v w left right : Option Known} (hv : Below v left) (hw : Below w right)
    (op : Binop) : FoldFits op (binopFold op v w) left right := by
  cases v with
  | none => exact .plain op false left right
  | some l =>
    obtain ⟨l', rfl, hle⟩ := hv l rfl
    cases l with
    | table fields =>
      cases w with
      | none => exact .plain op _ _ _
      | some r =>
        simp only [ConstantFold.binopFold, Known.code, Option.bind_some, Option.bind_none,
          foldBinop_table_left]
        exact .plain op _ _ _
    | scalar c float =>
      rw [hle.scalar]
      cases htake : takesRight op (.scalar c float) with
      | none =>
        cases w with
        | none =>
          simp only [ConstantFold.binopFold, Known.code, Option.bind_some, htake]
          exact .plain op _ _ _
        | some r =>
          obtain ⟨r', rfl, hle'⟩ := hw r rfl
          cases r with
          | table fields =>
            simp only [ConstantFold.binopFold, Known.code, Option.bind_some, htake,
              foldBinop_table_right]
            exact .plain op _ _ _
          | scalar c' float' =>
            rw [hle'.scalar]
            refine ⟨?_, ?_, fun j hj => ⟨j, hj, .refl j⟩⟩
            · simp only [ConstantFold.binopFold, Known.code, Option.bind_some, htake]
              exact .of_below fun j hj => ⟨j, hj, .refl j⟩
            · simp only [ConstantFold.binopFold, Known.code, Option.bind_some, htake]
              rintro ⟨⟩
      | some take =>
        cases take with
        | false =>
          simp only [ConstantFold.binopFold, Known.code, Option.bind_some, htake]
          refine ⟨?_, by rintro ⟨⟩, ?_⟩
          · simp only [ConstantFold.binopFold, Known.code, Option.bind_some, htake]
            rintro _ ⟨⟩
            exact ⟨float, rfl⟩
          · simp only [ConstantFold.binopFold, Known.code, Option.bind_some, htake]
            exact fun j hj => ⟨j, hj, .refl j⟩
        | true =>
          cases hcode : w.bind Known.code with
          | none =>
            simp only [ConstantFold.binopFold, Known.code, Option.bind_some, htake, hcode, if_true]
            exact ⟨by rintro _ ⟨⟩, fun _ => ⟨c, float, rfl, htake⟩, below_none _⟩
          | some c' =>
            obtain ⟨float', rfl, rfl⟩ := hw.of_code hcode
            simp only [ConstantFold.binopFold, Known.code, Option.bind_some, htake, if_true]
            refine ⟨?_, fun _ => ⟨c, float, rfl, htake⟩, ?_⟩
            · simp only [ConstantFold.binopFold, Known.code, Option.bind_some, htake, if_true]
              rintro _ ⟨⟩
              exact ⟨float', rfl⟩
            · simp only [ConstantFold.binopFold, Known.code, Option.bind_some, htake, if_true]
              exact fun j hj => ⟨j, hj, .refl j⟩

theorem loopNone_of_below {a b c start stop step : Option Known} (ha : Below a start)
    (hb : Below b stop) (hc : Below c step) (h : loopNone a b c = true) :
    loopNone start stop step = true := by
  unfold loopNone at h
  split at h
  case h_2 => cases h
  case h_1 x fx y fy z fz =>
    obtain ⟨k, rfl, hk⟩ := ha _ rfl
    obtain ⟨k', rfl, hk'⟩ := hb _ rfl
    obtain ⟨k'', rfl, hk''⟩ := hc _ rfl
    rw [hk.scalar, hk'.scalar, hk''.scalar]
    exact h

/-! Fields. -/

theorem get?_insert (name : String) (v : Known) (fields : KnownFields) (n : String)
    (h : fields.get? name = none) :
    (fields.insert name v).get? n = if name = n then some v else fields.get? n := by
  rw [KnownFields.insert, h]
  rfl

theorem get?_insert_of_ne {name n : String} (v : Known) (fields : KnownFields) (h : name ≠ n) :
    (fields.insert name v).get? n = fields.get? n := by
  unfold KnownFields.insert
  split
  · rfl
  · simp only [KnownFields.get?]
    exact if_neg h

theorem get?_constFields {Γ : Ctx} {name : String} :
    ∀ {fields : Fields}, name ∉ fieldNames fields → (constFields Γ fields).get? name = none
  | .nil, _ => by
    simp only [constFields]
    rfl
  | .positional _ rest, h | .keyed _ _ rest, h => by
    simp only [fieldNames, constFields] at h ⊢
    exact get?_constFields h
  | .named isConst n e rest, h => by
    simp only [fieldNames, List.mem_cons, not_or] at h
    simp only [constFields]
    split
    · rw [get?_insert_of_ne _ _ (Ne.symm h.1)]
      exact get?_constFields h.2
    · exact get?_constFields h.2

theorem Known.Le.get?_none {fields fields' : KnownFields} {name : String}
    (h : (Known.table fields).Le (.table fields')) (hn : fields'.get? name = none) :
    fields.get? name = none := by
  cases hk : fields.get? name with
  | none => rfl
  | some k =>
    obtain ⟨k', hk', -⟩ := h [name] k (by simp [Known.project, hk])
    simp [Known.project, hn] at hk'

theorem Known.Le.insert_right {fields fields' : KnownFields} {name : String}
    (h : (Known.table fields).Le (.table fields')) (hn : fields'.get? name = none) (v : Known) :
    (Known.table fields).Le (.table (fields'.insert name v)) := by
  intro path j hj
  cases path with
  | nil =>
    cases hj
    exact ⟨_, rfl, trivial⟩
  | cons n path =>
    by_cases hname : name = n
    · subst hname
      simp [Known.project, h.get?_none hn] at hj
    · obtain ⟨j', hj', halike⟩ := h (n :: path) j hj
      refine ⟨j', ?_, halike⟩
      rw [Known.project, get?_insert_of_ne v fields' hname]
      exact hj'

theorem Known.Le.insert {fields fields' : KnownFields} {name : String} {v v' : Known}
    (h : (Known.table fields).Le (.table fields')) (hn : fields'.get? name = none) (hv : v.Le v') :
    (Known.table (fields.insert name v)).Le (.table (fields'.insert name v')) := by
  intro path j hj
  cases path with
  | nil =>
    cases hj
    exact ⟨_, rfl, trivial⟩
  | cons n path =>
    rw [Known.project] at hj ⊢
    by_cases hname : name = n
    · subst hname
      rw [get?_insert _ _ _ _ (h.get?_none hn), if_pos rfl] at hj
      rw [get?_insert _ _ _ _ hn, if_pos rfl]
      exact hv path j hj
    · rw [get?_insert_of_ne _ _ hname] at hj
      rw [get?_insert_of_ne _ _ hname]
      exact h (n :: path) j hj

theorem below_table (known fields : KnownFields) : known ≠ .nil →
    (Known.table known).Le (.table fields) →
    Below (some (.table known)) (match fields with
      | .nil => none
      | known => some (.table known)) := by
  rintro hne h _ ⟨⟩
  cases fields with
  | nil =>
    cases known with
    | nil => exact absurd rfl hne
    | cons name v rest =>
      have hnone : (KnownFields.cons name v rest).get? name = none := h.get?_none rfl
      simp [KnownFields.get?] at hnone
  | cons name v rest => exact ⟨_, rfl, h⟩

/-! The pass. -/

variable {writes : List Key}

theorem below_unop {Γ : Ctx} {v : Option Known} {d : Directive} {op : Unop} {e : Expr}
    (h : Below v (constValue Γ e))
    (hnot : op = .not → isConstructor e = true → constValue Γ e = none) :
    Below (v.bind (foldUnop op)) (constValue Γ (.unop d op e)) := by
  unfold constValue
  split_ifs with hc
  · cases v with
    | none => exact below_none _
    | some k =>
      obtain ⟨k', hk', hle⟩ := h k rfl
      cases k with
      | scalar c float =>
        rw [hle.scalar] at hk'
        rw [constValue_of_constructor hk'] at hc
        cases hc
      | table fields =>
        cases op with
        | not =>
          rw [hnot rfl hc] at hk'
          cases hk'
        | minus => exact below_none _
        | length => exact below_none _
  · exact h.foldUnop op

theorem Below.decided {v value : Option Known} (h : Below v value) {b : Bool}
    (hb : (v.bind fun k => k.code.map fun _ => truthy k) = some b) :
    ∃ c float, value = some (.scalar c float) ∧ truthy (.scalar c float) = b := by
  obtain ⟨k, rfl, hk⟩ := Option.bind_eq_some_iff.mp hb
  obtain ⟨c, hc, rfl⟩ := Option.map_eq_some_iff.mp hk
  cases k with
  | table fields => cases hc
  | scalar c' float =>
    obtain ⟨k', rfl, hle⟩ := h _ rfl
    rw [hle.scalar]
    exact ⟨c', float, rfl, rfl⟩

theorem Below.falsy {v value : Option Known} : Below v value → (match v with
      | some k => !truthy k
      | none => false) = true → ∃ k, value = some k ∧ truthy k = false := by
  intro h hb
  cases v with
  | none => cases hb
  | some k =>
    obtain ⟨k', rfl, hle⟩ := h k rfl
    refine ⟨k', rfl, ?_⟩
    cases k with
    | scalar c float =>
      rw [hle.scalar]
      simpa using hb
    | table fields => cases hb

theorem Below.name {scope : Scope} {Γ : Ctx} (h : Tracks scope Γ) {token : Name}
    (hr : Resolved Γ token) :
    Below ((lookupConstant scope (bindingKey token)).or (lookupPath scope [token.text]))
      (pathValue Γ [token.text]) := by
  intro k hk
  cases hc : lookupConstant scope (bindingKey token) with
  | some k' =>
    rw [hc] at hk
    cases hk
    exact h.constant hr k hc
  | none =>
    rw [hc] at hk
    exact h.pathValue hk

theorem Below.path {scope : Scope} {Γ : Ctx} (h : Tracks scope Γ) (e : Expr) :
    Below ((textPath e).bind (lookupPath scope)) ((textPath e).bind (pathValue Γ)) := by
  intro k hk
  obtain ⟨path, hpath, hk⟩ := Option.bind_eq_some_iff.mp hk
  obtain ⟨name, rest, rfl⟩ := textPath_cons hpath
  rw [hpath]
  exact h.pathValue hk

/-! Targets other than names. -/

theorem foldExpr_ne_name (scope : Scope) {e : Expr} (h : ∀ d t, e ≠ .name d t) (d : Directive)
    (t : Name) : (foldExpr writes scope e).1 ≠ .name d t := by
  cases e with
  | name d' t' => exact absurd rfl (h d' t')
  | binop _ _ _ _ =>
    simp only [foldExpr]
    split_ifs <;> rintro ⟨⟩
  | call _ _ _ =>
    simp only [foldExpr]
    split_ifs <;> rintro ⟨⟩
  | tableExpr _ _ =>
    simp only [foldExpr]
    split <;> rintro ⟨⟩
  | _ =>
    simp only [foldExpr]
    rintro ⟨⟩

theorem goodTargets_cons {Γ : Ctx} {e : Expr} {es : Exprs} (h : ∀ d t, e ≠ .name d t) :
    GoodTargets writes Γ (.cons e es) ↔ GoodExpr writes Γ e ∧ GoodTargets writes Γ es := by
  cases e with
  | name d t => exact absurd rfl (h d t)
  | _ => simp only [GoodTargets]

theorem writtenTargets_cons {e : Expr} (es : Exprs) (h : ∀ d t, e ≠ .name d t) :
    writtenTargets (.cons e es) = writtenExpr e ++ writtenTargets es := by
  cases e with
  | name d t => exact absurd rfl (h d t)
  | _ => simp only [writtenTargets]

/-- The scope after an assignment to a dotted path, or to no path. -/
def forgetTarget (frame : Frame) (e : Expr) : Frame :=
  match textPath e with
  | some path => bindPath frame path none
  | none => frame

theorem foldTargets_cons {e : Expr} (es : Exprs) (frame : Frame) (parents : Scope)
    (h : ∀ d t, e ≠ .name d t) : foldTargets writes frame parents (.cons e es) =
      (.cons (foldExpr writes (frame :: parents) e).1
        (foldTargets writes (forgetTarget frame e) parents es).1,
        (foldTargets writes (forgetTarget frame e) parents es).2) := by
  cases e with
  | name d t => exact absurd rfl (h d t)
  | _ =>
    simp only [foldTargets]
    rfl

theorem Tracks.forgetTarget {frame : Frame} {parents : Scope} {Γ : Ctx}
    (h : Tracks (frame :: parents) Γ) (e : Expr) :
    Tracks (forgetTarget frame e :: parents) Γ := by
  unfold ConstantFold.forgetTarget
  split
  · exact h.forgetPath _
  · exact h

mutual

theorem foldExpr_good : ∀ {e : Expr} {scope : Scope} {Γ : Ctx}, Tracks scope Γ →
    ExprOk writes true Γ e → writtenExpr e ⊆ writes →
    GoodExpr writes Γ (foldExpr writes scope e).1 ∧ Below (foldExpr writes scope e).2 (constValue Γ e)
  | .literal _ v, scope, Γ, ht, _, _ => by
    have hbelow : Below (literalValue v) (literalValue v) := fun j hj => ⟨j, hj, .refl j⟩
    simp only [foldExpr, GoodExpr, constValue]
    exact ⟨.of_below hbelow, hbelow⟩
  | .name _ token, scope, Γ, ht, h, _ => by
    simp only [ExprOk] at h
    simp only [foldExpr, GoodExpr, constValue]
    exact ⟨.of_below (ht.constant h.2), .name ht h.2⟩
  | .paren _ e, scope, Γ, ht, h, hw => by
    simp only [ExprOk, writtenExpr] at h hw
    obtain ⟨hgood, hbelow⟩ := foldExpr_good ht h.2 hw
    simp only [foldExpr, GoodExpr, constValue, constValue_foldExpr]
    exact ⟨⟨.of_below hbelow, hgood⟩, hbelow⟩
  | .unop d op e, scope, Γ, ht, h, hw => by
    simp only [ExprOk, writtenExpr] at h hw
    obtain ⟨hgood, hbelow⟩ := foldExpr_good ht h.2.1 hw
    have hfold := below_unop (d := d) hbelow (h.2.2 trivial)
    simp only [foldExpr, GoodExpr, constValue, constValue_foldExpr, isConstructor_foldExpr] at hfold ⊢
    exact ⟨⟨.of_below hfold, hgood⟩, hfold⟩
  | .binop _ op l r, scope, Γ, ht, h, hw => by
    simp only [ExprOk, writtenExpr, List.append_subset] at h hw
    obtain ⟨hgood, hbelow⟩ := foldExpr_good ht h.2.1 hw.1
    obtain ⟨hgood', hbelow'⟩ := foldExpr_good ht h.2.2 hw.2
    have hfits := hbelow.binopFold hbelow' op
    simp only [foldExpr]
    split_ifs
    · simp only [GoodExpr, constValue, constValue_unfold, constValue_foldExpr]
      exact ⟨⟨hfits.folded, hfits.selects, hgood.unfold, hgood'.unfold⟩, hfits.below⟩
    · simp only [GoodExpr, constValue, constValue_foldExpr]
      exact ⟨⟨hfits.folded, hfits.selects, hgood, hgood'⟩, hfits.below⟩
  | .call _ f args, scope, Γ, ht, h, hw => by
    simp only [ExprOk, writtenExpr, List.append_subset] at h hw
    obtain ⟨hgood, -⟩ := foldExpr_good ht h.2.1 hw.1
    obtain ⟨hgood', -⟩ := foldExprs_good ht h.2.2 hw.2
    simp only [foldExpr]
    split_ifs
    · simp only [GoodExpr]
      exact ⟨⟨rfl, hgood, .of_ok h.2.2 hw.2⟩, below_none _⟩
    · simp only [GoodExpr]
      exact ⟨⟨rfl, hgood, hgood'⟩, below_none _⟩
  | .dotIndex d obj name, scope, Γ, ht, h, hw => by
    simp only [ExprOk, writtenExpr] at h hw
    obtain ⟨hgood, -⟩ := foldExpr_good ht h.2 hw
    have hbelow := Below.path ht (.dotIndex d obj name)
    simp only [foldExpr, GoodExpr, constValue, textPath, textPath_foldExpr] at hbelow ⊢
    exact ⟨⟨.of_below hbelow, hgood⟩, hbelow⟩
  | .bracketIndex _ obj key, scope, Γ, ht, h, hw => by
    simp only [ExprOk, writtenExpr, List.append_subset] at h hw
    obtain ⟨hgood, -⟩ := foldExpr_good ht h.2.1 hw.1
    obtain ⟨hgood', -⟩ := foldExpr_good ht h.2.2 hw.2
    simp only [foldExpr, GoodExpr]
    exact ⟨⟨rfl, hgood, hgood'⟩, below_none _⟩
  | .tableExpr _ fields, scope, Γ, ht, h, hw => by
    simp only [ExprOk, writtenExpr] at h hw
    obtain ⟨hgood, hle⟩ := foldFields_good ht h.2 hw
    simp only [foldExpr, constValue]
    split
    case h_1 hnil =>
      simp only [GoodExpr]
      exact ⟨⟨rfl, hgood⟩, below_none _⟩
    case h_2 known hcons =>
      simp only [GoodExpr]
      exact ⟨⟨rfl, hgood⟩, below_table _ _ hcons hle⟩
  | .funcExpr _ params body, scope, Γ, ht, h, hw => by
    simp only [ExprOk, writtenExpr] at h hw
    obtain ⟨hgood, -⟩ := foldBlock_good (ht.params h.2.1) h.2.2 hw
    simp only [foldExpr, GoodExpr]
    exact ⟨⟨rfl, hgood⟩, below_none _⟩

theorem foldExprs_good : ∀ {es : Exprs} {scope : Scope} {Γ : Ctx}, Tracks scope Γ →
    ExprsOk writes true Γ es → writtenExprs es ⊆ writes →
    GoodExprs writes Γ (foldExprs writes scope es).1 ∧
      ValuesBelow (foldExprs writes scope es).2 (constValues Γ es)
  | .nil, _, _, _, _, _ => by
    simp only [foldExprs, GoodExprs, constValues]
    exact ⟨trivial, .nil⟩
  | .cons e es, scope, Γ, ht, h, hw => by
    simp only [ExprsOk, writtenExprs, List.append_subset] at h hw
    obtain ⟨hgood, hbelow⟩ := foldExpr_good ht h.1 hw.1
    obtain ⟨hgood', hbelow'⟩ := foldExprs_good ht h.2 hw.2
    simp only [foldExprs, GoodExprs, constValues]
    exact ⟨⟨hgood, hgood'⟩, .cons hbelow hbelow'⟩

theorem foldFields_good : ∀ {fields : Fields} {scope : Scope} {Γ : Ctx}, Tracks scope Γ →
    FieldsOk writes true Γ fields → writtenFields fields ⊆ writes →
    GoodFields writes Γ (foldFields writes scope fields).1 ∧
      (Known.table (foldFields writes scope fields).2).Le (.table (constFields Γ fields))
  | .nil, _, _, _, _, _ => by
    simp only [foldFields, GoodFields, constFields]
    exact ⟨trivial, .refl _⟩
  | .named isConst name e rest, scope, Γ, ht, h, hw => by
    simp only [FieldsOk, writtenFields, List.append_subset] at h hw
    obtain ⟨hgood, hbelow⟩ := foldExpr_good ht h.1 hw.1
    obtain ⟨hgood', hle⟩ := foldFields_good ht h.2.1 hw.2
    simp only [foldFields, constFields]
    split
    case h_1 v hv =>
      obtain ⟨v', hv', hvle⟩ := hbelow v hv
      simp only [GoodFields, hv']
      exact ⟨⟨hgood, hgood'⟩, hle.insert (get?_constFields (h.2.2 trivial rfl)) hvle⟩
    case h_2 hnone =>
      simp only [GoodFields]
      refine ⟨⟨hgood, hgood'⟩, ?_⟩
      split
      case h_1 v' hv' => exact hle.insert_right (get?_constFields (h.2.2 trivial rfl)) v'
      case h_2 => exact hle
  | .positional e rest, scope, Γ, ht, h, hw => by
    simp only [FieldsOk, writtenFields, List.append_subset] at h hw
    obtain ⟨hgood, -⟩ := foldExpr_good ht h.1 hw.1
    obtain ⟨hgood', hle⟩ := foldFields_good ht h.2 hw.2
    simp only [foldFields, GoodFields, constFields]
    exact ⟨⟨hgood, hgood'⟩, hle⟩
  | .keyed k e rest, scope, Γ, ht, h, hw => by
    simp only [FieldsOk, writtenFields, List.append_subset] at h hw
    obtain ⟨hkey, -⟩ := foldExpr_good ht h.1 hw.1.1
    obtain ⟨hgood, -⟩ := foldExpr_good ht h.2.1 hw.1.2
    obtain ⟨hgood', hle⟩ := foldFields_good ht h.2.2 hw.2
    simp only [foldFields, GoodFields, constFields]
    exact ⟨⟨hkey, hgood, hgood'⟩, hle⟩

theorem foldTargets_good : ∀ {es : Exprs} {frame : Frame} {parents : Scope} {Γ : Ctx},
    Tracks (frame :: parents) Γ → ExprsOk writes true Γ es → writtenTargets es ⊆ writes →
    GoodTargets writes Γ (foldTargets writes frame parents es).1 ∧
      Tracks ((foldTargets writes frame parents es).2 :: parents) Γ
  | .nil, _, _, _, ht, _, _ => by
    simp only [foldTargets, GoodTargets]
    exact ⟨trivial, ht⟩
  | .cons e es, frame, parents, Γ, ht, h, hw => by
    simp only [ExprsOk] at h
    by_cases hname : ∃ d token, e = .name d token
    · obtain ⟨d, token, rfl⟩ := hname
      simp only [ExprOk, writtenTargets, List.cons_subset] at h hw
      obtain ⟨hgood, htracks⟩ := foldTargets_good ((ht.forget token).forgetPath [token.text]) h.2 hw.2
      simp only [foldTargets, GoodTargets]
      exact ⟨⟨fun b hb => written_of_resolved h.1.2 hw.1 hb, hgood⟩, htracks⟩
    · have hne : ∀ d t, e ≠ .name d t := fun d t he => hname ⟨d, t, he⟩
      rw [writtenTargets_cons es hne, List.append_subset] at hw
      obtain ⟨hgood, -⟩ := foldExpr_good ht h.1 hw.1
      obtain ⟨hgood', htracks⟩ := foldTargets_good (ht.forgetTarget e) h.2 hw.2
      rw [foldTargets_cons es frame parents hne]
      exact ⟨(goodTargets_cons (foldExpr_ne_name _ hne)).mpr ⟨hgood, hgood'⟩, htracks⟩

theorem foldStatement_good : ∀ {s : Stmt} {frame : Frame} {parents : Scope} {Γ : Ctx},
    Tracks (frame :: parents) Γ → StmtOk writes true Γ s → writtenStmt s ⊆ writes →
    GoodStmt writes Γ (foldStatement writes frame parents s).1 ∧
      Tracks ((foldStatement writes frame parents s).2 :: parents) (after writes Γ s)
  | .localStmt isConst names exprs, frame, parents, Γ, ht, h, hw => by
    simp only [StmtOk, writtenStmt] at h hw
    obtain ⟨hgood, hbelow⟩ := foldExprs_good ht h.1 hw
    simp only [foldStatement, GoodStmt, after]
    exact ⟨⟨hgood, not_written_of_namesOk h.2⟩, ht.bindNames hbelow h.2⟩
  | .assignStmt targets exprs, frame, parents, Γ, ht, h, hw => by
    simp only [StmtOk, writtenStmt, List.append_subset] at h hw
    obtain ⟨hgood, htracks⟩ := foldTargets_good ht h.1 hw.1
    obtain ⟨hgood', -⟩ := foldExprs_good ht h.2 hw.2
    simp only [foldStatement, GoodStmt, after]
    exact ⟨⟨hgood, hgood'⟩, htracks⟩
  | .returnStmt exprs, frame, parents, Γ, ht, h, hw => by
    simp only [StmtOk, writtenStmt] at h hw
    obtain ⟨hgood, -⟩ := foldExprs_good ht h hw
    simp only [foldStatement, GoodStmt, after]
    exact ⟨hgood, ht⟩
  | .callStmt e, frame, parents, Γ, ht, h, hw => by
    simp only [StmtOk, writtenStmt] at h hw
    obtain ⟨hgood, -⟩ := foldExpr_good ht h hw
    simp only [foldStatement, GoodStmt, after]
    exact ⟨hgood, ht⟩
  | .ifStmt clauses otherwise, frame, parents, Γ, ht, h, hw => by
    simp only [StmtOk, writtenStmt, List.append_subset] at h hw
    have hgood := foldClauses_good ht h.1 hw.1
    obtain ⟨hgood', -⟩ := foldBlock_good ht.block h.2 hw.2
    simp only [foldStatement, GoodStmt, after]
    exact ⟨⟨hgood, hgood'⟩, ht⟩
  | .whileStmt skip cond body, frame, parents, Γ, ht, h, hw => by
    simp only [StmtOk, writtenStmt, List.append_subset] at h hw
    obtain ⟨hgood, hbelow⟩ := foldExpr_good ht h.2.1 hw.1
    obtain ⟨hgood', -⟩ := foldBlock_good ht.block h.2.2 hw.2
    simp only [foldStatement, GoodStmt, after, constValue_foldExpr]
    exact ⟨⟨Below.falsy hbelow, hgood, hgood'⟩, ht⟩
  | .repeatStmt body cond, frame, parents, Γ, ht, h, hw => by
    simp only [StmtOk, writtenStmt, List.append_subset] at h hw
    obtain ⟨hgood, htracks⟩ := foldBlock_good ht.block h.1 hw.1
    obtain ⟨hgood', -⟩ := foldExpr_good htracks h.2 hw.2
    simp only [foldStatement, GoodStmt, after, afterBlock_foldBlock]
    exact ⟨⟨hgood, hgood'⟩, ht⟩
  | .doStmt body, frame, parents, Γ, ht, h, hw => by
    simp only [StmtOk, writtenStmt] at h hw
    obtain ⟨hgood, -⟩ := foldBlock_good ht.block h hw
    simp only [foldStatement, GoodStmt, after]
    exact ⟨hgood, ht⟩
  | .fornumStmt skip var start stop step body, frame, parents, Γ, ht, h, hw => by
    simp only [StmtOk, writtenStmt, List.append_subset] at h hw
    obtain ⟨-, hstart, hstop, hstep, hparams, hbody⟩ := h
    obtain ⟨hgood₁, hbelow₁⟩ := foldExpr_good ht hstart hw.1.1.1
    obtain ⟨hgood₂, hbelow₂⟩ := foldExpr_good ht hstop hw.1.1.2
    obtain ⟨hgood₃, hbelow₃⟩ := foldExpr_good ht hstep hw.1.2
    obtain ⟨hgood', -⟩ := foldBlock_good (ht.params hparams) hbody hw.2
    simp only [foldStatement, GoodStmt, after, constValue_foldExpr]
    exact ⟨⟨loopNone_of_below hbelow₁ hbelow₂ hbelow₃, hgood₁, hgood₂, hgood₃, hgood'⟩, ht⟩
  | .forinStmt names exprs body, frame, parents, Γ, ht, h, hw => by
    simp only [StmtOk, writtenStmt, List.append_subset] at h hw
    obtain ⟨hgood, -⟩ := foldExprs_good ht h.1 hw.1
    obtain ⟨hgood', -⟩ := foldBlock_good (ht.params h.2.1) h.2.2 hw.2
    simp only [foldStatement, GoodStmt, after]
    exact ⟨⟨hgood, hgood'⟩, ht⟩
  | .localFuncStmt name params body, frame, parents, Γ, ht, h, hw => by
    simp only [StmtOk, writtenStmt] at h hw
    have htracks := ht.declare h.1 (h.2.1 trivial)
    obtain ⟨hgood, -⟩ := foldBlock_good (htracks.params h.2.2.1) h.2.2.2 hw
    simp only [foldStatement, GoodStmt, after]
    exact ⟨hgood, htracks⟩
  | .funcStmt name params body, frame, parents, Γ, ht, h, hw => by
    simp only [StmtOk, writtenStmt, List.cons_subset] at h hw
    obtain ⟨hgood, -⟩ := foldBlock_good (ht.params h.1) h.2 hw.2.2
    simp only [foldStatement, GoodStmt, after]
    exact ⟨⟨fun b hb => .inr (visible_text hb ▸ hw.2.1), hgood⟩, ht⟩

theorem foldClauses_good : ∀ {clauses : Clauses} {scope : Scope} {Γ : Ctx}, Tracks scope Γ →
    ClausesOk writes true Γ clauses → writtenClauses clauses ⊆ writes →
    GoodClauses writes Γ (foldClauses writes scope clauses)
  | .nil, _, _, _, _, _ => by
    simp only [foldClauses, GoodClauses]
  | .cons decided cond body rest, scope, Γ, ht, h, hw => by
    simp only [ClausesOk, writtenClauses, List.append_subset] at h hw
    obtain ⟨hgood, hbelow⟩ := foldExpr_good ht h.2.1 hw.1.1
    obtain ⟨hgood', -⟩ := foldBlock_good ht.block h.2.2.1 hw.1.2
    have hrest := foldClauses_good ht h.2.2.2 hw.2
    simp only [foldClauses, GoodClauses, constValue_foldExpr]
    exact ⟨fun b hb => hbelow.decided hb, hgood, hgood', hrest⟩

theorem foldBlock_good : ∀ {b : Block} {frame : Frame} {parents : Scope} {Γ : Ctx},
    Tracks (frame :: parents) Γ → BlockOk writes true Γ b → writtenBlock b ⊆ writes →
    GoodBlock writes Γ (foldBlock writes frame parents b).1 ∧
      Tracks ((foldBlock writes frame parents b).2 :: parents) (afterBlock writes Γ b)
  | .nil, _, _, _, ht, _, _ => by
    simp only [foldBlock, GoodBlock, afterBlock]
    exact ⟨trivial, ht⟩
  | .cons s rest, frame, parents, Γ, ht, h, hw => by
    simp only [BlockOk, writtenBlock, List.append_subset] at h hw
    obtain ⟨hgood, htracks⟩ := foldStatement_good ht h.1 hw.1
    obtain ⟨hgood', htracks'⟩ := foldBlock_good htracks h.2 hw.2
    simp only [foldBlock, GoodBlock, afterBlock, after_foldStatement]
    exact ⟨⟨hgood, hgood'⟩, htracks'⟩

end

def constTable : Name := ⟨"C", some 0, false⟩

def reader : Name := ⟨"f", some 1, false⟩

def numeral (n : ℚ) : Expr := .literal .plain (.number (.finite n))

/-- `const C = {const K = 1}; local function f(param) return use.K end; return f({K = 2})`. -/
def readerChunk (param use : Name) : Block :=
  .cons (.localStmt true [constTable] (.cons (.tableExpr .plain (.named true "K" (numeral 1) .nil)) .nil)) <|
  .cons (.localFuncStmt reader [param]
    (.cons (.returnStmt (.cons (.dotIndex .plain (.name .plain use) "K") .nil)) .nil)) <|
  .cons (.returnStmt (.cons (.call .plain (.name .plain reader)
    (.cons (.tableExpr .plain (.named false "K" (numeral 2) .nil)) .nil)) .nil)) .nil

def quietWorld : World := ⟨fun _ => .ok [], fun _ => [], fun _ => none⟩

def Outcome.values : Outcome State Stop (List Value) → Option (List Value)
  | .ok vs _ => some vs
  | .stop _ _ => none

theorem readerChunk_ok (apart : Bool) (param use : Name) (hparam : param.definition = some 2)
    (hapart : apart = true → param.text ≠ "C")
    (huse : use = param ∨ param.text ≠ "C" ∧ use = constTable) :
    BlockOk (writtenBlock (readerChunk param use)) apart [[]] (readerChunk param use) := by
  have hresolved : ∀ known, Resolved [paramScope [param], [⟨reader, none⟩, ⟨constTable, known⟩]] use := by
    intro known
    rcases huse with rfl | ⟨htext, rfl⟩
    · simp [Resolved, visible, paramScope]
    · simp [Resolved, visible, paramScope, htext, reader, constTable]
  have hparams : ∀ known, ParamsOk apart [[⟨reader, none⟩, ⟨constTable, known⟩]] [param] := by
    intro known
    refine ⟨?_, by simp, fun ha => ?_⟩
    · simp [Fresh, hparam, reader, constTable]
    · have htext := hapart ha
      simp only [List.mem_singleton, forall_eq]
      rintro ⟨b, fields, hb, hknown⟩
      by_cases hf : param.text = "f"
      · simp [visible, reader, hf] at hb
        subst hb
        cases hknown
      · simp [visible, reader, constTable, Ne.symm hf, Ne.symm htext] at hb
  simp only [readerChunk, BlockOk, StmtOk, after, pushNames, push, bindingOf]
  refine ⟨?_, ⟨?_, ?_, hparams _, ?_⟩, ?_, trivial⟩
  · simp [ExprsOk, ExprOk, FieldsOk, numeral, NamesOk, Fresh, constTable, Written, writtenBlock,
      writtenStmt, writtenExprs, writtenExpr, writtenFields, fieldNames, NamesTable, visible]
  · simp [Fresh, reader, constTable]
  · simp [NamesTable, visible, reader, constTable]
  · simp [ExprsOk, ExprOk, hresolved]
  · simp [ExprsOk, ExprOk, FieldsOk, numeral, Resolved, visible, reader]

end Nupp.ConstantFold
