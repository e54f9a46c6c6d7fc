import Nupp.Lua.ConstantFoldStore

/-! A tree whose directives are right runs the same with and without them. -/

namespace Nupp.ConstantFold

open Runs

variable {writes : List Key} {world : World} {A A' : Value → List Value → Run (List Value)} {turns : ℕ}

section

variable (writes)

/-- What the values of an expression are, where they are known. -/
def Yields (s : State) (Γ : Ctx) (e : Expr) (vs : List Value) (t : State) : Prop :=
  Next writes s t ∧ ∀ k, constValue Γ e = some k → ∃ v, vs = [v] ∧ Matches t.tables v k

def ValuesMatch (tables : List Table) : List (Option Known) → List Value → Prop
  | [], _ => True
  | k :: ks, vs => (∀ k', k = some k' → Matches tables (first vs) k') ∧ ValuesMatch tables ks vs.tail

/-- Calls agree, whatever is called. -/
def CallsAgree (A A' : Value → List Value → Run (List Value)) : Prop :=
  ∀ f args s, Inv writes s → Agrees s (A f args) (A' f args) fun _ t => Next writes s t

end

theorem ValuesMatch.mono {tables tables' : List Table} (hg : TablesGrow tables tables')
    {ks : List (Option Known)} {vs : List Value} (h : ValuesMatch tables ks vs) :
    ValuesMatch tables' ks vs := by
  induction ks generalizing vs with
  | nil => trivial
  | cons k ks ih => exact ⟨fun k' hk => (h.1 k' hk).mono hg, ih h.2⟩

variable {s : State} {Γ : Ctx} {env : Env}

/-- An expression that makes no table: its directive is right when its value is. -/
theorem agrees_directed {e : Expr} {m m' : Run (List Value)} {d : Directive}
    (hon : evalExpr world true A turns env e = directed true d m)
    (hoff : evalExpr world false A' turns env e = directed false d m')
    (hfolded : FoldedOk d (constValue Γ e)) (hc : isConstructor e = false) (hs : Scoped writes s Γ env)
    (h : Agrees s m m' fun _ t => Next writes s t) :
    Agrees s (evalExpr world true A turns env e) (evalExpr world false A' turns env e)
      (Yields writes s Γ e) := by
  have hconst : ∀ k, constValue Γ e = some k → ∃ v, m' s = .ok [v] s ∧ Matches s.tables v k := by
    intro k hk
    obtain ⟨v, hv, hm⟩ := eval_constValue hs hc hk
    rw [hoff] at hv
    exact ⟨v, hv, hm⟩
  have hsame : ∀ vs t, m' s = .ok vs t → ∀ k, constValue Γ e = some k →
      ∃ v, vs = [v] ∧ Matches t.tables v k := by
    intro vs t he k hk
    obtain ⟨v, hv, hm⟩ := hconst k hk
    cases he.symm.trans hv
    exact ⟨v, rfl, hm⟩
  have hpost : ∀ vs t, m' s = .ok vs t → Yields writes s Γ e vs t :=
    fun vs t he => ⟨h.post vs t he, hsame vs t he⟩
  rw [hon, hoff]
  cases hd : d.folded with
  | none =>
    refine ⟨?_, hpost⟩
    simp only [directed, hd]
    exact h.same
  | some c =>
    obtain ⟨float, hk⟩ := hfolded c hd
    obtain ⟨v, hv, rfl⟩ := hconst _ hk
    refine ⟨?_, hpost⟩
    simp only [directed, hd]
    exact hv.symm

/-- Sequences keep what their parts keep. -/
theorem agrees_seq {α β : Type} {m m' : Run α} {f f' : α → Run β} {Q : α → State → Prop}
    {R : β → State → Prop} (h : Agrees s m m' fun a t => Next writes s t ∧ Q a t)
    (hf : ∀ a t, Next writes s t → Q a t → Agrees t (f a) (f' a) fun b u => Next writes t u ∧ R b u) :
    Agrees s (m >>= f) (m' >>= f') fun b u => Next writes s u ∧ R b u :=
  h.bind fun a t hat => (hf a t hat.1 hat.2).mono fun _ _ hb => ⟨hat.1.trans hb.1, hb.2⟩

/-- An operation without directives. -/
theorem agrees_step {α β : Type} {m : Run α} {f f' : α → Run β} {Q : α → State → Prop}
    {R : β → State → Prop} (h : ∀ a t, m s = .ok a t → Next writes s t ∧ Q a t)
    (hf : ∀ a t, Next writes s t → Q a t → Agrees t (f a) (f' a) fun b u => Next writes t u ∧ R b u) :
    Agrees s (m >>= f) (m >>= f') fun b u => Next writes s u ∧ R b u :=
  agrees_seq (.of_post h) hf

theorem agrees_pure {β : Type} {b : β} {R : β → State → Prop} (hi : Inv writes s) (h : R b s) :
    Agrees s (pure b : Run β) (pure b) fun b u => Next writes s u ∧ R b u :=
  .pure ⟨.refl hi, h⟩

/-- The last operation of a sequence, of which nothing more is to be said. -/
theorem agrees_last {β : Type} {m m' : Run β} (h : Agrees s m m' fun _ u => Next writes s u ∧ True) :
    Agrees s m m' fun _ u => Next writes s u :=
  h.mono fun _ _ hb => hb.1

theorem FieldsMatch.insert {tables : List Table} {t : Table} {name : String} {k : Known}
    {fields : KnownFields} (hfixed : t.fixed (fieldKey name) = true)
    (hm : Matches tables (t.get (fieldKey name)) k) (h : FieldsMatch tables t fields) :
    FieldsMatch tables t (fields.insert name k) := by
  unfold KnownFields.insert
  split
  · exact h
  · exact ⟨hfixed, hm, h⟩

theorem evalFields_positional {on : Bool} {r n : ℕ} {e : Expr} {rest : Fields} (h : rest ≠ .nil) :
    evalFields world on A turns env r n (.positional e rest) = (do
      let vs ← evalExpr world on A turns env e
      store (.table r) (.scalar (.number (.finite n))) (first vs) false
      evalFields world on A turns env r (n + 1) rest) := by
  cases rest with
  | nil => exact absurd rfl h
  | _ => simp only [evalFields]

/-! Declarations. -/

def bindingsOf (writes : List Key) (isConst : Bool) : List Name → List (Option Known) → List Binding
  | [], _ => []
  | token :: tokens, values =>
    bindingOf writes isConst token values.head?.join :: bindingsOf writes isConst tokens values.tail

theorem pushNames_flatten (isConst : Bool) (names : List Name) (values : List (Option Known)) (Γ : Ctx) :
    (pushNames writes isConst Γ names values).flatten =
      (bindingsOf writes isConst names values).reverse ++ Γ.flatten := by
  induction names generalizing values Γ with
  | nil => rfl
  | cons token names ih =>
    rw [pushNames, ih, push_flatten, bindingsOf, List.reverse_cons, List.append_assoc,
      List.singleton_append]

theorem bindingsOf_token (writes : List Key) (isConst : Bool) (names : List Name) (values : List (Option Known)) :
    (bindingsOf writes isConst names values).map Binding.token = names := by
  induction names generalizing values with
  | nil => rfl
  | cons token names ih => rw [bindingsOf, List.map_cons, ih]; rfl

theorem not_written_of_unchanged {token : Name} {value : Option Known}
    (h : unchangedScalar writes token value = true) : ¬ Written writes token := by
  simp only [unchangedScalar, Bool.and_eq_true, decide_eq_true_eq] at h
  rintro (hw | hw)
  · exact h.1.1.2 hw
  · exact h.1.2 hw

theorem held_bindingsOf {isConst : Bool} {names : List Name} {values : List (Option Known)}
    {tables : List Table} {vs : List Value} (h : ValuesMatch tables values vs)
    (hc : isConst = true → ∀ t ∈ names, ¬ Written writes t) :
    Held writes tables (bindingsOf writes isConst names values) vs := by
  induction names generalizing values vs with
  | nil => trivial
  | cons token names ih =>
    refine ⟨fun k hk => ?_, ih ?_ fun he t ht => hc he t (List.mem_cons_of_mem _ ht)⟩
    · simp only [bindingOf] at hk
      split_ifs at hk with hknown
      refine ⟨?_, ?_⟩
      · rcases Bool.or_eq_true_iff.mp hknown with he | he
        · exact hc he token List.mem_cons_self
        · exact not_written_of_unchanged he
      · cases values with
        | nil => cases hk
        | cons value values =>
          cases value with
          | none => cases hk
          | some k' =>
            cases hk
            exact h.1 k rfl
    · cases values with
      | nil => trivial
      | cons value values => exact h.2

/-! Loops. -/

theorem agrees_loop {β : Type} {step step' : β → Run (β ⊕ Flow)} (n : ℕ) (b : β) (hi : Inv writes s)
    (hstep : ∀ b t, Next writes s t → Agrees t (step b) (step' b) fun _ u => Next writes t u) :
    Agrees s (Prog.iterate .spent step n b) (Prog.iterate .spent step' n b)
      fun _ u => Next writes s u := by
  refine Agrees.iterate (I := fun _ t => Next writes s t) (fun b t ht => ?_) n b s (.refl hi)
  refine (hstep b t ht).mono fun r u hu => ?_
  cases r with
  | inl b => exact ht.trans hu
  | inr flow => exact ht.trans hu

/-- A loop whose first step is its last. -/
theorem iterate_of_done {β : Type} {step : β → Run (β ⊕ Flow)} {b : β} {flow : Flow} (n : ℕ)
    (h : step b s = .ok (.inr flow) s) : Prog.iterate .spent step (n + 1) b s = .ok flow s := by
  show Prog.bind (step b) _ s = _
  rw [Prog.bind, h]
  rfl

theorem loopNone_sound {x y z : Option Known} (h : loopNone x y z = true) :
    ∃ a fa b fb c fc, x = some (.scalar (.number a) fa) ∧ y = some (.scalar (.number b) fb) ∧
      z = some (.scalar (.number c) fc) ∧
      (if (Number.finite 0).lt (.finite c.value) then (Number.finite a.value).le (.finite b.value)
        else (Number.finite b.value).le (.finite a.value)) = false := by
  unfold loopNone at h
  split at h
  case h_2 => cases h
  case h_1 a fa b fb c fc =>
    refine ⟨a, fa, b, fb, c, fc, rfl, rfl, rfl, ?_⟩
    have hle : ∀ m n : ℤ, (Number.finite (m : ℚ)).le (.finite n) = decide (m ≤ n) := by
      intro m n
      have hcompare := compare_intCast .le m n
      simp only [Number.compare, Compare.holds] at hcompare
      rw [hcompare, ← decide_not]
      simp only [not_lt]
    have hlt : (Number.finite 0).lt (.finite (c.value : ℚ)) = decide (0 < c.value) := by
      simp [Number.lt]
    simp only [hle, hlt, Bool.and_eq_true, Bool.not_eq_true', Bool.or_eq_false_iff, decide_eq_true_eq,
      Bool.and_eq_false_iff, decide_eq_false_iff_not] at h ⊢
    obtain ⟨hzero, hup, hdown⟩ := h
    by_cases hpos : 0 < c.value
    · simpa [hpos] using hup.resolve_left (not_not.mpr hpos)
    · have hneg : c.value < 0 := by omega
      simpa [hpos] using hdown.resolve_left (not_not.mpr hneg)

/-- A local function is in scope in its own body. -/
theorem localFunc_spec (hi : Inv writes s) (hs : Scoped writes s Γ env) {name : Name}
    {params : List Name} {body : Block}
    (hg : GoodBlock writes (paramScope params :: push Γ ⟨name, none⟩) body) {r : Flow × Env} {t : State}
    (he : (do
      let f ← newClosure params body ((name.text, s.cells.length) :: env)
      let _ ← alloc name f
      pure (.normal, (name.text, s.cells.length) :: env) : Run (Flow × Env)) s = .ok r t) :
    Next writes s t ∧ Scoped writes t (push Γ ⟨name, none⟩) r.2 := by
  cases he
  have hgrows : Grows writes s
      { s with
        closures := s.closures ++ [⟨params, body, (name.text, s.cells.length) :: env⟩]
        cells := s.cells ++ [⟨name, .closure s.closures.length⟩] } :=
    ⟨fun l c hc => ⟨c.value, getElem?_append_of_some _ hc, fun _ => rfl⟩, .refl _⟩
  have hscope : Scoped writes
      { s with
        closures := s.closures ++ [⟨params, body, (name.text, s.cells.length) :: env⟩]
        cells := s.cells ++ [⟨name, .closure s.closures.length⟩] }
      (push Γ ⟨name, none⟩) ((name.text, s.cells.length) :: env) := by
    unfold Scoped
    rw [push_flatten]
    exact .cons ⟨rfl, .closure s.closures.length, by simp, nofun⟩ (hs.mono hgrows)
  refine ⟨⟨fun c hc => ?_, hgrows⟩, hscope⟩
  rcases List.mem_append.mp hc with hc | hc
  · obtain ⟨Γ', hs', hgood'⟩ := hi c hc
    exact ⟨Γ', hs'.mono hgrows, hgood'⟩
  · rw [List.mem_singleton.mp hc]
    exact ⟨_, hscope, hg⟩

mutual

theorem evalExpr_agrees (hA : CallsAgree writes A A') (e : Expr) {Γ : Ctx} {env : Env} {s : State}
    (hg : GoodExpr writes Γ e) (hs : Scoped writes s Γ env) (hi : Inv writes s) :
    Agrees s (evalExpr world true A turns env e) (evalExpr world false A' turns env e)
      (Yields writes s Γ e) :=
  match e, hg with
  | .literal d v, hg => by
    unfold GoodExpr at hg
    refine agrees_directed (by rw [evalExpr]) (by rw [evalExpr]) (by simpa only [constValue] using hg) rfl hs ?_
    exact .pure (.refl hi)
  | .name d token, hg => by
    unfold GoodExpr at hg
    refine agrees_directed (by rw [evalExpr]) (by rw [evalExpr]) (by simpa only [constValue] using hg) rfl hs
      (agrees_last (agrees_step (Q := fun _ _ => True) (fun v t he => ?_) fun v t hn _ => ?_))
    · rw [readName_state he]
      exact ⟨.refl hi, trivial⟩
    · exact agrees_pure hn.inv trivial
  | .paren d e, hg => by
    unfold GoodExpr at hg
    have ih := evalExpr_agrees hA e hg.2 hs hi
    by_cases hc : isConstructor e = true
    · have hfolded : d.folded = none := by
        cases hd : d.folded with
        | none => rfl
        | some c =>
          obtain ⟨float, hk⟩ := hg.1 c hd
          rw [constValue_of_constructor hk] at hc
          cases hc
      simp only [evalExpr, directed, hfolded]
      refine ih.bind fun vs t hvs => .pure ⟨hvs.1, fun k hk => ?_⟩
      obtain ⟨v, rfl, hm⟩ := hvs.2 k (by simpa only [constValue] using hk)
      exact ⟨v, rfl, hm⟩
    · refine agrees_directed (by rw [evalExpr]) (by rw [evalExpr]) (by simpa only [constValue] using hg.1)
        (by simpa [isConstructor] using hc) hs (ih.bind fun vs t hvs => .pure hvs.1)
  | .unop d op e, hg => by
    unfold GoodExpr at hg
    refine agrees_directed (by rw [evalExpr]) (by rw [evalExpr]) hg.1 rfl hs
      ((evalExpr_agrees hA e hg.2 hs hi).bind fun vs t hvs => ?_)
    refine Agrees.bind (.of_post (Q := fun _ u => u = t) fun v u he => unary_state he) fun v u hu => ?_
    subst hu
    exact .pure hvs.1
  | .binop d op l r, hg => by
    unfold GoodExpr at hg
    obtain ⟨hfolded, hright, hgl, hgr⟩ := hg
    have hl := evalExpr_agrees hA l hgl hs hi
    have hr : ∀ {t}, Next writes s t → Agrees t (evalExpr world true A turns env r)
        (evalExpr world false A' turns env r) (Yields writes t Γ r) :=
      fun hn => evalExpr_agrees hA r hgr (hs.mono hn.grows) hn.inv
    refine agrees_directed (by rw [evalExpr]) (by rw [evalExpr]) hfolded rfl hs ?_
    simp only [Bool.true_and, Bool.false_and, Bool.false_eq_true, if_false]
    split_ifs with hd
    · obtain ⟨c, float, hk, htake⟩ := hright hd
      obtain ⟨v, hv, rfl⟩ := eval_constValue hs (constValue_of_constructor hk) hk
      have hoff : (do
          let ls ← evalExpr world false A' turns env l
          match goesRight op (first ls) with
          | some false => pure [first ls]
          | some true => do
            let rs ← evalExpr world false A' turns env r
            pure [first rs]
          | none => do
            let rs ← evalExpr world false A' turns env r
            let v ← binary world op (first ls) (first rs)
            pure [v] : Run (List Value)) s =
          (do
            let rs ← evalExpr world false A' turns env r
            pure [first rs] : Run (List Value)) s := by
        rw [bind_of_ok hv]
        simp only [first_cons, takesRight_sound op c float, htake]
      have hagree : Agrees s (do
            let rs ← evalExpr world true A turns env r
            pure [first rs] : Run (List Value))
          (do
            let rs ← evalExpr world false A' turns env r
            pure [first rs] : Run (List Value)) fun _ t => Next writes s t :=
        (hr (.refl hi)).bind fun vs t hvs => .pure hvs.1
      refine ⟨hagree.same.trans hoff.symm, fun vs t he => hagree.post vs t (hoff.symm.trans he)⟩
    · refine hl.bind fun ls t hls => ?_
      split
      · exact .pure hls.1
      · exact (hr hls.1).bind fun rs u hrs => .pure (hls.1.trans hrs.1)
      · refine (hr hls.1).bind fun rs u hrs => ?_
        refine Agrees.bind (.of_post (Q := fun _ w => w = u) fun v w he => binary_state he) fun v w hw => ?_
        subst hw
        exact .pure (hls.1.trans hrs.1)
  | .call d f args, hg => by
    unfold GoodExpr at hg
    obtain ⟨hfolded, hgf, hgargs⟩ := hg
    refine agrees_directed (by rw [evalExpr]) (by rw [evalExpr]) (fun c hd => ?_) rfl hs ?_
    · rw [hfolded] at hd
      cases hd
    · refine (evalExpr_agrees hA f hgf hs hi).bind fun fs t hfs => ?_
      refine (evalExprs_agrees hA args hgargs (hs.mono hfs.1.grows) hfs.1.inv).bind fun vs u hvs => ?_
      exact (hA (first fs) vs u hvs.1.inv).mono fun _ _ hw => (hfs.1.trans hvs.1).trans hw
  | .dotIndex d obj name, hg => by
    unfold GoodExpr at hg
    refine agrees_directed (by rw [evalExpr]) (by rw [evalExpr]) hg.1 rfl hs
      ((evalExpr_agrees hA obj hg.2 hs hi).bind fun vs t hvs => ?_)
    refine Agrees.bind (.of_post (Q := fun _ u => u = t) fun v u he => index_state he) fun v u hu => ?_
    subst hu
    exact .pure hvs.1
  | .bracketIndex d obj key, hg => by
    unfold GoodExpr at hg
    obtain ⟨hfolded, hgobj, hgkey⟩ := hg
    refine agrees_directed (by rw [evalExpr]) (by rw [evalExpr]) (fun c hd => ?_) rfl hs ?_
    · rw [hfolded] at hd
      cases hd
    · refine (evalExpr_agrees hA obj hgobj hs hi).bind fun os t hos => ?_
      refine (evalExpr_agrees hA key hgkey (hs.mono hos.1.grows) hos.1.inv).bind fun ks u hks => ?_
      refine Agrees.bind (.of_post (Q := fun _ w => w = u) fun v w he => index_state he) fun v w hw => ?_
      subst hw
      exact .pure (hos.1.trans hks.1)
  | .tableExpr d fields, hg => by
    unfold GoodExpr at hg
    obtain ⟨hfolded, hgfields⟩ := hg
    simp only [evalExpr, directed, hfolded]
    refine Agrees.bind (.of_post fun r t he => newTable_spec hi he) fun r t hr => ?_
    obtain ⟨hn, table, htable⟩ := hr
    refine (evalFields_agrees hA fields hgfields (hs.mono hn.grows) hn.inv htable).bind fun _ u hu => ?_
    obtain ⟨hn', table', htable', hmatch⟩ := hu
    refine .pure ⟨hn.trans hn', fun k hk => ?_⟩
    unfold constValue at hk
    split at hk <;> cases hk
    exact ⟨_, rfl, r, table', rfl, htable', hmatch⟩
  | .funcExpr d params body, hg => by
    unfold GoodExpr at hg
    obtain ⟨hfolded, hgbody⟩ := hg
    refine agrees_directed (by rw [evalExpr]) (by rw [evalExpr]) (fun c hd => ?_) rfl hs ?_
    · rw [hfolded] at hd
      cases hd
    · exact Agrees.bind (.of_post fun v t he => newClosure_spec hi hs hgbody he) fun v t hn => .pure hn

theorem evalExprs_agrees (hA : CallsAgree writes A A') (es : Exprs) {Γ : Ctx} {env : Env} {s : State}
    (hg : GoodExprs writes Γ es) (hs : Scoped writes s Γ env) (hi : Inv writes s) :
    Agrees s (evalExprs world true A turns env es) (evalExprs world false A' turns env es)
      fun vs t => Next writes s t ∧ ValuesMatch t.tables (constValues Γ es) vs :=
  match es, hg with
  | .nil, _ => by
    simp only [evalExprs]
    exact .pure ⟨.refl hi, trivial⟩
  | .cons e .nil, hg => by
    unfold GoodExprs at hg
    simp only [evalExprs]
    refine (evalExpr_agrees hA e hg.1 hs hi).mono fun vs t hvs => ⟨hvs.1, fun k hk => ?_, trivial⟩
    obtain ⟨v, rfl, hm⟩ := hvs.2 k hk
    exact hm
  | .cons e (.cons e' es), hg => by
    unfold GoodExprs at hg
    simp only [evalExprs]
    refine (evalExpr_agrees hA e hg.1 hs hi).bind fun vs t hvs => ?_
    refine (evalExprs_agrees hA (.cons e' es) hg.2 (hs.mono hvs.1.grows) hvs.1.inv).bind
      fun rest u hrest => .pure ⟨hvs.1.trans hrest.1, fun k hk => ?_, hrest.2⟩
    obtain ⟨v, rfl, hm⟩ := hvs.2 k hk
    exact hm.mono hrest.1.grows.tables

theorem evalFields_agrees (hA : CallsAgree writes A A') (fields : Fields) {Γ : Ctx} {env : Env} {s : State}
    {r n : ℕ} {table : Table} (hg : GoodFields writes Γ fields) (hs : Scoped writes s Γ env)
    (hi : Inv writes s) (htable : s.tables[r]? = some table) :
    Agrees s (evalFields world true A turns env r n fields) (evalFields world false A' turns env r n fields)
      fun _ t => Next writes s t ∧ ∃ table, t.tables[r]? = some table ∧
        FieldsMatch t.tables table (constFields Γ fields) :=
  match fields, hg with
  | .nil, _ => by
    simp only [evalFields]
    exact .pure ⟨.refl hi, table, htable, trivial⟩
  | .named isConst name e rest, hg => by
    unfold GoodFields at hg
    simp only [evalFields]
    refine (evalExpr_agrees hA e hg.1 hs hi).bind fun vs t hvs => ?_
    refine Agrees.bind (.of_post fun _ u he => store_spec hvs.1.inv he) fun _ u hu => ?_
    obtain ⟨hn, r', table', hr, htable', hconst⟩ := hu
    cases hr
    have hn' := hvs.1.trans hn
    refine (evalFields_agrees hA rest hg.2 (hs.mono hn'.grows) hn.inv htable').mono fun _ w hw => ?_
    obtain ⟨hnw, table₁, htable₁, hmatch⟩ := hw
    refine ⟨hn'.trans hnw, table₁, htable₁, ?_⟩
    unfold constFields
    split
    case h_1 k hk =>
      obtain ⟨hfixed, hget⟩ := hconst rfl
      obtain ⟨table₂, htable₂, hkeeps⟩ := hnw.grows.tables r table' htable'
      have htt : table₂ = table₁ := Option.some.inj (htable₂.symm.trans htable₁)
      subst htt
      obtain ⟨hfixed', hget'⟩ := hkeeps _ hfixed
      obtain ⟨v, rfl, hm⟩ := hvs.2 k hk
      refine hmatch.insert hfixed' ?_
      rw [hget', hget]
      exact (hm.mono hn.grows.tables).mono hnw.grows.tables
    case h_2 => exact hmatch
  | .positional e rest, hg => by
    unfold GoodFields at hg
    by_cases hnil : rest = .nil
    · subst hnil
      simp only [evalFields]
      refine (evalExpr_agrees hA e hg.1 hs hi).bind fun vs t hvs => ?_
      refine .of_post fun _ u he => ?_
      have hn := hvs.1.trans (storeList_spec hvs.1.inv he)
      obtain ⟨table', htable', -⟩ := hn.grows.tables r table htable
      exact ⟨hn, table', htable', trivial⟩
    · rw [evalFields_positional hnil, evalFields_positional hnil]
      refine (evalExpr_agrees hA e hg.1 hs hi).bind fun vs t hvs => ?_
      refine Agrees.bind (.of_post fun _ u he => store_spec hvs.1.inv he) fun _ u hu => ?_
      obtain ⟨hn, r', table', hr, htable', -⟩ := hu
      cases hr
      have hn' := hvs.1.trans hn
      refine (evalFields_agrees hA rest hg.2 (hs.mono hn'.grows) hn.inv htable').mono fun _ w hw => ?_
      exact ⟨hn'.trans hw.1, by simpa only [constFields] using hw.2⟩
  | .keyed k e rest, hg => by
    unfold GoodFields at hg
    obtain ⟨hgk, hge, hgrest⟩ := hg
    simp only [evalFields]
    refine (evalExpr_agrees hA k hgk hs hi).bind fun ks t hks => ?_
    refine (evalExpr_agrees hA e hge (hs.mono hks.1.grows) hks.1.inv).bind fun vs u hvs => ?_
    refine Agrees.bind (.of_post fun _ w he => store_spec hvs.1.inv he) fun _ w hw => ?_
    obtain ⟨hn, r', table', hr, htable', -⟩ := hw
    cases hr
    have hn' := (hks.1.trans hvs.1).trans hn
    refine (evalFields_agrees hA rest hgrest (hs.mono hn'.grows) hn.inv htable').mono fun _ x hx => ?_
    exact ⟨hn'.trans hx.1, by simpa only [constFields] using hx.2⟩

theorem evalTargets_agrees (hA : CallsAgree writes A A') (es : Exprs) {Γ : Ctx} {env : Env} {s : State}
    (hg : GoodTargets writes Γ es) (hs : Scoped writes s Γ env) (hi : Inv writes s) :
    Agrees s (evalTargets world true A turns env es) (evalTargets world false A' turns env es)
      fun ts t => Next writes s t ∧
        ∀ token, .name token ∈ ts → ∀ b, visible Γ token.text = some b → Written writes b.token :=
  match es, hg with
  | .nil, _ => by
    simp only [evalTargets]
    exact .pure ⟨.refl hi, nofun⟩
  | .cons (.name d token) es, hg => by
    unfold GoodTargets at hg
    simp only [evalTargets]
    refine (evalTargets_agrees hA es hg.2 hs hi).bind fun ts t hts => .pure ⟨hts.1, fun token' hmem => ?_⟩
    rcases List.mem_cons.mp hmem with he | hmem
    · cases he
      exact hg.1
    · exact hts.2 token' hmem
  | .cons (.dotIndex d obj name) es, hg => by
    unfold GoodTargets GoodExpr at hg
    simp only [evalTargets]
    refine (evalExpr_agrees hA obj hg.1.2 hs hi).bind fun os t hos => ?_
    refine (evalTargets_agrees hA es hg.2 (hs.mono hos.1.grows) hos.1.inv).bind fun ts u hts =>
      .pure ⟨hos.1.trans hts.1, fun token hmem => ?_⟩
    exact hts.2 token ((List.mem_cons.mp hmem).resolve_left nofun)
  | .cons (.bracketIndex d obj key) es, hg => by
    unfold GoodTargets GoodExpr at hg
    obtain ⟨⟨-, hgobj, hgkey⟩, hges⟩ := hg
    simp only [evalTargets]
    refine (evalExpr_agrees hA obj hgobj hs hi).bind fun os t hos => ?_
    refine (evalExpr_agrees hA key hgkey (hs.mono hos.1.grows) hos.1.inv).bind fun ks u hks => ?_
    have hn := hos.1.trans hks.1
    refine (evalTargets_agrees hA es hges (hs.mono hn.grows) hn.inv).bind fun ts w hts =>
      .pure ⟨hn.trans hts.1, fun token hmem => ?_⟩
    exact hts.2 token ((List.mem_cons.mp hmem).resolve_left nofun)
  | .cons (.literal _ _) _, _ | .cons (.paren _ _) _, _ | .cons (.unop _ _ _) _, _
  | .cons (.binop _ _ _ _) _, _ | .cons (.call _ _ _) _, _ | .cons (.tableExpr _ _) _, _
  | .cons (.funcExpr _ _ _) _, _ => by
    simp only [evalTargets]
    exact .stop _

theorem evalStmt_agrees (hA : CallsAgree writes A A') (stat : Stmt) {Γ : Ctx} {env : Env} {s : State}
    (hg : GoodStmt writes Γ stat) (hs : Scoped writes s Γ env) (hi : Inv writes s) :
    Agrees s (evalStmt world true A turns env stat) (evalStmt world false A' turns env stat)
      fun r t => Next writes s t ∧ Scoped writes t (after writes Γ stat) r.2 :=
  match stat, hg with
  | .localStmt isConst names exprs, hg => by
    unfold GoodStmt at hg
    simp only [evalStmt]
    refine (evalExprs_agrees hA exprs hg.1 hs hi).bind fun vs t hvs => ?_
    have hheld := held_bindingsOf hvs.2 hg.2
    refine Agrees.bind (.of_post fun env' u he => ?_) fun env' u hu => .pure hu
    rw [← bindingsOf_token writes isConst names (constValues Γ exprs)] at he
    obtain ⟨hn, hscope⟩ := declare_spec hvs.1.inv (hs.mono hvs.1.grows) hheld he
    refine ⟨hvs.1.trans hn, ?_⟩
    rw [← pushNames_flatten] at hscope
    exact hscope
  | .assignStmt targets exprs, hg => by
    unfold GoodStmt at hg
    simp only [evalStmt]
    refine (evalTargets_agrees hA targets hg.1 hs hi).bind fun ts t hts => ?_
    refine (evalExprs_agrees hA exprs hg.2 (hs.mono hts.1.grows) hts.1.inv).bind fun vs u hvs => ?_
    have hn := hts.1.trans hvs.1
    refine Agrees.bind (.of_post fun _ w he => assign_spec hn.inv (hs.mono hn.grows) hts.2 he)
      fun _ w hw => .pure ⟨hn.trans hw, hs.mono (hn.trans hw).grows⟩
  | .returnStmt exprs, hg => by
    unfold GoodStmt at hg
    simp only [evalStmt]
    exact (evalExprs_agrees hA exprs hg hs hi).bind fun vs t hvs => .pure ⟨hvs.1, hs.mono hvs.1.grows⟩
  | .callStmt e, hg => by
    unfold GoodStmt at hg
    simp only [evalStmt]
    exact (evalExpr_agrees hA e hg hs hi).bind fun vs t hvs => .pure ⟨hvs.1, hs.mono hvs.1.grows⟩
  | .ifStmt clauses otherwise, hg => by
    unfold GoodStmt at hg
    simp only [evalStmt]
    refine (evalClauses_agrees hA clauses hg.1 hs hi).bind fun flow t hn => ?_
    cases flow with
    | some flow => exact .pure ⟨hn, hs.mono hn.grows⟩
    | none =>
      refine (evalBlock_agrees hA otherwise hg.2 (hs.mono hn.grows) hn.inv).bind fun r u hr => ?_
      exact .pure ⟨hn.trans hr.1, hs.mono (hn.trans hr.1).grows⟩
  | .whileStmt skip cond body, hg => by
    unfold GoodStmt at hg
    obtain ⟨hskip, hgcond, hgbody⟩ := hg
    simp only [evalStmt, Bool.true_and, Bool.false_and, Bool.false_eq_true, if_false]
    split_ifs with hsk
    · obtain ⟨k, hk, hfalse⟩ := hskip hsk
      have hscalar : isConstructor cond = false := by
        cases k with
        | scalar c float => exact constValue_of_constructor hk
        | table fields => cases hfalse
      obtain ⟨v, hv, hm⟩ := eval_constValue hs hscalar hk
      have hdone : Prog.iterate .spent (fun (_ : Unit) => do
          let vs ← evalExpr world false A' turns env cond
          if (first vs).truth then do
            let r ← evalBlock world false A' turns env body
            pure (r.1.next ())
          else pure (.inr .normal)) (turns + 1) () s = .ok Flow.normal s := by
        refine iterate_of_done turns ?_
        rw [bind_of_ok hv, first_cons, hm.truth, hfalse]
        rfl
      refine ⟨?_, fun r t he => ?_⟩
      · rw [bind_of_ok hdone]
      · rw [bind_of_ok hdone] at he
        cases he
        exact ⟨.refl hi, hs⟩
    · refine (agrees_loop (turns + 1) () hi fun _ t hn => ?_).bind fun flow u hu =>
        .pure ⟨hu, hs.mono hu.grows⟩
      refine (evalExpr_agrees hA cond hgcond (hs.mono hn.grows) hn.inv).bind fun vs u hvs => ?_
      split_ifs
      · refine (evalBlock_agrees hA body hgbody (hs.mono (hn.trans hvs.1).grows) hvs.1.inv).bind
          fun r w hr => .pure (hvs.1.trans hr.1)
      · exact .pure hvs.1
  | .repeatStmt body cond, hg => by
    unfold GoodStmt at hg
    simp only [evalStmt]
    refine (agrees_loop (turns + 1) () hi fun _ t hn => ?_).bind fun flow u hu =>
      .pure ⟨hu, hs.mono hu.grows⟩
    refine (evalBlock_agrees hA body hg.1 (hs.mono hn.grows) hn.inv).bind fun r u hr => ?_
    split
    · exact .pure hr.1
    · rename_i hnormal
      refine (evalExpr_agrees hA cond hg.2 (hr.2 hnormal) hr.1.inv).bind fun vs w hvs => ?_
      exact .pure (hr.1.trans hvs.1)
  | .doStmt body, hg => by
    unfold GoodStmt at hg
    simp only [evalStmt]
    exact (evalBlock_agrees hA body hg hs hi).bind fun r t hr => .pure ⟨hr.1, hs.mono hr.1.grows⟩
  | .fornumStmt skip var start stop step body, hg => by
    unfold GoodStmt at hg
    obtain ⟨hskip, hgstart, hgstop, hgstep, hgbody⟩ := hg
    simp only [evalStmt, Bool.true_and, Bool.false_and, Bool.false_eq_true, if_false]
    split_ifs with hsk
    · obtain ⟨a, fa, b, fb, c, fc, hka, hkb, hkc, hnone⟩ := loopNone_sound (hskip hsk)
      obtain ⟨va, hva, rfl⟩ := eval_constValue hs (constValue_of_constructor hka) hka
      obtain ⟨vb, hvb, rfl⟩ := eval_constValue hs (constValue_of_constructor hkb) hkb
      obtain ⟨vc, hvc, rfl⟩ := eval_constValue hs (constValue_of_constructor hkc) hkc
      have hdone : Prog.iterate .spent (fun i => do
          if (if (Number.finite 0).lt (.finite c.value) then i.le (.finite b.value)
              else (Number.finite b.value).le i) then do
            let inner ← declare env [var] [.scalar (.number i)]
            let r ← evalBlock world false A' turns inner body
            pure (r.1.next (Number.arith .add i (.finite c.value)))
          else pure (.inr .normal)) (turns + 1) (.finite a.value) s = .ok Flow.normal s := by
        refine iterate_of_done turns ?_
        simp only [hnone]
        rfl
      refine ⟨?_, fun r t he => ?_⟩
      · rw [bind_of_ok hva, bind_of_ok hvb, bind_of_ok hvc]
        simp only [first_cons, Const.scalar]
        rw [bind_of_ok hdone]
      · rw [bind_of_ok hva, bind_of_ok hvb, bind_of_ok hvc] at he
        simp only [first_cons, Const.scalar] at he
        rw [bind_of_ok hdone] at he
        cases he
        exact ⟨.refl hi, hs⟩
    · refine (evalExpr_agrees hA start hgstart hs hi).bind fun as t has => ?_
      refine (evalExpr_agrees hA stop hgstop (hs.mono has.1.grows) has.1.inv).bind fun bs u hbs => ?_
      have hn := has.1.trans hbs.1
      refine (evalExpr_agrees hA step hgstep (hs.mono hn.grows) hn.inv).bind fun cs w hcs => ?_
      have hn' := hn.trans hcs.1
      split
      · refine (agrees_loop (turns + 1) _ hn'.inv fun i x hx => ?_).bind fun flow y hy =>
          .pure ⟨hn'.trans hy, hs.mono (hn'.trans hy).grows⟩
        split_ifs
        all_goals first
          | exact .pure (.refl hx.inv)
          | refine Agrees.bind (.of_post fun inner y he => declare_params hx.inv
              (hs.mono (hn'.trans hx).grows) he) fun inner y hy => ?_
            exact (evalBlock_agrees hA body hgbody hy.2 hy.1.inv).bind fun r z hr =>
              .pure (hy.1.trans hr.1)
      · exact .stop _
  | .forinStmt names exprs body, hg => by
    unfold GoodStmt at hg
    simp only [evalStmt]
    refine (evalExprs_agrees hA exprs hg.1 hs hi).bind fun vs t hvs => ?_
    refine (agrees_loop (turns + 1) _ hvs.1.inv fun control u hn => ?_).bind fun flow w hw =>
      .pure ⟨hvs.1.trans hw, hs.mono (hvs.1.trans hw).grows⟩
    refine (hA _ _ u hn.inv).bind fun rs w hrs => ?_
    split_ifs
    · exact .pure hrs
    · refine Agrees.bind (.of_post fun inner x he => declare_params hrs.inv
        (hs.mono ((hvs.1.trans hn).trans hrs).grows) he) fun inner x hx => ?_
      exact (evalBlock_agrees hA body hg.2 hx.2 hx.1.inv).bind fun r y hr =>
        .pure ((hrs.trans hx.1).trans hr.1)
  | .localFuncStmt name params body, hg => by
    unfold GoodStmt at hg
    simp only [evalStmt]
    exact .of_post fun r t he => localFunc_spec hi hs hg he
  | .funcStmt name params body, hg => by
    unfold GoodStmt at hg
    simp only [evalStmt]
    refine Agrees.bind (.of_post fun v t he => newClosure_spec hi hs hg.2 he) fun v t hn => ?_
    exact Agrees.bind (.of_post fun _ u he => writeName_spec hn.inv (hs.mono hn.grows) hg.1 he)
      fun _ u hu => .pure ⟨hn.trans hu, hs.mono (hn.trans hu).grows⟩

theorem evalClauses_agrees (hA : CallsAgree writes A A') (clauses : Clauses) {Γ : Ctx} {env : Env}
    {s : State} (hg : GoodClauses writes Γ clauses) (hs : Scoped writes s Γ env) (hi : Inv writes s) :
    Agrees s (evalClauses world true A turns env clauses) (evalClauses world false A' turns env clauses)
      fun _ t => Next writes s t :=
  match clauses, hg with
  | .nil, _ => by
    simp only [evalClauses]
    exact .pure (.refl hi)
  | .cons decided cond body rest, hg => by
    unfold GoodClauses at hg
    obtain ⟨hdecided, hgcond, hgbody, hgrest⟩ := hg
    have hbody : ∀ {t}, Next writes s t → Agrees t (do
          let r ← evalBlock world true A turns env body
          pure (some r.1) : Run (Option Flow))
        (do
          let r ← evalBlock world false A' turns env body
          pure (some r.1) : Run (Option Flow)) fun _ u => Next writes t u := fun hn =>
      (evalBlock_agrees hA body hgbody (hs.mono hn.grows) hn.inv).bind fun r u hr => .pure hr.1
    cases decided with
    | none =>
      simp only [evalClauses]
      refine (evalExpr_agrees hA cond hgcond hs hi).bind fun vs t hvs => ?_
      split_ifs
      · exact (hbody hvs.1).mono fun _ _ hu => hvs.1.trans hu
      · exact (evalClauses_agrees hA rest hgrest (hs.mono hvs.1.grows) hvs.1.inv).mono
          fun _ _ hu => hvs.1.trans hu
    | some b =>
      obtain ⟨c, float, hk, htruth⟩ := hdecided b rfl
      obtain ⟨v, hv, hm⟩ := eval_constValue hs (constValue_of_constructor hk) hk
      have hoff : evalClauses world false A' turns env (.cons (some b) cond body rest) s =
          (if b then (do
            let r ← evalBlock world false A' turns env body
            pure (some r.1) : Run (Option Flow))
          else evalClauses world false A' turns env rest) s := by
        simp only [evalClauses]
        rw [bind_of_ok hv, first_cons, hm.truth, htruth]
      have hagree : Agrees s (evalClauses world true A turns env (.cons (some b) cond body rest))
          (if b then (do
            let r ← evalBlock world false A' turns env body
            pure (some r.1) : Run (Option Flow))
          else evalClauses world false A' turns env rest) fun _ t => Next writes s t := by
        cases b with
        | true =>
          simp only [evalClauses, if_true]
          exact hbody (.refl hi)
        | false =>
          simp only [evalClauses, Bool.false_eq_true, if_false]
          exact evalClauses_agrees hA rest hgrest hs hi
      exact ⟨hagree.same.trans hoff.symm, fun r t he => hagree.post r t (hoff.symm.trans he)⟩

theorem evalBlock_agrees (hA : CallsAgree writes A A') (b : Block) {Γ : Ctx} {env : Env} {s : State}
    (hg : GoodBlock writes Γ b) (hs : Scoped writes s Γ env) (hi : Inv writes s) :
    Agrees s (evalBlock world true A turns env b) (evalBlock world false A' turns env b)
      fun r t => Next writes s t ∧ (r.1 = .normal → Scoped writes t (afterBlock writes Γ b) r.2) :=
  match b, hg with
  | .nil, _ => by
    simp only [evalBlock]
    exact .pure ⟨.refl hi, fun _ => hs⟩
  | .cons stat rest, hg => by
    unfold GoodBlock at hg
    simp only [evalBlock]
    refine (evalStmt_agrees hA stat hg.1 hs hi).bind fun r t hr => ?_
    split
    · exact .pure ⟨hr.1, nofun⟩
    · refine (evalBlock_agrees hA rest hg.2 hr.2 hr.1.inv).mono fun r' u hr' => ?_
      exact ⟨hr.1.trans hr'.1, hr'.2⟩

end

/-- Calls agree, whatever the fuel. -/
theorem applyValue_agrees (fuel : ℕ) :
    CallsAgree writes (applyValue world true fuel) (applyValue world false fuel) := by
  induction fuel with
  | zero =>
    intro f args s _
    exact .stop _
  | succ fuel ih =>
    intro f args s hi
    refine Agrees.bind (.of_post (Q := fun a t => s = a ∧ s = t) fun a t he => ?_) ?_
    · cases he
      exact ⟨rfl, rfl⟩
    · rintro _ _ ⟨rfl, rfl⟩
      cases f with
      | scalar _ => exact .stop _
      | table _ => exact .stop _
      | closure r =>
        simp only
        cases hr : s.closures[r]? with
        | none => exact .stop _
        | some c =>
          obtain ⟨Γ, hs, hg⟩ := hi c (List.mem_of_getElem? hr)
          refine Agrees.bind (.of_post fun env t he => declare_params hi hs he) fun env t ht => ?_
          exact (evalBlock_agrees ih c.body hg ht.2 ht.1.inv).bind fun r u hu =>
            .pure (ht.1.trans hu.1)
      | builtin r =>
        have hgrows : Grows writes s { s with events := s.events ++ [⟨r, args⟩] } :=
          ⟨fun l c hc => ⟨c.value, hc, fun _ => rfl⟩, .refl _⟩
        refine Agrees.bind (.of_post (Q := fun _ t => Next writes s t) fun _ t he => ?_) fun _ t ht => ?_
        · cases he
          exact ⟨hi.mono hgrows rfl, hgrows⟩
        · split
          · exact .pure ht
          · exact .stop _

/-- A chunk with right directives runs as it is written. -/
theorem runChunk_agrees (fuel : ℕ) (globals : String → Value) {chunk : Block}
    (hg : GoodBlock writes [[]] chunk) :
    runChunk world true fuel globals chunk = runChunk world false fuel globals chunk := by
  have hinv : Inv writes ⟨[], [], [], globals, []⟩ := nofun
  have hscope : Scoped writes ⟨[], [], [], globals, []⟩ [[]] [] := .nil
  have hagree : Agrees ⟨[], [], [], globals, []⟩ (do
        let r ← evalBlock world true (applyValue world true fuel) fuel [] chunk
        pure r.1.values : Run (List Value))
      (do
        let r ← evalBlock world false (applyValue world false fuel) fuel [] chunk
        pure r.1.values : Run (List Value)) fun _ _ => True :=
    (evalBlock_agrees (applyValue_agrees fuel) chunk hg hscope hinv).bind fun _ _ _ => .pure trivial
  exact hagree.same

end Nupp.ConstantFold
