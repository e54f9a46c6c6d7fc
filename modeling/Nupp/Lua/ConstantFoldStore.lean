import Nupp.Lua.ConstantFoldMeaning

/-! What one operation on the state does to known values: nothing. -/

namespace Nupp.ConstantFold

open Runs

variable {writes : List Key} {s t : State} {Γ : Ctx} {env : Env}

theorem Inv.mono (h : Inv writes s) (hg : Grows writes s t) (hc : t.closures = s.closures) :
    Inv writes t := by
  intro c hmem
  rw [hc] at hmem
  obtain ⟨Γ, hs, hgood⟩ := h c hmem
  exact ⟨Γ, hs.mono hg, hgood⟩

/-! Variables. -/

theorem getElem?_append_of_some {α : Type} {xs : List α} {i : ℕ} {x : α} (ys : List α)
    (h : xs[i]? = some x) : (xs ++ ys)[i]? = some x := by
  rw [List.getElem?_append_left (List.getElem?_eq_some_iff.mp h).1]
  exact h

theorem alloc_spec (h : Inv writes s) {token : Name} {v : Value} {l : ℕ}
    (he : alloc token v s = .ok l t) :
    Next writes s t ∧ t.cells[l]? = some ⟨token, v⟩ ∧ l = s.cells.length := by
  cases he
  have hgrows : Grows writes s { s with cells := s.cells ++ [⟨token, v⟩] } :=
    ⟨fun l c hc => ⟨c.value, getElem?_append_of_some _ hc, fun _ => rfl⟩, .refl _⟩
  exact ⟨⟨h.mono hgrows rfl, hgrows⟩, by simp, rfl⟩

theorem readName_state {token : Name} {v : Value} (he : readName env token s = .ok v t) : t = s := by
  unfold readName at he
  split at he <;> cases he <;> rfl

theorem writeName_spec (h : Inv writes s) (hs : Scoped writes s Γ env) {token : Name} {v : Value}
    (hw : ∀ b, visible Γ token.text = some b → Written writes b.token)
    (he : writeName env token v s = .ok () t) : Next writes s t := by
  have hlookup := hs.lookup token.text
  unfold writeName at he
  cases hv : visible Γ token.text with
  | none =>
    rw [hv] at hlookup
    simp only [hlookup] at he
    cases he
    have hgrows : Grows writes s { s with globals := Function.update s.globals token.text v } :=
      ⟨fun l c hc => ⟨c.value, hc, fun _ => rfl⟩, .refl _⟩
    exact ⟨h.mono hgrows rfl, hgrows⟩
  | some b =>
    rw [hv] at hlookup
    obtain ⟨l, hl, -, old, hold, -⟩ := hlookup
    simp only [hl] at he
    cases he
    have hgrows : Grows writes s { s with cells := s.cells.modify l fun c => { c with value := v } } := by
      refine ⟨fun l' c hc => ?_, .refl _⟩
      by_cases hll : l = l'
      · subst hll
        have hcb : c = ⟨b.token, old⟩ := Option.some.inj (hc.symm.trans hold)
        refine ⟨v, by simp [hc], fun hnot => ?_⟩
        rw [hcb] at hnot
        exact absurd (hw b hv) hnot
      · exact ⟨c.value, by simp [hll, hc], fun _ => rfl⟩
    exact ⟨h.mono hgrows rfl, hgrows⟩

/-! Tables. -/

theorem newTable_spec (h : Inv writes s) {r : ℕ} (he : newTable s = .ok r t) :
    Next writes s t ∧ ∃ table, t.tables[r]? = some table := by
  cases he
  have hgrows : Grows writes s { s with tables := s.tables ++ [⟨fun _ => .nil, fun _ => false, 0⟩] } :=
    ⟨fun l c hc => ⟨c.value, hc, fun _ => rfl⟩,
      fun r t ht => ⟨t, getElem?_append_of_some _ ht, fun _ hk => ⟨hk, rfl⟩⟩⟩
  exact ⟨⟨h.mono hgrows rfl, hgrows⟩, _, by simp; rfl⟩

theorem index_state {obj key v : Value} (he : index obj key s = .ok v t) : t = s := by
  unfold index at he
  split at he <;> cases he
  rfl

theorem Table.keeps_put {table : Table} {key : Value} (h : table.fixed key = false) (v : Value)
    (isConst : Bool) : table.Keeps (table.put key v isConst) := by
  intro key' hk
  have hne : key' ≠ key := by
    rintro rfl
    rw [h] at hk
    cases hk
  cases isConst <;> simp [Table.put, hne, hk]

theorem store_spec (h : Inv writes s) {obj key v : Value} {isConst : Bool}
    (he : store obj key v isConst s = .ok () t) :
    Next writes s t ∧ ∃ r table, obj = .table r ∧ t.tables[r]? = some table ∧
      (isConst = true → table.fixed key = true ∧ table.get key = v) := by
  unfold store at he
  split at he
  case h_2 => cases he
  case h_1 r =>
    split at he
    case h_2 => cases he
    case h_1 table htable =>
      split_ifs at he with hfixed
      cases he
      have hgrows : Grows writes s { s with tables := s.tables.set r (table.put key v isConst) } := by
        refine ⟨fun l c hc => ⟨c.value, hc, fun _ => rfl⟩, fun r' t' ht' => ?_⟩
        by_cases hr : r = r'
        · subst hr
          have htt : t' = table := Option.some.inj (ht'.symm.trans htable)
          subst htt
          refine ⟨t'.put key v isConst, ?_, Table.keeps_put (by simpa using hfixed) v isConst⟩
          simp [List.getElem?_set_self (List.getElem?_eq_some_iff.mp htable).1]
        · exact ⟨t', by simp [List.getElem?_set_ne hr, ht'], fun _ hk => ⟨hk, rfl⟩⟩
      refine ⟨⟨h.mono hgrows rfl, hgrows⟩, r, table.put key v isConst, rfl, ?_, ?_⟩
      · simp [List.getElem?_set_self (List.getElem?_eq_some_iff.mp htable).1]
      · rintro rfl
        simp [Table.put]

theorem storeList_spec {obj : Value} {n : ℕ} {vs : List Value} (h : Inv writes s)
    (he : storeList obj n vs s = .ok () t) : Next writes s t := by
  induction vs generalizing s n with
  | nil =>
    cases he
    exact .refl h
  | cons v vs ih =>
    unfold storeList at he
    rw [bind_apply] at he
    cases hstore : store obj (.scalar (.number (.finite n))) v false s with
    | stop e u =>
      rw [hstore] at he
      cases he
    | ok a u =>
      rw [hstore] at he
      obtain ⟨hnext, -⟩ := store_spec h hstore
      exact hnext.trans (ih hnext.inv he)

/-! Functions. -/

theorem newClosure_spec (h : Inv writes s) (hs : Scoped writes s Γ env) {params : List Name}
    {body : Block} (hgood : GoodBlock writes (paramScope params :: Γ) body) {v : Value}
    (he : newClosure params body env s = .ok v t) : Next writes s t := by
  cases he
  have hgrows : Grows writes s { s with closures := s.closures ++ [⟨params, body, env⟩] } :=
    ⟨fun l c hc => ⟨c.value, hc, fun _ => rfl⟩, .refl _⟩
  refine ⟨fun c hc => ?_, hgrows⟩
  rcases List.mem_append.mp hc with hc | hc
  · obtain ⟨Γ', hs', hgood'⟩ := h c hc
    exact ⟨Γ', hs'.mono hgrows, hgood'⟩
  · rw [List.mem_singleton.mp hc]
    exact ⟨Γ, hs.mono hgrows, hgood⟩

/-- The values a list of bindings is declared with are the known ones. -/
def Held (writes : List Key) (tables : List Table) : List Binding → List Value → Prop
  | [], _ => True
  | b :: bs, vs => (∀ k, b.known = some k → ¬ Written writes b.token ∧ Matches tables (first vs) k) ∧
    Held writes tables bs vs.tail

theorem Held.mono {tables tables' : List Table} (hg : TablesGrow tables tables') {bs : List Binding}
    {vs : List Value} (h : Held writes tables bs vs) : Held writes tables' bs vs := by
  induction bs generalizing vs with
  | nil => trivial
  | cons b bs ih =>
    refine ⟨fun k hk => ⟨(h.1 k hk).1, (h.1 k hk).2.mono hg⟩, ih h.2⟩

theorem declare_spec {bs : List Binding} {vs : List Value} (h : Inv writes s)
    (hs : Scoped writes s Γ env) (hheld : Held writes s.tables bs vs) {env' : Env}
    (he : declare env (bs.map Binding.token) vs s = .ok env' t) :
    Next writes s t ∧ List.Forall₂ (Bound writes t) (bs.reverse ++ Γ.flatten) env' := by
  suffices hgen : ∀ (bs done : List Binding) (vs : List Value) (env : Env) (s : State), Inv writes s →
      List.Forall₂ (Bound writes s) (done ++ Γ.flatten) env → Held writes s.tables bs vs →
      declare env (bs.map Binding.token) vs s = .ok env' t →
      Next writes s t ∧ List.Forall₂ (Bound writes t) (bs.reverse ++ (done ++ Γ.flatten)) env' by
    simpa using hgen bs [] vs env s h hs hheld he
  clear h hs hheld he
  intro bs
  induction bs with
  | nil =>
    intro done vs env s h hs _ he
    cases he
    exact ⟨.refl h, hs⟩
  | cons b bs ih =>
    intro done vs env s h hs hheld he
    rw [List.map_cons, declare, bind_apply] at he
    cases halloc : alloc b.token (first vs) s with
    | stop e u => cases halloc
    | ok l u =>
      rw [halloc] at he
      obtain ⟨hnext, hcell, -⟩ := alloc_spec h halloc
      have hbound : Bound writes u b (b.token.text, l) :=
        ⟨rfl, _, hcell, fun k hk => ⟨(hheld.1 k hk).1, (hheld.1 k hk).2.mono hnext.grows.tables⟩⟩
      have hscope : List.Forall₂ (Bound writes u) ((b :: done) ++ Γ.flatten) ((b.token.text, l) :: env) :=
        .cons hbound (hs.imp fun _ _ hb => hb.mono hnext.grows)
      obtain ⟨hnext', hscope'⟩ := ih (b :: done) vs.tail _ u hnext.inv hscope
        (hheld.2.mono hnext.grows.tables) he
      refine ⟨hnext.trans hnext', ?_⟩
      simpa using hscope'

theorem held_params (tables : List Table) (params : List Name) (vs : List Value) :
    Held writes tables (params.map fun p => ⟨p, none⟩) vs := by
  induction params generalizing vs with
  | nil => trivial
  | cons p params ih => exact ⟨nofun, ih _⟩

theorem declare_params {params : List Name} {vs : List Value} (h : Inv writes s)
    (hs : Scoped writes s Γ env) {env' : Env} (he : declare env params vs s = .ok env' t) :
    Next writes s t ∧ Scoped writes t (paramScope params :: Γ) env' := by
  have htokens : (params.map fun p => (⟨p, none⟩ : Binding)).map Binding.token = params := by
    rw [List.map_map]
    exact List.map_id _
  rw [← htokens] at he
  exact declare_spec h hs (held_params _ params vs) he

theorem assign_spec {targets : List Target} {vs : List Value} (h : Inv writes s)
    (hs : Scoped writes s Γ env)
    (hw : ∀ token, .name token ∈ targets → ∀ b, visible Γ token.text = some b → Written writes b.token)
    (he : assign env targets vs s = .ok () t) : Next writes s t := by
  induction targets generalizing s vs with
  | nil =>
    cases he
    exact .refl h
  | cons target targets ih =>
    have hrest := fun token hmem => hw token (List.mem_cons_of_mem _ hmem)
    cases target with
    | name token =>
      rw [assign, bind_apply] at he
      cases hwrite : writeName env token (first vs) s with
      | stop e u =>
        rw [hwrite] at he
        cases he
      | ok a u =>
        rw [hwrite] at he
        have hnext := writeName_spec h hs (hw token List.mem_cons_self) hwrite
        exact hnext.trans (ih hnext.inv (hs.mono hnext.grows) hrest he)
    | slot obj key =>
      rw [assign, bind_apply] at he
      cases hstore : store obj key (first vs) false s with
      | stop e u =>
        rw [hstore] at he
        cases he
      | ok a u =>
        rw [hstore] at he
        obtain ⟨hnext, -⟩ := store_spec h hstore
        exact hnext.trans (ih hnext.inv (hs.mono hnext.grows) hrest he)

/-! Operators leave the state alone. -/

theorem operand_state {α : Type} {v : Option α} {a : α} (he : operand v s = .ok a t) : t = s := by
  unfold operand at he
  split at he <;> cases he
  rfl

/-- A result of a sequence is one of its last part. -/
theorem bind_eq_ok {α β : Type} {m : Run α} {f : α → Run β} {b : β} (he : (m >>= f) s = .ok b t) :
    ∃ a u, m s = .ok a u ∧ f a u = .ok b t := by
  rw [bind_apply] at he
  cases hm : m s with
  | stop e u =>
    rw [hm] at he
    cases he
  | ok a u =>
    rw [hm] at he
    exact ⟨a, u, rfl, he⟩

theorem unary_state {world : World} {op : Unop} {v v' : Value} (he : unary world op v s = .ok v' t) :
    t = s := by
  unfold unary at he
  split at he
  case h_1 =>
    cases he
    rfl
  case h_2 =>
    obtain ⟨n, u, hn, he⟩ := bind_eq_ok he
    cases he
    exact operand_state hn
  case h_3 =>
    cases he
    rfl
  case h_4 r =>
    obtain ⟨u, v, hget, he⟩ := bind_eq_ok he
    cases hget
    cases hr : s.tables[r]? with
    | none =>
      rw [hr] at he
      cases he
    | some table =>
      rw [hr] at he
      cases he
      rfl
  case h_5 => cases he

theorem binary_state {world : World} {op : Binop} {a b v : Value} (he : binary world op a b s = .ok v t) :
    t = s := by
  unfold binary at he
  split at he
  case h_1 =>
    obtain ⟨x, u, hx, he⟩ := bind_eq_ok he
    obtain ⟨y, w, hy, he⟩ := bind_eq_ok he
    cases he
    exact (operand_state hy).trans (operand_state hx)
  case h_2 =>
    obtain ⟨x, u, hx, he⟩ := bind_eq_ok he
    obtain ⟨y, w, hy, he⟩ := bind_eq_ok he
    cases he
    exact (operand_state hy).trans (operand_state hx)
  case h_5 => split at he <;> cases he <;> rfl
  all_goals
    cases he
    rfl

end Nupp.ConstantFold
