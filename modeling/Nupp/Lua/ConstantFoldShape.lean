import Nupp.Lua.ConstantFoldScope

/-! The folder changes directives only, and taking directives away keeps a tree right. -/

namespace Nupp.ConstantFold

variable {writes : List Key} {Γ : Ctx}

/-! Taking folds back. -/

theorem isConstructor_unfold : ∀ e : Expr, isConstructor (unfold e) = isConstructor e
  | .paren _ e => by
    simp only [unfold, isConstructor]
    exact isConstructor_unfold e
  | .literal _ _ | .name _ _ | .unop _ _ _ | .binop _ _ _ _ | .call _ _ _ | .dotIndex _ _ _
  | .bracketIndex _ _ _ | .tableExpr _ _ | .funcExpr _ _ _ => by
    simp only [unfold, isConstructor]

theorem textPath_unfold : ∀ e : Expr, textPath (unfold e) = textPath e
  | .dotIndex _ e _ => by
    simp only [unfold, textPath, textPath_unfold e]
  | .literal _ _ | .name _ _ | .paren _ _ | .unop _ _ _ | .binop _ _ _ _ | .call _ _ _
  | .bracketIndex _ _ _ | .tableExpr _ _ | .funcExpr _ _ _ => by
    simp only [unfold, textPath]

mutual

theorem constValue_unfold : ∀ e : Expr, constValue Γ (unfold e) = constValue Γ e
  | .paren _ e => by
    simp only [unfold, constValue, constValue_unfold e]
  | .unop _ op e => by
    simp only [unfold, constValue, isConstructor_unfold, constValue_unfold e]
  | .binop _ op l r => by
    simp only [unfold, constValue, constValue_unfold l, constValue_unfold r]
  | .dotIndex d e n => by
    simp only [unfold, constValue, textPath, textPath_unfold]
  | .tableExpr _ fields => by
    simp only [unfold, constValue, constFields_unfold fields]
  | .literal _ _ | .name _ _ | .call _ _ _ | .bracketIndex _ _ _ | .funcExpr _ _ _ => by
    simp only [unfold, constValue]

theorem constFields_unfold : ∀ fields : Fields, constFields Γ (unfoldFields fields) = constFields Γ fields
  | .nil => rfl
  | .named isConst name e rest => by
    simp only [unfoldFields, constFields, constValue_unfold e, constFields_unfold rest]
  | .positional _ rest => by
    simp only [unfoldFields, constFields, constFields_unfold rest]
  | .keyed _ _ rest => by
    simp only [unfoldFields, constFields, constFields_unfold rest]

end

theorem constValues_unfold : ∀ es : Exprs, constValues Γ (unfoldExprs es) = constValues Γ es
  | .nil => rfl
  | .cons e es => by
    simp only [unfoldExprs, constValues, constValue_unfold, constValues_unfold es]

theorem after_unfold (s : Stmt) : after writes Γ (unfoldStmt s) = after writes Γ s := by
  cases s with
  | localStmt isConst names exprs => simp only [unfoldStmt, after, constValues_unfold]
  | _ => simp only [unfoldStmt, after]

theorem afterBlock_unfold : ∀ (b : Block) (Γ : Ctx),
    afterBlock writes Γ (unfoldBlock b) = afterBlock writes Γ b
  | .nil, _ => rfl
  | .cons s b, Γ => by
    simp only [unfoldBlock, afterBlock, after_unfold]
    exact afterBlock_unfold b _

theorem foldedOk_plain (value : Option Known) : FoldedOk .plain value := nofun

mutual

theorem GoodExpr.unfold : ∀ {e : Expr} {Γ : Ctx}, GoodExpr writes Γ e → GoodExpr writes Γ (unfold e)
  | .literal _ _, _, _ => by
    simp only [ConstantFold.unfold, GoodExpr]
    exact foldedOk_plain _
  | .name _ _, _, _ => by
    simp only [ConstantFold.unfold, GoodExpr]
    exact foldedOk_plain _
  | .paren _ e, _, h => by
    simp only [ConstantFold.unfold, GoodExpr] at h ⊢
    exact ⟨foldedOk_plain _, h.2.unfold⟩
  | .unop _ _ e, _, h => by
    simp only [ConstantFold.unfold, GoodExpr] at h ⊢
    exact ⟨foldedOk_plain _, h.2.unfold⟩
  | .binop _ _ l r, _, h => by
    simp only [ConstantFold.unfold, GoodExpr] at h ⊢
    exact ⟨foldedOk_plain _, nofun, h.2.2.1.unfold, h.2.2.2.unfold⟩
  | .call _ f args, _, h => by
    simp only [ConstantFold.unfold, GoodExpr] at h ⊢
    exact ⟨rfl, h.2.1.unfold, h.2.2.unfold⟩
  | .dotIndex _ obj _, _, h => by
    simp only [ConstantFold.unfold, GoodExpr] at h ⊢
    exact ⟨foldedOk_plain _, h.2.unfold⟩
  | .bracketIndex _ obj key, _, h => by
    simp only [ConstantFold.unfold, GoodExpr] at h ⊢
    exact ⟨rfl, h.2.1.unfold, h.2.2.unfold⟩
  | .tableExpr _ fields, _, h => by
    simp only [ConstantFold.unfold, GoodExpr] at h ⊢
    exact ⟨rfl, h.2.unfold⟩
  | .funcExpr _ params body, _, h => by
    simp only [ConstantFold.unfold, GoodExpr] at h ⊢
    exact ⟨rfl, h.2.unfold⟩

theorem GoodExprs.unfold : ∀ {es : Exprs} {Γ : Ctx}, GoodExprs writes Γ es →
    GoodExprs writes Γ (unfoldExprs es)
  | .nil, _, _ => by
    simp only [unfoldExprs, GoodExprs]
  | .cons e es, _, h => by
    simp only [unfoldExprs, GoodExprs] at h ⊢
    exact ⟨h.1.unfold, h.2.unfold⟩

theorem GoodFields.unfold : ∀ {fields : Fields} {Γ : Ctx}, GoodFields writes Γ fields →
    GoodFields writes Γ (unfoldFields fields)
  | .nil, _, _ => by
    simp only [unfoldFields, GoodFields]
  | .named _ _ e rest, _, h => by
    simp only [unfoldFields, GoodFields] at h ⊢
    exact ⟨h.1.unfold, h.2.unfold⟩
  | .positional e rest, _, h => by
    simp only [unfoldFields, GoodFields] at h ⊢
    exact ⟨h.1.unfold, h.2.unfold⟩
  | .keyed k e rest, _, h => by
    simp only [unfoldFields, GoodFields] at h ⊢
    exact ⟨h.1.unfold, h.2.1.unfold, h.2.2.unfold⟩

theorem GoodTargets.unfold : ∀ {es : Exprs} {Γ : Ctx}, GoodTargets writes Γ es →
    GoodTargets writes Γ (unfoldExprs es)
  | .nil, _, _ => by
    simp only [unfoldExprs, GoodTargets]
  | .cons e es, Γ, h => by
    cases e with
    | name d t =>
      simp only [unfoldExprs, ConstantFold.unfold, GoodTargets] at h ⊢
      exact ⟨h.1, h.2.unfold⟩
    | _ =>
      simp only [unfoldExprs, ConstantFold.unfold, GoodTargets] at h ⊢
      have hunfold := h.1.unfold
      simp only [ConstantFold.unfold] at hunfold
      exact ⟨hunfold, h.2.unfold⟩

theorem GoodStmt.unfold : ∀ {s : Stmt} {Γ : Ctx}, GoodStmt writes Γ s → GoodStmt writes Γ (unfoldStmt s)
  | .localStmt _ _ exprs, _, h => by
    simp only [unfoldStmt, GoodStmt] at h ⊢
    exact ⟨h.1.unfold, h.2⟩
  | .assignStmt targets exprs, _, h => by
    simp only [unfoldStmt, GoodStmt] at h ⊢
    exact ⟨h.1.unfold, h.2.unfold⟩
  | .returnStmt exprs, _, h => by
    simp only [unfoldStmt, GoodStmt] at h ⊢
    exact h.unfold
  | .callStmt e, _, h => by
    simp only [unfoldStmt, GoodStmt] at h ⊢
    exact h.unfold
  | .ifStmt clauses otherwise, _, h => by
    simp only [unfoldStmt, GoodStmt] at h ⊢
    exact ⟨h.1.unfold, h.2.unfold⟩
  | .whileStmt skip cond body, _, h => by
    simp only [unfoldStmt, GoodStmt, constValue_unfold] at h ⊢
    exact ⟨h.1, h.2.1.unfold, h.2.2.unfold⟩
  | .repeatStmt body cond, _, h => by
    simp only [unfoldStmt, GoodStmt, afterBlock_unfold] at h ⊢
    exact ⟨h.1.unfold, h.2.unfold⟩
  | .doStmt body, _, h => by
    simp only [unfoldStmt, GoodStmt] at h ⊢
    exact h.unfold
  | .fornumStmt skip var start stop step body, _, h => by
    simp only [unfoldStmt, GoodStmt, constValue_unfold] at h ⊢
    exact ⟨h.1, h.2.1.unfold, h.2.2.1.unfold, h.2.2.2.1.unfold, h.2.2.2.2.unfold⟩
  | .forinStmt names exprs body, _, h => by
    simp only [unfoldStmt, GoodStmt] at h ⊢
    exact ⟨h.1.unfold, h.2.unfold⟩
  | .localFuncStmt name params body, _, h => by
    simp only [unfoldStmt, GoodStmt] at h ⊢
    exact h.unfold
  | .funcStmt name params body, _, h => by
    simp only [unfoldStmt, GoodStmt] at h ⊢
    exact ⟨h.1, h.2.unfold⟩

theorem GoodClauses.unfold : ∀ {clauses : Clauses} {Γ : Ctx}, GoodClauses writes Γ clauses →
    GoodClauses writes Γ (unfoldClauses clauses)
  | .nil, _, _ => by
    simp only [unfoldClauses, GoodClauses]
  | .cons decided cond body rest, _, h => by
    simp only [unfoldClauses, GoodClauses, constValue_unfold] at h ⊢
    exact ⟨h.1, h.2.1.unfold, h.2.2.1.unfold, h.2.2.2.unfold⟩

theorem GoodBlock.unfold : ∀ {b : Block} {Γ : Ctx}, GoodBlock writes Γ b →
    GoodBlock writes Γ (unfoldBlock b)
  | .nil, _, _ => by
    simp only [unfoldBlock, GoodBlock]
  | .cons s rest, _, h => by
    simp only [unfoldBlock, GoodBlock, after_unfold] at h ⊢
    exact ⟨h.1.unfold, h.2.unfold⟩

end

/-! Trees without directives. -/

theorem visible_text {name : String} {b : Binding} (h : visible Γ name = some b) :
    b.token.text = name := by
  simpa using List.find?_some h

/-- A name that is assigned is one whose binding counts as written. -/
theorem written_of_resolved {token : Name} (h : Resolved Γ token)
    (hw : bindingKey token ∈ writes) {b : Binding} (hb : visible Γ token.text = some b) :
    Written writes b.token := by
  unfold Resolved at h
  rw [hb] at h
  have hkey : bindingKey b.token = bindingKey token := by
    simp only [bindingKey, visible_text hb, ← h]
  exact .inl (hkey ▸ hw)

theorem not_written_of_namesOk {apart isConst : Bool} {names : List Name} {values : List (Option Known)}
    (h : NamesOk writes apart isConst Γ names values) (hc : isConst = true) :
    ∀ t ∈ names, ¬ Written writes t := by
  induction names generalizing values Γ with
  | nil => exact nofun
  | cons token names ih =>
    obtain ⟨-, hw, -, hrest⟩ := h
    intro t ht
    rcases List.mem_cons.mp ht with rfl | ht
    · exact hw hc
    · exact ih hrest t ht

variable {apart : Bool}

mutual

theorem GoodExpr.of_ok : ∀ {e : Expr} {Γ : Ctx}, ExprOk writes apart Γ e → writtenExpr e ⊆ writes →
    GoodExpr writes Γ e
  | .literal _ _, _, h, _ => by
    simp only [ExprOk, GoodExpr] at h ⊢
    exact h ▸ foldedOk_plain _
  | .name _ _, _, h, _ => by
    simp only [ExprOk, GoodExpr] at h ⊢
    exact h.1 ▸ foldedOk_plain _
  | .paren _ e, _, h, hw => by
    simp only [ExprOk, GoodExpr, writtenExpr] at h hw ⊢
    exact ⟨h.1 ▸ foldedOk_plain _, .of_ok h.2 hw⟩
  | .unop _ _ e, _, h, hw => by
    simp only [ExprOk, GoodExpr, writtenExpr] at h hw ⊢
    exact ⟨h.1 ▸ foldedOk_plain _, .of_ok h.2.1 hw⟩
  | .binop _ _ l r, _, h, hw => by
    simp only [ExprOk, GoodExpr, writtenExpr, List.append_subset] at h hw ⊢
    obtain ⟨rfl, hl, hr⟩ := h
    exact ⟨foldedOk_plain _, nofun, .of_ok hl hw.1, .of_ok hr hw.2⟩
  | .call _ f args, _, h, hw => by
    simp only [ExprOk, GoodExpr, writtenExpr, List.append_subset] at h hw ⊢
    obtain ⟨rfl, hf, hargs⟩ := h
    exact ⟨rfl, .of_ok hf hw.1, .of_ok hargs hw.2⟩
  | .dotIndex _ obj _, _, h, hw => by
    simp only [ExprOk, GoodExpr, writtenExpr] at h hw ⊢
    exact ⟨h.1 ▸ foldedOk_plain _, .of_ok h.2 hw⟩
  | .bracketIndex _ obj key, _, h, hw => by
    simp only [ExprOk, GoodExpr, writtenExpr, List.append_subset] at h hw ⊢
    obtain ⟨rfl, hobj, hkey⟩ := h
    exact ⟨rfl, .of_ok hobj hw.1, .of_ok hkey hw.2⟩
  | .tableExpr _ fields, _, h, hw => by
    simp only [ExprOk, GoodExpr, writtenExpr] at h hw ⊢
    obtain ⟨rfl, hfields⟩ := h
    exact ⟨rfl, .of_ok hfields hw⟩
  | .funcExpr _ params body, _, h, hw => by
    simp only [ExprOk, GoodExpr, writtenExpr] at h hw ⊢
    obtain ⟨rfl, -, hbody⟩ := h
    exact ⟨rfl, .of_ok hbody hw⟩

theorem GoodExprs.of_ok : ∀ {es : Exprs} {Γ : Ctx}, ExprsOk writes apart Γ es →
    writtenExprs es ⊆ writes → GoodExprs writes Γ es
  | .nil, _, _, _ => by
    simp only [GoodExprs]
  | .cons e es, _, h, hw => by
    simp only [ExprsOk, GoodExprs, writtenExprs, List.append_subset] at h hw ⊢
    exact ⟨.of_ok h.1 hw.1, .of_ok h.2 hw.2⟩

theorem GoodFields.of_ok : ∀ {fields : Fields} {Γ : Ctx}, FieldsOk writes apart Γ fields →
    writtenFields fields ⊆ writes → GoodFields writes Γ fields
  | .nil, _, _, _ => by
    simp only [GoodFields]
  | .named _ _ e rest, _, h, hw => by
    simp only [FieldsOk, GoodFields, writtenFields, List.append_subset] at h hw ⊢
    exact ⟨.of_ok h.1 hw.1, .of_ok h.2.1 hw.2⟩
  | .positional e rest, _, h, hw => by
    simp only [FieldsOk, GoodFields, writtenFields, List.append_subset] at h hw ⊢
    exact ⟨.of_ok h.1 hw.1, .of_ok h.2 hw.2⟩
  | .keyed k e rest, _, h, hw => by
    simp only [FieldsOk, GoodFields, writtenFields, List.append_subset] at h hw ⊢
    exact ⟨.of_ok h.1 hw.1.1, .of_ok h.2.1 hw.1.2, .of_ok h.2.2 hw.2⟩

theorem GoodTargets.of_ok : ∀ {es : Exprs} {Γ : Ctx}, ExprsOk writes apart Γ es →
    writtenTargets es ⊆ writes → GoodTargets writes Γ es
  | .nil, _, _, _ => by
    simp only [GoodTargets]
  | .cons e es, Γ, h, hw => by
    cases e with
    | name d t =>
      simp only [ExprsOk, ExprOk, GoodTargets, writtenTargets, List.cons_subset] at h hw ⊢
      exact ⟨fun b hb => written_of_resolved h.1.2 hw.1 hb, .of_ok h.2 hw.2⟩
    | _ =>
      simp only [ExprsOk, GoodTargets, writtenTargets, List.append_subset] at h hw ⊢
      exact ⟨.of_ok h.1 hw.1, .of_ok h.2 hw.2⟩

theorem GoodStmt.of_ok : ∀ {s : Stmt} {Γ : Ctx}, StmtOk writes apart Γ s → writtenStmt s ⊆ writes →
    GoodStmt writes Γ s
  | .localStmt _ _ exprs, _, h, hw => by
    simp only [StmtOk, GoodStmt, writtenStmt] at h hw ⊢
    exact ⟨.of_ok h.1 hw, not_written_of_namesOk h.2⟩
  | .assignStmt targets exprs, _, h, hw => by
    simp only [StmtOk, GoodStmt, writtenStmt, List.append_subset] at h hw ⊢
    exact ⟨.of_ok h.1 hw.1, .of_ok h.2 hw.2⟩
  | .returnStmt exprs, _, h, hw => by
    simp only [StmtOk, GoodStmt, writtenStmt] at h hw ⊢
    exact .of_ok h hw
  | .callStmt e, _, h, hw => by
    simp only [StmtOk, GoodStmt, writtenStmt] at h hw ⊢
    exact .of_ok h hw
  | .ifStmt clauses otherwise, _, h, hw => by
    simp only [StmtOk, GoodStmt, writtenStmt, List.append_subset] at h hw ⊢
    exact ⟨.of_ok h.1 hw.1, .of_ok h.2 hw.2⟩
  | .whileStmt skip cond body, _, h, hw => by
    simp only [StmtOk, GoodStmt, writtenStmt, List.append_subset] at h hw ⊢
    obtain ⟨rfl, hcond, hbody⟩ := h
    exact ⟨nofun, .of_ok hcond hw.1, .of_ok hbody hw.2⟩
  | .repeatStmt body cond, _, h, hw => by
    simp only [StmtOk, GoodStmt, writtenStmt, List.append_subset] at h hw ⊢
    exact ⟨.of_ok h.1 hw.1, .of_ok h.2 hw.2⟩
  | .doStmt body, _, h, hw => by
    simp only [StmtOk, GoodStmt, writtenStmt] at h hw ⊢
    exact .of_ok h hw
  | .fornumStmt skip var start stop step body, _, h, hw => by
    simp only [StmtOk, GoodStmt, writtenStmt, List.append_subset] at h hw ⊢
    obtain ⟨rfl, hstart, hstop, hstep, -, hbody⟩ := h
    exact ⟨nofun, .of_ok hstart hw.1.1.1, .of_ok hstop hw.1.1.2, .of_ok hstep hw.1.2, .of_ok hbody hw.2⟩
  | .forinStmt names exprs body, _, h, hw => by
    simp only [StmtOk, GoodStmt, writtenStmt, List.append_subset] at h hw ⊢
    exact ⟨.of_ok h.1 hw.1, .of_ok h.2.2 hw.2⟩
  | .localFuncStmt name params body, _, h, hw => by
    simp only [StmtOk, GoodStmt, writtenStmt] at h hw ⊢
    exact .of_ok h.2.2.2 hw
  | .funcStmt name params body, Γ, h, hw => by
    simp only [StmtOk, GoodStmt, writtenStmt, List.cons_subset] at h hw ⊢
    exact ⟨fun b hb => .inr (visible_text hb ▸ hw.2.1), .of_ok h.2 hw.2.2⟩

theorem GoodClauses.of_ok : ∀ {clauses : Clauses} {Γ : Ctx}, ClausesOk writes apart Γ clauses →
    writtenClauses clauses ⊆ writes → GoodClauses writes Γ clauses
  | .nil, _, _, _ => by
    simp only [GoodClauses]
  | .cons decided cond body rest, _, h, hw => by
    simp only [ClausesOk, GoodClauses, writtenClauses, List.append_subset] at h hw ⊢
    obtain ⟨rfl, hcond, hbody, hrest⟩ := h
    exact ⟨nofun, .of_ok hcond hw.1.1, .of_ok hbody hw.1.2, .of_ok hrest hw.2⟩

theorem GoodBlock.of_ok : ∀ {b : Block} {Γ : Ctx}, BlockOk writes apart Γ b → writtenBlock b ⊆ writes →
    GoodBlock writes Γ b
  | .nil, _, _, _ => by
    simp only [GoodBlock]
  | .cons s rest, _, h, hw => by
    simp only [BlockOk, GoodBlock, writtenBlock, List.append_subset] at h hw ⊢
    exact ⟨.of_ok h.1 hw.1, .of_ok h.2 hw.2⟩

end

/-! The folder keeps the tree. -/

theorem isConstructor_foldExpr (scope : Scope) :
    ∀ e : Expr, isConstructor (foldExpr writes scope e).1 = isConstructor e
  | .paren _ e => by
    simp only [foldExpr, isConstructor]
    exact isConstructor_foldExpr scope e
  | .tableExpr _ _ => by
    simp only [foldExpr]
    split <;> rfl
  | .binop _ _ _ _ => by
    simp only [foldExpr]
    split_ifs <;> rfl
  | .call _ _ _ => by
    simp only [foldExpr]
    split_ifs <;> rfl
  | .literal _ _ | .name _ _ | .unop _ _ _ | .dotIndex _ _ _ | .bracketIndex _ _ _
  | .funcExpr _ _ _ => by
    simp only [foldExpr, isConstructor]

theorem textPath_foldExpr (scope : Scope) :
    ∀ e : Expr, textPath (foldExpr writes scope e).1 = textPath e
  | .dotIndex _ e _ => by
    simp only [foldExpr, textPath, textPath_foldExpr scope e]
  | .tableExpr _ _ => by
    simp only [foldExpr]
    split <;> rfl
  | .binop _ _ _ _ => by
    simp only [foldExpr]
    split_ifs <;> rfl
  | .call _ _ _ => by
    simp only [foldExpr]
    split_ifs <;> rfl
  | .literal _ _ | .name _ _ | .paren _ _ | .unop _ _ _ | .bracketIndex _ _ _ | .funcExpr _ _ _ => by
    simp only [foldExpr, textPath]

mutual

theorem constValue_foldExpr (scope : Scope) :
    ∀ e : Expr, constValue Γ (foldExpr writes scope e).1 = constValue Γ e
  | .paren _ e => by
    simp only [foldExpr, constValue, constValue_foldExpr scope e]
  | .unop _ op e => by
    simp only [foldExpr, constValue, isConstructor_foldExpr, constValue_foldExpr scope e]
  | .binop _ op l r => by
    simp only [foldExpr]
    split_ifs <;> simp only [constValue, constValue_unfold, constValue_foldExpr scope l,
      constValue_foldExpr scope r]
  | .dotIndex d e n => by
    simp only [foldExpr, constValue, textPath, textPath_foldExpr]
  | .tableExpr _ fields => by
    simp only [foldExpr]
    split <;> simp only [constValue, constFields_foldFields scope fields]
  | .call _ _ _ => by
    simp only [foldExpr]
    split_ifs <;> simp only [constValue]
  | .literal _ _ | .name _ _ | .bracketIndex _ _ _ | .funcExpr _ _ _ => by
    simp only [foldExpr, constValue]

theorem constFields_foldFields (scope : Scope) :
    ∀ fields : Fields, constFields Γ (foldFields writes scope fields).1 = constFields Γ fields
  | .nil => by
    simp only [foldFields]
  | .named isConst name e rest => by
    simp only [foldFields]
    split <;> simp only [constFields, constValue_foldExpr scope e, constFields_foldFields scope rest]
  | .positional _ rest => by
    simp only [foldFields, constFields, constFields_foldFields scope rest]
  | .keyed _ _ rest => by
    simp only [foldFields, constFields, constFields_foldFields scope rest]

end

theorem constValues_foldExprs (scope : Scope) :
    ∀ es : Exprs, constValues Γ (foldExprs writes scope es).1 = constValues Γ es
  | .nil => by
    simp only [foldExprs]
  | .cons e es => by
    simp only [foldExprs, constValues, constValue_foldExpr, constValues_foldExprs scope es]

theorem after_foldStatement (frame : Frame) (parents : Scope) (s : Stmt) :
    after writes Γ (foldStatement writes frame parents s).1 = after writes Γ s := by
  cases s with
  | localStmt isConst names exprs => simp only [foldStatement, after, constValues_foldExprs]
  | _ => simp only [foldStatement, after]

theorem afterBlock_foldBlock (parents : Scope) : ∀ (b : Block) (frame : Frame) (Γ : Ctx),
    afterBlock writes Γ (foldBlock writes frame parents b).1 = afterBlock writes Γ b
  | .nil, _, _ => by
    simp only [foldBlock]
  | .cons s b, frame, Γ => by
    simp only [foldBlock, afterBlock, after_foldStatement]
    exact afterBlock_foldBlock parents b _ _

end Nupp.ConstantFold
