import Nupp.Lua.ConstantFoldShape

/-! The scopes of the folder know nothing that is not so under lexical scoping. -/

namespace Nupp.ConstantFold

/-! Records. -/

theorem lookup_map_hidden (p : Path → Prop) [DecidablePred p] (xs : List (Path × Option Known)) (q : Path) :
    (xs.map fun x => if p x.1 then (x.1, none) else x).lookup q =
      if p q then (xs.lookup q).map fun _ => none else xs.lookup q := by
  induction xs with
  | nil => simp
  | cons x xs ih =>
    obtain ⟨y, v⟩ := x
    rw [List.map_cons]
    by_cases hq : q = y
    · subst hq
      by_cases hp : p q <;> simp [hp]
    · have hne : (q == y) = false := by simpa using hq
      by_cases hp : p y <;> simp [hp, List.lookup_cons, hne, ih]

theorem lookup_bindPath (frame : Frame) (p : Path) (v : Option Known) (q : Path) :
    (bindPath frame p v).paths.lookup q =
      if q = p then some v
      else if p <+: q then (frame.paths.lookup q).map fun _ => none else frame.paths.lookup q := by
  unfold bindPath
  simp only [List.lookup_cons]
  by_cases hq : q = p
  · simp [hq]
  · have hne : (q == p) = false := by simpa using hq
    rw [hne, if_neg hq]
    exact lookup_map_hidden (fun r => p <+: r) frame.paths q

/-- The records of a const table: below its path those of its fields, elsewhere the old. -/
structure Records (frame frame' : Frame) (p : Path) (v : Known) : Prop where
  constants : frame'.constants = frame.constants
  elsewhere : ∀ q, ¬ p <+: q → frame'.paths.lookup q = frame.paths.lookup q
  below : ∀ r k, frame'.paths.lookup (p ++ r) = some (some k) → v.project r = some k
  root : frame'.paths.lookup p = some (some v)

structure FieldRecords (frame frame' : Frame) (p : Path) (fields : KnownFields) : Prop where
  constants : frame'.constants = frame.constants
  elsewhere : ∀ q, (∀ n r, q ≠ p ++ n :: r) → frame'.paths.lookup q = frame.paths.lookup q
  below : ∀ n r k, frame'.paths.lookup (p ++ n :: r) = some (some k) →
    ((fields.get? n).bind fun f => f.project r) = some k ∨
      frame.paths.lookup (p ++ n :: r) = some (some k)

theorem records_bindPath (frame : Frame) (p : Path) (v : Known) (r : Path) (k : Known)
    (h : (bindPath frame p (some v)).paths.lookup (p ++ r) = some (some k)) : r = [] ∧ v = k := by
  rw [lookup_bindPath] at h
  split_ifs at h with hq hp
  · cases h
    exact ⟨by simpa using hq, rfl⟩
  · cases hl : frame.paths.lookup (p ++ r) with
    | none =>
      rw [hl] at h
      cases h
    | some x =>
      rw [hl] at h
      cases h
  · exact absurd (List.prefix_append p r) hp

mutual

theorem bindObjectFields_records : ∀ (v : Known) (frame : Frame) (p : Path),
    Records frame (bindObjectFields frame p v) p v
  | .scalar c float, frame, p => by
    refine ⟨rfl, fun q hq => ?_, fun r k h => ?_, ?_⟩
    · have hne : q ≠ p := fun he => hq (he ▸ List.prefix_refl q)
      rw [bindObjectFields, lookup_bindPath, if_neg hne, if_neg hq]
    · rw [bindObjectFields] at h
      obtain ⟨rfl, rfl⟩ := records_bindPath frame p _ r k h
      rfl
    · rw [bindObjectFields, lookup_bindPath, if_pos rfl]
  | .table fields, frame, p => by
    have hfields := bindFields_records fields (bindPath frame p (some (.table fields))) p
    refine ⟨?_, fun q hq => ?_, fun r k h => ?_, ?_⟩
    · rw [bindObjectFields, hfields.constants]
      rfl
    · have hne : q ≠ p := fun he => hq (he ▸ List.prefix_refl q)
      rw [bindObjectFields, hfields.elsewhere q fun n r he => hq (he ▸ List.prefix_append p _),
        lookup_bindPath, if_neg hne, if_neg hq]
    · rw [bindObjectFields] at h
      cases r with
      | nil =>
        rw [List.append_nil, hfields.elsewhere p (by simp), lookup_bindPath, if_pos rfl] at h
        cases h
        rfl
      | cons n r =>
        rcases hfields.below n r k h with h | h
        · exact h
        · obtain ⟨⟨⟩, -⟩ := records_bindPath frame p _ _ k h
    · rw [bindObjectFields, hfields.elsewhere p (by simp), lookup_bindPath, if_pos rfl]

theorem bindFields_records : ∀ (fields : KnownFields) (frame : Frame) (p : Path),
    FieldRecords frame (bindFields frame p fields) p fields
  | .nil, frame, p => by
    simp only [bindFields]
    exact ⟨rfl, fun _ _ => rfl, fun n r k h => .inr h⟩
  | .cons name v rest, frame, p => by
    have hrest := bindFields_records rest frame p
    have hv := bindObjectFields_records v (bindFields frame p rest) (p ++ [name])
    refine ⟨?_, fun q hq => ?_, fun n r k h => ?_⟩
    · rw [bindFields, hv.constants, hrest.constants]
    · rw [bindFields, hv.elsewhere q ?_, hrest.elsewhere q hq]
      rintro ⟨r, rfl⟩
      exact hq name r (by simp)
    · rw [bindFields] at h
      by_cases hn : n = name
      · subst hn
        refine .inl ?_
        have hproject := hv.below r k (by simpa using h)
        simpa [KnownFields.get?] using hproject
      · rw [hv.elsewhere] at h
        · have hget : (KnownFields.cons name v rest).get? n = rest.get? n := by
            simp only [KnownFields.get?]
            rw [if_neg fun he => hn he.symm]
          rw [hget]
          exact hrest.below n r k h
        · rintro ⟨r', he⟩
          rw [List.append_assoc] at he
          have htail := List.append_cancel_left he
          exact hn (List.cons.inj htail).1.symm

end

/-! More and less knowledge. -/

/-- Two known values of one kind: the same scalar, or tables. -/
def Known.Alike : Known → Known → Prop
  | .scalar c float, .scalar c' float' => c = c' ∧ float = float'
  | .table _, .table _ => True
  | _, _ => False

/-- The second value is known wherever the first is. -/
def Known.Le (k k' : Known) : Prop :=
  ∀ path j, k.project path = some j → ∃ j', k'.project path = some j' ∧ j.Alike j'

def Below (v value : Option Known) : Prop :=
  ∀ k, v = some k → ∃ k', value = some k' ∧ k.Le k'

theorem Known.project_append (k : Known) (p q : Path) :
    k.project (p ++ q) = (k.project p).bind fun j => j.project q := by
  induction p generalizing k with
  | nil => rfl
  | cons name p ih =>
    cases k with
    | scalar c float => rfl
    | table fields =>
      simp only [List.cons_append, Known.project, Option.bind_assoc, ih]

theorem Known.Alike.refl (k : Known) : k.Alike k := by
  cases k with
  | scalar c float => exact ⟨rfl, rfl⟩
  | table fields => trivial

theorem Known.Le.refl (k : Known) : k.Le k := fun _ j hj => ⟨j, hj, .refl j⟩

theorem Known.Le.project {k k' j : Known} {p : Path} (h : k.Le k') (hj : k.project p = some j) :
    ∃ j', k'.project p = some j' ∧ j.Le j' := by
  obtain ⟨j', hj', -⟩ := h p j hj
  refine ⟨j', hj', fun q i hi => ?_⟩
  obtain ⟨i', hi', halike⟩ := h (p ++ q) i (by rw [project_append, hj]; exact hi)
  rw [project_append, hj'] at hi'
  exact ⟨i', hi', halike⟩

theorem Known.Le.scalar {c : Const} {float : Bool} {k : Known} (h : (Known.scalar c float).Le k) :
    k = .scalar c float := by
  obtain ⟨k', hk', halike⟩ := h [] _ rfl
  cases hk'
  cases k with
  | scalar c' float' =>
    obtain ⟨rfl, rfl⟩ := halike
    rfl
  | table fields => cases halike

theorem Known.Le.table {fields : KnownFields} {k : Known} (h : (Known.table fields).Le k) :
    ∃ fields', k = .table fields' := by
  obtain ⟨k', hk', halike⟩ := h [] _ rfl
  cases hk'
  cases k with
  | scalar c float => cases halike
  | table fields' => exact ⟨fields', rfl⟩

theorem Below.of_code {v value : Option Known} {c : Const} (h : Below v value)
    (hc : v.bind Known.code = some c) : ∃ float, v = some (.scalar c float) ∧ value = v := by
  obtain ⟨k, rfl, hk⟩ := Option.bind_eq_some_iff.mp hc
  cases k with
  | table fields => cases hk
  | scalar c' float =>
    cases hk
    obtain ⟨k', rfl, hle⟩ := h _ rfl
    rw [hle.scalar]
    exact ⟨float, rfl, rfl⟩

/-! What a scope knows. -/

structure ConstantsOk (scope : Scope) (Γ : Ctx) : Prop where
  known : ∀ b ∈ Γ.flatten, Below (lookupConstant scope (bindingKey b.token)) b.known
  text : ∀ name, lookupConstant scope (.text name) = none
  definition : ∀ d k, lookupConstant scope (.definition d) = some k →
    ∃ b ∈ Γ.flatten, b.token.definition = some d

/-- Every dotted path leads where the visible binding of its root does. -/
def PathsOk (scope : Scope) (Γ : Ctx) : Prop :=
  ∀ name path k, lookupPath scope (name :: path) = some k →
    ∃ b fields k', visible Γ name = some b ∧ b.known = some (.table fields) ∧
      (Known.table fields).project path = some k' ∧ k.Le k'

def AllPathsOk : Scope → Ctx → Prop
  | [], [] => True
  | frame :: parents, G :: Γ => PathsOk (frame :: parents) (G :: Γ) ∧ AllPathsOk parents Γ
  | _, _ => False

structure Tracks (scope : Scope) (Γ : Ctx) : Prop where
  constants : ConstantsOk scope Γ
  paths : AllPathsOk scope Γ

variable {scope parents : Scope} {frame : Frame} {Γ : Ctx} {G : List Binding}

theorem AllPathsOk.head (h : AllPathsOk scope Γ) : PathsOk scope Γ := by
  cases scope with
  | nil =>
    cases Γ with
    | nil => exact fun _ _ _ hk => by cases hk
    | cons _ _ => cases h
  | cons _ _ =>
    cases Γ with
    | nil => cases h
    | cons _ _ => exact h.1

theorem Tracks.start : Tracks [.empty] [[]] where
  constants := ⟨nofun, fun _ => rfl, nofun⟩
  paths := ⟨nofun, trivial⟩

/-! Names. -/

theorem textPath_cons : ∀ {e : Expr} {p : Path}, textPath e = some p → ∃ name path, p = name :: path
  | .name _ token, _, h => by
    cases h
    exact ⟨_, _, rfl⟩
  | .dotIndex _ obj name, _, h => by
    unfold textPath at h
    obtain ⟨base, hbase, rfl⟩ := Option.map_eq_some_iff.mp h
    obtain ⟨root, path, rfl⟩ := textPath_cons hbase
    exact ⟨root, path ++ [name], rfl⟩
  | .literal _ _, _, h | .paren _ _, _, h | .unop _ _ _, _, h | .binop _ _ _ _, _, h
  | .call _ _ _, _, h | .bracketIndex _ _ _, _, h | .tableExpr _ _, _, h | .funcExpr _ _ _, _, h => by
    cases h

theorem Tracks.pathValue (h : Tracks scope Γ) {name : String} {path : Path} {k : Known}
    (hk : lookupPath scope (name :: path) = some k) :
    ∃ k', pathValue Γ (name :: path) = some k' ∧ k.Le k' := by
  obtain ⟨b, fields, k', hb, hknown, hproject, hle⟩ := h.paths.head name path k hk
  exact ⟨k', by simp [ConstantFold.pathValue, hb, hknown, hproject], hle⟩

theorem Tracks.constant (h : Tracks scope Γ) {token : Name} (hr : Resolved Γ token) :
    Below (lookupConstant scope (bindingKey token)) (ConstantFold.pathValue Γ [token.text]) := by
  intro k hk
  unfold Resolved at hr
  cases hv : visible Γ token.text with
  | some b =>
    rw [hv] at hr
    have hkey : bindingKey token = bindingKey b.token := by
      simp only [bindingKey, visible_text hv, ← hr]
    have hb : b ∈ Γ.flatten := List.mem_of_find?_eq_some hv
    obtain ⟨k', hknown, hle⟩ := h.constants.known b hb k (hkey ▸ hk)
    exact ⟨k', by simp [ConstantFold.pathValue, hv, hknown, Known.project], hle⟩
  | none =>
    rw [hv] at hr
    cases hd : token.definition with
    | none =>
      simp only [bindingKey, hd] at hk
      rw [h.constants.text] at hk
      cases hk
    | some d =>
      simp only [bindingKey, hd] at hk
      obtain ⟨b, hb, hdef⟩ := h.constants.definition d k hk
      exact absurd hd (hr b hb d hdef)

/-! Entering blocks. -/

theorem visible_block (Γ : Ctx) (name : String) : visible ([] :: Γ) name = visible Γ name := rfl

theorem lookupPath_empty (scope : Scope) (constants : List (Key × Option Known)) (path : Path) :
    lookupPath (⟨constants, []⟩ :: scope) path = lookupPath scope path := by
  simp [lookupPath]

theorem Tracks.block (h : Tracks scope Γ) : Tracks (.empty :: scope) ([] :: Γ) where
  constants := ⟨h.constants.known, h.constants.text, h.constants.definition⟩
  paths := by
    refine ⟨fun name path k hk => ?_, h.paths⟩
    rw [Frame.empty, lookupPath_empty] at hk
    exact h.paths.head name path k hk

/-! Bindings. -/

theorem lookupConstant_bind (frame : Frame) (parents : Scope) (token : Name) (v : Option Known) (key : Key) :
    lookupConstant (bindConstant frame token v :: parents) key =
      if key = bindingKey token then v else lookupConstant (frame :: parents) key := by
  simp only [lookupConstant, bindConstant, List.lookup_cons]
  by_cases hk : key = bindingKey token
  · simp [hk]
  · have hne : (key == bindingKey token) = false := by simpa using hk
    simp [hne, hk]

theorem Fresh.bindingKey_ne {token : Name} (h : Fresh Γ token) {b : Binding} (hb : b ∈ Γ.flatten) :
    bindingKey b.token ≠ bindingKey token := by
  obtain ⟨d, hd, hfresh⟩ := h
  cases hdb : b.token.definition with
  | none => simp [bindingKey, hd, hdb]
  | some d' =>
    have hne : d' ≠ d := fun he => hfresh b hb (he ▸ hdb)
    simpa [bindingKey, hd, hdb] using hne

/-- A new binding is known for what the folder records of it, or less. -/
theorem ConstantsOk.bind (h : ConstantsOk (frame :: parents) Γ) {token : Name} (hf : Fresh Γ token)
    {v known : Option Known} (hv : Below v known) {Γ' : Ctx}
    (hΓ : Γ'.flatten = ⟨token, known⟩ :: Γ.flatten) :
    ConstantsOk (bindConstant frame token v :: parents) Γ' where
  known b hb k hk := by
    rw [hΓ] at hb
    rw [lookupConstant_bind] at hk
    rcases List.mem_cons.mp hb with rfl | hb
    · rw [if_pos rfl] at hk
      exact hv k hk
    · rw [if_neg (hf.bindingKey_ne hb)] at hk
      exact h.known b hb k hk
  text name := by
    obtain ⟨d, hd, -⟩ := hf
    rw [lookupConstant_bind, if_neg (by simp [bindingKey, hd])]
    exact h.text name
  definition d k hk := by
    rw [hΓ]
    rw [lookupConstant_bind] at hk
    split_ifs at hk with hd
    · obtain ⟨d', hd', -⟩ := hf
      simp only [bindingKey, hd', Key.definition.injEq] at hd
      exact ⟨_, List.mem_cons_self, by rw [hd']; simp [hd]⟩
    · obtain ⟨b, hb, hdef⟩ := h.definition d k hk
      exact ⟨b, List.mem_cons_of_mem _ hb, hdef⟩

theorem ConstantsOk.forget (h : ConstantsOk (frame :: parents) Γ) (token : Name) :
    ConstantsOk (bindConstant frame token none :: parents) Γ where
  known b hb k hk := by
    rw [lookupConstant_bind] at hk
    split_ifs at hk
    exact h.known b hb k hk
  text name := by
    rw [lookupConstant_bind, h.text]
    simp
  definition d k hk := by
    rw [lookupConstant_bind] at hk
    split_ifs at hk
    exact h.definition d k hk

theorem visible_cons (b : Binding) (Γ Γ' : Ctx) (hΓ : Γ'.flatten = b :: Γ.flatten) (name : String) :
    visible Γ' name = if b.token.text = name then some b else visible Γ name := by
  unfold visible
  rw [hΓ, List.find?_cons]
  by_cases hn : b.token.text = name <;> simp [hn]

theorem lookupPath_bindConstant (frame : Frame) (token : Name) (v : Option Known) (path : Path) :
    lookupPath (bindConstant frame token v :: parents) path = lookupPath (frame :: parents) path := rfl

/-- A record of nothing takes facts away. -/
theorem lookupPath_bindPath_none {p q : Path} {k : Known}
    (h : lookupPath (bindPath frame p none :: parents) q = some k) :
    lookupPath (frame :: parents) q = some k := by
  unfold lookupPath at h ⊢
  rw [lookup_bindPath, lookup_bindPath] at h
  by_cases hq : q = p
  · simp [hq] at h
  · rw [if_neg hq] at h
    by_cases hpq : p <+: q
    · rw [if_pos hpq] at h
      cases hl : frame.paths.lookup q with
      | some v => simp [hl] at h
      | none =>
        rw [hl] at h
        simp only [Option.map_none] at h
        split_ifs at h with hroot hprefix
        · cases hr : frame.paths.lookup (q.take 1) with
          | some v => simp [hr] at h
          | none => simpa [hr] using h
        · exact h
    · rw [if_neg hpq] at h
      cases hl : frame.paths.lookup q with
      | some v =>
        rw [hl] at h
        exact h
      | none =>
        rw [hl] at h
        have hne : q.take 1 ≠ p := fun he => hpq (he ▸ List.take_prefix 1 q)
        have hnp : ¬ p <+: q.take 1 := fun hp => hpq (hp.trans (List.take_prefix 1 q))
        simpa [hne, hnp] using h

/-- A record of nothing under a name hides all paths of the name. -/
theorem lookupPath_bindPath_self (name : String) (path : Path) :
    lookupPath (bindPath frame [name] none :: parents) (name :: path) = none := by
  unfold lookupPath
  rw [lookup_bindPath, lookup_bindPath]
  by_cases hp : name :: path = [name]
  · simp [hp]
  · rw [if_neg hp, if_pos (by simp)]
    cases hl : frame.paths.lookup (name :: path) with
    | some v => simp
    | none => simp

theorem AllPathsOk.tail (h : AllPathsOk (frame :: parents) Γ) : AllPathsOk parents Γ.tail := by
  cases Γ with
  | nil => cases h
  | cons G Γ => exact h.2

theorem AllPathsOk.of_head {frame' : Frame} {b : Binding} (h : AllPathsOk (frame :: parents) Γ)
    (hp : PathsOk (frame' :: parents) (push Γ b)) : AllPathsOk (frame' :: parents) (push Γ b) := by
  cases Γ with
  | nil => cases h
  | cons G Γ => exact ⟨hp, h.2⟩

theorem AllPathsOk.of_same {frame' : Frame} (h : AllPathsOk (frame :: parents) Γ)
    (hp : PathsOk (frame' :: parents) Γ) : AllPathsOk (frame' :: parents) Γ := by
  cases Γ with
  | nil => cases h
  | cons G Γ => exact ⟨hp, h.2⟩

/-- A name that hides no const table can be declared without a record of its paths. -/
theorem Tracks.declare (h : Tracks (frame :: parents) Γ) {token : Name} (hf : Fresh Γ token)
    (ht : ¬ NamesTable Γ token.text) :
    Tracks (bindConstant frame token none :: parents) (push Γ ⟨token, none⟩) where
  constants := h.constants.bind hf (fun _ hk => by cases hk) (push_flatten Γ _)
  paths := by
    refine h.paths.of_head fun name path k hk => ?_
    rw [lookupPath_bindConstant] at hk
    obtain ⟨b, fields, k', hb, hknown, hle⟩ := h.paths.head name path k hk
    refine ⟨b, fields, k', ?_, hknown, hle⟩
    rw [visible_cons _ Γ _ (push_flatten Γ _), if_neg]
    · exact hb
    · rintro rfl
      exact ht ⟨b, fields, hb, hknown⟩

theorem NamesTable.of_push {token : Name} {name : String} (h : NamesTable (push Γ ⟨token, none⟩) name) :
    NamesTable Γ name := by
  obtain ⟨b, fields, hb, hknown⟩ := h
  rw [visible_cons _ Γ _ (push_flatten Γ _)] at hb
  split_ifs at hb
  · cases hb
    cases hknown
  · exact ⟨b, fields, hb, hknown⟩

/-- Parameters one by one. -/
theorem Tracks.params (h : Tracks scope Γ) {params : List Name} (hp : ParamsOk true Γ params) :
    Tracks (paramFrame params :: scope) (paramScope params :: Γ) := by
  suffices hgen : ∀ (params : List Name) (frame : Frame) (Γ : Ctx), Tracks (frame :: scope) Γ →
      (∀ p ∈ params, Fresh Γ p) → (params.map Name.definition).Nodup →
      (∀ p ∈ params, ¬ NamesTable Γ p.text) →
      Tracks (params.foldl (fun frame param => bindConstant frame param none) frame :: scope)
        (params.foldl (fun Γ p => push Γ ⟨p, none⟩) Γ) by
    have hstart := hgen params .empty ([] :: Γ) h.block hp.fresh hp.distinct (hp.apart rfl)
    have hscope : ∀ (params : List Name) (G : List Binding),
        params.foldl (fun Γ p => push Γ ⟨p, none⟩) (G :: Γ) = (paramScope params ++ G) :: Γ := by
      intro params
      induction params with
      | nil => exact fun G => rfl
      | cons p params ih =>
        intro G
        rw [List.foldl_cons]
        show params.foldl _ ((⟨p, none⟩ :: G) :: Γ) = _
        rw [ih]
        simp [paramScope]
    rw [hscope, List.append_nil] at hstart
    exact hstart
  intro params
  induction params with
  | nil => exact fun _ _ h _ _ _ => h
  | cons p params ih =>
    intro frame Γ h hfresh hdistinct hapart
    rw [List.map_cons, List.nodup_cons] at hdistinct
    have hnext := h.declare (hfresh p List.mem_cons_self) (hapart p List.mem_cons_self)
    refine ih _ _ hnext (fun q hq => ?_) hdistinct.2 fun q hq ht => ?_
    · obtain ⟨d, hd, hne⟩ := hfresh q (List.mem_cons_of_mem _ hq)
      refine ⟨d, hd, fun b hb => ?_⟩
      rw [push_flatten] at hb
      rcases List.mem_cons.mp hb with rfl | hb
      · intro he
        exact hdistinct.1 (List.mem_map.mpr ⟨q, hq, hd.trans he.symm⟩)
      · exact hne b hb
    · exact hapart q (List.mem_cons_of_mem _ hq) ht.of_push

/-- An assignment takes facts away. -/
theorem Tracks.forgetPath (h : Tracks (frame :: parents) Γ) (p : Path) :
    Tracks (bindPath frame p none :: parents) Γ where
  constants := ⟨h.constants.known, h.constants.text, h.constants.definition⟩
  paths := h.paths.of_same fun name path k hk => h.paths.head name path k (lookupPath_bindPath_none hk)

theorem Tracks.forget (h : Tracks (frame :: parents) Γ) (token : Name) :
    Tracks (bindConstant frame token none :: parents) Γ where
  constants := h.constants.forget token
  paths := h.paths.of_same fun name path k hk => h.paths.head name path k hk

/-! Local declarations. -/

variable {writes : List Key}

theorem below_bindingOf (writes : List Key) (isConst : Bool) (token : Name) {v value : Option Known}
    (hv : Below v value) :
    Below (if isConst || unchangedScalar writes token v then v else none)
      (bindingOf writes isConst token value).known := by
  intro k h
  split_ifs at h with hc
  obtain ⟨k', hk', hle⟩ := hv k h
  refine ⟨k', ?_, hle⟩
  have hsame : (isConst || unchangedScalar writes token value) = true := by
    rcases Bool.or_eq_true_iff.mp hc with hc | hc
    · simp [hc]
    · have hcode : (v.bind Known.code).isSome := by
        simp only [unchangedScalar, Bool.and_eq_true] at hc
        exact hc.1.1.1.1
      obtain ⟨c, hcode⟩ := Option.isSome_iff_exists.mp hcode
      obtain ⟨float, -, rfl⟩ := hv.of_code hcode
      simp [hc]
  rw [bindingOf, if_pos hsame]
  exact hk'

theorem Tracks.bindName (h : Tracks (frame :: parents) Γ) {isConst : Bool} {token : Name}
    {v value : Option Known} (hv : Below v value) (hf : Fresh Γ token)
    (ht : isConst = true → ∀ fields, value = some (.table fields) → ¬ NamesTable Γ.tail token.text) :
    Tracks (bindName writes isConst frame token v :: parents)
      (push Γ (bindingOf writes isConst token value)) := by
  have hconstants : ConstantsOk (bindConstant frame token
      (if isConst || unchangedScalar writes token v then v else none) :: parents)
      (push Γ (bindingOf writes isConst token value)) :=
    h.constants.bind hf (below_bindingOf writes isConst token hv) (push_flatten Γ _)
  have hother : ∀ {name : String} {path : Path} {k : Known}, name ≠ token.text →
      lookupPath (frame :: parents) (name :: path) = some k →
      ∃ b fields k', visible (push Γ (bindingOf writes isConst token value)) name = some b ∧
        b.known = some (.table fields) ∧ (Known.table fields).project path = some k' ∧ k.Le k' := by
    intro name path k hne hk
    obtain ⟨b, fields, k', hb, hknown, hle⟩ := h.paths.head name path k hk
    refine ⟨b, fields, k', ?_, hknown, hle⟩
    rw [visible_cons _ Γ _ (push_flatten Γ _), if_neg]
    · exact hb
    · exact fun he => hne he.symm
  unfold ConstantFold.bindName
  split
  case h_1 fields =>
    obtain ⟨k', hvalue, hle⟩ := hv _ rfl
    obtain ⟨fields', rfl⟩ := hle.table
    have hrec := bindObjectFields_records (.table fields)
      (bindConstant frame token (if true || unchangedScalar writes token (some (.table fields))
        then some (.table fields) else none)) [token.text]
    refine ⟨?_, h.paths.of_head fun name path k hk => ?_⟩
    · have hsame : ∀ key, lookupConstant (bindObjectFields (bindConstant frame token
          (if true || unchangedScalar writes token (some (.table fields)) then some (.table fields)
            else none)) [token.text] (.table fields) :: parents) key =
          lookupConstant (bindConstant frame token
            (if true || unchangedScalar writes token (some (.table fields)) then some (.table fields)
              else none) :: parents) key := by
        intro key
        simp only [lookupConstant, hrec.constants]
      exact ⟨fun b hb k hk => hconstants.known b hb k (hsame _ ▸ hk),
        fun name => (hsame _).trans (hconstants.text name),
        fun d k hk => hconstants.definition d k (hsame _ ▸ hk)⟩
    · by_cases hn : name = token.text
      · subst hn
        have hproject : (Known.table fields).project path = some k := by
          unfold lookupPath at hk
          split at hk
          case h_1 found hfound =>
            subst hk
            exact hrec.below path k hfound
          case h_2 hnone =>
            have hroot := hrec.root
            simp only [List.take_succ_cons, List.take_zero, hroot] at hk
            have houter := h.paths.tail.head _ path k hk
            obtain ⟨b, outer, -, hb, hknown, -⟩ := houter
            exact absurd ⟨b, outer, hb, hknown⟩ (ht rfl fields' hvalue)
        obtain ⟨j, hj, hle⟩ := hle.project hproject
        refine ⟨bindingOf writes true token value, fields', j, ?_, ?_, hj, hle⟩
        · rw [visible_cons _ Γ _ (push_flatten Γ _)]
          exact if_pos rfl
        · simp [bindingOf, hvalue]
      · refine hother hn ?_
        have hq : ∀ path : Path, ¬ [token.text] <+: name :: path := by
          rintro path ⟨r, he⟩
          exact hn (List.cons.inj he).1.symm
        unfold lookupPath at hk ⊢
        rw [hrec.elsewhere _ (hq path), List.take_succ_cons, List.take_zero,
          hrec.elsewhere _ (hq [])] at hk
        exact hk
  case h_2 =>
    refine ⟨⟨hconstants.known, hconstants.text, hconstants.definition⟩,
      h.paths.of_head fun name path k hk => ?_⟩
    by_cases hn : name = token.text
    · subst hn
      rw [lookupPath_bindPath_self] at hk
      cases hk
    · exact hother hn (lookupPath_bindPath_none hk)

/-- The values the folder found are the constants of the expressions, or less. -/
def ValuesBelow : List (Option Known) → List (Option Known) → Prop := List.Forall₂ Below

theorem ValuesBelow.head {vs values : List (Option Known)} (h : ValuesBelow vs values) :
    Below vs.head?.join values.head?.join := by
  cases h with
  | nil => exact nofun
  | cons hv _ => exact hv

theorem ValuesBelow.tail {vs values : List (Option Known)} (h : ValuesBelow vs values) :
    ValuesBelow vs.tail values.tail := by
  cases h with
  | nil => exact .nil
  | cons _ hrest => exact hrest

theorem push_tail (Γ : Ctx) (b : Binding) : (push Γ b).tail = Γ.tail := by
  cases Γ <;> rfl

theorem Tracks.bindNames (h : Tracks (frame :: parents) Γ) {isConst : Bool} {names : List Name}
    {vs values : List (Option Known)} (hv : ValuesBelow vs values)
    (hn : NamesOk writes true isConst Γ names values) :
    Tracks (bindNames writes isConst frame names vs :: parents)
      (pushNames writes isConst Γ names values) := by
  induction names generalizing frame Γ vs values with
  | nil => exact h
  | cons token names ih =>
    obtain ⟨hfresh, -, hapart, hrest⟩ := hn
    exact ih (h.bindName hv.head hfresh (hapart rfl)) hv.tail hrest

end Nupp.ConstantFold
