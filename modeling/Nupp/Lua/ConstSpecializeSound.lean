import Nupp.Lua.ConstSpecializeCollect

/-! Calls of selected specializations enter the body of the function they resolve to. -/

namespace Nupp.ConstSpecialize

/-- A call rewritten for `s` and entering `body` runs the function it resolves to: the
parameters left out are the same, and each const parameter read in the body is replaced
by the literal of the call's own signature. -/
structure Enters (info : DefId → Definition) (R : Resolution) (p : Plan) (s body : Specialization)
    (call : Call) : Prop where
  target : R.target info call = some p.definition
  owner : body.owner = p.definition
  omitted : s.omitted = body.omitted
  literals : ∃ sig, call.signature = some sig ∧ ∀ x ∈ p.declaration.params.zipIdx,
    ∀ g ∈ p.declaration.generics, x.1.annotated = some g.name → ∀ name d, x.1.name = some (name, d) →
    d ∈ p.declaration.bodyNames →
    ∃ l, literalAt sig x.2 = some l ∧ ∀ t, (d, t) ∈ body.substitutions ↔ t = l.emitted

structure Sound (info : DefId → Definition) (R : Resolution) (plans : List Plan) (sel : Selection) :
    Prop where
  enters : ∀ x ∈ sel.accepted, ∀ call ∈ x.1.calls, ∃ p ∈ plans, Enters info R p x.1 x.2 call
  divided : ∀ p ∈ plans, ∀ s ∈ p.specializations, (∃ r, (s, r) ∈ sel.accepted) ∨ s ∈ sel.declined
  apart : ∀ x ∈ sel.accepted, x.1 ∉ sel.declined
  names : ∀ p ∈ plans, ∀ q ∈ plans, p.filename = q.filename → ∀ x ∈ sel.accepted, ∀ y ∈ sel.accepted,
    x.2 ∈ p.specializations → y.2 ∈ q.specializations → x.2.name = y.2.name → x.2 = y.2

/-- Names tell the functions of a graph apart as far as they are used to. -/
structure Clear (info : DefId → Definition) (digest : Text → Text) (modules : List Module)
    (R : Resolution) : Prop where
  byText : ∀ call ∈ callsOf modules, ∀ d, call.callee = some d →
    (candidatesOf info modules).1 (.definition d) = none →
    ∀ o, ((definitionKey info d).bind (candidatesOf info modules).1).or
      ((looseDefinitionKey info d).bind (candidatesOf info modules).1) = some o →
    R.target info call = some o
  twins : ∀ p ∈ (candidatesOf info modules).2, ∀ q ∈ (candidatesOf info modules).2,
    p.definition ≠ q.definition → p.filename = q.filename → p.name = q.name →
    ∀ call ∈ callsOf modules, ∀ call' ∈ callsOf modules, ∀ sig sig' bound bound',
    Applies info (candidatesOf info modules).1 p call sig bound →
    Applies info (candidatesOf info modules).1 q call' sig' bound' →
    classTextOf p sig bound ≠ classTextOf q sig' bound' ∧ canonicalOf p sig bound ≠ canonicalOf q sig' bound'
  prefixes : ∀ p ∈ (candidatesOf info modules).2, ∀ q ∈ (candidatesOf info modules).2,
    ∀ call ∈ callsOf modules, ∀ call' ∈ callsOf modules, ∀ sig sig' bound bound',
    Applies info (candidatesOf info modules).1 p call sig bound →
    Applies info (candidatesOf info modules).1 q call' sig' bound' →
    (digest (canonicalOf p sig bound)).take 16 = (digest (canonicalOf q sig' bound')).take 16 →
    canonicalOf p sig bound = canonicalOf q sig' bound'

variable {info : DefId → Definition} {digest : Text → Text} {modules : List Module} {R : Resolution}

/-! The literals of a call. -/

theorem literalAt_of_carried {sig : Signature} {cs : List Carrier} {l : Literal}
    (h : carriedLiteral sig cs = some l) : ∀ k ∈ cs, literalAt sig k.position = some l := by
  induction cs generalizing l with
  | nil => cases h
  | cons c cs ih =>
    cases cs with
    | nil =>
      intro k hk
      rw [List.mem_singleton.mp hk]
      exact h
    | cons c' cs =>
      unfold carriedLiteral at h
      split at h
      case h_2 => cases h
      case h_1 l₁ l₂ h₁ h₂ =>
        split_ifs at h with hkey
        cases h
        have heq := key_injective hkey
        subst heq
        intro k hk
        rcases List.mem_cons.mp hk with rfl | hk
        · exact h₁
        · exact ih h₂ k hk

theorem boundLiterals_spec {sig : Signature} {binders : List Binder} {bound : List (Binder × Literal)}
    (h : boundLiterals sig binders = some bound) :
    bound.map Prod.fst = binders ∧
      ∀ x ∈ bound, ∀ k ∈ x.1.carriers, literalAt sig k.position = some x.2 := by
  induction binders generalizing bound with
  | nil =>
    cases (show some [] = some bound from h)
    exact ⟨rfl, nofun⟩
  | cons b binders ih =>
    simp only [boundLiterals, List.mapM_cons, bind, Option.bind_eq_some_iff, pure, Option.some.injEq] at h
    obtain ⟨x, hx, rest, hrest, rfl⟩ := h
    obtain ⟨l, hl, rfl⟩ := Option.map_eq_some_iff.mp hx
    obtain ⟨hfst, hlit⟩ := ih hrest
    refine ⟨by rw [List.map_cons, hfst], fun x hx => ?_⟩
    rcases List.mem_cons.mp hx with rfl | hx
    · exact literalAt_of_carried hl
    · exact hlit x hx

/-! Composed keys. -/

/-- The identity at the head of a key names the file and the function. -/
theorem identity_append_inj {file name file' name' x y : Text} (hfile : nul ∉ file) (hname : nul ∉ name)
    (hfile' : nul ∉ file') (hname' : nul ∉ name')
    (h : joined [file, name] ++ nul :: x = joined [file', name'] ++ nul :: y) :
    (file = file' ∧ name = name') ∧ x = y := by
  obtain ⟨heq, hrest⟩ := joined_append_inj (by simp) (by simp [hfile, hname]) (by simp [hfile', hname'])
    (by simp) h
  simp only [List.cons.injEq, and_true] at heq
  exact ⟨heq, hrest⟩

theorem abiOf_length {sig sig' : Signature} (omitted : List ℕ)
    (hp : sig.params.length = sig'.params.length) (hr : sig.rets.length = sig'.rets.length) :
    (abiOf sig omitted).length = (abiOf sig' omitted).length := by
  have hkept : ∀ (g g' : CheckedType → ℕ → Text) (ps ps' : List CheckedType) (n : ℕ), ps.length = ps'.length →
      ((ps.zipIdx n).filterMap fun x => if x.2 ∈ omitted then none else some (g x.1 x.2)).length =
        ((ps'.zipIdx n).filterMap fun x => if x.2 ∈ omitted then none else some (g' x.1 x.2)).length := by
    intro g g' ps
    induction ps with
    | nil =>
      intro ps' n hlen
      cases ps' with
      | nil => rfl
      | cons _ _ => cases hlen
    | cons p ps ih =>
      intro ps' n hlen
      cases ps' with
      | nil => cases hlen
      | cons p' ps' =>
        have hrest := ih ps' (n + 1) (by simpa using hlen)
        by_cases hn : n ∈ omitted
        · simpa [List.zipIdx_cons, hn] using hrest
        · simpa [List.zipIdx_cons, hn] using hrest
  unfold abiOf
  simp only [List.length_append, List.length_cons, List.length_map, hr]
  rw [hkept (fun p i => sig.paramModes.getD i (text "plain") ++ ':' :: p.text)
    (fun p i => sig'.paramModes.getD i (text "plain") ++ ':' :: p.text) sig.params sig'.params 0 hp]

theorem nul_not_mem_abiOf {sig : Signature} (omitted : List ℕ) (hparams : ∀ p ∈ sig.params, nul ∉ p.text)
    (hmodes : ∀ mode ∈ sig.paramModes, nul ∉ mode) (hrets : ∀ r ∈ sig.rets, nul ∉ r.text) :
    ∀ t ∈ abiOf sig omitted, nul ∉ t := by
  intro t ht
  simp only [abiOf, List.mem_append, List.mem_filterMap, List.mem_cons, List.mem_map] at ht
  rcases ht with ⟨⟨p, i⟩, hpi, ht⟩ | rfl | ⟨r, hr, rfl⟩
  · split_ifs at ht
    cases ht
    have hp := hparams p (List.fst_mem_of_mem_zipIdx hpi)
    have hmode : nul ∉ sig.paramModes.getD i (text "plain") := by
      rw [List.getD_eq_getElem?_getD]
      cases hi : sig.paramModes[i]? with
      | none => decide
      | some mode => exact hmodes mode (List.mem_of_getElem? hi)
    simp only [List.mem_append, List.mem_cons, not_or]
    exact ⟨hmode, by decide, hp⟩
  · decide
  · exact hrets r hr

/-! The collected plans. -/

/-- A plan of the graph, with what was recorded in it. -/
structure Collected (info : DefId → Definition) (digest : Text → Text) (modules : List Module)
    (p : Plan) : Prop where
  head : p.head ∈ (candidatesOf info modules).2
  ok : PlanOk info digest (candidatesOf info modules).1 (callsOf modules) p

theorem PlanOk.perm {c : Candidates} {calls : List Call} {p : Plan} (h : PlanOk info digest c calls p)
    {ss : List Specialization} (hss : ss.Perm p.specializations) :
    PlanOk info digest c calls { p with specializations := ss } where
  recorded s hs := (h.recorded s (hss.mem_iff.mp hs)).specializations ss
  keys := (hss.map Specialization.key).nodup_iff.mpr h.keys

theorem mem_sortPlans {plans : List Plan} {p : Plan} (h : p ∈ sortPlans plans) :
    ∃ p₀ ∈ plans, p = { p₀ with specializations := p₀.specializations.mergeSort byKey } := by
  obtain ⟨p₀, hp₀, rfl⟩ := List.mem_map.mp ((List.mergeSort_perm _ _).mem_iff.mp h)
  exact ⟨p₀, hp₀, rfl⟩

theorem mem_candidatesOf (hc : Checked info modules R) {p : Plan} (h : p ∈ (candidatesOf info modules).2) :
    ∃ m ∈ modules, ∃ f ∈ m.functions, candidate m.filename f = some p := by
  rw [(candidatesOf_spec hc).2] at h
  obtain ⟨m, hm, h⟩ := List.mem_flatMap.mp h
  obtain ⟨f, hf, h⟩ := List.mem_filterMap.mp h
  exact ⟨m, hm, f, hf, h⟩

theorem head_of_mem_candidatesOf (hc : Checked info modules R) {p : Plan}
    (h : p ∈ (candidatesOf info modules).2) : p.head = p := by
  obtain ⟨m, -, f, -, hf⟩ := mem_candidatesOf hc h
  rw [Plan.head, ← (candidate_eq_some hf).2.2.2.2.2.1]

theorem planOk_head (c : Candidates) (p : Plan) : PlanOk info digest c [] p.head where
  recorded := nofun
  keys := List.nodup_nil

/-- The candidates with the calls of the graph recorded. -/
theorem recorded_spec (digest : Text → Text) (hc : Checked info modules R) :
    (∀ p ∈ (callsOf modules).foldl (addCall info digest (candidatesOf info modules).1)
        (candidatesOf info modules).2,
      PlanOk info digest (candidatesOf info modules).1 (callsOf modules) p) ∧
      ((callsOf modules).foldl (addCall info digest (candidatesOf info modules).1)
        (candidatesOf info modules).2).map Plan.head = (candidatesOf info modules).2 := by
  have hstart : ∀ p ∈ (candidatesOf info modules).2,
      PlanOk info digest (candidatesOf info modules).1 [] p := by
    intro p hp
    rw [← head_of_mem_candidatesOf hc hp]
    exact planOk_head _ p
  obtain ⟨hok, hheads⟩ := addCalls_spec (callsOf modules) hstart
  refine ⟨hok, hheads.trans ?_⟩
  exact (List.map_congr_left fun p hp => head_of_mem_candidatesOf hc hp).trans (List.map_id _)

theorem collectGraph_collected (hc : Checked info modules R) {p : Plan}
    (h : p ∈ collectGraph info digest modules) : Collected info digest modules p := by
  obtain ⟨hok, hheads⟩ := recorded_spec digest hc
  obtain ⟨p₀, hp₀, rfl⟩ := mem_sortPlans h
  refine ⟨?_, (hok p₀ hp₀).perm (List.mergeSort_perm _ _)⟩
  rw [← hheads]
  have hmem := List.mem_map_of_mem (f := Plan.head) hp₀
  exact hmem

theorem candidates_definitions (modules : List Module) :
    ((modules.flatMap fun m => m.functions.filterMap (candidate m.filename)).map Plan.definition).Sublist
      (modules.flatMap fun m => m.functions.filterMap LocalFunction.definition) := by
  have hfunctions : ∀ (file : Text) (fs : List LocalFunction),
      ((fs.filterMap (candidate file)).map Plan.definition).Sublist
        (fs.filterMap LocalFunction.definition) := by
    intro file fs
    induction fs with
    | nil => exact .slnil
    | cons f fs ih =>
      cases hf : candidate file f with
      | none =>
        rw [List.filterMap_cons_none hf]
        exact ih.trans ((List.sublist_cons_self f fs).filterMap _)
      | some plan =>
        rw [List.filterMap_cons_some hf, List.filterMap_cons_some (candidate_eq_some hf).1]
        exact ih.cons_cons _
  induction modules with
  | nil => exact .slnil
  | cons m modules ih =>
    rw [List.flatMap_cons, List.flatMap_cons, List.map_append]
    exact (hfunctions m.filename m.functions).append ih

theorem collectGraph_definitions (digest : Text → Text) (hc : Checked info modules R) :
    ((collectGraph info digest modules).map Plan.definition).Nodup := by
  have hheads : ((collectGraph info digest modules).map Plan.definition).Perm
      ((candidatesOf info modules).2.map Plan.definition) := by
    refine ((List.mergeSort_perm _ _).map Plan.definition).trans (.of_eq ?_)
    conv_rhs => rw [← (recorded_spec digest hc).2, List.map_map]
    rw [List.map_map]
    rfl
  rw [hheads.nodup_iff, (candidatesOf_spec hc).2]
  exact (candidates_definitions modules).nodup hc.distinct

/-! Calls that share a body. -/

/-- A call is attributed to the function it resolves to. -/
theorem target_of_ownerOf (hc : Checked info modules R) (hclear : Clear info digest modules R)
    {call : Call} (hcall : call ∈ callsOf modules) {o : DefId}
    (h : ownerOf info (candidatesOf info modules).1 call = some o) : R.target info call = some o := by
  obtain ⟨hcand, -⟩ := candidatesOf_spec hc
  unfold ownerOf at h
  have hexport : ((call.exactExport info).bind fun e => (candidatesOf info modules).1 (.exported e)) = some o →
      R.target info call = some o := by
    intro h
    obtain ⟨e, he, ho⟩ := Option.bind_eq_some_iff.mp h
    have hres : (call.exactExport info).bind R.exported = some o := by
      rw [he]
      exact hcand.exported e o ho
    unfold Resolution.target
    cases hd : call.callee.bind R.denotes with
    | none => exact hres
    | some d =>
      rw [hc.agree call hcall d o hd hres]
      rfl
  cases hcallee : call.callee with
  | none =>
    rw [hcallee] at h
    exact hexport h
  | some d =>
    simp only [hcallee, Option.bind_some] at h
    cases hd : (candidatesOf info modules).1 (.definition d) with
    | some o' =>
      rw [hd, Option.some_or] at h
      cases h
      rw [Resolution.target, hcallee, Option.bind_some, hcand.definition d _ hd, Option.some_or]
    | none =>
      rw [hd, Option.none_or, ← Option.or_assoc] at h
      cases htext : ((definitionKey info d).bind (candidatesOf info modules).1).or
          ((looseDefinitionKey info d).bind (candidatesOf info modules).1) with
      | some o' =>
        rw [htext, Option.some_or] at h
        cases h
        exact hclear.byText call hcall d hcallee hd _ htext
      | none =>
        rw [htext, Option.none_or] at h
        exact hexport h

theorem canonicalOf_eq (p : Plan) (sig : Signature) (bound : List (Binder × Literal)) :
    canonicalOf p sig bound = p.identity ++ nul :: (sig.text ++ nul :: joined (tupleOf bound)) := rfl

theorem classTextOf_eq (p : Plan) (sig : Signature) (bound : List (Binder × Literal)) :
    classTextOf p sig bound = p.identity ++ nul ::
      (joined (abiOf sig (omittedOf p.binders)) ++ nul :: joined (bodyTupleOf bound)) := rfl

/-- The identities of two plans of the graph say which file and name they have. -/
theorem Collected.identity_inj (hc : Checked info modules R) {p q : Plan}
    (hp : Collected info digest modules p) (hq : Collected info digest modules q) {x y : Text}
    (h : p.identity ++ nul :: x = q.identity ++ nul :: y) :
    (p.filename = q.filename ∧ p.name = q.name) ∧ x = y := by
  obtain ⟨m, hm, f, hf, hpf⟩ := mem_candidatesOf hc hp.head
  obtain ⟨m', hm', f', hf', hqf⟩ := mem_candidatesOf hc hq.head
  obtain ⟨-, -, hfile, hname, hid, -⟩ := candidate_eq_some hpf
  obtain ⟨-, -, hfile', hname', hid', -⟩ := candidate_eq_some hqf
  have hnames := hc.names m hm
  have hnames' := hc.names m' hm'
  rw [show p.identity = joined [m.filename, f.name] from hid,
    show q.identity = joined [m'.filename, f'.name] from hid'] at h
  obtain ⟨⟨h₁, h₂⟩, h₃⟩ := identity_append_inj hnames.1 (hnames.2 f hf) hnames'.1 (hnames'.2 f' hf') h
  refine ⟨⟨?_, ?_⟩, h₃⟩
  · exact hfile.trans (h₁.trans hfile'.symm)
  · exact hname.trans (h₂.trans hname'.symm)

theorem Collected.bound_eq_of_canonical (hc : Checked info modules R) {p : Plan}
    (hp : Collected info digest modules p) {call call' : Call} (hcall : call ∈ callsOf modules)
    (hcall' : call' ∈ callsOf modules) {sig sig' : Signature} {bound bound' : List (Binder × Literal)}
    (h : Applies info (candidatesOf info modules).1 p call sig bound)
    (h' : Applies info (candidatesOf info modules).1 p call' sig' bound')
    (heq : canonicalOf p sig bound = canonicalOf p sig' bound') : bound = bound' := by
  rw [canonicalOf_eq, canonicalOf_eq] at heq
  obtain ⟨-, heq⟩ := hp.identity_inj hc hp heq
  obtain ⟨-, heq⟩ := append_sep_inj (hc.printed call hcall sig h.signature).1
    (hc.printed call' hcall' sig' h'.signature).1 heq
  refine joined_entries_inj ?_ heq
  rw [(boundLiterals_spec h.bound).1, (boundLiterals_spec h'.bound).1]

/-- Calls of one body class give the binders its body reads the same literals. -/
theorem Collected.used_eq_of_class (hc : Checked info modules R) (hclear : Clear info digest modules R)
    {p : Plan} (hp : Collected info digest modules p) {call call' : Call} (hcall : call ∈ callsOf modules)
    (hcall' : call' ∈ callsOf modules) {sig sig' : Signature} {bound bound' : List (Binder × Literal)}
    (h : Applies info (candidatesOf info modules).1 p call sig bound)
    (h' : Applies info (candidatesOf info modules).1 p call' sig' bound')
    (heq : classTextOf p sig bound = classTextOf p sig' bound') :
    (bound.filter fun x => x.1.used) = bound'.filter fun x => x.1.used := by
  rw [classTextOf_eq, classTextOf_eq] at heq
  obtain ⟨-, heq⟩ := hp.identity_inj hc hp heq
  obtain ⟨-, hparams, hmodes, hrets⟩ := hc.printed call hcall sig h.signature
  obtain ⟨-, hparams', hmodes', hrets'⟩ := hc.printed call' hcall' sig' h'.signature
  have htarget : R.target info call = R.target info call' := by
    rw [target_of_ownerOf hc hclear hcall h.owner, target_of_ownerOf hc hclear hcall' h'.owner]
  obtain ⟨hlen, hlen'⟩ := hc.arity call hcall call' hcall' htarget sig sig' h.signature h'.signature
  obtain ⟨-, htuple⟩ := joined_append_inj (abiOf_length _ hlen hlen')
    (nul_not_mem_abiOf _ hparams hmodes hrets) (nul_not_mem_abiOf _ hparams' hmodes' hrets')
    (by simp [abiOf]) heq
  refine joined_entries_inj ?_ htuple
  have hfst : ∀ bound : List (Binder × Literal),
      (bound.filter fun x => x.1.used).map Prod.fst = (bound.map Prod.fst).filter Binder.used :=
    fun bound => by rw [List.filter_map]; rfl
  rw [hfst, hfst, (boundLiterals_spec h.bound).1, (boundLiterals_spec h'.bound).1]

theorem param_position {ps : List Param} {n : ℕ} (hps : (ps.filterMap fun p => p.name.map Prod.snd).Nodup)
    {x y : Param × ℕ} (hx : x ∈ ps.zipIdx n) (hy : y ∈ ps.zipIdx n) {d : DefId}
    (hxd : x.1.name.map Prod.snd = some d) (hyd : y.1.name.map Prod.snd = some d) : x.2 = y.2 := by
  induction ps generalizing n with
  | nil => cases hx
  | cons p ps ih =>
    have hnodup : (ps.filterMap fun p => p.name.map Prod.snd).Nodup :=
      hps.sublist ((List.sublist_cons_self p ps).filterMap _)
    have hlater : ∀ {z : Param × ℕ}, z ∈ ps.zipIdx (n + 1) → z.1.name.map Prod.snd = some d →
        p.name.map Prod.snd ≠ some d := by
      intro z hz hzd hpd
      rw [List.filterMap_cons_some (f := fun p : Param => p.name.map Prod.snd) hpd, List.nodup_cons] at hps
      exact hps.1 (List.mem_filterMap.mpr ⟨z.1, List.fst_mem_of_mem_zipIdx hz, hzd⟩)
    rw [List.zipIdx_cons] at hx hy
    rcases List.mem_cons.mp hx with rfl | hx
    · rcases List.mem_cons.mp hy with rfl | hy
      · rfl
      · exact absurd hxd (hlater hy hyd)
    · rcases List.mem_cons.mp hy with rfl | hy
      · exact absurd hyd (hlater hx hxd)
      · exact ih hnodup hx hy

theorem mem_carriersOf {params : List Param} {binder : Text} {k : Carrier} :
    k ∈ carriersOf params binder ↔ ∃ x ∈ params.zipIdx, x.1.annotated = some binder ∧
      x.1.name = some (k.name, k.definition) ∧ x.2 = k.position := by
  simp only [carriersOf, List.mem_filterMap]
  constructor
  · rintro ⟨⟨param, position⟩, hmem, h⟩
    split_ifs at h with hann
    obtain ⟨⟨name, d⟩, hname, rfl⟩ := Option.map_eq_some_iff.mp h
    exact ⟨_, hmem, hann, hname, rfl⟩
  · rintro ⟨⟨param, position⟩, hmem, hann, hname, hpos⟩
    refine ⟨_, hmem, ?_⟩
    simp only at hann hname hpos
    simp [hann, hname, hpos]

theorem mem_specialize_substitutions {p : Plan} {sig : Signature} {bound : List (Binder × Literal)}
    {d : DefId} {t : Text} :
    (d, t) ∈ (specialize digest p sig bound).substitutions ↔
      ∃ x ∈ bound, ∃ k ∈ x.1.carriers, k.definition = d ∧ t = x.2.emitted := by
  simp only [specialize, List.mem_flatMap, List.mem_map, Prod.mk.injEq]
  constructor
  · rintro ⟨x, hx, k, hk, hd, ht⟩
    exact ⟨x, hx, k, hk, hd, ht.symm⟩
  · rintro ⟨x, hx, k, hk, hd, ht⟩
    exact ⟨x, hx, k, hk, hd, ht.symm⟩

/-- A named parameter annotated with a binder of the function is one of its carriers. -/
theorem Collected.carrier (hc : Checked info modules R) {p : Plan} (hp : Collected info digest modules p)
    {x : Param × ℕ} (hx : x ∈ p.declaration.params.zipIdx) {g : GenericName}
    (hg : g ∈ p.declaration.generics) (hann : x.1.annotated = some g.name) {name : Text} {d : DefId}
    (hname : x.1.name = some (name, d)) :
    ∃ b ∈ p.binders, (⟨x.2, name, d⟩ : Carrier) ∈ b.carriers ∧
      (d ∈ p.declaration.bodyNames → b.used = true) := by
  obtain ⟨m, hm, f, hf, hcand⟩ := mem_candidatesOf hc hp.head
  obtain ⟨-, hdecl, -, -, -, -, hnames, hbinders⟩ := candidate_eq_some hcand
  have hdecl : p.declaration = f := hdecl
  have hmem : g.name ∈ p.binders.map Binder.name := by
    rw [show p.binders.map Binder.name = f.generics.map GenericName.name from hnames, ← hdecl]
    exact List.mem_map_of_mem hg
  obtain ⟨b, hb, hbg⟩ := List.mem_map.mp hmem
  obtain ⟨hcarriers, hbused⟩ := hbinders b hb
  have hk : (⟨x.2, name, d⟩ : Carrier) ∈ b.carriers := by
    rw [hcarriers, mem_carriersOf, ← hdecl]
    exact ⟨x, hx, by rw [hann, hbg], hname, rfl⟩
  refine ⟨b, hb, hk, fun hd => ?_⟩
  rw [hbused, List.any_eq_true]
  exact ⟨_, hk, by simpa [← hdecl] using hd⟩

/-- Different carriers are different parameters. -/
theorem Collected.carrier_position (hc : Checked info modules R) {p : Plan}
    (hp : Collected info digest modules p) {b b' : Binder} (hb : b ∈ p.binders) (hb' : b' ∈ p.binders)
    {k k' : Carrier} (hk : k ∈ b.carriers) (hk' : k' ∈ b'.carriers) (h : k.definition = k'.definition) :
    k.position = k'.position := by
  obtain ⟨m, hm, f, hf, hcand⟩ := mem_candidatesOf hc hp.head
  obtain ⟨-, -, -, -, -, -, -, hbinders⟩ := candidate_eq_some hcand
  rw [(hbinders b hb).1, mem_carriersOf] at hk
  rw [(hbinders b' hb').1, mem_carriersOf] at hk'
  obtain ⟨x, hx, -, hxname, hxpos⟩ := hk
  obtain ⟨y, hy, -, hyname, hypos⟩ := hk'
  rw [← hxpos, ← hypos]
  refine param_position (hc.params m hm f hf) hx hy (d := k.definition) ?_ ?_
  · rw [hxname, Option.map_some]
  · rw [hyname, Option.map_some, h]

/-- A specialization replaces a carrier by the literal of its binder only. -/
theorem Collected.substitution_iff (hc : Checked info modules R) {p : Plan}
    (hp : Collected info digest modules p) {sig : Signature} {bound : List (Binder × Literal)}
    (hbound : boundLiterals sig p.binders = some bound) {b : Binder} {l : Literal} (hl : (b, l) ∈ bound)
    {k : Carrier} (hk : k ∈ b.carriers) (t : Text) :
    (k.definition, t) ∈ (specialize digest p sig bound).substitutions ↔ t = l.emitted := by
  obtain ⟨hfst, hlits⟩ := boundLiterals_spec hbound
  have hbinder : ∀ x ∈ bound, x.1 ∈ p.binders := by
    intro x hx
    rw [← hfst]
    exact List.mem_map_of_mem hx
  rw [mem_specialize_substitutions]
  constructor
  · rintro ⟨x, hx, k', hk', hd, rfl⟩
    have hpos := hp.carrier_position hc (hbinder x hx) (hbinder _ hl) hk' hk hd
    have hlit := hlits x hx k' hk'
    rw [hpos, hlits _ hl k hk] at hlit
    rw [← Option.some.inj hlit]
  · rintro rfl
    exact ⟨_, hl, k, hk, rfl, rfl⟩

/-- A call recorded for one specialization may enter any body of its class. -/
theorem Collected.enters (hinj : Function.Injective digest) (hc : Checked info modules R)
    (hclear : Clear info digest modules R) {p : Plan} (hp : Collected info digest modules p)
    {s body : Specialization} (hs : s ∈ p.specializations) (hbody : body ∈ p.specializations)
    (hclass : body.bodyClass = s.bodyClass) {call : Call} (hcall : call ∈ s.calls) :
    Enters info R p s body call := by
  obtain ⟨⟨call₀, hcall₀, sig₀, bound₀, happ₀, hmade₀⟩, hrec⟩ := hp.ok.recorded s hs
  obtain ⟨⟨call₁, hcall₁, sig₁, bound₁, happ₁, hmade₁⟩, -⟩ := hp.ok.recorded body hbody
  obtain ⟨hmem, sig, bound, happ, hkey⟩ := hrec call hcall
  rw [hmade₀] at hkey
  have hbound : bound = bound₀ := hp.bound_eq_of_canonical hc hmem hcall₀ happ happ₀ (hinj hkey)
  subst hbound
  rw [hmade₀, hmade₁] at hclass
  have hused := hp.used_eq_of_class hc hclear hcall₁ hcall₀ happ₁ happ₀ (hinj hclass)
  obtain ⟨hfst, hlits⟩ := boundLiterals_spec happ.bound
  refine ⟨target_of_ownerOf hc hclear hmem happ.owner, by rw [hmade₁]; rfl, by rw [hmade₀, hmade₁]; rfl,
    sig, happ.signature, fun x hx g hg hann name d hname hd => ?_⟩
  obtain ⟨b, hb, hk, hread⟩ := hp.carrier hc hx hg hann hname
  rw [← hfst] at hb
  obtain ⟨⟨b, l⟩, hl, rfl⟩ := List.mem_map.mp hb
  have hl₁ : (b, l) ∈ bound₁ := by
    have hfilter : (b, l) ∈ bound₁.filter fun x => x.1.used := by
      rw [hused]
      exact List.mem_filter.mpr ⟨hl, hread hd⟩
    exact (List.mem_filter.mp hfilter).1
  refine ⟨l, hlits _ hl _ hk, fun t => ?_⟩
  rw [hmade₁]
  exact hp.substitution_iff hc happ₁.bound hl₁ hk t

/-! Selections. -/

/-- Bodies of one class, or of one name in a file, are specializations of one function. -/
theorem Collected.plan_eq (hc : Checked info modules R) (hclear : Clear info digest modules R)
    {p q : Plan} (hp : p ∈ collectGraph info digest modules) (hq : q ∈ collectGraph info digest modules)
    {call call' : Call} (hcall : call ∈ callsOf modules) (hcall' : call' ∈ callsOf modules)
    {sig sig' : Signature} {bound bound' : List (Binder × Literal)}
    (h : Applies info (candidatesOf info modules).1 p call sig bound)
    (h' : Applies info (candidatesOf info modules).1 q call' sig' bound')
    (heq : classTextOf p sig bound = classTextOf q sig' bound' ∨
      canonicalOf p sig bound = canonicalOf q sig' bound') : p = q := by
  have hp' := collectGraph_collected hc hp
  have hq' := collectGraph_collected hc hq
  have hsame : p.filename = q.filename ∧ p.name = q.name := by
    rcases heq with heq | heq
    · exact (hp'.identity_inj hc hq' heq).1
    · exact (hp'.identity_inj hc hq' heq).1
  refine List.inj_on_of_nodup_map (collectGraph_definitions digest hc) hp hq ?_
  by_contra hne
  obtain ⟨hclass, hcanonical⟩ := hclear.twins p.head hp'.head q.head hq'.head hne hsame.1 hsame.2 call hcall
    call' hcall' sig sig' bound bound' (h.specializations []) (h'.specializations [])
  rcases heq with heq | heq
  · exact hclass heq
  · exact hcanonical heq

theorem privateName_inj {name name' key key' : Text} (hkey : 16 ≤ key.length) (hkey' : 16 ≤ key'.length)
    (h : privateName name key = privateName name' key') : key.take 16 = key'.take 16 := by
  have hlen : (key.take 16).length = (key'.take 16).length := by
    rw [List.length_take, List.length_take, min_eq_left hkey, min_eq_left hkey']
  exact (List.cons.inj (List.append_inj_right' h (by simpa using hlen))).2

theorem specializations_nodup (hc : Checked info modules R) :
    ((collectGraph info digest modules).flatMap Plan.specializations).Nodup := by
  rw [List.nodup_flatMap]
  refine ⟨fun p hp => (collectGraph_collected hc hp).ok.keys.of_map, ?_⟩
  have hdefs := collectGraph_definitions digest hc
  rw [List.Nodup, List.pairwise_map] at hdefs
  refine hdefs.imp_of_mem fun {p q} hp hq hne s hs hs' => hne ?_
  obtain ⟨⟨_, _, sig, bound, _, hmade⟩, -⟩ := (collectGraph_collected hc hp).ok.recorded s hs
  obtain ⟨⟨_, _, sig', bound', _, hmade'⟩, -⟩ := (collectGraph_collected hc hq).ok.recorded s hs'
  have howner : s.owner = p.definition := by rw [hmade]; rfl
  have howner' : s.owner = q.definition := by rw [hmade']; rfl
  exact howner.symm.trans howner'

/-- Any way of dividing the collected specializations by class is sound. -/
theorem sound_of_divides (hinj : Function.Injective digest) (hlen : ∀ t, 16 ≤ (digest t).length)
    (hc : Checked info modules R) (hclear : Clear info digest modules R) {sel : Selection}
    (h : Divides ((collectGraph info digest modules).flatMap Plan.specializations) sel) :
    Sound info R (collectGraph info digest modules) sel where
  enters x hx call hcall := by
    have hx₁ : x.1 ∈ (collectGraph info digest modules).flatMap Plan.specializations :=
      h.perm.mem_iff.mp (List.mem_append_left _ (List.mem_map_of_mem hx))
    obtain ⟨hx₂, hclass⟩ := h.body x hx
    obtain ⟨p, hp, hs⟩ := List.mem_flatMap.mp hx₁
    obtain ⟨q, hq, hbody⟩ := List.mem_flatMap.mp hx₂
    obtain ⟨⟨call₀, hcall₀, sig₀, bound₀, happ₀, hmade₀⟩, -⟩ :=
      (collectGraph_collected hc hp).ok.recorded x.1 hs
    obtain ⟨⟨call₁, hcall₁, sig₁, bound₁, happ₁, hmade₁⟩, -⟩ :=
      (collectGraph_collected hc hq).ok.recorded x.2 hbody
    have hclass' := hclass
    rw [hmade₀, hmade₁] at hclass'
    have hqp := Collected.plan_eq hc hclear hq hp hcall₁ hcall₀ happ₁ happ₀ (.inl (hinj hclass'))
    subst hqp
    exact ⟨q, hq, (collectGraph_collected hc hq).enters hinj hc hclear hs hbody hclass hcall⟩
  divided p hp s hs := by
    have hmem := h.perm.mem_iff.mpr (List.mem_flatMap.mpr ⟨p, hp, hs⟩)
    rcases List.mem_append.mp hmem with hmem | hmem
    · obtain ⟨⟨s, r⟩, hx, rfl⟩ := List.mem_map.mp hmem
      exact .inl ⟨r, hx⟩
    · exact .inr hmem
  apart x hx hdeclined := by
    have hnodup := h.perm.nodup_iff.mpr (specializations_nodup hc)
    exact List.disjoint_of_nodup_append hnodup (List.mem_map_of_mem hx) hdeclined
  names p hp q hq _ x _ y _ hx hy hname := by
    have hp' := collectGraph_collected hc hp
    have hq' := collectGraph_collected hc hq
    obtain ⟨⟨call₀, hcall₀, sig₀, bound₀, happ₀, hmade₀⟩, -⟩ := hp'.ok.recorded x.2 hx
    obtain ⟨⟨call₁, hcall₁, sig₁, bound₁, happ₁, hmade₁⟩, -⟩ := hq'.ok.recorded y.2 hy
    rw [hmade₀, hmade₁] at hname
    have hcanonical := hclear.prefixes p.head hp'.head q.head hq'.head call₀ hcall₀ call₁ hcall₁ sig₀ sig₁
      bound₀ bound₁ (happ₀.specializations []) (happ₁.specializations [])
      (privateName_inj (hlen _) (hlen _) hname)
    have hpq := Collected.plan_eq hc hclear hp hq hcall₀ hcall₁ happ₀ happ₁ (.inr hcanonical)
    subst hpq
    refine List.inj_on_of_nodup_map hp'.ok.keys hx hy ?_
    rw [hmade₀, hmade₁]
    exact congrArg digest hcanonical

/-- `local function f<const N: integer>(n: N)`, with a body that reads `n`. -/
def constFunction (name : String) (definition param : DefId) : LocalFunction :=
  { name := text name
    definition := some definition
    generics := [⟨text "N", true, some .integer⟩]
    params := [⟨some (text "N"), some (text "n", param)⟩]
    bodyNames := [param]
    aotRequired := false }

def threeSignature : Signature := ⟨text "function(3): nil", [⟨text "3", some (.integer 3)⟩], [], []⟩

def callWithThree (node callee : DefId) : Call :=
  { node := node
    file := text "m.nupp"
    callee := some callee
    exactCallExport := none
    signature := some threeSignature }

/-- Two functions, each called with a 3. -/
def twoFunctions (name name' : String) : List Module :=
  [{ filename := text "m.nupp"
     moduleName := some (text "m")
     functions := [constFunction name 1 11, constFunction name' 2 12]
     constLocals := []
     valueDefs := []
     returned := []
     calls := [callWithThree 21 1, callWithThree 22 2] }]

def namedLocals (name name' : String) (d : DefId) : Definition :=
  ⟨some (text "m.nupp"), text (if d = 1 then name else name'), text "function", none⟩

def ownIdentity : Resolution := ⟨fun d => some d, fun _ => none⟩

/-- Stands for the digest, which is injective and sixteen characters long at least. -/
def padded (t : Text) : Text := t ++ text "0123456789abcdef"

theorem padded_injective : Function.Injective padded := fun _ _ h => List.append_cancel_right h

theorem padded_length (t : Text) : 16 ≤ (padded t).length := by
  rw [padded, List.length_append]
  exact Nat.le_add_left _ _

theorem twoFunctions_checked (name name' : String) (h : nul ∉ name.toList) (h' : nul ∉ name'.toList) :
    Checked (namedLocals name name') (twoFunctions name name') ownIdentity where
  function := by
    simp [twoFunctions, constFunction, ownIdentity]
  distinct := by
    simp [twoFunctions, constFunction]
  constLocal := by
    simp [twoFunctions]
  exports := by
    simp [twoFunctions]
  agree := by
    simp [ownIdentity]
  params := by
    simp [twoFunctions, constFunction]
  arity := by
    simp [callsOf, twoFunctions, callWithThree]
  names := by
    simpa [twoFunctions, constFunction, text, h, h'] using by decide
  printed := by
    simp [callsOf, twoFunctions, callWithThree, threeSignature]
    decide

def planOf (name : String) (definition param : DefId) : Plan :=
  { declaration := constFunction name definition param
    definition := definition
    identity := joined [text "m.nupp", text name]
    filename := text "m.nupp"
    name := text name
    requiredAot := false
    binders := [⟨text "N", .integer, [⟨0, text "n", param⟩], true⟩]
    specializations := [] }

theorem candidate_constFunction (name : String) (definition param : DefId) :
    candidate (text "m.nupp") (constFunction name definition param) = some (planOf name definition param) := by
  simp [candidate, constFunction, constDomains, planOf, binderOf, carriersOf]

theorem candidatesOf_plans (name name' : String) :
    (candidatesOf (namedLocals name name') (twoFunctions name name')).2 =
      [planOf name 1 11, planOf name' 2 12] := by
  simp [candidatesOf, twoFunctions, collectCandidates, addFunction, candidate_constFunction]

theorem candidatesOf_definition (name name' : String) (d : DefId) :
    (candidatesOf (namedLocals name name') (twoFunctions name name')).1 (.definition d) =
      if d = 1 ∨ d = 2 then some d else none := by
  by_cases h₁ : d = 1 <;> by_cases h₂ : d = 2 <;> simp [h₁, h₂, candidatesOf, twoFunctions, collectCandidates, addFunction, candidate_constFunction, register, planOf,
    definitionKey, looseDefinitionKey, namedLocals]

def threeBound (param : DefId) : List (Binder × Literal) :=
  [(⟨text "N", .integer, [⟨0, text "n", param⟩], true⟩, .integer 3)]

theorem mem_callsOf_twoFunctions {name name' : String} {call : Call}
    (h : call ∈ callsOf (twoFunctions name name')) :
    call = callWithThree 21 1 ∨ call = callWithThree 22 2 := by
  simpa [callsOf, twoFunctions] using h

theorem twoFunctions_applies {name name' : String} {p : Plan} {c : Candidates} {call : Call}
    {sig : Signature} {bound : List (Binder × Literal)} (hp : p ∈ [planOf name 1 11, planOf name' 2 12])
    (hcall : call ∈ callsOf (twoFunctions name name'))
    (h : Applies (namedLocals name name') c p call sig bound) :
    sig = threeSignature ∧ ((p = planOf name 1 11 ∧ bound = threeBound 11) ∨
      (p = planOf name' 2 12 ∧ bound = threeBound 12)) := by
  have hsig : sig = threeSignature := by
    have hs := h.signature
    rcases mem_callsOf_twoFunctions hcall with rfl | rfl
    · exact (Option.some.inj hs).symm
    · exact (Option.some.inj hs).symm
  subst hsig
  refine ⟨rfl, ?_⟩
  have hb := h.bound
  simp only [List.mem_cons, List.not_mem_nil, or_false] at hp
  rcases hp with rfl | rfl
  · exact .inl ⟨rfl, (Option.some.inj hb).symm⟩
  · exact .inr ⟨rfl, (Option.some.inj hb).symm⟩

theorem twoFunctions_clear : Clear (namedLocals "f" "g") padded (twoFunctions "f" "g") ownIdentity where
  byText call hcall d hd hnone := by
    have hcallee : d = 1 ∨ d = 2 := by
      rcases mem_callsOf_twoFunctions hcall with rfl | rfl
      · exact .inl (Option.some.inj hd).symm
      · exact .inr (Option.some.inj hd).symm
    rw [candidatesOf_definition, if_pos hcallee] at hnone
    cases hnone
  twins p hp q hq hne _ hname := by
    rw [candidatesOf_plans] at hp hq
    simp only [List.mem_cons, List.not_mem_nil, or_false] at hp hq
    rcases hp with rfl | rfl <;> rcases hq with rfl | rfl
    · exact absurd rfl hne
    · exact absurd hname (by decide)
    · exact absurd hname (by decide)
    · exact absurd rfl hne
  prefixes p hp q hq call hcall call' hcall' sig sig' bound bound' h h' hkey := by
    rw [candidatesOf_plans] at hp hq
    obtain ⟨rfl, ⟨rfl, rfl⟩ | ⟨rfl, rfl⟩⟩ := twoFunctions_applies hp hcall h <;>
      obtain ⟨rfl, ⟨rfl, rfl⟩ | ⟨rfl, rfl⟩⟩ := twoFunctions_applies hq hcall' h'
    · rfl
    · exact absurd hkey (by decide)
    · exact absurd hkey (by decide)
    · rfl

def threeSpecialization (name : String) (node definition param : DefId) : Specialization :=
  { specialize padded (planOf name definition param) threeSignature (threeBound param) with
    calls := [callWithThree node definition] }

theorem collectGraph_twoFunctions (name : String) :
    collectGraph (namedLocals name name) padded (twoFunctions name name) =
      [{ planOf name 1 11 with specializations := [threeSpecialization name 21 1 11] },
       { planOf name 2 12 with specializations := [threeSpecialization name 22 2 12] }] := by
  have hplans := candidatesOf_plans name name
  have howner : ∀ node d, d = 1 ∨ d = 2 → ownerOf (namedLocals name name)
      (candidatesOf (namedLocals name name) (twoFunctions name name)).1 (callWithThree node d) = some d := by
    intro node d hd
    simp only [ownerOf, callWithThree, Option.bind_some, candidatesOf_definition, if_pos hd, Option.some_or]
  have hcalls : callsOf (twoFunctions name name) = [callWithThree 21 1, callWithThree 22 2] := rfl
  have hrecorded : (callsOf (twoFunctions name name)).foldl (addCall (namedLocals name name) padded
      (candidatesOf (namedLocals name name) (twoFunctions name name)).1)
      (candidatesOf (namedLocals name name) (twoFunctions name name)).2 =
      [{ planOf name 1 11 with specializations := [threeSpecialization name 21 1 11] },
       { planOf name 2 12 with specializations := [threeSpecialization name 22 2 12] }] := by
    rw [hcalls, hplans, List.foldl_cons, List.foldl_cons, List.foldl_nil]
    unfold addCall
    simp only [howner 21 1 (.inl rfl), howner 22 2 (.inr rfl)]
    rfl
  show sortPlans ((callsOf (twoFunctions name name)).foldl (addCall (namedLocals name name) padded
      (candidatesOf (namedLocals name name) (twoFunctions name name)).1)
      (candidatesOf (namedLocals name name) (twoFunctions name name)).2) = _
  rw [hrecorded]
  unfold sortPlans
  rw [List.mergeSort_of_pairwise]
  · simp
  · simp [planOf]
 

end Nupp.ConstSpecialize
