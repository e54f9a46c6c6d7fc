import Nupp.Lua.ConstSpecializeKeys
import Mathlib.Data.List.Dedup

/-! What collection records, for every graph of modules. -/

namespace Nupp.ConstSpecialize

/-- The function each definition and each export denotes. -/
structure Resolution where
  denotes : DefId → Option DefId
  exported : Text → Option DefId

variable (info : DefId → Definition) (digest : Text → Text)

/-- The declaration the callee of a call resolves to. -/
def Resolution.target (R : Resolution) (call : Call) : Option DefId :=
  (call.callee.bind R.denotes).or ((call.exactExport info).bind R.exported)

def callsOf (modules : List Module) : List Call := modules.flatMap Module.calls

def candidatesOf (modules : List Module) : Candidates × List Plan :=
  modules.foldl (collectCandidates info) (fun _ => none, [])

/-- What the checker promises of the graph it hands over. -/
structure Checked (modules : List Module) (R : Resolution) : Prop where
  function : ∀ m ∈ modules, ∀ f ∈ m.functions, ∀ d, f.definition = some d → R.denotes d = some d
  distinct : (modules.flatMap fun m => m.functions.filterMap LocalFunction.definition).Nodup
  constLocal : ∀ m ∈ modules, ∀ x ∈ m.constLocals, R.denotes x.1 = R.denotes x.2
  exports : ∀ m ∈ modules, ∀ name, m.moduleName = some name → ∀ x ∈ m.valueDefs ++ m.returned,
    R.exported (exportIdentity name x.1) = R.denotes x.2
  agree : ∀ call ∈ callsOf modules, ∀ d e, call.callee.bind R.denotes = some d →
    (call.exactExport info).bind R.exported = some e → d = e
  params : ∀ m ∈ modules, ∀ f ∈ m.functions, (f.params.filterMap fun p => p.name.map Prod.snd).Nodup
  arity : ∀ call ∈ callsOf modules, ∀ call' ∈ callsOf modules,
    R.target info call = R.target info call' → ∀ sig sig', call.signature = some sig →
    call'.signature = some sig' → sig.params.length = sig'.params.length ∧ sig.rets.length = sig'.rets.length
  names : ∀ m ∈ modules, nul ∉ m.filename ∧ ∀ f ∈ m.functions, nul ∉ f.name
  printed : ∀ call ∈ callsOf modules, ∀ sig, call.signature = some sig → nul ∉ sig.text ∧
    (∀ p ∈ sig.params, nul ∉ p.text) ∧ (∀ mode ∈ sig.paramModes, nul ∉ mode) ∧ ∀ r ∈ sig.rets, nul ∉ r.text

/-! Candidates. -/

/-- Keys by identity lead to the function they denote. -/
structure CandidatesOk (R : Resolution) (c : Candidates) : Prop where
  definition : ∀ d o, c (.definition d) = some o → R.denotes d = some o
  exported : ∀ e o, c (.exported e) = some o → R.exported e = some o

/-- The plans are those of candidate functions, in order. -/
def PlansFrom (modules : List Module) (plans : List Plan) : Prop :=
  plans = modules.flatMap fun m => m.functions.filterMap (candidate m.filename)

variable {info digest} {modules : List Module} {R : Resolution}

theorem constDomains_names {generics : List GenericName} {domains : List (Text × Domain)}
    (h : constDomains generics = some domains) :
    domains.map Prod.fst = generics.map GenericName.name := by
  induction generics generalizing domains with
  | nil =>
    cases (show some [] = some domains from h)
    rfl
  | cons g generics ih =>
    simp only [constDomains, List.mapM_cons, bind, Option.bind_eq_some_iff, pure,
      Option.some.injEq] at h
    obtain ⟨x, hx, domains, hrest, rfl⟩ := h
    have hname : x.1 = g.name := by
      split_ifs at hx
      obtain ⟨domain, -, rfl⟩ := Option.map_eq_some_iff.mp hx
      rfl
    rw [List.map_cons, List.map_cons, hname, ih hrest]

theorem candidate_eq_some {filename : Text} {f : LocalFunction} {plan : Plan}
    (h : candidate filename f = some plan) :
    f.definition = some plan.definition ∧ plan.declaration = f ∧ plan.filename = filename ∧
      plan.name = f.name ∧ plan.identity = joined [filename, f.name] ∧ plan.specializations = [] ∧
      plan.binders.map Binder.name = f.generics.map GenericName.name ∧
      ∀ b ∈ plan.binders, b.carriers = carriersOf f.params b.name ∧
        b.used = b.carriers.any fun c => c.definition ∈ f.bodyNames := by
  unfold candidate at h
  split at h
  case h_2 => cases h
  case h_1 definition domains hd hdomains =>
    simp only at h
    split_ifs at h
    cases h
    refine ⟨hd, rfl, rfl, rfl, rfl, rfl, ?_, fun b hb => ?_⟩
    · rw [← constDomains_names hdomains, List.map_map]
      rfl
    simp only [List.mem_map] at hb
    obtain ⟨x, -, rfl⟩ := hb
    exact ⟨rfl, rfl⟩

theorem CandidatesOk.register_definition {c : Candidates} (h : CandidatesOk R c) {d o : DefId}
    (hd : R.denotes d = some o) : CandidatesOk R (register (some (.definition d)) o c) where
  definition d' o' h' := by
    by_cases hdd : d' = d
    · subst hdd
      simp only [register, Function.update_self] at h'
      cases h'
      exact hd
    · refine h.definition d' o' ?_
      simpa [register, hdd] using h'
  exported e o' h' := h.exported e o' (by simpa [register] using h')

theorem CandidatesOk.register_text {c : Candidates} (h : CandidatesOk R c) {key : Option Key} {o : DefId}
    (hkey : ∀ k, key = some k → (∃ f n kind, k = .stable f n kind) ∨ ∃ f n, k = .loose f n) :
    CandidatesOk R (register key o c) := by
  cases key with
  | none => exact h
  | some k =>
    rcases hkey k rfl with ⟨f, n, kind, rfl⟩ | ⟨f, n, rfl⟩
    · exact ⟨fun d o' h' => h.definition d o' (by simpa [register] using h'),
        fun e o' h' => h.exported e o' (by simpa [register] using h')⟩
    · exact ⟨fun d o' h' => h.definition d o' (by simpa [register] using h'),
        fun e o' h' => h.exported e o' (by simpa [register] using h')⟩

theorem CandidatesOk.register_exported {c : Candidates} (h : CandidatesOk R c) {e : Text} {o : DefId}
    (he : R.exported e = some o) : CandidatesOk R (register (some (.exported e)) o c) where
  definition d o' h' := h.definition d o' (by simpa [register] using h')
  exported e' o' h' := by
    by_cases hee : e' = e
    · subst hee
      simp only [register, Function.update_self] at h'
      cases h'
      exact he
    · refine h.exported e' o' ?_
      simpa [register, hee] using h'

theorem addFunctions_spec {filename : Text} (fs : List LocalFunction)
    (hfs : ∀ f ∈ fs, ∀ d, f.definition = some d → R.denotes d = some d) {st : Candidates × List Plan}
    (h : CandidatesOk R st.1) :
    CandidatesOk R (fs.foldl (addFunction info filename) st).1 ∧
      (fs.foldl (addFunction info filename) st).2 = st.2 ++ fs.filterMap (candidate filename) := by
  induction fs generalizing st with
  | nil => exact ⟨h, by simp⟩
  | cons f fs ih =>
    have hrest := fun f hf => hfs f (List.mem_cons_of_mem _ hf)
    rw [List.foldl_cons]
    cases hf : candidate filename f with
    | none =>
      have hstep : addFunction info filename st f = st := by simp [addFunction, hf]
      rw [hstep, List.filterMap_cons_none hf]
      exact ih hrest h
    | some plan =>
      have hd := hfs f List.mem_cons_self _ (candidate_eq_some hf).1
      have hok : CandidatesOk R (addFunction info filename st f).1 := by
        simp only [addFunction, hf]
        refine ((h.register_definition hd).register_text ?_).register_text ?_
        · intro k hk
          simp only [definitionKey, Option.map_eq_some_iff] at hk
          obtain ⟨file, -, rfl⟩ := hk
          exact .inl ⟨_, _, _, rfl⟩
        · intro k hk
          simp only [looseDefinitionKey, Option.map_eq_some_iff] at hk
          obtain ⟨file, -, rfl⟩ := hk
          exact .inr ⟨_, _, rfl⟩
      obtain ⟨hcand, hplans⟩ := ih hrest hok
      refine ⟨hcand, ?_⟩
      rw [hplans, List.filterMap_cons_some hf]
      simp [addFunction, hf]

theorem addAliases_spec (xs : List (DefId × DefId)) (hxs : ∀ x ∈ xs, R.denotes x.1 = R.denotes x.2)
    {c : Candidates} (h : CandidatesOk R c) : CandidatesOk R (xs.foldl addAlias c) := by
  induction xs generalizing c with
  | nil => exact h
  | cons x xs ih =>
    refine ih (fun y hy => hxs y (List.mem_cons_of_mem _ hy)) ?_
    unfold addAlias
    cases ho : c (.definition x.2) with
    | none => exact h
    | some o =>
      exact h.register_definition ((hxs x List.mem_cons_self).trans (h.definition _ _ ho))

theorem addExports_spec {name : Text} (xs : List (Text × DefId))
    (hxs : ∀ x ∈ xs, R.exported (exportIdentity name x.1) = R.denotes x.2)
    {c : Candidates} (h : CandidatesOk R c) : CandidatesOk R (xs.foldl (addExport name) c) := by
  induction xs generalizing c with
  | nil => exact h
  | cons x xs ih =>
    refine ih (fun y hy => hxs y (List.mem_cons_of_mem _ hy)) ?_
    unfold addExport
    cases ho : c (.definition x.2) with
    | none => exact h
    | some o => exact h.register_exported ((hxs x List.mem_cons_self).trans (h.definition _ _ ho))

theorem candidatesOf_spec (hc : Checked info modules R) :
    CandidatesOk R (candidatesOf info modules).1 ∧ PlansFrom modules (candidatesOf info modules).2 := by
  suffices h : ∀ ms : List Module, (∀ m ∈ ms, m ∈ modules) → ∀ st : Candidates × List Plan, CandidatesOk R st.1 →
      CandidatesOk R (ms.foldl (collectCandidates info) st).1 ∧
        (ms.foldl (collectCandidates info) st).2 =
          st.2 ++ ms.flatMap fun m => m.functions.filterMap (candidate m.filename) by
    obtain ⟨hok, hplans⟩ := h modules (fun _ hm => hm) (fun _ => none, []) ⟨nofun, nofun⟩
    exact ⟨hok, by simpa [PlansFrom, candidatesOf] using hplans⟩
  intro ms
  induction ms with
  | nil =>
    intro _ st h
    exact ⟨h, by simp⟩
  | cons m ms ih =>
    intro hms st h
    have hm := hms m List.mem_cons_self
    obtain ⟨hok₁, hplans₁⟩ := addFunctions_spec m.functions
      (hc.function m hm) h
    have hok₂ := addAliases_spec m.constLocals (hc.constLocal m hm) hok₁
    have hstep : CandidatesOk R (collectCandidates info st m).1 ∧
        (collectCandidates info st m).2 = st.2 ++ m.functions.filterMap (candidate m.filename) := by
      unfold collectCandidates
      cases hname : m.moduleName with
      | none => exact ⟨hok₂, hplans₁⟩
      | some name => exact ⟨addExports_spec _ (hc.exports m hm name hname) hok₂, hplans₁⟩
    obtain ⟨hcand, hplans⟩ := ih (fun m hm => hms m (List.mem_cons_of_mem _ hm)) _ hstep.1
    refine ⟨hcand, ?_⟩
    rw [List.foldl_cons, hplans, hstep.2, List.flatMap_cons, List.append_assoc]

/-! Calls. -/

/-- A call of the function of `p` with a literal for every binder. -/
structure Applies (info : DefId → Definition) (c : Candidates) (p : Plan) (call : Call)
    (sig : Signature) (bound : List (Binder × Literal)) : Prop where
  owner : ownerOf info c call = some p.definition
  signature : call.signature = some sig
  bound : boundLiterals sig p.binders = some bound

/-- A specialization was made for a call, and its calls are those with its key. -/
structure Recorded (info : DefId → Definition) (digest : Text → Text) (c : Candidates)
    (calls : List Call) (p : Plan) (s : Specialization) : Prop where
  made : ∃ call ∈ calls, ∃ sig bound, Applies info c p call sig bound ∧
    s = { specialize digest p sig bound with calls := s.calls }
  recorded : ∀ call ∈ s.calls, call ∈ calls ∧ ∃ sig bound, Applies info c p call sig bound ∧
    digest (canonicalOf p sig bound) = s.key

structure PlanOk (info : DefId → Definition) (digest : Text → Text) (c : Candidates)
    (calls : List Call) (p : Plan) : Prop where
  recorded : ∀ s ∈ p.specializations, Recorded info digest c calls p s
  keys : (p.specializations.map Specialization.key).Nodup

theorem Recorded.mono {c : Candidates} {calls calls' : List Call} {p : Plan} {s : Specialization}
    (h : Recorded info digest c calls p s) (hcalls : ∀ x ∈ calls, x ∈ calls') :
    Recorded info digest c calls' p s := by
  obtain ⟨⟨call, hmem, hmade⟩, hrec⟩ := h
  exact ⟨⟨call, hcalls call hmem, hmade⟩, fun x hx => ⟨hcalls x (hrec x hx).1, (hrec x hx).2⟩⟩

theorem recordCall_keys {call : Call} {spec : Specialization} {ss : List Specialization}
    (h : (ss.map Specialization.key).Nodup) :
    ((recordCall call spec ss).map Specialization.key).Nodup := by
  have hkeys : (recordCall call spec ss).map Specialization.key =
      if spec.key ∈ ss.map Specialization.key then ss.map Specialization.key
      else ss.map Specialization.key ++ [spec.key] := by
    clear h
    induction ss with
    | nil => simp [recordCall]
    | cons s ss ih =>
      by_cases hs : s.key = spec.key
      · simp [recordCall, hs]
      · have hs' : spec.key ≠ s.key := fun he => hs he.symm
        simp only [recordCall, hs, if_false, List.map_cons, ih, List.mem_cons, hs', false_or]
        split_ifs <;> simp
  rw [hkeys]
  split_ifs with hmem
  · exact h
  · rw [List.nodup_append_comm]
    exact List.nodup_cons.mpr ⟨by simpa using hmem, h⟩

theorem mem_recordCall {call : Call} {spec s : Specialization} {ss : List Specialization}
    (h : s ∈ recordCall call spec ss) :
    s ∈ ss ∨ s = { spec with calls := [call] } ∨
      ∃ s₀ ∈ ss, s₀.key = spec.key ∧ s = { s₀ with calls := s₀.calls ++ [call] } := by
  induction ss with
  | nil => exact .inr (.inl (by simpa [recordCall] using h))
  | cons x ss ih =>
    unfold recordCall at h
    split_ifs at h with hx
    · rcases List.mem_cons.mp h with rfl | h
      · exact .inr (.inr ⟨x, List.mem_cons_self, hx, rfl⟩)
      · exact .inl (List.mem_cons_of_mem _ h)
    · rcases List.mem_cons.mp h with rfl | h
      · exact .inl List.mem_cons_self
      · rcases ih h with h | h | ⟨s₀, h₀, hs⟩
        · exact .inl (List.mem_cons_of_mem _ h)
        · exact .inr (.inl h)
        · exact .inr (.inr ⟨s₀, List.mem_cons_of_mem _ h₀, hs⟩)

theorem Applies.specializations {c : Candidates} {p : Plan} {call : Call} {sig : Signature}
    {bound : List (Binder × Literal)} (h : Applies info c p call sig bound) (ss : List Specialization) :
    Applies info c { p with specializations := ss } call sig bound :=
  ⟨h.owner, h.signature, h.bound⟩

theorem Recorded.specializations {c : Candidates} {calls : List Call} {p : Plan} {s : Specialization}
    (h : Recorded info digest c calls p s) (ss : List Specialization) :
    Recorded info digest c calls { p with specializations := ss } s := by
  obtain ⟨⟨x, hx, sig, bound, hap, hmade⟩, hrec⟩ := h
  refine ⟨⟨x, hx, sig, bound, hap.specializations ss, hmade⟩, fun y hy => ?_⟩
  obtain ⟨hy', sig', bound', hap', hkey⟩ := hrec y hy
  exact ⟨hy', sig', bound', hap'.specializations ss, hkey⟩

/-- Recording one more call keeps a plan in order. -/
theorem PlanOk.record {c : Candidates} {calls : List Call} {p : Plan} {call : Call} {sig : Signature}
    {bound : List (Binder × Literal)} (h : PlanOk info digest c calls p)
    (ha : Applies info c p call sig bound) :
    PlanOk info digest c (calls ++ [call])
      { p with
        specializations := recordCall call (specialize digest p sig bound) p.specializations } := by
  have hin : ∀ x ∈ calls, x ∈ calls ++ [call] := fun x hx => List.mem_append_left _ hx
  have hlast : call ∈ calls ++ [call] := by simp
  refine ⟨fun s hs => Recorded.specializations ?_ _, recordCall_keys h.keys⟩
  rcases mem_recordCall hs with hs | rfl | ⟨s₀, h₀, hkey, rfl⟩
  · exact (h.recorded s hs).mono hin
  · refine ⟨⟨call, hlast, sig, bound, ha, rfl⟩, fun x hx => ?_⟩
    rw [List.mem_singleton.mp hx]
    exact ⟨hlast, sig, bound, ha, rfl⟩
  · obtain ⟨⟨x, hx, sig', bound', hap, hmade⟩, hrec⟩ := (h.recorded s₀ h₀).mono hin
    refine ⟨⟨x, hx, sig', bound', hap, ?_⟩, fun y hy => ?_⟩
    · rw [hmade]
    · rcases List.mem_append.mp hy with hy | hy
      · exact hrec y hy
      · rw [List.mem_singleton.mp hy]
        exact ⟨hlast, sig, bound, ha, hkey.symm⟩

theorem PlanOk.mono {c : Candidates} {calls calls' : List Call} {p : Plan}
    (h : PlanOk info digest c calls p) (hcalls : ∀ x ∈ calls, x ∈ calls') :
    PlanOk info digest c calls' p :=
  ⟨fun s hs => (h.recorded s hs).mono hcalls, h.keys⟩

/-- A plan before anything was recorded in it. -/
def Plan.head (p : Plan) : Plan := { p with specializations := [] }

theorem addCall_spec {c : Candidates} {calls : List Call} {plans : List Plan} (call : Call)
    (h : ∀ p ∈ plans, PlanOk info digest c calls p) :
    (∀ p ∈ addCall info digest c plans call, PlanOk info digest c (calls ++ [call]) p) ∧
      (addCall info digest c plans call).map Plan.head = plans.map Plan.head := by
  have hsame : ∀ p ∈ plans, PlanOk info digest c (calls ++ [call]) p :=
    fun p hp => (h p hp).mono fun x hx => List.mem_append_left _ hx
  unfold addCall
  split
  case h_2 => exact ⟨hsame, rfl⟩
  case h_1 owner sig howner hsig =>
    refine ⟨fun p hp => ?_, ?_⟩
    · obtain ⟨p₀, hp₀, rfl⟩ := List.mem_map.mp hp
      split_ifs with hd
      · split
        case h_1 => exact hsame p₀ hp₀
        case h_2 bound hbound =>
          exact (h p₀ hp₀).record ⟨by rw [howner, hd], hsig, hbound⟩
      · exact hsame p₀ hp₀
    · rw [List.map_map]
      refine List.map_congr_left fun p _ => ?_
      simp only [Function.comp_apply]
      split_ifs
      · split <;> rfl
      · rfl

theorem addCalls_spec {c : Candidates} {calls : List Call} {plans : List Plan} (more : List Call)
    (h : ∀ p ∈ plans, PlanOk info digest c calls p) :
    (∀ p ∈ more.foldl (addCall info digest c) plans, PlanOk info digest c (calls ++ more) p) ∧
      (more.foldl (addCall info digest c) plans).map Plan.head = plans.map Plan.head := by
  induction more generalizing calls plans with
  | nil => exact ⟨by simpa using h, rfl⟩
  | cons call more ih =>
    obtain ⟨hok, hheads⟩ := addCall_spec call h
    obtain ⟨hok', hheads'⟩ := ih hok
    rw [List.foldl_cons]
    refine ⟨by simpa using hok', hheads'.trans hheads⟩

end Nupp.ConstSpecialize

/-! What selection does with the collected specializations, for every budget. -/

namespace Nupp.ConstSpecialize

/-- Every body is accepted or declined once, and is accepted onto one of its class. -/
structure Divides (bodies : List Specialization) (sel : Selection) : Prop where
  perm : (sel.accepted.map Prod.fst ++ sel.declined).Perm bodies
  body : ∀ x ∈ sel.accepted, x.2 ∈ bodies ∧ x.2.bodyClass = x.1.bodyClass

/-- The representatives are bodies seen so far, and the selection divides what was seen. -/
structure Selecting (seen : List Specialization) (st : List Specialization × Selection) : Prop where
  representatives : ∀ r ∈ st.1, r ∈ seen
  divides : Divides seen st.2

theorem Selecting.step {seen : List Specialization} {st : List Specialization × Selection}
    (h : Selecting seen st) (maximum : ℕ) (s : Specialization) :
    Selecting (seen ++ [s]) (selectStep maximum st s) := by
  have hseen : ∀ r ∈ seen, r ∈ seen ++ [s] := fun r hr => List.mem_append_left _ hr
  have hlast : s ∈ seen ++ [s] := by simp
  have hbody : ∀ x ∈ st.2.accepted, x.2 ∈ seen ++ [s] ∧ x.2.bodyClass = x.1.bodyClass :=
    fun x hx => ⟨hseen _ (h.divides.body x hx).1, (h.divides.body x hx).2⟩
  have haccept : ∀ r, ((st.2.accepted ++ [(s, r)]).map Prod.fst ++ st.2.declined).Perm (seen ++ [s]) := by
    intro r
    rw [List.map_append, List.append_assoc]
    refine (List.perm_append_comm.append_left _).trans ?_
    rw [← List.append_assoc]
    exact h.divides.perm.append_right _
  unfold selectStep
  split
  case h_1 r hfind =>
    have hr : r ∈ st.1 := List.mem_of_find?_eq_some hfind
    have hclass : r.bodyClass = s.bodyClass := by simpa using List.find?_some hfind
    refine ⟨fun r hr => hseen r (h.representatives r hr), haccept r, fun x hx => ?_⟩
    rcases List.mem_append.mp hx with hx | hx
    · exact hbody x hx
    · rw [List.mem_singleton.mp hx]
      exact ⟨hseen r (h.representatives r hr), hclass⟩
  case h_2 =>
    split_ifs
    · refine ⟨fun r hr => ?_, haccept s, fun x hx => ?_⟩
      · rcases List.mem_append.mp hr with hr | hr
        · exact hseen r (h.representatives r hr)
        · rw [List.mem_singleton.mp hr]
          exact hlast
      · rcases List.mem_append.mp hx with hx | hx
        · exact hbody x hx
        · rw [List.mem_singleton.mp hx]
          exact ⟨hlast, rfl⟩
    · refine ⟨fun r hr => hseen r (h.representatives r hr), ?_, hbody⟩
      rw [← List.append_assoc]
      exact h.divides.perm.append_right _

theorem Selecting.run {seen : List Specialization} {st : List Specialization × Selection}
    (h : Selecting seen st) (maximum : ℕ) (bodies : List Specialization) :
    Selecting (seen ++ bodies) (bodies.foldl (selectStep maximum) st) := by
  induction bodies generalizing seen st with
  | nil => simpa using h
  | cons s bodies ih =>
    have hrun := ih (h.step maximum s)
    rwa [List.append_assoc, List.singleton_append] at hrun

theorem Divides.perm_bodies {bodies bodies' : List Specialization} {sel : Selection}
    (h : Divides bodies sel) (hp : bodies.Perm bodies') : Divides bodies' sel :=
  ⟨h.perm.trans hp, fun x hx => ⟨hp.mem_iff.mp (h.body x hx).1, (h.body x hx).2⟩⟩

theorem selectBodies_divides (maximum : ℕ) (bodies : List Specialization) :
    Divides bodies (selectBodies maximum bodies) := by
  have hstart : Selecting [] ([], ⟨[], []⟩) := ⟨nofun, .nil, nofun⟩
  have hrun := hstart.run maximum (bodies.mergeSort byPriority)
  exact hrun.divides.perm_bodies (List.mergeSort_perm bodies byPriority)

/-- Selections of parts make up a selection of the whole. -/
theorem Divides.parts {α : Type} (files : List α) (bodies : α → List Specialization) (sel : α → Selection)
    (h : ∀ file ∈ files, Divides (bodies file) (sel file)) :
    Divides (files.flatMap bodies)
      ⟨files.flatMap fun f => (sel f).accepted, files.flatMap fun f => (sel f).declined⟩ := by
  induction files with
  | nil => exact ⟨.nil, nofun⟩
  | cons file files ih =>
    have hfile := h file List.mem_cons_self
    have hrest := ih fun f hf => h f (List.mem_cons_of_mem _ hf)
    refine ⟨?_, fun x hx => ?_⟩
    · simp only [List.flatMap_cons, List.map_append]
      have hswap : ((files.flatMap fun f => (sel f).accepted).map Prod.fst ++ (sel file).declined).Perm
          ((sel file).declined ++ (files.flatMap fun f => (sel f).accepted).map Prod.fst) :=
        List.perm_append_comm
      calc _ = (sel file).accepted.map Prod.fst ++
              (((files.flatMap fun f => (sel f).accepted).map Prod.fst ++ (sel file).declined) ++
                files.flatMap fun f => (sel f).declined) := by simp
        _ |>.Perm ((sel file).accepted.map Prod.fst ++
              (((sel file).declined ++ (files.flatMap fun f => (sel f).accepted).map Prod.fst) ++
                files.flatMap fun f => (sel f).declined)) := (hswap.append_right _).append_left _
        _ = ((sel file).accepted.map Prod.fst ++ (sel file).declined) ++
              ((files.flatMap fun f => (sel f).accepted).map Prod.fst ++
                files.flatMap fun f => (sel f).declined) := by simp
        _ |>.Perm (bodies file ++ files.flatMap bodies) := hfile.perm.append hrest.perm
    · simp only [List.flatMap_cons, List.mem_append] at hx ⊢
      rcases hx with hx | hx
      · exact ⟨.inl (hfile.body x hx).1, (hfile.body x hx).2⟩
      · exact ⟨.inr (hrest.body x hx).1, (hrest.body x hx).2⟩

/-- Grouping plans by file loses none. -/
theorem flatMap_filesOf (plans : List Plan) :
    ((filesOf plans).flatMap fun file => plans.filter fun p => p.filename = file).Perm plans := by
  suffices h : ∀ files : List Text, files.Nodup → ∀ plans : List Plan, (∀ p ∈ plans, p.filename ∈ files) →
      (files.flatMap fun file => plans.filter fun p => p.filename = file).Perm plans by
    refine h _ (List.nodup_dedup _) plans fun p hp => ?_
    exact List.mem_dedup.mpr (List.mem_map_of_mem hp)
  intro files
  induction files with
  | nil =>
    intro _ plans hplans
    cases plans with
    | nil => exact .nil
    | cons p _ => exact absurd (hplans p List.mem_cons_self) (by simp)
  | cons file files ih =>
    intro hnodup plans hplans
    obtain ⟨hfile, hnodup⟩ := List.nodup_cons.mp hnodup
    have hrest := ih hnodup (plans.filter fun p => !(p.filename = file)) fun p hp => by
      obtain ⟨hp, hne⟩ := List.mem_filter.mp hp
      exact (List.mem_cons.mp (hplans p hp)).resolve_left (by simpa using hne)
    have hsame : (files.flatMap fun f => plans.filter fun p => p.filename = f) =
        files.flatMap fun f => (plans.filter fun p => !(p.filename = file)).filter fun p => p.filename = f := by
      refine List.flatMap_congr fun f hf => ?_
      rw [List.filter_filter]
      refine List.filter_congr fun p _ => ?_
      by_cases hpf : p.filename = f
      · have hne : p.filename ≠ file := fun he => hfile (by rwa [← he, hpf])
        simp [hpf, hpf ▸ hne]
      · simp [hpf]
    rw [List.flatMap_cons, hsame]
    exact (hrest.append_left _).trans (List.filter_append_perm _ plans)

theorem selectGraph_divides (plans : List Plan) (maximum : ℕ) :
    Divides (plans.flatMap Plan.specializations) (selectGraph plans maximum) := by
  have hparts := Divides.parts (filesOf plans)
    (fun file => (plans.filter fun p => p.filename = file).flatMap Plan.specializations)
    (fun file => selectBodies maximum
      ((plans.filter fun p => p.filename = file).flatMap Plan.specializations))
    fun file _ => selectBodies_divides maximum _
  have hbodies := (flatMap_filesOf plans).flatMap_right Plan.specializations
  rw [List.flatMap_assoc] at hbodies
  have hall := hparts.perm_bodies hbodies
  refine ⟨?_, fun x hx => ?_⟩
  · refine List.Perm.trans ?_ hall.perm
    simp only [selectGraph, List.flatMap_map]
    exact ((List.mergeSort_perm _ _).map _).append (List.mergeSort_perm _ _)
  · refine hall.body x ?_
    simpa only [selectGraph, List.flatMap_map] using (List.mergeSort_perm _ _).mem_iff.mp hx

theorem select_divides (plans : List Plan) (maximum : ℕ) :
    Divides (plans.flatMap Plan.specializations) (select plans maximum) :=
  selectBodies_divides maximum _

end Nupp.ConstSpecialize
