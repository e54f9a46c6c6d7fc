import Mathlib.Order.MinMax
import Nupp.Project.QueryInvariant

/-! What the parts of a read do to the database: running a definition, validating
an entry and writing down the outcome. -/

namespace Nupp.Query

open Reads Relation

variable {K V E : Type*} [DecidableEq K]

omit [DecidableEq K] in
@[simp] theorem record_revision (q : Q K V) (d : Dep K) : (record q d).revision = q.revision := by
  unfold record
  split <;> rfl

omit [DecidableEq K] in
@[simp] theorem record_inputs (q : Q K V) (d : Dep K) : (record q d).inputs = q.inputs := by
  unfold record
  split <;> rfl

omit [DecidableEq K] in
@[simp] theorem record_memo (q : Q K V) (d : Dep K) : (record q d).memo = q.memo := by
  unfold record
  split <;> rfl

omit [DecidableEq K] in
@[simp] theorem record_active (q : Q K V) (d : Dep K) : (record q d).active = q.active := by
  unfold record
  split <;> rfl

omit [DecidableEq K] in
theorem record_stack_congr {q q' : Q K V} (h : q'.stack = q.stack) (d : Dep K) :
    (record q' d).stack = (record q d).stack := by
  unfold record
  rw [h]
  split
  · exact h
  · rfl

omit [DecidableEq K] in
theorem record_stack_tail (q : Q K V) (d : Dep K) : (record q d).stack.tail = q.stack.tail := by
  unfold record
  split
  case h_1 => rfl
  case h_2 hs => simp [hs]

variable [DecidableEq V] {prog : Program K V E} {q q' q'' : Q K V}

/-- What bringing queries up to date does to the database as a whole. -/
structure Evolves (prog : Program K V E) (q q' : Q K V) : Prop where
  ext : Ext q q'
  inv : Inv prog q'
  active : q'.active = q.active
  frame : ∀ a, q.active a = true → q'.memo a = q.memo a

omit [DecidableEq K] in
/-- Counters and the frames of running computations do not matter. -/
theorem Evolves.of_eq (hq : Inv prog q) (hr : q'.revision = q.revision) (hi : q'.inputs = q.inputs)
    (hm : q'.memo = q.memo) (ha : q'.active = q.active) : Evolves prog q q' where
  ext := .of_eq hr hi hm
  inv := hq.ext (.of_eq hr hi hm) fun _ _ h => .inl (hm ▸ h)
  active := ha
  frame a _ := congrFun hm a

omit [DecidableEq K] in
theorem Evolves.refl (hq : Inv prog q) : Evolves prog q q :=
  .of_eq hq rfl rfl rfl rfl

omit [DecidableEq K] in
theorem Evolves.trans (h : Evolves prog q q') (h' : Evolves prog q' q'') : Evolves prog q q'' where
  ext := h.ext.trans h'.ext
  inv := h'.inv
  active := h'.active.trans h.active
  frame a ha := (h'.frame a (by rw [h.active, ha])).trans (h.frame a ha)

/-- `d` was asked for and answered `v`. -/
structure Answered (prog : Program K V E) (q : Q K V) (d : Dep K) (v : V) (q' : Q K V) : Prop where
  evolves : Evolves prog q q'
  eval : Eval prog (inputsOf q) d v
  settled : Settled q' d v
  stack : q'.stack = (record q d).stack

/-- Deep enough reads of `d` are answered, from any database over `inputs` whose
running queries are waiting for `d`. -/
def Serves (prog : Program K V E) (inputs : Inputs K V) (d : Dep K) : Prop :=
  ∀ q, Inv prog q → inputsOf q = inputs →
    (∀ a, q.active a = true → TransGen (Needs prog inputs) d a) →
    ∃ N v q', (∀ n ≥ N, get prog n d q = some (.ok v, q')) ∧ Answered prog q d v q'

/-- A computation of `d` that has made the reads of `log`. -/
structure Running (prog : Program K V E) (inputs : Inputs K V) (d : Dep K) (q : Q K V)
    (log : List (Dep K × V)) : Prop where
  inv : Inv prog q
  inputs_eq : inputsOf q = inputs
  waiting : ∀ a, q.active a = true → ReflTransGen (Needs prog inputs) d a
  reads : ∀ x ∈ log, Settled q x.1 x.2 ∧ Eval prog inputs x.1 x.2

section Computation

variable {inputs : Inputs K V} {d : Dep K} {df : Def K V E} (hi : inputs d = none)
  (hd : prog.defs d.name = some df)

include hi hd in
omit [DecidableEq K] in
theorem Running.needs {log : List (Dep K × V)} {e : Dep K} {cont : Except (Failure E) V → Comp (Dep K) V (Failure E)}
    (h : Running prog inputs d q log) (hf : (df.fn d.key).Follows log (.read e cont)) :
    Needs prog inputs e d :=
  ⟨hi, df, log, cont, hd, hf, Settled.consistent fun x hx => (h.reads x hx).1,
    fun x hx => (h.reads x hx).2⟩

omit [DecidableEq K] in
theorem Running.evolves {log : List (Dep K × V)} (h : Running prog inputs d q log)
    (he : Evolves prog q q') : Running prog inputs d q' log where
  inv := he.inv
  inputs_eq := he.ext.inputsOf_eq.trans h.inputs_eq
  waiting := he.active ▸ h.waiting
  reads x hx := ⟨(h.reads x hx).1.ext he.ext, (h.reads x hx).2⟩

omit [DecidableEq K] in
theorem Running.snoc {log : List (Dep K × V)} {e : Dep K} {v : V} (h : Running prog inputs d q log)
    (hs : Settled q e v) (he : Eval prog inputs e v) : Running prog inputs d q (log ++ [(e, v)]) where
  inv := h.inv
  inputs_eq := h.inputs_eq
  waiting := h.waiting
  reads := by
    intro x hx
    rcases List.mem_append.mp hx with hx | hx
    · exact h.reads x hx
    · rw [List.mem_singleton.mp hx]
      exact ⟨hs, he⟩

theorem Running.serve {log : List (Dep K × V)} {e : Dep K} (h : Running prog inputs d q log)
    (hn : Needs prog inputs e d) (hs : Serves prog inputs e) :
    ∃ N v q', (∀ n ≥ N, get prog n e q = some (.ok v, q')) ∧ Answered prog q e v q' ∧
      Eval prog inputs e v := by
  obtain ⟨N, v, q', hN, ha⟩ := hs q h.inv h.inputs_eq fun a hact => .head' hn (h.waiting a hact)
  exact ⟨N, v, q', hN, ha, h.inputs_eq ▸ ha.eval⟩

variable (hq : Quiet prog inputs d) (ih : ∀ e, Needs prog inputs e d → Serves prog inputs e)

include hi hd hq ih in
/-- A definition runs to its end, and its frame lists the reads it made. -/
theorem runFn_spec (c : Comp (Dep K) V (Failure E)) {log : List (Dep K × V)} {q : Q K V}
    {rest : List (List (Dep K))} (hf : (df.fn d.key).Follows log c)
    (hr : Running prog inputs d q log) (hs : q.stack = log.map Prod.fst :: rest) :
    ∃ N w log' q', (∀ n ≥ N, runFn (get prog n) c q = some (.ok w, q')) ∧
      (df.fn d.key).Follows log' (.ret w) ∧ Running prog inputs d q' log' ∧ Evolves prog q q' ∧
      q'.stack = log'.map Prod.fst :: rest := by
  induction c generalizing log q with
  | ret w => exact ⟨0, w, log, q, fun _ _ => rfl, hf, hr, .refl hr.inv, hs⟩
  | raise e =>
    obtain ⟨df', hd', hraise⟩ := hq hi
    cases hd.symm.trans hd'
    exact absurd (fun x hx => (hr.reads x hx).2)
      (hraise log e hf (Settled.consistent fun x hx => (hr.reads x hx).1))
  | read e cont ihc =>
    have hn := hr.needs hi hd hf
    obtain ⟨N, v, q₁, hN, ha, hv⟩ := hr.serve hn (ih e hn)
    have hs₁ : q₁.stack = (log ++ [(e, v)]).map Prod.fst :: rest := by
      rw [ha.stack]
      simp [record, hs]
    obtain ⟨M, w, log', q', hM, hf', hr', he', hs'⟩ :=
      ihc (.ok v) (hf.snoc v) ((hr.evolves ha.evolves).snoc ha.settled hv) hs₁
    refine ⟨max N M, w, log', q', fun n hn => ?_, hf', hr', ha.evolves.trans he', hs'⟩
    simp only [runFn, hN n (le_of_max_le_left hn)]
    exact hM n (le_of_max_le_right hn)

include ih in
/-- The stamp a dependency reports tells whether what was read in it still stands. -/
theorem depChangedAt_spec {log : List (Dep K × V)} {e : Dep K} {v : V} {t : ℕ}
    (hr : Running prog inputs d q log) (hn : Needs prog inputs e d) (hdep : DepOk q e v t)
    (ht : t ≤ q.revision) :
    ∃ N c q', (∀ n ≥ N, depChangedAt (get prog n) e q = some (.ok c, q')) ∧ Evolves prog q q' ∧
      q'.stack.tail = q.stack.tail ∧ (c ≤ t → Running prog inputs d q' (log ++ [(e, v)])) := by
  cases hie : q.inputs e with
  | some inp =>
    refine ⟨0, inp.changedAt, q, fun n _ => by simp [depChangedAt, hie], .refl hr.inv, rfl, ?_⟩
    intro hle
    have hval : inp.value = v := by
      simp only [DepOk, hie] at hdep
      exact hdep hle
    refine hr.snoc ((settled_input hie).mpr hval) (.input ?_)
    rw [← hr.inputs_eq, inputsOf, hie, ← hval]
    rfl
  | none =>
    obtain ⟨N, w, q', hN, ha, hw⟩ := hr.serve hn (ih e hn)
    have hie' : q'.inputs e = none := by rw [ha.evolves.ext.inputs, hie]
    obtain ⟨m, hm, -, hval⟩ := (settled_derived hie').mp ha.settled
    refine ⟨N, m.changedAt, q', fun n hn => ?_, ha.evolves, ?_, fun hle => ?_⟩
    · simp [depChangedAt, hie, hN n hn, hm]
    · rw [ha.stack, record_stack_tail]
    · have hdep' := hdep.ext ha.evolves.ext ht
      simp only [DepOk, hie', hm] at hdep'
      obtain rfl : w = v := hval.symm.trans (hdep'.1 hle)
      exact (hr.evolves ha.evolves).snoc ha.settled hw

include hi hd ih in
/-- Validation succeeds only when every read of the recorded run still stands. -/
theorem validateDeps_spec {t : ℕ} {w : V} (post : List (Dep K × V)) {log : List (Dep K × V)}
    {q : Q K V} (hf : (df.fn d.key).Follows (log ++ post) (.ret w))
    (hr : Running prog inputs d q log) (hdeps : ∀ x ∈ post, DepOk q x.1 x.2 t) (ht : t ≤ q.revision) :
    ∃ N b q', (∀ n ≥ N, validateDeps (get prog n) t (post.map Prod.fst) q = some (.ok b, q')) ∧
      Evolves prog q q' ∧ q'.stack.tail = q.stack.tail ∧
      (b = true → Running prog inputs d q' (log ++ post)) := by
  induction post generalizing log q with
  | nil =>
    refine ⟨0, true, q, fun _ _ => rfl, .refl hr.inv, rfl, fun _ => ?_⟩
    rwa [List.append_nil]
  | cons x post ihp =>
    obtain ⟨e, v⟩ := x
    obtain ⟨cont, hcont⟩ := hf.split
    obtain ⟨N, c, q₁, hN, he₁, hs₁, hr₁⟩ := depChangedAt_spec ih hr (hr.needs hi hd hcont)
      (hdeps (e, v) List.mem_cons_self) ht
    by_cases hc : t < c
    · refine ⟨N, false, q₁, fun n hn => ?_, he₁, hs₁, by rintro ⟨⟩⟩
      simp [validateDeps, hN n hn, hc]
    · have hassoc : log ++ [(e, v)] ++ post = log ++ (e, v) :: post := by simp
      obtain ⟨M, b, q', hM, he', hs', hr'⟩ := ihp (hassoc ▸ hf) (hr₁ (Nat.le_of_not_lt hc))
        (fun x hx => (hdeps x (List.mem_cons_of_mem _ hx)).ext he₁.ext ht) (he₁.ext.revision ▸ ht)
      refine ⟨max N M, b, q', fun n hn => ?_, he₁.trans he', hs'.trans hs₁, hassoc ▸ hr'⟩
      simp only [List.map_cons, validateDeps, hN n (le_of_max_le_left hn), if_neg hc]
      exact hM n (le_of_max_le_right hn)

end Computation

/-! Writing down the outcome of a run. -/

/-- The entry of `d` was brought up to date with value `v`, and nothing else moved. -/
structure Written (prog : Program K V E) (q : Q K V) (d : Dep K) (v : V) (q' : Q K V) : Prop where
  ext : Ext q q'
  inv : Inv prog q'
  eval : Eval prog (inputsOf q) d v
  settled : Settled q' d v
  stack : q'.stack = q.stack
  active : q'.active = q.active
  frame : ∀ a, a ≠ d → q'.memo a = q.memo a

/-- The memo `m` records the run of `d` whose reads were `log`. -/
structure Outcome (q : Q K V) (d : Dep K) (log : List (Dep K × V)) (m : Memo K V) : Prop where
  verified : m.verifiedAt = q.revision
  deps : log.map Prod.fst = m.deps
  kept : m.changedAt = q.revision ∨
    ∃ m₀, q.memo d = some m₀ ∧ m.changedAt = m₀.changedAt ∧ m.value = m₀.value

section Write

variable {d : Dep K} {df : Def K V E} {log : List (Dep K × V)} {w : V}
  (hd : prog.defs d.name = some df) (hinv : Inv prog q) (hid : q.inputs d = none)
  (hstale : ∀ m, q.memo d = some m → m.verifiedAt ≠ q.revision)
  (hf : (df.fn d.key).Follows log (.ret w))
  (hreads : ∀ x ∈ log, Settled q x.1 x.2 ∧ Eval prog (inputsOf q) x.1 x.2)

include hd hinv hid hstale hf hreads

theorem written_of_outcome {m : Memo K V} (hm : Outcome q d log m) (hw : eqv prog d w m.value)
    (hr : q'.revision = q.revision) (hin : q'.inputs = q.inputs)
    (hmemo : q'.memo = Function.update q.memo d (some m)) (hs : q'.stack = q.stack)
    (ha : q'.active = q.active) : Written prog q d m.value q' := by
  have hnew : q'.memo d = some m := by simp [hmemo]
  have hext : Ext q q' := by
    refine ⟨hr, hin, fun e => ?_⟩
    by_cases he : e = d
    · subst he
      exact .inr ⟨m, hnew, hm.verified, hstale, hm.kept⟩
    · exact .inl (by simp [hmemo, he])
  have heval : Eval prog (inputsOf q) d m.value :=
    .derived (by simp [inputsOf, hid]) hd hf (Settled.consistent fun x hx => (hreads x hx).1)
      (fun x hx => (hreads x hx).2) hw
  have hchanged : m.changedAt ≤ m.verifiedAt := by
    rw [hm.verified]
    rcases hm.kept with hc | ⟨m₀, hm₀, hc, -⟩
    · exact hc.le
    · have hok := hinv.entry d m₀ hid hm₀
      exact hc ▸ hok.changed_le.trans hok.verified_le
  have hok : EntryOk prog q' d m := by
    refine ⟨hchanged, (hm.verified.trans hr.symm).le, ⟨df, log, w, hd, hf, hm.deps, hw, ?_⟩, ?_⟩
    · intro x hx
      rw [hm.verified]
      exact (hreads x hx).1.depOk.ext hext le_rfl
    · intro _
      rw [hext.inputsOf_eq]
      exact heval
  refine ⟨hext, hinv.ext hext fun e m' he => ?_, heval, ?_, hs, ha, fun a hne => by simp [hmemo, hne]⟩
  · by_cases hed : e = d
    · subst hed
      cases hnew.symm.trans he
      exact .inr hok
    · left
      rwa [hmemo, Function.update_of_ne hed] at he
  · exact (settled_derived (by rw [hin, hid])).mpr ⟨m, hnew, hm.verified.trans hr.symm, rfl⟩

/-- Both ways to store a result, the early cutoff included, answer what the run
computed up to `eq`. -/
theorem store_spec (hl : Lawful prog) :
    Written prog q d (store df d (q.memo d) w (log.map Prod.fst) q).1
      (store df d (q.memo d) w (log.map Prod.fst) q).2 := by
  have hfresh : Written prog q d w { q with
      memo := Function.update q.memo d (some ⟨w, q.revision, q.revision, log.map Prod.fst⟩) } :=
    written_of_outcome (m := ⟨w, q.revision, q.revision, log.map Prod.fst⟩) hd hinv hid hstale hf
      hreads ⟨rfl, rfl, .inl rfl⟩ (hl.refl d w) rfl rfl rfl rfl rfl
  cases hm : q.memo d with
  | none => exact hfresh
  | some e =>
    by_cases hsame : df.same e.value w = true
    · have hw : eqv prog d w e.value := by
        refine (hl.equivalence d).symm ?_
        simpa only [eqv, hd] using hsame
      simp only [store, hsame, if_true]
      exact written_of_outcome (m := ⟨e.value, e.changedAt, q.revision, log.map Prod.fst⟩) hd hinv
        hid hstale hf hreads ⟨rfl, rfl, .inr ⟨e, hm, rfl, rfl⟩⟩ hw rfl rfl rfl rfl rfl
    · simp only [store, hsame]
      exact hfresh

end Write

/-- Closing the frame of a run gives back the stack and the marks it started with. -/
theorem Evolves.leave {d : Dep K} (ha : q.active d = false)
    (h : Evolves prog (enter q d) q') : Evolves prog q (leave q' d) where
  ext := by
    have hopen : Ext q (enter q d) := .of_eq rfl rfl rfl
    have hclose : Ext q' (Query.leave q' d) := .of_eq rfl rfl rfl
    exact hopen.trans (h.ext.trans hclose)
  inv := h.inv.ext (.of_eq rfl rfl rfl) fun _ _ hm => .inl hm
  active := by
    simp only [Query.leave, h.active, enter, Function.update_idem]
    rw [← ha, Function.update_eq_self]
  frame a hact := by
    refine h.frame a ?_
    by_cases had : a = d
    · simp [enter, had]
    · simp [enter, had, hact]

omit [DecidableEq K] in
theorem Written.answered {d : Dep K} {v : V} (h : Evolves prog q q') (hs : q'.stack = q.stack)
    (ha : q.active d = false) (hw : Written prog q' d v q'') : Answered prog q d v (record q'' d) where
  evolves := by
    refine ⟨(h.ext.trans hw.ext).trans (.of_eq (by simp) (by simp) (by simp)),
      hw.inv.ext (.of_eq (by simp) (by simp) (by simp)) fun _ _ hm => .inl (by simpa using hm),
      by simp [hw.active, h.active], fun a hact => ?_⟩
    have hne : a ≠ d := by
      rintro rfl
      simp [ha] at hact
    rw [record_memo, hw.frame a hne, h.frame a hact]
  eval := h.ext.inputsOf_eq ▸ hw.eval
  settled := hw.settled.ext (.of_eq (by simp) (by simp) (by simp))
  stack := record_stack_congr (hw.stack.trans hs) d

end Nupp.Query
