import Nupp.Project.QueryRun

/-! Incremental evaluation agrees with evaluation from nothing, over every
sequence of calls. -/

namespace Nupp.Query

open Reads Relation

variable {K V E : Type*} [DecidableEq K] [DecidableEq V] {prog : Program K V E}
  {inputs : Inputs K V} {d : Dep K} {df : Def K V E}

section Serve

variable (hl : Lawful prog) (hd : prog.defs d.name = some df) (hq : Quiet prog inputs d)
  (ih : ∀ e, Needs prog inputs e d → Serves prog inputs e) {q : Q K V} (hinv : Inv prog q)
  (hin : inputsOf q = inputs) (hid : q.inputs d = none) (ha : q.active d = false)
  (hwait : ∀ a, q.active a = true → TransGen (Needs prog inputs) d a)
  (hstale : ∀ m, q.memo d = some m → m.verifiedAt ≠ q.revision)

include hinv hin hwait in
/-- A frame opened for `d` has made no reads yet. -/
theorem running_enter : Running prog inputs d (enter q d) [] where
  inv := hinv.ext (.of_eq rfl rfl rfl) fun _ _ hm => .inl hm
  inputs_eq := hin
  waiting := by
    intro a hact
    by_cases had : a = d
    · rw [had]
    · exact (hwait a (by simpa [enter, had] using hact)).to_reflTransGen
  reads := by simp

include hin hid ha hstale in
/-- Closing the frame of `d` leaves what is needed to write its outcome down. -/
theorem leave_spec {q₁ : Q K V} {log : List (Dep K × V)} (he : Evolves prog (enter q d) q₁)
    (hr : Running prog inputs d q₁ log) (hs : q₁.stack.tail = q.stack) :
    Evolves prog q (leave q₁ d) ∧ (leave q₁ d).stack = q.stack ∧
    (leave q₁ d).memo d = q.memo d ∧ (leave q₁ d).inputs d = none ∧
    (∀ m, (leave q₁ d).memo d = some m → m.verifiedAt ≠ (leave q₁ d).revision) ∧
    ∀ x ∈ log, Settled (leave q₁ d) x.1 x.2 ∧ Eval prog (inputsOf (leave q₁ d)) x.1 x.2 := by
  have hleave := he.leave ha
  have hmemo : (leave q₁ d).memo d = q.memo d := he.frame d (by simp [enter])
  refine ⟨hleave, hs, hmemo, by rw [hleave.ext.inputs, hid], ?_, fun x hx => ?_⟩
  · rw [hmemo, hleave.ext.revision]
    exact hstale
  · rw [hleave.ext.inputsOf_eq, hin]
    exact ⟨(hr.reads x hx).1.ext (.of_eq rfl rfl rfl), (hr.reads x hx).2⟩

include hl hd hq ih hinv hin hid ha hwait hstale in
theorem compute_spec : ∃ N v q', (∀ n ≥ N, compute (get prog n) df d (q.memo d) q = some (.ok v, q')) ∧
    Answered prog q d v q' := by
  have hi : inputs d = none := by simp [← hin, inputsOf, hid]
  let q₀ : Q K V := { q with stats := Function.update q.stats d.name (q.stats d.name + 1) }
  have he₀ : Evolves prog q q₀ := .of_eq hinv rfl rfl rfl rfl
  obtain ⟨N, w, log, q₁, hN, hf, hr, he, hs⟩ := runFn_spec hi hd hq ih (df.fn d.key) (.refl _)
    (running_enter he₀.inv hin hwait) rfl
  obtain ⟨hleave, hstack, hmemo, hid', hstale', hreads⟩ := leave_spec (q := q₀) hin hid ha hstale he hr
    (by rw [hs]; rfl)
  have hw := store_spec hd hleave.inv hid' hstale' hf hreads hl
  refine ⟨N, _, _, fun n hn => ?_, hw.answered (he₀.trans hleave) hstack ha⟩
  simp only [q₀] at hN
  simp only [compute, hN n hn, hs, List.headD_cons, hmemo]
  rfl

include hl hd hq ih hinv hin hid ha hwait hstale in
theorem refresh_spec {entry : Memo K V} (hentry : q.memo d = some entry) :
    ∃ N v q', (∀ n ≥ N, refresh (get prog n) df d entry q = some (.ok v, q')) ∧
      Answered prog q d v q' := by
  have hi : inputs d = none := by simp [← hin, inputsOf, hid]
  obtain ⟨-, hle, ⟨df', log, w, hd', hf, hdeps, hw, hlog⟩, -⟩ := hinv.entry d entry hid hentry
  cases hd.symm.trans hd'
  have hf' : (df.fn d.key).Follows ([] ++ log) (.ret w) := hf
  obtain ⟨N, b, q₁, hN, he, hs, hclean⟩ := validateDeps_spec hi hd ih log hf'
    (running_enter hinv hin hwait) hlog hle
  rw [hdeps] at hN
  cases b with
  | true =>
    obtain ⟨hleave, hstack, hmemo, hid', hstale', hreads⟩ :=
      leave_spec hin hid ha hstale he (hclean rfl) hs
    let m : Memo K V := { entry with verifiedAt := (leave q₁ d).revision }
    let q₂ : Q K V := { leave q₁ d with memo := Function.update (leave q₁ d).memo d (some m) }
    have hout : Outcome (leave q₁ d) d log m :=
      ⟨rfl, hdeps, .inr ⟨entry, hmemo.trans hentry, rfl, rfl⟩⟩
    have hwritten : Written prog (leave q₁ d) d entry.value (countHit q₂ d) :=
      written_of_outcome (m := m) hd hleave.inv hid' hstale' hf hreads hout hw rfl rfl rfl rfl rfl
    refine ⟨N, entry.value, record (countHit q₂ d) d, fun n hn => ?_, hwritten.answered hleave hstack ha⟩
    simp only [refresh, hN n hn]
    rfl
  | false =>
    have hleave := he.leave ha
    have hmemo : (leave q₁ d).memo d = some entry := (he.frame d (by simp [enter])).trans hentry
    obtain ⟨M, v, q', hM, hans⟩ := compute_spec (q := leave q₁ d) hl hd hq ih hleave.inv
      (hleave.ext.inputsOf_eq.trans hin) (by rw [hleave.ext.inputs, hid]) (by rw [hleave.active, ha])
      (by rw [hleave.active]; exact hwait)
      (by rw [hmemo, ← hentry, hleave.ext.revision]; exact hstale)
    refine ⟨max N M, v, q', fun n hn => ?_, ⟨hleave.trans hans.evolves, ?_, hans.settled, ?_⟩⟩
    · simp only [refresh, hN n (le_of_max_le_left hn)]
      rw [← hmemo]
      exact hM n (le_of_max_le_right hn)
    · exact hleave.ext.inputsOf_eq ▸ hans.eval
    · exact hans.stack.trans (record_stack_congr hs d)

end Serve

theorem serve_of_step {q : Q K V}
    (h : ∃ N v q', (∀ n ≥ N, getStep prog (get prog n) d q = some (.ok v, q')) ∧
      Answered prog q d v q') :
    ∃ N v q', (∀ n ≥ N, get prog n d q = some (.ok v, q')) ∧ Answered prog q d v q' := by
  obtain ⟨N, v, q', hN, ha⟩ := h
  refine ⟨N + 1, v, q', fun n hn => ?_, ha⟩
  obtain ⟨n, rfl⟩ := Nat.exists_eq_add_of_le' (Nat.le_of_add_left_le hn)
  exact hN n (Nat.le_of_add_le_add_right hn)

/-- A read of a query that can be computed is answered by one of its values. -/
theorem serves (hl : Lawful prog) (h : Computable prog inputs d) : Serves prog inputs d := by
  obtain ⟨hacc, hquiet⟩ := h
  induction hacc with
  | intro d hacc ih =>
    intro q hinv hin hwait
    apply serve_of_step
    have ih' : ∀ e, Needs prog inputs e d → Serves prog inputs e :=
      fun e he => ih e he fun x hx => hquiet x (hx.tail he)
    have ha : q.active d = false := by
      by_contra hact
      exact not_transGen_self (.intro d hacc) (hwait d (by simpa using hact))
    cases hid : q.inputs d with
    | some inp =>
      have hev : Evolves prog q (record q d) := .of_eq hinv (by simp) (by simp) (by simp) (by simp)
      refine ⟨0, inp.value, record q d, fun n _ => by simp [getStep, hid], hev,
        .input (by simp [inputsOf, hid]), ?_, rfl⟩
      exact (settled_input (by simpa using hid)).mpr rfl
    | none =>
      have hq := hquiet d .refl
      obtain ⟨df, hd, -⟩ := hq (by simp [← hin, inputsOf, hid])
      cases hm : q.memo d with
      | none =>
        obtain ⟨N, v, q', hN, hans⟩ := compute_spec hl hd hq ih' hinv hin hid ha hwait (by simp [hm])
        refine ⟨N, v, q', fun n hn => ?_, hans⟩
        simpa [getStep, hid, hd, hm, ha] using hN n hn
      | some entry =>
        by_cases hv : entry.verifiedAt = q.revision
        · have hev : Evolves prog q (record (countHit q d) d) :=
            .of_eq hinv (by simp [countHit]) (by simp [countHit]) (by simp [countHit]) (by simp [countHit])
          have hset : Settled q d entry.value := (settled_derived hid).mpr ⟨entry, hm, hv, rfl⟩
          exact ⟨0, entry.value, record (countHit q d) d, fun n _ => by simp [getStep, hid, hd, hm, hv],
            hev, (hinv.entry d entry hid hm).current hv, hset.ext hev.ext,
            record_stack_congr (show (countHit q d).stack = q.stack from rfl) d⟩
        · have hstale : ∀ m, q.memo d = some m → m.verifiedAt ≠ q.revision := by simpa [hm] using hv
          obtain ⟨N, v, q', hN, hans⟩ := refresh_spec hl hd hq ih' hinv hin hid ha hwait hstale hm
          refine ⟨N, v, q', fun n hn => ?_, hans⟩
          simpa [getStep, hid, hd, hm, hv, ha] using hN n hn

/-! Sequences of calls. -/

/-- The inputs a call leaves in force. -/
def Op.apply (inputs : Inputs K V) : Op K V → Inputs K V
  | .setInput d v => Function.update inputs d (some v)
  | .clearInput d => Function.update inputs d none
  | .get _ => inputs

/-- The gets of a sequence of calls, each with the inputs then in force. -/
def gets : Inputs K V → List (Op K V) → List (Inputs K V × Dep K)
  | _, [] => []
  | inputs, .get d :: ops => (inputs, d) :: gets inputs ops
  | inputs, op :: ops => gets (op.apply inputs) ops

/-- `r` is the value that evaluation from nothing gives, up to `eq`. -/
def Agrees (prog : Program K V E) (r : Except (Failure E) V) (g : Inputs K V × Dep K) : Prop :=
  ∃ v v₀ m, r = .ok v ∧ scratch prog g.1 m g.2 = some (.ok v₀) ∧ eqv prog g.2 v v₀

omit [DecidableEq V] in
theorem inputsOf_setInput (q : Q K V) (d : Dep K) (v : V) :
    inputsOf (setInput q d v) = (Op.setInput d v).apply (inputsOf q) := by
  funext e
  by_cases he : e = d
  · simp [inputsOf, setInput, Op.apply, he]
  · simp [inputsOf, setInput, Op.apply, he]

omit [DecidableEq V] in
theorem inputsOf_clearInput (q : Q K V) (d : Dep K) :
    inputsOf (clearInput q d) = (Op.clearInput d).apply (inputsOf q) := by
  funext e
  by_cases he : e = d
  · simp [inputsOf, clearInput, Op.apply, he]
  · simp [inputsOf, clearInput, Op.apply, he]

theorem exec_spec (hl : Lawful prog) (ops : List (Op K V)) {q : Q K V} (hinv : Inv prog q)
    (hidle : q.active = fun _ => false)
    (hops : ∀ g ∈ gets (inputsOf q) ops, Computable prog g.1 g.2) :
    ∃ N outs q', (∀ n ≥ N, exec prog n ops q = some (outs, q')) ∧
      List.Forall₂ (Agrees prog) outs (gets (inputsOf q) ops) := by
  induction ops generalizing q with
  | nil => exact ⟨0, [], q, fun _ _ => rfl, .nil⟩
  | cons op ops ih =>
    cases op with
    | setInput d v =>
      have hgets : gets (inputsOf q) (.setInput d v :: ops) = gets (inputsOf (setInput q d v)) ops := by
        rw [inputsOf_setInput, gets]
        exact nofun
      rw [hgets] at hops ⊢
      exact ih (hinv.bump (setInput_bump q d v)) hidle hops
    | clearInput d =>
      have hgets : gets (inputsOf q) (.clearInput d :: ops) = gets (inputsOf (clearInput q d)) ops := by
        rw [inputsOf_clearInput, gets]
        exact nofun
      rw [hgets] at hops ⊢
      exact ih (hinv.bump (clearInput_bump q d)) hidle hops
    | get d =>
      rw [gets] at hops ⊢
      have hcomp : Computable prog (inputsOf q) d := hops _ List.mem_cons_self
      obtain ⟨N, v, q₁, hN, ha⟩ := serves hl hcomp q hinv rfl (by simp [hidle])
      rw [← ha.evolves.ext.inputsOf_eq] at hops ⊢
      obtain ⟨M, outs, q', hM, hall⟩ := ih ha.evolves.inv (ha.evolves.active.trans hidle)
        fun g hg => hops g (List.mem_cons_of_mem _ hg)
      obtain ⟨m, v₀, hm, hv₀⟩ := scratch_eval hl hcomp
      have hagrees : Agrees prog (.ok v) (inputsOf q₁, d) := by
        refine ⟨v, v₀, m, rfl, ?_, ha.eval.unique hl hv₀⟩
        rw [ha.evolves.ext.inputsOf_eq]
        exact hm
      refine ⟨max N M, .ok v :: outs, q', fun n hn => ?_, .cons hagrees hall⟩
      simp only [exec, hN n (le_of_max_le_left hn), hM n (le_of_max_le_right hn)]
      rfl

/-- Every get of a sequence of calls on a new database answers what evaluation
from nothing gives over the inputs then in force, up to `eq`. -/
theorem exec_agrees_scratch (hl : Lawful prog) (ops : List (Op K V))
    (hops : ∀ g ∈ gets (fun _ => none) ops, Computable prog g.1 g.2) :
    ∃ N outs q, (∀ n ≥ N, exec prog n ops Q.new = some (outs, q)) ∧
      List.Forall₂ (Agrees prog) outs (gets (fun _ => none) ops) :=
  exec_spec hl ops inv_new rfl hops

omit [DecidableEq K] in
/-- Definitions whose reads descend and that never raise can be computed. -/
theorem computable_of_rank (P : Dep K → Prop) (rank : Dep K → ℕ)
    (hP : ∀ d, P d → ∃ df, prog.defs d.name = some df ∧
      (∀ log e cont, (df.fn d.key).Follows log (.read e cont) → P e ∧ rank e < rank d) ∧
      ∀ log e, ¬ (df.fn d.key).Follows log (.raise e)) (h : P d) : Computable prog inputs d := by
  have hneeds : ∀ e d, P d → Needs prog inputs e d → P e ∧ rank e < rank d := by
    rintro e d hd ⟨-, df, log, cont, hdf, hf, -⟩
    obtain ⟨df', hdf', hreads, -⟩ := hP d hd
    cases hdf.symm.trans hdf'
    exact hreads log e cont hf
  refine ⟨?_, fun e he => ?_⟩
  · induction hn : rank d using Nat.strong_induction_on generalizing d with
    | _ n ih =>
      subst hn
      refine .intro d fun e he => ?_
      obtain ⟨hPe, hlt⟩ := hneeds e d h he
      exact ih (rank e) hlt hPe rfl
  · have hPe : P e := by
      induction he using ReflTransGen.head_induction_on with
      | refl => exact h
      | head hstep _ ih => exact (hneeds _ _ ih hstep).1
    intro _
    obtain ⟨df, hdf, -, hraise⟩ := hP e hPe
    exact ⟨df, hdf, fun log err hf => absurd hf (hraise log err)⟩

/-- A text that has a default, a summary of it compared by parity, and a reader of
the summary. -/
def parityProgram : Program Unit ℕ Empty where
  defs name :=
    if name = "text" then some ⟨fun _ => .ret 0, none⟩
    else if name = "summary" then
      some ⟨fun _ => .get ⟨"text", ()⟩ .ret, some fun a b => a % 2 == b % 2⟩
    else if name = "parity" then some ⟨fun _ => .get ⟨"summary", ()⟩ fun v => .ret (v % 2), none⟩
    else none
  nil := 0
  truthy _ := true

theorem parityProgram_cases {d : Dep Unit} {df : Def Unit ℕ Empty}
    (h : parityProgram.defs d.name = some df) :
    (d.name = "text" ∧ df = ⟨fun _ => .ret 0, none⟩) ∨
    (d.name = "summary" ∧
      df = ⟨fun _ => .get ⟨"text", ()⟩ .ret, some fun a b => a % 2 == b % 2⟩) ∨
    (d.name = "parity" ∧ df = ⟨fun _ => .get ⟨"summary", ()⟩ fun v => .ret (v % 2), none⟩) := by
  simp only [parityProgram] at h
  split_ifs at h with h₁ h₂ h₃
  · exact .inl ⟨h₁, (Option.some.inj h).symm⟩
  · exact .inr (.inl ⟨h₂, (Option.some.inj h).symm⟩)
  · exact .inr (.inr ⟨h₃, (Option.some.inj h).symm⟩)

theorem eqv_parityProgram (d : Dep Unit) (a b : ℕ) :
    eqv parityProgram d a b ↔ if d.name = "summary" then a % 2 = b % 2 else a = b := by
  unfold eqv
  cases h : parityProgram.defs d.name with
  | none =>
    have hne : d.name ≠ "summary" := by
      intro hn
      simp [hn, parityProgram] at h
    simp [hne]
  | some df =>
    obtain ⟨hn, rfl⟩ | ⟨hn, rfl⟩ | ⟨hn, rfl⟩ := parityProgram_cases h <;> simp [hn, Def.same]

theorem lawful_parityProgram : Lawful parityProgram where
  equivalence d := by
    simp only [funext fun a => funext fun b => propext (eqv_parityProgram d a b)]
    split_ifs
    · exact ⟨fun _ => rfl, fun h => h.symm, fun h h' => h.trans h'⟩
    · exact ⟨fun _ => rfl, fun h => h.symm, fun h h' => h.trans h'⟩
  respects d df hd := by
    intro env env' v v' henv hv hv'
    have htext := (eqv_parityProgram ⟨"text", ()⟩ _ _).mp (henv ⟨"text", ()⟩)
    have hsummary := (eqv_parityProgram ⟨"summary", ()⟩ _ _).mp (henv ⟨"summary", ()⟩)
    rw [eqv_parityProgram]
    obtain ⟨hn, rfl⟩ | ⟨hn, rfl⟩ | ⟨hn, rfl⟩ := parityProgram_cases hd
    · cases hv
      cases hv'
      simp [hn]
    · cases hv
      cases hv'
      simp_all
    · cases hv
      cases hv'
      simp_all

theorem computable_parityProgram (inputs : Inputs Unit ℕ) :
    Computable parityProgram inputs ⟨"parity", ()⟩ := by
  refine computable_of_rank (fun d => d.name = "text" ∨ d.name = "summary" ∨ d.name = "parity")
    (fun d => if d.name = "text" then 0 else if d.name = "summary" then 1 else 2) ?_ (by simp)
  rintro d (hn | hn | hn)
  · refine ⟨_, by rw [hn]; rfl, ?_, ?_⟩
    · intro log e cont hf
      cases hf
    · intro log e hf
      cases hf
  · refine ⟨_, by rw [hn]; rfl, ?_, ?_⟩
    · intro log e cont hf
      cases hf with
      | refl => simp [hn]
      | read hf => cases hf
    · intro log e hf
      cases hf with
      | read hf => cases hf
  · refine ⟨_, by rw [hn]; rfl, ?_, ?_⟩
    · intro log e cont hf
      cases hf with
      | refl => simp [hn]
      | read hf => cases hf
    · intro log e hf
      cases hf with
      | read hf => cases hf

/-- The text is overlaid twice, with the parity it had and with another, and uncovered. -/
def parityCalls : List (Op Unit ℕ) :=
  [.get ⟨"parity", ()⟩, .setInput ⟨"text", ()⟩ 4, .get ⟨"parity", ()⟩, .setInput ⟨"text", ()⟩ 7,
    .get ⟨"parity", ()⟩, .clearInput ⟨"text", ()⟩, .get ⟨"parity", ()⟩]

theorem exec_agrees_scratch_parity :
    ∃ N outs q, (∀ n ≥ N, exec parityProgram n parityCalls Q.new = some (outs, q)) ∧
      List.Forall₂ (Agrees parityProgram) outs (gets (fun _ => none) parityCalls) := by
  refine exec_agrees_scratch lawful_parityProgram parityCalls fun g hg => ?_
  have hname : g.2 = ⟨"parity", ()⟩ := by
    simp only [parityCalls, gets, List.mem_cons, List.not_mem_nil, or_false] at hg
    rcases hg with rfl | rfl | rfl | rfl <;> rfl
  rw [hname]
  exact computable_parityProgram g.1

end Nupp.Query
