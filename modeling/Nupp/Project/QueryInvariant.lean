import Nupp.Project.Query

/-! The invariant of the query database. Every entry remembers a run of its
definition, and its stamps say which of the reads of that run still stand. -/

namespace Nupp.Query

open Reads Relation

variable {K V E : Type*}

/-- The inputs in force. -/
def inputsOf (q : Q K V) : Inputs K V := fun d => (q.inputs d).map Input.value

/-- What an entry verified at `t` may hold of a dependency in which it read `v`. -/
def DepOk (q : Q K V) (d : Dep K) (v : V) (t : ℕ) : Prop :=
  match q.inputs d, q.memo d with
  | some inp, _ => inp.changedAt ≤ t → inp.value = v
  | none, some m => (m.changedAt ≤ t → m.value = v) ∧ (t = q.revision → m.verifiedAt = q.revision)
  | none, none => t < q.revision

theorem DepOk.congr {q q' : Q K V} {d : Dep K} {v : V} {t : ℕ} (h : DepOk q d v t)
    (hr : q'.revision = q.revision) (hi : q'.inputs d = q.inputs d) (hm : q'.memo d = q.memo d) :
    DepOk q' d v t := by
  unfold DepOk at h ⊢
  rw [hr, hi, hm]
  exact h

/-- `d` answers `v` without being brought up to date. -/
def Settled (q : Q K V) (d : Dep K) (v : V) : Prop :=
  match q.inputs d, q.memo d with
  | some inp, _ => inp.value = v
  | none, some m => m.verifiedAt = q.revision ∧ m.value = v
  | none, none => False

theorem settled_input {q : Q K V} {d : Dep K} {v : V} {inp : Input V} (hi : q.inputs d = some inp) :
    Settled q d v ↔ inp.value = v := by
  simp [Settled, hi]

/-- The memo of a derived query that is settled. -/
theorem settled_derived {q : Q K V} {d : Dep K} {v : V} (hi : q.inputs d = none) :
    Settled q d v ↔ ∃ m, q.memo d = some m ∧ m.verifiedAt = q.revision ∧ m.value = v := by
  cases hm : q.memo d <;> simp [Settled, hi, hm]

theorem Settled.unique {q : Q K V} {d : Dep K} {v v' : V} (h : Settled q d v)
    (h' : Settled q d v') : v = v' := by
  cases hi : q.inputs d with
  | some inp => exact ((settled_input hi).mp h).symm.trans ((settled_input hi).mp h')
  | none =>
    obtain ⟨m, hm, -, hv⟩ := (settled_derived hi).mp h
    obtain ⟨m', hm', -, hv'⟩ := (settled_derived hi).mp h'
    cases hm.symm.trans hm'
    exact hv.symm.trans hv'

theorem Settled.consistent {q : Q K V} {log : List (Dep K × V)}
    (h : ∀ x ∈ log, Settled q x.1 x.2) : Consistent log := by
  intro x hx y hy he
  have hy' := h y hy
  rw [← he] at hy'
  exact (h x hx).unique hy'

structure EntryOk (prog : Program K V E) [DecidableEq V] (q : Q K V) (d : Dep K) (m : Memo K V) :
    Prop where
  changed_le : m.changedAt ≤ m.verifiedAt
  verified_le : m.verifiedAt ≤ q.revision
  log : ∃ df log w, prog.defs d.name = some df ∧ (df.fn d.key).Follows log (.ret w) ∧
    log.map Prod.fst = m.deps ∧ eqv prog d w m.value ∧ ∀ x ∈ log, DepOk q x.1 x.2 m.verifiedAt
  current : m.verifiedAt = q.revision → Eval prog (inputsOf q) d m.value

structure Inv (prog : Program K V E) [DecidableEq V] (q : Q K V) : Prop where
  stamp_le : ∀ d inp, q.inputs d = some inp → inp.changedAt ≤ q.revision
  entry : ∀ d m, q.inputs d = none → q.memo d = some m → EntryOk prog q d m

variable [DecidableEq V] {prog : Program K V E} {q q' q'' : Q K V}

theorem inv_new : Inv prog (Q.new : Q K V) where
  stamp_le := by
    intro d inp h
    cases h
  entry := by
    intro d m _ h
    cases h

omit [DecidableEq V] in
/-- Reading what is settled gives a dependency of an entry verified now. -/
theorem Settled.depOk {d : Dep K} {v : V} (h : Settled q d v) : DepOk q d v q.revision := by
  cases hi : q.inputs d with
  | some inp =>
    rw [settled_input hi] at h
    simp [DepOk, hi, h]
  | none =>
    obtain ⟨m, hm, hv, hval⟩ := (settled_derived hi).mp h
    simp [DepOk, hi, hm, hv, hval]

/-! Changing an input. -/

/-- The clock moves, and what was touched carries the new stamp or nothing. -/
structure Bump (q q' : Q K V) : Prop where
  revision : q'.revision = q.revision + 1
  touched : ∀ d, (q'.inputs d = q.inputs d ∧ q'.memo d = q.memo d) ∨
    (∃ inp, q'.inputs d = some inp ∧ inp.changedAt = q'.revision) ∨
    (q'.inputs d = none ∧ q'.memo d = none)

omit [DecidableEq V] in
theorem setInput_bump [DecidableEq K] (q : Q K V) (d : Dep K) (v : V) : Bump q (setInput q d v) where
  revision := rfl
  touched := by
    intro e
    by_cases he : e = d
    · subst he
      exact .inr (.inl ⟨⟨v, q.revision + 1⟩, by simp [setInput], rfl⟩)
    · exact .inl ⟨by simp [setInput, he], rfl⟩

omit [DecidableEq V] in
theorem clearInput_bump [DecidableEq K] (q : Q K V) (d : Dep K) : Bump q (clearInput q d) where
  revision := rfl
  touched := by
    intro e
    by_cases he : e = d
    · subst he
      exact .inr (.inr ⟨by simp [clearInput], by simp [clearInput]⟩)
    · exact .inl ⟨by simp [clearInput, he], by simp [clearInput, he]⟩

omit [DecidableEq V] in
theorem DepOk.bump (hb : Bump q q') {d : Dep K} {v : V} {t : ℕ} (ht : t ≤ q.revision)
    (h : DepOk q d v t) : DepOk q' d v t := by
  have hlt : t < q'.revision := by
    rw [hb.revision]
    omega
  rcases hb.touched d with ⟨hi, hm⟩ | ⟨inp, hi, hc⟩ | ⟨hi, hm⟩
  · unfold DepOk at h ⊢
    rw [hi, hm]
    split at h
    · exact h
    · exact ⟨h.1, fun he => absurd he (Nat.ne_of_lt hlt)⟩
    · exact hlt
  · simp only [DepOk, hi]
    intro hle
    omega
  · simp only [DepOk, hi, hm]
    exact hlt

theorem Inv.bump (hq : Inv prog q) (hb : Bump q q') : Inv prog q' where
  stamp_le := by
    intro d inp h
    rcases hb.touched d with ⟨hi, -⟩ | ⟨inp', hi, hc⟩ | ⟨hi, -⟩
    · have hle := hq.stamp_le d inp (hi ▸ h)
      rw [hb.revision]
      omega
    · cases hi.symm.trans h
      exact Nat.le_of_eq hc
    · cases hi.symm.trans h
  entry := by
    intro d m hnone hm
    rcases hb.touched d with ⟨hi, hm'⟩ | ⟨inp', hi, -⟩ | ⟨-, hm'⟩
    · obtain ⟨hc, hv, ⟨df, log, w, hd, hf, hdeps, he, hlog⟩, -⟩ :=
        hq.entry d m (hi ▸ hnone) (hm' ▸ hm)
      refine ⟨hc, ?_, ⟨df, log, w, hd, hf, hdeps, he, fun x hx => (hlog x hx).bump hb hv⟩, ?_⟩
      · rw [hb.revision]
        omega
      · rw [hb.revision]
        intro h
        omega
    · cases hi.symm.trans hnone
    · cases hm'.symm.trans hm

/-! Bringing entries up to date. -/

/-- Within a revision an entry changes once, and keeps its value unless it takes
the new stamp. -/
def MemoStep (revision : ℕ) (old new : Option (Memo K V)) : Prop :=
  new = old ∨ ∃ m, new = some m ∧ m.verifiedAt = revision ∧
    (∀ m₀, old = some m₀ → m₀.verifiedAt ≠ revision) ∧
    (m.changedAt = revision ∨ ∃ m₀, old = some m₀ ∧ m.changedAt = m₀.changedAt ∧ m.value = m₀.value)

structure Ext (q q' : Q K V) : Prop where
  revision : q'.revision = q.revision
  inputs : q'.inputs = q.inputs
  memo : ∀ d, MemoStep q.revision (q.memo d) (q'.memo d)

omit [DecidableEq V] in
theorem Ext.of_eq (hr : q'.revision = q.revision) (hi : q'.inputs = q.inputs)
    (hm : q'.memo = q.memo) : Ext q q' :=
  ⟨hr, hi, fun d => .inl (congrFun hm d)⟩

omit [DecidableEq V] in
theorem Ext.trans (h : Ext q q') (h' : Ext q' q'') : Ext q q'' where
  revision := h'.revision.trans h.revision
  inputs := h'.inputs.trans h.inputs
  memo := by
    intro d
    have hstep' := h'.memo d
    rw [h.revision] at hstep'
    rcases h.memo d with hsame | ⟨m, hm, hv, hold, hkeep⟩
    · rwa [hsame] at hstep'
    · rcases hstep' with hsame' | ⟨m', -, -, hold', -⟩
      · rw [hsame']
        exact .inr ⟨m, hm, hv, hold, hkeep⟩
      · exact absurd hv (hold' m hm)

omit [DecidableEq V] in
theorem Ext.inputsOf_eq (h : Ext q q') : inputsOf q' = inputsOf q := by
  unfold inputsOf
  rw [h.inputs]

omit [DecidableEq V] in
theorem Settled.ext (h : Ext q q') {d : Dep K} {v : V} (hs : Settled q d v) : Settled q' d v := by
  cases hi : q.inputs d with
  | some inp =>
    rw [settled_input hi] at hs
    exact (settled_input (by rw [h.inputs, hi])).mpr hs
  | none =>
    obtain ⟨m, hm, hv, hval⟩ := (settled_derived hi).mp hs
    have hsame : q'.memo d = some m := by
      rcases h.memo d with hsame | ⟨-, -, -, hold, -⟩
      · rw [hsame, hm]
      · exact absurd hv (hold m hm)
    refine (settled_derived (by rw [h.inputs, hi])).mpr ⟨m, hsame, ?_, hval⟩
    rw [hv, h.revision]

omit [DecidableEq V] in
theorem DepOk.ext (h : Ext q q') {d : Dep K} {v : V} {t : ℕ} (ht : t ≤ q.revision)
    (hd : DepOk q d v t) : DepOk q' d v t := by
  rcases h.memo d with hsame | ⟨m, hm, hv, hold, hkeep⟩
  · exact hd.congr h.revision (congrFun h.inputs d) hsame
  · unfold DepOk at hd ⊢
    rw [h.inputs, h.revision, hm]
    split at hd
    case h_1 _ inp _ hi =>
      simpa only [hi] using hd
    case h_2 _ m₀ hi hm₀ =>
      simp only [hi]
      refine ⟨fun hle => ?_, fun _ => hv⟩
      rcases hkeep with hc | ⟨m₁, hm₁, hc, hval⟩
      · have ht' : t = q.revision := by omega
        exact absurd (hd.2 ht') (hold m₀ hm₀)
      · cases hm₀.symm.trans hm₁
        rw [hval]
        exact hd.1 (hc ▸ hle)
    case h_3 _ hi hnone =>
      simp only [hi]
      refine ⟨fun hle => ?_, fun _ => hv⟩
      rcases hkeep with hc | ⟨m₁, hm₁, -⟩
      · omega
      · cases hnone.symm.trans hm₁

theorem EntryOk.ext (h : Ext q q') {d : Dep K} {m : Memo K V} (hm : EntryOk prog q d m) :
    EntryOk prog q' d m := by
  obtain ⟨hc, hv, ⟨df, log, w, hd, hf, hdeps, he, hlog⟩, hcur⟩ := hm
  refine ⟨hc, h.revision ▸ hv, ⟨df, log, w, hd, hf, hdeps, he, fun x hx => (hlog x hx).ext h hv⟩, ?_⟩
  rw [h.revision, h.inputsOf_eq]
  exact hcur

/-- The invariant survives a step that leaves every entry it changes in order. -/
theorem Inv.ext (hq : Inv prog q) (h : Ext q q')
    (hnew : ∀ d m, q'.memo d = some m → q.memo d = some m ∨ EntryOk prog q' d m) : Inv prog q' where
  stamp_le := by
    rw [h.inputs, h.revision]
    exact hq.stamp_le
  entry := by
    intro d m hi hm
    rcases hnew d m hm with hold | hok
    · exact (hq.entry d m (h.inputs ▸ hi) hold).ext h
    · exact hok

end Nupp.Query
