import Nupp.Project.Documents
import Nupp.Project.QueryRun

/-! Reads do not touch what is laid over the disk: whatever the other definitions are, a
read leaves the inputs alone, and what it remembers of a file is what the disk held. -/

namespace Nupp.incremental

open Query Reads

variable {W E : Type*} {disk : Disk} {others : Defs W E}
  {held : String → List (Option String)} {q q' q'' : Q String (Value W)} {d : Dep String}

/-- What is remembered of a file that no buffer covers is among what the disk held. -/
structure Leaves (held : String → List (Option String)) (q : Q String (Value W)) : Prop where
  idle : ∀ path, q.active (fileTextOf path) = false
  memo : ∀ path, q.inputs (fileTextOf path) = none → ∀ m, q.memo (fileTextOf path) = some m →
    m.deps = [] ∧ ∃ c ∈ held path, m.value = content c

def Tame (held : String → List (Option String)) (q q' : Q String (Value W)) : Prop :=
  Leaves held q → q'.inputs = q.inputs ∧ Leaves held q'

theorem Tame.trans (h : Tame held q q') (h' : Tame held q' q'') : Tame held q q'' := by
  intro hq
  obtain ⟨hinputs, hq'⟩ := h hq
  obtain ⟨hinputs', hq''⟩ := h' hq'
  exact ⟨hinputs'.trans hinputs, hq''⟩

/-- Only the entries and the marks of the files themselves matter. -/
theorem Tame.of_leaves (hinputs : q'.inputs = q.inputs)
    (hactive : ∀ path, q'.active (fileTextOf path) = q.active (fileTextOf path))
    (hmemo : ∀ path, q'.memo (fileTextOf path) = q.memo (fileTextOf path)) : Tame held q q' := by
  intro hq
  refine ⟨hinputs, fun path => ?_, fun path hnone m hm => ?_⟩
  · rw [hactive]
    exact hq.idle path
  · rw [hinputs] at hnone
    rw [hmemo] at hm
    exact hq.memo path hnone m hm

theorem Tame.refl (q : Q String (Value W)) : Tame held q q :=
  Tame.of_leaves rfl (fun _ => rfl) fun _ => rfl

theorem tame_record (q : Q String (Value W)) (d : Dep String) : Tame held q (record q d) :=
  Tame.of_leaves (record_inputs q d) (fun _ => by rw [record_active]) fun _ => by rw [record_memo]

theorem tame_countHit (q : Q String (Value W)) (d : Dep String) : Tame held q (countHit q d) :=
  Tame.of_leaves rfl (fun _ => rfl) fun _ => rfl

theorem Tame.answered (h : Tame held q q') (d : Dep String) :
    Tame held q (record (countHit q' d) d) :=
  h.trans ((tame_countHit q' d).trans (tame_record _ d))

theorem fileTextOf_ne {path : String} (h : d.name ≠ "fileText") : fileTextOf path ≠ d := by
  rintro rfl
  exact h rfl

theorem tame_enter (q : Q String (Value W)) (h : d.name ≠ "fileText") : Tame held q (enter q d) :=
  Tame.of_leaves rfl (fun _ => Function.update_of_ne (fileTextOf_ne h) _ _) fun _ => rfl

theorem tame_leave (q : Q String (Value W)) (h : d.name ≠ "fileText") : Tame held q (leave q d) :=
  Tame.of_leaves rfl (fun _ => Function.update_of_ne (fileTextOf_ne h) _ _) fun _ => rfl

theorem tame_store [DecidableEq W] {df : Def String (Value W) E} {entry : Option (Memo String (Value W))}
    {value : Value W} {deps : List (Dep String)} (q : Q String (Value W))
    (h : d.name ≠ "fileText") : Tame held q (store df d entry value deps q).2 := by
  have hmemo (m : Memo String (Value W)) (path : String) :
      Function.update q.memo d (some m) (fileTextOf path) = q.memo (fileTextOf path) :=
    Function.update_of_ne (fileTextOf_ne h) _ _
  unfold store
  split
  · split
    · exact Tame.of_leaves rfl (fun _ => rfl) fun path => hmemo _ path
    · exact Tame.of_leaves rfl (fun _ => rfl) fun path => hmemo _ path
  · exact Tame.of_leaves rfl (fun _ => rfl) fun path => hmemo _ path

/-- A getter that leaves the files alone. -/
def Calm (held : String → List (Option String)) (self : Getter String (Value W) E) : Prop :=
  ∀ d q r q', self d q = some (r, q') → Tame held q q'

section Parts

variable {self : Getter String (Value W) E}

theorem runFn_tame (hself : Calm held self) {c : Comp (Dep String) (Value W) (Failure E)}
    {r : Except (Failure E) (Value W)} (h : runFn self c q = some (r, q')) : Tame held q q' := by
  induction c generalizing q with
  | ret v =>
    simp only [runFn, Option.some.injEq, Prod.mk.injEq] at h
    rw [← h.2]
    exact Tame.refl q
  | raise e =>
    simp only [runFn, Option.some.injEq, Prod.mk.injEq] at h
    rw [← h.2]
    exact Tame.refl q
  | read d cont ih =>
    simp only [runFn] at h
    cases hread : self d q with
    | none => simp [hread] at h
    | some answer =>
      obtain ⟨answer, q₁⟩ := answer
      have hfirst := hself d q answer q₁ hread
      simp only [hread] at h
      exact hfirst.trans (ih answer h)

theorem depChangedAt_tame (hself : Calm held self) {r : Except (Failure E) ℕ}
    (h : depChangedAt self d q = some (r, q')) : Tame held q q' := by
  unfold depChangedAt at h
  cases hinput : q.inputs d with
  | some inp =>
    simp only [hinput, Option.some.injEq, Prod.mk.injEq] at h
    rw [← h.2]
    exact Tame.refl q
  | none =>
    cases hread : self d q with
    | none => simp [hinput, hread] at h
    | some answer =>
      obtain ⟨answer, q₁⟩ := answer
      have hfirst := hself d q answer q₁ hread
      cases answer with
      | error e =>
        simp only [hinput, hread, Option.some.injEq, Prod.mk.injEq] at h
        rwa [← h.2]
      | ok v =>
        cases hmemo : q₁.memo d with
        | none =>
          simp only [hinput, hread, hmemo, Option.some.injEq, Prod.mk.injEq] at h
          rwa [← h.2]
        | some entry =>
          simp only [hinput, hread, hmemo, Option.some.injEq, Prod.mk.injEq] at h
          rwa [← h.2]

theorem validateDeps_tame (hself : Calm held self) {verifiedAt : ℕ} {deps : List (Dep String)}
    {r : Except (Failure E) Bool} (h : validateDeps self verifiedAt deps q = some (r, q')) :
    Tame held q q' := by
  induction deps generalizing q with
  | nil =>
    simp only [validateDeps, Option.some.injEq, Prod.mk.injEq] at h
    rw [← h.2]
    exact Tame.refl q
  | cons d deps ih =>
    simp only [validateDeps] at h
    cases hchanged : depChangedAt self d q with
    | none => simp [hchanged] at h
    | some answer =>
      obtain ⟨answer, q₁⟩ := answer
      have hfirst := depChangedAt_tame hself hchanged
      cases answer with
      | error e =>
        simp only [hchanged, Option.some.injEq, Prod.mk.injEq] at h
        rwa [← h.2]
      | ok changedAt =>
        simp only [hchanged] at h
        split at h
        · simp only [Option.some.injEq, Prod.mk.injEq] at h
          rwa [← h.2]
        · exact hfirst.trans (ih h)

theorem compute_tame [DecidableEq W] (hself : Calm held self) {df : Def String (Value W) E}
    {entry : Option (Memo String (Value W))} {r : Except (Failure E) (Value W)}
    (hd : d.name ≠ "fileText") (h : compute self df d entry q = some (r, q')) :
    Tame held q q' := by
  simp only [compute] at h
  have hcounted : Tame held q
      { q with stats := Function.update q.stats d.name (q.stats d.name + 1) } :=
    Tame.of_leaves rfl (fun _ => rfl) fun _ => rfl
  have hentered := hcounted.trans (tame_enter _ hd)
  split at h
  · exact absurd h (by simp)
  · next e q₁ hrun =>
    have hleft := (hentered.trans (runFn_tame hself hrun)).trans (tame_leave q₁ hd)
    simp only [Option.some.injEq, Prod.mk.injEq] at h
    rwa [← h.2]
  · next value q₁ hrun =>
    have hleft := (hentered.trans (runFn_tame hself hrun)).trans (tame_leave q₁ hd)
    simp only [Option.some.injEq, Prod.mk.injEq] at h
    rw [← h.2]
    exact (hleft.trans (tame_store _ hd)).trans (tame_record _ d)

theorem refresh_tame [DecidableEq W] (hself : Calm held self) {df : Def String (Value W) E}
    {entry : Memo String (Value W)} {r : Except (Failure E) (Value W)}
    (hd : d.name ≠ "fileText") (h : refresh self df d entry q = some (r, q')) :
    Tame held q q' := by
  simp only [refresh] at h
  have hentered : Tame held q (enter q d) := tame_enter q hd
  split at h
  · exact absurd h (by simp)
  · next e q₁ hvalid =>
    have hleft := (hentered.trans (validateDeps_tame hself hvalid)).trans (tame_leave q₁ hd)
    simp only [Option.some.injEq, Prod.mk.injEq] at h
    rwa [← h.2]
  · next q₁ hvalid =>
    have hleft := (hentered.trans (validateDeps_tame hself hvalid)).trans (tame_leave q₁ hd)
    simp only [Option.some.injEq, Prod.mk.injEq] at h
    rw [← h.2]
    refine (hleft.trans ?_).answered d
    exact Tame.of_leaves rfl (fun _ => rfl)
      fun _ => Function.update_of_ne (fileTextOf_ne hd) _ _
  · next q₁ hvalid =>
    have hleft := (hentered.trans (validateDeps_tame hself hvalid)).trans (tame_leave q₁ hd)
    exact hleft.trans (compute_tame hself hd h)

end Parts

section File

variable {path : String}

def wholeFileDef (disk : Disk) : Def String (Value W) E :=
  ⟨fun path => .ret (wholeFile disk path), none⟩

theorem program_fileText :
    (program disk others).defs (fileTextOf path).name = some (wholeFileDef disk) := by
  simp [program, fileTextOf, wholeFileDef]

/-- An entry that is written for a file keeps the files as they should be when it has no
reads and its value was on disk. -/
theorem leaves_written {m : Memo String (Value W)} {c : Option String} (h : Leaves held q)
    (hinputs : q'.inputs = q.inputs) (hdeps : m.deps = []) (hc : c ∈ held path)
    (hvalue : m.value = content c)
    (hactive : ∀ other, other ≠ path → q'.active (fileTextOf other) = q.active (fileTextOf other))
    (hidle : q'.active (fileTextOf path) = false)
    (hmemo : q'.memo = Function.update q.memo (fileTextOf path) (some m)) : Leaves held q' where
  idle other := by
    by_cases hother : other = path
    · rw [hother]
      exact hidle
    · rw [hactive other hother]
      exact h.idle other
  memo other hnone m' hm' := by
    rw [hinputs] at hnone
    rw [hmemo] at hm'
    by_cases hother : other = path
    · subst hother
      rw [Function.update_self, Option.some.injEq] at hm'
      exact hm' ▸ ⟨hdeps, c, hc, hvalue⟩
    · rw [Function.update_of_ne (fun heq => hother (congrArg Dep.key heq))] at hm'
      exact h.memo other hnone m' hm'

theorem leave_enter_active (q : Q String (Value W)) {other : String} (h : other ≠ path) :
    (leave (enter q (fileTextOf path)) (fileTextOf path)).active (fileTextOf other) =
      q.active (fileTextOf other) := by
  have hne : fileTextOf other ≠ fileTextOf path := fun heq => h (congrArg Dep.key heq)
  simp only [leave, enter, Function.update_of_ne hne]

theorem leave_active (q : Q String (Value W)) :
    (leave q (fileTextOf path)).active (fileTextOf path) = false := Function.update_self ..

theorem store_file [DecidableEq W] {entry : Option (Memo String (Value W))}
    (hentry : ∀ m, entry = some m → ∃ c ∈ held path, m.value = content c)
    (hdisk : disk path ∈ held path) (q : Q String (Value W)) :
    ∃ c ∈ held path, ∃ q',
      store (wholeFileDef disk : Def String (Value W) E) (fileTextOf path) entry
          (content (disk path)) [] q = (content c, q') ∧
        q'.inputs = q.inputs ∧ q'.active = q.active ∧
        ∃ m, m.deps = [] ∧ m.value = content c ∧
          q'.memo = Function.update q.memo (fileTextOf path) (some m) := by
  unfold store
  cases entry with
  | none => exact ⟨disk path, hdisk, _, rfl, rfl, rfl, _, rfl, rfl, rfl⟩
  | some m =>
    obtain ⟨c, hc, hvalue⟩ := hentry m rfl
    simp only [hvalue]
    split
    · exact ⟨c, hc, _, rfl, rfl, rfl, _, rfl, rfl, rfl⟩
    · exact ⟨disk path, hdisk, _, rfl, rfl, rfl, _, rfl, rfl, rfl⟩

/-- Reading a file afresh. -/
theorem compute_file [DecidableEq W] {self : Getter String (Value W) E} (h : Leaves held q)
    (hinput : q.inputs (fileTextOf path) = none) (hdisk : disk path ∈ held path) :
    ∃ c ∈ held path, ∃ q',
      compute self (wholeFileDef disk) (fileTextOf path) (q.memo (fileTextOf path)) q =
        some (.ok (content c), q') ∧ Tame held q q' := by
  have hrun (q₀ : Q String (Value W)) :
      runFn self ((wholeFileDef disk).fn (fileTextOf path).key) q₀ =
        some (.ok (content (disk path)), q₀) := rfl
  have hentry (m : Memo String (Value W)) (hm : q.memo (fileTextOf path) = some m) :
      ∃ c ∈ held path, m.value = content c := (h.memo path hinput m hm).2
  simp only [compute, hrun]
  obtain ⟨c, hc, q', hstore, hinputs, hactive, m, hdeps, hvalue, hmemo⟩ :=
    store_file (E := E) hentry hdisk (leave (enter { q with
      stats := Function.update q.stats "fileText" (q.stats "fileText" + 1) } (fileTextOf path))
      (fileTextOf path))
  refine ⟨c, hc, record q' (fileTextOf path),
    congrArg (fun p => some (Except.ok p.1, record p.2 (fileTextOf path))) hstore,
    Tame.trans (fun _ => ⟨hinputs, ?_⟩) (tame_record _ _)⟩
  refine leaves_written h hinputs hdeps hc hvalue (fun other hother => ?_) ?_ hmemo
  · rw [hactive]
    exact leave_enter_active q hother
  · rw [hactive]
    exact leave_active (enter q _)

/-- Reading a file that no buffer covers answers what the disk held. -/
theorem read_file [DecidableEq W] (others : Defs W E) (self : Getter String (Value W) E) (h : Leaves held q)
    (hinput : q.inputs (fileTextOf path) = none) (hdisk : disk path ∈ held path) :
    ∃ c ∈ held path, ∃ q',
      getStep (program disk others) self (fileTextOf path) q = some (.ok (content c), q') ∧
        Tame held q q' := by
  simp only [getStep, hinput, program_fileText, h.idle path, Bool.false_eq_true, if_false]
  cases hentry : q.memo (fileTextOf path) with
  | none =>
    simp only
    exact hentry ▸ compute_file h hinput hdisk
  | some m =>
    obtain ⟨hdeps, c, hc, hvalue⟩ := h.memo path hinput m hentry
    simp only
    split
    · exact ⟨c, hc, _, by rw [hvalue], (Tame.refl q).answered _⟩
    · refine ⟨c, hc, ?_⟩
      simp only [refresh, hdeps, validateDeps, hvalue]
      refine ⟨_, rfl, Tame.answered ?_ (fileTextOf path)⟩
      refine fun _ => ⟨rfl, ?_⟩
      exact leaves_written h rfl rfl hc rfl (fun other hother => leave_enter_active q hother)
        (leave_active (enter q _)) rfl

end File

section Get

theorem getStep_calm [DecidableEq W] {self : Getter String (Value W) E} (hself : Calm held self)
    (hdisk : ∀ path, disk path ∈ held path) : Calm held (getStep (program disk others) self) := by
  intro d q r q' h
  cases hinput : q.inputs d with
  | some inp =>
    simp only [getStep, hinput, Option.some.injEq, Prod.mk.injEq] at h
    rw [← h.2]
    exact tame_record q d
  | none =>
    by_cases hd : d.name = "fileText"
    · obtain ⟨name, path⟩ := d
      simp only at hd
      subst hd
      intro hleaves
      obtain ⟨c, -, q₁, hread, htame⟩ := read_file others self hleaves hinput
        (hdisk path)
      have hsame : some (r, q') = some (.ok (content c), q₁) := h.symm.trans hread
      simp only [Option.some.injEq, Prod.mk.injEq] at hsame
      rw [hsame.2]
      exact htame hleaves
    · simp only [getStep, hinput] at h
      cases hdef : (program disk others).defs d.name with
      | none =>
        simp only [hdef, Option.some.injEq, Prod.mk.injEq] at h
        rw [← h.2]
        exact Tame.refl q
      | some df =>
        simp only [hdef] at h
        cases hentry : q.memo d with
        | none =>
          simp only [hentry] at h
          split at h
          · simp only [Option.some.injEq, Prod.mk.injEq] at h
            rw [← h.2]
            exact tame_record q d
          · exact compute_tame hself hd h
        | some m =>
          simp only [hentry] at h
          split at h
          · simp only [Option.some.injEq, Prod.mk.injEq] at h
            rw [← h.2]
            exact (Tame.refl q).answered d
          · split at h
            · simp only [Option.some.injEq, Prod.mk.injEq] at h
              rw [← h.2]
              exact tame_record q d
            · exact refresh_tame hself hd h

/-- Whatever is read, the files stay as they should be. -/
theorem get_calm [DecidableEq W] (hdisk : ∀ path, disk path ∈ held path) (depth : ℕ) :
    Calm held (Query.get (program disk others) depth) := by
  induction depth with
  | zero =>
    intro d q r q' h
    exact absurd h (by simp [Query.get])
  | succ depth ih => exact getStep_calm ih hdisk

end Get

end Nupp.incremental
