import Nupp.Runtime.Hotreload

/-! Staging: a patch chunk changes nothing that is live, and the candidates it leaves fit the
definitions they are for. -/

namespace Nupp.hotreload

variable {F : Type*} {state state' state'' : State F} {names : F → List String}

/-- Nothing that is live is changed. Cells are joined and a staging record is written. -/
structure Kept (state state' : State F) : Prop where
  generation : state'.generation = state.generation
  modules : state'.modules = state.modules
  bySlots : state'.bySlots = state.bySlots
  records : state'.records = state.records
  fresh : state'.fresh = state.fresh
  preparedSerial : state'.preparedSerial = state.preparedSerial
  transactions : state'.transactions = state.transactions
  epoch : state'.epoch = state.epoch
  accepted : state'.accepted = state.accepted

theorem Kept.refl (state : State F) : Kept state state :=
  ⟨rfl, rfl, rfl, rfl, rfl, rfl, rfl, rfl, rfl⟩

theorem Kept.trans (h : Kept state state') (h' : Kept state' state'') : Kept state state'' where
  generation := h'.generation.trans h.generation
  modules := h'.modules.trans h.modules
  bySlots := h'.bySlots.trans h.bySlots
  records := h'.records.trans h.records
  fresh := h'.fresh.trans h.fresh
  preparedSerial := h'.preparedSerial.trans h.preparedSerial
  transactions := h'.transactions.trans h.transactions
  epoch := h'.epoch.trans h.epoch
  accepted := h'.accepted.trans h.accepted

/-- The numbering of a candidate is its own, and it fills a slot that is defined. -/
def Fits (names : F → List String) (records : ℕ → Module F) (candidate : Candidate F) : Prop :=
  ∃ live, (records candidate.module).definitions candidate.index = some live ∧
    upvalues (names candidate.implementation) live.selfName = .ok candidate.captures

def Apart (a b : Candidate F) : Prop := ¬(a.module = b.module ∧ a.index = b.index)

structure Sound (names : F → List String) (state : State F) (staging : Staging F) : Prop where
  known : ∀ candidate ∈ staging.candidates, state.bySlots candidate.module = true
  fits : ∀ candidate ∈ staging.candidates, Fits names state.records candidate
  keyed : ∀ candidate ∈ staging.candidates,
    ((state.records candidate.module).name, candidate.index) ∈ staging.byKey
  apart : staging.candidates.Pairwise Apart

theorem sound_empty (baseGeneration : ℤ) (state : State F) :
    Sound names state ⟨baseGeneration, [], [], fun _ => none⟩ where
  known _ h := absurd h List.not_mem_nil
  fits _ h := absurd h List.not_mem_nil
  keyed _ h := absurd h List.not_mem_nil
  apart := List.Pairwise.nil

theorem Sound.kept {staging : Staging F} (h : Sound names state staging) (hkept : Kept state state') :
    Sound names state' staging where
  known := by rw [hkept.bySlots]; exact h.known
  fits := by rw [hkept.records]; exact h.fits
  keyed := by rw [hkept.records]; exact h.keyed
  apart := h.apart

/-- What a call leaves while a patch is staged. -/
def Stages (names : F → List String) (state state' : State F) : Prop :=
  Kept state state' ∧ ∃ staging, state'.staging = some staging ∧ Sound names state' staging

section Calls

variable {staging : Staging F}

theorem module_stages (name : String) (hstaging : state.staging = some staging)
    (hsound : Sound names state staging) : Stages names state (module name state).2 := by
  have hsame : (module name state).2 = state := by
    unfold module
    cases state.modules name with
    | none => simp [hstaging]
    | some id => simp only; split <;> rfl
  rw [hsame]
  exact ⟨Kept.refl state, staging, hstaging, hsound⟩

theorem policy_stages (slots : ℕ) (key : String) (hstaging : state.staging = some staging)
    (hsound : Sound names state staging) : Stages names state (policy slots key state).2 := by
  unfold policy
  split
  · simp only [hstaging]
    exact ⟨⟨rfl, rfl, rfl, rfl, rfl, rfl, rfl, rfl, rfl⟩, _, rfl,
      hsound.known, hsound.fits, hsound.keyed, hsound.apart⟩
  · exact ⟨Kept.refl state, staging, hstaging, hsound⟩

variable [DecidableEq F]

theorem detachSelf_kept (fn : F) (selfName : Option String) (state : State F) :
    Kept state (detachSelf names fn selfName state) ∧
      (detachSelf names fn selfName state).staging = state.staging := by
  unfold detachSelf
  split
  · exact ⟨Kept.refl state, rfl⟩
  · split
    · exact ⟨Kept.refl state, rfl⟩
    · exact ⟨⟨rfl, rfl, rfl, rfl, rfl, rfl, rfl, rfl, rfl⟩, rfl⟩

theorem defineCandidate_stages (slots : ℕ) (index : ℤ) (definition : Definition)
    (implementation : F) (hknown : state.bySlots slots = true)
    (hcaptures : upvalues (names implementation) definition.selfName = .ok definition.captures)
    (hstaging : state.staging = some staging) (hsound : Sound names state staging) :
    Stages names state (defineCandidate slots index definition implementation staging state).2 := by
  have hunchanged : Stages names state state := ⟨Kept.refl state, staging, hstaging, hsound⟩
  simp only [defineCandidate]
  split
  · exact hunchanged
  · next live hlive =>
    split
    · exact hunchanged
    split
    · exact hunchanged
    split
    · exact hunchanged
    · next hself =>
      split
      · exact hunchanged
      split
      · exact hunchanged
      · next cells _ =>
        split
        · exact ⟨⟨rfl, rfl, rfl, rfl, rfl, rfl, rfl, rfl, rfl⟩, staging, hstaging,
            hsound.kept ⟨rfl, rfl, rfl, rfl, rfl, rfl, rfl, rfl, rfl⟩⟩
        · next hkey =>
          refine ⟨⟨rfl, rfl, rfl, rfl, rfl, rfl, rfl, rfl, rfl⟩, _, rfl, ?_, ?_, ?_, ?_⟩
          · intro candidate hcandidate
            rcases List.mem_append.mp hcandidate with hold | hnew
            · exact hsound.known candidate hold
            · rw [List.mem_singleton.mp hnew]
              exact hknown
          · intro candidate hcandidate
            rcases List.mem_append.mp hcandidate with hold | hnew
            · exact hsound.fits candidate hold
            · rw [List.mem_singleton.mp hnew]
              exact ⟨live, hlive, by rw [not_not.mp hself]; exact hcaptures⟩
          · intro candidate hcandidate
            rcases List.mem_append.mp hcandidate with hold | hnew
            · exact List.mem_cons_of_mem _ (hsound.keyed candidate hold)
            · rw [List.mem_singleton.mp hnew]
              exact List.mem_cons_self
          · refine List.pairwise_append.mpr ⟨hsound.apart, List.pairwise_singleton _ _, ?_⟩
            intro old hold new hnew hsame
            rw [List.mem_singleton.mp hnew] at hsame
            have hkeyed := hsound.keyed old hold
            rw [hsame.1, hsame.2] at hkeyed
            exact hkey hkeyed

theorem define_stages (slots : ℕ) (index : ℤ) (id signature : String) (selfName : Option String)
    (implementation : F) (hstaging : state.staging = some staging)
    (hsound : Sound names state staging) :
    Stages names state (define names slots index id signature selfName implementation state).2 := by
  unfold define
  split
  · next hknown =>
    have hdetach : Kept state (detachSelf names implementation selfName state) ∧
        (detachSelf names implementation selfName state).staging = state.staging :=
      detachSelf_kept implementation selfName state
    obtain ⟨hkept, hsame⟩ := hdetach
    have hstaging' := hsame.trans hstaging
    have hsound' := hsound.kept hkept
    cases hcaptures : upvalues (names implementation) selfName with
    | error reason => exact ⟨hkept, staging, hstaging', hsound'⟩
    | ok captures =>
      simp only [hstaging']
      obtain ⟨hkept', hrest⟩ := defineCandidate_stages slots index
        ⟨id, signature, selfName, captures⟩ implementation (by rw [hkept.bySlots]; exact hknown)
        hcaptures hstaging' hsound'
      exact ⟨hkept.trans hkept', hrest⟩
  · exact ⟨Kept.refl state, staging, hstaging, hsound⟩

/-- A chunk of calls, by induction on it. -/
theorem chunk_stages (chunk : Chunk F) (hstaging : state.staging = some staging)
    (hsound : Sound names state staging) : Stages names state (chunk.run names state).2 := by
  induction chunk generalizing state staging with
  | finish => exact ⟨Kept.refl state, staging, hstaging, hsound⟩
  | raise reason => exact ⟨Kept.refl state, staging, hstaging, hsound⟩
  | module name next ih =>
    obtain ⟨hkept, staging', hstaging', hsound'⟩ := module_stages name hstaging hsound
    obtain ⟨hkept', hrest⟩ := ih (module name state).1 hstaging' hsound'
    exact ⟨hkept.trans hkept', hrest⟩
  | policy slots key next ih =>
    obtain ⟨hkept, staging', hstaging', hsound'⟩ := policy_stages slots key hstaging hsound
    obtain ⟨hkept', hrest⟩ := ih (policy slots key state).1 hstaging' hsound'
    exact ⟨hkept.trans hkept', hrest⟩
  | define slots index id signature selfName implementation next ih =>
    obtain ⟨hkept, staging', hstaging', hsound'⟩ :=
      define_stages slots index id signature selfName implementation hstaging hsound
    obtain ⟨hkept', hrest⟩ :=
      ih (define names slots index id signature selfName implementation state).1 hstaging' hsound'
    exact ⟨hkept.trans hkept', hrest⟩

end Calls

end Nupp.hotreload

/-! Publishing: every candidate is installed and nothing else, and each definition numbers
the captures of the function that its slot holds. -/

namespace Nupp.hotreload

variable {F : Type*} {names : F → List String} {records : ℕ → Module F}

/-- Each definition is of a filled slot and numbers what the slot holds. -/
def InStep (names : F → List String) (records : ℕ → Module F) : Prop :=
  ∀ id index definition, (records id).definitions index = some definition →
    ∃ fn, (records id).slots index = some fn ∧
      upvalues (names fn) definition.selfName = .ok definition.captures

section One

variable (candidate : Candidate F)

theorem publish_other {id : ℕ} (records : ℕ → Module F) (h : id ≠ candidate.module) :
    publish records candidate id = records id := Function.update_of_ne h _ _

@[simp] theorem publish_name (records : ℕ → Module F) (id : ℕ) :
    (publish records candidate id).name = (records id).name := by
  by_cases h : id = candidate.module
  · simp [publish, h]
  · rw [publish_other candidate records h]

@[simp] theorem publish_loaded (records : ℕ → Module F) (id : ℕ) :
    (publish records candidate id).loaded = (records id).loaded := by
  by_cases h : id = candidate.module
  · simp [publish, h]
  · rw [publish_other candidate records h]

@[simp] theorem publish_policies (records : ℕ → Module F) (id : ℕ) :
    (publish records candidate id).policies = (records id).policies := by
  by_cases h : id = candidate.module
  · simp [publish, h]
  · rw [publish_other candidate records h]

theorem publish_slots_self (records : ℕ → Module F) :
    (publish records candidate candidate.module).slots candidate.index =
      some candidate.implementation := by
  simp [publish]

theorem publish_slots_apart {id : ℕ} {index : ℤ} (records : ℕ → Module F)
    (h : ¬(candidate.module = id ∧ candidate.index = index)) :
    (publish records candidate id).slots index = (records id).slots index := by
  by_cases hid : id = candidate.module
  · subst hid
    have hindex : index ≠ candidate.index := fun heq => h ⟨rfl, heq.symm⟩
    simp [publish, Function.update_of_ne hindex]
  · rw [publish_other candidate records hid]

theorem publish_definitions_self (records : ℕ → Module F) :
    (publish records candidate candidate.module).definitions candidate.index =
      ((records candidate.module).definitions candidate.index).map fun definition =>
        { definition with captures := candidate.captures } := by
  simp [publish]

theorem publish_definitions_apart {id : ℕ} {index : ℤ} (records : ℕ → Module F)
    (h : ¬(candidate.module = id ∧ candidate.index = index)) :
    (publish records candidate id).definitions index = (records id).definitions index := by
  by_cases hid : id = candidate.module
  · subst hid
    have hindex : index ≠ candidate.index := fun heq => h ⟨rfl, heq.symm⟩
    simp [publish, Function.update_of_ne hindex]
  · rw [publish_other candidate records hid]

/-- A definition changes in nothing but its captures. -/
theorem publish_definition {id : ℕ} {index : ℤ} {definition : Definition}
    (h : (records id).definitions index = some definition) :
    ∃ captures, (publish records candidate id).definitions index =
      some { definition with captures := captures } := by
  by_cases hself : candidate.module = id ∧ candidate.index = index
  · obtain ⟨rfl, rfl⟩ := hself
    rw [publish_definitions_self, h]
    exact ⟨candidate.captures, rfl⟩
  · rw [publish_definitions_apart candidate records hself, h]
    exact ⟨definition.captures, rfl⟩

theorem publish_fits {other : Candidate F} (h : Fits names records other) :
    Fits names (publish records candidate) other := by
  obtain ⟨live, hlive, hcaptures⟩ := h
  obtain ⟨captures, hpublished⟩ := publish_definition candidate hlive
  exact ⟨_, hpublished, hcaptures⟩

theorem publish_inStep (h : InStep names records) (hfits : Fits names records candidate) :
    InStep names (publish records candidate) := by
  intro id index definition hdefinition
  by_cases hself : candidate.module = id ∧ candidate.index = index
  · obtain ⟨rfl, rfl⟩ := hself
    obtain ⟨live, hlive, hcaptures⟩ := hfits
    rw [publish_definitions_self, hlive, Option.map_some, Option.some.injEq] at hdefinition
    refine ⟨candidate.implementation, publish_slots_self candidate records, ?_⟩
    rw [← hdefinition]
    exact hcaptures
  · rw [publish_definitions_apart candidate records hself] at hdefinition
    rw [publish_slots_apart candidate records hself]
    exact h id index definition hdefinition

end One

section All

variable (candidates : List (Candidate F))

theorem publishAll_kept (records : ℕ → Module F) (id : ℕ) :
    (candidates.foldl publish records id).name = (records id).name ∧
      (candidates.foldl publish records id).loaded = (records id).loaded ∧
      (candidates.foldl publish records id).policies = (records id).policies := by
  induction candidates generalizing records with
  | nil => exact ⟨rfl, rfl, rfl⟩
  | cons candidate candidates ih =>
    obtain ⟨hname, hloaded, hpolicies⟩ := ih (publish records candidate)
    refine ⟨hname.trans ?_, hloaded.trans ?_, hpolicies.trans ?_⟩
    · exact publish_name candidate records id
    · exact publish_loaded candidate records id
    · exact publish_policies candidate records id

theorem publishAll_slots_apart (records : ℕ → Module F) {id : ℕ} {index : ℤ}
    (h : ∀ candidate ∈ candidates, ¬(candidate.module = id ∧ candidate.index = index)) :
    (candidates.foldl publish records id).slots index = (records id).slots index := by
  induction candidates generalizing records with
  | nil => rfl
  | cons candidate candidates ih =>
    rw [List.foldl_cons, ih _ fun other hother => h other (List.mem_cons_of_mem _ hother)]
    exact publish_slots_apart candidate records (h candidate List.mem_cons_self)

theorem publishAll_slots (records : ℕ → Module F) (hapart : candidates.Pairwise Apart)
    {candidate : Candidate F} (h : candidate ∈ candidates) :
    (candidates.foldl publish records candidate.module).slots candidate.index =
      some candidate.implementation := by
  induction candidates generalizing records with
  | nil => exact absurd h List.not_mem_nil
  | cons first candidates ih =>
    obtain ⟨hfirst, hapart⟩ := List.pairwise_cons.mp hapart
    rw [List.foldl_cons]
    rcases List.mem_cons.mp h with rfl | h
    · rw [publishAll_slots_apart candidates _ fun other hother hsame =>
        hfirst other hother ⟨hsame.1.symm, hsame.2.symm⟩]
      exact publish_slots_self candidate records
    · exact ih (publish records first) hapart h

theorem publishAll_definition {id : ℕ} {index : ℤ} {definition : Definition}
    (h : (records id).definitions index = some definition) :
    ∃ captures, (candidates.foldl publish records id).definitions index =
      some { definition with captures := captures } := by
  induction candidates generalizing records definition with
  | nil => exact ⟨definition.captures, h⟩
  | cons candidate candidates ih =>
    obtain ⟨captures, hpublished⟩ := publish_definition candidate h
    obtain ⟨captures', hrest⟩ := ih hpublished
    exact ⟨captures', hrest⟩

theorem publishAll_inStep (h : InStep names records)
    (hfits : ∀ candidate ∈ candidates, Fits names records candidate) :
    InStep names (candidates.foldl publish records) := by
  induction candidates generalizing records with
  | nil => exact h
  | cons candidate candidates ih =>
    refine ih (publish_inStep candidate h (hfits candidate List.mem_cons_self)) ?_
    exact fun other hother =>
      publish_fits candidate (hfits other (List.mem_cons_of_mem _ hother))

end All

end Nupp.hotreload
