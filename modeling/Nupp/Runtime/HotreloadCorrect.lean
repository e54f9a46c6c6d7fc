import Mathlib.Data.List.Induction
import Nupp.Runtime.HotreloadStage

/-! Reloading as a transaction, over every run of the registry: what staging and a refused
commit leave alone, and when an accepted commit is what it should be. -/

namespace Nupp.hotreload

variable {F : Type*} {names : F → List String} {state state' : State F}

section Spec

/-- What is live: slots, definitions, policies, registrations and the generation. -/
structure Same (state state' : State F) : Prop where
  generation : state'.generation = state.generation
  modules : state'.modules = state.modules
  bySlots : state'.bySlots = state.bySlots
  records : state'.records = state.records

def Patched (prepared : Transaction F) (id : ℕ) : Prop :=
  ∃ candidate ∈ prepared.candidates, candidate.module = id

/-- The policies a patch declares for a module. -/
def Transaction.declared (prepared : Transaction F) (id : ℕ) : Finset String :=
  (prepared.policies id).getD ∅

/-- What the commit of a transaction must be. -/
structure Transactional (names : F → List String) (t : ℕ) (prepared : Transaction F)
    (state state' : State F) : Prop where
  inForce : prepared.origin.epoch = state.epoch
  base : prepared.baseGeneration = state.generation
  next : state'.generation = state.generation + 1
  once : t ∉ state.accepted
  installs : ∀ candidate ∈ prepared.candidates,
    (state'.records candidate.module).slots candidate.index = some candidate.implementation
  others : ∀ id index,
    (∀ candidate ∈ prepared.candidates, ¬(candidate.module = id ∧ candidate.index = index)) →
      (state'.records id).slots index = (state.records id).slots index
  registered : state'.modules = state.modules ∧ state'.bySlots = state.bySlots ∧
    ∀ id, (state'.records id).name = (state.records id).name ∧
      (state'.records id).loaded = (state.records id).loaded
  definitions : ∀ id index definition,
    (state.records id).definitions index = some definition →
      ∃ captures, (state'.records id).definitions index =
        some { definition with captures := captures }
  captures : InStep names state'.records
  policies : ∀ id, (Patched prepared id ∨ (prepared.policies id).isSome) →
    (state'.records id).policies = prepared.declared id
  untouched : ∀ id, ¬Patched prepared id → prepared.policies id = none →
    (state'.records id).policies = (state.records id).policies
  drops : ∀ id, ∀ policy ∈ (state.records id).policies,
    policy ∉ (state'.records id).policies → prepared.origin.live policy = 0

/-- What a step of a run must be. -/
def StepOk [DecidableEq F] (names : F → List String) (state : State F) : Action F → Prop
  | .stage source baseGeneration live =>
    Same state (stage names source baseGeneration live state).2
  | .commit t =>
    match (commit t state).1, state.transactions[t]? with
    | .ok _, some prepared => Transactional names t prepared state (commit t state).2
    | _, _ => Same state (commit t state).2
  | _ => True

/-- A commit that is accepted is of a transaction of this registry; a module that it patches
without declaring policies has none; and where it declares policies, those it leaves out
were looked at when the patch was staged, or had no live cells. -/
def Fair (state : State F) : Action F → Prop
  | .commit t => ∀ prepared, state.transactions[t]? = some prepared →
    prepared.committed = false → prepared.baseGeneration = state.generation →
      prepared.origin.epoch = state.epoch ∧
      (∀ id, Patched prepared id → prepared.policies id = none →
        (state.records id).policies = ∅) ∧
      ∀ id policies, prepared.policies id = some policies →
        ∀ policy ∈ (state.records id).policies, policy ∉ policies →
          Patched prepared id ∧ policy ∈ prepared.origin.policies id ∨
            prepared.origin.live policy = 0
  | _ => True

end Spec

section Invariant

structure Prepared (names : F → List String) (state : State F) (prepared : Transaction F) : Prop where
  known : ∀ candidate ∈ prepared.candidates, candidate.module < state.fresh
  fits : ∀ candidate ∈ prepared.candidates, Fits names state.records candidate
  apart : prepared.candidates.Pairwise Apart
  next : prepared.generation = prepared.baseGeneration + 1
  checked : ∀ candidate ∈ prepared.candidates,
    ∀ policy ∈ prepared.origin.policies candidate.module,
      policy ∉ prepared.declared candidate.module → prepared.origin.live policy = 0

structure Inv (names : F → List String) (state : State F) : Prop where
  idle : state.staging = none
  slots : ∀ id, state.bySlots id = true → id < state.fresh
  modules : ∀ name id, state.modules name = some id → id < state.fresh
  inStep : InStep names state.records
  prepared : ∀ prepared ∈ state.transactions, Prepared names state prepared
  accepted : state.accepted.Nodup ∧ ∀ t ∈ state.accepted,
    ∃ prepared, state.transactions[t]? = some prepared ∧ prepared.committed = true

/-- The records of modules there are keep their definitions. -/
structure Grows (state state' : State F) : Prop where
  fresh : state.fresh ≤ state'.fresh
  definition : ∀ id < state.fresh, ∀ index definition,
    (state.records id).definitions index = some definition →
      ∃ captures, (state'.records id).definitions index =
        some { definition with captures := captures }

theorem Grows.of_records (hfresh : state.fresh ≤ state'.fresh)
    (hrecords : ∀ id < state.fresh,
      (state'.records id).definitions = (state.records id).definitions) : Grows state state' where
  fresh := hfresh
  definition id hid index definition h := by
    rw [hrecords id hid]
    exact ⟨definition.captures, h⟩

theorem Prepared.grows {prepared : Transaction F} (h : Prepared names state prepared)
    (hgrows : Grows state state') : Prepared names state' prepared where
  known candidate hcandidate := Nat.lt_of_lt_of_le (h.known candidate hcandidate) hgrows.fresh
  fits candidate hcandidate := by
    obtain ⟨live, hlive, hcaptures⟩ := h.fits candidate hcandidate
    obtain ⟨captures, hlive'⟩ :=
      hgrows.definition _ (h.known candidate hcandidate) _ _ hlive
    exact ⟨_, hlive', hcaptures⟩
  apart := h.apart
  next := h.next
  checked := h.checked

theorem inv_new (cells : F → ℕ → ℕ) (freshCell : ℕ) : Inv names (State.new cells freshCell) where
  idle := rfl
  slots id h := absurd h (by simp [State.new])
  modules name id h := absurd h (by simp [State.new])
  inStep id index definition h := absurd h (by simp [State.new, newModule])
  prepared _ h := absurd h List.not_mem_nil
  accepted := ⟨List.nodup_nil, fun _ h => absurd h List.not_mem_nil⟩

/-- Steps that hand out no transaction and accept none. -/
theorem Inv.move (h : Inv names state) (hidle : state'.staging = none)
    (hslots : ∀ id, state'.bySlots id = true → id < state'.fresh)
    (hmodules : ∀ name id, state'.modules name = some id → id < state'.fresh)
    (hinStep : InStep names state'.records) (hgrows : Grows state state')
    (htransactions : state'.transactions = state.transactions)
    (haccepted : state'.accepted = state.accepted) : Inv names state' where
  idle := hidle
  slots := hslots
  modules := hmodules
  inStep := hinStep
  prepared prepared hprepared := by
    rw [htransactions] at hprepared
    exact (h.prepared prepared hprepared).grows hgrows
  accepted := by
    rw [haccepted, htransactions]
    exact h.accepted

theorem Inv.setRecord (h : Inv names state) {id : ℕ} {module : Module F}
    (hdefinitions : module.definitions = (state.records id).definitions)
    (hslots : module.slots = (state.records id).slots) :
    Inv names (state.setRecord id module) := by
  have hsame (other : ℕ) :
      ((state.setRecord id module).records other).definitions = (state.records other).definitions ∧
        ((state.setRecord id module).records other).slots = (state.records other).slots := by
    by_cases hother : other = id
    · subst hother
      simp [State.setRecord, hdefinitions, hslots]
    · simp [State.setRecord, Function.update_of_ne hother]
  refine h.move h.idle h.slots h.modules ?_ ?_ rfl rfl
  · intro other index definition hdefinition
    rw [(hsame other).1] at hdefinition
    rw [(hsame other).2]
    exact h.inStep other index definition hdefinition
  · exact Grows.of_records (Nat.le_refl _) fun other _ => (hsame other).1

end Invariant

section Steps

theorem inv_module (h : Inv names state) (name : String) : Inv names (module name state).2 := by
  unfold module
  split
  · split
    · exact h
    · exact h
  · next hnone =>
    split
    · exact h
    · have hother {id : ℕ} (hid : id < state.fresh) : id ≠ state.fresh := Nat.ne_of_lt hid
      refine h.move h.idle ?_ ?_ ?_ ?_ rfl rfl
      · intro id hid
        by_cases heq : id = state.fresh
        · exact heq ▸ Nat.lt_succ_self _
        · simp only [Function.update_of_ne heq] at hid
          exact Nat.lt_succ_of_lt (h.slots id hid)
      · intro other id hid
        by_cases heq : other = name
        · subst heq
          simp only [Function.update_self, Option.some.injEq] at hid
          exact hid ▸ Nat.lt_succ_self _
        · simp only [Function.update_of_ne heq] at hid
          exact Nat.lt_succ_of_lt (h.modules other id hid)
      · intro id index definition hdefinition
        by_cases heq : id = state.fresh
        · simp [heq, newModule] at hdefinition
        · simp only [Function.update_of_ne heq] at hdefinition ⊢
          exact h.inStep id index definition hdefinition
      · exact Grows.of_records (Nat.le_succ _) fun id hid => by
          simp only [Function.update_of_ne (hother hid)]

theorem inv_policy (h : Inv names state) (slots : ℕ) (key : String) :
    Inv names (policy slots key state).2 := by
  unfold policy
  split
  · simp only [h.idle]
    exact h.setRecord rfl rfl
  · exact h

theorem inv_sealModule (h : Inv names state) (name : String) :
    Inv names (sealModule name state).2 := by
  unfold sealModule
  split
  · split
    · exact h
    · exact h.setRecord rfl rfl
  · exact h

theorem inv_abort (h : Inv names state) (name : String) : Inv names (abort name state) := by
  unfold abort
  split
  · next id hid =>
    split
    · exact h
    · refine h.move h.idle ?_ ?_ h.inStep (Grows.of_records (Nat.le_refl _) fun _ _ => rfl) rfl rfl
      · intro other hother
        by_cases heq : other = id
        · simp [heq] at hother
        · simp only [Function.update_of_ne heq] at hother
          exact h.slots other hother
      · intro other found hfound
        by_cases heq : other = name
        · simp [heq] at hfound
        · simp only [Function.update_of_ne heq] at hfound
          exact h.modules other found hfound
  · exact h

theorem inv_retire (h : Inv names state) : Inv names (retire state) :=
  h.move rfl (fun _ hid => absurd hid (by simp [retire])) (fun _ _ hid => absurd hid (by simp [retire]))
    h.inStep (Grows.of_records (Nat.le_refl _) fun _ _ => rfl) rfl rfl

theorem inv_kept (h : Inv names state) (hkept : Kept state state') (hidle : state'.staging = none) :
    Inv names state' := by
  refine h.move hidle ?_ ?_ ?_ ?_ hkept.transactions hkept.accepted
  · rw [hkept.bySlots, hkept.fresh]
    exact h.slots
  · rw [hkept.modules, hkept.fresh]
    exact h.modules
  · rw [hkept.records]
    exact h.inStep
  · exact Grows.of_records (Nat.le_of_eq hkept.fresh.symm) fun _ _ => by rw [hkept.records]

theorem inv_defineInitial (h : Inv names state) (slots : ℕ) (index : ℤ) (definition : Definition)
    (implementation : F)
    (hcaptures : upvalues (names implementation) definition.selfName = .ok definition.captures) :
    Inv names (defineInitial slots index definition implementation state).2 := by
  simp only [defineInitial]
  split
  · exact h
  · next hnew =>
    have hundefined : (state.records slots).definitions index = none := by
      simpa using hnew
    refine h.move h.idle h.slots h.modules ?_ ?_ rfl rfl
    · intro id other found hfound
      by_cases hid : id = slots
      · subst hid
        simp only [State.setRecord, Function.update_self] at hfound ⊢
        by_cases hother : other = index
        · subst hother
          simp only [Function.update_self, Option.some.injEq] at hfound ⊢
          exact ⟨implementation, rfl, hfound ▸ hcaptures⟩
        · simp only [Function.update_of_ne hother] at hfound ⊢
          exact h.inStep id other found hfound
      · simp only [State.setRecord, Function.update_of_ne hid] at hfound ⊢
        exact h.inStep id other found hfound
    · refine ⟨Nat.le_refl _, fun id _ other found hfound => ⟨found.captures, ?_⟩⟩
      by_cases hid : id = slots
      · subst hid
        have hother : other ≠ index := by
          rintro rfl
          exact absurd (hundefined.symm.trans hfound) (by simp)
        simpa [State.setRecord, Function.update_of_ne hother] using hfound
      · simpa [State.setRecord, Function.update_of_ne hid] using hfound

variable [DecidableEq F]

theorem inv_define (h : Inv names state) (slots : ℕ) (index : ℤ) (id signature : String)
    (selfName : Option String) (implementation : F) :
    Inv names (define names slots index id signature selfName implementation state).2 := by
  unfold define
  split
  · have hdetach : Kept state (detachSelf names implementation selfName state) ∧
        (detachSelf names implementation selfName state).staging = state.staging :=
      detachSelf_kept implementation selfName state
    obtain ⟨hkept, hsame⟩ := hdetach
    have hdetached := inv_kept h hkept (hsame.trans h.idle)
    cases hcaptures : upvalues (names implementation) selfName with
    | error reason => exact hdetached
    | ok captures =>
      simp only [hdetached.idle]
      exact inv_defineInitial hdetached slots index _ implementation hcaptures
  · exact h

/-- Staging leaves all that is live, and a transaction that it hands out is prepared. -/
theorem stage_spec (h : Inv names state) (source : Option (Chunk F)) (baseGeneration : ℤ)
    (live : String → ℕ) :
    Same state (stage names source baseGeneration live state).2 ∧
      Inv names (stage names source baseGeneration live state).2 := by
  have hsame : Same state state := ⟨rfl, rfl, rfl, rfl⟩
  simp only [stage, h.idle, Option.isSome_none, Bool.false_eq_true, if_false]
  split
  · exact ⟨hsame, h⟩
  cases source with
  | none => exact ⟨hsame, h⟩
  | some chunk =>
    have hempty : Sound names { state with staging := some ⟨baseGeneration, [], [], fun _ => none⟩ }
        ⟨baseGeneration, [], [], fun _ => none⟩ := sound_empty baseGeneration _
    have hstages := chunk_stages chunk rfl hempty
    cases hrun : chunk.run names
      { state with staging := some ⟨baseGeneration, [], [], fun _ => none⟩ } with
    | mk answer ran =>
      rw [hrun] at hstages
      obtain ⟨hkept, staging, hstaging, hsound⟩ := hstages
      change ran.staging = some staging at hstaging
      have hkept' : Kept state { ran with staging := none } :=
        ⟨hkept.generation, hkept.modules, hkept.bySlots, hkept.records, hkept.fresh,
          hkept.preparedSerial, hkept.transactions, hkept.epoch, hkept.accepted⟩
      have hsame' : Same state { ran with staging := none } :=
        ⟨hkept.generation, hkept.modules, hkept.bySlots, hkept.records⟩
      have hinv := inv_kept h hkept' rfl
      simp only [hrun, hstaging, Option.getD_some]
      cases answer with
      | error reason => exact ⟨hsame', hinv⟩
      | ok _ =>
        simp only
        split
        · exact ⟨hsame', hinv⟩
        · next hblocked =>
          refine ⟨⟨hkept.generation, hkept.modules, hkept.bySlots, hkept.records⟩, ?_⟩
          have hchecked : ∀ candidate ∈ staging.candidates,
              ∀ policy ∈ (ran.records candidate.module).policies,
                policy ∉ (staging.policies candidate.module).getD ∅ → live policy = 0 := by
            intro candidate hcandidate policy hpolicy hundeclared
            by_contra hlive
            refine hblocked (List.any_eq_true.mpr ⟨candidate, hcandidate, ?_⟩)
            exact decide_eq_true ⟨policy, hpolicy, hundeclared, Nat.pos_of_ne_zero hlive⟩
          refine ⟨rfl, hinv.slots, hinv.modules, hinv.inStep, fun prepared hprepared => ?_, ?_⟩
          · rcases List.mem_append.mp hprepared with hold | hnew
            · exact (hinv.prepared prepared hold).grows
                (Grows.of_records (Nat.le_refl _) fun _ _ => rfl)
            · rw [List.mem_singleton.mp hnew]
              refine ⟨fun candidate hcandidate => ?_, hsound.fits, hsound.apart, rfl, hchecked⟩
              exact hinv.slots _ (hsound.known candidate hcandidate)
          · refine ⟨hinv.accepted.1, fun t ht => ?_⟩
            obtain ⟨prepared, hprepared, hcommitted⟩ := hinv.accepted.2 t ht
            exact ⟨prepared, List.getElem?_append_left
              (List.getElem?_eq_some_iff.mp hprepared).1 |>.trans hprepared, hcommitted⟩

end Steps

section Commit

/-- An accepted commit, with what is true of every one of them. -/
theorem commit_accepted {t : ℕ} {prepared : Transaction F}
    (ht : state.transactions[t]? = some prepared) (hcommitted : prepared.committed = false)
    (hbase : prepared.baseGeneration = state.generation) :
    commit t state = (.ok prepared.generation,
      { state with
        records := publishPolicies prepared.policies
          (prepared.candidates.foldl publish state.records)
        transactions := state.transactions.set t { prepared with committed := true }
        generation := prepared.generation
        accepted := state.accepted ++ [t] }) := by
  simp only [commit, ht, hcommitted, hbase, Bool.false_eq_true, if_false, ne_eq, not_true_eq_false]

theorem commit_refused {t : ℕ}
    (h : ∀ prepared, state.transactions[t]? = some prepared → prepared.committed = false →
      prepared.baseGeneration ≠ state.generation) :
    (∀ generation, (commit t state).1 ≠ .ok generation) ∧ (commit t state).2 = state := by
  unfold commit
  cases ht : state.transactions[t]? with
  | none => simp
  | some prepared =>
    cases hcommitted : prepared.committed with
    | true => simp [hcommitted]
    | false => simp [hcommitted, h prepared ht hcommitted]

section Accepted

variable {t : ℕ} {prepared : Transaction F}

theorem not_accepted (h : Inv names state) (ht : state.transactions[t]? = some prepared)
    (hcommitted : prepared.committed = false) : t ∉ state.accepted := by
  intro hmem
  obtain ⟨other, hother, htrue⟩ := h.accepted.2 t hmem
  rw [ht, Option.some.injEq] at hother
  rw [← hother, hcommitted] at htrue
  exact absurd htrue (by simp)

theorem inv_commit (h : Inv names state) (t : ℕ) : Inv names (commit t state).2 := by
  by_cases haccept : ∃ prepared, state.transactions[t]? = some prepared ∧
      prepared.committed = false ∧ prepared.baseGeneration = state.generation
  · obtain ⟨prepared, ht, hcommitted, hbase⟩ := haccept
    have hprepared := h.prepared prepared (List.mem_of_getElem? ht)
    have hgrows : Grows state (commit t state).2 := by
      rw [commit_accepted ht hcommitted hbase]
      refine ⟨Nat.le_refl _, fun id _ index definition hdefinition => ?_⟩
      exact publishAll_definition prepared.candidates hdefinition
    have hnew := not_accepted h ht hcommitted
    rw [commit_accepted ht hcommitted hbase] at hgrows ⊢
    refine ⟨h.idle, h.slots, h.modules, ?_, fun other hother => ?_, ?_, fun other hother => ?_⟩
    · exact publishAll_inStep prepared.candidates h.inStep hprepared.fits
    · rcases List.mem_or_eq_of_mem_set hother with hold | rfl
      · exact (h.prepared other hold).grows hgrows
      · have hkept := hprepared.grows hgrows
        exact ⟨hkept.known, hkept.fits, hkept.apart, hkept.next, hkept.checked⟩
    · refine List.nodup_append.mpr ⟨h.accepted.1, List.nodup_singleton t, ?_⟩
      rintro other hother last hlast rfl
      exact hnew (List.mem_singleton.mp hlast ▸ hother)
    · rcases List.mem_append.mp hother with hold | hlast
      · obtain ⟨found, hfound, htrue⟩ := h.accepted.2 other hold
        have hne : t ≠ other := fun heq => hnew (heq ▸ hold)
        exact ⟨found, by rw [List.getElem?_set_ne hne, hfound], htrue⟩
      · rw [List.mem_singleton.mp hlast]
        have hlength := (List.getElem?_eq_some_iff.mp ht).1
        exact ⟨_, List.getElem?_set_self hlength, rfl⟩
  · have hrefused := (commit_refused fun prepared ht hcommitted hbase =>
      haccept ⟨prepared, ht, hcommitted, hbase⟩).2
    rw [hrefused]
    exact h

/-- What an accepted commit leaves of the policies. -/
theorem committed_policies (id : ℕ) :
    (publishPolicies prepared.policies (prepared.candidates.foldl publish state.records)
        id).policies = (prepared.policies id).getD (state.records id).policies :=
  congrArg (prepared.policies id).getD (publishAll_kept prepared.candidates state.records id).2.2

theorem transactional_iff (h : Inv names state) (ht : state.transactions[t]? = some prepared)
    (hcommitted : prepared.committed = false)
    (hbase : prepared.baseGeneration = state.generation) :
    Transactional names t prepared state (commit t state).2 ↔ Fair state (.commit t) := by
  have hprepared := h.prepared prepared (List.mem_of_getElem? ht)
  have hpolicies (id : ℕ) : ((commit t state).2.records id).policies =
      (prepared.policies id).getD (state.records id).policies := by
    rw [commit_accepted ht hcommitted hbase]
    exact committed_policies id
  constructor
  · intro hcommit other hother _ _
    rw [ht, Option.some.injEq] at hother
    subst hother
    refine ⟨hcommit.inForce, fun id hpatched hnone => ?_, fun id policies hdeclared policy hpolicy
      hdropped => .inr ?_⟩
    · have hempty := hcommit.policies id (.inl hpatched)
      rw [hpolicies, Transaction.declared, hnone] at hempty
      exact hempty
    · refine hcommit.drops id policy hpolicy ?_
      rw [hpolicies, hdeclared]
      exact hdropped
  · intro hfair
    obtain ⟨hforce, hempty, hdrops⟩ := hfair prepared ht hcommitted hbase
    have hpatched (id : ℕ) : Patched prepared id ∨ (prepared.policies id).isSome →
        ((commit t state).2.records id).policies = prepared.declared id := by
      intro hpatched
      rw [hpolicies, Transaction.declared]
      cases hdeclared : prepared.policies id with
      | none =>
        have hcandidate : Patched prepared id := by simpa [hdeclared] using hpatched
        exact hempty id hcandidate hdeclared
      | some policies => rfl
    refine
      { inForce := hforce, base := hbase, next := ?_, once := not_accepted h ht hcommitted,
        installs := ?_, others := ?_, registered := ?_, definitions := ?_,
        captures := (inv_commit h t).inStep, policies := hpatched, untouched := ?_, drops := ?_ }
    · rw [commit_accepted ht hcommitted hbase, ← hbase]
      exact hprepared.next
    · rw [commit_accepted ht hcommitted hbase]
      exact fun candidate hcandidate =>
        publishAll_slots prepared.candidates state.records hprepared.apart hcandidate
    · rw [commit_accepted ht hcommitted hbase]
      exact fun id index hothers =>
        publishAll_slots_apart prepared.candidates state.records hothers
    · rw [commit_accepted ht hcommitted hbase]
      refine ⟨rfl, rfl, fun id => ?_⟩
      obtain ⟨hname, hloaded, -⟩ := publishAll_kept prepared.candidates state.records id
      exact ⟨hname, hloaded⟩
    · rw [commit_accepted ht hcommitted hbase]
      exact fun id index definition hdefinition =>
        publishAll_definition prepared.candidates hdefinition
    · intro id _ hnone
      rw [hpolicies, hnone, Option.getD_none]
    · intro id policy hpolicy hdropped
      rw [hpolicies] at hdropped
      cases hdeclared : prepared.policies id with
      | none =>
        rw [hdeclared] at hdropped
        exact absurd hpolicy hdropped
      | some policies =>
        rw [hdeclared, Option.getD_some] at hdropped
        rcases hdrops id policies hdeclared policy hpolicy hdropped with ⟨⟨candidate, hcandidate,
          rfl⟩, hstaged⟩ | hlive
        · refine hprepared.checked candidate hcandidate policy hstaged ?_
          rwa [Transaction.declared, hdeclared]
        · exact hlive

end Accepted

end Commit

section Run

variable [DecidableEq F]

theorem inv_step (h : Inv names state) (action : Action F) : Inv names (step names state action) := by
  cases action with
  | module name => exact inv_module h name
  | define slots index id signature selfName implementation =>
    exact inv_define h slots index id signature selfName implementation
  | policy slots key => exact inv_policy h slots key
  | sealModule name => exact inv_sealModule h name
  | abort name => exact inv_abort h name
  | stage source baseGeneration live => exact (stage_spec h source baseGeneration live).2
  | commit t => exact inv_commit h t
  | retire => exact inv_retire h

theorem stepOk_iff (h : Inv names state) (action : Action F) :
    StepOk names state action ↔ Fair state action := by
  cases action with
  | stage source baseGeneration live =>
    exact iff_of_true (stage_spec h source baseGeneration live).1 trivial
  | commit t =>
    by_cases haccept : ∃ prepared, state.transactions[t]? = some prepared ∧
        prepared.committed = false ∧ prepared.baseGeneration = state.generation
    · obtain ⟨prepared, ht, hcommitted, hbase⟩ := haccept
      rw [← transactional_iff h ht hcommitted hbase]
      have haccepted : (commit t state).1 = .ok prepared.generation := by
        rw [commit_accepted ht hcommitted hbase]
      simp only [StepOk, haccepted, ht]
    · have hnone : ∀ prepared, state.transactions[t]? = some prepared →
          prepared.committed = false → prepared.baseGeneration ≠ state.generation :=
        fun prepared ht hcommitted hbase => haccept ⟨prepared, ht, hcommitted, hbase⟩
      obtain ⟨hrefused, hsame⟩ := commit_refused hnone
      refine iff_of_true ?_ fun prepared ht hcommitted hbase =>
        absurd hbase (hnone prepared ht hcommitted)
      have hkept : Same state (commit t state).2 := by
        rw [hsame]
        exact ⟨rfl, rfl, rfl, rfl⟩
      simp only [StepOk]
      split
      · next generation prepared haccepted _ => exact absurd haccepted (hrefused generation)
      · exact hkept
  | _ => exact Iff.rfl

theorem run_inv (names : F → List String) (cells : F → ℕ → ℕ) (freshCell : ℕ)
    (actions : List (Action F)) :
    Inv names (run names (State.new cells freshCell) actions) := by
  induction actions using List.reverseRecOn with
  | nil => exact inv_new cells freshCell
  | append_singleton actions action ih =>
    rw [run, List.foldl_concat]
    exact inv_step ih action

end Run

end Nupp.hotreload
