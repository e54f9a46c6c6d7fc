import Mathlib.Data.List.Basic
import Nupp.Lua.Data

/-! The reduction of packs (`normalizePack` and `evaluatePack` of `nupp/compiler/types/generics.nupp`). A pack is known by
its key; `normalize` reduces a type, with the memo and the budget of the reduction as its state. -/

namespace Nupp.packs

open Nupp.Data

structure Slot (ι : Type) where
  type : ι
  mode : Bytes
  name : Bytes
deriving DecidableEq

inductive Tail (ι : Type)
  | homogeneous (type : ι) (mode : Bytes)
  | generic (var : Bytes)
  | computed (type : ι)
  | slice (id : Bytes)
  | unknown
deriving DecidableEq

structure Sequence (ι : Type) where
  slots : List (Slot ι)
  tail : Option (Tail ι)
deriving DecidableEq

/-- The alternatives of a union are no unions themselves, which `packUnion` takes apart. -/
inductive Pack (ι : Type)
  | sequence (sequence : Sequence ι)
  | union (alternatives : List (Sequence ι))
deriving DecidableEq

variable {ι σ ε : Type}

def Pack.slots : Pack ι → List (Slot ι)
  | .sequence s => s.slots
  | .union _ => []

def Pack.tail : Pack ι → Option (Tail ι)
  | .sequence s => s.tail
  | .union _ => none

/-- `T.pack(head, tail, modes, names)` -/
def pack (head : List ι) (tail : Option (Tail ι)) (modes names : List Bytes) : Sequence ι :=
  ⟨head.mapIdx fun j t => ⟨t, (modes[j]?).getD (ascii "plain"), (names[j]?).getD []⟩, tail⟩

/-- `T.packUnion(alternatives)`; `id` is the id a pack is interned under, and packs of one id are one. -/
def packUnion [DecidableEq ι] (id : Sequence ι → Bytes) (alternatives : List (Sequence ι)) : Pack ι :=
  let flat := alternatives.foldl (fun flat q => if q ∈ flat then flat else flat ++ [q]) []
  match flat.mergeSort fun a b => id a ≤ id b with
  | [one] => .sequence one
  | flat => .union flat

variable (normalize : ι → σ → (ι × Option ε) × σ)

/-- The loop over the head, which drops what `normalize` says of errors. -/
def normalizeHead : List ι → σ → List ι × σ
  | [], state => ([], state)
  | value :: rest, state =>
    let ((reduced, _), state) := normalize value state
    let (head, state) := normalizeHead rest state
    (reduced :: head, state)

/-- `normalizePack(pack).pack` -/
def normalizePack (fresh : σ) (p : Pack ι) : Pack ι :=
  let (head, state) := normalizeHead normalize (p.slots.map Slot.type) fresh
  let tail := match p.tail with
    | some (.homogeneous type mode) => some (.homogeneous (normalize type state).1.1 mode)
    | tail => tail
  .sequence (pack head tail (p.slots.map Slot.mode) (p.slots.map Slot.name))

/-- The loop over the head, which an error ends. -/
def reduceHead : List ι → σ → Except ε (List ι) × σ
  | [], state => (.ok [], state)
  | member :: rest, state =>
    match normalize member state with
    | ((_, some err), state) => (.error err, state)
    | ((reduced, none), state) =>
      match reduceHead rest state with
      | (.error err, state) => (.error err, state)
      | (.ok head, state) => (.ok (reduced :: head), state)

def reduceTail : Option (Tail ι) → σ → Except ε (Option (Tail ι)) × σ
  | some (.homogeneous type mode), state =>
    match normalize type state with
    | ((_, some err), state) => (.error err, state)
    | ((reduced, none), state) => (.ok (some (.homogeneous reduced mode)), state)
  | some (.computed type), state =>
    match normalize type state with
    | ((_, some err), state) => (.error err, state)
    | ((reduced, none), state) => (.ok (some (.computed reduced)), state)
  | tail, state => (.ok tail, state)

/-- `normalizeReductionPack` of a pack without alternatives; where there is an error, the pack is left as it is. -/
def normalizeReductionSequence (s : Sequence ι) (state : σ) : (Sequence ι × Option ε) × σ :=
  match reduceHead normalize (s.slots.map Slot.type) state with
  | (.error err, state) => ((s, some err), state)
  | (.ok head, state) =>
    match reduceTail normalize s.tail state with
    | (.error err, state) => ((s, some err), state)
    | (.ok tail, state) => ((pack head tail (s.slots.map Slot.mode) (s.slots.map Slot.name), none), state)

def reduceAlternatives : List (Sequence ι) → σ → Except ε (List (Sequence ι)) × σ
  | [], state => (.ok [], state)
  | alternative :: rest, state =>
    match normalizeReductionSequence normalize alternative state with
    | ((_, some err), state) => (.error err, state)
    | ((reduced, none), state) =>
      match reduceAlternatives rest state with
      | (.error err, state) => (.error err, state)
      | (.ok alternatives, state) => (.ok (reduced :: alternatives), state)

def normalizeReductionPack [DecidableEq ι] (id : Sequence ι → Bytes) (p : Pack ι) (state : σ) : (Pack ι × Option ε) × σ :=
  match p with
  | .union alternatives =>
    match reduceAlternatives normalize alternatives state with
    | (.error err, state) => ((p, some err), state)
    | (.ok alternatives, state) => ((packUnion id alternatives, none), state)
  | .sequence s =>
    let ((s, err), state) := normalizeReductionSequence normalize s state
    ((.sequence s, err), state)

/-- `evaluatePack(pack).pack` -/
def evaluatePack [DecidableEq ι] (id : Sequence ι → Bytes) (fresh : σ) (p : Pack ι) : Pack ι :=
  (normalizeReductionPack normalize id p fresh).1.1

/-! When the two agree. -/

/-- What `normalize` says of types in turn, errors or not. -/
def outcomes : List ι → σ → List (ι × Option ε) × σ
  | [], state => ([], state)
  | value :: rest, state =>
    let (outcome, state) := normalize value state
    let (more, state) := outcomes rest state
    (outcome :: more, state)

/-- The type that `evaluatePack` reduces in a tail. -/
def Tail.inner : Tail ι → Option ι
  | .homogeneous type _ | .computed type => some type
  | _ => none

/-- What `normalize` says of the types of a pack's head, and of its tail's after them. -/
def headOutcomes (fresh : σ) (s : Sequence ι) : List (ι × Option ε) :=
  (outcomes normalize (s.slots.map Slot.type) fresh).1

def tailOutcome (fresh : σ) (s : Sequence ι) : Option (ι × Option ε) :=
  (s.tail.bind Tail.inner).map fun type =>
    (normalize type (outcomes normalize (s.slots.map Slot.type) fresh).2).1

/-- No reduction fails. -/
def Succeeds (fresh : σ) (s : Sequence ι) : Prop :=
  (∀ outcome ∈ headOutcomes normalize fresh s, outcome.2 = none) ∧
    ∀ outcome ∈ tailOutcome normalize fresh s, outcome.2 = none

/-- The reductions that `normalizePack` makes change nothing. -/
def Unchanged (fresh : σ) (s : Sequence ι) : Prop :=
  (headOutcomes normalize fresh s).map Prod.fst = s.slots.map Slot.type ∧
    ∀ type mode, s.tail = some (.homogeneous type mode) →
      ∀ outcome ∈ tailOutcome normalize fresh s, outcome.1 = type

/-- A computed tail is its own reduction. -/
def TailStands (fresh : σ) (s : Sequence ι) : Prop :=
  ∀ type, s.tail = some (.computed type) → ∀ outcome ∈ tailOutcome normalize fresh s, outcome.1 = type

def Agrees (fresh : σ) : Pack ι → Prop
  | .union alternatives => alternatives ≠ [] ∧ ∀ alternative ∈ alternatives, alternative = ⟨[], none⟩
  | .sequence s =>
    Succeeds normalize fresh s ∧ TailStands normalize fresh s ∨
      ¬Succeeds normalize fresh s ∧ Unchanged normalize fresh s

section Correct

variable {normalize}

@[simp] theorem pack_types (head : List ι) (tail : Option (Tail ι)) (modes names : List Bytes) :
    (pack head tail modes names).slots.map Slot.type = head := by
  apply List.ext_getElem <;> simp [pack]

@[simp] theorem pack_tail (head : List ι) (tail : Option (Tail ι)) (modes names : List Bytes) :
    (pack head tail modes names).tail = tail := rfl

theorem pack_self (s : Sequence ι) (tail : Option (Tail ι)) :
    pack (s.slots.map Slot.type) tail (s.slots.map Slot.mode) (s.slots.map Slot.name) = ⟨s.slots, tail⟩ := by
  have hslots : (pack (s.slots.map Slot.type) tail (s.slots.map Slot.mode) (s.slots.map Slot.name)).slots = s.slots := by
    apply List.ext_getElem
    · simp [pack]
    · intro j hj hj'
      simp [pack, hj']
  exact congrArg (fun slots => Sequence.mk slots tail) hslots

/-- Two packs with the modes and names of one differ only in their types. -/
theorem pack_inj {head head' : List ι} {tail tail' : Option (Tail ι)} {modes names : List Bytes} :
    pack head tail modes names = pack head' tail' modes names ↔ head = head' ∧ tail = tail' := by
  constructor
  · intro h
    constructor
    · rw [← pack_types head tail modes names, h, pack_types]
    · rw [← pack_tail head tail modes names, h, pack_tail]
  · rintro ⟨rfl, rfl⟩
    rfl

theorem pack_eq_self {s : Sequence ι} {head : List ι} {tail : Option (Tail ι)} :
    pack head tail (s.slots.map Slot.mode) (s.slots.map Slot.name) = s ↔
      head = s.slots.map Slot.type ∧ tail = s.tail := by
  have hself := pack_self s s.tail
  rw [← pack_inj, hself]

theorem normalizeHead_eq (types : List ι) (state : σ) :
    normalizeHead normalize types state = ((outcomes normalize types state).1.map Prod.fst,
      (outcomes normalize types state).2) := by
  induction types generalizing state with
  | nil => rfl
  | cons value rest ih => simp [normalizeHead, outcomes, ih]

theorem reduceHead_eq (types : List ι) (state : σ) :
    ((∀ outcome ∈ (outcomes normalize types state).1, outcome.2 = none) →
        reduceHead normalize types state = (.ok ((outcomes normalize types state).1.map Prod.fst),
          (outcomes normalize types state).2)) ∧
      ((¬∀ outcome ∈ (outcomes normalize types state).1, outcome.2 = none) →
        ∃ err state', reduceHead normalize types state = (.error err, state')) := by
  induction types generalizing state with
  | nil => simp [outcomes, reduceHead]
  | cons value rest ih =>
    rcases hvalue : normalize value state with ⟨⟨reduced, err⟩, state'⟩
    cases err with
    | some err =>
      constructor
      · intro h
        have hfirst := h (reduced, some err) (by simp [outcomes, hvalue])
        simp at hfirst
      · exact fun _ => ⟨err, state', by simp [reduceHead, hvalue]⟩
    | none =>
      obtain ⟨hall, hsome⟩ := ih state'
      constructor
      · intro h
        have hrest := hall fun outcome houtcome => h outcome (by simp [outcomes, hvalue, houtcome])
        simp [reduceHead, outcomes, hvalue, hrest]
      · intro h
        obtain ⟨err, state'', herr⟩ := hsome fun hall => h fun outcome houtcome => by
          simp only [outcomes, hvalue, List.mem_cons] at houtcome
          rcases houtcome with rfl | houtcome
          · rfl
          · exact hall outcome houtcome
        exact ⟨err, state'', by simp [reduceHead, hvalue, herr]⟩

theorem normalizePack_sequence (fresh : σ) (s : Sequence ι) :
    normalizePack normalize fresh (.sequence s) =
      .sequence (pack ((headOutcomes normalize fresh s).map Prod.fst)
        (match s.tail with
          | some (.homogeneous type mode) =>
            some (.homogeneous (normalize type (outcomes normalize (s.slots.map Slot.type) fresh).2).1.1 mode)
          | tail => tail)
        (s.slots.map Slot.mode) (s.slots.map Slot.name)) := by
  rw [normalizePack]
  simp only [Pack.slots, Pack.tail, normalizeHead_eq]
  rfl

/-- Without an error the tails agree where a computed one stands, and the types of the head always do. -/
theorem agree_succeeds [DecidableEq ι] {fresh : σ} {s : Sequence ι} (h : Succeeds normalize fresh s) (id : Sequence ι → Bytes) :
    normalizePack normalize fresh (.sequence s) = evaluatePack normalize id fresh (.sequence s) ↔
      TailStands normalize fresh s := by
  obtain ⟨hhead, htail⟩ := h
  rw [normalizePack_sequence, evaluatePack, normalizeReductionPack, normalizeReductionSequence,
    (reduceHead_eq _ _).1 hhead]
  simp only [tailOutcome, TailStands] at htail ⊢
  generalize hstate : (outcomes normalize (s.slots.map Slot.type) fresh).2 = state at htail ⊢
  cases hs : s.tail with
  | none => simp [reduceTail, headOutcomes]
  | some tail =>
    cases tail with
    | homogeneous type mode =>
      rcases hrun : normalize type state with ⟨⟨reduced, err⟩, state'⟩
      obtain rfl : err = none := htail (reduced, err) (by simp [hs, Tail.inner, hrun])
      simp [reduceTail, headOutcomes, hrun]
    | computed type =>
      rcases hrun : normalize type state with ⟨⟨reduced, err⟩, state'⟩
      obtain rfl : err = none := htail (reduced, err) (by simp [hs, Tail.inner, hrun])
      simp only [reduceTail, hrun, headOutcomes, Pack.sequence.injEq, pack_inj, true_and, Option.some.injEq,
        Tail.computed.injEq]
      constructor
      · rintro rfl type' rfl outcome houtcome
        simp only [Option.bind_some, Tail.inner, Option.map_some, Option.mem_def, Option.some.injEq] at houtcome
        rw [← houtcome, hrun]
      · intro hstands
        exact (hstands type rfl (reduced, none) (by simp [Tail.inner, hrun])).symm
    | _ => simp [reduceTail, headOutcomes]

/-- With an error `evaluatePack` leaves the pack. -/
theorem evaluatePack_fails [DecidableEq ι] {fresh : σ} {s : Sequence ι} (h : ¬Succeeds normalize fresh s) (id : Sequence ι → Bytes) :
    evaluatePack normalize id fresh (.sequence s) = .sequence s := by
  rw [evaluatePack, normalizeReductionPack, normalizeReductionSequence]
  by_cases hhead : ∀ outcome ∈ (outcomes normalize (s.slots.map Slot.type) fresh).1, outcome.2 = none
  · have htail : ∃ outcome ∈ tailOutcome normalize fresh s, outcome.2 ≠ none := by
      by_contra hall
      push Not at hall
      exact h ⟨hhead, hall⟩
    rw [(reduceHead_eq _ _).1 hhead]
    obtain ⟨⟨reduced, err⟩, houtcome, hne⟩ := htail
    obtain ⟨err, rfl⟩ := Option.ne_none_iff_exists'.mp hne
    simp only [tailOutcome, Option.mem_def, Option.map_eq_some_iff, Option.bind_eq_some_iff] at houtcome
    obtain ⟨type, ⟨tail, hs, hinner⟩, hrun⟩ := houtcome
    rcases hresult : normalize type (outcomes normalize (s.slots.map Slot.type) fresh).2 with ⟨r, state'⟩
    rw [hresult] at hrun
    subst hrun
    cases tail <;> simp only [Tail.inner, reduceCtorEq, Option.some.injEq] at hinner <;> subst hinner <;>
      simp [hs, reduceTail, hresult]
  · obtain ⟨err, state', herr⟩ := (reduceHead_eq _ _).2 hhead
    rw [herr]

theorem agree_fails [DecidableEq ι] {fresh : σ} {s : Sequence ι} (h : ¬Succeeds normalize fresh s) (id : Sequence ι → Bytes) :
    normalizePack normalize fresh (.sequence s) = evaluatePack normalize id fresh (.sequence s) ↔
      Unchanged normalize fresh s := by
  rw [evaluatePack_fails h, normalizePack_sequence, Pack.sequence.injEq, pack_eq_self, Unchanged]
  refine and_congr_right fun _ => ?_
  simp only [tailOutcome]
  cases hs : s.tail with
  | none => simp
  | some tail =>
    cases tail with
    | homogeneous type mode => simp [Tail.inner]
    | _ => simp

theorem outcomes_length (types : List ι) (state : σ) : (outcomes normalize types state).1.length = types.length := by
  induction types generalizing state with
  | nil => rfl
  | cons value rest ih => simp [outcomes, ih]

theorem reduceTail_none {tail tail' : Option (Tail ι)} {state state' : σ}
    (h : reduceTail normalize tail state = (.ok tail', state')) : tail' = none ↔ tail = none := by
  rcases tail with _ | ⟨type, mode⟩ | _ | type | _ | _
  case some.homogeneous | some.computed =>
    rcases hrun : normalize type state with ⟨⟨reduced, _ | err⟩, state''⟩ <;> simp [reduceTail, hrun] at h
    simp [← h.1]
  all_goals
    simp only [reduceTail, Prod.mk.injEq, Except.ok.injEq] at h
    simp [← h.1]

/-- A reduction empties no pack. -/
theorem normalizeReductionSequence_blank {s reduced : Sequence ι} {state state' : σ}
    (h : normalizeReductionSequence normalize s state = ((reduced, none), state')) :
    reduced = ⟨[], none⟩ ↔ s = ⟨[], none⟩ := by
  by_cases hhead : ∀ outcome ∈ (outcomes normalize (s.slots.map Slot.type) state).1, outcome.2 = none
  · rw [normalizeReductionSequence, (reduceHead_eq _ _).1 hhead] at h
    rcases htail : reduceTail normalize s.tail (outcomes normalize (s.slots.map Slot.type) state).2 with
      ⟨err | tail, state''⟩ <;> simp only [htail, Prod.mk.injEq, reduceCtorEq, and_false, false_and] at h
    obtain ⟨⟨rfl, -⟩, -⟩ := h
    have hlength : (pack ((outcomes normalize (s.slots.map Slot.type) state).1.map Prod.fst) tail
        (s.slots.map Slot.mode) (s.slots.map Slot.name)).slots.length = s.slots.length := by
      simp [pack, outcomes_length]
    have hnone := reduceTail_none htail
    obtain ⟨slots, t⟩ := s
    simp only [Sequence.mk.injEq] at hnone ⊢
    constructor
    · intro hblank
      rw [hblank] at hlength
      refine ⟨List.length_eq_zero_iff.mp hlength.symm, hnone.mp ?_⟩
      simpa [pack] using congrArg Sequence.tail hblank
    · rintro ⟨rfl, rfl⟩
      simp [pack, hnone, outcomes]
  · obtain ⟨err, state'', herr⟩ := (reduceHead_eq _ _).2 hhead
    simp [normalizeReductionSequence, herr] at h

theorem reduceAlternatives_blank {alternatives reduced : List (Sequence ι)} {state state' : σ}
    (h : reduceAlternatives normalize alternatives state = (.ok reduced, state')) :
    (reduced = [] ↔ alternatives = []) ∧
      ((∀ a ∈ reduced, a = ⟨[], none⟩) ↔ ∀ a ∈ alternatives, a = ⟨[], none⟩) := by
  induction alternatives generalizing reduced state state' with
  | nil =>
    simp only [reduceAlternatives, Prod.mk.injEq, Except.ok.injEq] at h
    simp [← h.1]
  | cons a rest ih =>
    rcases hfirst : normalizeReductionSequence normalize a state with ⟨⟨r, _ | err⟩, state₁⟩
    · rcases hrest : reduceAlternatives normalize rest state₁ with ⟨err | more, state₂⟩ <;>
        simp only [reduceAlternatives, hfirst, hrest, Prod.mk.injEq, reduceCtorEq, false_and, Except.ok.injEq] at h
      obtain ⟨rfl, -⟩ := h
      simp [normalizeReductionSequence_blank hfirst, (ih hrest).2]
    · simp [reduceAlternatives, hfirst] at h

theorem reduceAlternatives_ok {alternatives : List (Sequence ι)} (h : ∀ a ∈ alternatives, a = ⟨[], none⟩) (state : σ) :
    ∃ reduced state', reduceAlternatives normalize alternatives state = (.ok reduced, state') := by
  induction alternatives generalizing state with
  | nil => exact ⟨[], state, rfl⟩
  | cons a rest ih =>
    obtain rfl := h a (by simp)
    obtain ⟨reduced, state', hrest⟩ := ih (fun b hb => h b (by simp [hb])) state
    exact ⟨_, state', by simp [reduceAlternatives, normalizeReductionSequence, reduceHead, reduceTail, hrest]; rfl⟩

theorem packUnion_blank [DecidableEq ι] (id : Sequence ι → Bytes) (alternatives : List (Sequence ι)) :
    packUnion id alternatives = .sequence ⟨[], none⟩ ↔
      alternatives ≠ [] ∧ ∀ a ∈ alternatives, a = ⟨[], none⟩ := by
  have hflat : ∀ (alternatives kept : List (Sequence ι)),
      (∀ a ∈ alternatives.foldl (fun flat q => if q ∈ flat then flat else flat ++ [q]) kept,
        a ∈ kept ∨ a ∈ alternatives) ∧
      (∀ a, a ∈ kept ∨ a ∈ alternatives →
        a ∈ alternatives.foldl (fun flat q => if q ∈ flat then flat else flat ++ [q]) kept) ∧
      (kept.Nodup → (alternatives.foldl (fun flat q => if q ∈ flat then flat else flat ++ [q]) kept).Nodup) := by
    intro alternatives
    induction alternatives with
    | nil => simp
    | cons q rest ih =>
      intro kept
      rw [List.foldl_cons]
      obtain ⟨hfrom, hto, hnodup⟩ := ih (if q ∈ kept then kept else kept ++ [q])
      by_cases hq : q ∈ kept
      · rw [if_pos hq] at hfrom hto hnodup ⊢
        refine ⟨fun a ha => ?_, fun a ha => hto a ?_, hnodup⟩
        · rcases hfrom a ha with h | h <;> simp [h]
        · rcases ha with h | h
          · exact .inl h
          · rcases List.mem_cons.mp h with rfl | h
            · exact .inl hq
            · exact .inr h
      · rw [if_neg hq] at hfrom hto hnodup ⊢
        refine ⟨fun a ha => ?_, fun a ha => hto a ?_, fun hkept => hnodup ?_⟩
        · rcases hfrom a ha with h | h
          · rcases List.mem_append.mp h with h | h
            · exact .inl h
            · exact .inr (by simp [List.mem_singleton.mp h])
          · exact .inr (by simp [h])
        · rcases ha with h | h
          · exact .inl (by simp [h])
          · rcases List.mem_cons.mp h with rfl | h
            · exact .inl (by simp)
            · exact .inr h
        · refine List.nodup_append.mpr ⟨hkept, by simp, fun a ha b hb heq => hq ?_⟩
          rwa [← List.mem_singleton.mp hb, ← heq]
  obtain ⟨hfrom, hto, hnodup⟩ := hflat alternatives []
  rw [packUnion]
  generalize alternatives.foldl (fun flat q => if q ∈ flat then flat else flat ++ [q]) [] = flat
    at hfrom hto hnodup ⊢
  have hperm := List.mergeSort_perm flat fun a b => decide (id a ≤ id b)
  have hmem : ∀ a, a ∈ flat ↔ a ∈ alternatives := fun a => ⟨fun ha => by simpa using hfrom a ha, fun ha => hto a (.inr ha)⟩
  constructor
  · intro h
    split at h
    · next one hone =>
      obtain rfl : one = ⟨[], none⟩ := by simpa using h
      rw [hone] at hperm
      have hflat := List.perm_singleton.mp hperm.symm
      refine ⟨fun hnil => ?_, fun a ha => ?_⟩
      · have := (hmem ⟨[], none⟩).mp (by simp [hflat])
        simp [hnil] at this
      · simpa [hflat] using (hmem a).mpr ha
    · cases h
  · rintro ⟨hne, hall⟩
    obtain ⟨a, rest, rfl⟩ := List.exists_cons_of_ne_nil hne
    have hblank : ∀ b ∈ flat, b = ⟨[], none⟩ := fun b hb => hall b ((hmem b).mp hb)
    have hin : (⟨[], none⟩ : Sequence ι) ∈ flat := hall a (by simp) ▸ (hmem a).mpr (by simp)
    have hflat : flat = [⟨[], none⟩] := by
      cases flat with
      | nil => simp at hin
      | cons b more =>
        obtain rfl := hblank b (by simp)
        cases more with
        | nil => rfl
        | cons c more =>
          obtain rfl := hblank c (by simp)
          simpa using hnodup List.nodup_nil
    simp [hflat]

/-- The two reductions give one pack exactly where the pack is no union (but of empty packs) and either every type of it
reduces, with a computed tail that stands, or one does not and nothing is changed by the others. -/
theorem normalizePack_exact [DecidableEq ι] (normalize : ι → σ → (ι × Option ε) × σ) (id : Sequence ι → Bytes) (fresh : σ) (p : Pack ι) :
    normalizePack normalize fresh p = evaluatePack normalize id fresh p ↔ Agrees normalize fresh p := by
  cases p with
  | sequence s =>
    by_cases h : Succeeds normalize fresh s
    · simp [agree_succeeds h, Agrees, h]
    · simp [agree_fails h, Agrees, h]
  | union alternatives =>
    have hleft : normalizePack normalize fresh (.union alternatives) = .sequence ⟨[], none⟩ := rfl
    rw [hleft, evaluatePack, normalizeReductionPack, Agrees]
    rcases hrun : reduceAlternatives normalize alternatives fresh with ⟨err | reduced, state⟩
    · refine iff_of_false (by simp) fun h => ?_
      obtain ⟨reduced, state', hok⟩ := reduceAlternatives_ok h.2 fresh
      rw [hrun] at hok
      cases hok
    · obtain ⟨hnil, hall⟩ := reduceAlternatives_blank hrun
      rw [eq_comm, packUnion_blank id, ne_eq, hnil, hall]

end Correct

/-- The packs `(string)` and `(number)`, which `true` and `false` stand for, and which reduce to themselves. -/
def only (t : Bool) : Sequence Bool := ⟨[⟨t, ascii "plain", []⟩], none⟩

theorem alternatives_lost :
    normalizePack (fun t (_ : Unit) => ((t, (none : Option Unit)), ())) () (.union [only true, only false]) =
        .sequence ⟨[], none⟩ ∧
      evaluatePack (fun t (_ : Unit) => ((t, (none : Option Unit)), ())) (fun s => s.slots.map fun slot =>
        if slot.type then 49 else 50) () (.union [only true, only false]) = .union [only true, only false] := by
  refine ⟨rfl, ?_⟩
  have hreduce : reduceAlternatives (fun t (_ : Unit) => ((t, (none : Option Unit)), ())) [only true, only false] () =
      (.ok [only true, only false], ()) := rfl
  have hflat : [only true, only false].foldl (fun flat q => if q ∈ flat then flat else flat ++ [q]) [] =
      [only true, only false] := by decide
  have hsorted : ([only true, only false].mergeSort fun a b => decide
      ((a.slots.map fun slot => if slot.type then (49 : UInt8) else 50) ≤
        b.slots.map fun slot => if slot.type then 49 else 50)) =
      [only true, only false] := List.mergeSort_of_pairwise (by decide)
  simp only [evaluatePack, normalizeReductionPack, hreduce, packUnion, hflat, hsorted]

end Nupp.packs
