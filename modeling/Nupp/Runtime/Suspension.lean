import Nupp.Lib.Search
import Nupp.Lua.Data

/-! `runtime/provider/suspension`: the ordered readiness sources, and passes over them while
callbacks register, release and poll. A pass is a local state of its own, so that any number of
them may be under way. -/

namespace Nupp.suspension

open Nupp.Data

structure Source where
  order : ℤ
  name : Bytes
  sequence : ℕ
  deriving DecidableEq

def sourceBefore (left right : Source) : Bool :=
  if left.order ≠ right.order then left.order < right.order
  else if left.name ≠ right.name then left.name < right.name
  else left.sequence < right.sequence

/-- The module's own state; `released` are the sources whose flag is set. -/
structure Sources where
  sources : List Source
  released : List Source
  sourceSequence : ℕ
  sourcesVersion : ℕ
  turnGeneration : ℕ

/-- The first slot, from one, whose source follows this one. -/
def firstSourceAfter (sources : List Source) (source : Source) : ℕ :=
  Search.boundary
    (fun middle => sources[middle - 1]?.any fun other => !sourceBefore source other)
    1 (sources.length + 1)

def addSource (m : Sources) (name : Bytes) (order : ℤ) : Sources × Source :=
  let source := { order, name, sequence := m.sourceSequence + 1 }
  let first := firstSourceAfter m.sources source
  ({ m with
      sources := m.sources.take (first - 1) ++ source :: m.sources.drop (first - 1)
      sourceSequence := m.sourceSequence + 1
      sourcesVersion := m.sourcesVersion + 1 },
    source)

def release (m : Sources) (self : Source) : Sources :=
  if self ∈ m.released then m
  else if self ∈ m.sources then
    { m with
      released := self :: m.released
      sources := m.sources.erase self
      sourcesVersion := m.sourcesVersion + 1 }
  else { m with released := self :: m.released }

/-- The locals of a pass; `current` is the source whose callback runs. What had been registered
when it began, the flags at each call, and those at its end are kept beside. -/
structure Pass where
  boundary : ℕ
  version : ℕ
  index : ℕ
  settled : ℤ
  current : Option Source
  registered : List Source
  calls : List (Source × List Source)
  ended : Option (List Source)

/-- The loop up to the next call: what was registered during the pass is passed over. -/
def nextSource (boundary : ℕ) : List Source → ℕ → Option (ℕ × Source)
  | [], _ => none
  | source :: rest, index =>
    if boundary < source.sequence then nextSource boundary rest (index + 1)
    else some (index, source)

def Pass.advance (m : Sources) (pass : Pass) (index : ℕ) : Pass :=
  match nextSource pass.boundary (m.sources.drop (index - 1)) index with
  | some (index, source) =>
    { pass with index, current := some source, calls := pass.calls ++ [(source, m.released)] }
  | none => { pass with current := none, ended := some m.released }

def poll (m : Sources) (registered : List Source) : Sources × Pass :=
  let pass : Pass := {
    boundary := m.sourceSequence, version := m.sourcesVersion, index := 1, settled := 0,
    current := none, registered, calls := [], ended := none }
  ({ m with turnGeneration := m.turnGeneration + 1 }, pass.advance m 1)

/-- The loop after a callback has returned. -/
def Pass.returned (m : Sources) (pass : Pass) (source : Source) (result : Option ℤ) : Pass :=
  let pass := { pass with settled := pass.settled + result.getD 0 }
  if m.sourcesVersion = pass.version then pass.advance m (pass.index + 1)
  else
    { pass with version := m.sourcesVersion }.advance m (firstSourceAfter m.sources source)

section Runs

/-- What callbacks and hosts do, in any order: a callback that never returns leaves its pass. -/
inductive Event
  | source (name : Bytes) (order : ℤ)
  | release (source : Source)
  | poll
  | returned (pass : ℕ) (result : Option ℤ)

/-- The module, every source it ever made, and every pass begun. -/
structure State where
  m : Sources
  registered : List Source
  passes : List Pass

def State.initial : State :=
  { m := { sources := [], released := [], sourceSequence := 0, sourcesVersion := 0, turnGeneration := 0 },
    registered := [], passes := [] }

/-- Only what was registered is released, and only a pass whose callback runs goes on. -/
def step (st : State) : Event → Option State
  | .source name order =>
    let (m, source) := addSource st.m name order
    some { st with m, registered := source :: st.registered }
  | .release source =>
    if source ∈ st.registered then some { st with m := release st.m source } else none
  | .poll =>
    let (m, pass) := poll st.m st.registered
    some { st with m, passes := st.passes ++ [pass] }
  | .returned i result =>
    match st.passes[i]? with
    | none => none
    | some pass =>
      pass.current.map fun source =>
        { st with passes := st.passes.set i (pass.returned st.m source result) }

def run (st : State) : List Event → Option State
  | [] => some st
  | event :: events => (step st event).bind fun st => run st events

end Runs

end Nupp.suspension

/-! Whatever the callbacks register and release, a pass calls in ascending order what was
registered before it and is not released when its turn comes, and nothing else. -/

namespace Nupp.suspension

open Nupp.Data

section Order

theorem name_total {s t : Bytes} (h : ¬ s < t) (h' : ¬ t < s) : s = t := by
  rcases Std.lt_trichotomy s t with hst | hst | hst
  · exact absurd hst h
  · exact hst
  · exact absurd hst h'

theorem sourceBefore_iff {a b : Source} : sourceBefore a b = true ↔
    a.order < b.order ∨ a.order = b.order ∧
      (a.name < b.name ∨ a.name = b.name ∧ a.sequence < b.sequence) := by
  rw [sourceBefore]
  split_ifs with horder hname
  · simp [horder]
  · simp only [ne_eq, not_not] at horder
    simp [horder, hname]
  · simp only [ne_eq, not_not] at horder hname
    simp [horder, hname, List.lt_irrefl]

theorem sourceBefore_irrefl (a : Source) : sourceBefore a a = false := by
  simp [sourceBefore]

theorem sourceBefore_trans {a b c : Source} (hab : sourceBefore a b = true)
    (hbc : sourceBefore b c = true) : sourceBefore a c = true := by
  rw [sourceBefore_iff] at *
  rcases hab with hab | ⟨hab, hname⟩ <;> rcases hbc with hbc | ⟨hbc, hname'⟩
  · exact .inl (hab.trans hbc)
  · exact .inl (hbc ▸ hab)
  · exact .inl (hab ▸ hbc)
  refine .inr ⟨hab.trans hbc, ?_⟩
  rcases hname with hname | ⟨hname, hseq⟩ <;> rcases hname' with hname' | ⟨hname', hseq'⟩
  · exact .inl (List.lt_trans hname hname')
  · exact .inl (hname' ▸ hname)
  · exact .inl (hname ▸ hname')
  · exact .inr ⟨hname.trans hname', hseq.trans hseq'⟩

theorem sourceBefore_total {a b : Source} (hne : a ≠ b) (h : sourceBefore a b = false) :
    sourceBefore b a = true := by
  rw [← Bool.not_eq_true, sourceBefore_iff] at h
  push Not at h
  obtain ⟨horder, hrest⟩ := h
  rw [sourceBefore_iff]
  rcases Int.lt_or_eq_of_le horder with hlt | heq
  · exact .inl hlt
  obtain ⟨hname, hseq⟩ := hrest heq.symm
  refine .inr ⟨heq, ?_⟩
  by_cases hlt : b.name < a.name
  · exact .inl hlt
  have hnames := name_total hname hlt
  refine .inr ⟨hnames.symm, Nat.lt_of_le_of_ne (hseq hnames) fun hsequence => hne ?_⟩
  cases a
  cases b
  simp_all

theorem sourceBefore_asymm {a b : Source} (h : sourceBefore a b = true) :
    sourceBefore b a = false := by
  cases hba : sourceBefore b a with
  | false => rfl
  | true => exact absurd (sourceBefore_trans h hba) (by simp [sourceBefore_irrefl])

end Order

section Lists

abbrev Ordered (sources : List Source) : Prop :=
  sources.Pairwise fun a b => sourceBefore a b = true

variable {sources : List Source} {source : Source}

theorem Ordered.nodup (h : Ordered sources) : sources.Nodup :=
  h.imp fun hab heq => by simp [heq, sourceBefore_irrefl] at hab

/-- A slot that parts what follows a source from what does not. -/
structure Parts (sources : List Source) (source : Source) (index : ℕ) : Prop where
  before : ∀ a ∈ sources.take (index - 1), sourceBefore source a = false
  after : ∀ a ∈ sources.drop (index - 1), sourceBefore source a = true

theorem firstSourceAfter_parts (h : Ordered sources) (source : Source) :
    Parts sources source (firstSourceAfter sources source) := by
  have hup : ∀ a b, sourceBefore a b = true → sourceBefore source a = true →
      sourceBefore source b = true := fun a b hab ha => sourceBefore_trans ha hab
  obtain ⟨hbefore, hafter⟩ := Search.boundary_parts h hup
  exact ⟨hbefore, hafter⟩

/-- The slot after a source's own parts the list, too. -/
theorem parts_of_slot (h : Ordered sources) {index : ℕ} (hpos : 0 < index)
    (hslot : sources[index - 1]? = some source) : Parts sources source (index + 1) := by
  obtain ⟨hlt, rfl⟩ := List.getElem?_eq_some_iff.mp hslot
  have hpairs := List.pairwise_iff_getElem.mp h
  constructor
  · intro a ha
    obtain ⟨j, hj, rfl⟩ := List.mem_take_iff_getElem.mp ha
    rcases Nat.eq_or_lt_of_le (show j ≤ index - 1 by omega) with rfl | hj'
    · exact sourceBefore_irrefl _
    · exact sourceBefore_asymm (hpairs j (index - 1) (by omega) (by omega) hj')
  · intro a ha
    obtain ⟨j, hj, rfl⟩ := List.mem_drop_iff_getElem.mp ha
    exact hpairs _ _ (by omega) (by omega) (by omega)

theorem Ordered.insert (h : Ordered sources) (hnew : source ∉ sources) :
    Ordered (sources.take (firstSourceAfter sources source - 1) ++
      source :: sources.drop (firstSourceAfter sources source - 1)) := by
  have hparts := firstSourceAfter_parts h source
  refine Search.pairwise_insert h (fun a ha => ?_) hparts.after
  have hne : source ≠ a := fun heq => hnew (heq ▸ List.mem_of_mem_take ha)
  exact sourceBefore_total hne (hparts.before a ha)

theorem mem_insert {index : ℕ} {a : Source} :
    a ∈ sources.take index ++ source :: sources.drop index ↔ a = source ∨ a ∈ sources := by
  conv_rhs => rw [← List.take_append_drop index sources]
  simp only [List.mem_append, List.mem_cons]
  tauto

/-- The next source to call is the first of those left that the pass began with. -/
theorem nextSource_some {boundary index found : ℕ} {rest : List Source}
    (h : nextSource boundary rest index = some (found, source)) :
    ∃ front back, rest = front ++ source :: back ∧ found = index + front.length ∧
      source.sequence ≤ boundary ∧ ∀ a ∈ front, boundary < a.sequence := by
  induction rest generalizing index with
  | nil => simp [nextSource] at h
  | cons first rest ih =>
    rw [nextSource] at h
    split_ifs at h with hlater
    · obtain ⟨front, back, hrest, hfound, hseq, hfront⟩ := ih h
      refine ⟨first :: front, back, by rw [hrest, List.cons_append], ?_, hseq, fun a ha => ?_⟩
      · rw [hfound, List.length_cons]
        omega
      · rcases List.mem_cons.mp ha with rfl | ha
        · exact hlater
        · exact hfront a ha
    · obtain ⟨rfl, rfl⟩ := Prod.mk.inj (Option.some.inj h)
      exact ⟨[], rest, rfl, rfl, by omega, by simp⟩

theorem nextSource_none {boundary index : ℕ} {rest : List Source}
    (h : nextSource boundary rest index = none) : ∀ a ∈ rest, boundary < a.sequence := by
  induction rest generalizing index with
  | nil => simp
  | cons first rest ih =>
    rw [nextSource] at h
    split_ifs at h with hlater
    exact List.forall_mem_cons.mpr ⟨hlater, ih h⟩

end Lists

section Passes

/-- What a pass has called, in its order. -/
def Pass.called (pass : Pass) : List Source := pass.calls.map Prod.fst

/-- The flags when the turn of a source comes: at the first call of one that is not before it, or
else when the pass ends. -/
def Pass.turn (pass : Pass) (source : Source) : Option (List Source) :=
  ((pass.calls.find? fun call => !sourceBefore call.1 source).map Prod.snd).or pass.ended

/-- What holds of the module's list after any registrations and releases. -/
structure Kept (m : Sources) (registered : List Source) : Prop where
  ordered : Ordered m.sources
  live : ∀ a, a ∈ m.sources ↔ a ∈ registered ∧ a ∉ m.released
  flagged : ∀ a ∈ m.released, a ∈ registered
  numbered : ∀ a ∈ registered, a.sequence ≤ m.sourceSequence

/-- What a pass has called is what it was to call up to now. -/
structure Exact (pass : Pass) : Prop where
  ascending : Ordered pass.called
  called : ∀ a, a ∈ pass.called ↔
    a ∈ pass.registered ∧ ∃ released, pass.turn a = some released ∧ a ∉ released

/-- A pass knows what was registered before it. -/
structure Bounded (m : Sources) (registered : List Source) (pass : Pass) : Prop where
  boundary : pass.boundary ≤ m.sourceSequence
  subset : ∀ a ∈ pass.registered, a ∈ registered
  earlier : ∀ a ∈ registered, a ∈ pass.registered ↔ a.sequence ≤ pass.boundary

/-- The callback of a source runs: its slot is good for as long as the version is. -/
structure Running (m : Sources) (pass : Pass) (source : Source) : Prop where
  pos : 0 < pass.index
  version : pass.version ≤ m.sourcesVersion
  slot : pass.version = m.sourcesVersion → m.sources[pass.index - 1]? = some source
  called : source ∈ pass.called
  last : ∀ b ∈ pass.called, b = source ∨ sourceBefore b source = true
  ended : pass.ended = none

variable {m : Sources} {registered : List Source} {pass : Pass} {index : ℕ}

/-- What is left for a pass from a slot on: all that is after what it has called. -/
structure Left (m : Sources) (pass : Pass) (index : ℕ) : Prop where
  pos : 0 < index
  before : ∀ a ∈ m.sources.take (index - 1), ∃ b ∈ pass.called, sourceBefore b a = false
  after : ∀ a ∈ m.sources.drop (index - 1), ∀ b ∈ pass.called, sourceBefore b a = true

/-- The turn of a source has not come while a pass goes on and all it has called are before. -/
theorem turn_none_iff {a : Source} (hended : pass.ended = none) :
    pass.turn a = none ↔ ∀ b ∈ pass.called, sourceBefore b a = true := by
  simp [Pass.turn, Pass.called, hended]

theorem turn_call {a source : Source} {released : List Source} {index : ℕ}
    (hended : pass.ended = none) :
    Pass.turn { pass with
        index, current := some source, calls := pass.calls ++ [(source, released)] } a =
      (pass.turn a).or (if sourceBefore source a then none else some released) := by
  simp only [Pass.turn, hended, Option.or_none, List.find?_append, Option.map_or]
  congr 1
  cases hbefore : sourceBefore source a <;> simp [hbefore]

theorem turn_end {a : Source} {released : List Source} (hended : pass.ended = none) :
    Pass.turn { pass with current := none, ended := some released } a =
      (pass.turn a).or (some released) := by
  simp only [Pass.turn, hended, Option.or_none]

/-- What is live, registered before the pass and after all it has called is still ahead of it. -/
theorem mem_ahead {a : Source} (hkept : Kept m registered) (hbounded : Bounded m registered pass)
    (hleft : Left m pass index) (hturn : ∀ b ∈ pass.called, sourceBefore b a = true)
    (ha : a ∈ pass.registered) (hlive : a ∉ m.released) : a ∈ m.sources.drop (index - 1) := by
  have hmem : a ∈ m.sources := (hkept.live a).mpr ⟨hbounded.subset a ha, hlive⟩
  rw [← List.take_append_drop (index - 1) m.sources] at hmem
  rcases List.mem_append.mp hmem with htake | hdrop
  · obtain ⟨b, hb, hbefore⟩ := hleft.before a htake
    simp [hturn b hb] at hbefore
  · exact hdrop

theorem Exact.not_called {a : Source} (h : Exact pass) (hturn : pass.turn a = none) :
    a ∉ pass.called := by
  intro ha
  obtain ⟨-, released, hreleased, -⟩ := (h.called a).mp ha
  simp [hturn] at hreleased

/-- The call of the first source left keeps a pass exact. -/
theorem Exact.call {source : Source} {front back : List Source} {found : ℕ} (h : Exact pass)
    (hkept : Kept m registered) (hbounded : Bounded m registered pass) (hleft : Left m pass index)
    (hended : pass.ended = none) (hahead : m.sources.drop (index - 1) = front ++ source :: back)
    (hseq : source.sequence ≤ pass.boundary) (hfront : ∀ a ∈ front, pass.boundary < a.sequence) :
    Exact { pass with
      index := found, current := some source, calls := pass.calls ++ [(source, m.released)] } := by
  have hmem : source ∈ m.sources.drop (index - 1) := by simp [hahead]
  have hsource := (hkept.live source).mp (List.mem_of_mem_drop hmem)
  have hregistered : source ∈ pass.registered := (hbounded.earlier source hsource.1).mpr hseq
  have hafter := hleft.after source hmem
  have hcalled : ∀ a, a ∈ Pass.called { pass with
      index := found, current := some source, calls := pass.calls ++ [(source, m.released)] } ↔
      a ∈ pass.called ∨ a = source := fun a => by simp [Pass.called]
  constructor
  · have happend : Ordered (pass.called ++ [source]) :=
      List.pairwise_append.mpr ⟨h.ascending, by simp, fun b hb a ha => by
        rw [List.mem_singleton.mp ha]
        exact hafter b hb⟩
    simpa [Pass.called] using happend
  intro a
  rw [hcalled, turn_call hended]
  cases hturn : pass.turn a with
  | some released =>
    have hne : a ≠ source := by
      rintro rfl
      simp [(turn_none_iff hended).mpr hafter] at hturn
    rw [or_iff_left hne, h.called a, hturn]
    rfl
  | none =>
    rw [or_iff_right (h.not_called hturn), Option.none_or]
    constructor
    · rintro rfl
      exact ⟨hregistered, m.released, by simp [sourceBefore_irrefl], hsource.2⟩
    · rintro ⟨ha, released, hreleased, hlive⟩
      split_ifs at hreleased with hbefore
      obtain rfl := Option.some.inj hreleased
      have hmem' := mem_ahead hkept hbounded hleft ((turn_none_iff hended).mp hturn) ha hlive
      have hordered : Ordered (front ++ source :: back) :=
        hahead ▸ hkept.ordered.sublist (List.drop_sublist _ _)
      rw [hahead] at hmem'
      rcases List.mem_append.mp hmem' with hin | hin
      · have hlater := hfront a hin
        have hearlier := (hbounded.earlier a (hbounded.subset a ha)).mp ha
        omega
      rcases List.mem_cons.mp hin with rfl | hin
      · rfl
      · have hrest := (List.pairwise_append.mp hordered).2.1
        exact absurd ((List.pairwise_cons.mp hrest).1 a hin) hbefore

/-- A pass ends exact when nothing it began with is left. -/
theorem Exact.finish (h : Exact pass) (hkept : Kept m registered)
    (hbounded : Bounded m registered pass) (hleft : Left m pass index) (hended : pass.ended = none)
    (hnone : ∀ a ∈ m.sources.drop (index - 1), pass.boundary < a.sequence) :
    Exact { pass with current := none, ended := some m.released } := by
  refine ⟨h.ascending, fun a => ?_⟩
  rw [turn_end hended]
  change a ∈ pass.called ↔ _
  cases hturn : pass.turn a with
  | some released =>
    rw [h.called a, hturn]
    rfl
  | none =>
    refine iff_of_false (h.not_called hturn) ?_
    rintro ⟨ha, released, hreleased, hlive⟩
    obtain rfl := Option.some.inj hreleased
    have hmem := mem_ahead hkept hbounded hleft ((turn_none_iff hended).mp hturn) ha hlive
    have hearlier := (hbounded.earlier a (hbounded.subset a ha)).mp ha
    have hlater := hnone a hmem
    omega

/-- What holds of a pass in every state of a run. -/
structure Sound (m : Sources) (registered : List Source) (pass : Pass) : Prop where
  exact' : Exact pass
  bounded : Bounded m registered pass
  running : ∀ source, pass.current = some source → Running m pass source
  ended_of_none : pass.current = none → pass.ended ≠ none

theorem advance_sound (hexact : Exact pass) (hkept : Kept m registered)
    (hbounded : Bounded m registered pass) (hleft : Left m pass index) (hended : pass.ended = none)
    (hversion : pass.version = m.sourcesVersion) : Sound m registered (pass.advance m index) := by
  rw [Pass.advance]
  cases hnext : nextSource pass.boundary (m.sources.drop (index - 1)) index with
  | none =>
    refine ⟨hexact.finish hkept hbounded hleft hended (nextSource_none hnext),
      ⟨hbounded.boundary, hbounded.subset, hbounded.earlier⟩, fun source hsource => ?_, by simp⟩
    simp at hsource
  | some next =>
    obtain ⟨found, source⟩ := next
    obtain ⟨front, back, hahead, hfound, hseq, hfront⟩ := nextSource_some hnext
    refine ⟨hexact.call hkept hbounded hleft hended hahead hseq hfront,
      ⟨hbounded.boundary, hbounded.subset, hbounded.earlier⟩, fun source' hsource' => ?_, by simp⟩
    obtain rfl := Option.some.inj hsource'
    have hpos := hleft.pos
    refine ⟨by simp only; omega, hversion.le, fun _ => ?_, by simp [Pass.called], fun b hb => ?_,
      hended⟩
    · have hget : (m.sources.drop (index - 1))[front.length]? = some source := by simp [hahead]
      rw [List.getElem?_drop] at hget
      simp only [hfound]
      rwa [show index + front.length - 1 = index - 1 + front.length by omega]
    · have hb' : b ∈ pass.called ∨ b = source := by simpa [Pass.called] using hb
      rcases hb' with hb' | rfl
      · exact .inr (hleft.after source (by simp [hahead]) b hb')
      · exact .inl rfl

/-- What comes after the source whose callback has returned is what is left. -/
theorem Running.left {source : Source} (h : Running m pass source) (hpos : 0 < index)
    (hparts : Parts m.sources source index) : Left m pass index := by
  refine ⟨hpos, fun a ha => ⟨source, h.called, hparts.before a ha⟩, fun a ha b hb => ?_⟩
  have hafter := hparts.after a ha
  rcases h.last b hb with rfl | hbefore
  · exact hafter
  · exact sourceBefore_trans hbefore hafter

theorem firstSourceAfter_pos (sources : List Source) (source : Source) :
    0 < firstSourceAfter sources source :=
  Search.le_boundary _ _ _

theorem returned_sound {source : Source} {result : Option ℤ} (h : Sound m registered pass)
    (hkept : Kept m registered) (hsource : pass.current = some source) :
    Sound m registered (pass.returned m source result) := by
  have hrunning := h.running source hsource
  rw [Pass.returned]
  split_ifs with hversion
  · have hleft := hrunning.left (Nat.succ_pos _)
      (parts_of_slot hkept.ordered hrunning.pos (hrunning.slot hversion.symm))
    exact advance_sound ⟨h.exact'.ascending, h.exact'.called⟩ hkept
      ⟨h.bounded.boundary, h.bounded.subset, h.bounded.earlier⟩
      ⟨hleft.pos, hleft.before, hleft.after⟩ hrunning.ended hversion.symm
  · have hleft := hrunning.left (firstSourceAfter_pos _ _)
      (firstSourceAfter_parts hkept.ordered source)
    exact advance_sound ⟨h.exact'.ascending, h.exact'.called⟩ hkept
      ⟨h.bounded.boundary, h.bounded.subset, h.bounded.earlier⟩
      ⟨hleft.pos, hleft.before, hleft.after⟩ hrunning.ended rfl

/-- A change of the module that a pass under way need not notice, or will by the version. -/
structure Changes (m : Sources) (registered : List Source) (m' : Sources)
    (registered' : List Source) : Prop where
  sequence : m.sourceSequence ≤ m'.sourceSequence
  kept : ∀ a ∈ registered, a ∈ registered'
  later : ∀ a ∈ registered', a ∈ registered ∨ m.sourceSequence < a.sequence
  version : m.sourcesVersion < m'.sourcesVersion ∨
    m.sourcesVersion = m'.sourcesVersion ∧ m.sources = m'.sources

theorem Sound.change {m' : Sources} {registered' : List Source} (h : Sound m registered pass)
    (hkept : Kept m registered) (hchange : Changes m registered m' registered') :
    Sound m' registered' pass := by
  obtain ⟨hexact, hbounded, hrunning, hover⟩ := h
  refine ⟨hexact, ⟨hbounded.boundary.trans hchange.sequence,
    fun a ha => hchange.kept a (hbounded.subset a ha), fun a ha => ?_⟩, fun source hsource => ?_,
    hover⟩
  · rcases hchange.later a ha with hold | hnew
    · exact hbounded.earlier a hold
    · have hboundary := hbounded.boundary
      refine iff_of_false (fun hmem => ?_) (by omega)
      have hnumber := hkept.numbered a (hbounded.subset a hmem)
      omega
  · have h := hrunning source hsource
    have hversion := h.version
    rcases hchange.version with hlt | ⟨heq, hsources⟩
    · exact ⟨h.pos, by omega, fun heq => by omega, h.called, h.last, h.ended⟩
    · exact ⟨h.pos, by omega, fun heq' => hsources ▸ h.slot (by omega), h.called, h.last, h.ended⟩

theorem addSource_fresh (h : Kept m registered) (name : Bytes) (order : ℤ) :
    (addSource m name order).2 ∉ registered := by
  intro hmem
  have hnumber := h.numbered _ hmem
  simp [addSource] at hnumber

theorem addSource_kept (h : Kept m registered) (name : Bytes) (order : ℤ) :
    Kept (addSource m name order).1 ((addSource m name order).2 :: registered) := by
  have hfresh := addSource_fresh h name order
  have hmem : ∀ a, a ∈ (addSource m name order).1.sources ↔
      a = (addSource m name order).2 ∨ a ∈ m.sources := fun a => mem_insert
  refine ⟨h.ordered.insert fun hmem => hfresh ((h.live _).mp hmem).1, fun a => ?_,
    fun a ha => List.mem_cons_of_mem _ (h.flagged a ha), fun a ha => ?_⟩
  · have hreleased : (addSource m name order).1.released = m.released := rfl
    rw [hmem, h.live a, List.mem_cons, hreleased]
    constructor
    · rintro (rfl | ⟨ha, hlive⟩)
      · exact ⟨.inl rfl, fun hflag => hfresh (h.flagged _ hflag)⟩
      · exact ⟨.inr ha, hlive⟩
    · rintro ⟨rfl | ha, hlive⟩
      · exact .inl rfl
      · exact .inr ⟨ha, hlive⟩
  · change a.sequence ≤ m.sourceSequence + 1
    rcases List.mem_cons.mp ha with rfl | ha
    · exact Nat.le_refl _
    · exact (h.numbered a ha).trans (Nat.le_succ _)

theorem addSource_changes (name : Bytes) (order : ℤ) :
    Changes m registered (addSource m name order).1 ((addSource m name order).2 :: registered) := by
  refine ⟨Nat.le_succ _, fun a ha => List.mem_cons_of_mem _ ha, fun a ha => ?_,
    .inl (Nat.lt_succ_self _)⟩
  rcases List.mem_cons.mp ha with rfl | ha
  · exact .inr (Nat.lt_succ_self _)
  · exact .inl ha

theorem release_kept (h : Kept m registered) {source : Source} (hsource : source ∈ registered) :
    Kept (release m source) registered := by
  rw [release]
  split_ifs with hflag hmem
  · exact h
  · refine ⟨h.ordered.sublist List.erase_sublist, fun a => ?_, ?_, h.numbered⟩
    · simp only [h.ordered.nodup.mem_erase_iff, h.live a, List.mem_cons, not_or]
      tauto
    · exact List.forall_mem_cons.mpr ⟨hsource, h.flagged⟩
  · exact absurd ((h.live source).mpr ⟨hsource, hflag⟩) hmem

theorem release_changes (source : Source) :
    Changes m registered (release m source) registered := by
  rw [release]
  split_ifs with hflag hmem
  · exact ⟨Nat.le_refl _, fun _ ha => ha, fun _ ha => .inl ha, .inr ⟨rfl, rfl⟩⟩
  · exact ⟨Nat.le_refl _, fun _ ha => ha, fun _ ha => .inl ha, .inl (Nat.lt_succ_self _)⟩
  · exact ⟨Nat.le_refl _, fun _ ha => ha, fun _ ha => .inl ha, .inr ⟨rfl, rfl⟩⟩

theorem poll_changes : Changes m registered (poll m registered).1 registered :=
  ⟨Nat.le_refl _, fun _ ha => ha, fun _ ha => .inl ha, .inr ⟨rfl, rfl⟩⟩

theorem poll_sound (h : Kept m registered) : Sound m registered (poll m registered).2 := by
  refine advance_sound ⟨by simp [Pass.called], fun a => ?_⟩ h ⟨Nat.le_refl _, fun _ ha => ha, ?_⟩
    ⟨Nat.one_pos, by simp, fun a _ b hb => by simp [Pass.called] at hb⟩ rfl rfl
  · simp [Pass.called, Pass.turn]
  · exact fun a ha => iff_of_true ha (h.numbered a ha)

end Passes

section Runs

/-- What holds in every state of a run. -/
structure Good (st : State) : Prop where
  kept : Kept st.m st.registered
  sound : ∀ pass ∈ st.passes, Sound st.m st.registered pass

theorem Good.initial : Good State.initial :=
  ⟨⟨List.Pairwise.nil, by simp [State.initial], by simp [State.initial], by simp [State.initial]⟩,
    by simp [State.initial]⟩

theorem Good.step {st st' : State} {event : Event} (h : Good st) (hstep : step st event = some st') :
    Good st' := by
  cases event with
  | source name order =>
    obtain rfl := Option.some.inj hstep
    exact ⟨addSource_kept h.kept name order,
      fun pass hpass => (h.sound pass hpass).change h.kept (addSource_changes name order)⟩
  | release source =>
    simp only [suspension.step] at hstep
    split_ifs at hstep with hsource
    obtain rfl := Option.some.inj hstep
    exact ⟨release_kept h.kept hsource,
      fun pass hpass => (h.sound pass hpass).change h.kept (release_changes source)⟩
  | poll =>
    obtain rfl := Option.some.inj hstep
    refine ⟨⟨h.kept.ordered, h.kept.live, h.kept.flagged, h.kept.numbered⟩, fun pass hpass => ?_⟩
    rcases List.mem_append.mp hpass with hpass | hpass
    · exact (h.sound pass hpass).change h.kept poll_changes
    · rw [List.mem_singleton.mp hpass]
      exact (poll_sound h.kept).change h.kept poll_changes
  | returned i result =>
    simp only [suspension.step] at hstep
    cases hpass : st.passes[i]? with
    | none => simp [hpass] at hstep
    | some pass =>
      simp only [hpass, Option.map_eq_some_iff] at hstep
      obtain ⟨source, hsource, rfl⟩ := hstep
      refine ⟨h.kept, fun pass' hpass' => ?_⟩
      rcases List.mem_or_eq_of_mem_set hpass' with hmem | rfl
      · exact h.sound pass' hmem
      · exact returned_sound (h.sound pass (List.mem_of_getElem? hpass)) h.kept hsource

theorem Good.run {st st' : State} {events : List Event} (h : Good st)
    (hrun : run st events = some st') : Good st' := by
  induction events generalizing st with
  | nil =>
    obtain rfl := Option.some.inj hrun
    exact h
  | cons event events ih =>
    obtain ⟨next, hstep, hrest⟩ := Option.bind_eq_some_iff.mp hrun
    exact ih (h.step hstep) hrest

/-- However registrations, releases, passes and returns of callbacks follow each other, the list is
sorted, and every pass has called in ascending order, once each, exactly the sources that were
registered before it and are not released when their turn comes. All turns have come when it ends. -/
theorem poll_visits (events : List Event) (st : State) (h : run .initial events = some st) :
    Ordered st.m.sources ∧
      ∀ pass ∈ st.passes, Ordered pass.called ∧
        (∀ source, source ∈ pass.called ↔
          source ∈ pass.registered ∧
            ∃ released, pass.turn source = some released ∧ source ∉ released) ∧
        (pass.current = none → ∀ source, pass.turn source ≠ none) := by
  have hgood := Good.initial.run h
  refine ⟨hgood.kept.ordered, fun pass hpass => ?_⟩
  have hsound := hgood.sound pass hpass
  refine ⟨hsound.exact'.ascending, hsound.exact'.called, fun hcurrent source hturn => ?_⟩
  exact hsound.ended_of_none hcurrent (Option.or_eq_none_iff.mp hturn).2

def changing : List Event :=
  [.source [97] 1, .source [98] 2, .poll, .source [99] 3, .source [100] 0, .release ⟨2, [98], 2⟩,
    .returned 0 (some 1)]

/-- A callback registers sources on both sides of its own and releases the one that was next. -/
theorem poll_visits_changing :
    ∃ st, run .initial changing = some st ∧ st.passes.map Pass.called = [[⟨1, [97], 1⟩]] ∧
      Ordered st.m.sources := by
  exact ⟨_, rfl, rfl, (poll_visits changing _ rfl).1⟩

end Runs

end Nupp.suspension
