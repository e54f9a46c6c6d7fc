import Mathlib.Algebra.Order.BigOperators.Group.List
import Nupp.Events.Flights

/-! The count of a bus against the registrations it can reach. -/

namespace Nupp.events

open Table

variable {A C : Type} [DecidableEq A]

/-- What holds of a bus between two actions. -/
structure Inv (world : World A C) : Prop where
  sound : Sound world.observers
  depth : world.observers.depth = world.flights.entries.length
  flying : ∀ emission flight, world.flights.lookup emission = some flight →
    Flying world.observers flight
  started : ∀ emission flight, world.flights.lookup emission = some flight →
    emission < world.emissions

/-- The registrations that the count of a bus misses. -/
def missed (observers : State A C) : ℤ := live observers - observers.count

/-- The action takes a delivery to a once registration in a list that `clear` or `reset` has
detached. -/
def ConsumesDetached (world : World A C) : Action A C → Prop
  | .advance emission _ =>
    ∃ flight ∈ world.flights.lookup emission,
      ∃ found ∈ nextLive (world.observers.lists flight.list).slots (flight.n - flight.index)
        flight.index,
        flight.fast = false ∧ found.2.once = true ∧
          world.observers.listAt flight.address flight.event ≠ some flight.list
  | _ => False

instance (world : World A C) : DecidablePred (ConsumesDetached world)
  | .advance emission _ =>
    inferInstanceAs (Decidable (∃ flight ∈ world.flights.lookup emission,
      ∃ found ∈ nextLive (world.observers.lists flight.list).slots (flight.n - flight.index)
        flight.index,
        flight.fast = false ∧ found.2.once = true ∧
          world.observers.listAt flight.address flight.event ≠ some flight.list))
  | .observe .. | .once .. | .stop .. | .clear .. | .reset | .emit .. | .deliver ..
  | .failure .. => inferInstanceAs (Decidable False)

variable {w : World A C}

theorem inv_start : Inv ({} : World A C) where
  sound := sound_start
  depth := rfl
  flying := by simp
  started := by simp

theorem depth_pos (h : Inv w) {emission : ℕ} {flight : Flight A}
    (hflight : w.flights.lookup emission = some flight) : 0 < w.observers.depth := by
  have hlength := length_erase_of_some hflight
  have hdepth := h.depth
  omega

/-- An operation keeps the deliveries in flight when each of them can go on. -/
theorem Inv.operation (h : Inv w) {observers : State A C} (hsound : Sound observers)
    (hdepth : observers.depth = w.observers.depth)
    (hflying : ∀ flight, 0 < w.observers.depth → Flying w.observers flight →
      Flying observers flight) : Inv { w with observers := observers } where
  sound := hsound
  depth := hdepth.trans h.depth
  flying := fun emission flight hflight =>
    hflying flight (depth_pos h hflight) (h.flying emission flight hflight)
  started := h.started

theorem register_inv (h : Inv w) (a : A) (event : ℕ) (callback : C) (name : Option String)
    (once : Bool) :
    Inv { w with observers := (register w.observers a event callback name once).2 } ∧
      missed (register w.observers a event callback name once).2 = missed w.observers := by
  have hspec := register_spec h.sound a event callback name once
  revert hspec
  rcases register w.observers a event callback name once with ⟨result, observers⟩
  cases result with
  | ok _ =>
    intro hspec
    refine ⟨h.operation hspec.sound hspec.depth fun flight _ hflying =>
      hflying.registered hspec, ?_⟩
    have hlive := hspec.live
    have hcount := hspec.count
    simp only [missed]
    omega
  | error _ =>
    rintro ⟨hsame, -⟩
    obtain rfl : observers = w.observers := hsame
    exact ⟨h, rfl⟩

theorem touched_inv (h : Inv w) {a : A} {event id : ℕ} {observers : State A C}
    (hsound : Sound observers) (hdepth : observers.depth = w.observers.depth)
    (hat : observers.listAt a event = some id ∨ 0 < observers.depth)
    (hflying : ∀ flight, 0 < w.observers.depth → Flying w.observers flight →
      Flying observers flight) :
    Inv { w with observers := touched observers a event id } ∧
      missed (touched observers a event id) = missed observers := by
  obtain ⟨hkeeps, halike⟩ := touched_keeps a event id hsound hat
  refine ⟨h.operation hkeeps.sound (hkeeps.depth.trans hdepth) fun flight hpos hold =>
    (hflying flight hpos hold).alike (halike (hdepth.symm ▸ hpos)), ?_⟩
  rw [missed, hkeeps.live, hkeeps.count, missed]

theorem stop_inv [DecidableEq C] (h : Inv w) (a : A) (event : ℕ) (key : Key C) :
    Inv { w with observers := (stop w.observers a event key).2 } ∧
      missed (stop w.observers a event key).2 = missed w.observers := by
  rcases stop_spec h.sound a event key with ⟨hsame, -⟩ | ⟨id, s₁, hat, hstruck, hstop⟩
  · rw [hsame]
    exact ⟨h, rfl⟩
  · have hat₁ : s₁.listAt a event = some id := by
      rw [State.listAt, hstruck.byAddress]
      exact hat
    obtain ⟨hinv, hmissed⟩ := touched_inv h hstruck.sound hstruck.depth (.inl hat₁)
      fun flight _ hflying => hflying.struck hstruck
    rw [hstop]
    exact ⟨hinv, hmissed.trans hstruck.live⟩

theorem cleared_inv (h : Inv w) {addresses : List A} {observers : State A C}
    (hcleared : Cleared w.observers addresses observers) :
    Inv { w with observers := observers } ∧ missed observers = missed w.observers :=
  ⟨h.operation hcleared.sound hcleared.depth fun _ hpos hflying =>
    hflying.cleared hpos hcleared, hcleared.missed⟩

theorem begin_inv (h : Inv w) (a : A) (event : ℕ) :
    Inv (begin w a event) ∧ missed (begin w a event).observers = missed w.observers := by
  have hdropped : Inv { w with emissions := w.emissions + 1 } :=
    ⟨h.sound, h.depth, h.flying, fun emission flight hflight =>
      (h.started emission flight hflight).trans (Nat.lt_succ_self _)⟩
  unfold begin
  simp only
  split
  · exact ⟨hdropped, rfl⟩
  cases hat : w.observers.listAt a event with
  | none => exact ⟨hdropped, rfl⟩
  | some id =>
    simp only
    split
    · exact ⟨hdropped, rfl⟩
    have hnone : w.flights.lookup w.emissions = none := by
      cases hflight : w.flights.lookup w.emissions with
      | none => rfl
      | some flight => exact absurd (h.started _ flight hflight) (Nat.lt_irrefl _)
    have hlist := h.sound.lists id
    refine ⟨⟨h.sound.redepth _, ?_, ?_, ?_⟩, rfl⟩
    · have hdepth := h.depth
      have hlength := length_insert_of_none (b := (⟨id, a, event,
        (w.observers.lists id).slots.length, 0,
        (w.observers.lists id).once == 0 && (w.observers.lists id).holes == 0⟩ : Flight A)) hnone
      rw [hlength, hdepth]
      rfl
    · intro emission flight hflight
      rw [lookup_insert'] at hflight
      split at hflight
      · obtain rfl := Option.some.inj hflight
        refine ⟨mem_held_of_listAt hat, ?_, le_rfl, ?_⟩
        · exact fun a' event' hlist' => h.sound.owned.listAt_unique hat hlist'
        · intro hfast index slot _ hslot
          simp only [Bool.and_eq_true, beq_iff_eq] at hfast
          have hzero : (w.observers.lists id).slots.countP Slot.once = 0 := by
            have honce := hlist.once
            omega
          have hnever := List.countP_eq_zero.mp hzero slot (List.mem_of_getElem? hslot)
          simpa using hnever
      · have hold := h.flying emission flight hflight
        exact ⟨hold.held, hold.at_, hold.length, hold.fast⟩
    · intro emission flight hflight
      rw [lookup_insert'] at hflight
      split at hflight
      · next hsame =>
        rw [hsame]
        exact Nat.lt_succ_self _
      · exact (h.started emission flight hflight).trans (Nat.lt_succ_self _)

theorem finish_inv (h : Inv w) {emission : ℕ} {flight : Flight A}
    (hflight : w.flights.lookup emission = some flight) (rewinds : Bool) :
    Inv (finish w emission rewinds) ∧
      missed (finish w emission rewinds).observers = missed w.observers := by
  have hlength := length_erase_of_some hflight
  have hdepth := h.depth
  have hlookup : ∀ other flight, (w.flights.erase emission).lookup other = some flight →
      w.flights.lookup other = some flight := by
    intro other flight hother
    rw [lookup_erase'] at hother
    split at hother
    · exact absurd hother (by simp)
    · exact hother
  have hstarted : ∀ other flight, (w.flights.erase emission).lookup other = some flight →
      other < w.emissions := fun other flight hother => h.started other flight (hlookup _ _ hother)
  simp only [finish]
  split
  · next hzero =>
    have hkeeps := settle_keeps (h.sound.redepth (w.observers.depth - 1)) rewinds
    have hempty : (w.flights.erase emission).entries.length = 0 := by omega
    refine ⟨⟨hkeeps.sound, ?_, ?_, hstarted⟩, ?_⟩
    · have hsame := hkeeps.depth
      rw [hempty]
      exact hsame.trans hzero
    · intro other flight hother
      have hold : (w.flights.erase emission).lookup other = some flight := hother
      have herased := length_erase_of_some hold
      omega
    · rw [missed, hkeeps.live, hkeeps.count]
      rfl
  · refine ⟨⟨h.sound.redepth _, ?_, ?_, hstarted⟩, rfl⟩
    · simp only
      omega
    · intro other flight hother
      have hold := h.flying other flight (hlookup _ _ hother)
      exact ⟨hold.held, hold.at_, hold.length, hold.fast⟩

/-- A delivery that goes on to its next call, at `next`. -/
theorem advanced_inv (h : Inv w) {emission : ℕ} {flight : Flight A}
    (hflight : w.flights.lookup emission = some flight) {observers : State A C}
    (hsound : Sound observers) (hdepth : observers.depth = w.observers.depth)
    (hflying : ∀ other, Flying w.observers other → Flying observers other) (next : ℕ)
    (log : List (Call C)) :
    Inv { w with
      observers := observers
      flights := w.flights.insert emission { flight with index := next }
      log := log } where
  sound := hsound
  depth := by
    rw [hdepth, h.depth, length_insert_of_some hflight]
  flying := by
    intro other flight' hother
    rw [lookup_insert'] at hother
    split at hother
    · obtain rfl := Option.some.inj hother
      have hold := hflying flight (h.flying emission flight hflight)
      exact ⟨hold.held, hold.at_, hold.length, hold.fast⟩
    · exact hflying flight' (h.flying other flight' hother)
  started := by
    intro other flight' hother
    rw [lookup_insert'] at hother
    split at hother
    · next hsame =>
      rw [hsame]
      exact h.started emission flight hflight
    · exact h.started other flight' hother

theorem advance_inv (h : Inv w) (emission : ℕ) (rewinds : Bool) :
    Inv (advance w emission rewinds) ∧
      (ConsumesDetached w (.advance emission rewinds) →
        missed (advance w emission rewinds).observers = missed w.observers + 1) ∧
      (¬ConsumesDetached w (.advance emission rewinds) →
        missed (advance w emission rewinds).observers = missed w.observers) := by
  unfold advance
  cases hflight : w.flights.lookup emission with
  | none =>
    refine ⟨h, ?_, fun _ => rfl⟩
    rintro ⟨flight, hsome, -⟩
    exact absurd (hflight.symm.trans hsome) (by simp)
  | some flight =>
    have hflying := h.flying emission flight hflight
    have hspec := nextLive_spec (w.observers.lists flight.list).slots flight.n hflying.length
      (flight.n - flight.index) flight.index rfl
    simp only
    cases hnext : nextLive (w.observers.lists flight.list).slots (flight.n - flight.index)
        flight.index with
    | none =>
      obtain ⟨hinv, hmissed⟩ := finish_inv h hflight rewinds
      refine ⟨hinv, ?_, fun _ => hmissed⟩
      rintro ⟨flight', hsome, found, hfound, -⟩
      obtain rfl : flight = flight' := by simpa [hflight] using hsome
      exact absurd (hnext.symm.trans hfound) (by simp)
    | some found =>
      obtain ⟨index, slot⟩ := found
      rw [hnext] at hspec
      obtain ⟨-, -, hslot, hlive, -⟩ := hspec
      simp only
      by_cases hconsumes : (!flight.fast && slot.once) = true
      · rw [if_pos hconsumes]
        have hboth : flight.fast = false ∧ slot.once = true := by simpa using hconsumes
        have hconsumed := consume_spec h.sound hflying (depth_pos h hflight) hslot hlive hboth.2
        refine ⟨advanced_inv h hflight hconsumed.sound hconsumed.depth
          (fun other hother => hother.consumed hslot hconsumed) _ _, ?_, ?_⟩
        · rintro ⟨flight', hsome, _, _, -, -, hdetached⟩
          obtain rfl : flight = flight' := by simpa [hflight] using hsome
          have hmissed := hconsumed.missed
          rw [if_neg hdetached] at hmissed
          exact hmissed
        · intro hnot
          have hattached : w.observers.listAt flight.address flight.event = some flight.list := by
            by_contra hdetached
            exact hnot ⟨flight, hflight, (index, slot), hnext, hboth.1, hboth.2, hdetached⟩
          have hmissed := hconsumed.missed
          rw [if_pos hattached, add_zero] at hmissed
          exact hmissed
      · rw [if_neg hconsumes]
        refine ⟨advanced_inv h hflight h.sound rfl (fun _ hother => hother) _ _, ?_,
          fun _ => rfl⟩
        rintro ⟨flight', hsome, found, hfound, hfast, honce, -⟩
        obtain rfl : flight = flight' := by simpa [hflight] using hsome
        obtain rfl : (index, slot) = found := by simpa [hnext] using hfound
        have honce' : slot.once = true := honce
        exact absurd (by simp [hfast, honce']) hconsumes

theorem fail_inv (h : Inv w) (emission : ℕ) (rewinds : Bool) :
    Inv (fail w emission rewinds) ∧
      missed (fail w emission rewinds).observers = missed w.observers := by
  unfold fail
  cases hflight : w.flights.lookup emission with
  | none => exact ⟨h, rfl⟩
  | some flight => exact finish_inv h hflight rewinds

section Runs

variable [DecidableEq C]

/-- An action misses one registration more if it consumes from a detached list, and none
otherwise. -/
theorem step_inv (h : Inv w) (action : Action A C) :
    Inv (w.step action) ∧
      (ConsumesDetached w action →
        missed (w.step action).observers = missed w.observers + 1) ∧
      (¬ConsumesDetached w action → missed (w.step action).observers = missed w.observers) := by
  have hnever (hnot : ¬ConsumesDetached w action)
      (hstep : Inv (w.step action) ∧
        missed (w.step action).observers = missed w.observers) :
      Inv (w.step action) ∧
        (ConsumesDetached w action →
          missed (w.step action).observers = missed w.observers + 1) ∧
        (¬ConsumesDetached w action →
          missed (w.step action).observers = missed w.observers) :=
    ⟨hstep.1, fun hconsumes => absurd hconsumes hnot, fun _ => hstep.2⟩
  cases action with
  | observe address event callback name =>
    exact hnever id (register_inv h address event callback name false)
  | once address event callback name =>
    exact hnever id (register_inv h address event callback name true)
  | stop address event key => exact hnever id (stop_inv h address event key)
  | clear address => exact hnever id (cleared_inv h (clear_spec h.sound address))
  | reset => exact hnever id (cleared_inv h (reset_spec h.sound))
  | emit address event => exact hnever id (begin_inv h address event)
  | deliver address event => exact hnever id (begin_inv h address event)
  | advance emission rewinds => exact advance_inv h emission rewinds
  | failure emission rewinds => exact hnever id (fail_inv h emission rewinds)

theorem run_inv (actions : List (Action A C)) : Inv (run actions) := by
  induction actions using List.reverseRecOn with
  | nil => exact inv_start
  | append_singleton actions action ih =>
    rw [run_snoc]
    exact (step_inv ih action).1

/-- The count is exact, and no emission is dropped where an observer is registered for it. -/
def Counted (world : World A C) : Prop :=
  world.observers.count = live world.observers ∧
    ∀ address event, world.observers.regs address event ≠ [] → world.observers.count ≠ 0

omit [DecidableEq C] in
theorem counted_of_missed (hmissed : missed w.observers = 0) : Counted w := by
  have hcount : w.observers.count = live w.observers := by
    rw [missed] at hmissed
    omega
  refine ⟨hcount, fun address event hregs hzero => ?_⟩
  cases hat : w.observers.listAt address event with
  | none =>
    rw [State.regs, listOf_of_none hat] at hregs
    exact hregs rfl
  | some id =>
    rw [State.regs, listOf_of_some hat] at hregs
    have hle : liveIn (w.observers.lists id) ≤ live w.observers :=
      List.single_le_sum (fun _ _ => Nat.zero_le _) _
        (List.mem_map_of_mem (mem_attached.mpr ⟨address, event, hat⟩))
    have hpos := List.length_pos_iff.mpr hregs
    rw [← liveIn_eq] at hpos
    omega

/-- In a run, the count is exact in every state if and only if no delivery consumes a once
registration from a list that is detached. -/
theorem count_exact_iff (actions : List (Action A C)) :
    (∀ before, before <+: actions → Counted (run before)) ↔
      ∀ before action, before ++ [action] <+: actions →
        ¬ConsumesDetached (run before) action := by
  constructor
  · intro hcounted before action hinitial hconsumes
    have hbefore := (hcounted before ((List.prefix_append _ _).trans hinitial)).1
    have hafter := (hcounted _ hinitial).1
    have hstep := (step_inv (run_inv before) action).2.1 hconsumes
    rw [← run_snoc, missed, missed] at hstep
    omega
  · intro hnever before hinitial
    apply counted_of_missed
    induction before using List.reverseRecOn with
    | nil => rfl
    | append_singleton before action ih =>
      have hstep := (step_inv (run_inv before) action).2.2 (hnever before action hinitial)
      rw [run_snoc, hstep]
      exact ih ((List.prefix_append _ _).trans hinitial)

/-- An observer clears its address while a once registration there is still due: the
delivery consumes it, the count falls to zero with an observer at another address, and the
next emission there is dropped. -/
theorem count_not_exact :
    ∃ actions : List (Action ℕ ℕ),
      ¬Counted (run actions) ∧ (run actions).observers.regs 2 0 ≠ [] ∧
        (emit (run actions) 2 0).flights.lookup 1 = none := by
  refine ⟨[.observe 1 0 10 none, .once 1 0 11 none, .emit 1 0, .advance 0 true, .clear 1,
    .advance 0 true, .advance 0 true, .observe 2 0 12 none], ?_, by decide, by decide⟩
  rintro ⟨hcount, -⟩
  exact absurd hcount (by decide)

end Runs

end Nupp.events
