import Mathlib.Data.List.Nodup
import Nupp.Events.Delivery

/-! What a message bus is for, without lists, tombstones or pools: a registry in the order of
registration, and for every emission the registrations it has yet to call. A removal takes
effect at once in both, except that `clear` and `reset` leave emissions under way alone. -/

namespace Nupp.events

structure Registration (A C : Type) where
  serial : ℕ
  address : A
  event : ℕ
  name : Option String
  callback : C
  once : Bool
  deriving DecidableEq

def Registration.matches {A C : Type} [DecidableEq C] (key : Key C) (r : Registration A C) :
    Bool :=
  match key with
  | .name name => r.name == some name
  | .callback callback => r.callback == callback

/-- `log` has the last call first. An emission that is not under way has nothing due. -/
structure Bus (A C : Type) where
  registry : List (Registration A C) := []
  due : ℕ → Option (List (Registration A C)) := fun _ => none
  emissions : ℕ := 0
  nextSerial : ℕ := 0
  log : List (Call C) := []

namespace Bus

variable {A C : Type}

/-- Some registrations are no more, in the registry and for every emission. -/
def forget (b : Bus A C) (gone : Registration A C → Bool) : Bus A C :=
  { b with
    registry := b.registry.filter fun r => !gone r
    due := fun emission => (b.due emission).map fun due => due.filter fun r => !gone r }

def setDue (b : Bus A C) (emission : ℕ) (due : Option (List (Registration A C))) : Bus A C :=
  { b with due := Function.update b.due emission due }

def call (emission : ℕ) (r : Registration A C) : Call C :=
  ⟨emission, r.serial, r.once, r.callback⟩

/-- The turn of the next registration due, which is forgotten first if it is for one call
only; an emission with nothing due is over. -/
def turn (b : Bus A C) (emission : ℕ) : Bus A C :=
  match b.due emission with
  | none => b
  | some [] => b.setDue emission none
  | some (r :: rest) =>
    let left := b.setDue emission (some rest)
    let left := if r.once then left.forget fun other => other.serial == r.serial else left
    { left with log := call emission r :: b.log }

variable [DecidableEq A]

def registered (b : Bus A C) (address : A) (event : ℕ) : List (Registration A C) :=
  b.registry.filter fun r => r.address = address ∧ r.event = event

/-- A name is taken while a registration there has it. -/
def register (b : Bus A C) (address : A) (event : ℕ) (callback : C) (name : Option String)
    (once : Bool) : Bus A C :=
  if name.isSome ∧ ∃ r ∈ b.registered address event, r.name = name then
    b
  else
    { b with
      registry := b.registry ++ [⟨b.nextSerial, address, event, name, callback, once⟩]
      nextSerial := b.nextSerial + 1 }

variable [DecidableEq C]

/-- `stop` names a registration, or all those with one callback, that are still in the
registry. -/
def stop (b : Bus A C) (address : A) (event : ℕ) (key : Key C) : Bus A C :=
  b.forget fun r => decide (r ∈ b.registered address event) && r.matches key

/-- One action of a bus. `inOrder` says of an emission whether its calls must be in the order
of registration; without it they may be in any order. -/
def Next (inOrder : Prop) (b : Bus A C) (action : Action A C) (b' : Bus A C) : Prop :=
  match action with
  | .observe address event callback name => b' = b.register address event callback name false
  | .once address event callback name => b' = b.register address event callback name true
  | .stop address event key => b' = b.stop address event key
  | .clear address =>
    b' = { b with registry := b.registry.filter fun r => r.address ≠ address }
  | .reset => b' = { b with registry := [] }
  | .emit address event | .deliver address event =>
    ∃ due, due.Perm (b.registered address event) ∧
      (inOrder → due = b.registered address event) ∧
      b' = { b.setDue b.emissions (some due) with emissions := b.emissions + 1 }
  | .advance emission _ => b' = b.turn emission
  | .failure emission _ => b' = b.setDue emission none

end Bus

end Nupp.events

/-! No emission calls a registration twice, and a once registration is called once only. -/

namespace Nupp.events.Bus

variable {A C : Type}

/-- A registration that may still be called. -/
def Holds (b : Bus A C) (r : Registration A C) : Prop :=
  r ∈ b.registry ∨ ∃ emission due, b.due emission = some due ∧ r ∈ due

structure Tidy (b : Bus A C) : Prop where
  registry : (b.registry.map Registration.serial).Nodup
  due : ∀ emission due, b.due emission = some due → (due.map Registration.serial).Nodup
  below : ∀ r, b.Holds r → r.serial < b.nextSerial
  begun : ∀ emission, b.emissions ≤ emission →
    b.due emission = none ∧ ∀ c ∈ b.log, c.emission ≠ emission
  apart : ∀ emission due, b.due emission = some due → ∀ r ∈ due, ∀ c ∈ b.log,
    c.emission = emission → c.serial ≠ r.serial
  used : ∀ c ∈ b.log, c.once = true →
    c.serial < b.nextSerial ∧ ∀ r, b.Holds r → r.serial ≠ c.serial
  calls : (b.log.map fun c => (c.emission, c.serial)).Nodup
  onces : ((b.log.filter Call.once).map Call.serial).Nodup

theorem tidy_start : Tidy ({} : Bus A C) where
  registry := List.nodup_nil
  due := by simp
  below := by simp [Holds]
  begun := by simp
  apart := by simp
  used := by simp
  calls := List.nodup_nil
  onces := List.nodup_nil

variable {b b' : Bus A C}

/-- What may still be called can shrink, or be shared with an emission that begins. -/
theorem Tidy.shrink (h : Tidy b) (hregistry : b'.registry.Sublist b.registry)
    (hdue : ∀ emission due, b'.due emission = some due →
      (due.map Registration.serial).Nodup ∧ (∀ r ∈ due, b.Holds r) ∧
        ((∃ old, b.due emission = some old ∧ ∀ r ∈ due, r ∈ old) ∨
          (emission = b.emissions ∧ b'.emissions = b.emissions + 1)))
    (hserial : b'.nextSerial = b.nextSerial) (hlog : b'.log = b.log)
    (hbegun : b.emissions ≤ b'.emissions) : Tidy b' := by
  have hholds (r : Registration A C) (hr : b'.Holds r) : b.Holds r := by
    rcases hr with hr | ⟨emission, due, hsome, hr⟩
    · exact .inl (hregistry.subset hr)
    · exact (hdue emission due hsome).2.1 r hr
  refine ⟨h.registry.sublist (hregistry.map _), fun emission due hsome =>
    (hdue emission due hsome).1, ?_, ?_, ?_, ?_, ?_, ?_⟩
  · intro r hr
    rw [hserial]
    exact h.below r (hholds r hr)
  · intro emission hle
    rw [hlog]
    have hold := h.begun emission (Nat.le_trans hbegun hle)
    refine ⟨?_, hold.2⟩
    cases hsome : b'.due emission with
    | none => rfl
    | some due =>
      obtain ⟨-, -, ⟨old, hsame, -⟩ | ⟨rfl, hnext⟩⟩ := hdue emission due hsome
      · rw [hold.1] at hsame
        exact absurd hsame (by simp)
      · omega
  · intro emission due hsome r hr c hc hemission
    rw [hlog] at hc
    obtain ⟨-, -, ⟨old, hsame, hmem⟩ | ⟨rfl, -⟩⟩ := hdue emission due hsome
    · exact h.apart emission old hsame r (hmem r hr) c hc hemission
    · exact absurd hemission ((h.begun _ (Nat.le_refl _)).2 c hc)
  · intro c hc honce
    rw [hlog] at hc
    rw [hserial]
    obtain ⟨hlt, hunused⟩ := h.used c hc honce
    exact ⟨hlt, fun r hr => hunused r (hholds r hr)⟩
  · rw [hlog]
    exact h.calls
  · rw [hlog]
    exact h.onces

theorem Tidy.forget (h : Tidy b) (gone : Registration A C → Bool) : Tidy (b.forget gone) := by
  refine h.shrink List.filter_sublist ?_ rfl rfl (Nat.le_refl _)
  intro emission due hsome
  obtain ⟨old, hold, rfl⟩ := Option.map_eq_some_iff.mp hsome
  have hmem : ∀ r ∈ old.filter fun r => !gone r, r ∈ old := fun r hr => (List.mem_filter.mp hr).1
  exact ⟨(h.due emission old hold).sublist (List.filter_sublist.map _),
    fun r hr => .inr ⟨emission, old, hold, hmem r hr⟩, .inl ⟨old, hold, hmem⟩⟩

theorem Tidy.ended (h : Tidy b) (emission : ℕ) : Tidy (b.setDue emission none) := by
  refine h.shrink (List.Sublist.refl _) ?_ rfl rfl (Nat.le_refl _)
  intro other due hsome
  have hsome' : Function.update b.due emission none other = some due := hsome
  by_cases hsame : other = emission
  · rw [hsame, Function.update_self] at hsome'
    exact absurd hsome' (by simp)
  · rw [Function.update_of_ne hsame] at hsome'
    exact ⟨h.due other due hsome', fun r hr => .inr ⟨other, due, hsome', hr⟩,
      .inl ⟨due, hsome', fun _ hr => hr⟩⟩

/-- A call that is due nowhere any more, and that was not made before. -/
theorem Tidy.logged (h : Tidy b) (c : Call C) (hemission : c.emission < b.emissions)
    (hserial : c.serial < b.nextSerial)
    (hdue : ∀ due, b.due c.emission = some due → ∀ r ∈ due, r.serial ≠ c.serial)
    (honce : c.once = true → ∀ r, b.Holds r → r.serial ≠ c.serial)
    (hnew : ∀ old ∈ b.log, old.emission = c.emission → old.serial ≠ c.serial)
    (hused : ∀ old ∈ b.log, old.once = true → old.serial ≠ c.serial) :
    Tidy { b with log := c :: b.log } where
  registry := h.registry
  due := h.due
  below := h.below
  begun := by
    intro emission hle
    refine ⟨(h.begun emission hle).1, fun old hold => ?_⟩
    rcases List.mem_cons.mp hold with rfl | hold
    · exact Nat.ne_of_lt (Nat.lt_of_lt_of_le hemission hle)
    · exact (h.begun emission hle).2 old hold
  apart := by
    intro emission due hsome r hr old hold hsame
    rcases List.mem_cons.mp hold with rfl | hold
    · exact fun heq => hdue due (hsame ▸ hsome) r hr heq.symm
    · exact h.apart emission due hsome r hr old hold hsame
  used := by
    intro old hold hflag
    rcases List.mem_cons.mp hold with rfl | hold
    · exact ⟨hserial, honce hflag⟩
    · exact h.used old hold hflag
  calls := by
    refine List.nodup_cons.mpr ⟨fun hmem => ?_, h.calls⟩
    obtain ⟨old, hold, hsame⟩ := List.mem_map.mp hmem
    obtain ⟨hfirst, hsecond⟩ := Prod.mk.inj hsame
    exact hnew old hold hfirst hsecond
  onces := by
    cases hflag : c.once with
    | false =>
      simp only [List.filter_cons, hflag, Bool.false_eq_true, if_false]
      exact h.onces
    | true =>
      simp only [List.filter_cons, hflag, if_true]
      refine List.nodup_cons.mpr ⟨fun hmem => ?_, h.onces⟩
      obtain ⟨old, hold, hsame⟩ := List.mem_map.mp hmem
      obtain ⟨hmember, honce'⟩ := List.mem_filter.mp hold
      exact hused old hmember honce' hsame

theorem Tidy.turn (h : Tidy b) (emission : ℕ) : Tidy (b.turn emission) := by
  unfold Bus.turn
  split
  · exact h
  · exact h.ended emission
  · next r rest hdue =>
    have hnodup := h.due emission _ hdue
    obtain ⟨hfresh, hrest⟩ := List.nodup_cons.mp hnodup
    have hheld : b.Holds r := .inr ⟨emission, _, hdue, List.mem_cons_self⟩
    have hset : Tidy (b.setDue emission (some rest)) := by
      refine h.shrink (List.Sublist.refl _) ?_ rfl rfl (Nat.le_refl _)
      intro other due hsome
      have hsome' : Function.update b.due emission (some rest) other = some due := hsome
      by_cases hsame : other = emission
      · rw [hsame, Function.update_self] at hsome'
        obtain rfl := Option.some.inj hsome'
        rw [hsame]
        exact ⟨hrest, fun s hs => .inr ⟨emission, _, hdue, List.mem_cons_of_mem _ hs⟩,
          .inl ⟨_, hdue, fun s hs => List.mem_cons_of_mem _ hs⟩⟩
      · rw [Function.update_of_ne hsame] at hsome'
        exact ⟨h.due other due hsome', fun s hs => .inr ⟨other, due, hsome', hs⟩,
          .inl ⟨due, hsome', fun _ hs => hs⟩⟩
    have hstarted : emission < b.emissions := by
      by_contra hle
      rw [(h.begun emission (Nat.le_of_not_lt hle)).1] at hdue
      exact absurd hdue (by simp)
    have hleft : ∀ s ∈ rest, s.serial ≠ r.serial :=
      fun s hs hsame => hfresh (hsame ▸ List.mem_map_of_mem hs)
    have hnew : ∀ old ∈ b.log, old.emission = emission → old.serial ≠ r.serial :=
      fun old hold hsame => h.apart emission _ hdue r List.mem_cons_self old hold hsame
    have hused : ∀ old ∈ b.log, old.once = true → old.serial ≠ r.serial :=
      fun old hold honce heq => (h.used old hold honce).2 r hheld heq.symm
    have hrestDue : (b.setDue emission (some rest)).due emission = some rest :=
      Function.update_self ..
    cases honce : r.once with
    | false =>
      simp only [Bool.false_eq_true, if_false]
      refine hset.logged (call emission r) hstarted (h.below r hheld) ?_ ?_ hnew hused
      · intro due hsome
        obtain rfl := Option.some.inj (hrestDue.symm.trans hsome)
        exact hleft
      · exact fun hflag => absurd (honce.symm.trans hflag) (by simp)
    | true =>
      simp only [if_true]
      refine (hset.forget fun other => other.serial == r.serial).logged (call emission r) hstarted
        (h.below r hheld) ?_ ?_ hnew hused
      · intro due hsome
        obtain ⟨old, hold, rfl⟩ := Option.map_eq_some_iff.mp hsome
        obtain rfl := Option.some.inj (hrestDue.symm.trans hold)
        exact fun s hs => hleft s (List.mem_filter.mp hs).1
      · intro _ s hs
        rcases hs with hs | ⟨other, due, hsome, hs⟩
        · have hne : ¬s.serial = r.serial := by simpa using (List.mem_filter.mp hs).2
          exact hne
        · obtain ⟨old, -, rfl⟩ := Option.map_eq_some_iff.mp hsome
          have hne : ¬s.serial = r.serial := by simpa using (List.mem_filter.mp hs).2
          exact hne

variable [DecidableEq A]

theorem Tidy.register (h : Tidy b) (address : A) (event : ℕ) (callback : C)
    (name : Option String) (once : Bool) :
    Tidy (b.register address event callback name once) := by
  unfold Bus.register
  split
  · exact h
  have hholds (r : Registration A C)
      (hr : Holds { b with
        registry := b.registry ++ [⟨b.nextSerial, address, event, name, callback, once⟩]
        nextSerial := b.nextSerial + 1 } r) : b.Holds r ∨ r.serial = b.nextSerial := by
    rcases hr with hr | hr
    · rcases List.mem_append.mp hr with hold | hnew
      · exact .inl (.inl hold)
      · rw [List.mem_singleton.mp hnew]
        exact .inr rfl
    · exact .inl (.inr hr)
  refine ⟨?_, h.due, ?_, h.begun, h.apart, ?_, h.calls, h.onces⟩
  · rw [List.map_append]
    refine List.nodup_append.mpr ⟨h.registry, List.nodup_singleton _, ?_⟩
    intro serial hmem other hother hsame
    obtain ⟨r, hr, rfl⟩ := List.mem_map.mp hmem
    have hlast : other = b.nextSerial := List.mem_singleton.mp hother
    have hlt := h.below r (.inl hr)
    omega
  · intro r hr
    simp only
    rcases hholds r hr with hold | hnew
    · have hlt := h.below r hold
      omega
    · omega
  · intro c hc honce
    obtain ⟨hlt, hunused⟩ := h.used c hc honce
    simp only
    refine ⟨by omega, fun r hr => ?_⟩
    rcases hholds r hr with hold | hnew
    · exact hunused r hold
    · omega

variable [DecidableEq C]

theorem Tidy.next (h : Tidy b) {inOrder : Prop} {action : Action A C}
    (hnext : b.Next inOrder action b') : Tidy b' := by
  have hemit (address : A) (event : ℕ) (due : List (Registration A C))
      (hperm : due.Perm (b.registered address event)) :
      Tidy { b.setDue b.emissions (some due) with emissions := b.emissions + 1 } := by
    refine h.shrink (List.Sublist.refl _) ?_ rfl rfl (Nat.le_succ _)
    intro other held hsome
    have hsome' : Function.update b.due b.emissions (some due) other = some held := hsome
    by_cases hsame : other = b.emissions
    · rw [hsame, Function.update_self] at hsome'
      obtain rfl := Option.some.inj hsome'
      refine ⟨?_, fun r hr => .inl ?_, .inr ⟨hsame, rfl⟩⟩
      · exact (hperm.map _).nodup_iff.mpr (h.registry.sublist (List.filter_sublist.map _))
      · exact (List.mem_filter.mp (hperm.mem_iff.mp hr)).1
    · rw [Function.update_of_ne hsame] at hsome'
      exact ⟨h.due other held hsome', fun r hr => .inr ⟨other, held, hsome', hr⟩,
        .inl ⟨held, hsome', fun _ hr => hr⟩⟩
  have hkept (kept : Registration A C → Bool) : Tidy { b with registry := b.registry.filter kept } :=
    h.shrink List.filter_sublist (fun other due hsome => ⟨h.due other due hsome,
      fun r hr => .inr ⟨other, due, hsome, hr⟩, .inl ⟨due, hsome, fun _ hr => hr⟩⟩) rfl rfl
      (Nat.le_refl _)
  cases action with
  | observe address event callback name =>
    obtain rfl := hnext
    exact h.register address event callback name false
  | once address event callback name =>
    obtain rfl := hnext
    exact h.register address event callback name true
  | stop address event key =>
    obtain rfl := hnext
    exact h.forget _
  | clear address =>
    obtain rfl := hnext
    exact hkept _
  | reset =>
    obtain rfl := hnext
    have hnone := hkept fun _ => false
    rwa [List.filter_false] at hnone
  | emit address event =>
    obtain ⟨due, hperm, -, rfl⟩ := hnext
    exact hemit address event due hperm
  | deliver address event =>
    obtain ⟨due, hperm, -, rfl⟩ := hnext
    exact hemit address event due hperm
  | advance emission rewinds =>
    obtain rfl := hnext
    exact h.turn emission
  | failure emission rewinds =>
    obtain rfl := hnext
    exact h.ended emission

end Nupp.events.Bus
