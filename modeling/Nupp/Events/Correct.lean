import Nupp.Events.MatchSteps

/-! A bus delivers what its registry says, in every history that keeps the count exact. -/

namespace Nupp.events

variable {A C : Type} [DecidableEq A] [DecidableEq C]

/-- An emission calls in the order of registration unless a compaction has shuffled the list
it is about to hold. -/
def InOrder (world : World A C) : Action A C → Prop
  | .emit address event | .deliver address event =>
    (world.observers.listOf address event).shuffled = false
  | _ => True

/-- A bus that has gone through a history one action at a time. -/
inductive Follows : List (Action A C) → Bus A C → Prop where
  | start : Follows [] {}
  | step {actions : List (Action A C)} {action : Action A C} {b b' : Bus A C} :
    Follows actions b → b.Next (InOrder (run actions) action) action b' →
      Follows (actions ++ [action]) b'

theorem Follows.tidy {actions : List (Action A C)} {b : Bus A C} (h : Follows actions b) :
    b.Tidy := by
  induction h with
  | start => exact Bus.tidy_start
  | step _ hnext ih => exact ih.next hnext

theorem match_step {w : World A C} {b : Bus A C} (hinv : Inv w) (h : Matches w b)
    (hcounted : Counted w) (action : Action A C) :
    ∃ b', b.Next (InOrder w action) action b' ∧ Matches (w.step action) b' := by
  cases action with
  | observe address event callback name =>
    exact ⟨_, rfl, match_register hinv h address event callback name false⟩
  | once address event callback name =>
    exact ⟨_, rfl, match_register hinv h address event callback name true⟩
  | stop address event key => exact ⟨_, rfl, match_stop hinv h hcounted address event key⟩
  | clear address => exact ⟨_, rfl, match_clear hinv h address⟩
  | reset => exact ⟨_, rfl, match_reset hinv h⟩
  | emit address event =>
    obtain ⟨due, hperm, horder, hmatch⟩ := match_begin hinv h hcounted address event
    exact ⟨_, ⟨due, hperm, horder, rfl⟩, hmatch⟩
  | deliver address event =>
    obtain ⟨due, hperm, horder, hmatch⟩ := match_begin hinv h hcounted address event
    exact ⟨_, ⟨due, hperm, horder, rfl⟩, hmatch⟩
  | advance emission rewinds => exact ⟨_, rfl, match_advance hinv h emission rewinds⟩
  | failure emission rewinds => exact ⟨_, rfl, match_fail hinv h emission rewinds⟩

theorem run_matches (actions : List (Action A C))
    (hnever : ∀ before action, before ++ [action] <+: actions →
      ¬ConsumesDetached (run before) action) :
    ∃ b, Follows actions b ∧ Matches (run actions) b ∧ missed (run actions).observers = 0 := by
  induction actions using List.reverseRecOn with
  | nil => exact ⟨_, .start, matches_start, rfl⟩
  | append_singleton actions action ih =>
    obtain ⟨b, hfollows, hmatch, hmissed⟩ := ih fun before other hinitial =>
      hnever before other (hinitial.trans (List.prefix_append _ _))
    have hinv := run_inv actions
    obtain ⟨b', hnext, hmatch'⟩ := match_step hinv hmatch (counted_of_missed hmissed) action
    have hstep := (step_inv hinv action).2.2 (hnever actions action (List.prefix_refl _))
    rw [run_snoc]
    exact ⟨b', hfollows.step hnext, hmatch', hstep.trans hmissed⟩

/-- The serials an emission has called, in the order of the calls. -/
def serialsOf (w : World A C) (emission : ℕ) : List ℕ :=
  (w.log.reverse.filter fun c => c.emission = emission).map Call.serial

end Nupp.events
