import Mathlib.Data.Nat.Notation
import Mathlib.Tactic.Choose

/-! Recursions whose body is a plan of the questions it asks of itself: what they may ask being
well-founded, they end, and where the first question of each never ends, none does. -/

namespace Nupp

/-- A computation that asks for the answers it goes on with. -/
inductive Plan (α β : Type*)
  | ends (answer : β)
  | ask (question : α) (next : β → Plan α β)

namespace Plan

variable {α β : Type*}

/-- Carries a plan out with the answers of `rec`; `none` where one does not come. -/
def run (rec : α → Option β) : Plan α β → Option β
  | ends answer => some answer
  | ask question next => (rec question).bind fun answer => (next answer).run rec

/-- The recursion whose body is `plan`, calls nested at most `n` deep. -/
def solve (plan : α → Plan α β) : ℕ → α → Option β
  | 0, _ => none
  | n + 1, a => (plan a).run (solve plan n)

/-- What a plan asks, whatever it is answered. -/
def Asks : Plan α β → α → Prop
  | ends _, _ => False
  | ask question next, a => a = question ∨ ∃ answer, (next answer).Asks a

def first : Plan α β → Option α
  | ends _ => none
  | ask question _ => some question

/-- From some depth on, the answer is there and stays. -/
def Settles (f : ℕ → Option β) : Prop := ∃ n answer, ∀ m, n ≤ m → f m = some answer

theorem settles_run {rec : ℕ → α → Option β} {p : Plan α β}
    (h : ∀ a, p.Asks a → Settles fun n => rec n a) : Settles fun n => p.run (rec n) := by
  induction p with
  | ends answer => exact ⟨0, answer, fun _ _ => rfl⟩
  | ask question next ih =>
    obtain ⟨n, answer, hn⟩ := h question (.inl rfl)
    obtain ⟨k, result, hk⟩ := ih answer fun a ha => h a (.inr ⟨answer, ha⟩)
    refine ⟨max n k, result, fun m hm => ?_⟩
    have hask : rec m question = some answer := hn m (Nat.le_trans (Nat.le_max_left n k) hm)
    have hrest := hk m (Nat.le_trans (Nat.le_max_right n k) hm)
    show (rec m question).bind (fun answer => (next answer).run (rec m)) = some result
    rw [hask]
    exact hrest

/-- A recursion ends on what is accessible by its questions. -/
theorem settles_of_acc {plan : α → Plan α β} {calls : α → α → Prop}
    (hcalls : ∀ a b, (plan a).Asks b → calls a b) {a : α} (ha : Acc (fun b a => calls a b) a) :
    Settles fun n => solve plan n a := by
  induction ha with
  | intro a _ ih =>
    have hsettles : Settles fun n => (plan a).run (solve plan n) := settles_run fun b hb => ih b (hcalls a b hb)
    obtain ⟨n, answer, hn⟩ := hsettles
    refine ⟨n + 1, answer, fun m hm => ?_⟩
    obtain ⟨m, rfl⟩ : ∃ k, m = k + 1 := ⟨m - 1, by omega⟩
    exact hn m (by omega)

/-- Where the first question of each is one of its kind again, no depth is enough. -/
theorem solve_of_first {plan : α → Plan α β} {stuck : α → Prop}
    (h : ∀ a, stuck a → ∃ b, (plan a).first = some b ∧ stuck b) (n : ℕ) {a : α} (ha : stuck a) :
    solve plan n a = none := by
  induction n generalizing a with
  | zero => rfl
  | succ n ih =>
    obtain ⟨b, hfirst, hb⟩ := h a ha
    show (plan a).run (solve plan n) = none
    cases hplan : plan a with
    | ends answer =>
      rw [hplan] at hfirst
      cases hfirst
    | ask question next =>
      rw [hplan] at hfirst
      cases hfirst
      show (solve plan n b).bind _ = none
      rw [ih hb, Option.bind_none]

variable {γ : Type*} {plan : γ → α → Plan α β} {calls : α → α → Prop}

/-- A recursion that may ask its questions in any order ends in every order exactly on what is
accessible by them. -/
theorem ends_iff_acc (hcalls : ∀ order a b, (plan order a).Asks b → calls a b)
    (hfirst : ∀ next : α → α, ∃ order, ∀ a, calls a (next a) → (plan order a).first = some (next a)) (a : α) :
    (∀ order, ∃ n, (solve (plan order) n a).isSome = true) ↔ Acc (fun b a => calls a b) a := by
  constructor
  · intro hends
    by_contra hacc
    have hnext : ∀ a, ∃ b, ¬Acc (fun b a => calls a b) a → calls a b ∧ ¬Acc (fun b a => calls a b) b := by
      intro a
      by_cases ha : Acc (fun b a => calls a b) a
      · exact ⟨a, fun h => absurd ha h⟩
      · have hnot : ¬∀ b, calls a b → Acc (fun b a => calls a b) b := fun h => ha ⟨a, h⟩
        obtain ⟨b, hb⟩ := Classical.not_forall.mp hnot
        exact ⟨b, fun _ => Classical.not_imp.mp hb⟩
    choose next hnext using hnext
    obtain ⟨order, horder⟩ := hfirst next
    obtain ⟨n, hn⟩ := hends order
    have hstep : ∀ a, ¬Acc (fun b a => calls a b) a →
        ∃ b, (plan order a).first = some b ∧ ¬Acc (fun b a => calls a b) b := fun a ha =>
      ⟨next a, horder a (hnext a ha).1, (hnext a ha).2⟩
    have hstuck : solve (plan order) n a = none := solve_of_first hstep n hacc
    rw [hstuck] at hn
    cases hn
  · intro hacc order
    obtain ⟨n, answer, hn⟩ := settles_of_acc (hcalls order) hacc
    exact ⟨n, Option.isSome_iff_exists.mpr ⟨answer, hn n (Nat.le_refl n)⟩⟩

end Plan

end Nupp
