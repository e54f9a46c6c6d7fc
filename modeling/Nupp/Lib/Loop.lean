import Mathlib.Data.Nat.Notation

/-! Loops that run a step until it answers, with the rule that proves them total, an
invariant and a variant that every further step decreases, and the rule for those that
have answered. Machines asked again and again, which answer as another one that they follow. -/

namespace Nupp.Loop

variable {σ α : Type*}

/-- Runs `step` until it answers, at most `n` times. A step may itself fail to
answer. -/
def loop (step : σ → Option (σ ⊕ α)) : ℕ → σ → Option α
  | 0, _ => none
  | n + 1, s =>
    match step s with
    | none => none
    | some (.inl s) => loop step n s
    | some (.inr a) => some a

/-- One step keeps the invariant and decreases the variant, or ends in `post`. -/
def Advances (step : σ → Option (σ ⊕ α)) (inv : σ → Prop) (variant : σ → ℕ) (post : α → Prop) : Prop :=
  ∀ s, inv s → (∃ s', step s = some (.inl s') ∧ inv s' ∧ variant s' < variant s) ∨
    ∃ a, step s = some (.inr a) ∧ post a

theorem loop_total {step : σ → Option (σ ⊕ α)} {inv : σ → Prop} {variant : σ → ℕ} {post : α → Prop}
    (h : Advances step inv variant post) {n : ℕ} {s : σ} (hs : inv s) (hn : variant s < n) :
    ∃ a, loop step n s = some a ∧ post a := by
  induction n generalizing s with
  | zero => omega
  | succ n ih =>
    rcases h s hs with ⟨s', hstep, hs', hlt⟩ | ⟨a, hstep, ha⟩
    · obtain ⟨a, hrun, ha⟩ := ih hs' (by omega)
      exact ⟨a, by simp only [loop, hstep, hrun], ha⟩
    · exact ⟨a, by simp only [loop, hstep], ha⟩

/-- The rule where the variant is no function of the state: the invariant says how many steps are left. -/
theorem loop_ranked {step : σ → Option (σ ⊕ α)} {inv : ℕ → σ → Prop} {post : α → Prop}
    (h : ∀ n s, inv n s → (∃ s' m, step s = some (.inl s') ∧ inv m s' ∧ m < n) ∨
      ∃ a, step s = some (.inr a) ∧ post a) {n m : ℕ} {s : σ} (hs : inv n s) (hn : n < m) :
    ∃ a, loop step m s = some a ∧ post a := by
  induction m generalizing n s with
  | zero => omega
  | succ m ih =>
    rcases h n s hs with ⟨s', k, hstep, hs', hlt⟩ | ⟨a, hstep, ha⟩
    · obtain ⟨a, hrun, ha⟩ := ih hs' (show k < m by omega)
      exact ⟨a, by simp only [loop, hstep, hrun], ha⟩
    · exact ⟨a, by simp only [loop, hstep], ha⟩

/-- What every step keeps and every answer follows from holds of the answer of a loop. -/
theorem loop_sound {step : σ → Option (σ ⊕ α)} {inv : σ → Prop} {post : α → Prop}
    (hkeep : ∀ s s', inv s → step s = some (.inl s') → inv s')
    (hend : ∀ s a, inv s → step s = some (.inr a) → post a) {n : ℕ} {s : σ} {a : α} (hs : inv s)
    (h : loop step n s = some a) : post a := by
  induction n generalizing s with
  | zero => cases h
  | succ n ih =>
    simp only [loop] at h
    split at h
    case h_1 => cases h
    case h_2 s' hstep => exact ih (hkeep s s' hs hstep) h
    case h_3 b hstep =>
      cases h
      exact hend s a hs hstep

variable {τ : Type*}

/-- The answers of a machine that may fail to answer, asked `k` times. -/
def answers (ask : σ → Option (α × σ)) : ℕ → σ → Option (List α)
  | 0, _ => some []
  | k + 1, s => (ask s).bind fun x => (answers ask k x.2).map (x.1 :: ·)

/-- The answers of a machine that always answers. -/
def stream (next : τ → α × τ) : ℕ → τ → List α
  | 0, _ => []
  | k + 1, t => (next t).1 :: stream next k (next t).2

/-- A machine that follows another gives its answers. -/
theorem answers_eq_stream {ask : σ → Option (α × σ)} {next : τ → α × τ} {follows : σ → τ → Prop}
    (h : ∀ s t, follows s t → ∃ s', ask s = some ((next t).1, s') ∧ follows s' (next t).2) {s : σ} {t : τ}
    (hst : follows s t) (k : ℕ) : answers ask k s = some (stream next k t) := by
  induction k generalizing s t with
  | zero => rfl
  | succ k ih =>
    obtain ⟨s', hask, hs'⟩ := h s t hst
    rw [answers, hask, Option.bind_some, ih hs']
    rfl

end Nupp.Loop
