import Mathlib.Data.List.Basic
import Mathlib.Logic.Relation

/-! Computations that read keyed values from an environment and are otherwise
pure: a decision tree over the answers. -/

namespace Nupp.Reads

/-- A pure computation that reads values of type `V` under keys of type `ι`; a read that fails
leaves it to the computation what to do. -/
inductive Comp (ι V E : Type*)
  | ret (value : V)
  | raise (error : E)
  | read (key : ι) (cont : Except E V → Comp ι V E)

variable {ι V E : Type*}

namespace Comp

/-- A read whose failure is not caught. -/
def get (key : ι) (cont : V → Comp ι V E) : Comp ι V E :=
  .read key fun
    | .ok value => cont value
    | .error e => .raise e

/-- The result of a computation in an environment. -/
def run (env : ι → V) : Comp ι V E → Except E V
  | ret v => .ok v
  | raise e => .error e
  | read key cont => run env (cont (.ok (env key)))

/-- What is left of a computation once its first reads were `log`. -/
inductive Follows : Comp ι V E → List (ι × V) → Comp ι V E → Prop
  | refl (c : Comp ι V E) : Follows c [] c
  | read {key : ι} {cont : Except E V → Comp ι V E} {value : V} {log : List (ι × V)}
      {c : Comp ι V E} (h : Follows (cont (.ok value)) log c) : Follows (.read key cont) ((key, value) :: log) c

theorem Follows.append {c d e : Comp ι V E} {log log' : List (ι × V)} (h : Follows c log d)
    (h' : Follows d log' e) : Follows c (log ++ log') e := by
  induction h with
  | refl => exact h'
  | read _ ih => exact .read (ih h')

theorem Follows.snoc {c : Comp ι V E} {log : List (ι × V)} {key : ι}
    {cont : Except E V → Comp ι V E} (h : Follows c log (.read key cont)) (value : V) :
    Follows c (log ++ [(key, value)]) (cont (.ok value)) :=
  h.append (.read (.refl _))

theorem Follows.run_eq {c : Comp ι V E} {log : List (ι × V)} {value : V}
    (h : Follows c log (.ret value)) {env : ι → V} (henv : ∀ x ∈ log, env x.1 = x.2) :
    run env c = .ok value := by
  generalize hr : (Comp.ret value : Comp ι V E) = r at h
  induction h with
  | refl => subst hr; rfl
  | read _ ih =>
    rw [run, henv _ List.mem_cons_self]
    exact ih (fun x hx => henv x (List.mem_cons_of_mem _ hx)) hr

/-- Before a read of its log, a computation was about to make that read. -/
theorem Follows.split {c d : Comp ι V E} {log : List (ι × V)} {key : ι} {value : V}
    {rest : List (ι × V)} (h : Follows c (log ++ (key, value) :: rest) d) :
    ∃ cont, Follows c log (.read key cont) := by
  induction log generalizing c with
  | nil =>
    cases h with
    | read _ => exact ⟨_, .refl _⟩
  | cons x log ih =>
    cases h with
    | read h =>
      obtain ⟨cont, hcont⟩ := ih h
      exact ⟨cont, .read hcont⟩

end Comp

/-- A log in which every key was answered once and for all. -/
def Consistent (log : List (ι × V)) : Prop :=
  ∀ x ∈ log, ∀ y ∈ log, x.1 = y.1 → x.2 = y.2

theorem Consistent.of_append_left {log log' : List (ι × V)} (h : Consistent (log ++ log')) :
    Consistent log :=
  fun x hx y hy => h x (List.mem_append_left _ hx) y (List.mem_append_left _ hy)

/-- The environment of a log, completed by another one. -/
def extend [DecidableEq ι] (log : List (ι × V)) (env : ι → V) (key : ι) : V :=
  ((log.find? fun x => x.1 = key).map (·.2)).getD (env key)

theorem extend_of_mem [DecidableEq ι] {log : List (ι × V)} (h : Consistent log) (env : ι → V)
    {x : ι × V} (hx : x ∈ log) : extend log env x.1 = x.2 := by
  unfold extend
  cases hf : log.find? fun y => y.1 = x.1 with
  | none =>
    rw [List.find?_eq_none] at hf
    exact absurd (by simp) (hf x hx)
  | some y =>
    have hy := List.find?_some hf
    simp only [decide_eq_true_eq] at hy
    exact h y (List.mem_of_find?_eq_some hf) x hx hy

theorem extend_of_not_mem [DecidableEq ι] {log : List (ι × V)} {env : ι → V} {key : ι}
    (h : ∀ x ∈ log, x.1 ≠ key) : extend log env key = env key := by
  have hf : (log.find? fun x => x.1 = key) = none := by
    rw [List.find?_eq_none]
    simpa using h
  simp [extend, hf]

section Respects

variable [DecidableEq ι] (eqv : ι → V → V → Prop)

/-- Environments equal up to `eqv` give results equal up to `eqv`. -/
def Respects (owner : ι) (c : Comp ι V E) : Prop :=
  ∀ env env' v v', (∀ key, eqv key (env key) (env' key)) → c.run env = .ok v → c.run env' = .ok v' →
    eqv owner v v'

/-- The same for two logs, which answer only the keys they read. -/
theorem Respects.logs {eqv : ι → V → V → Prop} {owner : ι} {c : Comp ι V E} (h : Respects eqv owner c)
    (hrefl : ∀ key v, eqv key v v) (env : ι → V) {log log' : List (ι × V)} {v v' : V}
    (hf : c.Follows log (.ret v)) (hf' : c.Follows log' (.ret v')) (hc : Consistent log)
    (hc' : Consistent log') (hrel : ∀ x ∈ log, ∀ y ∈ log', x.1 = y.1 → eqv x.1 x.2 y.2) :
    eqv owner v v' := by
  refine h (extend log (extend log' env)) (extend log' (extend log env)) v v' ?_
    (hf.run_eq fun x hx => extend_of_mem hc _ hx) (hf'.run_eq fun x hx => extend_of_mem hc' _ hx)
  intro key
  by_cases hk : ∃ x ∈ log, x.1 = key
  · obtain ⟨x, hx, rfl⟩ := hk
    rw [extend_of_mem hc _ hx]
    by_cases hk' : ∃ y ∈ log', y.1 = x.1
    · obtain ⟨y, hy, he⟩ := hk'
      rw [← he, extend_of_mem hc' _ hy, he]
      exact hrel x hx y hy he.symm
    · rw [extend_of_not_mem fun y hy he => hk' ⟨y, hy, he⟩, extend_of_mem hc _ hx]
      exact hrefl _ _
  · rw [extend_of_not_mem fun x hx he => hk ⟨x, hx, he⟩]
    by_cases hk' : ∃ y ∈ log', y.1 = key
    · obtain ⟨y, hy, rfl⟩ := hk'
      rw [extend_of_mem hc' _ hy, extend_of_mem hc' _ hy]
      exact hrefl _ _
    · rw [extend_of_not_mem fun y hy he => hk' ⟨y, hy, he⟩,
        extend_of_not_mem fun y hy he => hk' ⟨y, hy, he⟩,
        extend_of_not_mem fun x hx he => hk ⟨x, hx, he⟩]
      exact hrefl _ _

end Respects

end Nupp.Reads
