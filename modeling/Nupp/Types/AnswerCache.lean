import Mathlib.Logic.Function.Basic
import Nupp.Lib.Coinduction
import Mathlib.Data.Finset.Card
import Mathlib.Tactic.Tauto

/-! The cache and the assumptions of `types/relations`. A type is the table it is, with the
id it is interned under; `check` is the tree of what it asks of a pair, and of the table
`surfaceOwner` that it keeps besides. -/

namespace Nupp.relations

/-- What a rule asks, and then answers. -/
inductive Comparison (Ty : Type) (α : Type) where
  | done (value : α)
  | isA (a b : Ty) (next : Bool → Comparison Ty α)
  /-- `surfaceOwner[shape]`. -/
  | owner (shape : Ty) (next : Option Ty → Comparison Ty α)
  /-- `surfaceOwner[shape] = t`. -/
  | own (shape t : Ty) (next : Comparison Ty α)

namespace Comparison

variable {Ty α β : Type}

def bind (f : α → Comparison Ty β) : Comparison Ty α → Comparison Ty β
  | .done value => f value
  | .isA a b next => .isA a b fun ok => (next ok).bind f
  | .owner shape next => .owner shape fun t => (next t).bind f
  | .own shape t next => .own shape t (next.bind f)

instance : Monad (Comparison Ty) where
  pure := .done
  bind c f := c.bind f

end Comparison

/-- The rules for the types as they are, nominals with them. -/
abbrev Rules (Ty : Type) := Ty → Ty → Comparison Ty Bool

/-- `consulted` records what was read out of `surfaceOwner`. -/
structure State (Ty : Type) where
  cache : Ty × Ty → Option Bool
  cachedAt : ℕ
  generation : ℕ
  assuming : Ty × Ty → Bool
  assumptionDepth : ℕ
  usedAssumption : Bool
  surfaceOwner : Ty → Option Ty
  consulted : List (Ty × Option Ty)

def State.initial (Ty : Type) : State Ty where
  cache _ := none
  cachedAt := 0
  generation := 0
  assuming _ := false
  assumptionDepth := 0
  usedAssumption := false
  surfaceOwner _ := none
  consulted := []

section Queries

variable {Ty Id : Type} [DecidableEq Ty] [DecidableEq Id] (id : Ty → Id)

def Comparison.run (isA : Ty → Ty → State Ty → Option (Bool × State Ty)) :
    Comparison Ty Bool → State Ty → Option (Bool × State Ty)
  | .done ok, s => some (ok, s)
  | .isA a b next, s =>
    match isA a b s with
    | none => none
    | some (ok, s) => (next ok).run isA s
  | .owner shape next, s =>
    (next (s.surfaceOwner shape)).run isA
      { s with consulted := (shape, s.surfaceOwner shape) :: s.consulted }
  | .own shape t next, s =>
    next.run isA { s with surfaceOwner := Function.update s.surfaceOwner shape (some t) }

/-- The answers of an earlier generation are dropped. -/
def State.current (s : State Ty) : State Ty :=
  if s.cachedAt ≠ s.generation then
    { s with cache := fun _ => none, cachedAt := s.generation }
  else s

/-- The pair is assumed to hold while it is decided. -/
def State.assume (s : State Ty) (p : Ty × Ty) : State Ty :=
  { s with
    usedAssumption := if s.assumptionDepth = 0 then false else s.usedAssumption
    assuming := Function.update s.assuming p true
    assumptionDepth := s.assumptionDepth + 1 }

/-- The comparison is over. An answer that leaned on an assumption is not cached. -/
def State.settle (s : State Ty) (outer : ℕ) (p : Ty × Ty) (ok : Bool) : State Ty :=
  { s with
    assumptionDepth := outer
    assuming := Function.update s.assuming p false
    cache := if s.usedAssumption then s.cache else Function.update s.cache p (some ok) }

/-- `n` bounds the nesting. -/
def isA (check : Rules Ty) : ℕ → Ty → Ty → State Ty → Option (Bool × State Ty)
  | 0, _, _, _ => none
  | n + 1, a, b, s =>
    if a = b ∨ id a = id b then some (true, s)
    else
      let s := s.current
      match s.cache (a, b) with
      | some hit => some (hit, s)
      | none =>
        if s.assuming (a, b) then some (true, { s with usedAssumption := true })
        else
          let outer := s.assumptionDepth
          match (check a b).run (isA check n) (s.assume (a, b)) with
          | none => none
          | some (ok, s) => some (ok, s.settle outer (a, b) ok)

def invalidate (s : State Ty) : State Ty := { s with generation := s.generation + 1 }

/-- What happens to the type layer. -/
inductive Event (Ty : Type) where
  | isA (a b : Ty)
  /-- Nominals change, and the rules with them. -/
  | mutate (check : Rules Ty)
  | invalidate

/-- The answers of a run, with the state it ends in. -/
def run (n : ℕ) : List (Event Ty) → Rules Ty → State Ty → Option (List Bool × State Ty)
  | [], _, s => some ([], s)
  | .isA a b :: events, check, s =>
    match isA id check n a b s with
    | none => none
    | some (ok, s) =>
      match run n events check s with
      | none => none
      | some (answers, s) => some (ok :: answers, s)
  | .mutate check :: events, _, s => run n events check s
  | .invalidate :: events, check, s => run n events check (invalidate s)

/-- No question between a mutation and the next `invalidate`. -/
def Invalidated : Bool → List (Event Ty) → Prop
  | _, [] => True
  | mutated, .isA _ _ :: events => mutated = false ∧ Invalidated mutated events
  | _, .mutate _ :: events => Invalidated true events
  | _, .invalidate :: events => Invalidated false events

end Queries

section Reading

/-! The coinductive reading. `ref` is what `surfaceOwner` holds for it. -/

variable {Ty Id : Type} (id : Ty → Id) (ref : Ty → Option Ty)

/-- The comparison answers yes where the pairs of `X` do. -/
def Comparison.Answers (X : Set (Ty × Ty)) : Comparison Ty Bool → Prop
  | .done ok => ok = true
  | .isA a b next => ((a, b) ∈ X ∧ (next true).Answers X) ∨ ((a, b) ∉ X ∧ (next false).Answers X)
  | .owner shape next => (next (ref shape)).Answers X
  | .own _ _ next => next.Answers X

/-- A yes to what is asked never turns a yes into a no. -/
def Comparison.Rises : Comparison Ty Bool → Prop
  | .done _ => True
  | .isA _ _ next => (∀ ok, (next ok).Rises) ∧
      ∀ X, (next false).Answers ref X → (next true).Answers ref X
  | .owner shape next => (next (ref shape)).Rises
  | .own _ _ next => next.Rises

theorem Comparison.answers_mono {c : Comparison Ty Bool} (hrises : c.Rises ref)
    {X Y : Set (Ty × Ty)} (h : X ⊆ Y) (hX : c.Answers ref X) : c.Answers ref Y := by
  induction c with
  | done ok => exact hX
  | isA a b next ih =>
    rcases hX with ⟨hin, hyes⟩ | ⟨hout, hno⟩
    · exact Or.inl ⟨h hin, ih true (hrises.1 true) hyes⟩
    · have hno' := ih false (hrises.1 false) hno
      by_cases hin : (a, b) ∈ Y
      · exact Or.inl ⟨hin, hrises.2 Y hno'⟩
      · exact Or.inr ⟨hin, hno'⟩
  | owner shape next ih => exact ih _ hrises hX
  | own shape t next ih => exact ih hrises hX

/-- One step of the rules, with the exits on identity. -/
def step (check : Rules Ty) (X : Set (Ty × Ty)) : Set (Ty × Ty) :=
  {p | (p.1 = p.2 ∨ id p.1 = id p.2) ∨ (check p.1 p.2).Answers ref X}

/-- The pair is in a set that the rules justify by itself: the greatest fixed point. -/
def Holds (check : Rules Ty) (a b : Ty) : Prop := ∃ X, (a, b) ∈ X ∧ X ⊆ step id ref check X

def Rising (check : Rules Ty) : Prop := ∀ a b, (check a b).Rises ref

theorem step_mono {check : Rules Ty} (h : Rising ref check) : Monotone (step id ref check) :=
  fun _ _ hXY _ hp => hp.imp_right ((check _ _).answers_mono ref (h _ _) hXY)

theorem holds_iff_gfp {check : Rules Ty} (h : Rising ref check) {a b : Ty} :
    Holds id ref check a b ↔ (a, b) ∈ OrderHom.gfp ⟨step id ref check, step_mono id ref h⟩ := by
  constructor
  · rintro ⟨X, hmem, hX⟩
    exact OrderHom.le_gfp ⟨step id ref check, step_mono id ref h⟩ hX hmem
  · intro hmem
    exact ⟨_, hmem, (OrderHom.map_gfp ⟨step id ref check, step_mono id ref h⟩).ge⟩

/-- Every answer of a run is the one of the coinductive reading. -/
def Agree : Rules Ty → List (Event Ty) → List Bool → Prop
  | _, [], [] => True
  | check, .isA a b :: events, ok :: answers =>
    (ok = true ↔ Holds id ref check a b) ∧ Agree check events answers
  | _, .mutate check :: events, answers => Agree check events answers
  | check, .invalidate :: events, answers => Agree check events answers
  | _, _, _ => False

/-- The comparison asks about pairs of `C` only. -/
def Comparison.Within (C : Set (Ty × Ty)) : Comparison Ty Bool → Prop
  | .done _ => True
  | .isA a b next => (a, b) ∈ C ∧ ∀ ok, (next ok).Within C
  | .owner _ next => ∀ t, (next t).Within C
  | .own _ _ next => next.Within C

def Closed (C : Set (Ty × Ty)) (check : Rules Ty) : Prop := ∀ a b, (a, b) ∈ C → (check a b).Within C

end Reading

end Nupp.relations

/-! The answers of the cache against the coinductive reading: what one question keeps, by
induction on the nesting, and from it every run. -/

namespace Nupp.relations

open Coinduction (under under_unfold under_mono gfp_subset_under mem_under_of_insert)

variable {Ty Id : Type} {id : Ty → Id} {ref : Ty → Option Ty} {check : Rules Ty}
variable {s s' : State Ty}

section Invariants

/-- The step of the rules, on sets. -/
def stepHom (id : Ty → Id) (h : Rising ref check) : Set (Ty × Ty) →o Set (Ty × Ty) :=
  ⟨step id ref check, step_mono id ref h⟩

def pending (s : State Ty) : Set (Ty × Ty) := {p | s.assuming p = true}

/-- Every answer that the cache would give is the one of the reading. -/
def Sound (id : Ty → Id) (ref : Ty → Option Ty) (check : Rules Ty) (s : State Ty) : Prop :=
  s.cachedAt = s.generation →
    ∀ a b ok, s.cache (a, b) = some ok → (ok = true ↔ Holds id ref check a b)

/-- The owners that were read are those of the reading. -/
def Consulted (ref : Ty → Option Ty) (s : State Ty) : Prop := ∀ c ∈ s.consulted, c.2 = ref c.1

/-- What a question leaves as it was. -/
structure Frame (s s' : State Ty) : Prop where
  generation : s'.generation = s.generation
  assuming : s'.assuming = s.assuming
  depth : s'.assumptionDepth = s.assumptionDepth
  used : 0 < s.assumptionDepth → s.usedAssumption = true → s'.usedAssumption = true
  consulted : ∀ c ∈ s.consulted, c ∈ s'.consulted
  cachedAt : s.cachedAt ≤ s.generation → s'.cachedAt ≤ s'.generation

theorem Frame.refl (s : State Ty) : Frame s s :=
  ⟨rfl, rfl, rfl, fun _ h => h, fun _ h => h, fun h => h⟩

theorem Frame.trans {s'' : State Ty} (h : Frame s s') (h' : Frame s' s'') : Frame s s'' where
  generation := h'.generation.trans h.generation
  assuming := h'.assuming.trans h.assuming
  depth := h'.depth.trans h.depth
  used hdepth hused := h'.used (h.depth ▸ hdepth) (h.used hdepth hused)
  consulted c hc := h'.consulted c (h.consulted c hc)
  cachedAt hle := h'.cachedAt (h.cachedAt hle)

theorem Frame.pending (h : Frame s s') : pending s' = pending s := by
  rw [relations.pending, relations.pending, h.assuming]

end Invariants

section Moves

theorem current_frame (s : State Ty) : Frame s s.current := by
  unfold State.current
  split
  · exact ⟨rfl, rfl, rfl, fun _ h => h, fun _ h => h, fun _ => Nat.le_refl _⟩
  · exact Frame.refl s

theorem current_sound (h : Sound id ref check s) : Sound id ref check s.current := by
  unfold State.current
  split
  · rintro - a b ok hnone
    exact absurd hnone (by simp)
  · exact h

theorem current_cachedAt (s : State Ty) : s.current.cachedAt = s.current.generation := by
  unfold State.current
  split
  · rfl
  · next hsame => exact not_not.mp hsame

variable [DecidableEq Ty]

theorem assume_pending (s : State Ty) (p : Ty × Ty) :
    pending (s.assume p) = insert p (pending s) := by
  ext q
  by_cases hq : q = p
  · simp [pending, State.assume, hq]
  · simp [pending, State.assume, hq]

/-- A pair that was not assumed before is not assumed after. -/
theorem settle_frame {p : Ty × Ty} (hp : s.assuming p = false) (h : Frame (s.assume p) s')
    (ok : Bool) : Frame s (s'.settle s.assumptionDepth p ok) where
  generation := h.generation
  assuming := by
    have hback : Function.update (Function.update s.assuming p true) p false = s.assuming := by
      rw [Function.update_idem, ← hp, Function.update_eq_self]
    have hassume : s'.assuming = Function.update s.assuming p true := h.assuming
    rw [State.settle, hassume, hback]
  depth := rfl
  used hdepth hused := by
    refine h.used (Nat.succ_pos _) ?_
    rw [State.assume, if_neg (Nat.pos_iff_ne_zero.mp hdepth), hused]
  consulted := h.consulted
  cachedAt := h.cachedAt

end Moves

section Answers

/-- What is known of one answer. `lax` is what may be taken for granted. -/
structure Answered (id : Ty → Id) (ref : Ty → Option Ty) (check : Rules Ty)
    (lax : Set (Ty × Ty)) (p : Ty × Ty) (ok used : Bool) : Prop where
  yes : ok = true → p ∈ lax
  no : ok = false → ¬Holds id ref check p.1 p.2
  free : used = false → ok = true → Holds id ref check p.1 p.2

/-- What may be taken for granted in a state. -/
def lax (id : Ty → Id) (h : Rising ref check) (s : State Ty) : Set (Ty × Ty) :=
  under (stepHom id h) (pending s) ∪ pending s

theorem holds_subset_lax (h : Rising ref check) {a b : Ty} (hab : Holds id ref check a b) :
    (a, b) ∈ lax id h s :=
  Set.mem_union_left _ (gfp_subset_under _ _ ((holds_iff_gfp id ref h).mp hab))

/-- What a question is known to do: it keeps the state sound and its answer is bounded on
both sides. -/
structure Question (id : Ty → Id) (h : Rising ref check) (a b : Ty) (s s' : State Ty)
    (ok : Bool) : Prop where
  frame : Frame s s'
  sound : Sound id ref check s'
  answered : Answered id ref check (lax id h s) (a, b) ok s'.usedAssumption

end Answers

section Runs

variable {isA : Ty → Ty → State Ty → Option (Bool × State Ty)} {ok : Bool}

theorem run_frame [DecidableEq Ty] (hisA : ∀ a b s s' ok, isA a b s = some (ok, s') → Frame s s')
    (c : Comparison Ty Bool) (hrun : c.run isA s = some (ok, s')) : Frame s s' := by
  induction c generalizing s with
  | done value =>
    simp only [Comparison.run, Option.some.injEq, Prod.mk.injEq] at hrun
    rw [← hrun.2]
    exact Frame.refl s
  | isA a b next ih =>
    simp only [Comparison.run] at hrun
    split at hrun
    · cases hrun
    · next answer s₁ hasked => exact (hisA a b s s₁ answer hasked).trans (ih answer hrun)
  | owner shape next ih =>
    have hrest := ih _ hrun
    exact ⟨hrest.generation, hrest.assuming, hrest.depth, hrest.used,
      fun c hc => hrest.consulted c (List.mem_cons_of_mem _ hc), hrest.cachedAt⟩
  | own shape t next ih =>
    have hrest := ih hrun
    exact ⟨hrest.generation, hrest.assuming, hrest.depth, hrest.used, hrest.consulted,
      hrest.cachedAt⟩

theorem isA_frame [DecidableEq Ty] [DecidableEq Id] (id : Ty → Id) (check : Rules Ty) (n : ℕ)
    (a b : Ty) (hrun : relations.isA id check n a b s = some (ok, s')) : Frame s s' := by
  induction n generalizing a b s s' ok with
  | zero => cases hrun
  | succ n ih =>
    simp only [relations.isA] at hrun
    split at hrun
    · cases hrun
      exact Frame.refl _
    · refine (current_frame s).trans ?_
      split at hrun
      · cases hrun
        exact Frame.refl _
      · split at hrun
        · cases hrun
          exact ⟨rfl, rfl, rfl, fun _ _ => rfl, fun _ h => h, fun h => h⟩
        · next hfree =>
          split at hrun
          · cases hrun
          · next answer s₁ hcompared =>
            cases hrun
            have hinner := run_frame (fun a b s s' ok => ih a b) (check a b) hcompared
            exact settle_frame (Bool.eq_false_iff.mpr hfree) hinner _

/-- Questions whose owners were read as the reading has them. -/
def Questions (id : Ty → Id) (h : Rising ref check)
    (isA : Ty → Ty → State Ty → Option (Bool × State Ty)) : Prop :=
  ∀ a b s s' ok, isA a b s = some (ok, s') → Sound id ref check s → Consulted ref s' →
    Question id h a b s s' ok

/-- What a comparison is known to do. -/
structure Compared (id : Ty → Id) (h : Rising ref check) (c : Comparison Ty Bool)
    (s s' : State Ty) (ok : Bool) : Prop where
  sound : Sound id ref check s'
  yes : ok = true → c.Answers ref (lax id h s)
  no : ok = false → ¬c.Answers ref {p | Holds id ref check p.1 p.2}
  free : s'.usedAssumption = false → ok = true →
    c.Answers ref {p | Holds id ref check p.1 p.2}

/-- A comparison, by induction on it. A yes on the way is one of a pair that may be taken for
granted, and a no is one of a pair that does not hold; a comparison that rises cannot tell
these from the answers of the reading. -/
theorem run_compared [DecidableEq Ty] (h : Rising ref check)
    (hframe : ∀ a b s s' ok, isA a b s = some (ok, s') → Frame s s')
    (hisA : Questions id h isA) (c : Comparison Ty Bool) (hrises : c.Rises ref)
    (hrun : c.run isA s = some (ok, s')) (hsound : Sound id ref check s)
    (hdepth : 0 < s.assumptionDepth) (hconsulted : Consulted ref s') :
    Compared id h c s s' ok := by
  induction c generalizing s with
  | done value =>
    simp only [Comparison.run, Option.some.injEq, Prod.mk.injEq] at hrun
    obtain ⟨rfl, rfl⟩ := hrun
    exact ⟨hsound, fun hyes => hyes, fun hno hyes => by simp_all [Comparison.Answers],
      fun _ hyes => hyes⟩
  | isA a b next ih =>
    simp only [Comparison.run] at hrun
    split at hrun
    · cases hrun
    · next answer s₁ hasked =>
      have hfirst := hframe a b s s₁ answer hasked
      have hrest := run_frame hframe (next answer) hrun
      have hquestion := hisA a b s s₁ answer hasked hsound
        fun c hc => hconsulted c (hrest.consulted c hc)
      have hnext := ih answer (hrises.1 answer) hrun hquestion.sound (hfirst.depth ▸ hdepth)
      have hlax : lax id h s₁ = lax id h s := by rw [lax, lax, hfirst.pending]
      refine ⟨hnext.sound, fun hyes => ?_, fun hno => ?_, fun hfree hyes => ?_⟩
      · have hanswers := hlax ▸ hnext.yes hyes
        cases answer with
        | true => exact Or.inl ⟨hquestion.answered.yes rfl, hanswers⟩
        | false =>
          by_cases hin : (a, b) ∈ lax id h s
          · exact Or.inl ⟨hin, hrises.2 _ hanswers⟩
          · exact Or.inr ⟨hin, hanswers⟩
      · have hanswers := hnext.no hno
        cases answer with
        | true =>
          rintro (⟨-, hyes⟩ | ⟨-, hyes⟩)
          · exact hanswers hyes
          · exact hanswers (hrises.2 _ hyes)
        | false =>
          rintro (⟨hin, -⟩ | ⟨-, hyes⟩)
          · exact hquestion.answered.no rfl hin
          · exact hanswers hyes
      · have hanswers := hnext.free hfree hyes
        have hunused : s₁.usedAssumption = false := by
          by_contra hused
          have hlater := hrest.used (hfirst.depth ▸ hdepth) (Bool.not_eq_false _ ▸ hused)
          rw [hlater] at hfree
          cases hfree
        cases answer with
        | true => exact Or.inl ⟨hquestion.answered.free hunused rfl, hanswers⟩
        | false => exact Or.inr ⟨hquestion.answered.no rfl, hanswers⟩
  | owner shape next ih =>
    have hrest := run_frame hframe (next (s.surfaceOwner shape)) hrun
    have hread : s.surfaceOwner shape = ref shape :=
      hconsulted _ (hrest.consulted _ List.mem_cons_self)
    rw [Comparison.run, hread] at hrun
    obtain ⟨hsound', hyes, hno, hfree⟩ := ih (ref shape) hrises hrun hsound hdepth
    exact ⟨hsound', hyes, hno, hfree⟩
  | own shape t next ih =>
    obtain ⟨hsound', hyes, hno, hfree⟩ := ih hrises hrun hsound hdepth
    exact ⟨hsound', hyes, hno, hfree⟩

theorem holds_of_same {a b : Ty} (h : a = b ∨ id a = id b) : Holds id ref check a b :=
  ⟨{p | p.1 = p.2 ∨ id p.1 = id p.2}, h, fun _ hp => Or.inl hp⟩

theorem holds_of_answers (h : Rising ref check) {a b : Ty}
    (hanswers : (check a b).Answers ref {p | Holds id ref check p.1 p.2}) :
    Holds id ref check a b := by
  have hgfp : {p : Ty × Ty | Holds id ref check p.1 p.2} = OrderHom.gfp (stepHom id h) :=
    Set.ext fun p => holds_iff_gfp id ref h
  rw [holds_iff_gfp id ref h]
  change (a, b) ∈ OrderHom.gfp (stepHom id h)
  rw [← OrderHom.map_gfp (stepHom id h), ← hgfp]
  exact Or.inr hanswers

theorem answers_of_holds (h : Rising ref check) {a b : Ty} (hsame : ¬(a = b ∨ id a = id b))
    (hab : Holds id ref check a b) :
    (check a b).Answers ref {p | Holds id ref check p.1 p.2} := by
  have hgfp : {p : Ty × Ty | Holds id ref check p.1 p.2} = OrderHom.gfp (stepHom id h) :=
    Set.ext fun p => holds_iff_gfp id ref h
  have hmem : (a, b) ∈ OrderHom.gfp (stepHom id h) := (holds_iff_gfp id ref h).mp hab
  rw [← OrderHom.map_gfp (stepHom id h), ← hgfp] at hmem
  exact hmem.resolve_left hsame

/-- A pair whose comparison says yes while it is itself assumed. -/
theorem mem_lax_of_answers [DecidableEq Ty] (h : Rising ref check) {a b : Ty}
    (hanswers : (check a b).Answers ref (lax id h (s.assume (a, b)))) :
    (a, b) ∈ lax id h s := by
  refine Set.mem_union_left _ (mem_under_of_insert (stepHom id h) ?_)
  rw [under_unfold]
  rw [lax, assume_pending] at hanswers
  exact Or.inr hanswers

/-- The comparison of a pair that is not decided yet, once it is over. -/
theorem settle_question [DecidableEq Ty] (h : Rising ref check) {a b : Ty}
    (hsame : ¬(a = b ∨ id a = id b)) (hframe : Frame s (s'.settle s.assumptionDepth (a, b) ok))
    (hcompared : Compared id h (check a b) (s.assume (a, b)) s' ok) :
    Question id h a b s (s'.settle s.assumptionDepth (a, b) ok) ok := by
  have hno (hfalse : ok = false) : ¬Holds id ref check a b := fun hab =>
    hcompared.no hfalse (answers_of_holds h hsame hab)
  have hfree (hunused : s'.usedAssumption = false) (htrue : ok = true) : Holds id ref check a b :=
    holds_of_answers h (hcompared.free hunused htrue)
  refine ⟨hframe, fun hcached x y answer hentry => ?_,
    ⟨fun hyes => mem_lax_of_answers h (hcompared.yes hyes), hno, hfree⟩⟩
  simp only [State.settle] at hentry hcached
  split at hentry
  · exact hcompared.sound hcached x y answer hentry
  · next hunused =>
    by_cases hpair : (x, y) = (a, b)
    · rw [hpair, Function.update_self, Option.some.injEq] at hentry
      obtain ⟨rfl, rfl⟩ := Prod.mk.inj hpair
      rw [← hentry]
      refine ⟨hfree (Bool.eq_false_iff.mpr hunused), fun hab => ?_⟩
      by_contra hfalse
      exact hno (Bool.eq_false_iff.mpr hfalse) hab
    · rw [Function.update_of_ne hpair] at hentry
      exact hcompared.sound hcached x y answer hentry

/-- One question, by induction on the nesting. -/
theorem isA_questions [DecidableEq Ty] [DecidableEq Id] (h : Rising ref check) (n : ℕ) :
    Questions id h (relations.isA id check n) := by
  induction n with
  | zero => exact fun a b s s' ok hrun => by cases hrun
  | succ n ih =>
    intro a b s s' ok hrun hsound hconsulted
    have hframe := isA_frame id check (n + 1) a b hrun
    simp only [relations.isA] at hrun
    split at hrun
    · next hsame =>
      cases hrun
      have hholds : Holds id ref check a b := holds_of_same hsame
      exact ⟨hframe, hsound, fun _ => holds_subset_lax h hholds, fun hno => (by cases hno),
        fun _ _ => hholds⟩
    · next hsame =>
      have hcurrent := current_frame s
      have hsound' := current_sound hsound
      have hlax : lax id h s.current = lax id h s := by rw [lax, lax, hcurrent.pending]
      split at hrun
      · next hit hcached =>
        cases hrun
        have hiff := hsound' (current_cachedAt s) a b _ hcached
        refine ⟨hframe, hsound', fun hyes => holds_subset_lax h (hiff.mp hyes),
          fun hno hab => ?_, fun _ hyes => hiff.mp hyes⟩
        rw [hiff.mpr hab] at hno
        cases hno
      · split at hrun
        · next hpending =>
          cases hrun
          exact ⟨hframe, hsound', fun _ => hlax ▸ Set.mem_union_right _ hpending,
            fun hno => (by cases hno), fun hunused => (by cases hunused)⟩
        · next hfree =>
          split at hrun
          · cases hrun
          · next answer s₁ hcomparison =>
            cases hrun
            have hcompared := run_compared h (fun a b s s' ok => isA_frame id check n a b) ih
              (check a b) (h a b) hcomparison hsound' (Nat.succ_pos _) hconsulted
            have hsettle := settle_frame (Bool.eq_false_iff.mpr hfree)
              (run_frame (fun a b s s' ok => isA_frame id check n a b) (check a b) hcomparison) ok
            have hquestion := settle_question h hsame hsettle hcompared
            exact ⟨hframe, hquestion.sound, fun hyes => hlax ▸ hquestion.answered.yes hyes,
              hquestion.answered.no, hquestion.answered.free⟩

end Runs

section Events

variable {n : ℕ} {events : List (Event Ty)}

/-- No comparison is under way. -/
structure Idle (s : State Ty) : Prop where
  assuming : ∀ p, s.assuming p = false
  cachedAt : s.cachedAt ≤ s.generation

theorem Idle.frame (h : Idle s) (hframe : Frame s s') : Idle s' :=
  ⟨fun p => hframe.assuming ▸ h.assuming p, hframe.cachedAt h.cachedAt⟩

theorem idle_initial : Idle (State.initial Ty) := ⟨fun _ => rfl, Nat.le_refl _⟩

theorem sound_invalidate (h : s.cachedAt ≤ s.generation) : Sound id ref check (invalidate s) := by
  intro hcached
  change s.cachedAt = s.generation + 1 at hcached
  omega

variable [DecidableEq Ty] [DecidableEq Id]

/-- Between comparisons an answer is the one of the reading. -/
theorem isA_holds (h : Rising ref check) (hidle : Idle s) {a b : Ty} {ok : Bool}
    (hrun : isA id check n a b s = some (ok, s')) (hsound : Sound id ref check s)
    (hconsulted : Consulted ref s') : ok = true ↔ Holds id ref check a b := by
  have hquestion := isA_questions h n a b s s' ok hrun hsound hconsulted
  have hpending : pending s = ∅ := Set.eq_empty_iff_forall_notMem.mpr fun p hp => by
    have hassumed : s.assuming p = true := hp
    rw [hidle.assuming p] at hassumed
    cases hassumed
  constructor
  · intro hyes
    have hmem := hquestion.answered.yes hyes
    rw [lax, hpending, Set.union_empty, Coinduction.under_empty] at hmem
    exact (holds_iff_gfp id ref h).mpr hmem
  · intro hab
    by_contra hno
    exact hquestion.answered.no (Bool.eq_false_iff.mpr hno) hab

theorem run_consulted {answers : List Bool} (hrun : run id n events check s = some (answers, s')) :
    ∀ c ∈ s.consulted, c ∈ s'.consulted := by
  induction events generalizing check s answers with
  | nil =>
    simp only [run, Option.some.injEq, Prod.mk.injEq] at hrun
    exact fun c hc => hrun.2 ▸ hc
  | cons event events ih =>
    cases event with
    | isA a b =>
      simp only [run] at hrun
      split at hrun
      · cases hrun
      · next ok s₁ hasked =>
        split at hrun
        · cases hrun
        · next rest s₂ hrest =>
          cases hrun
          exact fun c hc => ih hrest c ((isA_frame id check n a b hasked).consulted c hc)
    | mutate check' => exact ih hrun
    | invalidate => exact ih (s := invalidate s) hrun

/-- A run, event by event: after a mutation nothing is known of the cache until it is
invalidated, and nothing is asked. -/
theorem run_agree (hrising : Rising ref check)
    (hevents : ∀ c, Event.mutate c ∈ events → Rising ref c) {mutated : Bool}
    (hinvalidated : Invalidated mutated events) {answers : List Bool}
    (hrun : run id n events check s = some (answers, s')) (hidle : Idle s)
    (hsound : mutated = false → Sound id ref check s) (hconsulted : Consulted ref s') :
    Agree id ref check events answers := by
  induction events generalizing check s answers mutated with
  | nil =>
    simp only [run, Option.some.injEq, Prod.mk.injEq] at hrun
    rw [← hrun.1]
    trivial
  | cons event events ih =>
    have hlater (c : Rules Ty) (hc : Event.mutate c ∈ events) : Rising ref c :=
      hevents c (List.mem_cons_of_mem _ hc)
    cases event with
    | isA a b =>
      obtain ⟨rfl, hrest⟩ := hinvalidated
      simp only [run] at hrun
      split at hrun
      · cases hrun
      · next ok s₁ hasked =>
        split at hrun
        · cases hrun
        · next rest s₂ hmore =>
          cases hrun
          have hread : Consulted ref s₁ := fun c hc => hconsulted c (run_consulted hmore c hc)
          have hquestion := isA_questions hrising n a b s s₁ ok hasked (hsound rfl) hread
          refine ⟨isA_holds hrising hidle hasked (hsound rfl) hread, ?_⟩
          exact ih hrising hlater hrest hmore (hidle.frame hquestion.frame)
            fun _ => hquestion.sound
    | mutate check' =>
      refine ih (hevents check' List.mem_cons_self) hlater hinvalidated hrun hidle fun hno => ?_
      cases hno
    | invalidate =>
      exact ih hrising hlater hinvalidated hrun ⟨hidle.assuming, Nat.le_succ_of_le hidle.cachedAt⟩
        fun _ => sound_invalidate hidle.cachedAt

end Events

section Returns

variable [DecidableEq Ty] [DecidableEq Id] {C : Finset (Ty × Ty)}

/-- The pairs that may still be assumed. -/
def unassumed (C : Finset (Ty × Ty)) (s : State Ty) : Finset (Ty × Ty) :=
  C.filter fun p => s.assuming p = false

theorem unassumed_assume {p : Ty × Ty} (hmem : p ∈ C) (hfree : s.assuming p = false) :
    (unassumed C (s.assume p)).card < (unassumed C s).card := by
  have herase : unassumed C (s.assume p) = (unassumed C s).erase p := by
    ext q
    by_cases hq : q = p
    · simp [unassumed, State.assume, hq]
    · simp [unassumed, State.assume, hq]
  rw [herase]
  exact Finset.card_erase_lt_of_mem (Finset.mem_filter.mpr ⟨hmem, hfree⟩)

theorem run_returns {isA : Ty → Ty → State Ty → Option (Bool × State Ty)}
    (hframe : ∀ a b s s' ok, isA a b s = some (ok, s') → Frame s s') (c : Comparison Ty Bool)
    (hwithin : c.Within C) {asked : Ty × Ty → Bool}
    (hisA : ∀ a b s, (a, b) ∈ C → s.assuming = asked → ∃ r, isA a b s = some r)
    (hs : s.assuming = asked) : ∃ r, c.run isA s = some r := by
  induction c generalizing s with
  | done value => exact ⟨_, rfl⟩
  | isA a b next ih =>
    obtain ⟨⟨ok, s₁⟩, hasked⟩ := hisA a b s hwithin.1 hs
    simp only [Comparison.run, hasked]
    exact ih ok (hwithin.2 ok) ((hframe a b s s₁ ok hasked).assuming.trans hs)
  | owner shape next ih => exact ih _ (hwithin _) hs
  | own shape t next ih => exact ih hwithin hs

/-- Where the pairs that can be asked about are finitely many, a question is answered: each
nested one assumes a further pair. -/
theorem isA_returns (hC : Closed C check) {n : ℕ} {a b : Ty} (hmem : (a, b) ∈ C)
    (hn : (unassumed C s).card < n) : ∃ r, isA id check n a b s = some r := by
  induction n generalizing a b s with
  | zero => exact absurd hn (Nat.not_lt_zero _)
  | succ n ih =>
    simp only [isA]
    split
    · exact ⟨_, rfl⟩
    · split
      · exact ⟨_, rfl⟩
      · split
        · exact ⟨_, rfl⟩
        · next hfree =>
          have hcurrent : s.current.assuming = s.assuming := (current_frame s).assuming
          have hless := unassumed_assume (s := s.current) hmem (Bool.eq_false_iff.mpr hfree)
          have hbefore : unassumed C s.current = unassumed C s := by
            rw [unassumed, unassumed, hcurrent]
          rw [hbefore] at hless
          obtain ⟨⟨ok, s₁⟩, hcompared⟩ := run_returns
            (fun a b s s' ok => isA_frame id check n a b) (check a b) (hC a b hmem)
            (fun x y s' hxy hs' => ih hxy (by
              have hsame : unassumed C s' = unassumed C (s.current.assume (a, b)) := by
                rw [unassumed, unassumed, hs']
              rw [hsame]
              omega)) rfl
          rw [hcompared]
          exact ⟨_, rfl⟩

theorem run_answered {n : ℕ} {events : List (Event Ty)} (hC : Closed C check)
    (hevents : ∀ c, Event.mutate c ∈ events → Closed C c)
    (hasked : ∀ a b, Event.isA a b ∈ events → (a, b) ∈ C) (hn : C.card < n) (hidle : Idle s) :
    ∃ r, run id n events check s = some r := by
  induction events generalizing check s with
  | nil => exact ⟨_, rfl⟩
  | cons event events ih =>
    have hevents' (c : Rules Ty) (hc : Event.mutate c ∈ events) : Closed C c :=
      hevents c (List.mem_cons_of_mem _ hc)
    have hasked' (a b : Ty) (hab : Event.isA a b ∈ events) : (a, b) ∈ C :=
      hasked a b (List.mem_cons_of_mem _ hab)
    cases event with
    | isA a b =>
      have hfew : (unassumed C s).card < n :=
        Nat.lt_of_le_of_lt (Finset.card_filter_le _ _) hn
      obtain ⟨⟨ok, s₁⟩, hfirst⟩ :=
        (isA_returns hC (hasked a b List.mem_cons_self) hfew : ∃ r, isA id check n a b s = some r)
      obtain ⟨⟨answers, s₂⟩, hrest⟩ :=
        ih hC hevents' hasked' (hidle.frame (isA_frame id check n a b hfirst))
      simp only [run, hfirst, hrest]
      exact ⟨_, rfl⟩
    | mutate check' => exact ih (hevents check' List.mem_cons_self) hevents' hasked' hidle
    | invalidate =>
      exact ih hC hevents' hasked' ⟨hidle.assuming, Nat.le_succ_of_le hidle.cachedAt⟩

end Returns

end Nupp.relations
