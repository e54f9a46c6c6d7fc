import Mathlib.Data.Nat.Notation

/-! Programs over a state that return a value or stop, and when two of them agree. -/

namespace Runs

/-- What a run leaves: a value, or the reason it stopped for, with the state reached. -/
inductive Outcome (S E A : Type)
  | ok (value : A) (state : S)
  | stop (reason : E) (state : S)
  deriving DecidableEq

/-- A program over states `S` that may stop for a reason in `E`. -/
def Prog (S E A : Type) := S → Outcome S E A

variable {S E A B C : Type}

namespace Prog

def pure (a : A) : Prog S E A := fun s => .ok a s

def bind (m : Prog S E A) (f : A → Prog S E B) : Prog S E B := fun s =>
  match m s with
  | .ok a t => f a t
  | .stop e t => .stop e t

def stop (e : E) : Prog S E A := fun s => .stop e s

def get : Prog S E S := fun s => .ok s s

def set (s : S) : Prog S E Unit := fun _ => .ok () s

/-- Runs a step until it yields a result, at most `n` times. -/
def iterate (spent : E) (step : B → Prog S E (B ⊕ A)) : ℕ → B → Prog S E A
  | 0, _ => stop spent
  | n + 1, b => bind (step b) fun r =>
      match r with
      | .inl b => iterate spent step n b
      | .inr a => pure a

end Prog

instance : Monad (Prog S E) where
  pure := Prog.pure
  bind := Prog.bind

@[simp] theorem pure_apply (a : A) (s : S) : (Pure.pure a : Prog S E A) s = .ok a s := rfl

theorem bind_apply (m : Prog S E A) (f : A → Prog S E B) (s : S) :
    (m >>= f) s = match m s with
      | .ok a t => f a t
      | .stop e t => .stop e t := rfl

theorem bind_of_ok {m : Prog S E A} {s t : S} {a : A} (h : m s = .ok a t) (f : A → Prog S E B) :
    (m >>= f) s = f a t := by
  rw [bind_apply, h]

/-- From `s` the programs do the same, and a value they return satisfies `Q`. -/
structure Agrees (s : S) (m m' : Prog S E A) (Q : A → S → Prop) : Prop where
  same : m s = m' s
  post : ∀ a t, m' s = .ok a t → Q a t

namespace Agrees

variable {s : S} {m m' : Prog S E A} {Q R : A → S → Prop}

theorem pure {a : A} (h : Q a s) : Agrees (E := E) s (Pure.pure a) (Pure.pure a) Q where
  same := rfl
  post _ _ he := by
    cases he
    exact h

theorem of_post (h : ∀ a t, m s = .ok a t → Q a t) : Agrees s m m Q := ⟨rfl, h⟩

theorem stop (e : E) : Agrees s (Prog.stop e) (Prog.stop e) Q where
  same := rfl
  post _ _ he := by cases he

theorem mono (h : Agrees s m m' Q) (hQ : ∀ a t, Q a t → R a t) : Agrees s m m' R where
  same := h.same
  post a t he := hQ a t (h.post a t he)

theorem bind {Q' : B → S → Prop} {f f' : A → Prog S E B} (h : Agrees s m m' Q)
    (hf : ∀ a t, Q a t → Agrees t (f a) (f' a) Q') : Agrees s (m >>= f) (m' >>= f') Q' := by
  cases hm : m' s with
  | ok a t =>
    have hat := hf a t (h.post a t hm)
    have hsame : (m >>= f) s = f a t := bind_of_ok (h.same.trans hm) f
    have hsame' : (m' >>= f') s = f' a t := bind_of_ok hm f'
    refine ⟨by rw [hsame, hsame', hat.same], fun b u he => ?_⟩
    rw [hsame'] at he
    exact hat.post b u he
  | stop e t =>
    have hsame : (m >>= f) s = .stop e t := by rw [bind_apply, h.same.trans hm]
    have hsame' : (m' >>= f') s = .stop e t := by rw [bind_apply, hm]
    refine ⟨by rw [hsame, hsame'], fun b u he => ?_⟩
    rw [hsame'] at he
    cases he

/-- A step that agrees wherever an invariant holds, and keeps it, agrees when iterated. -/
theorem iterate {spent : E} {step step' : B → Prog S E (B ⊕ A)} {I : B → S → Prop}
    (hstep : ∀ b t, I b t → Agrees t (step b) (step' b) fun r u =>
      match r with
      | .inl b => I b u
      | .inr a => Q a u)
    (n : ℕ) : ∀ b s, I b s → Agrees s (Prog.iterate spent step n b) (Prog.iterate spent step' n b) Q := by
  induction n with
  | zero =>
    intro b s _
    exact stop spent
  | succ n ih =>
    intro b s hI
    refine bind (hstep b s hI) fun r u hr => ?_
    cases r with
    | inl b => exact ih b u hr
    | inr a => exact pure hr

end Agrees

end Runs
