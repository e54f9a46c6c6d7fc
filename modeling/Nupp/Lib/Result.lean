import Mathlib.Data.List.Forall2
import Mathlib.Data.Nat.Notation

/-! Computations that answer or fail, in sequence. -/

namespace Result

variable {ε α β σ : Type}

@[simp] theorem ok_bind (a : α) (f : α → Except ε β) : (Except.ok a >>= f) = f a := rfl

@[simp] theorem error_bind (e : ε) (f : α → Except ε β) : (Except.error e >>= f) = Except.error e := rfl

theorem bind_eq_ok {x : Except ε α} {f : α → Except ε β} {b : β} :
    (x >>= f) = .ok b ↔ ∃ a, x = .ok a ∧ f a = .ok b := by
  cases x with
  | error e => simp
  | ok a => simp

theorem mapError_eq_ok {ε' : Type} {x : Except ε α} {f : ε → ε'} {a : α} :
    x.mapError f = .ok a ↔ x = .ok a := by
  cases x <;> simp [Except.mapError]

theorem mapM_eq_ok {f : α → Except ε β} {l : List α} {m : List β} :
    l.mapM f = .ok m ↔ List.Forall₂ (fun a b => f a = .ok b) l m := by
  induction l generalizing m with
  | nil =>
    rw [List.mapM_nil, List.forall₂_nil_left_iff]
    exact ⟨fun h => (Except.ok.inj h).symm, fun h => h ▸ rfl⟩
  | cons a l ih =>
    rw [List.mapM_cons, bind_eq_ok, List.forall₂_cons_left_iff]
    constructor
    · rintro ⟨b, hb, h⟩
      obtain ⟨bs, hbs, h⟩ := bind_eq_ok.mp h
      exact ⟨b, bs, hb, ih.mp hbs, (Except.ok.inj h).symm⟩
    · rintro ⟨b, bs, hb, hbs, rfl⟩
      exact ⟨b, hb, by rw [ih.mpr hbs]; rfl⟩

/-- An invariant kept by each step of a fold holds at its end. -/
theorem foldlM_ok {f : σ → α → Except ε σ} {l : List α} {s t : σ} {inv : σ → Prop}
    (h : l.foldlM f s = .ok t) (hs : inv s)
    (hstep : ∀ a ∈ l, ∀ s t, inv s → f s a = .ok t → inv t) : inv t := by
  induction l generalizing s with
  | nil => exact Except.ok.inj h ▸ hs
  | cons a l ih =>
    rw [List.foldlM_cons, bind_eq_ok] at h
    obtain ⟨u, hu, h⟩ := h
    exact ih h (hstep a List.mem_cons_self s u hs hu)
      (fun b hb => hstep b (List.mem_cons_of_mem _ hb))

/-- A fold over the numbers below `n` whose rounds all answer. -/
theorem foldlM_range {f : σ → ℕ → Except ε σ} {s : σ} {inv : ℕ → σ → Prop} (n : ℕ) (hs : inv 0 s)
    (hstep : ∀ k < n, ∀ s, inv k s → ∃ t, f s k = .ok t ∧ inv (k + 1) t) :
    ∃ t, (List.range n).foldlM f s = .ok t ∧ inv n t := by
  induction n with
  | zero => exact ⟨s, rfl, hs⟩
  | succ n ih =>
    obtain ⟨t, ht, hinv⟩ := ih fun k hk => hstep k (Nat.lt_succ_of_lt hk)
    obtain ⟨u, hu, hinv⟩ := hstep n (Nat.lt_succ_self n) t hinv
    refine ⟨u, ?_, hinv⟩
    rw [List.range_succ, List.foldlM_append, ht, ok_bind, List.foldlM_cons, hu]
    rfl

end Result
