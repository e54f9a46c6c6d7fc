import Mathlib.Algebra.Order.BigOperators.Group.List
import Mathlib.Algebra.Order.Group.Int
import Mathlib.Data.Int.LeastGreatest
import Mathlib.Data.List.Nodup
import Mathlib.Tactic.Linarith

/-! Difference constraints `u target ≤ u source + weight` and the walks of their graph. A system without a negative
cycle has a solution, and a bound that every solution meets is the weight of a walk that repeats no vertex. -/

namespace Difference

structure Edge (V : Type*) where
  source : V
  target : V
  weight : ℤ

variable {V : Type*} {E : List (Edge V)}

def Satisfies (E : List (Edge V)) (u : V → ℤ) : Prop := ∀ e ∈ E, u e.target ≤ u e.source + e.weight

/-- `Walk E x l y w`: a walk from `x` to `y` of weight `w`, which leaves the vertices `l` in order. -/
inductive Walk (E : List (Edge V)) : V → List V → V → ℤ → Prop
  | nil (x : V) : Walk E x [] x 0
  | cons {x z y : V} {l : List V} {a b : ℤ} (edge : ⟨x, z, a⟩ ∈ E) (rest : Walk E z l y b) :
      Walk E x (x :: l) y (a + b)

theorem Walk.single {x y : V} {a : ℤ} (h : ⟨x, y, a⟩ ∈ E) : Walk E x [x] y a := by
  have hwalk := Walk.cons h (Walk.nil y)
  rwa [add_zero] at hwalk

theorem Walk.append {x y z : V} {p q : List V} {a b : ℤ} (h : Walk E x p y a) (h' : Walk E y q z b) :
    Walk E x (p ++ q) z (a + b) := by
  induction h with
  | nil x =>
    rw [zero_add]
    exact h'
  | cons edge rest ih =>
    rw [add_assoc]
    exact Walk.cons edge (ih h')

/-- A walk that leaves `k` passes through it. -/
theorem Walk.split {x y k : V} {p q : List V} {w : ℤ} (h : Walk E x (p ++ k :: q) y w) :
    ∃ a b, Walk E x p k a ∧ Walk E k (k :: q) y b ∧ w = a + b := by
  induction p generalizing x w with
  | nil =>
    cases h with
    | @cons _ z _ _ a b edge rest => exact ⟨0, a + b, Walk.nil k, Walk.cons edge rest, (zero_add _).symm⟩
  | cons c p ih =>
    cases h with
    | @cons _ z _ _ a b edge rest =>
      obtain ⟨a', b', hfirst, hsecond, rfl⟩ := ih rest
      exact ⟨a + a', b', Walk.cons edge hfirst, hsecond, (add_assoc a a' b').symm⟩

theorem Walk.eq_cons {x y : V} {l : List V} {w : ℤ} (h : Walk E x l y w) (hl : l ≠ []) : ∃ l', l = x :: l' := by
  cases h with
  | nil => exact absurd rfl hl
  | @cons _ _ _ l => exact ⟨l, rfl⟩

theorem Walk.source_mem {x y v : V} {l : List V} {w : ℤ} (h : Walk E x l y w) (hv : v ∈ l) :
    ∃ e ∈ E, e.source = v := by
  induction h with
  | nil => cases hv
  | cons edge rest ih =>
    rcases List.mem_cons.mp hv with rfl | hv
    · exact ⟨_, edge, rfl⟩
    · exact ih hv

theorem Walk.target_mem {x y : V} {l : List V} {w : ℤ} (h : Walk E x l y w) (hl : l ≠ []) :
    ∃ e ∈ E, e.target = y := by
  induction h with
  | nil => exact absurd rfl hl
  | cons edge rest ih =>
    cases rest with
    | nil => exact ⟨_, edge, rfl⟩
    | cons edge' rest' => exact ih (List.cons_ne_nil _ _)

/-- Along a walk the constraints add up. -/
theorem Walk.bound {u : V → ℤ} (hu : Satisfies E u) {x y : V} {l : List V} {w : ℤ} (h : Walk E x l y w) :
    u y ≤ u x + w := by
  induction h with
  | nil x => omega
  | cons edge rest ih =>
    have hedge := hu _ edge
    dsimp only at hedge
    omega

theorem Walk.cycle_nonneg {u : V → ℤ} (hu : Satisfies E u) {x : V} {l : List V} {w : ℤ} (h : Walk E x l x w) :
    0 ≤ w := by
  have hbound := h.bound hu
  omega

/-! A walk that leaves no vertex twice weighs no more than all the edges together. -/

def size (E : List (Edge V)) : ℕ := (E.map fun e => e.weight.natAbs).sum

theorem le_size_of_mem {e : Edge V} (h : e ∈ E) : e.weight.natAbs ≤ size E :=
  List.le_sum_of_mem (List.mem_map_of_mem h)

section

variable [DecidableEq V]

/-- The edges out of the vertices of a list. -/
def leaving (E : List (Edge V)) (l : List V) : List (Edge V) := E.filter fun e => e.source ∈ l

theorem leaving_nil (E : List (Edge V)) : leaving E [] = [] := by
  rw [leaving, List.filter_eq_nil_iff]
  intro e _
  simp

omit [DecidableEq V] in
theorem size_filter_le (E : List (Edge V)) (p : Edge V → Bool) : size (E.filter p) ≤ size E := by
  rw [size, size]
  exact List.Sublist.sum_le_sum (List.filter_sublist.map _) fun _ _ => Nat.zero_le _

theorem size_leaving_cons {x : V} {l : List V} (hx : x ∉ l) (E : List (Edge V)) :
    size (leaving E (x :: l)) = size (leaving E [x]) + size (leaving E l) := by
  induction E with
  | nil => rfl
  | cons e E ih =>
    simp only [size, leaving, List.filter_cons, List.mem_cons, List.not_mem_nil, or_false] at ih ⊢
    by_cases hex : e.source = x
    · simp only [hex, hx, true_or, decide_true, decide_false, if_true, Bool.false_eq_true, if_false, List.map_cons,
        List.sum_cons, ih]
      omega
    · by_cases hel : e.source ∈ l
      · simp only [hex, hel, or_true, decide_true, decide_false, if_true, Bool.false_eq_true, if_false, List.map_cons,
          List.sum_cons, ih]
        omega
      · simp only [hex, hel, or_self, decide_false, Bool.false_eq_true, if_false, ih]

theorem Walk.natAbs_le_leaving {x y : V} {l : List V} {w : ℤ} (h : Walk E x l y w) (hl : l.Nodup) :
    w.natAbs ≤ size (leaving E l) := by
  induction h with
  | nil x => exact Nat.zero_le _
  | @cons x z y l a b edge rest ih =>
    obtain ⟨hx, hl⟩ := List.nodup_cons.mp hl
    have hrest := ih hl
    have hmem : (⟨x, z, a⟩ : Edge V) ∈ leaving E [x] := List.mem_filter.mpr ⟨edge, by simp⟩
    have hedge : a.natAbs ≤ size (leaving E [x]) := le_size_of_mem hmem
    rw [size_leaving_cons hx]
    omega

theorem Walk.natAbs_le {x y : V} {l : List V} {w : ℤ} (h : Walk E x l y w) (hl : l.Nodup) : w.natAbs ≤ size E :=
  (h.natAbs_le_leaving hl).trans (size_filter_le E _)

/-! Potentials. -/

def NoNegativeCycle (E : List (Edge V)) : Prop := ∀ x l w, Walk E x l x w → l.Nodup → 0 ≤ w

/-- The weight of a walk from `x` to a target that visits no vertex twice. -/
def Route (E : List (Edge V)) (T : V → Prop) (x : V) (w : ℤ) : Prop :=
  ∃ l t, T t ∧ Walk E x l t w ∧ (l ++ [t]).Nodup

omit [DecidableEq V] in
theorem Route.refl {T : V → Prop} {x : V} (hx : T x) : Route E T x 0 :=
  ⟨[], x, hx, Walk.nil x, List.nodup_singleton x⟩

/-- Reaching a target through an edge is reaching it at least as well. -/
theorem Route.through {T : V → Prop} (hcycle : NoNegativeCycle E) {x y : V} {a b : ℤ} (hedge : ⟨x, y, a⟩ ∈ E)
    (h : Route E T y b) : ∃ w ≤ a + b, Route E T x w := by
  obtain ⟨l, t, ht, hwalk, hnodup⟩ := h
  by_cases hx : x ∈ l
  · -- the walk comes back to `x`: what lies before is a cycle
    obtain ⟨p, q, rfl⟩ := List.append_of_mem hx
    obtain ⟨b₁, b₂, hfirst, hsecond, rfl⟩ := hwalk.split
    have hall := List.nodup_append.mp hnodup
    have hloop : (x :: p).Nodup := by
      have hmid := List.nodup_middle.mp hall.1
      exact hmid.sublist ((List.sublist_append_left p q).cons_cons x)
    have hnonneg := hcycle x (x :: p) (a + b₁) (Walk.cons hedge hfirst) hloop
    refine ⟨b₂, by omega, x :: q, t, ht, hsecond, ?_⟩
    rw [List.append_assoc] at hnodup
    exact hnodup.sublist (List.sublist_append_right p _)
  · by_cases hxt : x = t
    · subst hxt
      have hloop : (x :: l).Nodup := List.nodup_cons.mpr ⟨hx, (List.nodup_append.mp hnodup).1⟩
      have hnonneg := hcycle x (x :: l) (a + b) (Walk.cons hedge hwalk) hloop
      exact ⟨0, hnonneg, Route.refl ht⟩
    · refine ⟨a + b, le_rfl, x :: l, t, ht, Walk.cons hedge hwalk, ?_⟩
      rw [List.cons_append, List.nodup_cons, List.mem_append, List.mem_singleton]
      exact ⟨not_or.mpr ⟨hx, hxt⟩, hnodup⟩

theorem Route.least {T : V → Prop} {x : V} (h : ∃ w, Route E T x w) :
    ∃ m, Route E T x m ∧ ∀ w, Route E T x w → m ≤ w := by
  refine Int.exists_least_of_bdd ⟨-(size E : ℤ), ?_⟩ h
  rintro w ⟨l, t, -, hwalk, hnodup⟩
  have habs := hwalk.natAbs_le (List.nodup_append.mp hnodup).1
  omega

theorem exists_satisfies (hcycle : NoNegativeCycle E) : ∃ u, Satisfies E u := by
  have hleast : ∀ x, ∃ m, Route E (fun _ => True) x m ∧ ∀ w, Route E (fun _ => True) x w → m ≤ w :=
    fun x => Route.least ⟨0, Route.refl trivial⟩
  choose m hroute hmin using hleast
  refine ⟨fun x => -m x, fun e he => ?_⟩
  obtain ⟨w, hw, hthrough⟩ := (hroute e.target).through hcycle he
  have hle := hmin e.source w hthrough
  dsimp only
  omega

omit [DecidableEq V] in
theorem noNegativeCycle_of_satisfies {u : V → ℤ} (hu : Satisfies E u) : NoNegativeCycle E :=
  fun _ _ _ hwalk _ => hwalk.cycle_nonneg hu

/-- A bound that every solution meets is that of a walk. -/
theorem exists_walk_of_implied {u₀ : V → ℤ} (hsat : Satisfies E u₀) {i j : V} {c : ℤ}
    (himplied : ∀ u, Satisfies E u → u j ≤ u i + c) : ∃ l w, Walk E i l j w ∧ l.Nodup ∧ w ≤ c := by
  classical
  by_contra hnone
  have hcycle := noNegativeCycle_of_satisfies hsat
  have hleast : ∀ x, ∃ m, (∃ w, Route E (· = j) x w) → Route E (· = j) x m ∧ ∀ w, Route E (· = j) x w → m ≤ w := by
    intro x
    by_cases hx : ∃ w, Route E (· = j) x w
    · obtain ⟨m, hm⟩ := Route.least hx
      exact ⟨m, fun _ => hm⟩
    · exact ⟨0, fun h => absurd h hx⟩
  choose m hm using hleast
  -- the farther a vertex that reaches `j` is, the lower; the others keep their place, far below
  let low : V → ℤ := fun x => u₀ x - (u₀ i + c + 1)
  let u : V → ℤ := fun x => if ∃ w, Route E (· = j) x w then max (-m x) (low x) else low x
  have hu : Satisfies E u := by
    intro e he
    have hedge := hsat e he
    have hlow : low e.target ≤ low e.source + e.weight := by
      simp only [low]
      omega
    by_cases htarget : ∃ w, Route E (· = j) e.target w
    · obtain ⟨w, hw, hthrough⟩ := (hm e.target htarget).1.through hcycle he
      have hsource : ∃ w, Route E (· = j) e.source w := ⟨w, hthrough⟩
      have hle := (hm e.source hsource).2 w hthrough
      simp only [u, if_pos htarget, if_pos hsource]
      omega
    · simp only [u, if_neg htarget]
      by_cases hsource : ∃ w, Route E (· = j) e.source w
      · simp only [if_pos hsource]
        omega
      · simp only [if_neg hsource]
        exact hlow
  have hj : 0 ≤ u j := by
    have hroute : Route E (· = j) j 0 := Route.refl rfl
    have hle := (hm j ⟨0, hroute⟩).2 0 hroute
    simp only [u, if_pos (⟨0, hroute⟩ : ∃ w, Route E (· = j) j w)]
    omega
  have hi : u i < -c := by
    have hlow : low i < -c := by
      simp only [low]
      omega
    by_cases hroute : ∃ w, Route E (· = j) i w
    · obtain ⟨l, t, rfl, hwalk, hnodup⟩ := (hm i hroute).1
      have hfar : c < m i := by
        by_contra hle
        exact hnone ⟨l, m i, hwalk, (List.nodup_append.mp hnodup).1, not_lt.mp hle⟩
      simp only [u, if_pos hroute]
      omega
    · simp only [u, if_neg hroute]
      exact hlow
  have hbound := himplied u hu
  omega

end

end Difference
