import Mathlib.Algebra.Order.Group.Nat
import Mathlib.Logic.Function.Basic
import Mathlib.Logic.Relation
import Mathlib.Order.Basic

/-! Disjoint sets by parent links, without ranks that change: the root of a set is the element of
least rank in it. -/

namespace UnionFind

variable {α : Type} {parent : α → Option α} {rank : α → ℕ}

section Find

variable [DecidableEq α]

/-- Follows the links to a root; `none` when the fuel runs out. -/
def find (parent : α → Option α) : ℕ → α → Option α
  | 0, _ => none
  | fuel + 1, x =>
    match parent x with
    | none => some x
    | some next => if next = x then some x else find parent fuel next

/-- Puts one of two roots under the other. -/
def link (rank : α → ℕ) (parent : α → Option α) (a b : α) : α → Option α :=
  if a = b then parent
  else if rank a < rank b then Function.update parent b (some a)
  else Function.update parent a (some b)

end Find

/-- Links lead to smaller ranks. -/
def Forest (rank : α → ℕ) (parent : α → Option α) : Prop := ∀ x p, parent x = some p → rank p < rank x

/-- The links lead from an element to its root. -/
def Root (parent : α → Option α) (x r : α) : Prop :=
  Relation.ReflTransGen (fun a b => parent a = some b) x r ∧ parent r = none

theorem root_of_none {x : α} (h : parent x = none) : Root parent x x := ⟨.refl, h⟩

theorem Root.step {x p r : α} (hp : parent x = some p) (h : Root parent p r) : Root parent x r :=
  ⟨.head hp h.1, h.2⟩

theorem Root.eq_or_step {x r : α} (h : Root parent x r) :
    (x = r ∧ parent x = none) ∨ ∃ p, parent x = some p ∧ Root parent p r := by
  obtain ⟨hlinks, hroot⟩ := h
  rcases hlinks.cases_head with rfl | ⟨p, hp, hlinks⟩
  · exact .inl ⟨rfl, hroot⟩
  · exact .inr ⟨p, hp, hlinks, hroot⟩

theorem Root.unique {x r s : α} (hr : Root parent x r) (hs : Root parent x s) : r = s := by
  obtain ⟨hlinks, hroot⟩ := hr
  induction hlinks using Relation.ReflTransGen.head_induction_on with
  | refl =>
    rcases hs.eq_or_step with ⟨heq, -⟩ | ⟨p, hp, -⟩
    · exact heq
    · rw [hroot] at hp
      cases hp
  | head hp _ ih =>
    rcases hs.eq_or_step with ⟨-, hnone⟩ | ⟨q, hq, hs⟩
    · rw [hnone] at hp
      cases hp
    · obtain rfl := Option.some.inj (hp.symm.trans hq)
      exact ih hs

theorem Forest.exists_root (h : Forest rank parent) (x : α) : ∃ r, Root parent x r ∧ rank r ≤ rank x := by
  induction hn : rank x using Nat.strong_induction_on generalizing x with
  | _ n ih =>
    cases hp : parent x with
    | none => exact ⟨x, root_of_none hp, hn.le⟩
    | some p =>
      have hlt := h x p hp
      obtain ⟨r, hr, hle⟩ := ih (rank p) (hn ▸ hlt) p rfl
      exact ⟨r, hr.step hp, by omega⟩

theorem Forest.find_eq [DecidableEq α] (h : Forest rank parent) {x r : α} (hr : Root parent x r) {fuel : ℕ}
    (hfuel : rank x < fuel) : find parent fuel x = some r := by
  induction fuel generalizing x with
  | zero => omega
  | succ fuel ih =>
    rcases hr.eq_or_step with ⟨rfl, hnone⟩ | ⟨p, hp, hr⟩
    · rw [find, hnone]
    · have hlt := h x p hp
      have hne : p ≠ x := by
        rintro rfl
        omega
      rw [find, hp]
      dsimp only
      rw [if_neg hne, ih hr (by omega)]

/-! Joined pairs. -/

/-- What some pairs connect is connected by others that connect each of them. -/
theorem eqvGen_of_pairs {R S : α → α → Prop} (h : ∀ x y, R x y → Relation.EqvGen S x y) {x y : α}
    (hxy : Relation.EqvGen R x y) : Relation.EqvGen S x y := by
  induction hxy with
  | rel x y hxy => exact h x y hxy
  | refl x => exact .refl x
  | symm x y _ ih => exact .symm _ _ ih
  | trans x y z _ _ ih ih' => exact .trans _ _ _ ih ih'

/-- Connected elements are equal or have what every paired element has. -/
theorem eq_or_of_eqvGen {R : α → α → Prop} {P : α → Prop} (h : ∀ x y, R x y → P x ∧ P y) {x y : α}
    (hxy : Relation.EqvGen R x y) : x = y ∨ P x ∧ P y := by
  induction hxy with
  | rel x y hxy => exact .inr (h x y hxy)
  | refl => exact .inl rfl
  | symm x y _ ih => exact ih.imp Eq.symm And.symm
  | trans x y z _ _ ih ih' =>
    rcases ih with rfl | ⟨hx, hy⟩
    · exact ih'
    · rcases ih' with rfl | ⟨-, hz⟩
      · exact .inr ⟨hx, hy⟩
      · exact .inr ⟨hx, hz⟩

/-- Two elements have one root exactly when the pairs of `R` connect them. -/
structure Joins (rank : α → ℕ) (R : α → α → Prop) (parent : α → Option α) : Prop where
  forest : Forest rank parent
  same : ∀ {x y r s}, Root parent x r → Root parent y s → (r = s ↔ Relation.EqvGen R x y)

theorem joins_none (rank : α → ℕ) : Joins rank (fun _ _ => False) (fun _ => (none : Option α)) := by
  have hself : ∀ {x r : α}, Root (fun _ => none) x r → x = r := by
    intro x r h
    rcases h.eq_or_step with ⟨heq, -⟩ | ⟨p, hp, -⟩
    · exact heq
    · cases hp
  have heq : ∀ {x y : α}, Relation.EqvGen (fun _ _ => False) x y → x = y := by
    intro x y h
    induction h with
    | rel _ _ hfalse => exact hfalse.elim
    | refl => rfl
    | symm _ _ _ ih => exact ih.symm
    | trans _ _ _ _ _ ih ih' => exact ih.trans ih'
  refine ⟨fun _ _ hp => (by cases hp), fun hx hy => ?_⟩
  rw [← hself hx, ← hself hy]
  exact ⟨fun hxy => hxy ▸ .refl _, heq⟩

/-- The root of an element has the least rank of all that are connected to it. -/
theorem Joins.least {R : α → α → Prop} (h : Joins rank R parent) {x y r : α} (hr : Root parent x r)
    (hxy : Relation.EqvGen R x y) : rank r ≤ rank y := by
  obtain ⟨s, hs, hle⟩ := h.forest.exists_root y
  rwa [(h.same hr hs).mpr hxy]

theorem Joins.connected {R : α → α → Prop} (h : Joins rank R parent) {x r : α} (hr : Root parent x r) :
    Relation.EqvGen R x r := (h.same hr (root_of_none hr.2)).mp rfl

theorem Joins.congr {R S : α → α → Prop} (h : Joins rank R parent) (hRS : ∀ x y, R x y → Relation.EqvGen S x y)
    (hSR : ∀ x y, S x y → Relation.EqvGen R x y) : Joins rank S parent :=
  ⟨h.forest, fun hx hy => (h.same hx hy).trans ⟨eqvGen_of_pairs hRS, eqvGen_of_pairs hSR⟩⟩

section Link

variable [DecidableEq α] {lo hi : α} (hlo : parent lo = none) (hhi : parent hi = none) (hlt : rank lo < rank hi)

include hlo hhi hlt

theorem root_update {x r : α} (h : Root parent x r) :
    Root (Function.update parent hi (some lo)) x (if r = hi then lo else r) := by
  have hne : lo ≠ hi := by
    rintro rfl
    exact lt_irrefl _ hlt
  have hlo' : Root (Function.update parent hi (some lo)) lo lo :=
    root_of_none (by rw [Function.update_of_ne hne, hlo])
  obtain ⟨hlinks, hroot⟩ := h
  induction hlinks using Relation.ReflTransGen.head_induction_on with
  | refl =>
    by_cases hr : r = hi
    · rw [if_pos hr]
      exact hlo'.step (by rw [hr, Function.update_self])
    · rw [if_neg hr]
      exact root_of_none (by rw [Function.update_of_ne hr, hroot])
  | @head x p hp _ ih =>
    have hx : x ≠ hi := by
      rintro rfl
      rw [hhi] at hp
      cases hp
    exact ih.step (by rw [Function.update_of_ne hx, hp])

theorem Joins.update {R : α → α → Prop} (h : Joins rank R parent) {x y : α} (hx : Root parent x lo)
    (hy : Root parent y hi) :
    Joins rank (fun p q => R p q ∨ (p = x ∧ q = y)) (Function.update parent hi (some lo)) := by
  have hforest : Forest rank (Function.update parent hi (some lo)) := by
    intro z p hp
    by_cases hz : z = hi
    · rw [hz, Function.update_self] at hp
      rw [hz, ← Option.some.inj hp]
      exact hlt
    · rw [Function.update_of_ne hz] at hp
      exact h.forest z p hp
  have hgrow : ∀ {p q}, Relation.EqvGen R p q → Relation.EqvGen (fun p q => R p q ∨ (p = x ∧ q = y)) p q :=
    fun hpq => hpq.mono fun _ _ => .inl
  have hjoin : Relation.EqvGen (fun p q => R p q ∨ (p = x ∧ q = y)) lo hi :=
    .trans _ _ _ (.symm _ _ (hgrow (h.connected hx)))
      (.trans _ _ _ (.rel _ _ (.inr ⟨rfl, rfl⟩)) (hgrow (h.connected hy)))
  -- an element is connected to the root it has after the update
  have hconnected : ∀ {z r}, Root parent z r →
      Relation.EqvGen (fun p q => R p q ∨ (p = x ∧ q = y)) z (if r = hi then lo else r) := by
    intro z r hz
    by_cases hr : r = hi
    · rw [if_pos hr]
      exact .trans _ _ _ (hgrow (h.connected hz)) (hr ▸ .symm _ _ hjoin)
    · rw [if_neg hr]
      exact hgrow (h.connected hz)
  refine ⟨hforest, ?_⟩
  intro z w r s hz hw
  obtain ⟨r₀, hz₀, -⟩ := h.forest.exists_root z
  obtain ⟨s₀, hw₀, -⟩ := h.forest.exists_root w
  obtain rfl := (root_update hlo hhi hlt hz₀).unique hz
  obtain rfl := (root_update hlo hhi hlt hw₀).unique hw
  constructor
  · intro heq
    have hright := hconnected hw₀
    rw [← heq] at hright
    exact .trans _ _ _ (hconnected hz₀) (.symm _ _ hright)
  · intro hzw
    -- having one root after the update is an equivalence that holds of the pairs
    have hsame : ∀ {p q}, Relation.EqvGen (fun p q => R p q ∨ (p = x ∧ q = y)) p q → ∀ {r s}, Root parent p r →
        Root parent q s → (if r = hi then lo else r) = if s = hi then lo else s := by
      intro p q hpq
      induction hpq with
      | rel p q hpq =>
        intro r s hr hs
        rcases hpq with hpq | ⟨rfl, rfl⟩
        · rw [(h.same hr hs).mpr (.rel _ _ hpq)]
        · rw [hr.unique hx, hs.unique hy, if_pos rfl, ite_self]
      | refl p =>
        intro r s hr hs
        rw [hr.unique hs]
      | symm p q _ ih =>
        intro r s hr hs
        exact (ih hs hr).symm
      | trans p q t _ _ ih ih' =>
        intro r s hr hs
        obtain ⟨u, hu, -⟩ := h.forest.exists_root q
        exact (ih hr hu).trans (ih' hu hs)
    exact hsame hzw hz₀ hw₀

end Link

/-- Linking the roots of two elements connects them and nothing else. -/
theorem Joins.link [DecidableEq α] {R : α → α → Prop} (h : Joins rank R parent) {x y a b : α} (hx : Root parent x a)
    (hy : Root parent y b) (hinj : rank a = rank b → a = b) :
    Joins rank (fun p q => R p q ∨ (p = x ∧ q = y)) (link rank parent a b) := by
  rw [UnionFind.link]
  by_cases hab : a = b
  · rw [if_pos hab]
    refine h.congr (fun p q hpq => .rel _ _ (.inl hpq)) ?_
    rintro p q (hpq | ⟨rfl, rfl⟩)
    · exact .rel _ _ hpq
    · exact (h.same hx hy).mp hab
  · rw [if_neg hab]
    by_cases hlt : rank a < rank b
    · rw [if_pos hlt]
      exact h.update hx.2 hy.2 hlt hx hy
    · have hgt : rank b < rank a := by
        have hne : rank a ≠ rank b := fun heq => hab (hinj heq)
        omega
      rw [if_neg hlt]
      refine (h.update hy.2 hx.2 hgt hy hx).congr ?_ ?_
      · rintro p q (hpq | ⟨rfl, rfl⟩)
        · exact .rel _ _ (.inl hpq)
        · exact .symm _ _ (.rel _ _ (.inr ⟨rfl, rfl⟩))
      · rintro p q (hpq | ⟨rfl, rfl⟩)
        · exact .rel _ _ (.inl hpq)
        · exact .symm _ _ (.rel _ _ (.inr ⟨rfl, rfl⟩))

end UnionFind
