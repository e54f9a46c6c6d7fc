import Mathlib.Order.FixedPoints
import Mathlib.Order.CompletePartialOrder

/-! Greatest fixed points of an operator on sets, under assumptions: what may be taken for
granted while a point is being decided, and what that says when nothing is. -/

namespace Nupp.Coinduction

variable {P : Type*} (F : Set P →o Set P) {A B : Set P} {p : P}

/-- The operator that takes `A` for granted. -/
def granted (A : Set P) : Set P →o Set P where
  toFun X := F (X ∪ A)
  monotone' _ _ h := F.monotone (Set.union_subset_union_left A h)

/-- What holds while `A` is taken for granted. -/
def under (A : Set P) : Set P := OrderHom.gfp (granted F A)

theorem under_unfold (A : Set P) : under F A = F (under F A ∪ A) :=
  (OrderHom.map_gfp (granted F A)).symm

theorem le_under {X : Set P} (h : X ⊆ F (X ∪ A)) : X ⊆ under F A :=
  OrderHom.le_gfp (granted F A) h

theorem under_empty : under F ∅ = OrderHom.gfp F := by
  have hsame : granted F ∅ = F := by
    refine OrderHom.ext _ _ (funext fun X => ?_)
    exact congrArg F (Set.union_empty X)
  rw [under, hsame]

theorem under_mono (h : A ⊆ B) : under F A ⊆ under F B := by
  refine le_under F ?_
  have hunfold := under_unfold F A
  calc under F A = F (under F A ∪ A) := hunfold
    _ ⊆ F (under F A ∪ B) := F.monotone (Set.union_subset_union_right _ h)

theorem gfp_subset_under (A : Set P) : OrderHom.gfp F ⊆ under F A := by
  rw [← under_empty]
  exact under_mono F (Set.empty_subset A)

/-- A point that holds while it is itself taken for granted holds without that. -/
theorem mem_under_of_insert (h : p ∈ under F (insert p A)) : p ∈ under F A := by
  refine le_under F ?_ h
  have hsame : under F (insert p A) ∪ insert p A = under F (insert p A) ∪ A := by
    rw [Set.union_insert, Set.insert_eq_of_mem (Set.mem_union_left A h)]
  rw [← hsame]
  exact (under_unfold F (insert p A)).subset

end Nupp.Coinduction
