import Mathlib.Data.List.Basic

/-! Computations that note down what they come across: a value and the notes taken on the way,
with the rules for what holds of both. -/

namespace Nupp

/-- A value, and the notes taken while it was computed. -/
structure Noted (ν : Type) (α : Type) where
  value : α
  notes : List ν

namespace Noted

variable {ν α β : Type}

instance : Monad (Noted ν) where
  pure a := ⟨a, []⟩
  bind r f := ⟨(f r.value).value, r.notes ++ (f r.value).notes⟩

def note (n : ν) : Noted ν Unit := ⟨(), [n]⟩

/-- Every note is as `P` says, and the value as `Q` says. -/
def Holds (P : ν → Prop) (Q : α → Prop) (r : Noted ν α) : Prop :=
  (∀ n ∈ r.notes, P n) ∧ Q r.value

variable {P : ν → Prop} {Q : α → Prop} {R : β → Prop}

theorem holds_pure {a : α} (h : Q a) : Holds P Q (pure a : Noted ν α) :=
  ⟨fun _ hn => (List.not_mem_nil hn).elim, h⟩

theorem holds_bind {r : Noted ν α} {f : α → Noted ν β} (hr : Holds P Q r)
    (hf : ∀ a, Q a → Holds P R (f a)) : Holds P R (r >>= f) := by
  refine ⟨fun n hn => ?_, (hf r.value hr.2).2⟩
  rcases List.mem_append.mp hn with hn | hn
  · exact hr.1 n hn
  · exact (hf r.value hr.2).1 n hn

theorem holds_note {n : ν} (h : P n) : Holds P (fun _ => True) (note n) :=
  ⟨fun _ hm => List.mem_singleton.mp hm ▸ h, trivial⟩

end Noted

end Nupp
