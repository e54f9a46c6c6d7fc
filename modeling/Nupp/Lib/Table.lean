import Mathlib.Data.Finmap
import Mathlib.Data.List.AList

/-! Finite tables with distinct keys, and the list of what their entries hold. Gathering
follows insertion and erasure up to the order in which a table is walked. -/

namespace Nupp.Table

variable {α β γ : Type*} [DecidableEq α]

/-- What the entries of a table hold, in the order the table is walked. -/
def gather (f : α → β → List γ) (t : AList fun _ : α => β) : List γ :=
  t.entries.flatMap fun entry => f entry.1 entry.2

omit [DecidableEq α] in
@[simp]
theorem gather_empty (f : α → β → List γ) : gather f (∅ : AList fun _ : α => β) = [] := rfl

theorem gather_insert (f : α → β → List γ) (t : AList fun _ : α => β) (a : α) (b : β) :
    gather f (t.insert a b) = f a b ++ gather f (t.erase a) := by
  simp [gather, AList.entries_insert, AList.erase]

theorem erase_of_lookup_none {t : AList fun _ : α => β} {a : α} (h : t.lookup a = none) :
    t.erase a = t := by
  apply AList.ext
  exact List.kerase_of_notMem_keys (AList.lookup_eq_none.mp h)

private theorem flatMap_kerase (f : α → β → List γ) {a : α} {b : β}
    {entries : List (Sigma fun _ : α => β)} (h : entries.dlookup a = some b) :
    (entries.flatMap fun entry => f entry.1 entry.2).Perm
      (f a b ++ (entries.kerase a).flatMap fun entry => f entry.1 entry.2) := by
  induction entries with
  | nil => simp at h
  | cons entry entries ih =>
    obtain ⟨key, held⟩ := entry
    by_cases hkey : a = key
    · subst hkey
      simp only [List.dlookup_cons_eq, Option.some.injEq] at h
      subst h
      have herase : (⟨a, held⟩ :: entries : List (Sigma fun _ : α => β)).kerase a = entries :=
        List.kerase_cons_eq rfl
      simp [herase]
    · have hne : a ≠ (⟨key, held⟩ : Sigma fun _ : α => β).1 := hkey
      rw [List.dlookup_cons_ne _ _ hne] at h
      rw [List.kerase_cons_ne hne]
      simp only [List.flatMap_cons]
      have hperm := (ih h).append_left (f key held)
      exact hperm.trans (List.perm_append_comm_assoc _ _ _)

theorem gather_of_lookup (f : α → β → List γ) {t : AList fun _ : α => β} {a : α} {b : β}
    (h : t.lookup a = some b) : (gather f t).Perm (f a b ++ gather f (t.erase a)) :=
  flatMap_kerase f h

theorem mem_gather {f : α → β → List γ} {t : AList fun _ : α => β} {x : γ} :
    x ∈ gather f t ↔ ∃ a b, t.lookup a = some b ∧ x ∈ f a b := by
  constructor
  · intro h
    obtain ⟨⟨a, b⟩, hentry, hx⟩ := List.mem_flatMap.mp h
    exact ⟨a, b, AList.mem_lookup_iff.mpr hentry, hx⟩
  · rintro ⟨a, b, h, hx⟩
    exact List.mem_flatMap.mpr ⟨⟨a, b⟩, AList.mem_lookup_iff.mp h, hx⟩

/-- Where nothing is gathered twice, what is gathered names its key. -/
theorem key_unique {f : α → β → List γ} {t : AList fun _ : α => β} (h : (gather f t).Nodup)
    {a a' : α} {b b' : β} (ha : t.lookup a = some b) (ha' : t.lookup a' = some b') {x : γ}
    (hx : x ∈ f a b) (hx' : x ∈ f a' b') : a = a' := by
  by_contra hne
  have hsplit := (gather_of_lookup f ha).nodup_iff.mp h
  have herase : (t.erase a).lookup a' = some b' := by
    rw [AList.lookup_erase_ne (Ne.symm hne)]
    exact ha'
  exact (List.nodup_append.mp hsplit).2.2 x hx x (mem_gather.mpr ⟨a', b', herase, hx'⟩) rfl

theorem length_insert_of_none {t : AList fun _ : α => β} {a : α} {b : β}
    (h : t.lookup a = none) : (t.insert a b).entries.length = t.entries.length + 1 := by
  rw [AList.entries_insert_of_notMem (AList.lookup_eq_none.mp h)]
  rfl

theorem length_erase_of_some {t : AList fun _ : α => β} {a : α} {b : β}
    (h : t.lookup a = some b) : (t.erase a).entries.length + 1 = t.entries.length := by
  have hsingle (t : AList fun _ : α => β) :
      (gather (fun _ _ => [()]) t).length = t.entries.length := by
    simp [gather]
  have hperm := (gather_of_lookup (fun _ _ => [()]) h).length_eq
  rw [List.length_append, hsingle, hsingle] at hperm
  simpa [Nat.add_comm] using hperm.symm

theorem length_insert_of_some {t : AList fun _ : α => β} {a : α} {b b' : β}
    (h : t.lookup a = some b) : (t.insert a b').entries.length = t.entries.length := by
  have herase := length_erase_of_some h
  simpa [AList.entries_insert, AList.erase] using herase

theorem lookup_insert' {t : AList fun _ : α => β} {a a' : α} {b : β} :
    (t.insert a b).lookup a' = if a' = a then some b else t.lookup a' := by
  by_cases h : a' = a
  · subst h
    simp
  · rw [if_neg h, AList.lookup_insert_ne h]

theorem lookup_erase' {t : AList fun _ : α => β} {a a' : α} :
    (t.erase a).lookup a' = if a' = a then none else t.lookup a' := by
  by_cases h : a' = a
  · subst h
    simp
  · rw [if_neg h, AList.lookup_erase_ne h]

end Nupp.Table
