import Mathlib.Data.Set.Defs
import Mathlib.Data.List.Basic

/-! Texts that show where they end, alone and joined by a separator. -/

namespace Delimited

variable {α β : Type}

/-- The text is empty or begins with a letter outside `p`. -/
def Stops (p : β → Bool) (rest : List β) : Prop := ∀ c ∈ rest.head?, p c = false

@[simp] theorem stops_nil {p : β → Bool} : Stops p [] := by simp [Stops]

@[simp] theorem stops_cons {p : β → Bool} {c : β} {rest : List β} :
    Stops p (c :: rest) ↔ p c = false := by simp [Stops]

/-- A run of letters of `p` ends where the first other letter stands. -/
theorem run_unique {p : β → Bool} {u v x y : List β} (hu : ∀ c ∈ u, p c = true)
    (hv : ∀ c ∈ v, p c = true) (hx : Stops p x) (hy : Stops p y) (h : u ++ x = v ++ y) :
    u = v ∧ x = y := by
  induction u generalizing v with
  | nil =>
    cases v with
    | nil => exact ⟨rfl, h⟩
    | cons c v =>
      subst h
      have hc := hv c (by simp)
      rw [List.cons_append, stops_cons] at hx
      simp [hx] at hc
  | cons c u ih =>
    cases v with
    | nil =>
      subst h
      have hc := hu c (by simp)
      rw [List.cons_append, stops_cons] at hy
      simp [hy] at hc
    | cons d v =>
      simp only [List.cons_append, List.cons.injEq] at h
      obtain ⟨rfl, h⟩ := h
      obtain ⟨rfl, rfl⟩ := ih (fun b hb => hu b (by simp [hb])) (fun b hb => hv b (by simp [hb])) h
      exact ⟨rfl, rfl⟩

/-- What is written for the elements of `S` can be read back in front of what may follow. -/
def Delimits (S : Set α) (text : α → List β) (follow : List β → Prop) : Prop :=
  ∀ a ∈ S, ∀ b ∈ S, ∀ x y, follow x → follow y → text a ++ x = text b ++ y → a = b ∧ x = y

/-- The text of a value that may be absent, which `sign` then says. -/
def optional (sign : β) (text : α → List β) (a : Option α) : List β := a.elim [sign] text

theorem Delimits.optional {S : Set α} {text : α → List β} {follow : List β → Prop} {sign : β}
    (h : Delimits S text follow) (hfirst : ∀ a ∈ S, ∀ x y, text a ++ x ≠ sign :: y) :
    Delimits {o | ∀ a ∈ o, a ∈ S} (optional sign text) follow := by
  intro a ha b hb x y hx hy heq
  cases a with
  | none =>
    cases b with
    | none => exact ⟨rfl, List.append_cancel_left heq⟩
    | some b => exact absurd heq.symm (hfirst b (hb b rfl) y x)
  | some a =>
    cases b with
    | none => exact absurd heq (hfirst a (ha a rfl) x y)
    | some b =>
      obtain ⟨rfl, rfl⟩ := h a (ha a rfl) b (hb b rfl) x y hx hy heq
      exact ⟨rfl, rfl⟩

/-- The texts with a separator between each two. -/
def joined (sep : β) : List (List β) → List β
  | [] => []
  | [text] => text
  | text :: next :: rest => text ++ sep :: joined sep (next :: rest)

theorem joined_append_last (sep : β) (texts : List (List β)) (last : List β) :
    joined sep (texts ++ [last]) = texts.flatMap (· ++ [sep]) ++ last := by
  induction texts with
  | nil => rfl
  | cons text texts ih =>
    cases texts with
    | nil => simp [joined]
    | cons next rest => simpa [joined] using ih

/-- A joined list is read back in front of what no element and no separator begins. -/
theorem joined_unique {S : Set α} {text : α → List β} {follow : List β → Prop} {sep : β}
    (h : Delimits S text follow) (hsep : ∀ z, follow (sep :: z)) {x y : List β}
    (hx : follow x) (hy : follow y) (hxsep : x.head? ≠ some sep) (hysep : y.head? ≠ some sep)
    (hxtext : ∀ a ∈ S, ∀ z, x ≠ text a ++ z) (hytext : ∀ a ∈ S, ∀ z, y ≠ text a ++ z)
    {as bs : List α} (has : ∀ a ∈ as, a ∈ S) (hbs : ∀ b ∈ bs, b ∈ S)
    (heq : joined sep (as.map text) ++ x = joined sep (bs.map text) ++ y) : as = bs ∧ x = y := by
  -- a list with elements left begins with the text of its first element
  have hstart : ∀ (c : α) (cs : List α), ∃ z, joined sep ((c :: cs).map text) = text c ++ z := by
    intro c cs
    cases cs with
    | nil => exact ⟨[], by simp [joined]⟩
    | cons d cs => exact ⟨_, rfl⟩
  induction as generalizing bs with
  | nil =>
    cases bs with
    | nil => exact ⟨rfl, heq⟩
    | cons b bs =>
      obtain ⟨z, hz⟩ := hstart b bs
      rw [hz, List.append_assoc] at heq
      exact absurd heq (hxtext b (hbs b (by simp)) _)
  | cons a as ih =>
    have ha := has a (by simp)
    have has' : ∀ a ∈ as, a ∈ S := fun c hc => has c (by simp [hc])
    cases bs with
    | nil =>
      obtain ⟨z, hz⟩ := hstart a as
      rw [hz, List.append_assoc] at heq
      exact absurd heq.symm (hytext a ha _)
    | cons b bs =>
      have hb := hbs b (by simp)
      have hbs' : ∀ b ∈ bs, b ∈ S := fun c hc => hbs c (by simp [hc])
      cases as with
      | nil =>
        cases bs with
        | nil =>
          obtain ⟨rfl, rfl⟩ := h a ha b hb x y hx hy heq
          exact ⟨rfl, rfl⟩
        | cons d bs =>
          simp only [List.map_cons, List.map_nil, joined, List.append_assoc, List.cons_append] at heq
          obtain ⟨-, hrest⟩ := h a ha b hb _ _ hx (hsep _) heq
          exact absurd (by rw [hrest]; rfl) hxsep
      | cons c as =>
        cases bs with
        | nil =>
          simp only [List.map_cons, List.map_nil, joined, List.append_assoc, List.cons_append] at heq
          obtain ⟨-, hrest⟩ := h a ha b hb _ _ (hsep _) hy heq
          exact absurd (by rw [← hrest]; rfl) hysep
        | cons d bs =>
          simp only [List.map_cons, joined, List.append_assoc, List.cons_append] at heq
          obtain ⟨rfl, hrest⟩ := h a ha b hb _ _ (hsep _) (hsep _) heq
          obtain ⟨hlists, rfl⟩ := ih has' hbs' (List.cons.inj hrest).2
          exact ⟨by rw [hlists], rfl⟩

/-- A text in which no `mark` stands before `next`, nor at the end. -/
def Clear (mark next : β) (text : List β) : Prop :=
  ∀ u v, text = u ++ mark :: v → ∃ c w, v = c :: w ∧ c ≠ next

theorem clear_nil {mark next : β} : Clear mark next [] := by
  intro u v h
  simp at h

theorem Clear.append {mark next : β} {s t : List β} (hs : Clear mark next s)
    (ht : Clear mark next t) : Clear mark next (s ++ t) := by
  intro u v h
  rcases List.append_eq_append_iff.mp h with ⟨w, rfl, hw⟩ | ⟨w, rfl, hw⟩
  · exact ht w v hw
  · cases w with
    | nil => exact ht [] v hw.symm
    | cons m w =>
      obtain ⟨rfl, rfl⟩ := List.cons.inj hw
      obtain ⟨c, w', rfl, hc⟩ := hs u w rfl
      exact ⟨c, w' ++ t, rfl, hc⟩

theorem clear_of_not_mem {mark next : β} {s : List β} (h : mark ∉ s) : Clear mark next s := by
  rintro u v rfl
  simp at h

theorem Clear.cons_mark {mark next c : β} {s : List β} (hc : c ≠ next)
    (hs : Clear mark next (c :: s)) : Clear mark next (mark :: c :: s) := by
  intro u v h
  cases u with
  | nil => exact ⟨c, s, (List.cons.inj h).2.symm, hc⟩
  | cons d u => exact hs u v (List.cons.inj h).2

/-- After a text without `mark next`, the next `mark next` stands behind that text. -/
theorem Clear.behind {mark next : β} {s u v rest : List β} (hs : Clear mark next s)
    (h : s ++ rest = u ++ mark :: next :: v) : ∃ w, u = s ++ w ∧ rest = w ++ mark :: next :: v := by
  rcases List.append_eq_append_iff.mp h with ⟨w, rfl, hw⟩ | ⟨w, rfl, hw⟩
  · exact ⟨w, rfl, hw⟩
  · cases w with
    | nil => exact ⟨[], by simp, hw.symm⟩
    | cons m w =>
      obtain ⟨rfl, hnext⟩ := List.cons.inj hw
      obtain ⟨c, w', rfl, hc⟩ := hs u w rfl
      exact absurd (List.cons.inj hnext).1 hc.symm

/-- A pair whose first letter does not end the front stands in the front or behind it. -/
theorem pair_infix_append {a b : β} {u v : List β} (hu : u.getLast? ≠ some a) :
    [a, b] <:+: u ++ v ↔ [a, b] <:+: u ∨ [a, b] <:+: v := by
  constructor
  · rintro ⟨x, y, h⟩
    rw [List.append_assoc] at h
    rcases List.append_eq_append_iff.mp h with ⟨w, rfl, hw⟩ | ⟨w, rfl, hw⟩
    · rcases w with _ | ⟨c, _ | ⟨d, w⟩⟩
      · exact .inr ⟨[], y, hw⟩
      · obtain ⟨hc, -⟩ := List.cons.inj hw
        simp [← hc] at hu
      · obtain ⟨hc, hw⟩ := List.cons.inj hw
        obtain ⟨hd, -⟩ := List.cons.inj hw
        exact .inl ⟨x, w, by simp [hc, hd]⟩
    · exact .inr ⟨w, y, by simp [hw]⟩
  · rintro (h | h)
    · exact h.trans (List.prefix_append u v).isInfix
    · exact h.trans (List.suffix_append u v).isInfix

theorem getLast_flatMap_ne {a : β} {text : α → List β} {l : List α}
    (h : ∀ c ∈ l, (text c).getLast? ≠ some a) : (l.flatMap text).getLast? ≠ some a := by
  induction l with
  | nil => simp
  | cons c l ih =>
    rw [List.flatMap_cons, List.getLast?_append]
    have hrest := ih fun d hd => h d (List.mem_cons_of_mem _ hd)
    cases hlast : (l.flatMap text).getLast? with
    | none => simpa using h c (List.mem_cons_self ..)
    | some d => simpa [hlast] using hrest

/-- A pair whose first letter ends no text stands in one of the texts. -/
theorem pair_infix_flatMap {a b : β} {text : α → List β} {l : List α}
    (h : ∀ c ∈ l, (text c).getLast? ≠ some a) :
    [a, b] <:+: l.flatMap text ↔ ∃ c ∈ l, [a, b] <:+: text c := by
  induction l with
  | nil => simp
  | cons c l ih =>
    rw [List.flatMap_cons, pair_infix_append (h c (List.mem_cons_self ..)),
      ih fun d hd => h d (List.mem_cons_of_mem _ hd), List.exists_mem_cons_iff]

end Delimited
