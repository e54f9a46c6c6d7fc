import Mathlib.Data.List.Basic

/-! Depth-first search of a graph that may have cycles, with marks: it ends where what can be reached is finite, and it
finds an answer where one can be reached. -/

namespace Visit

variable {ι κ ω : Type*}

/-- `s` is reached from `t` through nodes that give no verdict. -/
inductive Leads (verdict : ι → Option (Option ω)) (next : ι → List ι) (s : ι) : ι → Prop
  | refl : Leads verdict next s s
  | step {t c : ι} : verdict t = none → c ∈ next t → Leads verdict next s c → Leads verdict next s t

/-- Walks nodes in turn until one has an answer; `none` where a walk does not end. -/
def visitAll (walk : List κ → ι → Option (Option ω × List κ)) : List ι → List κ → Option (Option ω × List κ)
  | [], seen => some (none, seen)
  | c :: rest, seen =>
    match walk seen c with
    | none => none
    | some (some answer, seen) => some (some answer, seen)
    | some (none, seen) => visitAll walk rest seen

theorem visitAll_append {walk : List κ → ι → Option (Option ω × List κ)} (first second : List ι) (seen : List κ) :
    visitAll walk (first ++ second) seen =
      match visitAll walk first seen with
      | none => none
      | some (some answer, seen) => some (some answer, seen)
      | some (none, seen) => visitAll walk second seen := by
  induction first generalizing seen with
  | nil => rfl
  | cons c first ih =>
    cases hwalk : walk seen c with
    | none => simp [visitAll, hwalk]
    | some r =>
      obtain ⟨_ | answer, seen'⟩ := r
      · simp [visitAll, hwalk, ih]
      · simp [visitAll, hwalk]

section Marks

variable {key : ι → κ} {verdict : ι → Option (Option ω)} {next : ι → List ι}

/-- A node that is marked, or at which the search turns back. -/
def Done (key : ι → κ) (verdict : ι → Option (Option ω)) (seen : List κ) (t : ι) : Prop :=
  key t ∈ seen ∨ verdict t = some none

/-- Marks stay, and every new one is on a node whose children are done. -/
structure Explores (key : ι → κ) (verdict : ι → Option (Option ω)) (next : ι → List ι) (seen seen' : List κ) :
    Prop where
  mono : ∀ k ∈ seen, k ∈ seen'
  closed : ∀ s, key s ∈ seen' → key s ∈ seen ∨ verdict s = none ∧ ∀ c ∈ next s, Done key verdict seen' c

theorem Explores.refl (seen : List κ) : Explores key verdict next seen seen := ⟨fun _ h => h, fun _ h => .inl h⟩

theorem Done.mono {seen seen' : List κ} {t : ι} (h : Done key verdict seen t) (hsub : ∀ k ∈ seen, k ∈ seen') :
    Done key verdict seen' t := h.imp_left (hsub _)

theorem Explores.trans {a b c : List κ} (h : Explores key verdict next a b) (h' : Explores key verdict next b c) :
    Explores key verdict next a c where
  mono k hk := h'.mono k (h.mono k hk)
  closed s hs := by
    rcases h'.closed s hs with hb | hnew
    · rcases h.closed s hb with ha | ⟨hverdict, hnext⟩
      · exact .inl ha
      · exact .inr ⟨hverdict, fun c hc => (hnext c hc).mono h'.mono⟩
    · exact .inr hnew

end Marks

variable [DecidableEq κ] (key : ι → κ) (verdict : ι → Option (Option ω)) (next : ι → List ι)

def visit : ℕ → List κ → ι → Option (Option ω × List κ)
  | 0, _, _ => none
  | fuel + 1, seen, t =>
    match verdict t with
    | some answer => some (answer, seen)
    | none => if key t ∈ seen then some (none, seen) else visitAll (visit fuel) (next t) (key t :: seen)

variable {key verdict next}

/-- An answer is the verdict of a node that is reached. -/
theorem visit_some {fuel : ℕ} {seen seen' : List κ} {t : ι} {answer : ω}
    (h : visit key verdict next fuel seen t = some (some answer, seen')) :
    ∃ s, Leads verdict next s t ∧ verdict s = some (some answer) := by
  induction fuel generalizing seen seen' t with
  | zero => cases h
  | succ fuel ih =>
    rw [visit] at h
    cases hverdict : verdict t with
    | some r =>
      rw [hverdict] at h
      cases h
      exact ⟨t, .refl, hverdict⟩
    | none =>
      rw [hverdict] at h
      by_cases hmarked : key t ∈ seen
      · simp [hmarked] at h
      · simp only [hmarked, if_false] at h
        have hall : ∀ children seen, visitAll (visit key verdict next fuel) children seen = some (some answer, seen') →
            ∃ c ∈ children, ∃ s, Leads verdict next s c ∧ verdict s = some (some answer) := by
          intro children
          induction children with
          | nil => simp [visitAll]
          | cons c rest ihrest =>
            intro seen hrun
            cases hwalk : visit key verdict next fuel seen c with
            | none => simp [visitAll, hwalk] at hrun
            | some r =>
              obtain ⟨_ | found, seen''⟩ := r
              · simp only [visitAll, hwalk] at hrun
                obtain ⟨c', hc', hfound⟩ := ihrest _ hrun
                exact ⟨c', by simp [hc'], hfound⟩
              · simp only [visitAll, hwalk, Option.some.injEq, Prod.mk.injEq] at hrun
                obtain ⟨rfl, rfl⟩ := hrun
                exact ⟨c, by simp, ih hwalk⟩
        obtain ⟨c, hc, s, hleads, hs⟩ := hall _ _ h
        exact ⟨s, .step hverdict hc hleads, hs⟩

/-- Where there is no answer, what is left marked has been explored. -/
theorem visit_none (hkey : Function.Injective key) {fuel : ℕ} {seen seen' : List κ} {t : ι}
    (h : visit key verdict next fuel seen t = some (none, seen')) :
    Explores key verdict next seen seen' ∧ Done key verdict seen' t := by
  induction fuel generalizing seen seen' t with
  | zero => cases h
  | succ fuel ih =>
    rw [visit] at h
    cases hverdict : verdict t with
    | some r =>
      rw [hverdict] at h
      cases h
      exact ⟨.refl seen, .inr hverdict⟩
    | none =>
      rw [hverdict] at h
      by_cases hmarked : key t ∈ seen
      · simp only [hmarked, if_true, Option.some.injEq, Prod.mk.injEq, true_and] at h
        exact h ▸ ⟨.refl seen, .inl hmarked⟩
      · simp only [hmarked, if_false] at h
        have hall : ∀ children seen, visitAll (visit key verdict next fuel) children seen = some (none, seen') →
            Explores key verdict next seen seen' ∧ ∀ c ∈ children, Done key verdict seen' c := by
          intro children
          induction children with
          | nil =>
            intro seen hrun
            cases hrun
            exact ⟨.refl _, by simp⟩
          | cons c rest ihrest =>
            intro seen hrun
            cases hwalk : visit key verdict next fuel seen c with
            | none => simp [visitAll, hwalk] at hrun
            | some r =>
              obtain ⟨_ | found, seen''⟩ := r
              · simp only [visitAll, hwalk] at hrun
                obtain ⟨hexplores, hdone⟩ := ih hwalk
                obtain ⟨hexplores', hrest⟩ := ihrest _ hrun
                refine ⟨hexplores.trans hexplores', fun c' hc' => ?_⟩
                rcases List.mem_cons.mp hc' with rfl | hc'
                · exact hdone.mono hexplores'.mono
                · exact hrest c' hc'
              · simp [visitAll, hwalk] at hrun
        obtain ⟨hexplores, hchildren⟩ := hall _ _ h
        refine ⟨⟨fun k hk => hexplores.mono k (by simp [hk]), fun s hs => ?_⟩, .inl (hexplores.mono _ (by simp))⟩
        rcases hexplores.closed s hs with hseen | hnew
        · rcases List.mem_cons.mp hseen with heq | hseen
          · obtain rfl := hkey heq
            exact .inr ⟨hverdict, hchildren⟩
          · exact .inl hseen
        · exact .inr hnew

/-- Where nothing is marked before, no answer means that none is reached. -/
theorem visit_none_complete (hkey : Function.Injective key) {fuel : ℕ} {seen' : List κ} {t : ι}
    (h : visit key verdict next fuel [] t = some (none, seen')) {s : ι} (hleads : Leads verdict next s t) (answer : ω) :
    verdict s ≠ some (some answer) := by
  obtain ⟨hexplores, hdone⟩ := visit_none hkey h
  have hreached : Done key verdict seen' s := by
    clear h
    induction hleads with
    | refl => exact hdone
    | step hverdict hc _ ih =>
      refine ih ?_
      rcases hdone with hmarked | hturn
      · rcases hexplores.closed _ hmarked with hnil | ⟨-, hnext⟩
        · simp at hnil
        · exact hnext _ hc
      · simp [hverdict] at hturn
  intro hanswer
  rcases hreached with hmarked | hturn
  · rcases hexplores.closed _ hmarked with hnil | ⟨hverdict, -⟩
    · simp at hnil
    · simp [hverdict] at hanswer
  · simp [hturn] at hanswer

/-- The search ends where the nodes that are reached are among finitely many. -/
theorem visit_total {all : List ι} (hclosed : ∀ s ∈ all, verdict s = none → ∀ c ∈ next s, c ∈ all) {fuel : ℕ}
    {seen : List κ} {t : ι} (ht : t ∈ all) (hfuel : (all.filter fun s => key s ∉ seen).length < fuel) :
    ∃ r, visit key verdict next fuel seen t = some r ∧ ∀ k ∈ seen, k ∈ r.2 := by
  induction fuel generalizing seen t with
  | zero => omega
  | succ fuel ih =>
    rw [visit]
    cases hverdict : verdict t with
    | some r => exact ⟨_, rfl, fun k hk => hk⟩
    | none =>
      by_cases hmarked : key t ∈ seen
      · exact ⟨(none, seen), by simp [hmarked], fun k hk => hk⟩
      · simp only [hmarked, if_false]
        have hfewer : ∀ seen' : List κ, (∀ k ∈ key t :: seen, k ∈ seen') →
            (all.filter fun s => key s ∉ seen').length < fuel := by
          intro seen' hsub
          have hsublist : (all.filter fun s => key s ∉ seen').Sublist
              ((all.filter fun s => key s ∉ seen).filter fun s => key s ≠ key t) := by
            rw [List.filter_filter]
            refine List.monotone_filter_right all fun s hs => ?_
            have hs : key s ∉ seen' := by simpa using hs
            have hne : key s ≠ key t := fun heq => hs (heq ▸ hsub _ (by simp))
            have hold : key s ∉ seen := fun hold => hs (hsub _ (by simp [hold]))
            simp [hne, hold]
          have hlt : ((all.filter fun s => key s ∉ seen).filter fun s => key s ≠ key t).length <
              (all.filter fun s => key s ∉ seen).length := by
            rw [List.length_filter_lt_length_iff_exists]
            exact ⟨t, by simp [ht, hmarked], by simp⟩
          have := hsublist.length_le
          omega
        have hall : ∀ children, (∀ c ∈ children, c ∈ all) → ∀ seen', (∀ k ∈ key t :: seen, k ∈ seen') →
            ∃ r, visitAll (visit key verdict next fuel) children seen' = some r ∧ ∀ k ∈ seen', k ∈ r.2 := by
          intro children
          induction children with
          | nil => exact fun _ seen' _ => ⟨_, rfl, fun k hk => hk⟩
          | cons c rest ihrest =>
            intro hchildren seen' hsub
            obtain ⟨⟨answer, seen''⟩, hwalk, hmono⟩ := ih (hchildren c (by simp)) (hfewer seen' hsub)
            cases answer with
            | some answer => exact ⟨(some answer, seen''), by simp [visitAll, hwalk], hmono⟩
            | none =>
              obtain ⟨r, hrun, hmono'⟩ := ihrest (fun c' hc' => hchildren c' (by simp [hc'])) seen''
                fun k hk => hmono k (hsub k hk)
              exact ⟨r, by simp [visitAll, hwalk, hrun], fun k hk => hmono' k (hmono k hk)⟩
        obtain ⟨r, hrun, hmono⟩ := hall (next t) (hclosed t ht hverdict) (key t :: seen) fun k hk => hk
        exact ⟨r, hrun, fun k hk => hmono k (by simp [hk])⟩

end Visit
