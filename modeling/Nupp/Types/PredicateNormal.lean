import Nupp.Types.PredicateImplies

/-! What `normalize` leaves is in canonical order, where no operand collapses into an operand of
the junction around it; between such refinements an implication is kept by every value. -/

namespace Nupp.predicate

open Double Nupp.Data

variable {ι : Type} {host : Host ι}

section Sorted

theorem less_total {s t : Bytes} (hst : less s t = false) (hts : less t s = false) : s = t := by
  induction s generalizing t with
  | nil =>
    cases t with
    | nil => rfl
    | cons b t => simp [less] at hst
  | cons a s ih =>
    cases t with
    | nil => simp [less] at hts
    | cons b t =>
      simp only [less, Bool.or_eq_false_iff, decide_eq_false_iff_not, Bool.and_eq_false_iff] at hst hts
      have hab : a = b := by
        rcases UInt8.lt_or_eq_of_le (UInt8.not_lt.mp hts.1) with hlt | heq
        · exact absurd hlt hst.1
        · exact heq
      subst hab
      rw [ih (hst.2.resolve_left (by simp)) (hts.2.resolve_left (by simp))]

/-- Parts with two keys stand in one order. -/
theorem before_total {a b : Node} (hkey : key a ≠ key b) (h : before b a = false) :
    before a b = true := by
  simp only [before, Bool.or_eq_false_iff, decide_eq_false_iff_not, not_lt, Bool.and_eq_false_iff,
    Bool.or_eq_true, decide_eq_true_eq, Bool.and_eq_true] at h ⊢
  rcases Nat.lt_or_eq_of_le h.1 with hlt | heq
  · exact .inl hlt
  · refine .inr ⟨heq, ?_⟩
    have hless := h.2.resolve_left (by simp [heq])
    cases hab : less (key a) (key b) with
    | true => rfl
    | false => exact absurd (less_total hab hless) hkey

theorem before_rank {a b : Node} (h : before b a = false) : rank a ≤ rank b := by
  simp only [before, Bool.or_eq_false_iff, decide_eq_false_iff_not, not_lt] at h
  exact h.1

theorem not_before_trans {a b c : Node} (hab : before b a = false) (hbc : before c b = false) :
    before c a = false := by
  cases hca : before c a with
  | false => rfl
  | true =>
    by_cases hkey : key a = key b
    · have hrank := before_rank hab
      have hrank' := before_rank hbc
      simp only [before, Bool.or_eq_true, decide_eq_true_eq, Bool.and_eq_true, hkey] at hca
      simp only [before, Bool.or_eq_false_iff, decide_eq_false_iff_not, Bool.and_eq_false_iff] at hbc
      rcases hca with hlt | ⟨heq, hless⟩
      · omega
      · rcases hbc.2 with hne | hless'
        · omega
        · rw [hless] at hless'
          cases hless'
    · exact absurd (before_trans hca (before_total hkey hab)) (by simp [hbc])

end Sorted

section Arranged

/-- Where a run of `op` meets no operand that is a run of `op` itself, putting parts in front of it
in order leaves it canonical. -/
theorem canonical_fold {op : Junction} (earlier : List Node) :
    ∀ (out : Node) (seen : List Bytes),
      (∀ e ∈ earlier, Canonical e ∧ ∀ c d, e ≠ .junction op c d) → Canonical out →
      (∀ p ∈ flatten op out, key p ∈ seen) →
      (∀ e ∈ earlier, ∀ p ∈ flatten op out, before p e = false) →
      earlier.Pairwise (fun e e' => before e e' = false) →
      Canonical (earlier.foldl (fun (out, seen) part =>
        if key part ∈ seen then (out, seen) else (.junction op part out, key part :: seen))
        (out, seen)).1 := by
  induction earlier with
  | nil => exact fun out seen _ hout _ _ _ => hout
  | cons e earlier ih =>
    intro out seen hparts hout hseen horder hsorted
    have he := hparts e (List.mem_cons_self ..)
    have hrest : ∀ e ∈ earlier, Canonical e ∧ ∀ c d, e ≠ .junction op c d := fun e' he' =>
      hparts e' (List.mem_cons_of_mem _ he')
    have horder' : ∀ e ∈ earlier, ∀ p ∈ flatten op out, before p e = false := fun e' he' =>
      horder e' (List.mem_cons_of_mem _ he')
    obtain ⟨hfirst, hsorted⟩ := List.pairwise_cons.mp hsorted
    rw [List.foldl_cons]
    by_cases hmem : key e ∈ seen
    · simp only [hmem, if_true]
      exact ih out seen hrest hout hseen horder' hsorted
    · simp only [hmem, if_false]
      have hnew : Canonical (.junction op e out) := by
        refine ⟨he.2, he.1, hout, fun p hp => before_total ?_ (horder e (List.mem_cons_self ..) p hp)⟩
        exact fun heq => hmem (heq ▸ hseen p hp)
      have hflatten := flatten_junction hnew
      refine ih _ _ hrest hnew ?_ ?_ hsorted
      · intro p hp
        rw [hflatten] at hp
        rcases List.mem_cons.mp hp with rfl | hp
        · exact List.mem_cons_self ..
        · exact List.mem_cons_of_mem _ (hseen p hp)
      · intro e' he' p hp
        rw [hflatten] at hp
        rcases List.mem_cons.mp hp with rfl | hp
        · exact hfirst e' he'
        · exact horder' e' he' p hp

theorem canonical_arranged {op : Junction} {parts : List Node} {n : Node}
    (hparts : ∀ p ∈ parts, Canonical p ∧ ∀ c d, p ≠ .junction op c d)
    (h : arranged op parts = some n) : Canonical n := by
  unfold arranged at h
  split at h
  · cases h
  · next last earlier hsorted =>
    have hpairwise : (parts.mergeSort fun a b => !before b a).Pairwise
        fun a b => (!before b a) = true :=
      List.pairwise_mergeSort (fun a b c hab hbc => by
          rw [Bool.not_eq_true'] at *
          exact not_before_trans hab hbc) (fun a b => by
          cases hba : before b a with
          | false => rfl
          | true =>
            cases hab : before a b with
            | false => rfl
            | true => exact absurd (before_trans hab hba) (by simp [before_irrefl])) parts
    have hreverse := List.pairwise_reverse.mpr hpairwise
    rw [hsorted] at hreverse
    obtain ⟨hlast, hearlier⟩ := List.pairwise_cons.mp hreverse
    have hmem : ∀ p ∈ last :: earlier, p ∈ parts := by
      intro p hp
      rw [← hsorted, List.mem_reverse] at hp
      exact (List.mergeSort_perm _ _).mem_iff.mp hp
    have hlastPart := hparts last (hmem last (List.mem_cons_self ..))
    have hflatten : flatten op last = [last] := flatten_eq_self hlastPart.2
    cases h
    refine canonical_fold earlier last [key last]
      (fun e he => hparts e (hmem e (List.mem_cons_of_mem _ he))) hlastPart.1 ?_ ?_ ?_
    · rw [hflatten]
      simp
    · intro e he p hp
      rw [hflatten, List.mem_singleton] at hp
      subst hp
      simpa using hlast e he
    · exact hearlier.imp fun h => by simpa using h

theorem reads_fold {op : Junction} (earlier : List Node) :
    ∀ (out : Node) (seen : List Bytes), (∀ e ∈ earlier, Reads host e) → Reads host out →
      Reads host (earlier.foldl (fun (out, seen) part =>
        if key part ∈ seen then (out, seen) else (.junction op part out, key part :: seen))
        (out, seen)).1 := by
  induction earlier with
  | nil => exact fun out seen _ hout => hout
  | cons e earlier ih =>
    intro out seen hparts hout
    have hrest : ∀ e ∈ earlier, Reads host e := fun e' he' => hparts e' (List.mem_cons_of_mem _ he')
    rw [List.foldl_cons]
    by_cases hmem : key e ∈ seen
    · simp only [hmem, if_true]
      exact ih out seen hrest hout
    · simp only [hmem, if_false]
      exact ih _ _ hrest ⟨hparts e (List.mem_cons_self ..), hout⟩

theorem reads_arranged {op : Junction} {parts : List Node} {n : Node}
    (hparts : ∀ p ∈ parts, Reads host p) (h : arranged op parts = some n) : Reads host n := by
  unfold arranged at h
  split at h
  · cases h
  · next last earlier hsorted =>
    have hmem : ∀ p ∈ last :: earlier, p ∈ parts := by
      intro p hp
      rw [← hsorted, List.mem_reverse] at hp
      exact (List.mergeSort_perm _ _).mem_iff.mp hp
    cases h
    exact reads_fold earlier last _ (fun e he => hparts e (hmem e (List.mem_cons_of_mem _ he)))
      (hparts last (hmem last (List.mem_cons_self ..)))

theorem arranged_isSome {op : Junction} {parts : List Node} (h : parts ≠ []) :
    ∃ n, arranged op parts = some n := by
  unfold arranged
  split
  · next hsorted =>
    have hlength := congrArg List.length hsorted
    rw [List.length_reverse, List.length_mergeSort] at hlength
    exact absurd (List.length_eq_zero_iff.mp hlength) h
  · exact ⟨_, rfl⟩

/-- What a run is of, parts having been put in front of it: the parts and what it was of, one of
every key. -/
theorem mem_fold {op : Junction} (earlier : List Node) :
    ∀ (out : Node) (seen : List Bytes), (∀ e ∈ earlier, ∀ c d, e ≠ .junction op c d) →
      (∀ k ∈ seen, ∃ q ∈ flatten op out, key q = k) →
      let n := (earlier.foldl (fun (out, seen) part =>
        if key part ∈ seen then (out, seen) else (.junction op part out, key part :: seen)) (out, seen)).1
      (∀ p ∈ flatten op n, p ∈ flatten op out ∨ p ∈ earlier) ∧ (∀ p ∈ flatten op out, p ∈ flatten op n) ∧
        ∀ p ∈ earlier, ∃ q ∈ flatten op n, key q = key p := by
  induction earlier with
  | nil => exact fun out seen _ _ => ⟨fun p hp => .inl hp, fun p hp => hp, by simp⟩
  | cons e earlier ih =>
    intro out seen hparts hseen
    have hrest : ∀ e ∈ earlier, ∀ c d, e ≠ .junction op c d := fun e' he' => hparts e' (List.mem_cons_of_mem _ he')
    simp only [List.foldl_cons]
    by_cases hmem : key e ∈ seen
    · simp only [hmem, if_true]
      obtain ⟨hfrom, hkept, hkeys⟩ := ih out seen hrest hseen
      refine ⟨fun p hp => (hfrom p hp).imp_right (List.mem_cons_of_mem _), hkept, fun p hp => ?_⟩
      rcases List.mem_cons.mp hp with rfl | hp
      · obtain ⟨q, hq, hkey⟩ := hseen _ hmem
        exact ⟨q, hkept q hq, hkey⟩
      · exact hkeys p hp
    · simp only [hmem, if_false]
      have hflatten : flatten op (.junction op e out) = e :: flatten op out := by
        rw [flatten, if_pos rfl, flatten_eq_self (hparts e List.mem_cons_self)]
        rfl
      obtain ⟨hfrom, hkept, hkeys⟩ := ih (.junction op e out) (key e :: seen) hrest (by
        rw [hflatten]
        intro k hk
        rcases List.mem_cons.mp hk with rfl | hk
        · exact ⟨e, List.mem_cons_self, rfl⟩
        · obtain ⟨q, hq, hkey⟩ := hseen k hk
          exact ⟨q, List.mem_cons_of_mem _ hq, hkey⟩)
      rw [hflatten] at hfrom hkept
      refine ⟨fun p hp => ?_, fun p hp => hkept p (List.mem_cons_of_mem _ hp), fun p hp => ?_⟩
      · rcases hfrom p hp with hp | hp
        · rcases List.mem_cons.mp hp with rfl | hp
          · exact .inr List.mem_cons_self
          · exact .inl hp
        · exact .inr (List.mem_cons_of_mem _ hp)
      · rcases List.mem_cons.mp hp with rfl | hp
        · exact ⟨p, hkept p List.mem_cons_self, rfl⟩
        · exact hkeys p hp

/-- Parts with a key each, arranged, are the parts. -/
theorem mem_arranged {op : Junction} {parts : List Node} {n : Node}
    (hparts : ∀ p ∈ parts, ∀ c d, p ≠ .junction op c d)
    (hkeys : ∀ p ∈ parts, ∀ q ∈ parts, key p = key q → p = q) (h : arranged op parts = some n) (p : Node) :
    p ∈ flatten op n ↔ p ∈ parts := by
  unfold arranged at h
  split at h
  · cases h
  · next last earlier hsorted =>
    have hmem : ∀ q, q ∈ last :: earlier ↔ q ∈ parts := by
      intro q
      rw [← hsorted, List.mem_reverse, (List.mergeSort_perm _ _).mem_iff]
    have hlast := (hmem last).mp List.mem_cons_self
    have hflatten : flatten op last = [last] := flatten_eq_self (hparts last hlast)
    cases h
    obtain ⟨hfrom, hkept, hfound⟩ := mem_fold earlier last [key last]
      (fun e he => hparts e ((hmem e).mp (List.mem_cons_of_mem _ he))) (by
        intro k hk
        exact ⟨last, by simp [hflatten], (List.mem_singleton.mp hk).symm⟩)
    rw [hflatten] at hfrom hkept
    have hin : ∀ q, q ∈ flatten op (earlier.foldl (fun (out, seen) part =>
        if key part ∈ seen then (out, seen) else (.junction op part out, key part :: seen))
        (last, [key last])).1 → q ∈ parts := by
      intro q hq
      rcases hfrom q hq with hq | hq
      · exact List.mem_singleton.mp hq ▸ hlast
      · exact (hmem q).mp (List.mem_cons_of_mem _ hq)
    refine ⟨hin p, fun hp => ?_⟩
    rcases List.mem_cons.mp ((hmem p).mpr hp) with rfl | hearlier
    · exact hkept p List.mem_cons_self
    · obtain ⟨q, hq, hkey⟩ := hfound p hearlier
      exact hkeys q (hin q hq) p hp hkey ▸ hq

end Arranged

section Normalized

theorem normalize_junction (op : Junction) (a b : Node) :
    normalize (.junction op a b) =
      (arranged op ((flatten op (.junction op a b)).map normalize)).getD (.junction op a b) := by
  rw [normalize]
  congr 2
  exact List.attach_map_val

@[simp] theorem normalize_cmp (cmp : Comparison) (path : List Name) (literal : Literal)
    (c : Constant) : normalize (.cmp cmp path literal c) = .cmp cmp path literal c := by
  simp [normalize]

/-- No operand of a run becomes, in its canonical order, a run of the same operator. -/
def Uncollapsed : Node → Prop
  | .junction op a b => Uncollapsed a ∧ Uncollapsed b ∧
    ∀ p ∈ flatten op (.junction op a b), ∀ c d, normalize p ≠ .junction op c d
  | .not a | .len _ a => Uncollapsed a
  | _ => True

theorem uncollapsed_part {op : Junction} {n p : Node} (h : Uncollapsed n) (hp : p ∈ flatten op n) :
    Uncollapsed p := by
  induction n with
  | junction op' a b iha ihb =>
    rw [flatten] at hp
    split at hp
    · rcases List.mem_append.mp hp with hp | hp
      · exact iha h.1 hp
      · exact ihb h.2.1 hp
    · rwa [List.mem_singleton.mp hp]
  | _ => rwa [List.mem_singleton.mp hp]

/-- What `normalize` makes of a junction, from what it makes of the operands. -/
theorem normalize_junction_spec {P : Node → Prop} {op : Junction} {a b : Node}
    (h : ∀ parts n, (∀ p ∈ parts, ∃ q ∈ flatten op (.junction op a b), p = normalize q) →
      arranged op parts = some n → P n) : P (normalize (.junction op a b)) := by
  rw [normalize_junction]
  have hsome : ∃ n, arranged op ((flatten op (.junction op a b)).map normalize) = some n :=
    arranged_isSome (by simp [flatten_ne_nil])
  obtain ⟨n, hn⟩ := hsome
  rw [hn]
  refine h _ n (fun p hp => ?_) hn
  obtain ⟨q, hq, rfl⟩ := List.mem_map.mp hp
  exact ⟨q, hq, rfl⟩

theorem canonical_normalize {n : Node} (h : Uncollapsed n) : Canonical (normalize n) := by
  induction hsize : sizeOf n using Nat.strong_induction_on generalizing n with
  | _ size ih =>
  subst hsize
  cases n with
  | not a =>
    rw [normalize]
    exact ih (sizeOf a) (by simp) h rfl
  | len path a =>
    rw [normalize]
    exact ih (sizeOf a) (by simp) h rfl
  | junction op a b =>
    refine normalize_junction_spec fun parts m hparts hm => canonical_arranged ?_ hm
    intro p hp
    obtain ⟨q, hq, rfl⟩ := hparts p hp
    exact ⟨ih (sizeOf q) (sizeOf_lt_of_mem_flatten hq) (uncollapsed_part h hq) rfl, h.2.2 q hq⟩
  | _ => simp [normalize, Canonical]

theorem reads_normalize {n : Node} (h : Reads host n) : Reads host (normalize n) := by
  induction hsize : sizeOf n using Nat.strong_induction_on generalizing n with
  | _ size ih =>
  subst hsize
  cases n with
  | not a =>
    rw [normalize]
    exact ih (sizeOf a) (by simp) h rfl
  | len path a =>
    rw [normalize]
    exact ih (sizeOf a) (by simp) h rfl
  | junction op a b =>
    refine normalize_junction_spec fun parts m hparts hm => reads_arranged ?_ hm
    intro p hp
    obtain ⟨q, hq, rfl⟩ := hparts p hp
    exact ih (sizeOf q) (sizeOf_lt_of_mem_flatten hq) (reads_part h hq) rfl
  | cmp cmp path literal c => simpa using h
  | _ => simp [normalize, Reads]

theorem readable_normalize {n : Node} (h : Uncollapsed n) (hread : Reads host n) :
    normalize n ∈ Readable host :=
  ⟨canonical_normalize h, reads_normalize hread⟩

/-- What a conjunction is normalized to, where its parts are to readable ones. -/
theorem normalize_conjunction {a b : Node} {parts : List Node}
    (hread : ∀ p ∈ parts, p ∈ Readable host ∧ ∀ op c d, p ≠ .junction op c d)
    (hparts : ∀ q, q ∈ parts ↔ ∃ p ∈ flatten .and (.junction .and a b), normalize p = q) :
    normalize (.junction .and a b) ∈ Readable host ∧
      ∀ q, q ∈ flatten .and (normalize (.junction .and a b)) ↔ q ∈ parts := by
  rw [normalize_junction]
  have hmem : ∀ q, q ∈ (flatten .and (.junction .and a b)).map normalize ↔ q ∈ parts := by
    intro q
    rw [List.mem_map, hparts]
  have hne : (flatten .and (.junction .and a b)).map normalize ≠ [] := by simp [flatten_ne_nil]
  obtain ⟨n, hn⟩ := arranged_isSome hne
  rw [hn]
  have hplain : ∀ p ∈ (flatten .and (.junction .and a b)).map normalize,
      p ∈ Readable host ∧ ∀ op c d, p ≠ .junction op c d := fun p hp => hread p ((hmem p).mp hp)
  refine ⟨⟨canonical_arranged (fun p hp => ⟨(hplain p hp).1.1, (hplain p hp).2 .and⟩) hn,
    reads_arranged (fun p hp => (hplain p hp).1.2) hn⟩, fun q => ?_⟩
  rw [← hmem q]
  exact mem_arranged (fun p hp => (hplain p hp).2 .and)
    (fun p hp q hq => eq_of_key_eq (hplain p hp).1 (hplain q hq).1) hn q

/-- Refinements whose literals mean their constants and in which nothing collapses: an implication
is kept by every value up to C numbers, and one key is one test. -/
theorem normalized_implies {a b : Node} {v : Value ι} (ha : Uncollapsed a) (hb : Uncollapsed b)
    (hra : Reads host a) (hrb : Reads host b) :
    (Unconverted v (normalize a) → implies (normalize a) (normalize b) = true →
        Accepts host (normalize a) v → Accepts host (normalize b) v) ∧
      (key (normalize a) = key (normalize b) →
        (Accepts host (normalize a) v ↔ Accepts host (normalize b) v)) := by
  have hreada := readable_normalize ha hra
  have hreadb := readable_normalize hb hrb
  refine ⟨implies_sound hreada hreadb, fun hkey => ?_⟩
  rw [eq_of_key_eq hreada hreadb hkey]

/-- `self == 0` -/
def isZero : Node := .cmp .eq [] ⟨ascii "0", written_zero⟩ (.number zero)

theorem decompose_isZero :
    decompose isZero = some ⟨some zero, some zero, none, none, []⟩ := rfl

theorem decompose_atLeastZero :
    decompose atLeastZero = some ⟨some zero, none, none, none, []⟩ := rfl

theorem zero_implies : implies isZero atLeastZero = true := by
  unfold implies
  split
  · rfl
  · simp [decompose_isZero, decompose_atLeastZero, lowFits, highFits, lt_irrefl]

theorem zero_implies_normalized : implies (normalize isZero) (normalize atLeastZero) = true := by
  simpa [isZero, atLeastZero] using zero_implies

/-- Zero passes both tests. -/
theorem normalized_implies_zero :
    Accepts bareHost (normalize atLeastZero) (.scalar (.number zero)) := by
  have hzero : Reads bareHost isZero := ⟨rfl, by decide⟩
  have hleast : Reads bareHost atLeastZero := ⟨rfl, by decide⟩
  refine (normalized_implies (a := isZero) (b := atLeastZero) trivial trivial hzero hleast).1
    (by rintro ⟨⟩) zero_implies_normalized ?_
  have haccepts : Accepts bareHost isZero (.scalar (.number zero)) :=
    (accepts_value (.inr (.inr rfl)) rfl (by rintro ⟨⟩)).mpr
      ⟨zero, rfl, fun _ => zero_le_zero, fun _ => zero_le_zero⟩
  simpa [isZero] using haccepts

/-- A state with 64-bit numbers, of which zero compares as the number does. -/
def wideHost : Host Unit :=
  { bareHost with equal := fun _ c => if c = .number zero then some true else some false }

/-- `0LL` is accepted by `self == 0` and not by `self >= 0`, which tests for a number. -/
theorem implies_not_kept :
    build bareTonumber (fun _ => none)
        (.compare .eq (.name (ascii "self")) (.number zeroToken)) = .ok isZero ∧
      build bareTonumber (fun _ => none)
        (.compare .ge (.name (ascii "self")) (.number zeroToken)) = .ok atLeastZero ∧
      ¬ (implies (normalize isZero) (normalize atLeastZero) = true →
        Accepts wideHost (normalize isZero) (.object .cdata ()) →
        Accepts wideHost (normalize atLeastZero) (.object .cdata ())) := by
  refine ⟨rfl, rfl, fun hkept => ?_⟩
  have hzero : Accepts wideHost isZero (.object .cdata ()) := by
    have hanswer : (render isZero .self).answer wideHost (.object .cdata ()) =
        wideHost.compare .eq (.object .cdata ()) (.number zero) := answer_compare rfl rfl
    rw [Accepts, hanswer]
    rfl
  have hleast : Accepts wideHost atLeastZero (.object .cdata ()) := by
    simpa [isZero, atLeastZero] using hkept zero_implies_normalized (by simpa [isZero] using hzero)
  obtain ⟨x, hx, -⟩ := (accepts_value (.inl rfl) rfl (by rintro - ⟨⟩)).mp hleast
  cases hx

end Normalized

end Nupp.predicate
