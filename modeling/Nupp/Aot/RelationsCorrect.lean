import Mathlib.Algebra.Group.Action.Defs
import Nupp.Aot.RelationsTrace

/-! Valuations of terms. The closure finds a contradiction exactly when there is none of the pool, and otherwise proves
exactly the bounds that all of them meet. -/

namespace Nupp.Aot.relations

open Difference

/-- The integers that a pool allows its terms to be. -/
structure Models (v : Term → ℤ) (pool : List Relation) : Prop where
  zero : v .zero = 0
  holds : ∀ relation ∈ pool, v relation.left ≤ v relation.right + relation.offset

/-! Keys. -/

theorem star_notMem_repr (n : ℕ) : '*' ∉ (toString n).toList := by
  rw [Nat.toString_eq_repr, Nat.toList_repr]
  intro hmem
  have hdigit := Nat.isDigit_of_mem_toDigits (by decide) (by decide) hmem
  exact absurd hdigit (by decide)

theorem append_star_inj {a b x y : List Char} (ha : '*' ∉ a) (hb : '*' ∉ b) (h : a ++ '*' :: x = b ++ '*' :: y) :
    a = b ∧ x = y := by
  have hstop : ∀ l z : List Char, '*' ∉ l → (l ++ '*' :: z).takeWhile (· ≠ '*') = l := by
    intro l z hl
    have hall : ∀ c ∈ l, decide (c ≠ '*') = true := by
      intro c hc
      rw [decide_eq_true_eq]
      rintro rfl
      exact hl hc
    rw [List.takeWhile_append_of_pos hall, List.takeWhile_cons_of_neg (by decide),
      List.append_nil]
  have hab : a = b := by rw [← hstop a x ha, h, hstop b y hb]
  rw [hab] at h
  exact ⟨hab, (List.cons.inj (List.append_cancel_left h)).2⟩

theorem toString_nat_inj {m n : ℕ} (h : (toString m).toList = (toString n).toList) : m = n := by
  rw [Nat.toString_eq_repr, Nat.toString_eq_repr, Nat.toList_repr, Nat.toList_repr] at h
  rw [← Nat.ofDigitChars_toDigits (b := 10) (n := m) (by decide) (by decide), h,
    Nat.ofDigitChars_toDigits (by decide) (by decide)]

theorem exists_digit (n : ℕ) : ∃ c rest, (toString n).toList = c :: rest ∧ c.isDigit = true := by
  rw [Nat.toString_eq_repr, Nat.toList_repr]
  cases hdigits : Nat.toDigits 10 n with
  | nil => exact absurd hdigits Nat.toDigits_ne_nil
  | cons c rest =>
    refine ⟨c, rest, rfl, Nat.isDigit_of_mem_toDigits (b := 10) (n := n) (by decide) (by decide) ?_⟩
    rw [hdigits]
    exact List.mem_cons_self

theorem toList_key (term : Term) : (key term).toList = match term with
    | .zero => ['0']
    | .uniform name => 'u' :: ':' :: name.toList
    | .count name none => '#' :: name.toList
    | .count name (some factor) => (toString factor).toList ++ '*' :: '#' :: name.toList := by
  cases term with
  | zero => rfl
  | uniform name => rw [key, String.toList_append]; rfl
  | count name factor =>
    cases factor with
    | none => rw [key, String.toList_append]; rfl
    | some factor => rw [key, String.toList_append, String.toList_append, String.toList_append]; simp

/-- No other key starts as that of a scaled count does, or is as long. -/
theorem key_scaled_ne {name : String} {factor : ℕ} {term : Term} (h : factorOf term = none) :
    key (.count name (some factor)) ≠ key term := by
  intro heq
  have hlist := congrArg String.toList heq
  rw [toList_key, toList_key] at hlist
  obtain ⟨c, rest, hdigits, hdigit⟩ := exists_digit factor
  dsimp only at hlist
  rw [hdigits, List.cons_append] at hlist
  cases term with
  | zero =>
    have hrest := (List.cons.inj hlist).2
    exact absurd hrest (by simp)
  | uniform name' =>
    have hfirst := (List.cons.inj hlist).1
    rw [hfirst] at hdigit
    exact absurd hdigit (by decide)
  | count name' factor' =>
    cases factor' with
    | none =>
      have hfirst := (List.cons.inj hlist).1
      rw [hfirst] at hdigit
      exact absurd hdigit (by decide)
    | some factor' => cases h

theorem key_injective : Function.Injective key := by
  intro a b heq
  have hlist := congrArg String.toList heq
  rw [toList_key, toList_key] at hlist
  cases a with
  | zero =>
    cases b with
    | zero => rfl
    | uniform name => exact absurd (List.cons.inj hlist).1 (by decide)
    | count name factor =>
      cases factor with
      | none => exact absurd (List.cons.inj hlist).1 (by decide)
      | some factor => exact absurd heq.symm (key_scaled_ne rfl)
  | uniform name =>
    cases b with
    | zero => exact absurd (List.cons.inj hlist).1 (by decide)
    | uniform name' => rw [String.toList_inj.mp (List.cons.inj (List.cons.inj hlist).2).2]
    | count name' factor =>
      cases factor with
      | none => exact absurd (List.cons.inj hlist).1 (by decide)
      | some factor => exact absurd heq.symm (key_scaled_ne rfl)
  | count name factor =>
    cases factor with
    | none =>
      cases b with
      | zero => exact absurd (List.cons.inj hlist).1 (by decide)
      | uniform name' => exact absurd (List.cons.inj hlist).1 (by decide)
      | count name' factor' =>
        cases factor' with
        | none => rw [String.toList_inj.mp (List.cons.inj hlist).2]
        | some factor' => exact absurd heq.symm (key_scaled_ne rfl)
    | some factor =>
      cases b with
      | zero => exact absurd heq (key_scaled_ne rfl)
      | uniform name' => exact absurd heq (key_scaled_ne rfl)
      | count name' factor' =>
        cases factor' with
        | none => exact absurd heq (key_scaled_ne rfl)
        | some factor' =>
          obtain ⟨hdigits, hname⟩ := append_star_inj (star_notMem_repr factor) (star_notMem_repr factor') hlist
          rw [toString_nat_inj hdigits, String.toList_inj.mp (List.cons.inj hname).2]

/-! Positions. -/

theorem indexIn_append (terms : List Term) (term : Term) (k : String) :
    indexIn (terms ++ [term]) k = if key term = k then some (terms.length + 1) else indexIn terms k := by
  rw [indexIn, List.zipIdx_append, List.foldl_append, Nat.add_comm terms.length 1]
  rfl

theorem indexIn_some {terms : List Term} {k : String} {p : ℕ} (h : indexIn terms k = some p) :
    1 ≤ p ∧ p ≤ terms.length ∧ ∃ term, terms[p - 1]? = some term ∧ key term = k := by
  induction terms using List.reverseRecOn with
  | nil => cases h
  | append_singleton terms term ih =>
    rw [indexIn_append] at h
    rw [List.length_append, List.length_singleton]
    by_cases hk : key term = k
    · rw [if_pos hk] at h
      cases h
      exact ⟨by omega, le_rfl, term, by rw [Nat.add_sub_cancel, List.getElem?_concat_length], hk⟩
    · rw [if_neg hk] at h
      obtain ⟨hp, hle, found, hget, hkey⟩ := ih h
      exact ⟨hp, by omega, found, by rw [List.getElem?_append_left (by omega), hget], hkey⟩

theorem indexIn_of_mem {terms : List Term} {term : Term} (h : term ∈ terms) : ∃ p, indexIn terms (key term) = some p := by
  induction terms using List.reverseRecOn with
  | nil => cases h
  | append_singleton terms last ih =>
    rw [indexIn_append]
    by_cases hk : key last = key term
    · exact ⟨_, if_pos hk⟩
    · rw [if_neg hk]
      rcases List.mem_append.mp h with h | h
      · exact ih h
      · exact absurd (congrArg key (List.mem_singleton.mp h).symm) hk

/-- The valuation of the positions that one of the terms is. -/
def atPositions (v : Term → ℤ) (terms : List Term) (p : ℕ) : ℤ := v (terms[p - 1]?.getD .zero)

theorem atPositions_index {v : Term → ℤ} {terms : List Term} {term : Term} {p : ℕ}
    (h : indexIn terms (key term) = some p) : atPositions v terms p = v term := by
  obtain ⟨-, -, found, hget, hkey⟩ := indexIn_some h
  rw [atPositions, hget, key_injective hkey]
  rfl

theorem Models.satisfies {v : Term → ℤ} {pool : List Relation} (h : Models v pool) (terms : List Term) :
    Satisfies (edges (indexIn terms) pool) (atPositions v terms) := by
  intro e he
  obtain ⟨relation, hmem, hedge⟩ := List.mem_filterMap.mp he
  obtain ⟨hsource, htarget, hweight⟩ := edgeOf_eq_some hedge
  rw [atPositions_index hsource, atPositions_index htarget, ← hweight]
  exact h.holds relation hmem

/-- The valuation of terms that one of the positions is. -/
def atTerms (u : ℕ → ℤ) (terms : List Term) (term : Term) : ℤ :=
  u ((indexIn terms (key term)).getD 0) - u ((indexIn terms (key .zero)).getD 0)

/-- Every term of the pool is one of the closure's. -/
def Covered (pool : List Relation) (terms : List Term) : Prop := ∀ term ∈ mentioned pool, term ∈ terms

instance (pool : List Relation) (terms : List Term) : Decidable (Covered pool terms) :=
  inferInstanceAs (Decidable (∀ term ∈ mentioned pool, term ∈ terms))

theorem Covered.left {pool : List Relation} {terms : List Term} (h : Covered pool terms) {relation : Relation}
    (hr : relation ∈ pool) : relation.left ∈ terms :=
  h _ (List.mem_flatMap.mpr ⟨relation, hr, List.mem_cons_self⟩)

theorem Covered.right {pool : List Relation} {terms : List Term} (h : Covered pool terms) {relation : Relation}
    (hr : relation ∈ pool) : relation.right ∈ terms :=
  h _ (List.mem_flatMap.mpr ⟨relation, hr, List.mem_cons_of_mem _ List.mem_cons_self⟩)

theorem models_atTerms {pool : List Relation} {terms : List Term} (hcovered : Covered pool terms) {u : ℕ → ℤ}
    (hu : Satisfies (edges (indexIn terms) pool) u) : Models (atTerms u terms) pool where
  zero := sub_self _
  holds relation hr := by
    obtain ⟨i, hi⟩ := indexIn_of_mem (hcovered.right hr)
    obtain ⟨j, hj⟩ := indexIn_of_mem (hcovered.left hr)
    have hedge := hu ⟨i, j, relation.offset⟩ (List.mem_filterMap.mpr ⟨relation, hr, by rw [edgeOf, hi, hj]⟩)
    rw [atTerms, atTerms, hi, hj, Option.getD_some, Option.getD_some]
    dsimp only at hedge
    omega

theorem inRange_edges (pool : List Relation) (terms : List Term) :
    InRange (edges (indexIn terms) pool) terms.length := by
  intro e he
  obtain ⟨relation, -, hedge⟩ := List.mem_filterMap.mp he
  obtain ⟨hsource, htarget, -⟩ := edgeOf_eq_some hedge
  exact ⟨⟨(indexIn_some hsource).1, (indexIn_some hsource).2.1⟩, (indexIn_some htarget).1, (indexIn_some htarget).2.1⟩

/-! The offsets of a pool. -/

def offsets (pool : List Relation) : ℕ := (pool.map fun relation => relation.offset.natAbs).sum

theorem size_edges_le (indexOf : String → Option ℕ) (pool : List Relation) :
    size (edges indexOf pool) ≤ offsets pool := by
  induction pool with
  | nil => exact le_rfl
  | cons relation pool ih =>
    rw [offsets, List.map_cons, List.sum_cons]
    rw [offsets] at ih
    cases hedge : edgeOf indexOf relation with
    | none =>
      rw [edges, List.filterMap_cons_none hedge]
      exact Nat.le_add_left_of_le ih
    | some e =>
      rw [edges, List.filterMap_cons_some hedge, size, List.map_cons, List.sum_cons, (edgeOf_eq_some hedge).2.2]
      exact Nat.add_le_add_left ih _

theorem offsets_append (a b : List Relation) : offsets (a ++ b) = offsets a + offsets b := by
  rw [offsets, List.map_append, List.sum_append]
  rfl

theorem offsets_eq_zero {pool : List Relation} (h : ∀ relation ∈ pool, relation.offset = 0) : offsets pool = 0 := by
  rw [offsets, List.sum_eq_zero]
  intro n hn
  obtain ⟨relation, hr, rfl⟩ := List.mem_map.mp hn
  rw [h relation hr]
  rfl

theorem offsets_facts (written : List Relation) (spans : List String) :
    offsets (facts written spans) = offsets written := by
  have haxioms : offsets (axioms spans) = 0 := offsets_eq_zero fun relation hr => by
    obtain ⟨name, -, rfl⟩ := List.mem_map.mp hr
    rfl
  have hscaled : offsets (scaledAxioms (scaledTerms written)) = 0 := offsets_eq_zero fun relation hr => by
    obtain ⟨term, -, hr⟩ := List.mem_flatMap.mp hr
    rcases List.mem_cons.mp hr with rfl | hr
    · rfl
    · rcases List.mem_cons.mp hr with rfl | hr
      · rfl
      · obtain ⟨smaller, -, rfl⟩ := List.mem_map.mp hr
        rfl
  rw [facts, offsets_append, offsets_append, haxioms, hscaled]
  rfl

/-- A pool within the budget never saturates a walk that repeats no term. -/
theorem offsets_lt {written : List Relation} (hbudget : written.length ≤ BUDGET)
    (hoffset : ∀ relation ∈ written, -MAX_OFFSET ≤ relation.offset ∧ relation.offset ≤ MAX_OFFSET) :
    (offsets written : ℤ) < INFINITE := by
  have hsum : offsets written ≤ written.length * 1048576 := by
    rw [offsets]
    refine (List.sum_le_card_nsmul _ 1048576 fun n hn => ?_).trans_eq ?_
    · obtain ⟨relation, hr, rfl⟩ := List.mem_map.mp hn
      have hle := hoffset relation hr
      rw [MAX_OFFSET] at hle
      omega
    · rw [List.length_map, smul_eq_mul]
  rw [BUDGET] at hbudget
  rw [INFINITE]
  omega

/-! The closure. -/

section

variable {pool : List Relation} {terms : List Term}

theorem closure_covers (hsize : (offsets pool : ℤ) < INFINITE) :
    ∀ x l y w, Walk (edges (indexIn terms) pool) x l y w → l.Nodup → (closure pool terms).table.dist x y ≤ w := by
  have hle := size_edges_le (indexIn terms) pool
  exact covers_relax (covers_loadAll (inRange_edges pool terms)) (inRange_edges pool terms) (by omega)

theorem closure_sound {u : ℕ → ℤ} (hu : Satisfies (edges (indexIn terms) pool) u) :
    SoundFor u (closure pool terms).table := (soundFor_loadAll hu).relax terms.length

theorem contradiction_isSome : (closure pool terms).contradiction.isSome = true ↔
    ∃ i, 1 ≤ i ∧ i ≤ terms.length ∧ (closure pool terms).table.dist i i < 0 := by
  rw [closure]
  dsimp only
  rw [Option.isSome_map, List.find?_isSome]
  constructor
  · rintro ⟨⟨term, i⟩, hmem, hneg⟩
    have hi := List.mem_zipIdx hmem
    exact ⟨i, hi.1, by omega, of_decide_eq_true hneg⟩
  · rintro ⟨i, hi, hle, hneg⟩
    refine ⟨(terms[i - 1], i), ?_, decide_eq_true hneg⟩
    rw [List.mem_zipIdx_iff_le_and_getElem?_sub]
    exact ⟨hi, List.getElem?_eq_getElem _⟩

theorem contradiction_iff (hcovered : Covered pool terms) (hsize : (offsets pool : ℤ) < INFINITE) :
    (closure pool terms).contradiction.isSome = true ↔ ¬∃ v, Models v pool := by
  rw [contradiction_isSome]
  constructor
  · rintro ⟨i, -, -, hneg⟩ ⟨v, hv⟩
    have hpos := infinite_pos
    have hself := closure_sound (hv.satisfies terms) i i (by omega)
    omega
  · intro hnone
    by_contra hno
    have hcycle : NoNegativeCycle (edges (indexIn terms) pool) := by
      intro x l w hwalk hnodup
      by_contra hneg
      cases l with
      | nil =>
        cases hwalk
        exact hneg le_rfl
      | cons x' l =>
        obtain ⟨e, he, hsource⟩ := hwalk.source_mem List.mem_cons_self
        obtain ⟨l', hl'⟩ := hwalk.eq_cons (List.cons_ne_nil _ _)
        obtain ⟨hge, hle⟩ := (inRange_edges pool terms e he).1
        rw [hsource, (List.cons.inj hl').1] at hge hle
        have hdist := closure_covers hsize x _ x w hwalk hnodup
        exact hno ⟨x, hge, hle, by omega⟩
    obtain ⟨u, hu⟩ := exists_satisfies hcycle
    exact hnone ⟨_, models_atTerms hcovered hu⟩

theorem closure_tight (hsize : (offsets pool : ℤ) < INFINITE) {u : ℕ → ℤ}
    (hu : Satisfies (edges (indexIn terms) pool) u) :
    Tight (edges (indexIn terms) pool) (closure pool terms).table := by
  intro i j c himplied
  obtain ⟨l, w, hwalk, hnodup, hw⟩ := exists_walk_of_implied hu himplied
  exact (closure_covers hsize i l j w hwalk hnodup).trans hw

/-- The bounds that the positions of two terms meet are those of the terms. -/
theorem implied_iff (hcovered : Covered pool terms) {left right : Term} {i j : ℕ}
    (hi : indexIn terms (key right) = some i) (hj : indexIn terms (key left) = some j) (c : ℤ) :
    (∀ v, Models v pool → v left ≤ v right + c) ↔
      ∀ u, Satisfies (edges (indexIn terms) pool) u → u j ≤ u i + c := by
  constructor
  · intro h u hu
    have hbound := h _ (models_atTerms hcovered hu)
    rw [atTerms, atTerms, hi, hj, Option.getD_some, Option.getD_some] at hbound
    omega
  · intro h v hv
    have hbound := h _ (hv.satisfies terms)
    rwa [atPositions_index hi, atPositions_index hj] at hbound

theorem models_used {v : Term → ℤ} {indices : List ℕ} (hv : Models v (usedRelations pool indices)) :
    ∀ p ∈ indices, Holds (indexIn terms) pool (atPositions v terms) p := by
  intro p hp relation hget e hedge
  obtain ⟨hsource, htarget, hweight⟩ := edgeOf_eq_some hedge
  rw [atPositions_index hsource, atPositions_index htarget, ← hweight]
  exact hv.holds relation (mem_usedRelations.mpr ⟨p, hp, hget⟩)

/-- Asked for a bound between two of its terms, a closure without contradiction answers, and proves the bound exactly
when the pool implies it. -/
theorem proves_iff (hcovered : Covered pool terms) (hsize : (offsets pool : ℤ) < INFINITE)
    (hnone : (closure pool terms).contradiction = none) {left right : Term} (hleft : left ∈ terms)
    (hright : right ∈ terms) {offset : ℤ} (hoffset : offset < INFINITE) :
    ∃ answer enough, (∀ fuel ≥ enough, proves (closure pool terms) fuel left right offset = some answer) ∧
      (answer.isSome = true ↔ ∀ v, Models v pool → v left ≤ v right + offset) ∧
      ∀ used, answer = some used → (∀ relation ∈ used, relation ∈ pool) ∧
        ∀ v, Models v used → v left ≤ v right + offset := by
  have hsat : ∃ v, Models v pool := by
    by_contra hno
    have hsome := (contradiction_iff hcovered hsize).mpr hno
    rw [hnone] at hsome
    cases hsome
  obtain ⟨v₀, hv₀⟩ := hsat
  have hu := hv₀.satisfies terms
  have htight := closure_tight hsize hu
  have htraced : Traced (edges (indexIn terms) pool) (indexIn terms) pool terms.length (closure pool terms).table :=
    (traced_loadAll (indexIn terms) pool).relax hu terms.length
  obtain ⟨i, hi⟩ := indexIn_of_mem hright
  obtain ⟨j, hj⟩ := indexIn_of_mem hleft
  have hindex : (closure pool terms).indexOf = indexIn terms := rfl
  have hpool : (closure pool terms).pool = pool := rfl
  have himplied := implied_iff hcovered hi hj offset
  by_cases hdist : (closure pool terms).table.dist i j > offset
  · refine ⟨none, 0, fun fuel _ => ?_, ?_, fun used hused => by cases hused⟩
    · rw [proves, hindex, hi, hj]
      dsimp only
      rw [if_pos hdist]
    · rw [himplied]
      constructor
      · intro hsome
        cases hsome
      · intro hbound
        exact absurd (htight i j offset hbound) (not_le.mpr hdist)
  · have hfinite : (closure pool terms).table.dist i j < INFINITE := by omega
    obtain ⟨indices, hindices, himplies⟩ := htraced.contributing htight (Nat.lt_succ_self _) hfinite
    refine ⟨some (usedRelations pool indices), (closure pool terms).table.mid i j + 1, fun fuel hfuel => ?_, ?_,
      fun used hused => ?_⟩
    · rw [proves, hindex, hi, hj, hpool]
      dsimp only
      rw [if_neg hdist, hindices fuel (Nat.lt_of_succ_le hfuel)]
      rfl
    · rw [himplied]
      refine iff_of_true rfl fun u hu => ?_
      have hbound := closure_sound hu i j hfinite
      omega
    · cases hused
      refine ⟨fun relation hr => ?_, fun v hv => ?_⟩
      · obtain ⟨p, -, hget⟩ := mem_usedRelations.mp hr
        exact List.mem_of_getElem? hget
      · have hbound := himplies _ (@models_used pool terms v indices hv)
        rw [atPositions_index hi, atPositions_index hj] at hbound
        omega

end

/-- The closure of a pool within the budget, over a universe with all of the pool's terms and those of its axioms. -/
theorem solve_exact {written : List Relation} {spans : List String} {terms : List Term}
    (hbudget : written.length ≤ BUDGET)
    (hoffset : ∀ relation ∈ written, -MAX_OFFSET ≤ relation.offset ∧ relation.offset ≤ MAX_OFFSET)
    (hcovered : Covered (facts written spans) (universeOf written terms)) :
    ((solve written spans terms).contradiction.isSome = true ↔ ¬∃ v, Models v (facts written spans)) ∧
      ((solve written spans terms).contradiction = none → ∀ left ∈ universeOf written terms,
        ∀ right ∈ universeOf written terms, ∀ offset < INFINITE, ∃ answer enough,
          (∀ fuel ≥ enough, proves (solve written spans terms) fuel left right offset = some answer) ∧
          (answer.isSome = true ↔ ∀ v, Models v (facts written spans) → v left ≤ v right + offset) ∧
          ∀ used, answer = some used → (∀ relation ∈ used, relation ∈ facts written spans) ∧
            ∀ v, Models v used → v left ≤ v right + offset) := by
  have hsize : (offsets (facts written spans) : ℤ) < INFINITE := by
    rw [offsets_facts]
    exact offsets_lt hbudget hoffset
  exact ⟨contradiction_iff hcovered hsize, fun hnone left hleft right hright offset hlt =>
    proves_iff hcovered hsize hnone hleft hright hlt⟩

/-- `first >= 1 and last <= #out and first <= last + 1`. -/
def reference : List Relation :=
  [⟨.zero, .uniform "first", -1⟩, ⟨.uniform "last", count "out", 0⟩, ⟨.uniform "first", .uniform "last", 1⟩]

theorem solve_reference_exact :
    (solve reference ["out"] [.zero, count "out", .uniform "first", .uniform "last"]).contradiction = none ∧
      ∃ used enough, ∀ fuel ≥ enough,
        proves (solve reference ["out"] [.zero, count "out", .uniform "first", .uniform "last"]) fuel (.uniform "last")
          (count "out") 0 = some (some used) := by
  obtain ⟨hcontradiction, hproves⟩ := @solve_exact reference ["out"]
    [.zero, count "out", .uniform "first", .uniform "last"] (by decide) (by decide) (by decide)
  have hmodels : Models (fun term => if term = .uniform "first" then 1 else 0) (facts reference ["out"]) :=
    ⟨by decide, by decide⟩
  have hnone : (solve reference ["out"] [.zero, count "out", .uniform "first", .uniform "last"]).contradiction = none :=
    Option.not_isSome_iff_eq_none.mp fun hsome => hcontradiction.mp hsome ⟨_, hmodels⟩
  obtain ⟨answer, enough, hanswer, hsome, -⟩ := hproves hnone (.uniform "last") (by decide) (count "out") (by decide) 0
    (by decide)
  have hbound : ∀ v, Models v (facts reference ["out"]) → v (.uniform "last") ≤ v (count "out") + 0 :=
    fun v hv => hv.holds ⟨.uniform "last", count "out", 0⟩ (by decide)
  obtain ⟨used, rfl⟩ := Option.isSome_iff_exists.mp (hsome.mpr hbound)
  exact ⟨hnone, used, enough, hanswer⟩

/-- A term outside the universe is one of no path, and a bound from the largest weight on is met by no path too. -/
theorem solve_outside :
    ((solve [⟨.zero, .zero, -1⟩] [] []).contradiction = none ∧ ¬∃ v, Models v (facts [⟨.zero, .zero, -1⟩] [])) ∧
      proves (solve [] [] [.zero, .uniform "x"]) 1 (.uniform "x") .zero INFINITE = some (some []) ∧
      ¬∀ v, Models v (facts [] []) → v (.uniform "x") ≤ v .zero + INFINITE := by
  refine ⟨⟨rfl, ?_⟩, ?_, ?_⟩
  · rintro ⟨v, hv⟩
    have hholds := hv.holds ⟨.zero, .zero, -1⟩ List.mem_cons_self
    dsimp only at hholds
    omega
  · decide
  · intro h
    have hbound := h (fun term => if term = .zero then 0 else INFINITE + 1)
      ⟨rfl, fun relation hr => by cases hr⟩
    exact absurd hbound (by decide)

end Nupp.Aot.relations
