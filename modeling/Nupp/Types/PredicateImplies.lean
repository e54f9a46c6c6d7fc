import Nupp.Types.PredicateTest
import Nupp.Types.PredicateKeys

/-! An implication between refinements, and the values that their tests accept. -/

namespace Nupp.predicate

open Double Nupp.Data

variable {ι : Type} {host : Host ι}

section Parts

/-- The test that `render` writes accepts the value. -/
def Accepts (host : Host ι) (n : Node) (v : Value ι) : Prop :=
  (render n .self).answer host v = some true

theorem accepts_parts {n : Node} {v : Value ι} :
    Accepts host n v ↔ ∀ p ∈ flatten .and n, Accepts host p v := by
  induction n with
  | junction op a b iha ihb =>
    cases op with
    | and =>
      have hboth : Accepts host (.junction .and a b) v ↔ Accepts host a v ∧ Accepts host b v := by
        unfold Accepts
        rw [render, answer_junction]
        cases (render a .self).answer host v with
        | none => simp
        | some x => cases x <;> simp
      rw [hboth, iha, ihb, flatten, if_pos rfl]
      simp only [List.mem_append, or_imp, forall_and]
    | or => simp [flatten]
  | _ => simp [flatten]

/-- The lower bound that a comparison sets. -/
def lowOf : Node → Option Number
  | .cmp cmp [] _ (.number w) => if cmp = .ge ∨ cmp = .eq then some w else none
  | _ => none

/-- The upper bound that a comparison sets. -/
def highOf : Node → Option Number
  | .cmp cmp [] _ (.number w) => if cmp = .le ∨ cmp = .eq then some w else none
  | _ => none

def lengthOf : Node → Option Node
  | .len [] a => some a
  | _ => none

def raised (low w : Option Number) : Option Number :=
  match w with
  | none => low
  | some w => if low.all (Number.lt · w) then some w else low

def lowered (high w : Option Number) : Option Number :=
  match w with
  | none => high
  | some w => if high.all (Number.lt w ·) then some w else high

/-- A part that sets no bound. -/
def leftOver (p : Node) : Bool :=
  (lowOf p).isNone && (highOf p).isNone && ((lengthOf p).bind lowOf).isNone &&
    ((lengthOf p).bind highOf).isNone

/-- What a part does to a decomposition. -/
def taken (out : Decomposition) (p : Node) : Decomposition where
  min := raised out.min (lowOf p)
  max := lowered out.max (highOf p)
  minLength := raised out.minLength ((lengthOf p).bind lowOf)
  maxLength := lowered out.maxLength ((lengthOf p).bind highOf)
  others := if leftOver p then key p :: out.others else out.others

theorem decomposePart_eq {out : Decomposition} {p : Node} (h : ∀ op a b, p ≠ .junction op a b) :
    decomposePart out p = some (taken out p) := by
  cases p with
  | junction op a b => exact absurd rfl (h op a b)
  | cmp cmp path literal c =>
    rcases path with _ | ⟨name, path⟩
    · cases c with
      | number w =>
        cases cmp <;> simp [decomposePart, narrowBound, taken, lowOf, highOf, lengthOf, raised,
          lowered, leftOver]
      | _ => simp [decomposePart, taken, lowOf, highOf, lengthOf, raised, lowered, leftOver]
    · simp [decomposePart, taken, lowOf, highOf, lengthOf, raised, lowered, leftOver]
  | len path a =>
    rcases path with _ | ⟨name, path⟩
    · cases a with
      | cmp cmp path literal c =>
        rcases path with _ | ⟨name, path⟩
        · cases c with
          | number w =>
            cases cmp <;> simp [decomposePart, narrowBound, taken, lowOf, highOf, lengthOf, raised,
              lowered, leftOver]
          | _ => simp [decomposePart, taken, lowOf, highOf, lengthOf, raised, lowered, leftOver]
        · simp [decomposePart, taken, lowOf, highOf, lengthOf, raised, lowered, leftOver]
      | _ => simp [decomposePart, taken, lowOf, highOf, lengthOf, raised, lowered, leftOver]
    · simp [decomposePart, taken, lowOf, highOf, lengthOf, raised, lowered, leftOver]
  | _ => simp [decomposePart, taken, lowOf, highOf, lengthOf, raised, lowered, leftOver]

theorem decomposePart_junction {out : Decomposition} {op : Junction} {a b : Node} :
    decomposePart out (.junction op a b) = none := rfl

/-- A decomposition is what its parts do, none of which is a disjunction. -/
theorem decompose_eq_some {n : Node} {d : Decomposition} (h : decompose n = some d) :
    (∀ p ∈ flatten .and n, ∀ op a b, p ≠ .junction op a b) ∧
      d = (flatten .and n).foldl taken ⟨none, none, none, none, []⟩ := by
  have hfold : ∀ (parts : List Node) (out : Decomposition), parts.foldlM decomposePart out = some d →
      (∀ p ∈ parts, ∀ op a b, p ≠ .junction op a b) ∧ d = parts.foldl taken out := by
    intro parts
    induction parts with
    | nil =>
      intro out h
      cases h
      exact ⟨by simp, rfl⟩
    | cons p parts ih =>
      intro out h
      obtain ⟨next, hnext, h⟩ := Option.bind_eq_some_iff.mp h
      have hp : ∀ op a b, p ≠ .junction op a b := by
        rintro op a b rfl
        cases hnext
      rw [decomposePart_eq hp, Option.some.injEq] at hnext
      subst hnext
      obtain ⟨hparts, hd⟩ := ih _ h
      exact ⟨List.forall_mem_cons.mpr ⟨hp, hparts⟩, hd⟩
  exact hfold _ _ h

end Parts

section Bounds

/-- The greatest of the lower bounds among the parts. -/
def GreatestLow (values : List Number) (low : Option Number) : Prop :=
  match low with
  | none => values = []
  | some m => m ∈ values ∧ ∀ w ∈ values, m.lt w = false

def LeastHigh (values : List Number) (high : Option Number) : Prop :=
  match high with
  | none => values = []
  | some m => m ∈ values ∧ ∀ w ∈ values, w.lt m = false

theorem greatestLow_raised {values : List Number} {low w : Option Number}
    (h : GreatestLow values low) : GreatestLow (values ++ w.toList) (raised low w) := by
  rcases w with _ | w
  · simpa [raised] using h
  rcases low with _ | m
  · obtain rfl : values = [] := h
    exact ⟨by simp, by simp [lt_irrefl]⟩
  obtain ⟨hmem, hmax⟩ := h
  cases hlt : m.lt w with
  | true =>
    have hraised : raised (some m) (some w) = some w := by simp [raised, hlt]
    rw [hraised]
    refine ⟨by simp, fun u hu => ?_⟩
    rcases List.mem_append.mp hu with hu | hu
    · cases hwu : w.lt u with
      | false => rfl
      | true => exact absurd (lt_trans hlt hwu) (by simp [hmax u hu])
    · rw [List.mem_singleton.mp hu, lt_irrefl]
  | false =>
    have hraised : raised (some m) (some w) = some m := by simp [raised, hlt]
    rw [hraised]
    refine ⟨List.mem_append_left _ hmem, fun u hu => ?_⟩
    rcases List.mem_append.mp hu with hu | hu
    · exact hmax u hu
    · rw [List.mem_singleton.mp hu, hlt]

theorem leastHigh_lowered {values : List Number} {high w : Option Number}
    (h : LeastHigh values high) : LeastHigh (values ++ w.toList) (lowered high w) := by
  rcases w with _ | w
  · simpa [lowered] using h
  rcases high with _ | m
  · obtain rfl : values = [] := h
    exact ⟨by simp, by simp [lt_irrefl]⟩
  obtain ⟨hmem, hmin⟩ := h
  cases hlt : w.lt m with
  | true =>
    have hlowered : lowered (some m) (some w) = some w := by simp [lowered, hlt]
    rw [hlowered]
    refine ⟨by simp, fun u hu => ?_⟩
    rcases List.mem_append.mp hu with hu | hu
    · cases huw : u.lt w with
      | false => rfl
      | true => exact absurd (lt_trans huw hlt) (by simp [hmin u hu])
    · rw [List.mem_singleton.mp hu, lt_irrefl]
  | false =>
    have hlowered : lowered (some m) (some w) = some m := by simp [lowered, hlt]
    rw [hlowered]
    refine ⟨List.mem_append_left _ hmem, fun u hu => ?_⟩
    rcases List.mem_append.mp hu with hu | hu
    · exact hmin u hu
    · rw [List.mem_singleton.mp hu, hlt]

def lowLengthOf (p : Node) : Option Number := (lengthOf p).bind lowOf

def highLengthOf (p : Node) : Option Number := (lengthOf p).bind highOf

/-- What a decomposition says of the parts that it is of. -/
structure Describes (parts : List Node) (d : Decomposition) : Prop where
  min : GreatestLow (parts.filterMap lowOf) d.min
  max : LeastHigh (parts.filterMap highOf) d.max
  minLength : GreatestLow (parts.filterMap lowLengthOf) d.minLength
  maxLength : LeastHigh (parts.filterMap highLengthOf) d.maxLength
  others : ∀ k, k ∈ d.others ↔ ∃ p ∈ parts, leftOver p = true ∧ key p = k

theorem describes_taken {parts : List Node} {d : Decomposition} {p : Node}
    (h : Describes parts d) : Describes (parts ++ [p]) (taken d p) := by
  have hvalues : ∀ f : Node → Option Number,
      (parts ++ [p]).filterMap f = parts.filterMap f ++ (f p).toList := by
    intro f
    rw [List.filterMap_append]
    cases hf : f p <;> simp [hf]
  refine ⟨?_, ?_, ?_, ?_, fun k => ?_⟩
  · rw [hvalues]
    exact greatestLow_raised h.min
  · rw [hvalues]
    exact leastHigh_lowered h.max
  · rw [hvalues]
    exact greatestLow_raised h.minLength
  · rw [hvalues]
    exact leastHigh_lowered h.maxLength
  · have hsplit : (∃ q ∈ parts ++ [p], leftOver q = true ∧ key q = k) ↔
        k ∈ d.others ∨ leftOver p = true ∧ key p = k := by
      rw [h.others]
      simp only [List.mem_append, List.mem_singleton, or_and_right, exists_or, exists_eq_left]
    rw [hsplit, taken]
    cases hleft : leftOver p with
    | true =>
      rw [if_pos rfl, List.mem_cons]
      tauto
    | false =>
      rw [if_neg (by simp)]
      tauto

theorem describes_decompose {n : Node} {d : Decomposition} (h : decompose n = some d) :
    Describes (flatten .and n) d := by
  have hfold : ∀ (parts before : List Node) (out : Decomposition), Describes before out →
      Describes (before ++ parts) (parts.foldl taken out) := by
    intro parts
    induction parts with
    | nil => intro before out h; simpa using h
    | cons p parts ih =>
      intro before out h
      simpa using ih (before ++ [p]) (taken out p) (describes_taken h)
  rw [(decompose_eq_some h).2]
  exact hfold _ [] _ ⟨rfl, rfl, rfl, rfl, by simp⟩

end Bounds

section Accepted

variable {v : Value ι}

/-- A comparison that sets a bound. -/
def Comparison.bounds (cmp : Comparison) : Prop := cmp = .ge ∨ cmp = .le ∨ cmp = .eq

/-- The bound that a comparison sets holds of a number. -/
def Holds (cmp : Comparison) (x w : Number) : Prop :=
  (cmp = .ge ∨ cmp = .eq → w.le x = true) ∧ (cmp = .le ∨ cmp = .eq → x.le w = true)

variable (host) in
theorem compare_number {cmp : Comparison} (hcmp : cmp.bounds) (x w : Number) :
    host.compare cmp (.scalar (.number x)) (.number w) = some true ↔ Holds cmp x w := by
  rcases hcmp with rfl | rfl | rfl
  · simp [Host.compare, Constant.order, Holds]
  · simp [Host.compare, Constant.order, Holds]
  · simp only [Host.compare, Host.equals, Constant.equal, Option.some.injEq, Holds, reduceCtorEq,
      or_true, forall_const]
    exact ⟨fun h => ⟨le_of_eq (eq_symm h), le_of_eq h⟩, fun h => eq_of_le_of_le h.2 h.1⟩

variable (host) in
/-- Where a value is C data, no part compares it with a number for equality. -/
def Unconverted (v : Value ι) (n : Node) : Prop :=
  v.type = .cdata → ∀ p ∈ flatten .and n, ∀ literal w, p ≠ .cmp .eq [] literal (.number w)

/-- A bound on the value accepts the numbers it holds of. -/
theorem accepts_value {cmp : Comparison} {literal : Literal} {w : Number} (hcmp : cmp.bounds)
    (hread : host.source literal.text = some (.number w)) (hcdata : v.type = .cdata → cmp ≠ .eq) :
    Accepts host (.cmp cmp [] literal (.number w)) v ↔
      ∃ x, v = .scalar (.number x) ∧ Holds cmp x w := by
  have hanswer : (Code.compare cmp .self literal).answer host v = host.compare cmp v (.number w) :=
    answer_compare rfl hread
  have hguard : (Code.typeEquals .self .number).answer host v = some (decide (v.type = .number)) :=
    answer_typeEquals rfl
  have hnumber : ∀ x, v = .scalar (.number x) →
      (Accepts host (.cmp cmp [] literal (.number w)) v ↔ Holds cmp x w) := by
    rintro x rfl
    rw [← compare_number host hcmp]
    unfold Accepts
    rw [render]
    simp only [access]
    split
    · rw [hanswer]
    · rw [answer_junction, Constant.type, hguard, Option.bind_some, hanswer]
      simp [Value.type, Constant.type]
  constructor
  · intro haccepts
    suffices hv : ∃ x, v = .scalar (.number x) by
      obtain ⟨x, hx⟩ := hv
      exact ⟨x, hx, (hnumber x hx).mp haccepts⟩
    unfold Accepts at haccepts
    rw [render] at haccepts
    simp only [access] at haccepts
    split at haccepts
    · next hequality =>
      obtain rfl : cmp = .eq := by
        rcases hcmp with rfl | rfl | rfl <;> first | rfl | cases hequality
      rw [hanswer] at haccepts
      rcases v with (_ | _ | x | _) | ⟨_ | _ | _ | _ | _, _⟩ <;>
        first
        | exact ⟨x, rfl⟩
        | exact absurd rfl (hcdata rfl)
        | simp [Host.compare, Host.equals, Constant.equal] at haccepts
    · rw [answer_junction, Constant.type, hguard, Option.bind_some] at haccepts
      rcases v with (_ | _ | x | _) | ⟨_ | _ | _ | _ | _, _⟩ <;>
        first
        | exact ⟨x, rfl⟩
        | simp [Value.type, Constant.type, Kind.type] at haccepts
  · rintro ⟨x, hx, hholds⟩
    exact (hnumber x hx).mpr hholds

/-- A bound on the length accepts the strings whose length it holds of. -/
theorem accepts_length {cmp : Comparison} {literal : Literal} {w : Number} (hcmp : cmp.bounds)
    (hread : host.source literal.text = some (.number w)) :
    Accepts host (.len [] (.cmp cmp [] literal (.number w))) v ↔
      ∃ s, v = .scalar (.string s) ∧ Holds cmp (.ofInt s.length) w := by
  have hguard : (Code.typeEquals .self .string).answer host v = some (decide (v.type = .string)) :=
    answer_typeEquals rfl
  unfold Accepts
  rw [render]
  simp only [access, lengthTest, answer_junction, hguard, Option.bind_some]
  constructor
  · intro haccepts
    rcases v with (_ | _ | _ | s) | ⟨_ | _ | _ | _ | _, _⟩ <;>
      first
      | refine ⟨s, rfl, (compare_number host hcmp _ _).mp ?_⟩
        have hsize : (Code.length .self).eval host (.scalar (.string s)) =
            some (.scalar (.number (.ofInt s.length))) := rfl
        rw [answer_compare hsize hread] at haccepts
        simpa [Value.type, Constant.type] using haccepts
      | simp [Value.type, Constant.type, Kind.type] at haccepts
  · rintro ⟨s, rfl, hholds⟩
    have hsize : (Code.length .self).eval host (.scalar (.string s)) =
        some (.scalar (.number (.ofInt s.length))) := rfl
    rw [answer_compare hsize hread]
    simpa [Value.type, Constant.type] using (compare_number host hcmp _ _).mpr hholds

end Accepted

section Decomposed

/-- A conjunction of parts none of which is a junction has a decomposition. -/
theorem decompose_isSome {n : Node} (h : ∀ p ∈ flatten .and n, ∀ op a b, p ≠ .junction op a b) :
    ∃ d, decompose n = some d := by
  have hfold : ∀ (parts : List Node) (out : Decomposition),
      (∀ p ∈ parts, ∀ op a b, p ≠ .junction op a b) → ∃ d, parts.foldlM decomposePart out = some d := by
    intro parts
    induction parts with
    | nil => exact fun out _ => ⟨out, rfl⟩
    | cons p parts ih =>
      intro out h
      obtain ⟨d, hd⟩ := ih (taken out p) fun q hq => h q (List.mem_cons_of_mem _ hq)
      refine ⟨d, ?_⟩
      rw [List.foldlM_cons, decomposePart_eq (h p List.mem_cons_self)]
      exact hd
  exact hfold _ _ h

theorem lowFits_of_subset {wide narrow : List Number} {low low' : Option Number}
    (hwide : GreatestLow wide low) (hnarrow : GreatestLow narrow low') (h : ∀ w ∈ wide, w ∈ narrow) :
    lowFits low low' = true := by
  cases low with
  | none => rfl
  | some m =>
    have hm := h m hwide.1
    cases low' with
    | none =>
      obtain rfl : narrow = [] := hnarrow
      cases hm
    | some n => simp [lowFits, hnarrow.2 m hm]

theorem highFits_of_subset {wide narrow : List Number} {high high' : Option Number}
    (hwide : LeastHigh wide high) (hnarrow : LeastHigh narrow high') (h : ∀ w ∈ wide, w ∈ narrow) :
    highFits high high' = true := by
  cases high with
  | none => rfl
  | some m =>
    have hm := h m hwide.1
    cases high' with
    | none =>
      obtain rfl : narrow = [] := hnarrow
      cases hm
    | some n => simp [highFits, hnarrow.2 m hm]

/-- A conjunction implies one whose parts are among its own. -/
theorem implies_of_subset {a b : Node} (ha : ∀ p ∈ flatten .and a, ∀ op c d, p ≠ .junction op c d)
    (h : ∀ p ∈ flatten .and b, p ∈ flatten .and a) : implies a b = true := by
  obtain ⟨narrow, hnarrow⟩ := decompose_isSome ha
  obtain ⟨wide, hwide⟩ := decompose_isSome fun p hp => ha p (h p hp)
  have hdnarrow := describes_decompose hnarrow
  have hdwide := describes_decompose hwide
  have hvalues : ∀ f : Node → Option Number, ∀ w ∈ (flatten .and b).filterMap f,
      w ∈ (flatten .and a).filterMap f := by
    intro f w hw
    obtain ⟨p, hp, hpw⟩ := List.mem_filterMap.mp hw
    exact List.mem_filterMap.mpr ⟨p, h p hp, hpw⟩
  have hothers : wide.others.all (· ∈ narrow.others) = true := by
    refine List.all_eq_true.mpr fun k hk => decide_eq_true ?_
    obtain ⟨p, hp, hleft, hkey⟩ := (hdwide.others k).mp hk
    exact (hdnarrow.others k).mpr ⟨p, h p hp, hleft, hkey⟩
  unfold implies
  split
  · rfl
  · simp only [hwide, hnarrow, hothers, lowFits_of_subset hdwide.min hdnarrow.min (hvalues _),
      highFits_of_subset hdwide.max hdnarrow.max (hvalues _),
      lowFits_of_subset hdwide.minLength hdnarrow.minLength (hvalues _),
      highFits_of_subset hdwide.maxLength hdnarrow.maxLength (hvalues _), Bool.and_self]

end Decomposed

section Implied

variable {v : Value ι} {a b : Node}

/-- Wider lower bounds hold where the narrower ones do. -/
theorem low_fits {P : Number → Prop} {wide narrow : List Number} {low low' : Option Number}
    (hP : ∀ w n, w.le n = true → P n → P w) (hwide : GreatestLow wide low)
    (hnarrow : GreatestLow narrow low') (hfits : lowFits low low' = true)
    (hnan : ∀ u ∈ wide ++ narrow, u ≠ .nan) (h : ∀ n ∈ narrow, P n) : ∀ w ∈ wide, P w := by
  intro w hw
  cases low with
  | none =>
    obtain rfl : wide = [] := hwide
    cases hw
  | some m =>
    cases low' with
    | none => simp [lowFits] at hfits
    | some n =>
      have hmn : n.lt m = false := by simpa [lowFits] using hfits
      have hw' := hnan w (List.mem_append_left _ hw)
      have hm' := hnan m (List.mem_append_left _ hwide.1)
      have hn' := hnan n (List.mem_append_right _ hnarrow.1)
      exact hP w n (le_trans (le_of_not_lt hm' hw' (hwide.2 w hw)) (le_of_not_lt hn' hm' hmn))
        (h n hnarrow.1)

/-- Wider upper bounds hold where the narrower ones do. -/
theorem high_fits {P : Number → Prop} {wide narrow : List Number} {high high' : Option Number}
    (hP : ∀ w n, n.le w = true → P n → P w) (hwide : LeastHigh wide high)
    (hnarrow : LeastHigh narrow high') (hfits : highFits high high' = true)
    (hnan : ∀ u ∈ wide ++ narrow, u ≠ .nan) (h : ∀ n ∈ narrow, P n) : ∀ w ∈ wide, P w := by
  intro w hw
  cases high with
  | none =>
    obtain rfl : wide = [] := hwide
    cases hw
  | some m =>
    cases high' with
    | none => simp [highFits] at hfits
    | some n =>
      have hmn : m.lt n = false := by simpa [highFits] using hfits
      have hw' := hnan w (List.mem_append_left _ hw)
      have hm' := hnan m (List.mem_append_left _ hwide.1)
      have hn' := hnan n (List.mem_append_right _ hnarrow.1)
      exact hP w n (le_trans (le_of_not_lt hm' hn' hmn) (le_of_not_lt hw' hm' (hwide.2 w hw)))
        (h n hnarrow.1)

theorem lowOf_eq_some {p : Node} {w : Number} (h : lowOf p = some w) :
    ∃ cmp literal, p = .cmp cmp [] literal (.number w) ∧ (cmp = .ge ∨ cmp = .eq) := by
  unfold lowOf at h
  split at h
  · split at h
    · next cmp literal u hcmp =>
      cases h
      exact ⟨cmp, literal, rfl, hcmp⟩
    · cases h
  · cases h

theorem highOf_eq_some {p : Node} {w : Number} (h : highOf p = some w) :
    ∃ cmp literal, p = .cmp cmp [] literal (.number w) ∧ (cmp = .le ∨ cmp = .eq) := by
  unfold highOf at h
  split at h
  · split at h
    · next cmp literal u hcmp =>
      cases h
      exact ⟨cmp, literal, rfl, hcmp⟩
    · cases h
  · cases h

theorem lengthOf_eq_some {p q : Node} (h : lengthOf p = some q) : p = .len [] q := by
  unfold lengthOf at h
  split at h
  · cases h
    rfl
  · cases h

/-- A part that is not left over sets a bound, on the value or on the length. -/
theorem bound_of_not_leftOver {p : Node} (h : leftOver p = false) :
    ∃ cmp literal w, cmp.bounds ∧
      (p = .cmp cmp [] literal (.number w) ∨ p = .len [] (.cmp cmp [] literal (.number w))) := by
  simp only [leftOver, Bool.and_eq_false_iff, Option.isNone_eq_false_iff, Option.isSome_iff_exists,
    Option.bind_eq_some_iff] at h
  rcases h with ((⟨w, h⟩ | ⟨w, h⟩) | ⟨w, q, hq, h⟩) | ⟨w, q, hq, h⟩
  · obtain ⟨cmp, literal, rfl, hcmp⟩ := lowOf_eq_some h
    exact ⟨cmp, literal, w, by rcases hcmp with rfl | rfl <;> simp [Comparison.bounds], .inl rfl⟩
  · obtain ⟨cmp, literal, rfl, hcmp⟩ := highOf_eq_some h
    exact ⟨cmp, literal, w, by rcases hcmp with rfl | rfl <;> simp [Comparison.bounds], .inl rfl⟩
  · obtain rfl := lengthOf_eq_some hq
    obtain ⟨cmp, literal, rfl, hcmp⟩ := lowOf_eq_some h
    exact ⟨cmp, literal, w, by rcases hcmp with rfl | rfl <;> simp [Comparison.bounds], .inr rfl⟩
  · obtain rfl := lengthOf_eq_some hq
    obtain ⟨cmp, literal, rfl, hcmp⟩ := highOf_eq_some h
    exact ⟨cmp, literal, w, by rcases hcmp with rfl | rfl <;> simp [Comparison.bounds], .inr rfl⟩

theorem lowLengthOf_eq_some {p : Node} {w : Number} (h : lowLengthOf p = some w) :
    ∃ cmp literal, p = .len [] (.cmp cmp [] literal (.number w)) ∧ (cmp = .ge ∨ cmp = .eq) := by
  obtain ⟨q, hq, h⟩ := Option.bind_eq_some_iff.mp h
  obtain rfl := lengthOf_eq_some hq
  obtain ⟨cmp, literal, rfl, hcmp⟩ := lowOf_eq_some h
  exact ⟨cmp, literal, rfl, hcmp⟩

theorem highLengthOf_eq_some {p : Node} {w : Number} (h : highLengthOf p = some w) :
    ∃ cmp literal, p = .len [] (.cmp cmp [] literal (.number w)) ∧ (cmp = .le ∨ cmp = .eq) := by
  obtain ⟨q, hq, h⟩ := Option.bind_eq_some_iff.mp h
  obtain rfl := lengthOf_eq_some hq
  obtain ⟨cmp, literal, rfl, hcmp⟩ := highOf_eq_some h
  exact ⟨cmp, literal, rfl, hcmp⟩

/-- The bounds that are set are numbers. -/
theorem bounds_ne_nan {f : Node → Option Number} (ha : Reads host a) (hb : Reads host b)
    (hf : ∀ p w, f p = some w → Reads host p → w ≠ .nan) :
    ∀ u ∈ (flatten .and b).filterMap f ++ (flatten .and a).filterMap f, u ≠ .nan := by
  intro u hu
  rcases List.mem_append.mp hu with hu | hu
  · obtain ⟨p, hp, hpu⟩ := List.mem_filterMap.mp hu
    exact hf p u hpu (reads_part hb hp)
  · obtain ⟨p, hp, hpu⟩ := List.mem_filterMap.mp hu
    exact hf p u hpu (reads_part ha hp)

/-- The value bounds of `b` hold where `a` accepts and its bounds are within. -/
theorem value_bounds {wide narrow : Decomposition} (ha : Reads host a) (hb : Reads host b)
    (hv : Unconverted v a) (hwide : Describes (flatten .and b) wide)
    (hnarrow : Describes (flatten .and a) narrow) (hmin : lowFits wide.min narrow.min = true)
    (hmax : highFits wide.max narrow.max = true) (haccepts : ∀ p ∈ flatten .and a, Accepts host p v) :
    (∀ w ∈ (flatten .and b).filterMap lowOf, ∃ x, v = .scalar (.number x) ∧ w.le x = true) ∧
      ∀ w ∈ (flatten .and b).filterMap highOf, ∃ x, v = .scalar (.number x) ∧ x.le w = true := by
  have hpart : ∀ p ∈ flatten .and a, ∀ cmp literal n, p = .cmp cmp [] literal (.number n) →
      cmp.bounds → ∃ x, v = .scalar (.number x) ∧ Holds cmp x n := by
    rintro p hp cmp literal n rfl hcmp
    refine (accepts_value hcmp (reads_part ha hp).1 ?_).mp (haccepts _ hp)
    rintro htype rfl
    exact hv htype _ hp literal n rfl
  constructor
  · refine low_fits ?_ hwide.min hnarrow.min hmin (bounds_ne_nan ha hb ?_) ?_
    · rintro w n hwn ⟨x, hx, hnx⟩
      exact ⟨x, hx, le_trans hwn hnx⟩
    · intro p w hw hp
      obtain ⟨cmp, literal, rfl, -⟩ := lowOf_eq_some hw
      exact fun heq => hp.2 (by rw [heq])
    · intro n hn
      obtain ⟨p, hp, hpn⟩ := List.mem_filterMap.mp hn
      obtain ⟨cmp, literal, heq, hcmp⟩ := lowOf_eq_some hpn
      have hbounds : cmp.bounds := by rcases hcmp with rfl | rfl <;> simp [Comparison.bounds]
      obtain ⟨x, hx, hholds⟩ := hpart p hp cmp literal n heq hbounds
      exact ⟨x, hx, hholds.1 hcmp⟩
  · refine high_fits ?_ hwide.max hnarrow.max hmax (bounds_ne_nan ha hb ?_) ?_
    · rintro w n hnw ⟨x, hx, hxn⟩
      exact ⟨x, hx, le_trans hxn hnw⟩
    · intro p w hw hp
      obtain ⟨cmp, literal, rfl, -⟩ := highOf_eq_some hw
      exact fun heq => hp.2 (by rw [heq])
    · intro n hn
      obtain ⟨p, hp, hpn⟩ := List.mem_filterMap.mp hn
      obtain ⟨cmp, literal, heq, hcmp⟩ := highOf_eq_some hpn
      have hbounds : cmp.bounds := by rcases hcmp with rfl | rfl <;> simp [Comparison.bounds]
      obtain ⟨x, hx, hholds⟩ := hpart p hp cmp literal n heq hbounds
      exact ⟨x, hx, hholds.2 hcmp⟩

/-- The length bounds of `b` hold where `a` accepts and its bounds are within. -/
theorem length_bounds {wide narrow : Decomposition} (ha : Reads host a) (hb : Reads host b)
    (hwide : Describes (flatten .and b) wide) (hnarrow : Describes (flatten .and a) narrow)
    (hmin : lowFits wide.minLength narrow.minLength = true)
    (hmax : highFits wide.maxLength narrow.maxLength = true)
    (haccepts : ∀ p ∈ flatten .and a, Accepts host p v) :
    (∀ w ∈ (flatten .and b).filterMap lowLengthOf,
        ∃ s, v = .scalar (.string s) ∧ w.le (.ofInt s.length) = true) ∧
      ∀ w ∈ (flatten .and b).filterMap highLengthOf,
        ∃ s, v = .scalar (.string s) ∧ (Number.ofInt s.length).le w = true := by
  have hpart : ∀ p ∈ flatten .and a, ∀ cmp literal n, p = .len [] (.cmp cmp [] literal (.number n)) →
      cmp.bounds → ∃ s, v = .scalar (.string s) ∧ Holds cmp (.ofInt s.length) n := by
    rintro p hp cmp literal n rfl hcmp
    exact (accepts_length hcmp (reads_part ha hp).1).mp (haccepts _ hp)
  constructor
  · refine low_fits ?_ hwide.minLength hnarrow.minLength hmin (bounds_ne_nan ha hb ?_) ?_
    · rintro w n hwn ⟨s, hs, hns⟩
      exact ⟨s, hs, le_trans hwn hns⟩
    · intro p w hw hp
      obtain ⟨cmp, literal, rfl, -⟩ := lowLengthOf_eq_some hw
      exact fun heq => hp.2 (by rw [heq])
    · intro n hn
      obtain ⟨p, hp, hpn⟩ := List.mem_filterMap.mp hn
      obtain ⟨cmp, literal, heq, hcmp⟩ := lowLengthOf_eq_some hpn
      have hbounds : cmp.bounds := by rcases hcmp with rfl | rfl <;> simp [Comparison.bounds]
      obtain ⟨s, hs, hholds⟩ := hpart p hp cmp literal n heq hbounds
      exact ⟨s, hs, hholds.1 hcmp⟩
  · refine high_fits ?_ hwide.maxLength hnarrow.maxLength hmax (bounds_ne_nan ha hb ?_) ?_
    · rintro w n hnw ⟨s, hs, hsn⟩
      exact ⟨s, hs, le_trans hsn hnw⟩
    · intro p w hw hp
      obtain ⟨cmp, literal, rfl, -⟩ := highLengthOf_eq_some hw
      exact fun heq => hp.2 (by rw [heq])
    · intro n hn
      obtain ⟨p, hp, hpn⟩ := List.mem_filterMap.mp hn
      obtain ⟨cmp, literal, heq, hcmp⟩ := highLengthOf_eq_some hpn
      have hbounds : cmp.bounds := by rcases hcmp with rfl | rfl <;> simp [Comparison.bounds]
      obtain ⟨s, hs, hholds⟩ := hpart p hp cmp literal n heq hbounds
      exact ⟨s, hs, hholds.2 hcmp⟩

/-- Between readable refinements, an implication is kept by every value, up to C numbers that a
comparison converts. -/
theorem implies_sound (ha : a ∈ Readable host) (hb : b ∈ Readable host) (hv : Unconverted v a)
    (h : implies a b = true) (haccepts : Accepts host a v) : Accepts host b v := by
  unfold implies at h
  split at h
  · next hkey => exact eq_of_key_eq ha hb hkey ▸ haccepts
  split at h
  · cases h
  next wide hwide =>
  split at h
  · cases h
  next narrow hnarrow =>
  simp only [Bool.and_eq_true, List.all_eq_true, decide_eq_true_eq] at h
  obtain ⟨⟨⟨⟨hmin, hmax⟩, hminLength⟩, hmaxLength⟩, hothers⟩ := h
  have hparts := accepts_parts.mp haccepts
  have hdwide := describes_decompose hwide
  have hdnarrow := describes_decompose hnarrow
  have hvalue := value_bounds ha.2 hb.2 hv hdwide hdnarrow hmin hmax hparts
  have hlength := length_bounds ha.2 hb.2 hdwide hdnarrow hminLength hmaxLength hparts
  refine accepts_parts.mpr fun q hq => ?_
  have hread := reads_part hb.2 hq
  cases hleft : leftOver q with
  | true =>
    obtain ⟨p, hp, -, hkey⟩ := (hdnarrow.others _).mp
      (hothers _ ((hdwide.others _).mpr ⟨q, hq, hleft, rfl⟩))
    exact eq_of_key_eq (readable_part ha hp) (readable_part hb hq) hkey ▸ hparts p hp
  | false =>
    obtain ⟨cmp, literal, w, hcmp, rfl | rfl⟩ := bound_of_not_leftOver hleft
    · have hlow : cmp = .ge ∨ cmp = .eq → ∃ x, v = .scalar (.number x) ∧ w.le x = true :=
        fun h => hvalue.1 w (List.mem_filterMap.mpr ⟨_, hq, by simp [lowOf, h]⟩)
      have hhigh : cmp = .le ∨ cmp = .eq → ∃ x, v = .scalar (.number x) ∧ x.le w = true :=
        fun h => hvalue.2 w (List.mem_filterMap.mpr ⟨_, hq, by simp [highOf, h]⟩)
      obtain ⟨x, rfl⟩ : ∃ x, v = .scalar (.number x) := by
        rcases hcmp with h | h | h
        · obtain ⟨x, hx, -⟩ := hlow (.inl h)
          exact ⟨x, hx⟩
        · obtain ⟨x, hx, -⟩ := hhigh (.inl h)
          exact ⟨x, hx⟩
        · obtain ⟨x, hx, -⟩ := hlow (.inr h)
          exact ⟨x, hx⟩
      refine (accepts_value hcmp hread.1 (by rintro ⟨⟩)).mpr ⟨x, rfl, fun h => ?_, fun h => ?_⟩
      · obtain ⟨y, hy, hwy⟩ := hlow h
        cases hy
        exact hwy
      · obtain ⟨y, hy, hyw⟩ := hhigh h
        cases hy
        exact hyw
    · have hlow : cmp = .ge ∨ cmp = .eq →
          ∃ s, v = .scalar (.string s) ∧ w.le (.ofInt s.length) = true :=
        fun h => hlength.1 w (List.mem_filterMap.mpr
          ⟨_, hq, by simp [lowLengthOf, lengthOf, lowOf, h]⟩)
      have hhigh : cmp = .le ∨ cmp = .eq →
          ∃ s, v = .scalar (.string s) ∧ (Number.ofInt s.length).le w = true :=
        fun h => hlength.2 w (List.mem_filterMap.mpr
          ⟨_, hq, by simp [highLengthOf, lengthOf, highOf, h]⟩)
      obtain ⟨s, rfl⟩ : ∃ s, v = .scalar (.string s) := by
        rcases hcmp with h | h | h
        · obtain ⟨s, hs, -⟩ := hlow (.inl h)
          exact ⟨s, hs⟩
        · obtain ⟨s, hs, -⟩ := hhigh (.inl h)
          exact ⟨s, hs⟩
        · obtain ⟨s, hs, -⟩ := hlow (.inr h)
          exact ⟨s, hs⟩
      refine (accepts_length hcmp hread.1).mpr ⟨s, rfl, fun h => ?_, fun h => ?_⟩
      · obtain ⟨t, ht, hwt⟩ := hlow h
        cases ht
        exact hwt
      · obtain ⟨t, ht, htw⟩ := hhigh h
        cases ht
        exact htw

end Implied

end Nupp.predicate
