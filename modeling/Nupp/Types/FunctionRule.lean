import Mathlib.Tactic.Common
import Nupp.Types.Relations

/-! When a function type that fits another can stand wherever the other is called. -/

namespace Nupp.Relations

variable {Ty : Type*} [DecidableEq Ty] (T : Arena Ty) (rest : (Ty → Ty → Bool) → Ty → Ty → Bool)

def Fits (a b : Ty) : Prop := ∃ n, isA T rest n a b = true

/-- What the parameter pack of `f` declares at position `j`. -/
def Func.declares (f : Func Ty) (j : ℕ) : Option Ty := f.params[j]?.or (tailType f.tail)

/-- `f` can be called the way `g` is: whatever `g` admits at a position fits what `f`
declares there, and `f` can do without what `g` never supplies. -/
structure StandsFor (f g : Func Ty) : Prop where
  fits : ∀ j t u, packAt T ⟨g.params, g.tail⟩ j = some t → f.declares j = some u → Fits T rest t u
  missing : ∀ j u, f.params[j]? = some u → g.params.length ≤ j → g.tail = none → admitsNil T u

/-- What the rule leaves out: fixed parameters of `g` that meet the tail of `f`, an
untyped tail that meets a typed one, and typed tails whose element went unrecorded. -/
structure TailCovered (f g : Func Ty) : Prop where
  fixed : ∀ j t u, f.params.length ≤ j → g.params[j]? = some t → tailType f.tail = some u →
    Fits T rest t u
  untyped : ∀ u, g.tail = some .unknown → tailType f.tail = some u → T.view u ≠ .never
  typed : ∀ t u, tailType g.tail = some t → tailType f.tail = some u →
    g.varargType = none ∨ f.varargType = none → Fits T rest t u

variable {T rest}

theorem Fits.refl (t : Ty) : Fits T rest t t := ⟨1, by simp [isA]⟩

theorem fits_any_iff {u : Ty} : Fits T rest T.any u ↔ T.view u ≠ .never := by
  constructor
  · rintro ⟨n, h⟩ hu
    cases n with
    | zero => cases h
    | succ n =>
      have hne : T.any ≠ u := by
        rintro rfl
        simp [T.view_any] at hu
      simp [isA, hne, check, T.view_any, hu] at h
  · intro hu
    refine ⟨1, ?_⟩
    by_cases heq : T.any = u
    · simp [isA, heq]
    · cases hv : T.view u <;> simp_all [isA, check, T.view_any]

theorem not_never_of_unknown {n : ℕ} {u : Ty} (h : isA T rest n T.unknown u = true) :
    T.view u ≠ .never := by
  intro hu
  cases n with
  | zero => cases h
  | succ n =>
    have hne : T.unknown ≠ u := by
      rintro rfl
      simp [T.view_unknown] at hu
    simp [isA, hne, check, T.view_unknown, hu] at h

omit [DecidableEq Ty] in
theorem declares_of_lt {f : Func Ty} {j : ℕ} {u : Ty} (h : f.params[j]? = some u) :
    f.declares j = some u := by
  simp [Func.declares, h]

omit [DecidableEq Ty] in
theorem declares_of_le {f : Func Ty} {j : ℕ} (h : f.params.length ≤ j) :
    f.declares j = tailType f.tail := by
  simp [Func.declares, List.getElem?_eq_none h]

omit [DecidableEq Ty] in
theorem tailType_eq_some {tail : Option (PackTail Ty)} {t : Ty} :
    tailType tail = some t ↔ ∃ mode, tail = some (.homogeneous t mode) := by
  unfold tailType
  split <;> simp_all

omit [DecidableEq Ty] in
theorem packAt_of_lt {g : Func Ty} {j : ℕ} {t : Ty} (h : g.params[j]? = some t) :
    packAt T ⟨g.params, g.tail⟩ j = some t := by
  simp [packAt, h]

omit [DecidableEq Ty] in
/-- Beyond the fixed parameters the pack admits what its tail does. -/
theorem packAt_of_le {g : Func Ty} {j : ℕ} {t : Ty} (h : g.params.length ≤ j) :
    packAt T ⟨g.params, g.tail⟩ j = some t ↔
      tailType g.tail = some t ∨ g.tail = some .unknown ∧ T.any = t := by
  simp only [packAt, List.getElem?_eq_none h, tailType]
  cases g.tail with
  | none => simp
  | some tail => cases tail <;> simp

/-! The answers the rule gathers. -/

section Answers

variable {answers : Ty → Ty → Bool} {f g : Func Ty}

omit [DecidableEq Ty] in
theorem isA_of_shared (h : sharedParamsFit answers f g = true) {j : ℕ} {t u : Ty}
    (ht : g.params[j]? = some t) (hu : f.params[j]? = some u) : answers t u = true := by
  simp only [sharedParamsFit, List.all_eq_true, List.mem_range, Bool.and_eq_true] at h
  have hj : j < min f.params.length g.params.length := by
    obtain ⟨hf, -⟩ := List.getElem?_eq_some_iff.mp hu
    obtain ⟨hg, -⟩ := List.getElem?_eq_some_iff.mp ht
    exact Nat.lt_min.mpr ⟨hf, hg⟩
  have hopt := (h j hj).2
  rw [ht, hu] at hopt
  exact hopt

theorem extraParamFits_of_mem (h : extraParamsFit T answers f g = true) {j : ℕ} {u : Ty}
    (hu : f.params[j]? = some u) (hj : g.params.length ≤ j) :
    extraParamFits T answers f g j u = true := by
  simp only [extraParamsFit, List.all_eq_true] at h
  refine h (u, j) ?_
  obtain ⟨hlt, hget⟩ := List.getElem?_eq_some_iff.mp hu
  rw [List.mem_drop_iff_getElem]
  refine ⟨j - g.params.length, by simpa using by omega, ?_⟩
  have hidx : g.params.length + (j - g.params.length) = j := by omega
  simp [hidx, hget]

/-- Where a position is fixed by `f` and in the tail of `g`. -/
theorem isA_of_extra (h : extraParamsFit T answers f g = true) {j : ℕ} {u : Ty}
    (hu : f.params[j]? = some u) (hj : g.params.length ≤ j) (hv : g.tail.isSome) :
    answers ((tailType g.tail).getD T.unknown) u = true := by
  have hfits := extraParamFits_of_mem h hu hj
  simp only [extraParamFits, Func.vararg, hv, if_true, Bool.and_eq_true] at hfits
  exact hfits.2

theorem admitsNil_of_extra (h : extraParamsFit T answers f g = true) {j : ℕ} {u : Ty}
    (hu : f.params[j]? = some u) (hj : g.params.length ≤ j) (hv : g.tail = none) :
    admitsNil T u = true := by
  have hfits := extraParamFits_of_mem h hu hj
  simpa [extraParamFits, Func.vararg, hv] using hfits

omit [DecidableEq Ty] in
theorem isA_of_varargTypes (h : varargTypesFit answers f g = true) {t u : Ty}
    (ht : tailType g.tail = some t) (hu : tailType f.tail = some u)
    (hg : g.varargType ≠ none) (hf : f.varargType ≠ none) : answers t u = true := by
  obtain ⟨t', ht'⟩ := Option.ne_none_iff_exists'.mp hg
  obtain ⟨u', hu'⟩ := Option.ne_none_iff_exists'.mp hf
  cases (tailType_eq_some.mpr (g.varargType_eq t' ht')).symm.trans ht
  cases (tailType_eq_some.mpr (f.varargType_eq u' hu')).symm.trans hu
  simpa [varargTypesFit, ht', hu'] using h

end Answers

/-! The two directions. -/

variable {f g : Func Ty}

theorem StandsFor.tailCovered (h : StandsFor T rest f g) : TailCovered T rest f g := by
  have htail : ∀ t u, tailType g.tail = some t ∨ g.tail = some .unknown ∧ T.any = t →
      tailType f.tail = some u → Fits T rest t u := by
    intro t u ht hu
    refine h.fits (max f.params.length g.params.length) t u ?_ ?_
    · exact (packAt_of_le (Nat.le_max_right _ _)).mpr ht
    · exact (declares_of_le (Nat.le_max_left _ _)).trans hu
  refine ⟨fun j t u hj ht hu => ?_, fun u hg hu => ?_, fun t u ht hu _ => htail t u (.inl ht) hu⟩
  · exact h.fits j t u (packAt_of_lt ht) ((declares_of_le hj).trans hu)
  · exact fits_any_iff.mp (htail T.any u (.inr ⟨hg, rfl⟩) hu)

theorem TailCovered.standsFor {n : ℕ} (hc : TailCovered T rest f g)
    (h : funcIsA T (isA T rest n) f g = true) : StandsFor T rest f g := by
  simp only [funcIsA, Bool.and_eq_true] at h
  obtain ⟨⟨⟨⟨⟨⟨⟨⟨⟨⟨-, hshared⟩, hextra⟩, -⟩, hvararg⟩, -⟩, -⟩, -⟩, -⟩, -⟩, -⟩ := h
  refine ⟨fun j t u ht hu => ?_, fun j u hu hj hg => admitsNil_of_extra hextra hu hj hg⟩
  rcases Nat.lt_or_ge j g.params.length with hjg | hjg
  · have hgt : g.params[j]? = some t := by
      rw [List.getElem?_eq_getElem hjg] at *
      simpa [packAt, hjg] using ht
    rcases Nat.lt_or_ge j f.params.length with hjf | hjf
    · have hfu : f.params[j]? = some u := by simpa [Func.declares, hjf] using hu
      exact ⟨n, isA_of_shared hshared hgt hfu⟩
    · exact hc.fixed j t u hjf hgt ((declares_of_le hjf).symm.trans hu)
  · rcases Nat.lt_or_ge j f.params.length with hjf | hjf
    · have hfu : f.params[j]? = some u := by simpa [Func.declares, hjf] using hu
      rcases (packAt_of_le hjg).mp ht with htail | ⟨htail, rfl⟩
      · obtain ⟨mode, hg⟩ := tailType_eq_some.mp htail
        refine ⟨n, ?_⟩
        simpa [htail] using isA_of_extra hextra hfu hjg (by simp [hg])
      · have hunknown := isA_of_extra hextra hfu hjg (by simp [htail])
        simp only [htail, tailType, Option.getD_none] at hunknown
        exact fits_any_iff.mpr (not_never_of_unknown hunknown)
    · have hfu : tailType f.tail = some u := (declares_of_le hjf).symm.trans hu
      rcases (packAt_of_le hjg).mp ht with htail | ⟨htail, rfl⟩
      · by_cases hrec : g.varargType = none ∨ f.varargType = none
        · exact hc.typed t u htail hfu hrec
        · rw [not_or] at hrec
          exact ⟨n, isA_of_varargTypes hvararg htail hfu hrec.1 hrec.2⟩
      · exact fits_any_iff.mpr (hc.untyped u htail hfu)

theorem standsFor_self (f : Func Ty) : StandsFor T rest f f := by
  refine ⟨fun j t u ht hu => ?_, fun j u hu hj _ => ?_⟩
  · suffices heq : t = u from heq ▸ Fits.refl t
    rcases Nat.lt_or_ge j f.params.length with hj | hj
    · have hfu : f.params[j]? = some u := by simpa [Func.declares, hj] using hu
      exact Option.some.inj (ht.symm.trans (packAt_of_lt hfu))
    · rw [declares_of_le hj] at hu
      rcases (packAt_of_le hj).mp ht with htail | ⟨htail, -⟩
      · exact Option.some.inj (htail.symm.trans hu)
      · rw [htail] at hu
        cases hu
  · rw [List.getElem?_eq_none hj] at hu
    cases hu

/-- Function types that fit stand for each other exactly when the tails are covered. -/
theorem standsFor_iff {n : ℕ} {a b : Ty} (ha : T.view a = .func f) (hb : T.view b = .func g)
    (h : isA T rest n a b = true) : StandsFor T rest f g ↔ TailCovered T rest f g := by
  refine ⟨StandsFor.tailCovered, fun hc => ?_⟩
  cases n with
  | zero => cases h
  | succ n =>
    simp only [isA, Bool.or_eq_true, decide_eq_true_eq] at h
    rcases h with rfl | h
    · cases ha.symm.trans hb
      exact standsFor_self f
    · refine hc.standsFor (n := n) ?_
      simpa [check, ha, hb] using h

/-! A logger of strings, and slots that call it with a string and with a number. -/

inductive Sample
  | any
  | unknown
  | nil
  | string
  | number
  | optional (t : Sample)
  | logger
  | stringSlot
  | numberSlot
  deriving DecidableEq

/-- `function(params, ...: element)` that returns nothing and promises nothing. -/
def Func.basic (params : List Sample) (element : Option Sample) : Func Sample where
  params := params
  paramModes := params.map fun _ => .plain
  paramNames := []
  tail := element.map fun t => .homogeneous t none
  varargType := element
  rets := []
  retPack := .arm ⟨[], none⟩
  yieldPack := none
  resumePack := none
  noYield := false
  sendable := false
  noreturn := false
  preservesResults _ := none
  borrowsParam := none
  borrowsParams := []
  borrowsSelf := false
  borrowsResult := none
  varargType_eq := by
    rintro t rfl
    exact ⟨none, rfl⟩

def Sample.arena : Arena Sample where
  view
    | .any => .any
    | .unknown => .unknown
    | .logger => .func (.basic [] (some .string))
    | .stringSlot => .func (.basic [.string] none)
    | .numberSlot => .func (.basic [.number] none)
    | _ => .other
  any := .any
  unknown := .unknown
  nil := .nil
  optional := .optional
  affine _ := false
  hasNil
    | .optional _ => true
    | _ => false
  view_any := rfl
  view_unknown := rfl

/-- Distinct primitives do not fit each other, and what fits a type fits its optional. -/
def Sample.rules (isA : Sample → Sample → Bool) (a : Sample) : Sample → Bool
  | .optional t => a = .nil || isA a t
  | _ => false

theorem standsFor_iff_logger :
    isA Sample.arena Sample.rules 2 .logger .stringSlot = true ∧
      StandsFor Sample.arena Sample.rules (.basic [] (some .string)) (.basic [.string] none) := by
  have h : isA Sample.arena Sample.rules 2 .logger .stringSlot = true := by decide
  refine ⟨h, (standsFor_iff rfl rfl h).mpr ⟨?_, ?_, ?_⟩⟩
  · intro j t u _ ht hu
    have htu : t = u := by
      cases j with
      | zero =>
        cases ht
        cases hu
        rfl
      | succ j => simp [Func.basic] at ht
    exact htu ▸ Fits.refl t
  · intro u hg
    cases hg
  · intro t u ht
    cases ht

/-- The logger is accepted where it will be handed a number. -/
theorem logger_fits_numberSlot :
    isA Sample.arena Sample.rules 2 .logger .numberSlot = true ∧
      ¬ StandsFor Sample.arena Sample.rules (.basic [] (some .string)) (.basic [.number] none) := by
  refine ⟨by decide, fun h => ?_⟩
  obtain ⟨n, hn⟩ := h.fits 0 .number .string rfl rfl
  cases n with
  | zero => cases hn
  | succ n => cases hn

end Nupp.Relations
