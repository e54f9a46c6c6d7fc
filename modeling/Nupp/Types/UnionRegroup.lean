import Mathlib.Data.Countable.Basic
import Mathlib.Data.Countable.Defs
import Mathlib.Logic.Equiv.Finset
import Nupp.Types.UnionCorrect

/-! Unions written in every way: the members permuted, repeated and gathered into unions of
their own. -/

namespace Nupp.types

/-- A list of types some of which are unions of such lists. -/
inductive Regrouping
  | nil
  | type (t : Ty) (rest : Regrouping)
  | nested (inner rest : Regrouping)

namespace Regrouping

/-- The types of the list, every inner union built. -/
def entries (arena : Arena) : Regrouping → List Ty
  | nil => []
  | type t rest => t :: rest.entries arena
  | nested inner rest => union arena (inner.entries arena) :: rest.entries arena

def leaves : Regrouping → List Ty
  | nil => []
  | type t rest => t :: rest.leaves
  | nested inner rest => inner.leaves ++ rest.leaves

def ofList : List Ty → Regrouping
  | [] => nil
  | t :: ts => type t (ofList ts)

theorem entries_ofList (arena : Arena) (ts : List Ty) : (ofList ts).entries arena = ts := by
  induction ts with
  | nil => rfl
  | cons t ts ih => exact congrArg (t :: ·) ih

theorem leaves_ofList (ts : List Ty) : (ofList ts).leaves = ts := by
  induction ts with
  | nil => rfl
  | cons t ts ih => exact congrArg (t :: ·) ih

end Regrouping

section Regroup

variable {arena : Arena} {S S' A B : Set Member}

/-- Every function of one set has its written relations from a function of the other. -/
def Traced (S' S : Set Member) : Prop :=
  ∀ f, Member.func f ∈ S' → ∃ g, Member.func g ∈ S ∧ g.unlabeledId = f.unlabeledId ∧
    f.explicitPreserves = g.explicitPreserves

theorem Traced.agreeing (h : Traced S' S) (hS : Agreeing S) : Agreeing S' := by
  intro f g hf hg hcontract
  obtain ⟨f', hf', hfc, hfw⟩ := h f hf
  obtain ⟨g', hg', hgc, hgw⟩ := h g hg
  rw [hfw, hgw]
  exact hS f' g' hf' hg' (by rw [hfc, hgc, hcontract])

theorem Traced.union_mono {A' B' : Set Member} (hA : Traced A' A) (hB : Traced B' B) :
    Traced (A' ∪ B') (A ∪ B) := by
  rintro f (hf | hf)
  · obtain ⟨g, hg, hgc, hgw⟩ := hA f hf
    exact ⟨g, Or.inl hg, hgc, hgw⟩
  · obtain ⟨g, hg, hgc, hgw⟩ := hB f hf
    exact ⟨g, Or.inr hg, hgc, hgw⟩

theorem traced_refl (S : Set Member) : Traced S S := fun f hf => ⟨f, hf, rfl, rfl⟩

theorem traced_kept (S : Set Member) : Traced {m | Kept S m} S := by
  rintro f (⟨-, hf⟩ | ⟨-, hf⟩)
  · simp [Member.prim] at hf
  · exact hf.exists_written

theorem kept_kept (hS : Agreeing S) (m : Member) : Kept {m | Kept S m} m ↔ Kept S m :=
  kept_pieces (P := fun _ : Unit => S) (Or.inr hS) (fun n => by simp) (fun n => by simp) m

theorem kept_union (h : Agreeing (A ∪ B)) (m : Member) :
    Kept ({m | Kept A m} ∪ {m | Kept B m}) m ↔ Kept (A ∪ B) m :=
  kept_pieces (P := fun b => bif b then A else B) (Or.inr h) (fun n => by simp [or_comm])
    (fun n => by simp [or_comm]) m

/-- Parts that keep the same may stand for each other beside others. -/
theorem kept_union_congr {A' B' : Set Member} (h : Agreeing (A ∪ B)) (h' : Agreeing (A' ∪ B'))
    (hA : ∀ m, Kept A' m ↔ Kept A m) (hB : ∀ m, Kept B' m ↔ Kept B m) (m : Member) :
    Kept (A' ∪ B') m ↔ Kept (A ∪ B) m := by
  have hA' : {m | Kept A' m} = {m | Kept A m} := Set.ext hA
  have hB' : {m | Kept B' m} = {m | Kept B m} := Set.ext hB
  rw [← kept_union h, ← kept_union h', hA', hB']

theorem partsOf_cons (t : Ty) (ts : List Ty) : partsOf (t :: ts) = {m | m ∈ t.parts} ∪ partsOf ts := by
  ext m
  simp [partsOf]

theorem partsOf_append (ts ts' : List Ty) : partsOf (ts ++ ts') = partsOf ts ∪ partsOf ts' := by
  ext m
  simp [partsOf, or_and_right, exists_or]

/-- However a list is grouped, its inner unions keep what the whole would. -/
theorem kept_entries (f : Regrouping) (h : Agreeing (partsOf f.leaves)) :
    Traced (partsOf (f.entries arena)) (partsOf f.leaves) ∧
      ∀ m, Kept (partsOf (f.entries arena)) m ↔ Kept (partsOf f.leaves) m := by
  induction f with
  | nil => exact ⟨traced_refl _, fun m => Iff.rfl⟩
  | type t rest ih =>
    rw [Regrouping.entries, Regrouping.leaves, partsOf_cons, partsOf_cons]
    rw [Regrouping.leaves, partsOf_cons] at h
    obtain ⟨htraced, hkept⟩ := ih (h.mono Set.subset_union_right)
    have htraces := (traced_refl {m | m ∈ t.parts}).union_mono htraced
    exact ⟨htraces, kept_union_congr h (htraces.agreeing h) (fun m => Iff.rfl) hkept⟩
  | nested inner rest ihInner ihRest =>
    rw [Regrouping.entries, Regrouping.leaves, partsOf_cons, partsOf_append]
    rw [Regrouping.leaves, partsOf_append] at h
    have hinner := h.mono (S := partsOf inner.leaves) Set.subset_union_left
    obtain ⟨htraced, hkept⟩ := ihInner hinner
    obtain ⟨htraced', hkept'⟩ := ihRest (h.mono Set.subset_union_right)
    have hparts : {m | m ∈ (union arena (inner.entries arena)).parts} =
        {m | Kept (partsOf inner.leaves) m} := by
      ext m
      exact (mem_parts_union (Or.inr (htraced.agreeing hinner)) m).trans (hkept m)
    rw [hparts]
    have htraces := (traced_kept (partsOf inner.leaves)).union_mono htraced'
    exact ⟨htraces, kept_union_congr h (htraces.agreeing h) (kept_kept hinner) hkept'⟩

/-- `any` is in a grouped list when it is in the list. -/
theorem any_mem_entries (f : Regrouping) :
    Member.prim .any ∈ partsOf (f.entries arena) ↔ .prim .any ∈ partsOf f.leaves := by
  induction f with
  | nil => exact Iff.rfl
  | type t rest ih =>
    rw [Regrouping.entries, Regrouping.leaves, partsOf_cons, partsOf_cons]
    exact or_congr_right ih
  | nested inner rest ihInner ihRest =>
    rw [Regrouping.entries, Regrouping.leaves, partsOf_cons, partsOf_append]
    exact or_congr (any_mem_union.trans ihInner) ihRest

/-- A type as the constructors build it. -/
inductive Built (arena : Arena) : Ty → Prop
  | one (m : Member) : Built arena (.one m)
  | union {ts : List Ty} (h : ∀ t ∈ ts, Built arena t) : Built arena (union arena ts)

/-- A built type has one function of a contract at most. -/
theorem Built.unique_func {t : Ty} (h : Built arena t) {f g : Func} (hf : Member.func f ∈ t.parts)
    (hg : Member.func g ∈ t.parts) (hcontract : f.unlabeledId = g.unlabeledId) : f = g := by
  cases h with
  | one m =>
    have hfm := List.mem_singleton.mp (List.mem_filter.mp hf).1
    have hgm := List.mem_singleton.mp (List.mem_filter.mp hg).1
    exact Member.func.inj (hfm.trans hgm.symm)
  | union hts =>
    have hmerged := mergedOf_of_mem_union hf
    rw [hcontract, mergedOf_of_mem_union hg, Option.some.injEq] at hmerged
    exact hmerged.symm

/-- The first function of a contract gives the merged one its written relations. -/
theorem explicitPreserves_mergedOf {contract : String} {l : List Member} {f g : Func}
    {fs : List Func} (hl : functionsOf contract l = g :: fs) (h : mergedOf contract l = some f) :
    f.explicitPreserves = g.explicitPreserves := by
  have hfold : ∀ (fs : List Func) (g : Func),
      (fs.foldl mergeInto g).explicitPreserves = g.explicitPreserves := by
    intro fs
    induction fs with
    | nil => exact fun g => rfl
    | cons k fs ih =>
      intro g
      rw [List.foldl_cons, ih]
      unfold mergeInto mergeFunctions
      split
      · rfl
      · rfl
  rw [mergedOf, hl, Option.some.injEq] at h
  rw [← h, hfold]

/-- Of a list that starts with a built type the union has what that type's function wrote. -/
theorem exists_func_union {t : Ty} (ht : Built arena t) {ts : List Ty} {f : Func}
    (hf : Member.func f ∈ t.parts) (hany : .prim .any ∉ partsOf (t :: ts)) :
    ∃ g, Member.func g ∈ (union arena (t :: ts)).parts ∧ g.unlabeledId = f.unlabeledId ∧
      g.explicitPreserves = f.explicitPreserves := by
  cases hfs : functionsOf f.unlabeledId t.parts with
  | nil =>
    have hmem := mem_functionsOf.mpr ⟨hf, rfl⟩
    rw [hfs] at hmem
    simp at hmem
  | cons k ks =>
    obtain ⟨hk, hkc⟩ := mem_functionsOf.mp (hfs ▸ List.mem_cons_self)
    have hsame : k = f := ht.unique_func hk hf hkc
    have hlist : functionsOf f.unlabeledId ((t :: ts).flatMap Ty.parts) =
        k :: (ks ++ functionsOf f.unlabeledId (ts.flatMap Ty.parts)) := by
      rw [List.flatMap_cons, functionsOf_append, hfs, List.cons_append]
    cases hmerged : mergedOf f.unlabeledId ((t :: ts).flatMap Ty.parts) with
    | none =>
      rw [mergedOf, hlist] at hmerged
      simp at hmerged
    | some g =>
      have hgc := mergedOf_unlabeledId hmerged
      exact ⟨g, mem_union_of_mergedOf hany (hgc ▸ hmerged), hgc,
        hsame ▸ explicitPreserves_mergedOf hlist hmerged⟩

/-- A union is one type in all the ways that it is written exactly when `any` swallows it or the
functions of each contract agree about their written preserve relations. -/
theorem union_regroups {l : List Ty} (hl : ∀ t ∈ l, Built arena t) :
    (∀ f : Regrouping, (∀ t, t ∈ f.leaves ↔ t ∈ l) →
      union arena (f.entries arena) = union arena l) ↔
    .prim .any ∈ partsOf l ∨ Agreeing (partsOf l) := by
  have hparts : ∀ f : Regrouping, (∀ t, t ∈ f.leaves ↔ t ∈ l) → partsOf f.leaves = partsOf l := by
    intro f hf
    ext m
    simp [partsOf, hf]
  constructor
  · intro hsame
    by_contra hneither
    rw [not_or] at hneither
    obtain ⟨hany, hagree⟩ := hneither
    refine hagree fun f g hf hg hcontract => ?_
    have hfront : ∀ t ∈ l, union arena (t :: l) = union arena l := by
      intro t ht
      have heq := hsame (.ofList (t :: l)) fun u => by
        rw [Regrouping.leaves_ofList, List.mem_cons]
        exact ⟨fun hor => hor.elim (fun heq => heq ▸ ht) id, Or.inr⟩
      rwa [Regrouping.entries_ofList] at heq
    have hno : ∀ t ∈ l, Member.prim .any ∉ partsOf (t :: l) := by
      intro t ht hmem
      rw [partsOf_cons] at hmem
      exact hmem.elim (fun hpart => hany ⟨t, ht, hpart⟩) hany
    obtain ⟨t, ht, htf⟩ := hf
    obtain ⟨u, hu, hug⟩ := hg
    obtain ⟨f', hf', hfc, hfw⟩ := exists_func_union (hl t ht) htf (hno t ht)
    obtain ⟨g', hg', hgc, hgw⟩ := exists_func_union (hl u hu) hug (hno u hu)
    rw [hfront t ht] at hf'
    rw [hfront u hu] at hg'
    have hone := (Built.union hl).unique_func hf' hg' (by rw [hfc, hgc, hcontract])
    rw [← hfw, ← hgw, hone]
  · rintro h f hf
    have hset := hparts f hf
    rcases h with hany | hagree
    · have hany' : Member.prim .any ∈ partsOf (f.entries arena) :=
        any_mem_entries f |>.mpr (hset ▸ hany)
      exact union_congr (Or.inl hany') (Or.inl hany) fun m => by simp [Kept, hany, hany']
    · obtain ⟨htraced, hkept⟩ := @kept_entries arena f (hset ▸ hagree)
      refine union_congr (Or.inr (htraced.agreeing (hset ▸ hagree))) (Or.inr hagree) fun m => ?_
      rw [hkept, hset]

end Regroup

section Arena

/-- What a member is made of. -/
def Member.parts : Member → (Tag × List Char × List Char) ⊕
    (List Char × Finset ℕ × Option (List (List Char)) × Bool)
  | .leaf tag label key => .inl (tag, label.toList, key.toList)
  | .func f => .inr (f.unlabeledId.toList, f.explicitPreserves,
      f.paramNames.map (List.map String.toList), f.sendable)

theorem Member.parts_injective : Function.Injective Member.parts := by
  have hnames : Function.Injective (Option.map (List.map String.toList)) :=
    Option.map_injective (List.map_injective_iff.mpr fun a b h => String.toList_inj.mp h)
  intro m n h
  cases m with
  | leaf tag label key =>
    cases n with
    | leaf tag' label' key' =>
      simp only [Member.parts, Sum.inl.injEq, Prod.mk.injEq, String.toList_inj] at h
      rw [h.1, h.2.1, h.2.2]
    | func f => simp [Member.parts] at h
  | func f =>
    cases n with
    | leaf tag label key => simp [Member.parts] at h
    | func g =>
      obtain ⟨c, w, names, d⟩ := f
      obtain ⟨c', w', names', d'⟩ := g
      simp only [Member.parts, Sum.inr.injEq, Prod.mk.injEq, String.toList_inj] at h
      rw [h.1, h.2.1, hnames h.2.2.1, h.2.2.2]

/-- Serials can be given to all members. -/
theorem exists_arena : Nonempty Arena := by
  have htag : Countable Tag := by
    have hinj : Function.Injective Tag.ctorIdx := fun a b h => by
      cases a <;> cases b <;> first | rfl | simp [Tag.ctorIdx] at h
    exact hinj.countable
  have hchar : Countable Char := by
    have hinj : Function.Injective Char.toNat := fun a b h => Char.toNat_inj.mp h
    exact hinj.countable
  have hmember : Countable Member := Member.parts_injective.countable
  obtain ⟨serial, hserial⟩ := exists_injective_nat Member
  refine ⟨⟨fun m => String.ofList (List.replicate (serial m) 't'), fun m n h => hserial ?_⟩⟩
  have hlist := congrArg (fun s => s.toList.length) h
  simpa using hlist

/-- One of two functions wrote the relation that the other has inferred: the one that is first
decides. -/
theorem union_written_first : ∃ arena : Arena,
    union arena [.one (.func ⟨"fnp1:p1|preserves1:1@", {1}, none, false⟩),
        .one (.func ⟨"fnp1:p1|preserves1:1@", ∅, none, false⟩)] ≠
      union arena [.one (.func ⟨"fnp1:p1|preserves1:1@", ∅, none, false⟩),
        .one (.func ⟨"fnp1:p1|preserves1:1@", {1}, none, false⟩)] := by
  obtain ⟨arena⟩ := exists_arena
  refine ⟨arena, ?_⟩
  change Ty.one (.func ⟨"fnp1:p1|preserves1:1@", {1}, none, false⟩) ≠
    Ty.one (.func ⟨"fnp1:p1|preserves1:1@", ∅, none, false⟩)
  decide

/-- Functions that differ only in their labels and in what they may be sent to. -/
theorem union_regroups_labels : ∃ arena : Arena, ∀ f : Regrouping,
    (∀ t, t ∈ f.leaves ↔ t ∈ [Ty.one (.func ⟨"fnp1:p1", ∅, some ["a"], true⟩),
      Ty.one (.func ⟨"fnp1:p1", ∅, some ["b"], false⟩)]) →
    union arena (f.entries arena) = .one (.func ⟨"fnp1:p1", ∅, none, false⟩) := by
  obtain ⟨arena⟩ := exists_arena
  refine ⟨arena, fun f hf => ((union_regroups (l := [Ty.one (.func ⟨"fnp1:p1", ∅, some ["a"], true⟩),
    Ty.one (.func ⟨"fnp1:p1", ∅, some ["b"], false⟩)]) ?_).mpr (Or.inr ?_) f hf).trans ?_⟩
  · intro t ht
    simp only [List.mem_cons, List.not_mem_nil, or_false] at ht
    rcases ht with rfl | rfl
    · exact Built.one _
    · exact Built.one _
  · rintro f g ⟨t, ht, htf⟩ ⟨u, hu, hug⟩ -
    simp only [List.mem_cons, List.not_mem_nil, or_false] at ht hu
    rcases ht with rfl | rfl <;> rcases hu with rfl | rfl <;>
      simp [Ty.parts, Member.tagText] at htf hug <;> rw [htf, hug]
  · rfl

end Arena

end Nupp.types
