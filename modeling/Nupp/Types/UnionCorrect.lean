import Nupp.Types.Union
import Mathlib.Data.Set.Basic
import Mathlib.Data.Prod.Lex

/-! When a union does not depend on how it is written: what pushing the members leaves behind,
as a function of their set. -/

namespace Nupp.types

section Push

/-- The members that a type adds to a union. -/
def Ty.parts : Ty → List Member
  | .one m => [m].filter fun m => m.tagText ≠ "never"
  | .union members => members.filter fun m => m.tagText ≠ "never"

def gather (l : List Member) : Building := l.foldl (fun s m => pushMember m s) .empty

/-- The functions of one contract, in order. -/
def functionsOf (contract : String) (l : List Member) : List Func :=
  l.filterMap fun
    | .func f => if f.unlabeledId = contract then some f else none
    | .leaf _ _ _ => none

def mergeInto (prior t : Func) : Func := if prior = t then prior else mergeFunctions prior t

/-- What the functions of one contract become, taken in order. -/
def mergedOf (contract : String) (l : List Member) : Option Func :=
  match functionsOf contract l with
  | [] => none
  | f :: fs => some (fs.foldl mergeInto f)

theorem pushMember_never {tag : Tag} {label key : String} (h : tag.text = "never") (s : Building) :
    pushMember (.leaf tag label key) s = s := by
  have htag : tag = .never := by
    cases tag <;> first | rfl | exact absurd h (by decide)
  rw [pushMember, if_pos htag]

/-- Members that are `never` are as good as absent. -/
theorem foldl_push_filter (members : List Member) (s : Building) :
    (members.filter fun m => m.tagText ≠ "never").foldl (fun s m => pushMember m s) s =
      members.foldl (fun s m => pushMember m s) s := by
  induction members generalizing s with
  | nil => rfl
  | cons m members ih =>
    by_cases hm : m.tagText = "never"
    · cases m with
      | leaf tag label key =>
        rw [List.filter_cons_of_neg (by simpa using hm), ih, List.foldl_cons,
          pushMember_never hm]
      | func f => exact absurd hm (by simp [Member.tagText])
    · rw [List.filter_cons_of_pos (by simpa using hm), List.foldl_cons, List.foldl_cons, ih]

theorem pushUnionMember_eq (t : Ty) (s : Building) :
    pushUnionMember t s = t.parts.foldl (fun s m => pushMember m s) s := by
  cases t with
  | one m => exact (foldl_push_filter [m] s).symm
  | union members => exact (foldl_push_filter members s).symm

theorem foldl_pushUnionMember (ts : List Ty) (s : Building) :
    ts.foldl (fun s t => pushUnionMember t s) s =
      (ts.flatMap Ty.parts).foldl (fun s m => pushMember m s) s := by
  induction ts generalizing s with
  | nil => rfl
  | cons t ts ih =>
    rw [List.foldl_cons, List.flatMap_cons, List.foldl_append, ih, pushUnionMember_eq]

theorem functionsOf_append (contract : String) (l l' : List Member) :
    functionsOf contract (l ++ l') = functionsOf contract l ++ functionsOf contract l' :=
  List.filterMap_append

theorem mem_functionsOf {contract : String} {l : List Member} {f : Func} :
    f ∈ functionsOf contract l ↔ Member.func f ∈ l ∧ f.unlabeledId = contract := by
  simp only [functionsOf, List.mem_filterMap]
  constructor
  · rintro ⟨m, hm, hf⟩
    cases m with
    | leaf tag label key => simp at hf
    | func g =>
      simp only [Option.ite_none_right_eq_some, Option.some.injEq] at hf
      obtain ⟨hcontract, rfl⟩ := hf
      exact ⟨hm, hcontract⟩
  · rintro ⟨hf, hcontract⟩
    exact ⟨.func f, hf, by simp [hcontract]⟩

/-- What holds of the tables after the members of `l`. -/
structure Inv (l : List Member) (s : Building) : Prop where
  nodup : s.flat.Nodup
  seen : ∀ m, s.seen m = true ↔ m ∈ s.flat
  leaf : ∀ tag label key, Member.leaf tag label key ∈ s.flat ↔ Member.leaf tag label key ∈ l
  func : ∀ f, Member.func f ∈ s.flat ↔ mergedOf f.unlabeledId l = some f
  index : ∀ c i, s.functionByContract c = some i ↔
    ∃ f, s.flat[i]? = some (.func f) ∧ f.unlabeledId = c

theorem mergedOf_append_leaf (contract : String) (l : List Member) (tag : Tag)
    (label key : String) : mergedOf contract (l ++ [.leaf tag label key]) = mergedOf contract l := by
  have hnone : functionsOf contract [.leaf tag label key] = [] := rfl
  rw [mergedOf, mergedOf, functionsOf_append, hnone, List.append_nil]

theorem mergedOf_append_other {contract : String} (l : List Member) {f : Func}
    (h : f.unlabeledId ≠ contract) : mergedOf contract (l ++ [.func f]) = mergedOf contract l := by
  have hnone : functionsOf contract [.func f] = [] := by simp [functionsOf, h]
  rw [mergedOf, mergedOf, functionsOf_append, hnone, List.append_nil]

theorem mergedOf_append (l : List Member) (f : Func) :
    mergedOf f.unlabeledId (l ++ [.func f]) =
      match mergedOf f.unlabeledId l with
      | none => some f
      | some prior => some (mergeInto prior f) := by
  have hone : functionsOf f.unlabeledId [.func f] = [f] := by simp [functionsOf]
  rw [mergedOf, mergedOf, functionsOf_append, hone]
  cases functionsOf f.unlabeledId l with
  | nil => rfl
  | cons g gs => simp [List.foldl_append]

theorem mergeInto_unlabeledId (prior t : Func) :
    (mergeInto prior t).unlabeledId = prior.unlabeledId := by
  unfold mergeInto mergeFunctions
  split
  · rfl
  · rfl

theorem mergedOf_unlabeledId {contract : String} {l : List Member} {f : Func}
    (h : mergedOf contract l = some f) : f.unlabeledId = contract := by
  have hfold : ∀ (fs : List Func) (g : Func),
      (fs.foldl mergeInto g).unlabeledId = g.unlabeledId := by
    intro fs
    induction fs with
    | nil => exact fun g => rfl
    | cons f fs ih => exact fun g => (ih _).trans (mergeInto_unlabeledId g f)
  unfold mergedOf at h
  cases hfs : functionsOf contract l with
  | nil => simp [hfs] at h
  | cons g gs =>
    rw [hfs, Option.some.injEq] at h
    rw [← h, hfold]
    exact (mem_functionsOf.mp (hfs ▸ List.mem_cons_self)).2

/-- A function that the tables know of by its contract. -/
theorem Inv.index_iff {l : List Member} {s : Building} (h : Inv l s) (c : String) :
    (∃ i, s.functionByContract c = some i) ↔ ∃ f, mergedOf c l = some f := by
  constructor
  · rintro ⟨i, hi⟩
    obtain ⟨f, hf, rfl⟩ := (h.index c i).mp hi
    exact ⟨f, (h.func f).mp (List.mem_of_getElem? hf)⟩
  · rintro ⟨f, hf⟩
    obtain rfl := mergedOf_unlabeledId hf
    obtain ⟨i, hi⟩ := List.mem_iff_getElem?.mp ((h.func f).mpr hf)
    exact ⟨i, (h.index _ i).mpr ⟨f, hi, rfl⟩⟩

/-- A position of a list with one more member. -/
theorem exists_append_iff {flat : List Member} {m : Member} {i : ℕ} (P : Func → Prop) :
    (∃ f, (flat ++ [m])[i]? = some (.func f) ∧ P f) ↔
      (∃ f, flat[i]? = some (.func f) ∧ P f) ∨ (i = flat.length ∧ ∃ f, m = .func f ∧ P f) := by
  rcases Nat.lt_trichotomy i flat.length with hlt | rfl | hgt
  · rw [List.getElem?_append_left hlt]
    simp [hlt.ne]
  · simp
  · rw [List.getElem?_append_right hgt.le, List.getElem?_eq_none hgt.le,
      List.getElem?_eq_none (by simp only [List.length_singleton]; omega)]
    simp [hgt.ne']

/-- A member that no table knows of yet. -/
theorem Inv.append {l : List Member} {s : Building} (h : Inv l s) {m : Member}
    (hseen : s.seen m = false)
    (hnone : ∀ f, m = .func f → s.functionByContract f.unlabeledId = none) :
    Inv (l ++ [m])
      { seen := Function.update s.seen m true
        flat := s.flat ++ [m]
        functionByContract := match m with
          | .func f => Function.update s.functionByContract f.unlabeledId (some s.flat.length)
          | .leaf _ _ _ => s.functionByContract } := by
  have hnew : m ∉ s.flat := fun hm => by
    rw [(h.seen m).mpr hm] at hseen
    exact absurd hseen (by simp)
  have hindex : ∀ c i f, s.flat[i]? = some (Member.func f) ∧ f.unlabeledId = c →
      i < s.flat.length := fun c i f hf => (List.getElem?_eq_some_iff.mp hf.1).1
  refine ⟨?_, ?_, ?_, ?_, ?_⟩
  · exact h.nodup.append (List.nodup_singleton m) (List.disjoint_singleton.mpr hnew)
  · intro n
    by_cases hn : n = m
    · simp [hn]
    · simp [hn, h.seen]
  · intro tag label key
    simp [h.leaf]
  · intro f
    cases m with
    | leaf tag label key => simp [h.func, mergedOf_append_leaf]
    | func g =>
      by_cases hcontract : g.unlabeledId = f.unlabeledId
      · have hno : mergedOf g.unlabeledId l = none := by
          rw [← Option.not_isSome_iff_eq_none, Option.isSome_iff_exists, ← h.index_iff, hnone g rfl]
          simp
        have hfl : Member.func f ∉ s.flat := by
          rw [h.func, ← hcontract, hno]
          simp
        rw [← hcontract, mergedOf_append, hno]
        simp [hfl, eq_comm]
      · have hne : f ≠ g := fun heq => hcontract (by rw [heq])
        simp [h.func, mergedOf_append_other l hcontract, hne]
  · intro c i
    rw [exists_append_iff (fun f => f.unlabeledId = c)]
    cases m with
    | leaf tag label key => simp [h.index]
    | func g =>
      by_cases hcontract : c = g.unlabeledId
      · subst hcontract
        have hno : ¬∃ f, s.flat[i]? = some (.func f) ∧ f.unlabeledId = g.unlabeledId := by
          rw [← h.index, hnone g rfl]
          simp
        simp only [Function.update_self, Option.some.injEq]
        constructor
        · rintro rfl
          exact Or.inr ⟨rfl, g, rfl, rfl⟩
        · rintro (hold | ⟨rfl, -⟩)
          · exact absurd hold hno
          · rfl
      · simp only [Function.update_of_ne hcontract, h.index]
        constructor
        · exact Or.inl
        · rintro (hold | ⟨-, f, hf, hc⟩)
          · exact hold
          · rw [Member.func.injEq] at hf
            exact absurd (hf ▸ hc).symm hcontract

theorem mem_set_iff {α : Type*} {flat : List α} (hnodup : flat.Nodup) {i : ℕ} {a b n : α}
    (hi : flat[i]? = some a) : n ∈ flat.set i b ↔ n = b ∨ (n ∈ flat ∧ n ≠ a) := by
  obtain ⟨hlt, rfl⟩ := List.getElem?_eq_some_iff.mp hi
  constructor
  · intro hn
    obtain ⟨j, hj, rfl⟩ := List.mem_iff_getElem.mp hn
    rw [List.length_set] at hj
    by_cases hij : i = j
    · subst hij
      exact Or.inl (List.getElem_set_self _)
    · rw [List.getElem_set_ne hij]
      exact Or.inr ⟨List.getElem_mem hj, fun heq => hij (hnodup.getElem_inj_iff.mp heq).symm⟩
  · rintro (rfl | ⟨hn, hne⟩)
    · exact List.mem_iff_getElem.mpr ⟨i, by simpa using hlt, List.getElem_set_self _⟩
    · obtain ⟨j, hj, rfl⟩ := List.mem_iff_getElem.mp hn
      have hij : i ≠ j := by
        rintro rfl
        exact hne rfl
      exact List.mem_iff_getElem.mpr ⟨j, by simpa using hj, List.getElem_set_ne hij _⟩

/-- The function of the contract becomes a merged one where it stands. -/
theorem Inv.merge {l : List Member} {s : Building} (h : Inv l s) {prior f : Func} {index : ℕ}
    (hindex : s.functionByContract f.unlabeledId = some index)
    (hprior : s.flat[index]? = some (.func prior)) (hne : prior ≠ f) :
    Inv (l ++ [.func f])
      { s with
        seen := Function.update (Function.update s.seen (.func prior) false)
          (.func (mergeFunctions prior f)) true
        flat := s.flat.set index (.func (mergeFunctions prior f)) } := by
  have hcontract : prior.unlabeledId = f.unlabeledId := by
    obtain ⟨g, hg, hgc⟩ := (h.index _ _).mp hindex
    rw [hprior, Option.some.injEq, Member.func.injEq] at hg
    rw [hg, hgc]
  have hlast : mergedOf f.unlabeledId (l ++ [.func f]) = some (mergeFunctions prior f) := by
    have hold := (h.func prior).mp (List.mem_of_getElem? hprior)
    rw [hcontract] at hold
    rw [mergedOf_append, hold]
    simp [mergeInto, hne]
  have hmem : ∀ {n}, n ∈ s.flat.set index (.func (mergeFunctions prior f)) ↔
      n = .func (mergeFunctions prior f) ∨ (n ∈ s.flat ∧ n ≠ .func prior) :=
    fun {n} => mem_set_iff h.nodup hprior
  refine ⟨?_, ?_, ?_, ?_, ?_⟩
  · by_cases hold : Member.func (mergeFunctions prior f) ∈ s.flat
    · obtain ⟨j, hj⟩ := List.mem_iff_getElem?.mp hold
      have hsame := (h.index f.unlabeledId j).mpr ⟨_, hj, hcontract⟩
      rw [hindex, Option.some.injEq] at hsame
      obtain ⟨hlt, hget⟩ := List.getElem?_eq_some_iff.mp (hsame ▸ hj)
      rw [← hget, List.set_getElem_self hlt]
      exact h.nodup
    · exact h.nodup.set hold
  · intro n
    rw [hmem]
    by_cases hn : n = .func (mergeFunctions prior f)
    · simp [hn]
    · by_cases hn' : n = .func prior
      · subst hn'
        simp [hn]
      · simp [hn, hn', h.seen]
  · intro tag label key
    rw [hmem]
    simp [h.leaf]
  · intro g
    rw [hmem]
    by_cases hg : f.unlabeledId = g.unlabeledId
    · rw [← hg, hlast, Option.some.injEq, Member.func.injEq]
      constructor
      · rintro (heq | ⟨hold, hother⟩)
        · exact heq.symm
        · have hp := (h.func prior).mp (List.mem_of_getElem? hprior)
          rw [hcontract, hg, (h.func g).mp hold, Option.some.injEq] at hp
          exact absurd (congrArg Member.func hp) hother
      · exact fun heq => Or.inl heq.symm
    · rw [mergedOf_append_other l hg, ← h.func]
      constructor
      · rintro (heq | ⟨hold, -⟩)
        · rw [Member.func.injEq] at heq
          exact absurd (by rw [heq]; exact hcontract.symm) hg
        · exact hold
      · refine fun hold => Or.inr ⟨hold, fun heq => hg ?_⟩
        rw [Member.func.injEq] at heq
        rw [heq, hcontract]
  · intro c i
    rw [h.index]
    by_cases hi : index = i
    · subst hi
      have hlt : index < s.flat.length := (List.getElem?_eq_some_iff.mp hprior).1
      rw [List.getElem?_set_self hlt, hprior]
      simp [mergeFunctions]
    · rw [List.getElem?_set_ne hi]

theorem Inv.pushMember {l : List Member} {s : Building} (h : Inv l s) {m : Member}
    (hm : m.tagText ≠ "never") : Inv (l ++ [m]) (pushMember m s) := by
  cases m with
  | leaf tag label key =>
    have htag : tag ≠ .never := by
      rintro rfl
      exact hm rfl
    rw [types.pushMember, if_neg htag]
    cases hseen : s.seen (.leaf tag label key) with
    | true =>
      have hold := (h.leaf tag label key).mp ((h.seen _).mp hseen)
      rw [if_pos rfl]
      refine ⟨h.nodup, h.seen, fun t' l' k' => ?_, fun f => ?_, h.index⟩
      · rw [h.leaf, List.mem_append, List.mem_singleton]
        exact ⟨Or.inl, fun hor => hor.elim id fun heq => heq ▸ hold⟩
      · rw [h.func, mergedOf_append_leaf]
    | false =>
      exact h.append hseen fun f hf => by simp at hf
  | func f =>
    rw [types.pushMember]
    cases hindex : s.functionByContract f.unlabeledId with
    | none =>
      have hseen : s.seen (.func f) = false := by
        by_contra hold
        have hmem := (h.seen _).mp (by simpa using hold)
        obtain ⟨i, hi⟩ := (h.index_iff _).mpr ⟨f, (h.func f).mp hmem⟩
        rw [hindex] at hi
        simp at hi
      simp only [hseen, Bool.false_eq_true, if_false]
      exact h.append hseen fun g hg => by
        rw [Member.func.injEq] at hg
        rw [← hg, hindex]
    | some index =>
      obtain ⟨prior, hprior, hcontract⟩ := (h.index _ _).mp hindex
      simp only [hprior]
      by_cases hsame : prior = f
      · rw [if_pos hsame]
        subst hsame
        have hold := (h.func prior).mp (List.mem_of_getElem? hprior)
        refine ⟨h.nodup, h.seen, fun t' l' k' => ?_, fun g => ?_, h.index⟩
        · rw [h.leaf, List.mem_append]
          simp
        · by_cases hg : prior.unlabeledId = g.unlabeledId
          · rw [h.func, ← hg, mergedOf_append, hold]
            simp [mergeInto]
          · rw [h.func, mergedOf_append_other l hg]
      · rw [if_neg hsame]
        exact h.merge hindex hprior hsame

theorem inv_gather {l : List Member} (hl : ∀ m ∈ l, m.tagText ≠ "never") : Inv l (gather l) := by
  induction l using List.reverseRecOn with
  | nil =>
    refine ⟨List.nodup_nil, fun m => ?_, fun tag label key => Iff.rfl, fun f => ?_, fun c i => ?_⟩
    · simp [gather, Building.empty]
    · simp [gather, Building.empty, mergedOf, functionsOf]
    · simp [gather, Building.empty]
  | append_singleton l m ih =>
    have hstep := (ih fun n hn => hl n (List.mem_append_left _ hn)).pushMember
      (hl m (List.mem_append_right _ (List.mem_singleton_self m)))
    simpa [gather] using hstep

end Push

section Build

variable {arena : Arena}

/-- The members that are left of a list: `any` alone, or all without a redundant `table`. -/
def keep (flat : List Member) : List Member :=
  if .prim .any ∈ flat then [.prim .any]
  else if flat.any Member.tableShaped then flat.filter (· ≠ .prim .table) else flat

/-- The type of distinct members. -/
def build (arena : Arena) : List Member → Ty
  | [] => .one (.prim .never)
  | [m] => .one m
  | flat => .union (flat.insertionSort fun a b => ¬canonicalOrder arena b a)

theorem tableShaped_ne {m : Member} (h : m.tableShaped = true) : m ≠ .prim .table := by
  rintro rfl
  exact absurd h (by decide)

theorem union_eq (arena : Arena) (ts : List Ty) :
    union arena ts = build arena (keep (gather (ts.flatMap Ty.parts)).flat) := by
  rw [union, foldl_pushUnionMember, ← gather]
  generalize (gather (ts.flatMap Ty.parts)).flat = flat
  match flat with
  | [] => rfl
  | [m] =>
    unfold keep
    by_cases hany : Member.prim .any ∈ [m]
    · rw [if_pos hany, List.mem_singleton.mp hany]
      rfl
    · rw [if_neg hany]
      cases hm : m.tableShaped with
      | true => simp [hm, tableShaped_ne hm, build]
      | false => simp [hm, build]
  | a :: b :: rest =>
    simp only [keep]
    by_cases hany : Member.prim .any ∈ a :: b :: rest
    · rw [if_pos hany, if_pos hany]
      rfl
    · rw [if_neg hany, if_neg hany]
      cases hs : (a :: b :: rest).any Member.tableShaped with
      | false => simp [build]
      | true =>
        obtain ⟨m, hm, hshaped⟩ := List.any_eq_true.mp hs
        have hleft : m ∈ (a :: b :: rest).filter (· ≠ .prim .table) :=
          List.mem_filter.mpr ⟨hm, by simpa using tableShaped_ne hshaped⟩
        simp only [if_true]
        generalize (a :: b :: rest).filter (· ≠ .prim .table) = kept at hleft ⊢
        match kept with
        | [] => simp at hleft
        | [n] => rfl
        | c :: d :: others => rfl

/-- What members are ordered by. -/
def orderKey (arena : Arena) (m : Member) : String ×ₗ String ×ₗ String :=
  toLex (m.tagText, toLex (m.spelling, arena.id m))

theorem canonicalOrder_iff (arena : Arena) (a b : Member) :
    canonicalOrder arena a b = true ↔ orderKey arena a < orderKey arena b := by
  unfold canonicalOrder orderKey
  rw [Prod.Lex.toLex_lt_toLex, Prod.Lex.toLex_lt_toLex]
  by_cases htag : a.tagText = b.tagText
  · by_cases hspelling : a.spelling = b.spelling
    · simp [htag, hspelling]
    · simp [htag, hspelling]
  · simp [htag]

theorem not_canonicalOrder_iff (arena : Arena) (a b : Member) :
    (¬canonicalOrder arena b a = true) ↔ orderKey arena a ≤ orderKey arena b := by
  rw [canonicalOrder_iff, not_lt]

theorem pairwise_sorted (arena : Arena) (k : List Member) :
    (k.insertionSort fun a b => ¬canonicalOrder arena b a).Pairwise
      fun a b => ¬canonicalOrder arena b a = true := by
  have htotal : Std.Total fun a b => ¬canonicalOrder arena b a = true :=
    ⟨fun a b => by simpa only [not_canonicalOrder_iff] using le_total _ _⟩
  have htrans : IsTrans Member fun a b => ¬canonicalOrder arena b a = true :=
    ⟨fun a b c => by simpa only [not_canonicalOrder_iff] using le_trans⟩
  exact List.pairwise_insertionSort _ k

/-- One order for one set of members. -/
theorem sorted_congr {k k' : List Member} (h : k.Perm k') :
    k.insertionSort (fun a b => ¬canonicalOrder arena b a) =
      k'.insertionSort fun a b => ¬canonicalOrder arena b a := by
  refine List.Perm.eq_of_pairwise ?_ (pairwise_sorted arena k) (pairwise_sorted arena k') ?_
  · intro a b _ _ hab hba
    rw [not_canonicalOrder_iff] at hab hba
    have hkey := le_antisymm hab hba
    simp only [orderKey, EmbeddingLike.apply_eq_iff_eq, Prod.mk.injEq] at hkey
    exact arena.injective hkey.2.2
  · exact (List.perm_insertionSort _ k).trans (h.trans (List.perm_insertionSort _ k').symm)

theorem build_congr {k k' : List Member} (hk : k.Nodup) (hk' : k'.Nodup)
    (h : ∀ m, m ∈ k ↔ m ∈ k') : build arena k = build arena k' := by
  have hperm : k.Perm k' := (List.perm_ext_iff_of_nodup hk hk').mpr h
  match k, k', hperm with
  | [], k', hperm => rw [List.nil_perm.mp hperm]
  | [m], k', hperm => rw [List.singleton_perm.mp hperm]
  | a :: b :: rest, [], hperm => simp at hperm
  | a :: b :: rest, [m], hperm => simpa using hperm.length_eq
  | a :: b :: rest, c :: d :: others, hperm => exact congrArg Ty.union (sorted_congr hperm)

theorem mem_parts_build {k : List Member} (hk : ∀ m ∈ k, m.tagText ≠ "never") {m : Member} :
    m ∈ (build arena k).parts ↔ m ∈ k := by
  match k with
  | [] => simp [build, Ty.parts, Member.prim, Member.tagText, Tag.text]
  | [n] =>
    have hn := hk n (List.mem_singleton_self n)
    simp [build, Ty.parts, hn]
  | a :: b :: rest =>
    have hsorted := (List.perm_insertionSort (fun a b => ¬canonicalOrder arena b a)
      (a :: b :: rest)).mem_iff (a := m)
    simp only [build, Ty.parts, List.mem_filter, hsorted, decide_eq_true_eq]
    exact ⟨fun h => h.1, fun h => ⟨h, hk m h⟩⟩

end Build

section Sets

/-- The members that some types add to a union. -/
def partsOf (ts : List Ty) : Set Member := {m | ∃ t ∈ ts, m ∈ t.parts}

/-- Functions of one contract agree about which preserve relations were written. -/
def Agreeing (S : Set Member) : Prop :=
  ∀ f g, Member.func f ∈ S → Member.func g ∈ S → f.unlabeledId = g.unlabeledId →
    f.explicitPreserves = g.explicitPreserves

/-- What the functions of a contract become: the one there is, or what all of them guarantee. -/
def Collapses (S : Set Member) (f : Func) : Prop :=
  (Member.func f ∈ S ∧ ∀ g, Member.func g ∈ S → g.unlabeledId = f.unlabeledId → g = f) ∨
    (f.paramNames = none ∧
      (∃ g h, Member.func g ∈ S ∧ Member.func h ∈ S ∧ g ≠ h ∧ g.unlabeledId = f.unlabeledId ∧
        h.unlabeledId = f.unlabeledId ∧ f.explicitPreserves = g.explicitPreserves) ∧
      (f.sendable = true ↔
        ∀ g, Member.func g ∈ S → g.unlabeledId = f.unlabeledId → g.sendable = true))

/-- The members of a union, as a function of the set of those it is made of. -/
def Kept (S : Set Member) (m : Member) : Prop :=
  (.prim .any ∈ S ∧ m = .prim .any) ∨
    (.prim .any ∉ S ∧
      match m with
      | .leaf _ _ _ => m ∈ S ∧ (m = .prim .table → ∀ n ∈ S, n.tableShaped = false)
      | .func f => Collapses S f)

variable {S T : Set Member}

theorem Agreeing.mono (h : Agreeing T) (hsub : S ⊆ T) : Agreeing S :=
  fun f g hf hg => h f g (hsub hf) (hsub hg)

theorem exists_collapses {g : Func} (hg : Member.func g ∈ S) :
    ∃ f, f.unlabeledId = g.unlabeledId ∧ Collapses S f := by
  classical
  by_cases hall : ∀ h, Member.func h ∈ S → h.unlabeledId = g.unlabeledId → h = g
  · exact ⟨g, rfl, Or.inl ⟨hg, hall⟩⟩
  · push Not at hall
    obtain ⟨h, hh, hcontract, hne⟩ := hall
    refine ⟨⟨g.unlabeledId, g.explicitPreserves, none, decide (∀ k, Member.func k ∈ S →
      k.unlabeledId = g.unlabeledId → k.sendable = true)⟩, rfl, Or.inr ⟨rfl, ?_, ?_⟩⟩
    · exact ⟨g, h, hg, hh, hne.symm, rfl, hcontract, rfl⟩
    · simp

theorem Collapses.unique (hS : Agreeing S) {f f' : Func} (h : Collapses S f)
    (h' : Collapses S f') (hcontract : f.unlabeledId = f'.unlabeledId) : f = f' := by
  rcases h with ⟨hf, hall⟩ | ⟨hnames, ⟨g, k, hg, hk, hne, hgc, hkc, hwritten⟩, hsend⟩
  · rcases h' with ⟨hf', -⟩ | ⟨-, ⟨g', k', hg', hk', hne', hgc', hkc', -⟩, -⟩
    · exact (hall f' hf' hcontract.symm).symm
    · have hg'' := hall g' hg' (hgc'.trans hcontract.symm)
      have hk'' := hall k' hk' (hkc'.trans hcontract.symm)
      exact absurd (hg''.trans hk''.symm) hne'
  · rcases h' with ⟨-, hall'⟩ | ⟨hnames', ⟨g', k', hg', -, -, hgc', -, hwritten'⟩, hsend'⟩
    · have hg'' := hall' g hg (hgc.trans hcontract)
      have hk'' := hall' k hk (hkc.trans hcontract)
      exact absurd (hg''.trans hk''.symm) hne
    · have hw : f.explicitPreserves = f'.explicitPreserves := by
        rw [hwritten, hwritten']
        exact hS g g' hg hg' (by rw [hgc, hgc', hcontract])
      have hs : f.sendable = f'.sendable := by
        rw [Bool.eq_iff_iff, hsend, hsend', hcontract]
      obtain ⟨c, w, n, d⟩ := f
      obtain ⟨c', w', n', d'⟩ := f'
      simp only at hcontract hw hs hnames hnames'
      rw [hcontract, hw, hs, hnames, hnames']

theorem Collapses.mem_contract {f : Func} (h : Collapses S f) :
    ∃ g, Member.func g ∈ S ∧ g.unlabeledId = f.unlabeledId := by
  rcases h with ⟨hf, -⟩ | ⟨-, ⟨g, -, hg, -, -, hgc, -⟩, -⟩
  · exact ⟨f, hf, rfl⟩
  · exact ⟨g, hg, hgc⟩

theorem Collapses.congr {f : Func}
    (h : ∀ g, g.unlabeledId = f.unlabeledId → (Member.func g ∈ S ↔ Member.func g ∈ T))
    (hf : Collapses S f) : Collapses T f := by
  rcases hf with ⟨hf, hall⟩ | ⟨hnames, ⟨g, k, hg, hk, hne, hgc, hkc, hwritten⟩, hsend⟩
  · exact Or.inl ⟨(h f rfl).mp hf, fun g hg hgc => hall g ((h g hgc).mpr hg) hgc⟩
  · refine Or.inr ⟨hnames, ⟨g, k, (h g hgc).mp hg, (h k hkc).mp hk, hne, hgc, hkc, hwritten⟩, ?_⟩
    rw [hsend]
    exact ⟨fun hs g hg hgc => hs g ((h g hgc).mpr hg) hgc,
      fun hs g hg hgc => hs g ((h g hgc).mp hg) hgc⟩

theorem collapses_congr {f : Func}
    (h : ∀ g, g.unlabeledId = f.unlabeledId → (Member.func g ∈ S ↔ Member.func g ∈ T)) :
    Collapses S f ↔ Collapses T f :=
  ⟨Collapses.congr h, Collapses.congr fun g hg => (h g hg).symm⟩

/-- One more function of a contract: the merge of what the others became with it. -/
theorem Collapses.mergeInto {l : List Member} {prior : Func}
    (h : Collapses {m | m ∈ l} prior) {t : Func} (hcontract : t.unlabeledId = prior.unlabeledId) :
    Collapses {m | m ∈ l ++ [.func t]} (mergeInto prior t) := by
  have hmem : ∀ g, Member.func g ∈ l ++ [Member.func t] ↔ Member.func g ∈ l ∨ g = t := by simp
  unfold types.mergeInto
  by_cases hsame : prior = t
  · subst hsame
    rw [if_pos rfl]
    rcases h with ⟨hf, hall⟩ | ⟨hnames, ⟨g, k, hg, hk, hne, hgc, hkc, hwritten⟩, hsend⟩
    · refine Or.inl ⟨(hmem _).mpr (Or.inr rfl), fun g hg hgc => ?_⟩
      exact ((hmem g).mp hg).elim (fun hold => hall g hold hgc) id
    · refine Or.inr ⟨hnames, ⟨g, k, (hmem _).mpr (Or.inl hg), (hmem _).mpr (Or.inl hk), hne, hgc,
        hkc, hwritten⟩, ?_⟩
      constructor
      · intro hs g hg hgc
        rcases (hmem g).mp hg with hold | rfl
        · exact hsend.mp hs g hold hgc
        · exact hs
      · exact fun hs => hs prior ((hmem _).mpr (Or.inr rfl)) rfl
  · rw [if_neg hsame]
    have hboth : (mergeFunctions prior t).sendable = true ↔
        prior.sendable = true ∧ t.sendable = true := Bool.and_eq_true_iff
    rcases h with ⟨hf, hall⟩ | ⟨hnames, ⟨g, k, hg, hk, hne, hgc, hkc, hwritten⟩, hsend⟩
    · refine Or.inr ⟨rfl, ⟨prior, t, (hmem _).mpr (Or.inl hf), (hmem _).mpr (Or.inr rfl), hsame, rfl,
        hcontract, rfl⟩, ?_⟩
      rw [hboth]
      constructor
      · rintro ⟨hp, ht⟩ g hg hgc
        rcases (hmem g).mp hg with hold | rfl
        · rw [hall g hold hgc]
          exact hp
        · exact ht
      · exact fun hs => ⟨hs prior ((hmem _).mpr (Or.inl hf)) rfl,
          hs t ((hmem _).mpr (Or.inr rfl)) hcontract⟩
    · refine Or.inr ⟨rfl, ⟨g, k, (hmem _).mpr (Or.inl hg), (hmem _).mpr (Or.inl hk), hne, hgc, hkc,
        hwritten⟩, ?_⟩
      rw [hboth, hsend]
      constructor
      · rintro ⟨hp, ht⟩ g hg hgc
        rcases (hmem g).mp hg with hold | rfl
        · exact hp g hold hgc
        · exact ht
      · exact fun hs => ⟨fun g hg hgc => hs g ((hmem _).mpr (Or.inl hg)) hgc,
          hs t ((hmem _).mpr (Or.inr rfl)) hcontract⟩

theorem collapses_of_mergedOf (l : List Member) {f : Func}
    (h : mergedOf f.unlabeledId l = some f) : Collapses {m | m ∈ l} f := by
  induction l using List.reverseRecOn generalizing f with
  | nil => simp [mergedOf, functionsOf] at h
  | append_singleton l m ih =>
    cases m with
    | leaf tag label key =>
      rw [mergedOf_append_leaf] at h
      exact (collapses_congr fun g _ => by simp).mpr (ih h)
    | func t =>
      by_cases hcontract : t.unlabeledId = f.unlabeledId
      · rw [← hcontract, mergedOf_append] at h
        cases hold : mergedOf t.unlabeledId l with
        | none =>
          rw [hold, Option.some.injEq] at h
          subst h
          refine Or.inl ⟨by simp, fun g hg hgc => ?_⟩
          rcases List.mem_append.mp hg with hmem | hmem
          · have hno : g ∈ functionsOf t.unlabeledId l := mem_functionsOf.mpr ⟨hmem, hgc⟩
            unfold mergedOf at hold
            cases hfs : functionsOf t.unlabeledId l with
            | nil => simp [hfs] at hno
            | cons k ks => simp [hfs] at hold
          · simpa using hmem
        | some prior =>
          rw [hold, Option.some.injEq] at h
          have hprior := mergedOf_unlabeledId hold
          rw [← h]
          exact (ih (hprior ▸ hold)).mergeInto hprior.symm
      · rw [mergedOf_append_other l hcontract] at h
        refine (collapses_congr fun g hg => ?_).mpr (ih h)
        have hne : g ≠ t := fun heq => hcontract (heq ▸ hg)
        simp [hne]

theorem mergedOf_iff {l : List Member} (hl : Agreeing {m | m ∈ l}) (f : Func) :
    mergedOf f.unlabeledId l = some f ↔ Collapses {m | m ∈ l} f := by
  refine ⟨collapses_of_mergedOf l, fun h => ?_⟩
  obtain ⟨g, hg, hgc⟩ := h.mem_contract
  cases hmerged : mergedOf f.unlabeledId l with
  | none =>
    have hno : g ∈ functionsOf f.unlabeledId l := mem_functionsOf.mpr ⟨hg, hgc⟩
    unfold mergedOf at hmerged
    cases hfs : functionsOf f.unlabeledId l with
    | nil => simp [hfs] at hno
    | cons k ks => simp [hfs] at hmerged
  | some f' =>
    have hcontract := mergedOf_unlabeledId hmerged
    have hcollapse := collapses_of_mergedOf l (hcontract ▸ hmerged)
    rw [hcollapse.unique hl h hcontract]

end Sets

section Union

variable {arena : Arena} {ts : List Ty}

theorem mem_flatMap_parts {m : Member} : m ∈ ts.flatMap Ty.parts ↔ m ∈ partsOf ts :=
  List.mem_flatMap

theorem ne_never_of_mem_parts {t : Ty} {m : Member} (h : m ∈ t.parts) : m.tagText ≠ "never" := by
  cases t with
  | one n => simpa using (List.mem_filter.mp h).2
  | union members => simpa using (List.mem_filter.mp h).2

theorem inv_partsOf (ts : List Ty) : Inv (ts.flatMap Ty.parts) (gather (ts.flatMap Ty.parts)) := by
  refine inv_gather fun m hm => ?_
  obtain ⟨t, -, ht⟩ := List.mem_flatMap.mp hm
  exact ne_never_of_mem_parts ht

theorem Inv.mem_any {l : List Member} {s : Building} (h : Inv l s) :
    Member.prim .any ∈ s.flat ↔ Member.prim .any ∈ l := h.leaf _ _ _

theorem Inv.any_tableShaped {l : List Member} {s : Building} (h : Inv l s) :
    s.flat.any Member.tableShaped = true ↔ ∃ n ∈ l, n.tableShaped = true := by
  rw [List.any_eq_true]
  constructor
  · rintro ⟨n, hn, hshaped⟩
    cases n with
    | leaf tag label key => exact ⟨_, (h.leaf _ _ _).mp hn, hshaped⟩
    | func f => simp [Member.tableShaped] at hshaped
  · rintro ⟨n, hn, hshaped⟩
    cases n with
    | leaf tag label key => exact ⟨_, (h.leaf _ _ _).mpr hn, hshaped⟩
    | func f => simp [Member.tableShaped] at hshaped

theorem Inv.ne_never {l : List Member} {s : Building} (h : Inv l s)
    (hl : ∀ m ∈ l, m.tagText ≠ "never") {m : Member} (hm : m ∈ keep s.flat) :
    m.tagText ≠ "never" := by
  have hflat : ∀ n ∈ s.flat, n.tagText ≠ "never" := by
    intro n hn
    cases n with
    | leaf tag label key => exact hl _ ((h.leaf _ _ _).mp hn)
    | func f => simp [Member.tagText]
  unfold keep at hm
  split at hm
  · rw [List.mem_singleton.mp hm]
    simp [Member.prim, Member.tagText, Tag.text]
  · split at hm
    · exact hflat m (List.mem_filter.mp hm).1
    · exact hflat m hm

theorem mem_parts_union_eq {m : Member} :
    m ∈ (union arena ts).parts ↔ m ∈ keep (gather (ts.flatMap Ty.parts)).flat := by
  rw [union_eq, mem_parts_build]
  refine fun n hn => (inv_partsOf ts).ne_never (fun m hm => ?_) hn
  obtain ⟨t, -, ht⟩ := List.mem_flatMap.mp hm
  exact ne_never_of_mem_parts ht

/-- `any` swallows a union and comes from nowhere else. -/
theorem any_mem_union : Member.prim .any ∈ (union arena ts).parts ↔ .prim .any ∈ partsOf ts := by
  have hinv := inv_partsOf ts
  rw [mem_parts_union_eq, ← mem_flatMap_parts, ← hinv.mem_any]
  unfold keep
  split
  · next hany => simp [hany]
  · next hany =>
    split
    · simp [hany]
    · exact Iff.rfl

theorem mergedOf_of_mem_union {f : Func} (h : Member.func f ∈ (union arena ts).parts) :
    mergedOf f.unlabeledId (ts.flatMap Ty.parts) = some f := by
  rw [mem_parts_union_eq] at h
  refine ((inv_partsOf ts).func f).mp ?_
  unfold keep at h
  split at h
  · simp [Member.prim] at h
  · split at h
    · exact (List.mem_filter.mp h).1
    · exact h

theorem mem_union_of_mergedOf (hany : .prim .any ∉ partsOf ts) {f : Func}
    (h : mergedOf f.unlabeledId (ts.flatMap Ty.parts) = some f) :
    Member.func f ∈ (union arena ts).parts := by
  have hinv := inv_partsOf ts
  have hflat := (hinv.func f).mpr h
  rw [mem_parts_union_eq, keep,
    if_neg fun hmem => hany (mem_flatMap_parts.mp (hinv.mem_any.mp hmem))]
  split
  · exact List.mem_filter.mpr ⟨hflat, by simp [Member.prim]⟩
  · exact hflat

/-- The members that pushing leaves. -/
theorem mem_keep_iff (h : .prim .any ∈ partsOf ts ∨ Agreeing (partsOf ts)) (m : Member) :
    m ∈ keep (gather (ts.flatMap Ty.parts)).flat ↔ Kept (partsOf ts) m := by
  have hinv := inv_partsOf ts
  have hset : {m | m ∈ ts.flatMap Ty.parts} = partsOf ts := Set.ext fun m => mem_flatMap_parts
  unfold keep Kept
  by_cases hany : Member.prim .any ∈ partsOf ts
  · rw [if_pos (hinv.mem_any.mpr (mem_flatMap_parts.mpr hany))]
    simp [hany]
  · have hagree : Agreeing {m | m ∈ ts.flatMap Ty.parts} := hset ▸ h.resolve_left hany
    rw [if_neg (fun hmem => hany (mem_flatMap_parts.mp (hinv.mem_any.mp hmem)))]
    have hflat : ∀ n, n ∈ (gather (ts.flatMap Ty.parts)).flat ↔
        match n with
        | .leaf _ _ _ => n ∈ partsOf ts
        | .func f => Collapses (partsOf ts) f := by
      intro n
      cases n with
      | leaf tag label key => exact (hinv.leaf tag label key).trans mem_flatMap_parts
      | func f => exact (hinv.func f).trans (hset ▸ mergedOf_iff hagree f)
    simp only [hany, false_and, not_false_eq_true, true_and, false_or]
    by_cases hshaped : (gather (ts.flatMap Ty.parts)).flat.any Member.tableShaped = true
    · obtain ⟨n, hn, hns⟩ := hinv.any_tableShaped.mp hshaped
      rw [if_pos hshaped, List.mem_filter, hflat]
      cases m with
      | leaf tag label key =>
        refine and_congr_right fun _ => ⟨fun hne heq => ?_, fun himp => ?_⟩
        · simp [heq] at hne
        · refine decide_eq_true fun heq => ?_
          have hno := himp heq n (mem_flatMap_parts.mp hn)
          rw [hns] at hno
          exact absurd hno (by simp)
      | func f => simp [Member.prim]
    · rw [if_neg hshaped, hflat]
      cases m with
      | leaf tag label key =>
        refine (and_iff_left fun _ n hn => ?_).symm
        by_contra hne
        exact hshaped (hinv.any_tableShaped.mpr
          ⟨n, mem_flatMap_parts.mpr hn, by simpa using hne⟩)
      | func f => exact Iff.rfl

theorem keep_nodup {flat : List Member} (h : flat.Nodup) : (keep flat).Nodup := by
  unfold keep
  split
  · exact List.nodup_singleton _
  · split
    · exact h.filter _
    · exact h

theorem mem_parts_union (h : .prim .any ∈ partsOf ts ∨ Agreeing (partsOf ts)) (m : Member) :
    m ∈ (union arena ts).parts ↔ Kept (partsOf ts) m := by
  rw [mem_parts_union_eq, mem_keep_iff h]

/-- Two lists of types that keep the same members have the same union. -/
theorem union_congr {ts' : List Ty} (h : .prim .any ∈ partsOf ts ∨ Agreeing (partsOf ts))
    (h' : .prim .any ∈ partsOf ts' ∨ Agreeing (partsOf ts'))
    (hkept : ∀ m, Kept (partsOf ts) m ↔ Kept (partsOf ts') m) :
    union arena ts = union arena ts' := by
  rw [union_eq, union_eq]
  refine build_congr (keep_nodup (inv_partsOf ts).nodup) (keep_nodup (inv_partsOf ts').nodup)
    fun m => ?_
  rw [mem_keep_iff h, mem_keep_iff h', hkept]

end Union

section Pieces

variable {ι : Type*} {P : ι → Set Member} {S S' : Set Member}

/-- Where a merged function has what it has from. -/
theorem Collapses.exists_written {f : Func} (h : Collapses S f) : ∃ g, Member.func g ∈ S ∧
    g.unlabeledId = f.unlabeledId ∧ f.explicitPreserves = g.explicitPreserves := by
  rcases h with ⟨hf, -⟩ | ⟨-, ⟨g, -, hg, -, -, hgc, -, hwritten⟩, -⟩
  · exact ⟨f, hf, rfl, rfl⟩
  · exact ⟨g, hg, hgc, hwritten⟩

/-- A merged function is sendable when all it is merged from are. -/
theorem Collapses.sendable_iff {f : Func} (h : Collapses S f) : f.sendable = true ↔
    ∀ g, Member.func g ∈ S → g.unlabeledId = f.unlabeledId → g.sendable = true := by
  rcases h with ⟨hf, hall⟩ | ⟨-, -, hsend⟩
  · exact ⟨fun hs g hg hgc => hall g hg hgc ▸ hs, fun hs => hs f hf rfl⟩
  · exact hsend

theorem agreeing_pieces (hS : Agreeing S) (hP : ∀ i, P i ⊆ S)
    (hS' : ∀ f, Member.func f ∈ S' → ∃ i, Collapses (P i) f) : Agreeing S' := by
  intro f g hf hg hcontract
  obtain ⟨i, hi⟩ := hS' f hf
  obtain ⟨j, hj⟩ := hS' g hg
  obtain ⟨f', hf', hfc, hfw⟩ := hi.exists_written
  obtain ⟨g', hg', hgc, hgw⟩ := hj.exists_written
  rw [hfw, hgw]
  exact hS f' g' (hP i hf') (hP j hg') (by rw [hfc, hgc, hcontract])

/-- Collapsing the pieces first and then what they became. -/
theorem Collapses.of_pieces (hS : Agreeing S) (hP : ∀ m, m ∈ S ↔ ∃ i, m ∈ P i)
    (hS' : ∀ f, Member.func f ∈ S' ↔ ∃ i, Collapses (P i) f) {f : Func} (h : Collapses S' f) :
    Collapses S f := by
  have hsub : ∀ i, P i ⊆ S := fun i m hm => (hP m).mpr ⟨i, hm⟩
  have hsend : f.sendable = true ↔
      ∀ g, Member.func g ∈ S → g.unlabeledId = f.unlabeledId → g.sendable = true := by
    rw [h.sendable_iff]
    constructor
    · intro hs g hg hgc
      obtain ⟨i, hi⟩ := (hP _).mp hg
      obtain ⟨k, hkc, hk⟩ := exists_collapses hi
      exact hk.sendable_iff.mp (hs k ((hS' k).mpr ⟨i, hk⟩) (hkc.trans hgc)) g hi hkc.symm
    · intro hs g hg hgc
      obtain ⟨i, hi⟩ := (hS' g).mp hg
      exact hi.sendable_iff.mpr fun k hk hkc => hs k (hsub i hk) (hkc.trans hgc)
  obtain ⟨g₀, hg₀, hgc₀⟩ := h.mem_contract
  obtain ⟨i₀, hi₀⟩ := (hS' g₀).mp hg₀
  obtain ⟨k₀, hk₀, hkc₀⟩ := hi₀.mem_contract
  by_cases hall : ∀ k, Member.func k ∈ S → k.unlabeledId = f.unlabeledId → k = k₀
  · -- One function of the contract in all: every piece that has one keeps it.
    have hone : ∀ g, Member.func g ∈ S' → g.unlabeledId = f.unlabeledId → g = k₀ := by
      intro g hg hgc
      obtain ⟨i, hi⟩ := (hS' g).mp hg
      rcases hi with ⟨hmem, -⟩ | ⟨-, ⟨a, b, ha, hb, hne, hac, hbc, -⟩, -⟩
      · exact hall g (hsub i hmem) hgc
      · exact absurd ((hall a (hsub i ha) (hac.trans hgc)).trans
          (hall b (hsub i hb) (hbc.trans hgc)).symm) hne
    rcases h with ⟨hf, -⟩ | ⟨-, ⟨a, b, ha, hb, hne, hac, hbc, -⟩, -⟩
    · rw [hone f hf rfl]
      exact Or.inl ⟨hsub i₀ hk₀, fun g hg hgc => hall g hg
        (hgc.trans (hkc₀.trans hgc₀))⟩
    · exact absurd ((hone a ha hac).trans (hone b hb hbc).symm) hne
  · push Not at hall
    obtain ⟨k, hk, hkc, hne⟩ := hall
    have hdistinct : f.paramNames = none := by
      rcases h with ⟨hf, honly⟩ | ⟨hnames, -, -⟩
      · -- Every piece collapses to this one function, and some piece has two.
        have hpiece : ∀ j g, g.unlabeledId = f.unlabeledId → Collapses (P j) g → g = f :=
          fun j g hgc hg => honly g ((hS' g).mpr ⟨j, hg⟩) hgc
        by_contra hnamed
        have hsingle : ∀ g, Member.func g ∈ S → g.unlabeledId = f.unlabeledId → g = f := by
          intro g hg hgc
          obtain ⟨j, hj⟩ := (hP _).mp hg
          obtain ⟨c, hcc, hc⟩ := exists_collapses hj
          have hcf := hpiece j c (hcc.trans hgc) hc
          rw [hcf] at hc
          rcases hc with ⟨-, hsame⟩ | ⟨hnone, -, -⟩
          · exact hsame g hj hgc
          · exact absurd hnone hnamed
        exact hne ((hsingle k hk hkc).trans
          (hsingle k₀ (hsub i₀ hk₀) (hkc₀.trans hgc₀)).symm)
      · exact hnames
    obtain ⟨w, hw, hwc, hwritten⟩ := h.exists_written
    obtain ⟨j, hj⟩ := (hS' w).mp hw
    obtain ⟨v, hv, hvc, hvwritten⟩ := hj.exists_written
    refine Or.inr ⟨hdistinct, ⟨k, k₀, hk, hsub i₀ hk₀, hne, hkc, hkc₀.trans hgc₀, ?_⟩, hsend⟩
    rw [hwritten, hvwritten]
    exact hS v k (hsub j hv) hk (by rw [hvc, hwc, hkc])

theorem collapses_pieces (hS : Agreeing S) (hP : ∀ m, m ∈ S ↔ ∃ i, m ∈ P i)
    (hS' : ∀ f, Member.func f ∈ S' ↔ ∃ i, Collapses (P i) f) (f : Func) :
    Collapses S' f ↔ Collapses S f := by
  refine ⟨Collapses.of_pieces hS hP hS', fun h => ?_⟩
  obtain ⟨g, hg, hgc⟩ := h.mem_contract
  obtain ⟨i, hi⟩ := (hP _).mp hg
  obtain ⟨k, hkc, hk⟩ := exists_collapses hi
  obtain ⟨f', hfc, hf'⟩ := exists_collapses ((hS' k).mpr ⟨i, hk⟩)
  have hsame := (hf'.of_pieces hS hP hS').unique hS h (by rw [hfc, hkc, hgc])
  exact hsame ▸ hf'

/-- Keeping the members of the pieces first loses nothing that the whole would keep. -/
theorem kept_pieces (h : .prim .any ∈ S ∨ Agreeing S) (hP : ∀ m, m ∈ S ↔ ∃ i, m ∈ P i)
    (hS' : ∀ m, m ∈ S' ↔ ∃ i, Kept (P i) m) (m : Member) : Kept S' m ↔ Kept S m := by
  have hany : Member.prim .any ∈ S' ↔ .prim .any ∈ S := by
    rw [hS', hP]
    refine exists_congr fun i => ⟨?_, fun hi => Or.inl ⟨hi, rfl⟩⟩
    rintro (⟨hi, -⟩ | ⟨-, hi, -⟩)
    · exact hi
    · exact hi
  by_cases hS : Member.prim .any ∈ S
  · simp [Kept, hany, hS]
  · have hpiece : ∀ i, Member.prim .any ∉ P i := fun i hi => hS ((hP _).mpr ⟨i, hi⟩)
    have hkept : ∀ i n, Kept (P i) n ↔
        match n with
        | .leaf _ _ _ => n ∈ P i ∧ (n = .prim .table → ∀ k ∈ P i, k.tableShaped = false)
        | .func f => Collapses (P i) f := fun i n => by simp [Kept, hpiece i]
    have hshaped : ∀ n, n.tableShaped = true → (n ∈ S' ↔ n ∈ S) := by
      intro n hn
      rw [hS', hP]
      refine exists_congr fun i => ?_
      rw [hkept]
      cases n with
      | leaf tag label key => exact and_iff_left fun heq => absurd heq (tableShaped_ne hn)
      | func f => simp [Member.tableShaped] at hn
    simp only [Kept, hany, hS, false_and, not_false_eq_true, true_and, false_or]
    cases m with
    | func f =>
      refine collapses_pieces (h.resolve_left hS) hP (fun g => ?_) f
      rw [hS']
      exact exists_congr fun i => hkept i _
    | leaf tag label key =>
      have hnone : (∀ n ∈ S', n.tableShaped = false) ↔ ∀ n ∈ S, n.tableShaped = false := by
        constructor
        · intro hno n hn
          by_contra hne
          exact hne (hno n ((hshaped n (by simpa using hne)).mpr hn))
        · intro hno n hn
          by_contra hne
          exact hne (hno n ((hshaped n (by simpa using hne)).mp hn))
      rw [hnone, hS', hP]
      constructor
      · rintro ⟨⟨i, hi⟩, himp⟩
        exact ⟨⟨i, ((hkept i _).mp hi).1⟩, himp⟩
      · rintro ⟨⟨i, hi⟩, himp⟩
        exact ⟨⟨i, (hkept i _).mpr ⟨hi, fun heq k hk => himp heq k ((hP k).mpr ⟨i, hk⟩)⟩⟩, himp⟩

end Pieces

end Nupp.types
