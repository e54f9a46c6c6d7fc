import Nupp.Aot.Relations
import Nupp.Lib.UnionFind
import Nupp.Aot.RelationsCorrect
import Mathlib.Data.List.Dedup
import Mathlib.Data.List.TakeWhile
import Mathlib.Tactic.SplitIfs

/-! Which of a kernel's spans have one count (`nupp/compiler/aot/counts.nupp`). -/

namespace Nupp.Aot

inductive ParamKind where
  | write_span
  | read_span
  | uniform
  | scalar
deriving DecidableEq

/-- A parameter; a column of a row view has the view's name. -/
structure Param where
  kind : ParamKind
  name : String
  soa : Option String

structure Program where
  params : List Param
  relations : List Relation

namespace counts

open UnionFind

/-- The row view each column's count is carried under. -/
def roots (program : Program) : String → Option String :=
  program.params.foldl
    (fun roots param => if param.soa.isSome then Function.update roots param.name param.soa else roots) fun _ => none

def isSpan (kind : ParamKind) : Bool := kind = .write_span || kind = .read_span

def ownsCount (roots : String → Option String) (param : Param) : Bool :=
  isSpan param.kind && (roots param.name).isNone

/-- The positions of the spans that own a count. -/
def order (params : List Param) (roots : String → Option String) : String → Option ℕ :=
  (params.zipIdx 1).foldl
    (fun order (param, position) =>
      if ownsCount roots param then Function.update order param.name (some position) else order)
    fun _ => none

/-- The keys of `order`. -/
def names (params : List Param) (roots : String → Option String) : List String :=
  ((params.filter (ownsCount roots)).map Param.name).dedup

def pairKey (left right : String) : String := left ++ " " ++ right

/-- The key of a relation between two counts at offset zero; their factors are not in it. -/
def keyOf (relation : Relation) : Option String :=
  match relation.left, relation.right with
  | .count left _, .count right _ => if relation.offset = 0 then some (pairKey left right) else none
  | _, _ => none

/-- The keys of `atMost`. -/
def atMost (relations : List Relation) : List String := (relations.filterMap keyOf).dedup

/-- `%s`. -/
def isSpace (c : Char) : Bool := c = ' ' || (9 ≤ c.toNat && c.toNat ≤ 13)

/-- `key:match("^(%S+) (%S+)$")`. -/
def splitKey (key : String) : Option (String × String) :=
  let left := key.toList.takeWhile fun c => !isSpace c
  match key.toList.dropWhile fun c => !isSpace c with
  | c :: right =>
    if c = ' ' && !left.isEmpty && !right.isEmpty && right.all (fun c => !isSpace c) then
      some (String.ofList left, String.ofList right)
    else none
  | [] => none

/-- One key of `atMost`: joins the two classes when the key the other way round is held too. -/
def mergeKey (order : String → Option ℕ) (held : List String) (fuel : ℕ) (parent : String → Option String)
    (key : String) : Option (String → Option String) :=
  match splitKey key with
  | some (left, right) =>
    if (order left).isSome && (order right).isSome && pairKey right left ∈ held then do
      let a ← find parent fuel left
      let b ← find parent fuel right
      some (link (fun name => (order name).getD 0) parent a b)
    else some parent
  | none => some parent

def aliasOf (parent : String → Option String) (fuel : ℕ) (aliases : String → Option String) (name : String) :
    Option (String → Option String) := do
  let root ← find parent fuel name
  some (if root = name then aliases else Function.update aliases name (some root))

/-- Each span held at exactly another's length, with the first of its class. The tables are walked in
the order that `walk` puts their keys in; `none` when the fuel runs out. -/
def equal (walk : List String → List String) (program : Program) (roots : String → Option String) :
    Option (String → Option String) := do
  let order := order program.params roots
  let held := atMost program.relations
  let fuel := program.params.length + 1
  let parent ← (walk held).foldlM (mergeKey order held fuel) fun _ => none
  (walk (names program.params roots)).foldlM (aliasOf parent fuel) fun _ => none

end counts

end Nupp.Aot

/-! Spans with one count. The classes are those that the two-way relations connect, and their counts
are equal where these relations scale both sides alike. -/

namespace Nupp.Aot.counts

open UnionFind

variable {params : List Param} {views : String → Option String}

/-! ### The positions -/

theorem foldl_order (l : List (Param × ℕ)) (start : String → Option ℕ) {name : String} {p : ℕ}
    (h : l.foldl (fun order (param, position) =>
      if ownsCount views param then Function.update order param.name (some position) else order) start name = some p) :
    start name = some p ∨ ∃ param, (param, p) ∈ l ∧ param.name = name ∧ ownsCount views param = true := by
  induction l generalizing start with
  | nil => exact .inl h
  | cons entry l ih =>
    obtain ⟨param, position⟩ := entry
    rcases ih _ h with hstart | ⟨other, hmem, hother⟩
    · dsimp only at hstart
      split_ifs at hstart with howns
      · by_cases hname : name = param.name
        · rw [hname, Function.update_self] at hstart
          obtain rfl := Option.some.inj hstart
          exact .inr ⟨param, List.mem_cons_self, hname.symm, howns⟩
        · rw [Function.update_of_ne hname] at hstart
          exact .inl hstart
      · exact .inl hstart
    · exact .inr ⟨other, List.mem_cons_of_mem _ hmem, hother⟩

theorem foldl_order_isSome (l : List (Param × ℕ)) (start : String → Option ℕ) (name : String) :
    (l.foldl (fun order (param, position) =>
      if ownsCount views param then Function.update order param.name (some position) else order) start name).isSome ↔
      (start name).isSome ∨ ∃ entry ∈ l, entry.1.name = name ∧ ownsCount views entry.1 = true := by
  induction l generalizing start with
  | nil => simp
  | cons entry l ih =>
    obtain ⟨param, position⟩ := entry
    rw [List.foldl_cons, ih]
    dsimp only
    by_cases howns : ownsCount views param = true
    · by_cases hname : param.name = name
      · simp [howns, hname]
      · rw [if_pos howns, Function.update_of_ne (Ne.symm hname)]
        simp [hname]
    · simp [howns]

theorem order_position {name : String} {p : ℕ} (h : order params views name = some p) :
    ∃ param, params[p - 1]? = some param ∧ param.name = name ∧ p ≤ params.length := by
  rcases foldl_order _ _ h with hstart | ⟨param, hmem, hname, -⟩
  · cases hstart
  · obtain ⟨hlow, hhigh, heq⟩ := List.mem_zipIdx hmem
    refine ⟨param, ?_, hname, by omega⟩
    rw [heq]
    exact List.getElem?_eq_getElem _

theorem order_inj {name other : String} {p : ℕ} (h : order params views name = some p)
    (h' : order params views other = some p) : name = other := by
  obtain ⟨param, hget, rfl, -⟩ := order_position h
  obtain ⟨param', hget', rfl, -⟩ := order_position h'
  rw [Option.some.inj (hget.symm.trans hget')]

theorem mem_names {name : String} : name ∈ names params views ↔ (order params views name).isSome := by
  rw [order, foldl_order_isSome, names, List.mem_dedup, List.mem_map]
  constructor
  · rintro ⟨param, hmem, hname⟩
    obtain ⟨hmem, howns⟩ := List.mem_filter.mp hmem
    obtain ⟨i, hi, rfl⟩ := List.getElem_of_mem hmem
    exact .inr ⟨(params[i], i + 1), List.mem_zipIdx_iff_le_and_getElem?_sub.mpr (by simp [hi]), hname, howns⟩
  · rintro (hnone | ⟨⟨param, position⟩, hmem, hname, howns⟩)
    · cases hnone
    · exact ⟨param, List.mem_filter.mpr ⟨List.fst_mem_of_mem_zipIdx hmem, howns⟩, hname⟩

/-- The position of a span; zero of what is none. -/
def position (params : List Param) (views : String → Option String) (name : String) : ℕ :=
  (order params views name).getD 0

theorem position_le (params : List Param) (views : String → Option String) (name : String) :
    position params views name ≤ params.length := by
  rw [position]
  cases h : order params views name with
  | none => exact Nat.zero_le _
  | some p =>
    obtain ⟨-, -, -, hle⟩ := order_position h
    exact hle

theorem position_inj {name other : String} (h : (order params views name).isSome)
    (h' : (order params views other).isSome) (heq : position params views name = position params views other) :
    name = other := by
  obtain ⟨p, hp⟩ := Option.isSome_iff_exists.mp h
  obtain ⟨q, hq⟩ := Option.isSome_iff_exists.mp h'
  rw [position, position, hp, hq] at heq
  obtain rfl : p = q := heq
  exact order_inj hp hq

/-! ### Keys -/

/-- A name that a key can be split at. -/
def Word (name : String) : Prop := name.toList ≠ [] ∧ ∀ c ∈ name.toList, isSpace c = false

theorem Word.notMem {name : String} (h : Word name) : ' ' ∉ name.toList := fun hmem => by
  have hspace := h.2 ' ' hmem
  exact absurd hspace (by decide)

theorem toList_pairKey (left right : String) : (pairKey left right).toList = left.toList ++ ' ' :: right.toList := by
  rw [pairKey, String.toList_append, String.toList_append, List.append_assoc]
  rfl

theorem splitKey_eq {key left right : String} :
    splitKey key = some (left, right) ↔ Word left ∧ Word right ∧ key = pairKey left right := by
  constructor
  · intro h
    rw [splitKey] at h
    cases hdrop : key.toList.dropWhile fun c => !isSpace c with
    | nil =>
      rw [hdrop] at h
      cases h
    | cons c rest =>
      rw [hdrop] at h
      dsimp only at h
      split_ifs at h with hcond
      obtain ⟨hleft, hright⟩ := Prod.mk.inj (Option.some.inj h)
      simp only [Bool.and_eq_true, decide_eq_true_eq, Bool.not_eq_true', List.isEmpty_eq_false_iff,
        List.all_eq_true] at hcond
      obtain ⟨⟨⟨hc, hne⟩, hne'⟩, hall⟩ := hcond
      have hparts := List.takeWhile_append_dropWhile (p := fun c => !isSpace c) (l := key.toList)
      rw [hdrop, hc] at hparts
      refine ⟨⟨?_, ?_⟩, ⟨?_, ?_⟩, ?_⟩
      · rwa [← hleft, String.toList_ofList]
      · rw [← hleft, String.toList_ofList]
        intro d hd
        simpa using List.mem_takeWhile_imp hd
      · rwa [← hright, String.toList_ofList]
      · rwa [← hright, String.toList_ofList]
      · rw [← String.toList_inj, toList_pairKey, ← hleft, ← hright, String.toList_ofList, String.toList_ofList, hparts]
  · rintro ⟨hleft, hright, rfl⟩
    have hstop : ∀ c ∈ left.toList, (!isSpace c) = true := fun c hc => by rw [hleft.2 c hc]; rfl
    have htake : (pairKey left right).toList.takeWhile (fun c => !isSpace c) = left.toList := by
      rw [toList_pairKey, List.takeWhile_append_of_pos hstop, List.takeWhile_cons_of_neg (by decide), List.append_nil]
    have hdrop : (pairKey left right).toList.dropWhile (fun c => !isSpace c) = ' ' :: right.toList := by
      rw [toList_pairKey, List.dropWhile_append_of_pos hstop, List.dropWhile_cons_of_neg (by decide)]
    have hall : right.toList.all (fun c => !isSpace c) = true := by
      rw [List.all_eq_true]
      intro c hc
      rw [hright.2 c hc]
      rfl
    rw [splitKey, htake, hdrop]
    dsimp only
    rw [if_pos, String.ofList_toList, String.ofList_toList]
    simp only [hall, Bool.and_true, decide_true, Bool.true_and, Bool.and_eq_true, Bool.not_eq_true',
      List.isEmpty_eq_false_iff]
    exact ⟨hleft.1, hright.1⟩

/-- Names without spaces are found again in their key. -/
theorem pairKey_inj {left right left' right' : String} (hleft : Word left') (hright : Word right')
    (h : pairKey left right = pairKey left' right') : left = left' ∧ right = right' := by
  have hlists := congrArg String.toList h
  rw [toList_pairKey, toList_pairKey] at hlists
  rcases List.append_eq_append_iff.mp hlists with ⟨m, hm, hrest⟩ | ⟨m, hm, hrest⟩
  · cases m with
    | nil =>
      rw [List.append_nil] at hm
      exact ⟨(String.toList_inj.mp hm).symm, String.toList_inj.mp (List.cons.inj hrest).2⟩
    | cons c m =>
      obtain ⟨rfl, -⟩ := List.cons.inj hrest
      exact absurd (hm ▸ List.mem_append_right _ List.mem_cons_self) hleft.notMem
  · cases m with
    | nil =>
      rw [List.append_nil] at hm
      exact ⟨String.toList_inj.mp hm, (String.toList_inj.mp (List.cons.inj hrest).2).symm⟩
    | cons c m =>
      obtain ⟨rfl, hm'⟩ := List.cons.inj hrest
      exact absurd (hm' ▸ List.mem_append_right _ List.mem_cons_self) hright.notMem

/-- A relation of one count to another at offset zero, whatever their factors. -/
def Bounds (left right : String) (relation : Relation) : Prop :=
  relation.offset = 0 ∧ ∃ f g, relation.left = .count left f ∧ relation.right = .count right g

theorem keyOf_eq {relation : Relation} {key : String} :
    keyOf relation = some key ↔ ∃ left right, Bounds left right relation ∧ key = pairKey left right := by
  constructor
  · intro h
    rw [keyOf] at h
    split at h
    · next left f right g hleft hright =>
      split_ifs at h with hzero
      exact ⟨left, right, ⟨hzero, f, g, hleft, hright⟩, (Option.some.inj h).symm⟩
    · cases h
  · rintro ⟨left, right, ⟨hzero, f, g, hleft, hright⟩, rfl⟩
    rw [keyOf, hleft, hright]
    dsimp only
    rw [if_pos hzero]

theorem mem_atMost {relations : List Relation} {left right : String} (hleft : Word left) (hright : Word right) :
    pairKey left right ∈ atMost relations ↔ ∃ relation ∈ relations, Bounds left right relation := by
  rw [atMost, List.mem_dedup, List.mem_filterMap]
  constructor
  · rintro ⟨relation, hmem, hkey⟩
    obtain ⟨left', right', hbounds, heq⟩ := keyOf_eq.mp hkey
    obtain ⟨rfl, rfl⟩ := pairKey_inj hleft hright heq.symm
    exact ⟨relation, hmem, hbounds⟩
  · rintro ⟨relation, hmem, hbounds⟩
    exact ⟨relation, hmem, keyOf_eq.mpr ⟨left, right, hbounds, rfl⟩⟩

/-! ### The classes -/

/-- Two spans that relations hold to each other's count, by keys of which one is among `ks`. -/
def Merged (params : List Param) (views : String → Option String) (held ks : List String) (x y : String) : Prop :=
  pairKey x y ∈ ks ∧ pairKey y x ∈ held ∧ Word x ∧ Word y ∧
    (order params views x).isSome ∧ (order params views y).isSome

section Merging

variable {held ks : List String}

theorem mergeKey_joins {parent : String → Option String} (key : String)
    (h : Joins (position params views) (Merged params views held ks) parent) :
    ∃ parent', mergeKey (order params views) held (params.length + 1) parent key = some parent' ∧
      Joins (position params views) (Merged params views held (ks ++ [key])) parent' := by
  have hgrow : ∀ x y, Merged params views held ks x y → Merged params views held (ks ++ [key]) x y :=
    fun x y hxy => ⟨List.mem_append_left _ hxy.1, hxy.2⟩
  have hfuel (name : String) : position params views name < params.length + 1 := by
    have hle := position_le params views name
    omega
  -- a key that names no two-way pair adds none
  have hkeep : (∀ x y, Merged params views held [key] x y → False) →
      Joins (position params views) (Merged params views held (ks ++ [key])) parent := by
    intro hnone
    refine h.congr (fun x y hxy => .rel _ _ (hgrow x y hxy)) fun x y hxy => ?_
    rcases List.mem_append.mp hxy.1 with hks | hkey
    · exact .rel _ _ ⟨hks, hxy.2⟩
    · exact (hnone x y ⟨hkey, hxy.2⟩).elim
  cases hsplit : splitKey key with
  | none =>
    refine ⟨parent, by rw [mergeKey, hsplit], hkeep fun x y hxy => ?_⟩
    obtain ⟨hkey, -, hx, hy, -⟩ := hxy
    rw [← List.mem_singleton.mp hkey, splitKey_eq.mpr ⟨hx, hy, rfl⟩] at hsplit
    cases hsplit
  | some parts =>
    obtain ⟨left, right⟩ := parts
    obtain ⟨hleft, hright, rfl⟩ := splitKey_eq.mp hsplit
    have hsame : ∀ x y, Merged params views held [pairKey left right] x y → x = left ∧ y = right :=
      fun x y hxy => pairKey_inj hleft hright (List.mem_singleton.mp hxy.1)
    by_cases hcond : ((order params views left).isSome && (order params views right).isSome &&
        decide (pairKey right left ∈ held)) = true
    · have hparts : ((order params views left).isSome = true ∧ (order params views right).isSome = true) ∧
          pairKey right left ∈ held := by
        simpa only [Bool.and_eq_true, decide_eq_true_eq] using hcond
      obtain ⟨⟨hleft', hright'⟩, hheld⟩ := hparts
      obtain ⟨a, ha, -⟩ := h.forest.exists_root left
      obtain ⟨b, hb, -⟩ := h.forest.exists_root right
      have hisSome : ∀ {x r}, (order params views x).isSome → Root parent x r → (order params views r).isSome := by
        intro x r hx hr
        rcases eq_or_of_eqvGen (fun _ _ hxy => hxy.2.2.2.2) (h.connected hr) with rfl | ⟨-, hr⟩
        · exact hx
        · exact hr
      refine ⟨link (position params views) parent a b, ?_, ?_⟩
      · rw [mergeKey, hsplit]
        dsimp only
        rw [if_pos hcond, h.forest.find_eq ha (hfuel _), h.forest.find_eq hb (hfuel _)]
        rfl
      · refine (h.link ha hb (position_inj (hisSome hleft' ha) (hisSome hright' hb))).congr ?_ fun x y hxy => ?_
        · rintro x y (hxy | ⟨rfl, rfl⟩)
          · exact .rel _ _ (hgrow x y hxy)
          · exact .rel _ _ ⟨List.mem_append_right _ (List.mem_singleton_self _), hheld, hleft, hright, hleft', hright'⟩
        · rcases List.mem_append.mp hxy.1 with hks | hkey
          · exact .rel _ _ (.inl ⟨hks, hxy.2⟩)
          · exact .rel _ _ (.inr (hsame x y ⟨hkey, hxy.2⟩))
    · refine ⟨parent, ?_, hkeep fun x y hxy => hcond ?_⟩
      · rw [mergeKey, hsplit]
        dsimp only
        rw [if_neg hcond]
      · obtain ⟨rfl, rfl⟩ := hsame x y hxy
        obtain ⟨-, hheld, -, -, hx, hy⟩ := hxy
        simp only [hx, hy, hheld, decide_true, Bool.and_true]

theorem merge_joins {parent : String → Option String} (keys : List String)
    (h : Joins (position params views) (Merged params views held ks) parent) :
    ∃ parent', keys.foldlM (mergeKey (order params views) held (params.length + 1)) parent = some parent' ∧
      Joins (position params views) (Merged params views held (ks ++ keys)) parent' := by
  induction keys generalizing parent ks with
  | nil => exact ⟨parent, rfl, by rwa [List.append_nil]⟩
  | cons key keys ih =>
    obtain ⟨parent', hmerge, hjoins⟩ := mergeKey_joins key h
    obtain ⟨parent'', hfold, hjoins⟩ := ih hjoins
    refine ⟨parent'', ?_, by rwa [List.append_assoc] at hjoins⟩
    rw [List.foldlM_cons, hmerge]
    exact hfold

end Merging

/-- Spans held at each other's length by relations at offset zero, whatever the factors. -/
def TwoWay (program : Program) (views : String → Option String) (x y : String) : Prop :=
  (Word x ∧ Word y ∧ (order program.params views x).isSome ∧ (order program.params views y).isSome) ∧
    (∃ relation ∈ program.relations, Bounds x y relation) ∧ ∃ relation ∈ program.relations, Bounds y x relation

theorem twoWay_isSome {program : Program} {x y : String} (hx : (order program.params views x).isSome)
    (hxy : Relation.EqvGen (TwoWay program views) x y) : (order program.params views y).isSome := by
  rcases eq_or_of_eqvGen (fun _ _ hxy => hxy.1.2.2) hxy with rfl | ⟨-, hy⟩
  · exact hx
  · exact hy

/-- The first span, in the order of the parameters, of the class of a span. -/
def First (program : Program) (views : String → Option String) (name root : String) : Prop :=
  Relation.EqvGen (TwoWay program views) name root ∧ ∀ other, Relation.EqvGen (TwoWay program views) name other →
    position program.params views root ≤ position program.params views other

theorem exists_first (program : Program) (views : String → Option String) (name : String) :
    ∃ root, First program views name root := by
  obtain ⟨root, hroot, hmin⟩ := (measure (position program.params views)).wf.has_min
    { other | Relation.EqvGen (TwoWay program views) name other } ⟨name, .refl name⟩
  exact ⟨root, hroot, fun other hother => Nat.le_of_not_lt (hmin other hother)⟩

theorem aliasOf_fold {parent : String → Option String} {fuel : ℕ} {rootOf : String → String}
    (hfind : ∀ name, find parent fuel name = some (rootOf name)) (names : List String) (start : String → Option String) :
    names.foldlM (aliasOf parent fuel) start = some fun name =>
      if name ∈ names ∧ rootOf name ≠ name then some (rootOf name) else start name := by
  induction names generalizing start with
  | nil => simp
  | cons head names ih =>
    rw [List.foldlM_cons, aliasOf, hfind]
    refine (ih _).trans (congrArg some (funext fun name => ?_))
    by_cases hname : name = head
    · subst hname
      by_cases hroot : rootOf name = name
      · simp [hroot]
      · simp [hroot]
    · by_cases hroot : rootOf head = head
      · simp [hroot, hname]
      · simp [hroot, hname]

/-- `equal` answers with the first of each other span's class. -/
theorem equal_spec {walk : List String → List String} (hwalk : ∀ l, (walk l).Perm l) (program : Program)
    (views : String → Option String) :
    ∃ aliases, equal walk program views = some aliases ∧ ∀ name root, aliases name = some root ↔
      (order program.params views name).isSome ∧ root ≠ name ∧ First program views name root := by
  have hstart : Joins (position program.params views)
      (Merged program.params views (atMost program.relations) []) fun _ => none := by
    refine (joins_none _).congr (fun x y hxy => hxy.elim) fun x y hxy => ?_
    exact absurd hxy.1 List.not_mem_nil
  obtain ⟨parent, hfold, hjoins⟩ := merge_joins (walk (atMost program.relations)) hstart
  have hmerged : ∀ x y, Merged program.params views (atMost program.relations) ([] ++ walk (atMost program.relations)) x y ↔
      TwoWay program views x y := by
    intro x y
    rw [Merged, List.nil_append, (hwalk _).mem_iff, TwoWay]
    constructor
    · rintro ⟨hkey, hback, hx, hy, hspans⟩
      exact ⟨⟨hx, hy, hspans⟩, (mem_atMost hx hy).mp hkey, (mem_atMost hy hx).mp hback⟩
    · rintro ⟨⟨hx, hy, hspans⟩, hrelation, hback⟩
      exact ⟨(mem_atMost hx hy).mpr hrelation, (mem_atMost hy hx).mpr hback, hx, hy, hspans⟩
  replace hjoins : Joins (position program.params views) (TwoWay program views) parent :=
    hjoins.congr (fun x y hxy => .rel _ _ ((hmerged x y).mp hxy)) fun x y hxy => .rel _ _ ((hmerged x y).mpr hxy)
  choose rootOf hroot hle using hjoins.forest.exists_root
  have hfind : ∀ name, find parent (program.params.length + 1) name = some (rootOf name) := by
    intro name
    have hfuel := position_le program.params views name
    exact hjoins.forest.find_eq (hroot name) (by omega)
  refine ⟨_, by rw [equal, hfold]; exact aliasOf_fold hfind _ _, fun name root => ?_⟩
  have hfirst : First program views name (rootOf name) :=
    ⟨hjoins.connected (hroot name), fun other hother => hjoins.least (hroot name) hother⟩
  have hmem : name ∈ walk (names program.params views) ↔ (order program.params views name).isSome :=
    (hwalk _).mem_iff.trans mem_names
  constructor
  · intro h
    split_ifs at h with hcond
    obtain rfl := Option.some.inj h
    exact ⟨hmem.mp hcond.1, hcond.2, hfirst⟩
  · rintro ⟨hname, hne, hroot'⟩
    have heq : rootOf name = root :=
      position_inj (twoWay_isSome hname hfirst.1) (twoWay_isSome hname hroot'.1)
        (le_antisymm (hfirst.2 _ hroot'.1) (hroot'.2 _ hfirst.1))
    rw [if_pos ⟨hmem.mpr hname, heq ▸ hne⟩, heq]

/-! ### The counts -/

/-- A value for every count and every integer parameter. -/
structure Valuation where
  lengths : String → ℕ
  uniforms : String → ℤ

def Valuation.value (v : Valuation) : Term → ℤ
  | .zero => 0
  | .uniform name => v.uniforms name
  | .count name factor => factor.getD 1 * v.lengths name

/-- A valuation of which all the relations of a program hold. -/
def Satisfies (v : Valuation) (program : Program) : Prop := relations.Models v.value program.relations

/-- The relations give two spans the same count. -/
def Forced (program : Program) (x y : String) : Prop := ∀ v : Valuation, Satisfies v program → v.lengths x = v.lengths y

/-- A relation that scales both its counts alike. -/
def Even (relation : Relation) : Prop :=
  relations.factorOf relation.left = relations.factorOf relation.right ∧ relations.factorOf relation.left ≠ some 0

/-- What merging is to do: it maps spans to the first of their class, which has their count, and depends on
no order of the relations or of the tables. -/
structure Merges (walk : List String → List String) (program : Program) (views aliases : String → Option String) :
    Prop where
  forced : ∀ name root, aliases name = some root → Forced program name root
  first : ∀ name root, aliases name = some root → First program views name root ∧ aliases root = none
  stable : ∀ walk' relations', (∀ l : List String, (walk' l).Perm l) → relations'.Perm program.relations →
    equal walk' { program with relations := relations' } views = some aliases

theorem le_of_even {v : Valuation} {program : Program} (hv : Satisfies v program) {relation : Relation}
    (hmem : relation ∈ program.relations) {x y : String} (hbounds : Bounds x y relation) (heven : Even relation) :
    v.lengths x ≤ v.lengths y := by
  obtain ⟨hzero, f, g, hleft, hright⟩ := hbounds
  obtain ⟨hsame, hne⟩ := heven
  have hle := hv.holds relation hmem
  rw [hleft, hright] at hsame
  obtain rfl : f = g := hsame
  rw [hleft] at hne
  rw [hleft, hright, hzero, add_zero, Valuation.value, Valuation.value] at hle
  have hpos : 0 < f.getD 1 := by
    cases f with
    | none => exact Nat.one_pos
    | some f => exact Nat.pos_of_ne_zero fun hf => hne (congrArg some hf)
  have hmul : f.getD 1 * v.lengths x ≤ f.getD 1 * v.lengths y := by exact_mod_cast hle
  exact Nat.le_of_mul_le_mul_left hmul hpos

theorem forced_of_eqvGen {program : Program} (h : ∀ x y, TwoWay program views x y → Forced program x y) {x y : String}
    (hxy : Relation.EqvGen (TwoWay program views) x y) : Forced program x y := by
  intro v hv
  induction hxy with
  | rel x y hxy => exact h x y hxy v hv
  | refl => rfl
  | symm x y _ ih => exact ih.symm
  | trans x y z _ _ ih ih' => exact ih.trans ih'

theorem twoWay_perm {program : Program} {relations' : List Relation} (h : relations'.Perm program.relations) :
    TwoWay { program with relations := relations' } views = TwoWay program views := by
  funext x y
  simp only [TwoWay, h.mem_iff]

/-- Merging is right exactly when every two spans that are bounded by each other at offset zero are so by relations
that scale both counts alike, unless the relations force their counts to be equal otherwise. -/
theorem equal_merges {walk : List String → List String} (hwalk : ∀ l, (walk l).Perm l) (program : Program)
    (views : String → Option String) :
    (∃ aliases, equal walk program views = some aliases ∧ Merges walk program views aliases) ↔
      ∀ x y, TwoWay program views x y →
        ((∃ relation ∈ program.relations, Bounds x y relation ∧ Even relation) ∧
          ∃ relation ∈ program.relations, Bounds y x relation ∧ Even relation) ∨ Forced program x y := by
  constructor
  · rintro ⟨aliases, hequal, hmerges⟩ x y hxy
    obtain ⟨aliases', hequal', hspec⟩ := equal_spec hwalk program views
    obtain rfl := Option.some.inj (hequal.symm.trans hequal')
    have hx := hxy.1.2.2.1
    have hy := hxy.1.2.2.2
    obtain ⟨root, hroot⟩ := exists_first program views x
    have hroot' : First program views y root :=
      ⟨.trans _ _ _ (.symm _ _ (.rel _ _ hxy)) hroot.1, fun other hother =>
        hroot.2 other (.trans _ _ _ (.rel _ _ hxy) hother)⟩
    have hsame : ∀ {name}, (order program.params views name).isSome → First program views name root →
        Forced program name root := by
      intro name hname hfirst
      by_cases hne : root = name
      · exact fun _ _ => congrArg _ hne.symm
      · exact hmerges.forced name root ((hspec name root).mpr ⟨hname, hne, hfirst⟩)
    exact .inr fun v hv => (hsame hx hroot v hv).trans (hsame hy hroot' v hv).symm
  · intro h
    obtain ⟨aliases, hequal, hspec⟩ := equal_spec hwalk program views
    have hforced : ∀ x y, TwoWay program views x y → Forced program x y := by
      intro x y hxy
      rcases h x y hxy with ⟨⟨r, hr, hbounds, heven⟩, s, hs, hbounds', heven'⟩ | hforced
      · exact fun v hv => le_antisymm (le_of_even hv hr hbounds heven) (le_of_even hv hs hbounds' heven')
      · exact hforced
    refine ⟨aliases, hequal, fun name root hroot => ?_, fun name root hroot => ?_, fun walk' relations' hwalk' hperm => ?_⟩
    · exact forced_of_eqvGen hforced ((hspec name root).mp hroot).2.2.1
    · obtain ⟨hname, hne, hfirst⟩ := (hspec name root).mp hroot
      refine ⟨hfirst, Option.eq_none_iff_forall_ne_some.mpr fun other hother => ?_⟩
      obtain ⟨hisSome, hne', hfirst'⟩ := (hspec root other).mp hother
      exact hne' (position_inj (twoWay_isSome hisSome hfirst'.1) hisSome
        (le_antisymm (hfirst'.2 _ (.refl root)) (hfirst.2 _ (.trans _ _ _ hfirst.1 hfirst'.1))))
    · obtain ⟨aliases', hequal', hspec'⟩ := equal_spec hwalk' { program with relations := relations' } views
      rw [hequal']
      refine congrArg some (funext fun name => Option.ext fun root => ?_)
      rw [hspec', hspec, First, First, twoWay_perm hperm]

/-- `#a == #b`. -/
def level : Program where
  params := [⟨.read_span, "a", none⟩, ⟨.write_span, "b", none⟩]
  relations := [⟨relations.count "a", relations.count "b", 0⟩, ⟨relations.count "b", relations.count "a", 0⟩]

theorem level_merges : ∃ aliases, equal id level (fun _ => none) = some aliases ∧
    Merges id level (fun _ => none) aliases := by
  have heven : ∀ relation ∈ level.relations, Even relation := by
    intro relation hmem
    simp only [level, List.mem_cons, List.not_mem_nil, or_false] at hmem
    rcases hmem with rfl | rfl <;> exact ⟨rfl, nofun⟩
  refine (equal_merges (fun l => .refl l) level _).mpr ?_
  rintro x y ⟨-, ⟨r, hr, hbounds⟩, s, hs, hbounds'⟩
  exact .inl ⟨⟨r, hr, hbounds, heven r hr⟩, s, hs, hbounds', heven s hs⟩

/-- `#b == 2 * #a`. -/
def doubled : Program where
  params := [⟨.read_span, "a", none⟩, ⟨.write_span, "b", none⟩]
  relations := [⟨relations.count "b", relations.scaledCount "a" 2, 0⟩, ⟨relations.scaledCount "a" 2, relations.count "b", 0⟩]

/-- Spans of which one is twice as long as the other are merged. -/
theorem doubled_differs : ¬∀ (walk : List String → List String) (program : Program) (views : String → Option String),
    (∀ l, (walk l).Perm l) → ∃ aliases, equal walk program views = some aliases ∧ Merges walk program views aliases := by
  intro h
  obtain ⟨aliases, hequal, hmerges⟩ := h id doubled (fun _ => none) fun l => .refl l
  have hb : (equal id doubled fun _ => none).map (fun aliases => aliases "b") = some (some "a") := by decide
  rw [hequal, Option.map_some, Option.some_inj] at hb
  have hforced := hmerges.forced "b" "a" hb ⟨fun name => if name = "b" then 2 else 1, fun _ => 0⟩
  have hholds : Satisfies ⟨fun name => if name = "b" then 2 else 1, fun _ => 0⟩ doubled := by
    refine ⟨rfl, fun relation hmem => ?_⟩
    simp only [doubled, List.mem_cons, List.not_mem_nil, or_false] at hmem
    rcases hmem with rfl | rfl <;> decide
  exact absurd (hforced hholds) (by decide)

end Nupp.Aot.counts
