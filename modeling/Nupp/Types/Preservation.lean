import Mathlib.Data.List.Nodup
import Nupp.Lib.Decimal
import Nupp.Lib.Delimited

/-! The place of a type in another that contains it once (`preservationPath` of `nupp/compiler/types/init.nupp`). A type is
the table it is, with the id it is interned under. -/

namespace Nupp.preservation

open Delimited

abbrev Name := List UInt8

abbrev Path := List Name

structure Field (ι : Type) where
  name : Name
  type : Option ι
  read : Option ι
  write : Option ι

/-- `type or read or write`. -/
def Field.child {ι : Type} (field : Field ι) : Option ι := field.type <|> field.read <|> field.write

/-- What the walk reads of a type; `fieldDefs` are the names in the order of `pairs`. -/
inductive Node (ι : Type)
  | nominal (fieldDefs : List Name) (byname : Name → Option ι) (distinct : fieldDefs.Nodup)
  | shape (fields : List (Field ι)) (distinct : (fields.map Field.name).Nodup)
  | tuple (elems : List ι)
  | union (members : List ι)
  | intersection (members : List ι)
  | mapped (keys value : Option ι) (binder : ι) (remap : Bool)
  | keyof (subject : ι)
  | member (subject key : ι)
  | owned (inner : ι)
  | other

/-- The types of a process; each is interned under an id of its own. -/
structure Store (ι : Type) where
  node : ι → Node ι
  id : ι → Name
  nilType : ι
  distinct : Function.Injective id

variable {ι : Type}

def Store.unwrapOwnership (store : Store ι) (t : ι) : ι :=
  match store.node t with
  | .owned inner => inner
  | _ => t

/-- `tostring` of a slot. -/
def slotName (slot : ℕ) : Name := Decimal.numeral slot

/-- The components of an aggregate, with their names. -/
def Node.components : Node ι → List (Name × ι)
  | .nominal fieldDefs byname _ => fieldDefs.filterMap fun name => (byname name).map (name, ·)
  | .shape fields _ => fields.filterMap fun field => field.child.map (field.name, ·)
  | .tuple elems => elems.zipIdx.map fun e => (slotName (e.2 + 1), e.1)
  | _ => []

/-- The subject of a symbolic identity mapped form. -/
def Store.mappedSubject [DecidableEq ι] (store : Store ι) (keys value : Option ι) (binder : ι) : Option ι := do
  let keys ← keys
  let value ← value
  match store.node keys, store.node value with
  | .keyof subject, .member subject' key => if subject' = subject ∧ key = binder then some subject else none
  | _, _ => none

section Walk

variable [DecidableEq ι] (store : Store ι) (target : ι)

/-- The loop over components; the answer is `none` where it returns early. -/
def considerAll (walk : List ι → ι → Option (Option Path × List ι)) :
    List (Name × ι) → Option Path → List ι → Option (Option (Option Path) × List ι)
  | [], found, seen => some (some found, seen)
  | (name, child) :: rest, found, seen => do
    let (suffix, seen) ← walk seen child
    match suffix with
    | none => considerAll walk rest found seen
    | some suffix =>
      if found.isSome then some (none, seen) else considerAll walk rest (some (name :: suffix)) seen

/-- The loop over members, which must agree on the path beneath them. -/
def agreeAll (walk : List ι → ι → Option (Option Path × List ι)) (nilType : ι) :
    List ι → Option Path → List ι → Option (Option (Option Path) × List ι)
  | [], found, seen => some (some found, seen)
  | member :: rest, found, seen =>
    if member = nilType then agreeAll walk nilType rest found seen
    else do
      let (path, seen) ← walk seen member
      match path with
      | none => agreeAll walk nilType rest found seen
      | some path =>
        if found.any fun before => joined 46 before ≠ joined 46 path then some (none, seen)
        else agreeAll walk nilType rest (some path) seen

/-- `none` where the fuel runs out, and otherwise the answer with the types that are left marked. -/
def preservedPath : ℕ → List ι → ι → Option (Option Path × List ι)
  | 0, _, _ => none
  | fuel + 1, seen, t =>
    let t := store.unwrapOwnership t
    if store.id t = store.id target then some (some [], seen)
    else if t ∈ seen then some (none, seen)
    else do
      let seen := t :: seen
      let (found, seen) ← match store.node t with
        | .nominal fieldDefs byname distinct =>
          considerAll (preservedPath fuel) (Node.nominal fieldDefs byname distinct).components none seen
        | .shape fields distinct => considerAll (preservedPath fuel) (Node.shape fields distinct).components none seen
        | .tuple elems => considerAll (preservedPath fuel) (Node.tuple elems).components none seen
        | .union members | .intersection members => agreeAll (preservedPath fuel) store.nilType members none seen
        | .mapped keys value binder remap =>
          match if remap then none else store.mappedSubject keys value binder with
          | some subject => do
            let (found, seen) ← preservedPath fuel seen subject
            some (some found, seen)
          | none => some (some none, seen)
        | _ => some (some none, seen)
      match found with
      | none => some (none, seen)
      | some found => some (found, seen.filter (· ≠ t))

/-- `preservationPath(payload, source)`. -/
def preservationPath (payload source : ι) (fuel : ℕ) : Option (Option Path) :=
  (preservedPath store (store.unwrapOwnership source) fuel [] payload).map Prod.fst

end Walk

end Nupp.preservation

/-! The path of a source in a payload of finite depth: what the walk answers, and when that is the place of the only
occurrence. -/

namespace Nupp.preservation

variable {ι : Type} (store : Store ι) (target : ι)

/-- `t` is built from nominals, shapes, tuples and ownership qualifiers, at most `n` of them inside each other. -/
def Built : ℕ → ι → Prop
  | 0, _ => False
  | n + 1, t =>
    match store.node t with
    | .owned inner => Built n inner
    | .union _ | .intersection _ | .mapped .. => False
    | node => ∀ e ∈ node.components, Built n e.2

/-- `target` stands at the path `p` of `t`, under any number of qualifiers. -/
inductive Occurs : ι → Path → Prop
  | here : Occurs target []
  | owned {t inner : ι} {p : Path} : store.node t = .owned inner → Occurs inner p → Occurs t p
  | component {t : ι} {e : Name × ι} {p : Path} : e ∈ (store.node t).components → Occurs e.2 p → Occurs t (e.1 :: p)

/-- An occurrence with at most one qualifier before it and before each aggregate on its path. -/
inductive Shown : ι → Path → Prop
  | here {t : ι} : store.unwrapOwnership t = target → Shown t []
  | component {t : ι} {e : Name × ι} {p : Path} :
    e ∈ (store.node (store.unwrapOwnership t)).components → Shown e.2 p → Shown t (e.1 :: p)

def Several (t : ι) : Prop := ∃ p q, Shown store target t p ∧ Shown store target t q ∧ p ≠ q

def Once (t : ι) : Prop := ∃ p, Shown store target t p ∧ ∀ q, Shown store target t q → q = p

/-- In `t` one component holds the source once, or masks it itself, and what the others hold is ambiguous in each. -/
def Masked : ℕ → ι → Prop
  | 0, _ => False
  | n + 1, t =>
    store.unwrapOwnership t ≠ target ∧ Several store target t ∧
      ∃ e ∈ (store.node (store.unwrapOwnership t)).components, (Once store target e.2 ∨ Masked n e.2) ∧
        ∀ e' ∈ (store.node (store.unwrapOwnership t)).components, e' ≠ e →
          (∀ p, ¬Shown store target e'.2 p) ∨ Several store target e'.2 ∧ ¬Masked n e'.2

variable {store target}

theorem Built.succ {n : ℕ} {t : ι} (h : Built store n t) : Built store (n + 1) t := by
  induction n generalizing t with
  | zero => exact h.elim
  | succ n ih =>
    cases ht : store.node t <;> simp only [Built, ht] at h ⊢
    case owned inner => exact ih h
    all_goals exact fun e he => ih (h e he)

theorem unwrapOwnership_eq {t : ι} {e : Name × ι} (he : e ∈ (store.node t).components) :
    store.unwrapOwnership t = t := by
  cases ht : store.node t <;> simp_all [Store.unwrapOwnership, Node.components]

theorem Built.unwrapOwnership {n : ℕ} {t : ι} (h : Built store n t) : Built store n (store.unwrapOwnership t) := by
  cases n with
  | zero => exact h.elim
  | succ n =>
    cases ht : store.node t <;> simp only [Store.unwrapOwnership, ht] <;> try exact h
    case owned inner =>
      simp only [Built, ht] at h
      exact h.succ

theorem Built.component {n : ℕ} {t : ι} {e : Name × ι} (h : Built store (n + 1) t)
    (he : e ∈ (store.node t).components) : Built store n e.2 := by
  cases ht : store.node t <;> simp only [Built, ht] at h he
  case owned => simp [Node.components] at he
  all_goals exact h e he

/-- `s` is what the walk marks at `t` or beneath it. -/
inductive Below (store : Store ι) (s : ι) : ι → Prop
  | here {t : ι} : store.unwrapOwnership t = s → Below store s t
  | component {t : ι} {e : Name × ι} :
    e ∈ (store.node (store.unwrapOwnership t)).components → Below store s e.2 → Below store s t

theorem Below.built {n : ℕ} {s t : ι} (hbelow : Below store s t) (h : Built store n t) : Built store n s := by
  induction hbelow generalizing n with
  | here heq => exact heq ▸ h.unwrapOwnership
  | component he _ ih =>
    cases n with
    | zero => exact h.elim
    | succ n => exact (ih (h.unwrapOwnership.component he)).succ

/-- No aggregate of finite depth stands beneath its own components. -/
theorem Built.not_below {n : ℕ} {t : ι} {e : Name × ι} (h : Built store n t) (he : e ∈ (store.node t).components) :
    ¬Below store t e.2 := by
  intro hbelow
  induction n with
  | zero => exact h
  | succ n ih => exact ih (hbelow.built (h.component he))

theorem Shown.marked {t : ι} {p : Path} (h : Shown store target t p) : Below store target t := by
  induction h with
  | here heq => exact .here heq
  | component he _ ih => exact .component he ih

theorem Shown.occurs {t : ι} {p : Path} (h : Shown store target t p) : Occurs store target t p := by
  have hunwrap : ∀ {t : ι} {p : Path}, Occurs store target (store.unwrapOwnership t) p → Occurs store target t p := by
    intro t p hoccurs
    cases ht : store.node t <;> simp only [Store.unwrapOwnership, ht] at hoccurs <;> try exact hoccurs
    case owned inner => exact .owned ht hoccurs
  induction h with
  | here heq => exact hunwrap (heq ▸ .here)
  | component he _ ih => exact hunwrap (.component he ih)

/-- Nothing of finite depth holds itself. -/
theorem Shown.eq_nil {n : ℕ} {t : ι} {p : Path} (h : Shown store target t p) (hbuilt : Built store n t)
    (ht : store.unwrapOwnership t = target) : p = [] := by
  cases h with
  | here => rfl
  | component he hshown =>
    subst ht
    exact (hbuilt.unwrapOwnership.not_below he hshown.marked).elim

theorem shown_iff {t : ι} {p : Path} (ht : store.unwrapOwnership t ≠ target) :
    Shown store target t p ↔
      ∃ e ∈ (store.node (store.unwrapOwnership t)).components, ∃ q, Shown store target e.2 q ∧ p = e.1 :: q := by
  constructor
  · intro h
    cases h with
    | here heq => exact absurd heq ht
    | component he hshown => exact ⟨_, he, _, hshown, rfl⟩
  · rintro ⟨e, he, q, hshown, rfl⟩
    exact .component he hshown

theorem components_nodup (node : Node ι) : (node.components.map Prod.fst).Nodup := by
  cases node with
  | nominal fieldDefs byname distinct =>
    have hsub : ((fieldDefs.filterMap fun name => (byname name).map (name, ·)).map Prod.fst).Sublist fieldDefs := by
      induction fieldDefs with
      | nil => simp
      | cons name rest ih =>
        cases hname : byname name with
        | none => simpa [hname] using (ih distinct.of_cons).cons name
        | some child => simpa [hname] using ih distinct.of_cons
    exact distinct.sublist hsub
  | shape fields distinct =>
    have hsub : ((fields.filterMap fun field => field.child.map (field.name, ·)).map Prod.fst).Sublist
        (fields.map Field.name) := by
      induction fields with
      | nil => simp
      | cons field rest ih =>
        cases hchild : field.child with
        | none => simpa [hchild] using (ih distinct.of_cons).cons field.name
        | some child => simpa [hchild] using ih distinct.of_cons
    exact distinct.sublist hsub
  | tuple elems =>
    have hnames : (elems.zipIdx.map fun e => (slotName (e.2 + 1), e.1)).map Prod.fst =
        (List.range elems.length).map fun slot => slotName (slot + 1) := by
      apply List.ext_getElem <;> simp
    rw [Node.components, hnames]
    exact List.nodup_range.map fun i j hij => Nat.succ.inj (Decimal.numeral_injective hij)
  | _ => simp [Node.components]

def single : List Path → Option Path
  | [path] => some path
  | _ => none

theorem single_filterMap {components : List (Name × ι)} (hnodup : components.Nodup) (f : Name × ι → Option Path)
    {p : Path} : single (components.filterMap f) = some p ↔
      ∃ e ∈ components, f e = some p ∧ ∀ e' ∈ components, e' ≠ e → f e' = none := by
  induction components with
  | nil => simp [single]
  | cons e rest ih =>
    obtain ⟨he, hrest⟩ := List.nodup_cons.mp hnodup
    cases hf : f e with
    | none =>
      rw [List.filterMap_cons_none hf, ih hrest]
      constructor
      · rintro ⟨e', he', hp, hother⟩
        refine ⟨e', by simp [he'], hp, fun e'' he'' hne => ?_⟩
        rcases List.mem_cons.mp he'' with rfl | he''
        · exact hf
        · exact hother e'' he'' hne
      · rintro ⟨e', he', hp, hother⟩
        rcases List.mem_cons.mp he' with rfl | he'
        · simp [hf] at hp
        · exact ⟨e', he', hp, fun e'' he'' => hother e'' (by simp [he''])⟩
    | some path =>
      rw [List.filterMap_cons_some hf]
      have hsingle : single (path :: rest.filterMap f) = some p ↔ path = p ∧ ∀ e' ∈ rest, f e' = none := by
        cases hlist : rest.filterMap f with
        | nil => simpa [single] using fun _ => List.filterMap_eq_nil_iff.mp hlist
        | cons q others =>
          have hmem : q ∈ rest.filterMap f := by simp [hlist]
          obtain ⟨e', he', hq⟩ := List.mem_filterMap.mp hmem
          simp only [single, reduceCtorEq, false_iff, not_and, not_forall]
          exact fun _ => ⟨e', he', by simp [hq]⟩
      rw [hsingle]
      constructor
      · rintro ⟨rfl, hnone⟩
        refine ⟨e, by simp, hf, fun e' he' hne => ?_⟩
        exact hnone e' ((List.mem_cons.mp he').resolve_left hne)
      · rintro ⟨e', he', hp, hother⟩
        rcases List.mem_cons.mp he' with rfl | he'
        · refine ⟨by simpa [hf] using hp, fun e'' he'' => hother e'' (by simp [he'']) ?_⟩
          rintro rfl
          exact he he''
        · have hnone := hother e (by simp) fun heq => he (heq ▸ he')
          simp [hf] at hnone

section Walk

variable [DecidableEq ι]

/-- What the walk answers at a type without its qualifier, the marks aside. -/
def bare (store : Store ι) (target : ι) : ℕ → ι → Option Path
  | 0, _ => none
  | n + 1, t =>
    if t = target then some []
    else single ((store.node t).components.filterMap fun e =>
      (bare store target n (store.unwrapOwnership e.2)).map (e.1 :: ·))

theorem bare_eq {m n : ℕ} {t : ι} (hm : Built store m t) (hn : Built store n t) :
    bare store target m t = bare store target n t := by
  induction m generalizing n t with
  | zero => exact hm.elim
  | succ m ih =>
    cases n with
    | zero => exact hn.elim
    | succ n =>
      have hsame : ∀ e ∈ (store.node t).components,
          (bare store target m (store.unwrapOwnership e.2)).map (e.1 :: ·) =
            (bare store target n (store.unwrapOwnership e.2)).map (e.1 :: ·) := by
        intro e he
        rw [ih (hm.component he).unwrapOwnership (hn.component he).unwrapOwnership]
      rw [bare, bare, List.filterMap_congr hsame]

/-- A type whose answer is `none`, so that a mark left on it changes nothing. -/
def Dead (store : Store ι) (target s : ι) : Prop := ∀ n, Built store n s → bare store target n s = none

/-- A marked type is met again only where it is dead. -/
def Harmless (store : Store ι) (target : ι) (seen : List ι) (t : ι) : Prop :=
  ∀ s ∈ seen, Below store s t → Dead store target s

def Leaves (store : Store ι) (target : ι) (seen seen' : List ι) : Prop :=
  ∀ s ∈ seen', s ∈ seen ∨ Dead store target s

theorem Leaves.harmless {seen seen' : List ι} {t : ι} (h : Leaves store target seen seen')
    (hseen : Harmless store target seen t) : Harmless store target seen' t := by
  intro s hs hbelow
  rcases h s hs with hs | hdead
  · exact hseen s hs hbelow
  · exact hdead

theorem Leaves.trans {a b c : List ι} (h : Leaves store target a b) (h' : Leaves store target b c) :
    Leaves store target a c := by
  intro s hs
  rcases h' s hs with hs | hdead
  · exact h s hs
  · exact .inr hdead

/-- The result of the loop over components that answer with `paths`. -/
def considered : List Path → Option (Option Path)
  | [] => some none
  | [path] => some (some path)
  | _ => none

theorem considered_getD (paths : List Path) : (considered paths).getD none = single paths := by
  match paths with
  | [] => rfl
  | [_] => rfl
  | _ :: _ :: _ => rfl

theorem considerAll_eq {walk : List ι → ι → Option (Option Path × List ι)} (answer : ι → Option Path)
    (components : List (Name × ι)) (found : Option Path) (seen : List ι)
    (hwalk : ∀ e ∈ components, ∀ seen, Harmless store target seen e.2 →
      ∃ seen', walk seen e.2 = some (answer e.2, seen') ∧ Leaves store target seen seen')
    (hseen : ∀ e ∈ components, Harmless store target seen e.2) :
    ∃ seen', considerAll walk components found seen =
        some (considered (found.toList ++ components.filterMap fun e => (answer e.2).map (e.1 :: ·)), seen') ∧
      Leaves store target seen seen' := by
  induction components generalizing found seen with
  | nil => exact ⟨seen, by cases found <;> simp [considerAll, considered], fun s hs => .inl hs⟩
  | cons e rest ih =>
    obtain ⟨seen', hstep, hleaves⟩ := hwalk e (by simp) seen (hseen e (by simp))
    have hrest : ∀ found', ∃ seen'', considerAll walk rest found' seen' =
        some (considered (found'.toList ++ rest.filterMap fun e => (answer e.2).map (e.1 :: ·)), seen'') ∧
      Leaves store target seen seen'' := by
      intro found'
      obtain ⟨seen'', heq, hleaves'⟩ := ih found' seen' (fun e' he' => hwalk e' (by simp [he']))
        fun e' he' => hleaves.harmless (hseen e' (by simp [he']))
      exact ⟨seen'', heq, hleaves.trans hleaves'⟩
    cases hanswer : answer e.2 with
    | none =>
      obtain ⟨seen'', heq, hleaves'⟩ := hrest found
      exact ⟨seen'', by simpa [considerAll, hstep, hanswer] using heq, hleaves'⟩
    | some suffix =>
      cases found with
      | none =>
        obtain ⟨seen'', heq, hleaves'⟩ := hrest (some (e.1 :: suffix))
        exact ⟨seen'', by simpa [considerAll, hstep, hanswer] using heq, hleaves'⟩
      | some before => exact ⟨seen', by simp [considerAll, hstep, hanswer, considered], hleaves⟩

def settled (t : ι) : Option (Option Path) × List ι → Option Path × List ι
  | (none, seen) => (none, seen)
  | (some found, seen) => (found, seen.filter (· ≠ t))

theorem preservedPath_succ {n fuel : ℕ} {t : ι} {seen : List ι} (h : Built store (n + 1) (store.unwrapOwnership t))
    (htarget : store.unwrapOwnership t ≠ target) (hmarked : store.unwrapOwnership t ∉ seen) :
    preservedPath store target (fuel + 1) seen t =
      (considerAll (preservedPath store target fuel) (store.node (store.unwrapOwnership t)).components none
        (store.unwrapOwnership t :: seen)).map (settled (store.unwrapOwnership t)) := by
  have hid : store.id (store.unwrapOwnership t) ≠ store.id target := fun heq => htarget (store.distinct heq)
  rw [preservedPath]
  simp only [hid, hmarked, if_false]
  generalize store.unwrapOwnership t = u at h
  cases hnode : store.node u <;> simp only [Built, hnode] at h
  case keyof | member | owned | other => simp [Node.components, considerAll, settled]
  all_goals
    simp only [Option.bind_eq_bind]
    generalize considerAll (preservedPath store target fuel) (Node.components _) none (u :: seen) = result
    rcases result with _ | ⟨_ | found, seen⟩ <;> rfl

theorem preservedPath_eq {n fuel : ℕ} {t : ι} {seen : List ι} (h : Built store n t) (hfuel : n ≤ fuel)
    (hseen : Harmless store target seen t) :
    ∃ seen', preservedPath store target fuel seen t =
        some (bare store target n (store.unwrapOwnership t), seen') ∧ Leaves store target seen seen' := by
  induction n generalizing fuel t seen with
  | zero => exact h.elim
  | succ n ih =>
    obtain ⟨fuel, rfl⟩ : ∃ k, fuel = k + 1 := ⟨fuel - 1, by omega⟩
    have hu : Built store (n + 1) (store.unwrapOwnership t) := h.unwrapOwnership
    by_cases htarget : store.unwrapOwnership t = target
    · exact ⟨seen, by simp [preservedPath, bare, htarget], fun s hs => .inl hs⟩
    by_cases hmarked : store.unwrapOwnership t ∈ seen
    · have hid : store.id (store.unwrapOwnership t) ≠ store.id target := fun heq => htarget (store.distinct heq)
      exact ⟨seen, by simp [preservedPath, hid, hmarked, hseen _ hmarked (.here rfl) _ hu], fun s hs => .inl hs⟩
    rw [preservedPath_succ hu htarget hmarked]
    -- The new mark is not met beneath the type, which is of finite depth.
    have hbelow : ∀ e ∈ (store.node (store.unwrapOwnership t)).components,
        Harmless store target (store.unwrapOwnership t :: seen) e.2 := by
      intro e he s hs hs'
      rcases List.mem_cons.mp hs with rfl | hs
      · exact (hu.not_below he hs').elim
      · exact hseen s hs (.component he hs')
    obtain ⟨seen', hloop, hleaves⟩ := considerAll_eq
      (fun c => bare store target n (store.unwrapOwnership c))
      (store.node (store.unwrapOwnership t)).components none (store.unwrapOwnership t :: seen)
      (fun e he seen hseen => ih (hu.component he) (Nat.le_of_succ_le_succ hfuel) hseen) hbelow
    have hbare : bare store target (n + 1) (store.unwrapOwnership t) = _ :=
      (if_neg htarget).trans (considered_getD _).symm
    rw [hloop, hbare]
    simp only [Option.toList_none, List.nil_append]
    cases hresult : considered ((store.node (store.unwrapOwnership t)).components.filterMap fun e =>
      (bare store target n (store.unwrapOwnership e.2)).map (e.1 :: ·)) with
    | none =>
      refine ⟨seen', rfl, fun s hs => ?_⟩
      rcases hleaves s hs with hs | hdead
      · rcases List.mem_cons.mp hs with rfl | hs
        · refine .inr fun k hk => ?_
          rw [bare_eq hk hu, hbare, hresult]
          rfl
        · exact .inl hs
      · exact .inr hdead
    | some found =>
      refine ⟨seen'.filter (· ≠ store.unwrapOwnership t), rfl, fun s hs => ?_⟩
      obtain ⟨hs, hne⟩ := List.mem_filter.mp hs
      rcases hleaves s hs with hs | hdead
      · exact .inl ((List.mem_cons.mp hs).resolve_left (by simpa using hne))
      · exact .inr hdead

/-- The walk answers at an aggregate where one component answers. -/
theorem bare_eq_some {n : ℕ} {t : ι} {p : Path} (ht : t ≠ target) :
    bare store target (n + 1) t = some p ↔
      ∃ e ∈ (store.node t).components, (∃ q, bare store target n (store.unwrapOwnership e.2) = some q ∧ p = e.1 :: q) ∧
        ∀ e' ∈ (store.node t).components, e' ≠ e → bare store target n (store.unwrapOwnership e'.2) = none := by
  rw [bare, if_neg ht, single_filterMap (components_nodup _).of_map]
  simp [eq_comm]

theorem bare_shown {n : ℕ} {t : ι} {p : Path} (h : bare store target n (store.unwrapOwnership t) = some p) :
    Shown store target t p := by
  induction n generalizing t p with
  | zero => simp [bare] at h
  | succ n ih =>
    by_cases ht : store.unwrapOwnership t = target
    · obtain rfl : [] = p := by simpa [bare, ht] using h
      exact .here ht
    · obtain ⟨e, he, ⟨q, hq, rfl⟩, -⟩ := (bare_eq_some ht).mp h
      exact .component he (ih hq)

theorem bare_once {n : ℕ} {t : ι} {p : Path} (h : Built store n t) (hp : Shown store target t p)
    (honly : ∀ q, Shown store target t q → q = p) : bare store target n (store.unwrapOwnership t) = some p := by
  induction n generalizing t p with
  | zero => exact h.elim
  | succ n ih =>
    by_cases ht : store.unwrapOwnership t = target
    · simp [bare, ht, hp.eq_nil h ht]
    · obtain ⟨e, he, q, hq, rfl⟩ := (shown_iff ht).mp hp
      refine (bare_eq_some ht).mpr ⟨e, he, ⟨q, ?_, rfl⟩, fun e' he' hne => ?_⟩
      · refine ih (h.unwrapOwnership.component he) hq fun q' hq' => ?_
        simpa using honly _ (.component he hq')
      · -- Another component that answers would hold a second occurrence.
        cases hother : bare store target n (store.unwrapOwnership e'.2) with
        | none => rfl
        | some q' =>
          have hname := (List.cons.inj (honly _ (.component he' (bare_shown hother)))).1
          exact absurd ((List.inj_on_of_nodup_map (components_nodup _)) he' he hname) hne

theorem masked_iff {n : ℕ} {t : ι} (h : Built store n t) :
    Masked store target n t ↔
      Several store target t ∧ (bare store target n (store.unwrapOwnership t)).isSome = true := by
  induction n generalizing t with
  | zero => exact h.elim
  | succ n ih =>
    have hsome : ∀ e ∈ (store.node (store.unwrapOwnership t)).components,
        ((bare store target n (store.unwrapOwnership e.2)).isSome = true ↔
          Once store target e.2 ∨ Masked store target n e.2) := by
      intro e he
      have hbuilt := h.unwrapOwnership.component he
      rw [ih hbuilt]
      constructor
      · intro hanswer
        obtain ⟨p, hp⟩ := Option.isSome_iff_exists.mp hanswer
        by_cases honce : ∀ q, Shown store target e.2 q → q = p
        · exact .inl ⟨p, bare_shown hp, honce⟩
        · push Not at honce
          obtain ⟨q, hq, hne⟩ := honce
          exact .inr ⟨⟨q, p, hq, bare_shown hp, hne⟩, hanswer⟩
      · rintro (⟨p, hp, honly⟩ | ⟨-, hanswer⟩)
        · simp [bare_once hbuilt hp honly]
        · exact hanswer
    have hnone : ∀ e ∈ (store.node (store.unwrapOwnership t)).components,
        (bare store target n (store.unwrapOwnership e.2) = none ↔
          (∀ p, ¬Shown store target e.2 p) ∨ Several store target e.2 ∧ ¬Masked store target n e.2) := by
      intro e he
      have hbuilt := h.unwrapOwnership.component he
      rw [ih hbuilt]
      constructor
      · intro hanswer
        by_cases hany : ∃ p, Shown store target e.2 p
        · obtain ⟨p, hp⟩ := hany
          refine .inr ⟨?_, by simp [hanswer]⟩
          by_contra hseveral
          have honly : ∀ q, Shown store target e.2 q → q = p := by
            intro q hq
            by_contra hne
            exact hseveral ⟨q, p, hq, hp, hne⟩
          simp [bare_once hbuilt hp honly] at hanswer
        · exact .inl (not_exists.mp hany)
      · rintro (hany | ⟨hseveral, hmasked⟩)
        · exact Option.eq_none_iff_forall_ne_some.mpr fun p hp => hany p (bare_shown hp)
        · simpa [hseveral] using hmasked
    by_cases ht : store.unwrapOwnership t = target
    · have hfew : ¬Several store target t := by
        rintro ⟨p, q, hp, hq, hne⟩
        exact hne ((hp.eq_nil h ht).trans (hq.eq_nil h ht).symm)
      simp [Masked, ht, hfew]
    · have hanswer : (bare store target (n + 1) (store.unwrapOwnership t)).isSome = true ↔
          ∃ e ∈ (store.node (store.unwrapOwnership t)).components,
            (bare store target n (store.unwrapOwnership e.2)).isSome = true ∧
              ∀ e' ∈ (store.node (store.unwrapOwnership t)).components, e' ≠ e →
                bare store target n (store.unwrapOwnership e'.2) = none := by
        rw [Option.isSome_iff_exists]
        constructor
        · rintro ⟨p, hp⟩
          obtain ⟨e, he, ⟨q, hq, -⟩, hother⟩ := (bare_eq_some ht).mp hp
          exact ⟨e, he, by simp [hq], hother⟩
        · rintro ⟨e, he, hq, hother⟩
          obtain ⟨q, hq⟩ := Option.isSome_iff_exists.mp hq
          exact ⟨e.1 :: q, (bare_eq_some ht).mpr ⟨e, he, ⟨q, hq, rfl⟩, hother⟩⟩
      rw [hanswer, Masked]
      constructor
      · rintro ⟨-, hseveral, e, he, hone, hother⟩
        exact ⟨hseveral, e, he, (hsome e he).mpr hone, fun e' he' hne => (hnone e' he').mpr (hother e' he' hne)⟩
      · rintro ⟨hseveral, e, he, hone, hother⟩
        exact ⟨ht, hseveral, e, he, (hsome e he).mp hone, fun e' he' hne => (hnone e' he').mp (hother e' he' hne)⟩

/-- The source occurs at `p` and nowhere else. -/
def OnlyAt (store : Store ι) (source payload : ι) (p : Path) : Prop :=
  Occurs store (store.unwrapOwnership source) payload p ∧
    ∀ q, Occurs store (store.unwrapOwnership source) payload q → q = p

/-- The answer is the place of the only occurrence where no component masks another, unless uniqueness turns on an
occurrence behind a second qualifier. -/
theorem preservationPath_exact (payload source : ι) {n fuel : ℕ} (h : Built store n payload) (hfuel : n ≤ fuel) :
    ∃ r, preservationPath store payload source fuel = some r ∧
      ((∀ p, r = some p ↔ OnlyAt store source payload p) ↔
        ¬Masked store (store.unwrapOwnership source) n payload ∧
          ((∀ p, Occurs store (store.unwrapOwnership source) payload p →
              Shown store (store.unwrapOwnership source) payload p) ∨
            ¬Once store (store.unwrapOwnership source) payload ∧ ∀ p, ¬OnlyAt store source payload p)) := by
  have hunmarked : Harmless store (store.unwrapOwnership source) [] payload := by simp [Harmless]
  obtain ⟨seen, hwalk, -⟩ := preservedPath_eq h hfuel hunmarked
  refine ⟨_, by rw [preservationPath, hwalk]; rfl, ?_⟩
  rw [masked_iff h]
  constructor
  · intro hcorrect
    constructor
    · rintro ⟨⟨p, q, hp, hq, hne⟩, hanswer⟩
      obtain ⟨r, hr⟩ := Option.isSome_iff_exists.mp hanswer
      obtain ⟨-, honly⟩ := (hcorrect r).mp hr
      exact hne ((honly p hp.occurs).trans (honly q hq.occurs).symm)
    · by_contra hhidden
      push Not at hhidden
      obtain ⟨⟨p, hp, hnot⟩, hturns⟩ := hhidden
      have honly : ∀ q, ¬OnlyAt store source payload q := by
        intro q hq
        have hshown := bare_shown ((hcorrect q).mpr hq)
        exact hnot (hq.2 p hp ▸ hshown)
      by_cases honce : Once store (store.unwrapOwnership source) payload
      · obtain ⟨q, hq, hall⟩ := honce
        exact honly q ((hcorrect q).mp (bare_once h hq hall))
      · obtain ⟨q, hq⟩ := hturns honce
        exact honly q hq
  · rintro ⟨hmasked, hplace⟩ p
    have honce : bare store (store.unwrapOwnership source) n (store.unwrapOwnership payload) = some p →
        ∀ q, Shown store (store.unwrapOwnership source) payload q → q = p := by
      intro hp q hq
      by_contra hne
      exact hmasked ⟨⟨q, p, hq, bare_shown hp, hne⟩, by simp [hp]⟩
    rcases hplace with hall | ⟨hnever, hnowhere⟩
    · constructor
      · exact fun hp => ⟨(bare_shown hp).occurs, fun q hq => honce hp q (hall q hq)⟩
      · exact fun ⟨hp, honly⟩ => bare_once h (hall p hp) fun q hq => honly q hq.occurs
    · constructor
      · exact fun hp => absurd ⟨p, bare_shown hp, honce hp⟩ hnever
      · exact fun hp => absurd hp (hnowhere p)

end Walk

/-- `0` stands for the source, `1` for `{x: S, y: S}`, `2` for `{a: {x: S, y: S}, b: S}`, `3` for `{c: S}`. -/
def shapes : Store (Fin 4) where
  node
    | 0 => .other
    | 1 => .shape [⟨[120], some 0, none, none⟩, ⟨[121], some 0, none, none⟩] (by decide)
    | 2 => .shape [⟨[97], some 1, none, none⟩, ⟨[98], some 0, none, none⟩] (by decide)
    | 3 => .shape [⟨[99], some 0, none, none⟩] (by decide)
  id t := [UInt8.ofNat t.val]
  nilType := 0
  distinct := by decide

theorem shapes_built : Built shapes 3 2 ∧ Built shapes 3 3 := by
  have hsource : ∀ n, Built shapes (n + 1) 0 := by simp [Built, shapes, Node.components]
  have hpair : Built shapes 2 1 := by
    intro e he
    have hchild : e.2 = 0 := by revert e; decide
    exact hchild ▸ hsource 0
  constructor
  · intro e he
    have hchild : e.2 = 1 ∨ e.2 = 0 := by revert e; decide
    rcases hchild with hchild | hchild <;> rw [hchild]
    · exact hpair
    · exact hsource 1
  · intro e he
    have hchild : e.2 = 0 := by revert e; decide
    exact hchild ▸ hsource 1

theorem preservationPath_exact_field :
    Built shapes 3 3 ∧ ∃ r, preservationPath shapes 3 0 3 = some r ∧
      ((∀ p, r = some p ↔ OnlyAt shapes 0 3 p) ↔ ¬Masked shapes (shapes.unwrapOwnership 0) 3 3 ∧
        ((∀ p, Occurs shapes (shapes.unwrapOwnership 0) 3 p → Shown shapes (shapes.unwrapOwnership 0) 3 p) ∨
          ¬Once shapes (shapes.unwrapOwnership 0) 3 ∧ ∀ p, ¬OnlyAt shapes 0 3 p)) :=
  ⟨shapes_built.2, preservationPath_exact 3 0 (shapes_built.2) le_rfl⟩

theorem masked_component :
    Built shapes 3 2 ∧ preservationPath shapes 2 0 3 = some (some [[98]]) ∧ ¬OnlyAt shapes 0 2 [[98]] ∧
      Occurs shapes 0 2 [[97], [120]] ∧ Occurs shapes 0 2 [[97], [121]] ∧ Occurs shapes 0 2 [[98]] := by
  have hx : Occurs shapes 0 2 [[97], [120]] :=
    .component (e := ([97], 1)) (by decide) (.component (e := ([120], 0)) (by decide) .here)
  have hy : Occurs shapes 0 2 [[97], [121]] :=
    .component (e := ([97], 1)) (by decide) (.component (e := ([121], 0)) (by decide) .here)
  have hb : Occurs shapes 0 2 [[98]] := .component (e := ([98], 0)) (by decide) .here
  refine ⟨shapes_built.1, by decide, fun honly => ?_, hx, hy, hb⟩
  exact absurd (honly.2 _ hx) (by decide)

end Nupp.preservation
