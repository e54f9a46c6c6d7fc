import Nupp.Lua.Data
import Nupp.Lib.Visit

/-! The search for a storage-only width in a type (`storageOnlyValue` of `nupp/compiler/types/fixedwidth.nupp`), with the
module identities that it asks for. A type is the table it is, with the id it is interned under. -/

namespace Nupp.fixedwidth

open Nupp.Data

inductive PrimTag
  | int8 | int16 | uint8 | uint16 | other
deriving DecidableEq

def STORAGE_ONLY : List PrimTag := [.int8, .int16, .uint8, .uint16]

section ApiIdentity

def ROOTS : List (Bytes × Bytes) :=
  [(ascii "nupp.simd", ascii "simd"), (ascii "nupp.events", ascii "events"), (ascii "nupp.gpu", ascii "io.gpu"),
    (ascii "nupp.math", ascii "math")]

def MEMBERS : List (Bytes × Bytes) := [(ascii "nupp.__Debug", ascii "types.Debug")]

def PRIVATE_MODULES : List Bytes :=
  [ascii "nupp.gpu.api", ascii "nupp.gpu.types", ascii "nupp.gpu.operations", ascii "nupp.gpu.internal",
    ascii "nupp.gpu.layoutfacts", ascii "nupp.gpu.layout", ascii "nupp.gpu.limits"]

/-- The path is the root or lies beneath it. -/
def beneath (root path : Bytes) : Bool := path = root || path.take (root.length + 1) = root ++ ascii "."

/-- `apiidentity.canonical`; no path lies beneath two roots, so the order of `pairs` does not matter. -/
def canonical (path : Bytes) : Bytes :=
  if PRIVATE_MODULES.any fun module => beneath module path then path
  else
    match MEMBERS.find? fun member => member.1 = path with
    | some member => member.2
    | none =>
      match ROOTS.find? fun root => beneath root.1 path with
      | some root => root.2 ++ path.drop root.1.length
      | none => path

end ApiIdentity

structure Nominal (ι : Type) where
  isStruct : Bool
  originModuleName : Option Bytes
  originSealedModule : Option Bytes
  fieldOrder : List Bytes
  byname : Bytes → Option ι
  writeByname : Bytes → Option ι

structure Func (ι : Type) where
  params : List ι
  rets : List ι
  varargType : Option ι
  /-- The types of the tails of `paramPack` and `retPack`. -/
  paramTail : Option ι
  retTail : Option ι

structure Field (ι : Type) where
  read : Option ι
  write : Option ι
  type : Option ι

inductive Node (ι : Type)
  | prim (tag : PrimTag)
  | ptr (elem : ι)
  | carray (elem : ι)
  | ctype (of : ι)
  | const (inner : ι)
  | owned (inner : ι)
  | nominal (nominal : Nominal ι)
  | func (func : Func ι)
  | array (elem : ι)
  | map (key value : ι) (writeKey writeValue : Option ι)
  | tuple (elems : List ι)
  | union (members : List ι)
  | intersection (members : List ι)
  | shape (fields : List (Field ι)) (indexReadKey indexReadValue indexWriteKey indexWriteValue : Option ι)
  | other

/-- The types of a process; each is interned under an id of its own. -/
structure Store (ι : Type) where
  node : ι → Node ι
  id : ι → Bytes
  distinct : Function.Injective id

variable {ι : Type} (store : Store ι)

def Store.unwrapOwnership (t : ι) : ι :=
  match store.node t with
  | .owned inner => inner
  | _ => t

def Node.storageOnly : Node ι → Bool
  | .prim tag => tag ∈ STORAGE_ONLY
  | _ => false

/-- The physical leaves. -/
def Node.leaf : Node ι → Bool
  | .ptr _ | .carray _ | .ctype _ | .const _ => true
  | _ => false

/-- A struct, a span or a SIMD type, whose fields are physical storage. -/
def Nominal.physical (nominal : Nominal ι) : Bool :=
  nominal.isStruct || nominal.originModuleName = some (ascii "nupp.mem.span") ||
    canonical (nominal.originModuleName.getD []) = ascii "simd" ||
    canonical (nominal.originSealedModule.getD []) = ascii "simd"

/-- Searches in turn what may be nil; the first width that is found ends the search. -/
def searchAll (search : List Bytes → ι → Option (Option ι × List Bytes)) :
    List (Option ι) → List Bytes → Option (Option ι × List Bytes)
  | [], seen => some (none, seen)
  | none :: rest, seen => searchAll search rest seen
  | some t :: rest, seen =>
    match search seen t with
    | none => none
    | some (some found, seen) => some (some found, seen)
    | some (none, seen) => searchAll search rest seen

local instance : LawfulBEq Bytes := inferInstance

/-- `storageOnlyValue(t, seen)`, with the ids that are left marked; `none` where the fuel runs out. -/
def storageOnlyValue : ℕ → List Bytes → ι → Option (Option ι × List Bytes)
  | 0, _, _ => none
  | fuel + 1, seen, t =>
    let raw := store.unwrapOwnership t
    if (store.node raw).storageOnly then some (some raw, seen)
    else if (store.node raw).leaf then some (none, seen)
    else if store.id raw ∈ seen then some (none, seen)
    else
      let seen := store.id raw :: seen
      let search := storageOnlyValue fuel
      match store.node raw with
      | .nominal nominal =>
        if nominal.physical then some (none, seen)
        else searchAll search (nominal.fieldOrder.map nominal.byname) seen
      | .func func =>
        match searchAll search (func.params.map some) seen with
        | some (none, seen) => searchAll search (func.rets.map some) seen
        | found => found
      | .array elem => searchAll search [some elem] seen
      | .map _ value _ writeValue => searchAll search [some value, writeValue] seen
      | .tuple elems => searchAll search (elems.map some) seen
      | .union members | .intersection members => searchAll search (members.map some) seen
      | .shape fields indexReadKey indexReadValue indexWriteKey indexWriteValue =>
        match searchAll search (fields.flatMap fun field => [field.read, field.write, field.type]) seen with
        | some (none, seen) => searchAll search [indexReadKey, indexReadValue, indexWriteKey, indexWriteValue] seen
        | found => found
      | _ => some (none, seen)

end Nupp.fixedwidth

/-! The search for a storage-only width ends, and finds one where one stands at a position that the search lists. -/

namespace Nupp.fixedwidth

open Nupp.Data Visit

variable {ι : Type}

/-- The positions of a type that the search goes into. -/
def Node.listed : Node ι → List ι
  | .nominal n => if n.physical then [] else n.fieldOrder.filterMap n.byname
  | .func f => f.params ++ f.rets
  | .array elem => [elem]
  | .map _ value _ writeValue => value :: writeValue.toList
  | .tuple elems => elems
  | .union members | .intersection members => members
  | .shape fields indexReadKey indexReadValue indexWriteKey indexWriteValue =>
    (fields.flatMap fun field => field.read.toList ++ field.write.toList ++ field.type.toList) ++
      (indexReadKey.toList ++ indexReadValue.toList ++ indexWriteKey.toList ++ indexWriteValue.toList)
  | _ => []

/-- Map keys, the types of extra arguments and results, and what the fields of a nominal accept. -/
def Node.missed : Node ι → List ι
  | .nominal n => if n.physical then [] else n.fieldOrder.filterMap n.writeByname
  | .func f => f.varargType.toList ++ f.paramTail.toList ++ f.retTail.toList
  | .map key _ writeKey _ => key :: writeKey.toList
  | _ => []

variable (store : Store ι)

/-- The storage-only width `w` stands at a position of `t`. -/
inductive Occurs (w : ι) : ι → Prop
  | here : (store.node w).storageOnly = true → Occurs w w
  | owned {t inner : ι} : store.node t = .owned inner → Occurs w inner → Occurs w t
  | position {t c : ι} : c ∈ (store.node t).listed ++ (store.node t).missed → Occurs w c → Occurs w t

/-- It does so along listed positions, each behind at most one qualifier. -/
inductive Shown (w : ι) : ι → Prop
  | here {t : ι} : store.unwrapOwnership t = w → (store.node w).storageOnly = true → Shown w t
  | position {t c : ι} : c ∈ (store.node (store.unwrapOwnership t)).listed → Shown w c → Shown w t

/-- A list of types that holds what stands at the positions of each. -/
def Closed (all : List ι) : Prop :=
  ∀ t ∈ all, (∀ inner, store.node t = .owned inner → inner ∈ all) ∧
    ∀ c ∈ (store.node t).listed ++ (store.node t).missed, c ∈ all

def verdict (t : ι) : Option (Option ι) :=
  if (store.node t).storageOnly then some (some t)
  else if (store.node t).leaf then some none
  else none

def next (t : ι) : List ι := (store.node t).listed.map store.unwrapOwnership

variable {store}

theorem searchAll_eq {search walk : List Bytes → ι → Option (Option ι × List Bytes)}
    (h : ∀ seen t, search seen t = walk seen (store.unwrapOwnership t)) (slots : List (Option ι))
    (seen : List Bytes) :
    searchAll search slots seen = visitAll walk ((slots.filterMap id).map store.unwrapOwnership) seen := by
  induction slots generalizing seen with
  | nil => rfl
  | cons slot slots ih =>
    cases slot with
    | none => simpa [searchAll] using ih seen
    | some t =>
      cases hwalk : walk seen (store.unwrapOwnership t) with
      | none => simp [searchAll, visitAll, h, hwalk]
      | some r => obtain ⟨_ | found, seen'⟩ := r <;> simp [searchAll, visitAll, h, hwalk, ih]

theorem searchAll_append {search : List Bytes → ι → Option (Option ι × List Bytes)} (first second : List (Option ι))
    (seen : List Bytes) :
    searchAll search (first ++ second) seen =
      match searchAll search first seen with
      | some (none, seen) => searchAll search second seen
      | found => found := by
  induction first generalizing seen with
  | nil => rfl
  | cons slot first ih =>
    cases slot with
    | none => simpa [searchAll] using ih seen
    | some t =>
      cases hsearch : search seen t with
      | none => simp [searchAll, hsearch]
      | some r => obtain ⟨_ | found, seen'⟩ := r <;> simp [searchAll, hsearch, ih]

theorem filterMap_slot (slot : Option ι) (rest : List (Option ι)) :
    (slot :: rest).filterMap id = slot.toList ++ rest.filterMap id := by
  cases slot <;> rfl

theorem filterMap_fields (fields : List (Field ι)) :
    (fields.flatMap fun field => [field.read, field.write, field.type]).filterMap id =
      fields.flatMap fun field => field.read.toList ++ field.write.toList ++ field.type.toList := by
  induction fields with
  | nil => rfl
  | cons field fields ih =>
    simp only [List.flatMap_cons, List.cons_append, List.nil_append, filterMap_slot, List.append_assoc]
    rw [ih]
    simp only [List.append_assoc]

theorem storageOnlyValue_eq (fuel : ℕ) (seen : List Bytes) (t : ι) :
    storageOnlyValue store fuel seen t = visit store.id (verdict store) (next store) fuel seen
      (store.unwrapOwnership t) := by
  induction fuel generalizing seen t with
  | zero => rfl
  | succ fuel ih =>
    rw [storageOnlyValue, visit, verdict]
    generalize store.unwrapOwnership t = raw
    by_cases hstorage : (store.node raw).storageOnly = true
    · simp [hstorage]
    by_cases hleaf : (store.node raw).leaf = true
    · simp [hstorage, hleaf]
    by_cases hmarked : store.id raw ∈ seen
    · simp [hstorage, hleaf, hmarked]
    simp only [hstorage, hleaf, hmarked, if_false, Bool.false_eq_true, next]
    have hslots : ∀ slots listed, slots.filterMap id = listed → searchAll (storageOnlyValue store fuel) slots
        (store.id raw :: seen) = visitAll (visit store.id (verdict store) (next store) fuel)
          (listed.map store.unwrapOwnership) (store.id raw :: seen) := by
      rintro slots _ rfl
      exact searchAll_eq ih slots _
    have hsome : ∀ l : List ι, (l.map some).filterMap id = l := by simp [List.filterMap_map]
    cases hnode : store.node raw with
    | nominal n =>
      by_cases hphysical : n.physical = true
      · simp [hphysical, Node.listed, visitAll]
      · simp only [hphysical, if_false, Bool.false_eq_true]
        exact hslots _ _ (by simp [Node.listed, hphysical, List.filterMap_map])
    | func f =>
      refine (searchAll_append _ _ _).symm.trans (hslots _ _ ?_)
      rw [List.filterMap_append, hsome, hsome]
      rfl
    | shape fields readKey readValue writeKey writeValue =>
      refine (searchAll_append _ _ _).symm.trans (hslots _ _ ?_)
      rw [List.filterMap_append, filterMap_fields]
      simp only [filterMap_slot, List.filterMap_nil, List.append_nil, Node.listed, List.append_assoc]
    | array elem => exact hslots _ _ rfl
    | map key value writeKey writeValue => exact hslots _ _ (by cases writeValue <;> rfl)
    | tuple elems => exact hslots _ _ (hsome elems)
    | union members => exact hslots _ _ (hsome members)
    | intersection members => exact hslots _ _ (hsome members)
    | _ => rfl

theorem verdict_eq_some {t w : ι} : verdict store t = some (some w) ↔ t = w ∧ (store.node w).storageOnly = true := by
  by_cases hstorage : (store.node t).storageOnly = true
  · simp only [verdict, hstorage, if_true, Option.some.injEq]
    exact ⟨fun heq => ⟨heq, heq ▸ hstorage⟩, fun h => h.1⟩
  · refine iff_of_false ?_ fun h => hstorage (h.1 ▸ h.2)
    by_cases hleaf : (store.node t).leaf = true <;> simp [verdict, hstorage, hleaf]

theorem verdict_eq_none {t c : ι} (hc : c ∈ (store.node t).listed) : verdict store t = none := by
  cases hnode : store.node t <;> rw [hnode] at hc <;> simp [verdict, hnode, Node.storageOnly, Node.leaf] <;>
    simp [Node.listed] at hc

/-- What the search reaches. -/
theorem leads_iff (t w : ι) :
    (∃ s, Leads (verdict store) (next store) s (store.unwrapOwnership t) ∧ verdict store s = some (some w)) ↔
      Shown store w t := by
  constructor
  · rintro ⟨s, hleads, hs⟩
    obtain ⟨rfl, hstorage⟩ := verdict_eq_some.mp hs
    generalize hraw : store.unwrapOwnership t = raw at hleads
    induction hleads generalizing t with
    | refl => exact .here hraw hstorage
    | step _ hc _ ih =>
      obtain ⟨c, hlisted, rfl⟩ := List.mem_map.mp hc
      exact .position (hraw ▸ hlisted) (ih c rfl)
  · intro hshown
    induction hshown with
    | here heq hstorage => exact ⟨w, heq ▸ .refl, verdict_eq_some.mpr ⟨rfl, hstorage⟩⟩
    | position hc _ ih =>
      obtain ⟨s, hleads, hs⟩ := ih
      exact ⟨s, .step (verdict_eq_none hc) (List.mem_map.mpr ⟨_, hc, rfl⟩) hleads, hs⟩

theorem Occurs.of_unwrapOwnership {t w : ι} (h : Occurs store w (store.unwrapOwnership t)) : Occurs store w t := by
  cases hnode : store.node t <;> simp only [Store.unwrapOwnership, hnode] at h <;> try exact h
  case owned inner => exact .owned hnode h

theorem Shown.occurs {t w : ι} (h : Shown store w t) : Occurs store w t := by
  induction h with
  | here heq hstorage =>
    refine .of_unwrapOwnership ?_
    rw [heq]
    exact .here hstorage
  | position hc _ ih => exact .of_unwrapOwnership (.position (List.mem_append_left _ hc) ih)

theorem Closed.unwrapOwnership {all : List ι} (h : Closed store all) {t : ι} (ht : t ∈ all) :
    store.unwrapOwnership t ∈ all := by
  cases hnode : store.node t <;> simp only [Store.unwrapOwnership, hnode] <;> try exact ht
  case owned inner => exact (h t ht).1 inner hnode

/-- `0` stands for `int8`, `1` for `string`, `2` for `{[int8]: string}`, `3` for a record whose field `next` holds the
record and whose field `rest` holds `{int8}`, which is `4`. -/
def widths : Store (Fin 5) where
  node
    | 0 => .prim .int8
    | 1 => .prim .other
    | 2 => .map 0 1 (some 0) (some 1)
    | 3 => .nominal ⟨false, none, none, [ascii "next", ascii "rest"],
      fun name => if name = ascii "next" then some 3 else some 4,
      fun name => if name = ascii "next" then some 3 else some 4⟩
    | 4 => .array 0
  id t := [UInt8.ofNat t.val]
  distinct := by decide

theorem widths_closed : Closed widths (List.finRange 5) :=
  fun _ _ => ⟨fun _ _ => List.mem_finRange _, fun _ _ => List.mem_finRange _⟩

end Nupp.fixedwidth
