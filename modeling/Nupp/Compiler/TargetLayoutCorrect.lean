import Mathlib.Algebra.Order.Group.Nat
import Mathlib.Data.Fintype.Card
import Mathlib.Data.List.Forall2
import Mathlib.Logic.Relation
import Mathlib.Order.Bounds.Defs
import Mathlib.Tactic.SplitIfs
import Nupp.Compiler.TargetLayout
import Nupp.Lib.Result

/-! A returned layout is a C layout, and a layout is refused exactly where the type has no C form, as long as the
walk over the type meets no vector of no lanes first. -/

namespace Nupp.targetLayout

open Relation

/-! ### Alignments -/

/-- The least multiple of an alignment at or after a position. -/
abbrev IsNext (value alignment next : ℕ) : Prop := IsLeast {m | value ≤ m ∧ alignment ∣ m} next

theorem roundUp_isNext {alignment : ℕ} (h : 0 < alignment) (value : ℕ) :
    IsNext value alignment (roundUp value alignment) := by
  have hdiv := Nat.div_add_mod (value + alignment - 1) alignment
  have hmod := Nat.mod_lt (value + alignment - 1) h
  rw [Nat.mul_comm] at hdiv
  refine ⟨⟨?_, Nat.dvd_mul_left _ _⟩, fun m hm => ?_⟩
  · show value ≤ roundUp value alignment
    rw [roundUp]
    omega
  · obtain ⟨hle, k, rfl⟩ := hm
    rw [roundUp, Nat.mul_comm]
    apply Nat.mul_le_mul_left
    have hlt : value + alignment - 1 < alignment * (k + 1) := by
      rw [Nat.mul_succ]
      omega
    exact Nat.le_of_lt_succ (Nat.div_lt_of_lt_mul hlt)

def PowerOfTwo (a : ℕ) : Prop := ∃ k, a = 2 ^ k

theorem PowerOfTwo.pos {a : ℕ} (h : PowerOfTwo a) : 0 < a := by
  obtain ⟨k, rfl⟩ := h
  exact Nat.two_pow_pos k

theorem PowerOfTwo.dvd {a b : ℕ} (ha : PowerOfTwo a) (hb : PowerOfTwo b) (h : a ≤ b) : a ∣ b := by
  obtain ⟨i, rfl⟩ := ha
  obtain ⟨j, rfl⟩ := hb
  exact Nat.pow_dvd_pow 2 ((Nat.pow_le_pow_iff_right (by decide)).mp h)

theorem double_powerOfTwo (fuel : ℕ) {natural : ℕ} (h : PowerOfTwo natural) (payload : ℕ) :
    PowerOfTwo (double fuel natural payload) := by
  induction fuel generalizing natural with
  | zero => exact h
  | succ fuel ih =>
    rw [double]
    split_ifs
    · obtain ⟨k, rfl⟩ := h
      exact ih ⟨k + 1, (Nat.pow_succ 2 k).symm⟩
    · exact h

/-- The doubling ends with a width that holds the payload. -/
theorem le_double (fuel : ℕ) {natural payload : ℕ} (hpos : 0 < natural) (h : payload ≤ natural + fuel) :
    payload ≤ double fuel natural payload := by
  induction fuel generalizing natural with
  | zero => exact h
  | succ fuel ih =>
    rw [double]
    split_ifs with hlt
    · exact ih (by omega) (by omega)
    · omega

/-- An alignment that is a power of two and divides its size. -/
def Aligned (size alignment : ℕ) : Prop := PowerOfTwo alignment ∧ alignment ∣ size

theorem scalar_aligned (k : ℕ) : Aligned (scalar (2 ^ k)).size (scalar (2 ^ k)).alignment :=
  ⟨⟨k, rfl⟩, Nat.dvd_refl _⟩

/-- What the targets promise: the cap is a power of two, and the scalars are aligned. -/
structure Model.Sound (model : Model) : Prop where
  cap : PowerOfTwo model.maximumAlignment
  pointer : Aligned model.pointer.size model.pointer.alignment
  int64 : Aligned model.int64.size model.int64.alignment
  number : Aligned model.number.size model.number.alignment

theorem model_sound {key : String} {model : Model} (h : MODELS.lookup key = some model) : model.Sound := by
  have h4 : Aligned 4 4 := scalar_aligned 2
  have h8 : Aligned 8 8 := scalar_aligned 3
  have h84 : Aligned 8 4 := ⟨⟨2, rfl⟩, by decide⟩
  obtain ⟨before, after, hsplit, -⟩ := List.lookup_eq_some_iff.mp h
  have hmem : model ∈ MODELS.map Prod.snd := by
    rw [hsplit]
    simp
  have hcases : model = LP64 ∨ model = ILP32_SYSV ∨ model = ILP32_MSVC ∨ model = WASM32 := by
    simpa [ MODELS] using hmem
  rcases hcases with rfl | rfl | rfl | rfl
  · exact ⟨⟨4, rfl⟩, h8, h8, h8⟩
  · exact ⟨⟨3, rfl⟩, h4, h84, h84⟩
  · exact ⟨⟨3, rfl⟩, h4, h8, h8⟩
  · exact ⟨⟨4, rfl⟩, h4, h8, h8⟩

theorem fixed_aligned {tag : Tag} {fixed : Scalar} (h : FIXED tag = some fixed) : Aligned fixed.size fixed.alignment := by
  cases tag <;> first
    | exact Option.some.inj h ▸ scalar_aligned 0
    | exact Option.some.inj h ▸ scalar_aligned 1
    | exact Option.some.inj h ▸ scalar_aligned 2
    | cases h

theorem tag_aligned {model : Model} (hmodel : model.Sound) {tag : Tag} {s : Scalar} (h : tag.layout model = some s) :
    Aligned s.size s.alignment := by
  rw [Tag.layout] at h
  split at h
  · next fixed hfixed =>
    obtain rfl := Option.some.inj h
    exact fixed_aligned hfixed
  · split_ifs at h
    · exact Option.some.inj h ▸ hmodel.number
    · exact Option.some.inj h ▸ hmodel.int64
    · exact Option.some.inj h ▸ hmodel.pointer

theorem elementBytes_powerOfTwo {tag : Tag} {bytes : ℤ} (h : VECTOR_ELEMENT_BYTES tag = some bytes) :
    1 ≤ bytes ∧ PowerOfTwo bytes.toNat := by
  cases tag <;> cases h
  all_goals
    refine ⟨by decide, ?_⟩
    first
      | exact ⟨0, rfl⟩
      | exact ⟨1, rfl⟩
      | exact ⟨2, rfl⟩
      | exact ⟨3, rfl⟩

theorem PowerOfTwo.min {a b : ℕ} (ha : PowerOfTwo a) (hb : PowerOfTwo b) : PowerOfTwo (min a b) := by
  rcases Nat.le_total a b with hle | hle
  · rwa [Nat.min_eq_left hle]
  · rwa [Nat.min_eq_right hle]

theorem vector_aligned {key : String} {bytes lanes : ℤ} {laid : Vector} (hbytes : PowerOfTwo bytes.toNat)
    (h : vector key bytes lanes = .ok laid) : Aligned laid.size laid.alignment := by
  rw [vector] at h
  cases hmodel : MODELS.lookup key with
  | none =>
    rw [hmodel] at h
    cases h
  | some model =>
    rw [hmodel] at h
    dsimp only at h
    split_ifs at h with hshape hcap
    · obtain rfl := Except.ok.inj h
      exact ⟨hbytes, (roundUp_isNext hbytes.pos _).1.2⟩
    · obtain rfl := Except.ok.inj h
      have halign := (double_powerOfTwo (bytes.toNat * lanes.toNat) hbytes (bytes.toNat * lanes.toNat)).min
        (model_sound hmodel).cap
      exact ⟨halign, (roundUp_isNext halign.pos _).1.2⟩

theorem vector_isOk {key : String} {model : Model} (hmodel : MODELS.lookup key = some model) {bytes : ℤ}
    (hbytes : 1 ≤ bytes) (lanes : ℤ) : (∃ laid, vector key bytes lanes = .ok laid) ↔ 1 ≤ lanes := by
  rw [vector, hmodel]
  dsimp only
  by_cases hlanes : 1 ≤ lanes
  · rw [if_neg (by omega)]
    exact iff_of_true ⟨_, rfl⟩ hlanes
  · rw [if_pos (by omega)]
    exact iff_of_false (by rintro ⟨laid, h⟩; cases h) hlanes

/-! ### Fields -/

/-- Each field at the next multiple of its alignment after the one before it. -/
def Placed : ℕ → List Field → Prop
  | _, [] => True
  | cursor, field :: rest => IsNext cursor field.alignment field.offset ∧ Placed (field.offset + field.size) rest

def endOf : ℕ → List Field → ℕ
  | cursor, [] => cursor
  | _, field :: rest => endOf (field.offset + field.size) rest

theorem placed_snoc (cursor : ℕ) (fields : List Field) (last : Field) : Placed cursor (fields ++ [last]) ↔
    Placed cursor fields ∧ IsNext (endOf cursor fields) last.alignment last.offset := by
  induction fields generalizing cursor with
  | nil => simp [Placed, endOf]
  | cons field fields ih => rw [List.cons_append, Placed, Placed, ih, endOf, and_assoc]

theorem endOf_snoc (cursor : ℕ) (fields : List Field) (last : Field) :
    endOf cursor (fields ++ [last]) = last.offset + last.size := by
  induction fields generalizing cursor with
  | nil => rfl
  | cons field fields ih => exact ih _

/-- What holds of the fields placed so far. -/
structure Placement.Valid (placed : Placement) : Prop where
  order : Placed 0 placed.fields
  cursor : placed.cursor = endOf 0 placed.fields
  power : PowerOfTwo placed.alignment
  divides : ∀ field ∈ placed.fields, field.alignment ∣ placed.alignment

theorem Placement.Valid.add {placed : Placement} (h : placed.Valid) (name : String) {one : Measured}
    (hone : Aligned one.size one.alignment) : (placed.add name one).Valid := by
  have hlarger : placed.alignment ∣ (placed.add name one).alignment ∧
      one.alignment ∣ (placed.add name one).alignment ∧ PowerOfTwo (placed.add name one).alignment := by
    rw [Placement.add]
    dsimp only
    split_ifs with hlt
    · exact ⟨h.power.dvd hone.1 hlt.le, Nat.dvd_refl _, hone.1⟩
    · exact ⟨Nat.dvd_refl _, hone.1.dvd h.power (not_lt.mp hlt), h.power⟩
  constructor
  · refine (placed_snoc 0 placed.fields _).mpr ⟨h.order, ?_⟩
    rw [← h.cursor]
    exact roundUp_isNext hone.1.pos _
  · exact (endOf_snoc 0 placed.fields ⟨name, _, _, _⟩).symm
  · exact hlarger.2.2
  · intro field hfield
    rcases List.mem_append.mp hfield with hold | hnew
    · exact Nat.dvd_trans (h.divides field hold) hlarger.1
    · obtain rfl := List.mem_singleton.mp hnew
      exact hlarger.2.1

section
variable {n : ℕ} {layout layout' : Ty n → Except Stop Measured} {declared : List (String × Option (Ty n))}
  {placed laid : Placement} {stop : Stop}

/-- A refusal under the field's name. -/
def Stop.inField (name : String) : Stop → Stop
  | .refused why => .refused (.field name why)
  | stop => stop

theorem layoutField_ok {d : String × Option (Ty n)} : layoutField layout placed d = .ok laid ↔
    ∃ t one, d.2 = some t ∧ layout t = .ok one ∧ laid = placed.add d.1 one := by
  obtain ⟨name, t⟩ := d
  cases t with
  | none => simp [layoutField]
  | some t =>
    cases hone : layout t with
    | ok one => simp [layoutField, hone, eq_comm]
    | error stop => cases stop <;> simp [layoutField, hone]

theorem layoutField_error {d : String × Option (Ty n)} (h : layoutField layout placed d = .error stop) :
    (d.2 = none ∧ stop = .refused (.field d.1 .unresolved)) ∨
      ∃ t inner, d.2 = some t ∧ layout t = .error inner ∧ stop = inner.inField d.1 := by
  obtain ⟨name, t⟩ := d
  cases t with
  | none => exact .inl ⟨rfl, (Except.error.inj h).symm⟩
  | some t =>
    cases hone : layout t with
    | ok one => simp [layoutField, hone] at h
    | error inner =>
      refine .inr ⟨t, inner, rfl, hone, ?_⟩
      cases inner <;> simp [layoutField, hone] at h <;> exact h.symm

/-- The field a declared type is given. -/
def FieldOf (layout : Ty n → Except Stop Measured) (d : String × Option (Ty n)) (field : Field) : Prop :=
  field.name = d.1 ∧ ∃ t one, d.2 = some t ∧ layout t = .ok one ∧ field.size = one.size ∧ field.alignment = one.alignment

theorem layoutFields_ok (h : declared.foldlM (layoutField layout) placed = .ok laid) :
    ∃ fields, laid.fields = placed.fields ++ fields ∧ List.Forall₂ (FieldOf layout) declared fields := by
  induction declared generalizing placed with
  | nil => exact ⟨[], by rw [List.append_nil, ← Except.ok.inj h], .nil⟩
  | cons d declared ih =>
    rw [List.foldlM_cons] at h
    obtain ⟨next, hnext, h⟩ := Result.bind_eq_ok.mp h
    obtain ⟨t, one, ht, hone, rfl⟩ := (layoutField_ok).mp hnext
    obtain ⟨fields, hfields, hall⟩ := ih h
    refine ⟨⟨d.1, roundUp placed.cursor one.alignment, one.size, one.alignment⟩ :: fields, ?_,
      .cons ⟨rfl, t, one, ht, hone, rfl, rfl⟩ hall⟩
    rw [hfields, Placement.add, List.append_assoc]
    rfl

theorem fieldOf_each {fields : List Field} (hall : List.Forall₂ (FieldOf layout) declared fields) :
    ∀ d ∈ declared, ∃ t one, d.2 = some t ∧ layout t = .ok one := by
  induction hall with
  | nil => simp
  | cons hd _ ih =>
    obtain ⟨-, t, one, ht, hone, -⟩ := hd
    rintro d (_ | ⟨_, hmem⟩)
    · exact ⟨t, one, ht, hone⟩
    · exact ih d hmem

theorem layoutFields_error (h : declared.foldlM (layoutField layout) placed = .error stop) :
    ∃ before d after, declared = before ++ d :: after ∧
      (∀ e ∈ before, ∃ t one, e.2 = some t ∧ layout t = .ok one) ∧
      ((d.2 = none ∧ stop = .refused (.field d.1 .unresolved)) ∨
        ∃ t inner, d.2 = some t ∧ layout t = .error inner ∧ stop = inner.inField d.1) := by
  induction declared generalizing placed with
  | nil => cases h
  | cons d declared ih =>
    rw [List.foldlM_cons] at h
    cases hnext : layoutField layout placed d with
    | error stop' =>
      rw [hnext] at h
      obtain rfl := Except.error.inj h
      exact ⟨[], d, declared, rfl, by simp, layoutField_error hnext⟩
    | ok next =>
      rw [hnext] at h
      obtain ⟨before, e, after, rfl, hbefore, hstop⟩ := ih h
      obtain ⟨t, one, ht, hone, -⟩ := (layoutField_ok).mp hnext
      refine ⟨d :: before, e, after, rfl, ?_, hstop⟩
      rintro e' (_ | ⟨_, he'⟩)
      · exact ⟨t, one, ht, hone⟩
      · exact hbefore e' he'

/-- More layouts change nothing where there was one for every field. -/
theorem layoutFields_mono (hmono : ∀ t one, layout t = .ok one → layout' t = .ok one)
    (h : declared.foldlM (layoutField layout) placed = .ok laid) :
    declared.foldlM (layoutField layout') placed = .ok laid := by
  induction declared generalizing placed with
  | nil => exact h
  | cons d declared ih =>
    rw [List.foldlM_cons] at h ⊢
    obtain ⟨next, hnext, h⟩ := Result.bind_eq_ok.mp h
    obtain ⟨t, one, ht, hone, rfl⟩ := (layoutField_ok).mp hnext
    rw [(layoutField_ok).mpr ⟨t, one, ht, hmono t one hone, rfl⟩]
    exact ih h

theorem layoutFields_valid (haligned : ∀ t one, layout t = .ok one → Aligned one.size one.alignment)
    (hvalid : placed.Valid) (h : declared.foldlM (layoutField layout) placed = .ok laid) : laid.Valid := by
  refine Result.foldlM_ok h hvalid ?_
  intro d _ s t hs hstep
  obtain ⟨fieldType, one, -, hone, rfl⟩ := (layoutField_ok).mp hstep
  exact hs.add d.1 (haligned fieldType one hone)

end

/-! ### The walk over a type -/

section
variable {canonical : String → String} {key : String} {model : Model} {n : ℕ} {structs : Structs n}
  {fuel fuel' : ℕ} {active active' : List (Fin n)} {t c : Ty n} {id : Fin n} {m : Measured} {stop : Stop}

theorem layout_induction {P : ℕ → List (Fin n) → Ty n → Prop}
    (tagged : ∀ fuel active tag, P fuel active (.tagged tag))
    (union : ∀ fuel active members hasNil, P fuel active (.union members hasNil))
    (carray : ∀ fuel active elem count, P fuel active elem → P fuel active (.carray elem count))
    (nominal : ∀ fuel active origin typeArgs, P fuel active (.nominal origin typeArgs))
    (out : ∀ active id, P 0 active (.struct id))
    (struct : ∀ fuel active id, (∀ t, P fuel (id :: active) t) → P (fuel + 1) active (.struct id))
    (fuel : ℕ) (active : List (Fin n)) (t : Ty n) : P fuel active t := by
  induction fuel generalizing active t with
  | zero =>
    induction t with
    | tagged tag => exact tagged 0 active tag
    | union members hasNil => exact union 0 active members hasNil
    | carray elem count ih => exact carray 0 active elem count ih
    | nominal origin typeArgs => exact nominal 0 active origin typeArgs
    | struct id => exact out active id
  | succ fuel ihfuel =>
    induction t with
    | tagged tag => exact tagged _ active tag
    | union members hasNil => exact union _ active members hasNil
    | carray elem count ih => exact carray _ active elem count ih
    | nominal origin typeArgs => exact nominal _ active origin typeArgs
    | struct id => exact struct fuel active id fun t => ihfuel (id :: active) t

/-- Nil and a pointer. -/
def NullablePointer (members : List Tag) (hasNil : Bool) : Prop :=
  hasNil = true ∧ ∃ first second, members = [first, second] ∧
    (if first = .nil then second else first).isPointer = true

theorem layoutUnion_ok {members : List Tag} {hasNil : Bool} : layoutUnion model members hasNil = .ok m ↔
    NullablePointer members hasNil ∧ m = ⟨model.pointer.size, model.pointer.alignment, []⟩ := by
  unfold layoutUnion
  split
  · next first second =>
    by_cases hpointer : (if first = .nil then second else first).isPointer = true
    · have hnullable : NullablePointer [first, second] true := ⟨rfl, first, second, rfl, hpointer⟩
      simp only [hpointer, if_true, Except.ok.injEq, hnullable, true_and]
      exact eq_comm
    · have hnot : ¬NullablePointer [first, second] true := by
        rintro ⟨-, first', second', heq, hpointer'⟩
        obtain ⟨hfirst, heq⟩ := List.cons.inj heq
        obtain ⟨hsecond, -⟩ := List.cons.inj heq
        rw [← hfirst, ← hsecond] at hpointer'
        exact hpointer hpointer'
      simp [hpointer, hnot]
  · next hne =>
    refine iff_of_false (by simp) ?_
    rintro ⟨⟨rfl, first, second, rfl, -⟩, -⟩
    exact hne first second rfl rfl

theorem layoutUnion_error {members : List Tag} {hasNil : Bool}
    (h : layoutUnion model members hasNil = .error stop) : stop = .refused (.shape "union") := by
  unfold layoutUnion at h
  split at h
  · dsimp only at h
    split_ifs at h <;> exact (Except.error.inj h).symm
  · exact (Except.error.inj h).symm

theorem storageVector_bytes {origin : Origin} {typeArgs : List Argument} {element : Tag} {lanes : ℤ}
    (h : storageVector canonical origin typeArgs = some (element, lanes)) :
    ∃ bytes, VECTOR_ELEMENT_BYTES element = some bytes := by
  rw [storageVector] at h
  split_ifs at h
  split at h
  · split_ifs at h with hbytes
    split at h
    · obtain ⟨rfl, -⟩ := Prod.mk.inj (Option.some.inj h)
      exact Option.ne_none_iff_exists'.mp hbytes
    · cases h
  · cases h

/-- A vector of a fixed species with at least one lane. -/
def FixedVector (canonical : String → String) (origin : Origin) (typeArgs : List Argument) : Prop :=
  ∃ element lanes, storageVector canonical origin typeArgs = some (element, lanes) ∧ 1 ≤ lanes

/-- A vector of a fixed species without a lane. -/
def EmptyVector (canonical : String → String) (origin : Origin) (typeArgs : List Argument) : Prop :=
  ∃ element lanes, storageVector canonical origin typeArgs = some (element, lanes) ∧ lanes < 1

theorem not_fixedVector_of_empty {origin : Origin} {typeArgs : List Argument}
    (h : EmptyVector canonical origin typeArgs) : ¬FixedVector canonical origin typeArgs := by
  rintro ⟨element, lanes, hstored, hlanes⟩
  obtain ⟨element', lanes', hstored', hlanes'⟩ := h
  obtain ⟨-, rfl⟩ := Prod.mk.inj (Option.some.inj (hstored.symm.trans hstored'))
  omega

theorem layoutNominal_ok (hkey : MODELS.lookup key = some model) {origin : Origin} {typeArgs : List Argument}
    (h : layoutNominal canonical key origin typeArgs = .ok m) :
    FixedVector canonical origin typeArgs ∧ Aligned m.size m.alignment := by
  rw [layoutNominal] at h
  split at h
  · next element lanes hstored =>
    obtain ⟨bytes, hbytes⟩ := storageVector_bytes hstored
    obtain ⟨hone, hpower⟩ := elementBytes_powerOfTwo hbytes
    rw [hbytes, Option.getD_some] at h
    split at h
    · next laid hlaid =>
      obtain rfl := Except.ok.inj h
      exact ⟨⟨element, lanes, hstored, (vector_isOk hkey hone lanes).mp ⟨laid, hlaid⟩⟩, vector_aligned hpower hlaid⟩
    · cases h
  · split_ifs at h

theorem layoutNominal_error (hkey : MODELS.lookup key = some model) {origin : Origin} {typeArgs : List Argument}
    (h : layoutNominal canonical key origin typeArgs = .error stop) :
    ¬FixedVector canonical origin typeArgs ∧
      ((stop = .raised ∧ EmptyVector canonical origin typeArgs) ∨
        (∃ why, stop = .refused why) ∧ ¬EmptyVector canonical origin typeArgs) := by
  rw [layoutNominal] at h
  split at h
  · next element lanes hstored =>
    obtain ⟨bytes, hbytes⟩ := storageVector_bytes hstored
    obtain ⟨hone, -⟩ := elementBytes_powerOfTwo hbytes
    rw [hbytes, Option.getD_some] at h
    split at h
    · cases h
    · next message hrefused =>
      have hlanes : ¬1 ≤ lanes := by
        rintro hlanes
        obtain ⟨laid, hlaid⟩ := (vector_isOk hkey hone lanes).mpr hlanes
        rw [hlaid] at hrefused
        cases hrefused
      have hempty : EmptyVector canonical origin typeArgs := ⟨element, lanes, hstored, not_le.mp hlanes⟩
      exact ⟨not_fixedVector_of_empty hempty, .inl ⟨(Except.error.inj h).symm, hempty⟩⟩
  · next hstored =>
    have hnone (element : Tag) (lanes : ℤ) : storageVector canonical origin typeArgs ≠ some (element, lanes) := by
      rw [hstored]
      simp
    refine ⟨fun ⟨element, lanes, h, _⟩ => hnone element lanes h, .inr ⟨?_, fun ⟨element, lanes, h, _⟩ =>
      hnone element lanes h⟩⟩
    split_ifs at h <;> exact ⟨_, (Except.error.inj h).symm⟩

theorem carray_ok {elem : Ty n} {count : Option ℤ} :
    layoutType canonical key model structs fuel active (.carray elem count) = .ok m ↔
      ∃ k e, count = some k ∧ 0 ≤ k ∧ layoutType canonical key model structs fuel active elem = .ok e ∧
        m = ⟨e.size * k.toNat, e.alignment, []⟩ := by
  cases count with
  | none => simp [layoutType, layoutWith]
  | some k =>
    rw [layoutType, layoutWith]
    by_cases hk : k < 0
    · rw [if_pos hk]
      simp only [reduceCtorEq, Option.some.injEq, false_iff]
      rintro ⟨_, e, rfl, hk', -⟩
      omega
    · rw [if_neg hk, Result.bind_eq_ok]
      simp only [Except.ok.injEq, Option.some.injEq]
      constructor
      · rintro ⟨e, he, rfl⟩
        exact ⟨k, e, rfl, by omega, he, rfl⟩
      · rintro ⟨_, e, rfl, -, he, rfl⟩
        exact ⟨e, he, rfl⟩

theorem carray_error {elem : Ty n} {count : Option ℤ}
    (h : layoutType canonical key model structs fuel active (.carray elem count) = .error stop) :
    ((∀ k, count = some k → k < 0) ∧ stop = .refused .unsized) ∨
      ∃ k, count = some k ∧ 0 ≤ k ∧ layoutType canonical key model structs fuel active elem = .error stop := by
  cases count with
  | none => exact .inl ⟨nofun, (Except.error.inj h).symm⟩
  | some k =>
    rw [layoutType, layoutWith] at h
    by_cases hk : k < 0
    · simp only [if_pos hk, Except.error.injEq] at h
      exact .inl ⟨fun k' hk' => Option.some.inj hk' ▸ hk, h.symm⟩
    · simp only [if_neg hk] at h
      refine .inr ⟨k, rfl, by omega, ?_⟩
      cases he : layoutWith canonical key model (layoutStruct canonical key model structs fuel active) elem with
      | error stop' =>
        rw [he] at h
        rw [layoutType, he]
        exact h
      | ok e =>
        rw [he] at h
        cases h

theorem struct_ok : layoutType canonical key model structs (fuel + 1) active (.struct id) = .ok m ↔
    id ∉ active ∧ ∃ placed, placed.fields ≠ [] ∧
      (structs id).foldlM (layoutField (layoutType canonical key model structs fuel (id :: active))) ⟨[], 0, 1⟩ =
        .ok placed ∧ m = ⟨roundUp placed.cursor placed.alignment, placed.alignment, placed.fields⟩ := by
  rw [layoutType, layoutWith, layoutStruct]
  by_cases hactive : id ∈ active
  · simp [hactive]
  · rw [if_neg hactive, Result.bind_eq_ok]
    constructor
    · rintro ⟨placed, hplaced, h⟩
      split_ifs at h with hempty
      exact ⟨hactive, placed, hempty, hplaced, (Except.ok.inj h).symm⟩
    · rintro ⟨-, placed, hempty, hplaced, rfl⟩
      exact ⟨placed, hplaced, if_neg hempty⟩

theorem struct_error (h : layoutType canonical key model structs (fuel + 1) active (.struct id) = .error stop) :
    (id ∈ active ∧ stop = .refused .cycle) ∨
      (id ∉ active ∧
        (structs id).foldlM (layoutField (layoutType canonical key model structs fuel (id :: active))) ⟨[], 0, 1⟩ =
          .error stop) ∨
      (structs id = [] ∧ stop = .refused .empty) := by
  rw [layoutType, layoutWith, layoutStruct] at h
  by_cases hactive : id ∈ active
  · rw [if_pos hactive] at h
    exact .inl ⟨hactive, (Except.error.inj h).symm⟩
  · rw [if_neg hactive] at h
    cases hplaced : (structs id).foldlM
        (layoutField (layoutType canonical key model structs fuel (id :: active))) ⟨[], 0, 1⟩ with
    | error stop' =>
      rw [layoutType] at hplaced
      rw [hplaced, Result.error_bind] at h
      exact .inr (.inl ⟨hactive, congrArg Except.error (Except.error.inj h)⟩)
    | ok placed =>
      obtain ⟨fields, hfields, hall⟩ := layoutFields_ok hplaced
      rw [layoutType] at hplaced
      rw [hplaced, Result.ok_bind] at h
      split_ifs at h with hempty
      rw [hfields, List.nil_append] at hempty
      subst hempty
      exact .inr (.inr ⟨List.forall₂_nil_right_iff.mp hall, (Except.error.inj h).symm⟩)

/-- A layout stays the same where fewer structs are active and more may be entered. -/
theorem layoutType_mono (h : layoutType canonical key model structs fuel active t = .ok m) (hfuel : fuel ≤ fuel')
    (hactive : active' ⊆ active) : layoutType canonical key model structs fuel' active' t = .ok m := by
  induction fuel, active, t using layout_induction generalizing fuel' active' m with
  | tagged | union | nominal => exact h
  | carray fuel active elem count ih =>
    obtain ⟨k, e, hcount, hk, he, hm⟩ := (carray_ok).mp h
    exact (carray_ok).mpr ⟨k, e, hcount, hk, ih he hfuel hactive, hm⟩
  | out => cases h
  | struct fuel active id ih =>
    obtain ⟨fuel', rfl⟩ := Nat.exists_eq_add_of_le' (Nat.lt_of_lt_of_le (Nat.succ_pos fuel) hfuel)
    obtain ⟨hid, placed, hempty, hplaced, hm⟩ := (struct_ok).mp h
    refine (struct_ok).mpr ⟨fun hmem => hid (hactive hmem), placed, hempty, ?_, hm⟩
    exact layoutFields_mono
      (fun t one hone => ih t hone (Nat.le_of_succ_le_succ hfuel) (List.cons_subset_cons id hactive)) hplaced

theorem layoutType_aligned (hkey : MODELS.lookup key = some model)
    (h : layoutType canonical key model structs fuel active t = .ok m) : Aligned m.size m.alignment := by
  have hmodel := model_sound hkey
  induction fuel, active, t using layout_induction generalizing m with
  | tagged fuel active tag =>
    rw [layoutType, layoutWith] at h
    split at h
    · next s hs =>
      obtain rfl := Except.ok.inj h
      exact tag_aligned hmodel hs
    · cases h
  | union fuel active members hasNil =>
    obtain ⟨-, rfl⟩ := (layoutUnion_ok).mp h
    exact hmodel.pointer
  | carray fuel active elem count ih =>
    obtain ⟨k, e, -, -, he, rfl⟩ := (carray_ok).mp h
    obtain ⟨hpower, hdvd⟩ := ih he
    exact ⟨hpower, Nat.dvd_mul_right_of_dvd hdvd _⟩
  | nominal fuel active origin typeArgs =>
    exact (layoutNominal_ok hkey h).2
  | out => cases h
  | struct fuel active id ih =>
    obtain ⟨-, placed, -, hplaced, rfl⟩ := (struct_ok).mp h
    have hstart : Placement.Valid ⟨[], 0, 1⟩ := ⟨trivial, rfl, ⟨0, rfl⟩, by simp⟩
    have hvalid := layoutFields_valid (fun t one hone => ih t hone) hstart hplaced
    exact ⟨hvalid.power, (roundUp_isNext hvalid.power.pos _).1.2⟩

/-! ### Components without a C form -/

/-- What a type holds by value: an array its elements, a struct its fields. -/
inductive Part (structs : Structs n) : Ty n → Ty n → Prop
  | element {elem : Ty n} {count : Option ℤ} : Part structs (.carray elem count) elem
  | field {id : Fin n} {name : String} {t : Ty n} : (name, some t) ∈ structs id → Part structs (.struct id) t

/-- An unsized array, an empty struct, a mask or a vector of a tier-dependent species, or anything else that is
neither a scalar, a pointer nor a vector of some lanes. -/
def Formless (canonical : String → String) (structs : Structs n) : Ty n → Prop
  | .tagged tag => ∀ model, tag.layout model = none
  | .union members hasNil => ¬NullablePointer members hasNil
  | .carray _ count => ∀ k, count = some k → k < 0
  | .nominal origin typeArgs => ¬FixedVector canonical origin typeArgs
  | .struct id => structs id = [] ∨ ∃ name, (name, none) ∈ structs id

def Cyclic (structs : Structs n) (t : Ty n) : Prop := ∃ id, t = .struct id ∧ TransGen (Part structs) t t

/-- A component by value has no C form or lies on a by-value cycle. -/
def Unlayable (canonical : String → String) (structs : Structs n) (t : Ty n) : Prop :=
  ∃ c, ReflTransGen (Part structs) t c ∧ (Formless canonical structs c ∨ Cyclic structs c)

theorem Unlayable.of_part (hpart : Part structs t c) (h : Unlayable canonical structs c) :
    Unlayable canonical structs t := by
  obtain ⟨d, hreach, hd⟩ := h
  exact ⟨d, .head hpart hreach, hd⟩

theorem layout_model_irrel {tag : Tag} {model model' : Model} (h : tag.layout model = none) :
    tag.layout model' = none := by
  cases tag <;> first | rfl | cases h

/-- A laid out type has a C form, and so have its parts, while the struct that holds them is active. -/
theorem ok_parts (hkey : MODELS.lookup key = some model)
    (h : layoutType canonical key model structs fuel active t = .ok m) : ¬Formless canonical structs t ∧
      ∀ c, Part structs t c → ∃ fuel' active' m', layoutType canonical key model structs fuel' active' c = .ok m' ∧
        active ⊆ active' ∧ ∀ id, t = .struct id → id ∈ active' := by
  cases t with
  | tagged tag =>
    refine ⟨fun hnone => ?_, nofun⟩
    rw [layoutType, layoutWith, hnone model] at h
    cases h
  | union members hasNil => exact ⟨not_not_intro ((layoutUnion_ok).mp h).1, nofun⟩
  | carray elem count =>
    obtain ⟨k, e, rfl, hk, he, -⟩ := (carray_ok).mp h
    refine ⟨fun hnone => not_lt.mpr hk (hnone k rfl), ?_⟩
    rintro c (_ | _)
    exact ⟨fuel, active, e, he, List.Subset.refl active, nofun⟩
  | nominal origin typeArgs => exact ⟨not_not_intro (layoutNominal_ok hkey h).1, nofun⟩
  | struct id =>
    cases fuel with
    | zero => cases h
    | succ fuel =>
      obtain ⟨-, placed, hempty, hplaced, -⟩ := (struct_ok).mp h
      obtain ⟨fields, hfields, hall⟩ := layoutFields_ok hplaced
      rw [List.nil_append] at hfields
      constructor
      · rintro (hnone | ⟨name, hmem⟩)
        · rw [hnone, List.forall₂_nil_left_iff] at hall
          exact hempty (hfields.trans hall)
        · obtain ⟨t, one, ht, -⟩ := fieldOf_each hall _ hmem
          cases ht
      · rintro c (_ | hmem)
        obtain ⟨t, one, ht, hone⟩ := fieldOf_each hall _ hmem
        obtain rfl := Option.some.inj ht
        refine ⟨fuel, id :: active, one, hone, List.subset_cons_self id active, fun id' heq => ?_⟩
        rw [← Ty.struct.inj heq]
        exact List.mem_cons_self

theorem ok_reach (hkey : MODELS.lookup key = some model)
    (h : layoutType canonical key model structs fuel active t = .ok m) (hreach : ReflTransGen (Part structs) t c) :
    ∃ fuel' active' m', layoutType canonical key model structs fuel' active' c = .ok m' ∧ active ⊆ active' := by
  induction hreach with
  | refl => exact ⟨fuel, active, m, h, List.Subset.refl active⟩
  | tail _ hpart ih =>
    obtain ⟨fuel', active', m', hm', hsubset⟩ := ih
    obtain ⟨fuel'', active'', m'', hm'', hsubset', -⟩ := (ok_parts hkey hm').2 _ hpart
    exact ⟨fuel'', active'', m'', hm'', List.Subset.trans hsubset hsubset'⟩

theorem not_unlayable_of_ok (hkey : MODELS.lookup key = some model)
    (h : layoutType canonical key model structs fuel active t = .ok m) : ¬Unlayable canonical structs t := by
  rintro ⟨c, hreach, hc⟩
  obtain ⟨fuel', active', m', hm', -⟩ := ok_reach hkey h hreach
  rcases hc with hformless | ⟨id, rfl, hcycle⟩
  · exact (ok_parts hkey hm').1 hformless
  · -- round the cycle, the struct is met again while it is active
    obtain ⟨d, hpart, hback⟩ := TransGen.head'_iff.mp hcycle
    obtain ⟨fuel'', active'', m'', hm'', -, hactive⟩ := (ok_parts hkey hm').2 d hpart
    obtain ⟨fuel₃, active₃, m₃, hm₃, hsubset⟩ := ok_reach hkey hm'' hback
    have hmem : id ∈ active₃ := hsubset (hactive id rfl)
    cases fuel₃ with
    | zero => cases hm₃
    | succ fuel₃ => exact ((struct_ok).mp hm₃).1 hmem

/-- The structs that are active hold the type. -/
abbrev Held (R : Ty n → Ty n → Prop) (active : List (Fin n)) (t : Ty n) : Prop :=
  ∀ id ∈ active, TransGen R (.struct id) t

theorem held_nil {R : Ty n → Ty n → Prop} : Held R [] t := fun _ hid => absurd hid List.not_mem_nil

theorem Held.step {R : Ty n → Ty n → Prop} (h : Held R active t) (hstep : R t c) : Held R active c :=
  fun id hid => (h id hid).tail hstep

theorem Held.enter {R : Ty n → Ty n → Prop} (h : Held R active (.struct id)) (hstep : R (.struct id) c) :
    Held R (id :: active) c := by
  rintro id' (_ | ⟨_, hid'⟩)
  · exact .single hstep
  · exact (h id' hid').tail hstep

theorem unlayable_of_refused {why : Refusal} (hkey : MODELS.lookup key = some model) (hheld : Held (Part structs) active t)
    (h : layoutType canonical key model structs fuel active t = .error (.refused why)) :
    Unlayable canonical structs t := by
  induction fuel, active, t using layout_induction generalizing why with
  | tagged fuel active tag =>
    rw [layoutType, layoutWith] at h
    split at h
    · cases h
    · next hnone => exact ⟨_, .refl, .inl fun _ => layout_model_irrel hnone⟩
  | union fuel active members hasNil =>
    refine ⟨_, .refl, .inl fun hnullable => ?_⟩
    have hok : layoutUnion model members hasNil = .ok _ := (layoutUnion_ok).mpr ⟨hnullable, rfl⟩
    rw [layoutType, layoutWith, hok] at h
    cases h
  | carray fuel active elem count ih =>
    rcases carray_error h with ⟨hunsized, -⟩ | ⟨k, -, -, helem⟩
    · exact ⟨_, .refl, .inl hunsized⟩
    · exact .of_part .element (ih (hheld.step .element) helem)
  | nominal fuel active origin typeArgs => exact ⟨_, .refl, .inl (layoutNominal_error hkey h).1⟩
  | out => cases h
  | struct fuel active id ih =>
    rcases struct_error h with ⟨hid, -⟩ | ⟨-, hfields⟩ | ⟨hempty, -⟩
    · exact ⟨_, .refl, .inr ⟨id, rfl, hheld id hid⟩⟩
    · obtain ⟨before, d, after, hsplit, -, hd⟩ := layoutFields_error hfields
      have hmem : d ∈ structs id := by
        rw [hsplit]
        simp
      obtain ⟨name, fieldType⟩ := d
      rcases hd with ⟨rfl, -⟩ | ⟨t, inner, rfl, hinner, hstop⟩
      · exact ⟨_, .refl, .inl (.inr ⟨name, hmem⟩)⟩
      · cases inner with
        | refused why' => exact .of_part (.field hmem) (ih t (hheld.enter (.field hmem)) hinner)
        | raised => cases hstop
        | unfinished => cases hstop
    · exact ⟨_, .refl, .inl (.inl hempty)⟩

/-! ### The component the walk stops at -/

/-- From an array to its element and from a struct to its first field that cannot be laid out. -/
inductive Next (canonical : String → String) (structs : Structs n) : Ty n → Ty n → Prop
  | element {elem : Ty n} {k : ℤ} : 0 ≤ k → Next canonical structs (.carray elem (some k)) elem
  | field {id : Fin n} {name : String} {t : Ty n} {before after : List (String × Option (Ty n))} :
    structs id = before ++ (name, some t) :: after →
    (∀ d ∈ before, ∃ t, d.2 = some t ∧ ¬Unlayable canonical structs t) → Unlayable canonical structs t →
    Next canonical structs (.struct id) t

/-- The walk arrives at a vector without lanes. -/
def MeetsEmptyVector (canonical : String → String) (structs : Structs n) (t : Ty n) : Prop :=
  ∃ origin typeArgs, ReflTransGen (Next canonical structs) t (.nominal origin typeArgs) ∧
    EmptyVector canonical origin typeArgs

theorem Next.part (h : Next canonical structs t c) : Part structs t c := by
  cases h with
  | element => exact .element
  | field hsplit => exact .field (hsplit ▸ List.mem_append_right _ List.mem_cons_self)

theorem Next.le_part : Next canonical structs ≤ Part structs := fun _ _ => Next.part

theorem unlayable_of_meets (h : MeetsEmptyVector canonical structs t) : Unlayable canonical structs t := by
  obtain ⟨origin, typeArgs, hreach, hempty⟩ := h
  exact ⟨.nominal origin typeArgs, ReflTransGen.mono Next.le_part _ _ hreach,
    .inl (not_fixedVector_of_empty hempty)⟩

/-- In two lists cut at a first failing element, the cuts are the same. -/
theorem cut_unique {α : Type} {p : α → Prop} {before before' after after' : List α} {a a' : α}
    (hbefore : ∀ x ∈ before, p x) (ha : ¬p a) (hbefore' : ∀ x ∈ before', p x) (ha' : ¬p a')
    (h : before ++ a :: after = before' ++ a' :: after') : before = before' ∧ a = a' := by
  induction before generalizing before' with
  | nil =>
    cases before' with
    | nil => exact ⟨rfl, (List.cons.inj h).1⟩
    | cons b before' => exact absurd ((List.cons.inj h).1 ▸ hbefore' b List.mem_cons_self) ha
  | cons b before ih =>
    cases before' with
    | nil => exact absurd ((List.cons.inj h).1 ▸ hbefore b List.mem_cons_self) ha'
    | cons b' before' =>
      obtain ⟨rfl, htail⟩ := List.cons.inj h
      obtain ⟨rfl, rfl⟩ := ih (fun x hx => hbefore x (List.mem_cons_of_mem b hx))
        (fun x hx => hbefore' x (List.mem_cons_of_mem b hx)) htail
      exact ⟨rfl, rfl⟩

/-- A field that can be laid out. -/
def Layable (canonical : String → String) (structs : Structs n) (d : String × Option (Ty n)) : Prop :=
  ∃ t, d.2 = some t ∧ ¬Unlayable canonical structs t

theorem not_layable_of_unlayable {name : String} (h : Unlayable canonical structs t) :
    ¬Layable canonical structs (name, some t) := by
  rintro ⟨t', ht', hnot⟩
  obtain rfl := Option.some.inj ht'
  exact hnot h

theorem Next.unique {c' : Ty n} (h : Next canonical structs t c) (h' : Next canonical structs t c') : c = c' := by
  cases h with
  | element => cases h' with | element => rfl
  | field hsplit hbefore hunlayable =>
    cases h' with
    | field hsplit' hbefore' hunlayable' =>
      have hcut := (cut_unique (p := Layable canonical structs) hbefore (not_layable_of_unlayable hunlayable) hbefore'
        (not_layable_of_unlayable hunlayable') (hsplit.symm.trans hsplit')).2
      exact Option.some.inj (Prod.mk.inj hcut).2

/-- A walk on a cycle goes on for ever. -/
theorem not_meets_of_cycle (h : TransGen (Next canonical structs) t t) : ¬MeetsEmptyVector canonical structs t := by
  rintro ⟨origin, typeArgs, hreach, -⟩
  have hall (c : Ty n) (hreach : ReflTransGen (Next canonical structs) t c) :
      TransGen (Next canonical structs) c c := by
    induction hreach with
    | refl => exact h
    | tail _ hstep ih =>
      obtain ⟨d, hd, hback⟩ := TransGen.head'_iff.mp ih
      obtain rfl := hd.unique hstep
      exact TransGen.tail' hback hd
  obtain ⟨d, hd, -⟩ := TransGen.head'_iff.mp (hall _ hreach)
  cases hd

theorem meets_next (hstep : Next canonical structs t c) :
    MeetsEmptyVector canonical structs t ↔ MeetsEmptyVector canonical structs c := by
  constructor
  · rintro ⟨origin, typeArgs, hreach, hempty⟩
    rcases ReflTransGen.cases_head hreach with heq | ⟨d, hd, hreach⟩
    · rw [heq] at hstep
      cases hstep
    · obtain rfl := hd.unique hstep
      exact ⟨origin, typeArgs, hreach, hempty⟩
  · rintro ⟨origin, typeArgs, hreach, hempty⟩
    exact ⟨origin, typeArgs, .head hstep hreach, hempty⟩

theorem not_meets_of_stuck (hstuck : ∀ c, ¬Next canonical structs t c)
    (h : ∀ origin typeArgs, t = .nominal origin typeArgs → ¬EmptyVector canonical origin typeArgs) :
    ¬MeetsEmptyVector canonical structs t := by
  rintro ⟨origin, typeArgs, hreach, hempty⟩
  rcases ReflTransGen.cases_head hreach with heq | ⟨d, hd, -⟩
  · exact h origin typeArgs heq hempty
  · exact hstuck d hd

/-- The first field whose layout fails is the next component. -/
theorem next_of_error (hkey : MODELS.lookup key = some model) {before after : List (String × Option (Ty n))}
    {name : String} (hsplit : structs id = before ++ (name, some t) :: after)
    (hbefore : ∀ e ∈ before, ∃ t one, e.2 = some t ∧
      layoutType canonical key model structs fuel active t = .ok one) (h : Unlayable canonical structs t) :
    Next canonical structs (.struct id) t := by
  refine .field hsplit (fun d hd => ?_) h
  obtain ⟨t', one, ht', hone⟩ := hbefore d hd
  exact ⟨t', ht', not_unlayable_of_ok hkey hone⟩

theorem meets_of_raised (hkey : MODELS.lookup key = some model)
    (h : layoutType canonical key model structs fuel active t = .error .raised) :
    MeetsEmptyVector canonical structs t := by
  induction fuel, active, t using layout_induction with
  | tagged fuel active tag =>
    rw [layoutType, layoutWith] at h
    split at h <;> cases h
  | union fuel active members hasNil => cases layoutUnion_error h
  | carray fuel active elem count ih =>
    rcases carray_error h with ⟨-, hstop⟩ | ⟨k, rfl, hk, helem⟩
    · cases hstop
    · exact (meets_next (.element hk)).mpr (ih helem)
  | nominal fuel active origin typeArgs =>
    rcases (layoutNominal_error hkey h).2 with ⟨-, hempty⟩ | ⟨⟨why, hstop⟩, -⟩
    · exact ⟨origin, typeArgs, .refl, hempty⟩
    · cases hstop
  | out => cases h
  | struct fuel active id ih =>
    rcases struct_error h with ⟨-, hstop⟩ | ⟨-, hfields⟩ | ⟨-, hstop⟩
    · cases hstop
    · obtain ⟨before, ⟨name, fieldType⟩, after, hsplit, hbefore, hd⟩ := layoutFields_error hfields
      rcases hd with ⟨-, hstop⟩ | ⟨t, inner, rfl, hinner, hstop⟩
      · cases hstop
      · cases inner with
        | raised =>
          have hmeets := ih t hinner
          exact (meets_next (next_of_error hkey hsplit hbefore (unlayable_of_meets hmeets))).mpr hmeets
        | refused | unfinished => cases hstop
    · cases hstop

theorem not_meets_of_refused {why : Refusal} (hkey : MODELS.lookup key = some model)
    (hheld : Held (Next canonical structs) active t)
    (h : layoutType canonical key model structs fuel active t = .error (.refused why)) :
    ¬MeetsEmptyVector canonical structs t := by
  induction fuel, active, t using layout_induction generalizing why with
  | tagged | union => exact not_meets_of_stuck nofun nofun
  | carray fuel active elem count ih =>
    rcases carray_error h with ⟨hunsized, -⟩ | ⟨k, rfl, hk, helem⟩
    · refine not_meets_of_stuck ?_ nofun
      rintro c (@⟨_, k, hk⟩)
      exact not_lt.mpr hk (hunsized k rfl)
    · rw [meets_next (.element hk)]
      exact ih (hheld.step (.element hk)) helem
  | nominal fuel active origin typeArgs =>
    rcases (layoutNominal_error hkey h).2 with ⟨hstop, -⟩ | ⟨-, hnot⟩
    · cases hstop
    · refine not_meets_of_stuck nofun fun origin' typeArgs' heq => ?_
      obtain ⟨rfl, rfl⟩ := Ty.nominal.inj heq
      exact hnot
  | out => cases h
  | struct fuel active id ih =>
    rcases struct_error h with ⟨hid, -⟩ | ⟨-, hfields⟩ | ⟨hempty, -⟩
    · exact not_meets_of_cycle (hheld id hid)
    · obtain ⟨before, ⟨name, fieldType⟩, after, hsplit, hbefore, hd⟩ := layoutFields_error hfields
      rcases hd with ⟨rfl, -⟩ | ⟨t, inner, rfl, hinner, hstop⟩
      · -- the unresolved field stands where the next component would
        refine not_meets_of_stuck ?_ nofun
        rintro c (_ | ⟨hsplit', hbefore', hunlayable⟩)
        have hlayable : ∀ e ∈ before, Layable canonical structs e := fun e he => by
          obtain ⟨t, one, ht, hone⟩ := hbefore e he
          exact ⟨t, ht, not_unlayable_of_ok hkey hone⟩
        have hnone : ¬Layable canonical structs (name, none) := by
          rintro ⟨t, ht, -⟩
          cases ht
        have hcut := (cut_unique hlayable hnone hbefore' (not_layable_of_unlayable hunlayable)
          (hsplit.symm.trans hsplit')).2
        cases hcut
      · cases inner with
        | refused why' =>
          have hpart : Held (Part structs) active (.struct id) := fun id' hid' =>
            TransGen.mono Next.le_part _ _ (hheld id' hid')
          have hfield : Part structs (.struct id) t := .field (hsplit ▸ List.mem_append_right _ List.mem_cons_self)
          have hstep := next_of_error hkey hsplit hbefore (unlayable_of_refused hkey (hpart.enter hfield) hinner)
          rw [meets_next hstep]
          exact ih t (hheld.enter hstep) hinner
        | raised | unfinished => cases hstop
    · refine not_meets_of_stuck ?_ nofun
      rintro c (_ | ⟨hsplit, -, -⟩)
      rw [hempty] at hsplit
      exact absurd hsplit (by simp)

/-- Every struct is active once at most, so the fuel lasts. -/
theorem layoutType_finishes (hkey : MODELS.lookup key = some model) (hnodup : active.Nodup) (hfuel : n + 1 ≤ fuel + active.length) :
    layoutType canonical key model structs fuel active t ≠ .error .unfinished := by
  intro h
  induction fuel, active, t using layout_induction with
  | tagged fuel active tag =>
    rw [layoutType, layoutWith] at h
    split at h <;> cases h
  | union fuel active members hasNil => cases layoutUnion_error h
  | carray fuel active elem count ih =>
    rcases carray_error h with ⟨-, hstop⟩ | ⟨k, -, -, helem⟩
    · cases hstop
    · exact ih hnodup hfuel helem
  | nominal fuel active origin typeArgs =>
    rcases (layoutNominal_error hkey h).2 with ⟨hstop, -⟩ | ⟨⟨why, hstop⟩, -⟩ <;> cases hstop
  | out active id =>
    have hle := hnodup.length_le_card
    rw [Fintype.card_fin] at hle
    omega
  | struct fuel active id ih =>
    rcases struct_error h with ⟨-, hstop⟩ | ⟨hid, hfields⟩ | ⟨-, hstop⟩
    · cases hstop
    · obtain ⟨before, d, after, -, -, hd⟩ := layoutFields_error hfields
      rcases hd with ⟨-, hstop⟩ | ⟨t, inner, -, hinner, hstop⟩
      · cases hstop
      · cases inner with
        | unfinished =>
          refine ih t (List.nodup_cons.mpr ⟨hid, hnodup⟩) ?_ hinner
          rw [List.length_cons]
          omega
        | refused | raised => cases hstop
    · cases hstop

/-! ### Layouts of a target -/

/-- What C says of a type's layout: a power of two that divides the size, fields in order, each next after the one
before it and with the layout of its own type, and no more padding at the end than the alignment asks for. -/
structure IsCLayout (canonical : String → String) (key : String) (structs : Structs n) (t : Ty n) (layout : Layout) :
    Prop where
  power : PowerOfTwo layout.alignment
  divides : layout.alignment ∣ layout.size
  elements : ∀ i, layout.alignment ∣ i * layout.size
  order : Placed 0 layout.fields
  aligned : ∀ field ∈ layout.fields, field.alignment ∣ layout.alignment
  least : ∀ id, t = .struct id → IsNext (endOf 0 layout.fields) layout.alignment layout.size
  declared : ∀ id, t = .struct id → List.Forall₂ (fun d field => field.name = d.1 ∧ ∃ fieldType inner,
    d.2 = some fieldType ∧ layoutOf canonical key structs (some fieldType) = .ok inner ∧
      field.size = inner.size ∧ field.alignment = inner.alignment) (structs id) layout.fields

theorem layoutOf_eq (hkey : MODELS.lookup key = some model) (t : Ty n) : layoutOf canonical key structs (some t) =
    (layoutType canonical key model structs (n + 1) [] t).map (report key) := by
  rw [layoutOf, hkey]
  dsimp only
  cases layoutType canonical key model structs (n + 1) [] t <;> rfl

theorem fields_of_ok (h : layoutType canonical key model structs fuel active t = .ok m)
    (hplain : ∀ id, t ≠ .struct id) : m.fields = [] := by
  cases t with
  | tagged tag =>
    rw [layoutType, layoutWith] at h
    split at h
    · exact Except.ok.inj h ▸ rfl
    · cases h
  | union members hasNil =>
    obtain ⟨-, rfl⟩ := (layoutUnion_ok).mp h
    rfl
  | carray elem count =>
    obtain ⟨k, e, -, -, -, rfl⟩ := (carray_ok).mp h
    rfl
  | nominal origin typeArgs =>
    rw [layoutType, layoutWith, layoutNominal] at h
    split at h
    · split at h
      · exact Except.ok.inj h ▸ rfl
      · cases h
    · split_ifs at h
  | struct id => exact absurd rfl (hplain id)

theorem isCLayout_of_ok (hkey : MODELS.lookup key = some model) {layout : Layout}
    (h : layoutOf canonical key structs (some t) = .ok layout) : IsCLayout canonical key structs t layout := by
  rw [layoutOf_eq hkey] at h
  cases hm : layoutType canonical key model structs (n + 1) [] t with
  | error stop =>
    rw [hm] at h
    cases h
  | ok m =>
    rw [hm] at h
    obtain rfl := Except.ok.inj h
    obtain ⟨hpower, hdvd⟩ := layoutType_aligned hkey hm
    by_cases hstruct : ∃ id, t = .struct id
    · obtain ⟨id, rfl⟩ := hstruct
      obtain ⟨-, placed, -, hplaced, rfl⟩ := (struct_ok).mp hm
      have hstart : Placement.Valid ⟨[], 0, 1⟩ := ⟨trivial, rfl, ⟨0, rfl⟩, by simp⟩
      have hvalid := layoutFields_valid (fun t one hone => layoutType_aligned hkey hone) hstart hplaced
      obtain ⟨fields, hfields, hall⟩ := layoutFields_ok hplaced
      rw [List.nil_append] at hfields
      refine ⟨hpower, hdvd, fun i => Nat.dvd_mul_left_of_dvd hdvd i, hvalid.order, hvalid.divides, ?_, ?_⟩
      · rintro id' -
        show IsNext (endOf 0 placed.fields) placed.alignment (roundUp placed.cursor placed.alignment)
        rw [← hvalid.cursor]
        exact roundUp_isNext hvalid.power.pos placed.cursor
      · rintro id' heq
        obtain rfl := Ty.struct.inj heq
        rw [report, hfields]
        refine hall.imp ?_
        rintro d field ⟨hname, t, one, ht, hone, hsize, halignment⟩
        refine ⟨hname, t, report key one, ht, ?_, hsize, halignment⟩
        rw [layoutOf_eq hkey, layoutType_mono hone (Nat.le_succ n) (List.nil_subset _)]
        rfl
    · have hplain : ∀ id, t ≠ .struct id := fun id heq => hstruct ⟨id, heq⟩
      have hnone := fields_of_ok hm hplain
      refine ⟨hpower, hdvd, fun i => Nat.dvd_mul_left_of_dvd hdvd i, ?_, ?_, fun id heq => absurd heq (hplain id),
        fun id heq => absurd heq (hplain id)⟩
      · rw [report, hnone]
        trivial
      · rw [report, hnone]
        simp

end

/-- A struct of one vector without lanes. -/
def emptyVectorStruct : Structs 1 := fun _ =>
  [("v", some (.nominal ⟨"simd", "Vector"⟩ [.tagged .float, .nominal ⟨"simd", "Fixed"⟩ [.integer 0]]))]

/-- A byte and a double. -/
def byteAndNumber : Structs 1 := fun _ => [("tag", some (.tagged .uint8)), ("value", some (.tagged .number))]

end Nupp.targetLayout
