import Nupp.Lib.Whole
import Nupp.Types.PredicateField
import Nupp.Types.PredicateNormal

/-! `types/constrain`: a scalar type narrowed to a range of values or of byte lengths, and the runs
of such calls, each narrowing what the one before returned. -/

namespace Nupp.constrain

open Double Nupp.Data Nupp.predicate

def MAX_EXACT_INTEGER : Number := .ofInt 9007199254740991

/-- The value domain each base admits. -/
def RANGE_DOMAIN : Prim → Option (Number × Number)
  | .integer => some (.ofInt (-9007199254740991), .ofInt 9007199254740991)
  | .int32 => some (.ofInt (-2147483648), .ofInt 2147483647)
  | .uint32 => some (.ofInt 0, .ofInt 4294967295)
  | _ => none

/-- A scalar type, constrained where it has a predicate. -/
structure Scalar where
  base : Prim
  predicate : Option Node

/-- The arguments of a call after the type. -/
structure Call where
  low : Number
  high : Number
  lengthwise : Bool

section Definition

variable (tostring : Scalar → Bytes)

/-- `%d` of a whole number. -/
def digits : Number → Bytes
  | .finite x => (if x.value < 0 then [45] else []) ++ Decimal.numeral ⌊|x.value|⌋.toNat
  | _ => []

/-- Why a base carries no range or no length constraint, where it does not. -/
def refused (t : Scalar) (lengthwise : Bool) : Option Bytes :=
  if lengthwise then
    if t.base ≠ .string then some (ascii "a length constraint needs a string base, got " ++ tostring t) else none
  else if (RANGE_DOMAIN t.base).isNone then
    some (ascii "a range constraint needs an integer, int32 or uint32 base, got " ++ tostring t)
  else none

/-- `floor` and `ceiling` -/
def limits (t : Scalar) (lengthwise : Bool) : Number × Number :=
  if lengthwise then (.ofInt 0, .infinity false)
  else (RANGE_DOMAIN t.base).getD (.nan, .nan)

def least (x : Number) : Node := .cmp .ge [] (Constant.number x).literal (.number x)

def greatest (x : Number) : Node := .cmp .le [] (Constant.number x).literal (.number x)

/-- The refinement that a call adds. -/
def bounds (c : Call) : Node :=
  let comparison : Node := .junction .and (least c.low) (greatest c.high)
  if c.lengthwise then .len [] comparison else .junction .and (.integral []) comparison

/-- A type narrowed to bounds, inclusive, by value or by byte length, or the reason it is refused. -/
def build (t : Scalar) (c : Call) : Except Bytes Scalar :=
  match refused tostring t c.lengthwise with
  | some why => .error why
  | none =>
    if !isIntegral c.low || !isIntegral c.high || MAX_EXACT_INTEGER.lt c.low.abs || MAX_EXACT_INTEGER.lt c.high.abs then
      .error (ascii "a bound must be an exact integer")
    else if c.high.lt c.low then
      .error (ascii "the bounds " ++ digits c.low ++ ascii ".." ++ digits c.high ++ ascii " are in descending order")
    else if c.low.lt (limits t c.lengthwise).1 || (limits t c.lengthwise).2.lt c.high then
      .error (ascii "the bounds " ++ digits c.low ++ ascii ".." ++ digits c.high ++ ascii " leave what " ++
        tostring ⟨t.base, none⟩ ++ ascii " admits")
    else match t.predicate with
      | none => .ok ⟨t.base, some (predicate.normalize (bounds c))⟩
      | some existing =>
        if disjoint existing (bounds c) then
          .error (digits c.low ++ ascii ".." ++ digits c.high ++ ascii " admits nothing " ++ tostring t ++
              ascii " does")
        else .ok ⟨t.base, some (predicate.normalize (.junction .and existing (bounds c)))⟩

/-- `isA` between types of one base, constrained or not. -/
def isA (a b : Scalar) : Bool :=
  a.base = b.base && match a.predicate, b.predicate with
    | some p, some q => implies p q
    | none, some _ => false
    | _, none => true

/-- What a run of calls has come to: the type, and the calls that returned one. -/
structure Chain where
  type : Scalar
  taken : List Call

def Chain.next (s : Chain) (c : Call) : Chain :=
  match build tostring s.type c with
  | .ok t => ⟨t, s.taken ++ [c]⟩
  | .error _ => s

/-- A run of calls, each of the type that the last one to return a type returned. -/
def run (base : Prim) (calls : List Call) : Chain := calls.foldl (Chain.next tostring) ⟨⟨base, none⟩, []⟩

end Definition

section Meaning

/-- The bounds lie in the domain of a base. -/
def Inside (l h : ℤ) : Prim → Bool → Prop
  | .string, true => 0 ≤ l
  | .integer, false => True
  | .int32, false => -2147483648 ≤ l ∧ h ≤ 2147483647
  | .uint32, false => 0 ≤ l ∧ h ≤ 4294967295
  | _, _ => False

/-- The bounds are exact integers in ascending order inside the base's domain. -/
def Valid (base : Prim) (c : Call) : Prop :=
  ∃ l h : ℤ, c.low.Is l ∧ c.high.Is h ∧ |l| < 2 ^ 53 ∧ |h| < 2 ^ 53 ∧ l ≤ h ∧ Inside l h base c.lengthwise

/-- An integer lies between the bounds. -/
def Call.Has (c : Call) (n : ℤ) : Prop := ∃ l h : ℤ, c.low.Is l ∧ c.high.Is h ∧ l ≤ n ∧ n ≤ h

/-- The intervals have an integer in common. -/
def Meet (calls : List Call) : Prop := ∃ n : ℤ, ∀ c ∈ calls, c.Has n

variable {ι : Type}

/-- What a constraint of a base measures of a value: a string's length, or an integer itself. -/
def Measures (base : Prim) (v : predicate.Value ι) (n : ℤ) : Prop :=
  if base = .string then ∃ s, v = .scalar (.string s) ∧ n = s.length else ∃ x, v = .scalar (.number x) ∧ x.Is n

/-- Where a call would return a type, Lua reads the written bounds as the bounds, and a length
constraint has a length in common with those before. -/
def Fits (host : Host ι) (base : Prim) (taken : List Call) (c : Call) : Prop :=
  Valid base c →
    (host.source (numberText c.low) = some (.number c.low) ∧ host.source (numberText c.high) = some (.number c.high)) ∧
      (c.lengthwise = true → Meet (taken ++ [c]))

end Meaning

section Accepted

variable {tostring : Scalar → Bytes} {base : Prim} {c : Call} {n : ℤ}

theorem refused_eq_none (t : Scalar) (lengthwise : Bool) :
    refused tostring t lengthwise = none ↔
      (lengthwise = true ∧ t.base = .string) ∨ (lengthwise = false ∧ (RANGE_DOMAIN t.base).isSome = true) := by
  unfold refused
  cases lengthwise with
  | true => by_cases h : t.base = .string <;> simp [h]
  | false => cases RANGE_DOMAIN t.base <;> simp

theorem lt_eq_false_iff {a b : Number} {p q : ℤ} (ha : a.Is p) (hb : b.Is q) : a.lt b = false ↔ q ≤ p := by
  rw [← Bool.not_eq_true, lt_iff ha hb, not_lt]
  exact Int.cast_le

/-- Where a constraint of its kind is carried, the limits are those of the domain. -/
theorem limits_iff {t : Scalar} {l h : ℤ} (hl : c.low.Is l) (hh : c.high.Is h) (hlsize : |l| < 2 ^ 53)
    (hhsize : |h| < 2 ^ 53) :
    (refused tostring t c.lengthwise = none ∧
        (c.low.lt (limits t c.lengthwise).1 || (limits t c.lengthwise).2.lt c.high) = false) ↔
      Inside l h t.base c.lengthwise := by
  have hint : ∀ m : ℤ, |m| < 2 ^ 53 → (Number.ofInt m).Is m := by
    intro m hm
    have := abs_lt.mp hm
    exact is_ofInt (by omega)
  have hdomain : ∀ low high : ℤ, |low| < 2 ^ 53 → |high| < 2 ^ 53 →
      ((c.low.lt (.ofInt low) || (Number.ofInt high).lt c.high) = false ↔ low ≤ l ∧ h ≤ high) := by
    intro low high hlow hhigh
    rw [Bool.or_eq_false_iff, lt_eq_false_iff hl (hint low hlow), lt_eq_false_iff (hint high hhigh) hh]
  rw [refused_eq_none]
  cases c.lengthwise with
  | true =>
    have hceiling : (Number.infinity false).lt c.high = false := by
      obtain ⟨x, hx, -⟩ := hh
      rw [hx]
      rfl
    have hfloor : c.low.lt (.ofInt 0) = false ↔ 0 ≤ l := lt_eq_false_iff hl (hint 0 (by norm_num))
    cases t.base <;> simp [limits, Inside, hceiling, hfloor]
  | false =>
    have hinteger := hdomain (-9007199254740991) 9007199254740991 (by norm_num) (by norm_num)
    have hint32 := hdomain (-2147483648) 2147483647 (by norm_num) (by norm_num)
    have huint32 := hdomain 0 4294967295 (by norm_num) (by norm_num)
    cases hbase : t.base <;> simp only [limits, hbase, RANGE_DOMAIN, Inside, Bool.false_eq_true, if_false,
      Option.getD_some, Option.isSome_some, Option.isSome_none, hinteger, hint32, huint32, and_false, false_and,
      or_false, false_or, and_true, true_and, reduceCtorEq]
    case integer =>
      have hl53 := abs_lt.mp hlsize
      have hh53 := abs_lt.mp hhsize
      refine iff_of_true ⟨by omega, by omega⟩ trivial

theorem max_is : MAX_EXACT_INTEGER.Is ((9007199254740991 : ℤ) : ℚ) := is_ofInt (by norm_num)

/-- A call passes every guard on its bounds exactly if it is valid. -/
theorem guards_iff (t : Scalar) : (refused tostring t c.lengthwise = none ∧
    (!isIntegral c.low || !isIntegral c.high || MAX_EXACT_INTEGER.lt c.low.abs ||
        MAX_EXACT_INTEGER.lt c.high.abs) = false ∧
      c.high.lt c.low = false ∧
        (c.low.lt (limits t c.lengthwise).1 || (limits t c.lengthwise).2.lt c.high) = false) ↔ Valid t.base c := by
  have habs : ∀ {x : Number} {m : ℤ}, x.Is m → (MAX_EXACT_INTEGER.lt x.abs = false ↔ |m| < 2 ^ 53) := by
    intro x m hx
    have hcast : x.abs.Is ((|m| : ℤ) : ℚ) := by
      rw [Int.cast_abs]
      exact is_abs hx
    rw [lt_eq_false_iff max_is hcast]
    omega
  constructor
  · rintro ⟨hrefused, hexact, horder, hlimits⟩
    simp only [Bool.or_eq_false_iff, Bool.not_eq_false'] at hexact
    obtain ⟨⟨⟨hlow, hhigh⟩, hlsize⟩, hhsize⟩ := hexact
    obtain ⟨l, hl⟩ := mod_one_eq_zero_iff.mp hlow
    obtain ⟨h, hh⟩ := mod_one_eq_zero_iff.mp hhigh
    have hl53 := (habs hl).mp hlsize
    have hh53 := (habs hh).mp hhsize
    exact ⟨l, h, hl, hh, hl53, hh53, (lt_eq_false_iff hh hl).mp horder,
      (limits_iff hl hh hl53 hh53).mp ⟨hrefused, hlimits⟩⟩
  · rintro ⟨l, h, hl, hh, hl53, hh53, hle, hinside⟩
    obtain ⟨hrefused, hlimits⟩ := (@limits_iff tostring c t l h hl hh hl53 hh53).mpr hinside
    refine ⟨hrefused, ?_, (lt_eq_false_iff hh hl).mpr hle, hlimits⟩
    simp only [Bool.or_eq_false_iff, Bool.not_eq_false']
    exact ⟨⟨⟨mod_one_eq_zero_iff.mpr ⟨l, hl⟩, mod_one_eq_zero_iff.mpr ⟨h, hh⟩⟩, (habs hl).mpr hl53⟩, (habs hh).mpr hh53⟩

/-- What a call returns a type exactly for: valid bounds that are not found apart from the constraint there is. -/
theorem build_eq_ok {t t' : Scalar} : build tostring t c = .ok t' ↔ Valid t.base c ∧
    (∀ existing, t.predicate = some existing → disjoint existing (bounds c) = false) ∧
      t' = ⟨t.base, some (predicate.normalize
        (t.predicate.elim (bounds c) fun existing => .junction .and existing (bounds c)))⟩ := by
  rw [← @guards_iff tostring c t]
  unfold build
  rcases hrefused : refused tostring t c.lengthwise with _ | why
  · rcases hexact : (!isIntegral c.low || !isIntegral c.high || MAX_EXACT_INTEGER.lt c.low.abs ||
      MAX_EXACT_INTEGER.lt c.high.abs) with _ | _
    · rcases horder : c.high.lt c.low with _ | _
      · rcases hlimits : (c.low.lt (limits t c.lengthwise).1 || (limits t c.lengthwise).2.lt c.high) with _ | _
        · rcases t.predicate with _ | existing
          · simp only [Bool.false_eq_true, if_false, Except.ok.injEq, true_and, and_true, reduceCtorEq, false_implies,
              implies_true, Option.elim_none]
            exact eq_comm
          · rcases hdisjoint : disjoint existing (bounds c) with _ | _
            · simp only [Bool.false_eq_true, if_false, Except.ok.injEq, true_and, and_true, Option.some.injEq,
                forall_eq', hdisjoint, Option.elim_some]
              exact eq_comm
            · simp only [Bool.false_eq_true, if_false, if_true, reduceCtorEq, Option.some.injEq, forall_eq', hdisjoint,
                Bool.true_eq_false, false_and, and_false]
        · simp only [Bool.false_eq_true, if_false, if_true, reduceCtorEq, Bool.true_eq_false, false_and, and_false]
      · simp only [Bool.false_eq_true, if_false, if_true, reduceCtorEq, Bool.true_eq_false, false_and, and_false]
    · simp only [if_true, reduceCtorEq, Bool.true_eq_false, false_and, and_false]
  · simp only [reduceCtorEq, false_and]

end Accepted

section Shapes

variable {ι : Type} {host : Host ι} {base : Prim} {taken : List Call} {c : Call} {p : Node}

/-- The bounds of a call read back as they are. -/
def Reread (host : Host ι) (c : Call) : Prop :=
  host.source (numberText c.low) = some (.number c.low) ∧ host.source (numberText c.high) = some (.number c.high)

/-- The part of a length constraint, its bounds in canonical order. -/
def lengthPart (c : Call) : Node := .len [] (.junction .and (greatest c.high) (least c.low))

/-- The parts of what a run of calls has come to. -/
def parts (base : Prim) (taken : List Call) : List Node :=
  if base = .string then taken.map lengthPart
  else .integral [] :: taken.flatMap fun c => [least c.low, greatest c.high]

theorem plain_of_mem_parts (hp : p ∈ parts base taken) : ∀ op a b, p ≠ .junction op a b := by
  rintro op a b rfl
  unfold parts at hp
  split at hp
  · simp [lengthPart] at hp
  · simp [least, greatest] at hp

theorem before_greatest_least (x y : Number) : before (greatest x) (least y) = true := by
  have hless : less (key (greatest x)) (key (least y)) = true := by
    simp [key, greatest, least, less, Comparison.text, ascii]
  simp [before, rank, greatest, least] at hless ⊢
  exact hless

theorem readable_least (h : Reread host c) {m : ℤ} (hm : c.low.Is m) : least c.low ∈ Readable host := by
  refine ⟨trivial, h.1, ?_⟩
  obtain ⟨x, hx, -⟩ := hm
  simp [hx]

theorem readable_greatest (h : Reread host c) {m : ℤ} (hm : c.high.Is m) : greatest c.high ∈ Readable host := by
  refine ⟨trivial, h.2, ?_⟩
  obtain ⟨x, hx, -⟩ := hm
  simp [hx]

theorem readable_bounds (h : Reread host c) (hvalid : Valid base c) :
    least c.low ∈ Readable host ∧ greatest c.high ∈ Readable host := by
  obtain ⟨l, u, hl, hu, -⟩ := hvalid
  exact ⟨readable_least h hl, readable_greatest h hu⟩

theorem readable_lengthPart (h : Reread host c) (hvalid : Valid base c) : lengthPart c ∈ Readable host := by
  obtain ⟨hleast, hgreatest⟩ := readable_bounds h hvalid
  refine ⟨⟨fun a b => by simp [greatest], trivial, trivial, fun q hq => ?_⟩, hgreatest.2, hleast.2⟩
  rw [flatten_eq_self fun a b => by simp [least]] at hq
  rw [List.mem_singleton.mp hq]
  exact before_greatest_least _ _

theorem readable_parts (h : ∀ d ∈ taken, Reread host d ∧ Valid base d) (hp : p ∈ parts base taken) :
    p ∈ Readable host := by
  unfold parts at hp
  split at hp
  · obtain ⟨d, hd, rfl⟩ := List.mem_map.mp hp
    exact readable_lengthPart (h d hd).1 (h d hd).2
  · rcases List.mem_cons.mp hp with rfl | hp
    · exact ⟨trivial, trivial⟩
    · obtain ⟨d, hd, hp⟩ := List.mem_flatMap.mp hp
      obtain ⟨hleast, hgreatest⟩ := readable_bounds (h d hd).1 (h d hd).2
      rcases List.mem_cons.mp hp with rfl | hp
      · exact hleast
      · exact List.mem_singleton.mp hp ▸ hgreatest

theorem flatten_pair {a b : Node} (ha : ∀ op x y, a ≠ .junction op x y) (hb : ∀ op x y, b ≠ .junction op x y) :
    flatten .and (.junction .and a b) = [a, b] := by
  rw [flatten, if_pos rfl, flatten_eq_self (ha .and), flatten_eq_self (hb .and)]
  rfl

/-- The bounds of a length come to one order, whichever they stand in. -/
theorem normalize_pair (h : Reread host c) (hvalid : Valid base c) {a b : Node}
    (hab : [a, b].Perm [greatest c.high, least c.low]) :
    predicate.normalize (.junction .and a b) = .junction .and (greatest c.high) (least c.low) := by
  obtain ⟨hleast, hgreatest⟩ := readable_bounds h hvalid
  have hplain : ∀ q ∈ [greatest c.high, least c.low], q ∈ Readable host ∧ (∀ op x y, q ≠ .junction op x y) ∧
      predicate.normalize q = q := by
    intro q hq
    simp only [List.mem_cons, List.not_mem_nil, or_false] at hq
    rcases hq with rfl | rfl
    · exact ⟨hgreatest, fun op x y => by simp [greatest], normalize_cmp ..⟩
    · exact ⟨hleast, fun op x y => by simp [least], normalize_cmp ..⟩
  have ha := hplain a (hab.mem_iff.mp (by simp))
  have hb := hplain b (hab.mem_iff.mp (by simp))
  have hflatten := flatten_pair ha.2.1 hb.2.1
  obtain ⟨hread, hmem⟩ := @normalize_conjunction _ host a b [greatest c.high, least c.low]
      (fun q hq => ⟨(hplain q hq).1, (hplain q hq).2.1⟩) (by
    intro q
    rw [hflatten, ← hab.mem_iff]
    simp [ha.2.2, hb.2.2, eq_comm])
  have hcanonical : Canonical (.junction .and (greatest c.high) (least c.low)) := (readable_lengthPart h hvalid).1
  have hpair : flatten .and (.junction .and (greatest c.high) (least c.low)) = [greatest c.high, least c.low] :=
    flatten_pair (fun op x y => by simp [greatest]) fun op x y => by simp [least]
  have hperm : (flatten .and (predicate.normalize (.junction .and a b))).Perm
      (flatten .and (.junction .and (greatest c.high) (least c.low))) := by
    refine (List.perm_ext_iff_of_nodup (nodup_parts hread.1) (nodup_parts hcanonical)).mpr fun q => ?_
    rw [hpair]
    exact hmem q
  exact eq_of_perm hread.1 hcanonical hperm

theorem normalize_part (h : ∀ d ∈ taken, Reread host d ∧ Valid base d) (hp : p ∈ parts base taken) :
    predicate.normalize p = p := by
  unfold parts at hp
  split at hp
  · obtain ⟨d, hd, rfl⟩ := List.mem_map.mp hp
    rw [lengthPart, predicate.normalize, normalize_pair (h d hd).1 (h d hd).2 (List.Perm.refl _)]
  · rcases List.mem_cons.mp hp with rfl | hp
    · rw [predicate.normalize] <;> simp
    · obtain ⟨d, hd, hp⟩ := List.mem_flatMap.mp hp
      rcases List.mem_cons.mp hp with rfl | hp
      · exact normalize_cmp ..
      · exact List.mem_singleton.mp hp ▸ normalize_cmp ..

/-- A refinement that is read back, of the parts that a run of calls comes to. -/
structure Shape (host : Host ι) (base : Prim) (taken : List Call) (p : Node) : Prop where
  readable : p ∈ Readable host
  mem : ∀ q, q ∈ flatten .and p ↔ q ∈ parts base taken

theorem lengthwise_iff (h : Valid base c) : c.lengthwise = true ↔ base = .string := by
  obtain ⟨l, u, -, -, -, -, -, hinside⟩ := h
  cases base <;> cases hc : c.lengthwise <;> simp_all [Inside]

/-- The parts that one more call brings. -/
theorem mem_parts_concat (hvalid : Valid base c) (hreread : Reread host c) (q : Node) :
    q ∈ parts base (taken ++ [c]) ↔
      q ∈ parts base taken ∧ taken ≠ [] ∨ ∃ r ∈ flatten .and (bounds c), predicate.normalize r = q := by
  have hlengthwise := lengthwise_iff hvalid
  unfold parts bounds
  by_cases hbase : base = .string
  · rw [if_pos (hlengthwise.mpr hbase), if_pos hbase, if_pos hbase, flatten_eq_self (by simp)]
    have hpart : predicate.normalize (.len [] (.junction .and (least c.low) (greatest c.high))) = lengthPart c := by
      rw [predicate.normalize, normalize_pair hreread hvalid (List.Perm.swap ..), lengthPart]
    simp only [List.map_append, List.map_cons, List.map_nil, List.mem_append, List.mem_singleton,
      exists_eq_left, hpart, eq_comm]
    constructor
    · rintro (hq | hq)
      · exact .inl ⟨hq, by rintro rfl; cases hq⟩
      · exact .inr hq
    · rintro (⟨hq, -⟩ | hq)
      · exact .inl hq
      · exact .inr hq
  · have hrange : c.lengthwise = false := Bool.eq_false_iff.mpr fun h => hbase (hlengthwise.mp h)
    rw [hrange, if_neg hbase, if_neg hbase]
    simp only [Bool.false_eq_true, if_false]
    have hflatten : flatten .and (.junction .and (.integral []) (.junction .and (least c.low) (greatest c.high))) =
        [.integral [], least c.low, greatest c.high] := rfl
    have hnormal : ∀ r ∈ [Node.integral [], least c.low, greatest c.high], predicate.normalize r = r := by
      intro r hr
      simp only [List.mem_cons, List.not_mem_nil, or_false] at hr
      rcases hr with rfl | rfl | rfl
      · rw [predicate.normalize] <;> simp
      · exact normalize_cmp ..
      · exact normalize_cmp ..
    have hexists : (∃ r ∈ [Node.integral [], least c.low, greatest c.high], predicate.normalize r = q) ↔
        q ∈ [Node.integral [], least c.low, greatest c.high] := by
      constructor
      · rintro ⟨r, hr, rfl⟩
        rwa [hnormal r hr]
      · exact fun hq => ⟨q, hq, hnormal q hq⟩
    rw [hflatten, hexists]
    simp only [List.flatMap_append, List.flatMap_cons, List.flatMap_nil, List.mem_cons, List.mem_append,
      List.not_mem_nil, or_false]
    by_cases hne : taken = []
    · simp [hne]
    · tauto

/-- A first call comes to its own parts. -/
theorem shape_first (hvalid : Valid base c) (hreread : Reread host c) : Shape host base [c]
    (predicate.normalize (bounds c)) := by
  have hread : ∀ q ∈ parts base [c], q ∈ Readable host := fun q hq =>
    readable_parts (fun d hd => by rw [List.mem_singleton.mp hd]; exact ⟨hreread, hvalid⟩) hq
  have hmem : ∀ q, q ∈ parts base [c] ↔ ∃ r ∈ flatten .and (bounds c), predicate.normalize r = q := by
    intro q
    have hconcat := @mem_parts_concat _ host base [] c hvalid hreread q
    rw [List.nil_append] at hconcat
    rw [hconcat]
    simp
  cases hc : c.lengthwise with
  | true =>
    have hbounds : bounds c = .len [] (.junction .and (least c.low) (greatest c.high)) := by rw [bounds, hc, if_pos rfl]
    rw [hbounds, flatten_eq_self (by simp)] at hmem
    have hpart : predicate.normalize (bounds c) = lengthPart c := by
      rw [hbounds, predicate.normalize, normalize_pair hreread hvalid (List.Perm.swap ..), lengthPart]
    refine ⟨?_, fun q => ?_⟩
    · rw [hpart]
      exact readable_lengthPart hreread hvalid
    · rw [hmem, ← hbounds, hpart, lengthPart, flatten_eq_self (by simp)]
      simp [hpart, lengthPart, eq_comm]
  | false =>
    have hbounds : bounds c = .junction .and (.integral []) (.junction .and (least c.low) (greatest c.high)) := by
      rw [bounds, hc, if_neg (by simp)]
    rw [hbounds] at hmem ⊢
    obtain ⟨hreadable, hparts⟩ := normalize_conjunction (fun q hq => ⟨hread q hq, plain_of_mem_parts hq⟩) hmem
    exact ⟨hreadable, hparts⟩

/-- One more call adds its parts. -/
theorem shape_next (h : ∀ d ∈ taken ++ [c], Reread host d ∧ Valid base d) (hne : taken ≠ [])
    (hshape : Shape host base taken p) :
    Shape host base (taken ++ [c]) (predicate.normalize (.junction .and p (bounds c))) := by
  obtain ⟨hreread, hvalid⟩ := h c (by simp)
  have hbefore : ∀ d ∈ taken, Reread host d ∧ Valid base d := fun d hd => h d (List.mem_append_left _ hd)
  obtain ⟨hreadable, hparts⟩ := normalize_conjunction (fun q hq => ⟨readable_parts h hq, plain_of_mem_parts hq⟩) (by
    intro q
    rw [mem_parts_concat hvalid hreread, flatten, if_pos rfl]
    simp only [List.mem_append, or_and_right, exists_or]
    refine or_congr_left ⟨fun hq => ⟨q, (hshape.mem q).mpr hq.1, normalize_part hbefore hq.1⟩, ?_⟩
    rintro ⟨r, hr, rfl⟩
    rw [normalize_part hbefore ((hshape.mem r).mp hr)]
    exact ⟨(hshape.mem r).mp hr, hne⟩)
  exact ⟨hreadable, hparts⟩

end Shapes

section Acceptance

variable {ι : Type} {host : Host ι} {base : Prim} {taken : List Call} {c : Call} {p : Node}
    {v : predicate.Value ι} {n : ℤ}

theorem has_iff {l u : ℤ} (hl : c.low.Is l) (hu : c.high.Is u) : c.Has n ↔ l ≤ n ∧ n ≤ u := by
  constructor
  · rintro ⟨l', u', hl', hu', hlow, hhigh⟩
    exact ⟨is_unique hl hl' ▸ hlow, is_unique hu hu' ▸ hhigh⟩
  · rintro ⟨hlow, hhigh⟩
    exact ⟨l, u, hl, hu, hlow, hhigh⟩

/-- A bound accepts the numbers on its side. -/
theorem accepts_bounds {x : Number} (hreread : Reread host c) {l u : ℤ} (hl : c.low.Is l) (hu : c.high.Is u)
    (hx : x.Is n) :
    (Accepts host (least c.low) (.scalar (.number x)) ↔ l ≤ n) ∧
      (Accepts host (greatest c.high) (.scalar (.number x)) ↔ n ≤ u) := by
  have hlow : c.low.le x = true ↔ l ≤ n := (le_iff hl hx).trans Int.cast_le
  have hhigh : x.le c.high = true ↔ n ≤ u := (le_iff hx hu).trans Int.cast_le
  constructor
  · rw [least, accepts_value (.inl rfl) hreread.1 (by rintro ⟨⟩)]
    simp [Holds, hlow]
  · rw [greatest, accepts_value (.inr (.inl rfl)) hreread.2 (by rintro ⟨⟩)]
    simp [Holds, hhigh]

theorem accepts_integral {x : Number} (hx : x.Is n) : Accepts host (.integral []) (.scalar (.number x)) := by
  unfold Accepts
  rw [render, access, answer_integral rfl]
  exact congrArg some (mod_one_eq_zero_iff.mpr ⟨n, hx⟩)

/-- An ordered comparison with a string's length, which is a number. -/
theorem answer_length {cmp : Comparison} (hcmp : cmp.equality = false) {literal : Literal} {w : Number} {s : Bytes}
    (hread : host.source literal.text = some (.number w)) :
    (render (.cmp cmp [] literal (.number w)) (.length .self)).answer host (.scalar (.string s)) =
      host.compare cmp (.scalar (.number (.ofInt s.length))) (.number w) := by
  have hsize : (Code.length .self).eval host (.scalar (.string s)) = some (.scalar (.number (.ofInt s.length))) := rfl
  have hnumber : (Code.typeEquals (.length .self) .number).answer host (.scalar (.string s)) = some true := by
    rw [answer_typeEquals hsize]
    rfl
  rw [render]
  simp only [access, hcmp, Constant.type]
  rw [if_neg (by simp), answer_junction, hnumber, Option.bind_some, if_pos (by simp)]
  exact answer_compare hsize hread

/-- The part of a length constraint accepts the strings of the lengths between its bounds. -/
theorem accepts_lengthPart (hreread : Reread host c) {l u : ℤ} (hl : c.low.Is l) (hu : c.high.Is u)
    (hlsize : |l| < 2 ^ 53) (husize : |u| < 2 ^ 53) {s : Bytes} :
    Accepts host (lengthPart c) (.scalar (.string s)) ↔ l ≤ s.length ∧ s.length ≤ u := by
  have hstring : (Code.typeEquals .self .string).answer host (.scalar (.string s)) = some true := by
    rw [answer_typeEquals rfl]
    rfl
  have hlow : (render (least c.low) (.length .self)).answer host (.scalar (.string s)) =
      some (c.low.le (.ofInt s.length)) := answer_length rfl hreread.1
  have hhigh : (render (greatest c.high) (.length .self)).answer host (.scalar (.string s)) =
      some ((Number.ofInt s.length).le c.high) := answer_length rfl hreread.2
  unfold Accepts
  rw [lengthPart, render]
  simp only [access, lengthTest, answer_junction, hstring, Option.bind_some, render, hlow, hhigh]
  rw [← le_ofInt_iff hl hlsize, ← ofInt_le_iff hu husize]
  cases (Number.ofInt s.length).le c.high <;> simp

/-- What a run comes to accepts exactly what lies between all its bounds. -/
theorem accepts_shape (h : ∀ d ∈ taken, Reread host d ∧ Valid base d) (hshape : Shape host base taken p)
    (hv : Measures base v n) :
    Accepts host p v ↔ ∀ d ∈ taken, d.Has n := by
  rw [accepts_parts]
  have hparts : (∀ q ∈ flatten .and p, Accepts host q v) ↔ ∀ q ∈ parts base taken, Accepts host q v :=
    forall_congr' fun q => by rw [hshape.mem]
  rw [hparts]
  unfold parts
  unfold Measures at hv
  split
  · next hbase =>
    rw [if_pos hbase] at hv
    obtain ⟨s, rfl, rfl⟩ := hv
    rw [List.forall_mem_map]
    refine forall₂_congr fun d hd => ?_
    obtain ⟨hreread, l, u, hl, hu, hlsize, husize, -⟩ := h d hd
    rw [has_iff hl hu, accepts_lengthPart hreread hl hu hlsize husize]
  · next hbase =>
    rw [if_neg hbase] at hv
    obtain ⟨x, rfl, hx⟩ := hv
    rw [List.forall_mem_cons]
    have hboth : (∀ q ∈ taken.flatMap fun c => [least c.low, greatest c.high], Accepts host q (.scalar (.number x))) ↔
        ∀ d ∈ taken, Accepts host (least d.low) (.scalar (.number x)) ∧
          Accepts host (greatest d.high) (.scalar (.number x)) := by
      simp only [List.forall_mem_flatMap, List.forall_mem_cons, List.not_mem_nil, false_implies, implies_true, and_true]
    rw [hboth, and_iff_right (accepts_integral hx)]
    refine forall₂_congr fun d hd => ?_
    obtain ⟨hreread, l, u, hl, hu, -⟩ := h d hd
    obtain ⟨hleast, hgreatest⟩ := @accepts_bounds _ host d n x hreread l u hl hu hx
    rw [has_iff hl hu, hleast, hgreatest]

end Acceptance

section Apart

variable {ι : Type} {host : Host ι} {base : Prim} {taken : List Call} {c : Call} {p : Node}

/-- The lower bounds of a range's parts are those of the calls, and the upper bounds too. -/
theorem mem_bounds (hbase : base ≠ .string) (hshape : Shape host base taken p) (w : Number) :
    (w ∈ (flatten .and p).filterMap lowOf ↔ ∃ d ∈ taken, d.low = w) ∧
      (w ∈ (flatten .and p).filterMap highOf ↔ ∃ d ∈ taken, d.high = w) := by
  have hmem : ∀ q, q ∈ flatten .and p ↔ q = .integral [] ∨ ∃ d ∈ taken, q = least d.low ∨ q = greatest d.high := by
    intro q
    rw [hshape.mem, parts, if_neg hbase]
    simp
  simp only [List.mem_filterMap, hmem]
  constructor
  · constructor
    · rintro ⟨q, rfl | ⟨d, hd, rfl | rfl⟩, hq⟩
      · cases hq
      · exact ⟨d, hd, Option.some.inj hq⟩
      · cases hq
    · rintro ⟨d, hd, rfl⟩
      exact ⟨least d.low, .inr ⟨d, hd, .inl rfl⟩, rfl⟩
  · constructor
    · rintro ⟨q, rfl | ⟨d, hd, rfl | rfl⟩, hq⟩
      · cases hq
      · cases hq
      · exact ⟨d, hd, Option.some.inj hq⟩
    · rintro ⟨d, hd, rfl⟩
      exact ⟨greatest d.high, .inr ⟨d, hd, .inr rfl⟩, rfl⟩

/-- A range is found apart from the ones before exactly if it is. -/
theorem disjoint_range (hvalid : ∀ d ∈ taken ++ [c], Valid base d) (hrange : c.lengthwise = false)
    (hbase : base ≠ .string) (hmeet : Meet taken) (hne : taken ≠ []) (hshape : Shape host base taken p) :
    disjoint p (bounds c) = false ↔ Meet (taken ++ [c]) := by
  obtain ⟨d, hd⟩ := decompose_isSome fun q hq => plain_of_mem_parts ((hshape.mem q).mp hq)
  have hdescribes := describes_decompose hd
  have hbounds : decompose (bounds c) = some ⟨some c.low, some c.high, none, none, [key (.integral [])]⟩ := by
    rw [bounds, hrange, if_neg (by simp)]
    rfl
  obtain ⟨first, hfirst⟩ := List.exists_mem_of_ne_nil taken hne
  obtain ⟨l, u, hl, hu, -, -, hlu, -⟩ := hvalid c (by simp)
  obtain ⟨n, hn⟩ := hmeet
  -- the greatest lower bound and the least upper bound so far
  obtain ⟨m, hm, eₘ, heₘ, hmin⟩ : ∃ m, d.min = some m ∧ ∃ e ∈ taken, e.low = m ∧ ∀ e ∈ taken, m.lt e.low = false := by
    have hgreatest := hdescribes.min
    cases hmin : d.min with
    | none =>
      rw [hmin] at hgreatest
      have hlow := ((mem_bounds hbase hshape first.low).1).mpr ⟨first, hfirst, rfl⟩
      rw [hgreatest] at hlow
      cases hlow
    | some m =>
      rw [hmin] at hgreatest
      obtain ⟨e, he, hem⟩ := (mem_bounds hbase hshape m).1.mp hgreatest.1
      exact ⟨m, rfl, e, he, hem, fun e he => hgreatest.2 _ ((mem_bounds hbase hshape e.low).1.mpr ⟨e, he, rfl⟩)⟩
  obtain ⟨M, hM, eM, heM, hmax⟩ : ∃ M, d.max = some M ∧ ∃ e ∈ taken, e.high = M ∧ ∀ e ∈ taken, e.high.lt M = false := by
    have hleast := hdescribes.max
    cases hmax : d.max with
    | none =>
      rw [hmax] at hleast
      have hhigh := ((mem_bounds hbase hshape first.high).2).mpr ⟨first, hfirst, rfl⟩
      rw [hleast] at hhigh
      cases hhigh
    | some M =>
      rw [hmax] at hleast
      obtain ⟨e, he, heM⟩ := (mem_bounds hbase hshape M).2.mp hleast.1
      exact ⟨M, rfl, e, he, heM, fun e he => hleast.2 _ ((mem_bounds hbase hshape e.high).2.mpr ⟨e, he, rfl⟩)⟩
  obtain ⟨rfl, hmin⟩ := hmin
  obtain ⟨rfl, hmax⟩ := hmax
  obtain ⟨lₘ, uₘ, hlₘ, huₘ, -⟩ := hvalid eₘ (List.mem_append_left _ heₘ)
  obtain ⟨lM, uM, hlM, huM, -⟩ := hvalid eM (List.mem_append_left _ heM)
  have hcrossed : disjoint p (bounds c) = false ↔ lₘ ≤ u ∧ l ≤ uM := by
    simp only [disjoint, hd, hbounds, hm, hM, crossed, Option.any_some, Option.any_none, Bool.or_eq_false_iff,
      lt_eq_false_iff hu hlₘ, lt_eq_false_iff huM hl]
    simp
  have hrest : ∀ {k : ℤ}, (∀ e ∈ taken, e.Has k) ↔ lₘ ≤ k ∧ k ≤ uM := by
    intro k
    constructor
    · intro hk
      exact ⟨((has_iff hlₘ huₘ).mp (hk eₘ heₘ)).1, ((has_iff hlM huM).mp (hk eM heM)).2⟩
    · rintro ⟨hlow, hhigh⟩ e he
      obtain ⟨le, ue, hle, hue, -⟩ := hvalid e (List.mem_append_left _ he)
      exact (has_iff hle hue).mpr ⟨((lt_eq_false_iff hlₘ hle).mp (hmin e he)).trans hlow,
        hhigh.trans ((lt_eq_false_iff hue huM).mp (hmax e he))⟩
  have hmeets : Meet (taken ++ [c]) ↔ ∃ k, (lₘ ≤ k ∧ k ≤ uM) ∧ l ≤ k ∧ k ≤ u := by
    refine exists_congr fun k => ?_
    rw [List.forall_mem_append, List.forall_mem_singleton, hrest, has_iff hl hu]
  have hbetween := hrest.mp hn
  rw [hcrossed, hmeets]
  constructor
  · rintro ⟨hlow, hhigh⟩
    exact ⟨max lₘ l, by omega, by omega⟩
  · rintro ⟨k, hk⟩
    omega

/-- No length constraint is found apart from another. -/
theorem disjoint_length (hlengthwise : c.lengthwise = true) : disjoint p (bounds c) = false := by
  have hbounds : decompose (bounds c) = some ⟨none, none, none, none, [key (bounds c)]⟩ := by
    rw [bounds, if_pos hlengthwise]
    rfl
  unfold disjoint
  rw [hbounds]
  cases decompose p with
  | none => rfl
  | some d => simp [crossed]

end Apart

section Runs

variable {ι : Type} {host : Host ι} {tostring : Scalar → Bytes} {base : Prim} {c : Call}

/-- What a run of calls has come to, in each of which the bounds read back: the type is of the base,
and what constrains it is what the calls that returned a type say. -/
structure Reached (host : Host ι) (base : Prim) (s : Chain) : Prop where
  base_eq : s.type.base = base
  taken : ∀ d ∈ s.taken, Reread host d ∧ Valid base d
  meet : Meet s.taken
  shape : (s.type.predicate = none ∧ s.taken = []) ∨
    ∃ p, s.type.predicate = some p ∧ s.taken ≠ [] ∧ Shape host base s.taken p

theorem reached_start : Reached host base ⟨⟨base, none⟩, []⟩ :=
  ⟨rfl, by simp, ⟨0, by simp⟩, .inl ⟨rfl, rfl⟩⟩

/-- The refinement that a valid call leaves. -/
theorem shape_taken {s : Chain} (h : Reached host base s) (hreread : Reread host c) (hvalid : Valid base c) :
    Shape host base (s.taken ++ [c])
      (predicate.normalize (s.type.predicate.elim (bounds c) fun existing => .junction .and existing (bounds c))) := by
  rcases h.shape with ⟨hnone, htaken⟩ | ⟨p, hp, hne, hshape⟩
  · rw [hnone, htaken]
    exact shape_first hvalid hreread
  · rw [hp]
    refine shape_next (fun d hd => ?_) hne hshape
    rcases List.mem_append.mp hd with hd | hd
    · exact h.taken d hd
    · exact List.mem_singleton.mp hd ▸ ⟨hreread, hvalid⟩

/-- A valid call returns a type exactly if its interval meets those before. -/
theorem apart_iff {s : Chain} (h : Reached host base s) (hvalid : Valid base c) (hfits : Fits host base s.taken c) :
    (∀ existing, s.type.predicate = some existing → disjoint existing (bounds c) = false) ↔ Meet (s.taken ++ [c]) := by
  rcases h.shape with ⟨hnone, htaken⟩ | ⟨p, hp, hne, hshape⟩
  · refine iff_of_true (by simp [hnone]) ?_
    obtain ⟨l, u, hl, hu, -, -, hlu, -⟩ := hvalid
    rw [htaken]
    exact ⟨l, by simpa using (has_iff hl hu).mpr ⟨Int.le_refl l, hlu⟩⟩
  · simp only [hp, Option.some.injEq, forall_eq']
    cases hc : c.lengthwise with
    | true => exact iff_of_true (disjoint_length hc) ((hfits hvalid).2 hc)
    | false =>
      have hbase : base ≠ .string := fun hbase => by
        rw [(lengthwise_iff hvalid).mpr hbase] at hc
        cases hc
      refine disjoint_range (fun d hd => ?_) hc hbase h.meet hne hshape
      rcases List.mem_append.mp hd with hd | hd
      · exact (h.taken d hd).2
      · exact List.mem_singleton.mp hd ▸ hvalid

theorem build_iff {s : Chain} (h : Reached host base s) (hfits : Fits host base s.taken c) (t : Scalar) :
    build tostring s.type c = .ok t ↔ Valid base c ∧ Meet (s.taken ++ [c]) ∧
      t = ⟨base, some (predicate.normalize
        (s.type.predicate.elim (bounds c) fun existing => .junction .and existing (bounds c)))⟩ := by
  rw [build_eq_ok, h.base_eq]
  exact and_congr_right fun hvalid => and_congr_left fun _ => apart_iff h hvalid hfits

/-- A call that returns a type leaves what a run comes to. -/
theorem reached_build {s : Chain} (h : Reached host base s) (hfits : Fits host base s.taken c) {t : Scalar}
    (hbuild : build tostring s.type c = .ok t) : Reached host base ⟨t, s.taken ++ [c]⟩ := by
  obtain ⟨hvalid, hmeet, rfl⟩ := (build_iff h hfits t).mp hbuild
  have hreread : Reread host c := (hfits hvalid).1
  refine ⟨rfl, fun d hd => ?_, hmeet, .inr ⟨_, rfl, by simp, shape_taken h hreread hvalid⟩⟩
  rcases List.mem_append.mp hd with hd | hd
  · exact h.taken d hd
  · exact List.mem_singleton.mp hd ▸ ⟨hreread, hvalid⟩

theorem reached_next {s : Chain} (h : Reached host base s) (hfits : Fits host base s.taken c) :
    Reached host base (s.next tostring c) := by
  unfold Chain.next
  cases hbuild : build tostring s.type c with
  | error _ => exact h
  | ok t => exact reached_build h hfits hbuild

theorem reached_run (calls : List Call)
    (h : ∀ before d after, calls = before ++ d :: after → Fits host base (run tostring base before).taken d) :
    Reached host base (run tostring base calls) := by
  induction calls using List.reverseRecOn with
  | nil => exact reached_start
  | append_singleton calls d ih =>
    have hrun : run tostring base (calls ++ [d]) = (run tostring base calls).next tostring d := by simp [run]
    rw [hrun]
    refine reached_next (ih fun before e after heq => h before e (after ++ [d]) ?_) (h calls d [] rfl)
    rw [heq]
    simp

/-- A type narrowed is a subtype of the one before. -/
theorem isA_build {s : Chain} (h : Reached host base s) (hfits : Fits host base s.taken c) {t : Scalar}
    (hbuild : build tostring s.type c = .ok t) : isA t s.type = true := by
  have hreached := reached_build h hfits hbuild
  obtain ⟨hvalid, -, rfl⟩ := (build_iff h hfits t).mp hbuild
  have hshape := shape_taken h (hfits hvalid).1 hvalid
  rcases h.shape with ⟨hnone, htaken⟩ | ⟨p, hp, hne, hbefore⟩
  · simp [isA, h.base_eq, hnone]
  · rw [hp, Option.elim_some] at hshape
    have hsub : ∀ q ∈ flatten .and p, q ∈ flatten .and (predicate.normalize (.junction .and p (bounds c))) := by
      intro q hq
      rw [hshape.mem, mem_parts_concat hvalid (hfits hvalid).1]
      exact .inl ⟨(hbefore.mem q).mp hq, hne⟩
    simp only [isA, h.base_eq, hp, Option.elim_some, decide_true, Bool.true_and]
    exact implies_of_subset (fun q hq => plain_of_mem_parts ((hshape.mem q).mp hq)) hsub

/-- Zero alone, of the whole numbers. -/
def zeroOnly : Call := ⟨zero, zero, false⟩

def oneToTwo : Call := ⟨.ofInt 1, .ofInt 2, true⟩

def fiveToSix : Call := ⟨.ofInt 5, .ofInt 6, true⟩

theorem valid_length {l u : ℤ} (hl : 0 ≤ l) (hlu : l ≤ u) (hu : u < 2 ^ 53) :
    Valid .string ⟨.ofInt l, .ofInt u, true⟩ := by
  refine ⟨l, u, is_ofInt (by omega), is_ofInt (by omega), ?_, ?_, hlu, hl⟩
  · rw [abs_of_nonneg hl]
    omega
  · rw [abs_of_nonneg (hl.trans hlu)]
    exact hu

end Runs

end Nupp.constrain
