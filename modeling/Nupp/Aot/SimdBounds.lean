import Nupp.Aot.Relations
import Nupp.Aot.RelationsCorrect

/-! The rooms that dominating checks prove a cursor has below the counts of spans
(`nupp/compiler/aot/simdbounds.nupp`). -/

namespace Nupp.Aot.simdbounds

open relations

/-! The text of a room: a count of elements, a species, or a species and how many of its vectors. -/

def trailingDigits (text : List Char) : List Char := (text.reverse.takeWhile Char.isDigit).reverse

/-- What stands before the trailing digits, last character first. -/
def beforeDigits (text : List Char) : List Char := text.reverse.dropWhile Char.isDigit

/-- `tonumber` of digits. -/
def number (digits : List Char) : ℕ := Nat.ofDigitChars 10 digits 0

/-- `room:match("^(.+)@(%d+)$")`. -/
def splitMultiple (room : String) : Option (String × ℕ) :=
  match trailingDigits room.toList, beforeDigits room.toList with
  | digit :: digits, '@' :: last :: species =>
    some (String.ofList (last :: species).reverse, number (digit :: digits))
  | _, _ => none

/-- `species:match("_fixed(%d+)$")`. -/
def fixedLanes (species : String) : Option (List Char) :=
  match trailingDigits species.toList with
  | [] => none
  | digits => if "_fixed".toList.reverse <+: beforeDigits species.toList then some digits else none

/-- `room:match("^%d+$")`. -/
def elementRoom (room : String) : Bool := room.toList ≠ [] && room.toList.all Char.isDigit

def room (species : String) (count : ℕ) : String :=
  if count = 1 then species else species ++ "@" ++ toString count

/-- The species of a room and how many of its vectors the room holds. -/
def parts (room : String) : String × ℕ := (splitMultiple room).getD (room, 1)

def covers (room : Option String) (species : String) (count : Option ℕ) : Bool :=
  match room with
  | none => false
  | some room =>
    let (held, available) := parts room
    (held = species || (fixedLanes held).isSome && fixedLanes species = fixedLanes held) &&
      available ≥ count.getD 1

def elements (room : Option String) : ℕ :=
  match room with
  | none => 0
  | some held =>
    if elementRoom held then number held.toList
    else
      let (species, multiple) := parts held
      let lanes := ((fixedLanes species).map number).getD 1
      lanes * multiple

def widen (existing : Option String) (room : String) : String :=
  match existing with
  | none => room
  | some held =>
    let heldElements := elements (some held)
    let roomElements := elements (some room)
    let heldVector := !elementRoom held
    let roomVector := !elementRoom room
    if heldVector && roomVector then room
    else if heldVector then if heldElements ≥ roomElements then held else room
    else if roomVector then if roomElements ≥ heldElements then room else held
    else if roomElements ≥ heldElements then room else held

/-! Bounds. -/

/-- The rooms of one cursor, by root. -/
abbrev Spans := List (String × String)

def Spans.get (spans : Spans) (root : String) : Option String := (spans.find? (·.1 = root)).map Prod.snd

def Spans.put (spans : Spans) (root room : String) : Spans :=
  if spans.any (·.1 = root) then spans.map fun entry => if entry.1 = root then (root, room) else entry
  else spans ++ [(root, room)]

abbrev CursorBounds := String → Option Spans

/-- `related[root][span]` when the guards prove the root's count at most the span's. -/
abbrev Related := String → Option (String → Bool)

/-- `spans[root] = widen(spans[root], room)`. -/
def withBound (spans : Spans) (root room : String) : Spans := spans.put root (widen (spans.get root) room)

def reaches (related : Option Related) (root counted : String) : Bool :=
  ((related.bind fun related => related root).map fun reaches => reaches counted).getD false

def carried (transfers : Option RoomTransfers) (root counted : String) : List RoomTransfer :=
  ((transfers.bind fun transfers => transfers root).bind fun carried => carried counted).getD []

/-- What one root adds to how far a cursor reaches. -/
def reachFrom (related : Option Related) (transfers : Option RoomTransfers) (counted : String) (most : ℤ)
    (entry : String × String) : ℤ :=
  let held : ℤ := elements (some entry.2)
  let most := if reaches related entry.1 counted then max most held else most
  (carried transfers entry.1 counted).foldl (fun most transfer => max most (transfer.factor * held - transfer.offset))
    most

def reach (bounds : CursorBounds) (cursor : String) (counted : Option String) (related : Option Related)
    (transfers : Option RoomTransfers) : ℤ :=
  match bounds cursor, counted with
  | some spans, some counted =>
    spans.foldl (reachFrom related transfers counted) (elements (spans.get counted))
  | _, _ => 0

def boundedThrough (bounds : CursorBounds) (cursor : String) (counted : Option String) (related : Option Related)
    (count : Option ℕ) (transfers : Option RoomTransfers) : Bool :=
  reach bounds cursor counted related transfers ≥ (count.getD 1 : ℕ)

def coveredThrough (bounds : CursorBounds) (cursor : String) (counted : Option String) (related : Option Related)
    (species : String) (count : Option ℕ) : Bool :=
  match bounds cursor, counted with
  | some spans, some counted =>
    covers (spans.get counted) species count ||
      spans.any fun (root, room) => reaches related root counted && covers (some room) species count
  | _, _ => false

end Nupp.Aot.simdbounds

/-! Rooms are never over-estimated. -/

namespace Nupp.Aot.simdbounds

open relations Difference

/-! What terms are, when counts and uniforms have values. -/

def meaning (counts : String → ℕ) (uniforms : String → ℤ) : Term → ℤ
  | .zero => 0
  | .uniform name => uniforms name
  | .count name factor => (factor.getD 1 : ℕ) * counts name

/-- A factor is never below two: a factor of one is the count itself. -/
def Scaled (terms : List Term) : Prop := ∀ term ∈ terms, ∀ factor ∈ factorOf term, 2 ≤ factor

instance (terms : List Term) : Decidable (Scaled terms) :=
  inferInstanceAs (Decidable (∀ term ∈ terms, ∀ factor ∈ factorOf term, 2 ≤ factor))

/-- The relations that a caller's counts and uniforms meet. -/
def Meets (counts : String → ℕ) (uniforms : String → ℤ) (pool : List Relation) : Prop :=
  ∀ relation ∈ pool, meaning counts uniforms relation.left ≤ meaning counts uniforms relation.right + relation.offset

instance (counts : String → ℕ) (uniforms : String → ℤ) (pool : List Relation) :
    Decidable (Meets counts uniforms pool) :=
  inferInstanceAs (Decidable (∀ relation ∈ pool,
    meaning counts uniforms relation.left ≤ meaning counts uniforms relation.right + relation.offset))

theorem mem_scaledTerms {pool : List Relation} {term : Term} (h : term ∈ scaledTerms pool) :
    term ∈ mentioned pool ∧ isScaled term = true := by
  have hfound : ∀ l seen : List Term, term ∈ l.foldl
      (fun seen term => if key term ∈ seen.map key then seen else seen ++ [term]) seen → term ∈ seen ∨ term ∈ l := by
    intro l
    induction l with
    | nil => exact fun seen hmem => Or.inl hmem
    | cons a l ih =>
      intro seen hmem
      rw [List.foldl_cons] at hmem
      rcases ih _ hmem with hseen | hl
      · split at hseen
        · exact Or.inl hseen
        · rcases List.mem_append.mp hseen with hseen | ha
          · exact Or.inl hseen
          · exact Or.inr (List.mem_cons.mpr (Or.inl (List.mem_singleton.mp ha)))
      · exact Or.inr (List.mem_cons_of_mem a hl)
  rw [scaledTerms, List.mem_insertionSort] at h
  rcases hfound _ _ h with hnil | hmem
  · cases hnil
  · exact List.mem_filter.mp hmem

theorem smallerThan_spec {a b : Term} (h : smallerThan a b = true) :
    ∃ name smaller larger, a = .count name (some smaller) ∧ b = .count name (some larger) ∧ smaller < larger := by
  unfold smallerThan at h
  split at h
  · rw [Bool.and_eq_true, decide_eq_true_eq, decide_eq_true_eq] at h
    obtain ⟨rfl, hlt⟩ := h
    exact ⟨_, _, _, rfl, rfl, hlt⟩
  · cases h

/-- Counts are not negative and factors are not below one, so that what is written implies the axioms. -/
theorem models_facts {counts : String → ℕ} {uniforms : String → ℤ} {written : List Relation}
    (hmeets : Meets counts uniforms written) (hscaled : Scaled (mentioned written)) (spans : List String) :
    Models (meaning counts uniforms) (facts written spans) where
  zero := rfl
  holds relation hr := by
    rw [facts, List.append_assoc, List.mem_append, List.mem_append] at hr
    rcases hr with hr | hr | hr
    · exact hmeets relation hr
    · obtain ⟨name, -, rfl⟩ := List.mem_map.mp hr
      simp only [meaning, count, Option.getD_none]
      omega
    · obtain ⟨term, hterm, hr⟩ := List.mem_flatMap.mp hr
      obtain ⟨hmentioned, hisScaled⟩ := mem_scaledTerms hterm
      obtain ⟨factor, hfactor⟩ := Option.isSome_iff_exists.mp hisScaled
      have hge := hscaled term hmentioned factor hfactor
      obtain ⟨name, rfl⟩ : ∃ name, term = .count name (some factor) := by
        cases term with
        | zero => cases hfactor
        | uniform name => cases hfactor
        | count name factor' => exact ⟨name, congrArg (Term.count name) hfactor⟩
      have hmul : (counts name : ℤ) ≤ (factor : ℤ) * counts name := by
        have hle := Nat.le_mul_of_pos_left (counts name) (by omega : 0 < factor)
        exact_mod_cast hle
      rcases List.mem_cons.mp hr with rfl | hr
      · simp only [meaning, nameOf, count, Option.getD_none, Option.getD_some]
        omega
      · rcases List.mem_cons.mp hr with rfl | hr
        · simp only [meaning, Option.getD_some]
          omega
        · obtain ⟨smaller, hsmaller, rfl⟩ := List.mem_map.mp hr
          obtain ⟨name', small, large, rfl, hlarge, hlt⟩ := smallerThan_spec (List.mem_filter.mp hsmaller).2
          obtain ⟨rfl, hfactor'⟩ := Term.count.inj hlarge
          cases hfactor'
          have hle := Nat.mul_le_mul_right (counts name) hlt.le
          simp only [meaning, Option.getD_some, add_zero]
          exact_mod_cast hle

/-! Transfers. -/

def Sound (counts : String → ℕ) (from_ to_ : String) (transfer : RoomTransfer) : Prop :=
  1 ≤ transfer.factor ∧ (transfer.factor : ℤ) * counts from_ ≤ counts to_ + transfer.offset

theorem found_sound {counts : String → ℕ} {uniforms : String → ℤ} {written : List Relation} (spans : List String)
    {terms : List Term} (hmeets : Meets counts uniforms written) (hscaled : Scaled (mentioned written ++ terms))
    {from_ to_ : String} {transfer : RoomTransfer} (h : transfer ∈ found (solve written spans terms) from_ to_) :
    Sound counts from_ to_ transfer := by
  have hmodels := models_facts hmeets (fun term hterm => hscaled term (List.mem_append_left _ hterm)) spans
  have hsound := closure_sound (hmodels.satisfies (universeOf written terms))
  have hindex : (solve written spans terms).indexOf = indexIn (universeOf written terms) := rfl
  have hterms : (solve written spans terms).terms = universeOf written terms := rfl
  rw [found, hindex, hterms] at h
  cases hinto : indexIn (universeOf written terms) (key (count to_)) with
  | none =>
    rw [hinto] at h
    cases h
  | some into =>
    rw [hinto] at h
    obtain ⟨⟨term, position⟩, hmem, htransfer⟩ := List.mem_filterMap.mp h
    obtain ⟨hposition, hget⟩ := List.mem_zipIdx_iff_le_and_getElem?_sub.mp hmem
    have hterm : atPositions (meaning counts uniforms) (universeOf written terms) position =
        meaning counts uniforms term := by
      rw [atPositions, hget]
      rfl
    have hin : term ∈ universeOf written terms := List.mem_of_getElem? hget
    cases term with
    | zero => cases htransfer
    | uniform name => cases htransfer
    | count name factor =>
      simp only [transferOf] at htransfer
      by_cases hgood : name = from_ ∧ (solve written spans terms).table.dist into position < INFINITE ∧
          (solve written spans terms).table.dist into position > -INFINITE
      · rw [if_pos hgood] at htransfer
        cases htransfer
        obtain ⟨rfl, hfinite, -⟩ := hgood
        have hbound := hsound into position hfinite
        rw [hterm, atPositions_index hinto] at hbound
        simp only [meaning, count, Option.getD_none, Nat.cast_one, one_mul] at hbound
        refine ⟨?_, hbound⟩
        cases factor with
        | none => exact le_rfl
        | some factor =>
          have hfactor : 2 ≤ factor := by
            refine hscaled (.count name (some factor)) ?_ factor rfl
            rcases List.mem_append.mp hin with hin | hin
            · exact List.mem_append_right _ hin
            · exact List.mem_append_left _ (mem_scaledTerms hin).1
          exact Nat.le_of_succ_le hfactor
      · rw [if_neg hgood] at htransfer
        cases htransfer

theorem carried_sound {counts : String → ℕ} {uniforms : String → ℤ} {written : List Relation} {spans : List String}
    {terms : List Term} (hmeets : Meets counts uniforms written) (hscaled : Scaled (mentioned written ++ terms))
    {root counted : String} {transfer : RoomTransfer}
    (h : transfer ∈ carried (some (transfers (solve written spans terms) spans)) root counted) :
    Sound counts root counted transfer := by
  refine found_sound spans hmeets hscaled ?_
  rw [carried, Option.bind_some, transfers] at h
  by_cases hroot : root ∈ spans
  · rw [if_pos hroot, Option.bind_some] at h
    dsimp only at h
    by_cases hcounted : counted ∈ spans ∧ found (solve written spans terms) root counted ≠ []
    · rwa [if_pos hcounted] at h
    · rw [if_neg hcounted] at h
      cases h
  · rw [if_neg hroot] at h
    cases h

/-! Rooms. -/

/-- The lanes of a species: those it names, or those its target gives it. -/
def speciesLanes (lanes : String → ℕ) (species : String) : ℕ := ((fixedLanes species).map number).getD (lanes species)

/-- How many elements a room holds. -/
def roomSize (lanes : String → ℕ) (room : String) : ℕ :=
  if elementRoom room then number room.toList else speciesLanes lanes (parts room).1 * (parts room).2

theorem elements_le {lanes : String → ℕ} (hlanes : ∀ species, 1 ≤ lanes species) (room : String) :
    elements (some room) ≤ roomSize lanes room := by
  rw [elements, roomSize]
  dsimp only
  split
  · exact le_rfl
  · refine Nat.mul_le_mul_right _ ?_
    rw [speciesLanes]
    cases fixedLanes (parts room).1 with
    | none => exact hlanes _
    | some digits => exact le_rfl

theorem widen_eq (existing : Option String) (room : String) :
    widen existing room = room ∨ existing = some (widen existing room) := by
  cases existing with
  | none => exact Or.inl rfl
  | some held =>
    simp only [widen]
    split_ifs
    all_goals first | exact Or.inl rfl | exact Or.inr rfl

theorem beforeDigits_of_elementRoom {room : String} (h : elementRoom room = true) : beforeDigits room.toList = [] := by
  rw [elementRoom, Bool.and_eq_true, List.all_eq_true] at h
  have hall : ∀ c ∈ room.toList.reverse, Char.isDigit c = true := fun c hc => h.2 c (List.mem_reverse.mp hc)
  rw [beforeDigits, ← List.append_nil room.toList.reverse, List.dropWhile_append_of_pos hall, List.dropWhile_nil]

theorem parts_of_elementRoom {room : String} (h : elementRoom room = true) : parts room = (room, 1) := by
  rw [parts, splitMultiple, beforeDigits_of_elementRoom h]
  cases trailingDigits room.toList <;> rfl

theorem fixedLanes_of_elementRoom {room : String} (h : elementRoom room = true) : fixedLanes room = none := by
  rw [fixedLanes, beforeDigits_of_elementRoom h]
  cases trailingDigits room.toList with
  | nil => rfl
  | cons digit digits =>
    dsimp only
    rw [if_neg (by decide)]

/-- A room that covers vectors of a species has at least as many elements as they. -/
theorem covers_le (lanes : String → ℕ) {held species : String} {count : Option ℕ}
    (h : covers (some held) species count = true) (hspecies : elementRoom species = false) :
    speciesLanes lanes species * count.getD 1 ≤ roomSize lanes held := by
  simp only [covers, Bool.and_eq_true, Bool.or_eq_true, decide_eq_true_eq] at h
  obtain ⟨hsame, havailable⟩ := h
  have hvector : elementRoom held = false := by
    by_contra hroom
    rw [Bool.not_eq_false] at hroom
    rw [parts_of_elementRoom hroom] at hsame
    dsimp only at hsame
    rcases hsame with rfl | ⟨hsome, -⟩
    · rw [hroom] at hspecies
      cases hspecies
    · rw [fixedLanes_of_elementRoom hroom] at hsome
      cases hsome
  have hlanes : speciesLanes lanes (parts held).1 = speciesLanes lanes species := by
    rcases hsame with heq | ⟨hsome, heq⟩
    · rw [heq]
    · obtain ⟨digits, hdigits⟩ := Option.isSome_iff_exists.mp hsome
      rw [speciesLanes, speciesLanes, heq, hdigits]
      rfl
  rw [roomSize, hvector, if_neg Bool.false_ne_true, hlanes]
  exact Nat.mul_le_mul_left _ havailable

/-! What a guard records is worth what it proved. -/

theorem toList_room (species : String) {count : ℕ} (hcount : count ≠ 1) :
    (room species count).toList = species.toList ++ '@' :: Nat.toDigits 10 count := by
  rw [room, if_neg hcount, String.toList_append, String.toList_append, Nat.toString_eq_repr, Nat.toList_repr]
  simp

theorem digits_all (n : ℕ) : ∀ c ∈ (Nat.toDigits 10 n).reverse, Char.isDigit c = true := by
  intro c hc
  exact Nat.isDigit_of_mem_toDigits (by decide) (by decide) (List.mem_reverse.mp hc)

theorem parts_room {species : String} (hspecies : species ≠ "") {count : ℕ} (hcount : count ≠ 1) :
    parts (room species count) = (species, count) := by
  have htext := toList_room species hcount
  have hdigits := digits_all count
  have htrailing : trailingDigits (room species count).toList = Nat.toDigits 10 count := by
    rw [trailingDigits, htext, List.reverse_append, List.reverse_cons, List.append_assoc,
      List.takeWhile_append_of_pos hdigits, List.singleton_append, List.takeWhile_cons_of_neg (by decide),
      List.append_nil, List.reverse_reverse]
  have hbefore : beforeDigits (room species count).toList = '@' :: species.toList.reverse := by
    rw [beforeDigits, htext, List.reverse_append, List.reverse_cons, List.append_assoc,
      List.dropWhile_append_of_pos hdigits, List.singleton_append, List.dropWhile_cons_of_neg (by decide)]
  have hnonempty : species.toList.reverse ≠ [] := by
    intro hnil
    exact hspecies (String.toList_inj.mp (List.reverse_eq_nil_iff.mp hnil))
  obtain ⟨last, rest, hlast⟩ := List.exists_cons_of_ne_nil hnonempty
  obtain ⟨digit, digits, hdigit⟩ := List.exists_cons_of_ne_nil (Nat.toDigits_ne_nil (n := count) (b := 10))
  have hsplit : splitMultiple (room species count) =
      some (String.ofList (last :: rest).reverse, number (digit :: digits)) := by
    simp only [splitMultiple, htrailing, hbefore, hlast, hdigit]
  rw [parts, hsplit, Option.getD_some, ← hlast, List.reverse_reverse, ← hdigit, number,
    Nat.ofDigitChars_toDigits (by decide) (by decide), String.ofList_toList]

theorem elementRoom_room {species : String} {count : ℕ} (hcount : count ≠ 1) :
    elementRoom (room species count) = false := by
  rw [elementRoom, toList_room _ hcount, List.all_append, List.all_cons, show Char.isDigit '@' = false from rfl,
    Bool.false_and, Bool.and_false, Bool.and_false]

/-- The text recorded for `count` vectors of a species. -/
theorem roomSize_room (lanes : String → ℕ) {species : String} (hspecies : splitMultiple species = none)
    (hvector : elementRoom species = false) (hnonempty : species ≠ "") (count : ℕ) :
    roomSize lanes (room species count) = speciesLanes lanes species * count := by
  by_cases hcount : count = 1
  · rw [hcount, room, if_pos rfl, roomSize, hvector, if_neg Bool.false_ne_true, parts, hspecies, Option.getD_none]
  · rw [roomSize, elementRoom_room hcount, if_neg Bool.false_ne_true, parts_room hnonempty hcount]

/-! The rooms of a cursor. -/

section

variable {counts : String → ℕ} {lanes : String → ℕ} {cursor : ℕ}

/-- A room of the cursor below the count of its root. -/
def Fits (counts lanes : String → ℕ) (cursor : ℕ) (entry : String × String) : Prop :=
  cursor + roomSize lanes entry.2 ≤ counts entry.1

theorem mem_of_get {spans : Spans} {root room : String} (h : spans.get root = some room) : (root, room) ∈ spans := by
  rw [Spans.get, Option.map_eq_some_iff] at h
  obtain ⟨⟨root', room'⟩, hfind, rfl⟩ := h
  have hroot := List.find?_some hfind
  rw [decide_eq_true_eq] at hroot
  rw [← hroot]
  exact List.mem_of_find?_eq_some hfind

theorem mem_put {spans : Spans} {root room : String} {entry : String × String} (h : entry ∈ spans.put root room) :
    entry ∈ spans ∨ entry = (root, room) := by
  rw [Spans.put] at h
  split at h
  · obtain ⟨entry', hmem, rfl⟩ := List.mem_map.mp h
    split
    · exact Or.inr rfl
    · exact Or.inl hmem
  · rcases List.mem_append.mp h with h | h
    · exact Or.inl h
    · exact Or.inr (List.mem_singleton.mp h)

theorem fits_withBound {spans : Spans} (hspans : ∀ entry ∈ spans, Fits counts lanes cursor entry) {root room : String}
    (hroom : Fits counts lanes cursor (root, room)) :
    ∀ entry ∈ withBound spans root room, Fits counts lanes cursor entry := by
  intro entry hentry
  rcases mem_put hentry with hmem | rfl
  · exact hspans entry hmem
  · rcases widen_eq (spans.get root) room with heq | hheld
    · rw [heq]
      exact hroom
    · exact hspans _ (mem_of_get hheld)

/-- The rooms after a sequence of bounds, each proved for the cursor. -/
def recorded (bounds : List (String × String)) : Spans :=
  bounds.foldl (fun spans (root, room) => withBound spans root room) []

theorem fits_recorded {bounds : List (String × String)} (hbounds : ∀ entry ∈ bounds, Fits counts lanes cursor entry) :
    ∀ entry ∈ recorded bounds, Fits counts lanes cursor entry := by
  have hfold : ∀ (bounds : List (String × String)) (spans : Spans),
      (∀ entry ∈ bounds, Fits counts lanes cursor entry) → (∀ entry ∈ spans, Fits counts lanes cursor entry) →
      ∀ entry ∈ bounds.foldl (fun spans (root, room) => withBound spans root room) spans,
        Fits counts lanes cursor entry := by
    intro bounds
    induction bounds with
    | nil => exact fun spans _ hspans => hspans
    | cons bound bounds ih =>
      intro spans hbounds hspans
      exact ih _ (fun entry hentry => hbounds entry (List.mem_cons_of_mem _ hentry))
        (fits_withBound hspans (hbounds bound List.mem_cons_self))
  exact hfold bounds [] hbounds fun entry hentry => by cases hentry

/-- A map between spans whose counts are so ordered. -/
def RelatedSound (counts : String → ℕ) (related : Option Related) : Prop :=
  ∀ root counted, reaches related root counted = true → counts root ≤ counts counted

/-- A reach that the count admits, when it is of any element at all. -/
def Admits (counts : String → ℕ) (cursor : ℕ) (counted : String) (n : ℤ) : Prop :=
  0 < n → cursor + n ≤ counts counted

theorem Admits.max {counted : String} {m n : ℤ} (hm : Admits counts cursor counted m)
    (hn : Admits counts cursor counted n) : Admits counts cursor counted (max m n) := by
  intro hpos
  rcases le_total m n with hle | hle
  · rw [max_eq_right hle] at hpos ⊢
    exact hn hpos
  · rw [max_eq_left hle] at hpos ⊢
    exact hm hpos

theorem admits_carried {root counted : String} {held : ℕ} (hheld : cursor + held ≤ counts root)
    {transfers : List RoomTransfer} (htransfers : ∀ transfer ∈ transfers, Sound counts root counted transfer) {most : ℤ}
    (hmost : Admits counts cursor counted most) :
    Admits counts cursor counted
      (transfers.foldl (fun most transfer => max most (transfer.factor * (held : ℤ) - transfer.offset)) most) := by
  induction transfers generalizing most with
  | nil => exact hmost
  | cons transfer transfers ih =>
    refine ih (fun transfer' h => htransfers transfer' (List.mem_cons_of_mem _ h)) (hmost.max fun _ => ?_)
    obtain ⟨hfactor, hcounts⟩ := htransfers transfer List.mem_cons_self
    -- the room is multiplied by the factor, and the cursor, which is not negative, need not be
    have hscaled : (transfer.factor : ℤ) * (cursor + held) ≤ transfer.factor * counts root := by
      exact_mod_cast Nat.mul_le_mul_left transfer.factor hheld
    have hcursor : (cursor : ℤ) ≤ transfer.factor * cursor := by
      exact_mod_cast Nat.le_mul_of_pos_left cursor hfactor
    rw [mul_add] at hscaled
    omega

theorem reach_le {related : Option Related} {transfers : Option RoomTransfers} (hlanes : ∀ species, 1 ≤ lanes species)
    (hrelated : RelatedSound counts related) {counted : String}
    (htransfers : ∀ root, ∀ transfer ∈ carried transfers root counted, Sound counts root counted transfer)
    {spans : Spans} (hspans : ∀ entry ∈ spans, Fits counts lanes cursor entry) :
    Admits counts cursor counted
      (spans.foldl (reachFrom related transfers counted) (elements (spans.get counted))) := by
  have hstart : Admits counts cursor counted (elements (spans.get counted)) := by
    cases hget : spans.get counted with
    | none => exact fun hpos => absurd hpos (lt_irrefl _)
    | some room =>
      intro _
      have hfits := hspans _ (mem_of_get hget)
      have hle := elements_le hlanes room
      rw [Fits] at hfits
      dsimp only at hfits
      omega
  have hfold : ∀ (l : Spans) (most : ℤ), (∀ entry ∈ l, Fits counts lanes cursor entry) →
      Admits counts cursor counted most →
      Admits counts cursor counted (l.foldl (reachFrom related transfers counted) most) := by
    intro l
    induction l with
    | nil => exact fun most _ hmost => hmost
    | cons entry l ih =>
      intro most hl hmost
      have hle := elements_le hlanes entry.2
      have hfits : cursor + elements (some entry.2) ≤ counts entry.1 := by
        have hentry := hl entry List.mem_cons_self
        rw [Fits] at hentry
        omega
      refine ih _ (fun entry' h => hl entry' (List.mem_cons_of_mem _ h)) ?_
      refine admits_carried hfits (htransfers entry.1) ?_
      split
      · rename_i hreaches
        refine hmost.max fun _ => ?_
        have hcounts := hrelated entry.1 counted hreaches
        omega
      · exact hmost
  exact hfold spans _ hspans hstart

theorem covered_le {related : Option Related} (hrelated : RelatedSound counts related) {counted species : String}
    {count : Option ℕ} (hspecies : elementRoom species = false) {spans : Spans}
    (hspans : ∀ entry ∈ spans, Fits counts lanes cursor entry)
    (h : (covers (spans.get counted) species count ||
      spans.any fun (root, room) => reaches related root counted && covers (some room) species count) = true) :
    cursor + speciesLanes lanes species * count.getD 1 ≤ counts counted := by
  have hroom : ∀ root room, (root, room) ∈ spans → covers (some room) species count = true →
      cursor + speciesLanes lanes species * count.getD 1 ≤ counts root := by
    intro root room hmem hcovers
    have hfits := hspans _ hmem
    have hle := covers_le lanes hcovers hspecies
    rw [Fits] at hfits
    dsimp only at hfits
    omega
  rcases (Bool.or_eq_true _ _).mp h with hdirect | hany
  · cases hget : spans.get counted with
    | none =>
      rw [hget] at hdirect
      cases hdirect
    | some room =>
      rw [hget] at hdirect
      exact hroom counted room (mem_of_get hget) hdirect
  · obtain ⟨⟨root, room⟩, hmem, hcovers⟩ := List.any_eq_true.mp hany
    obtain ⟨hreaches, hcovers⟩ := (Bool.and_eq_true _ _).mp hcovers
    exact (hroom root room hmem hcovers).trans (hrelated root counted hreaches)

end

/-- What the rooms of a cursor answer is below the count asked for: the elements it reaches, when there is any, and
the vectors it covers. -/
theorem room_not_overestimated {counts : String → ℕ} {uniforms : String → ℤ} {lanes : String → ℕ}
    {written : List Relation} {spans : List String} {terms : List Term} {bounds : CursorBounds} {name : String}
    {cursor : ℕ} {proved : List (String × String)} {related : Option Related}
    (hmeets : Meets counts uniforms written) (hscaled : Scaled (mentioned written ++ terms))
    (hlanes : ∀ species, 1 ≤ lanes species) (hrelated : RelatedSound counts related)
    (hbounds : bounds name = some (recorded proved))
    (hproved : ∀ entry ∈ proved, cursor + roomSize lanes entry.2 ≤ counts entry.1) (counted : String) :
    (0 < reach bounds name (some counted) related (some (transfers (solve written spans terms) spans)) →
      cursor + reach bounds name (some counted) related (some (transfers (solve written spans terms) spans)) ≤
        counts counted) ∧
      ∀ species count, elementRoom species = false →
        coveredThrough bounds name (some counted) related species count = true →
        cursor + speciesLanes lanes species * count.getD 1 ≤ counts counted := by
  have hspans := fits_recorded hproved
  constructor
  · simp only [reach, hbounds]
    exact reach_le hlanes hrelated (fun root transfer h => carried_sound hmeets hscaled h) hspans
  · intro species count hspecies hcovered
    simp only [coveredThrough, hbounds] at hcovered
    exact covered_le hrelated hspecies hspans hcovered

/-- `#rgb == 3 * #grey`. -/
def tripled : List Relation :=
  [⟨count "rgb", scaledCount "grey" 3, 0⟩, ⟨scaledCount "grey" 3, count "rgb", 0⟩]

/-- Two vectors of eight checked below `#grey`, which the guards prove no longer than `#rgb`. -/
def tripledBounds : CursorBounds := fun name =>
  if name = "i" then some (recorded [("grey", "simd_species_f32_fixed8@2")]) else none

def tripledRelated : Related := fun root =>
  if root = "grey" then some fun counted => counted = "grey" || counted = "rgb" else none

def tripledTransfers : RoomTransfers :=
  transfers (solve tripled ["grey", "rgb"] [.zero, count "grey", count "rgb"]) ["grey", "rgb"]

/-- With twenty of one and sixty of the other, the sixteen elements past the first are forty-eight. -/
theorem tripled_not_overestimated :
    1 + reach tripledBounds "i" (some "rgb") (some tripledRelated) (some tripledTransfers) ≤ 60 ∧
      coveredThrough tripledBounds "i" (some "rgb") (some tripledRelated) "simd_species_u32_fixed8" (some 2) = true ∧
      1 + 8 * 2 ≤ 60 := by
  have hrelated : RelatedSound (fun name => if name = "grey" then 20 else 60) (some tripledRelated) := by
    intro root counted hreaches
    by_cases hroot : root = "grey"
    · subst hroot
      by_cases hcounted : counted = "grey" <;> simp [hcounted]
    · simp only [reaches, tripledRelated, Option.bind_some, if_neg hroot] at hreaches
      cases hreaches
  obtain ⟨hreach, hcovered⟩ := @room_not_overestimated (fun name => if name = "grey" then 20 else 60) (fun _ => 0)
    (fun _ => 1) tripled ["grey", "rgb"] [.zero, count "grey", count "rgb"] tripledBounds "i" 1
    [("grey", "simd_species_f32_fixed8@2")] (some tripledRelated) (by decide) (by decide) (fun _ => le_rfl) hrelated rfl
    (by decide +kernel) "rgb"
  exact ⟨hreach (by decide +kernel), by decide +kernel,
    hcovered "simd_species_u32_fixed8" (some 2) (by decide) (by decide +kernel)⟩

/-- A cursor that nothing bounded is past a count that a reach of zero would admit. -/
theorem reach_unbounded :
    ¬∀ (counts : String → ℕ) (cursor : ℕ),
      cursor + reach (fun _ => some (recorded [])) "i" (some "out") none
        (some (transfers (solve [] ["out"] [.zero, count "out"]) ["out"])) ≤ counts "out" := by
  intro h
  have hbound := h (fun _ => 0) 1
  exact absurd hbound (by decide)

end Nupp.Aot.simdbounds
