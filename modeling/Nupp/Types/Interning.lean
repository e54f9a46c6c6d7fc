import Mathlib.Data.List.Infix
import Mathlib.Data.Multiset.Basic
import Mathlib.Logic.Relation
import Nupp.Lib.Delimited
import Nupp.Lua.Data

/-! The interning of structural types: the serials a process issues, the keys that the
constructors spell, and the arenas that hold one object for each key. -/

namespace Nupp.interning

open Decimal Delimited Nupp.Data

/-- `identityNamespace`: empty, or that of a worker's lane. -/
def spaceText : Option ℕ → Bytes
  | none => []
  | some lane => ascii "@cold:" ++ numeral lane ++ ascii ":"

inductive Mark
  | typevar | packvar | constvar | projection
deriving DecidableEq

def Mark.text : Mark → Bytes
  | .typevar => ascii "!t"
  | .packvar => ascii "!p"
  | .constvar => ascii "!c"
  | .projection => ascii "!j"

def MARKS : List Mark := [.typevar, .packvar, .constvar, .projection]

/-- The marks `key`'s parts carry. -/
def inheritedMarks (key : Bytes) : List Mark := MARKS.filter fun mark => decide (mark.text <:+: key)

/-- The arenas, each with the prefix of the serials it gives. -/
inductive Bucket
  | types | packs | packVars
deriving DecidableEq

def Bucket.letters : Bucket → Bytes
  | .types => ascii "t"
  | .packs => ascii "p"
  | .packVars => ascii "pv"

/-- The name of a declaration, which has no colon. -/
structure NominalName where
  bytes : Bytes
  plain : 58 ∉ bytes
deriving DecidableEq

/-- What a type, a pack or a pack variable is known by. -/
inductive Id
  | serial (marks : List Mark) (bucket : Bucket) (space : Option ℕ) (number : ℕ)
  | nominal (space : Option ℕ) (counter : ℕ) (name : NominalName)
deriving DecidableEq

def Id.text : Id → Bytes
  | .serial marks bucket space number =>
    marks.flatMap Mark.text ++ bucket.letters ++ spaceText space ++ numeral number
  | .nominal space counter name =>
    ascii "nominal#" ++ spaceText space ++ numeral counter ++ ascii "(" ++ name.bytes ++ ascii ")"

/-- `part and part.id or "-"` -/
def slot : Option Id → Bytes := optional 45 Id.text

inductive Capability
  | read | write
deriving DecidableEq

/-- A field of a structural shape; `type` is shorthand for `read = write = type`. -/
structure Field where
  name : Bytes
  type : Option Id
  read : Option Id
  write : Option Id
  capability : Option Capability
deriving DecidableEq

structure Slots where
  name : Bytes
  read : Option Id
  write : Option Id
deriving DecidableEq

/-- The read and the write type that `shape` leaves in a field. -/
def Field.slots (f : Field) : Slots :=
  match f.type with
  | none => ⟨f.name, f.read, f.write⟩
  | some type =>
    match f.capability with
    | some .read => ⟨f.name, some type, f.write⟩
    | some .write => ⟨f.name, f.read, some type⟩
    | none => ⟨f.name, some type, some type⟩

def Slots.text (f : Slots) : Bytes :=
  f.name ++ ascii ":r=" ++ slot f.read ++ ascii ":w=" ++ slot f.write

structure Indexer where
  readKey : Option Id
  readValue : Option Id
  writeKey : Option Id
  writeValue : Option Id
deriving DecidableEq

def Indexer.text (ix : Indexer) : Bytes :=
  ascii "[r=" ++ slot ix.readKey ++ ascii ":" ++ slot ix.readValue ++ ascii ":w=" ++
    slot ix.writeKey ++ ascii ":" ++ slot ix.writeValue ++ ascii "]"

/-- The parts of a shape's key, the indexer's last. -/
def shapeParts (fields : List Slots) (ix : Indexer) : List Bytes :=
  fields.map Slots.text ++ [ix.text]

def flags (fresh closed : Bool) : Bytes :=
  (if fresh then ascii "!fresh" else []) ++ if closed then ascii "!closed" else []

/-- The text of a mode or of a label. -/
def isWord (b : UInt8) : Bool :=
  isDigit b || (65 ≤ b && b ≤ 90) || b == 95 || (97 ≤ b && b ≤ 122) || 128 ≤ b

structure Word where
  bytes : Bytes
  plain : ∀ b ∈ bytes, isWord b = true
deriving DecidableEq

def plain : Word := ⟨ascii "plain", by decide +kernel⟩

def unlabeled : Word := ⟨[], by simp⟩

/-- A pack variable, which is known by the serial that follows its mark. -/
structure PackVar where
  space : Option ℕ
  number : ℕ
deriving DecidableEq

def PackVar.id (var : PackVar) : Id := .serial [.packvar] .packVars var.space var.number

inductive PackTail
  | homogeneous (type : Id) (mode : Option Word)
  | generic (var : PackVar)
  | computed (type : Id)
  | slice (id : Bytes)
  | unknown
deriving DecidableEq

def packTailId : Option PackTail → Bytes
  | none => []
  | some (.homogeneous type mode) =>
    ascii "..." ++ (mode.getD plain).bytes ++ ascii ":" ++ type.text
  | some (.generic var) => var.id.text ++ ascii "..."
  | some (.computed type) => ascii "unpackof(" ++ type.text ++ ascii ")"
  | some (.slice id) => ascii "slice(" ++ id ++ ascii ")"
  | some .unknown => ascii "...unknown"

/-- A position of a pack's head. -/
structure Entry where
  type : Id
  mode : Word
  name : Word
deriving DecidableEq

def Entry.text (e : Entry) : Bytes :=
  e.mode.bytes ++ ascii ":" ++ e.type.text ++
    if e.name.bytes = [] then [] else ascii "=" ++ e.name.bytes

/-- The head's types, each with its mode and its label or what stands for a missing one. -/
def entries : List Id → List Word → List Word → List Entry
  | [], _, _ => []
  | t :: head, modes, names =>
    ⟨t, modes.head?.getD plain, names.head?.getD unlabeled⟩ :: entries head modes.tail names.tail

/-- A call of a constructor. -/
inductive Call
  | shape (fields : List Field) (index : Option Indexer) (fresh closed : Bool)
  | tuple (elems : List Id)
  | indexer (parts : Indexer)
  | pack (head : List Id) (tail : Option PackTail) (modes names : List Word)
  | projection (of : Id) (name : Bytes)

def absent : Indexer := ⟨none, none, none, none⟩

section Keys

-- `table.sort`, by the fields' names
variable (sort : List Slots → List Slots)

def Call.key : Call → Bytes
  | .shape fields index fresh closed =>
    ascii "shape(" ++
      joined 44 (shapeParts (sort (fields.map Field.slots)) (index.getD absent)) ++
      ascii ")" ++ flags fresh closed
  | .tuple elems => ascii "tuple(" ++ joined 44 (elems.map Id.text) ++ ascii ")"
  | .indexer ix =>
    ascii "index(" ++ slot ix.readKey ++ ascii ":" ++ slot ix.readValue ++ ascii "," ++
      slot ix.writeKey ++ ascii ":" ++ slot ix.writeValue ++ ascii ")"
  | .pack head tail modes names =>
    ascii "pack(" ++ joined 44 ((entries head modes names).map Entry.text) ++ packTailId tail ++
      ascii ")"
  | .projection of name => ascii "!jproj(" ++ of.text ++ ascii "," ++ name ++ ascii ")"

def Call.bucket : Call → Bucket
  | .pack .. => .packs
  | _ => .types

end Keys

/-- The argument structure of a call: the fields in no order, what is left out filled in. -/
inductive Structure
  | shape (fields : Multiset Slots) (index : Indexer) (fresh closed : Bool)
  | tuple (elems : List Id)
  | indexer (parts : Indexer)
  | pack (head : List Entry) (tail : Option PackTail)
  | projection (of : Id) (name : Bytes)

def PackTail.filled : PackTail → PackTail
  | .homogeneous type mode => .homogeneous type (some (mode.getD plain))
  | tail => tail

def Call.structure : Call → Structure
  | .shape fields index fresh closed =>
    .shape ↑(fields.map Field.slots) (index.getD absent) fresh closed
  | .tuple elems => .tuple elems
  | .indexer parts => .indexer parts
  | .pack head tail modes names => .pack (entries head modes names) (tail.map PackTail.filled)
  | .projection of name => .projection of name

/-- A process: its counters, its arenas and, as a ghost, every id it has issued. -/
structure Process where
  serial : ℕ
  nominal : ℕ
  space : Option ℕ
  arena : Bucket → Bytes → Option Id
  issued : List Id

def Process.start : Process := ⟨0, 0, none, fun _ _ => none, []⟩

/-- The object under a key, made on a miss with the marks that its id is to carry. -/
def Process.intern (p : Process) (bucket : Bucket) (key : Bytes) (marks : List Mark) :
    Id × Process :=
  match p.arena bucket key with
  | some found => (found, p)
  | none =>
    let made := Id.serial marks bucket p.space (p.serial + 1)
    (made, { p with
      serial := p.serial + 1
      arena := Function.update p.arena bucket (Function.update (p.arena bucket) key (some made))
      issued := made :: p.issued })

def Process.nominalType (p : Process) (name : NominalName) : Id × Process :=
  let made := Id.nominal p.space (p.nominal + 1) name
  (made, { p with nominal := p.nominal + 1, issued := made :: p.issued })

/-- `setIdentityNamespace("cold", lane)`; a second lane raises. -/
def Process.setIdentityNamespace (p : Process) (lane : ℕ) : Option Process :=
  match p.space with
  | none => some { p with space := some lane }
  | some set => if set = lane then some p else none

def Process.resumeIdentity (p : Process) (serial nominal : ℕ) : Process :=
  { p with serial := max p.serial serial, nominal := max p.nominal nominal }

def Process.call (sort : List Slots → List Slots) (p : Process) (c : Call) : Id × Process :=
  p.intern c.bucket (c.key sort) (inheritedMarks (c.key sort))

/-- What a process does to its identities; the other constructors intern keys of their own. -/
inductive Step : Process → Process → Prop
  | intern (p : Process) (bucket : Bucket) (key : Bytes) (marks : List Mark) :
    Step p (p.intern bucket key marks).2
  | nominal (p : Process) (name : NominalName) : Step p (p.nominalType name).2
  | setIdentityNamespace {p q : Process} {lane : ℕ} (h : p.setIdentityNamespace lane = some q) :
    Step p q
  | resumeIdentity (p : Process) (serial nominal : ℕ) : Step p (p.resumeIdentity serial nominal)

/-- Every run of a process. -/
def Run : Process → Process → Prop := Relation.ReflTransGen Step

def Slots.ids (f : Slots) : List Id := f.read.toList ++ f.write.toList

def Indexer.ids (ix : Indexer) : List Id :=
  ix.readKey.toList ++ ix.readValue.toList ++ ix.writeKey.toList ++ ix.writeValue.toList

def PackTail.ids : PackTail → List Id
  | .homogeneous type _ => [type]
  | .generic var => [var.id]
  | .computed type => [type]
  | .slice _ | .unknown => []

/-- The ids of a call's components. -/
def Call.ids : Call → List Id
  | .shape fields index _ _ =>
    (fields.map Field.slots).flatMap Slots.ids ++ (index.getD absent).ids
  | .tuple elems => elems
  | .indexer parts => parts.ids
  | .pack head tail _ _ => head ++ tail.toList.flatMap PackTail.ids
  | .projection of _ => [of]

end Nupp.interning

/-! What the keys of structural types can be read back as. The id of a component ends where
its digits or its parenthesis do; a field's name has no such end. -/

namespace Nupp.interning

open Decimal Delimited Nupp.Data

/-- A declaration's counter determines its name. -/
def Consistent (S : Set Id) : Prop :=
  ∀ space counter name name', Id.nominal space counter name ∈ S →
    Id.nominal space counter name' ∈ S → name = name'

section Serials

theorem stops_of_head {p : UInt8 → Bool} {s x : Bytes} {c : UInt8} (hs : s.head? = some c)
    (hc : p c = false) : Stops p (s ++ x) := by
  cases s with
  | nil => cases hs
  | cons d s =>
    cases hs
    simpa using hc

theorem stops_numeral (n : ℕ) (x : Bytes) {p : UInt8 → Bool}
    (hp : ∀ b, isDigit b = true → p b = false) : Stops p (numeral n ++ x) := by
  obtain ⟨d, ds, hcons⟩ := List.exists_cons_of_ne_nil (numeral_ne_nil n)
  have hd : isDigit d = true := isDigit_of_mem_numeral (n := n) (by simp [hcons])
  simp [hcons, hp d hd]

theorem numeral_cut {m n : ℕ} {x y : Bytes} (hx : Stops isDigit x) (hy : Stops isDigit y)
    (h : numeral m ++ x = numeral n ++ y) : m = n ∧ x = y := by
  obtain ⟨hdigits, hrest⟩ := run_unique (fun _ => isDigit_of_mem_numeral)
    (fun _ => isDigit_of_mem_numeral) hx hy h
  exact ⟨numeral_injective hdigits, hrest⟩

theorem numeral_append_ne {n : ℕ} {x y : Bytes} {c : UInt8} (hc : isDigit c = false) :
    numeral n ++ x ≠ c :: y := by
  intro h
  have hstops := stops_numeral n x (p := fun b => b == c) (by
    intro b hb
    rw [beq_eq_false_iff_ne]
    rintro rfl
    simp [hc] at hb)
  rw [h] at hstops
  simp at hstops

theorem space_cut {s s' : Option ℕ} {m n : ℕ} {x y : Bytes} (hx : Stops isDigit x)
    (hy : Stops isDigit y)
    (h : spaceText s ++ (numeral m ++ x) = spaceText s' ++ (numeral n ++ y)) :
    s = s' ∧ m = n ∧ x = y := by
  cases s with
  | none =>
    cases s' with
    | none =>
      obtain ⟨rfl, hrest⟩ := numeral_cut hx hy h
      exact ⟨rfl, rfl, hrest⟩
    | some lane => exact absurd h (numeral_append_ne (by decide))
  | some lane =>
    cases s' with
    | none => exact absurd h.symm (numeral_append_ne (by decide))
    | some lane' =>
      simp only [spaceText, List.append_assoc] at h
      have hlane := List.append_cancel_left h
      obtain ⟨rfl, hnumber⟩ := numeral_cut (stops_of_head rfl rfl) (stops_of_head rfl rfl) hlane
      obtain ⟨rfl, hrest⟩ := numeral_cut hx hy (List.append_cancel_left hnumber)
      exact ⟨rfl, rfl, hrest⟩

theorem marks_cut {ms ns : List Mark} {x y : Bytes} (hx : x.head? ≠ some 33)
    (hy : y.head? ≠ some 33) (h : ms.flatMap Mark.text ++ x = ns.flatMap Mark.text ++ y) :
    ms = ns ∧ x = y := by
  have hmark : ∀ (m : Mark), ∃ c, m.text = [33, c] := by
    intro m
    cases m <;> exact ⟨_, rfl⟩
  have hinj : ∀ m n : Mark, m.text = n.text → m = n := by
    intro m n
    cases m <;> cases n <;> decide
  induction ms generalizing ns with
  | nil =>
    cases ns with
    | nil => exact ⟨rfl, h⟩
    | cons n ns =>
      obtain ⟨c, hc⟩ := hmark n
      rw [show x = _ from h] at hx
      simp [hc] at hx
  | cons m ms ih =>
    obtain ⟨c, hc⟩ := hmark m
    cases ns with
    | nil =>
      rw [← show _ = y from h] at hy
      simp [hc] at hy
    | cons n ns =>
      obtain ⟨d, hd⟩ := hmark n
      simp only [List.flatMap_cons, hc, hd, List.cons_append, List.nil_append,
        List.cons.injEq, true_and] at h
      obtain ⟨rfl, hrest⟩ := h
      obtain ⟨rfl, rfl⟩ := ih hrest
      exact ⟨by rw [hinj m n (by rw [hc, hd])], rfl⟩

theorem letters_cut {k k' : Bucket} {s s' : Option ℕ} {m n : ℕ} {x y : Bytes}
    (h : k.letters ++ (spaceText s ++ (numeral m ++ x)) =
      k'.letters ++ (spaceText s' ++ (numeral n ++ y))) :
    k = k' ∧ spaceText s ++ (numeral m ++ x) = spaceText s' ++ (numeral n ++ y) := by
  -- no number and no space begins with the `v` of a pack variable
  have hv : ∀ (s : Option ℕ) (n : ℕ) (x y : Bytes), spaceText s ++ (numeral n ++ x) ≠ 118 :: y := by
    intro s n x y
    cases s with
    | none => exact numeral_append_ne (by decide)
    | some lane => simp [spaceText, ascii]
  cases k <;> cases k' <;> simp only [Bucket.letters, ascii] at h <;> simp_all
  case packVars.packs => exact absurd h.symm (hv _ _ _ _)

end Serials

section Ids

variable {S : Set Id}

/-- The first byte of an id: of a mark, of a serial's prefix or of `nominal#`. -/
theorem Id.head_text (a : Id) : ∃ c z, a.text = c :: z ∧ c ∈ [33, 116, 112, 110] := by
  cases a with
  | serial marks bucket space number =>
    cases marks with
    | nil => cases bucket <;> exact ⟨_, _, rfl, by decide⟩
    | cons mark marks => cases mark <;> exact ⟨_, _, rfl, by decide⟩
  | nominal space counter name => exact ⟨_, _, rfl, by decide⟩

theorem Id.text_append_ne (a : Id) {c : UInt8} (hc : c ∉ [33, 116, 112, 110]) (x y : Bytes) :
    a.text ++ x ≠ c :: y := by
  obtain ⟨d, z, htext, hd⟩ := a.head_text
  rw [htext]
  rintro ⟨rfl, -⟩
  exact hc hd

theorem Id.serial_ne_nominal {ms : List Mark} {k : Bucket} {s s' : Option ℕ} {m n : ℕ}
    {name : NominalName} {x y : Bytes} :
    (Id.serial ms k s m).text ++ x ≠ (Id.nominal s' n name).text ++ y := by
  intro h
  simp only [Id.text, List.append_assoc] at h
  have hnominal : _ = ([] : List Mark).flatMap Mark.text ++ _ := h
  obtain ⟨-, hrest⟩ := marks_cut (by cases k <;> simp [Bucket.letters, ascii])
    (by exact show some (110 : UInt8) ≠ some 33 by decide) hnominal
  have hhead := congrArg List.head? hrest
  cases k with
  | types => exact absurd hhead (show some (116 : UInt8) ≠ some 110 by decide)
  | packs | packVars => exact absurd hhead (show some (112 : UInt8) ≠ some 110 by decide)

/-- An id is read back in front of what is no digit. -/
theorem Id.delimits (hS : Consistent S) : Delimits S Id.text (Stops isDigit) := by
  intro a ha b hb x y hx hy h
  cases a with
  | serial ms k s m =>
    cases b with
    | serial ns k' s' n =>
      simp only [Id.text, List.append_assoc] at h
      obtain ⟨rfl, hletters⟩ := marks_cut (by cases k <;> simp [Bucket.letters, ascii])
        (by cases k' <;> simp [Bucket.letters, ascii]) h
      obtain ⟨rfl, hserial⟩ := letters_cut hletters
      obtain ⟨rfl, rfl, rfl⟩ := space_cut hx hy hserial
      exact ⟨rfl, rfl⟩
    | nominal s' n name' => exact absurd h Id.serial_ne_nominal
  | nominal s m name =>
    cases b with
    | serial ns k' s' n => exact absurd h.symm Id.serial_ne_nominal
    | nominal s' n name' =>
      simp only [Id.text, List.append_assoc] at h
      obtain ⟨rfl, rfl, hname⟩ := space_cut (stops_of_head rfl rfl) (stops_of_head rfl rfl)
        (List.append_cancel_left h)
      obtain rfl := hS s m name name' ha hb
      have hclose := List.append_cancel_left (List.append_cancel_left hname)
      exact ⟨rfl, List.append_cancel_left hclose⟩

theorem slot_delimits (hS : Consistent S) :
    Delimits {o | ∀ a ∈ o, a ∈ S} slot (Stops isDigit) :=
  (Id.delimits hS).optional fun a _ => a.text_append_ne (by decide)

theorem clear_numeral (n : ℕ) : Clear 58 114 (numeral n) :=
  clear_of_not_mem fun h => by simpa [isDigit] using isDigit_of_mem_numeral h

theorem clear_space_numeral (s : Option ℕ) (n : ℕ) :
    Clear 58 114 (spaceText s ++ numeral n) := by
  have hcolon : ∀ n : ℕ, Clear 58 114 (ascii ":" ++ numeral n) := by
    intro n
    obtain ⟨d, ds, hcons⟩ := List.exists_cons_of_ne_nil (numeral_ne_nil n)
    have hd := isDigit_of_mem_numeral (n := n) (b := d) (by simp [hcons])
    have hclear := clear_numeral n
    rw [hcons] at hclear ⊢
    refine Clear.cons_mark ?_ hclear
    rintro rfl
    simp [isDigit] at hd
  cases s with
  | none => exact clear_numeral n
  | some lane =>
    have hcold : Clear 58 114 (ascii "@cold" ++ (ascii ":" ++ numeral lane)) :=
      (clear_of_not_mem (by decide)).append (hcolon lane)
    simpa [spaceText, ascii] using hcold.append (hcolon n)

/-- No id holds a colon in front of an `r`. -/
theorem Id.clear (a : Id) : Clear 58 114 a.text := by
  cases a with
  | serial marks bucket space number =>
    have hmarks : Clear 58 114 (marks.flatMap Mark.text) := clear_of_not_mem (by
      simp only [List.mem_flatMap, not_exists, not_and]
      intro mark _
      cases mark <;> decide)
    have hletters : Clear 58 114 bucket.letters := clear_of_not_mem (by cases bucket <;> decide)
    simpa [Id.text] using (hmarks.append hletters).append (clear_space_numeral space number)
  | nominal space counter name =>
    have hname : Clear 58 114 (ascii "(" ++ name.bytes ++ ascii ")") :=
      clear_of_not_mem (by simpa [ascii] using name.plain)
    have hfront : Clear 58 114 (ascii "nominal#") := clear_of_not_mem (by decide)
    simpa [Id.text] using (hfront.append (clear_space_numeral space counter)).append hname

theorem clear_slot (o : Option Id) : Clear 58 114 (slot o) := by
  cases o with
  | none => exact clear_of_not_mem (by decide)
  | some a => exact a.clear

end Ids

end Nupp.interning
