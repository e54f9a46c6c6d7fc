import Mathlib.Data.List.Sort
import Mathlib.Data.String.Basic

/-! Difference constraints over the facts a kernel's guards state (`nupp/compiler/aot/relations.nupp`). -/

namespace Nupp.Aot

inductive Term where
  | zero
  | uniform (name : String)
  | count (name : String) (factor : Option ℕ)
deriving DecidableEq

/-- `left <= right + offset`. -/
structure Relation where
  left : Term
  right : Term
  offset : ℤ
deriving DecidableEq

namespace relations

def INFINITE : ℤ := 1073741824
def MAX_OFFSET : ℤ := 1048576
def BUDGET : ℕ := 128

/-- Positions count from one; zero stands for none in `edge` and `mid`. -/
structure Table where
  dist : ℕ → ℕ → ℤ
  edge : ℕ → ℕ → ℕ
  mid : ℕ → ℕ → ℕ

structure Closure where
  terms : List Term
  indexOf : String → Option ℕ
  pool : List Relation
  table : Table
  contradiction : Option Term

/-! Terms. -/

def key : Term → String
  | .zero => "0"
  | .uniform name => "u:" ++ name
  | .count name none => "#" ++ name
  | .count name (some factor) => toString factor ++ "*" ++ ("#" ++ name)

def count (name : String) : Term := .count name none

def scaledCount (name : String) (factor : ℕ) : Term := if factor = 1 then count name else .count name (some factor)

def factorOf : Term → Option ℕ
  | .count _ factor => factor
  | _ => none

/-! The closure. -/

def add (a b : ℤ) : ℤ :=
  if a ≥ INFINITE ∨ b ≥ INFINITE then INFINITE
  else if a + b ≥ INFINITE then INFINITE
  else if a + b ≤ -INFINITE then -INFINITE
  else a + b

/-- The last position of a key. -/
def indexIn (terms : List Term) (k : String) : Option ℕ :=
  (terms.zipIdx 1).foldl (fun found (term, position) => if key term = k then some position else found) none

def Table.write (t : Table) (i j : ℕ) (dist : ℤ) (edge mid : ℕ) : Table where
  dist a b := if a = i ∧ b = j then dist else t.dist a b
  edge a b := if a = i ∧ b = j then edge else t.edge a b
  mid a b := if a = i ∧ b = j then mid else t.mid a b

def blank : Table where
  dist i j := if i = j then 0 else INFINITE
  edge _ _ := 0
  mid _ _ := 0

/-- One relation of the pool, as the edge from its right term to its left one. -/
def load (indexOf : String → Option ℕ) (t : Table) (position : ℕ) (relation : Relation) : Table :=
  match indexOf (key relation.right), indexOf (key relation.left) with
  | some i, some j => if relation.offset < t.dist i j then t.write i j relation.offset position 0 else t
  | _, _ => t

def loadAll (indexOf : String → Option ℕ) (pool : List Relation) : Table :=
  (pool.zipIdx 1).foldl (fun t (relation, position) => load indexOf t position relation) blank

def relaxCell (k i : ℕ) (throughLeft : ℤ) (t : Table) (j : ℕ) : Table :=
  let through := add throughLeft (t.dist k j)
  if through < t.dist i j then t.write i j through 0 k else t

def relaxRow (size k : ℕ) (t : Table) (i : ℕ) : Table :=
  let throughLeft := t.dist i k
  if throughLeft < INFINITE then (List.range' 1 size).foldl (relaxCell k i throughLeft) t else t

def relaxThrough (size : ℕ) (t : Table) (k : ℕ) : Table := (List.range' 1 size).foldl (relaxRow size k) t

def relax (size : ℕ) (t : Table) : Table := (List.range' 1 size).foldl (relaxThrough size) t

def closure (pool : List Relation) (terms : List Term) : Closure :=
  let indexOf := indexIn terms
  let table := relax terms.length (loadAll indexOf pool)
  { terms, indexOf, pool, table
    contradiction := ((terms.zipIdx 1).find? fun (_, i) => table.dist i i < 0).map Prod.fst }

/-! The facts that no source has to write. -/

def axioms (spans : List String) : List Relation := spans.map fun name => ⟨.zero, count name, 0⟩

def isScaled (term : Term) : Bool := (factorOf term).isSome

/-- The terms of a pool, left before right. -/
def mentioned (pool : List Relation) : List Term := pool.flatMap fun relation => [relation.left, relation.right]

/-- The scaled counts a pool mentions, each once, in the order of their keys. -/
def scaledTerms (pool : List Relation) : List Term :=
  let found := ((mentioned pool).filter isScaled).foldl
    (fun seen term => if key term ∈ seen.map key then seen else seen ++ [term]) []
  found.insertionSort fun a b => key a ≤ key b

def smallerThan : Term → Term → Bool
  | .count name (some smaller), .count name' (some larger) => name = name' && smaller < larger
  | _, _ => false

def nameOf : Term → String
  | .zero => "nil"
  | .uniform name => name
  | .count name _ => name

def scaledAxioms (scaled : List Term) : List Relation :=
  scaled.flatMap fun term =>
    ⟨count (nameOf term), term, 0⟩ :: ⟨.zero, term, 0⟩ ::
      (scaled.filter (smallerThan · term)).map fun smaller => ⟨smaller, term, 0⟩

/-- The pool that a closure is built over. -/
def facts (written : List Relation) (spans : List String) : List Relation :=
  written ++ axioms spans ++ scaledAxioms (scaledTerms written)

def universeOf (written : List Relation) (terms : List Term) : List Term := terms ++ scaledTerms written

def solve (written : List Relation) (spans : List String) (terms : List Term) : Closure :=
  closure (facts written spans) (universeOf written terms)

/-! Carrying a cursor's room from one span to another. -/

structure RoomTransfer where
  factor : ℕ
  offset : ℤ

/-- Every proved transfer, by the span a cursor is bounded against and then by the span the bound carries to. -/
abbrev RoomTransfers := String → Option (String → Option (List RoomTransfer))

/-- The transfer that a term of the closure is, when it is a multiple of the length of `from_`. -/
def transferOf (c : Closure) (from_ : String) (into position : ℕ) : Term → Option RoomTransfer
  | .count name factor =>
    let offset := c.table.dist into position
    if name = from_ ∧ offset < INFINITE ∧ offset > -INFINITE then some ⟨factor.getD 1, offset⟩ else none
  | _ => none

def found (c : Closure) (from_ to_ : String) : List RoomTransfer :=
  match c.indexOf (key (count to_)) with
  | some into => (c.terms.zipIdx 1).filterMap fun (term, position) => transferOf c from_ into position term
  | none => []

def transfers (c : Closure) (spans : List String) : RoomTransfers := fun from_ =>
  if from_ ∈ spans then
    some fun to_ => if to_ ∈ spans ∧ found c from_ to_ ≠ [] then some (found c from_ to_) else none
  else none

/-! Proving. -/

/-- The positions in the pool that a least path is made of, appended to `out`; `none` when the fuel runs out. -/
def contributing (t : Table) : ℕ → ℕ → ℕ → List ℕ → Option (List ℕ)
  | 0, _, _, _ => none
  | fuel + 1, i, j, out =>
    let through := t.mid i j
    if through ≠ 0 then do
      let out ← contributing t fuel i through out
      contributing t fuel through j out
    else
      let used := t.edge i j
      some (if used ≠ 0 then out ++ [used] else out)

/-- `closure.pool[position]`, each once. -/
def usedRelations (pool : List Relation) (indices : List ℕ) : List Relation :=
  (indices.foldl (fun seen position => if position ∈ seen then seen else seen ++ [position]) []).filterMap
    fun position => pool[position - 1]?

/-- Whether `left <= right + offset` follows, and from which relations; `none` when the fuel runs out. -/
def proves (c : Closure) (fuel : ℕ) (left right : Term) (offset : ℤ) : Option (Option (List Relation)) :=
  match c.indexOf (key right), c.indexOf (key left) with
  | some i, some j =>
    if c.table.dist i j > offset then some none
    else (contributing c.table fuel i j []).map fun indices => some (usedRelations c.pool indices)
  | _, _ => some none

end relations

end Nupp.Aot
