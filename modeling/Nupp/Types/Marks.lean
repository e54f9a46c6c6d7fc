import Nupp.Types.Interning

/-! `hasTypevar` and `hasProjection`: the marks that ids carry, and the walk that looks past
them. A process's types, packs and const terms are a store in which everything is made of what
was made before. -/

namespace Nupp.marks

open Decimal Nupp.Data Nupp.interning

/-- The place of a type, a pack, a pack variable or a const term in its store. -/
abbrev Ref := ℕ

inductive PrimTag
  | any | unknown | never | «open» | nil | boolean | string | number | integer | table | thread
  | userdata | float | cdata | cstring | voidptr | int8 | int16 | int32 | int64 | uint8 | uint16
  | uint32 | uint64 | type | typepack | functionconst

def PrimTag.text : PrimTag → String
  | .any => "any" | .unknown => "unknown" | .never => "never" | .open => "open" | .nil => "nil"
  | .boolean => "boolean" | .string => "string" | .number => "number" | .integer => "integer"
  | .table => "table" | .thread => "thread" | .userdata => "userdata" | .float => "float"
  | .cdata => "cdata" | .cstring => "cstring" | .voidptr => "voidptr" | .int8 => "int8"
  | .int16 => "int16" | .int32 => "int32" | .int64 => "int64" | .uint8 => "uint8"
  | .uint16 => "uint16" | .uint32 => "uint32" | .uint64 => "uint64" | .type => "type"
  | .typepack => "typepack" | .functionconst => "functionconst"

inductive Cleanup
  | function (key : Bytes)
  | constFunction (term : Ref)
  | closure
  | method (name : Bytes)
  | field (field : Bytes) (cleanup : Cleanup)
  | dropField (field : Bytes)

inductive Obligation
  | cleanup (cleanup : Cleanup) (component : Bytes)
  | transferOnly (component : Bytes)
  | aggregate (children : List Obligation) (component : Bytes)

structure Field where
  name : Bytes
  read : Option Ref
  write : Option Ref

structure Indexer where
  readKey : Option Ref
  readValue : Option Ref
  writeKey : Option Ref
  writeValue : Option Ref

structure Entry where
  type : Ref
  mode : Word
  name : Word

inductive PackTail
  | homogeneous (type : Ref) (mode : Word)
  | generic (var : Ref)
  | computed (type : Ref)
  | slice (id : Bytes)
  | unknown (type : Option Ref)

/-- A function. `outputs` are the texts of its contract up to the const terms of the cleanups
of its C outputs, and `facts` what the contract spells after them. -/
structure Func where
  params : List Ref
  rets : List Ref
  paramPack : Ref
  retPack : Ref
  predicate : Option (ℕ × Ref)
  typeParams : List (Ref × Option Ref)
  packParams : List Ref
  constParams : List Ref
  paramKinds : Bytes
  yieldPack : Option Ref
  resumePack : Option Ref
  outputs : List (Bytes × Ref)
  facts : Bytes

inductive TemplatePart
  | text (s : Bytes)
  | type (t : Ref)

structure Neutral where
  op : Bytes
  capability : Option Bytes
  subject : Option Ref
  key : Option Ref
  binder : Option Ref
  keys : Option Ref
  value : Option Ref
  remap : Option Ref
  constTerm : Option Ref
  templateParts : List TemplatePart

inductive ComptimeArgument
  | type (value : Ref)
  | typepack (value : Ref)
  | const (value : Ref)

/-- What an application of a declaration was applied to. -/
structure Applied where
  typeArgs : List Ref
  packArgs : List Ref
  constArgs : List Ref

/-- What a constructor was called with. -/
inductive Con
  | prim (tag : PrimTag)
  | array (elem : Ref) (elems : Option (List Ref)) (fresh : Bool)
  | indexer (parts : Indexer)
  | tuple (elems : List Ref)
  | shape (fields : List Field) (index : Indexer) (fresh closed : Bool)
  | union (members : List Ref)
  | intersection (members : List Ref)
  | ptr (elem : Ref)
  | affine (inner : Ref) (cleanups : List Cleanup) (transferOnly : Bool) (obligation : Obligation)
  | borrowed (inner : Ref)
  | pinned (inner : Ref)
  | protocolThread (startPack resumePack yieldPack returnPack : Ref)
  | genericAlias (name : Bytes) (body : Ref) (typeParams packParams constParams : List Ref)
  | func (f : Func)
  | literal (value : Bytes) (base : Ref)
  | constrained (base : Ref) (key : Bytes)
  | carray (elem : Ref) (term : Option Ref)
  | constOf (inner : Ref)
  | ctype (of : Ref)
  | typevar (identity : Bytes)
  | typeHandle (bound : Ref)
  | packResult (pack : Ref)
  | neutral (n : Neutral)
  | comptimeCall (identity : Bytes) (arguments : List ComptimeArgument) (bound : Ref)
    (resultPack : Bool)
  | metatable (of : Ref)
  | typeObject (of : Ref)
  | projection (of : Ref) (name : Bytes)
  | nominal (space : Option ℕ) (counter : ℕ) (name : Bytes) (applied : Option Applied)
  | pack (head : List Entry) (tail : Option PackTail)
  | packUnion (alternatives : List Ref)
  | packvar (identity : Bytes)
  | constLiteral (domain value : Bytes)
  | constvar (identity domain : Bytes)
  | constOp (operation : Bytes) (operands : List Ref)

section Keys

/-- The delimiter that stands behind a caller's text. -/
inductive Close
  | comma | colon | paren | bar | angle
deriving DecidableEq

def Close.byte : Close → UInt8
  | .comma => 44 | .colon => 58 | .paren => 41 | .bar => 124 | .angle => 62

/-- A part of a key: text of the code, text of the caller with what ends it, or an id. -/
inductive Piece
  | text (s : String)
  | name (s : Bytes) (close : Close)
  | word (w : Word)
  | number (space : Option ℕ) (n : ℕ)
  | part (q : Ref)

/-- Pieces joined by a text. -/
def joined (sep : String) : List (List Piece) → List Piece
  | [] => []
  | [one] => one
  | one :: next :: rest => one ++ .text sep :: joined sep (next :: rest)

def ids (sep : String) (refs : List Ref) : List Piece := joined sep (refs.map fun q => [.part q])

/-- `part and part.id or "-"` -/
def slot : Option Ref → List Piece
  | none => [.text "-"]
  | some q => [.part q]

/-- A cleanup's id, with the delimiter that the key writes behind it. -/
def Cleanup.pieces (close : Close) : Cleanup → List Piece
  | .function key => [.text "function:", .name key close]
  | .constFunction term => [.text "functionconst:", .part term, .name [] close]
  | .closure => [.text "generated:closure", .name [] close]
  | .method name => [.text "method:", .name name close]
  | .field name of => .text "field:" :: .name name .colon :: of.pieces close
  | .dropField name => [.text "dropfield:", .name name close]

/-- The cleanups' ids between commas, and the colon behind them. -/
def cleanupPieces : List Cleanup → List Piece
  | [] => [.text ":"]
  | [one] => one.pieces .colon
  | one :: next :: rest => one.pieces .comma ++ cleanupPieces (next :: rest)

mutual

/-- `obligationId`, with the delimiter that follows. -/
def Obligation.pieces (close : Close) : Obligation → List Piece
  | .cleanup cleanup component =>
    .text "cleanup(" :: cleanup.pieces .paren ++ [.text "@", .name component close]
  | .transferOnly component => [.text "transfer@", .name component close]
  | .aggregate children component =>
    .text "aggregate(" :: obligationPieces children ++ [.text "@", .name component close]

/-- The children's ids between commas, and the parenthesis behind them. -/
def obligationPieces : List Obligation → List Piece
  | [] => [.text ")"]
  | [one] => one.pieces .paren
  | one :: next :: rest => one.pieces .comma ++ obligationPieces (next :: rest)

end

def Indexer.pieces (ix : Indexer) : List Piece :=
  .text "[r=" :: slot ix.readKey ++ .text ":" :: slot ix.readValue ++ .text ":w=" ::
    slot ix.writeKey ++ .text ":" :: slot ix.writeValue ++ [.text "]"]

def Field.pieces (f : Field) : List Piece :=
  .name f.name .colon :: .text "r=" :: slot f.read ++ .text ":w=" :: slot f.write

def Entry.pieces (e : Entry) : List Piece :=
  [.word e.mode, .text ":", .part e.type] ++
    if e.name.bytes = [] then [] else [.text "=", .word e.name]

def tailPieces : Option PackTail → List Piece
  | none => []
  | some (.homogeneous type mode) => [.text "...", .word mode, .text ":", .part type]
  | some (.generic var) => [.part var, .text "..."]
  | some (.computed type) => [.text "unpackof(", .part type, .text ")"]
  | some (.slice id) => [.text "slice(", .name id .paren]
  | some (.unknown _) => [.text "...unknown"]

/-- A list of binders in a function's key, when there are any. -/
def binderPieces (start : String) (binders : List (List Piece)) : List Piece :=
  if binders = [] then [] else .text start :: joined "," binders ++ [.text ">"]

def Func.pieces (f : Func) : List Piece :=
  [.text "fn", .part f.paramPack, .text ":", .part f.retPack] ++
    (match f.predicate with
      | none => []
      | some (param, type) => [.text "|is", .number none param, .text ":", .part type]) ++
    binderPieces "|<" (f.typeParams.map fun tv =>
      [.part tv.1, .text "<:"] ++ (match tv.2 with
        | none => [.text "any"]
        | some bound => [.part bound])) ++
    binderPieces "|<" (f.packParams.map fun pv => [.part pv]) ++
    binderPieces "|<const " (f.constParams.map fun cv => [.part cv]) ++
    (if f.paramKinds = [] then [] else [.text "|kinds(", .name f.paramKinds .paren]) ++
    (match f.yieldPack with
      | none => []
      | some pack => [.text "|yields", .part pack]) ++
    (match f.resumePack with
      | none => []
      | some pack => [.text "|resumes", .part pack]) ++
    f.outputs.flatMap fun output => [.name output.1 .colon, .part output.2]

def TemplatePart.pieces (close : Close) : TemplatePart → List Piece
  | .text s => [.text "s", .number none s.length, .text ":", .name s close]
  | .type t => [.text "t:", .part t, .name [] close]

def templatePieces : List TemplatePart → List Piece
  | [] => [.text ")"]
  | [one] => one.pieces .paren
  | one :: next :: rest => one.pieces .comma ++ templatePieces (next :: rest)

def Neutral.pieces (n : Neutral) : List Piece :=
  [.text "neutral(", .name n.op .colon, .name (n.capability.getD [45]) .colon] ++
    slot n.subject ++ .text ":" :: slot n.key ++ .text ":" :: slot n.binder ++ .text ":" ::
    slot n.keys ++ .text ":" :: slot n.value ++ .text ":" :: slot n.remap ++ .text ":" ::
    slot n.constTerm ++ .text ":" :: templatePieces n.templateParts

def ComptimeArgument.pieces : ComptimeArgument → List Piece
  | .type value => [.text ",t:", .part value]
  | .typepack value => [.text ",p:", .part value]
  | .const value => [.text ",c:", .part value]

/-- The key of a constructor's call, up to the facts of a function. -/
def Con.pieces : Con → List Piece
  | .prim tag => [.text tag.text]
  | .array elem elems fresh =>
    [.text "\x7b", .part elem, .text "\x7d"] ++
      match elems with
      | some refs => .text "!fresh(" :: ids "," refs ++ [.text ")"]
      | none => if fresh then [.text "!fresh"] else []
  | .indexer ix =>
    .text "index(" :: slot ix.readKey ++ .text ":" :: slot ix.readValue ++ .text "," ::
      slot ix.writeKey ++ .text ":" :: slot ix.writeValue ++ [.text ")"]
  | .tuple elems => .text "tuple(" :: ids "," elems ++ [.text ")"]
  | .shape fields index fresh closed =>
    .text "shape(" :: joined "," (fields.map Field.pieces ++ [index.pieces]) ++
      [.text ")"] ++ (if fresh then [.text "!fresh"] else []) ++
      if closed then [.text "!closed"] else []
  | .union members => .text "union(" :: ids "|" members ++ [.text ")"]
  | .intersection members => .text "intersection(" :: ids "&" members ++ [.text ")"]
  | .ptr elem => [.part elem, .text "*"]
  | .affine inner cleanups transferOnly obligation =>
    .text "affine(" :: cleanupPieces cleanups ++ .part inner ::
      (if transferOnly then [.text ":transfer"] else []) ++
      .text ":" :: obligation.pieces .paren
  | .borrowed inner => [.text "borrowed(", .part inner, .text ")"]
  | .pinned inner => [.text "pinned(", .part inner, .text ")"]
  | .protocolThread start resume yield ret =>
    .text "thread<" :: ids "," [start, resume, yield, ret] ++ [.text ">"]
  | .genericAlias name body typeParams packParams constParams =>
    [.text "alias(", .name name .bar] ++
      ids "|" (body :: typeParams ++ packParams ++ constParams) ++ [.text ")"]
  | .func f => f.pieces
  | .literal value base => [.text "lit(", .part base, .text ":", .name value .paren]
  | .constrained base key => [.text "con(", .part base, .text ":", .name key .paren]
  | .carray elem term =>
    [.text "carray(", .part elem, .text ","] ++ (match term with
      | none => [.text "?"]
      | some q => [.part q]) ++ [.text ")"]
  | .constOf inner => [.text "const(", .part inner, .text ")"]
  | .ctype of => [.text "ctype(", .part of, .text ")"]
  | .typevar identity => [.text "!ttv(", .name identity .paren]
  | .typeHandle bound => [.text "type<", .part bound, .text ">"]
  | .packResult of => [.text "packResult(", .part of, .text ")"]
  | .neutral n => n.pieces
  | .comptimeCall identity arguments bound resultPack =>
    [.text "neutral(comptime:", .name identity .comma, .part bound,
      .text (if resultPack then ",pack" else ",type")] ++
      arguments.flatMap ComptimeArgument.pieces ++ [.text ")"]
  | .metatable of => [.text "metatable(", .part of, .text ")"]
  | .typeObject of => [.text "Type(", .part of, .text ")"]
  | .projection of name => [.text "!jproj(", .part of, .text ",", .name name .paren]
  | .nominal space counter name _ =>
    [.text "nominal#", .number space counter, .text "(", .name name .paren]
  | .pack head rest =>
    .text "pack(" :: joined "," (head.map Entry.pieces) ++ tailPieces rest ++ [.text ")"]
  | .packUnion alternatives => .text "packunion(" :: ids "|" alternatives ++ [.text ")"]
  | .packvar identity => [.text "pv(", .name identity .paren]
  | .constLiteral domain value => [.text "cl(", .name domain .colon, .name value .paren]
  | .constvar identity domain => [.text "cv(", .name identity .colon, .name domain .paren]
  | .constOp operation operands =>
    [.text "co(", .name operation .colon] ++ ids "," operands ++ [.text ")"]

def Con.facts : Con → Bytes
  | .func f => f.facts
  | _ => []

/-- How an id is given: the key itself, a serial behind fixed marks, or a serial behind the
marks that the key's parts carry. -/
inductive Naming
  | key
  | fixed (marks : List Mark) (letters : String)
  | inherited (letters : String)

def Con.naming : Con → Naming
  | .nominal .. | .packUnion _ => .key
  | .packvar _ => .fixed [.packvar] "pv"
  | .constvar .. => .fixed [.constvar] "c"
  | .constLiteral .. => .fixed [] "c"
  | .constOp .. => .inherited "c"
  | .pack .. => .inherited "p"
  | _ => .inherited "t"

def Piece.refs : Piece → List Ref
  | .part q => [q]
  | _ => []

end Keys

section Stores

/-- The components that a key does not hold. -/
def Con.others : Con → List Ref
  | .func f => f.params ++ f.rets
  | .nominal _ _ _ applied =>
    applied.toList.flatMap fun a => a.typeArgs ++ a.packArgs ++ a.constArgs
  | .pack _ (some (.unknown type)) => type.toList
  | _ => []

/-- Every component. -/
def Con.parts (c : Con) : List Ref := c.pieces.flatMap Piece.refs ++ c.others

/-- What has been made: everything is made of what was there before. -/
structure Store where
  con : Ref → Con
  space : Ref → Option ℕ
  below : ∀ n, ∀ q ∈ (con n).parts, q < n

theorem Con.mem_parts_of_piece {c : Con} {q : Ref} (h : Piece.part q ∈ c.pieces) : q ∈ c.parts :=
  List.mem_append_left _ (List.mem_flatMap.mpr ⟨_, h, List.mem_singleton_self q⟩)

def serial (marks : List Mark) (letters : String) (space : Option ℕ) (n : ℕ) : Bytes :=
  marks.flatMap Mark.text ++ ascii letters ++ spaceText space ++ numeral n

/-- What a piece writes, when the ids of the parts are known. -/
def Piece.spell (id : Ref → Bytes) : Piece → Bytes
  | .text t => ascii t
  | .name t close => t ++ [close.byte]
  | .word w => w.bytes
  | .number space m => spaceText space ++ numeral m
  | .part q => id q

/-- The id of what has this key and stands at a place. -/
def Naming.id (space : Option ℕ) (n : ℕ) (key : Bytes) : Naming → Bytes
  | .key => key
  | .fixed marks letters => serial marks letters space n
  | .inherited letters => serial (inheritedMarks key) letters space n

/-- The `id` of what stands at a place. -/
def Store.id (s : Store) (n : Ref) : Bytes :=
  let spelled := (s.con n).pieces.attach.map fun piece => match _hp : piece.1 with
    | .part q => s.id q
    | other => other.spell fun _ => []
  (s.con n).naming.id (s.space n) n (spelled.flatten ++ (s.con n).facts)
termination_by n
decreasing_by exact s.below n q (Con.mem_parts_of_piece (_hp ▸ piece.2))

/-- `id:find(mark, 1, true) ~= nil` -/
def Store.found (s : Store) (mark : Mark) (n : Ref) : Bool := decide (mark.text <:+: s.id n)

def Store.marked (s : Store) (n : Ref) : Bool :=
  s.found .typevar n || s.found .packvar n || s.found .constvar n

/-- The pack arguments of an application, whose ids alone are searched. -/
def Con.packArgs : Con → List Ref
  | .nominal _ _ _ applied => applied.toList.flatMap Applied.packArgs
  | _ => []

/-- The const terms whose ids are searched for a const variable. -/
def Con.constTerms : Con → List Ref
  | .nominal _ _ _ applied => applied.toList.flatMap Applied.constArgs
  | .neutral n => n.constTerm.toList
  | .comptimeCall _ arguments _ _ => arguments.filterMap fun
    | .const value => some value
    | _ => none
  | _ => []

/-- The parts that `hasTypevar` and `packHasTypevar` go into. -/
def Con.walked : Con → List Ref
  | .nominal _ _ _ applied => applied.toList.flatMap Applied.typeArgs
  | .affine inner _ _ _ | .borrowed inner | .pinned inner | .constOf inner => [inner]
  | .ctype of | .metatable of => [of]
  | .ptr elem | .carray elem _ | .array elem _ _ => [elem]
  | .typeHandle bound => [bound]
  | .indexer ix =>
    (ix.readKey.or ix.writeKey).toList ++ (ix.readValue.or ix.writeValue).toList ++
      ix.writeKey.toList ++ ix.writeValue.toList
  | .tuple elems => elems
  | .shape fields _ _ _ => fields.flatMap fun f => f.read.toList ++ f.write.toList
  | .union members | .intersection members => members
  | .func f => f.params ++ f.rets
  | .projection of _ => [of]
  | .packResult of => [of]
  | .protocolThread start resume yield ret => [start, resume, yield, ret]
  | .neutral n =>
    n.subject.toList ++ n.key.toList ++ n.keys.toList ++ n.value.toList ++ n.remap.toList ++
      n.templateParts.filterMap fun
        | .type t => some t
        | .text _ => none
  | .comptimeCall _ arguments bound _ =>
    bound :: arguments.filterMap fun
      | .type value | .typepack value => some value
      | .const _ => none
  | .pack head rest =>
    head.map Entry.type ++ match rest with
      | some (.homogeneous type _) | some (.computed type) => [type]
      | some (.unknown type) => type.toList
      | _ => []
  | .packUnion alternatives => alternatives
  | _ => []

theorem part_mem_joined {sep : String} {texts : List (List Piece)} {one : List Piece} {q : Ref}
    (hone : one ∈ texts) (hq : Piece.part q ∈ one) : Piece.part q ∈ joined sep texts := by
  induction texts with
  | nil => cases hone
  | cons first rest ih =>
    cases rest with
    | nil =>
      rcases List.mem_cons.mp hone with rfl | h
      · exact hq
      · cases h
    | cons next rest =>
      rcases List.mem_cons.mp hone with rfl | h
      · exact List.mem_append_left _ hq
      · exact List.mem_append_right _ (List.mem_cons_of_mem _ (ih h))

theorem part_mem_ids {sep : String} {refs : List Ref} {q : Ref} (h : q ∈ refs) :
    Piece.part q ∈ ids sep refs :=
  part_mem_joined (List.mem_map.mpr ⟨q, h, rfl⟩) (List.mem_singleton_self _)

theorem part_mem_slot {o : Option Ref} {q : Ref} (h : q ∈ o.toList) : Piece.part q ∈ slot o := by
  rw [Option.mem_toList] at h
  cases h
  exact List.mem_singleton_self _

theorem part_mem_templatePieces {parts : List TemplatePart} {q : Ref}
    (h : TemplatePart.type q ∈ parts) : Piece.part q ∈ templatePieces parts := by
  induction parts with
  | nil => cases h
  | cons one rest ih =>
    cases rest with
    | nil =>
      rcases List.mem_cons.mp h with rfl | h
      · simp [templatePieces, TemplatePart.pieces]
      · cases h
    | cons next rest =>
      rcases List.mem_cons.mp h with rfl | h
      · simp [templatePieces, TemplatePart.pieces]
      · exact List.mem_append_right _ (ih h)

/-- What is walked into is a component. -/
theorem Con.walked_subset (c : Con) : ∀ q ∈ c.walked, q ∈ c.parts := by
  intro q hq
  have hothers : q ∈ c.others → q ∈ c.parts := fun h => List.mem_append_right _ h
  cases c with
  | indexer ix =>
    simp only [Con.walked, List.mem_append, Option.mem_toList, Option.or_eq_some_iff] at hq
    refine Con.mem_parts_of_piece ?_
    simp only [Con.pieces, List.mem_cons, List.mem_append]
    rcases hq with (((h | ⟨-, h⟩) | h | ⟨-, h⟩) | h) | h <;>
      simp [part_mem_slot (Option.mem_toList.mpr h)]
  | shape fields index fresh closed =>
    obtain ⟨f, hf, hfq⟩ := List.mem_flatMap.mp hq
    have hfield : Piece.part q ∈ f.pieces := by
      rcases List.mem_append.mp hfq with h | h <;> simp [Field.pieces, part_mem_slot h]
    have hjoined : Piece.part q ∈ joined "," (fields.map Field.pieces ++ [index.pieces]) :=
      part_mem_joined (List.mem_append_left _ (List.mem_map_of_mem hf)) hfield
    exact Con.mem_parts_of_piece (by simp [Con.pieces, hjoined])
  | func f => exact hothers hq
  | neutral n =>
    refine Con.mem_parts_of_piece ?_
    simp only [Con.walked, List.mem_append] at hq
    simp only [Con.pieces, Neutral.pieces, List.mem_append, List.mem_cons]
    rcases hq with ((((h | h) | h) | h) | h) | h
    · simp [part_mem_slot h]
    · simp [part_mem_slot h]
    · simp [part_mem_slot h]
    · simp [part_mem_slot h]
    · simp [part_mem_slot h]
    · have htype : TemplatePart.type q ∈ n.templateParts := by
        obtain ⟨part, hpart, heq⟩ := List.mem_filterMap.mp h
        cases part <;> simp_all
      simp [part_mem_templatePieces htype]
  | comptimeCall identity arguments bound resultPack =>
    refine Con.mem_parts_of_piece ?_
    rcases List.mem_cons.mp hq with rfl | hq
    · simp [Con.pieces]
    · obtain ⟨argument, hargument, heq⟩ := List.mem_filterMap.mp hq
      have hpart : Piece.part q ∈ argument.pieces := by
        cases argument <;> simp_all [ComptimeArgument.pieces]
      have hall := List.mem_flatMap.mpr ⟨argument, hargument, hpart⟩
      simp [Con.pieces, hall]
  | nominal space counter name applied =>
    refine hothers ?_
    obtain ⟨a, ha, haq⟩ := List.mem_flatMap.mp hq
    exact List.mem_flatMap.mpr ⟨a, ha, by simp [haq]⟩
  | pack head rest =>
    rcases List.mem_append.mp hq with h | h
    · obtain ⟨e, he, rfl⟩ := List.mem_map.mp h
      have hentry : Piece.part e.type ∈ e.pieces := by simp [Entry.pieces]
      have hjoined := @part_mem_joined "," _ _ _ (List.mem_map_of_mem he) hentry
      exact Con.mem_parts_of_piece (by simp [Con.pieces, hjoined])
    · rcases rest with _ | type | var | type | id | type
      · cases h
      · obtain rfl := List.mem_singleton.mp h
        exact Con.mem_parts_of_piece (by simp [Con.pieces, tailPieces])
      · cases h
      · obtain rfl := List.mem_singleton.mp h
        exact Con.mem_parts_of_piece (by simp [Con.pieces, tailPieces])
      · cases h
      · exact hothers h
  | _ =>
    simp only [Con.walked, List.not_mem_nil] at hq
    all_goals exact Con.mem_parts_of_piece (by simp_all [Con.pieces, part_mem_ids])

/-- `hasTypevar` of a type, and `packHasTypevar` of a pack. -/
def Store.hasTypevar (s : Store) (n : Ref) : Bool :=
  (s.con n).packArgs.any s.marked || (s.con n).constTerms.any (s.found .constvar) ||
    s.marked n || (s.con n).walked.attach.any fun q => s.hasTypevar q.1
termination_by n
decreasing_by exact s.below n q.1 ((s.con n).walked_subset q.1 q.2)

def Store.hasProjection (s : Store) (n : Ref) : Bool := s.found .projection n

end Stores

end Nupp.marks
