import Mathlib.Data.List.Basic

/-! Path text, as rules about characters: prefixes, components, normalization, joining and
relative paths. Positions count bytes from one; `at_` is the number of bytes read. -/

namespace Nupp.PathText

abbrev Bytes := List UInt8

inductive Kind where
  | PREFIX
  | ROOT
  | PARENT
  | NORMAL
deriving DecidableEq, Repr

def SLASH : UInt8 := 47
def BACKSLASH : UInt8 := 92
def DOT : UInt8 := 46
def COLON : UInt8 := 58
def QUESTION : UInt8 := 63

variable (text : Bytes) (windows : Bool)

/-- `byte(text, p)`. -/
def byteAt (p : ℕ) : Option UInt8 := text[p - 1]?

def isSeparator (b : UInt8) : Bool := b = SLASH || (windows && b = BACKSLASH)

def isName (b : UInt8) : Bool := !isSeparator windows b

def separatorAt (p : ℕ) : Bool := (byteAt text p).any (isSeparator windows)

def isDriveLetter (b : UInt8) : Bool :=
  (65 ≤ b.toNat && b.toNat ≤ 90) || (97 ≤ b.toNat && b.toNat ≤ 122)

/-- `text:sub(start, start + width - 1)`. -/
def slice (start width : ℕ) : Bytes := (text.drop (start - 1)).take width

/-- Where a scan over bytes that satisfy `p` stops. -/
def scan (p : UInt8 → Bool) (at_ : ℕ) : ℕ := at_ + ((text.drop at_).takeWhile p).length

def isVerbatim : Bool := windows && text.take 4 = [BACKSLASH, BACKSLASH, QUESTION, BACKSLASH]

/-! Prefixes. -/

def upper (b : UInt8) : UInt8 := if 97 ≤ b.toNat && b.toNat ≤ 122 then b - 32 else b

def isUnc (name : Bytes) : Bool := name.map upper = [85, 78, 67]

/-- The further parts of a marked share, each after one separator. -/
def markedParts : ℕ → ℕ → ℕ
  | 0, at_ => at_
  | parts + 1, at_ =>
    if at_ = text.length then at_ else markedParts parts (scan text (isName windows) (at_ + 1))

/-- The server, separators and the share. -/
def sharePrefix : ℕ :=
  let server := scan text (isName windows) 2
  let share := scan text (isSeparator windows) server
  if share = text.length then share else scan text (isName windows) share

def isDrive : Bool := (text[0]?).any isDriveLetter && text[1]? = some COLON

def isDouble : Bool := separatorAt text windows 1 && separatorAt text windows 2

/-- A marker `\\?\` or `\\.\`, its separators written either way. -/
def isMarked : Bool :=
  isDouble text windows && (text[2]? = some QUESTION || text[2]? = some DOT) && separatorAt text windows 4

def prefixLength : ℕ :=
  if !windows then 0
  else if isDrive text then 2
  else if isDouble text windows then
    if isMarked text windows then
      let named := scan text (isName windows) 4
      if text[2]? = some QUESTION && isUnc (slice text 5 (named - 4)) then markedParts text windows 2 named
      else named
    else sharePrefix text windows
  else 0

def isAbsolute : Bool :=
  let prefixed := prefixLength text windows
  let rooted := separatorAt text windows (prefixed + 1)
  if windows && 2 ≤ prefixed && text[1]? = some COLON then rooted else prefixed ≠ 0 || rooted

def fold (b : UInt8) : UInt8 := if b = BACKSLASH then SLASH else b

def finish : Bytes := if !windows || isVerbatim text windows then text else text.map fold

/-! Normalization. -/

/-- The prefix as `normalizeImpl` finds it. -/
def normalizePrefix : ℕ :=
  if windows && 2 ≤ text.length then
    if isDrive text then 2
    else if isDouble text windows then
      if isMarked text windows then scan text (isName windows) 2
      else sharePrefix text windows
    else 0
  else 0

def isParent (start width : ℕ) : Bool :=
  width = 2 && byteAt text start = some DOT && byteAt text (start + 1) = some DOT

/-- Retains a component: a name by its start, `..` as zero. -/
def retain (rooted : Bool) (stack : List ℕ) (start width : ℕ) : List ℕ :=
  if isParent text start width then
    match stack with
    | [] => if rooted then [] else [0]
    | top :: rest => if 0 < top then rest else 0 :: top :: rest
  else start :: stack

def skipped (start width : ℕ) : Bool := width = 0 || (width = 1 && byteAt text start = some DOT)

/-- The components from `at_` on, the last retained one first. -/
def normalizeLoop (rooted : Bool) : ℕ → ℕ → List ℕ → List ℕ
  | 0, _, stack => stack
  | fuel + 1, at_, stack =>
    if at_ < text.length then
      let next := scan text (isName windows) at_
      let stack :=
        if skipped text (at_ + 1) (next - at_) then stack
        else retain text rooted stack (at_ + 1) (next - at_)
      normalizeLoop rooted fuel (scan text (isSeparator windows) next) stack
    else stack

def retainedText (start : ℕ) : Bytes :=
  if start = 0 then [DOT, DOT] else slice text start (scan text (isName windows) start - start + 1)

def normalizeImpl : Bytes :=
  let prefixed := normalizePrefix text windows
  let rooted := separatorAt text windows (prefixed + 1)
  let at_ := if rooted then scan text (isSeparator windows) prefixed else prefixed
  let stack := (normalizeLoop text windows rooted text.length at_ []).reverse
  if stack = [] && prefixed = 0 && !rooted then [DOT]
  else
    (text.take prefixed).map (fun b => if windows then fold b else b) ++ (if rooted then [SLASH] else []) ++
      List.intercalate [SLASH] (stack.map (retainedText text windows))

def normalize : Bytes := if isVerbatim text windows then text else normalizeImpl text windows

/-! Joining. -/

def pushPart (carried part : Bytes) : Bytes :=
  let prefixed := prefixLength part windows
  let head :=
    if prefixed ≠ 0 || separatorAt part windows 1 then
      if prefixed = 0 then carried.take (prefixLength carried windows) else []
    else if carried ≠ [] && !separatorAt carried windows carried.length then
      if prefixLength carried windows ≠ carried.length || carried.getLast? ≠ some COLON then
        carried ++ [if isVerbatim carried windows then BACKSLASH else SLASH]
      else carried
    else carried
  head ++ part

def join (parts : List Bytes) : Bytes := finish (parts.foldl (pushPart windows) []) windows

/-! Components. -/

structure Found where
  start : ℕ
  width : ℕ
  kind : Kind
deriving DecidableEq, Repr

/-- A component, or none, and where the next one is looked for. -/
structure Cursor where
  found : Option Found
  at_ : ℕ
  phase : ℕ
deriving DecidableEq, Repr

def nextName : ℕ → ℕ → Cursor
  | 0, at_ => ⟨none, at_, 2⟩
  | fuel + 1, at_ =>
    if at_ < text.length then
      let next := scan text (isName windows) at_
      let after := scan text (isSeparator windows) next
      if skipped text (at_ + 1) (next - at_) then nextName fuel after
      else
        let kind := if isParent text (at_ + 1) (next - at_) then .PARENT else .NORMAL
        ⟨some ⟨at_ + 1, next - at_, kind⟩, after, 2⟩
    else ⟨none, at_, 2⟩

def nextRoot (at_ : ℕ) : Cursor :=
  if separatorAt text windows (at_ + 1) then
    ⟨some ⟨at_ + 1, 1, .ROOT⟩, scan text (isSeparator windows) at_, 2⟩
  else nextName text windows text.length at_

def nextComponent (at_ phase : ℕ) : Cursor :=
  match phase with
  | 0 =>
    let prefixed := prefixLength text windows
    if prefixed ≠ 0 then ⟨some ⟨1, prefixed, .PREFIX⟩, prefixed, 1⟩ else nextRoot text windows prefixed
  | 1 => nextRoot text windows at_
  | _ => nextName text windows text.length at_

def Cursor.next (c : Cursor) : Cursor := nextComponent text windows c.at_ c.phase

def component (f : Found) : Kind × Bytes := (f.kind, slice text f.start f.width)

def collect : ℕ → Cursor → List (Kind × Bytes)
  | 0, _ => []
  | fuel + 1, c =>
    match c.found with
    | none => []
    | some f => component text f :: collect fuel (c.next text windows)

/-- Enough steps for the components of a path: a prefix, a root and its names. -/
def steps : ℕ := text.length + 3

/-- The components a cursor reads from a path. -/
def components : List (Kind × Bytes) := collect text windows (steps text) (nextComponent text windows 0 0)

def appendComponent (answer : Bytes × Bool) (f : Found) : Bytes × Bool :=
  match f.kind with
  | .PREFIX => (answer.1 ++ slice text f.start f.width, false)
  | .ROOT => (answer.1 ++ [SLASH], false)
  | _ => (answer.1 ++ (if answer.2 then [SLASH] else []) ++ slice text f.start f.width, true)

/-- Appends the components from a cursor on. -/
def appendAll : ℕ → Cursor → Bytes × Bool → Bytes × Bool
  | 0, _, answer => answer
  | fuel + 1, c, answer =>
    match c.found with
    | none => answer
    | some f => appendAll fuel (c.next text windows) (appendComponent text answer f)

def clean : Bytes :=
  if isVerbatim text windows then text
  else finish (appendAll text windows (steps text) (nextComponent text windows 0 0) ([], false)).1 windows

/-! Relative paths. -/

def sameComponent (target base : Bytes) (t b : Found) : Bool :=
  t.kind = b.kind && t.width = b.width &&
    match t.kind with
    | .ROOT => true
    | .PREFIX => finish (slice target t.start t.width) windows = finish (slice base b.start b.width) windows
    | _ => slice target t.start t.width = slice base b.start b.width

/-- Passes the components two paths have in common. -/
def passCommon (target base : Bytes) : ℕ → Cursor → Cursor → Cursor × Cursor
  | 0, t, b => (t, b)
  | fuel + 1, t, b =>
    match t.found, b.found with
    | some f, some g =>
      if sameComponent windows target base f g then
        passCommon target base fuel (t.next target windows) (b.next base windows)
      else (t, b)
    | _, _ => (t, b)

def Kind.anchors (k : Kind) : Bool := k = .PREFIX || k = .ROOT

def differs : String := "paths do not share a relative coordinate system"

/-- The steps up from a base, none of which may be `..`. -/
def countParents (base : Bytes) : ℕ → Cursor → Except String ℕ
  | 0, _ => .ok 0
  | fuel + 1, b =>
    match b.found with
    | none => .ok 0
    | some g =>
      if g.kind = .PARENT then .error differs
      else (countParents base fuel (b.next base windows)).map (· + 1)

def parentSteps : ℕ → Bytes × Bool → Bytes × Bool
  | 0, answer => answer
  | n + 1, answer =>
    parentSteps n (answer.1 ++ (if answer.2 then [SLASH] else []) ++ [DOT, DOT], true)

def relative (target base : Bytes) : Except String Bytes :=
  if isVerbatim target windows || isVerbatim base windows then
    .error "a verbatim path is carried rather than reasoned about"
  else if isAbsolute target windows ≠ isAbsolute base windows then
    if isAbsolute target windows then .ok (clean target windows) else .error differs
  else
    let (t, b) := passCommon windows target base (steps target)
      (nextComponent target windows 0 0) (nextComponent base windows 0 0)
    if b.found.any fun g => g.kind.anchors || t.found.any fun f => f.kind.anchors then .error differs
    else do
      let parents ← countParents windows base (steps base) b
      let answer := (appendAll target windows (steps target) t (parentSteps parents ([], false))).1
      .ok (finish (if answer = [] then [DOT] else answer) windows)

end Nupp.PathText
