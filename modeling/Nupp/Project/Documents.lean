import Mathlib.Data.List.Sort
import Mathlib.Data.String.Basic
import Nupp.Project.Query

/-! The document surface of the incremental session (`project/incremental`): open buffers
laid over the disk, and the list of project files. The other definitions of the query
graph, and what the environment says of a path, are parameters. -/

namespace Nupp.incremental

open Query Reads

/-- What the files hold, none where there is no file. -/
abbrev Disk := String → Option String

inductive Value (W : Type*) where
  | absent
  | flag (value : Bool)
  | text (value : String)
  | files (paths : List String)
  | other (value : W)
  deriving DecidableEq

def Value.truthy {W : Type*} : Value W → Bool
  | .absent | .flag false => false
  | _ => true

/-- `stagedCarriedText` asks the disk whether anything shadows the staged path. -/
structure Env where
  moduleNameForPath : String → Option String
  stagedCarriedText : Disk → String → String → String → Bool
  listProjectFiles : List String

structure Inc (W : Type*) where
  q : Q String (Value W)
  diskPaths : List String
  openPaths : List String

def fileTextOf (path : String) : Dep String := ⟨"fileText", path⟩
def externalFileOf (path : String) : Dep String := ⟨"externalFile", path⟩
def generatedSourceOf (path : String) : Dep String := ⟨"generatedSource", path⟩
def importedModuleOf (name : String) : Dep String := ⟨"importedModule", name⟩
def projectFilesOf : Dep String := ⟨"projectFiles", "root"⟩

/-- `paths[path] = true`. -/
def addPath (paths : List String) (path : String) : List String :=
  if path ∈ paths then paths else paths ++ [path]

/-- `paths[path] = nil`. -/
def dropPath (paths : List String) (path : String) : List String := paths.filter (· ≠ path)

section Session

variable {W E : Type*} [DecidableEq W]

def content : Option String → Value W
  | none => .absent
  | some s => .text s

def wholeFile (disk : Disk) (path : String) : Value W := content (disk path)

abbrev Defs (W E : Type*) := String → Option (Def String (Value W) E)

/-- The definitions of a session over what the disk holds now. -/
def program (disk : Disk) (others : Defs W E) : Program String (Value W) E where
  defs name :=
    if name = "fileText" ∨ name = "externalFile" then
      some ⟨fun path => .ret (wholeFile disk path), none⟩
    else if name = "generatedSource" then
      some ⟨fun _ => .ret (.flag false), none⟩
    else
      others name
  nil := .absent
  truthy := Value.truthy

def projectFilesList (diskPaths openPaths : List String) : List String :=
  (diskPaths ++ openPaths.filter (· ∉ diskPaths)).insertionSort (· ≤ ·)

/-- Republishes the project's file list from disk and open buffers. -/
def updateProjectFiles (inc : Inc W) : Inc W :=
  { inc with
    q := setInput inc.q projectFilesOf (.files (projectFilesList inc.diskPaths inc.openPaths)) }

def new (env : Env) : Inc W :=
  updateProjectFiles
    { q := Q.new, diskPaths := env.listProjectFiles.foldl addPath [], openPaths := [] }

def apiOpenDocument (env : Env) (path text : String) (inc : Inc W) : Inc W :=
  let inc := { inc with q := setInput inc.q (generatedSourceOf path) (.flag false) }
  let wasOpen := path ∈ inc.openPaths
  let inc :=
    if (env.moduleNameForPath path).isSome then
      { inc with openPaths := addPath inc.openPaths path }
    else
      inc
  let inc :=
    if ¬wasOpen ∧ path ∈ inc.openPaths ∧ path ∉ inc.diskPaths then updateProjectFiles inc else inc
  { inc with q := setInput inc.q (fileTextOf path) (.text text) }

def apiStageCarriedDocument (env : Env) (disk : Disk) (name path text : String) (inc : Inc W) :
    Inc W :=
  if env.stagedCarriedText disk name path text then
    { inc with
      q := setInput (setInput inc.q (generatedSourceOf path) (.flag false)) (fileTextOf path)
        (.text text) }
  else
    apiOpenDocument env path text inc

def apiOpenGeneratedDocument (env : Env) (path text : String) (inc : Inc W) : Inc W :=
  let inc := apiOpenDocument env path text inc
  { inc with q := setInput inc.q (generatedSourceOf path) (.flag true) }

def apiCloseDocument (path : String) (inc : Inc W) : Inc W :=
  let inc :=
    { inc with q := clearInput (clearInput inc.q (generatedSourceOf path)) (fileTextOf path) }
  if path ∈ inc.openPaths then
    let inc := { inc with openPaths := dropPath inc.openPaths path }
    if path ∉ inc.diskPaths then updateProjectFiles inc else inc
  else
    inc

/-- `changeType` is 3 where the file was deleted. -/
def apiDiskChanged (env : Env) (path : String) (changeType : ℕ) (inc : Inc W) : Inc W :=
  let existed := path ∈ inc.diskPaths
  let inc :=
    if changeType = 3 then
      { inc with diskPaths := dropPath inc.diskPaths path }
    else if (env.moduleNameForPath path).isSome then
      { inc with diskPaths := addPath inc.diskPaths path }
    else
      inc
  let inc :=
    if path ∉ inc.openPaths then { inc with q := clearInput inc.q (fileTextOf path) } else inc
  let inc := { inc with q := clearInput inc.q (externalFileOf path) }
  if ¬(existed ↔ path ∈ inc.diskPaths) then updateProjectFiles inc else inc

/-- `apiFileText`, `apiProjectFiles` and every other read, with the depth that reads may
nest to. -/
def read (disk : Disk) (others : Defs W E) (depth : ℕ) (d : Dep String) (inc : Inc W) :
    Answer String (Value W) E (Value W) :=
  Query.get (program disk others) depth d inc.q

/-- A call, or a file that is written without a word to the session. -/
inductive Action (W E : Type*) where
  | openDocument (path text : String)
  | changeDocument (path text : String)
  | openGeneratedDocument (path text : String)
  | stageCarriedDocument (name path text : String)
  | closeDocument (path : String)
  | diskChanged (path : String) (changeType : ℕ)
  | importModule (name : String) (semantic : Value W)
  | read (others : Defs W E) (depth : ℕ) (d : Dep String)
  | write (path : String) (content : Option String)

structure World (W : Type*) where
  inc : Inc W
  disk : Disk

def World.map (w : World W) (f : Inc W → Inc W) : World W := { w with inc := f w.inc }

def step (env : Env) (w : World W) : Action W E → World W
  | .openDocument path text | .changeDocument path text => w.map (apiOpenDocument env path text)
  | .openGeneratedDocument path text => w.map (apiOpenGeneratedDocument env path text)
  | .stageCarriedDocument name path text =>
    w.map (apiStageCarriedDocument env w.disk name path text)
  | .closeDocument path => w.map (apiCloseDocument path)
  | .diskChanged path changeType => w.map (apiDiskChanged env path changeType)
  | .importModule name semantic =>
    w.map fun inc => { inc with q := setInput inc.q (importedModuleOf name) semantic }
  | .read others depth d =>
    match incremental.read w.disk others depth d w.inc with
    | some (_, q) => w.map fun inc => { inc with q := q }
    | none => w
  | .write path content => { w with disk := Function.update w.disk path content }

def run (env : Env) (disk : Disk) (actions : List (Action W E)) : World W :=
  actions.foldl (step env) ⟨new env, disk⟩

end Session

end Nupp.incremental
