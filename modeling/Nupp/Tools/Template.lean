import Mathlib.Data.List.AList
import Mathlib.Data.List.Sort
import Nupp.Compiler.Fs
import Nupp.Compiler.FsJoin
import Nupp.Lib.Result

/-! Templates: what a scaffold would write and where (`nupp/tools/template.nupp`). -/

namespace Nupp.template

open fs

abbrev Table := AList fun _ : Bytes => Bytes

def bytes (s : String) : Bytes := s.toUTF8.data.toList

/-- `table.concat(words, ", ")`. -/
def commas (words : List Bytes) : Bytes := [44, 32].intercalate words

def sorted (words : List Bytes) : List Bytes := words.insertionSort fun a b => a ≤ b

inductive Kind
  | builtin
  | directory
  | remote
deriving DecidableEq

/-- The post-init steps a template may name. -/
inductive Step
  | git
  | check
  | build
  | test
deriving DecidableEq

def REMOTE_STEPS : List Step := [.git]

structure Source where
  kind : Kind
  name : Option Bytes
  path : Option Bytes
  url : Option Bytes
  subdir : Option Bytes
  rev : Option Bytes
  commit : Option Bytes

structure Variable where
  description : Option Bytes
  default : Option Bytes
  pattern : Option Bytes
  invalid : Option Bytes

structure Manifest where
  vars : AList fun _ : Bytes => Variable
  raw : List Bytes
  after : List Step

structure File where
  source : Bytes
  output : Bytes
  text : Bytes
  verbatim : Bool

structure Plan where
  source : Source
  destination : Bytes
  files : List File
  values : Table
  steps : List Step
  dropped : List Step

/-- What is read from outside: a directory's names, a template's files, the loaded `template.lua`, and what globs and
patterns match. -/
structure Host where
  entries : Bytes → Option (List Bytes)
  readTree : Source → Except Bytes Table
  manifest : Bytes → Bytes → Except Bytes Manifest
  glob : Bytes → Bytes → Bool
  isMatch : Bytes → Bytes → Bool

def orNil (value : Option Bytes) : Bytes := value.getD (bytes "nil")

def describe (source : Source) : Bytes :=
  match source.kind with
  | .builtin => bytes "built-in template " ++ orNil source.name
  | .directory => orNil source.path
  | .remote =>
    let plain := orNil source.url
    let place := match source.subdir with
      | some subdir => plain ++ bytes " (" ++ subdir ++ bytes ")"
      | none => plain
    match source.commit, source.rev with
    | some commit, _ => place ++ bytes " at " ++ commit
    | none, some rev => place ++ bytes " at " ++ rev
    | none, none => place

/-! ### Substitution -/

def DOLLAR : UInt8 := 36
def OPENER : UInt8 := 123
def CLOSER : UInt8 := 125

def ESCAPED : Bytes := 0 :: bytes "ESCAPED" ++ [0]

/-- The escapes `$${` of a text, each as `ESCAPED`. -/
def hideEscapes : Bytes → Bytes
  | a :: b :: c :: rest =>
    if a = DOLLAR ∧ b = DOLLAR ∧ c = OPENER then ESCAPED ++ hideEscapes rest else a :: hideEscapes (b :: c :: rest)
  | text => text

/-- The name in a text that starts `$\x7bname\x7d`. -/
def nameAt : Bytes → Option Bytes
  | a :: b :: rest =>
    let name := rest.takeWhile (· ≠ CLOSER)
    if a = DOLLAR ∧ b = OPENER ∧ name.length < rest.length then some name else none
  | _ => none

/-- `gsub("%$\x7b([^\x7d]*)\x7d", ...)`; the number counts the bytes of a match that are still to be passed. -/
def expand (values : Table) (place : Bytes) : ℕ → Bytes → Except Bytes Bytes
  | _, [] => .ok []
  | skip + 1, _ :: rest => expand values place skip rest
  | 0, a :: rest =>
    match nameAt (a :: rest) with
    | none => (a :: ·) <$> expand values place 0 rest
    | some name =>
      match values.lookup name with
      | none => .error (place ++ bytes " uses $\x7b" ++ name ++ bytes "\x7d, which the template does not declare")
      | some replacement => (replacement ++ ·) <$> expand values place (name.length + 2) rest

/-- `gsub("%zESCAPED%z", "$\x7b")`. -/
def showEscapes : ℕ → Bytes → Bytes
  | _, [] => []
  | skip + 1, _ :: rest => showEscapes skip rest
  | 0, a :: rest =>
    if ESCAPED.isPrefixOf (a :: rest) then DOLLAR :: OPENER :: showEscapes (ESCAPED.length - 1) rest
    else a :: showEscapes 0 rest

def substitute (text : Bytes) (values : Table) (place : Bytes) : Except Bytes Bytes := do
  let expanded ← expand values place 0 (hideEscapes text)
  return showEscapes 0 expanded

/-! ### Values -/

def isDerived (key : Bytes) : Bool := key = bytes "moduleName" || key = bytes "directory"

/-- `[/\\%z]`. -/
def isForbidden (b : UInt8) : Bool := b = SLASH || b = BACKSLASH || b = 0

def checkGiven (manifest : Manifest) (key : Bytes) : Except Bytes Unit :=
  if key = bytes "name" ∨ isDerived key then
    .error (key ++ bytes " is derived from the project name" ++
      bytes "\nName the project with --name, or by naming the directory.")
  else if manifest.vars.lookup key = none then
    let declared := sorted (manifest.vars.keys.filter (· ≠ bytes "name"))
    let hint := if declared ≠ [] then bytes "\nDeclared: " ++ commas declared
      else bytes "\nThis template declares no variables to set."
    .error (key ++ bytes " is not a variable of this template" ++ hint)
  else .ok ()

def declare (given : Table) (values : Table) (key : Bytes) (declared : Variable) : Except Bytes Table :=
  if key = bytes "name" then .ok values
  else
    match given.lookup key <|> declared.default with
    | some value => .ok (values.insert key value)
    | none =>
      let described := match declared.description with
        | some description => bytes ": " ++ description
        | none => []
      .error (bytes "this template needs a value for " ++ key ++ described ++ bytes "\nGive one with --set " ++ key ++
        bytes "=VALUE.")

def checkValue (host : Host) (manifest : Manifest) (key value : Bytes) : Except Bytes Unit :=
  if key ≠ bytes "directory" ∧ value.any isForbidden then .error (key ++ bytes " may not contain a path separator")
  else
    match manifest.vars.lookup key with
    | none => .ok ()
    | some declared =>
      match declared.pattern with
      | none => .ok ()
      | some pattern =>
        if host.isMatch value pattern then .ok ()
        else .error (declared.invalid.getD (key ++ bytes " does not match " ++ pattern))

def values (host : Host) (manifest : Manifest) (name directory : Bytes) (supplied : Option Table) : Except Bytes Table := do
  let given := supplied.getD ∅
  given.entries.forM fun entry => checkGiven manifest entry.1
  let moduleName := name.filter fun b => b ≠ 45 ∧ b ≠ 95
  let derived : Table := ((AList.singleton (bytes "directory") directory).insert (bytes "moduleName") moduleName).insert
    (bytes "name") name
  let values ← manifest.vars.entries.foldlM (fun values entry => declare given values entry.1 entry.2) derived
  values.entries.forM fun entry => checkValue host manifest entry.1 entry.2
  return values

/-! ### Planning -/

def startsWithDrive : Bytes → Bool
  | a :: b :: _ => isLetter a && b = COLON
  | _ => false

def checkComponent (path component : Bytes) : Except Bytes Unit :=
  if component.length = 0 then .error (path ++ bytes " has an empty path component")
  else if component = [DOT, DOT] then .error (path ++ bytes " leaves the destination directory")
  else if component = [DOT] then .error (path ++ bytes " has an empty path component")
  else .ok ()

/-- The loop over the bytes, with the component that has begun; a slash is read after the last one. -/
def checkComponents (path : Bytes) : Bytes → Bytes → Except Bytes Unit
  | component, [] => checkComponent path component
  | component, code :: rest =>
    if isSeparator code then do
      checkComponent path component
      checkComponents path [] rest
    else checkComponents path (component ++ [code]) rest

def componentsAreSafe (path : Bytes) : Except Bytes Unit :=
  if path.head?.any isSeparator || startsWithDrive path then
    .error (path ++ bytes " is absolute, and a template writes only under its destination")
  else checkComponents path [] path

def destinationIsFree (host : Host) (destination : Bytes) : Except Bytes Unit :=
  match host.entries destination with
  | none => .ok ()
  | some entries =>
    if entries.any (· ≠ bytes ".git") then .error (destination ++ bytes " is not empty") else .ok ()

def MANIFEST : Bytes := bytes "template.lua"

/-- What a plan is made from: the files, the manifest and the values. -/
def prepare (host : Host) (source : Source) (destination : Bytes) (name : Option Bytes) (set : Option Table) :
    Except Bytes (Table × Manifest × Table) := do
  destinationIsFree host destination
  let tree ← host.readTree source
  match tree.lookup MANIFEST with
  | none => .error (describe source ++ bytes " has no template.lua, so it is not a template")
  | some manifestText => do
    let manifest ← host.manifest manifestText MANIFEST
    let values ← values host manifest (name.getD (basename destination)) destination set
    return (tree, manifest, values)

def sources (tree : Table) : List Bytes := sorted (tree.keys.filter (· ≠ MANIFEST))

def outputOf (values : Table) (relative : Bytes) : Except Bytes Bytes :=
  substitute relative values (bytes "the path " ++ relative)

/-- One round of the loop over the sources, with the outputs claimed so far. -/
def planFile (host : Host) (tree : Table) (manifest : Manifest) (values : Table) (state : Table × List File)
    (relative : Bytes) : Except Bytes (Table × List File) := do
  let (claimed, files) := state
  let verbatim := manifest.raw.any fun glob => host.glob glob relative
  let output ← outputOf values relative
  componentsAreSafe output
  match claimed.lookup output with
  | some collision => .error (collision ++ bytes " and " ++ relative ++ bytes " both become " ++ output)
  | none => do
    let text := (tree.lookup relative).getD []
    let written ← (if verbatim then .ok text else substitute text values relative : Except Bytes Bytes)
    return (claimed.insert output relative, files ++ [⟨relative, output, written, verbatim⟩])

def plan (host : Host) (source : Source) (asked : Bytes) (name : Option Bytes) (set : Option Table) : Except Bytes Plan := do
  let destination := fs.normalize asked
  let (tree, manifest, values) ← prepare host source destination name set
  let (_, files) ← (sources tree).foldlM (planFile host tree manifest values) (∅, [])
  if files = [] then .error (describe source ++ bytes " contains no files to write")
  else
    let isAllowed (step : Step) : Bool := source.kind ≠ .remote || REMOTE_STEPS.contains step
    return ⟨source, destination, files, values, manifest.after.filter isAllowed,
      manifest.after.filter fun step => !isAllowed step⟩

/-! ### Writing -/

section Write

variable {World : Type} (writeFile : Bytes → Bytes → World → Option Bytes × World)

def writeFiles (destination : Bytes) : List File → List Bytes → World → Except Bytes (List Bytes) × World
  | [], written, world => (.ok written, world)
  | file :: files, written, world =>
    let path := join (some destination) file.output
    match writeFile path file.text world with
    | (some err, world) => (.error err, world)
    | (none, world) => writeFiles destination files (written ++ [path]) world

def write (plan : Plan) : World → Except Bytes (List Bytes) × World := writeFiles writeFile plan.destination plan.files []

end Write

end Nupp.template

/-! What a plan may write, and when its files are written to different paths. -/

namespace Nupp.template

open fs Result

variable {path output destination : Bytes}

/-! ### Safe outputs -/

/-- A component that is neither empty nor of dots. -/
def Ordinary (component : Bytes) : Prop := component ≠ [] ∧ component ≠ [DOT] ∧ component ≠ [DOT, DOT]

structure Safe (path : Bytes) : Prop where
  root : rooted path = false
  drive : startsWithDrive path = false
  parts : ∀ r ∈ path.splitOnP isSeparator, Ordinary r

theorem checkComponent_ok (path component : Bytes) : checkComponent path component = .ok () ↔ Ordinary component := by
  rw [checkComponent, Ordinary]
  split_ifs with hnil hparent hdot
  · simp [List.length_eq_zero_iff.mp hnil]
  · simp [hparent]
  · simp [hdot]
  · simp [mt List.length_eq_zero_iff.mpr hnil, hparent, hdot]

theorem checkComponents_ok (path : Bytes) {component : Bytes} (hcomponent : ∀ b ∈ component, isSeparator b = false) (rest : Bytes) :
    checkComponents path component rest = .ok () ↔ ∀ r ∈ (component ++ rest).splitOnP isSeparator, Ordinary r := by
  induction rest generalizing component with
  | nil =>
    rw [checkComponents, checkComponent_ok, List.append_nil, List.splitOnP_eq_singleton hcomponent]
    simp
  | cons code rest ih =>
    rw [checkComponents]
    by_cases hcode : isSeparator code = true
    · rw [if_pos hcode, bind_eq_ok, List.splitOnP_append_cons component rest hcode,
        List.splitOnP_eq_singleton hcomponent]
      have hrest : checkComponents path [] rest = .ok () ↔ ∀ r ∈ rest.splitOnP isSeparator, Ordinary r := ih (by simp)
      rw [List.singleton_append, List.forall_mem_cons, ← checkComponent_ok path, ← hrest]
      constructor
      · rintro ⟨⟨⟩, hfirst, hmore⟩
        exact ⟨hfirst, hmore⟩
      · rintro ⟨hfirst, hmore⟩
        exact ⟨(), hfirst, hmore⟩
    · rw [if_neg hcode, ih, List.append_assoc, List.singleton_append]
      intro b hb
      rcases List.mem_append.mp hb with hb | hb
      · exact hcomponent b hb
      · rw [List.mem_singleton.mp hb]
        simpa using hcode

theorem componentsAreSafe_ok : componentsAreSafe path = .ok () ↔ Safe path := by
  have hloop : checkComponents path [] path = .ok () ↔ ∀ r ∈ path.splitOnP isSeparator, Ordinary r :=
    checkComponents_ok path (by simp) path
  rw [componentsAreSafe]
  split_ifs with habsolute
  · refine iff_of_false (by simp) fun h => ?_
    have hroot := h.root
    rw [rooted] at hroot
    rw [hroot, h.drive] at habsolute
    cases habsolute
  · rw [Bool.not_eq_true, Bool.or_eq_false_iff] at habsolute
    rw [hloop]
    exact ⟨fun h => ⟨habsolute.1, habsolute.2, h⟩, Safe.parts⟩

/-- The components of an output, under either separator. -/
abbrev components (output : Bytes) : List Bytes := split (turned output)

theorem Safe.ordinary (h : Safe output) : ∀ r ∈ components output, Ordinary r := by
  rw [components, splitOnP_turned]
  exact h.parts

theorem Safe.squeezed_turned (h : Safe output) : squeezed (turned output) = turned output := by
  refine squeezed_eq fun r hr => ?_
  exact (h.ordinary r (List.mem_of_mem_tail (List.mem_of_mem_dropLast hr))).1

theorem Safe.normalize_eq (h : Safe output) : fs.normalize output = turned output := by
  have hdots : [DOT] ∉ (components output).dropLast := fun hmem => (h.ordinary _ (List.mem_of_mem_dropLast hmem)).2.1 rfl
  have hwrite : dropTrailing (fs.write ([] ++ components output)) = fs.write ([] ++ components output) :=
    dropTrailing_write (fun r hr => slash_not_mem hr) (List.splitOn_ne_nil SLASH _) fun r hr => (h.ordinary r hr).1
  rw [List.nil_append, write_split] at hwrite
  rw [fs.normalize, h.squeezed_turned, dropDots_eq, skipDots_eq hdots, write_split, hwrite]

theorem Safe.turned_ne_nil (h : Safe output) : turned output ≠ [] := by
  intro hnil
  refine (h.ordinary [] ?_).1 rfl
  rw [components, hnil]
  exact List.mem_singleton_self _

theorem Safe.front_eq (h : Safe output) : front output = components output := by
  obtain ⟨r, rest, hsplit⟩ := exists_split (turned output)
  have hne : output ≠ [] := by
    rintro rfl
    exact h.turned_ne_nil rfl
  have hparts : partsOf output = r :: rest := by rw [partsOf, h.squeezed_turned, hsplit]
  have hord := h.ordinary
  rw [components, hsplit] at hord ⊢
  rw [front_of_parts hne (.inl hparts) fun s hs => (hord s (List.mem_cons_of_mem r hs)).1]
  refine List.filter_eq_self.mpr fun s hs => ?_
  simpa using (hord s hs).2.1

theorem startsWithDrive_turned (path : Bytes) : startsWithDrive (turned path) = startsWithDrive path := by
  match path with
  | [] | [_] => rfl
  | a :: b :: rest =>
    have hletter : isLetter (if a = BACKSLASH then SLASH else a) = isLetter a := by
      split_ifs with ha
      · rw [ha]
        decide
      · rfl
    have hcolon : (decide ((if b = BACKSLASH then SLASH else b) = COLON)) = decide (b = COLON) := by
      split_ifs with hb
      · rw [hb]
        decide
      · rfl
    change (isLetter _ && decide (_ = COLON)) = (isLetter a && decide (b = COLON))
    rw [hletter, hcolon]

theorem Safe.relative (h : Safe output) : isAbsolute (fs.normalize output) = false := by
  rw [← Bool.not_eq_true, isAbsolute_iff, h.normalize_eq]
  rintro ⟨r, s, rest, hsplit, hr | hr⟩
  · refine (h.ordinary r ?_).1 hr
    rw [components, hsplit]
    exact List.mem_cons_self
  · have hdrive := startsWithDrive_turned output
    rw [h.drive, ← write_split (turned output), hsplit, write_cons_cons] at hdrive
    match r with
    | [a, b] =>
      rw [bareDrive] at hr
      rw [List.cons_append, List.cons_append, startsWithDrive, hr] at hdrive
      cases hdrive

/-- A path with the root and the names of a directory, and components of its own after them. -/
def Below (destination path : Bytes) : Prop :=
  ∃ more, more ≠ [] ∧ front path = front destination ++ more ∧ ∀ r ∈ more, Ordinary r

theorem front_target (destination : Bytes) (h : Safe output) :
    front (join (some destination) output) = front destination ++ components output := by
  rw [front_join _ h.relative, h.front_eq]
  rfl

theorem target_below (destination : Bytes) (h : Safe output) : Below destination (join (some destination) output) :=
  ⟨components output, List.splitOn_ne_nil SLASH _, front_target destination h, h.ordinary⟩

/-- Two outputs are joined to one path where they differ in nothing but the kind of separator. -/
theorem target_eq_iff {output' : Bytes} (h : Safe output) (h' : Safe output') :
    join (some destination) output = join (some destination) output' ↔ turned output = turned output' := by
  constructor
  · intro heq
    have hfront := congrArg front heq
    rw [front_target destination h, front_target destination h'] at hfront
    have hparts : split (turned output) = split (turned output') := List.append_cancel_left hfront
    rw [← write_split (turned output), hparts, write_split]
  · intro heq
    rw [join, join, h.normalize_eq, h'.normalize_eq, heq]

/-! ### Plans -/

section Plans

variable {host : Host} {source : Source} {asked : Bytes} {name : Option Bytes} {set : Option Table} {p : Plan}
  {tree vals : Table} {manifest : Manifest}

theorem sorted_perm (words : List Bytes) : (sorted words).Perm words := List.perm_insertionSort _ words

theorem nodup_sources (tree : Table) : (sources tree).Nodup :=
  (sorted_perm _).nodup_iff.mpr (tree.nodupKeys.filter _)

/-- A round adds one file, whose output is safe and comes of its source. -/
theorem planFile_ok {state state' : Table × List File} {relative : Bytes}
    (h : planFile host tree manifest vals state relative = .ok state') :
    ∃ file, state'.2 = state.2 ++ [file] ∧ file.source = relative ∧ outputOf vals relative = .ok file.output ∧
      Safe file.output := by
  obtain ⟨claimed, files⟩ := state
  obtain ⟨output, houtput, h⟩ := bind_eq_ok.mp h
  obtain ⟨⟨⟩, hsafe, h⟩ := bind_eq_ok.mp h
  cases hclaimed : claimed.lookup output with
  | some collision =>
    rw [hclaimed] at h
    cases h
  | none =>
    rw [hclaimed] at h
    obtain ⟨written, -, h⟩ := bind_eq_ok.mp h
    rw [← Except.ok.inj h]
    exact ⟨_, rfl, rfl, houtput, componentsAreSafe_ok.mp hsafe⟩

/-- The files of a plan, in the order of their sources. -/
structure Planned (vals : Table) (from_ : List Bytes) (files : List File) : Prop where
  order : files.map File.source = from_
  output : ∀ file ∈ files, outputOf vals file.source = .ok file.output
  safe : ∀ file ∈ files, Safe file.output

theorem planFiles_ok (relatives : List Bytes) {state state' : Table × List File} {done : List Bytes}
    (h : relatives.foldlM (planFile host tree manifest vals) state = .ok state') (hstate : Planned vals done state.2) :
    Planned vals (done ++ relatives) state'.2 := by
  induction relatives generalizing state done with
  | nil =>
    rw [List.append_nil, ← Except.ok.inj h]
    exact hstate
  | cons relative relatives ih =>
    rw [List.foldlM_cons, bind_eq_ok] at h
    obtain ⟨next, hnext, h⟩ := h
    obtain ⟨file, hfiles, hsource, houtput, hsafe⟩ := planFile_ok hnext
    have hplanned : Planned vals (done ++ [relative]) next.2 := by
      rw [hfiles]
      refine ⟨by rw [List.map_append, hstate.order, List.map_singleton, hsource], ?_, ?_⟩
      · intro f hf
        rcases List.mem_append.mp hf with hf | hf
        · exact hstate.output f hf
        · rw [List.mem_singleton.mp hf, hsource]
          exact houtput
      · intro f hf
        rcases List.mem_append.mp hf with hf | hf
        · exact hstate.safe f hf
        · rw [List.mem_singleton.mp hf]
          exact hsafe
    rw [← List.singleton_append, ← List.append_assoc]
    exact ih h hplanned

theorem plan_ok (h : plan host source asked name set = .ok p) :
    ∃ tree manifest vals, prepare host source (fs.normalize asked) name set = .ok (tree, manifest, vals) ∧
      p.source = source ∧ p.destination = fs.normalize asked ∧ Planned vals (sources tree) p.files ∧
      (source.kind = .remote → ∀ step ∈ p.steps, step = .git) := by
  obtain ⟨⟨tree, manifest, vals⟩, hprepare, h⟩ := bind_eq_ok.mp h
  obtain ⟨⟨claimed, files⟩, hfiles, h⟩ := bind_eq_ok.mp h
  have hstart : Planned vals [] [] := ⟨rfl, by simp, by simp⟩
  have hplanned := planFiles_ok (sources tree) hfiles hstart
  refine ⟨tree, manifest, vals, hprepare, ?_⟩
  change (if files = [] then _ else _) = _ at h
  split_ifs at h with hnil
  · rw [← Except.ok.inj h]
    refine ⟨rfl, rfl, hplanned, fun hremote step hstep => ?_⟩
    have hallowed := (List.mem_filter.mp hstep).2
    simpa [hremote, REMOTE_STEPS] using hallowed

/-- Where a plan's files go, in order. -/
def targets (p : Plan) : List Bytes := p.files.map fun file => join (some p.destination) file.output

/-- No two sources have outputs that differ in nothing but the kind of separator. -/
def Apart (tree vals : Table) : Prop :=
  ∀ r ∈ sources tree, ∀ s ∈ sources tree, ∀ output output', outputOf vals r = .ok output → outputOf vals s = .ok output' →
    turned output = turned output' → r = s

theorem Planned.exists_file {from_ : List Bytes} {files : List File} (h : Planned vals from_ files) {r : Bytes}
    (hr : r ∈ from_) (hout : outputOf vals r = .ok output) : ∃ file ∈ files, file.source = r ∧ file.output = output := by
  rw [← h.order] at hr
  obtain ⟨file, hfile, rfl⟩ := List.mem_map.mp hr
  exact ⟨file, hfile, rfl, Except.ok.inj ((h.output file hfile).symm.trans hout)⟩

theorem targets_nodup_iff (h : Planned vals (sources tree) p.files) : (targets p).Nodup ↔ Apart tree vals := by
  have hsources : (p.files.map File.source).Nodup := by
    rw [h.order]
    exact nodup_sources tree
  rw [targets, List.nodup_map_iff_inj_on (List.Nodup.of_map _ hsources)]
  constructor
  · intro hinj r hr s hs output output' houtput houtput' heq
    obtain ⟨f, hf, rfl, rfl⟩ := h.exists_file hr houtput
    obtain ⟨g, hg, rfl, rfl⟩ := h.exists_file hs houtput'
    rw [hinj f hf g hg ((target_eq_iff (h.safe f hf) (h.safe g hg)).mpr heq)]
  · intro hapart f hf g hg heq
    have hmem : ∀ file ∈ p.files, file.source ∈ sources tree := by
      intro file hfile
      rw [← h.order]
      exact List.mem_map_of_mem hfile
    have hsource := hapart f.source (hmem f hf) g.source (hmem g hg) f.output g.output (h.output f hf) (h.output g hg)
      ((target_eq_iff (h.safe f hf) (h.safe g hg)).mp heq)
    exact List.inj_on_of_nodup_map hsources hf hg hsource

theorem writeFiles_ok {World : Type} {writeFile : Bytes → Bytes → World → Option Bytes × World} {files : List File}
    {done written : List Bytes} {world world' : World}
    (h : writeFiles writeFile destination files done world = (.ok written, world')) :
    written = done ++ files.map fun file => join (some destination) file.output := by
  induction files generalizing done world with
  | nil =>
    rw [writeFiles, Prod.mk.injEq, Except.ok.injEq] at h
    rw [List.map_nil, List.append_nil, h.1]
  | cons file files ih =>
    rw [writeFiles] at h
    rcases hfile : writeFile (join (some destination) file.output) file.text world with ⟨answer, next⟩
    rw [hfile] at h
    cases answer with
    | some err => cases h
    | none =>
      rw [ih h, List.append_assoc]
      rfl

/-- A plan's files are written below its destination, and to different paths where the outputs are apart; a remote source has
no step but `git`. -/
theorem plan_writes (h : plan host source asked name set = .ok p) :
    (∀ file ∈ p.files, Below p.destination (join (some p.destination) file.output) ∧
      rooted file.output = false ∧ startsWithDrive file.output = false) ∧
    (source.kind = .remote → ∀ step ∈ p.steps, step = .git) ∧
    (∀ tree manifest vals, prepare host source (fs.normalize asked) name set = .ok (tree, manifest, vals) →
      ((targets p).Nodup ↔ Apart tree vals)) ∧
    ∀ (World : Type) (writeFile : Bytes → Bytes → World → Option Bytes × World) (world world' : World) (written : List Bytes),
      write writeFile p world = (.ok written, world') → written = targets p := by
  obtain ⟨tree, manifest, vals, hprepare, -, -, hplanned, hremote⟩ := plan_ok h
  refine ⟨fun file hfile => ?_, hremote, ?_, ?_⟩
  · have hsafe := hplanned.safe file hfile
    exact ⟨target_below p.destination hsafe, hsafe.root, hsafe.drive⟩
  · intro tree' manifest' vals' hprepare'
    obtain ⟨rfl, -, rfl⟩ : tree = tree' ∧ manifest = manifest' ∧ vals = vals' := by
      simpa using Except.ok.inj (hprepare.symm.trans hprepare')
    exact targets_nodup_iff hplanned
  · intro World writeFile world world' written hwrite
    rw [writeFiles_ok hwrite]
    rfl

end Plans

/-! ### A template of two files -/

/-- A host whose templates are all one tree, and ask for `git` and `check`. -/
def hostOf (tree : Table) : Host where
  entries _ := none
  readTree _ := .ok tree
  manifest _ _ := .ok ⟨∅, [], [.git, .check]⟩
  glob _ _ := false
  isMatch _ _ := true

def sourceOf (kind : Kind) : Source := ⟨kind, none, some [116], none, none, none, none⟩

/-- The files `${name}/b` and `a/b`. -/
def greeting : Table :=
  ((AList.singleton [97, 47, 98] [49]).insert [36, 123, 110, 97, 109, 101, 125, 47, 98] [50]).insert MANIFEST []

/-- The files `a/b` and `a\b`. -/
def clashing : Table := ((AList.singleton [97, 47, 98] [49]).insert [97, 92, 98] [50]).insert MANIFEST []

theorem plan_writes_remote : ∃ p, plan (hostOf greeting) (sourceOf .remote) [110] none none = .ok p ∧
    (∀ file ∈ p.files, Below p.destination (join (some p.destination) file.output)) ∧ ∀ step ∈ p.steps, step = .git := by
  have hplan : ∃ p, plan (hostOf greeting) (sourceOf .remote) [110] none none = .ok p := ⟨_, rfl⟩
  obtain ⟨p, hp⟩ := hplan
  have hwrites := plan_writes hp
  exact ⟨p, hp, fun file hfile => (hwrites.1 file hfile).1, hwrites.2.1 rfl⟩

theorem backslash_clash : (plan (hostOf clashing) (sourceOf .directory) [110] none none).toOption.map targets =
    some [[110, 47, 97, 47, 98], [110, 47, 97, 47, 98]] := by decide

end Nupp.template
