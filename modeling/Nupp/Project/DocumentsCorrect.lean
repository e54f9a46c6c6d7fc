import Mathlib.Data.List.Induction
import Nupp.Project.DocumentsRead

/-! An open buffer against what the calls say of it. The desk keeps, from the calls alone,
which text is open for a path, which paths are open files of the project and which are on
disk; the session is compared with it in every state of a run. -/

namespace Nupp.incremental

open Query Reads

/-- `held` has what the disk held for a path since the last event about it or its last
close, oldest first. -/
structure Desk where
  disk : Disk
  text : String → Option String := fun _ => none
  joined : String → Bool := fun _ => false
  onDisk : String → Bool
  held : String → List (Option String)

def Desk.new (env : Env) (disk : Disk) : Desk :=
  { disk := disk, onDisk := fun path => path ∈ env.listProjectFiles, held := fun path => [disk path] }

def Desk.opened (env : Env) (path text : String) (desk : Desk) : Desk :=
  { desk with
    text := Function.update desk.text path (some text)
    joined := Function.update desk.joined path
      (desk.joined path || (env.moduleNameForPath path).isSome) }

/-- A staged copy of the carried source is read through its path and stays out of the
project. -/
def Desk.step {W E : Type*} (env : Env) (desk : Desk) : Action W E → Desk
  | .openDocument path text | .changeDocument path text | .openGeneratedDocument path text =>
    desk.opened env path text
  | .stageCarriedDocument name path text =>
    if env.stagedCarriedText desk.disk name path text then
      { desk with text := Function.update desk.text path (some text) }
    else
      desk.opened env path text
  | .closeDocument path =>
    { desk with
      text := Function.update desk.text path none
      joined := Function.update desk.joined path false
      held := Function.update desk.held path [desk.disk path] }
  | .diskChanged path changeType =>
    { desk with
      onDisk := Function.update desk.onDisk path
        (changeType ≠ 3 && (desk.onDisk path || (env.moduleNameForPath path).isSome))
      held := Function.update desk.held path [desk.disk path] }
  | .importModule .. | .read .. => desk
  | .write path content =>
    { desk with
      disk := Function.update desk.disk path content
      held := Function.update desk.held path (desk.held path ++ [content]) }

def Desk.run {W E : Type*} (env : Env) (disk : Disk) (actions : List (Action W E)) : Desk :=
  actions.foldl (Desk.step env) (Desk.new env disk)

section Correct

variable {W E : Type*}

variable {held : String → List (Option String)} {text : String → Option String}
  {q q' : Q String (Value W)} {inc : Inc W} {desk : Desk} {w : World W} {env : Env}

structure Covers (held : String → List (Option String)) (text : String → Option String)
    (q : Q String (Value W)) : Prop where
  leaves : Leaves held q
  text : ∀ path, (q.inputs (fileTextOf path)).map Input.value = (text path).map .text

section Covers

theorem Covers.setText (h : Covers held text q) (path s : String) :
    Covers held (Function.update text path (some s)) (setInput q (fileTextOf path) (.text s)) := by
  constructor
  · refine ⟨h.leaves.idle, fun other hnone m hm => ?_⟩
    by_cases hother : other = path
    · subst hother
      simp [setInput] at hnone
    · have hne : fileTextOf other ≠ fileTextOf path := fun heq => hother (congrArg Dep.key heq)
      simp only [setInput, Function.update_of_ne hne] at hnone
      exact h.leaves.memo other hnone m hm
  · intro other
    by_cases hother : other = path
    · subst hother
      simp [setInput]
    · have hne : fileTextOf other ≠ fileTextOf path := fun heq => hother (congrArg Dep.key heq)
      simp only [setInput, Function.update_of_ne hne, Function.update_of_ne hother]
      exact h.text other

/-- Changes of other inputs, and of what is remembered of other queries. -/
theorem Covers.other (h : Covers held text q) (hactive : q'.active = q.active)
    (hinputs : ∀ path, q'.inputs (fileTextOf path) = q.inputs (fileTextOf path))
    (hmemo : ∀ path, q'.memo (fileTextOf path) = q.memo (fileTextOf path)) :
    Covers held text q' := by
  constructor
  · refine ⟨fun path => ?_, fun path hnone m hm => ?_⟩
    · rw [hactive]
      exact h.leaves.idle path
    · rw [hinputs] at hnone
      rw [hmemo] at hm
      exact h.leaves.memo path hnone m hm
  · intro path
    rw [hinputs]
    exact h.text path

theorem Covers.setOther (h : Covers held text q) {d : Dep String} (hd : d.name ≠ "fileText")
    (v : Value W) : Covers held text (setInput q d v) :=
  h.other rfl (fun _ => Function.update_of_ne (fileTextOf_ne hd) _ _) fun _ => rfl

theorem Covers.clearOther (h : Covers held text q) {d : Dep String} (hd : d.name ≠ "fileText") :
    Covers held text (clearInput q d) :=
  h.other rfl (fun _ => Function.update_of_ne (fileTextOf_ne hd) _ _)
    fun _ => Function.update_of_ne (fileTextOf_ne hd) _ _

theorem Covers.clearText (h : Covers held text q) (path : String) (contents : List (Option String)) :
    Covers (Function.update held path contents) (Function.update text path none)
      (clearInput q (fileTextOf path)) := by
  constructor
  · refine ⟨h.leaves.idle, fun other hnone m hm => ?_⟩
    by_cases hother : other = path
    · subst hother
      simp [clearInput] at hm
    · have hne : fileTextOf other ≠ fileTextOf path := fun heq => hother (congrArg Dep.key heq)
      simp only [clearInput, Function.update_of_ne hne] at hnone hm
      rw [Function.update_of_ne hother]
      exact h.leaves.memo other hnone m hm
  · intro other
    by_cases hother : other = path
    · subst hother
      simp [clearInput]
    · have hne : fileTextOf other ≠ fileTextOf path := fun heq => hother (congrArg Dep.key heq)
      simp only [clearInput, Function.update_of_ne hne, Function.update_of_ne hother]
      exact h.text other

/-- What is remembered of a file under a buffer does not matter, and elsewhere the disk may
have held more. -/
theorem Covers.heldMore (h : Covers held text q) {path : String} {contents : List (Option String)}
    (hmore : text path ≠ none ∨ held path ⊆ contents) :
    Covers (Function.update held path contents) text q := by
  refine ⟨⟨h.leaves.idle, fun other hnone m hm => ?_⟩, h.text⟩
  obtain ⟨hdeps, c, hc, hvalue⟩ := h.leaves.memo other hnone m hm
  refine ⟨hdeps, c, ?_, hvalue⟩
  by_cases hother : other = path
  · subst hother
    rw [Function.update_self]
    rcases hmore with hcovered | hmore
    · have htext := h.text other
      rw [hnone] at htext
      exact absurd (by simpa using htext.symm) hcovered
    · exact hmore hc
  · rwa [Function.update_of_ne hother]

end Covers

section Files

theorem mem_addPath {paths : List String} {path other : String} :
    other ∈ addPath paths path ↔ other ∈ paths ∨ other = path := by
  unfold addPath
  split
  · next hmem =>
    refine ⟨Or.inl, ?_⟩
    rintro (hother | rfl)
    · exact hother
    · exact hmem
  · simp

theorem nodup_addPath {paths : List String} (h : paths.Nodup) (path : String) :
    (addPath paths path).Nodup := by
  unfold addPath
  split
  · exact h
  · next hmem =>
    refine List.nodup_append.mpr ⟨h, List.nodup_singleton path, ?_⟩
    rintro other hother last hlast rfl
    exact hmem (List.mem_singleton.mp hlast ▸ hother)

theorem nodup_dropPath {paths : List String} (h : paths.Nodup) (path : String) :
    (dropPath paths path).Nodup := h.filter _

theorem mem_dropPath {paths : List String} {path other : String} :
    other ∈ dropPath paths path ↔ other ∈ paths ∧ other ≠ path := by
  simp [dropPath]

theorem mem_projectFilesList {diskPaths openPaths : List String} {path : String} :
    path ∈ projectFilesList diskPaths openPaths ↔ path ∈ diskPaths ∨ path ∈ openPaths := by
  simp only [projectFilesList, List.mem_insertionSort, List.mem_append, List.mem_filter,
    decide_eq_true_eq]
  tauto

/-- The list is sorted and names no file twice. -/
theorem projectFilesList_sorted {diskPaths openPaths : List String} (hdisk : diskPaths.Nodup)
    (hopen : openPaths.Nodup) : (projectFilesList diskPaths openPaths).Pairwise (· < ·) := by
  have hnodup : (diskPaths ++ openPaths.filter (· ∉ diskPaths)).Nodup := by
    refine List.nodup_append.mpr ⟨hdisk, hopen.filter _, ?_⟩
    intro path hpath other hother heq
    simp only [List.mem_filter, decide_eq_true_eq] at hother
    exact hother.2 (heq ▸ hpath)
  have hsorted := List.pairwise_insertionSort (· ≤ ·)
    (diskPaths ++ openPaths.filter (· ∉ diskPaths))
  have hdistinct : (projectFilesList diskPaths openPaths).Nodup :=
    (List.perm_insertionSort _ _).nodup_iff.mpr hnodup
  exact hsorted.imp₂ (fun _ _ hle hne => lt_of_le_of_ne hle hne) hdistinct

structure Listed (onDisk joined : String → Bool) (inc : Inc W) : Prop where
  disk : inc.diskPaths.Nodup ∧ ∀ path, path ∈ inc.diskPaths ↔ onDisk path = true
  joined : inc.openPaths.Nodup ∧ ∀ path, path ∈ inc.openPaths ↔ joined path = true

/-- The list of files that was published last is still right. -/
def Published (onDisk joined : String → Bool) (q : Q String (Value W)) : Prop :=
  ∃ paths : List String, paths.Pairwise (· < ·) ∧
    (∀ path, path ∈ paths ↔ onDisk path = true ∨ joined path = true) ∧
    (q.inputs projectFilesOf).map Input.value = some (.files paths)

variable {onDisk joined onDisk' joined' : String → Bool}

theorem Listed.published (h : Listed onDisk joined inc) :
    Published onDisk joined (updateProjectFiles inc).q := by
  refine ⟨projectFilesList inc.diskPaths inc.openPaths,
    projectFilesList_sorted h.disk.1 h.joined.1, fun path => ?_, ?_⟩
  · rw [mem_projectFilesList, h.disk.2, h.joined.2]
  · simp [updateProjectFiles, setInput]

theorem Published.congr (h : Published onDisk joined q)
    (hsame : ∀ path, (onDisk' path = true ∨ joined' path = true) ↔
      (onDisk path = true ∨ joined path = true))
    (hinputs : q'.inputs projectFilesOf = q.inputs projectFilesOf) :
    Published onDisk' joined' q' := by
  obtain ⟨paths, hsorted, hmem, hvalue⟩ := h
  refine ⟨paths, hsorted, fun path => ?_, ?_⟩
  · rw [hmem, hsame]
  · rw [hinputs, hvalue]

end Files

section Steps

/-- What holds of a session and a desk that have gone through the same calls. -/
structure Inv (w : World W) (desk : Desk) : Prop where
  disk : w.disk = desk.disk
  current : ∀ path, desk.disk path ∈ desk.held path
  covers : Covers desk.held desk.text w.inc.q
  listed : Listed desk.onDisk desk.joined w.inc
  published : Published desk.onDisk desk.joined w.inc.q
  joined : ∀ path, desk.joined path = true → desk.text path ≠ none

theorem inv_new (env : Env) (disk : Disk) : Inv (W := W) ⟨new env, disk⟩ (Desk.new env disk) := by
  have hpaths (paths acc : List String) (hacc : acc.Nodup) :
      (paths.foldl addPath acc).Nodup ∧
        ∀ path, path ∈ paths.foldl addPath acc ↔ path ∈ acc ∨ path ∈ paths := by
    induction paths generalizing acc with
    | nil => exact ⟨hacc, fun path => by simp⟩
    | cons first paths ih =>
      obtain ⟨hnodup, hmem⟩ := ih (addPath acc first) (nodup_addPath hacc first)
      refine ⟨hnodup, fun path => ?_⟩
      rw [List.foldl_cons, hmem, mem_addPath, List.mem_cons, or_assoc]
  obtain ⟨hnodup, hmem⟩ := hpaths env.listProjectFiles [] List.nodup_nil
  have hlisted : Listed (W := W) (Desk.new env disk).onDisk (Desk.new env disk).joined
      { q := Q.new, diskPaths := env.listProjectFiles.foldl addPath [], openPaths := [] } := by
    refine ⟨⟨hnodup, fun path => ?_⟩, ⟨List.nodup_nil, fun path => by simp [Desk.new]⟩⟩
    simp [hmem, Desk.new]
  refine ⟨rfl, fun path => by simp [Desk.new], ?_, ⟨hlisted.disk, hlisted.joined⟩, hlisted.published,
    fun path hjoined => absurd hjoined (by simp [Desk.new])⟩
  have hnew : Covers (Desk.new env disk).held (Desk.new env disk).text
      (Q.new : Q String (Value W)) :=
    ⟨⟨fun path => rfl, fun path hnone m hm => absurd hm (by simp [Q.new])⟩, fun path => rfl⟩
  exact hnew.setOther (by decide) _

theorem Covers.update_files (h : Covers held text inc.q) :
    Covers held text (updateProjectFiles inc).q := h.setOther (by decide) _

theorem Published.setInput (h : Published onDisk joined q) {d : Dep String}
    (hd : projectFilesOf ≠ d) (v : Value W) : Published onDisk joined (setInput q d v) :=
  h.congr (fun _ => Iff.rfl) (Function.update_of_ne hd _ _)

theorem Published.clearInput (h : Published onDisk joined q) {d : Dep String}
    (hd : projectFilesOf ≠ d) : Published onDisk joined (clearInput q d) :=
  h.congr (fun _ => Iff.rfl) (Function.update_of_ne hd _ _)

theorem projectFilesOf_ne {d : Dep String} (h : d.name ≠ "projectFiles") : projectFilesOf ≠ d :=
  fun heq => h (congrArg Dep.name heq).symm

def openedPaths (env : Env) (path : String) (paths : List String) : List String :=
  if (env.moduleNameForPath path).isSome then addPath paths path else paths

theorem apiOpenDocument_eq (env : Env) (path s : String) (inc : Inc W) :
    ∃ q, apiOpenDocument env path s inc =
        ⟨Query.setInput q (fileTextOf path) (.text s), inc.diskPaths,
          openedPaths env path inc.openPaths⟩ ∧
      (q = (updateProjectFiles ⟨Query.setInput inc.q (generatedSourceOf path) (.flag false),
          inc.diskPaths, openedPaths env path inc.openPaths⟩).q ∨
        q = Query.setInput inc.q (generatedSourceOf path) (.flag false) ∧
          (path ∈ openedPaths env path inc.openPaths →
            path ∈ inc.openPaths ∨ path ∈ inc.diskPaths)) := by
  have hpaths : (if (env.moduleNameForPath path).isSome then
      { q := Query.setInput inc.q (generatedSourceOf path) (.flag false),
        diskPaths := inc.diskPaths, openPaths := addPath inc.openPaths path }
      else { inc with q := Query.setInput inc.q (generatedSourceOf path) (.flag false) }) =
      ⟨Query.setInput inc.q (generatedSourceOf path) (.flag false), inc.diskPaths,
        openedPaths env path inc.openPaths⟩ := by
    unfold openedPaths
    split <;> rfl
  simp only [apiOpenDocument, hpaths]
  by_cases hnew : path ∉ inc.openPaths ∧ path ∈ openedPaths env path inc.openPaths ∧
      path ∉ inc.diskPaths
  · exact ⟨_, congrArg (fun i : Inc W =>
      { i with q := Query.setInput i.q (fileTextOf path) (.text s) }) (if_pos hnew), .inl rfl⟩
  · exact ⟨_, congrArg (fun i : Inc W =>
      { i with q := Query.setInput i.q (fileTextOf path) (.text s) }) (if_neg hnew),
      .inr ⟨rfl, fun hpath => by tauto⟩⟩

theorem listed_opened (h : Listed onDisk joined inc) (env : Env) (path : String)
    (q : Q String (Value W)) :
    Listed onDisk (Function.update joined path
        (joined path || (env.moduleNameForPath path).isSome))
      ⟨q, inc.diskPaths, openedPaths env path inc.openPaths⟩ := by
  refine ⟨h.disk, ?_, fun other => ?_⟩
  · simp only [openedPaths]
    split
    · exact nodup_addPath h.joined.1 path
    · exact h.joined.1
  · have hother := h.joined.2 other
    simp only [openedPaths]
    by_cases heq : other = path
    · subst heq
      rw [Function.update_self]
      split
      · next hmodule => simp [mem_addPath, hmodule]
      · next hmodule => simpa [hmodule] using hother
    · rw [Function.update_of_ne heq]
      split
      · simpa [mem_addPath, heq] using hother
      · exact hother

theorem inv_opened (env : Env) (h : Inv w desk) (path s : String) :
    Inv (w.map (apiOpenDocument env path s)) (desk.opened env path s) := by
  obtain ⟨q, hopened, hq⟩ := apiOpenDocument_eq env path s w.inc
  have hgenerated : (generatedSourceOf path).name ≠ "fileText" := by simp [generatedSourceOf]
  have hlisted := listed_opened h.listed env path (Query.setInput q (fileTextOf path) (.text s))
  have hcovers : Covers desk.held desk.text q := by
    rcases hq with rfl | ⟨rfl, -⟩
    · exact (h.covers.setOther hgenerated _).setOther (by decide) _
    · exact h.covers.setOther hgenerated _
  have hpublished : Published desk.onDisk (desk.opened env path s).joined q := by
    rcases hq with rfl | ⟨rfl, hknown⟩
    · exact Listed.published ⟨hlisted.disk, hlisted.joined⟩
    · have hkept := h.published.setInput (d := generatedSourceOf path) (projectFilesOf_ne
        (by simp [generatedSourceOf])) (.flag false)
      refine hkept.congr (fun other => ?_) rfl
      by_cases heq : other = path
      · subst heq
        have hjoined : (desk.opened env other s).joined other = true ↔
            other ∈ openedPaths env other w.inc.openPaths := (hlisted.joined.2 other).symm
        rw [hjoined, ← h.listed.disk.2, ← h.listed.joined.2]
        have hmore : other ∈ w.inc.openPaths → other ∈ openedPaths env other w.inc.openPaths := by
          intro hother
          rw [openedPaths]
          split
          · exact mem_addPath.mpr (.inl hother)
          · exact hother
        tauto
      · simp only [Desk.opened, Function.update_of_ne heq]
  have hworld : w.map (apiOpenDocument env path s) =
      ⟨⟨Query.setInput q (fileTextOf path) (.text s), w.inc.diskPaths,
        openedPaths env path w.inc.openPaths⟩, w.disk⟩ :=
    congrArg (World.mk · w.disk) hopened
  rw [hworld]
  refine ⟨h.disk, h.current, hcovers.setText path s, hlisted,
    hpublished.setInput (projectFilesOf_ne (by simp [fileTextOf])) _, fun other hother => ?_⟩
  by_cases heq : other = path
  · simp [Desk.opened, heq]
  · simp only [Desk.opened, Function.update_of_ne heq] at hother ⊢
    exact h.joined other hother

/-- A change of the inputs that neither the files nor their list read. -/
theorem inv_setOther (h : Inv w desk) {d : Dep String} (hd : d.name ≠ "fileText")
    (hd' : d.name ≠ "projectFiles") (v : Value W) :
    Inv (w.map fun inc => { inc with q := Query.setInput inc.q d v }) desk :=
  ⟨h.disk, h.current, h.covers.setOther hd v, ⟨h.listed.disk, h.listed.joined⟩,
    h.published.setInput (projectFilesOf_ne hd') v, h.joined⟩

theorem inv_staged (h : Inv w desk) (path s : String) :
    Inv (w.map fun inc => { inc with q := Query.setInput (Query.setInput inc.q
        (generatedSourceOf path) (.flag false)) (fileTextOf path) (.text s) })
      { desk with text := Function.update desk.text path (some s) } := by
  have hgenerated := inv_setOther h (d := generatedSourceOf path) (by simp [generatedSourceOf])
    (by simp [generatedSourceOf]) (.flag false)
  refine ⟨h.disk, h.current, hgenerated.covers.setText path s, ⟨h.listed.disk, h.listed.joined⟩,
    hgenerated.published.setInput (projectFilesOf_ne (by simp [fileTextOf])) _,
    fun other hother => ?_⟩
  by_cases heq : other = path
  · simp [heq]
  · simp only [Function.update_of_ne heq]
    exact h.joined other hother

def closedPaths (path : String) (paths : List String) : List String :=
  if path ∈ paths then dropPath paths path else paths

theorem apiCloseDocument_eq (path : String) (inc : Inc W) :
    ∃ q, apiCloseDocument path inc = ⟨q, inc.diskPaths, closedPaths path inc.openPaths⟩ ∧
      (q = (updateProjectFiles ⟨Query.clearInput (Query.clearInput inc.q (generatedSourceOf path))
          (fileTextOf path), inc.diskPaths, closedPaths path inc.openPaths⟩).q ∨
        q = Query.clearInput (Query.clearInput inc.q (generatedSourceOf path)) (fileTextOf path) ∧
          (path ∈ inc.openPaths → path ∈ inc.diskPaths)) := by
  unfold apiCloseDocument closedPaths
  by_cases hopen : path ∈ inc.openPaths
  · by_cases hdisk : path ∈ inc.diskPaths
    · simp only [hopen, hdisk, not_true_eq_false, if_true, if_false]
      exact ⟨_, rfl, .inr ⟨rfl, fun _ => trivial⟩⟩
    · simp only [hopen, hdisk, not_false_eq_true, if_true]
      exact ⟨_, rfl, .inl rfl⟩
  · simp only [hopen, if_false]
    exact ⟨_, rfl, .inr ⟨rfl, fun hpath => absurd hpath not_false⟩⟩

theorem listed_closed (h : Listed onDisk joined inc) (path : String) (q : Q String (Value W)) :
    Listed onDisk (Function.update joined path false)
      ⟨q, inc.diskPaths, closedPaths path inc.openPaths⟩ := by
  refine ⟨h.disk, ?_, fun other => ?_⟩
  · simp only [closedPaths]
    split
    · exact nodup_dropPath h.joined.1 path
    · exact h.joined.1
  · have hother := h.joined.2 other
    simp only [closedPaths]
    by_cases heq : other = path
    · subst heq
      rw [Function.update_self]
      split
      · simp [mem_dropPath]
      · next hout => simp [hout]
    · rw [Function.update_of_ne heq]
      split
      · simpa [mem_dropPath, heq] using hother
      · exact hother

theorem inv_closed (h : Inv w desk) (path : String) :
    Inv (w.map (apiCloseDocument path))
      { desk with
        text := Function.update desk.text path none
        joined := Function.update desk.joined path false
        held := Function.update desk.held path [desk.disk path] } := by
  obtain ⟨q, hclosed, hq⟩ := apiCloseDocument_eq path w.inc
  have hlisted := listed_closed h.listed path q
  have hgenerated : (generatedSourceOf path).name ≠ "fileText" := by simp [generatedSourceOf]
  have hcleared := (h.covers.clearOther hgenerated).clearText path [desk.disk path]
  have hcovers : Covers (Function.update desk.held path [desk.disk path])
      (Function.update desk.text path none) q := by
    rcases hq with rfl | ⟨rfl, -⟩
    · exact hcleared.setOther (by decide) _
    · exact hcleared
  have hpublished : Published desk.onDisk (Function.update desk.joined path false) q := by
    rcases hq with rfl | ⟨rfl, hknown⟩
    · exact Listed.published ⟨hlisted.disk, hlisted.joined⟩
    · have hkept := (h.published.clearInput (d := generatedSourceOf path) (projectFilesOf_ne
        (by simp [generatedSourceOf]))).clearInput (d := fileTextOf path) (projectFilesOf_ne
        (by simp [fileTextOf]))
      refine hkept.congr (fun other => ?_) rfl
      by_cases heq : other = path
      · subst heq
        rw [Function.update_self, ← h.listed.disk.2, ← h.listed.joined.2]
        simp only [Bool.false_eq_true, or_false]
        tauto
      · rw [Function.update_of_ne heq]
  have hworld : w.map (apiCloseDocument path) =
      ⟨⟨q, w.inc.diskPaths, closedPaths path w.inc.openPaths⟩, w.disk⟩ :=
    congrArg (World.mk · w.disk) hclosed
  rw [hworld]
  refine ⟨h.disk, fun other => ?_, hcovers, hlisted, hpublished, fun other hother => ?_⟩
  · by_cases heq : other = path
    · simp [heq]
    · simpa only [Function.update_of_ne heq] using h.current other
  · by_cases heq : other = path
    · simp [heq] at hother
    · simp only [Function.update_of_ne heq] at hother ⊢
      exact h.joined other hother

def changedPaths (env : Env) (path : String) (changeType : ℕ) (paths : List String) :
    List String :=
  if changeType = 3 then dropPath paths path
  else if (env.moduleNameForPath path).isSome then addPath paths path
  else paths

def uncovered (path : String) (inc : Inc W) : Q String (Value W) :=
  if path ∉ inc.openPaths then Query.clearInput inc.q (fileTextOf path) else inc.q

theorem apiDiskChanged_eq (env : Env) (path : String) (changeType : ℕ) (inc : Inc W) :
    ∃ q, apiDiskChanged env path changeType inc =
        ⟨q, changedPaths env path changeType inc.diskPaths, inc.openPaths⟩ ∧
      (q = (updateProjectFiles ⟨Query.clearInput (uncovered path inc) (externalFileOf path),
          changedPaths env path changeType inc.diskPaths, inc.openPaths⟩).q ∨
        q = Query.clearInput (uncovered path inc) (externalFileOf path) ∧
          (path ∈ inc.diskPaths ↔ path ∈ changedPaths env path changeType inc.diskPaths)) := by
  have hpaths : (if changeType = 3 then { inc with diskPaths := dropPath inc.diskPaths path }
      else if (env.moduleNameForPath path).isSome then
        { inc with diskPaths := addPath inc.diskPaths path }
      else inc) = ⟨inc.q, changedPaths env path changeType inc.diskPaths, inc.openPaths⟩ := by
    unfold changedPaths
    split
    · rfl
    · split <;> rfl
  have hq : (if path ∉ inc.openPaths then
      (⟨Query.clearInput inc.q (fileTextOf path), changedPaths env path changeType inc.diskPaths,
        inc.openPaths⟩ : Inc W)
      else ⟨inc.q, changedPaths env path changeType inc.diskPaths, inc.openPaths⟩) =
      ⟨uncovered path inc, changedPaths env path changeType inc.diskPaths, inc.openPaths⟩ := by
    unfold uncovered
    split <;> rfl
  simp only [apiDiskChanged, hpaths, hq]
  by_cases hsame : path ∈ inc.diskPaths ↔ path ∈ changedPaths env path changeType inc.diskPaths
  · exact ⟨_, if_neg (not_not.mpr hsame), .inr ⟨rfl, hsame⟩⟩
  · exact ⟨_, if_pos hsame, .inl rfl⟩

theorem listed_changed (h : Listed onDisk joined inc) (env : Env) (path : String) (changeType : ℕ)
    (q : Q String (Value W)) :
    Listed (Function.update onDisk path
        (changeType ≠ 3 && (onDisk path || (env.moduleNameForPath path).isSome))) joined
      ⟨q, changedPaths env path changeType inc.diskPaths, inc.openPaths⟩ := by
  refine ⟨⟨?_, fun other => ?_⟩, h.joined⟩
  · simp only [changedPaths]
    split
    · exact nodup_dropPath h.disk.1 path
    · split
      · exact nodup_addPath h.disk.1 path
      · exact h.disk.1
  · have hother := h.disk.2 other
    simp only [changedPaths]
    by_cases heq : other = path
    · subst heq
      rw [Function.update_self]
      split
      · next hdeleted => simp [mem_dropPath, hdeleted]
      · next hkept =>
        split
        · next hmodule => simp [mem_addPath, hmodule, hkept]
        · next hmodule => simpa [hmodule, hkept] using hother
    · rw [Function.update_of_ne heq]
      split
      · simpa [mem_dropPath, heq] using hother
      · split
        · simpa [mem_addPath, heq] using hother
        · exact hother

/-- An event about a path whose open text is no open file of the project would lose it. -/
theorem inv_diskChanged (env : Env) (h : Inv w desk) {path : String} (changeType : ℕ)
    (hcovered : desk.text path ≠ none → desk.joined path = true) :
    Inv (w.map (apiDiskChanged env path changeType))
      { desk with
        onDisk := Function.update desk.onDisk path
          (changeType ≠ 3 && (desk.onDisk path || (env.moduleNameForPath path).isSome))
        held := Function.update desk.held path [desk.disk path] } := by
  obtain ⟨q, hchanged, hq⟩ := apiDiskChanged_eq env path changeType w.inc
  have hlisted := listed_changed h.listed env path changeType q
  have hexternal : (externalFileOf path).name ≠ "fileText" := by simp [externalFileOf]
  have huncovered : Covers (Function.update desk.held path [desk.disk path]) desk.text
      (uncovered path w.inc) := by
    rw [uncovered]
    split
    · next hout =>
      have hbare : desk.text path = none := by
        by_contra htext
        exact hout ((h.listed.joined.2 path).mpr (hcovered htext))
      have hcleared := h.covers.clearText path [desk.disk path]
      rwa [← hbare, Function.update_eq_self] at hcleared
    · next hin =>
      have hjoined := (h.listed.joined.2 path).mp (not_not.mp hin)
      exact h.covers.heldMore (.inl (h.joined path hjoined))
  have hcovers : Covers (Function.update desk.held path [desk.disk path]) desk.text q := by
    rcases hq with rfl | ⟨rfl, -⟩
    · exact (huncovered.clearOther hexternal).setOther (by decide) _
    · exact huncovered.clearOther hexternal
  have hpublished : Published (Function.update desk.onDisk path
      (changeType ≠ 3 && (desk.onDisk path || (env.moduleNameForPath path).isSome)))
      desk.joined q := by
    rcases hq with rfl | ⟨rfl, hsame⟩
    · exact Listed.published ⟨hlisted.disk, hlisted.joined⟩
    · have hkept : Published desk.onDisk desk.joined (uncovered path w.inc) := by
        rw [uncovered]
        split
        · exact h.published.clearInput (projectFilesOf_ne (by simp [fileTextOf]))
        · exact h.published
      have hkept' := hkept.clearInput (d := externalFileOf path) (projectFilesOf_ne
        (by simp [externalFileOf]))
      refine hkept'.congr (fun other => ?_) rfl
      by_cases heq : other = path
      · subst heq
        rw [← hlisted.disk.2, ← h.listed.disk.2, hsame]
      · rw [Function.update_of_ne heq]
  have hworld : w.map (apiDiskChanged env path changeType) =
      ⟨⟨q, changedPaths env path changeType w.inc.diskPaths, w.inc.openPaths⟩, w.disk⟩ :=
    congrArg (World.mk · w.disk) hchanged
  rw [hworld]
  refine ⟨h.disk, fun other => ?_, hcovers, hlisted, hpublished, h.joined⟩
  by_cases heq : other = path
  · simp [heq]
  · simpa only [Function.update_of_ne heq] using h.current other

theorem inv_write (h : Inv w desk) (path : String) (c : Option String) :
    Inv { w with disk := Function.update w.disk path c }
      { desk with
        disk := Function.update desk.disk path c
        held := Function.update desk.held path (desk.held path ++ [c]) } := by
  refine ⟨by rw [h.disk], fun other => ?_, h.covers.heldMore (.inr (List.subset_append_left _ _)),
    h.listed, h.published, h.joined⟩
  by_cases heq : other = path
  · simp [heq]
  · simpa only [Function.update_of_ne heq] using h.current other

end Steps

section Run

variable [DecidableEq W]

/-- What the session answers is what the calls say: an open text as long as it is open, and
else what the disk held since the last event; and the files of the project are those on
disk or open. -/
structure Authoritative (E : Type*) (w : World W) (desk : Desk) : Prop where
  covered : ∀ path text, desk.text path = some text → ∀ (others : Defs W E) depth,
    ∃ q, read w.disk others (depth + 1) (fileTextOf path) w.inc = some (.ok (.text text), q)
  bare : ∀ path, desk.text path = none → ∀ (others : Defs W E) depth,
    ∃ c ∈ desk.held path, ∃ q,
      read w.disk others (depth + 1) (fileTextOf path) w.inc = some (.ok (content c), q)
  files : ∃ paths : List String, paths.Pairwise (· < ·) ∧
    (∀ path, path ∈ paths ↔ desk.onDisk path = true ∨ desk.joined path = true) ∧
    ∀ (others : Defs W E) depth,
      ∃ q, read w.disk others (depth + 1) projectFilesOf w.inc = some (.ok (.files paths), q)


/-- A watcher's event comes for no path that has an open text without being an open file of
the project: one outside the roots, or a staged copy of what the compiler carries. -/
def Covered (desk : Desk) : Action W E → Prop
  | .diskChanged path _ => desk.text path ≠ none → desk.joined path = true
  | _ => True

theorem inv_step (env : Env) (h : Inv w desk) (action : Action W E)
    (hcovered : Covered desk action) : Inv (step env w action) (desk.step env action) := by
  cases action with
  | openDocument path s => exact inv_opened env h path s
  | changeDocument path s => exact inv_opened env h path s
  | openGeneratedDocument path s =>
    exact inv_setOther (inv_opened env h path s) (d := generatedSourceOf path)
      (by simp [generatedSourceOf]) (by simp [generatedSourceOf]) (.flag true)
  | stageCarriedDocument name path s =>
    simp only [Desk.step]
    split
    · next hstaged =>
      rw [← h.disk] at hstaged
      have hworld : step env w (.stageCarriedDocument name path s : Action W E) =
          w.map fun inc => { inc with q := Query.setInput (Query.setInput inc.q
            (generatedSourceOf path) (.flag false)) (fileTextOf path) (.text s) } :=
        congrArg (World.mk · w.disk) (if_pos hstaged)
      rw [hworld]
      exact inv_staged h path s
    · next hstaged =>
      rw [← h.disk] at hstaged
      have hworld : step env w (.stageCarriedDocument name path s : Action W E) =
          w.map (apiOpenDocument env path s) :=
        congrArg (World.mk · w.disk) (if_neg hstaged)
      rw [hworld]
      exact inv_opened env h path s
  | closeDocument path => exact inv_closed h path
  | diskChanged path changeType => exact inv_diskChanged env h changeType hcovered
  | importModule name semantic =>
    exact inv_setOther h (d := importedModuleOf name) (by simp [importedModuleOf])
      (by simp [importedModuleOf]) semantic
  | read others depth d =>
    simp only [step, Desk.step]
    split
    · next r q hread =>
      have hcurrent : ∀ path, w.disk path ∈ desk.held path := h.disk ▸ h.current
      obtain ⟨hinputs, hleaves⟩ := get_calm hcurrent depth d _ _ _ hread h.covers.leaves
      refine ⟨h.disk, h.current, ⟨hleaves, fun path => ?_⟩, ⟨h.listed.disk, h.listed.joined⟩,
        h.published.congr (fun _ => Iff.rfl) (congrFun hinputs _), h.joined⟩
      have htext := h.covers.text path
      rwa [← hinputs] at htext
    · exact h
  | write path c => exact inv_write h path c

theorem inv_authoritative (h : Inv w desk) : Authoritative E w desk := by
  have hinput {d : Dep String} {v : Value W} (hd : (w.inc.q.inputs d).map Input.value = some v)
      (others : Defs W E) (depth : ℕ) :
      ∃ q, read w.disk others (depth + 1) d w.inc = some (.ok v, q) := by
    obtain ⟨inp, hinp, hvalue⟩ := Option.map_eq_some_iff.mp hd
    refine ⟨record w.inc.q d, ?_⟩
    simp only [read, Query.get, getStep, hinp, hvalue]
  refine ⟨fun path s htext others depth => ?_, fun path htext others depth => ?_, ?_⟩
  · exact hinput ((h.covers.text path).trans (by rw [htext]; rfl)) others depth
  · have hnone : w.inc.q.inputs (fileTextOf path) = none := by
      have hmap := h.covers.text path
      rw [htext] at hmap
      exact Option.map_eq_none_iff.mp hmap
    have hcurrent : w.disk path ∈ desk.held path := h.disk ▸ h.current path
    obtain ⟨c, hc, q, hread, -⟩ := read_file others
      (Query.get (program w.disk others) depth) h.covers.leaves hnone hcurrent
    exact ⟨c, hc, q, hread⟩
  · obtain ⟨paths, hsorted, hmem, hvalue⟩ := h.published
    exact ⟨paths, hsorted, hmem, hinput hvalue⟩

section Outside

/-- A session of no roots. -/
def rootless : Env where
  moduleNameForPath _ := none
  stagedCarriedText _ _ _ _ := false
  listProjectFiles := []

def noOthers : Defs Unit Empty := fun _ => none

end Outside

end Run

end Correct

end Nupp.incremental
