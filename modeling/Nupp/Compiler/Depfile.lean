import Mathlib.Data.List.Basic
import Mathlib.Data.Nat.Notation
import Mathlib.Data.List.Induction
import Mathlib.Tactic.Tauto

/-! The rule of a dependency file (`depfile` of `nupp/compiler/shellsyntax.nupp`), and the text that a C compiler writes
for one. A position in the text stands for the text from there on. -/

namespace Nupp.shellsyntax

abbrev Bytes := List UInt8

def NEWLINE : UInt8 := 10
def RETURN : UInt8 := 13
def SPACE : UInt8 := 32
def HASH : UInt8 := 35
def DOLLAR : UInt8 := 36
def COLON : UInt8 := 58
def BACKSLASH : UInt8 := 92

def whitespace (b : UInt8) : Bool := b == 32 || (9 ≤ b && b ≤ 13)

def continuation (text : Bytes) : ℕ :=
  if text.take 2 = [BACKSLASH, NEWLINE] then 2
  else if text.take 3 = [BACKSLASH, RETURN, NEWLINE] then 3
  else 0

/-- The loop over the target; the answer is what follows its colon. -/
def afterTarget : Bytes → Option Bytes
  | [] => none
  | c :: rest =>
    if c = COLON then some rest
    else if c = BACKSLASH then
      match rest with
      | [] => none
      | _ :: rest => afterTarget rest
    else afterTarget rest

/-- The loop over the pieces of a path, which are joined, and what follows them. -/
def readPath : Bytes → Option (Bytes × Bytes)
  | [] => some ([], [])
  | c :: rest =>
    if whitespace c || c = HASH || 0 < continuation (c :: rest) then some ([], c :: rest)
    else if c = BACKSLASH then
      match rest with
      | [] => none
      | c :: rest => (readPath rest).map fun r => (c :: r.1, r.2)
    else (readPath rest).map fun r => (c :: r.1, r.2)

/-- The loop over the dependencies; `none` where the fuel runs out. -/
def readPaths : ℕ → Bytes → Option (Option (List Bytes))
  | 0, _ => none
  | _ + 1, [] => some (some [])
  | fuel + 1, c :: rest =>
    if whitespace c then readPaths fuel rest
    else if 0 < continuation (c :: rest) then readPaths fuel ((c :: rest).drop (continuation (c :: rest)))
    else if c = HASH then
      if NEWLINE ∈ (c :: rest).dropLast then some none else some (some [])
    else
      match readPath (c :: rest) with
      | none => some none
      | some (path, rest) => (readPaths fuel rest).map (Option.map (path :: ·))

def depfile (fuel : ℕ) (text : Bytes) : Option (Option (List Bytes)) :=
  match afterTarget text with
  | none => some none
  | some rest => readPaths fuel rest

example : depfile 4 [120, COLON, SPACE, 121, BACKSLASH, SPACE] = some (some [[121, SPACE]]) := by
  simp [depfile, afterTarget, readPaths, readPath, continuation, whitespace, SPACE, HASH, COLON, BACKSLASH, RETURN, NEWLINE]

/-- `colon` says whether a colon is preceded by a backslash too. -/
def escapeByte (colon : Bool) (b : UInt8) : Bytes :=
  if b = SPACE ∨ b = HASH ∨ (colon = true ∧ b = COLON) then [BACKSLASH, b]
  else if b = DOLLAR then [DOLLAR, DOLLAR]
  else [b]

def escape (colon : Bool) (name : Bytes) : Bytes := name.flatMap (escapeByte colon)

/-- What may stand between two paths. -/
inductive Gap
  | blank (b : UInt8) (space : whitespace b = true)
  | continued (carriageReturn : Bool)

def Gap.text : Gap → Bytes
  | .blank b _ => [b]
  | .continued carriageReturn => if carriageReturn then [BACKSLASH, RETURN, NEWLINE] else [BACKSLASH, NEWLINE]

structure Dependency where
  path : Bytes
  gaps : List Gap
  nonempty : path ≠ []
  printable : ∀ b ∈ path, b ≠ BACKSLASH ∧ 32 ≤ b ∧ b ≠ 127

def Dependency.text (dependency : Dependency) : Bytes :=
  escape false dependency.path ++ dependency.gaps.flatMap Gap.text

/-- A rule as a compiler writes it. -/
structure Rule where
  target : Bytes
  lead : List Gap
  dependencies : List Dependency
  separated : ∀ dependency ∈ dependencies.dropLast, dependency.gaps ≠ []

def Rule.paths (rule : Rule) : List Bytes := rule.dependencies.map Dependency.path

def Rule.text (rule : Rule) : Bytes :=
  escape true rule.target ++ COLON :: (rule.lead.flatMap Gap.text ++ rule.dependencies.flatMap Dependency.text)

end Nupp.shellsyntax

/-! Reading a dependency file ends, and gives back the paths where none holds a dollar sign and the target's backslashes
leave its colons alone. -/

namespace Nupp.shellsyntax

/-- No backslash takes a colon of the target or its end, where each takes the byte after it. -/
def Clear : Bytes → Prop
  | [] => True
  | c :: rest =>
    if c = BACKSLASH then
      match rest with
      | [] => False
      | d :: rest => d ≠ COLON ∧ Clear rest
    else Clear rest

theorem continuation_cases (text : Bytes) :
    continuation text = 0 ∨ (∃ rest, text = BACKSLASH :: NEWLINE :: rest ∧ continuation text = 2) ∨
      ∃ rest, text = BACKSLASH :: RETURN :: NEWLINE :: rest ∧ continuation text = 3 := by
  by_cases h2 : text.take 2 = [BACKSLASH, NEWLINE]
  · refine .inr (.inl ⟨text.drop 2, ?_, by simp [continuation, h2]⟩)
    rw [← List.take_append_drop 2 text, h2]
    simp
  · by_cases h3 : text.take 3 = [BACKSLASH, RETURN, NEWLINE]
    · refine .inr (.inr ⟨text.drop 3, ?_, by simp [continuation, h2, h3]⟩)
      rw [← List.take_append_drop 3 text, h3]
      simp
    · simp [continuation, h2, h3]

theorem continuation_eq_zero {c : UInt8} (hc : c ≠ BACKSLASH) (rest : Bytes) : continuation (c :: rest) = 0 := by
  simp [continuation, hc]

/-- A byte that ends a path or separates it. -/
def stops (text : Bytes) : Bool :=
  match text with
  | [] => true
  | c :: rest => whitespace c || c = HASH || 0 < continuation (c :: rest)

theorem readPath_of_stops {text : Bytes} (h : stops text = true) : readPath text = some ([], text) := by
  cases text with
  | nil => rfl
  | cons c rest =>
    simp only [stops] at h
    rw [readPath.eq_def]
    simp only [h, if_true]

theorem readPath_escaped {d : UInt8} {rest : Bytes} (h : continuation (BACKSLASH :: d :: rest) = 0) :
    readPath (BACKSLASH :: d :: rest) = (readPath rest).map fun r => (d :: r.1, r.2) := by
  have hplain : (whitespace BACKSLASH || BACKSLASH = HASH) = false := by decide
  rw [readPath.eq_def]
  simp only [h, hplain, Nat.lt_irrefl, decide_false, Bool.or_false, Bool.false_eq_true, if_false, if_true]

theorem readPath_lone : readPath [BACKSLASH] = none := by decide

theorem readPath_plain {c : UInt8} {rest : Bytes} (h : stops (c :: rest) = false) (hc : c ≠ BACKSLASH) :
    readPath (c :: rest) = (readPath rest).map fun r => (c :: r.1, r.2) := by
  simp only [stops] at h
  rw [readPath.eq_def]
  simp only [h, hc, if_false, Bool.false_eq_true]

/-- What is left after a path is the text or a part of what follows its first byte. -/
theorem readPath_length {text rest path : Bytes} (h : readPath text = some (path, rest)) :
    rest.length ≤ text.length ∧ (stops text = false → rest.length < text.length) := by
  induction hn : text.length using Nat.strongRecOn generalizing text rest path with
  | ind n ih =>
    subst hn
    by_cases hstop : stops text = true
    · rw [readPath_of_stops hstop] at h
      cases h
      simp [hstop]
    · obtain ⟨c, text, rfl⟩ : ∃ c text', text = c :: text' := by
        cases text with
        | nil => exact absurd rfl hstop
        | cons c text => exact ⟨c, text, rfl⟩
      have hlt : rest.length < (c :: text).length := by
        by_cases hc : c = BACKSLASH
        · subst hc
          cases text with
          | nil => rw [readPath_lone] at h; cases h
          | cons d text =>
            have hcont : continuation (BACKSLASH :: d :: text) = 0 := by
              simp only [stops, Bool.or_eq_true, not_or, decide_eq_true_eq] at hstop
              omega
            rw [readPath_escaped hcont] at h
            obtain ⟨r, hr, heq⟩ := Option.map_eq_some_iff.mp h
            cases heq
            have := (ih _ (by simp only [List.length_cons]; omega) hr rfl).1
            simp only [List.length_cons]
            omega
        · rw [readPath_plain (by simpa using hstop) hc] at h
          obtain ⟨r, hr, heq⟩ := Option.map_eq_some_iff.mp h
          cases heq
          exact Nat.lt_succ_of_le (ih _ (by simp) hr rfl).1
      exact ⟨Nat.le_of_lt hlt, fun _ => hlt⟩

/-- What the loop answers with enough fuel. -/
def paths (text : Bytes) : Option (List Bytes) := (readPaths (text.length + 1) text).getD none

theorem readPaths_stable {m n : ℕ} {text : Bytes} (hm : text.length < m) (hn : text.length < n) :
    readPaths m text = readPaths n text ∧ (readPaths m text).isSome = true := by
  induction m generalizing n text with
  | zero => omega
  | succ m ih =>
    obtain ⟨n, rfl⟩ : ∃ k, n = k + 1 := ⟨n - 1, by omega⟩
    cases text with
    | nil => simp [readPaths]
    | cons c rest =>
      simp only [List.length_cons] at hm hn
      by_cases hspace : whitespace c = true
      · simpa only [readPaths, hspace, if_true] using ih (by omega) (by omega)
      by_cases hcont : 0 < continuation (c :: rest)
      · have hlength : ((c :: rest).drop (continuation (c :: rest))).length ≤ rest.length := by
          rw [List.length_drop, List.length_cons]
          omega
        simpa only [readPaths, hspace, hcont, if_true, if_false, Bool.false_eq_true] using
          @ih n ((c :: rest).drop (continuation (c :: rest))) (by omega) (by omega)
      by_cases hhash : c = HASH
      · simp only [readPaths, hspace, hcont, if_false, Bool.false_eq_true]
        simp only [hhash, if_true]
        split <;> simp
      cases hpath : readPath (c :: rest) with
      | none => simp [readPaths, hspace, hcont, hhash, hpath]
      | some r =>
        obtain ⟨path, rest'⟩ := r
        have hlength := (readPath_length hpath).2 (by simp [stops, hspace, hcont, hhash])
        simp only [List.length_cons] at hlength
        obtain ⟨heq, hsome⟩ := @ih n rest' (by omega) (by omega)
        simp only [readPaths, hspace, hcont, hhash, hpath, if_false, Bool.false_eq_true, Option.isSome_map, hsome,
          and_true]
        rw [heq]

theorem readPaths_eq {fuel : ℕ} {text : Bytes} (h : text.length < fuel) :
    readPaths fuel text = some (paths text) := by
  obtain ⟨heq, hsome⟩ := readPaths_stable h (Nat.lt_succ_self text.length)
  obtain ⟨r, hr⟩ := Option.isSome_iff_exists.mp hsome
  rw [heq] at hr
  rw [heq, paths, hr]
  rfl

@[simp] theorem paths_nil : paths [] = some [] := rfl

theorem paths_blank {c : UInt8} (hc : whitespace c = true) (rest : Bytes) : paths (c :: rest) = paths rest := by
  have h := readPaths_eq (Nat.lt_succ_self (c :: rest).length)
  rw [List.length_cons, readPaths, if_pos hc, readPaths_eq (Nat.lt_succ_self _)] at h
  exact (Option.some.inj h).symm

theorem not_whitespace_backslash : whitespace BACKSLASH = false := by decide

theorem paths_continued {text : Bytes} (h : 0 < continuation text) :
    paths text = paths (text.drop (continuation text)) := by
  have heq := readPaths_eq (Nat.lt_succ_self text.length)
  obtain ⟨rest, rfl⟩ : ∃ rest, text = BACKSLASH :: rest := by
    rcases continuation_cases text with h0 | ⟨rest, rfl, -⟩ | ⟨rest, rfl, -⟩
    · omega
    · exact ⟨_, rfl⟩
    · exact ⟨_, rfl⟩
  have hlength : ((BACKSLASH :: rest).drop (continuation (BACKSLASH :: rest))).length < rest.length + 1 := by
    rw [List.length_drop, List.length_cons]
    omega
  rw [List.length_cons, readPaths, not_whitespace_backslash, if_neg Bool.false_ne_true, if_pos h,
    readPaths_eq hlength] at heq
  exact (Option.some.inj heq).symm

theorem paths_path {text : Bytes} (h : stops text = false) :
    paths text = (readPath text).bind fun r => (paths r.2).map (r.1 :: ·) := by
  cases text with
  | nil => simp [stops] at h
  | cons c rest =>
    have heq := readPaths_eq (Nat.lt_succ_self (c :: rest).length)
    have h' := h
    simp only [stops, Bool.or_eq_false_iff, decide_eq_false_iff_not] at h'
    obtain ⟨⟨hspace, hhash⟩, hcont⟩ := h'
    rw [List.length_cons, readPaths, if_neg (by simp [hspace]), if_neg hcont, if_neg hhash] at heq
    cases hpath : readPath (c :: rest) with
    | none =>
      simp only [hpath] at heq
      exact (Option.some.inj heq).symm
    | some r =>
      have hlength := (readPath_length hpath).2 h
      simp only [hpath, readPaths_eq (show r.2.length < rest.length + 1 by simpa using hlength)] at heq
      exact (Option.some.inj heq).symm

/-- The answer where `current` holds the bytes of a path that has begun. -/
def scan : Option Bytes → Bytes → Option (List Bytes)
  | none, text => paths text
  | some piece, text => (readPath text).bind fun r => (paths r.2).map ((piece ++ r.1) :: ·)

/-- Closes the path that has begun. -/
def emit (current : Option Bytes) (answer : Option (List Bytes)) : Option (List Bytes) :=
  answer.map (current.toList ++ ·)

def extend (current : Option Bytes) (c : UInt8) : Option Bytes := some (current.getD [] ++ [c])

theorem scan_of_stops {text : Bytes} (h : stops text = true) (current : Option Bytes) :
    scan current text = emit current (paths text) := by
  cases current with
  | none => simp [scan, emit]
  | some piece => simp [scan, emit, readPath_of_stops h]

@[simp] theorem scan_nil (current : Option Bytes) : scan current [] = some current.toList := by
  rw [scan_of_stops rfl, emit, paths_nil, Option.map_some, List.append_nil]

theorem scan_blank {c : UInt8} (hc : whitespace c = true) (current : Option Bytes) (rest : Bytes) :
    scan current (c :: rest) = emit current (scan none rest) := by
  rw [scan_of_stops (by simp [stops, hc]), paths_blank hc]
  rfl

theorem scan_continued {text : Bytes} (h : 0 < continuation text) (current : Option Bytes) :
    scan current text = emit current (scan none (text.drop (continuation text))) := by
  have hstop : stops text = true := by
    cases text with
    | nil => rfl
    | cons c rest => simp [stops, h]
  rw [scan_of_stops hstop, paths_continued h]
  rfl

theorem stops_escaped {d : UInt8} {rest : Bytes} (h : continuation (BACKSLASH :: d :: rest) = 0) :
    stops (BACKSLASH :: d :: rest) = false := by
  have hplain : (whitespace BACKSLASH || BACKSLASH = HASH) = false := by decide
  simp only [stops, hplain, h, Nat.lt_irrefl, decide_false, Bool.or_false]

theorem scan_escaped {d : UInt8} {rest : Bytes} (h : continuation (BACKSLASH :: d :: rest) = 0)
    (current : Option Bytes) : scan current (BACKSLASH :: d :: rest) = scan (extend current d) rest := by
  cases current with
  | none =>
    rw [scan, paths_path (stops_escaped h), readPath_escaped h]
    cases hpath : readPath rest <;> simp [scan, extend, hpath]
  | some piece =>
    rw [scan, readPath_escaped h]
    cases hpath : readPath rest <;> simp [scan, extend, hpath]

theorem scan_plain {c : UInt8} {rest : Bytes} (h : stops (c :: rest) = false) (hc : c ≠ BACKSLASH)
    (current : Option Bytes) : scan current (c :: rest) = scan (extend current c) rest := by
  cases current with
  | none =>
    rw [scan, paths_path h, readPath_plain h hc]
    cases hpath : readPath rest <;> simp [scan, extend, hpath]
  | some piece =>
    rw [scan, readPath_plain h hc]
    cases hpath : readPath rest <;> simp [scan, extend, hpath]

def doubled (name : Bytes) : Bytes := name.flatMap fun b => if b = DOLLAR then [DOLLAR, DOLLAR] else [b]

theorem doubled_cons (b : UInt8) (name : Bytes) : doubled (b :: name) = doubled [b] ++ doubled name := by
  simp [doubled]

theorem doubled_dollar : doubled [DOLLAR] = [DOLLAR, DOLLAR] := by decide

theorem doubled_other {b : UInt8} (hb : b ≠ DOLLAR) : doubled [b] = [b] := by simp [doubled, hb]

/-- A byte that the escapes leave to a path. -/
def Ordinary (b : UInt8) : Prop := b ≠ BACKSLASH ∧ (whitespace b = true → b = SPACE)

theorem stops_ordinary {b : UInt8} (h : Ordinary b) (hspace : b ≠ SPACE) (hhash : b ≠ HASH) (rest : Bytes) :
    stops (b :: rest) = false := by
  have hblank : whitespace b = false := by
    by_contra hblank
    exact hspace (h.2 (by simpa using hblank))
  simp [stops, hblank, hhash, continuation_eq_zero h.1]

theorem continuation_escaped {b : UInt8} (hnewline : b ≠ NEWLINE) (hreturn : b ≠ RETURN) (rest : Bytes) :
    continuation (BACKSLASH :: b :: rest) = 0 := by
  simp [continuation, hnewline, hreturn]

theorem scan_dollars (current : Option Bytes) (rest : Bytes) :
    scan current (DOLLAR :: DOLLAR :: rest) = scan (extend (extend current DOLLAR) DOLLAR) rest := by
  have hdollar : Ordinary DOLLAR := ⟨by decide, by decide⟩
  rw [scan_plain (stops_ordinary hdollar (by decide) (by decide) _) (by decide),
    scan_plain (stops_ordinary hdollar (by decide) (by decide) _) (by decide)]

theorem scan_escapeByte {b : UInt8} (hb : Ordinary b) (colon : Bool) (current : Option Bytes) (rest : Bytes) :
    scan current (escapeByte colon b ++ rest) = scan ((doubled [b]).foldl extend current) rest := by
  by_cases hescaped : b = SPACE ∨ b = HASH ∨ (colon = true ∧ b = COLON)
  · have hne : b ≠ NEWLINE ∧ b ≠ RETURN ∧ b ≠ DOLLAR := by
      rcases hescaped with rfl | rfl | ⟨-, rfl⟩ <;> decide
    simp only [escapeByte, hescaped, if_true, List.cons_append, List.nil_append, doubled, List.flatMap_cons,
      List.flatMap_nil, hne.2.2, if_false, List.foldl_cons, List.foldl_nil]
    exact scan_escaped (continuation_escaped hne.1 hne.2.1 rest) current
  · rw [escapeByte, if_neg hescaped]
    by_cases hdollar : b = DOLLAR
    · simp only [hdollar, if_true, List.cons_append, List.nil_append, doubled, List.flatMap_cons, List.flatMap_nil,
        List.foldl_cons, List.foldl_nil]
      exact scan_dollars current rest
    · simp only [hdollar, if_false, List.cons_append, List.nil_append, doubled, List.flatMap_cons, List.flatMap_nil,
        List.foldl_cons, List.foldl_nil]
      exact scan_plain (stops_ordinary hb (by tauto) (by tauto) rest) hb.1 current

theorem scan_escape {name : Bytes} (hname : ∀ b ∈ name, Ordinary b) (colon : Bool) (current : Option Bytes)
    (rest : Bytes) : scan current (escape colon name ++ rest) = scan ((doubled name).foldl extend current) rest := by
  induction name generalizing current with
  | nil => rfl
  | cons b name ih =>
    rw [escape, List.flatMap_cons, List.append_assoc, scan_escapeByte (hname b (by simp)), doubled_cons b name,
      List.foldl_append]
    exact ih (fun c hc => hname c (by simp [hc])) _

theorem foldl_extend (current : Option Bytes) {bytes : Bytes} (h : bytes ≠ []) :
    bytes.foldl extend current = some (current.getD [] ++ bytes) := by
  induction bytes using List.reverseRecOn with
  | nil => exact absurd rfl h
  | append_singleton bytes c ih =>
    rw [List.foldl_append]
    cases bytes with
    | nil => simp [extend]
    | cons b bytes => simp [ih, extend]

theorem getD_foldl_extend (current : Option Bytes) (bytes : Bytes) :
    (bytes.foldl extend current).getD [] = current.getD [] ++ bytes := by
  by_cases h : bytes = []
  · simp [h]
  · rw [foldl_extend current h, Option.getD_some]

theorem scan_gap (gap : Gap) (current : Option Bytes) (rest : Bytes) :
    scan current (gap.text ++ rest) = emit current (scan none rest) := by
  cases gap with
  | blank b space => exact scan_blank space current rest
  | continued carriageReturn =>
    cases carriageReturn with
    | false =>
      have hcont : continuation (BACKSLASH :: NEWLINE :: rest) = 2 := by simp [continuation]
      have h := scan_continued (show 0 < continuation (BACKSLASH :: NEWLINE :: rest) by omega) current
      rwa [hcont] at h
    | true =>
      have hcont : continuation (BACKSLASH :: RETURN :: NEWLINE :: rest) = 3 := by
        simp [continuation, RETURN, NEWLINE]
      have h := scan_continued (show 0 < continuation (BACKSLASH :: RETURN :: NEWLINE :: rest) by omega) current
      rwa [hcont] at h

theorem scan_gaps (gaps : List Gap) (rest : Bytes) : scan none (gaps.flatMap Gap.text ++ rest) = scan none rest := by
  induction gaps with
  | nil => rfl
  | cons gap gaps ih =>
    rw [List.flatMap_cons, List.append_assoc, scan_gap, ih]
    simp [emit]

theorem Dependency.ordinary (dependency : Dependency) : ∀ b ∈ dependency.path, Ordinary b := by
  intro b hb
  obtain ⟨hslash, hlow, -⟩ := dependency.printable b hb
  refine ⟨hslash, fun hspace => ?_⟩
  simp only [whitespace, Bool.or_eq_true, beq_iff_eq, Bool.and_eq_true, decide_eq_true_eq] at hspace
  rcases hspace with heq | ⟨-, hhigh⟩
  · exact heq
  · simp only [UInt8.le_iff_toNat_le] at hlow hhigh
    exact absurd (Nat.le_trans hlow hhigh) (by decide)

theorem doubled_ne_nil {name : Bytes} (h : name ≠ []) : doubled name ≠ [] := by
  cases name with
  | nil => exact absurd rfl h
  | cons b name =>
    by_cases hb : b = DOLLAR <;> simp [doubled, hb]

def Separated (dependencies : List Dependency) : Prop := ∀ dependency ∈ dependencies.dropLast, dependency.gaps ≠ []

theorem Separated.tail {dependency : Dependency} {rest : List Dependency} (h : Separated (dependency :: rest)) :
    Separated rest ∧ (dependency.gaps = [] → rest = []) := by
  cases rest with
  | nil => simp [Separated]
  | cons next rest =>
    refine ⟨fun d hd => h d ?_, fun hgaps => absurd hgaps (h dependency (by simp))⟩
    rw [List.dropLast_cons_of_ne_nil (by simp)]
    exact List.mem_cons_of_mem _ hd

/-- The dependencies as the loop reads them, after a path that has ended. -/
theorem scan_rest {gaps : List Gap} {dependencies : List Dependency} (hgaps : gaps = [] → dependencies = [])
    (hseparated : Separated dependencies) (current : Option Bytes) :
    scan current (gaps.flatMap Gap.text ++ dependencies.flatMap Dependency.text) =
      some (current.toList ++ dependencies.map fun d => doubled d.path) := by
  induction dependencies generalizing gaps current with
  | nil =>
    cases gaps with
    | nil => simp
    | cons gap gaps =>
      rw [List.flatMap_cons, List.append_assoc, scan_gap, scan_gaps]
      simp [emit]
  | cons dependency rest ih =>
    obtain ⟨hrest, hlast⟩ := hseparated.tail
    cases gaps with
    | nil => exact absurd (hgaps rfl) (by simp)
    | cons gap gaps =>
      rw [List.flatMap_cons, List.append_assoc, scan_gap, scan_gaps, List.flatMap_cons, Dependency.text,
        List.append_assoc, scan_escape dependency.ordinary, foldl_extend none (doubled_ne_nil dependency.nonempty),
        ih hlast hrest]
      simp [emit]

@[simp] theorem afterTarget_colon (rest : Bytes) : afterTarget (COLON :: rest) = some rest := by
  rw [afterTarget.eq_def]
  simp

@[simp] theorem afterTarget_escaped (c : UInt8) (rest : Bytes) :
    afterTarget (BACKSLASH :: c :: rest) = afterTarget rest := by
  rw [afterTarget.eq_def]
  simp [BACKSLASH, COLON]

theorem afterTarget_plain {c : UInt8} (hcolon : c ≠ COLON) (hslash : c ≠ BACKSLASH) (rest : Bytes) :
    afterTarget (c :: rest) = afterTarget rest := by
  rw [afterTarget.eq_def]
  simp [hcolon, hslash]

theorem afterTarget_escapeByte {b : UInt8} (colon : Bool) (hslash : b ≠ BACKSLASH) (hcolon : colon = false → b ≠ COLON)
    (rest : Bytes) : afterTarget (escapeByte colon b ++ rest) = afterTarget rest := by
  by_cases hescaped : b = SPACE ∨ b = HASH ∨ (colon = true ∧ b = COLON)
  · simp [escapeByte, hescaped]
  · have hne : b ≠ COLON := by
      cases colon with
      | false => exact hcolon rfl
      | true => exact fun hb => hescaped (.inr (.inr ⟨rfl, hb⟩))
    rw [escapeByte, if_neg hescaped]
    by_cases hdollar : b = DOLLAR
    · subst hdollar
      simp [afterTarget_plain hne hslash]
    · simp [hdollar, afterTarget_plain hne hslash]

/-- A backslash of the target takes the byte after it; what that leaves is as if the byte had stood alone, but for a
colon. -/
theorem afterTarget_taken {d : UInt8} (hcolon : d ≠ COLON) (rest : Bytes) :
    afterTarget (BACKSLASH :: (escapeByte true d ++ rest)) = afterTarget rest := by
  by_cases hescaped : d = SPACE ∨ d = HASH ∨ (true = true ∧ d = COLON)
  · have hslash : d ≠ BACKSLASH := by rcases hescaped with rfl | rfl | ⟨-, rfl⟩ <;> decide
    rw [escapeByte, if_pos hescaped]
    exact (afterTarget_escaped BACKSLASH _).trans (afterTarget_plain hcolon hslash rest)
  · rw [escapeByte, if_neg hescaped]
    by_cases hdollar : d = DOLLAR
    · simp [hdollar, afterTarget_plain (c := DOLLAR) (by decide) (by decide)]
    · simp [hdollar]

theorem escape_cons (colon : Bool) (b : UInt8) (name : Bytes) :
    escape colon (b :: name) = escapeByte colon b ++ escape colon name := rfl

theorem escapeByte_backslash : escapeByte true BACKSLASH = [BACKSLASH] := by decide

/-- The target ends at its colon, or it is not clear: then a colon within it ends it, or its own colon does not. -/
theorem afterTarget_target (target rest : Bytes) :
    Clear target ∧ afterTarget (escape true target ++ COLON :: rest) = some rest ∨
      ¬Clear target ∧ (afterTarget (escape true target ++ COLON :: rest) = afterTarget rest ∨
        ∃ later, afterTarget (escape true target ++ COLON :: rest) = some (escape true later ++ COLON :: rest)) := by
  induction hn : target.length using Nat.strongRecOn generalizing target with
  | ind n ih =>
    subst hn
    cases target with
    | nil => exact .inl ⟨trivial, by simp [escape]⟩
    | cons b target =>
      rw [escape_cons]
      by_cases hb : b = BACKSLASH
      · subst hb
        rw [escapeByte_backslash]
        cases target with
        | nil => exact .inr ⟨by simp [Clear], .inl (by simp [escape])⟩
        | cons d target =>
          by_cases hd : d = COLON
          · subst hd
            refine .inr ⟨by simp [Clear], .inr ⟨target, ?_⟩⟩
            exact (afterTarget_escaped BACKSLASH _).trans (afterTarget_colon _)
          · have hclear : Clear (BACKSLASH :: d :: target) ↔ Clear target := by simp [Clear, hd]
            rw [hclear, escape_cons, List.singleton_append, List.cons_append, List.append_assoc, afterTarget_taken hd]
            exact ih _ (by simp only [List.length_cons]; omega) target rfl
      · have hclear : Clear (b :: target) ↔ Clear target := by rw [Clear.eq_def]; simp [hb]
        rw [hclear, List.append_assoc, afterTarget_escapeByte true hb (by simp)]
        exact ih _ (by simp) target rfl

theorem afterTarget_gaps (gaps : List Gap) (rest : Bytes) :
    afterTarget (gaps.flatMap Gap.text ++ rest) = afterTarget rest := by
  induction gaps with
  | nil => rfl
  | cons gap gaps ih =>
    rw [List.flatMap_cons, List.append_assoc, ← ih]
    generalize gaps.flatMap Gap.text ++ rest = text
    cases gap with
    | blank b space =>
      have hne : b ≠ COLON ∧ b ≠ BACKSLASH := by
        constructor <;> (rintro rfl; exact absurd space (by decide))
      exact afterTarget_plain hne.1 hne.2 _
    | continued carriageReturn =>
      cases carriageReturn with
      | false => exact afterTarget_escaped NEWLINE _
      | true =>
        exact (afterTarget_escaped RETURN _).trans (afterTarget_plain (c := NEWLINE) (by decide) (by decide) _)

/-- A path is passed over, or its first colon ends the target. -/
theorem afterTarget_path {path : Bytes} (hpath : BACKSLASH ∉ path) (rest : Bytes) :
    afterTarget (escape false path ++ rest) = afterTarget rest ∨
      ∃ before after, path = before ++ COLON :: after ∧
        afterTarget (escape false path ++ rest) = some (escape false after ++ rest) := by
  induction path with
  | nil => exact .inl rfl
  | cons b path ih =>
    rw [escape_cons, List.append_assoc]
    have hslash : b ≠ BACKSLASH := fun hb => hpath (by simp [hb])
    by_cases hcolon : b = COLON
    · subst hcolon
      exact .inr ⟨[], path, rfl, afterTarget_colon _⟩
    · rw [afterTarget_escapeByte false hslash fun _ => hcolon]
      rcases ih (by simp_all) with hpass | ⟨before, after, rfl, hend⟩
      · exact .inl hpass
      · exact .inr ⟨b :: before, after, rfl, hend⟩

def colons (names : List Bytes) : ℕ := names.flatten.count COLON

def held (current : Option Bytes) : ℕ := (current.getD []).count COLON

@[simp] theorem colons_toList_append (current : Option Bytes) (names : List Bytes) :
    colons (current.toList ++ names) = held current + colons names := by
  cases current <;> simp [colons, held]

theorem held_foldl_extend (current : Option Bytes) (bytes : Bytes) :
    held (bytes.foldl extend current) = held current + bytes.count COLON := by
  rw [held, getD_foldl_extend, List.count_append, held]

theorem held_extend_le (current : Option Bytes) (c : UInt8) : held current ≤ held (extend current c) := by
  simp [held, extend]

theorem count_doubled (name : Bytes) : (doubled name).count COLON = name.count COLON := by
  induction name with
  | nil => rfl
  | cons b name ih =>
    rw [doubled_cons, List.count_append, ih, show b :: name = [b] ++ name from rfl, List.count_append]
    congr 1
    by_cases hb : b = DOLLAR
    · subst hb
      decide
    · rw [doubled_other hb]

theorem colons_doubled (names : List Bytes) : colons (names.map doubled) = colons names := by
  induction names with
  | nil => rfl
  | cons name names ih =>
    simp only [colons, List.map_cons, List.flatten_cons, List.count_append, count_doubled] at ih ⊢
    rw [ih]

theorem scan_dependencies (lead : List Gap) {dependencies : List Dependency} (h : Separated dependencies)
    (current : Option Bytes) :
    ∃ names, scan current (lead.flatMap Gap.text ++ dependencies.flatMap Dependency.text) = some names ∧
      colons names = held current + colons (dependencies.map fun d => doubled d.path) := by
  by_cases hlead : lead = [] → dependencies = []
  · exact ⟨_, scan_rest hlead h current, colons_toList_append _ _⟩
  · push Not at hlead
    obtain ⟨rfl, hne⟩ := hlead
    obtain ⟨dependency, rest, rfl⟩ := List.exists_cons_of_ne_nil hne
    obtain ⟨hrest, hlast⟩ := h.tail
    have hscan := scan_rest hlast hrest ((doubled dependency.path).foldl extend current)
    rw [← scan_escape dependency.ordinary false] at hscan
    refine ⟨_, by simpa [Dependency.text] using hscan, ?_⟩
    rw [colons_toList_append, held_foldl_extend, List.map_cons, colons, colons, List.flatten_cons,
      List.count_append, Nat.add_assoc]

theorem paths_dependencies (lead : List Gap) {dependencies : List Dependency} (h : Separated dependencies) :
    paths (lead.flatMap Gap.text ++ dependencies.flatMap Dependency.text) =
      some (dependencies.map fun d => doubled d.path) := by
  refine (scan_gaps lead _).trans ?_
  cases dependencies with
  | nil => simp
  | cons dependency rest =>
    obtain ⟨hrest, hlast⟩ := h.tail
    rw [List.flatMap_cons, Dependency.text, List.append_assoc, scan_escape dependency.ordinary,
      foldl_extend none (doubled_ne_nil dependency.nonempty), scan_rest hlast hrest]
    simp

/-- A path that holds a backslash stays one. -/
theorem scan_backslash {current : Option Bytes} {text : Bytes} {names : List Bytes}
    (h : BACKSLASH ∈ current.getD []) (hscan : scan current text = some names) : ∃ name ∈ names, BACKSLASH ∈ name := by
  cases current with
  | none => simp at h
  | some piece =>
    obtain ⟨r, -, hr⟩ := Option.bind_eq_some_iff.mp hscan
    obtain ⟨rest, -, rfl⟩ := Option.map_eq_some_iff.mp hr
    exact ⟨piece ++ r.1, by simp, by simpa using .inl h⟩

theorem escape_newline {target rest rest' : Bytes}
    (h : escape true target ++ COLON :: rest = NEWLINE :: rest') :
    ∃ later, target = NEWLINE :: later ∧ rest' = escape true later ++ COLON :: rest := by
  cases target with
  | nil => exact absurd (List.cons.inj h).1 (by decide)
  | cons b target =>
    rw [escape_cons, List.append_assoc] at h
    by_cases hescaped : b = SPACE ∨ b = HASH ∨ (true = true ∧ b = COLON)
    · rw [escapeByte, if_pos hescaped] at h
      exact absurd (List.cons.inj h).1 (by decide)
    · rw [escapeByte, if_neg hescaped] at h
      by_cases hdollar : b = DOLLAR
      · rw [if_pos hdollar] at h
        exact absurd (List.cons.inj h).1 (by decide)
      · rw [if_neg hdollar] at h
        obtain ⟨rfl, rfl⟩ := List.cons.inj h
        exact ⟨target, rfl, rfl⟩

/-- What is read from a colon within the target on: a path with a backslash, or more colons than the dependencies
hold. -/
theorem scan_target {rest : Bytes} {total : ℕ}
    (hrest : ∀ current, ∃ names, scan current rest = some names ∧ colons names = held current + total)
    {target : Bytes} {current : Option Bytes} {names : List Bytes}
    (h : scan current (escape true target ++ COLON :: rest) = some names) :
    (∃ name ∈ names, BACKSLASH ∈ name) ∨ held current + total < colons names := by
  induction hn : target.length using Nat.strongRecOn generalizing target current names with
  | ind n ih =>
    subst hn
    have hnext : ∀ target' current', target'.length < target.length → held current ≤ held current' →
        scan current' (escape true target' ++ COLON :: rest) = some names →
        (∃ name ∈ names, BACKSLASH ∈ name) ∨ held current + total < colons names := by
      intro target' current' hlength hheld hscan
      rcases ih _ hlength hscan rfl with hslash | hmore
      · exact .inl hslash
      · exact .inr (by omega)
    have hclosed : ∀ target', target'.length < target.length →
        emit current (scan none (escape true target' ++ COLON :: rest)) = some names →
        (∃ name ∈ names, BACKSLASH ∈ name) ∨ held current + total < colons names := by
      intro target' hlength hscan
      obtain ⟨names', hnames, rfl⟩ := Option.map_eq_some_iff.mp hscan
      rcases ih _ hlength hnames rfl with ⟨name, hname, hslash⟩ | hmore
      · exact .inl ⟨name, by simp [hname], hslash⟩
      · rw [colons_toList_append]
        simp only [held, Option.getD_none, List.count_nil] at hmore
        exact .inr (by omega)
    have hend : scan (extend current COLON) rest = some names →
        (∃ name ∈ names, BACKSLASH ∈ name) ∨ held current + total < colons names := by
      intro hscan
      obtain ⟨names', hnames, hcolons⟩ := hrest (extend current COLON)
      obtain rfl : names' = names := Option.some.inj (hnames.symm.trans hscan)
      have hone : held (extend current COLON) = held current + 1 := by simp [held, extend]
      exact .inr (by omega)
    cases target with
    | nil =>
      have hcolon : stops (COLON :: rest) = false := stops_ordinary ⟨by decide, by decide⟩ (by decide) (by decide) rest
      exact hend ((scan_plain hcolon (by decide) current).symm.trans h)
    | cons b target =>
      rw [escape_cons, List.append_assoc] at h
      by_cases hb : b = BACKSLASH
      · subst hb
        rw [escapeByte_backslash, List.singleton_append] at h
        cases target with
        | nil => exact hend ((scan_escaped (continuation_escaped (by decide) (by decide) rest) current).symm.trans h)
        | cons d target =>
          rw [escape_cons, List.append_assoc] at h
          by_cases hescaped : d = SPACE ∨ d = HASH ∨ (true = true ∧ d = COLON)
          · rw [escapeByte, if_pos hescaped, List.cons_append,
              scan_escaped (continuation_escaped (by decide) (by decide) _)] at h
            exact .inl (scan_backslash (by simp [extend]) h)
          rw [escapeByte, if_neg hescaped] at h
          by_cases hdollar : d = DOLLAR
          · rw [if_pos hdollar, List.cons_append, scan_escaped (continuation_escaped (by decide) (by decide) _),
              List.singleton_append, scan_plain (stops_ordinary ⟨by decide, by decide⟩ (by decide) (by decide) _)
                (by decide)] at h
            exact hnext target _ (by simp only [List.length_cons]; omega)
              (Nat.le_trans (held_extend_le _ _) (held_extend_le _ _)) h
          rw [if_neg hdollar, List.singleton_append] at h
          rcases continuation_cases (BACKSLASH :: d :: (escape true target ++ COLON :: rest)) with
            hzero | ⟨rest', heq, htwo⟩ | ⟨rest', heq, hthree⟩
          · rw [scan_escaped hzero] at h
            exact hnext target _ (by simp only [List.length_cons]; omega) (held_extend_le _ _) h
          · rw [scan_continued (by omega), htwo] at h
            exact hclosed target (by simp only [List.length_cons]; omega) h
          · simp only [List.cons.injEq, true_and] at heq
            obtain ⟨rfl, heq⟩ := heq
            obtain ⟨later, rfl, rfl⟩ := escape_newline heq
            rw [scan_continued (by omega), hthree] at h
            exact hclosed later (by simp only [List.length_cons]; omega) h
      · by_cases hblank : whitespace b = true ∧ b ≠ SPACE
        · have hplain : escapeByte true b = [b] := by
            have hne : ¬(b = SPACE ∨ b = HASH ∨ true = true ∧ b = COLON) ∧ b ≠ DOLLAR := by
              constructor
              · rintro (rfl | rfl | ⟨-, rfl⟩) <;> revert hblank <;> decide
              · rintro rfl
                revert hblank
                decide
            rw [escapeByte, if_neg hne.1, if_neg hne.2]
          rw [hplain, List.singleton_append, scan_blank hblank.1] at h
          exact hclosed target (by simp) h
        · have hordinary : Ordinary b := ⟨hb, fun hspace => by tauto⟩
          rw [scan_escapeByte hordinary] at h
          exact hnext target _ (by simp) (by rw [held_foldl_extend]; omega) h

/-- What is read from a colon within a path on holds fewer colons than the dependencies. -/
theorem paths_afterTarget {dependencies : List Dependency} (hseparated : Separated dependencies) {text : Bytes}
    (h : afterTarget (dependencies.flatMap Dependency.text) = some text) :
    ∃ names, paths text = some names ∧ colons names < colons (dependencies.map fun d => doubled d.path) := by
  induction dependencies with
  | nil => simp [afterTarget] at h
  | cons dependency rest ih =>
    obtain ⟨hrest, hlast⟩ := hseparated.tail
    rw [List.flatMap_cons, Dependency.text, List.append_assoc] at h
    have htotal : colons ((dependency :: rest).map fun d => doubled d.path) =
        dependency.path.count COLON + colons (rest.map fun d => doubled d.path) := by
      simp [colons, count_doubled]
    have hslash : BACKSLASH ∉ dependency.path := fun hmem => (dependency.printable _ hmem).1 rfl
    rcases afterTarget_path hslash (dependency.gaps.flatMap Gap.text ++ rest.flatMap Dependency.text) with
      hpass | ⟨before, after, hpath, hend⟩
    · rw [hpass, afterTarget_gaps] at h
      obtain ⟨names, hnames, hless⟩ := ih hrest h
      exact ⟨names, hnames, by omega⟩
    · obtain rfl := Option.some.inj (hend.symm.trans h)
      have hafter : ∀ b ∈ after, Ordinary b := fun b hb => dependency.ordinary b (by simp [hpath, hb])
      refine ⟨_, (scan_escape hafter false none _).trans (scan_rest hlast hrest _), ?_⟩
      rw [colons_toList_append, held_foldl_extend, count_doubled, htotal, hpath, List.count_append, List.count_cons_self]
      simp only [held, Option.getD_none, List.count_nil]
      omega

theorem doubled_eq_iff (name : Bytes) : doubled name = name ↔ DOLLAR ∉ name := by
  constructor
  · intro h hmem
    have hlength : ∀ name : Bytes, (doubled name).length = name.length + name.count DOLLAR := by
      intro name
      induction name with
      | nil => rfl
      | cons b name ih =>
        rw [doubled_cons, List.length_append, ih]
        by_cases hb : b = DOLLAR
        · subst hb
          rw [doubled_dollar, List.count_cons_self, List.length_cons, List.length_cons, List.length_cons]
          simp only [List.length_nil]
          omega
        · rw [doubled_other hb, List.count_cons_of_ne hb, List.length_cons, List.length_cons]
          simp only [List.length_nil]
          omega
    have hpos := List.count_pos_iff.mpr hmem
    have heq := congrArg List.length h
    rw [hlength] at heq
    omega
  · intro h
    induction name with
    | nil => rfl
    | cons b name ih =>
      have hb : b ≠ DOLLAR := fun hb => h (by simp [hb])
      rw [doubled_cons, ih fun hmem => h (by simp [hmem]), doubled_other hb, List.singleton_append]

theorem Rule.paths_doubled (rule : Rule) :
    (rule.dependencies.map fun d => doubled d.path) = rule.paths.map doubled := by
  simp [Rule.paths]

theorem depfile_eq {fuel : ℕ} {text : Bytes} (h : text.length < fuel) :
    depfile fuel text = some ((afterTarget text).bind paths) := by
  have hlength : ∀ {text rest : Bytes}, afterTarget text = some rest → rest.length ≤ text.length := by
    intro text
    fun_induction afterTarget text with
    | case1 => simp
    | case2 rest => simp +contextual
    | case3 => simp
    | case4 _ d rest ih => exact fun h => Nat.le_trans (ih h) (by simp only [List.length_cons]; omega)
    | case5 c rest hcolon hslash ih => exact fun h => Nat.le_trans (ih h) (by simp)
  cases hafter : afterTarget text with
  | none => simp [depfile, hafter]
  | some rest =>
    have := hlength hafter
    simp only [depfile, hafter, Option.bind_some]
    exact readPaths_eq (by omega)

/-- The reading ends on every text. On a rule as a compiler writes it the answer is the rule's paths where none holds a
dollar sign and the target is clear, and only there. -/
theorem depfile_exact (text : Bytes) (rule : Rule) :
    (∃ answer, ∀ fuel, text.length < fuel → depfile fuel text = some answer) ∧
      ∀ fuel, rule.text.length < fuel →
        (depfile fuel rule.text = some (some rule.paths) ↔ Clear rule.target ∧ ∀ path ∈ rule.paths, DOLLAR ∉ path) := by
  refine ⟨⟨_, fun fuel h => depfile_eq h⟩, fun fuel h => ?_⟩
  rw [depfile_eq h, Option.some_inj]
  have hscan := scan_dependencies rule.lead rule.separated
  rw [rule.paths_doubled, colons_doubled] at hscan
  rcases afterTarget_target rule.target (rule.lead.flatMap Gap.text ++ rule.dependencies.flatMap Dependency.text) with
    ⟨hclear, hafter⟩ | ⟨hclear, hafter | ⟨later, hafter⟩⟩
  · -- What follows the target's own colon is read, with every dollar sign doubled.
    have hsame : rule.paths.map doubled = rule.paths ↔ ∀ path ∈ rule.paths, doubled path = path := by
      simpa using List.map_inj_left (l := rule.paths) (f := doubled) (g := id)
    rw [Rule.text, hafter, Option.bind_some, paths_dependencies rule.lead rule.separated, rule.paths_doubled,
      Option.some_inj, hsame]
    simp only [hclear, true_and, doubled_eq_iff]
  · rw [afterTarget_gaps] at hafter
    refine iff_of_false (fun heq => ?_) fun hgood => hclear hgood.1
    rw [Rule.text, hafter] at heq
    obtain ⟨text, htext, hnames⟩ := Option.bind_eq_some_iff.mp heq
    obtain ⟨names, hread, hless⟩ := paths_afterTarget rule.separated htext
    obtain rfl := Option.some.inj (hread.symm.trans hnames)
    rw [rule.paths_doubled, colons_doubled] at hless
    omega
  · refine iff_of_false (fun heq => ?_) fun hgood => hclear hgood.1
    rw [Rule.text, hafter, Option.bind_some] at heq
    rcases @scan_target _ _ hscan _ none _ heq with ⟨path, hpath, hslash⟩ | hmore
    · obtain ⟨dependency, -, rfl⟩ := List.mem_map.mp hpath
      exact (dependency.printable _ hslash).1 rfl
    · omega

/-- `a\:b: x\ y.h \` and a line break with a carriage return. -/
def escapedRule : Rule where
  target := [97, 58, 98]
  lead := [.blank 32 (by decide)]
  dependencies := [⟨[120, 32, 121], [.blank 32 (by decide), .continued true], by decide, by decide +kernel⟩]
  separated := by simp

theorem depfile_exact_escaped : depfile 40 escapedRule.text = some (some [[120, 32, 121]]) :=
  ((depfile_exact [] escapedRule).2 40 (by decide)).mpr
    ⟨by simp [escapedRule, Clear, BACKSLASH], by decide⟩

/-- `t: a$$b` -/
def dollarRule : Rule where
  target := [116]
  lead := [.blank 32 (by decide)]
  dependencies := [⟨[97, 36, 98], [.blank 10 (by decide)], by decide, by decide +kernel⟩]
  separated := by simp

theorem dollar_doubled :
    depfile 20 dollarRule.text = some (some [[97, 36, 36, 98]]) ∧ dollarRule.paths = [[97, 36, 98]] := by
  decide

end Nupp.shellsyntax
