import Mathlib.Data.List.Basic
import Mathlib.Algebra.Order.Group.Nat
import Mathlib.Tactic.SplitIfs
import Nupp.Lib.Segments

/-! Lexical paths of the compiler (`normalize`, `join`, `dirname` and `basename` of `nupp/compiler/fs.nupp`). -/

namespace Nupp.fs

abbrev Bytes := List UInt8

def SLASH : UInt8 := 47
def BACKSLASH : UInt8 := 92
def DOT : UInt8 := 46
def COLON : UInt8 := 58

def isLetter (b : UInt8) : Bool := (65 ≤ b.toNat && b.toNat ≤ 90) || (97 ≤ b.toNat && b.toNat ≤ 122)

/-- `gsub("\\", "/")`. -/
def turned (path : Bytes) : Bytes := path.map fun b => if b = BACKSLASH then SLASH else b

/-- `gsub("/+", "/")`. -/
def squeezed : Bytes → Bytes
  | a :: b :: rest => if a = SLASH ∧ b = SLASH then squeezed (b :: rest) else a :: squeezed (b :: rest)
  | path => path

/-- `gsub("^%./", "")`. -/
def dropLeading : Bytes → Bytes
  | a :: b :: rest => if a = DOT ∧ b = SLASH then rest else a :: b :: rest
  | path => path

/-- `gsub("/%./", "/")`; the matches do not overlap. -/
def dropInner : Bytes → Bytes
  | a :: b :: c :: rest =>
    if a = SLASH ∧ b = DOT ∧ c = SLASH then SLASH :: dropInner rest else a :: dropInner (b :: c :: rest)
  | path => path

/-- `^[A-Za-z]:/`. -/
def startsDrive : Bytes → Bool
  | a :: b :: c :: _ => isLetter a && b = COLON && c = SLASH
  | _ => false

def isRoot (path : Bytes) : Bool := path = [SLASH] || (startsDrive path && path.length = 3)

def dropTrailing (path : Bytes) : Bytes :=
  if isRoot path then path
  else if path.getLast? = some SLASH then path.dropLast
  else path

def normalize (path : Bytes) : Bytes := dropTrailing (dropInner (dropLeading (squeezed (turned path))))

def isAbsolute (path : Bytes) : Bool := path.head? = some SLASH || startsDrive path

def join (left : Option Bytes) (right : Bytes) : Bytes :=
  let right := normalize right
  match left with
  | none => right
  | some left =>
    if left = [] ∨ left = [DOT] then right
    else if right = [] then normalize left
    else if isAbsolute right then right
    else normalize (left ++ SLASH :: right)

/-- The last component, empty after a slash. -/
def lastPart (path : Bytes) : Bytes := (path.reverse.takeWhile (· ≠ SLASH)).reverse

def basename (path : Bytes) : Bytes :=
  let last := lastPart (normalize path)
  if last ≠ [] then last else path

def dirname (path : Bytes) : Bytes :=
  let normalized := normalize path
  if isRoot normalized then normalized
  else
    let last := lastPart normalized
    -- `^(.*)/[^/]+$` matches where a slash stands before a last component
    if last ≠ [] ∧ last.length < normalized.length then
      let parent := normalized.take (normalized.length - last.length - 1)
      if parent = [] then [SLASH]
      else if startsDrive (parent ++ [SLASH]) && parent.length = 2 then parent ++ [SLASH]
      else parent
    else [DOT]

end Nupp.fs

/-! Normalization on the parts between slashes: a `.` that another part follows is left out, and that part is kept. -/

namespace Nupp.fs

variable {l t path : Bytes} {r : Bytes} {rs parts : List Bytes}

abbrev split (path : Bytes) : List Bytes := path.splitOn SLASH

abbrev write (parts : List Bytes) : Bytes := [SLASH].intercalate parts

theorem write_split (path : Bytes) : write (split path) = path := List.intercalate_splitOn SLASH

theorem split_slash (l : Bytes) : split (SLASH :: l) = [] :: split l := by
  rw [split, List.splitOn_cons_eq_if_modifyHead, if_pos (by simp)]

theorem split_cons {a : UInt8} (h : a ≠ SLASH) (hsplit : split l = r :: rs) : split (a :: l) = (a :: r) :: rs := by
  rw [split] at hsplit
  rw [split, List.splitOn_cons_eq_if_modifyHead, if_neg (by simpa using h), hsplit]
  rfl

theorem exists_split (l : Bytes) : ∃ r rs, split l = r :: rs :=
  List.exists_cons_of_ne_nil (List.splitOn_ne_nil SLASH l)

theorem write_cons_cons (r s : Bytes) (rs : List Bytes) : write (r :: s :: rs) = r ++ SLASH :: write (s :: rs) := by
  rw [write, List.intercalate_cons_cons, List.append_assoc]
  rfl

theorem split_append_slash (l : Bytes) : split (l ++ [SLASH]) = split l ++ [[]] := List.splitOn_append_cons_self l []

/-- A `.` that a part follows is left out. -/
def skipDots : List Bytes → List Bytes
  | r :: s :: rest => if r = [DOT] then s :: skipDots rest else r :: skipDots (s :: rest)
  | parts => parts

theorem skipDots_cons (h : r = [DOT] → rs = []) : skipDots (r :: rs) = r :: skipDots rs := by
  cases rs with
  | nil => rfl
  | cons s rs =>
    rw [skipDots, if_neg]
    intro hdot
    cases h hdot

/-! ### The substitutions -/

theorem dropInner_cons {a : UInt8} (h : a ≠ SLASH) (l : Bytes) : dropInner (a :: l) = a :: dropInner l := by
  match l with
  | [] => rfl
  | [_] => rfl
  | b :: c :: l => rw [dropInner, if_neg fun hm => h hm.1]

theorem dropInner_slash (h : ∀ rest, l ≠ DOT :: SLASH :: rest) : dropInner (SLASH :: l) = SLASH :: dropInner l := by
  match l with
  | [] => rfl
  | [_] => rfl
  | b :: c :: l =>
    rw [dropInner, if_neg]
    rintro ⟨-, rfl, rfl⟩
    exact h l rfl

theorem split_dot (h : split t = [DOT] :: rs) (hrs : rs ≠ []) : ∃ rest, t = DOT :: SLASH :: rest ∧ split rest = rs := by
  obtain ⟨s, rs, rfl⟩ := List.exists_cons_of_ne_nil hrs
  have ht := write_split t
  rw [h, write_cons_cons] at ht
  refine ⟨write (s :: rs), ht.symm, ?_⟩
  have hsplit : split (DOT :: SLASH :: write (s :: rs)) = [DOT] :: split (write (s :: rs)) :=
    split_cons (by decide) (split_slash _)
  have hwhole : t = DOT :: SLASH :: write (s :: rs) := ht.symm
  rw [hwhole, hsplit] at h
  exact (List.cons.inj h).2

theorem dropInner_eq (h : split t = r :: rs) : dropInner t = write (r :: skipDots rs) := by
  induction hn : t.length using Nat.strong_induction_on generalizing t r rs with
  | _ n ih =>
    subst hn
    cases t with
    | nil =>
      obtain ⟨rfl, rfl⟩ := List.cons.inj h
      rfl
    | cons a l =>
      obtain ⟨s, more, hl⟩ := exists_split l
      by_cases ha : a = SLASH
      · subst ha
        rw [split_slash, hl] at h
        obtain ⟨rfl, rfl⟩ := List.cons.inj h
        by_cases hdot : s = [DOT] ∧ more ≠ []
        · obtain ⟨rfl, hmore⟩ := hdot
          obtain ⟨rest, rfl, hrest⟩ := split_dot hl hmore
          obtain ⟨y, more, rfl⟩ := List.exists_cons_of_ne_nil hmore
          rw [dropInner, if_pos ⟨rfl, rfl, rfl⟩, ih rest.length (by simp only [List.length_cons]; omega) hrest rfl, skipDots, if_pos rfl, write_cons_cons]
          rfl
        · have hnot : ∀ rest, l ≠ DOT :: SLASH :: rest := by
            rintro rest rfl
            rw [split_cons (by decide) (split_slash rest)] at hl
            obtain ⟨rfl, rfl⟩ := List.cons.inj hl
            exact hdot ⟨rfl, List.splitOn_ne_nil SLASH rest⟩
          rw [dropInner_slash hnot, ih l.length (Nat.lt_succ_self _) hl rfl,
            skipDots_cons (fun hs => by_contra fun hmore => hdot ⟨hs, hmore⟩), write_cons_cons]
          rfl
      · rw [split_cons ha hl] at h
        obtain ⟨rfl, rfl⟩ := List.cons.inj h
        rw [dropInner_cons ha, ih l.length (Nat.lt_succ_self _) hl rfl]
        cases skipDots more with
        | nil => rfl
        | cons y ys =>
          rw [write_cons_cons, write_cons_cons]
          rfl

theorem dropLeading_eq (h : ∀ rest, t ≠ DOT :: SLASH :: rest) : dropLeading t = t := by
  match t with
  | [] => rfl
  | [_] => rfl
  | a :: b :: l =>
    rw [dropLeading, if_neg]
    rintro ⟨rfl, rfl⟩
    exact h l rfl

/-- Both substitutions of a `.` together. -/
theorem dropDots_eq (t : Bytes) : dropInner (dropLeading t) = write (skipDots (split t)) := by
  by_cases hdot : ∃ rest, t = DOT :: SLASH :: rest
  · obtain ⟨rest, rfl⟩ := hdot
    obtain ⟨s, more, hrest⟩ := exists_split rest
    rw [split_cons (by decide) (split_slash rest), hrest, skipDots, if_pos rfl, dropLeading, if_pos ⟨rfl, rfl⟩,
      dropInner_eq hrest]
  · rw [not_exists] at hdot
    obtain ⟨s, more, ht⟩ := exists_split t
    rw [dropLeading_eq hdot, dropInner_eq ht, ht, skipDots_cons]
    rintro rfl
    by_contra hmore
    obtain ⟨rest, hrest, -⟩ := split_dot ht hmore
    exact hdot rest hrest

/-! ### Separators -/

def isSeparator (b : UInt8) : Bool := b = SLASH || b = BACKSLASH

theorem backslash_not_mem_turned (path : Bytes) : BACKSLASH ∉ turned path := by
  intro hmem
  obtain ⟨b, -, hb⟩ := List.mem_map.mp hmem
  split_ifs at hb with h
  · cases hb
  · exact h hb

theorem turned_eq (h : BACKSLASH ∉ path) : turned path = path := by
  rw [turned]
  conv_rhs => rw [← List.map_id path]
  refine List.map_congr_left fun b hb => ?_
  rw [if_neg]
  · rfl
  · rintro rfl
    exact h hb

/-- No empty part stands between two others. -/
def Tight (parts : List Bytes) : Prop := ∀ r ∈ parts.tail.dropLast, r ≠ []

theorem head_squeezed (b : UInt8) (l : Bytes) : ∃ u, squeezed (b :: l) = b :: u := by
  induction l generalizing b with
  | nil => exact ⟨[], rfl⟩
  | cons c l ih =>
    rw [squeezed]
    split_ifs with h
    · obtain ⟨rfl, rfl⟩ := h
      exact ih SLASH
    · exact ⟨_, rfl⟩

theorem squeezed_cons {a : UInt8} (h : ∀ u, a = SLASH → l ≠ SLASH :: u) : squeezed (a :: l) = a :: squeezed l := by
  cases l with
  | nil => rfl
  | cons b l =>
    rw [squeezed, if_neg]
    rintro ⟨ha, rfl⟩
    exact h l ha rfl

theorem squeezed_slashes (l : Bytes) : squeezed (SLASH :: SLASH :: l) = squeezed (SLASH :: l) := by
  rw [squeezed, if_pos ⟨rfl, rfl⟩]

/-- A slash on a slash is left out, and any other byte is kept. -/
theorem squeezed_rec {P : Bytes → Bytes → Prop} (nil : P [] [])
    (double : ∀ l u, P (SLASH :: l) u → P (SLASH :: SLASH :: l) u)
    (cons : ∀ a l, (∀ u, a = SLASH → l ≠ SLASH :: u) → P l (squeezed l) → P (a :: l) (a :: squeezed l)) (t : Bytes) :
    P t (squeezed t) := by
  induction t with
  | nil => exact nil
  | cons a l ih =>
    by_cases hdouble : ∃ u, a = SLASH ∧ l = SLASH :: u
    · obtain ⟨u, rfl, rfl⟩ := hdouble
      rw [squeezed_slashes]
      exact double u _ ih
    · have hnot : ∀ u, a = SLASH → l ≠ SLASH :: u := fun u ha hl => hdouble ⟨u, ha, hl⟩
      rw [squeezed_cons hnot]
      exact cons a l hnot ih

theorem tight_squeezed (t : Bytes) : Tight (split (squeezed t)) := by
  refine squeezed_rec (P := fun _ u => Tight (split u)) (by simp [Tight]) (fun _ _ h => h) ?_ t
  intro a l hnot h
  obtain ⟨s, more, hs⟩ := exists_split (squeezed l)
  by_cases ha : a = SLASH
  · subst ha
    rw [split_slash, hs]
    cases l with
    | nil =>
      have hnil : [[]] = s :: more := hs
      obtain ⟨rfl, rfl⟩ := List.cons.inj hnil
      simp [Tight]
    | cons b l =>
      have hb : b ≠ SLASH := fun hb => hnot l rfl (by rw [hb])
      obtain ⟨u, hu⟩ := head_squeezed b l
      obtain ⟨s', more', hs'⟩ := exists_split u
      rw [hu, split_cons hb hs'] at hs
      obtain ⟨rfl, rfl⟩ := List.cons.inj hs
      rw [hu, split_cons hb hs'] at h
      intro r hr
      cases more' with
      | nil => simp at hr
      | cons m more' =>
        rw [List.tail_cons, List.dropLast_cons_cons] at hr
        rcases List.mem_cons.mp hr with rfl | hr
        · exact List.cons_ne_nil _ _
        · exact h r hr
  · rw [split_cons ha hs]
    rw [hs] at h
    exact h

theorem squeezed_eq (h : Tight (split t)) : squeezed t = t := by
  induction t with
  | nil => rfl
  | cons a l ih =>
    obtain ⟨s, more, hs⟩ := exists_split l
    have hnot : ∀ u, a = SLASH → l ≠ SLASH :: u := by
      rintro u rfl rfl
      obtain ⟨s', more', hs'⟩ := exists_split u
      rw [split_slash, split_slash, hs'] at h
      exact h [] (by simp) rfl
    rw [squeezed_cons hnot, ih]
    by_cases ha : a = SLASH
    · subst ha
      rw [split_slash, hs] at h
      rw [hs]
      intro r hr
      refine h r ?_
      cases more with
      | nil => simp at hr
      | cons m more =>
        rw [List.tail_cons, List.dropLast_cons_cons]
        exact List.mem_cons_of_mem s hr
    · rw [split_cons ha hs] at h
      rw [hs]
      exact h

/-! ### What is left out -/

/-- No `.` right after a `.`. -/
def Spaced (parts : List Bytes) : Prop := parts.IsChain fun r s => r = [DOT] → s ≠ [DOT]

instance : Decidable (Spaced parts) := inferInstanceAs (Decidable (parts.IsChain fun r s => r = [DOT] → s ≠ [DOT]))

theorem skipDots_subset (parts : List Bytes) : skipDots parts ⊆ parts := by
  induction parts using skipDots.induct with
  | case1 s rest ih =>
    rw [skipDots, if_pos rfl]
    intro r hr
    rcases List.mem_cons.mp hr with rfl | hr
    · simp
    · exact List.mem_cons_of_mem _ (List.mem_cons_of_mem _ (ih hr))
  | case2 r s rest hr ih =>
    rw [skipDots, if_neg hr]
    exact List.cons_subset_cons r ih
  | case3 parts hparts =>
    rw [skipDots]
    · exact List.Subset.refl parts
    · exact hparts

theorem skipDots_ne_nil (h : parts ≠ []) : skipDots parts ≠ [] := by
  match parts with
  | [r] => exact h
  | r :: s :: rest =>
    rw [skipDots]
    split_ifs <;> exact List.cons_ne_nil _ _

theorem length_le_skipDots (parts : List Bytes) : parts.length ≤ 2 * (skipDots parts).length := by
  induction parts using skipDots.induct with
  | case1 s rest ih =>
    rw [skipDots, if_pos rfl, List.length_cons, List.length_cons, List.length_cons]
    omega
  | case2 r s rest hr ih =>
    rw [skipDots, if_neg hr]
    simp only [List.length_cons] at ih ⊢
    omega
  | case3 parts hparts =>
    rw [skipDots]
    · omega
    · exact hparts

theorem dot_not_mem_skipDots (parts : List Bytes) : [DOT] ∉ skipDots parts ↔
    Spaced parts ∧ parts.getLast? ≠ some [DOT] := by
  induction parts using skipDots.induct with
  | case1 s rest ih =>
    rw [skipDots, if_pos rfl, List.mem_cons, not_or, ih, Spaced, Spaced, List.isChain_cons_cons]
    have hlast : ([DOT] :: s :: rest).getLast? = (s :: rest).getLast? := List.getLast?_cons_cons
    rw [hlast]
    cases rest with
    | nil => simp [eq_comm]
    | cons u rest =>
      rw [List.isChain_cons_cons, List.getLast?_cons_cons]
      constructor
      · rintro ⟨hs, hchain, hlast⟩
        exact ⟨⟨fun _ heq => hs heq.symm, fun heq => absurd heq.symm hs, hchain⟩, hlast⟩
      · rintro ⟨⟨hs, -, hchain⟩, hlast⟩
        exact ⟨fun heq => hs rfl heq.symm, hchain, hlast⟩
  | case2 r s rest hr ih =>
    rw [skipDots, if_neg hr, List.mem_cons, not_or, ih, Spaced, Spaced, List.isChain_cons_cons, List.getLast?_cons_cons]
    constructor
    · rintro ⟨-, hchain, hlast⟩
      exact ⟨⟨fun heq => absurd heq hr, hchain⟩, hlast⟩
    · rintro ⟨⟨-, hchain⟩, hlast⟩
      exact ⟨fun heq => hr heq.symm, hchain, hlast⟩
  | case3 parts hparts =>
    match parts with
    | [] => simp [skipDots, Spaced]
    | [r] => simp [skipDots, Spaced, eq_comm]
    | r :: s :: rest => exact absurd rfl (hparts r s rest)

theorem filter_skipDots (parts : List Bytes) :
    (skipDots parts).filter (· ≠ [DOT]) = parts.filter (· ≠ [DOT]) := by
  induction parts using skipDots.induct with
  | case1 s rest ih =>
    rw [skipDots, if_pos rfl, List.filter_cons, ih]
    simp [List.filter_cons]
  | case2 r s rest hr ih =>
    rw [skipDots, if_neg hr, List.filter_cons, ih]
    conv_rhs => rw [List.filter_cons]
  | case3 parts hparts => rw [skipDots]; exact hparts

theorem skipDots_eq (h : [DOT] ∉ parts.dropLast) : skipDots parts = parts := by
  induction parts with
  | nil => rfl
  | cons r parts ih =>
    cases parts with
    | nil => rfl
    | cons s parts =>
      rw [List.dropLast_cons_cons, List.mem_cons, not_or] at h
      rw [skipDots_cons fun hr => absurd hr.symm h.1, ih h.2]

theorem dropLast_skipDots (h : ∀ r ∈ parts.dropLast, r ≠ []) : ∀ r ∈ (skipDots parts).dropLast, r ≠ [] := by
  induction parts using skipDots.induct with
  | case1 s rest ih =>
    rw [skipDots, if_pos rfl]
    cases rest with
    | nil => simp [skipDots]
    | cons u rest =>
      obtain ⟨v, more, hv⟩ := List.exists_cons_of_ne_nil (skipDots_ne_nil (List.cons_ne_nil u rest))
      have hrest : ∀ r ∈ (u :: rest).dropLast, r ≠ [] := fun r hr => h r (by
        rw [List.dropLast_cons_cons, List.dropLast_cons_cons]
        exact List.mem_cons_of_mem _ (List.mem_cons_of_mem _ hr))
      have hs : s ≠ [] := h s (by
        rw [List.dropLast_cons_cons, List.dropLast_cons_cons]
        exact List.mem_cons_of_mem _ List.mem_cons_self)
      have hmore := ih hrest
      rw [hv] at hmore ⊢
      rw [List.dropLast_cons_cons]
      intro r hr
      rcases List.mem_cons.mp hr with rfl | hr
      · exact hs
      · exact hmore r hr
  | case2 r s rest hr ih =>
    rw [skipDots, if_neg hr]
    obtain ⟨v, more, hv⟩ := List.exists_cons_of_ne_nil (skipDots_ne_nil (List.cons_ne_nil s rest))
    rw [List.dropLast_cons_cons] at h
    have hmore := ih fun x hx => h x (List.mem_cons_of_mem r hx)
    rw [hv] at hmore ⊢
    rw [List.dropLast_cons_cons]
    intro x hx
    rcases List.mem_cons.mp hx with rfl | hx
    · exact h x List.mem_cons_self
    · exact hmore x hx
  | case3 parts hparts =>
    rw [skipDots]
    · exact h
    · exact hparts

theorem tight_skipDots (h : Tight parts) : Tight (skipDots parts) := by
  match parts with
  | [] | [_] => exact h
  | r :: s :: rest =>
    rw [Tight, List.tail_cons] at h
    rw [skipDots]
    split_ifs
    · refine dropLast_skipDots fun x hx => h x ?_
      cases rest with
      | nil => simp at hx
      | cons u rest =>
        rw [List.dropLast_cons_cons]
        exact List.mem_cons_of_mem s hx
    · exact dropLast_skipDots h

/-! ### The parts of a normalized path -/

/-- What a path is read as: its parts, where separators in a row count as one. -/
def partsOf (path : Bytes) : List Bytes := split (squeezed (turned path))

theorem tight_parts (path : Bytes) : Tight (partsOf path) := tight_squeezed _

theorem slash_not_mem {r : Bytes} (h : r ∈ split t) : SLASH ∉ r := by
  rw [split, List.splitOn_eq_splitOnP] at h
  intro hmem
  simpa using Segments.not_sep_of_mem_parts h SLASH hmem

theorem split_write (hne : parts ≠ []) (h : ∀ r ∈ parts, SLASH ∉ r) : split (write parts) = parts :=
  List.splitOn_intercalate SLASH h hne

theorem split_dropDots (t : Bytes) : split (dropInner (dropLeading t)) = skipDots (split t) := by
  rw [dropDots_eq]
  exact split_write (skipDots_ne_nil (List.splitOn_ne_nil SLASH t)) fun r hr => slash_not_mem (skipDots_subset _ hr)

theorem dropTrailing_cases (q : Bytes) :
    (dropTrailing q = q ∧ (isRoot q = true ∨ q.getLast? ≠ some SLASH)) ∨
      (isRoot q = false ∧ q = dropTrailing q ++ [SLASH]) := by
  rw [dropTrailing]
  by_cases hroot : isRoot q = true
  · rw [if_pos hroot]
    exact .inl ⟨rfl, .inl hroot⟩
  rw [if_neg hroot]
  by_cases hlast : q.getLast? = some SLASH
  · rw [if_pos hlast]
    exact .inr ⟨by simpa using hroot, (List.dropLast_append_getLast? SLASH hlast).symm⟩
  · rw [if_neg hlast]
    exact .inl ⟨rfl, .inr hlast⟩

/-- A normalized path has the parts that are kept, less an empty one at the end. -/
theorem split_normalize (path : Bytes) :
    (split (normalize path) = skipDots (partsOf path) ∧
        (isRoot (normalize path) = true ∨ (normalize path).getLast? ≠ some SLASH)) ∨
      (split (normalize path) ++ [[]] = skipDots (partsOf path) ∧ isRoot (normalize path ++ [SLASH]) = false) := by
  have hsplit := split_dropDots (squeezed (turned path))
  rw [normalize]
  rcases dropTrailing_cases (dropInner (dropLeading (squeezed (turned path)))) with ⟨heq, hend⟩ | ⟨hroot, heq⟩
  · rw [heq]
    exact .inl ⟨hsplit, hend⟩
  · rw [heq, split_append_slash] at hsplit
    refine .inr ⟨hsplit, ?_⟩
    rw [← heq]
    exact hroot

end Nupp.fs
