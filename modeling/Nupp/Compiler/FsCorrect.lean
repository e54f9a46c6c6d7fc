import Nupp.Compiler.Fs

/-! Which paths the compiler brings to a normal form, and how joined paths are read. -/

namespace Nupp.fs

variable {path : Bytes}

/-! ### The normal form -/

theorem squeezed_sublist (t : Bytes) : (squeezed t).Sublist t :=
  squeezed_rec (P := fun l u => u.Sublist l) .slnil (fun _ _ h => h.cons SLASH) (fun a _ _ h => h.cons_cons a) t

theorem dropLeading_sublist (t : Bytes) : (dropLeading t).Sublist t := by
  match t with
  | [] | [_] => exact List.Sublist.refl _
  | a :: b :: l =>
    rw [dropLeading]
    split_ifs
    · exact ((List.Sublist.refl l).cons b).cons a
    · exact List.Sublist.refl _

theorem dropInner_sublist (t : Bytes) : (dropInner t).Sublist t := by
  induction t using dropInner.induct with
  | case1 a b c rest hdots ih =>
    obtain ⟨rfl, rfl, rfl⟩ := hdots
    rw [dropInner, if_pos ⟨rfl, rfl, rfl⟩]
    exact ((ih.cons SLASH).cons DOT).cons_cons SLASH
  | case2 a b c rest hnot ih =>
    rw [dropInner, if_neg hnot]
    exact ih.cons_cons a
  | case3 t ht =>
    rw [dropInner]
    exact ht

theorem dropTrailing_sublist (t : Bytes) : (dropTrailing t).Sublist t := by
  rw [dropTrailing]
  split_ifs
  · exact List.Sublist.refl t
  · exact List.dropLast_sublist t
  · exact List.Sublist.refl t

theorem backslash_not_mem_normalize (path : Bytes) : BACKSLASH ∉ normalize path := by
  intro hmem
  refine backslash_not_mem_turned path ?_
  exact (squeezed_sublist _).subset ((dropLeading_sublist _).subset ((dropInner_sublist _).subset
    ((dropTrailing_sublist _).subset hmem)))

/-- No backslash, no empty part between two others, and no `.` but the path `.` itself. -/
structure NormalForm (path : Bytes) : Prop where
  backslash : BACKSLASH ∉ path
  tight : Tight (split path)
  dots : path = [DOT] ∨ [DOT] ∉ split path

/-- No `.` after a `.`, and none at the end. -/
def Plain (path : Bytes) : Prop := Spaced (partsOf path) ∧ (partsOf path).getLast? ≠ some [DOT]

instance : Decidable (Plain path) :=
  inferInstanceAs (Decidable (Spaced (partsOf path) ∧ (partsOf path).getLast? ≠ some [DOT]))

/-- A path of one, two or three `.` that comes to the path `.`. -/
def DotsOnly (parts : List Bytes) : Prop :=
  parts = [[DOT]] ∨ parts = [[DOT], [DOT]] ∨ parts = [[DOT], [DOT], []] ∨ parts = [[DOT], [DOT], [DOT], []]

/-- Plain, or nothing but dots that come to one. -/
def Steady (path : Bytes) : Prop := Plain path ∨ DotsOnly (partsOf path)

theorem dropLast_append_nil_tight {parts : List Bytes} (h : Tight (parts ++ [[]])) (hne : parts ≠ []) :
    parts.getLast? ≠ some [] ∨ parts = [[]] := by
  by_contra hnot
  rw [not_or, not_not] at hnot
  obtain ⟨hlast, hone⟩ := hnot
  obtain ⟨front, rfl⟩ : ∃ front, parts = front ++ [[]] :=
    ⟨parts.dropLast, (List.dropLast_append_getLast? [] hlast).symm⟩
  cases front with
  | nil => exact hone rfl
  | cons r front =>
    refine h [] ?_ rfl
    simp

theorem tight_normalize (path : Bytes) : Tight (split (normalize path)) := by
  have htight := tight_skipDots (tight_parts path)
  rcases split_normalize path with ⟨hsplit, -⟩ | ⟨hsplit, -⟩
  · rwa [hsplit]
  · rw [← hsplit] at htight
    intro r hr
    refine htight r ?_
    obtain ⟨s, more, hs⟩ := exists_split (normalize path)
    rw [hs] at hr ⊢
    rw [List.cons_append, List.tail_cons, List.dropLast_concat]
    exact List.mem_of_mem_dropLast hr

theorem getLast_split {q : Bytes} (h : q.getLast? = some SLASH) : ∃ l, q = l ++ [SLASH] ∧ split q = split l ++ [[]] := by
  refine ⟨q.dropLast, (List.dropLast_append_getLast? SLASH h).symm, ?_⟩
  conv_lhs => rw [← List.dropLast_append_getLast? SLASH h]
  exact split_append_slash _

/-- A normalized path ends with a slash only where it is a root. -/
theorem end_normalize (path : Bytes) :
    isRoot (normalize path) = true ∨ (normalize path).getLast? ≠ some SLASH := by
  rcases split_normalize path with ⟨-, hend⟩ | ⟨hsplit, hroot⟩
  · exact hend
  · refine .inr fun hlast => ?_
    have htight := tight_skipDots (tight_parts path)
    obtain ⟨l, hl, hsplit'⟩ := getLast_split hlast
    rw [← hsplit, hsplit'] at htight
    obtain ⟨s, more, hs⟩ := exists_split l
    refine htight [] ?_ rfl
    rw [hs]
    simp

theorem normalize_eq_dot (path : Bytes) : normalize path = [DOT] ↔ DotsOnly (partsOf path) := by
  have hkept : normalize path = [DOT] ↔
      skipDots (partsOf path) = [[DOT]] ∨ skipDots (partsOf path) = [[DOT], []] := by
    constructor
    · intro heq
      rcases split_normalize path with ⟨hsplit, -⟩ | ⟨hsplit, -⟩
      · exact .inl (by rw [← hsplit, heq]; rfl)
      · exact .inr (by rw [← hsplit, heq]; rfl)
    · intro hkept
      have hdot (h : split (normalize path) = [[DOT]]) : normalize path = [DOT] := by
        rw [← write_split (normalize path), h]
        rfl
      rcases split_normalize path with ⟨hsplit, hend⟩ | ⟨hsplit, -⟩
      · rw [← hsplit] at hkept
        rcases hkept with h | h
        · exact hdot h
        · have heq : normalize path = [DOT, SLASH] := by
            rw [← write_split (normalize path), h]
            rfl
          rw [heq] at hend
          exact absurd hend (by decide)
      · rw [← hsplit] at hkept
        rcases hkept with h | h
        · have hnil : split (normalize path) = [] := by
            have hlength := congrArg List.length h
            simp at hlength
          exact absurd hnil (List.splitOn_ne_nil SLASH _)
        · exact hdot (List.append_inj_left' h rfl)
  rw [hkept, DotsOnly]
  generalize partsOf path = parts
  match parts with
  | [] => simp [skipDots]
  | [r] => simp [skipDots]
  | [r, s] =>
    by_cases hr : r = [DOT] <;> simp [skipDots, hr]
  | [r, s, u] =>
    by_cases hr : r = [DOT] <;> by_cases hs : s = [DOT] <;> simp [skipDots, hr, hs]
  | [r, s, u, v] =>
    by_cases hr : r = [DOT] <;> by_cases hs : s = [DOT] <;> by_cases hu : u = [DOT] <;>
      simp [skipDots, hr, hs, hu]
  | r :: s :: u :: v :: w :: rest =>
    have hlength := length_le_skipDots (r :: s :: u :: v :: w :: rest)
    simp only [List.length_cons] at hlength
    refine iff_of_false ?_ (by simp)
    rintro (h | h)
    all_goals
      rw [h] at hlength
      simp only [List.length_cons, List.length_nil] at hlength
      omega

theorem dot_mem_normalize (path : Bytes) : [DOT] ∈ split (normalize path) ↔ [DOT] ∈ skipDots (partsOf path) := by
  rcases split_normalize path with ⟨hsplit, -⟩ | ⟨hsplit, -⟩
  · rw [hsplit]
  · rw [← hsplit]
    simp

/-- No `.` but at the end. -/
def Kept (path : Bytes) : Prop := [DOT] ∉ (split path).dropLast

theorem normalize_fixed (path : Bytes) (h : Kept (normalize path)) : normalize (normalize path) = normalize path := by
  have htight := tight_normalize path
  have hend := end_normalize path
  have hback := backslash_not_mem_normalize path
  generalize normalize path = q at h htight hend hback
  rw [normalize, turned_eq hback, squeezed_eq htight, dropDots_eq, skipDots_eq h, write_split]
  rcases dropTrailing_cases q with ⟨heq, -⟩ | ⟨hroot, heq⟩
  · exact heq
  · rcases hend with hend | hend
    · rw [hroot] at hend
      cases hend
    · rw [heq] at hend
      exact absurd List.getLast?_concat hend

theorem NormalForm.kept {q : Bytes} (h : NormalForm q) : Kept q := by
  rcases h.dots with rfl | hdots
  · exact List.not_mem_nil
  · exact fun hmem => hdots (List.mem_of_mem_dropLast hmem)

theorem normalForm_iff (path : Bytes) : NormalForm (normalize path) ↔ Steady path := by
  have hdots : (normalize path = [DOT] ∨ [DOT] ∉ split (normalize path)) ↔ Steady path := by
    rw [normalize_eq_dot, dot_mem_normalize, dot_not_mem_skipDots, Steady, Plain, or_comm]
  rw [← hdots]
  exact ⟨NormalForm.dots, fun h => ⟨backslash_not_mem_normalize path, tight_normalize path, h⟩⟩

theorem normalize_steady (path : Bytes) :
    (normalize (normalize path) = normalize path ∧ NormalForm (normalize path)) ↔ Steady path := by
  rw [← normalForm_iff]
  exact and_iff_right_of_imp fun h => normalize_fixed path h.kept

/-! ### Names -/

/-- The names along a path, under either separator, `.` not among them. -/
def names (path : Bytes) : List Bytes := (Segments.segments isSeparator path).filter (· ≠ [DOT])

def rooted (path : Bytes) : Bool := path.head?.any isSeparator

theorem splitOnP_turned (path : Bytes) : split (turned path) = path.splitOnP isSeparator := by
  induction path with
  | nil => rfl
  | cons b path ih =>
    have hcons : turned (b :: path) = (if b = BACKSLASH then SLASH else b) :: turned path := rfl
    rw [hcons, List.splitOnP_cons_eq_if_modifyHead, ← ih]
    obtain ⟨s, more, hs⟩ := exists_split (turned path)
    by_cases hsep : isSeparator b = true
    · have hslash : (if b = BACKSLASH then SLASH else b) = SLASH := by
        rw [isSeparator, Bool.or_eq_true, decide_eq_true_eq, decide_eq_true_eq] at hsep
        split_ifs with hback
        · rfl
        · exact hsep.resolve_right hback
      rw [if_pos hsep, hslash, split_slash]
    · rw [isSeparator, Bool.or_eq_true, decide_eq_true_eq, decide_eq_true_eq, not_or] at hsep
      rw [if_neg hsep.2, split_cons hsep.1 hs, if_neg (by simpa [isSeparator] using hsep), hs]
      rfl

/-- Squeezing leaves the first part and the nonempty parts after it. -/
theorem split_squeezed (t : Bytes) : ∃ s more more', split t = s :: more ∧ split (squeezed t) = s :: more' ∧
    more'.filter (!·.isEmpty) = more.filter (!·.isEmpty) := by
  refine squeezed_rec (P := fun l u => ∃ s more more', split l = s :: more ∧ split u = s :: more' ∧
    more'.filter (!·.isEmpty) = more.filter (!·.isEmpty)) ⟨[], [], [], rfl, rfl, rfl⟩ ?_ ?_ t
  · rintro l u ⟨s, more, more', hl, hu, hfilter⟩
    rw [split_slash] at hl
    obtain ⟨rfl, rfl⟩ := List.cons.inj hl
    exact ⟨[], [] :: split l, more', by rw [split_slash, split_slash], hu, hfilter⟩
  · rintro a l - ⟨s, more, more', hl, hu, hfilter⟩
    by_cases ha : a = SLASH
    · subst ha
      refine ⟨[], s :: more, s :: more', by rw [split_slash, hl], by rw [split_slash, hu], ?_⟩
      rw [List.filter_cons, List.filter_cons, hfilter]
    · exact ⟨a :: s, more, more', split_cons ha hl, split_cons ha hu, hfilter⟩

theorem names_eq_parts (path : Bytes) :
    names path = (partsOf path).filter fun r => (!r.isEmpty) && r ≠ [DOT] := by
  obtain ⟨s, more, more', hs, hs', hfilter⟩ := split_squeezed (turned path)
  rw [names, Segments.segments, ← splitOnP_turned, List.filter_filter, partsOf, hs, hs']
  have hboth (l : List Bytes) : (l.filter fun r => (!r.isEmpty) && r ≠ [DOT]) =
      (l.filter (!·.isEmpty)).filter (· ≠ [DOT]) := by
    rw [List.filter_filter]
    congr 1
    funext r
    exact Bool.and_comm _ _
  have hswap : (fun r : Bytes => decide (r ≠ [DOT]) && !r.isEmpty) = fun r => (!r.isEmpty) && r ≠ [DOT] := by
    funext r
    exact Bool.and_comm _ _
  rw [hswap, List.filter_cons, List.filter_cons, hboth more, hboth more', hfilter]

theorem partsOf_fixed {q : Bytes} (hback : BACKSLASH ∉ q) (htight : Tight (split q)) : partsOf q = split q := by
  rw [partsOf, turned_eq hback, squeezed_eq htight]

theorem names_normalize (path : Bytes) : names (normalize path) = names path := by
  have hskip : (skipDots (partsOf path)).filter (fun r => (!r.isEmpty) && r ≠ [DOT]) =
      (partsOf path).filter fun r => (!r.isEmpty) && r ≠ [DOT] := by
    rw [← List.filter_filter, filter_skipDots, List.filter_filter]
  rw [names_eq_parts, names_eq_parts, partsOf_fixed (backslash_not_mem_normalize path) (tight_normalize path), ← hskip]
  rcases split_normalize path with ⟨hsplit, -⟩ | ⟨hsplit, -⟩
  · rw [hsplit]
  · rw [← hsplit, List.filter_append]
    simp

theorem rooted_iff (path : Bytes) : rooted path = true ↔ (turned path).head? = some SLASH := by
  cases path with
  | nil => simp [rooted, turned]
  | cons b path =>
    rw [rooted, turned, List.map_cons, List.head?_cons, List.head?_cons, Option.any_some, Option.some.injEq, isSeparator,
      Bool.or_eq_true, decide_eq_true_eq, decide_eq_true_eq]
    split_ifs with hback
    · simp [hback]
    · simp [hback]

theorem head_squeezed_eq (t : Bytes) : (squeezed t).head? = t.head? := by
  cases t with
  | nil => rfl
  | cons b l =>
    obtain ⟨u, hu⟩ := head_squeezed b l
    rw [hu]
    rfl

theorem head_dropInner (t : Bytes) : (dropInner t).head? = t.head? := by
  match t with
  | [] | [_] | [_, _] => rfl
  | a :: b :: c :: l =>
    rw [dropInner]
    split_ifs with h
    · rw [h.1]
      rfl
    · rfl

theorem head_dropLeading {t : Bytes} (h : Tight (split t)) :
    (dropLeading t).head? = some SLASH ↔ t.head? = some SLASH := by
  by_cases hdot : ∃ rest, t = DOT :: SLASH :: rest
  · obtain ⟨rest, rfl⟩ := hdot
    have hnot : rest.head? ≠ some SLASH := by
      intro hhead
      obtain ⟨l, rfl⟩ : ∃ l, rest = SLASH :: l := by
        cases rest with
        | nil => cases hhead
        | cons a l => exact ⟨l, by rw [Option.some.inj hhead]⟩
      obtain ⟨s, more, hs⟩ := exists_split l
      rw [split_cons (by decide) (split_slash _), split_slash, hs] at h
      exact h [] (by simp) rfl
    rw [dropLeading, if_pos ⟨rfl, rfl⟩]
    exact iff_of_false hnot (by rw [List.head?_cons]; decide)
  · rw [dropLeading_eq (not_exists.mp hdot)]

theorem head_dropTrailing (q : Bytes) : (dropTrailing q).head? = q.head? := by
  rcases dropTrailing_cases q with ⟨heq, -⟩ | ⟨hroot, heq⟩
  · rw [heq]
  · cases hq : dropTrailing q with
    | nil =>
      rw [hq] at heq
      rw [heq] at hroot
      cases hroot
    | cons b l =>
      rw [hq] at heq
      rw [heq]
      rfl

theorem rooted_normalize (path : Bytes) : rooted (normalize path) = rooted path := by
  rw [Bool.eq_iff_iff, rooted_iff, rooted_iff, turned_eq (backslash_not_mem_normalize path), normalize, head_dropTrailing,
    head_dropInner, head_dropLeading (tight_squeezed _), head_squeezed_eq]

end Nupp.fs
