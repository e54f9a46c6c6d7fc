import Mathlib.Data.List.Chain
import Nupp.Compiler.FsCorrect

/-! Joined paths: what a join comes to, and where joining twice does not depend on the order. -/

namespace Nupp.fs

variable {path left right q y : Bytes} {parts : List Bytes}

/-! ### A separator between two paths -/

theorem head_cases (l : Bytes) : (∃ u, l = SLASH :: u) ∨ l.head? ≠ some SLASH := by
  cases l with
  | nil => exact .inr (by simp)
  | cons a l =>
    by_cases ha : a = SLASH
    · exact .inl ⟨l, by rw [ha]⟩
    · exact .inr fun h => ha (Option.some.inj h)

/-- A slash at the end of the first path is the slash between the two. -/
theorem squeezed_append (x : Bytes) (hq : squeezed q = q) (hhead : q.head? ≠ some SLASH) :
    ∃ y, squeezed (x ++ SLASH :: q) = y ++ SLASH :: q ∧ (squeezed x = y ∨ squeezed x = y ++ [SLASH]) := by
  have hslash : squeezed (SLASH :: q) = SLASH :: q := by
    rw [squeezed_cons, hq]
    rintro u - rfl
    exact hhead rfl
  refine squeezed_rec (P := fun x u => ∃ y, squeezed (x ++ SLASH :: q) = y ++ SLASH :: q ∧ (u = y ∨ u = y ++ [SLASH]))
    ⟨[], hslash, .inl rfl⟩ ?_ ?_ x
  · rintro l u ⟨y, hy, hu⟩
    refine ⟨y, ?_, hu⟩
    rw [List.cons_append, List.cons_append, squeezed_slashes]
    exact hy
  · rintro a l hnot ⟨y, hy, hu⟩
    by_cases hend : a = SLASH ∧ l = []
    · obtain ⟨rfl, rfl⟩ := hend
      refine ⟨[], ?_, .inr rfl⟩
      rw [List.cons_append, List.nil_append, squeezed_slashes, hslash]
    · refine ⟨a :: y, ?_, ?_⟩
      · rw [List.cons_append, squeezed_cons, hy]
        · rfl
        · intro u ha hl
          cases l with
          | nil => exact hend ⟨ha, rfl⟩
          | cons b l =>
            obtain ⟨rfl, -⟩ := List.cons.inj hl
            exact hnot l ha rfl
      · rcases hu with hu | hu
        · exact .inl (by rw [hu])
        · exact .inr (by rw [hu]; rfl)

theorem skipDots_append {parts kept : List Bytes} (hspaced : Spaced parts) (hne : kept ≠ [])
    (hkept : [DOT] ∉ kept.dropLast) : skipDots (parts ++ kept) = parts.filter (· ≠ [DOT]) ++ kept := by
  induction parts using skipDots.induct with
  | case1 s rest ih =>
    rw [Spaced, List.isChain_cons_cons] at hspaced
    have hrest : Spaced rest := List.IsChain.of_cons hspaced.2
    rw [List.cons_append, List.cons_append, skipDots, if_pos rfl, ih hrest, List.filter_cons, if_neg (by simp),
      List.filter_cons, if_pos (by simpa using hspaced.1 rfl)]
    rfl
  | case2 r s rest hr ih =>
    rw [Spaced, List.isChain_cons_cons] at hspaced
    have hfilter : (r :: s :: rest).filter (· ≠ [DOT]) = r :: (s :: rest).filter (· ≠ [DOT]) := by
      rw [List.filter_cons, if_pos (by simpa using hr)]
    rw [List.cons_append, List.cons_append, skipDots, if_neg hr, ← List.cons_append, ih hspaced.2, hfilter,
      List.cons_append]
  | case3 parts hparts =>
    rcases parts with _ | ⟨r, _ | ⟨s, rest⟩⟩
    · exact skipDots_eq hkept
    · obtain ⟨s, kept, rfl⟩ := List.exists_cons_of_ne_nil hne
      by_cases hr : r = [DOT]
      · subst hr
        have hrest : skipDots kept = kept := by
          cases kept with
          | nil => rfl
          | cons u kept =>
            refine skipDots_eq fun hmem => hkept ?_
            rw [List.dropLast_cons_cons]
            exact List.mem_cons_of_mem s hmem
        rw [List.singleton_append, skipDots, if_pos rfl, hrest]
        rfl
      · rw [List.singleton_append, skipDots, if_neg hr, skipDots_eq hkept, List.filter_cons, if_pos (by simpa using hr)]
        rfl
    · exact absurd rfl (hparts r s rest)

/-! ### What stands in front of a joined path -/

/-- The root, where there is one, and the names. -/
def front (path : Bytes) : List Bytes := (if rooted path then [[]] else []) ++ names path

theorem squeezed_eq_nil {t : Bytes} (h : squeezed t = []) : t = [] := by
  cases t with
  | nil => rfl
  | cons a l =>
    obtain ⟨u, hu⟩ := head_squeezed a l
    rw [hu] at h
    cases h

theorem rooted_iff_parts {r : Bytes} {rs : List Bytes} (hne : path ≠ []) (h : partsOf path = r :: rs) :
    rooted path = true ↔ r = [] := by
  rw [rooted_iff, ← head_squeezed_eq]
  rw [partsOf] at h
  cases ht : squeezed (turned path) with
  | nil => exact absurd (List.map_eq_nil_iff.mp (squeezed_eq_nil ht)) hne
  | cons a l =>
    rw [ht] at h
    rw [List.head?_cons, Option.some.injEq]
    constructor
    · rintro rfl
      rw [split_slash] at h
      exact (List.cons.inj h).1.symm
    · rintro rfl
      by_contra ha
      obtain ⟨s, more, hs⟩ := exists_split l
      rw [split_cons ha hs] at h
      cases (List.cons.inj h).1

theorem front_of_parts {r : Bytes} {rs : List Bytes} (hne : path ≠ [])
    (hparts : partsOf path = r :: rs ∨ partsOf path = r :: rs ++ [[]]) (hrs : ∀ s ∈ rs, s ≠ []) :
    front path = (r :: rs).filter (· ≠ [DOT]) := by
  have hfirst : ∃ more, partsOf path = r :: more := by
    rcases hparts with h | h
    · exact ⟨rs, h⟩
    · exact ⟨rs ++ [[]], h.trans (List.cons_append ..)⟩
  obtain ⟨more, hmore⟩ := hfirst
  have hnames : names path = (r :: rs).filter fun s => (!s.isEmpty) && s ≠ [DOT] := by
    rw [names_eq_parts]
    rcases hparts with h | h
    · rw [h]
    · rw [h, List.filter_append]
      simp
  have hrest : (rs.filter fun s => (!s.isEmpty) && s ≠ [DOT]) = rs.filter (· ≠ [DOT]) := by
    refine List.filter_congr fun s hs => ?_
    have hne := hrs s hs
    simp [hne]
  rw [front, hnames, List.filter_cons, List.filter_cons, hrest]
  by_cases hr : r = []
  · rw [if_pos ((rooted_iff_parts hne hmore).mpr hr), hr]
    simp [DOT]
  · rw [if_neg (fun h => hr ((rooted_iff_parts hne hmore).mp h))]
    simp [hr]

theorem dot_not_mem_front (path : Bytes) : [DOT] ∉ front path := by
  rw [front, List.mem_append, not_or]
  constructor
  · split_ifs <;> simp [DOT]
  · intro hmem
    simpa using (List.mem_filter.mp hmem).2

theorem front_normalize (path : Bytes) : front (normalize path) = front path := by
  rw [front, front, rooted_normalize, names_normalize]

theorem slash_not_mem_front {r : Bytes} (h : r ∈ front path) : SLASH ∉ r := by
  rw [front, List.mem_append] at h
  rcases h with h | h
  · split_ifs at h
    · rw [List.mem_singleton.mp h]
      exact List.not_mem_nil
    · cases h
  · rw [names_eq_parts] at h
    exact slash_not_mem (List.mem_filter.mp h).1

/-! ### A join -/

theorem partsOf_append (a : Bytes) (hback : BACKSLASH ∉ q) (hq : squeezed q = q) (hhead : q.head? ≠ some SLASH) :
    ∃ y, partsOf (a ++ SLASH :: q) = split y ++ split q ∧ (partsOf a = split y ∨ partsOf a = split y ++ [[]]) := by
  have hturned : turned (a ++ SLASH :: q) = turned a ++ SLASH :: q := by
    rw [turned, List.map_append, List.map_cons]
    conv_rhs => rw [← turned_eq hback]
    rfl
  obtain ⟨y, hy, ha⟩ := squeezed_append (turned a) hq hhead
  refine ⟨y, ?_, ?_⟩
  · rw [partsOf, hturned, hy]
    exact List.splitOn_append_cons_self y q
  · rw [partsOf]
    rcases ha with ha | ha
    · exact .inl (by rw [ha])
    · exact .inr (by rw [ha, split_append_slash])

theorem ends_with_slash {l : List Bytes} (h : split q = l ++ [[]]) (hne : l ≠ []) : q.getLast? = some SLASH := by
  have hslash : ∀ r ∈ l, SLASH ∉ r := fun r hr => slash_not_mem (t := q) (by rw [h]; exact List.mem_append_left _ hr)
  have hsplit : split (write l ++ [SLASH]) = split q := by rw [split_append_slash, split_write hne hslash, h]
  rw [← write_split q, ← hsplit, write_split]
  exact List.getLast?_concat

/-- The parts of a path that is neither empty nor absolute. -/
theorem parts_ne_nil (hne : normalize path ≠ []) (hrel : isAbsolute (normalize path) = false) :
    ∀ r ∈ split (normalize path), r ≠ [] := by
  rw [isAbsolute, Bool.or_eq_false_iff, decide_eq_false_iff_not] at hrel
  have hlast : (normalize path).getLast? ≠ some SLASH := by
    refine (end_normalize path).resolve_left ?_
    rw [isRoot, Bool.or_eq_true, Bool.and_eq_true, decide_eq_true_eq, hrel.2, not_or]
    refine ⟨?_, by simp⟩
    intro hroot
    rw [hroot] at hrel
    exact hrel.1 rfl
  have htight := tight_normalize path
  obtain ⟨s, more, hs⟩ := exists_split (normalize path)
  rw [hs] at htight ⊢
  intro r hr
  rcases List.mem_cons.mp hr with rfl | hr
  · rintro rfl
    cases more with
    | nil =>
      rw [← write_split (normalize path), hs] at hne
      exact hne rfl
    | cons m more =>
      rw [← write_split (normalize path), hs, write_cons_cons] at hrel
      exact hrel.1 rfl
  · obtain ⟨init, last, rfl⟩ : ∃ init last, more = init ++ [last] :=
      ⟨more.dropLast, more.getLast (List.ne_nil_of_mem hr), (List.dropLast_append_getLast _).symm⟩
    rcases List.mem_append.mp hr with hr | hr
    · exact htight r (by rwa [List.tail_cons, List.dropLast_concat])
    · rw [List.mem_singleton.mp hr]
      rintro rfl
      exact hlast (ends_with_slash (l := s :: init) hs (List.cons_ne_nil _ _))

def frontOf : Option Bytes → List Bytes
  | none => []
  | some left => front left

theorem dropTrailing_write {parts kept : List Bytes} (hslash : ∀ r ∈ parts ++ kept, SLASH ∉ r) (hne : kept ≠ [])
    (hkept : ∀ r ∈ kept, r ≠ []) : dropTrailing (write (parts ++ kept)) = write (parts ++ kept) := by
  have hsplit : split (write (parts ++ kept)) = parts ++ kept := split_write (by simp [hne]) hslash
  rcases dropTrailing_cases (write (parts ++ kept)) with ⟨heq, -⟩ | ⟨-, heq⟩
  · exact heq
  · exfalso
    rw [heq, split_append_slash] at hsplit
    obtain ⟨init, last, rfl⟩ : ∃ init last, kept = init ++ [last] :=
      ⟨kept.dropLast, kept.getLast hne, (List.dropLast_append_getLast hne).symm⟩
    rw [← List.append_assoc] at hsplit
    have hlast := List.append_inj_right' hsplit rfl
    exact hkept last (by simp) (List.cons.inj hlast).1.symm

/-- A join puts the root and the names on the left before what stands on the right. -/
theorem join_eq {left : Option Bytes} (hspaced : ∀ a ∈ left, Spaced (partsOf a)) (hkept : Kept (normalize right))
    (hne : normalize right ≠ []) (hrel : isAbsolute (normalize right) = false) :
    join left right = write (frontOf left ++ split (normalize right)) := by
  have hempty : write ([] ++ split (normalize right)) = normalize right := write_split _
  cases left with
  | none => exact hempty.symm
  | some a =>
    by_cases hspecial : a = [] ∨ a = [DOT]
    · have hfront : frontOf (some a) = [] := by rcases hspecial with rfl | rfl <;> decide
      rw [hfront, hempty, join, if_pos hspecial]
    · rw [join, if_neg hspecial, if_neg hne, if_neg (by rw [hrel]; decide)]
      have hparts := parts_ne_nil hne hrel
      have hhead : (normalize right).head? ≠ some SLASH := by
        rw [isAbsolute, Bool.or_eq_false_iff, decide_eq_false_iff_not] at hrel
        exact hrel.1
      obtain ⟨y, hy, ha⟩ := partsOf_append a (backslash_not_mem_normalize right)
        (squeezed_eq (tight_normalize right)) hhead
      obtain ⟨s, more, hs⟩ := exists_split y
      have hsplit : split (normalize right) ≠ [] := List.splitOn_ne_nil SLASH _
      have hmore : ∀ r ∈ more, r ≠ [] := by
        have htight := tight_parts (a ++ SLASH :: normalize right)
        rw [hy, hs] at htight
        intro r hr
        refine htight r ?_
        rw [List.cons_append, List.tail_cons, List.dropLast_append_of_ne_nil hsplit]
        exact List.mem_append_left _ hr
      have hfront : frontOf (some a) = (split y).filter (· ≠ [DOT]) := by
        rw [hs] at ha ⊢
        exact front_of_parts (fun h => hspecial (.inl h)) ha hmore
      have hleft : Spaced (split y) := by
        have hwhole := hspaced a rfl
        rcases ha with ha | ha
        · rwa [ha] at hwhole
        · rw [ha] at hwhole
          exact hwhole.left_of_append
      rw [normalize, dropDots_eq]
      change dropTrailing (write (skipDots (partsOf _))) = _
      rw [hy, skipDots_append hleft hsplit hkept, ← hfront]
      refine dropTrailing_write (fun r hr => ?_) hsplit hparts
      rcases List.mem_append.mp hr with hr | hr
      · exact slash_not_mem_front hr
      · exact slash_not_mem hr

theorem join_absolute {left : Option Bytes} (h : isAbsolute (normalize right) = true) : join left right = normalize right := by
  have hne : normalize right ≠ [] := by
    intro heq
    rw [heq] at h
    cases h
  cases left with
  | none => rfl
  | some a =>
    rw [join]
    split_ifs <;> rfl

theorem join_nil (h : normalize right = []) (hleft : left ≠ [DOT]) : join (some left) right = normalize left := by
  rw [join]
  by_cases hspecial : left = [] ∨ left = [DOT]
  · rw [if_pos hspecial, h, hspecial.resolve_right hleft]
    rfl
  · rw [if_neg hspecial, if_pos h]

theorem kept_of_spaced (h : Spaced (partsOf path)) : Kept (normalize path) := by
  have hkept : [DOT] ∉ (skipDots (partsOf path)).dropLast := by
    have hne : partsOf path ≠ [] := List.splitOn_ne_nil SLASH _
    have hlast := List.dropLast_append_getLast hne
    rw [← hlast] at h ⊢
    rw [skipDots_append h.left_of_append (List.cons_ne_nil _ _) (by simp), List.dropLast_concat]
    intro hmem
    simpa using (List.mem_filter.mp hmem).2
  rcases split_normalize path with ⟨hsplit, -⟩ | ⟨hsplit, -⟩
  · rwa [Kept, hsplit]
  · rw [← hsplit, List.dropLast_concat] at hkept
    exact fun hmem => hkept (List.mem_of_mem_dropLast hmem)

theorem spaced_of_kept {parts : List Bytes} (h : [DOT] ∉ parts.dropLast) : Spaced parts := by
  induction parts with
  | nil => exact List.isChain_nil
  | cons r parts ih =>
    cases parts with
    | nil => exact List.isChain_singleton r
    | cons s parts =>
      rw [List.dropLast_cons_cons, List.mem_cons, not_or] at h
      exact List.isChain_cons_cons.mpr ⟨fun hr => absurd hr.symm h.1, ih h.2⟩

theorem rooted_normalize_eq (h : isAbsolute (normalize path) = false) : rooted (normalize path) = false := by
  rw [isAbsolute, Bool.or_eq_false_iff, decide_eq_false_iff_not] at h
  rw [← Bool.not_eq_true, rooted_iff, turned_eq (backslash_not_mem_normalize path)]
  exact h.1

theorem front_append (hne : left ≠ []) (hq : rooted q = false) : front (left ++ SLASH :: q) = front left ++ front q := by
  have hroot : rooted (left ++ SLASH :: q) = rooted left := by
    cases left with
    | nil => exact absurd rfl hne
    | cons b left => rfl
  have hnames : names (left ++ SLASH :: q) = names left ++ names q := by
    rw [names, Segments.segments_append_cons _ rfl, List.filter_append]
    rfl
  rw [front, hroot, hnames, front, front, hq, if_neg Bool.false_ne_true, List.nil_append, List.append_assoc]

theorem front_join (left : Option Bytes) (hrel : isAbsolute (normalize right) = false) :
    front (join left right) = frontOf left ++ front right := by
  cases left with
  | none => exact front_normalize right
  | some a =>
    rw [join]
    by_cases hspecial : a = [] ∨ a = [DOT]
    · have hfront : frontOf (some a) = [] := by rcases hspecial with rfl | rfl <;> decide
      rw [if_pos hspecial, hfront, front_normalize]
      rfl
    · rw [if_neg hspecial]
      by_cases hne : normalize right = []
      · have hfront : front right = [] := by
          rw [← front_normalize right, hne]
          rfl
        rw [if_pos hne, front_normalize, hfront, List.append_nil]
        rfl
      · rw [if_neg hne, if_neg (by rw [hrel]; decide), front_normalize,
          front_append (fun h => hspecial (.inl h)) (rooted_normalize_eq hrel), front_normalize]
        rfl

/-- Every join is a normalized path. -/
theorem exists_normalize_join {left : Option Bytes} (hleft : ∀ a ∈ left, Spaced (partsOf a)) (hright : Spaced (partsOf right)) :
    ∃ path, join left right = normalize path ∧ Kept (normalize path) := by
  have hkept := kept_of_spaced hright
  cases left with
  | none => exact ⟨right, rfl, hkept⟩
  | some a =>
    by_cases hspecial : a = [] ∨ a = [DOT]
    · exact ⟨right, by rw [join, if_pos hspecial], hkept⟩
    by_cases hne : normalize right = []
    · exact ⟨a, by rw [join, if_neg hspecial, if_pos hne], kept_of_spaced (hleft a rfl)⟩
    by_cases hrel : isAbsolute (normalize right) = true
    · exact ⟨right, join_absolute hrel, hkept⟩
    · rw [Bool.not_eq_true] at hrel
      refine ⟨a ++ SLASH :: normalize right, by rw [join, if_neg hspecial, if_neg hne, if_neg (by rw [hrel]; decide)], ?_⟩
      have hjoin := join_eq hleft hkept hne hrel
      rw [join, if_neg hspecial, if_neg hne, if_neg (by rw [hrel]; decide)] at hjoin
      have hsplit : split (normalize right) ≠ [] := List.splitOn_ne_nil SLASH _
      rw [hjoin, Kept, split_write (by simp [hsplit]), List.dropLast_append_of_ne_nil hsplit, List.mem_append, not_or]
      · exact ⟨dot_not_mem_front a, hkept⟩
      · intro r hr
        rcases List.mem_append.mp hr with hr | hr
        · exact slash_not_mem_front hr
        · exact slash_not_mem hr

/-! ### Drives -/

/-- `X:` and nothing more. -/
def bareDrive : Bytes → Bool
  | [a, b] => isLetter a && b = COLON
  | _ => false

theorem startsDrive_append {r : Bytes} (h : SLASH ∉ r) (l : Bytes) : startsDrive (r ++ SLASH :: l) = bareDrive r := by
  match r with
  | [] =>
    have hletter : isLetter SLASH = false := by decide
    match l with
    | [] | [_] => rfl
    | a :: b :: l => simp [startsDrive, bareDrive, hletter]
  | [a] =>
    cases l with
    | nil => rfl
    | cons b l =>
      have hcolon : decide (SLASH = COLON) = false := by decide
      simp [startsDrive, bareDrive, hcolon]
  | [a, b] => simp [startsDrive, bareDrive]
  | a :: b :: c :: r =>
    have hc : c ≠ SLASH := fun hc => h (by simp [hc])
    simp [startsDrive, bareDrive, hc]

theorem isAbsolute_iff (path : Bytes) :
    isAbsolute path = true ↔ ∃ r s rest, split path = r :: s :: rest ∧ (r = [] ∨ bareDrive r = true) := by
  obtain ⟨r, rest, hsplit⟩ := exists_split path
  have hslash : SLASH ∉ r := slash_not_mem (t := path) (by rw [hsplit]; exact List.mem_cons_self)
  have hwrite := write_split path
  rw [hsplit] at hwrite ⊢
  cases rest with
  | nil =>
    have hpath : path = r := hwrite.symm.trans List.intercalate_singleton
    subst hpath
    refine iff_of_false ?_ (by simp)
    rw [isAbsolute, Bool.or_eq_true, decide_eq_true_eq, not_or]
    constructor
    · intro hhead
      exact hslash (List.mem_of_mem_head? hhead)
    · intro hdrive
      match path with
      | a :: b :: c :: l =>
        rw [startsDrive, Bool.and_eq_true, Bool.and_eq_true, decide_eq_true_eq, decide_eq_true_eq] at hdrive
        exact hslash (by simp [hdrive.2])
  | cons s rest =>
    rw [write_cons_cons] at hwrite
    rw [isAbsolute, ← hwrite, startsDrive_append hslash, Bool.or_eq_true, decide_eq_true_eq]
    have hhead : (r ++ SLASH :: write (s :: rest)).head? = some SLASH ↔ r = [] := by
      cases r with
      | nil => simp
      | cons a r =>
        have ha : a ≠ SLASH := fun ha => hslash (by simp [ha])
        simp [ha]
    rw [hhead]
    constructor
    · intro h
      exact ⟨r, s, rest, rfl, h⟩
    · rintro ⟨r', s', rest', heq, h⟩
      obtain ⟨rfl, -⟩ := List.cons.inj heq
      exact h

/-! ### Two joins -/

section Twice

variable {left : Option Bytes} {b c : Bytes}

theorem plain_dot_not_mem (h : Plain path) : [DOT] ∉ split (normalize path) := by
  rw [dot_mem_normalize, dot_not_mem_skipDots]
  exact h

/-- The parts of a plain path are its front, and one that is empty after a root. -/
theorem parts_plain (h : Plain path) (hne : normalize path ≠ []) :
    split (normalize path) = front path ∨ split (normalize path) = front path ++ [[]] := by
  have hdots := plain_dot_not_mem h
  have htight := tight_normalize path
  have hparts := partsOf_fixed (backslash_not_mem_normalize path) htight
  rw [← front_normalize path]
  obtain ⟨r, rest, hsplit⟩ := exists_split (normalize path)
  have hself {l : List Bytes} (hl : ∀ s ∈ l, s ∈ split (normalize path)) : l.filter (· ≠ [DOT]) = l := by
    refine List.filter_eq_self.mpr fun s hs => ?_
    rw [decide_eq_true_eq]
    rintro rfl
    exact hdots (hl _ hs)
  rw [hsplit] at htight
  rcases List.eq_nil_or_concat rest with rfl | ⟨init, last, rfl⟩
  · refine .inl ?_
    rw [front_of_parts hne (.inl (hparts.trans hsplit)) (by simp), hself (fun s hs => by rwa [hsplit]), hsplit]
  · rw [List.concat_eq_append] at hsplit htight
    rw [Tight, List.tail_cons, List.dropLast_concat] at htight
    by_cases hlast : last = []
    · subst hlast
      refine .inr ?_
      rw [@front_of_parts (normalize path) r init hne (.inr (hparts.trans hsplit)) htight,
        hself (fun s hs => by rw [hsplit]; exact List.mem_append_left _ hs), hsplit]
      rfl
    · refine .inl ?_
      rw [front_of_parts hne (.inl (hparts.trans hsplit)), hself (fun s hs => by rwa [hsplit]), hsplit]
      intro s hs
      rcases List.mem_append.mp hs with hs | hs
      · exact htight s hs
      · rwa [List.mem_singleton.mp hs]

theorem ne_dot_of_plain (h : Plain b) : b ≠ [DOT] := by
  rintro rfl
  exact h.2 (by decide)

theorem split_join (hleft : ∀ a ∈ left, Spaced (partsOf a)) (hb : Plain b) (hne : normalize b ≠ [])
    (hrel : isAbsolute (normalize b) = false) :
    split (join left b) = frontOf left ++ split (normalize b) := by
  rw [join_eq hleft (kept_of_spaced hb.1) hne hrel, split_write]
  · simp
  · intro r hr
    rcases List.mem_append.mp hr with hr | hr
    · cases left with
      | none => cases hr
      | some a => exact slash_not_mem_front hr
    · exact slash_not_mem hr

theorem dot_eq_of_turned {a : Bytes} (h : squeezed (turned a) = [DOT]) : a = [DOT] := by
  have hturned : turned a = [DOT] := by
    refine squeezed_rec (P := fun l u => u = [DOT] → l = [DOT]) id ?_ ?_ (turned a) h
    · intro l u hu hdot
      cases (List.cons.inj (hu hdot)).1
    · intro d l _ _ hdot
      obtain ⟨rfl, hnil⟩ := List.cons.inj hdot
      rw [squeezed_eq_nil hnil]
  match a with
  | [] => cases hturned
  | [d] =>
    have hd : (if d = BACKSLASH then SLASH else d) = DOT := (List.cons.inj hturned).1
    split_ifs at hd with hback
    · cases hd
    · rw [hd]
  | _ :: _ :: _ => cases (List.cons.inj hturned).2

theorem join_ne_dot (hleft : ∀ a ∈ left, Spaced (partsOf a)) (hb : Plain b) : join left b ≠ [DOT] := by
  have hright : normalize b ≠ [DOT] := by
    intro hdot
    have hmem := plain_dot_not_mem hb
    rw [hdot] at hmem
    exact hmem List.mem_cons_self
  by_cases habs : isAbsolute (normalize b) = true
  · rwa [join_absolute habs]
  rw [Bool.not_eq_true] at habs
  by_cases hne : normalize b = []
  · cases left with
    | none => exact hright
    | some a =>
      rw [join]
      by_cases hspecial : a = [] ∨ a = [DOT]
      · rwa [if_pos hspecial]
      · rw [if_neg hspecial, if_pos hne]
        intro hdot
        refine hspecial (.inr ?_)
        have hspaced := hleft a rfl
        rcases (normalize_eq_dot a).mp hdot with h | h | h | h
        · refine dot_eq_of_turned ?_
          rw [← write_split (squeezed (turned a))]
          change write (partsOf a) = _
          rw [h]
          rfl
        all_goals
          rw [h, Spaced, List.isChain_cons_cons] at hspaced
          exact absurd rfl (hspaced.1 rfl)
  · intro hdot
    have hsplit := split_join hleft hb hne habs
    rw [hdot] at hsplit
    have hmem : [DOT] ∈ frontOf left ++ split (normalize b) := by
      rw [← hsplit]
      exact List.mem_cons_self
    rcases List.mem_append.mp hmem with hmem | hmem
    · cases left with
      | none => cases hmem
      | some a => exact dot_not_mem_front a hmem
    · exact plain_dot_not_mem hb hmem

theorem split_bareDrive (h : bareDrive path = true) : split path = [path] := by
  match path with
  | [x, y] =>
    rw [bareDrive, Bool.and_eq_true, decide_eq_true_eq] at h
    have hx : x ≠ SLASH := by
      rintro rfl
      exact absurd h.1 (by decide)
    have hy : y ≠ SLASH := by
      rw [h.2]
      decide
    exact split_cons hx (split_cons hy rfl)

/-- What a path starts with is seen in its front. -/
theorem anchored_front (hb : Plain b) (hne : normalize b ≠ []) :
    (∃ r fs, front b = r :: fs ∧ (r = [] ∨ bareDrive r = true)) ↔
      isAbsolute (normalize b) = true ∨ bareDrive (normalize b) = true := by
  have hparts := parts_plain hb hne
  rw [isAbsolute_iff]
  constructor
  · rintro ⟨r, fs, hfront, hr⟩
    rw [hfront] at hparts
    rcases hparts with hparts | hparts
    · cases fs with
      | nil =>
        have hwhole : normalize b = r := by
          rw [← write_split (normalize b), hparts]
          exact List.intercalate_singleton
        rcases hr with rfl | hr
        · exact absurd hwhole hne
        · rw [hwhole]
          exact .inr hr
      | cons g gs => exact .inl ⟨r, g, gs, hparts, hr⟩
    · obtain ⟨g, gs, hg⟩ := List.exists_cons_of_ne_nil (show fs ++ [[]] ≠ [] by simp)
      exact .inl ⟨r, g, gs, by rw [hparts, List.cons_append, hg], hr⟩
  · rintro (⟨r, s, rest, heq, hr⟩ | hbare)
    · rcases hparts with hparts | hparts
      · exact ⟨r, s :: rest, by rw [← hparts, heq], hr⟩
      · rw [heq] at hparts
        cases hf : front b with
        | nil =>
          rw [hf] at hparts
          cases (List.cons.inj hparts).2
        | cons f fs =>
          rw [hf] at hparts
          obtain ⟨rfl, -⟩ := List.cons.inj hparts
          exact ⟨r, fs, rfl, hr⟩
    · have hone := split_bareDrive hbare
      rcases hparts with hparts | hparts
      · exact ⟨normalize b, [], by rw [← hparts, hone], .inr hbare⟩
      · rw [hone] at hparts
        have hlast : [normalize b] = [[]] := @List.append_inj_right' _ [] _ _ _ hparts rfl
        rw [(List.cons.inj hlast).1] at hbare
        cases hbare

/-- A drive with nothing after it takes a joined path for its own. -/
theorem join_absolute_iff (hb : Plain b) (hc : Plain c) (hne : normalize c ≠ []) (hrel : isAbsolute (normalize c) = false) :
    isAbsolute (join (some b) c) = true ↔ isAbsolute (normalize b) = true ∨ bareDrive (normalize b) = true := by
  have hsome : ∀ a ∈ some b, Spaced (partsOf a) := fun a ha => by cases ha; exact hb.1
  have hsplit := split_join hsome hc hne hrel
  by_cases hbne : normalize b = []
  · have hfront : frontOf (some b) = [] := by
      rw [frontOf, ← front_normalize, hbne]
      rfl
    rw [hfront, List.nil_append] at hsplit
    have heq : join (some b) c = normalize c := by rw [← write_split (join (some b) c), hsplit, write_split]
    rw [heq, hrel, hbne]
    decide
  · rw [← anchored_front hb hbne, isAbsolute_iff, hsplit, frontOf]
    constructor
    · rintro ⟨r, s, rest, heq, hr⟩
      cases hfront : front b with
      | nil =>
        rw [hfront, List.nil_append] at heq
        exact absurd ((isAbsolute_iff _).mpr ⟨r, s, rest, heq, hr⟩) (by rw [hrel]; decide)
      | cons f fs =>
        rw [hfront] at heq
        obtain ⟨rfl, -⟩ := List.cons.inj heq
        exact ⟨f, fs, rfl, hr⟩
    · rintro ⟨r, fs, hfront, hr⟩
      have hrest : fs ++ split (normalize c) ≠ [] := by
        rw [Ne, List.append_eq_nil_iff, not_and]
        exact fun _ => List.splitOn_ne_nil SLASH _
      obtain ⟨g, gs, hg⟩ := List.exists_cons_of_ne_nil hrest
      exact ⟨r, g, gs, by rw [hfront, List.cons_append, hg], hr⟩

theorem not_bareDrive (h : isAbsolute path = true) : bareDrive path = false := by
  rw [← Bool.not_eq_true]
  intro hbare
  obtain ⟨r, s, rest, hsplit, -⟩ := (isAbsolute_iff path).mp h
  rw [split_bareDrive hbare] at hsplit
  cases (List.cons.inj hsplit).2

theorem join_normalize (left : Option Bytes) (hright : Kept (normalize right)) : join left (normalize right) = join left right := by
  cases left <;> simp only [join, normalize_fixed right hright]

/-- Two joins may be made in either order, but where a bare drive has something on both sides. -/
theorem join_join (hleft : ∀ a ∈ left, Spaced (partsOf a)) (hb : Plain b) (hc : Plain c) :
    join (some (join left b)) c = join left (join (some b) c) ↔
      bareDrive (normalize b) = false ∨ frontOf left = [] ∨ normalize c = [] ∨ isAbsolute (normalize c) = true := by
  have hkept := kept_of_spaced hc.1
  have hsome : ∀ a ∈ some b, Spaced (partsOf a) := fun a ha => by cases ha; exact hb.1
  obtain ⟨p, hp, hpkept⟩ := exists_normalize_join hleft hb.1
  by_cases habs : isAbsolute (normalize c) = true
  · rw [join_absolute habs, join_absolute habs, join_normalize left hkept, join_absolute habs]
    simp [habs]
  by_cases hnil : normalize c = []
  · rw [join_nil hnil (ne_dot_of_plain hb), join_nil hnil (join_ne_dot hleft hb), hp, normalize_fixed p hpkept, ← hp,
      join_normalize left (kept_of_spaced hb.1)]
    simp [hnil]
  rw [Bool.not_eq_true] at habs
  have hjoined : ∀ a ∈ some (join left b), Spaced (partsOf a) := by
    intro a ha
    cases ha
    rw [hp, partsOf_fixed (backslash_not_mem_normalize p) (tight_normalize p)]
    exact spaced_of_kept hpkept
  obtain ⟨r, hr, hrkept⟩ := exists_normalize_join hsome hc.1
  have hfixed : normalize (join (some b) c) = join (some b) c := by rw [hr, normalize_fixed r hrkept]
  have hsplit := split_join hsome hc hnil habs
  have hleftside := join_eq hjoined hkept hnil habs
  have hrightside := join_eq hsome hkept hnil habs
  by_cases hroot : isAbsolute (normalize b) = true
  · have hwhole := (join_absolute_iff hb hc hnil habs).mpr (.inl hroot)
    have hright : join left (join (some b) c) = join (some b) c := by
      rw [join_absolute (by rwa [hfixed]), hfixed]
    rw [hright, hleftside, hrightside, join_absolute hroot, frontOf, frontOf, front_normalize]
    simp [not_bareDrive hroot]
  rw [Bool.not_eq_true] at hroot
  have hboth : frontOf (some (join left b)) = frontOf left ++ front b := front_join left hroot
  by_cases hdrive : bareDrive (normalize b) = true
  · have hwhole := (join_absolute_iff hb hc hnil habs).mpr (.inr hdrive)
    have hright : join left (join (some b) c) = join (some b) c := by
      rw [join_absolute (by rwa [hfixed]), hfixed]
    rw [hright, hdrive, habs]
    have hiff : join (some (join left b)) c = join (some b) c ↔ frontOf left = [] := by
      constructor
      · intro heq
        have hparts := congrArg split heq
        rw [split_join hjoined hc hnil habs, hsplit, hboth, List.append_assoc, frontOf] at hparts
        exact List.append_left_eq_self.mp hparts
      · intro hempty
        rw [hleftside, hrightside, hboth, hempty, List.nil_append]
        rfl
    rw [hiff]
    simp [hnil]
  · have hwhole : isAbsolute (join (some b) c) = false := by
      rw [← Bool.not_eq_true, join_absolute_iff hb hc hnil habs, hroot]
      simp [hdrive]
    have hne : join (some b) c ≠ [] := by
      intro hempty
      obtain ⟨m, more, hmore⟩ := exists_split (normalize c)
      have hm := parts_ne_nil hnil habs m (by rw [hmore]; exact List.mem_cons_self)
      rw [hempty, hmore] at hsplit
      cases hfront : frontOf (some b) with
      | nil =>
        rw [hfront] at hsplit
        exact hm (List.cons.inj hsplit).1.symm
      | cons f fs =>
        rw [hfront] at hsplit
        have hlength := (List.cons.inj hsplit).2
        simp at hlength
    have hright : join left (join (some b) c) = fs.write (frontOf left ++ split (normalize (join (some b) c))) :=
      join_eq hleft (by rwa [hfixed, hr]) (by rwa [hfixed]) (by rwa [hfixed])
    rw [hfixed, hsplit, ← List.append_assoc, frontOf] at hright
    rw [hright, hleftside, hboth]
    simp [hdrive]

end Twice

end Nupp.fs
