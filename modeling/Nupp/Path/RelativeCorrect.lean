import Nupp.Path.RelativeReads

/-! Relative paths lead back to their target. -/

namespace Nupp.PathText

open Segments

variable {text target base front : Bytes} {windows rooted : Bool} {ns : List Bytes}

/-! Absolute paths. -/

theorem isAbsolute_eq (text : Bytes) : isAbsolute text true =
    if isDrive text then startsRooted true (text.drop (prefixLength text true))
    else decide (prefixLength text true ≠ 0) || startsRooted true (text.drop (prefixLength text true)) := by
  have hroot : separatorAt text true (prefixLength text true + 1) = startsRooted true (text.drop (prefixLength text true)) :=
    separatorAt_succ _
  have hcolon : (decide (2 ≤ prefixLength text true) && decide (text[1]? = some COLON)) = isDrive text := by
    by_cases hdrive : isDrive text = true
    · obtain ⟨hp, -⟩ := prefixes_drive hdrive
      obtain ⟨c, l, rfl, -⟩ := isDrive_iff.mp hdrive
      rw [hp, hdrive]
      rfl
    · rw [Bool.not_eq_true] at hdrive
      rw [hdrive, Bool.and_eq_false_iff]
      by_cases hdouble : isDouble text true = true
      · obtain ⟨a, b, l, rfl, -, hb⟩ := isDouble_iff.mp hdouble
        right
        have hne : b ≠ COLON := by
          rintro rfl
          cases hb
        simp [hne]
      · rw [Bool.not_eq_true] at hdouble
        left
        rw [(prefixes_none hdrive hdouble).1]
        rfl
  rw [isAbsolute, hroot]
  simp only [Bool.true_and]
  rw [hcolon]

theorem isAbsolute_posix (text : Bytes) : isAbsolute text false = startsRooted false text := by
  have hroot : separatorAt text false (prefixLength text false + 1) = startsRooted false text := separatorAt_succ _
  rw [isAbsolute, hroot]
  rfl

/-! The components two readings have in common. -/

theorem split_written {C X : List (Kind × Bytes)} (h : written front rooted ns = C ++ X)
    (hhead : ∀ c ∈ X.head?, c.1.anchors = false) :
    ∃ c x, ns = c ++ x ∧ C = written front rooted c ∧ X = x.map nameComponent := by
  have hwritten : ∀ l, written front rooted l = written front rooted [] ++ l.map nameComponent := by
    intro l
    rw [written, written, List.map_nil, List.append_nil, List.append_assoc]
  have hanchors : ∀ c ∈ written front rooted [], c.1.anchors = true := by
    intro c hc
    rw [written, List.map_nil, List.append_nil] at hc
    rcases List.mem_append.mp hc with hc | hc
    · split_ifs at hc
      · cases hc
      · rw [List.mem_singleton.mp hc]
        rfl
    · split_ifs at hc
      · rw [List.mem_singleton.mp hc]
        rfl
      · cases hc
  rw [hwritten ns] at h
  rcases List.append_eq_append_iff.mp h with ⟨l, hC, hX⟩ | ⟨l, hC, hX⟩
  · obtain ⟨c, x, hns, hc, hx⟩ := List.map_eq_append_iff.mp hX
    refine ⟨c, x, hns, ?_, hx.symm⟩
    rw [hC, hwritten c, hc]
  · cases l with
    | nil =>
      refine ⟨[], ns, rfl, ?_, ?_⟩
      · rw [hC, List.append_nil]
      · rw [hX, List.nil_append]
    | cons d l =>
      have htrue := hanchors d (by rw [hC]; simp)
      have hfalse := hhead d (by rw [hX]; rfl)
      rw [htrue] at hfalse
      cases hfalse

/-! When a relative path leads back. -/

/-- The joined path is the target. -/
def Leads (target base : Bytes) (windows : Bool) (r : Bytes) : Prop :=
  normalize (join windows [base, r]) windows = normalize target windows

/-- The target goes on from the base with a name that looks like a drive. -/
def DriveFront (target base : Bytes) (windows : Bool) : Prop :=
  windows = true ∧ ∃ n rest, isDrive n = true ∧ (components target windows).map (foldComponent windows) =
    (components base windows).map (foldComponent windows) ++ (.NORMAL, n) :: rest

/-- The target has a root and no drive, the base a drive and no root. -/
def KeepsDrive (target base : Bytes) (windows : Bool) : Prop :=
  windows = true ∧ isAbsolute target windows = true ∧ isAbsolute base windows = false ∧
    prefixLength target windows = 0 ∧ prefixLength base windows ≠ 0

/-- Both are one share, or one device that ends as a drive does. -/
def BarePrefix (target base : Bytes) (windows : Bool) : Prop :=
  windows = true ∧ isDouble base true = true ∧ prefixLength base true = base.length ∧
    target.map fold = base.map fold ∧ (isMarked base true = true → base.getLast? = some COLON)

theorem not_drive_of_double (h : isDouble text true = true) : isDrive text = false := by
  obtain ⟨a, b, l, rfl, ha, -⟩ := isDouble_iff.mp h
  exact not_drive_of_separator ha (b :: l)

theorem absolute_of_double (h : isDouble text true = true) : isAbsolute text true = true := by
  have hpos := prefixLength_pos_of_double h
  rw [isAbsolute_eq, not_drive_of_double h]
  simp [Nat.pos_iff_ne_zero.mp hpos]

theorem not_bare_of_relative (h : isAbsolute base windows = false) : ¬ BarePrefix target base windows := by
  rintro ⟨rfl, hdouble, -⟩
  rw [absolute_of_double hdouble] at h
  cases h

theorem drive_of_relative (hprefixed : prefixLength base true ≠ 0) (h : isAbsolute base true = false) :
    isDrive base = true := by
  by_contra hnot
  rw [Bool.not_eq_true] at hnot
  rw [isAbsolute_eq, hnot] at h
  simp [hprefixed] at h

theorem Reads.front_nil (h : Reads windows text front rooted ns) : front = [] ↔ prefixLength text windows = 0 := by
  rw [← h.front_eq, foldPrefix_eq_nil, ← List.length_eq_zero_iff,
    List.length_take_of_le (prefixLength_le text windows)]

theorem Reads.absolute (h : Reads windows text front rooted ns) (hfront : front = []) :
    isAbsolute text windows = rooted := by
  have hp := h.front_nil.mp hfront
  have hroot := h.root_eq
  rw [hp, List.drop_zero] at hroot
  cases windows with
  | false => rw [isAbsolute_posix, hroot]
  | true =>
    have hdrive : isDrive text = false := by
      by_contra hnot
      rw [(prefixes_drive (by simpa using hnot)).1] at hp
      cases hp
    rw [isAbsolute_eq, hdrive, hp, List.drop_zero, hroot]
    rfl

/-- An anchored part replaces the base, but for its prefix. -/
theorem pushPart_anchored (base : Bytes) {part : Bytes} (h : prefixLength part windows ≠ 0 ∨ startsRooted windows part = true) :
    pushPart windows base part =
      (if prefixLength part windows = 0 then base.take (prefixLength base windows) else []) ++ part := by
  have hcond : (decide (prefixLength part windows ≠ 0) || separatorAt part windows 1) = true := by
    rw [Bool.or_eq_true, decide_eq_true_eq, separatorAt_one]
    exact h
  simp only [pushPart, hcond, if_true]

/-- A rooted part keeps the drive of the base, which the target does not have. -/
theorem not_leads_drive {r : Bytes} (h : Reads true target front rooted ns) (hfront : front = [])
    (hroot : rooted = true) (hverbatim : isVerbatim target true = false) (hdrive : isDrive base = true)
    (hpush : pushPart true base r = base.take (prefixLength base true) ++ r) : ¬ Leads target base true r := by
  have hmarked : isMarked target true = false := by
    rw [← isMarked_front, h.front_eq, hfront]
    rfl
  have htarget := h.normalize_build hverbatim fun _ => hmarked
  obtain ⟨c, l, rfl, hc⟩ := isDrive_iff.mp hdrive
  rw [(prefixes_drive hdrive).1] at hpush
  have hpush' : pushPart true (c :: COLON :: l) r = c :: COLON :: r := hpush
  have hletter := fold_letter hc
  have hdrive' : isDrive (c :: COLON :: r.map fold) = true := isDrive_iff.mpr ⟨c, _, rfl, hc⟩
  have hnot : ∀ t, isVerbatim (c :: t) true = false := by
    intro t
    have hne : c ≠ BACKSLASH := by
      rintro rfl
      cases hc
    simp [isVerbatim, hne]
  have hjoin : join true [c :: COLON :: l, r] = c :: COLON :: r.map fold := by
    rw [join_pair, hpush', finish_eq (hnot _)]
    simp only [foldPrefix, if_true, List.map_cons, hletter]
    rfl
  have hmarked' : isMarked (c :: COLON :: r.map fold) true = false := by
    by_contra hcon
    obtain ⟨a, b, m, s, l', heq, hm⟩ := exists_marker (by simpa using hcon)
    rw [List.cons.injEq] at heq
    have hsep := hm.first
    rw [← heq.1] at hsep
    rw [not_drive_of_separator hsep] at hdrive'
    cases hdrive'
  have hread := (reads_self true (c :: COLON :: r.map fold)).normalize_build (hnot _) fun _ => hmarked'
  rw [(prefixes_drive hdrive').1] at hread
  rw [Leads, hjoin, hread, htarget, hfront, hroot]
  have hcolon : fold COLON = COLON := rfl
  simp only [foldPrefix, if_true, List.take_succ_cons, List.take_zero, List.map_cons, List.map_nil, hletter, hcolon]
  intro heq
  have hhead := congrArg List.head? heq
  simp only [build, List.cons_ne_nil, decide_false, Bool.and_false, Bool.false_and, Bool.false_eq_true, if_false,
    List.cons_append, List.head?_cons, Bool.not_true, if_true, List.nil_append, Option.some.injEq] at hhead
  rw [hhead] at hc
  cases hc

theorem leads_clean (hverbatim : isVerbatim target windows = false) (htarget : isAbsolute target windows = true)
    (hbase : isAbsolute base windows = false) :
    Leads target base windows (clean target windows) ↔ ¬ KeepsDrive target base windows := by
  obtain ⟨front, rooted, ns, h⟩ : ∃ front rooted ns, Reads windows target front rooted ns := ⟨_, _, _, reads_self _ _⟩
  have hreads : Reads windows (rebuild front rooted ns) front rooted ns := by
    refine h.rebuild fun _ hfront hroot => ?_
    rw [h.absolute hfront, hroot] at htarget
    cases htarget
  rw [clean_eq hverbatim h]
  have hanchored : prefixLength (rebuild front rooted ns) windows ≠ 0 ∨
      startsRooted windows (rebuild front rooted ns) = true := by
    by_cases hfront : front = []
    · right
      have hroot := hreads.root_eq
      rw [hreads.front_nil.mp hfront, List.drop_zero] at hroot
      rw [hroot, ← h.absolute hfront, htarget]
    · exact .inl fun hzero => hfront (hreads.front_nil.mpr hzero)
  have hpush := pushPart_anchored base hanchored
  by_cases hkeeps : KeepsDrive target base windows
  · refine ⟨fun hleads => ?_, fun hnot => absurd hkeeps hnot⟩
    obtain ⟨rfl, -, -, hzero, hprefixed⟩ := hkeeps
    have hfront := h.front_nil.mpr hzero
    have hroot : rooted = true := by rw [← h.absolute hfront, htarget]
    rw [if_pos (hreads.front_nil.mp hfront)] at hpush
    exact absurd hleads (not_leads_drive h hfront hroot hverbatim (drive_of_relative hprefixed hbase) hpush)
  · refine ⟨fun _ => hkeeps, fun _ => ?_⟩
    have hplain : pushPart windows base (rebuild front rooted ns) = rebuild front rooted ns := by
      rw [hpush]
      split_ifs with hzero
      · have hbare : prefixLength base windows = 0 := by
          cases windows with
          | false => rfl
          | true =>
            by_contra hprefixed
            exact hkeeps ⟨rfl, htarget, hbase, h.front_nil.mp (hreads.front_nil.mpr hzero), hprefixed⟩
        rw [hbare, List.take_zero, List.nil_append]
      · rw [List.nil_append]
    exact h.leads hverbatim (by rw [hplain]; exact hreads) (by rw [hplain]; exact h.not_verbatim_rebuild) fun _ _ => rfl

/-! Steps from the base to the target. -/

theorem intercalate_eq_nil (h : ∀ n ∈ ns, ProperName windows n) : List.intercalate [SLASH] ns = [] ↔ ns = [] := by
  constructor
  · intro hnil
    have hnames := names_intercalate h
    rw [hnil, names_nil] at hnames
    exact hnames.symm
  · rintro rfl
    rfl

theorem answer_piece (h : ∀ n ∈ ns, ProperName windows n) :
    (if (answer [] ns).1 = [] then [DOT] else (answer [] ns).1) = piece ns := by
  have hanswer : (answer [] ns).1 = List.intercalate [SLASH] ns := rfl
  rw [hanswer, piece]
  simp only [intercalate_eq_nil h]

theorem leads_names {r : Bytes} {nt nb c t b : List Bytes} (ht : Reads windows target front rooted nt)
    (hb : Reads windows base front rooted nb) (hverbatim : isVerbatim target windows = false)
    (hverbatim' : isVerbatim base windows = false) (hnt : nt = c ++ t) (hnb : nb = c ++ b) (hup : dots ∉ b)
    (hr : r = piece (List.replicate b.length dots ++ t)) (hextends : Extends windows base)
    (hfirst : windows = true → b = [] → ∀ n ∈ t.head?, isDrive n = false) : Leads target base windows r := by
  have hproper : ∀ n ∈ List.replicate b.length dots ++ t, ProperName windows n := by
    intro n hn
    rcases List.mem_append.mp hn with hn | hn
    · rw [List.eq_of_mem_replicate hn]
      exact properName_dots
    · exact ht.proper n (hnt ▸ List.mem_append_right _ hn)
  have hfirst' : windows = true → ∀ n ∈ (List.replicate b.length dots ++ t).head?, isDrive n = false := by
    intro hw n hn
    cases b with
    | nil => exact hfirst hw rfl n hn
    | cons x b =>
      obtain rfl : dots = n := by simpa [List.replicate_succ] using hn
      rfl
  have hpush := reads_push hb hverbatim' hextends hproper hfirst'
  rw [hr]
  refine ht.leads hverbatim hpush (not_verbatim_push hverbatim' hproper hfirst') fun q stack => ?_
  rw [hnt, hnb, List.append_assoc, resolve_append dots q stack c, resolve_down_back hup, ← resolve_append]

/-- Both are one prefix. -/
theorem bare_of_not_extends {nt : List Bytes} (ht : Reads true target front rooted nt)
    (hb : Reads true base front rooted ns) (hdouble : isDouble base true = true)
    (hnil : base.drop (prefixLength base true) = []) :
    rooted = false ∧ ns = [] ∧ nt = [] ∧ target.map fold = base.map fold ∧ prefixLength base true = base.length := by
  have hroot := hb.root_eq
  have hns := hb.names_eq
  rw [hnil] at hroot hns
  have hlength : prefixLength base true = base.length := by
    have hle := prefixLength_le base true
    rw [List.drop_eq_nil_iff] at hnil
    omega
  have hbase : base.map fold = front := by
    rw [← hb.front_eq, hlength, List.take_length]
    rfl
  have hdouble' : isDouble target true = true := by
    obtain ⟨a, b, l, rfl, ha, hb'⟩ := isDouble_iff.mp hdouble
    have hfront : (target.take (prefixLength target true)).map fold = fold a :: fold b :: l.map fold := by
      rw [← List.map_cons, ← List.map_cons, hbase]
      exact ht.front_eq
    have htext : target.map fold = fold a :: fold b :: (l.map fold ++ (target.drop (prefixLength target true)).map fold) := by
      conv_lhs => rw [← List.take_append_drop (prefixLength target true) target, List.map_append, hfront]
      rfl
    exact isDouble_of_fold (by rw [isSeparator_fold, ha]) (by rw [isSeparator_fold, hb']) htext
  have hrest : target.drop (prefixLength target true) = [] := by
    refine nil_of_closed (closed_after_front hdouble') ?_
    rw [ht.root_eq, ← hroot]
    rfl
  have hnt := ht.names_eq
  rw [hrest] at hnt
  refine ⟨hroot.symm, hns.symm, hnt.symm, ?_, hlength⟩
  rw [hbase, ← ht.front_eq]
  conv_lhs => rw [← List.take_append_drop (prefixLength target true) target, hrest, List.append_nil]
  rfl

theorem names_dot : names windows [DOT] = [] := by
  cases windows <;> rfl

theorem pushPart_dot (hverbatim : isVerbatim base windows = false) :
    (pushPart windows base [DOT] = base ++ [DOT] ∧ (base = [] ∨ separatorAt base windows base.length = true ∨
      (prefixLength base windows = base.length ∧ base.getLast? = some COLON))) ∨
    (pushPart windows base [DOT] = base ++ [SLASH, DOT] ∧ base ≠ [] ∧ separatorAt base windows base.length = false ∧
      ¬ (prefixLength base windows = base.length ∧ base.getLast? = some COLON)) :=
  pushPart_relative (by cases windows <;> rfl) (by cases windows <;> rfl) hverbatim

theorem pushPart_dot_eq (hverbatim : isVerbatim base windows = false) :
    ∃ x, pushPart windows base [DOT] = base ++ x ∧ 0 < x.length ∧ foldPrefix windows x = x := by
  rcases pushPart_dot hverbatim with ⟨heq, -⟩ | ⟨heq, -⟩
  · exact ⟨[DOT], heq, Nat.one_pos, by cases windows <;> rfl⟩
  · exact ⟨[SLASH, DOT], heq, Nat.two_pos, by cases windows <;> rfl⟩

/-- `.` after a share makes another share or a root of it. -/
theorem not_leads_share (hdouble : isDouble base true = true) (hmarked : isMarked base true = false)
    (hverbatim : isVerbatim base true = false) (hlength : prefixLength base true = base.length)
    (ht : Reads true target front false []) (hb : Reads true base front false [])
    (hverbatim' : isVerbatim target true = false) : ¬ Leads target base true [DOT] := by
  obtain ⟨x, hpush, hx, hfold⟩ := pushPart_dot_eq hverbatim
  have hbase : base.map fold = front := by
    rw [← hb.front_eq, hlength, List.take_length]
    rfl
  have hne : front ≠ [] := by
    intro hnil
    rw [hb.front_nil] at hnil
    have hpos := prefixLength_pos_of_double hdouble
    omega
  have htarget : normalize target true = front := by
    have hunmarked : isMarked target true = false := by
      rw [← isMarked_front, ht.front_eq, ← hbase, isMarked_map_fold, hmarked]
    rw [ht.normalize_build hverbatim' fun _ => hunmarked]
    simp [build, hne, resolveNames, List.intercalate]
  have hnot : isVerbatim (base ++ x) true = false := not_verbatim_append (m := []) (by rwa [List.append_nil]) hfold
  have hjoin : join true [base, [DOT]] = (base ++ x).map fold := by
    rw [join_pair, hpush, finish_eq hnot]
    rfl
  have hnot' : isVerbatim ((base ++ x).map fold) true = false := not_verbatim_foldPrefix (base ++ x) true
  rw [Leads, hjoin, htarget]
  intro heq
  have hdouble' : isDouble ((base ++ x).map fold) true = true := by
    obtain ⟨a, b, l, rfl, ha, hb'⟩ := isDouble_iff.mp hdouble
    rw [isDouble_map_fold]
    exact isDouble_iff.mpr ⟨a, b, l ++ x, rfl, ha, hb'⟩
  by_cases hmarked' : isMarked ((base ++ x).map fold) true = true
  · obtain ⟨a, b, m, s, l, htext, hm⟩ := exists_marker hmarked'
    have hout : Marker SLASH SLASH m SLASH := ⟨rfl, rfl, hm.mark, rfl⟩
    rw [htext] at heq hnot'
    rw [normalize_marked hm hnot', markedOutcome] at heq
    have hfalse : isMarked front true = false := by rw [← hbase, isMarked_map_fold, hmarked]
    rw [← heq, hout.isMarked] at hfalse
    cases hfalse
  · have hrespects := (respects_share hdouble' (by simpa using hmarked') hnot').1
    have hfront : Reads true front front false [] := by
      have hfolded := hb.foldPrefix
      rw [show foldPrefix true base = front from hbase] at hfolded
      exact hfolded
    have hfoldFront : front.map fold = front := by
      rw [← hbase, List.map_map]
      exact List.map_congr_left fun b _ => fold_fold b
    rw [heq, components_eq, components_eq, resolvedComponents_view, view_of_fold hfoldFront] at hrespects
    obtain ⟨hsame, hroot, -⟩ := written_injective hrespects
    have htake : front.take (prefixLength front true) = front := by
      have hfull := hfront.front_eq
      rw [show foldPrefix true (front.take (prefixLength front true)) = (front.take (prefixLength front true)).map fold
        from rfl, map_fold_take hfoldFront] at hfull
      exact hfull
    rw [htake] at hsame
    rw [hfront.root_eq] at hroot
    have hnil := nil_of_closed (closed_after_front hdouble') hroot.symm
    have hall := List.take_append_drop (prefixLength ((base ++ x).map fold) true) ((base ++ x).map fold)
    rw [hnil, List.append_nil] at hall
    rw [hall, ← hbase] at hsame
    have hsize := congrArg List.length hsame
    simp only [foldPrefix, List.length_map, List.length_append] at hsize
    omega

/-- The part a text ends with. -/
theorem exists_last_part (windows : Bool) (l : Bytes) :
    ∃ l₀ q, l = l₀ ++ q ∧ (∀ b ∈ q, isSeparator windows b = false) ∧
      (l₀ = [] ∨ ∃ l₁ b, l₀ = l₁ ++ [b] ∧ isSeparator windows b = true) := by
  induction l using List.reverseRecOn with
  | nil => exact ⟨[], [], rfl, nofun, .inl rfl⟩
  | append_singleton l b ih =>
    by_cases hb : isSeparator windows b = true
    · exact ⟨l ++ [b], [], by simp, nofun, .inr ⟨l, b, rfl, hb⟩⟩
    · obtain ⟨l₀, q, rfl, hq, hl₀⟩ := ih
      refine ⟨l₀, q ++ [b], by simp, fun c hc => ?_, hl₀⟩
      rcases List.mem_append.mp hc with hc | hc
      · exact hq c hc
      · rw [List.mem_singleton.mp hc]
        simpa using hb

theorem names_last_part {l₀ q : Bytes} (hl₀ : l₀ = [] ∨ ∃ l₁ b, l₀ = l₁ ++ [b] ∧ isSeparator windows b = true)
    (hq : ProperName windows q) : names windows (l₀ ++ q) = names windows l₀ ++ [q] := by
  rcases hl₀ with rfl | ⟨l₁, b, rfl, hb⟩
  · exact names_name hq
  · rw [names_snoc l₁ hb, List.append_assoc, List.singleton_append, names_separated l₁ hb, names_name hq]

/-- A part that ends with a colon is another one with a dot after it. -/
theorem resolveNames_dot_ne {l : Bytes} (hlast : l.getLast? = some COLON) :
    resolveNames true (names true (l ++ [DOT])) ≠ resolveNames true (names true l) := by
  obtain ⟨l₀, q, rfl, hq, hl₀⟩ := exists_last_part true l
  have hqne : q ≠ [] := by
    rintro rfl
    rcases hl₀ with rfl | ⟨l₁, b, rfl, hb⟩
    · cases hlast
    · rw [List.append_nil, List.getLast?_concat, Option.some.injEq] at hlast
      rw [hlast] at hb
      cases hb
  have hcolon : COLON ∈ q := by
    rw [List.getLast?_append_of_ne_nil _ hqne] at hlast
    exact List.mem_of_getLast? hlast
  have hproper : ∀ x : Bytes, COLON ∈ x → (∀ b ∈ x, isSeparator true b = false) → ProperName true x ∧ x ≠ dots := by
    intro x hx hsep
    refine ⟨⟨⟨List.ne_nil_of_mem hx, hsep⟩, ?_⟩, ?_⟩
    · rintro rfl
      revert hx
      decide
    · rintro rfl
      revert hx
      decide
  have hq' : ∀ b ∈ q ++ [DOT], isSeparator true b = false := by
    intro b hb
    rcases List.mem_append.mp hb with hb | hb
    · exact hq b hb
    · rw [List.mem_singleton.mp hb]
      rfl
  obtain ⟨hp, hdots⟩ := hproper q hcolon hq
  obtain ⟨hp', hdots'⟩ := hproper (q ++ [DOT]) (List.mem_append_left _ hcolon) hq'
  rw [List.append_assoc, names_last_part hl₀ hp', names_last_part hl₀ hp, resolveNames, resolveNames, resolve_append,
    resolve_append, resolve_cons, resolve_cons, resolve_nil, resolve_nil, step_name hdots', step_name hdots]
  intro heq
  rw [List.reverse_inj, List.cons.injEq] at heq
  have hlength := congrArg List.length heq.1
  rw [List.length_append, List.length_singleton] at hlength
  omega

theorem markedOutcome_injective {m m' : UInt8} {l l' : Bytes} (h : markedOutcome m l = markedOutcome m' l') :
    resolveNames true (names true l) = resolveNames true (names true l') := by
  have hproper : ∀ l, ∀ n ∈ resolveNames true (names true l), ProperName true n :=
    fun l => properName_resolveNames fun n hn => properName_of_mem_names hn
  simp only [markedOutcome, List.cons.injEq] at h
  rw [← names_intercalate (hproper l), h.2.2.2.2, names_intercalate (hproper l')]

theorem markedOutcome_congr {m : UInt8} {l l' : Bytes} (h : names true l = names true l') :
    markedOutcome m l = markedOutcome m l' := by
  rw [markedOutcome, h, markedOutcome]

theorem leads_marked (hmarked : isMarked base true = true) (hverbatim : isVerbatim base true = false)
    (hlength : prefixLength base true = base.length) (htarget : target.map fold = base.map fold)
    (hverbatim' : isVerbatim target true = false) :
    Leads target base true [DOT] ↔ base.getLast? ≠ some COLON := by
  have hmarked' : isMarked target true = true := by rw [← isMarked_map_fold, htarget, isMarked_map_fold, hmarked]
  obtain ⟨a, b, m, s, l, rfl, hm⟩ := exists_marker hmarked
  obtain ⟨a', b', m', s', l', rfl, hm'⟩ := exists_marker hmarked'
  simp only [List.map_cons, List.cons.injEq, hm.fold_mark, hm'.fold_mark] at htarget
  obtain ⟨-, -, rfl, -, hl⟩ := htarget
  have hnormal : normalize (a' :: b' :: m' :: s' :: l') true = markedOutcome m' l := by
    rw [normalize_marked hm' hverbatim']
    refine markedOutcome_congr ?_
    rw [← names_map_fold l', hl, names_map_fold]
  have hjoin : ∀ x, foldPrefix true x = x →
      pushPart true (a :: b :: m' :: s :: l) [DOT] = (a :: b :: m' :: s :: l) ++ x →
      normalize (join true [a :: b :: m' :: s :: l, [DOT]]) true = markedOutcome m' (l ++ x) := by
    intro x hx hpush
    have hnot : isVerbatim (a :: b :: m' :: s :: (l ++ x)) true = false :=
      not_verbatim_append (m := []) (l := a :: b :: m' :: s :: l) (by rwa [List.append_nil]) hx
    have hnot' : isVerbatim (fold a :: fold b :: m' :: fold s :: (l ++ x).map fold) true = false := by
      have hfolded := not_verbatim_foldPrefix (a :: b :: m' :: s :: (l ++ x)) true
      simpa only [foldPrefix, if_true, List.map_cons, hm.fold_mark] using hfolded
    rw [join_pair, hpush]
    show normalize (finish (a :: b :: m' :: s :: (l ++ x)) true) true = _
    rw [finish_eq hnot]
    simp only [foldPrefix, if_true, List.map_cons, hm.fold_mark]
    rw [normalize_marked hm.folded hnot']
    exact markedOutcome_congr (names_map_fold _)
  have hlast : (a :: b :: m' :: s :: l).getLast? = some COLON ↔ l.getLast? = some COLON := by
    cases l using List.reverseRecOn with
    | nil =>
      have hne : s ≠ COLON := by
        rintro rfl
        exact absurd hm.last (by decide)
      simp [hne]
    | append_singleton l c =>
      rw [show a :: b :: m' :: s :: (l ++ [c]) = (a :: b :: m' :: s :: l) ++ [c] from rfl, List.getLast?_concat,
        List.getLast?_concat]
  rw [Leads, hnormal]
  constructor
  · intro hleads hcolon
    have hpush : pushPart true (a :: b :: m' :: s :: l) [DOT] = (a :: b :: m' :: s :: l) ++ [DOT] := by
      rcases pushPart_dot hverbatim with ⟨heq, -⟩ | ⟨-, -, -, hnot⟩
      · exact heq
      · exact absurd ⟨hlength, hcolon⟩ hnot
    rw [hjoin [DOT] rfl hpush] at hleads
    exact resolveNames_dot_ne (hlast.mp hcolon) (markedOutcome_injective hleads)
  · intro hcolon
    rcases pushPart_dot hverbatim with ⟨heq, hend⟩ | ⟨heq, -, -, -⟩
    · rw [hjoin [DOT] rfl heq]
      refine markedOutcome_congr ?_
      cases l using List.reverseRecOn with
      | nil => exact names_dot
      | append_singleton l c =>
        have hc : isSeparator true c = true := by
          rcases hend with h | h | h
          · cases h
          · rw [show a :: b :: m' :: s :: (l ++ [c]) = (a :: b :: m' :: s :: l) ++ [c] from rfl, separatorAt_last] at h
            exact h
          · exact absurd h.2 hcolon
        rw [names_snoc l hc, List.append_assoc, List.singleton_append, names_separated l hc, names_dot, List.append_nil]
    · rw [hjoin [SLASH, DOT] rfl heq]
      refine markedOutcome_congr ?_
      rw [names_separated l isSeparator_slash, names_dot, List.append_nil]

/-- Readings of which one goes on with an anchor where the other ends. -/
theorem split_anchor {fb : Bytes} {rb : Bool} {nb : List Bytes} {c : Kind × Bytes} {T : List (Kind × Bytes)}
    (h : written front rooted ns = written fb rb nb ++ c :: T) (hc : c.1.anchors = true) :
    rb = false ∧ nb = [] ∧
      ((fb = [] ∧ c :: T = written front rooted ns) ∨
        (fb = front ∧ front ≠ [] ∧ rooted = true ∧ c :: T = written [] true ns)) := by
  have hname : ∀ W : List (Kind × Bytes), ns.map nameComponent ≠ W ++ c :: T := by
    intro W heq
    have hmem : c ∈ ns.map nameComponent := by
      rw [heq]
      exact List.mem_append_right _ List.mem_cons_self
    obtain ⟨n, -, rfl⟩ := List.mem_map.mp hmem
    rw [nameComponent_anchors] at hc
    cases hc
  generalize hW : written fb rb nb = W at h
  cases W with
  | nil =>
    obtain ⟨hfb, hrb, hnb⟩ := written_injective (show written fb rb nb = written [] false [] from hW)
    exact ⟨hrb, hnb, .inl ⟨hfb, h.symm⟩⟩
  | cons x W =>
    by_cases hfront : front = []
    · cases rooted with
      | false =>
        rw [hfront] at h
        exact absurd h (hname (x :: W))
      | true =>
        rw [hfront, written, if_pos rfl, List.nil_append, if_pos rfl, List.singleton_append, List.cons_append,
          List.cons.injEq] at h
        exact absurd h.2 (hname W)
    · cases rooted with
      | false =>
        rw [written, if_neg hfront, List.singleton_append, List.cons_append, List.cons.injEq] at h
        exact absurd h.2 (hname W)
      | true =>
        rw [written, if_neg hfront, List.singleton_append, if_pos rfl, List.singleton_append, List.cons_append,
          List.cons.injEq] at h
        cases W with
        | nil =>
          obtain ⟨hfb, hrb, hnb⟩ := written_injective
            (show written fb rb nb = written front false [] by rw [hW, ← h.1, written, if_neg hfront]; rfl)
          exact ⟨hrb, hnb, .inr ⟨hfb, hfront, rfl, h.2.symm⟩⟩
        | cons y W =>
          rw [List.cons_append, List.cons.injEq] at h
          exact absurd h.2.2 (hname W)

theorem leads_anchored {r fb : Bytes} {rb : Bool} {nb : List Bytes} {c : Kind × Bytes} {T : List (Kind × Bytes)}
    (ht : Reads windows target front rooted ns) (hb : Reads windows base fb rb nb)
    (hverbatim : isVerbatim target windows = false) (hverbatim' : isVerbatim base windows = false)
    (habsolute : isAbsolute target windows = isAbsolute base windows)
    (h : written front rooted ns = written fb rb nb ++ c :: T) (hc : c.1.anchors = true)
    (hr : r = (let answer := ((c :: T).foldl appendPart ([], false)).1; if answer = [] then [DOT] else answer)) :
    Leads target base windows r ∧ ¬ BarePrefix target base windows := by
  have hproper := ht.proper
  obtain ⟨rfl, rfl, ⟨rfl, hT⟩ | ⟨rfl, hfront, rfl, hT⟩⟩ := split_anchor h hc
  · have hfront : front ≠ [] := by
      intro hnil
      rw [ht.absolute hnil, hb.absolute rfl] at habsolute
      rw [hnil, habsolute] at hT
      have hmem : c ∈ written [] false ns := hT ▸ List.mem_cons_self
      obtain ⟨n, -, rfl⟩ := List.mem_map.mp (show c ∈ ns.map nameComponent from hmem)
      rw [nameComponent_anchors] at hc
      cases hc
    have hne : rebuild front rooted ns ≠ [] := fun hnil => hfront (List.append_eq_nil_iff.mp hnil).1
    have hr' : r = rebuild front rooted ns := by
      rw [hr, hT, foldl_written]
      exact if_neg hne
    have hreads := ht.rebuild fun _ hnil => absurd hnil hfront
    have hprefixed : prefixLength (rebuild front rooted ns) windows ≠ 0 :=
      fun hzero => hfront (hreads.front_nil.mpr hzero)
    have hpush : pushPart windows base r = rebuild front rooted ns := by
      rw [hr', pushPart_anchored base (.inl hprefixed), if_neg hprefixed, List.nil_append]
    refine ⟨ht.leads hverbatim (by rw [hpush]; exact hreads) (by rw [hpush]; exact ht.not_verbatim_rebuild)
      fun _ _ => rfl, ?_⟩
    rintro ⟨rfl, hdouble, -⟩
    have hpos := prefixLength_pos_of_double hdouble
    rw [hb.front_nil.mp rfl] at hpos
    exact absurd hpos (lt_irrefl 0)
  · have hr' : r = SLASH :: List.intercalate [SLASH] ns := by
      rw [hr, hT, foldl_written]
      rfl
    cases windows with
    | false => exact absurd hb.front_eq.symm hfront
    | true =>
      have hstart : startsRooted true r = true := by
        rw [hr']
        rfl
      have hdouble : isDouble r true = false := by rw [hr', isDouble_cons, head_intercalate hproper, Bool.and_false]
      have hdrive : isDrive r = false := by
        rw [hr']
        exact not_drive_of_separator rfl _
      have hzero := (prefixes_none hdrive hdouble).1
      have hpush : pushPart true base r = base.take (prefixLength base true) ++ r := by
        rw [pushPart_anchored base (.inr hstart), if_pos hzero]
      have hfold : foldPrefix true r = r := by
        rw [hr', ← List.singleton_append, foldPrefix_append, foldPrefix_slash, foldPrefix_intercalate hproper]
      have hnames : names true r = ns := by rw [hr', names_cons_sep isSeparator_slash, names_intercalate hproper]
      have hmore : target.drop (prefixLength target true) ≠ [] := by
        intro hnil
        have hroot := ht.root_eq
        rw [hnil] at hroot
        cases hroot
      have hreads : Reads true (pushPart true base r) fb (startsRooted true r) (names true r) := by
        refine ht.replace ?_ fun hnot => ⟨fun _ => ⟨fun b hb' => ?_, fun hnil => absurd hnil hmore⟩, fun hnone => ?_⟩
        · rw [hpush, List.map_append]
          exact congrArg (· ++ r.map fold) hb.front_eq
        · rw [hr'] at hb'
          obtain rfl : SLASH = b := by simpa using hb'
          rfl
        · exact absurd (ht.front_nil.mpr (prefixes_none hnot hnone).1) hfront
      rw [hstart, hnames] at hreads
      have hnot : isVerbatim (pushPart true base r) true = false := by
        rw [hpush]
        refine not_verbatim_append (m := base.drop (prefixLength base true)) ?_ hfold
        rw [List.take_append_drop, hverbatim']
      refine ⟨ht.leads hverbatim hreads hnot fun _ _ => rfl, ?_⟩
      rintro ⟨-, -, hlength, hsame, -⟩
      have hsize : prefixLength target true = target.length := by
        rw [← prefixLength_map_fold, hsame, prefixLength_map_fold, hlength, ← List.length_map fold, ← hsame,
          List.length_map]
      rw [hsize, List.drop_length] at hmore
      exact hmore rfl

theorem relative_leads_back (target base : Bytes) (windows : Bool) (r : Bytes)
    (h : relative windows target base = .ok r) (hdrive : ¬ DriveFront target base windows) :
    Leads target base windows r ↔ ¬ KeepsDrive target base windows ∧ ¬ BarePrefix target base windows := by
  obtain ⟨hverbatim, hverbatim', hcases⟩ := relative_ok h
  rcases hcases with ⟨htarget, hbase, rfl⟩ | ⟨habsolute, T, B, hrel⟩
  · rw [leads_clean hverbatim htarget hbase]
    exact ⟨fun hnot => ⟨hnot, not_bare_of_relative hbase⟩, fun hnot => hnot.1⟩
  · have hkeeps : ¬ KeepsDrive target base windows := by
      rintro ⟨-, htarget, hbase, -⟩
      rw [htarget, hbase] at habsolute
      cases habsolute
    obtain ⟨ft, rt, nt, ht⟩ : ∃ f r n, Reads windows target f r n := ⟨_, _, _, reads_self _ _⟩
    obtain ⟨fb, rb, nb, hb⟩ : ∃ f r n, Reads windows base f r n := ⟨_, _, _, reads_self _ _⟩
    obtain ⟨C, hT, hB⟩ := hrel.parts
    rw [ht.map_view] at hT
    rw [hb.map_view] at hB
    by_cases hanchor : ∀ c ∈ T.head?, c.1.anchors = false
    · obtain ⟨c, t, hnt, hC, rfl⟩ := split_written hT hanchor
      obtain ⟨c', b, hnb, hC', rfl⟩ := split_written hB fun d hd => (hrel.anchors d hd).1
      obtain ⟨rfl, rfl, rfl⟩ := written_injective (hC.symm.trans hC')
      have hup : dots ∉ b := by
        intro hm
        exact hrel.up (nameComponent dots) (List.mem_map.mpr ⟨dots, hm, rfl⟩) rfl
      have hr : r = piece (List.replicate b.length dots ++ t) := by
        have hproper : ∀ n ∈ List.replicate b.length dots ++ t, ProperName windows n := by
          intro n hn
          rcases List.mem_append.mp hn with hn | hn
          · rw [List.eq_of_mem_replicate hn]
            exact properName_dots
          · exact ht.proper n (hnt ▸ List.mem_append_right _ hn)
        rw [hrel.text, List.length_map, foldl_names]
        exact answer_piece hproper
      have hfirst : windows = true → b = [] → ∀ n ∈ t.head?, isDrive n = false := by
        intro hw hnil n hn
        by_contra hnot
        rw [Bool.not_eq_false] at hnot
        obtain ⟨t', rfl⟩ : ∃ t', t = n :: t' := by
          cases t with
          | nil => cases hn
          | cons m t =>
            obtain rfl : m = n := by simpa using hn
            exact ⟨t, rfl⟩
        have hne : n ≠ dots := by
          rintro rfl
          cases hnot
        refine hdrive ⟨hw, n, t'.map nameComponent, hnot, ?_⟩
        rw [components_eq, components_eq, ht.map_view, hb.map_view, hT, hB, hnil, List.map_nil, List.append_nil,
          List.map_cons, nameComponent, if_neg hne]
      by_cases hextends : Extends windows base
      · have hleads := leads_names ht hb hverbatim hverbatim' hnt hnb hup hr hextends hfirst
        refine ⟨fun _ => ⟨hkeeps, ?_⟩, fun _ => hleads⟩
        rintro ⟨rfl, hdouble, hlength, -⟩
        have hmore := hextends rfl hdouble
        rw [hlength, List.drop_length] at hmore
        exact hmore rfl
      · rw [Extends] at hextends
        push Not at hextends
        obtain ⟨rfl, hdouble, hnil⟩ := hextends
        obtain ⟨rfl, rfl, rfl, hsame, hlength⟩ := bare_of_not_extends ht hb hdouble hnil
        obtain ⟨-, rfl⟩ := List.append_eq_nil_iff.mp hnb.symm
        obtain ⟨-, rfl⟩ := List.append_eq_nil_iff.mp hnt.symm
        have hr' : r = [DOT] := hr
        rw [hr']
        by_cases hmarked : isMarked base true = true
        · rw [leads_marked hmarked hverbatim' hlength hsame hverbatim]
          refine ⟨fun hne => ⟨hkeeps, fun hbare => hne (hbare.2.2.2.2 hmarked)⟩, fun hnot hcolon => hnot.2 ?_⟩
          exact ⟨rfl, hdouble, hlength, hsame, fun _ => hcolon⟩
        · have hnot := not_leads_share hdouble (by simpa using hmarked) hverbatim' hlength ht hb hverbatim
          refine ⟨fun hleads => absurd hleads hnot, fun hbare => absurd ?_ hbare.2⟩
          exact ⟨rfl, hdouble, hlength, hsame, fun hm => absurd hm hmarked⟩
    · push Not at hanchor
      obtain ⟨c, hc, hkind⟩ := hanchor
      rw [Bool.ne_false_iff] at hkind
      obtain ⟨T', rfl⟩ : ∃ T', T = c :: T' := by
        cases T with
        | nil => cases hc
        | cons d T =>
          obtain rfl : d = c := by simpa using hc
          exact ⟨T, rfl⟩
      have hBnil : B = [] := by
        cases B with
        | nil => rfl
        | cons d B =>
          have hfalse := (hrel.anchors d rfl).2 c rfl
          rw [hkind] at hfalse
          cases hfalse
      subst hBnil
      rw [List.append_nil] at hB
      rw [← hB] at hT
      obtain ⟨hleads, hbare⟩ := leads_anchored ht hb hverbatim hverbatim' habsolute hT hkind hrel.text
      exact ⟨fun _ => ⟨hkeeps, hbare⟩, fun _ => hleads⟩

theorem not_driveFront_sibling : ¬ DriveFront [97, 47, 98, 47, 99] [97, 92, 100] true := by
  rintro ⟨-, n, rest, -, heq⟩
  have htarget : (components [97, 47, 98, 47, 99] true).map (foldComponent true) =
      [(.NORMAL, [97]), (.NORMAL, [98]), (.NORMAL, [99])] := by decide
  have hbase : (components [97, 92, 100] true).map (foldComponent true) = [(.NORMAL, [97]), (.NORMAL, [100])] := by
    decide
  rw [htarget, hbase] at heq
  simp at heq

/-- `a/b/c` from `a\d` is `../b/c`. -/
theorem sibling_leads_back :
    relative true [97, 47, 98, 47, 99] [97, 92, 100] = .ok [46, 46, 47, 98, 47, 99] ∧
      ¬ DriveFront [97, 47, 98, 47, 99] [97, 92, 100] true ∧
      (Leads [97, 47, 98, 47, 99] [97, 92, 100] true [46, 46, 47, 98, 47, 99] ↔
        ¬ KeepsDrive [97, 47, 98, 47, 99] [97, 92, 100] true ∧ ¬ BarePrefix [97, 47, 98, 47, 99] [97, 92, 100] true) :=
  ⟨by decide, not_driveFront_sibling,
    relative_leads_back _ _ true _ (by decide) not_driveFront_sibling⟩

/-- From `//s/h` to itself is `.`, which after it is the root of the share. -/
theorem share_to_itself_differs :
    ¬ ∀ target base windows r, relative windows target base = .ok r → Leads target base windows r := by
  intro h
  have hleads := h [47, 47, 115, 47, 104] [47, 47, 115, 47, 104] true [46] (by decide)
  revert hleads
  unfold Leads
  decide

end Nupp.PathText
