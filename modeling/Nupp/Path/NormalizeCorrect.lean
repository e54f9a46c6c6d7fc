import Nupp.Path.PathStable

/-! Normalization and the component view: what the cursor reads from a normalized path
against what it reads from the path. -/

namespace Nupp.PathText

open Segments

variable {text front : Bytes} {windows rooted : Bool} {ns : List Bytes}

/-- The anchors of a path with their separators folded, and its names after each one that
`..` follows is cancelled. -/
def resolvedComponents (windows : Bool) (cs : List (Kind × Bytes)) : List (Kind × Bytes) :=
  let anchors := cs.filter (·.1.anchors)
  anchors.map (fun c => (c.1, foldPrefix windows c.2)) ++
    (resolve (.PARENT, dots) (anchors.any (·.1 = .ROOT)) [] (cs.filter (!·.1.anchors))).reverse

/-- Normalization keeps to the components, and once is enough. -/
def Respects (text : Bytes) (windows : Bool) : Prop :=
  components (normalize text windows) windows = resolvedComponents windows (components text windows) ∧
    normalize (normalize text windows) windows = normalize text windows

/-- The components of a written path. -/
def written (front : Bytes) (rooted : Bool) (ns : List Bytes) : List (Kind × Bytes) :=
  (if front = [] then [] else [(.PREFIX, front)]) ++
    ((if rooted then [(.ROOT, [SLASH])] else []) ++ ns.map nameComponent)

theorem nameComponent_up (n : Bytes) : nameComponent n = (.PARENT, dots) ↔ n = dots := by
  constructor
  · intro h
    exact congrArg Prod.snd h
  · rintro rfl
    rfl

theorem nameComponent_anchors (n : Bytes) : (nameComponent n).1.anchors = false := by
  rw [nameComponent]
  split_ifs <;> rfl

theorem filter_names (ns : List Bytes) : (ns.map nameComponent).filter (·.1.anchors) = [] ∧
    (ns.map nameComponent).filter (!·.1.anchors) = ns.map nameComponent := by
  rw [List.filter_eq_nil_iff, List.filter_eq_self]
  refine ⟨fun c hc => ?_, fun c hc => ?_⟩
  · obtain ⟨n, -, rfl⟩ := List.mem_map.mp hc
    simp [nameComponent_anchors]
  · obtain ⟨n, -, rfl⟩ := List.mem_map.mp hc
    simp [nameComponent_anchors]

theorem not_prefix_written {c : Kind × Bytes} (h : c ∈ written [] rooted ns) : c.1 ≠ .PREFIX := by
  rcases List.mem_append.mp (show c ∈ (if rooted then [(.ROOT, [SLASH])] else []) ++ ns.map nameComponent from h)
    with h | h
  · cases rooted with
    | true =>
      rw [List.mem_singleton.mp h]
      rintro ⟨⟩
    | false => cases h
  · obtain ⟨n, -, rfl⟩ := List.mem_map.mp h
    rw [nameComponent]
    split_ifs <;> rintro ⟨⟩

theorem prefix_mem_view (h : prefixLength text windows ≠ 0) :
    (Kind.PREFIX, text.take (prefixLength text windows)) ∈ view text windows := by
  simp [view, h]

theorem map_resolveNames (rooted : Bool) (ns : List Bytes) :
    (resolveNames rooted ns).map nameComponent =
      (resolve (.PARENT, dots) rooted [] (ns.map nameComponent)).reverse := by
  have hnil : ∀ s ∈ ([] : List Bytes), nameComponent s = (.PARENT, dots) ↔ s = dots := nofun
  obtain ⟨hmap, -⟩ := map_resolve nameComponent hnil (fun s (_ : s ∈ ns) => nameComponent_up s) rfl
  rw [resolveNames, List.map_reverse, hmap, List.map_nil]

theorem foldPrefix_root {rest : Bytes} (h : startsRooted windows rest = true) :
    foldPrefix windows (rest.take 1) = [SLASH] := by
  cases rest with
  | nil => cases h
  | cons b rest =>
    have hb : isSeparator windows b = true := h
    cases windows with
    | true => simp [foldPrefix, fold_separator hb]
    | false =>
      have hslash : b = SLASH := by simpa [isSeparator] using hb
      simp [foldPrefix, hslash]

theorem map_fold_foldPrefix (front : Bytes) : (foldPrefix true front).map fold = front.map fold := by
  simp [foldPrefix]

theorem foldPrefix_eq_nil : foldPrefix windows front = [] ↔ front = [] := List.map_eq_nil_iff

theorem resolvedComponents_view (text : Bytes) (windows : Bool) :
    let front := text.take (prefixLength text windows)
    let rest := text.drop (prefixLength text windows)
    resolvedComponents windows (view text windows) = written (foldPrefix windows front)
      (startsRooted windows rest) (resolveNames (startsRooted windows rest) (names windows rest)) := by
  intro front rest
  have hfront : prefixLength text windows = 0 ↔ front = [] := by
    have hle := prefixLength_le text windows
    have hlength : front.length = prefixLength text windows := List.length_take_of_le hle
    rw [← hlength, List.length_eq_zero_iff]
  obtain ⟨hanchors, hsteps⟩ := filter_names (names windows rest)
  have hview : view text windows = (if front = [] then [] else [(.PREFIX, front)]) ++
      ((if startsRooted windows rest then [(.ROOT, rest.take 1)] else []) ++
        (names windows rest).map nameComponent) := by
    simp only [view, hfront]
    rfl
  rw [hview, resolvedComponents, written, map_resolveNames]
  simp only [List.filter_append, hanchors, hsteps, foldPrefix_eq_nil]
  by_cases hroot : startsRooted windows rest = true
  · by_cases hnil : front = []
    · simp [hroot, hnil, Kind.anchors, foldPrefix_root hroot]
    · simp [hroot, hnil, Kind.anchors, foldPrefix_root hroot]
  · by_cases hnil : front = []
    · simp [hroot, hnil]
    · simp [hroot, hnil, Kind.anchors]

/-! Reading what was written. -/

theorem properName_resolveNames (h : ∀ n ∈ ns, ProperName windows n) :
    ∀ n ∈ resolveNames rooted ns, ProperName windows n := by
  intro n hn
  rcases mem_of_mem_resolve (List.mem_reverse.mp hn) with hn | hn
  · cases hn
  · exact h n hn

theorem resolveNames_resolveNames (rooted : Bool) (ns : List Bytes) :
    resolveNames rooted (resolveNames rooted ns) = resolveNames rooted ns := by
  have hsettled : Settled dots rooted (resolve dots rooted [] ns) :=
    (show Settled dots rooted [] from trivial).resolve ns
  rw [resolveNames, resolveNames, hsettled.resolve_reverse]

theorem head_intercalate (h : ∀ n ∈ ns, ProperName windows n) :
    startsRooted windows (List.intercalate [SLASH] ns) = false := by
  cases ns with
  | nil => rfl
  | cons n ns =>
    obtain ⟨⟨hne, hrun⟩, -⟩ := h n List.mem_cons_self
    obtain ⟨b, n, rfl⟩ := List.exists_cons_of_ne_nil hne
    have hb := hrun b List.mem_cons_self
    cases ns <;> simp [List.intercalate, List.intersperse, startsRooted, hb]

/-- A path written from its parts has them in it. -/
theorem build_parts (front : Bytes) (rooted : Bool) (h : ∀ n ∈ ns, ProperName windows n) :
    (build front rooted ns).take front.length = front ∧
      startsRooted windows ((build front rooted ns).drop front.length) = rooted ∧
      names windows ((build front rooted ns).drop front.length) = ns := by
  by_cases hdot : (ns = [] && front = [] && !rooted) = true
  · rw [build, if_pos hdot]
    simp only [Bool.and_eq_true, decide_eq_true_eq, Bool.not_eq_true'] at hdot
    obtain ⟨⟨rfl, rfl⟩, rfl⟩ := hdot
    cases windows <;> exact ⟨rfl, rfl, rfl⟩
  · rw [build, if_neg hdot, List.append_assoc, List.take_left, List.drop_left]
    cases rooted with
    | true => exact ⟨rfl, by simp [startsRooted, isSeparator_slash], by
        simp [names_cons_sep isSeparator_slash, names_intercalate h]⟩
    | false => exact ⟨rfl, head_intercalate h, names_intercalate h⟩

theorem view_build (h : ∀ n ∈ ns, ProperName windows n)
    (hfrontLength : prefixLength (build front rooted ns) windows = front.length) :
    view (build front rooted ns) windows = written front rooted ns := by
  obtain ⟨hfront, hroot, hnames⟩ := build_parts front rooted h
  rw [view, hfrontLength, hfront, hroot, hnames, written]
  have hslash : rooted = true → ((build front rooted ns).drop front.length).take 1 = [SLASH] := by
    rintro rfl
    simp [build]
  cases rooted with
  | true => simp [hslash rfl]
  | false => simp

theorem normalizeImpl_build (h : ∀ n ∈ ns, ProperName windows n) (hfold : foldPrefix windows front = front)
    (hfrontLength : normalizePrefix (build front rooted ns) windows = front.length) :
    normalizeImpl (build front rooted ns) windows = build front rooted (resolveNames rooted ns) := by
  obtain ⟨hfront, hroot, hnames⟩ := build_parts front rooted h
  rw [normalizeImpl_eq, hfrontLength, hfront, hroot, hnames, hfold]

theorem foldPrefix_foldPrefix (front : Bytes) : foldPrefix windows (foldPrefix windows front) = foldPrefix windows front := by
  cases windows <;> simp [foldPrefix]

theorem map_fold_intercalate (h : ∀ n ∈ ns, ProperName true n) :
    (List.intercalate [SLASH] ns).map fold = List.intercalate [SLASH] ns := by
  by_cases hne : ns = []
  · rw [hne]
    rfl
  · rw [map_fold_eq, splitOnP_intercalate rfl hne (fun n hn => (h n hn).1.2)]

theorem map_fold_build (h : ∀ n ∈ ns, ProperName true n) (hfold : front.map fold = front) :
    (build front rooted ns).map fold = build front rooted ns := by
  rw [build]
  split_ifs
  · rfl
  · rw [List.map_append, List.map_append, hfold, map_fold_intercalate h]
    rfl
  · rw [List.map_append, List.map_append, hfold, map_fold_intercalate h]
    rfl

theorem not_verbatim_of_fold {t : Bytes} (h : t.map fold = t) : isVerbatim t windows = false := by
  cases t with
  | nil => simp [isVerbatim]
  | cons b t =>
    have hb : fold b = b := (List.cons.inj h).1
    have hne : b ≠ BACKSLASH := by
      rintro rfl
      revert hb
      decide
    simp [isVerbatim, hne]

theorem not_verbatim_build (h : ∀ n ∈ ns, ProperName windows n) (hfold : foldPrefix windows front = front) :
    isVerbatim (build front rooted ns) windows = false := by
  cases windows with
  | false => rfl
  | true => exact not_verbatim_of_fold (map_fold_build h (by simpa [foldPrefix] using hfold))

section Same

variable (text windows) in
/-- The path a text is normalized to when both readers see its prefix. -/
def outcome : Bytes :=
  let front := text.take (prefixLength text windows)
  let rest := text.drop (prefixLength text windows)
  build (foldPrefix windows front) (startsRooted windows rest)
    (resolveNames (startsRooted windows rest) (names windows rest))

theorem normalize_outcome (hverbatim : isVerbatim text windows = false)
    (h : normalizePrefix text windows = prefixLength text windows) : normalize text windows = outcome text windows := by
  rw [normalize, hverbatim, normalizeImpl_eq, h]
  rfl

/-- Where the prefix is one to both readers, before and after, the components are kept. -/
theorem respects_of_prefixes (hverbatim : isVerbatim text windows = false)
    (h : normalizePrefix text windows = prefixLength text windows)
    (hread : prefixLength (outcome text windows) windows = prefixLength text windows)
    (hagain : normalizePrefix (outcome text windows) windows = prefixLength text windows) :
    Respects text windows := by
  have hlength : (foldPrefix windows (text.take (prefixLength text windows))).length = prefixLength text windows := by
    rw [foldPrefix, List.length_map, List.length_take_of_le (prefixLength_le text windows)]
  have hproper : ∀ r, ∀ n ∈ resolveNames r (names windows (text.drop (prefixLength text windows))),
      ProperName windows n := fun r => properName_resolveNames fun n hn => properName_of_mem_names hn
  have hfold : foldPrefix windows (foldPrefix windows (text.take (prefixLength text windows))) = _ :=
    foldPrefix_foldPrefix _
  rw [Respects, normalize_outcome hverbatim h, components_eq, components_eq, resolvedComponents_view]
  refine ⟨view_build (hproper _) (hread.trans hlength.symm), ?_⟩
  rw [normalize, show isVerbatim (outcome text windows) windows = false from not_verbatim_build (hproper _) hfold]
  show normalizeImpl (outcome text windows) windows = _
  rw [outcome, normalizeImpl_build (hproper _) hfold (hagain.trans hlength.symm), resolveNames_resolveNames]

theorem respects_posix (text : Bytes) : Respects text false :=
  respects_of_prefixes rfl rfl rfl rfl

theorem respects_drive (h : isDrive text = true) (hverbatim : isVerbatim text true = false) : Respects text true := by
  obtain ⟨hp, hn⟩ := prefixes_drive h
  have hout : isDrive (outcome text true) = true := by
    obtain ⟨c, l, rfl, hc⟩ := isDrive_iff.mp h
    have hfront : foldPrefix true ((c :: COLON :: l).take 2) = [c, COLON] := by
      simp only [foldPrefix, if_true, List.take_succ_cons, List.take_zero, List.map_cons, List.map_nil, fold_letter hc]
      rfl
    rw [outcome, hp, hfront]
    simp only [build, List.cons_ne_nil, decide_false, Bool.and_false, Bool.false_and, Bool.false_eq_true, if_false]
    exact isDrive_iff.mpr ⟨c, _, rfl, hc⟩
  obtain ⟨hp', hn'⟩ := prefixes_drive hout
  exact respects_of_prefixes hverbatim (hn.trans hp.symm) (hp'.trans hp.symm) (hn'.trans hp.symm)

theorem respects_share (h : isDouble text true = true) (hmarked : isMarked text true = false)
    (hverbatim : isVerbatim text true = false) : Respects text true := by
  obtain ⟨hp, hn⟩ := prefixes_share h hmarked
  have hclosed := closed_after_front h
  have hne := front_ne_nil (prefixLength_pos_of_double h)
  generalize hrest : text.drop (prefixLength text true) = rest at hclosed
  obtain ⟨rest', hrest'⟩ : ∃ rest', rest' = (if startsRooted true rest then [SLASH] else []) ++
      List.intercalate [SLASH] (resolveNames (startsRooted true rest) (names true rest)) := ⟨_, rfl⟩
  have hout : (outcome text true).map fold = (text.take (prefixLength text true)).map fold ++ rest'.map fold := by
    rw [outcome, hrest, build, if_neg (by simp [foldPrefix_eq_nil, hne]), List.append_assoc, ← hrest',
      List.map_append, map_fold_foldPrefix]
  obtain ⟨hdouble', hmarked', hp'⟩ : isDouble (outcome text true) true = true ∧
      isMarked (outcome text true) true = false ∧ prefixLength (outcome text true) true = prefixLength text true := by
    refine share_stable hout ?_ ?_ h hmarked
    · rw [hrest']
      cases hroot : startsRooted true rest with
      | true => exact fun c hc => by simp at hc; rw [← hc]; rfl
      | false =>
        rw [nil_of_closed hclosed hroot]
        rintro _ ⟨⟩
    · rw [hrest, hrest']
      rintro rfl
      rfl
  obtain ⟨hp'', hn''⟩ := prefixes_share hdouble' hmarked'
  exact respects_of_prefixes hverbatim (hn.trans hp.symm) hp' (hn''.trans (hp''.symm.trans hp'))

/-! A path without a prefix. -/

theorem outcome_none (hdrive : isDrive text = false) (hdouble : isDouble text true = false) :
    outcome text true = build [] (startsRooted true text) (resolveNames (startsRooted true text) (names true text)) := by
  obtain ⟨hp, -⟩ := prefixes_none hdrive hdouble
  simp [outcome, hp, foldPrefix]

theorem respects_rooted (hdrive : isDrive text = false) (hdouble : isDouble text true = false)
    (hroot : startsRooted true text = true) (hverbatim : isVerbatim text true = false) : Respects text true := by
  obtain ⟨hp, hn⟩ := prefixes_none hdrive hdouble
  have hproper : ∀ n ∈ resolveNames true (names true text), ProperName true n :=
    properName_resolveNames fun n hn => properName_of_mem_names hn
  have hout : outcome text true = SLASH :: List.intercalate [SLASH] (resolveNames true (names true text)) := by
    rw [outcome_none hdrive hdouble, hroot]
    simp [build]
  have hdrive' : isDrive (outcome text true) = false := by
    rw [hout]
    exact not_drive_of_separator rfl _
  have hdouble' : isDouble (outcome text true) true = false := by
    rw [hout, isDouble_cons, head_intercalate hproper, Bool.and_false]
  obtain ⟨hp', hn'⟩ := prefixes_none hdrive' hdouble'
  exact respects_of_prefixes hverbatim (hn.trans hp.symm) (hp'.trans hp.symm) (hn'.trans hp.symm)

theorem isDrive_intercalate (h : ∀ n ∈ ns, ProperName true n) :
    isDrive (List.intercalate [SLASH] ns) = ns.head?.any isDrive := by
  cases ns with
  | nil => rfl
  | cons n ns =>
    obtain ⟨⟨hne, hrun⟩, -⟩ := h n List.mem_cons_self
    match n, hne with
    | [c], _ => cases ns <;> simp [List.intercalate, List.intersperse, isDrive, SLASH, COLON]
    | c :: d :: n, _ => cases ns <;> simp [List.intercalate, List.intersperse, isDrive]

/-- A relative path keeps its components unless a name like a drive comes to its front. -/
theorem respects_relative (hdrive : isDrive text = false) (hdouble : isDouble text true = false)
    (hroot : startsRooted true text = false) (hverbatim : isVerbatim text true = false) :
    Respects text true ↔ ∀ n, Bottom dots (names true text) n → isDrive n = false := by
  obtain ⟨hp, hn⟩ := prefixes_none hdrive hdouble
  have hproper : ∀ n ∈ resolveNames false (names true text), ProperName true n :=
    properName_resolveNames fun n hn => properName_of_mem_names hn
  have hout : outcome text true = build [] false (resolveNames false (names true text)) := by
    rw [outcome_none hdrive hdouble, hroot]
  have hdouble' : isDouble (outcome text true) true = false := by
    have hstart : startsRooted true (outcome text true) = false := by
      rw [hout]
      exact (build_parts [] false hproper).2.1
    generalize outcome text true = out at hstart
    cases out with
    | nil => rfl
    | cons b out =>
      have hb : isSeparator true b = false := hstart
      rw [isDouble_cons, hb, Bool.false_and]
  have hdrive' : isDrive (outcome text true) = (resolveNames false (names true text)).head?.any isDrive := by
    rw [hout]
    by_cases hnil : resolveNames false (names true text) = []
    · rw [hnil]
      rfl
    · simpa [build, hnil] using isDrive_intercalate hproper
  have hbottom : ∀ n, n ≠ dots → ((resolveNames false (names true text)).head? = some n ↔
      Bottom dots (names true text) n) := by
    intro n hne
    rw [resolveNames, List.head?_reverse, bottom_iff hne]
  constructor
  · intro hrespects n hbottom'
    by_contra hd
    have hdrive'' : isDrive n = true := by simpa using hd
    have hne : n ≠ dots := by
      rintro rfl
      cases hdrive''
    have hread : isDrive (outcome text true) = true := by
      rw [hdrive', (hbottom n hne).mpr hbottom']
      exact hdrive''
    have hview := hrespects.1
    rw [components_eq, components_eq, resolvedComponents_view, hp,
      normalize_outcome hverbatim (hn.trans hp.symm)] at hview
    have hmem := prefix_mem_view (show prefixLength (outcome text true) true ≠ 0 by
      rw [(prefixes_drive hread).1]
      exact Nat.succ_ne_zero 1)
    rw [hview] at hmem
    exact absurd rfl (not_prefix_written hmem)
  · intro hnone
    have hdrive'' : isDrive (outcome text true) = false := by
      rw [hdrive']
      cases hhead : (resolveNames false (names true text)).head? with
      | none => rfl
      | some n =>
        by_cases hne : n = dots
        · rw [hne]
          rfl
        · exact hnone n ((hbottom n hne).mp hhead)
    obtain ⟨hp', hn'⟩ := prefixes_none hdrive'' hdouble'
    exact respects_of_prefixes hverbatim (hn.trans hp.symm) (hp'.trans hp.symm) (hn'.trans hp.symm)

end Same

/-! A marked path: the normalizer reads its prefix as a marker under a root. -/

theorem names_written (front : Bytes) (rooted : Bool) (ns : List Bytes) :
    ((written front rooted ns).filter (!·.1.anchors)).map Prod.snd = ns := by
  have hmap : Prod.snd ∘ nameComponent = (id : Bytes → Bytes) := rfl
  obtain ⟨-, hsteps⟩ := filter_names ns
  rw [written, List.filter_append, List.filter_append, hsteps]
  cases rooted <;> by_cases hnil : front = [] <;> simp [hnil, Kind.anchors, hmap]

theorem root_written (front : Bytes) (rooted : Bool) (ns : List Bytes) :
    ((written front rooted ns).filter (·.1.anchors)).any (·.1 = .ROOT) = rooted := by
  obtain ⟨hanchors, -⟩ := filter_names ns
  rw [written, List.filter_append, List.filter_append, hanchors]
  cases rooted <;> by_cases hnil : front = [] <;> simp [hnil, Kind.anchors]

theorem front_written (front : Bytes) (rooted : Bool) (ns : List Bytes) :
    (((written front rooted ns).filter (·.1.anchors)).filter (·.1 = .PREFIX)).flatMap Prod.snd = front := by
  obtain ⟨hanchors, -⟩ := filter_names ns
  simp only [written, List.filter_append, hanchors]
  cases rooted <;> by_cases hnil : front = [] <;> simp [hnil, Kind.anchors]

theorem written_injective {front' : Bytes} {rooted' : Bool} {ns' : List Bytes}
    (h : written front rooted ns = written front' rooted' ns') : front = front' ∧ rooted = rooted' ∧ ns = ns' := by
  refine ⟨?_, ?_, ?_⟩
  · rw [← front_written front rooted ns, h, front_written]
  · rw [← root_written front rooted ns, h, root_written]
  · rw [← names_written front rooted ns, h, names_written]

theorem map_fold_drop (h : text.map fold = text) (k : ℕ) : (text.drop k).map fold = text.drop k := by
  rw [List.map_drop, h]

theorem map_fold_take (h : text.map fold = text) (k : ℕ) : (text.take k).map fold = text.take k := by
  rw [List.map_take, h]

/-- A path without backslashes is written as its components are. -/
theorem view_of_fold (h : text.map fold = text) :
    view text true = written (text.take (prefixLength text true))
      (startsRooted true (text.drop (prefixLength text true))) (names true (text.drop (prefixLength text true))) := by
  have hfront : prefixLength text true = 0 ↔ text.take (prefixLength text true) = [] := by
    rw [← List.length_eq_zero_iff, List.length_take_of_le (prefixLength_le text true)]
  have hroot : startsRooted true (text.drop (prefixLength text true)) = true →
      (text.drop (prefixLength text true)).take 1 = [SLASH] := by
    intro hr
    have hfold := foldPrefix_root hr
    simp only [foldPrefix, if_true] at hfold
    rwa [map_fold_take (map_fold_drop h _)] at hfold
  rw [view, written]
  simp only [← hfront]
  split_ifs with hzero hr hr
  · rw [hroot hr]
  · rfl
  · rw [hroot hr]
  · rfl

section Marked

variable {a b m s : UInt8} {l : Bytes}

/-- A part that is a name and not `..`. -/
def Plain (n : Bytes) : Prop := n ≠ [] ∧ n ≠ [DOT] ∧ n ≠ dots

theorem names_of_plain (h : ∀ n ∈ l.splitOnP (isSeparator true), Plain n) :
    names true l = l.splitOnP (isSeparator true) := by
  rw [names_eq_parts, List.filter_eq_self]
  intro n hn
  obtain ⟨hne, hdot, -⟩ := h n hn
  simp [hne, hdot]

/-- What a marked path is normalized to. -/
def markedOutcome (m : UInt8) (l : Bytes) : Bytes :=
  SLASH :: SLASH :: m :: SLASH :: List.intercalate [SLASH] (resolveNames true (names true l))

theorem Marker.normalizeImpl_eq (h : Marker a b m s) (l : Bytes) :
    normalizeImpl (a :: b :: m :: s :: l) true = markedOutcome m l := by
  have hm := h.fold_mark
  have hroot : startsRooted true (s :: l) = true := h.last
  rw [PathText.normalizeImpl_eq, h.normalizePrefix_eq]
  simp only [List.drop_succ_cons, List.drop_zero, hroot, names_cons_sep h.last]
  simp [foldPrefix, fold_separator h.first, fold_separator h.second, hm, build, markedOutcome]

theorem plain_of_resolved {n : Bytes} (h : n ∈ resolveNames true (names true l)) : Plain n := by
  have hproper := properName_resolveNames (fun n hn => properName_of_mem_names hn) n h
  have hsettled : Settled dots true (resolve dots true [] (names true l)) :=
    (show Settled dots true [] from trivial).resolve _
  refine ⟨hproper.1.1, hproper.2, ?_⟩
  rintro rfl
  exact up_not_mem_of_settled hsettled (List.mem_reverse.mp h)

/-- A marked path whose prefix the normalizer keeps: it has plain parts, and what follows
it leads to some name without reaching back into it. -/
def MarkedRegular (text : Bytes) : Prop :=
  let p := prefixLength text true
  text.length = 4 ∨
    (∀ part ∈ ((text.take p).drop 4).splitOnP (isSeparator true), Plain part) ∧
      (text.drop p = [] ∨ ∃ d, depth dots 0 (names true (text.drop p)) = some (d + 1))

/-- Reading a marked outcome back gives the components of the path. -/
def MarkedSame (m : UInt8) (l body rest : Bytes) : Prop :=
  let out := markedOutcome m l
  let p := prefixLength out true
  out.take p = SLASH :: SLASH :: m :: SLASH :: body.map fold ∧ startsRooted true (out.drop p) = startsRooted true rest ∧
    names true (out.drop p) = resolveNames (startsRooted true rest) (names true rest)

theorem Marker.respects_iff (h : Marker a b m s) {l body rest : Bytes}
    (hverbatim : isVerbatim (a :: b :: m :: s :: l) true = false)
    (hfront : (a :: b :: m :: s :: l).take (prefixLength (a :: b :: m :: s :: l) true) = a :: b :: m :: s :: body)
    (hrest : (a :: b :: m :: s :: l).drop (prefixLength (a :: b :: m :: s :: l) true) = rest) :
    Respects (a :: b :: m :: s :: l) true ↔ MarkedSame m l body rest := by
  have hm := h.fold_mark
  have hproper : ∀ n ∈ resolveNames true (names true l), ProperName true n :=
    properName_resolveNames fun n hn => properName_of_mem_names hn
  have hfold : (markedOutcome m l).map fold = markedOutcome m l := by
    simp only [markedOutcome, List.map_cons, hm, map_fold_intercalate hproper]
    rfl
  have hmarker : Marker SLASH SLASH m SLASH := ⟨rfl, rfl, h.mark, rfl⟩
  have hnormal : normalize (a :: b :: m :: s :: l) true = markedOutcome m l := by
    rw [normalize, hverbatim, h.normalizeImpl_eq]
    rfl
  have hagain : normalize (markedOutcome m l) true = markedOutcome m l := by
    rw [normalize, not_verbatim_of_fold hfold]
    show normalizeImpl (markedOutcome m l) true = _
    rw [markedOutcome, hmarker.normalizeImpl_eq, markedOutcome, names_intercalate hproper, resolveNames_resolveNames]
  have hfrontLength : foldPrefix true (a :: b :: m :: s :: body) = SLASH :: SLASH :: m :: SLASH :: body.map fold := by
    simp [foldPrefix, fold_separator h.first, fold_separator h.second, fold_separator h.last, hm]
  rw [Respects, hnormal, components_eq, components_eq, resolvedComponents_view, hfront, hrest, hfrontLength,
    view_of_fold hfold]
  constructor
  · rintro ⟨hview, -⟩
    exact written_injective hview
  · rintro ⟨h1, h2, h3⟩
    rw [h1, h2, h3]
    exact ⟨rfl, hagain⟩

theorem names_of_after {rest : Bytes} {parts : List Bytes} (h : After (isSeparator true) rest parts)
    (hplain : ∀ n ∈ parts, Plain n) : names true rest = parts := by
  rcases h with ⟨rfl, rfl⟩ | ⟨c, r, rfl, hc, rfl⟩
  · rfl
  · rw [names_cons_sep hc, names_of_plain hplain]

theorem startsRooted_of_after {rest : Bytes} {parts : List Bytes} (h : After (isSeparator true) rest parts) :
    startsRooted true rest = true ↔ parts ≠ [] := by
  rcases h with ⟨rfl, rfl⟩ | ⟨c, r, rfl, hc, rfl⟩
  · simp [startsRooted]
  · simp [startsRooted, hc, List.splitOnP_ne_nil]

section Parts

variable {body rest : Bytes} (h : Marker a b m s) (hl : l = body ++ rest)
  (hbody : body.splitOnP (isSeparator true) = (l.splitOnP (isSeparator true)).take (furtherParts m l + 1))
  (hafter : After (isSeparator true) rest ((l.splitOnP (isSeparator true)).drop (furtherParts m l + 1)))

include h hl hbody hafter

theorem Marker.same_of_regular (hplain : ∀ part ∈ body.splitOnP (isSeparator true), Plain part)
    (hdepth : rest = [] ∨ ∃ d, depth dots 0 (names true rest) = some (d + 1)) : MarkedSame m l body rest := by
  have hmarker : Marker SLASH SLASH m SLASH := ⟨rfl, rfl, h.mark, rfl⟩
  have hclosed := closed_of_after hafter
  have hnames : names true l = body.splitOnP (isSeparator true) ++ names true rest := by
    rw [hl, names_append body hclosed, names_of_plain hplain]
  have hnodots : dots ∉ body.splitOnP (isSeparator true) := fun hm => (hplain _ hm).2.2 rfl
  have hresolved : resolveNames true (names true l) =
      body.splitOnP (isSeparator true) ++ resolveNames true (names true rest) := by
    rw [hnames, resolveNames, resolve_append, resolve_names hnodots, List.append_nil, resolveNames]
    rcases hdepth with rfl | ⟨d, hd⟩
    · simp
    · have hempty : dots ∉ ([] : List Bytes) := List.not_mem_nil
      obtain ⟨hsplit, -, -⟩ := resolve_of_depth (body.splitOnP (isSeparator true)).reverse true true hempty hd
      rw [List.nil_append] at hsplit
      rw [hsplit, List.reverse_append, List.reverse_reverse]
  have hplain' : ∀ n ∈ resolveNames true (names true l), Plain n := fun n hn => plain_of_resolved hn
  have hproper : ∀ n ∈ resolveNames true (names true l), ProperName true n :=
    properName_resolveNames fun n hn => properName_of_mem_names hn
  have hroot := startsRooted_of_after hafter
  have hresolve : resolveNames (startsRooted true rest) (names true rest) = resolveNames true (names true rest) ∧
      (startsRooted true rest = true ↔ resolveNames true (names true rest) ≠ []) ∧
      ((body.splitOnP (isSeparator true)).length = furtherParts m l + 1 ∨ resolveNames true (names true rest) = []) := by
    rcases hdepth with rfl | ⟨d, hd⟩
    · exact ⟨rfl, by simp [startsRooted, resolveNames], .inr rfl⟩
    · have hempty : dots ∉ ([] : List Bytes) := List.not_mem_nil
      obtain ⟨-, -, hlength⟩ := resolve_of_depth [] true true hempty hd
      have hne : resolveNames true (names true rest) ≠ [] := by
        intro hnil
        rw [resolveNames, List.reverse_eq_nil_iff] at hnil
        rw [hnil] at hlength
        cases hlength
      have hstart : startsRooted true rest = true := by
        by_contra hnot
        rw [nil_of_closed hclosed (by simpa using hnot)] at hne
        exact hne rfl
      have hmore : (l.splitOnP (isSeparator true)).drop (furtherParts m l + 1) ≠ [] := hroot.mp hstart
      refine ⟨by rw [hstart], by simp [hstart, hne], .inl ?_⟩
      rw [ne_eq, List.drop_eq_nil_iff] at hmore
      rw [hbody, List.length_take]
      omega
  generalize hB : body.splitOnP (isSeparator true) = B at *
  generalize hR : resolveNames true (names true rest) = R at *
  have hBne : B ≠ [] := hB ▸ List.splitOnP_ne_nil _ _
  have hne : resolveNames true (names true l) ≠ [] := by
    rw [hresolved]
    exact fun hnil => hBne (List.append_eq_nil_iff.mp hnil).1
  have hparts := splitOnP_intercalate (s := SLASH) (p := isSeparator true) rfl hne (fun n hn => (hproper n hn).1.2)
  obtain ⟨body', rest', hL, hfront', hrest', hbody', hafter'⟩ :=
    hmarker.parts (List.intercalate [SLASH] (resolveNames true (names true l)))
  have hfurther : furtherParts m (List.intercalate [SLASH] (resolveNames true (names true l))) = furtherParts m l := by
    apply furtherParts_eq
    obtain ⟨n, B', rfl⟩ := List.exists_cons_of_ne_nil hBne
    obtain ⟨n', P', hP⟩ := List.exists_cons_of_ne_nil (List.splitOnP_ne_nil (isSeparator true) l)
    rw [hP, List.take_succ_cons, List.cons.injEq] at hbody
    rw [hparts, hresolved, hP, List.cons_append, List.head?_cons, List.head?_cons, hbody.1]
  have htake : (B ++ R).take (furtherParts m l + 1) = B ∧ (B ++ R).drop (furtherParts m l + 1) = R := by
    rcases hresolve.2.2 with hlength | hnil
    · rw [← hlength, List.take_left, List.drop_left]
      exact ⟨rfl, rfl⟩
    · have hle : B.length ≤ furtherParts m l + 1 := by
        rw [hbody]
        exact List.length_take_le _ _
      rw [hnil, List.append_nil, List.take_of_length_le hle, List.drop_eq_nil_of_le hle]
      exact ⟨rfl, rfl⟩
  rw [hfurther, hparts, hresolved, htake.1] at hbody'
  rw [hfurther, hparts, hresolved, htake.2] at hafter'
  have hfold : body'.map fold = body' := by
    have hall := map_fold_intercalate hproper
    rw [hL, List.map_append] at hall
    exact (List.append_inj hall (List.length_map _)).1
  have hsame : body' = body.map fold := by rw [← hfold, map_fold_eq, map_fold_eq, hbody', hB]
  refine ⟨?_, ?_, ?_⟩
  · rw [markedOutcome, hfront', hsame]
  · rw [markedOutcome, hrest', Bool.eq_iff_iff, startsRooted_of_after hafter', hresolve.2.1]
  · rw [markedOutcome, hrest', hresolve.1, names_of_after hafter']
    exact fun n hn => hplain' n (hresolved ▸ List.mem_append_right _ hn)

omit hbody in
theorem Marker.regular_of_same (hne : l ≠ []) (hsame : MarkedSame m l body rest) :
    (∀ part ∈ body.splitOnP (isSeparator true), Plain part) ∧
      (rest = [] ∨ ∃ d, depth dots 0 (names true rest) = some (d + 1)) := by
  have hmarker : Marker SLASH SLASH m SLASH := ⟨rfl, rfl, h.mark, rfl⟩
  have hclosed := closed_of_after hafter
  have hplain : ∀ n ∈ resolveNames true (names true l), Plain n := fun n hn => plain_of_resolved hn
  have hproper : ∀ n ∈ resolveNames true (names true l), ProperName true n :=
    properName_resolveNames fun n hn => properName_of_mem_names hn
  obtain ⟨body', rest', hL, hfront', hrest', hbody', hafter'⟩ :=
    hmarker.parts (List.intercalate [SLASH] (resolveNames true (names true l)))
  obtain ⟨hsameFront, hsameRoot, hsameNames⟩ := hsame
  rw [markedOutcome, hrest'] at hsameRoot hsameNames
  rw [markedOutcome, hfront', List.cons.injEq, List.cons.injEq, List.cons.injEq, List.cons.injEq] at hsameFront
  have hfold : body' = body.map fold := hsameFront.2.2.2.2
  have hresolved : resolveNames true (names true l) ≠ [] := by
    intro hnil
    rw [hnil] at hL
    obtain ⟨hbody0, hrest0⟩ := List.append_eq_nil_iff.mp hL.symm
    have hbody1 : body = [] := List.map_eq_nil_iff.mp (hfold.symm.trans hbody0)
    rw [hrest0] at hsameRoot
    exact hne (by rw [hl, hbody1, nil_of_closed hclosed hsameRoot.symm]; rfl)
  have hparts := splitOnP_intercalate (s := SLASH) (p := isSeparator true) rfl hresolved
    (fun n hn => (hproper n hn).1.2)
  rw [hparts] at hbody' hafter'
  have hsplit : body.splitOnP (isSeparator true) = body'.splitOnP (isSeparator true) := by
    rw [hfold, splitOnP_map_fold]
  have hbodyPlain : ∀ part ∈ body.splitOnP (isSeparator true), Plain part := by
    intro part hpart
    rw [hsplit, hbody'] at hpart
    exact hplain part (List.mem_of_mem_take hpart)
  refine ⟨hbodyPlain, ?_⟩
  by_cases hroot : startsRooted true rest = true
  · right
    have hmore := (startsRooted_of_after hafter').mp (hsameRoot.trans hroot)
    have hrestPlain : names true rest' = (resolveNames true (names true l)).drop _ :=
      names_of_after hafter' fun n hn => hplain n (List.mem_of_mem_drop hn)
    have hnodots : dots ∉ body.splitOnP (isSeparator true) := fun hm => (hbodyPlain _ hm).2.2 rfl
    have hnodots' : dots ∉ (body.splitOnP (isSeparator true)).reverse := fun hm => hnodots (List.mem_reverse.mp hm)
    have hempty : dots ∉ ([] : List Bytes) := List.not_mem_nil
    have hnames : names true l = body.splitOnP (isSeparator true) ++ names true rest := by
      rw [hl, names_append body hclosed, names_of_plain hbodyPlain]
    have hlength : (resolveNames true (names true l)).length =
        (body.splitOnP (isSeparator true)).length + (resolveNames true (names true rest)).length := by
      rw [hroot, hrestPlain] at hsameNames
      rw [hsplit, hbody', ← hsameNames, ← List.length_append, List.take_append_drop]
    rw [hroot, hrestPlain] at hsameNames
    cases hdepth : depth dots 0 (names true rest) with
    | none =>
      have hlt := length_resolve_lt (l := names true rest) hempty hnodots'
        (fun hnil => List.splitOnP_ne_nil _ _ (List.reverse_eq_nil_iff.mp hnil)) hdepth
      rw [resolveNames, List.length_reverse, hnames, resolve_append, resolve_names hnodots, List.append_nil,
        resolveNames, List.length_reverse] at hlength
      rw [List.nil_append, List.length_reverse, hlength] at hlt
      omega
    | some d =>
      obtain ⟨-, -, hd⟩ := resolve_of_depth [] true true hempty hdepth
      have hpos : 0 < d := by
        rw [← hd, ← List.length_reverse]
        apply List.length_pos_of_ne_nil
        rw [hsameNames, resolveNames] at hmore
        exact hmore
      exact ⟨d - 1, by rw [Nat.sub_add_cancel hpos]⟩
  · exact .inl (nil_of_closed hclosed (by simpa using hroot))

end Parts

theorem respects_marked (hmarked : isMarked text true = true) (hverbatim : isVerbatim text true = false) :
    Respects text true ↔ MarkedRegular text := by
  obtain ⟨a, b, m, s, l, rfl, h⟩ := exists_marker hmarked
  obtain ⟨body, rest, hl, hfront, hrest, hbody, hafter⟩ := h.parts l
  rw [h.respects_iff hverbatim hfront hrest, MarkedRegular]
  simp only [hfront, hrest]
  constructor
  · intro hsame
    by_cases hnil : l = []
    · exact .inl (by rw [hnil]; rfl)
    · exact .inr (h.regular_of_same hl hafter hnil hsame)
  · rintro (hlength | ⟨hplain, hdepth⟩)
    · obtain rfl : l = [] := by simpa using hlength
      obtain ⟨rfl, rfl⟩ := List.append_eq_nil_iff.mp hl.symm
      have hout : markedOutcome m [] = [SLASH, SLASH, m, SLASH] := rfl
      have hmarker : Marker SLASH SLASH m SLASH := ⟨rfl, rfl, h.mark, rfl⟩
      have hp : prefixLength [SLASH, SLASH, m, SLASH] true = 4 + 0 := by
        rw [hmarker.prefixLength_eq]
        cases furtherParts m [] <;> rfl
      rw [MarkedSame, hout, hp]
      exact ⟨rfl, rfl, rfl⟩
    · exact h.same_of_regular hl hbody hafter hplain hdepth


end Marked

/-- Where normalization keeps to the components: under POSIX rules, from a drive, a share or
a root; a relative Windows path whose names leave none that reads as a drive at its front;
and a marked path whose prefix stays as it is. -/
def Regular (text : Bytes) (windows : Bool) : Prop :=
  windows = true → isDrive text = false →
    (isMarked text true = true → MarkedRegular text) ∧
    (isDouble text true = false → startsRooted true text = false →
      ∀ n, Bottom dots (names true text) n → isDrive n = false)

theorem normalize_respects_components (text : Bytes) (windows : Bool) (hverbatim : isVerbatim text windows = false) :
    Respects text windows ↔ Regular text windows := by
  cases windows with
  | false => exact ⟨fun _ => nofun, fun _ => respects_posix text⟩
  | true =>
    by_cases hdrive : isDrive text = true
    · exact ⟨fun _ _ hnot => (by rw [hdrive] at hnot; cases hnot), fun _ => respects_drive hdrive hverbatim⟩
    rw [Bool.not_eq_true] at hdrive
    by_cases hmarked : isMarked text true = true
    · have hdouble : isDouble text true = true := by
        simp only [isMarked, Bool.and_eq_true] at hmarked
        exact hmarked.1.1
      rw [respects_marked hmarked hverbatim]
      refine ⟨fun h _ _ => ⟨fun _ => h, fun hnot => ?_⟩, fun h => (h rfl hdrive).1 hmarked⟩
      rw [hdouble] at hnot
      cases hnot
    · by_cases hdouble : isDouble text true = true
      · refine ⟨fun _ _ _ => ⟨fun h => absurd h hmarked, fun hnot => ?_⟩,
          fun _ => respects_share hdouble (by simpa using hmarked) hverbatim⟩
        rw [hdouble] at hnot
        cases hnot
      · rw [Bool.not_eq_true] at hdouble
        by_cases hroot : startsRooted true text = true
        · refine ⟨fun _ _ _ => ⟨fun h => absurd h hmarked, fun _ hnot => ?_⟩,
            fun _ => respects_rooted hdrive hdouble hroot hverbatim⟩
          rw [hroot] at hnot
          cases hnot
        · rw [Bool.not_eq_true] at hroot
          rw [respects_relative hdrive hdouble hroot hverbatim]
          exact ⟨fun h _ _ => ⟨fun hm => absurd hm hmarked, fun _ _ => h⟩, fun h => (h rfl hdrive).2 hdouble hroot⟩

/-- `\\s\h\a\..\b`. -/
theorem normalize_respects_share :
    isVerbatim [92, 92, 115, 92, 104, 92, 97, 92, 46, 46, 92, 98] true = false ∧
      (Respects [92, 92, 115, 92, 104, 92, 97, 92, 46, 46, 92, 98] true ↔
        Regular [92, 92, 115, 92, 104, 92, 97, 92, 46, 46, 92, 98] true) :=
  ⟨by decide, normalize_respects_components _ true (by decide)⟩

/-- `./C:foo` is relative, and normalizing it gives a path on a drive. -/
theorem relative_path_gains_drive :
    ¬ ∀ text windows, isVerbatim text windows = false → Respects text windows := by
  intro h
  have hcomponents := (h [46, 47, 67, 58, 102, 111, 111] true (by decide)).1
  revert hcomponents
  decide

end Nupp.PathText
