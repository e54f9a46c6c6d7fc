import Nupp.Lib.Segments
import Nupp.Path.PathText

/-! The readers of path text agree on one view of it: a prefix, a root and the names after
them. -/

namespace Nupp.PathText

open Segments

variable {text : Bytes} {windows : Bool}

def dots : Bytes := [DOT, DOT]

/-- The names between separators, without `.`. -/
def names (windows : Bool) (rest : Bytes) : List Bytes :=
  (segments (isSeparator windows) rest).filter (· ≠ [DOT])

/-- A name that stays one when it is written between separators. -/
def ProperName (windows : Bool) (n : Bytes) : Prop := Run (isSeparator windows) n ∧ n ≠ [DOT]

@[simp] theorem names_nil : names windows [] = [] := rfl

theorem isSeparator_slash : isSeparator windows SLASH = true := by simp [isSeparator]

theorem properName_of_mem_names {rest n : Bytes} (h : n ∈ names windows rest) : ProperName windows n := by
  obtain ⟨hseg, hdot⟩ := List.mem_filter.mp h
  exact ⟨run_of_mem_segments hseg, by simpa using hdot⟩

theorem properName_dots : ProperName windows dots := by
  refine ⟨⟨by simp [dots], fun b hb => ?_⟩, by simp [dots]⟩
  simp only [dots, List.mem_cons, List.not_mem_nil, or_false, or_self] at hb
  subst hb
  cases windows <;> rfl

theorem names_append (l : Bytes) {rest : Bytes} (h : ∀ b ∈ rest.head?, isSeparator windows b = true) :
    names windows (l ++ rest) = names windows l ++ names windows rest := by
  rw [names, segments_append l h, List.filter_append]
  rfl

theorem names_cons_sep {b : UInt8} (h : isSeparator windows b = true) (rest : Bytes) :
    names windows (b :: rest) = names windows rest := by
  rw [names, segments_cons_sep h]
  rfl

theorem names_dropWhile (rest : Bytes) :
    names windows (rest.dropWhile (isSeparator windows)) = names windows rest := by
  rw [names, segments_dropWhile]
  rfl

theorem names_name {n : Bytes} (h : ProperName windows n) : names windows n = [n] := by
  rw [names, segments_run h.1]
  simp [h.2]

theorem names_intercalate {ns : List Bytes} (h : ∀ n ∈ ns, ProperName windows n) :
    names windows (List.intercalate [SLASH] ns) = ns := by
  rw [names, segments_intercalate isSeparator_slash (fun n hn => (h n hn).1), List.filter_eq_self]
  intro n hn
  simpa using (h n hn).2

theorem names_cut (rest : Bytes) :
    names windows rest = names windows (rest.takeWhile (isName windows)) ++
      names windows ((rest.dropWhile (isName windows)).dropWhile (isSeparator windows)) := by
  rw [names, segments_cut, List.filter_append]
  rfl

theorem names_takeWhile (rest : Bytes) :
    names windows (rest.takeWhile (isName windows)) =
      if rest.takeWhile (isName windows) = [] ∨ rest.takeWhile (isName windows) = [DOT] then []
      else [rest.takeWhile (isName windows)] := by
  by_cases hnil : rest.takeWhile (isName windows) = []
  · rw [hnil]
    rfl
  · have hrun : Run (isSeparator windows) (rest.takeWhile (isName windows)) := run_takeWhile hnil
    rw [names, segments_run hrun]
    by_cases hdot : rest.takeWhile (isName windows) = [DOT]
    · simp [hdot]
    · simp [hnil, hdot]

/-! Scans. -/

theorem drop_scan (p : UInt8 → Bool) (at_ : ℕ) : text.drop (scan text p at_) = (text.drop at_).dropWhile p := by
  rw [scan, ← List.drop_drop]
  generalize text.drop at_ = l
  calc l.drop (l.takeWhile p).length
      = (l.takeWhile p ++ l.dropWhile p).drop (l.takeWhile p).length := by
        rw [List.takeWhile_append_dropWhile]
    _ = l.dropWhile p := List.drop_left

theorem scan_sub (p : UInt8 → Bool) (at_ : ℕ) : scan text p at_ - at_ = ((text.drop at_).takeWhile p).length :=
  Nat.add_sub_cancel_left _ _

theorem le_scan (text : Bytes) (p : UInt8 → Bool) (at_ : ℕ) : at_ ≤ scan text p at_ := Nat.le_add_right _ _

theorem scan_le {p : UInt8 → Bool} {at_ : ℕ} (h : at_ ≤ text.length) : scan text p at_ ≤ text.length := by
  have hle := (List.takeWhile_prefix p (l := text.drop at_)).length_le
  rw [List.length_drop] at hle
  unfold scan
  omega

theorem slice_scan (p : UInt8 → Bool) (at_ : ℕ) :
    slice text (at_ + 1) (scan text p at_ - at_) = (text.drop at_).takeWhile p := by
  rw [slice, scan_sub, Nat.add_sub_cancel]
  conv_lhs => rw [← List.takeWhile_append_dropWhile (p := p) (l := text.drop at_)]
  rw [List.take_left' (by simp)]

theorem byteAt_succ (p : ℕ) : byteAt text (p + 1) = (text.drop p).head? := by
  rw [byteAt, Nat.add_sub_cancel, List.head?_drop]

theorem separatorAt_succ (p : ℕ) :
    separatorAt text windows (p + 1) = (text.drop p).head?.any (isSeparator windows) := by
  rw [separatorAt, byteAt_succ]

/-- The bytes at the front of what is left, by their positions. -/
theorem byteAt_name {at_ : ℕ} {n r : Bytes} (h : text.drop at_ = n ++ r) {i : ℕ} (hi : i < n.length) :
    byteAt text (at_ + 1 + i) = n[i]? := by
  rw [byteAt, show at_ + 1 + i - 1 = at_ + i by omega, ← List.getElem?_drop, h, List.getElem?_append_left hi]

section Component

variable {at_ : ℕ} {n r : Bytes} (h : text.drop at_ = n ++ r)

include h

theorem isParent_iff : isParent text (at_ + 1) n.length = true ↔ n = dots := by
  constructor
  · intro hp
    simp only [isParent, Bool.and_eq_true, decide_eq_true_eq] at hp
    obtain ⟨⟨hwidth, h1⟩, h2⟩ := hp
    have h1' := byteAt_name h (i := 0) (by omega)
    have h2' := byteAt_name h (i := 1) (by omega)
    rw [Nat.add_zero, h1] at h1'
    rw [h2] at h2'
    match n, hwidth with
    | [a, b], _ =>
      simp only [List.getElem?_cons_zero, List.getElem?_cons_succ, Option.some.injEq] at h1' h2'
      rw [← h1', ← h2']
      rfl
  · rintro rfl
    have h1 := byteAt_name h (i := 0) (by decide)
    have h2 := byteAt_name h (i := 1) (by decide)
    rw [Nat.add_zero] at h1
    simp [isParent, h1, h2, dots]

theorem skipped_iff : skipped text (at_ + 1) n.length = true ↔ n = [] ∨ n = [DOT] := by
  constructor
  · intro hs
    simp only [skipped, Bool.or_eq_true, Bool.and_eq_true, decide_eq_true_eq] at hs
    rcases hs with hs | ⟨hwidth, h1⟩
    · exact .inl (List.length_eq_zero_iff.mp hs)
    · have h1' := byteAt_name h (i := 0) (by omega)
      rw [Nat.add_zero, h1] at h1'
      match n, hwidth with
      | [a], _ =>
        simp only [List.getElem?_cons_zero, Option.some.injEq] at h1'
        exact .inr (by rw [h1'])
  · rintro (rfl | rfl)
    · simp [skipped]
    · have h1 := byteAt_name h (i := 0) (by simp)
      rw [Nat.add_zero] at h1
      simp [skipped, h1]

end Component

/-- One round of a reader: the name in front, if it counts, and what is left after it. -/
theorem names_round (text : Bytes) (windows : Bool) (at_ : ℕ) :
    let next := scan text (isName windows) at_
    names windows (text.drop at_) =
      (if skipped text (at_ + 1) (next - at_) then [] else [slice text (at_ + 1) (next - at_)]) ++
        names windows (text.drop (scan text (isSeparator windows) next)) := by
  intro next
  have hsplit := (List.takeWhile_append_dropWhile (p := isName windows) (l := text.drop at_)).symm
  have hskip := skipped_iff hsplit
  rw [names_cut, names_takeWhile, drop_scan, drop_scan, slice_scan, scan_sub]
  congr 1
  by_cases hs : skipped text (at_ + 1) ((text.drop at_).takeWhile (isName windows)).length = true
  · rw [if_pos hs, if_pos (hskip.mp hs)]
  · rw [if_neg hs, if_neg (fun h => hs (hskip.mpr h))]

/-- A round reads something. -/
theorem lt_round (windows : Bool) {at_ : ℕ} (h : at_ < text.length) :
    at_ < scan text (isSeparator windows) (scan text (isName windows) at_) := by
  have hle := le_scan text (isSeparator windows) (scan text (isName windows) at_)
  have hle' := le_scan text (isName windows) at_
  by_contra hnot
  have heq : scan text (isName windows) at_ = at_ := by omega
  rw [heq] at hnot hle
  have heq' : scan text (isSeparator windows) at_ = at_ := by omega
  obtain ⟨b, rest, hb⟩ := List.exists_cons_of_ne_nil (show text.drop at_ ≠ [] by simpa using h)
  unfold scan at heq heq'
  rw [hb] at heq heq'
  by_cases hs : isSeparator windows b = true
  · rw [List.takeWhile_cons_of_pos hs] at heq'
    simp at heq'
  · rw [List.takeWhile_cons_of_pos (by simpa [isName] using hs)] at heq
    simp at heq

/-! The normalizer. -/

theorem retainedText_start {at_ : ℕ} (h : (text.drop at_).takeWhile (isName windows) ≠ []) :
    retainedText text windows (at_ + 1) = (text.drop at_).takeWhile (isName windows) := by
  obtain ⟨b, rest, hb⟩ := List.exists_cons_of_ne_nil (show text.drop at_ ≠ [] by rintro hnil; rw [hnil] at h; exact h rfl)
  have hb' : isName windows b = true := by
    by_contra hnot
    rw [hb, List.takeWhile_cons_of_neg hnot] at h
    exact h rfl
  have hdrop : text.drop (at_ + 1) = rest := by rw [← List.drop_drop, hb]; rfl
  rw [retainedText, if_neg (Nat.succ_ne_zero at_), slice, Nat.add_sub_cancel, scan, hdrop, hb,
    List.takeWhile_cons_of_pos hb', Nat.add_sub_cancel_left, List.take_succ_cons]
  conv_lhs => rw [← List.takeWhile_append_dropWhile (p := isName windows) (l := rest)]
  rw [List.take_left' (by simp)]

/-- A start that was retained is not the one of `..`. -/
def Retained (text : Bytes) (windows : Bool) (s : ℕ) : Prop := retainedText text windows s = dots ↔ s = 0

theorem retain_spec (rooted : Bool) {stack : List ℕ} {at_ : ℕ} (hstack : ∀ s ∈ stack, Retained text windows s)
    (hn : (text.drop at_).takeWhile (isName windows) ≠ []) :
    let n := (text.drop at_).takeWhile (isName windows)
    (retain text rooted stack (at_ + 1) n.length).map (retainedText text windows) =
        step dots rooted (stack.map (retainedText text windows)) n ∧
      ∀ s ∈ retain text rooted stack (at_ + 1) n.length, Retained text windows s := by
  intro n
  have hsplit : text.drop at_ = n ++ (text.drop at_).dropWhile (isName windows) :=
    List.takeWhile_append_dropWhile.symm
  have hzero : Retained text windows 0 := by simp [Retained, retainedText, dots]
  by_cases hp : n = dots
  · have hparent := (isParent_iff hsplit).mpr hp
    unfold retain step
    rw [if_pos hparent, if_pos hp]
    match stack, hstack with
    | [], _ => cases rooted <;> simp [retainedText, dots, Retained]
    | top :: rest, hstack =>
      have htop := hstack top List.mem_cons_self
      by_cases ht : top = 0
      · simp only [List.map_cons, ht, lt_irrefl, if_false]
        refine ⟨by simp [retainedText, dots], fun s hs => ?_⟩
        simp only [List.mem_cons] at hs
        rcases hs with rfl | rfl | hs
        · exact hzero
        · exact hzero
        · exact hstack s (List.mem_cons_of_mem _ hs)
      · have hdots : retainedText text windows top ≠ dots := fun h => ht (htop.mp h)
        simp only [List.map_cons, hdots, if_false, Nat.pos_of_ne_zero ht, if_true]
        exact ⟨trivial, fun s hs => hstack s (List.mem_cons_of_mem _ hs)⟩
  · have hparent : ¬ isParent text (at_ + 1) n.length = true := fun h => hp ((isParent_iff hsplit).mp h)
    unfold retain
    rw [if_neg hparent, step_name hp, List.map_cons, retainedText_start hn]
    refine ⟨rfl, fun s hs => ?_⟩
    rcases List.mem_cons.mp hs with rfl | hs
    · exact ⟨fun h => absurd ((retainedText_start hn).symm.trans h) hp, nofun⟩
    · exact hstack s hs

theorem normalizeLoop_spec {rooted : Bool} {fuel at_ : ℕ} {stack : List ℕ} (hfuel : text.length - at_ ≤ fuel)
    (hstack : ∀ s ∈ stack, Retained text windows s) :
    (normalizeLoop text windows rooted fuel at_ stack).map (retainedText text windows) =
      resolve dots rooted (stack.map (retainedText text windows)) (names windows (text.drop at_)) := by
  induction fuel generalizing at_ stack with
  | zero =>
    rw [List.drop_eq_nil_of_le (by omega)]
    rfl
  | succ fuel ih =>
    rw [normalizeLoop]
    by_cases hlt : at_ < text.length
    · have hround := lt_round windows hlt
      rw [if_pos hlt, names_round text windows at_]
      by_cases hs : skipped text (at_ + 1) (scan text (isName windows) at_ - at_) = true
      · simp only [if_pos hs, List.nil_append]
        exact ih (by omega) hstack
      · simp only [if_neg hs, List.singleton_append, resolve_cons]
        have hn : (text.drop at_).takeWhile (isName windows) ≠ [] := by
          intro hnil
          rw [scan_sub, hnil] at hs
          exact hs rfl
        obtain ⟨hmap, hretained⟩ := retain_spec rooted hstack hn
        rw [slice_scan, ← hmap, scan_sub]
        exact ih (by omega) hretained
    · rw [if_neg hlt, List.drop_eq_nil_of_le (by omega)]
      rfl

def startsRooted (windows : Bool) (rest : Bytes) : Bool := rest.head?.any (isSeparator windows)

def foldPrefix (windows : Bool) (front : Bytes) : Bytes := front.map fun b => if windows then fold b else b

/-- A path written from its prefix, its root and its names. -/
def build (front : Bytes) (rooted : Bool) (ns : List Bytes) : Bytes :=
  if ns = [] && front = [] && !rooted then [DOT]
  else front ++ (if rooted then [SLASH] else []) ++ List.intercalate [SLASH] ns

/-- What `..` leaves of names. -/
def resolveNames (rooted : Bool) (ns : List Bytes) : List Bytes := (resolve dots rooted [] ns).reverse

theorem normalizePrefix_le (text : Bytes) (windows : Bool) : normalizePrefix text windows ≤ text.length := by
  unfold normalizePrefix sharePrefix
  split_ifs with h1
  · simp only [Bool.and_eq_true, decide_eq_true_eq] at h1
    exact h1.2
  · simp only [Bool.and_eq_true, decide_eq_true_eq] at h1
    exact scan_le h1.2
  · simp only [Bool.and_eq_true, decide_eq_true_eq] at h1
    have hshare := scan_le (p := isSeparator windows) (scan_le (p := isName windows) h1.2)
    simp only
    split_ifs
    · exact hshare
    · exact scan_le hshare
  · exact Nat.zero_le _
  · exact Nat.zero_le _

theorem normalizeImpl_eq (text : Bytes) (windows : Bool) :
    let front := text.take (normalizePrefix text windows)
    let rest := text.drop (normalizePrefix text windows)
    normalizeImpl text windows = build (foldPrefix windows front) (startsRooted windows rest)
      (resolveNames (startsRooted windows rest) (names windows rest)) := by
  intro front rest
  have hle := normalizePrefix_le text windows
  have hroot : separatorAt text windows (normalizePrefix text windows + 1) = startsRooted windows rest :=
    separatorAt_succ _
  have hnames : names windows (text.drop (if startsRooted windows rest = true then
      scan text (isSeparator windows) (normalizePrefix text windows) else normalizePrefix text windows)) =
      names windows rest := by
    split_ifs
    · rw [drop_scan, names_dropWhile]
    · rfl
  have hstack : ∀ at_, (normalizeLoop text windows (startsRooted windows rest) text.length at_ []).map
      (retainedText text windows) = resolve dots (startsRooted windows rest) [] (names windows (text.drop at_)) :=
    fun at_ => normalizeLoop_spec (by omega) nofun
  have hempty : foldPrefix windows front = [] ↔ normalizePrefix text windows = 0 := by
    have hlength : (foldPrefix windows front).length = normalizePrefix text windows := by
      rw [foldPrefix, List.length_map, List.length_take, Nat.min_eq_left hle]
    rw [← List.length_eq_zero_iff, hlength]
  unfold normalizeImpl
  simp only [hroot]
  specialize hstack (if startsRooted windows rest = true then
      scan text (isSeparator windows) (normalizePrefix text windows) else normalizePrefix text windows)
  rw [hnames] at hstack
  generalize normalizeLoop text windows (startsRooted windows rest) text.length _ [] = stack at hstack ⊢
  have hmap : stack.reverse.map (retainedText text windows) =
      resolveNames (startsRooted windows rest) (names windows rest) := by
    rw [List.map_reverse, hstack, resolveNames]
  rw [hmap, build]
  have hnil : stack.reverse = [] ↔ resolveNames (startsRooted windows rest) (names windows rest) = [] := by
    rw [← hmap, List.map_eq_nil_iff]
  simp only [hnil, hempty]
  rfl

/-! The component cursor. -/

def nameComponent (n : Bytes) : Kind × Bytes := (if n = dots then .PARENT else .NORMAL, n)

/-- The components of a path. -/
def view (text : Bytes) (windows : Bool) : List (Kind × Bytes) :=
  let front := text.take (prefixLength text windows)
  let rest := text.drop (prefixLength text windows)
  (if prefixLength text windows = 0 then [] else [(.PREFIX, front)]) ++
    ((if startsRooted windows rest then [(.ROOT, rest.take 1)] else []) ++
      (names windows rest).map nameComponent)

theorem markedParts_le {parts at_ : ℕ} (h : at_ ≤ text.length) : markedParts text windows parts at_ ≤ text.length := by
  induction parts generalizing at_ with
  | zero => exact h
  | succ parts ih =>
    rw [markedParts]
    split_ifs with hend
    · exact h
    · exact ih (scan_le (by omega))

theorem two_le_of_separatorAt (h : separatorAt text windows 2 = true) : 2 ≤ text.length := by
  unfold separatorAt byteAt at h
  by_contra hlt
  rw [List.getElem?_eq_none (by omega)] at h
  cases h

theorem four_le_of_separatorAt (h : separatorAt text windows 4 = true) : 4 ≤ text.length := by
  unfold separatorAt byteAt at h
  by_contra hlt
  rw [List.getElem?_eq_none (by omega)] at h
  cases h

theorem sharePrefix_le (h : 2 ≤ text.length) : sharePrefix text windows ≤ text.length := by
  have hshare := scan_le (p := isSeparator windows) (scan_le (p := isName windows) h)
  unfold sharePrefix
  simp only
  split_ifs
  · exact hshare
  · exact scan_le hshare

theorem prefixLength_le (text : Bytes) (windows : Bool) : prefixLength text windows ≤ text.length := by
  unfold prefixLength
  split_ifs with h1 h2 h3 h4
  · exact Nat.zero_le _
  · simp only [isDrive, Bool.and_eq_true, decide_eq_true_eq] at h2
    have hlt := (List.getElem?_eq_some_iff.mp h2.2).1
    omega
  · simp only [isMarked, Bool.and_eq_true] at h4
    have hfour := four_le_of_separatorAt h4.2
    have hnamed : scan text (isName windows) 4 ≤ text.length := scan_le hfour
    simp only
    split_ifs
    · exact markedParts_le hnamed
    · exact hnamed
  · simp only [isDouble, Bool.and_eq_true] at h3
    exact sharePrefix_le (two_le_of_separatorAt h3.2)
  · exact Nat.zero_le _

/-- The components found from a cursor on. -/
def Yields (text : Bytes) (windows : Bool) : Cursor → List (Kind × Bytes) → Prop
  | c, [] => c.found = none
  | c, x :: l => ∃ f, c.found = some f ∧ component text f = x ∧ f.width = x.2.length ∧
      Yields text windows (c.next text windows) l

theorem nextName_spec (windows : Bool) {fuel at_ : ℕ} (hfuel : text.length - at_ ≤ fuel) :
    let c := nextName text windows fuel at_
    match names windows (text.drop at_) with
    | [] => c.found = none
    | n :: ns => ∃ f, c.found = some f ∧ component text f = nameComponent n ∧ f.width = n.length ∧
        c.phase = 2 ∧ names windows (text.drop c.at_) = ns := by
  induction fuel generalizing at_ with
  | zero =>
    rw [List.drop_eq_nil_of_le (by omega)]
    rfl
  | succ fuel ih =>
    rw [nextName]
    by_cases hlt : at_ < text.length
    · have hround := lt_round windows hlt
      rw [if_pos hlt, names_round text windows at_]
      by_cases hs : skipped text (at_ + 1) (scan text (isName windows) at_ - at_) = true
      · simp only [if_pos hs, List.nil_append]
        exact ih (by omega)
      · simp only [if_neg hs, List.singleton_append]
        have hsplit := (List.takeWhile_append_dropWhile (p := isName windows) (l := text.drop at_)).symm
        have hparent := isParent_iff hsplit
        refine ⟨_, rfl, ?_, ?_, trivial, trivial⟩
        · simp only [component, nameComponent, slice_scan]
          rw [scan_sub]
          by_cases hd : (text.drop at_).takeWhile (isName windows) = dots
          · rw [if_pos hd, if_pos (hparent.mpr hd)]
          · rw [if_neg hd, if_neg (fun h => hd (hparent.mp h))]
        · rw [slice_scan, scan_sub]
    · rw [if_neg hlt, List.drop_eq_nil_of_le (by omega)]
      rfl

theorem nextName_yields (windows : Bool) {fuel at_ : ℕ} (hfuel : text.length - at_ ≤ fuel) :
    Yields text windows (nextName text windows fuel at_) ((names windows (text.drop at_)).map nameComponent) := by
  have hspec := nextName_spec windows hfuel
  generalize hns : names windows (text.drop at_) = ns at hspec
  induction ns generalizing fuel at_ with
  | nil => exact hspec
  | cons n ns ih =>
    obtain ⟨f, hfound, hcomponent, hwidth, hphase, hrest⟩ := hspec
    refine ⟨f, hfound, hcomponent, hwidth, ?_⟩
    have hnext : (nextName text windows fuel at_).next text windows =
        nextName text windows text.length (nextName text windows fuel at_).at_ := by
      rw [Cursor.next, hphase]
      rfl
    rw [hnext]
    have henough : text.length - (nextName text windows fuel at_).at_ ≤ text.length := Nat.sub_le _ _
    have hspec := nextName_spec windows henough
    rw [hrest] at hspec
    exact ih henough hrest hspec

theorem nextRoot_yields (text : Bytes) (windows : Bool) (at_ : ℕ) :
    Yields text windows (nextRoot text windows at_)
      ((if startsRooted windows (text.drop at_) then [(.ROOT, (text.drop at_).take 1)] else []) ++
        (names windows (text.drop at_)).map nameComponent) := by
  rw [nextRoot, separatorAt_succ]
  by_cases hroot : startsRooted windows (text.drop at_) = true
  · have hroot' : ((text.drop at_).head?.any (isSeparator windows)) = true := hroot
    rw [if_pos hroot', if_pos hroot, List.singleton_append]
    have hne : text.drop at_ ≠ [] := by
      intro hnil
      rw [hnil] at hroot
      cases hroot
    refine ⟨_, rfl, ?_, ?_, ?_⟩
    · simp [component, slice]
    · rw [List.length_take]
      have hpos := List.length_pos_of_ne_nil hne
      simp only
      omega
    · have henough : text.length - scan text (isSeparator windows) at_ ≤ text.length := Nat.sub_le _ _
      have hyields := nextName_yields windows henough
      rw [drop_scan, names_dropWhile] at hyields
      exact hyields
  · have hroot' : ¬ ((text.drop at_).head?.any (isSeparator windows)) = true := hroot
    rw [if_neg hroot', if_neg hroot]
    exact nextName_yields windows (Nat.sub_le _ _)

theorem nextComponent_yields (text : Bytes) (windows : Bool) :
    Yields text windows (nextComponent text windows 0 0) (view text windows) := by
  rw [nextComponent, view]
  by_cases hp : prefixLength text windows = 0
  · simp only [hp, ne_eq, not_true_eq_false, if_false, if_true, List.nil_append]
    exact nextRoot_yields text windows 0
  · simp only [ne_eq, hp, not_false_eq_true, if_true, if_false, List.singleton_append]
    refine ⟨_, rfl, ?_, ?_, ?_⟩
    · simp [component, slice]
    · rw [List.length_take, Nat.min_eq_left (prefixLength_le text windows)]
    · exact nextRoot_yields text windows (prefixLength text windows)

theorem length_names_le (windows : Bool) (rest : Bytes) : (names windows rest).length ≤ rest.length :=
  (List.length_filter_le _ _).trans (length_segments_le rest)

theorem length_view_le (text : Bytes) (windows : Bool) : (view text windows).length ≤ text.length + 2 := by
  have hnames := length_names_le windows (text.drop (prefixLength text windows))
  rw [List.length_drop] at hnames
  unfold view
  simp only [List.length_append, List.length_map]
  split_ifs <;> simp only [List.length_nil, List.length_singleton] <;> omega

theorem Yields.collect {c : Cursor} {l : List (Kind × Bytes)} (h : Yields text windows c l) {fuel : ℕ}
    (hfuel : l.length < fuel) : collect text windows fuel c = l := by
  induction l generalizing c fuel with
  | nil =>
    obtain ⟨fuel, rfl⟩ := Nat.exists_eq_succ_of_ne_zero (show fuel ≠ 0 by omega)
    rw [PathText.collect, show c.found = none from h]
  | cons x l ih =>
    obtain ⟨fuel, rfl⟩ := Nat.exists_eq_succ_of_ne_zero (show fuel ≠ 0 by omega)
    obtain ⟨f, hfound, hx, -, hrest⟩ := h
    rw [PathText.collect, hfound]
    simp only
    rw [hx, ih hrest (by simpa using hfuel)]

/-- The cursor reads the view. -/
theorem components_eq (text : Bytes) (windows : Bool) : components text windows = view text windows :=
  (nextComponent_yields text windows).collect (by have := length_view_le text windows; unfold steps; omega)

end Nupp.PathText
