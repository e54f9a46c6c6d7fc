import Nupp.Path.RelativeView

/-! What the reading of a path decides: its normal form, the prefix of text that starts the
same way, and what a join is read as. -/

namespace Nupp.PathText

open Segments

variable {text text' target base front : Bytes} {windows rooted : Bool} {ns : List Bytes}

/-! A reading decides the normal form. -/

theorem isMarked_front (text : Bytes) :
    isMarked (foldPrefix true (text.take (prefixLength text true))) true = isMarked text true := by
  have hfold : foldPrefix true (text.take (prefixLength text true)) = (text.take (prefixLength text true)).map fold := rfl
  rw [hfold, isMarked_map_fold]
  by_cases hmarked : isMarked text true = true
  · obtain ⟨a, b, m, s, l, rfl, h⟩ := exists_marker hmarked
    obtain ⟨body, rest, -, hfront, -, -, -⟩ := h.parts l
    rw [hfront, h.isMarked, h.isMarked]
  · by_contra hnot
    have hshort : isMarked (text.take (prefixLength text true)) true = true := by
      cases hcase : isMarked (text.take (prefixLength text true)) true with
      | true => rfl
      | false =>
        rw [hcase] at hnot
        exact absurd (by simpa using hmarked) hnot
    obtain ⟨a, b, m, s, l, heq, h⟩ := exists_marker hshort
    have htext : text = a :: b :: m :: s :: (l ++ text.drop (prefixLength text true)) := by
      conv_lhs => rw [← List.take_append_drop (prefixLength text true) text, heq]
      rfl
    rw [htext] at hmarked
    exact hmarked (h.isMarked _)

theorem normalize_marked {a b m s : UInt8} {l : Bytes} (h : Marker a b m s)
    (hverbatim : isVerbatim (a :: b :: m :: s :: l) true = false) :
    normalize (a :: b :: m :: s :: l) true = markedOutcome m l := by
  rw [normalize, hverbatim, h.normalizeImpl_eq]
  rfl

theorem prefixes_eq (hmarked : isMarked text true = false) :
    normalizePrefix text true = prefixLength text true := by
  by_cases hdrive : isDrive text = true
  · rw [(prefixes_drive hdrive).1, (prefixes_drive hdrive).2]
  rw [Bool.not_eq_true] at hdrive
  by_cases hdouble : isDouble text true = true
  · rw [(prefixes_share hdouble hmarked).1, (prefixes_share hdouble hmarked).2]
  · rw [Bool.not_eq_true] at hdouble
    rw [(prefixes_none hdrive hdouble).1, (prefixes_none hdrive hdouble).2]

theorem Reads.normalize_build (h : Reads windows text front rooted ns) (hverbatim : isVerbatim text windows = false)
    (hmarked : windows = true → isMarked text true = false) :
    normalize text windows = build front rooted (resolveNames rooted ns) := by
  have hprefixes : normalizePrefix text windows = prefixLength text windows := by
    cases windows with
    | true => exact prefixes_eq (hmarked rfl)
    | false => rfl
  rw [normalize_outcome hverbatim hprefixes, outcome, h.front_eq, h.root_eq, h.names_eq]

theorem Reads.normalize_eq {ns' : List Bytes} (h : Reads windows text front rooted ns)
    (h' : Reads windows text' front rooted ns') (hverbatim : isVerbatim text windows = false)
    (hverbatim' : isVerbatim text' windows = false)
    (hsame : ∀ r stack, resolve dots r stack ns = resolve dots r stack ns') :
    normalize text windows = normalize text' windows := by
  have hresolve : ∀ r, resolveNames r ns = resolveNames r ns' := by
    intro r
    rw [resolveNames, hsame, resolveNames]
  by_cases hmarked : windows = true ∧ isMarked text true = true
  · obtain ⟨rfl, hmarked⟩ := hmarked
    have hmarked' : isMarked text' true = true := by
      rw [← isMarked_front, h'.front_eq, ← h.front_eq, isMarked_front, hmarked]
    obtain ⟨a, b, m, s, l, rfl, hm⟩ := exists_marker hmarked
    obtain ⟨a', b', m', s', l', rfl, hm'⟩ := exists_marker hmarked'
    obtain ⟨body, rest, hl, hfront, hrest, -, hafter⟩ := hm.parts l
    obtain ⟨body', rest', hl', hfront', hrest', -, hafter'⟩ := hm'.parts l'
    have hfronts := h.front_eq.trans h'.front_eq.symm
    rw [hfront, hfront'] at hfronts
    simp only [foldPrefix, if_true, List.map_cons, List.cons.injEq, hm.fold_mark, hm'.fold_mark] at hfronts
    obtain ⟨-, -, hmark, -, hbody⟩ := hfronts
    have hnames := h.names_eq
    have hnames' := h'.names_eq
    rw [hrest] at hnames
    rw [hrest'] at hnames'
    have hbodies : names true body = names true body' := by
      rw [← names_map_fold body, ← names_map_fold body']
      exact congrArg (names true) hbody
    rw [normalize_marked hm hverbatim, normalize_marked hm' hverbatim', markedOutcome, markedOutcome, hmark,
      hl, hl', names_append body (closed_of_after hafter), names_append body' (closed_of_after hafter'),
      hnames, hnames', hbodies, resolveNames, resolveNames, resolve_append, resolve_append, hsame]
  · have hnot : windows = true → isMarked text true = false := by
      intro hw
      by_contra hcon
      exact hmarked ⟨hw, by simpa using hcon⟩
    have hnot' : windows = true → isMarked text' true = false := by
      rintro rfl
      rw [← isMarked_front, h'.front_eq, ← h.front_eq, isMarked_front, hnot rfl]
    rw [h.normalize_build hverbatim hnot, h'.normalize_build hverbatim' hnot', hresolve]

/-! Text that goes on after the same prefix. -/

/-- What may follow the prefix of a path. -/
def Fits (text rest : Bytes) : Prop :=
  isDrive text = false →
    (isDouble text true = true → Closed rest ∧ (text.drop (prefixLength text true) = [] → rest = [])) ∧
    (isDouble text true = false → isDrive rest = false ∧ isDouble rest true = false)

theorem Reads.replace {rest : Bytes} (h : Reads true text front rooted ns)
    (htext : text'.map fold = front ++ rest.map fold) (hfits : Fits text rest) :
    Reads true text' front (startsRooted true rest) (names true rest) := by
  have hfront : (text.take (prefixLength text true)).map fold = front := h.front_eq
  have hlength : front.length = prefixLength text true := by
    rw [← hfront, List.length_map, List.length_take_of_le (prefixLength_le text true)]
  have hread : prefixLength text' true = front.length := by
    rw [hlength]
    by_cases hdrive : isDrive text = true
    · obtain ⟨hp, -⟩ := prefixes_drive hdrive
      obtain ⟨c, l, rfl, hc⟩ := isDrive_iff.mp hdrive
      rw [hp] at hfront ⊢
      have hdrive' : isDrive text' = true := by
        rw [← isDrive_map_fold, htext, ← hfront]
        simp only [List.take_succ_cons, List.take_zero, List.map_cons, List.map_nil, List.cons_append, List.nil_append,
          fold_letter hc]
        exact isDrive_iff.mpr ⟨c, _, rfl, hc⟩
      exact (prefixes_drive hdrive').1
    rw [Bool.not_eq_true] at hdrive
    obtain ⟨hdouble, hnone⟩ := hfits hdrive
    by_cases hd : isDouble text true = true
    · obtain ⟨hclosed, hnil⟩ := hdouble hd
      rw [← hfront] at htext
      by_cases hmarked : isMarked text true = true
      · exact (marked_stable htext hclosed hnil hmarked).2
      · exact (share_stable htext hclosed hnil hd (by simpa using hmarked)).2.2
    · rw [Bool.not_eq_true] at hd
      obtain ⟨hp, -⟩ := prefixes_none hdrive hd
      obtain ⟨hdrive', hdouble'⟩ := hnone hd
      rw [hp, List.take_zero, List.map_nil] at hfront
      rw [← hfront, List.nil_append] at htext
      rw [hp]
      refine (prefixes_none ?_ ?_).1
      · rw [← isDrive_map_fold, htext, isDrive_map_fold, hdrive']
      · rw [← isDouble_map_fold, htext, isDouble_map_fold, hdouble']
  have htake : (text'.take front.length).map fold = front := by rw [List.map_take, htext, List.take_left]
  have hdrop : (text'.drop front.length).map fold = rest.map fold := by rw [List.map_drop, htext, List.drop_left]
  refine ⟨?_, ?_, ?_⟩
  · rw [hread]
    exact htake
  · rw [hread, ← startsRooted_map_fold, hdrop, startsRooted_map_fold]
  · rw [hread, ← names_map_fold, hdrop, names_map_fold]

/-! Joining. -/

theorem pushPart_nil (windows : Bool) (part : Bytes) : pushPart windows [] part = part := by
  simp [pushPart]

theorem join_pair (windows : Bool) (base part : Bytes) :
    join windows [base, part] = finish (pushPart windows base part) windows := by
  simp [join, pushPart_nil]

theorem separatorAt_last (l : Bytes) (b : UInt8) (windows : Bool) :
    separatorAt (l ++ [b]) windows (l ++ [b]).length = isSeparator windows b := by
  simp [separatorAt, byteAt]

theorem separatorAt_one (text : Bytes) (windows : Bool) : separatorAt text windows 1 = startsRooted windows text := by
  cases text <;> simp [separatorAt, byteAt, startsRooted]

/-- A part without an anchor follows the base, after a separator where one is needed. -/
theorem pushPart_relative {piece : Bytes} (hp : prefixLength piece windows = 0)
    (hroot : startsRooted windows piece = false) (hverbatim : isVerbatim base windows = false) :
    (pushPart windows base piece = base ++ piece ∧ (base = [] ∨ separatorAt base windows base.length = true ∨
      (prefixLength base windows = base.length ∧ base.getLast? = some COLON))) ∨
    (pushPart windows base piece = base ++ SLASH :: piece ∧ base ≠ [] ∧ separatorAt base windows base.length = false ∧
      ¬ (prefixLength base windows = base.length ∧ base.getLast? = some COLON)) := by
  have hplain : (decide (prefixLength piece windows ≠ 0) || separatorAt piece windows 1) = false := by
    rw [separatorAt_one, hroot, hp]
    rfl
  simp only [pushPart, hplain, hverbatim]
  by_cases hnil : base = []
  · exact .inl ⟨by simp [hnil], .inl hnil⟩
  by_cases hsep : separatorAt base windows base.length = true
  · exact .inl ⟨by simp [hsep], .inr (.inl hsep)⟩
  rw [Bool.not_eq_true] at hsep
  by_cases hcolon : prefixLength base windows = base.length ∧ base.getLast? = some COLON
  · exact .inl ⟨by simp [hcolon.1, hcolon.2], .inr (.inr hcolon)⟩
  · refine .inr ⟨?_, hnil, hsep, hcolon⟩
    have hadd : (decide (prefixLength base windows ≠ base.length) || decide (base.getLast? ≠ some COLON)) = true := by
      rw [Bool.or_eq_true, decide_eq_true_eq, decide_eq_true_eq]
      by_cases hl : prefixLength base windows = base.length
      · exact .inr fun hlast => hcolon ⟨hl, hlast⟩
      · exact .inl hl
    rw [hadd, hsep]
    simp [hnil]

/-- Names before and after a separator. -/
theorem names_separated (l : Bytes) {b : UInt8} (h : isSeparator windows b = true) (r : Bytes) :
    names windows (l ++ b :: r) = names windows l ++ names windows r := by
  have hhead : ∀ c ∈ (b :: r).head?, isSeparator windows c = true := by
    intro c hc
    obtain rfl : b = c := by simpa using hc
    exact h
  rw [names_append l hhead, names_cons_sep h]

theorem names_snoc (l : Bytes) {b : UInt8} (h : isSeparator windows b = true) :
    names windows (l ++ [b]) = names windows l := by
  rw [names_separated l h, names_nil, List.append_nil]

/-- The names of a base and of the part that follows it. -/
theorem push_names {piece : Bytes} (hp : prefixLength piece windows = 0) (hroot : startsRooted windows piece = false)
    (hverbatim : isVerbatim base windows = false)
    (hbare : base.drop (prefixLength base windows) = [] → base = [] ∨ base.getLast? = some COLON) :
    ∃ rest, pushPart windows base piece = base.take (prefixLength base windows) ++ rest ∧
      names windows rest = names windows (base.drop (prefixLength base windows)) ++ names windows piece ∧
      startsRooted windows rest = startsRooted windows (base.drop (prefixLength base windows)) ∧
      (base.drop (prefixLength base windows) ≠ [] →
        rest.head? = (base.drop (prefixLength base windows)).head?) ∧
      (base.drop (prefixLength base windows) = [] → rest = piece) := by
  have hsplit := List.take_append_drop (prefixLength base windows) base
  have hlength : prefixLength base windows = base.length ↔ base.drop (prefixLength base windows) = [] := by
    rw [List.drop_eq_nil_iff]
    have hle := prefixLength_le base windows
    omega
  generalize hr : base.drop (prefixLength base windows) = r at hsplit hlength hbare ⊢
  generalize base.take (prefixLength base windows) = f at hsplit ⊢
  have hpush := pushPart_relative hp hroot hverbatim
  by_cases hnil : r = []
  · refine ⟨piece, ?_, by rw [hnil]; rfl, by rw [hroot, hnil]; rfl, fun h => absurd hnil h, fun _ => rfl⟩
    rw [hnil, List.append_nil] at hsplit
    rcases hpush with ⟨heq, -⟩ | ⟨-, hne, -, hnot⟩
    · rw [heq, hsplit]
    · rcases hbare hnil with h | h
      · exact absurd h hne
      · exact absurd ⟨hlength.mpr hnil, h⟩ hnot
  · have hlast : ∃ r' b, r = r' ++ [b] := by
      cases r using List.reverseRecOn with
      | nil => exact absurd rfl hnil
      | append_singleton r' b => exact ⟨r', b, rfl⟩
    have hstart : ∀ x : Bytes, startsRooted windows (r ++ x) = startsRooted windows r ∧ (r ++ x).head? = r.head? := by
      intro x
      cases r with
      | nil => exact absurd rfl hnil
      | cons b r => exact ⟨rfl, rfl⟩
    rcases hpush with ⟨heq, hend⟩ | ⟨heq, -, -, -⟩
    · refine ⟨r ++ piece, by rw [heq, ← List.append_assoc, hsplit], ?_, (hstart _).1, fun _ => (hstart _).2,
        fun h => absurd h hnil⟩
      obtain ⟨r', b, rfl⟩ := hlast
      have hb : isSeparator windows b = true := by
        rcases hend with h | h | h
        · rw [h] at hsplit
          simp at hsplit
        · rw [← hsplit, ← List.append_assoc, separatorAt_last] at h
          exact h
        · exact absurd (hlength.mp h.1) hnil
      rw [names_snoc r' hb, List.append_assoc, List.singleton_append, names_separated r' hb]
    · refine ⟨r ++ SLASH :: piece, by rw [heq, ← List.append_assoc, hsplit], names_separated r isSeparator_slash piece,
        (hstart _).1, fun _ => (hstart _).2, fun h => absurd h hnil⟩

/-- The text of a relative part. -/
def piece (ns : List Bytes) : Bytes := if ns = [] then [DOT] else List.intercalate [SLASH] ns

section Piece

variable (hproper : ∀ n ∈ ns, ProperName windows n)

include hproper

theorem names_piece : names windows (piece ns) = ns := by
  by_cases hnil : ns = []
  · rw [hnil]
    cases windows <;> rfl
  · rw [piece, if_neg hnil, names_intercalate hproper]

theorem startsRooted_piece : startsRooted windows (piece ns) = false := by
  by_cases hnil : ns = []
  · rw [hnil]
    cases windows <;> rfl
  · rw [piece, if_neg hnil, head_intercalate hproper]

theorem foldPrefix_piece : foldPrefix windows (piece ns) = piece ns := by
  by_cases hnil : ns = []
  · rw [hnil]
    cases windows <;> rfl
  · rw [piece, if_neg hnil, foldPrefix_intercalate hproper]

end Piece

theorem not_double_of_start (h : startsRooted true text = false) : isDouble text true = false := by
  cases text with
  | nil => rfl
  | cons b l =>
    have hb : isSeparator true b = false := h
    rw [isDouble_cons, hb, Bool.false_and]

theorem isDrive_piece (hproper : ∀ n ∈ ns, ProperName true n) (hdrive : ∀ n ∈ ns.head?, isDrive n = false) :
    isDrive (piece ns) = false := by
  by_cases hnil : ns = []
  · rw [hnil]
    rfl
  · rw [piece, if_neg hnil, isDrive_intercalate hproper]
    cases hhead : ns.head? with
    | none => rfl
    | some n => exact hdrive n hhead

theorem prefixLength_piece (hproper : ∀ n ∈ ns, ProperName windows n)
    (hdrive : windows = true → ∀ n ∈ ns.head?, isDrive n = false) : prefixLength (piece ns) windows = 0 := by
  cases windows with
  | false => rfl
  | true => exact (prefixes_none (isDrive_piece hproper (hdrive rfl)) (not_double_of_start (startsRooted_piece hproper))).1

/-- A relative part after a path without a prefix gives it none. -/
theorem push_none (hdrive : isDrive base = false) (hdouble : isDouble base true = false)
    (hverbatim : isVerbatim base true = false) (hproper : ∀ n ∈ ns, ProperName true n)
    (hfirst : ∀ n ∈ ns.head?, isDrive n = false) :
    isDrive (pushPart true base (piece ns)) = false ∧ isDouble (pushPart true base (piece ns)) true = false := by
  have hstart := startsRooted_piece hproper
  have hpush := pushPart_relative (prefixLength_piece hproper fun _ => hfirst) hstart hverbatim
  match base, hdrive, hdouble with
  | [], _, _ =>
    rw [pushPart_nil]
    exact ⟨isDrive_piece hproper hfirst, not_double_of_start hstart⟩
  | [b], _, _ =>
    by_cases hb : isSeparator true b = true
    · rcases hpush with ⟨heq, -⟩ | ⟨-, -, hnot, -⟩
      · rw [heq, List.singleton_append]
        refine ⟨not_drive_of_separator hb _, ?_⟩
        rw [isDouble_cons, hstart, Bool.and_false]
      · have hsep : separatorAt [b] true 1 = true := hb
        rw [List.length_singleton, hsep] at hnot
        cases hnot
    · rw [Bool.not_eq_true] at hb
      rcases hpush with ⟨-, hend⟩ | ⟨heq, -, -, -⟩
      · rcases hend with h | h | h
        · cases h
        · have hsep : separatorAt [b] true 1 = false := hb
          rw [List.length_singleton, hsep] at h
          cases h
        · rw [(prefixes_none (by simp [isDrive]) (by rw [isDouble_cons, hb]; rfl)).1] at h
          cases h.1
      · rw [heq, List.singleton_append]
        refine ⟨by simp [isDrive, SLASH, COLON], ?_⟩
        rw [isDouble_cons, hb, Bool.false_and]
  | b :: c :: l, hdrive, hdouble =>
    rcases hpush with ⟨heq, -⟩ | ⟨heq, -, -, -⟩
    · rw [heq]
      exact ⟨hdrive, hdouble⟩
    · rw [heq]
      exact ⟨hdrive, hdouble⟩

/-- A base that is more than a share or device. -/
def Extends (windows : Bool) (base : Bytes) : Prop :=
  windows = true → isDouble base true = true → base.drop (prefixLength base true) ≠ []

theorem reads_push {nb : List Bytes} (h : Reads windows base front rooted nb) (hverbatim : isVerbatim base windows = false)
    (hextends : Extends windows base) (hproper : ∀ n ∈ ns, ProperName windows n)
    (hfirst : windows = true → ∀ n ∈ ns.head?, isDrive n = false) :
    Reads windows (pushPart windows base (piece ns)) front rooted (nb ++ ns) := by
  have hbare : base.drop (prefixLength base windows) = [] → base = [] ∨ base.getLast? = some COLON := by
    intro hnil
    cases windows with
    | false => exact .inl hnil
    | true =>
      by_cases hdrive : isDrive base = true
      · right
        rw [(prefixes_drive hdrive).1] at hnil
        obtain ⟨c, l, rfl, -⟩ := isDrive_iff.mp hdrive
        have hl : l = [] := hnil
        rw [hl]
        rfl
      · rw [Bool.not_eq_true] at hdrive
        by_cases hdouble : isDouble base true = true
        · exact absurd hnil (hextends rfl hdouble)
        · rw [Bool.not_eq_true] at hdouble
          rw [(prefixes_none hdrive hdouble).1] at hnil
          exact .inl hnil
  obtain ⟨rest, hpush, hnames, hroot, hhead, hnil⟩ := push_names (prefixLength_piece hproper hfirst)
    (startsRooted_piece hproper) hverbatim hbare
  rw [h.names_eq, names_piece hproper] at hnames
  rw [h.root_eq] at hroot
  cases windows with
  | false =>
    have hpush' : pushPart false base (piece ns) = rest := hpush
    have hfront : front = [] := h.front_eq.symm
    rw [hpush', hfront]
    exact ⟨rfl, hroot, hnames⟩
  | true =>
    rw [← hroot, ← hnames]
    refine h.replace ?_ ?_
    · rw [hpush, List.map_append]
      exact congrArg (· ++ rest.map fold) h.front_eq
    · intro hdrive
      refine ⟨fun hdouble => ?_, fun hdouble => ?_⟩
      · have hne := hextends rfl hdouble
        refine ⟨fun b hb => ?_, fun hz => absurd hz hne⟩
        rw [hhead hne] at hb
        exact closed_after_front hdouble b hb
      · have hall : pushPart true base (piece ns) = rest := by
          rw [hpush, (prefixes_none hdrive hdouble).1]
          rfl
        rw [← hall]
        exact push_none hdrive hdouble hverbatim hproper (hfirst rfl)

theorem not_verbatim_foldPrefix (text : Bytes) (windows : Bool) : isVerbatim (foldPrefix windows text) windows = false := by
  cases windows with
  | false => rfl
  | true => exact not_verbatim_of_fold (map_fold_foldPrefix text)

theorem Reads.foldPrefix (h : Reads windows text front rooted ns) :
    Reads windows (foldPrefix windows text) front rooted ns := by
  cases windows with
  | false =>
    have hsame : PathText.foldPrefix false text = text := by simp [PathText.foldPrefix]
    rw [hsame]
    exact h
  | true =>
    have hfold : PathText.foldPrefix true text = text.map fold := rfl
    rw [hfold]
    refine ⟨?_, ?_, ?_⟩
    · rw [prefixLength_map_fold, ← List.map_take]
      have htwice : PathText.foldPrefix true (PathText.foldPrefix true (text.take (prefixLength text true))) = _ :=
        foldPrefix_foldPrefix _
      exact htwice.trans h.front_eq
    · rw [prefixLength_map_fold, ← List.map_drop, startsRooted_map_fold, h.root_eq]
    · rw [prefixLength_map_fold, ← List.map_drop, names_map_fold, h.names_eq]

/-- A joined path that is read as the target is normalized as the target. -/
theorem Reads.leads {r : Bytes} {ns' : List Bytes} (h : Reads windows target front rooted ns)
    (hverbatim : isVerbatim target windows = false)
    (hpush : Reads windows (pushPart windows base r) front rooted ns')
    (hverbatim' : isVerbatim (pushPart windows base r) windows = false)
    (hsame : ∀ q stack, resolve dots q stack ns' = resolve dots q stack ns) :
    normalize (join windows [base, r]) windows = normalize target windows := by
  rw [join_pair, finish_eq hverbatim']
  exact hpush.foldPrefix.normalize_eq h (not_verbatim_foldPrefix _ _) hverbatim hsame

theorem not_verbatim_push (hverbatim : isVerbatim base windows = false) (hproper : ∀ n ∈ ns, ProperName windows n)
    (hfirst : windows = true → ∀ n ∈ ns.head?, isDrive n = false) :
    isVerbatim (pushPart windows base (piece ns)) windows = false := by
  have hfold := foldPrefix_piece hproper
  rcases pushPart_relative (prefixLength_piece hproper hfirst) (startsRooted_piece hproper) hverbatim
    with ⟨heq, -⟩ | ⟨heq, -, -, -⟩
  · rw [heq]
    exact not_verbatim_append (m := []) (by rwa [List.append_nil]) hfold
  · rw [heq]
    refine not_verbatim_append (m := []) (by rwa [List.append_nil]) ?_
    rw [← List.singleton_append, foldPrefix_append, hfold, foldPrefix_slash]

/-- A path written from its reading is read the same way, unless a name comes to its front
that looks like a drive. -/
theorem Reads.rebuild (h : Reads windows text front rooted ns)
    (hfirst : windows = true → front = [] → rooted = false → ∀ n ∈ ns.head?, isDrive n = false) :
    Reads windows (rebuild front rooted ns) front rooted ns := by
  have hproper := h.proper
  generalize hrest : (if rooted then [SLASH] else []) ++ List.intercalate [SLASH] ns = rest
  have hroot : startsRooted windows rest = rooted := by
    rw [← hrest]
    cases rooted with
    | true => simp [startsRooted, isSeparator_slash]
    | false => exact head_intercalate hproper
  have hnames : names windows rest = ns := by
    rw [← hrest]
    cases rooted with
    | true =>
      rw [if_pos rfl, List.singleton_append, names_cons_sep isSeparator_slash, names_intercalate hproper]
    | false => exact names_intercalate hproper
  have hbuild : PathText.rebuild front rooted ns = front ++ rest := by rw [PathText.rebuild, hrest]
  rw [hbuild]
  cases windows with
  | false =>
    have hfront : front = [] := h.front_eq.symm
    rw [hfront]
    exact ⟨rfl, hroot, hnames⟩
  | true =>
    have hfold : front.map fold = front := by
      rw [← h.front_eq, map_fold_foldPrefix]
      rfl
    have hreads : Reads true (front ++ rest) front (startsRooted true rest) (names true rest) := by
      refine h.replace (by rw [List.map_append, hfold]) fun hdrive => ⟨fun hdouble => ?_, fun hdouble => ?_⟩
      · have hclosed := closed_after_front hdouble
        have hempty : rooted = false → rest = [] := by
          intro hr
          have hroot' := h.root_eq
          rw [hr] at hroot'
          have hnil := nil_of_closed hclosed hroot'
          have hns := h.names_eq
          rw [hnil, names_nil] at hns
          rw [← hrest, hr, ← hns]
          rfl
        cases hr : rooted with
        | true =>
          rw [hr] at hrest
          refine ⟨fun b hb => ?_, fun hnil => ?_⟩
          · rw [← hrest] at hb
            simp at hb
            rw [← hb]
            rfl
          · have hroot' := h.root_eq
            rw [hnil, hr] at hroot'
            cases hroot'
        | false =>
          rw [hempty hr]
          exact ⟨by rintro _ ⟨⟩, fun _ => rfl⟩
      · have hfront : front = [] := by
          have hnil := h.front_eq
          rw [(prefixes_none hdrive hdouble).1] at hnil
          exact hnil.symm
        cases hr : rooted with
        | true =>
          rw [hr] at hrest
          rw [← hrest, if_pos rfl, List.singleton_append]
          refine ⟨not_drive_of_separator rfl _, ?_⟩
          rw [isDouble_cons, head_intercalate hproper, Bool.and_false]
        | false =>
          refine ⟨?_, not_double_of_start (hroot.trans hr)⟩
          rw [hr] at hrest
          have hplain : rest = List.intercalate [SLASH] ns := hrest.symm
          rw [hplain, isDrive_intercalate hproper]
          cases hhead : ns.head? with
          | none => rfl
          | some n => exact hfirst rfl hfront hr n hhead
    rw [hroot, hnames] at hreads
    exact hreads

theorem Reads.not_verbatim_rebuild (h : Reads windows text front rooted ns) :
    isVerbatim (PathText.rebuild front rooted ns) windows = false := by
  have hfolded : PathText.foldPrefix windows (PathText.rebuild front rooted ns) = PathText.rebuild front rooted ns := by
    rw [PathText.rebuild, foldPrefix_append, foldPrefix_tail h.proper, ← h.front_eq, foldPrefix_foldPrefix]
  rw [← hfolded]
  exact not_verbatim_foldPrefix _ _

end Nupp.PathText
