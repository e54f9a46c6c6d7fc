import Nupp.Path.PathView

/-! What a Windows prefix is made of: a drive, a share's server and name, or the parts after
a marker. -/

namespace Nupp.PathText

open Segments

variable {text : Bytes}

/-! Folding separators. -/

@[simp] theorem isSeparator_fold (b : UInt8) : isSeparator true (fold b) = isSeparator true b := by
  by_cases h : b = BACKSLASH
  · rw [h]
    rfl
  · rw [fold, if_neg h]

@[simp] theorem fold_fold (b : UInt8) : fold (fold b) = fold b := by
  by_cases h : b = BACKSLASH
  · rw [h]
    rfl
  · have hfold : fold b = b := if_neg h
    rw [hfold, hfold]

theorem fold_separator {b : UInt8} (h : isSeparator true b = true) : fold b = SLASH := by
  simp only [isSeparator, Bool.true_and, Bool.or_eq_true, decide_eq_true_eq] at h
  rcases h with rfl | rfl <;> rfl

theorem fold_name {b : UInt8} (h : isSeparator true b = false) : fold b = b := by
  have hne : b ≠ BACKSLASH := by
    rintro rfl
    cases h
  rw [fold, if_neg hne]

theorem map_fold_name {n : Bytes} (h : ∀ b ∈ n, isSeparator true b = false) : n.map fold = n := by
  rw [List.map_congr_left (fun b hb => fold_name (h b hb)), List.map_id']

/-- Folding writes the parts with slashes between them. -/
theorem map_fold_eq (l : Bytes) : l.map fold = List.intercalate [SLASH] (l.splitOnP (isSeparator true)) := by
  induction l with
  | nil => rfl
  | cons b l ih =>
    obtain ⟨n, parts, hparts⟩ := List.exists_cons_of_ne_nil (List.splitOnP_ne_nil (isSeparator true) l)
    rw [List.splitOnP_cons_eq_if_modifyHead, List.map_cons, ih, hparts]
    by_cases h : isSeparator true b = true
    · rw [if_pos h, fold_separator h]
      simp [List.intercalate, List.intersperse]
    · rw [if_neg h, fold_name (by simpa using h)]
      cases parts <;> simp [List.intercalate, List.intersperse]

theorem splitOnP_map_fold (l : Bytes) :
    (l.map fold).splitOnP (isSeparator true) = l.splitOnP (isSeparator true) := by
  rw [map_fold_eq, splitOnP_intercalate rfl (List.splitOnP_ne_nil _ _) (fun n hn => not_sep_of_mem_parts hn)]

/-- Names are those of the parts. -/
theorem names_eq_parts (l : Bytes) :
    names true l = (l.splitOnP (isSeparator true)).filter fun n => n ≠ [] ∧ n ≠ [DOT] := by
  rw [names, segments, List.filter_filter]
  congr 1
  funext n
  cases n <;> simp

theorem names_map_fold (l : Bytes) : names true (l.map fold) = names true l := by
  rw [names_eq_parts, splitOnP_map_fold, names_eq_parts]

/-! Reading a prefix. -/

/-- Nothing, or a separator first. -/
def Closed (rest : Bytes) : Prop := ∀ b ∈ rest.head?, isSeparator true b = true

theorem scan_run {p : UInt8 → Bool} {at_ : ℕ} {n r : Bytes} (h : text.drop at_ = n ++ r)
    (hn : ∀ b ∈ n, p b = true) (hr : ∀ b ∈ r.head?, p b = false) : scan text p at_ = at_ + n.length := by
  have htake : (n ++ r).takeWhile p = n := by
    rw [List.takeWhile_append_of_pos hn]
    cases r with
    | nil => simp
    | cons b r => simp [hr b rfl]
  rw [scan, h, htake]

theorem drop_run {at_ : ℕ} {n r : Bytes} (h : text.drop at_ = n ++ r) : text.drop (at_ + n.length) = r := by
  rw [← List.drop_drop, h, List.drop_left]

/-- A server, separators, a share and what follows it. -/
structure ShareSplit (text server gap share rest : Bytes) : Prop where
  eq : text.drop 2 = server ++ (gap ++ (share ++ rest))
  server_name : ∀ b ∈ server, isName true b = true
  gap_separator : ∀ b ∈ gap, isSeparator true b = true
  share_name : ∀ b ∈ share, isName true b = true
  after_server : Closed (gap ++ (share ++ rest))
  after_gap : ∀ b ∈ (share ++ rest).head?, isSeparator true b = false
  after_share : Closed rest

theorem exists_shareSplit (text : Bytes) : ∃ server gap share rest, ShareSplit text server gap share rest := by
  generalize hl : text.drop 2 = l
  generalize hafter : l.dropWhile (isName true) = after
  generalize hlast : after.dropWhile (isSeparator true) = last
  have hcut : ∀ {p : UInt8 → Bool} (m : Bytes), m = m.takeWhile p ++ m.dropWhile p :=
    fun m => List.takeWhile_append_dropWhile.symm
  have hmem : ∀ {p : UInt8 → Bool} {m : Bytes}, ∀ b ∈ m.takeWhile p, p b = true :=
    fun b hb => List.mem_takeWhile_imp hb
  have hclosed : ∀ m : Bytes, Closed (m.dropWhile (isName true)) := fun m => head_dropWhile_not
  refine ⟨l.takeWhile (isName true), after.takeWhile (isSeparator true), last.takeWhile (isName true),
    last.dropWhile (isName true), ⟨?_, hmem, hmem, hmem, ?_, ?_, hclosed last⟩⟩
  · rw [← hcut last, ← hlast, ← hcut after, ← hafter, ← hcut l, hl]
  · rw [← hcut last, ← hlast, ← hcut after, ← hafter]
    exact hclosed l
  · rw [← hcut last, ← hlast]
    intro b hb
    have hnot := List.head?_dropWhile_not (isSeparator true) after
    rw [Option.mem_def.mp hb] at hnot
    simpa using hnot

section Share

variable {text' server gap share rest rest' : Bytes}

theorem ShareSplit.sharePrefix_eq (h : ShareSplit text server gap share rest) :
    sharePrefix text true = 2 + server.length + gap.length + share.length := by
  have hnot : ∀ {r : Bytes}, Closed r → ∀ b ∈ r.head?, isName true b = false := by
    intro r hr b hb
    rw [isName, hr b hb]
    rfl
  have hserver := scan_run h.eq h.server_name (hnot h.after_server)
  have hdrop := drop_run h.eq
  have hgap := scan_run hdrop h.gap_separator h.after_gap
  have hdrop' := drop_run hdrop
  have hshare := scan_run hdrop' h.share_name (hnot h.after_share)
  simp only [sharePrefix, hserver, hgap]
  split_ifs with hend
  · rw [hend, List.drop_length] at hdrop'
    have hnil : share = [] := (List.append_eq_nil_iff.mp hdrop'.symm).1
    rw [hnil, List.length_nil]
    omega
  · exact hshare

theorem ShareSplit.drop_eq (h : ShareSplit text server gap share rest) :
    text.drop (sharePrefix text true) = rest := by
  rw [h.sharePrefix_eq]
  exact drop_run (drop_run (drop_run h.eq))

theorem ShareSplit.rest_nil_of_share (h : ShareSplit text server gap share rest) (hnil : share = []) : rest = [] := by
  cases rest with
  | nil => rfl
  | cons b rest =>
    have hsep := h.after_share b rfl
    have hname := h.after_gap b (by rw [hnil]; rfl)
    rw [hsep] at hname
    cases hname

theorem ShareSplit.nil_of_gap (h : ShareSplit text server gap share rest) (hnil : gap = []) : share ++ rest = [] := by
  cases hr : share ++ rest with
  | nil => rfl
  | cons b r =>
    have hsep := h.after_server b (by rw [hnil, hr]; rfl)
    have hname := h.after_gap b (by rw [hr]; rfl)
    rw [hsep] at hname
    cases hname

/-- A share's prefix stays one when its separators are folded and other text follows it. -/
theorem ShareSplit.folded (h : ShareSplit text server gap share rest) (hclosed : Closed rest')
    (hrest : share = [] → rest' = [])
    (hdrop : text'.drop 2 = server.map fold ++ (gap.map fold ++ (share.map fold ++ rest'))) :
    ShareSplit text' (server.map fold) (gap.map fold) (share.map fold) rest' := by
  have hall : ∀ {q : UInt8 → Bool} {l : Bytes}, (∀ b, q (fold b) = q b) → (∀ b ∈ l, q b = true) →
      ∀ b ∈ l.map fold, q b = true := by
    intro q l hq hl b hb
    obtain ⟨a, ha, rfl⟩ := List.mem_map.mp hb
    rw [hq, hl a ha]
  have hname : ∀ b, isName true (fold b) = isName true b := fun b => by simp [isName]
  refine ⟨hdrop, hall hname h.server_name, hall isSeparator_fold h.gap_separator, hall hname h.share_name,
    ?_, ?_, hclosed⟩
  · cases gap with
    | nil =>
      have hnil := List.append_eq_nil_iff.mp (h.nil_of_gap rfl)
      rw [hnil.1, hrest hnil.1]
      rintro _ ⟨⟩
    | cons b gap =>
      intro c hc
      obtain rfl : fold b = c := by simpa using hc
      rw [isSeparator_fold, h.gap_separator b List.mem_cons_self]
  · cases share with
    | nil =>
      rw [hrest rfl]
      rintro _ ⟨⟩
    | cons b share =>
      intro c hc
      obtain rfl : fold b = c := by simpa using hc
      have hb := h.share_name b List.mem_cons_self
      rw [isSeparator_fold]
      simpa [isName] using hb

end Share

/-- The bytes of a marker. -/
structure Marker (a b m s : UInt8) : Prop where
  first : isSeparator true a = true
  second : isSeparator true b = true
  mark : m = QUESTION ∨ m = DOT
  last : isSeparator true s = true

theorem exists_marker (h : isMarked text true = true) : ∃ a b m s l, text = a :: b :: m :: s :: l ∧ Marker a b m s := by
  match text with
  | [] | [_] | [_, _] | [_, _, _] => simp [isMarked, isDouble, separatorAt, byteAt] at h
  | a :: b :: m :: s :: l =>
    simp only [isMarked, isDouble, separatorAt, byteAt, Nat.sub_self, List.getElem?_cons_zero, Option.any_some,
      Nat.add_one_sub_one, List.getElem?_cons_succ, Option.some.injEq, Bool.and_eq_true, Bool.or_eq_true,
      decide_eq_true_eq] at h
    obtain ⟨⟨⟨ha, hb⟩, hm⟩, hs⟩ := h
    exact ⟨a, b, m, s, l, rfl, ha, hb, hm, hs⟩

theorem not_drive_of_separator {b : UInt8} (h : isSeparator true b = true) (l : Bytes) : isDrive (b :: l) = false := by
  simp only [isSeparator, Bool.true_and, Bool.or_eq_true, decide_eq_true_eq] at h
  rcases h with rfl | rfl <;> rfl

/-- The further parts of a marked prefix after its first one. -/
def furtherParts (m : UInt8) (l : Bytes) : ℕ :=
  if m = QUESTION && isUnc (l.takeWhile (isName true)) then 2 else 0

theorem markedParts_eq {k at_ : ℕ} (h : at_ ≤ text.length) :
    markedParts text true k (scan text (isName true) at_) =
      at_ + extent (isSeparator true) k (text.drop at_) := by
  induction k generalizing at_ with
  | zero => rfl
  | succ k ih =>
    have hle := scan_le (p := isName true) h
    have hdrop : text.drop (scan text (isName true) at_) = (text.drop at_).dropWhile (isName true) := drop_scan _ _
    rw [markedParts, extent]
    split_ifs with hend
    · rw [hend, List.drop_length] at hdrop
      have hnil : ((text.drop at_).dropWhile fun b => !isSeparator true b) = [] := hdrop.symm
      rw [hnil]
      rfl
    · have hne : text.drop (scan text (isName true) at_) ≠ [] := by
        rw [ne_eq, List.drop_eq_nil_iff]
        omega
      obtain ⟨s, r, hr⟩ := List.exists_cons_of_ne_nil hne
      have htail : text.drop (scan text (isName true) at_ + 1) = r := by rw [← List.drop_drop, hr]; rfl
      have hcut : ((text.drop at_).dropWhile fun b => !isSeparator true b) = s :: r := hdrop.symm.trans hr
      rw [ih (by omega), htail, hcut, scan]
      show _ = at_ + (((text.drop at_).takeWhile (isName true)).length + (1 + extent (isSeparator true) k r))
      omega

section Marked

variable {a b m s : UInt8} {l : Bytes}

theorem Marker.isDouble (h : Marker a b m s) (l : Bytes) : isDouble (a :: b :: m :: s :: l) true = true := by
  simp [PathText.isDouble, separatorAt, byteAt, h.first, h.second]

theorem Marker.isMarked (h : Marker a b m s) (l : Bytes) : isMarked (a :: b :: m :: s :: l) true = true := by
  have hmark := h.mark
  simp [PathText.isMarked, h.isDouble, separatorAt, byteAt, h.last, hmark]

theorem Marker.prefixLength_eq (h : Marker a b m s) (l : Bytes) :
    prefixLength (a :: b :: m :: s :: l) true = 4 + extent (isSeparator true) (furtherParts m l) l := by
  have hdrive := not_drive_of_separator h.first (b :: m :: s :: l)
  have hparts : ∀ k, _ := fun k => markedParts_eq (k := k) (show 4 ≤ (a :: b :: m :: s :: l).length by simp)
  have hslice : slice (a :: b :: m :: s :: l) 5 (scan (a :: b :: m :: s :: l) (isName true) 4 - 4) =
      l.takeWhile (isName true) := slice_scan (isName true) 4
  unfold prefixLength furtherParts
  simp only [Bool.not_true, Bool.false_eq_true, if_false, hdrive, h.isDouble, h.isMarked, if_true,
    List.getElem?_cons_succ, List.getElem?_cons_zero, Option.some.injEq, hslice]
  split_ifs
  · exact hparts 2
  · exact hparts 0

theorem Marker.normalizePrefix_eq (h : Marker a b m s) (l : Bytes) :
    normalizePrefix (a :: b :: m :: s :: l) true = 3 := by
  have hdrive := not_drive_of_separator h.first (b :: m :: s :: l)
  have hm : isSeparator true m = false := by
    rcases h.mark with rfl | rfl <;> rfl
  have hscan : scan (a :: b :: m :: s :: l) (isName true) 2 = 3 := by
    simp [scan, isName, hm, h.last]
  simp [normalizePrefix, hdrive, h.isDouble, h.isMarked, hscan]

end Marked

/-! The prefixes of the two readers. -/

theorem isDrive_iff : isDrive text = true ↔ ∃ c l, text = c :: COLON :: l ∧ isDriveLetter c = true := by
  match text with
  | [] => simp [isDrive]
  | [c] => simp [isDrive]
  | c :: d :: l =>
    simp only [isDrive, List.getElem?_cons_zero, Option.any_some, List.getElem?_cons_succ, Option.some.injEq,
      Bool.and_eq_true, decide_eq_true_eq, List.cons.injEq]
    constructor
    · rintro ⟨hc, rfl⟩
      exact ⟨c, l, ⟨rfl, rfl, rfl⟩, hc⟩
    · rintro ⟨c', l', ⟨rfl, rfl, rfl⟩, hc⟩
      exact ⟨hc, rfl⟩

theorem prefixes_drive (h : isDrive text = true) : prefixLength text true = 2 ∧ normalizePrefix text true = 2 := by
  obtain ⟨c, l, rfl, -⟩ := isDrive_iff.mp h
  simp [prefixLength, normalizePrefix, h]

theorem fold_letter {c : UInt8} (h : isDriveLetter c = true) : fold c = c := by
  have hne : c ≠ BACKSLASH := by
    rintro rfl
    cases h
  exact if_neg hne

theorem isDouble_cons (b : UInt8) (l : Bytes) : isDouble (b :: l) true = (isSeparator true b && startsRooted true l) := by
  cases l <;> simp [isDouble, separatorAt, byteAt, startsRooted]

theorem isDouble_iff : isDouble text true = true ↔
    ∃ a b l, text = a :: b :: l ∧ isSeparator true a = true ∧ isSeparator true b = true := by
  match text with
  | [] => simp [isDouble, separatorAt, byteAt]
  | [a] => simp [isDouble, separatorAt, byteAt]
  | a :: b :: l => simp [isDouble, separatorAt, byteAt]

theorem prefixes_share (h : isDouble text true = true) (hmarked : isMarked text true = false) :
    prefixLength text true = sharePrefix text true ∧ normalizePrefix text true = sharePrefix text true := by
  obtain ⟨a, b, l, rfl, ha, -⟩ := isDouble_iff.mp h
  have hdrive := not_drive_of_separator ha (b :: l)
  simp [prefixLength, normalizePrefix, h, hmarked, hdrive]

theorem prefixes_none (hdrive : isDrive text = false) (hdouble : isDouble text true = false) :
    prefixLength text true = 0 ∧ normalizePrefix text true = 0 := by
  simp [prefixLength, normalizePrefix, hdrive, hdouble]

/-- A marker is a server of one byte. -/
theorem ShareSplit.isMarked_iff {server gap share rest : Bytes} (h : ShareSplit text server gap share rest)
    (hdouble : isDouble text true = true) :
    isMarked text true = true ↔ (server = [QUESTION] ∨ server = [DOT]) ∧ gap ≠ [] := by
  constructor
  · intro hmarked
    obtain ⟨a, b, m, s, l, rfl, hmarker⟩ := exists_marker hmarked
    have heq : m :: s :: l = server ++ (gap ++ (share ++ rest)) := h.eq
    have hm : isSeparator true m = false := by
      rcases hmarker.mark with rfl | rfl <;> rfl
    match server, heq with
    | [], heq =>
      have hsep := h.after_server m (by rw [← List.nil_append (gap ++ _), ← heq]; rfl)
      rw [hm] at hsep
      cases hsep
    | [c], heq =>
      simp only [List.singleton_append, List.cons.injEq] at heq
      obtain ⟨rfl, heq⟩ := heq
      refine ⟨by rcases hmarker.mark with rfl | rfl <;> simp, fun hnil => ?_⟩
      rw [hnil, h.nil_of_gap hnil] at heq
      cases heq
    | c :: d :: server, heq =>
      simp only [List.cons_append, List.cons.injEq] at heq
      have hd := h.server_name d (by simp)
      rw [← heq.2.1, isName, hmarker.last] at hd
      cases hd
  · rintro ⟨hserver, hgap⟩
    obtain ⟨a, b, l, rfl, ha, hb⟩ := isDouble_iff.mp hdouble
    obtain ⟨g, gap, rfl⟩ := List.exists_cons_of_ne_nil hgap
    have hg := h.gap_separator g List.mem_cons_self
    have heq : l = server ++ (g :: gap ++ (share ++ rest)) := h.eq
    have hmarker : ∀ m, m = QUESTION ∨ m = DOT → Marker a b m g := fun m hm => ⟨ha, hb, hm, hg⟩
    rcases hserver with rfl | rfl
    · rw [heq]
      exact (hmarker _ (.inl rfl)).isMarked _
    · rw [heq]
      exact (hmarker _ (.inr rfl)).isMarked _

/-! What follows a prefix. -/

theorem nil_of_closed {rest : Bytes} (h : Closed rest) (hroot : startsRooted true rest = false) : rest = [] := by
  cases rest with
  | nil => rfl
  | cons b rest =>
    have hb : isSeparator true b = false := hroot
    rw [h b rfl] at hb
    cases hb

section Marked

variable {a b m s : UInt8} {l : Bytes}

theorem furtherParts_eq {l' : Bytes} (h : (l.splitOnP (isSeparator true)).head? = (l'.splitOnP (isSeparator true)).head?) :
    furtherParts m l = furtherParts m l' := by
  rw [splitOnP_cut, splitOnP_cut, List.head?_cons, List.head?_cons, Option.some.injEq] at h
  have hname : l.takeWhile (isName true) = l'.takeWhile (isName true) := h
  rw [furtherParts, hname, furtherParts]

theorem closed_of_after {rest : Bytes} {parts : List Bytes} (h : After (isSeparator true) rest parts) : Closed rest := by
  rcases h with ⟨rfl, -⟩ | ⟨c, r, rfl, hc, -⟩
  · exact nofun
  · intro d hd
    obtain rfl : c = d := by simpa using hd
    exact hc

/-- The parts of a marked path's prefix and what follows it. -/
theorem Marker.parts (h : Marker a b m s) (l : Bytes) :
    let text := a :: b :: m :: s :: l
    let k := furtherParts m l + 1
    ∃ body rest, l = body ++ rest ∧ text.take (prefixLength text true) = a :: b :: m :: s :: body ∧
      text.drop (prefixLength text true) = rest ∧
      body.splitOnP (isSeparator true) = (l.splitOnP (isSeparator true)).take k ∧
      After (isSeparator true) rest ((l.splitOnP (isSeparator true)).drop k) := by
  intro text k
  obtain ⟨hbody, hafter⟩ := extent_spec (p := isSeparator true) (furtherParts m l) l
  have hfrontLength := h.prefixLength_eq l
  refine ⟨_, _, (List.take_append_drop _ _).symm, ?_, ?_, hbody, hafter⟩
  · rw [hfrontLength, Nat.add_comm]
    rfl
  · rw [hfrontLength, Nat.add_comm]
    rfl

end Marked

end Nupp.PathText
