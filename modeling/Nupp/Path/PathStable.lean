import Nupp.Path.PathPrefix

/-! Text that starts with the prefix of a path, up to its separators, has that prefix. -/

namespace Nupp.PathText

open Segments

variable {text : Bytes}

/-! Folding changes no reading. -/

theorem isDriveLetter_fold (b : UInt8) : isDriveLetter (fold b) = isDriveLetter b := by
  by_cases h : b = BACKSLASH
  · rw [h]
    rfl
  · rw [fold, if_neg h]

theorem fold_eq_iff {b c : UInt8} (hs : c ≠ SLASH) (hb : c ≠ BACKSLASH) : fold b = c ↔ b = c := by
  by_cases h : b = BACKSLASH
  · rw [h]
    exact ⟨fun heq => absurd heq.symm hs, fun heq => absurd heq.symm hb⟩
  · rw [fold, if_neg h]

theorem isDrive_map_fold (text : Bytes) : isDrive (text.map fold) = isDrive text := by
  have hcolon : ∀ b, fold b = COLON ↔ b = COLON := fun b => fold_eq_iff (by decide) (by decide)
  match text with
  | [] => rfl
  | [b] => simp [isDrive]
  | b :: c :: l => simp [isDrive, isDriveLetter_fold, hcolon]

theorem startsRooted_map_fold (text : Bytes) : startsRooted true (text.map fold) = startsRooted true text := by
  cases text <;> simp [startsRooted]

theorem separatorAt_map_fold (text : Bytes) (p : ℕ) : separatorAt (text.map fold) true p = separatorAt text true p := by
  rw [separatorAt, separatorAt, byteAt, byteAt, List.getElem?_map, Option.any_map]
  congr 1
  funext b
  exact isSeparator_fold b

theorem isDouble_map_fold (text : Bytes) : isDouble (text.map fold) true = isDouble text true := by
  rw [isDouble, isDouble, separatorAt_map_fold, separatorAt_map_fold]

theorem getElem_map_fold {c : UInt8} (hs : c ≠ SLASH) (hb : c ≠ BACKSLASH) (text : Bytes) (i : ℕ) :
    (text.map fold)[i]? = some c ↔ text[i]? = some c := by
  rw [List.getElem?_map, Option.map_eq_some_iff]
  constructor
  · rintro ⟨b, hget, hfold⟩
    rw [hget, (fold_eq_iff hs hb).mp hfold]
  · intro hget
    exact ⟨c, hget, (fold_eq_iff hs hb).mpr rfl⟩

theorem isMarked_map_fold (text : Bytes) : isMarked (text.map fold) true = isMarked text true := by
  have hquestion : (text.map fold)[2]? = some QUESTION ↔ text[2]? = some QUESTION :=
    getElem_map_fold (by decide) (by decide) text 2
  have hdot : (text.map fold)[2]? = some DOT ↔ text[2]? = some DOT :=
    getElem_map_fold (by decide) (by decide) text 2
  rw [isMarked, isMarked, isDouble_map_fold, separatorAt_map_fold]
  simp only [hquestion, hdot]

theorem scan_map_fold {p : UInt8 → Bool} (h : ∀ b, p (fold b) = p b) (text : Bytes) (at_ : ℕ) :
    scan (text.map fold) p at_ = scan text p at_ := by
  have hcomp : p ∘ fold = p := funext h
  rw [scan, scan, ← List.map_drop, List.takeWhile_map, List.length_map, hcomp]

theorem isName_fold (b : UInt8) : isName true (fold b) = isName true b := by simp [isName]

theorem sharePrefix_map_fold (text : Bytes) : sharePrefix (text.map fold) true = sharePrefix text true := by
  simp only [sharePrefix, scan_map_fold isName_fold, scan_map_fold isSeparator_fold, List.length_map]

theorem extent_map_fold (k : ℕ) (l : Bytes) :
    extent (isSeparator true) k (l.map fold) = extent (isSeparator true) k l := by
  have hcomp : (fun b => !isSeparator true b) ∘ fold = fun b => !isSeparator true b :=
    funext fun b => by simp
  induction k generalizing l with
  | zero => rw [extent, extent, List.takeWhile_map, List.length_map, hcomp]
  | succ k ih =>
    rw [extent, extent, List.takeWhile_map, List.length_map, List.dropWhile_map, hcomp]
    cases l.dropWhile fun b => !isSeparator true b with
    | nil => rfl
    | cons b rest => simp only [List.map_cons, ih]

theorem furtherParts_map_fold (m : UInt8) (l : Bytes) : furtherParts m (l.map fold) = furtherParts m l :=
  furtherParts_eq (by rw [splitOnP_map_fold])

theorem Marker.folded {a b m s : UInt8} (h : Marker a b m s) : Marker (fold a) (fold b) m (fold s) :=
  ⟨by rw [isSeparator_fold, h.first], by rw [isSeparator_fold, h.second], h.mark, by rw [isSeparator_fold, h.last]⟩

theorem Marker.fold_mark {a b m s : UInt8} (h : Marker a b m s) : fold m = m := by
  rcases h.mark with rfl | rfl <;> rfl

theorem prefixLength_map_fold (text : Bytes) : prefixLength (text.map fold) true = prefixLength text true := by
  by_cases hdrive : isDrive text = true
  · rw [(prefixes_drive hdrive).1, (prefixes_drive ((isDrive_map_fold text).trans hdrive)).1]
  by_cases hmarked : isMarked text true = true
  · obtain ⟨a, b, m, s, l, rfl, h⟩ := exists_marker hmarked
    rw [List.map_cons, List.map_cons, List.map_cons, List.map_cons, h.fold_mark, h.prefixLength_eq,
      h.folded.prefixLength_eq, furtherParts_map_fold, extent_map_fold]
  rw [Bool.not_eq_true] at hdrive hmarked
  by_cases hdouble : isDouble text true = true
  · rw [(prefixes_share hdouble hmarked).1, (prefixes_share ((isDouble_map_fold text).trans hdouble)
      ((isMarked_map_fold text).trans hmarked)).1, sharePrefix_map_fold]
  · rw [Bool.not_eq_true] at hdouble
    rw [(prefixes_none hdrive hdouble).1, (prefixes_none ((isDrive_map_fold text).trans hdrive)
      ((isDouble_map_fold text).trans hdouble)).1]

/-! A prefix stays when other text follows it. -/

theorem extent_le (k : ℕ) (l : Bytes) : extent (isSeparator true) k l ≤ l.length := by
  induction k generalizing l with
  | zero =>
    rw [extent]
    exact (List.takeWhile_prefix _).length_le
  | succ k ih =>
    have hsplit := congrArg List.length
      (List.takeWhile_append_dropWhile (p := fun b => !isSeparator true b) (l := l))
    rw [List.length_append] at hsplit
    rw [extent]
    generalize (l.dropWhile fun b => !isSeparator true b) = d at hsplit
    cases d with
    | nil =>
      rw [List.length_nil] at hsplit
      simp only
      omega
    | cons b rest =>
      have hle := ih rest
      rw [List.length_cons] at hsplit
      simp only
      omega

theorem parts_append {body rest : Bytes} {parts : List Bytes} (h : After (isSeparator true) rest parts) :
    (body ++ rest).splitOnP (isSeparator true) = body.splitOnP (isSeparator true) ++ parts := by
  rcases h with ⟨rfl, rfl⟩ | ⟨c, r, rfl, hc, rfl⟩
  · rw [List.append_nil, List.append_nil]
  · exact List.splitOnP_append_cons body r hc

theorem extent_stable {k : ℕ} {body rest rest' : Bytes} {more more' : List Bytes}
    (hparts : body.splitOnP (isSeparator true) = ((body ++ rest).splitOnP (isSeparator true)).take (k + 1))
    (hafter : After (isSeparator true) rest more) (hafter' : After (isSeparator true) rest' more')
    (hnil : rest = [] → rest' = []) : extent (isSeparator true) k (body ++ rest') = body.length := by
  have htake : ((body ++ rest').splitOnP (isSeparator true)).take (k + 1) = body.splitOnP (isSeparator true) := by
    rw [parts_append hafter']
    rw [parts_append hafter] at hparts
    rcases hafter with ⟨hrest, hmore⟩ | ⟨c, r, -, -, hmore⟩
    · rcases hafter' with ⟨-, hmore'⟩ | ⟨c, r, hrest', -, -⟩
      · rw [hmore, List.append_nil] at hparts
        rw [hmore', List.append_nil, ← hparts]
      · rw [hnil hrest] at hrest'
        cases hrest'
    · have hpos : 0 < more.length := List.length_pos_of_ne_nil (hmore ▸ List.splitOnP_ne_nil _ _)
      have hlength := congrArg List.length hparts
      rw [List.length_take, List.length_append] at hlength
      exact List.take_left' (by omega)
  obtain ⟨hspec, -⟩ := extent_spec (p := isSeparator true) k (body ++ rest')
  rw [htake] at hspec
  have hfold : ((body ++ rest').take (extent (isSeparator true) k (body ++ rest'))).map fold = body.map fold := by
    rw [map_fold_eq, hspec, ← map_fold_eq]
  have hlength := congrArg List.length hfold
  rw [List.length_map, List.length_map, List.length_take_of_le (extent_le k _)] at hlength
  exact hlength

theorem after_of_closed {rest : Bytes} (h : Closed rest) : ∃ parts, After (isSeparator true) rest parts := by
  cases rest with
  | nil => exact ⟨[], .inl ⟨rfl, rfl⟩⟩
  | cons b rest => exact ⟨rest.splitOnP (isSeparator true), .inr ⟨b, rest, rfl, h b rfl, rfl⟩⟩

/-- Where a path goes on after its prefix. -/
theorem closed_after_front (hdouble : isDouble text true = true) :
    Closed (text.drop (prefixLength text true)) := by
  by_cases hmarked : isMarked text true = true
  · obtain ⟨a, b, m, s, l, rfl, h⟩ := exists_marker hmarked
    obtain ⟨body, rest, -, -, hrest, -, hafter⟩ := h.parts l
    rw [hrest]
    exact closed_of_after hafter
  · obtain ⟨server, gap, share, rest, hsplit⟩ := exists_shareSplit text
    rw [(prefixes_share hdouble (by simpa using hmarked)).1, hsplit.drop_eq]
    exact hsplit.after_share

theorem prefixLength_pos_of_double (h : isDouble text true = true) : 0 < prefixLength text true := by
  by_cases hmarked : isMarked text true = true
  · obtain ⟨a, b, m, s, l, rfl, hmarker⟩ := exists_marker hmarked
    rw [hmarker.prefixLength_eq]
    omega
  · obtain ⟨server, gap, share, rest, hsplit⟩ := exists_shareSplit text
    rw [(prefixes_share h (by simpa using hmarked)).1, hsplit.sharePrefix_eq]
    omega

theorem front_ne_nil (h : 0 < prefixLength text true) : text.take (prefixLength text true) ≠ [] := by
  rw [← List.length_pos_iff, List.length_take_of_le (prefixLength_le text true)]
  exact h

theorem isDouble_of_fold {a b : UInt8} {l : Bytes} (ha : isSeparator true a = true) (hb : isSeparator true b = true)
    (h : text.map fold = a :: b :: l) : isDouble text true = true := by
  rw [← isDouble_map_fold, h]
  exact isDouble_iff.mpr ⟨a, b, l, rfl, ha, hb⟩

section Stable

variable {text' rest' : Bytes} (htext : text'.map fold = (text.take (prefixLength text true)).map fold ++ rest'.map fold)
  (hclosed : Closed rest') (hnil : text.drop (prefixLength text true) = [] → rest' = [])

include htext hclosed hnil

theorem share_stable (hdouble : isDouble text true = true) (hmarked : isMarked text true = false) :
    isDouble text' true = true ∧ isMarked text' true = false ∧ prefixLength text' true = prefixLength text true := by
  obtain ⟨server, gap, share, rest, hsplit⟩ := exists_shareSplit text
  have hunmarked := hsplit.isMarked_iff hdouble
  have hshare := (prefixes_share hdouble hmarked).1
  have hlength := hsplit.sharePrefix_eq
  rw [hshare, hsplit.drop_eq] at hnil
  obtain ⟨a, b, l, rfl, ha, hb⟩ := isDouble_iff.mp hdouble
  have hl : l = server ++ (gap ++ (share ++ rest)) := hsplit.eq
  have htake : (a :: b :: l).take (sharePrefix (a :: b :: l) true) = a :: b :: (server ++ (gap ++ share)) := by
    have hsize : (server ++ (gap ++ share)).length = server.length + gap.length + share.length := by
      simp [Nat.add_assoc]
    rw [hlength, hl, show 2 + server.length + gap.length + share.length = (server ++ (gap ++ share)).length + 2 by
      omega, List.take_succ_cons, List.take_succ_cons,
      show server ++ (gap ++ (share ++ rest)) = server ++ (gap ++ share) ++ rest by simp, List.take_left]
  rw [hshare, htake] at htext
  have hout : text'.map fold =
      SLASH :: SLASH :: (server.map fold ++ (gap.map fold ++ (share.map fold ++ rest'.map fold))) := by
    rw [htext]
    simp [fold_separator ha, fold_separator hb]
  have hclosed' : Closed (rest'.map fold) := by
    intro c hc
    cases rest' with
    | nil => cases hc
    | cons d rest' =>
      obtain rfl : fold d = c := by simpa using hc
      rw [isSeparator_fold, hclosed d rfl]
  have hdrop : (text'.map fold).drop 2 =
      server.map fold ++ (gap.map fold ++ (share.map fold ++ rest'.map fold)) := by
    rw [hout]
    rfl
  have hsplit' := hsplit.folded hclosed' (fun h => by rw [hnil (hsplit.rest_nil_of_share h)]; rfl) hdrop
  have hdouble' : isDouble text' true = true := isDouble_of_fold rfl rfl hout
  have hmarked' : isMarked text' true = false := by
    rw [← isMarked_map_fold, ← Bool.not_eq_true, hsplit'.isMarked_iff ((isDouble_map_fold text').trans hdouble'),
      map_fold_name (n := server), List.map_eq_nil_iff.ne, ← hunmarked, hmarked]
    · exact Bool.false_ne_true
    · exact fun b hb => by simpa [isName] using hsplit.server_name b hb
  refine ⟨hdouble', hmarked', ?_⟩
  rw [(prefixes_share hdouble' hmarked').1, hshare, ← sharePrefix_map_fold text', hsplit'.sharePrefix_eq, hlength]
  simp

theorem marked_stable (hmarked : isMarked text true = true) :
    isMarked text' true = true ∧ prefixLength text' true = prefixLength text true := by
  obtain ⟨a, b, m, s, l, rfl, h⟩ := exists_marker hmarked
  obtain ⟨body, rest, hl, hfront, hrest, hbody, hafter⟩ := h.parts l
  rw [hrest] at hnil
  have hsize : prefixLength (a :: b :: m :: s :: l) true = 4 + body.length := by
    have hlength := congrArg List.length hfront
    rw [List.length_take_of_le (prefixLength_le _ _)] at hlength
    simp only [List.length_cons] at hlength
    omega
  have hout : text'.map fold = fold a :: fold b :: m :: fold s :: (body ++ rest').map fold := by
    rw [htext, hfront]
    simp [h.fold_mark]
  obtain ⟨more', hafter'⟩ := after_of_closed hclosed
  have hfurther : furtherParts m (body ++ rest') = furtherParts m l := by
    apply furtherParts_eq
    obtain ⟨n, parts, hparts⟩ := List.exists_cons_of_ne_nil (List.splitOnP_ne_nil (isSeparator true) body)
    rw [parts_append hafter', hl, parts_append hafter, hparts]
    rfl
  have hextent : extent (isSeparator true) (furtherParts m l) (body ++ rest') = body.length :=
    extent_stable (by rw [hbody, hl]) hafter hafter' hnil
  refine ⟨?_, ?_⟩
  · rw [← isMarked_map_fold, hout]
    exact h.folded.isMarked _
  · rw [← prefixLength_map_fold, hout, h.folded.prefixLength_eq, extent_map_fold, hsize,
      furtherParts_map_fold, hfurther, hextent]

end Stable

end Nupp.PathText
