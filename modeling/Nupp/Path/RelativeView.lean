import Nupp.Lib.Result
import Nupp.Path.NormalizeCorrect

/-! Relative paths over component views: what the three walks of the cursors compute. -/

namespace Nupp.PathText

open Segments

variable {text target base front : Bytes} {windows rooted : Bool} {ns : List Bytes}

/-! Appending components. -/

def appendPart (answer : Bytes × Bool) (c : Kind × Bytes) : Bytes × Bool :=
  match c.1 with
  | .PREFIX => (answer.1 ++ c.2, false)
  | .ROOT => (answer.1 ++ [SLASH], false)
  | _ => (answer.1 ++ (if answer.2 then [SLASH] else []) ++ c.2, true)

theorem Yields.appendAll {c : Cursor} {l : List (Kind × Bytes)} (h : Yields text windows c l) {fuel : ℕ}
    (hfuel : l.length < fuel) (answer : Bytes × Bool) :
    appendAll text windows fuel c answer = l.foldl appendPart answer := by
  induction l generalizing c fuel answer with
  | nil =>
    obtain ⟨fuel, rfl⟩ := Nat.exists_eq_succ_of_ne_zero (show fuel ≠ 0 by omega)
    rw [PathText.appendAll, show c.found = none from h]
    rfl
  | cons x l ih =>
    obtain ⟨fuel, rfl⟩ := Nat.exists_eq_succ_of_ne_zero (show fuel ≠ 0 by omega)
    obtain ⟨f, hfound, rfl, -, hrest⟩ := h
    have hstep : appendComponent text answer f = appendPart answer (component text f) := by
      cases hk : f.kind <;> simp [appendComponent, appendPart, component, hk]
    rw [PathText.appendAll, hfound]
    simp only
    rw [ih hrest (by simpa using hfuel), hstep]
    rfl

theorem intercalate_snoc {xs : List Bytes} (h : xs ≠ []) (n : Bytes) :
    List.intercalate [SLASH] (xs ++ [n]) = List.intercalate [SLASH] xs ++ SLASH :: n := by
  induction xs with
  | nil => exact absurd rfl h
  | cons x xs ih =>
    cases xs with
    | nil => simp [List.intercalate, List.intersperse]
    | cons y xs =>
      have hcons : ∀ ys : List Bytes, List.intercalate [SLASH] (x :: y :: ys) =
          x ++ SLASH :: List.intercalate [SLASH] (y :: ys) := by
        intro ys
        simp [List.intercalate, List.intersperse]
      have hrest := ih (List.cons_ne_nil _ _)
      rw [List.cons_append, List.cons_append, hcons, hcons, ← List.cons_append, hrest]
      simp

/-- What has been written so far: some text and the names after it. -/
def answer (front : Bytes) (xs : List Bytes) : Bytes × Bool :=
  (front ++ List.intercalate [SLASH] xs, decide (xs ≠ []))

theorem answer_name (front : Bytes) (xs : List Bytes) (n : Bytes) :
    ((answer front xs).1 ++ (if (answer front xs).2 then [SLASH] else []) ++ n, true) = answer front (xs ++ [n]) := by
  by_cases h : xs = []
  · rw [h]
    simp [answer, List.intercalate]
  · simp [answer, h, intercalate_snoc h]

theorem foldl_names (front : Bytes) (xs ns : List Bytes) :
    (ns.map nameComponent).foldl appendPart (answer front xs) = answer front (xs ++ ns) := by
  induction ns generalizing xs with
  | nil => simp
  | cons n ns ih =>
    have hstep : appendPart (answer front xs) (nameComponent n) = answer front (xs ++ [n]) := by
      rw [← answer_name, appendPart, nameComponent]
      split_ifs <;> rfl
    rw [List.map_cons, List.foldl_cons, hstep, ih, List.append_assoc]
    rfl

theorem parentSteps_eq (k : ℕ) (xs : List Bytes) :
    parentSteps k (answer [] xs) = answer [] (xs ++ List.replicate k dots) := by
  induction k generalizing xs with
  | zero => simp [parentSteps]
  | succ k ih =>
    have hstep := answer_name [] xs dots
    rw [parentSteps, List.replicate_succ]
    rw [show ([DOT, DOT] : Bytes) = dots from rfl, hstep, ih, List.append_assoc]
    rfl

/-- A path written whole. -/
def rebuild (front : Bytes) (rooted : Bool) (ns : List Bytes) : Bytes :=
  front ++ ((if rooted then [SLASH] else []) ++ List.intercalate [SLASH] ns)

theorem foldl_written (front : Bytes) (rooted : Bool) (ns : List Bytes) :
    ((written front rooted ns).foldl appendPart ([], false)).1 = rebuild front rooted ns := by
  have hnames : ∀ p : Bytes, ((ns.map nameComponent).foldl appendPart (p, false)).1 =
      p ++ List.intercalate [SLASH] ns := by
    intro p
    have hstart : (p, false) = answer p [] := by simp [answer, List.intercalate]
    rw [hstart, foldl_names]
    rfl
  rw [written, rebuild, List.foldl_append, List.foldl_append]
  cases rooted with
  | true =>
    by_cases hnil : front = []
    · rw [if_pos hnil, hnil]
      exact hnames [SLASH]
    · rw [if_neg hnil]
      exact (hnames (front ++ [SLASH])).trans (by simp)
  | false =>
    by_cases hnil : front = []
    · rw [if_pos hnil, hnil]
      exact hnames []
    · rw [if_neg hnil]
      exact hnames front

/-! Components up to folding. -/

def foldComponent (windows : Bool) (c : Kind × Bytes) : Kind × Bytes :=
  if c.1.anchors then (c.1, foldPrefix windows c.2) else c

/-- The reading of a path: its prefix with separators folded, its root and its names. -/
structure Reads (windows : Bool) (text front : Bytes) (rooted : Bool) (ns : List Bytes) : Prop where
  front_eq : foldPrefix windows (text.take (prefixLength text windows)) = front
  root_eq : startsRooted windows (text.drop (prefixLength text windows)) = rooted
  names_eq : names windows (text.drop (prefixLength text windows)) = ns

theorem reads_self (windows : Bool) (text : Bytes) : Reads windows text
    (foldPrefix windows (text.take (prefixLength text windows)))
    (startsRooted windows (text.drop (prefixLength text windows)))
    (names windows (text.drop (prefixLength text windows))) := ⟨rfl, rfl, rfl⟩

theorem Reads.proper (h : Reads windows text front rooted ns) : ∀ n ∈ ns, ProperName windows n :=
  fun _ hn => properName_of_mem_names (h.names_eq ▸ hn)

theorem foldComponent_name (windows : Bool) (n : Bytes) : foldComponent windows (nameComponent n) = nameComponent n := by
  rw [foldComponent, nameComponent_anchors]
  rfl

theorem Reads.map_view (h : Reads windows text front rooted ns) :
    (view text windows).map (foldComponent windows) = written front rooted ns := by
  have hfront : prefixLength text windows = 0 ↔ front = [] := by
    rw [← h.front_eq, foldPrefix_eq_nil, ← List.length_eq_zero_iff,
      List.length_take_of_le (prefixLength_le text windows)]
  have hnames : (ns.map nameComponent).map (foldComponent windows) = ns.map nameComponent := by
    rw [List.map_map]
    exact List.map_congr_left fun n _ => foldComponent_name windows n
  rw [view, h.root_eq, h.names_eq, written, List.map_append, List.map_append, hnames]
  congr 1
  · by_cases hnil : front = []
    · rw [if_pos (hfront.mpr hnil), if_pos hnil]
      rfl
    · rw [if_neg (fun hz => hnil (hfront.mp hz)), if_neg hnil, ← h.front_eq]
      rfl
  · cases rooted with
    | true =>
      have hroot := foldPrefix_root h.root_eq
      simp [foldComponent, Kind.anchors, hroot]
    | false => rfl

theorem foldPrefix_name {n : Bytes} (h : ProperName windows n) : foldPrefix windows n = n := by
  cases windows with
  | true => exact map_fold_name h.1.2
  | false => simp [foldPrefix]

theorem foldPrefix_append (l m : Bytes) : foldPrefix windows (l ++ m) = foldPrefix windows l ++ foldPrefix windows m :=
  List.map_append

theorem foldPrefix_slash : foldPrefix windows [SLASH] = [SLASH] := by
  cases windows <;> rfl

/-- Components whose names are proper ones. -/
def ProperParts (windows : Bool) (l : List (Kind × Bytes)) : Prop :=
  ∀ c ∈ l, c.1.anchors = false → ProperName windows c.2

theorem foldl_appendPart {l : List (Kind × Bytes)} (h : ProperParts windows l) (a : Bytes) (named : Bool) :
    foldPrefix windows (l.foldl appendPart (a, named)).1 =
      ((l.map (foldComponent windows)).foldl appendPart (foldPrefix windows a, named)).1 := by
  induction l generalizing a named with
  | nil => rfl
  | cons c l ih =>
    have hrest : ProperParts windows l := fun d hd => h d (List.mem_cons_of_mem _ hd)
    have hc := h c List.mem_cons_self
    obtain ⟨k, x⟩ := c
    have hseparator : foldPrefix windows (if named then [SLASH] else []) = if named then [SLASH] else [] := by
      cases named with
      | true => exact foldPrefix_slash
      | false => rfl
    rw [List.foldl_cons, List.map_cons, List.foldl_cons]
    cases k with
    | PREFIX => exact (ih hrest (a ++ x) false).trans (by rw [foldPrefix_append]; rfl)
    | ROOT => exact (ih hrest (a ++ [SLASH]) false).trans (by rw [foldPrefix_append, foldPrefix_slash]; rfl)
    | PARENT =>
      refine (ih hrest (a ++ (if named then [SLASH] else []) ++ x) true).trans ?_
      rw [foldPrefix_append, foldPrefix_append, hseparator, foldPrefix_name (hc rfl)]
      rfl
    | NORMAL =>
      refine (ih hrest (a ++ (if named then [SLASH] else []) ++ x) true).trans ?_
      rw [foldPrefix_append, foldPrefix_append, hseparator, foldPrefix_name (hc rfl)]
      rfl

theorem properParts_view (text : Bytes) (windows : Bool) : ProperParts windows (view text windows) := by
  intro c hc hkind
  rw [view] at hc
  rcases List.mem_append.mp hc with hc | hc
  · split_ifs at hc with hp
    · cases hc
    · rw [List.mem_singleton.mp hc] at hkind
      cases hkind
  rcases List.mem_append.mp hc with hc | hc
  · split_ifs at hc with hr
    · rw [List.mem_singleton.mp hc] at hkind
      cases hkind
    · cases hc
  · obtain ⟨n, hn, rfl⟩ := List.mem_map.mp hc
    exact properName_of_mem_names hn

/-! Verbatim text. -/

theorem finish_eq (h : isVerbatim text windows = false) : finish text windows = foldPrefix windows text := by
  cases windows with
  | true =>
    rw [finish, h]
    simp [foldPrefix]
  | false => simp [finish, foldPrefix]

theorem not_verbatim_of_take {k : ℕ} (h : isVerbatim text windows = false) : isVerbatim (text.take k) windows = false := by
  by_contra hnot
  simp only [isVerbatim, Bool.not_eq_false, Bool.and_eq_true, decide_eq_true_eq, List.take_take] at hnot
  have hlength := congrArg List.length hnot.2
  have hmin : min 4 k = 4 := by
    rw [List.length_take] at hlength
    simp only [List.length_cons, List.length_nil] at hlength
    omega
  rw [hmin] at hnot
  simp [isVerbatim, hnot.1, hnot.2] at h

/-- Text that goes on without backslashes is verbatim only if its start says so. -/
theorem not_verbatim_append {l m x : Bytes} (h : isVerbatim (l ++ m) windows = false) (hx : foldPrefix windows x = x) :
    isVerbatim (l ++ x) windows = false := by
  cases windows with
  | false => rfl
  | true =>
    by_contra hnot
    simp only [isVerbatim, Bool.true_and, Bool.not_eq_false, decide_eq_true_eq] at hnot
    by_cases hlength : 4 ≤ l.length
    · rw [List.take_append_of_le_length hlength] at hnot
      simp [isVerbatim, List.take_append_of_le_length hlength, hnot] at h
    · have hget : (l ++ x)[3]? = some BACKSLASH := by
        rw [← List.getElem?_take_of_lt (show 3 < 4 by omega), hnot]
        rfl
      rw [List.getElem?_append_right (by omega)] at hget
      have hfold : (x.map fold)[3 - l.length]? = some BACKSLASH := by
        have hx' : x.map fold = x := by simpa [foldPrefix] using hx
        rw [hx', hget]
      rw [List.getElem?_map, hget] at hfold
      revert hfold
      decide

/-! The walks. -/

/-- Components as a cursor finds them in text that is not verbatim. -/
def PlainParts (windows : Bool) (l : List (Kind × Bytes)) : Prop :=
  ∀ c ∈ l, (c.1 = .PREFIX → isVerbatim c.2 windows = false) ∧ (c.1 = .ROOT → foldPrefix windows c.2 = [SLASH])

theorem plainParts_view (h : isVerbatim text windows = false) : PlainParts windows (view text windows) := by
  intro c hc
  rw [view] at hc
  rcases List.mem_append.mp hc with hc | hc
  · split_ifs at hc with hp
    · cases hc
    · rw [List.mem_singleton.mp hc]
      exact ⟨fun _ => not_verbatim_of_take h, by rintro ⟨⟩⟩
  rcases List.mem_append.mp hc with hc | hc
  · split_ifs at hc with hr
    · rw [List.mem_singleton.mp hc]
      exact ⟨by rintro ⟨⟩, fun _ => foldPrefix_root hr⟩
    · cases hc
  · obtain ⟨n, -, rfl⟩ := List.mem_map.mp hc
    rw [nameComponent]
    split_ifs <;> exact ⟨by rintro ⟨⟩, by rintro ⟨⟩⟩

theorem sameComponent_iff {f g : Found} {c d : Kind × Bytes} (hf : component target f = c) (hg : component base g = d)
    (hfw : f.width = c.2.length) (hgw : g.width = d.2.length)
    (hc : (c.1 = .PREFIX → isVerbatim c.2 windows = false) ∧ (c.1 = .ROOT → foldPrefix windows c.2 = [SLASH]))
    (hd : (d.1 = .PREFIX → isVerbatim d.2 windows = false) ∧ (d.1 = .ROOT → foldPrefix windows d.2 = [SLASH])) :
    sameComponent windows target base f g = true ↔ foldComponent windows c = foldComponent windows d := by
  obtain ⟨k, u⟩ := c
  obtain ⟨k', v⟩ := d
  obtain ⟨hk, hu⟩ := Prod.mk.inj hf
  obtain ⟨hk', hv⟩ := Prod.mk.inj hg
  have hlength : ∀ {u v : Bytes}, foldPrefix windows u = foldPrefix windows v → u.length = v.length := by
    intro u v huv
    simpa [foldPrefix] using congrArg List.length huv
  rw [sameComponent, hu, hv, hfw, hgw, hk, hk']
  simp only [Bool.and_eq_true, decide_eq_true_eq]
  constructor
  · rintro ⟨⟨rfl, -⟩, hsame⟩
    cases k with
    | PREFIX =>
      simp only [decide_eq_true_eq] at hsame
      rw [finish_eq (hc.1 rfl), finish_eq (hd.1 rfl)] at hsame
      exact congrArg (Prod.mk Kind.PREFIX) hsame
    | ROOT => exact congrArg (Prod.mk Kind.ROOT) ((hc.2 rfl).trans (hd.2 rfl).symm)
    | PARENT | NORMAL =>
      simp only [decide_eq_true_eq] at hsame
      rw [hsame]
  · intro hfold
    obtain rfl : k = k' := by
      have hfst := congrArg Prod.fst hfold
      cases k <;> cases k' <;> first | rfl | exact hfst
    cases k with
    | PREFIX =>
      have hsame : foldPrefix windows u = foldPrefix windows v := congrArg Prod.snd hfold
      exact ⟨⟨rfl, hlength hsame⟩, by simp [finish_eq (hc.1 rfl), finish_eq (hd.1 rfl), hsame]⟩
    | ROOT =>
      have hsame : foldPrefix windows u = foldPrefix windows v := congrArg Prod.snd hfold
      exact ⟨⟨rfl, hlength hsame⟩, rfl⟩
    | PARENT | NORMAL =>
      have hsame : u = v := congrArg Prod.snd hfold
      exact ⟨⟨rfl, by rw [hsame]⟩, by simp [hsame]⟩

theorem passCommon_spec {T B : List (Kind × Bytes)} {t b : Cursor} {fuel : ℕ} (ht : Yields target windows t T)
    (hb : Yields base windows b B) (hT : PlainParts windows T) (hB : PlainParts windows B) (hfuel : T.length < fuel) :
    ∃ C C' T' B', T = C ++ T' ∧ B = C' ++ B' ∧ C.map (foldComponent windows) = C'.map (foldComponent windows) ∧
      Yields target windows (passCommon windows target base fuel t b).1 T' ∧
      Yields base windows (passCommon windows target base fuel t b).2 B' ∧
      ∀ c ∈ T'.head?, ∀ d ∈ B'.head?, foldComponent windows c ≠ foldComponent windows d := by
  induction T generalizing B t b fuel with
  | nil =>
    obtain ⟨fuel, rfl⟩ := Nat.exists_eq_succ_of_ne_zero (show fuel ≠ 0 by omega)
    have hnone : t.found = none := ht
    have hpass : passCommon windows target base (fuel + 1) t b = (t, b) := by
      rw [passCommon, hnone]
    rw [hpass]
    exact ⟨[], [], [], B, rfl, rfl, rfl, ht, hb, nofun⟩
  | cons c T ih =>
    obtain ⟨fuel, rfl⟩ := Nat.exists_eq_succ_of_ne_zero (show fuel ≠ 0 by omega)
    cases B with
    | nil =>
      have hnone : b.found = none := hb
      have hpass : passCommon windows target base (fuel + 1) t b = (t, b) := by
        rw [passCommon, hnone]
        cases t.found <;> rfl
      rw [hpass]
      exact ⟨[], [], c :: T, [], rfl, rfl, rfl, ht, hb, fun _ _ => nofun⟩
    | cons d B =>
      obtain ⟨f, hf, hcomponent, hwidth, htrest⟩ := ht
      obtain ⟨g, hg, hcomponent', hwidth', hbrest⟩ := hb
      have hsame := sameComponent_iff hcomponent hcomponent' hwidth hwidth'
        (hT c List.mem_cons_self) (hB d List.mem_cons_self)
      rw [passCommon, hf, hg]
      simp only
      split_ifs with hif
      · obtain ⟨C, C', T', B', rfl, rfl, hfold, hyields, hyields', hheads⟩ :=
          ih htrest hbrest (fun x hx => hT x (List.mem_cons_of_mem _ hx)) (fun x hx => hB x (List.mem_cons_of_mem _ hx))
            (by simpa using hfuel)
        refine ⟨c :: C, d :: C', T', B', rfl, rfl, ?_, hyields, hyields', hheads⟩
        rw [List.map_cons, List.map_cons, hfold, hsame.mp hif]
      · refine ⟨[], [], c :: T, d :: B, rfl, rfl, rfl, ⟨f, hf, hcomponent, hwidth, htrest⟩,
          ⟨g, hg, hcomponent', hwidth', hbrest⟩, ?_⟩
        intro x hx y hy
        obtain rfl : c = x := by simpa using hx
        obtain rfl : d = y := by simpa using hy
        exact fun heq => hif (hsame.mpr heq)

theorem countParents_spec {B : List (Kind × Bytes)} {b : Cursor} {fuel n : ℕ} (hb : Yields base windows b B)
    (hfuel : B.length < fuel) (h : countParents windows base fuel b = .ok n) :
    n = B.length ∧ ∀ g ∈ B, g.1 ≠ .PARENT := by
  induction B generalizing b fuel n with
  | nil =>
    obtain ⟨fuel, rfl⟩ := Nat.exists_eq_succ_of_ne_zero (show fuel ≠ 0 by omega)
    rw [countParents, show b.found = none from hb] at h
    cases h
    exact ⟨rfl, nofun⟩
  | cons d B ih =>
    obtain ⟨fuel, rfl⟩ := Nat.exists_eq_succ_of_ne_zero (show fuel ≠ 0 by omega)
    obtain ⟨g, hg, hcomponent, -, hrest⟩ := hb
    have hkind : g.kind = d.1 := congrArg Prod.fst hcomponent
    rw [countParents, hg] at h
    simp only at h
    split_ifs at h with hparent
    cases hcount : countParents windows base fuel (b.next base windows) with
    | error e =>
      rw [hcount] at h
      cases h
    | ok m =>
      obtain ⟨rfl, hall⟩ := ih hrest (by simpa using hfuel) hcount
      rw [hcount] at h
      cases h
      refine ⟨rfl, fun x hx => ?_⟩
      rcases List.mem_cons.mp hx with rfl | hx
      · exact fun heq => hparent (hkind.trans heq)
      · exact hall x hx

theorem Yields.head {c : Cursor} {l : List (Kind × Bytes)} (h : Yields text windows c l) (q : Kind → Bool) :
    c.found.any (fun f => q f.kind) = l.head?.any fun x => q x.1 := by
  cases l with
  | nil =>
    rw [show c.found = none from h]
    rfl
  | cons x l =>
    obtain ⟨f, hf, rfl, -, -⟩ := h
    rw [hf]
    rfl

/-! The texts they write. -/

theorem foldPrefix_intercalate (h : ∀ n ∈ ns, ProperName windows n) :
    foldPrefix windows (List.intercalate [SLASH] ns) = List.intercalate [SLASH] ns := by
  cases windows with
  | true => exact map_fold_intercalate h
  | false => simp [foldPrefix]

theorem foldPrefix_tail (h : ∀ n ∈ ns, ProperName windows n) (rooted : Bool) :
    foldPrefix windows ((if rooted then [SLASH] else []) ++ List.intercalate [SLASH] ns) =
      (if rooted then [SLASH] else []) ++ List.intercalate [SLASH] ns := by
  rw [foldPrefix_append, foldPrefix_intercalate h]
  cases rooted with
  | true => rw [if_pos rfl, foldPrefix_slash]
  | false => rfl

theorem foldl_view (text : Bytes) (windows : Bool) :
    ((view text windows).foldl appendPart ([], false)).1 =
      rebuild (text.take (prefixLength text windows)) (startsRooted windows (text.drop (prefixLength text windows)))
        (names windows (text.drop (prefixLength text windows))) := by
  have hfront : prefixLength text windows = 0 ↔ text.take (prefixLength text windows) = [] := by
    rw [← List.length_eq_zero_iff, List.length_take_of_le (prefixLength_le text windows)]
  have hroot : ∀ (r : Bool) (x : Bytes) (s : Bytes × Bool), (if r then [(Kind.ROOT, x)] else []).foldl appendPart s =
      (if r then [(Kind.ROOT, [SLASH])] else []).foldl appendPart s := by
    intro r x s
    cases r <;> rfl
  rw [← foldl_written, view, written, List.foldl_append, List.foldl_append, hroot, ← List.foldl_append,
    ← List.foldl_append]
  simp only [← hfront]

theorem foldl_unprefixed {l : List (Kind × Bytes)} (h : ProperParts windows l) (hnone : ∀ c ∈ l, c.1 ≠ .PREFIX)
    (a : Bytes) (named : Bool) :
    foldPrefix windows (l.foldl appendPart (a, named)).1 = (l.foldl appendPart (foldPrefix windows a, named)).1 := by
  have hsame : ∀ s : Bytes × Bool, (l.map (foldComponent windows)).foldl appendPart s = l.foldl appendPart s := by
    clear h
    induction l with
    | nil => exact fun _ => rfl
    | cons c l ih =>
      intro s
      have hc := hnone c List.mem_cons_self
      have hstep : appendPart s (foldComponent windows c) = appendPart s c := by
        obtain ⟨k, x⟩ := c
        cases k with
        | PREFIX => exact absurd rfl hc
        | ROOT | PARENT | NORMAL => rfl
      rw [List.map_cons, List.foldl_cons, List.foldl_cons, hstep, ih fun d hd => hnone d (List.mem_cons_of_mem _ hd)]
  rw [foldl_appendPart h, hsame]

/-- A prefix stands only in front. -/
theorem prefix_first {C T : List (Kind × Bytes)} {c : Kind × Bytes} (h : view text windows = C ++ T) (hc : c ∈ T)
    (hkind : c.1 = .PREFIX) : C = [] ∧ c ∈ T.head? := by
  have hothers : ∀ d ∈ written [] (startsRooted windows (text.drop (prefixLength text windows)))
      (names windows (text.drop (prefixLength text windows))), d.1 ≠ .PREFIX := fun d hd => not_prefix_written hd
  have hkinds : (view text windows).map Prod.fst =
      (if prefixLength text windows = 0 then [] else [Kind.PREFIX]) ++
        (written [] (startsRooted windows (text.drop (prefixLength text windows)))
          (names windows (text.drop (prefixLength text windows)))).map Prod.fst := by
    rw [view, written, if_pos rfl]
    split_ifs <;> simp
  generalize hW : written [] (startsRooted windows (text.drop (prefixLength text windows)))
    (names windows (text.drop (prefixLength text windows))) = W at hothers hkinds
  have hnone : Kind.PREFIX ∉ W.map Prod.fst := by
    intro hm
    obtain ⟨d, hd, hk⟩ := List.mem_map.mp hm
    exact hothers d hd hk
  have hmem : Kind.PREFIX ∈ T.map Prod.fst := List.mem_map.mpr ⟨c, hc, hkind⟩
  rw [h, List.map_append] at hkinds
  have hall := List.mem_append_right (C.map Prod.fst) hmem
  rw [hkinds] at hall
  split_ifs at hkinds hall with hp
  · exact absurd hall hnone
  · cases C with
    | cons x C =>
      rw [List.map_cons, List.cons_append, List.singleton_append, List.cons.injEq] at hkinds
      exact absurd (hkinds.2 ▸ List.mem_append_right _ hmem) hnone
    | nil =>
      cases T with
      | nil => cases hc
      | cons y T =>
        refine ⟨rfl, ?_⟩
        rcases List.mem_cons.mp hc with rfl | hc
        · rfl
        · rw [List.map_nil, List.nil_append, List.map_cons, List.singleton_append, List.cons.injEq] at hkinds
          exact absurd (hkinds.2 ▸ List.mem_map.mpr ⟨c, hc, hkind⟩) hnone

theorem not_verbatim_names {l : List (Kind × Bytes)} {k : ℕ} (h : ProperParts windows l)
    (hnone : ∀ c ∈ l, c.1 ≠ .PREFIX) :
    isVerbatim (l.foldl appendPart (answer [] (List.replicate k dots))).1 windows = false := by
  cases windows with
  | false => rfl
  | true =>
    have hdots : ∀ n ∈ List.replicate k dots, ProperName true n :=
      fun n hn => (List.eq_of_mem_replicate hn) ▸ properName_dots
    have hfold := foldl_unprefixed h hnone (answer [] (List.replicate k dots)).1 (answer [] (List.replicate k dots)).2
    have hstart : foldPrefix true (answer [] (List.replicate k dots)).1 = (answer [] (List.replicate k dots)).1 :=
      foldPrefix_intercalate hdots
    rw [hstart] at hfold
    exact not_verbatim_of_fold (by simpa [foldPrefix] using hfold)

theorem not_verbatim_view (h : isVerbatim text windows = false) :
    isVerbatim ((view text windows).foldl appendPart (answer [] [])).1 windows = false := by
  have hproper : ∀ n ∈ names windows (text.drop (prefixLength text windows)), ProperName windows n :=
    fun n hn => properName_of_mem_names hn
  rw [show answer [] [] = ([], false) from rfl, foldl_view, rebuild]
  apply not_verbatim_append (m := text.drop (prefixLength text windows)) _ (foldPrefix_tail hproper _)
  rw [List.take_append_drop, h]

theorem clean_eq (hverbatim : isVerbatim text windows = false) (h : Reads windows text front rooted ns) :
    clean text windows = rebuild front rooted ns := by
  have henough : (view text windows).length < steps text := by
    have hle := length_view_le text windows
    unfold steps
    omega
  have hnot := not_verbatim_view hverbatim
  rw [show answer [] [] = ([], false) from rfl] at hnot
  rw [clean, hverbatim, (nextComponent_yields text windows).appendAll henough]
  show finish _ windows = _
  rw [finish_eq hnot, foldl_view, h.root_eq, h.names_eq, rebuild, foldPrefix_append,
    foldPrefix_tail h.proper, h.front_eq]
  rfl

/-- What a relative path is made of: the common components of the two readings, the steps
up from the base and the components that are left of the target. -/
structure Relative (windows : Bool) (target base r : Bytes) (T B : List (Kind × Bytes)) : Prop where
  parts : ∃ C, (view target windows).map (foldComponent windows) = C ++ T ∧
    (view base windows).map (foldComponent windows) = C ++ B
  heads : ∀ c ∈ T.head?, ∀ d ∈ B.head?, c ≠ d
  anchors : ∀ d ∈ B.head?, d.1.anchors = false ∧ ∀ c ∈ T.head?, c.1.anchors = false
  up : ∀ d ∈ B, d.1 ≠ .PARENT
  text : r = (let answer := (T.foldl appendPart (answer [] (List.replicate B.length dots))).1
    if answer = [] then [DOT] else answer)

theorem relative_ok {r : Bytes} (h : relative windows target base = .ok r) :
    isVerbatim target windows = false ∧ isVerbatim base windows = false ∧
      ((isAbsolute target windows = true ∧ isAbsolute base windows = false ∧ r = clean target windows) ∨
        (isAbsolute target windows = isAbsolute base windows ∧ ∃ T B, Relative windows target base r T B)) := by
  rw [relative] at h
  split_ifs at h with hverbatim hdiffer habsolute
  · rw [Bool.or_eq_true, not_or, Bool.not_eq_true, Bool.not_eq_true] at hverbatim
    cases h
    refine ⟨hverbatim.1, hverbatim.2, .inl ⟨habsolute, ?_, rfl⟩⟩
    rw [habsolute] at hdiffer
    simpa using hdiffer.symm
  · rw [Bool.or_eq_true, not_or, Bool.not_eq_true, Bool.not_eq_true] at hverbatim
    rw [not_not] at hdiffer
    refine ⟨hverbatim.1, hverbatim.2, .inr ⟨hdiffer, ?_⟩⟩
    have henough : ∀ t : Bytes, (view t windows).length < steps t := by
      intro t
      have hle := length_view_le t windows
      unfold steps
      omega
    obtain ⟨C, C', T, B, hT, hB, hfold, ht, hb, hheads⟩ := passCommon_spec (nextComponent_yields target windows)
      (nextComponent_yields base windows) (plainParts_view hverbatim.1) (plainParts_view hverbatim.2) (henough target)
    generalize passCommon windows target base (steps target) (nextComponent target windows 0 0)
      (nextComponent base windows 0 0) = pair at h ht hb
    obtain ⟨t, b⟩ := pair
    simp only at h ht hb
    split_ifs at h with hanchors
    have hTlength : T.length < steps target := by
      have hle := congrArg List.length hT
      have hlt := henough target
      rw [List.length_append] at hle
      omega
    have hBlength : B.length < steps base := by
      have hle := congrArg List.length hB
      have hlt := henough base
      rw [List.length_append] at hle
      omega
    obtain ⟨n, hcount, h⟩ := Result.bind_eq_ok.mp h
    obtain ⟨rfl, hup⟩ := countParents_spec hb hBlength hcount
    have hTproper : ProperParts windows T := fun c hc => properParts_view target windows c (hT ▸ List.mem_append_right _ hc)
    have hparents : parentSteps B.length ([], false) = answer [] (List.replicate B.length dots) := by
      rw [show (([], false) : Bytes × Bool) = answer [] [] from rfl, parentSteps_eq]
      rfl
    have hdots : ∀ k, ∀ n ∈ List.replicate k dots, ProperName windows n :=
      fun k n hn => (List.eq_of_mem_replicate hn) ▸ properName_dots
    rw [ht.appendAll hTlength, hparents] at h
    have hanchors' : ∀ d ∈ B.head?, d.1.anchors = false ∧ ∀ c ∈ T.head?, c.1.anchors = false := by
      have hhead : (T.head?.any fun c => c.1.anchors) = _ := (ht.head Kind.anchors).symm
      have hhead' := hb.head fun k => k.anchors || T.head?.any fun c => c.1.anchors
      rw [← hhead, hhead'] at hanchors
      intro d hd
      rw [Option.mem_def.mp hd] at hanchors
      simp only [Option.any_some, Bool.or_eq_true, not_or, Bool.not_eq_true] at hanchors
      refine ⟨hanchors.1, fun c hc => ?_⟩
      have hfalse := hanchors.2
      rw [Option.mem_def.mp hc] at hfalse
      exact hfalse
    have hnot : isVerbatim (T.foldl appendPart (answer [] (List.replicate B.length dots))).1 windows = false := by
      by_cases hnone : ∀ c ∈ T, c.1 ≠ .PREFIX
      · exact not_verbatim_names hTproper hnone
      · push Not at hnone
        obtain ⟨c, hc, hkind⟩ := hnone
        obtain ⟨rfl, hhead⟩ := prefix_first hT hc hkind
        have hBnil : B = [] := by
          cases B with
          | nil => rfl
          | cons d B =>
            have hfalse := (hanchors' d rfl).2 c hhead
            rw [hkind] at hfalse
            cases hfalse
        rw [List.nil_append] at hT
        rw [hBnil, ← hT]
        exact not_verbatim_view hverbatim.1
    have hfolded := foldl_appendPart hTproper (answer [] (List.replicate B.length dots)).1
      (answer [] (List.replicate B.length dots)).2
    have hstart : foldPrefix windows (answer [] (List.replicate B.length dots)).1 =
        (answer [] (List.replicate B.length dots)).1 := foldPrefix_intercalate (hdots _)
    rw [hstart] at hfolded
    have hkind : ∀ c : Kind × Bytes, (foldComponent windows c).1 = c.1 := by
      intro c
      rw [foldComponent]
      split_ifs <;> rfl
    refine ⟨T.map (foldComponent windows), B.map (foldComponent windows), ⟨⟨C.map (foldComponent windows), ?_, ?_⟩,
      ?_, ?_, ?_, ?_⟩⟩
    · rw [hT, List.map_append]
    · rw [hB, List.map_append, hfold]
    · intro c hc d hd
      rw [List.head?_map, Option.mem_def, Option.map_eq_some_iff] at hc hd
      obtain ⟨c', hc', rfl⟩ := hc
      obtain ⟨d', hd', rfl⟩ := hd
      exact hheads c' hc' d' hd'
    · intro d hd
      rw [List.head?_map, Option.mem_def, Option.map_eq_some_iff] at hd
      obtain ⟨d', hd', rfl⟩ := hd
      refine ⟨(hkind d').symm ▸ (hanchors' d' hd').1, fun c hc => ?_⟩
      rw [List.head?_map, Option.mem_def, Option.map_eq_some_iff] at hc
      obtain ⟨c', hc', rfl⟩ := hc
      exact (hkind c').symm ▸ (hanchors' d' hd').2 c' hc'
    · intro d hd
      obtain ⟨d', hd', rfl⟩ := List.mem_map.mp hd
      rw [hkind]
      exact hup d' hd'
    · have hr := (Except.ok.inj h).symm
      simp only [List.length_map]
      rw [show answer [] (List.replicate B.length dots) = ((answer [] (List.replicate B.length dots)).1,
        (answer [] (List.replicate B.length dots)).2) from rfl, ← hfolded, hr]
      by_cases hnil : (T.foldl appendPart (answer [] (List.replicate B.length dots))).1 = []
      · rw [if_pos hnil, if_pos (foldPrefix_eq_nil.mpr hnil)]
        cases windows <;> rfl
      · rw [if_neg hnil, if_neg (fun hz => hnil (foldPrefix_eq_nil.mp hz)), finish_eq hnot]

end Nupp.PathText
