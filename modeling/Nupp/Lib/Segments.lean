import Mathlib.Data.List.Basic
import Mathlib.Data.List.Infix
import Mathlib.Data.List.TakeWhile

/-! Sequences cut at separators, and segments of which one steps back over the one before.
A stack has its top in front. -/

namespace Segments

variable {α β : Type}

section Cut

variable (p : α → Bool)

/-- The nonempty runs between separators. -/
def segments (l : List α) : List (List α) := (l.splitOnP p).filter (!·.isEmpty)

@[simp] theorem segments_nil : segments p [] = [] := rfl

variable {p}

theorem segments_append_cons (l : List α) {a : α} (h : p a = true) (rest : List α) :
    segments p (l ++ a :: rest) = segments p l ++ segments p rest := by
  simp [segments, List.splitOnP_append_cons l rest h]

theorem segments_cons_sep {a : α} (h : p a = true) (l : List α) : segments p (a :: l) = segments p l :=
  segments_append_cons [] h l

/-- A run between separators. -/
def Run (p : α → Bool) (l : List α) : Prop := l ≠ [] ∧ ∀ a ∈ l, p a = false

theorem segments_run {l : List α} (h : Run p l) : segments p l = [l] := by
  simp [segments, List.splitOnP_eq_singleton h.2, h.1]

/-- A sequence that ends where a separator or nothing follows. -/
theorem segments_append (l : List α) {rest : List α} (h : ∀ a ∈ rest.head?, p a = true) :
    segments p (l ++ rest) = segments p l ++ segments p rest := by
  cases rest with
  | nil => simp
  | cons a rest => rw [segments_append_cons l (h a rfl), segments_cons_sep (h a rfl)]

theorem segments_dropWhile (l : List α) : segments p (l.dropWhile p) = segments p l := by
  induction l with
  | nil => rfl
  | cons a l ih =>
    by_cases h : p a = true
    · rw [List.dropWhile_cons_of_pos h, ih, segments_cons_sep h]
    · rw [List.dropWhile_cons_of_neg h]

theorem head_dropWhile_not {l : List α} : ∀ a ∈ (l.dropWhile fun b => !p b).head?, p a = true := by
  intro a ha
  have hnot := List.head?_dropWhile_not (fun b => !p b) l
  rw [Option.mem_def.mp ha] at hnot
  simpa using hnot

theorem segments_cut (l : List α) :
    segments p l = segments p (l.takeWhile fun b => !p b) ++
      segments p ((l.dropWhile fun b => !p b).dropWhile p) := by
  conv_lhs => rw [← List.takeWhile_append_dropWhile (p := fun b => !p b) (l := l)]
  rw [segments_append _ head_dropWhile_not, segments_dropWhile]

theorem run_takeWhile {l : List α} (h : (l.takeWhile fun b => !p b) ≠ []) :
    Run p (l.takeWhile fun b => !p b) :=
  ⟨h, fun a ha => by simpa using List.mem_takeWhile_imp ha⟩

theorem length_rest_le (l : List α) :
    (l.takeWhile fun b => !p b).length + ((l.dropWhile fun b => !p b).dropWhile p).length ≤ l.length := by
  have hsplit := congrArg List.length (List.takeWhile_append_dropWhile (p := fun b => !p b) (l := l))
  have hle := (List.dropWhile_suffix p (l := l.dropWhile fun b => !p b)).length_le
  rw [List.length_append] at hsplit
  omega

theorem length_rest_lt {l : List α} (h : l ≠ []) : ((l.dropWhile fun b => !p b).dropWhile p).length < l.length := by
  have hle := length_rest_le (p := p) l
  cases l with
  | nil => exact absurd rfl h
  | cons a l =>
    by_cases hp : p a = true
    · have hle' := (List.dropWhile_suffix p (l := l)).length_le
      rw [List.dropWhile_cons_of_neg (by simp [hp]), List.dropWhile_cons_of_pos hp, List.length_cons]
      omega
    · rw [List.takeWhile_cons_of_pos (by simp [hp]), List.length_cons] at hle
      omega

theorem length_segments_le (l : List α) : (segments p l).length ≤ l.length := by
  induction hn : l.length using Nat.strong_induction_on generalizing l with
  | _ n ih =>
    by_cases hl : l = []
    · rw [hl]
      exact Nat.zero_le _
    · have hlt := length_rest_lt (p := p) hl
      have hrest := ih _ (hn ▸ hlt) _ rfl
      have hle := length_rest_le (p := p) l
      rw [segments_cut, List.length_append]
      by_cases hnil : (l.takeWhile fun b => !p b) = []
      · rw [hnil, segments_nil, List.length_nil]
        omega
      · have hpos := List.length_pos_of_ne_nil hnil
        rw [segments_run (run_takeWhile hnil), List.length_singleton]
        omega

/-! The parts between separators, empty ones among them. -/

theorem splitOnP_cut (l : List α) :
    l.splitOnP p = (l.takeWhile fun b => !p b) ::
      match l.dropWhile fun b => !p b with
      | [] => []
      | _ :: rest => rest.splitOnP p := by
  induction l with
  | nil => rfl
  | cons a l ih =>
    rw [List.splitOnP_cons_eq_if_modifyHead]
    by_cases h : p a = true
    · rw [if_pos h, List.takeWhile_cons_of_neg (by simp [h]), List.dropWhile_cons_of_neg (by simp [h])]
    · rw [if_neg h, List.takeWhile_cons_of_pos (by simp [h]), List.dropWhile_cons_of_pos (by simp [h]), ih]
      rfl

theorem not_sep_of_mem_parts {l n : List α} (h : n ∈ l.splitOnP p) : ∀ a ∈ n, p a = false := by
  induction hn : l.length using Nat.strong_induction_on generalizing l with
  | _ k ih =>
    have hle := (List.dropWhile_suffix (fun b => !p b) (l := l)).length_le
    rw [splitOnP_cut] at h
    rcases List.mem_cons.mp h with rfl | h
    · exact fun a ha => by simpa using List.mem_takeWhile_imp ha
    · generalize (l.dropWhile fun b => !p b) = d at h hle
      cases d with
      | nil => cases h
      | cons s r =>
        rw [List.length_cons] at hle
        exact ih r.length (by omega) h rfl

theorem splitOnP_intercalate {s : α} (hs : p s = true) {parts : List (List α)} (hne : parts ≠ [])
    (h : ∀ n ∈ parts, ∀ a ∈ n, p a = false) : (List.intercalate [s] parts).splitOnP p = parts := by
  induction parts with
  | nil => exact absurd rfl hne
  | cons n parts ih =>
    have hn := h n List.mem_cons_self
    cases parts with
    | nil => simpa [List.intercalate] using List.splitOnP_eq_singleton hn
    | cons m parts =>
      have hrest := ih (List.cons_ne_nil _ _) (fun x hx => h x (List.mem_cons_of_mem _ hx))
      have hjoin : List.intercalate [s] (n :: m :: parts) = n ++ s :: List.intercalate [s] (m :: parts) := by
        simp [List.intercalate, List.intersperse]
      rw [hjoin, List.splitOnP_append_cons n _ hs, List.splitOnP_eq_singleton hn, hrest]
      rfl

theorem run_of_mem_segments {l s : List α} (h : s ∈ segments p l) : Run p s := by
  obtain ⟨hpart, hne⟩ := List.mem_filter.mp h
  exact ⟨by simpa using hne, not_sep_of_mem_parts hpart⟩

/-- Runs joined by a separator are cut where they were joined. -/
theorem segments_intercalate {s : α} (hs : p s = true) {names : List (List α)}
    (h : ∀ n ∈ names, Run p n) : segments p (List.intercalate [s] names) = names := by
  by_cases hne : names = []
  · rw [hne]
    rfl
  · rw [segments, splitOnP_intercalate hs hne (fun n hn => (h n hn).2), List.filter_eq_self]
    intro n hn
    simpa using (h n hn).1

variable (p) in
/-- The length of a part and of at most `k` further ones. -/
def extent : ℕ → List α → ℕ
  | 0, l => (l.takeWhile fun b => !p b).length
  | k + 1, l => (l.takeWhile fun b => !p b).length +
      match l.dropWhile fun b => !p b with
      | [] => 0
      | _ :: rest => 1 + extent k rest

/-- What follows some of the parts. -/
def After (p : α → Bool) (rest : List α) (parts : List (List α)) : Prop :=
  (rest = [] ∧ parts = []) ∨ ∃ s r, rest = s :: r ∧ p s = true ∧ r.splitOnP p = parts

theorem extent_spec (k : ℕ) (l : List α) :
    (l.take (extent p k l)).splitOnP p = (l.splitOnP p).take (k + 1) ∧
      After p (l.drop (extent p k l)) ((l.splitOnP p).drop (k + 1)) := by
  have hrun : ∀ a ∈ l.takeWhile fun b => !p b, p a = false :=
    fun a ha => by simpa using List.mem_takeWhile_imp ha
  induction k generalizing l with
  | zero =>
    have hsplit := List.takeWhile_append_dropWhile (p := fun b => !p b) (l := l)
    have hhead := head_dropWhile_not (p := p) (l := l)
    rw [splitOnP_cut l, extent]
    generalize (l.takeWhile fun b => !p b) = n at hsplit hrun ⊢
    generalize (l.dropWhile fun b => !p b) = d at hsplit hhead ⊢
    subst hsplit
    rw [List.take_left, List.drop_left, List.splitOnP_eq_singleton hrun]
    refine ⟨rfl, ?_⟩
    cases d with
    | nil => exact .inl ⟨rfl, rfl⟩
    | cons s r => exact .inr ⟨s, r, rfl, hhead s rfl, rfl⟩
  | succ k ih =>
    have hsplit := List.takeWhile_append_dropWhile (p := fun b => !p b) (l := l)
    have hhead := head_dropWhile_not (p := p) (l := l)
    rw [splitOnP_cut l, extent]
    generalize (l.takeWhile fun b => !p b) = n at hsplit hrun ⊢
    generalize (l.dropWhile fun b => !p b) = d at hsplit hhead ⊢
    subst hsplit
    cases d with
    | nil =>
      rw [List.append_nil, Nat.add_zero, List.take_length, List.drop_length, List.splitOnP_eq_singleton hrun]
      exact ⟨rfl, .inl ⟨rfl, rfl⟩⟩
    | cons s r =>
      obtain ⟨htake, hdrop⟩ := ih r (fun a ha => by simpa using List.mem_takeWhile_imp ha)
      have hs := hhead s rfl
      simp only [List.take_length_add_append, List.drop_length_add_append]
      rw [Nat.add_comm 1, List.take_succ_cons, List.drop_succ_cons, List.splitOnP_append_cons n _ hs,
        List.splitOnP_eq_singleton hrun, htake]
      exact ⟨rfl, hdrop⟩

end Cut

/-! Stepping back. -/

section Back

variable [DecidableEq α] [DecidableEq β] (up : α) (rooted : Bool)

/-- Puts a segment on a stack: `up` takes the segment before it away, or stays where there
is none, unless the stack stands on a root. -/
def step (stack : List α) (s : α) : List α :=
  if s = up then
    match stack with
    | [] => if rooted then [] else [up]
    | top :: rest => if top = up then up :: top :: rest else rest
  else s :: stack

def resolve (stack : List α) (l : List α) : List α := l.foldl (step up rooted) stack

@[simp] theorem resolve_nil (stack : List α) : resolve up rooted stack [] = stack := rfl

@[simp] theorem resolve_cons (stack : List α) (s : α) (l : List α) :
    resolve up rooted stack (s :: l) = resolve up rooted (step up rooted stack s) l := rfl

theorem resolve_append (stack l m : List α) :
    resolve up rooted stack (l ++ m) = resolve up rooted (resolve up rooted stack l) m := List.foldl_append

variable {up rooted}

theorem step_name {stack : List α} {s : α} (h : s ≠ up) : step up rooted stack s = s :: stack := if_neg h

theorem step_up_name {stack : List α} {top : α} (h : top ≠ up) : step up rooted (top :: stack) up = stack := by
  simp [step, h]

theorem resolve_names {stack l : List α} (h : up ∉ l) : resolve up rooted stack l = l.reverse ++ stack := by
  induction l generalizing stack with
  | nil => rfl
  | cons s l ih =>
    have hs : s ≠ up := fun heq => h (heq ▸ List.mem_cons_self)
    rw [resolve_cons, step_name hs, ih (fun hm => h (List.mem_cons_of_mem _ hm))]
    simp

theorem mem_of_mem_resolve {stack l : List α} {n : α} (h : n ∈ resolve up rooted stack l) : n ∈ stack ∨ n ∈ l := by
  induction l generalizing stack with
  | nil => exact .inl h
  | cons s l ih =>
    have hstep : ∀ t ∈ step up rooted stack s, t ∈ stack ∨ t = s := by
      intro t ht
      by_cases hs : s = up
      · subst hs
        match stack with
        | [] => cases rooted <;> simp_all [step]
        | top :: rest =>
          by_cases htop : top = s
          · simp only [step, htop, if_true] at ht
            rcases List.mem_cons.mp ht with rfl | ht
            · exact .inr rfl
            · exact .inl (htop ▸ ht)
          · rw [step_up_name htop] at ht
            exact .inl (List.mem_cons_of_mem _ ht)
      · rw [step_name hs] at ht
        rcases List.mem_cons.mp ht with rfl | ht
        · exact .inr rfl
        · exact .inl ht
    rw [resolve_cons] at h
    rcases ih h with h | h
    · rcases hstep n h with h | rfl
      · exact .inl h
      · exact .inr List.mem_cons_self
    · exact .inr (List.mem_cons_of_mem _ h)

/-- As many steps back as there are names on top take them away. -/
theorem resolve_back {stack names : List α} (h : up ∉ names) :
    resolve up rooted (names ++ stack) (List.replicate names.length up) = stack := by
  induction names with
  | nil => rfl
  | cons s names ih =>
    have hs : s ≠ up := fun heq => h (heq ▸ List.mem_cons_self)
    rw [List.length_cons, List.replicate_succ, resolve_cons, List.cons_append, step_up_name hs,
      ih (fun hm => h (List.mem_cons_of_mem _ hm))]

/-- Going down names and back up leads nowhere. -/
theorem resolve_down_back {stack names : List α} (h : up ∉ names) (l : List α) :
    resolve up rooted stack (names ++ (List.replicate names.length up ++ l)) = resolve up rooted stack l := by
  have hrev : up ∉ names.reverse := by simpa using h
  rw [resolve_append, resolve_append, resolve_names h, ← List.length_reverse, resolve_back hrev]

/-- A stack that steps back only below its names, and not at all on a root. -/
def Settled (up : α) (rooted : Bool) : List α → Prop
  | [] => True
  | s :: rest => Settled up rooted rest ∧ (s = up → rooted = false ∧ ∀ t ∈ rest, t = up)

theorem Settled.step {stack : List α} (h : Settled up rooted stack) (s : α) :
    Settled up rooted (step up rooted stack s) := by
  by_cases hs : s = up
  · subst hs
    match stack, h with
    | [], _ =>
      cases rooted with
      | true => simp [Segments.step, Settled]
      | false => simp [Segments.step, Settled]
    | top :: rest, h =>
      by_cases htop : top = s
      · have hstep : Segments.step s rooted (top :: rest) s = s :: top :: rest := by simp [Segments.step, htop]
        rw [hstep]
        refine ⟨h, fun _ => ⟨(h.2 htop).1, fun t ht => ?_⟩⟩
        rcases List.mem_cons.mp ht with rfl | ht
        · exact htop
        · exact (h.2 htop).2 t ht
      · rw [step_up_name htop]
        exact h.1
  · rw [step_name hs]
    exact ⟨h, fun heq => absurd heq hs⟩

theorem Settled.resolve {stack : List α} (h : Settled up rooted stack) (l : List α) :
    Settled up rooted (resolve up rooted stack l) := by
  induction l generalizing stack with
  | nil => exact h
  | cons s l ih => exact ih (h.step s)

/-- A settled stack is what its own segments lead to. -/
theorem Settled.resolve_reverse {stack : List α} (h : Settled up rooted stack) :
    Segments.resolve up rooted [] stack.reverse = stack := by
  induction stack with
  | nil => rfl
  | cons s stack ih =>
    rw [List.reverse_cons, resolve_append, ih h.1, resolve_cons, resolve_nil]
    by_cases hs : s = up
    · obtain ⟨hroot, hall⟩ := h.2 hs
      subst hs
      cases stack with
      | nil => simp [Segments.step, hroot]
      | cons top rest => simp [Segments.step, hall top List.mem_cons_self]
    · exact step_name hs

omit [DecidableEq α] in
theorem up_not_mem_of_settled {stack : List α} (h : Settled up true stack) : up ∉ stack := by
  induction stack with
  | nil => exact nofun
  | cons s stack ih =>
    intro hm
    rcases List.mem_cons.mp hm with heq | hm
    · exact absurd (h.2 heq.symm).1 nofun
    · exact ih h.1 hm

/-- How many names stand above the bottom in the end, unless a step back reaches it. -/
def depth (up : α) : ℕ → List α → Option ℕ
  | d, [] => some d
  | 0, s :: l => if s = up then none else depth up 1 l
  | d + 1, s :: l => if s = up then depth up d l else depth up (d + 2) l

example : depth 0 1 [2, 0, 0, 0] = none := by simp [depth]

theorem depth_name {s : α} (h : s ≠ up) (d : ℕ) (l : List α) : depth up d (s :: l) = depth up (d + 1) l := by
  cases d <;> simp [depth, h]

@[simp] theorem depth_up_zero (l : List α) : depth up 0 (up :: l) = none := by simp [depth]

@[simp] theorem depth_up_succ (d : ℕ) (l : List α) : depth up (d + 1) (up :: l) = depth up d l := by
  simp [depth]

theorem depth_append (d : ℕ) (l m : List α) : depth up d (l ++ m) = (depth up d l).bind fun e => depth up e m := by
  induction l generalizing d with
  | nil => simp [depth]
  | cons s l ih =>
    by_cases hs : s = up
    · subst hs
      cases d with
      | zero => simp
      | succ d => simp [ih]
    · simp [depth_name hs, ih]

theorem depth_add {d e : ℕ} {l : List α} (h : depth up d l = some e) (k : ℕ) :
    depth up (d + k) l = some (e + k) := by
  induction l generalizing d with
  | nil =>
    rw [depth, Option.some.injEq] at h ⊢
    rw [h]
  | cons s l ih =>
    by_cases hs : s = up
    · subst hs
      cases d with
      | zero => simp at h
      | succ d =>
        rw [depth_up_succ] at h
        rw [show d + 1 + k = d + k + 1 by omega, depth_up_succ]
        exact ih h
    · rw [depth_name hs] at h ⊢
      rw [show d + k + 1 = d + 1 + k by omega]
      exact ih h

omit [DecidableEq α] in
theorem not_mem_cons_name {s : α} {stack : List α} (hs : s ≠ up) (h : up ∉ stack) : up ∉ s :: stack := by
  intro hm
  rcases List.mem_cons.mp hm with heq | hm
  · exact hs heq.symm
  · exact h hm

theorem resolve_of_depth {l stack : List α} {d : ℕ} (base : List α) (q r : Bool) (hstack : up ∉ stack)
    (h : depth up stack.length l = some d) :
    resolve up q (stack ++ base) l = resolve up r stack l ++ base ∧ up ∉ resolve up r stack l ∧
      (resolve up r stack l).length = d := by
  induction l generalizing stack with
  | nil =>
    rw [depth, Option.some.injEq] at h
    exact ⟨rfl, hstack, h⟩
  | cons s l ih =>
    by_cases hs : s = up
    · subst hs
      cases stack with
      | nil => simp at h
      | cons top stack =>
        have htop : top ≠ s := fun heq => hstack (heq ▸ List.mem_cons_self)
        rw [resolve_cons, resolve_cons, List.cons_append, step_up_name htop, step_up_name htop]
        rw [List.length_cons, depth_up_succ] at h
        exact ih (fun hm => hstack (List.mem_cons_of_mem _ hm)) h
    · rw [depth_name hs] at h
      rw [resolve_cons, resolve_cons, step_name hs, step_name hs, ← List.cons_append]
      exact ih (not_mem_cons_name hs hstack) h

/-- The name that ends at the bottom: what comes before it leaves nothing, and what comes
after it does not reach it. -/
def Bottom (up : α) (l : List α) (n : α) : Prop :=
  ∃ pre post, l = pre ++ n :: post ∧ n ≠ up ∧ depth up 0 pre = some 0 ∧ (depth up 0 post).isSome

omit [DecidableEq α] in
theorem getLast_ne_of_top_up {r : Bool} {rest : List α} {n : α} (h : Settled up r (up :: rest)) (hn : n ≠ up) :
    (up :: rest).getLast? ≠ some n := by
  intro hlast
  have hmem : n ∈ up :: rest := List.mem_of_getLast? hlast
  rcases List.mem_cons.mp hmem with heq | hm
  · exact hn heq
  · exact hn ((h.2 rfl).2 n hm)

/-- What lies at the bottom in the end, with the number of names above it. -/
theorem bottom_of_resolve (l : List α) :
    (resolve up false [] l = [] → depth up 0 l = some 0) ∧
      ∀ n, n ≠ up → (resolve up false [] l).getLast? = some n →
        ∃ pre post d, l = pre ++ n :: post ∧ depth up 0 pre = some 0 ∧ depth up 0 post = some d ∧
          (resolve up false [] l).length = d + 1 := by
  induction l using List.reverseRecOn with
  | nil => exact ⟨fun _ => rfl, fun n _ h => nomatch h⟩
  | append_singleton l s ih =>
    obtain ⟨hempty, hbottom⟩ := ih
    have hsettled : Settled up false (resolve up false [] l) :=
      (show Settled up false [] from trivial).resolve l
    rw [resolve_append, resolve_cons, resolve_nil]
    generalize resolve up false [] l = stack at hempty hbottom hsettled ⊢
    by_cases hs : s = up
    · subst hs
      match stack, hempty, hbottom, hsettled with
      | [], _, _, _ =>
        have hstep : step s false [] s = [s] := by simp [step]
        rw [hstep]
        refine ⟨fun h => absurd h (List.cons_ne_nil _ _), fun n hn h => ?_⟩
        rw [List.getLast?_singleton, Option.some.injEq] at h
        exact absurd h.symm hn
      | top :: rest, _, hbottom, hsettled =>
        by_cases htop : top = s
        · subst htop
          have hstep : step top false (top :: rest) top = top :: top :: rest := by simp [step]
          rw [hstep]
          refine ⟨fun h => absurd h (List.cons_ne_nil _ _), fun n hn h => ?_⟩
          rw [List.getLast?_cons_cons] at h
          exact absurd h (getLast_ne_of_top_up hsettled hn)
        · rw [step_up_name htop]
          cases rest with
          | nil =>
            refine ⟨fun _ => ?_, fun n _ h => nomatch h⟩
            obtain ⟨pre, post, d, rfl, hpre, hpost, hlength⟩ := hbottom top htop rfl
            obtain rfl : d = 0 := by simpa using hlength.symm
            have habove := depth_add hpost 1
            rw [List.append_assoc, depth_append, hpre, Option.bind_some, List.cons_append, depth_name htop,
              depth_append, habove, Option.bind_some, depth_up_succ, depth]
          | cons next rest =>
            refine ⟨fun h => absurd h (List.cons_ne_nil _ _), fun n hn h => ?_⟩
            obtain ⟨pre, post, d, rfl, hpre, hpost, hlength⟩ := hbottom n hn (by rwa [List.getLast?_cons_cons])
            obtain ⟨e, rfl⟩ : ∃ e, d = e + 1 := ⟨rest.length, by simpa using hlength.symm⟩
            refine ⟨pre, post ++ [s], e, by simp, hpre, ?_, by simpa using hlength⟩
            rw [depth_append, hpost, Option.bind_some, depth_up_succ, depth]
    · rw [step_name hs]
      refine ⟨fun h => absurd h (List.cons_ne_nil _ _), fun n hn h => ?_⟩
      match stack, hempty, hbottom with
      | [], hempty, _ =>
        rw [List.getLast?_singleton, Option.some.injEq] at h
        subst h
        exact ⟨l, [], 0, rfl, hempty rfl, rfl, rfl⟩
      | top :: rest, _, hbottom =>
        rw [List.getLast?_cons_cons] at h
        obtain ⟨pre, post, d, rfl, hpre, hpost, hlength⟩ := hbottom n hn h
        refine ⟨pre, post ++ [s], d + 1, by simp, hpre, ?_, by rw [List.length_cons, hlength]⟩
        rw [depth_append, hpost, Option.bind_some, depth_name hs, depth]

theorem bottom_iff {l : List α} {n : α} (hn : n ≠ up) :
    (resolve up false [] l).getLast? = some n ↔ Bottom up l n := by
  constructor
  · intro h
    obtain ⟨pre, post, d, hl, hpre, hpost, -⟩ := (bottom_of_resolve l).2 n hn h
    exact ⟨pre, post, hl, hn, hpre, by rw [hpost, Option.isSome_some]⟩
  · rintro ⟨pre, post, rfl, -, hpre, hpost⟩
    obtain ⟨d, hd⟩ := Option.isSome_iff_exists.mp hpost
    have hempty : up ∉ ([] : List α) := List.not_mem_nil
    obtain ⟨-, -, hnone⟩ := resolve_of_depth [] false false hempty hpre
    obtain ⟨hsplit, -, -⟩ := resolve_of_depth [n] false false hempty hd
    rw [resolve_append, List.eq_nil_of_length_eq_zero hnone, resolve_cons, step_name hn]
    rw [List.nil_append] at hsplit
    rw [hsplit, List.getLast?_append]
    rfl

theorem length_resolve_le (l stack base : List α) (hstack : up ∉ stack) (hbase : up ∉ base) :
    (resolve up true (stack ++ base) l).length ≤ (resolve up true stack l).length + base.length := by
  induction l generalizing stack base with
  | nil => simp
  | cons s l ih =>
    by_cases hs : s = up
    · subst hs
      match stack, base with
      | [], [] => exact Nat.le_refl _
      | [], top :: base =>
        have htop : top ≠ s := fun heq => hbase (heq ▸ List.mem_cons_self)
        have hle := ih [] base nofun (fun hm => hbase (List.mem_cons_of_mem _ hm))
        have hroot : step s true [] s = [] := by simp [step]
        rw [resolve_cons, resolve_cons, List.nil_append, step_up_name htop, hroot, List.length_cons]
        exact hle.trans (Nat.le_succ _)
      | top :: stack, base =>
        have htop : top ≠ s := fun heq => hstack (heq ▸ List.mem_cons_self)
        rw [resolve_cons, resolve_cons, List.cons_append, step_up_name htop, step_up_name htop]
        exact ih stack base (fun hm => hstack (List.mem_cons_of_mem _ hm)) hbase
    · rw [resolve_cons, resolve_cons, step_name hs, step_name hs, ← List.cons_append]
      exact ih (s :: stack) base (not_mem_cons_name hs hstack) hbase

/-- Reaching what stands at the bottom leaves less of it. -/
theorem length_resolve_lt {l stack base : List α} (hstack : up ∉ stack) (hbase : up ∉ base)
    (hne : base ≠ []) (h : depth up stack.length l = none) :
    (resolve up true (stack ++ base) l).length < (resolve up true stack l).length + base.length := by
  induction l generalizing stack with
  | nil => cases h
  | cons s l ih =>
    by_cases hs : s = up
    · subst hs
      match stack, base with
      | [], top :: base =>
        have htop : top ≠ s := fun heq => hbase (heq ▸ List.mem_cons_self)
        have hle := length_resolve_le l [] base nofun (fun hm => hbase (List.mem_cons_of_mem _ hm))
        have hroot : step s true [] s = [] := by simp [step]
        rw [resolve_cons, resolve_cons, List.nil_append, step_up_name htop, hroot, List.length_cons]
        exact Nat.lt_succ_of_le hle
      | top :: stack, base =>
        have htop : top ≠ s := fun heq => hstack (heq ▸ List.mem_cons_self)
        rw [resolve_cons, resolve_cons, List.cons_append, step_up_name htop, step_up_name htop]
        rw [List.length_cons, depth_up_succ] at h
        exact ih (fun hm => hstack (List.mem_cons_of_mem _ hm)) h
    · rw [depth_name hs] at h
      rw [resolve_cons, resolve_cons, step_name hs, step_name hs, ← List.cons_append]
      exact ih (not_mem_cons_name hs hstack) h

/-- Renaming segments renames what they lead to. -/
theorem map_resolve {up' : β} (f : α → β) {stack l : List α}
    (hstack : ∀ s ∈ stack, f s = up' ↔ s = up) (hl : ∀ s ∈ l, f s = up' ↔ s = up) (hup : f up = up') :
    (resolve up rooted stack l).map f = resolve up' rooted (stack.map f) (l.map f) ∧
      ∀ s ∈ resolve up rooted stack l, f s = up' ↔ s = up := by
  induction l generalizing stack with
  | nil => exact ⟨rfl, hstack⟩
  | cons s l ih =>
    have hs := hl s List.mem_cons_self
    have hstep : (step up rooted stack s).map f = step up' rooted (stack.map f) (f s) ∧
        ∀ t ∈ step up rooted stack s, f t = up' ↔ t = up := by
      by_cases heq : s = up
      · subst heq
        match stack with
        | [] => cases rooted <;> simp [step, hup]
        | top :: rest =>
          have htop := hstack top List.mem_cons_self
          by_cases ht : top = s
          · simp only [step, hup, ht, if_true, List.map_cons]
            refine ⟨trivial, fun t hm => ?_⟩
            rcases List.mem_cons.mp hm with rfl | hm
            · exact hs
            · exact hstack t (ht ▸ hm)
          · have ht' : f top ≠ up' := fun h => ht (htop.mp h)
            simp only [step, hup, ht, ht', if_true, if_false, List.map_cons]
            exact ⟨trivial, fun t hm => hstack t (List.mem_cons_of_mem _ hm)⟩
      · have hne : f s ≠ up' := fun h => heq (hs.mp h)
        rw [step_name heq, step_name hne]
        refine ⟨rfl, fun t hm => ?_⟩
        rcases List.mem_cons.mp hm with rfl | hm
        · exact hs
        · exact hstack t hm
    rw [List.map_cons, resolve_cons, resolve_cons, ← hstep.1]
    exact ih hstep.2 (fun t ht => hl t (List.mem_cons_of_mem _ ht))

end Back

end Segments
