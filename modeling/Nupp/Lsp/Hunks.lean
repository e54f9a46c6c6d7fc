import Mathlib.Algebra.Order.Group.Nat
import Mathlib.Data.List.Basic
import Mathlib.Tactic.SplitIfs
import Nupp.Lib.Loop

/-! The runs of lines that turn one text into another (`lineHunks` of `nupp/tools/lsp/text.nupp`). -/

namespace Nupp.lsp.text

open Loop

variable {α : Type} [DecidableEq α]

/-- `from_` to `to_` is a half-open span of line numbers, which count from one. -/
structure Hunk (α : Type) where
  from_ : ℕ
  to_ : ℕ
  lines : List α

def RESYNC : ℕ := 64

structure HunkState (α : Type) where
  hunks : List (Hunk α)
  i : ℕ
  j : ℕ

/-- A line past the end matches none. -/
def sameLine (before after : List α) (i j : ℕ) : Bool :=
  (before[i - 1]?).isSome && before[i - 1]? = after[j - 1]?

/-- The nearest lines ahead that match, by the sum of both distances. -/
def resync (before after : List α) (i j : ℕ) : Option (ℕ × ℕ) :=
  (List.range' 1 RESYNC).findSome? fun distance =>
    ((List.range (distance + 1)).find? fun di => sameLine before after (i + di) (j + (distance - di))).map
      fun di => (di, distance - di)

def hunkStep (before after : List α) (s : HunkState α) : Option (HunkState α ⊕ List (Hunk α)) :=
  if s.i ≤ before.length ∨ s.j ≤ after.length then
    if sameLine before after s.i s.j then some (.inl { s with i := s.i + 1, j := s.j + 1 })
    else
      let skip := (resync before after s.i s.j).getD (before.length + 1 - s.i, after.length + 1 - s.j)
      let lines := (after.drop (s.j - 1)).take skip.2
      some (.inl ⟨s.hunks ++ [⟨s.i, s.i + skip.1, lines⟩], s.i + skip.1, s.j + skip.2⟩)
  else some (.inr s.hunks)

def lineHunks (before after : List α) : Option (List (Hunk α)) :=
  loop (hunkStep before after) (before.length + after.length + 1) ⟨[], 1, 1⟩

/-! Applying hunks. -/

/-- The lines from `at_` on with the span of each hunk replaced by its lines. -/
def patch (before : List α) : ℕ → List (Hunk α) → List α
  | at_, [] => before.drop (at_ - 1)
  | at_, h :: hunks => (before.drop (at_ - 1)).take (h.from_ - at_) ++ h.lines ++ patch before h.to_ hunks

/-- The spans of hunks in order, in a text of so many lines. -/
structure Spans (length : ℕ) (hunks : List (Hunk α)) : Prop where
  within : ∀ h ∈ hunks, 1 ≤ h.from_ ∧ h.from_ ≤ h.to_ ∧ h.to_ ≤ length + 1
  ordered : hunks.Pairwise fun h k => h.to_ ≤ k.from_

/-- The first line of the span and the line that takes its place differ. -/
def Differs (before : List α) (h : Hunk α) : Prop :=
  ∀ x y, h.from_ < h.to_ → before[h.from_ - 1]? = some x → h.lines.head? = some y → x ≠ y

theorem sameLine_iff {before after : List α} {i j : ℕ} :
    sameLine before after i j = true ↔ ∃ x, before[i - 1]? = some x ∧ after[j - 1]? = some x := by
  rw [sameLine, Bool.and_eq_true, decide_eq_true_eq, Option.isSome_iff_exists]
  constructor
  · rintro ⟨⟨x, hx⟩, heq⟩
    exact ⟨x, hx, heq ▸ hx⟩
  · rintro ⟨x, hx, hy⟩
    exact ⟨⟨x, hx⟩, hx.trans hy.symm⟩

theorem resync_some {before after : List α} {i j : ℕ} {skip : ℕ × ℕ} (h : resync before after i j = some skip) :
    0 < skip.1 + skip.2 ∧ sameLine before after (i + skip.1) (j + skip.2) = true := by
  obtain ⟨distance, hmem, hfind⟩ := List.exists_of_findSome?_eq_some h
  obtain ⟨di, hdi, rfl⟩ := Option.map_eq_some_iff.mp hfind
  have hle := List.mem_range.mp (List.mem_of_find?_eq_some hdi)
  have hpos := (List.mem_range'_1.mp hmem).1
  have hsame : sameLine before after (i + di) (j + (distance - di)) = true :=
    List.find?_some (p := fun di => sameLine before after (i + di) (j + (distance - di))) hdi
  exact ⟨by dsimp only; omega, hsame⟩

omit [DecidableEq α] in
theorem patch_step {before : List α} {i : ℕ} {x : α} (hx : before[i - 1]? = some x) (hi : 1 ≤ i) {hunks : List (Hunk α)}
    (h : ∀ k ∈ hunks.head?, i + 1 ≤ k.from_) : patch before i hunks = x :: patch before (i + 1) hunks := by
  have hdrop : before.drop (i - 1) = x :: before.drop i := by
    obtain ⟨hlt, rfl⟩ := List.getElem?_eq_some_iff.mp hx
    rw [List.drop_eq_getElem_cons hlt, Nat.sub_add_cancel hi]
  cases hunks with
  | nil => exact hdrop
  | cons k hunks =>
    have hle := h k rfl
    have hcount : k.from_ - i = k.from_ - (i + 1) + 1 := by omega
    rw [patch, patch, hdrop, hcount, List.take_succ_cons, Nat.add_sub_cancel]
    rfl

/-! The loop. -/

/-- What has been read of both texts is related by the hunks so far. -/
structure Patched (before after : List α) (s : HunkState α) : Prop where
  low : 1 ≤ s.i ∧ 1 ≤ s.j
  high : s.i ≤ before.length + 1 ∧ s.j ≤ after.length + 1
  spans : Spans before.length s.hunks
  behind : ∀ h ∈ s.hunks, h.to_ ≤ s.i
  differs : ∀ h ∈ s.hunks, Differs before h
  patched : ∀ hunks : List (Hunk α), (∀ k ∈ hunks.head?, s.i ≤ k.from_) →
    patch before 1 (s.hunks ++ hunks) = after.take (s.j - 1) ++ patch before s.i hunks

theorem Patched.match_step {before after : List α} {s : HunkState α} (h : Patched before after s)
    (hsame : sameLine before after s.i s.j = true) :
    Patched before after { s with i := s.i + 1, j := s.j + 1 } := by
  obtain ⟨x, hx, hy⟩ := sameLine_iff.mp hsame
  obtain ⟨hi, hj⟩ := h.low
  have hlti := (List.getElem?_eq_some_iff.mp hx).1
  have hltj := (List.getElem?_eq_some_iff.mp hy).1
  refine ⟨⟨by dsimp only; omega, by dsimp only; omega⟩, ⟨by dsimp only; omega, by dsimp only; omega⟩, h.spans,
    fun k hk => (h.behind k hk).trans (Nat.le_succ _), h.differs, fun hunks hfrom => ?_⟩
  have htake : after.take (s.j + 1 - 1) = after.take (s.j - 1) ++ [x] := by
    have hcount : s.j + 1 - 1 = s.j - 1 + 1 := by omega
    rw [hcount, List.take_add_one, hy]
    rfl
  have hless : ∀ k ∈ hunks.head?, s.i ≤ k.from_ := fun k hk => (Nat.le_succ _).trans (hfrom k hk)
  rw [h.patched hunks hless, patch_step hx hi hfrom, htake, List.append_assoc]
  rfl

theorem Patched.hunk_step {before after : List α} {s : HunkState α} (h : Patched before after s)
    (hsame : sameLine before after s.i s.j ≠ true) {skip : ℕ × ℕ} (hbefore : s.i + skip.1 ≤ before.length + 1)
    (hafter : s.j + skip.2 ≤ after.length + 1) :
    Patched before after
      ⟨s.hunks ++ [⟨s.i, s.i + skip.1, (after.drop (s.j - 1)).take skip.2⟩], s.i + skip.1, s.j + skip.2⟩ := by
  obtain ⟨hi, hj⟩ := h.low
  refine ⟨⟨by dsimp only; omega, by dsimp only; omega⟩, ⟨hbefore, hafter⟩, ⟨?_, ?_⟩, ?_, ?_, fun hunks _ => ?_⟩
  · intro k hk
    rcases List.mem_append.mp hk with hk | hk
    · exact h.spans.within k hk
    · rw [List.mem_singleton.mp hk]
      exact ⟨hi, Nat.le_add_right _ _, hbefore⟩
  · refine List.pairwise_append.mpr ⟨h.spans.ordered, List.pairwise_singleton _ _, fun k hk l hl => ?_⟩
    rw [List.mem_singleton.mp hl]
    exact h.behind k hk
  · intro k hk
    rcases List.mem_append.mp hk with hk | hk
    · exact (h.behind k hk).trans (Nat.le_add_right _ _)
    · obtain rfl := List.mem_singleton.mp hk
      exact le_rfl
  · intro k hk
    rcases List.mem_append.mp hk with hk | hk
    · exact h.differs k hk
    · rw [List.mem_singleton.mp hk]
      rintro x y - hx hy rfl
      have hhead : after[s.j - 1]? = some x := by
        rw [List.head?_take] at hy
        split_ifs at hy
        rwa [List.head?_drop] at hy
      exact hsame (sameLine_iff.mpr ⟨x, hx, hhead⟩)
  · have hcount : s.j + skip.2 - 1 = s.j - 1 + skip.2 := by omega
    rw [List.append_assoc, h.patched _ (fun k hk => by obtain rfl := Option.some.inj hk; exact le_rfl), hcount,
      List.take_add, List.append_assoc]
    simp [patch]

theorem hunkStep_advances (before after : List α) :
    Advances (hunkStep before after) (Patched before after)
      (fun s => (before.length + 1 - s.i) + (after.length + 1 - s.j))
      fun hunks => Spans before.length hunks ∧ patch before 1 hunks = after ∧ ∀ h ∈ hunks, Differs before h := by
  intro s h
  obtain ⟨hi, hj⟩ := h.low
  obtain ⟨hi', hj'⟩ := h.high
  by_cases hmore : s.i ≤ before.length ∨ s.j ≤ after.length
  · left
    by_cases hsame : sameLine before after s.i s.j = true
    · refine ⟨_, by rw [hunkStep, if_pos hmore, if_pos hsame], h.match_step hsame, ?_⟩
      dsimp only
      omega
    · have hskip : ∀ skip, (resync before after s.i s.j).getD (before.length + 1 - s.i, after.length + 1 - s.j) = skip →
          0 < skip.1 + skip.2 ∧ s.i + skip.1 ≤ before.length + 1 ∧ s.j + skip.2 ≤ after.length + 1 := by
        rintro skip rfl
        cases hfound : resync before after s.i s.j with
        | none =>
          simp only [Option.getD_none]
          omega
        | some skip =>
          obtain ⟨hpos, hmatch⟩ := resync_some hfound
          obtain ⟨x, hx, hy⟩ := sameLine_iff.mp hmatch
          have hltx := (List.getElem?_eq_some_iff.mp hx).1
          have hlty := (List.getElem?_eq_some_iff.mp hy).1
          simp only [Option.getD_some]
          omega
      obtain ⟨hpos, hbefore, hafter⟩ := hskip _ rfl
      refine ⟨_, by rw [hunkStep, if_pos hmore, if_neg hsame], h.hunk_step hsame hbefore hafter, ?_⟩
      dsimp only
      omega
  · right
    refine ⟨s.hunks, by rw [hunkStep, if_neg hmore], h.spans, ?_, h.differs⟩
    have hend := h.patched [] nofun
    have htake : s.j - 1 = after.length := by omega
    have hdrop : s.i - 1 = before.length := by omega
    rw [List.append_nil, htake, List.take_length, patch, hdrop, List.drop_length, List.append_nil] at hend
    exact hend

/-- The hunks of two texts are a patch that turns the first into the second. -/
theorem lineHunks_patch (before after : List α) :
    ∃ hunks, lineHunks before after = some hunks ∧ Spans before.length hunks ∧ patch before 1 hunks = after ∧
      ∀ h ∈ hunks, Differs before h := by
  have hstart : Patched before after ⟨[], 1, 1⟩ :=
    ⟨⟨le_rfl, le_rfl⟩, ⟨by dsimp only; omega, by dsimp only; omega⟩, ⟨nofun, .nil⟩, nofun, nofun, fun _ _ => rfl⟩
  exact loop_total (hunkStep_advances before after) hstart (by dsimp only; omega)

end Nupp.lsp.text
