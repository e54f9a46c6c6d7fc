import Nupp.Lib.Loop
import Mathlib.Data.Int.Notation
import Mathlib.Data.List.Basic
import Mathlib.Data.List.TakeDrop
import Mathlib.Data.List.TakeWhile
import Mathlib.Tactic.Basic
import Mathlib.Tactic.Push

/-! The line reader of `io/internal/bytes`: what it holds of a chunk, where it is in it, and
how much it asks its source for. -/

namespace Nupp.Lines

open Loop

abbrev Bytes := List UInt8

/-- What `read` answers: a line, or no line and why. -/
inductive Answer
  | line (text : Bytes)
  | none (why : Option String)
  | raised (text : String)
  deriving DecidableEq

variable {σ : Type}

/-- A reader's `read`: at most so many bytes, or why there are none; no bytes are the end. -/
abbrev Source (σ : Type) := σ → ℕ → Except (Option String) Bytes × σ

structure LineReader (σ : Type) where
  source : σ
  held : Bytes
  at_ : ℕ
  limit : ℕ
  closed : Bool
  ended : Bool

def DEFAULT_READ : ℕ := 65536

def MAX_EXACT_INTEGER : ℤ := 9007199254740991

def tooLong : Answer := .none (some "a line was longer than the limit")

/-- Where the first newline is, counting bytes from one and looking from the byte `init` on. -/
def findNewline (text : Bytes) (init : ℕ) : Option ℕ := ((text.drop (init - 1)).idxOf? 10).map (· + init)

/-- The bytes from `i` to `j`, counting from one. -/
def sub (text : Bytes) (i j : ℕ) : Bytes := (text.take j).drop (i - 1)

/-- One round of `read`. -/
def readStep (src : Source σ) (r : LineReader σ) : LineReader σ ⊕ Answer × LineReader σ :=
  match findNewline r.held (r.at_ + 1) with
  | some found =>
    let line := sub r.held (r.at_ + 1) (found - 1)
    let line := if line.getLast? = some 13 then line.dropLast else line
    if line.length > r.limit then .inr (tooLong, r)
    else if found ≥ r.held.length then .inr (.line line, { r with held := [], at_ := 0 })
    else .inr (.line line, { r with at_ := found })
  | none =>
    let grace := if r.held.getLast? = some 13 then 1 else 0
    if r.held.length - r.at_ > r.limit + grace then .inr (tooLong, r)
    else if r.ended then
      if r.at_ ≥ r.held.length then .inr (.none none, r)
      else
        let rest := r.held.drop r.at_
        if rest.length > r.limit then .inr (tooLong, r) else .inr (.line rest, { r with held := [], at_ := 0 })
    else
      let held : ℤ := r.held.length - r.at_
      let room : ℤ := r.limit - held
      let wanted : ℤ := if room < DEFAULT_READ - 2 then room + 2 else DEFAULT_READ
      match src r.source wanted.toNat with
      | (.error why, source) => .inr (.none why, { r with source := source })
      | (.ok chunk, source) =>
        if (chunk.length : ℤ) > wanted then
          .inr (.raised "nupp: io.Reader returned more bytes than requested", { r with source := source })
        else if chunk.length = 0 then .inl { r with source := source, ended := true }
        else if r.at_ > 0 then .inl { r with source := source, held := r.held.drop r.at_ ++ chunk, at_ := 0 }
        else .inl { r with source := source, held := r.held ++ chunk }

/-- `read`, in at most `n` rounds. -/
def read (src : Source σ) (n : ℕ) (r : LineReader σ) : Option (Answer × LineReader σ) :=
  if r.closed then some (.none (some "the line reader is closed"), r)
  else loop (fun r => some (readStep src r)) n r

def whole (value : ℤ) (what : String) : Except String ℤ :=
  if (value.natAbs : ℤ) > MAX_EXACT_INTEGER then .error ("nupp: " ++ what ++ " must be an integer") else .ok value

def positive (value : ℤ) (what : String) : Except String ℤ := do
  let answer ← whole value what
  if answer < 1 then throw ("nupp: " ++ what ++ " must be a positive integer")
  return answer

def makeLines (source : σ) (limit : Option ℤ) : Except String (LineReader σ) := do
  let bound ← positive (limit.getD 65536) "io.Reader:lines limit"
  return ⟨source, [], 0, bound.toNat, false, false⟩

end Nupp.Lines

/-! The lines that are read are those of the whole text, whatever chunks it arrives in. -/

namespace Nupp.Lines

open Loop

/-! The lines of a text. -/

/-- A line without the carriage return before its newline. -/
def dropReturn (line : Bytes) : Bytes := if line.getLast? = some 13 then line.dropLast else line

/-- The pieces between newlines: those that a newline ends, and the last one unless it is empty. -/
def linesOf (text : Bytes) : List Bytes :=
  let pieces := text.splitOn 10
  pieces.dropLast.map dropReturn ++ pieces.getLast?.toList.filter (· ≠ [])

/-- What the reads answer: the lines in order and then the end, or the limit's error from the
first line on that is too long. -/
def expected (limit : ℕ) (lines : List Bytes) (i : ℕ) : Answer :=
  if ∃ line ∈ lines.take (i + 1), limit < line.length then tooLong
  else match lines[i]? with
    | some line => .line line
    | none => .none none

/-- What is left once a newline is read. -/
def afterNewline (text : Bytes) : Bytes := (text.dropWhile (· ≠ 10)).drop 1

/-- One read of a text that is all there. -/
def next (limit : ℕ) (text : Bytes) : Answer × Bytes :=
  match linesOf text with
  | [] => (.none none, text)
  | line :: _ => if limit < line.length then (tooLong, text) else (.line line, afterNewline text)

theorem linesOf_newline {a : Bytes} (ha : (10 : UInt8) ∉ a) (b : Bytes) :
    linesOf (a ++ 10 :: b) = dropReturn a :: linesOf b := by
  have hsplit : (a ++ 10 :: b).splitOn 10 = a :: b.splitOn 10 := by
    rw [List.splitOn_append_cons_self, List.splitOn_eq_singleton ha]
    rfl
  obtain ⟨piece, pieces, hb⟩ := List.exists_cons_of_ne_nil (List.splitOn_ne_nil 10 b)
  rw [linesOf, linesOf, hsplit, hb]
  simp only [List.dropLast_cons_cons, List.map_cons, List.getLast?_cons_cons, List.cons_append]

theorem linesOf_last {a : Bytes} (ha : (10 : UInt8) ∉ a) : linesOf a = if a = [] then [] else [a] := by
  rw [linesOf, List.splitOn_eq_singleton ha]
  by_cases hnil : a = []
  · simp [hnil]
  · simp [hnil]

theorem afterNewline_eq {a : Bytes} (ha : (10 : UInt8) ∉ a) (b : Bytes) : afterNewline (a ++ 10 :: b) = b := by
  have hpos : ∀ c ∈ a, decide (c ≠ 10) = true := by
    intro c hc
    refine decide_eq_true fun heq => ha ?_
    rwa [← heq]
  rw [afterNewline, List.dropWhile_append_of_pos hpos, List.dropWhile_cons_of_neg (by decide)]
  rfl

theorem afterNewline_nil {a : Bytes} (ha : (10 : UInt8) ∉ a) : afterNewline a = [] := by
  have hnil : a.dropWhile (· ≠ 10) = [] := by
    refine List.dropWhile_eq_nil_iff.mpr fun c hc => decide_eq_true fun heq => ha ?_
    rwa [← heq]
  rw [afterNewline, hnil]
  rfl

/-- A text has no newline, or a first one. -/
theorem newline_cases (text : Bytes) :
    (10 : UInt8) ∉ text ∨ ∃ a b, text = a ++ 10 :: b ∧ (10 : UInt8) ∉ a := by
  by_cases h : (10 : UInt8) ∈ text
  · obtain ⟨a, b, htext, ha⟩ := List.eq_append_cons_of_mem h
    exact .inr ⟨a, b, htext, ha⟩
  · exact .inl h

/-- The lines after the first one are those of what is left. -/
theorem linesOf_afterNewline {text line : Bytes} {lines : List Bytes} (h : linesOf text = line :: lines) :
    linesOf (afterNewline text) = lines := by
  rcases newline_cases text with hnone | ⟨a, b, rfl, ha⟩
  · rw [afterNewline_nil hnone]
    rw [linesOf_last hnone] at h
    split_ifs at h
    cases h
    rfl
  · rw [afterNewline_eq ha]
    rw [linesOf_newline ha] at h
    exact (List.cons.inj h).2

theorem expected_cons {limit : ℕ} {line : Bytes} (h : line.length ≤ limit) (lines : List Bytes) (i : ℕ) :
    expected limit (line :: lines) (i + 1) = expected limit lines i := by
  simp only [expected, List.take_succ_cons, List.mem_cons, exists_eq_or_imp, Nat.not_lt.mpr h, false_or,
    List.getElem?_cons_succ]

theorem expected_long {limit : ℕ} {line : Bytes} (h : limit < line.length) (lines : List Bytes) (i : ℕ) :
    expected limit (line :: lines) i = tooLong := by
  rw [expected, if_pos]
  exact ⟨line, by simp, h⟩

/-- Reading a text that is all there gives its lines. -/
theorem stream_next (limit : ℕ) (text : Bytes) (k : ℕ) :
    stream (next limit) k text = (List.range k).map (expected limit (linesOf text)) := by
  induction k generalizing text with
  | zero => rfl
  | succ k ih =>
    rw [stream, ih, List.range_succ_eq_map, List.map_cons, List.map_map]
    cases hlines : linesOf text with
    | nil =>
      have hnext : next limit text = (.none none, text) := by rw [next, hlines]
      rw [hnext, hlines]
      simp [expected]
    | cons line lines =>
      by_cases hlong : limit < line.length
      · have hnext : next limit text = (tooLong, text) := by rw [next, hlines]; exact if_pos hlong
        have hall : expected limit (line :: lines) = fun _ => tooLong := funext (expected_long hlong lines)
        rw [hnext, hlines, hall]
        rfl
      · have hnext : next limit text = (.line line, afterNewline text) := by rw [next, hlines]; exact if_neg hlong
        rw [hnext, linesOf_afterNewline hlines]
        have hfirst : expected limit (line :: lines) 0 = .line line := by
          simp [expected, hlong]
        have hrest : expected limit (line :: lines) ∘ Nat.succ = expected limit lines :=
          funext (expected_cons (Nat.not_lt.mp hlong) lines)
        rw [hfirst, hrest]

/-! The source. -/

variable {σ : Type} {src : Source σ}

/-- The source hands out `text` in nonempty chunks no longer than asked for, and then ends. -/
def Delivers (src : Source σ) (s : σ) (text : Bytes) : Prop :=
  ∃ holds : σ → Bytes → Prop, holds s text ∧ ∀ s text wanted, holds s text → 0 < wanted →
    (text = [] ∧ ∃ s', src s wanted = (.ok [], s') ∧ holds s' []) ∨
      ∃ chunk rest s', chunk ≠ [] ∧ chunk.length ≤ wanted ∧ text = chunk ++ rest ∧
        src s wanted = (.ok chunk, s') ∧ holds s' rest

theorem Delivers.step {s : σ} {text : Bytes} (h : Delivers src s text) {wanted : ℕ} (hwanted : 0 < wanted) :
    (text = [] ∧ ∃ s', src s wanted = (.ok [], s') ∧ Delivers src s' []) ∨
      ∃ chunk rest s', chunk ≠ [] ∧ chunk.length ≤ wanted ∧ text = chunk ++ rest ∧
        src s wanted = (.ok chunk, s') ∧ Delivers src s' rest := by
  obtain ⟨holds, hs, hstep⟩ := h
  rcases hstep s text wanted hs hwanted with ⟨rfl, s', hread, hs'⟩ | ⟨chunk, rest, s', hne, hlen, htext, hread, hs'⟩
  · exact .inl ⟨rfl, s', hread, holds, hs', hstep⟩
  · exact .inr ⟨chunk, rest, s', hne, hlen, htext, hread, holds, hs', hstep⟩

/-! The reader. -/

/-- The reader holds the front of `text`, and its source the `rest`. -/
structure Pending (src : Source σ) (limit : ℕ) (r : LineReader σ) (rest text : Bytes) : Prop where
  limit_eq : r.limit = limit
  opened : r.closed = false
  place : r.at_ < r.held.length ∨ r.held = [] ∧ r.at_ = 0
  delivers : Delivers src r.source rest
  ended : r.ended = true → rest = []
  text_eq : r.held.drop r.at_ ++ rest = text

/-- How many rounds a read may still take. -/
def rank (r : LineReader σ) (rest : Bytes) : ℕ := rest.length + if r.ended then 0 else 1

/-- A first piece that is already too long, whatever follows it. A carriage return at its end may
be half of the newline. -/
theorem linesOf_long {limit : ℕ} {front : Bytes} (hfront : (10 : UInt8) ∉ front)
    (h : limit + (if front.getLast? = some 13 then 1 else 0) < front.length) (rest : Bytes) :
    ∃ line lines, linesOf (front ++ rest) = line :: lines ∧ limit < line.length := by
  rcases newline_cases rest with hnone | ⟨a, b, rfl, ha⟩
  · have hmem : (10 : UInt8) ∉ front ++ rest := by
      simp only [List.mem_append, not_or]
      exact ⟨hfront, hnone⟩
    have hne : front ++ rest ≠ [] := by
      intro hnil
      rw [(List.append_eq_nil_iff.mp hnil).1] at h
      simp at h
    refine ⟨front ++ rest, [], by rw [linesOf_last hmem, if_neg hne], ?_⟩
    rw [List.length_append]
    omega
  · have hmem : (10 : UInt8) ∉ front ++ a := by
      simp only [List.mem_append, not_or]
      exact ⟨hfront, ha⟩
    refine ⟨dropReturn (front ++ a), linesOf b, by rw [← List.append_assoc, linesOf_newline hmem], ?_⟩
    cases a with
    | nil =>
      rw [List.append_nil, dropReturn]
      split_ifs at h ⊢
      · rw [List.length_dropLast]
        omega
      · omega
    | cons c a =>
      have hlen : (front ++ c :: a).length - 1 ≤ (dropReturn (front ++ c :: a)).length := by
        rw [dropReturn]
        split_ifs
        · rw [List.length_dropLast]
        · omega
      rw [List.length_append, List.length_cons] at hlen
      omega

theorem findNewline_none {held : Bytes} {start : ℕ} (h : (10 : UInt8) ∉ held.drop start) :
    findNewline held (start + 1) = none := by
  rw [findNewline, Nat.add_sub_cancel, List.idxOf?_eq_none_iff.mpr h, Option.map_none]

theorem findNewline_some {held a b : Bytes} {start : ℕ} (h : held.drop start = a ++ 10 :: b)
    (ha : (10 : UInt8) ∉ a) : findNewline held (start + 1) = some (start + a.length + 1) := by
  have hindex : (a ++ 10 :: b).idxOf? 10 = some a.length := by
    rw [List.idxOf?_eq_some_iff]
    refine ⟨by simp, by simp, fun j hj => ?_⟩
    rw [List.getElem_append_left hj]
    intro heq
    exact ha (heq ▸ List.getElem_mem hj)
  rw [findNewline, Nat.add_sub_cancel, h, hindex, Option.map_some]
  congr 1
  omega

theorem sub_newline {held a b : Bytes} {start : ℕ} (h : held.drop start = a ++ 10 :: b) :
    sub held (start + 1) (start + a.length) = a := by
  rw [sub, Nat.add_sub_cancel, ← List.take_drop, h, List.take_left']
  rfl

theorem drop_newline {held a b : Bytes} {start : ℕ} (h : held.drop start = a ++ 10 :: b) :
    held.drop (start + a.length + 1) = b := by
  rw [Nat.add_assoc, ← List.drop_drop, h, List.drop_append, List.drop_eq_nil_of_le (by omega)]
  simp

theorem Pending.at_le {limit : ℕ} {r : LineReader σ} {rest text : Bytes} (h : Pending src limit r rest text) :
    r.at_ ≤ r.held.length := by
  rcases h.place with hlt | ⟨-, hzero⟩
  · exact hlt.le
  · rw [hzero]
    exact Nat.zero_le _

/-- A round that finds a newline. -/
theorem readStep_found {limit : ℕ} {r : LineReader σ} {rest text a b : Bytes} (h : Pending src limit r rest text)
    (hfront : r.held.drop r.at_ = a ++ 10 :: b) (ha : (10 : UInt8) ∉ a) :
    ∃ r', readStep src r = .inr ((next limit text).1, r') ∧ Pending src limit r' rest (next limit text).2 := by
  have htext : text = a ++ 10 :: (b ++ rest) := by
    rw [← h.text_eq, hfront, List.append_assoc, List.cons_append]
  have hlines : linesOf text = dropReturn a :: linesOf (b ++ rest) := by rw [htext, linesOf_newline ha]
  have hafter : afterNewline text = b ++ rest := by rw [htext, afterNewline_eq ha]
  have hb := drop_newline hfront
  have hround : readStep src r = if (dropReturn a).length > limit then .inr (tooLong, r)
      else if r.at_ + a.length + 1 ≥ r.held.length then .inr (.line (dropReturn a), { r with held := [], at_ := 0 })
      else .inr (.line (dropReturn a), { r with at_ := r.at_ + a.length + 1 }) := by
    rw [readStep, findNewline_some hfront ha]
    simp only [Nat.add_sub_cancel, sub_newline hfront, h.limit_eq]
    rfl
  rw [hround, next, hlines, hafter]
  dsimp only
  by_cases hlong : limit < (dropReturn a).length
  · rw [if_pos hlong, if_pos hlong]
    exact ⟨r, rfl, h⟩
  rw [if_neg hlong, if_neg hlong]
  by_cases hend : r.at_ + a.length + 1 ≥ r.held.length
  · rw [if_pos hend]
    obtain rfl : b = [] := by rw [← hb, List.drop_eq_nil_of_le hend]
    exact ⟨_, rfl, h.limit_eq, h.opened, .inr ⟨rfl, rfl⟩, h.delivers, h.ended, rfl⟩
  · rw [if_neg hend]
    exact ⟨_, rfl, h.limit_eq, h.opened, .inl (Nat.lt_of_not_le hend), h.delivers, h.ended, by rw [← hb]⟩

/-- The bytes held and how many more of them there may be. -/
def Full (limit : ℕ) (front : Bytes) : Prop :=
  limit + (if front.getLast? = some 13 then 1 else 0) < front.length

instance (limit : ℕ) (front : Bytes) : Decidable (Full limit front) := by
  unfold Full
  infer_instance

theorem full_iff {limit : ℕ} {r : LineReader σ} {rest text : Bytes} (h : Pending src limit r rest text) :
    (r.held.length - r.at_ > r.limit + if r.held.getLast? = some 13 then 1 else 0) ↔
      Full limit (r.held.drop r.at_) := by
  rw [Full, List.length_drop, h.limit_eq]
  rcases h.place with hlt | ⟨hheld, hzero⟩
  · have hlast : (r.held.drop r.at_).getLast? = r.held.getLast? := by
      rw [List.getLast?_drop, if_neg (Nat.not_le.mpr hlt)]
    rw [hlast]
  · rw [hheld, hzero]
    rfl

/-- A round with no newline held and the limit passed. -/
theorem readStep_full {limit : ℕ} {r : LineReader σ} {rest text : Bytes} (h : Pending src limit r rest text)
    (hnone : (10 : UInt8) ∉ r.held.drop r.at_) (hfull : Full limit (r.held.drop r.at_)) :
    readStep src r = .inr ((next limit text).1, r) ∧ (next limit text).2 = text := by
  obtain ⟨line, lines, hlines, hlong⟩ := linesOf_long hnone hfull rest
  rw [h.text_eq] at hlines
  have hnext : next limit text = (tooLong, text) := by
    rw [next, hlines]
    exact if_pos hlong
  rw [hnext]
  refine ⟨?_, rfl⟩
  rw [readStep, findNewline_none hnone]
  exact if_pos ((full_iff h).mpr hfull)

/-- A round at the end of the source. -/
theorem readStep_ended {limit : ℕ} {r : LineReader σ} {rest text : Bytes} (h : Pending src limit r rest text)
    (hnone : (10 : UInt8) ∉ r.held.drop r.at_) (hroom : ¬Full limit (r.held.drop r.at_)) (hended : r.ended = true) :
    ∃ r', readStep src r = .inr ((next limit text).1, r') ∧ Pending src limit r' rest (next limit text).2 := by
  obtain rfl : rest = [] := h.ended hended
  have htext : text = r.held.drop r.at_ := by rw [← h.text_eq, List.append_nil]
  have hlines : linesOf text = if text = [] then [] else [text] := linesOf_last (htext ▸ hnone)
  have hafter : afterNewline text = [] := afterNewline_nil (htext ▸ hnone)
  have hround : readStep src r = if r.at_ ≥ r.held.length then .inr (.none none, r)
      else if text.length > limit then .inr (tooLong, r)
      else .inr (.line text, { r with held := [], at_ := 0 }) := by
    rw [readStep, findNewline_none hnone]
    simp only [if_neg ((full_iff h).not.mpr hroom)]
    simp only [hended, if_true, h.limit_eq, ← htext]
  have hempty : r.at_ ≥ r.held.length ↔ text = [] := by rw [htext, List.drop_eq_nil_iff]
  rw [hround, next, hlines]
  by_cases hnil : text = []
  · rw [if_pos (hempty.mpr hnil), if_pos hnil]
    exact ⟨r, rfl, h⟩
  rw [if_neg (hempty.not.mpr hnil), if_neg hnil]
  dsimp only
  by_cases hlong : limit < text.length
  · rw [if_pos hlong, if_pos hlong]
    exact ⟨r, rfl, h⟩
  · rw [if_neg hlong, if_neg hlong, hafter]
    exact ⟨_, rfl, h.limit_eq, h.opened, .inr ⟨rfl, rfl⟩, h.delivers, h.ended, rfl⟩

/-- A round that reads on. -/
theorem readStep_more {limit : ℕ} {r : LineReader σ} {rest text : Bytes} (h : Pending src limit r rest text)
    (hnone : (10 : UInt8) ∉ r.held.drop r.at_) (hroom : ¬Full limit (r.held.drop r.at_)) (hended : r.ended = false) :
    ∃ r' rest', readStep src r = .inl r' ∧ Pending src limit r' rest' text ∧ rank r' rest' < rank r rest := by
  have hle := h.at_le
  obtain ⟨wanted, hpos, hround⟩ : ∃ wanted : ℕ, 0 < wanted ∧ readStep src r =
      match src r.source wanted with
      | (.error why, source) => .inr (.none why, { r with source := source })
      | (.ok chunk, source) =>
        if (chunk.length : ℤ) > wanted then
          .inr (.raised "nupp: io.Reader returned more bytes than requested", { r with source := source })
        else if chunk.length = 0 then .inl { r with source := source, ended := true }
        else if r.at_ > 0 then .inl { r with source := source, held := r.held.drop r.at_ ++ chunk, at_ := 0 }
        else .inl { r with source := source, held := r.held ++ chunk } := by
    obtain ⟨wanted, hwanted⟩ : ∃ wanted : ℕ,
        (if (r.limit : ℤ) - (r.held.length - r.at_) < DEFAULT_READ - 2 then (r.limit : ℤ) - (r.held.length - r.at_) + 2
          else DEFAULT_READ) = wanted ∧ 0 < wanted := by
      have hshort : r.held.length - r.at_ ≤ r.limit + 1 := by
        have hle := (full_iff h).not.mpr hroom
        split_ifs at hle <;> omega
      have hdefault : DEFAULT_READ = 65536 := rfl
      split_ifs
      · exact ⟨((r.limit : ℤ) - (r.held.length - r.at_) + 2).toNat, by omega, by omega⟩
      · exact ⟨DEFAULT_READ, rfl, by omega⟩
    refine ⟨wanted, hwanted.2, ?_⟩
    rw [readStep, findNewline_none hnone]
    simp only [if_neg ((full_iff h).not.mpr hroom), hended, Bool.false_eq_true, if_false, hwanted.1, Int.toNat_natCast]
  rcases h.delivers.step hpos with ⟨rfl, s', hread, hs'⟩ | ⟨chunk, rest', s', hne, hlen, rfl, hread, hs'⟩
  · refine ⟨{ r with source := s', ended := true }, [], ?_, ?_, ?_⟩
    · rw [hround, hread]
      simp
    · exact ⟨h.limit_eq, h.opened, h.place, hs', fun _ => rfl, h.text_eq⟩
    · simp [rank, hended]
  · have hcount : ¬(chunk.length : ℤ) > wanted := by omega
    have hsome : ¬chunk.length = 0 := by rwa [List.length_eq_zero_iff]
    refine ⟨if r.at_ > 0 then { r with source := s', held := r.held.drop r.at_ ++ chunk, at_ := 0 }
      else { r with source := s', held := r.held ++ chunk }, rest', ?_, ?_, ?_⟩
    · rw [hround, hread]
      simp only [if_neg hcount, if_neg hsome]
      split_ifs <;> rfl
    · have htext := h.text_eq
      have hplace : 0 < chunk.length := Nat.pos_of_ne_zero hsome
      split_ifs with hat
      · refine ⟨h.limit_eq, h.opened, .inl ?_, hs', fun he => ?_, ?_⟩
        · dsimp only
          rw [List.length_append]
          omega
        · rw [hended] at he
          cases he
        · rw [List.drop_zero, List.append_assoc, htext]
      · obtain hzero : r.at_ = 0 := by omega
        refine ⟨h.limit_eq, h.opened, .inl ?_, hs', fun he => ?_, ?_⟩
        · rw [hzero, List.length_append]
          omega
        · rw [hended] at he
          cases he
        · rw [hzero, List.drop_zero] at htext ⊢
          rw [List.append_assoc, htext]
    · have hsame : (if r.at_ > 0 then { r with source := s', held := r.held.drop r.at_ ++ chunk, at_ := 0 }
          else { r with source := s', held := r.held ++ chunk } : LineReader σ).ended = r.ended := by
        split_ifs <;> rfl
      rw [rank, rank, hsame, List.length_append]
      omega

/-- A read answers as one of the whole text, and the reader is left with what that leaves. -/
theorem read_follows {limit : ℕ} {r : LineReader σ} {rest text : Bytes} (h : Pending src limit r rest text) {n : ℕ}
    (hn : rest.length + 1 < n) :
    ∃ r' rest', read src n r = some ((next limit text).1, r') ∧ Pending src limit r' rest' (next limit text).2 ∧
      rest'.length ≤ rest.length := by
  have hrank : rank r rest ≤ rest.length + 1 := by
    rw [rank]
    split_ifs <;> omega
  have hbound : ∀ (k : ℕ) (r : LineReader σ),
      (∃ rest', Pending src limit r rest' text ∧ rest'.length ≤ rest.length ∧ k = rank r rest') →
      (∃ r' m, (some (readStep src r) : Option (LineReader σ ⊕ Answer × LineReader σ)) = some (.inl r') ∧
        (∃ rest', Pending src limit r' rest' text ∧ rest'.length ≤ rest.length ∧ m = rank r' rest') ∧ m < k) ∨
      ∃ a, (some (readStep src r) : Option (LineReader σ ⊕ Answer × LineReader σ)) = some (.inr a) ∧
        a.1 = (next limit text).1 ∧
          ∃ rest', Pending src limit a.2 rest' (next limit text).2 ∧ rest'.length ≤ rest.length := by
    rintro k r ⟨rest', hr, hle, rfl⟩
    rcases newline_cases (r.held.drop r.at_) with hnone | ⟨a, b, hfront, ha⟩
    · by_cases hfull : Full limit (r.held.drop r.at_)
      · obtain ⟨hround, hsame⟩ := readStep_full hr hnone hfull
        exact .inr ⟨_, congrArg some hround, rfl, rest', by rw [hsame]; exact hr, hle⟩
      · cases hended : r.ended with
        | true =>
          obtain ⟨r', hround, hr'⟩ := readStep_ended hr hnone hfull hended
          exact .inr ⟨_, congrArg some hround, rfl, rest', hr', hle⟩
        | false =>
          obtain ⟨r', rest'', hround, hr', hlt⟩ := readStep_more hr hnone hfull hended
          have hless : rest''.length ≤ rest'.length := by
            rw [rank, rank, hended] at hlt
            split_ifs at hlt <;> omega
          exact .inl ⟨r', _, congrArg some hround, ⟨rest'', hr', hless.trans hle, rfl⟩, hlt⟩
    · obtain ⟨r', hround, hr'⟩ := readStep_found hr hfront ha
      exact .inr ⟨_, congrArg some hround, rfl, rest', hr', hle⟩
  obtain ⟨⟨answer, r'⟩, hloop, hanswer, rest', hr', hle⟩ :=
    loop_ranked hbound ⟨rest, h, le_rfl, rfl⟩ (show rank r rest < n by omega)
  dsimp only at hanswer hr'
  refine ⟨r', rest', ?_, hr', hle⟩
  rw [read, h.opened, if_neg (by decide), hloop, hanswer]

/-- The reads of a reader give the lines of the text its source delivers, however it is cut. -/
theorem read_lines {source : σ} {text : Bytes} (h : Delivers src source text) {limit : ℕ} (hpos : 0 < limit)
    (hexact : limit ≤ MAX_EXACT_INTEGER) :
    ∃ r, makeLines source (some limit) = .ok r ∧ ∀ n k, text.length + 1 < n →
      answers (read src n) k r = some ((List.range k).map (expected limit (linesOf text))) := by
  have hmake : makeLines source (some limit) = .ok ⟨source, [], 0, limit, false, false⟩ := by
    have hwhole : ¬(limit : ℤ) > MAX_EXACT_INTEGER := by omega
    have hpositive : ¬(limit : ℤ) < 1 := by omega
    simp only [makeLines, positive, whole, Option.getD_some, Int.natAbs_natCast, if_neg hwhole]
    simp only [bind, Except.bind, if_neg hpositive]
    rfl
  have hstart : Pending src limit ⟨source, [], 0, limit, false, false⟩ text text :=
    ⟨rfl, rfl, .inr ⟨rfl, rfl⟩, h, fun he => Bool.noConfusion he, rfl⟩
  refine ⟨_, hmake, fun n k hn => ?_⟩
  have hfollows : ∀ (r : LineReader σ) (t : Bytes), (∃ rest, Pending src limit r rest t ∧ rest.length ≤ text.length) →
      ∃ r', read src n r = some ((next limit t).1, r') ∧
        ∃ rest, Pending src limit r' rest (next limit t).2 ∧ rest.length ≤ text.length := by
    rintro r t ⟨rest, hr, hle⟩
    obtain ⟨r', rest', hread, hr', hle'⟩ := read_follows hr (show rest.length + 1 < n by omega)
    exact ⟨r', hread, rest', hr', hle'.trans hle⟩
  rw [← stream_next]
  exact answers_eq_stream hfollows ⟨text, hstart, le_rfl⟩ k

/-- A source that hands out one byte at a time. -/
def oneByte : Source Bytes
  | [], _ => (.ok [], [])
  | b :: rest, _ => (.ok [b], rest)

theorem delivers_oneByte (text : Bytes) : Delivers oneByte text text := by
  refine ⟨Eq, rfl, ?_⟩
  rintro s text wanted rfl hwanted
  cases s with
  | nil => exact .inl ⟨rfl, [], rfl, rfl⟩
  | cons b rest => exact .inr ⟨[b], rest, rest, by simp, hwanted, rfl, rfl, rfl⟩

theorem read_lines_oneByte :
    ∃ r, makeLines [97, 13, 10, 98, 99] (some 2) = .ok r ∧ ∀ n k, 6 < n →
      answers (read oneByte n) k r = some ((List.range k).map (expected 2 [[97], [98, 99]])) :=
  read_lines (delivers_oneByte [97, 13, 10, 98, 99]) (by decide) (by decide)

end Nupp.Lines
